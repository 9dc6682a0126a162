import QwenStack.TreeCore.Fragments
import QwenStack.TreeCore.Radix

/-!
# Tree core — a split changes nothing that the tree holds

The child keeps its place at the end of the whole of its key, with the lower part of it, and the new node
above has the upper part: paths on the device are those there were, and the one to the new node
(`Cut.of_onDevice`).  So a split keeps the map (`Cut.deviceMap`).
-/

namespace QwenStack.TreeCore
open Assoc UnifiedTreeCore Prefixes List

/-! ### Changes that are not seen -/

/-- The trees have the same shape and the same slots. -/
structure SameStored (s t : UnifiedTreeCore) : Prop where
  shape : SameShape s t
  value : ∀ i, t.deviceValue i = s.deviceValue i

namespace SameStored

variable {s t u : UnifiedTreeCore}

theorem trans (h : SameStored s t) (h' : SameStored t u) : SameStored s u :=
  ⟨h.shape.trans h'.shape, fun i => (h'.value i).trans (h.value i)⟩

theorem updateEvictableLeafSets (s : UnifiedTreeCore) (i : NodeId) :
    SameStored s (s.updateEvictableLeafSets i) := ⟨.updateEvictableLeafSets s i, fun _ => rfl⟩

theorem updateDuplicateTracking (s : UnifiedTreeCore) (i : NodeId) :
    SameStored s (s.updateDuplicateTracking i) := ⟨.updateDuplicateTracking s i, fun _ => rfl⟩

theorem addEvictable (s : UnifiedTreeCore) (c : ComponentType) (n : Int) :
    SameStored s (s.addEvictable c n) := ⟨.addEvictable s c n, fun _ => rfl⟩

theorem stored (h : SameStored s t) (hs : Stored s) : Stored t where
  root := by rw [h.shape.rootNode, h.value, hs.root]
  length i hi v hv := by
    rw [h.value] at hv
    rw [h.shape.key]
    exact hs.length i (h.shape.nodeArena ▸ hi) v hv
  closed i hi p hp hv := by
    rw [h.shape.parent] at hp
    rw [h.value] at hv ⊢
    exact hs.closed i (h.shape.nodeArena ▸ hi) p hp hv

theorem edge (h : SameStored s t) {p c : NodeId} {w : Tensor} : Edge t p c w ↔ Edge s p c w := by
  constructor
  · rintro ⟨hp, hl, hw⟩
    rw [h.shape.children, h.shape.key, childKey_congr h.shape.pageSize] at hl
    exact ⟨h.shape.nodeArena ▸ hp, hl, (h.value c).symm.trans hw⟩
  · rintro ⟨hp, hl, hw⟩
    refine ⟨h.shape.nodeArena.symm ▸ hp, ?_, (h.value c).trans hw⟩
    rw [h.shape.children, h.shape.key, childKey_congr h.shape.pageSize]
    exact hl

theorem onDevice (h : SameStored s t) {i : NodeId} {k : Key} {v : Tensor} :
    OnDevice t k v i ↔ OnDevice s k v i :=
  ⟨.of_edge h.shape.rootNode.symm fun he => ⟨h.edge.mp he, (h.shape.key _).symm⟩,
    .of_edge h.shape.rootNode fun he => ⟨h.edge.mpr he, h.shape.key _⟩⟩

theorem deviceMap (h : SameStored s t) : t.deviceMap = s.deviceMap :=
  deviceMap_congr h.shape.pageSize fun _ _ _ => h.onDevice

end SameStored

/-! ### Splits -/

/-- What is cut: a child, inside its key, behind a page. -/
structure Cut (s : UnifiedTreeCore) (p child : NodeId) (n : Nat) : Prop where
  radix : Radix s
  stored : Stored s
  mem : p ∈ s.nodeArena
  isChild : Child s p child
  dvd : s.pageSize ∣ n
  pos : 0 < n
  lt : n < (s.nodes child).key.length

namespace Cut

variable {s : UnifiedTreeCore} {p child i j : NodeId} {n : Nat} {k : Key} {v w : Tensor}

theorem pageSize_le (h : Cut s p child n) : s.pageSize ≤ n := Nat.le_of_dvd h.pos h.dvd

theorem parent_ne (h : Cut s p child n) : p ≠ s.counter := h.radix.ne_counter h.mem

theorem child_ne (h : Cut s p child n) : child ≠ s.counter := h.radix.ne_counter h.isChild.mem

theorem ne (h : Cut s p child n) : p ≠ child :=
  h.radix.wellFormed.parent_ne h.isChild.mem h.isChild.parent

theorem child_ne_root (h : Cut s p child n) : child ≠ s.rootNode :=
  h.radix.wellFormed.ne_root h.isChild.parent

theorem nodes_counter (h : Cut s p child n) :
    (s.divide p child n).nodes s.counter = s.upperFragment child n :=
  divide_counter h.parent_ne h.ne h.child_ne n

theorem nodes_child (h : Cut s p child n) :
    (s.divide p child n).nodes child = s.lowerFragment child n := divide_child h.parent_ne h.ne n

theorem nodes_old (h : Cut s p child n) (hi : i ≠ child) (hin : i ≠ s.counter) :
    (s.divide p child n).nodes i = { s.nodes i with
      children := if i = p then put (s.childKey (s.nodes child).key) s.counter (s.nodes p).children
        else (s.nodes i).children } := divide_old h.parent_ne h.ne n hi hin

theorem data (h : Cut s p child n) (i : NodeId) {c : ComponentType} (hc : c ∈ s.components) :
    (s.divide p child n).data i c =
      if i = s.counter then ((s.data child c).redistribute n).1
      else if i = child then ((s.data child c).redistribute n).2 else s.data i c := by
  split
  · next hi =>
    rw [hi, UnifiedTreeCore.data, h.nodes_counter]
    exact if_pos hc
  · next hi =>
    split
    · next hic =>
      rw [hic, UnifiedTreeCore.data, h.nodes_child]
      exact if_pos hc
    · next hic =>
      rw [UnifiedTreeCore.data, h.nodes_old hic hi]
      rfl

/-- The slots go with the tokens. -/
theorem deviceValue (h : Cut s p child n) (i : NodeId) : (s.divide p child n).deviceValue i =
      if i = s.counter then (s.deviceValue child).map (List.take n)
      else if i = child then (s.deviceValue child).map (List.drop n) else s.deviceValue i := by
  rw [UnifiedTreeCore.deviceValue, h.data i h.radix.wellFormed.full]
  split
  · rfl
  · split <;> rfl

theorem value_counter (h : Cut s p child n) (hw : s.deviceValue child = some w) :
    (s.divide p child n).deviceValue s.counter = some (w.take n) := by
  rw [h.deviceValue, if_pos rfl, hw]
  rfl

theorem value_child (h : Cut s p child n) (hw : s.deviceValue child = some w) :
    (s.divide p child n).deviceValue child = some (w.drop n) := by
  rw [h.deviceValue, if_neg h.child_ne, if_pos rfl, hw]
  rfl

theorem value_old (h : Cut s p child n) (hi : i ≠ child) (hin : i ≠ s.counter) :
    (s.divide p child n).deviceValue i = s.deviceValue i := by
  rw [h.deviceValue, if_neg hin, if_neg hi]

/-- The new node is found where the child was. -/
theorem lookup_counter (h : Cut s p child n) : ((s.divide p child n).nodes p).children.lookup
      ((s.divide p child n).childKey ((s.divide p child n).nodes s.counter).key) = some s.counter := by
  rw [h.nodes_old h.ne h.parent_ne, h.nodes_counter]
  rw [if_pos rfl, lookup_put]
  exact if_pos (childKey_take h.pageSize_le _)

theorem lookup_child (h : Cut s p child n) : ((s.divide p child n).nodes s.counter).children.lookup
      ((s.divide p child n).childKey ((s.divide p child n).nodes child).key) = some child := by
  rw [h.nodes_counter, h.nodes_child]
  exact lookup_cons_self

/-- The other children are found where they were. -/
theorem lookup_old (h : Cut s p child n) {i c : NodeId} (hi : i ∈ s.nodeArena) (hc : c ≠ child)
    (hl : (s.nodes i).children.lookup (s.childKey (s.nodes c).key) = some c) :
    ((s.divide p child n).nodes c).key = (s.nodes c).key ∧
      ((s.divide p child n).nodes i).children.lookup
        ((s.divide p child n).childKey (s.nodes c).key) = some c := by
  have hcm := (h.radix.child hi hl).1.mem
  have hcn := h.radix.ne_counter hcm
  refine ⟨by rw [h.nodes_old hc hcn], ?_⟩
  change ((s.divide p child n).nodes i).children.lookup (s.childKey (s.nodes c).key) = some c
  by_cases hic : i = child
  · rw [hic, h.nodes_child]
    rw [hic] at hl
    exact hl
  · rw [h.nodes_old hic (h.radix.ne_counter hi)]
    split
    · next hip =>
      subst hip
      have hpage : s.childKey (s.nodes c).key ≠ s.childKey (s.nodes child).key := fun he => by
        rw [he, h.isChild.lookup] at hl
        exact hc (Option.some.inj hl).symm
      rw [lookup_put, if_neg hpage]
      exact hl
    · exact hl

/-- And no other is found there. -/
theorem of_lookup_old (h : Cut s p child n) {i c : NodeId} (hi : i ∈ s.nodeArena) (hc : c ≠ child)
    (hcn : c ≠ s.counter) (hl : ((s.divide p child n).nodes i).children.lookup
      ((s.divide p child n).childKey ((s.divide p child n).nodes c).key) = some c) :
    ((s.divide p child n).nodes c).key = (s.nodes c).key ∧
      (s.nodes i).children.lookup (s.childKey (s.nodes c).key) = some c := by
  have hkey : ((s.divide p child n).nodes c).key = (s.nodes c).key := by rw [h.nodes_old hc hcn]
  refine ⟨hkey, ?_⟩
  rw [hkey] at hl
  change ((s.divide p child n).nodes i).children.lookup (s.childKey (s.nodes c).key) = some c at hl
  by_cases hic : i = child
  · rw [hic, h.nodes_child] at hl
    rw [hic]
    exact hl
  · rw [h.nodes_old hic (h.radix.ne_counter hi)] at hl
    split at hl
    · next hip =>
      rw [lookup_put] at hl
      split at hl
      · exact absurd (Option.some.inj hl).symm hcn
      · exact hip ▸ hl
    · exact hl

/-- **A split keeps the radix tree.** -/
theorem radix_divide (h : Cut s p child n) : Radix (s.divide p child n) where
  wellFormed := h.radix.wellFormed.divide h.mem h.isChild.mem h.isChild.parent h.isChild.lookup
    h.pageSize_le
  pageSize_pos := h.radix.pageSize_pos
  root_key := by
    change ((s.divide p child n).nodes s.rootNode).key = []
    rw [h.nodes_old h.child_ne_root.symm h.radix.root_ne]
    exact h.radix.root_key
  keys i hi := by
    obtain rfl | hi' := Finset.mem_insert.mp hi
    · rw [h.nodes_counter]
      exact nodup_singleton _
    · by_cases hic : i = child
      · rw [hic, h.nodes_child]
        exact h.radix.keys child h.isChild.mem
      · rw [h.nodes_old hic (h.radix.ne_counter hi')]
        split
        · exact nodup_keys_put (h.radix.keys p h.mem)
        · exact h.radix.keys i hi'
  entry i hi e he := by
    change e.1 = s.childKey ((s.divide p child n).nodes e.2).key ∧
      ((s.divide p child n).nodes e.2).parent = some i
    -- a child that is neither fragment stays below its parent
    have hold (hi : i ∈ s.nodeArena) (he : e ∈ (s.nodes i).children) (hne : e.2 ≠ child) :
        e.1 = s.childKey ((s.divide p child n).nodes e.2).key ∧
          ((s.divide p child n).nodes e.2).parent = some i := by
      have hem := h.radix.wellFormed.children i hi e he
      rw [h.nodes_old hne (h.radix.ne_counter hem)]
      exact h.radix.entry i hi e he
    have hchild (hi : i ∈ s.nodeArena) (he : e ∈ (s.nodes i).children) (hc : e.2 = child) : i = p := by
      have hparent := (h.radix.entry i hi e he).2
      rw [hc, h.isChild.parent] at hparent
      exact (Option.some.inj hparent).symm
    obtain rfl | hi' := Finset.mem_insert.mp hi
    · rw [h.nodes_counter] at he
      obtain rfl := List.mem_singleton.mp he
      rw [h.nodes_child]
      exact ⟨rfl, rfl⟩
    · by_cases hic : i = child
      · subst hic
        rw [h.nodes_child] at he
        exact hold hi' he fun hc => h.ne (hchild hi' he hc).symm
      · rw [h.nodes_old hic (h.radix.ne_counter hi')] at he
        split at he
        · next hip =>
          obtain rfl | ⟨he, hk⟩ := mem_put_of_nodup (h.radix.keys p h.mem) he
          · rw [h.nodes_counter]
            exact ⟨(childKey_take h.pageSize_le _).symm, hip ▸ h.isChild.parent⟩
          · refine hold hi' (hip ▸ he) fun hc => hk ?_
            rw [(h.radix.entry p h.mem e he).1, hc]
        · next hip => exact hold hi' he fun hc => hip (hchild hi' he hc)
  key_ne i hi hne := by
    obtain rfl | hi' := Finset.mem_insert.mp hi
    · rw [h.nodes_counter]
      exact ne_nil_of_length_pos (by
        rw [upperFragment, length_take]
        exact Nat.lt_min.mpr ⟨h.pos, h.pos.trans h.lt⟩)
    · by_cases hic : i = child
      · rw [hic, h.nodes_child]
        exact ne_nil_of_length_pos (by
          rw [lowerFragment, length_drop]
          exact Nat.sub_pos_of_lt h.lt)
      · rw [h.nodes_old hic (h.radix.ne_counter hi')]
        exact h.radix.key_ne i hi' hne
  dvd_key i hi := by
    change s.pageSize ∣ ((s.divide p child n).nodes i).key.length
    obtain rfl | hi' := Finset.mem_insert.mp hi
    · rw [h.nodes_counter, upperFragment, length_take, Nat.min_eq_left h.lt.le]
      exact h.dvd
    · by_cases hic : i = child
      · rw [hic, h.nodes_child, lowerFragment, length_drop]
        exact Nat.dvd_sub (h.radix.dvd_key child h.isChild.mem) h.dvd
      · rw [h.nodes_old hic (h.radix.ne_counter hi')]
        exact h.radix.dvd_key i hi'

theorem stored_divide (h : Cut s p child n) : Stored (s.divide p child n) where
  root := by
    change (s.divide p child n).deviceValue s.rootNode = some []
    rw [h.value_old h.child_ne_root.symm h.radix.root_ne]
    exact h.stored.root
  length i hi v hv := by
    obtain rfl | hi' := Finset.mem_insert.mp hi
    · rw [h.deviceValue, if_pos rfl, Option.map_eq_some_iff] at hv
      obtain ⟨w, hw, rfl⟩ := hv
      rw [h.nodes_counter, upperFragment, length_take, length_take,
        h.stored.length child h.isChild.mem w hw]
    · by_cases hic : i = child
      · subst hic
        rw [h.deviceValue, if_neg h.child_ne, if_pos rfl, Option.map_eq_some_iff] at hv
        obtain ⟨w, hw, rfl⟩ := hv
        rw [h.nodes_child, lowerFragment, length_drop, length_drop, h.stored.length i hi' w hw]
      · have hin := h.radix.ne_counter hi'
        rw [h.value_old hic hin] at hv
        rw [h.nodes_old hic hin]
        exact h.stored.length i hi' v hv
  closed i hi q hq hv := by
    obtain rfl | hi' := Finset.mem_insert.mp hi
    · rw [h.nodes_counter] at hq
      cases h.isChild.parent.symm.trans hq
      rw [h.value_old h.ne h.parent_ne]
      rw [h.deviceValue, if_pos rfl, Option.isSome_map] at hv
      exact h.stored.closed child h.isChild.mem p h.isChild.parent hv
    · by_cases hic : i = child
      · subst hic
        rw [h.nodes_child] at hq
        cases hq
        rw [h.deviceValue, if_neg h.child_ne, if_pos rfl, Option.isSome_map] at hv
        rw [h.deviceValue, if_pos rfl, Option.isSome_map]
        exact hv
      · have hin := h.radix.ne_counter hi'
        rw [h.nodes_old hic hin] at hq
        rw [h.value_old hic hin] at hv
        have hq' := h.stored.closed i hi' q hq hv
        have hqn := (h.radix.ne_counter (h.radix.wellFormed.parent_mem hi' hq))
        rw [h.deviceValue, if_neg hqn]
        split
        · next he => rwa [Option.isSome_map, ← he]
        · exact hq'

/-! ### Paths -/

variable (h : Cut s p child n)
include h

theorem edge_counter (hw : s.deviceValue child = some w) :
    Edge (s.divide p child n) p s.counter (w.take n) :=
  ⟨Finset.mem_insert_of_mem h.mem, h.lookup_counter, h.value_counter hw⟩

theorem edge_child (hw : s.deviceValue child = some w) :
    Edge (s.divide p child n) s.counter child (w.drop n) :=
  ⟨Finset.mem_insert_self _ _, h.lookup_child, h.value_child hw⟩

theorem edge_cases (he : Edge (s.divide p child n) i j v) :
    (i = p ∧ j = s.counter ∧ ∃ w, s.deviceValue child = some w ∧ v = w.take n) ∨
      (i = s.counter ∧ j = child ∧ ∃ w, s.deviceValue child = some w ∧ v = w.drop n) ∨
      i ≠ s.counter ∧ j ≠ s.counter ∧ ((s.divide p child n).nodes j).key = (s.nodes j).key ∧
        Edge s i j v := by
  have hchild := he.child h.radix_divide
  have hparent := hchild.parent
  have hvalue := he.value
  obtain rfl | hjm := Finset.mem_insert.mp hchild.mem
  · rw [h.nodes_counter] at hparent
    rw [h.deviceValue, if_pos rfl, Option.map_eq_some_iff] at hvalue
    obtain ⟨w, hw, rfl⟩ := hvalue
    exact .inl ⟨Option.some.inj (hparent.symm.trans h.isChild.parent), rfl, w, hw, rfl⟩
  · by_cases hj : j = child
    · subst hj
      rw [h.nodes_child] at hparent
      rw [h.deviceValue, if_neg h.child_ne, if_pos rfl, Option.map_eq_some_iff] at hvalue
      obtain ⟨w, hw, rfl⟩ := hvalue
      exact .inr (.inl ⟨(Option.some.inj hparent).symm, rfl, w, hw, rfl⟩)
    · have hjn := h.radix.ne_counter hjm
      have hi : i ≠ s.counter := by
        rintro rfl
        have hl := he.lookup
        rw [h.nodes_counter] at hl
        exact hj (Prod.mk.inj (List.mem_singleton.mp (mem_of_lookup hl))).2
      have him := (Finset.mem_insert.mp he.mem).resolve_left hi
      obtain ⟨hkey, hl⟩ := h.of_lookup_old him hj hjn he.lookup
      exact .inr (.inr ⟨hi, hjn, hkey, him, hl, (h.value_old hj hjn).symm.trans hvalue⟩)

/-- A node keeps its place: the child by way of the new node. -/
theorem onDevice (hi : OnDevice s k v i) : OnDevice (s.divide p child n) k v i := by
  induction hi using OnDevice.rec_snoc with
  | root => exact .refl _
  | @snoc k v q c w _ he ih =>
    have hchild := he.child h.radix
    by_cases hc : c = child
    · subst hc
      cases h.isChild.parent.symm.trans hchild.parent
      have hlower := (ih.snoc (h.edge_counter he.value)).snoc (h.edge_child he.value)
      rwa [h.nodes_counter, h.nodes_child, upperFragment, lowerFragment, append_assoc,
        append_assoc, take_append_drop, take_append_drop] at hlower
    · obtain ⟨hkey, hl⟩ := h.lookup_old he.mem hc he.lookup
      have hvalue := h.value_old hc (h.radix.ne_counter hchild.mem)
      exact hkey ▸ ih.snoc ⟨Finset.mem_insert_of_mem he.mem, hkey ▸ hl, hvalue.trans he.value⟩

theorem onDevice_counter (hp : OnDevice s k v p) (hw : s.deviceValue child = some w) :
    OnDevice (s.divide p child n) (k ++ (s.nodes child).key.take n) (v ++ w.take n) s.counter := by
  have hsnoc := (h.onDevice hp).snoc (h.edge_counter hw)
  rwa [h.nodes_counter] at hsnoc

/-- **Paths after a split** are those there were, and the one to the new node. -/
theorem of_onDevice (hi : OnDevice (s.divide p child n) k v i) :
    i ≠ s.counter ∧ OnDevice s k v i ∨ i = s.counter ∧ ∃ k₀ v₀ w, OnDevice s k₀ v₀ p ∧
      s.deviceValue child = some w ∧ k = k₀ ++ (s.nodes child).key.take n ∧ v = v₀ ++ w.take n := by
  induction hi using OnDevice.rec_snoc with
  | root => exact .inl ⟨h.radix.root_ne, .refl _⟩
  | snoc _ he ih =>
    obtain ⟨rfl, rfl, w, hw, rfl⟩ | ⟨rfl, rfl, w, hw, rfl⟩ | ⟨hi, hj, hkey, he'⟩ := h.edge_cases he
    · obtain ⟨-, hp⟩ | ⟨he, -⟩ := ih
      · refine .inr ⟨rfl, _, _, w, hp, hw, ?_, rfl⟩
        rw [h.nodes_counter]
        rfl
      · exact absurd he h.parent_ne
    · obtain ⟨he, -⟩ | ⟨-, k₀, v₀, w', hp, hw', rfl, rfl⟩ := ih
      · exact absurd rfl he
      · cases hw.symm.trans hw'
        refine .inl ⟨h.child_ne, ?_⟩
        rw [h.nodes_child, lowerFragment, append_assoc, append_assoc, take_append_drop,
          take_append_drop]
        exact hp.snoc ⟨h.mem, h.isChild.lookup, hw⟩
    · obtain ⟨-, hp⟩ | ⟨he, -⟩ := ih
      · exact .inl ⟨hj, hkey ▸ hp.snoc he'⟩
      · exact absurd he hi

/-- **A split keeps the map.** -/
theorem deviceMap : (s.divide p child n).deviceMap = s.deviceMap := by
  funext x
  refine Option.ext fun u => ?_
  rw [deviceMap_eq_some_iff h.radix_divide h.stored_divide, deviceMap_eq_some_iff h.radix h.stored]
  constructor
  · rintro ⟨k', v', i, hi, hx, hp, rfl⟩
    obtain ⟨-, hi⟩ | ⟨rfl, k₀, v₀, w, hb, hw, rfl, rfl⟩ := h.of_onDevice hi
    · exact ⟨k', v', i, hi, hx, hp, rfl⟩
    · refine ⟨_, _, child, hb.snoc ⟨h.mem, h.isChild.lookup, hw⟩, hx.trans ?_, hp, ?_⟩
      · exact (prefix_append_right_inj k₀).mpr (List.take_prefix _ _)
      · have hlen := hb.length h.radix h.stored
        have hle := hx.length_le
        rw [length_append, length_take, Nat.min_eq_left h.lt.le] at hle
        rw [take_append, take_append, take_take, Nat.min_eq_left (by omega)]
  · rintro ⟨k', v', i, hi, hx, hp, rfl⟩
    exact ⟨k', v', i, h.onDevice hi, hx, hp, rfl⟩

theorem splitNode_eq : s.splitNode child n =
    some (((s.divide p child n).updateEvictableLeafSets s.counter).updateEvictableLeafSets
      child |>.updateDuplicateTracking s.counter) := by
  rw [UnifiedTreeCore.splitNode, h.isChild.parent]
  exact if_pos ⟨h.mem, h.isChild.lookup, h.pageSize_le, h.lt⟩

/-- The source's split, of which the leaf sets and the duplicates are not seen. -/
theorem splitNode : ∃ t, s.splitNode child n = some t ∧ SameStored (s.divide p child n) t :=
  ⟨_, h.splitNode_eq, ((SameStored.updateEvictableLeafSets _ s.counter).trans
    (.updateEvictableLeafSets _ child)).trans (.updateDuplicateTracking _ s.counter)⟩

end Cut

/-- At most a node was split. -/
def Split (s t : UnifiedTreeCore) : Prop :=
  t = s ∨ ∃ p child n, Cut s p child n ∧ s.splitNode child n = some t

namespace Split

variable {s t : UnifiedTreeCore} {k : Key} {v : Tensor} {i : NodeId}

/-- What is not seen of a split. -/
theorem sameStored {p child : NodeId} {n : Nat} (h : Cut s p child n) (ht : s.splitNode child n = some t) :
    SameStored (s.divide p child n) t := by
  obtain ⟨u, hu, hsame⟩ := h.splitNode
  cases hu.symm.trans ht
  exact hsame

theorem radix (h : Split s t) (hs : Radix s) : Radix t := by
  obtain rfl | ⟨p, child, n, hcut, ht⟩ := h
  · exact hs
  · exact hcut.radix_divide.of_sameShape (sameStored hcut ht).shape

theorem stored (h : Split s t) (hs : Stored s) : Stored t := by
  obtain rfl | ⟨p, child, n, hcut, ht⟩ := h
  · exact hs
  · exact (sameStored hcut ht).stored hcut.stored_divide

theorem deviceMap (h : Split s t) : t.deviceMap = s.deviceMap := by
  obtain rfl | ⟨p, child, n, hcut, ht⟩ := h
  · rfl
  · rw [(sameStored hcut ht).deviceMap, hcut.deviceMap]

theorem pageSize (h : Split s t) : t.pageSize = s.pageSize := by
  obtain rfl | ⟨p, child, n, hcut, ht⟩ := h
  · rfl
  · exact (sameStored hcut ht).shape.pageSize

/-- A node keeps its place. -/
theorem onDevice (h : Split s t) (hi : OnDevice s k v i) : OnDevice t k v i := by
  obtain rfl | ⟨p, child, n, hcut, ht⟩ := h
  · exact hi
  · rw [(sameStored hcut ht).onDevice]
    exact hcut.onDevice hi

end Split

end QwenStack.TreeCore

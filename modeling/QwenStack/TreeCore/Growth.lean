import QwenStack.TreeCore.Splitting

/-!
# Tree core — what an insertion adds

A new node hangs below one on the device, and so does a node that comes back to the device: there nothing
hangs below it (`Hangs`).  Either way it is one more path (`Hangs.onDevice_iff`), and the map gets the
beginnings of one key (`Hangs.gains`).
-/

namespace QwenStack.TreeCore
open Assoc UnifiedTreeCore Prefixes

/-- The map gets a key with its beginnings. -/
def Gains (s t : UnifiedTreeCore) (key : Key) (value : Tensor) : Prop :=
  ∀ x w, t.deviceMap x = some w ↔ s.deviceMap x = some w ∨
    x <+: key ∧ s.pageSize ∣ x.length ∧ w = value.take x.length

/-- What is on the device stays there. -/
def Keeps (s t : UnifiedTreeCore) : Prop := ∀ k v i, OnDevice s k v i → OnDevice t k v i

/-- A node hangs below another on the device that did not: one more edge, and none below it. -/
structure Hangs (s t : UnifiedTreeCore) (p c : NodeId) (w : Tensor) : Prop where
  radix : Radix s
  radix_t : Radix t
  pageSize : t.pageSize = s.pageSize
  rootNode : t.rootNode = s.rootNode
  key : ∀ {q j u}, Edge s q j u → (t.nodes j).key = (s.nodes j).key
  edge : ∀ {q j u}, Edge t q j u ↔ Edge s q j u ∨ q = p ∧ j = c ∧ u = w
  leaf : ∀ {j u}, ¬ Edge s c j u

namespace Hangs

variable {s t : UnifiedTreeCore} {p c i : NodeId} {w v v₀ : Tensor} {k k₀ : Key}

theorem keeps (h : Hangs s t p c w) : Keeps s t := fun _ _ _ hi =>
  hi.of_edge h.rootNode fun he => ⟨h.edge.mpr (.inl he), h.key he⟩

/-- The other nodes were where they are. -/
theorem of_ne (h : Hangs s t p c w) (hi : OnDevice t k v i) (hne : i ≠ c) : OnDevice s k v i := by
  induction hi using OnDevice.rec_snoc with
  | root => exact h.rootNode ▸ .refl _
  | snoc _ he ih =>
    obtain he' | ⟨-, rfl, -⟩ := h.edge.mp he
    · exact h.key he' ▸ (ih fun hq => h.leaf (hq ▸ he')).snoc he'
    · exact absurd rfl hne

/-- **It is one more path.** -/
theorem onDevice_iff (h : Hangs s t p c w) (hp : OnDevice s k₀ v₀ p) : OnDevice t k v i ↔
    OnDevice s k v i ∨ i = c ∧ k = k₀ ++ (t.nodes c).key ∧ v = v₀ ++ w := by
  have hc := (h.keeps _ _ _ hp).snoc (h.edge.mpr (.inr ⟨rfl, rfl, rfl⟩))
  constructor
  · intro hi
    by_cases hic : i = c
    · subst hic
      exact .inr ⟨rfl, hi.unique h.radix_t hc⟩
    · exact .inl (h.of_ne hi hic)
  · rintro (hi | ⟨rfl, rfl, rfl⟩)
    · exact h.keeps _ _ _ hi
    · exact hc

/-- So the map gets the beginnings of its key. -/
theorem gains (h : Hangs s t p c w) (hs : Stored s) (ht : Stored t) (hp : OnDevice s k₀ v₀ p) :
    Gains s t (k₀ ++ (t.nodes c).key) (v₀ ++ w) := by
  intro x u
  rw [deviceMap_eq_some_iff h.radix_t ht, deviceMap_eq_some_iff h.radix hs]
  constructor
  · rintro ⟨k', v', i, hi, hx, hd, rfl⟩
    obtain hi | ⟨rfl, rfl, rfl⟩ := (h.onDevice_iff hp).mp hi
    · exact .inl ⟨k', v', i, hi, hx, h.pageSize ▸ hd, rfl⟩
    · exact .inr ⟨hx, h.pageSize ▸ hd, rfl⟩
  · rintro (⟨k', v', i, hi, hx, hd, rfl⟩ | ⟨hx, hd, rfl⟩)
    · exact ⟨k', v', i, h.keeps _ _ _ hi, hx, h.pageSize ▸ hd, rfl⟩
    · exact ⟨_, _, c, (h.onDevice_iff hp).mpr (.inr ⟨rfl, rfl, rfl⟩), hx, h.pageSize ▸ hd, rfl⟩

end Hangs

/-! ### A new node -/

/-- A leaf on the device. -/
def leafNode (p : NodeId) (key : Key) (value : Tensor) : UnifiedTreeNode where
  parent := some p
  key := key
  componentData := Function.update (fun _ => {}) .full { value := some value }

/-- It is put below its parent. -/
def UnifiedTreeCore.sprout (s : UnifiedTreeCore) (p : NodeId) (key : Key) (value : Tensor) :
    UnifiedTreeCore := (s.newNode (leafNode p key value)).link p key s.counter

section
variable {s t : UnifiedTreeCore} {p i : NodeId} {key : Key} {value : Tensor}

theorem sprout_counter (hp : p ≠ s.counter) :
    (s.sprout p key value).nodes s.counter = leafNode p key value := by
  rw [sprout, link_newNode_nodes hp, if_neg hp.symm, if_pos rfl]

theorem sprout_old (hp : p ≠ s.counter) (hi : i ≠ s.counter) :
    (s.sprout p key value).nodes i = { s.nodes i with
      children := if i = p then put (s.childKey key) s.counter (s.nodes p).children
        else (s.nodes i).children } := by
  rw [sprout, link_newNode_nodes hp, if_neg hi]
  split
  · next he => rw [he]
  · rfl

theorem data_sprout (hp : p ≠ s.counter) (i : NodeId) (c : ComponentType) :
    (s.sprout p key value).data i c =
      if i = s.counter then (leafNode p key value).componentData c else s.data i c := by
  split
  · next hi => rw [hi, data, sprout_counter hp]
  · next hi =>
    rw [data, sprout_old hp hi]
    rfl

theorem deviceValue_sprout (hp : p ≠ s.counter) (i : NodeId) :
    (s.sprout p key value).deviceValue i = if i = s.counter then some value else s.deviceValue i := by
  rw [deviceValue, data_sprout hp]
  split <;> rfl

/-- `_add_new_node` is that, and what is not seen. -/
theorem of_addNewNode (ht : s.addNewNode p key value = some t) : p ∈ s.nodeArena ∧
    t = (((s.sprout p key value).addEvictable .full value.length).updateEvictableLeafSets
      s.counter).updateEvictableLeafSets p := by
  rw [UnifiedTreeCore.addNewNode] at ht
  split at ht
  · next hguard => exact ⟨hguard.1, (Option.some.inj ht).symm⟩
  · cases ht

theorem SameStored.addNewNode (s : UnifiedTreeCore) (p : NodeId) (key : Key) (value : Tensor) :
    SameStored (s.sprout p key value) ((((s.sprout p key value).addEvictable .full
      value.length).updateEvictableLeafSets s.counter).updateEvictableLeafSets p) :=
  ((SameStored.addEvictable _ .full value.length).trans (.updateEvictableLeafSets _ s.counter)).trans
    (.updateEvictableLeafSets _ p)

end

/-- There is none under its first page, and its parent is on the device. -/
structure Sprout (s : UnifiedTreeCore) (p : NodeId) (key : Key) (value : Tensor) : Prop where
  radix : Radix s
  stored : Stored s
  mem : p ∈ s.nodeArena
  resident : (s.deviceValue p).isSome = true
  key_ne : key ≠ []
  dvd : s.pageSize ∣ key.length
  absent : (s.nodes p).children.lookup (s.childKey key) = none
  length : value.length = key.length

namespace Sprout

variable {s : UnifiedTreeCore} {p i j c : NodeId} {key : Key} {value : Tensor}

theorem ne (h : Sprout s p key value) : p ≠ s.counter := (h.radix.ne_counter h.mem)

theorem lookup_counter (h : Sprout s p key value) : ((s.sprout p key value).nodes p).children.lookup
    ((s.sprout p key value).childKey ((s.sprout p key value).nodes s.counter).key) = some s.counter := by
  rw [sprout_old h.ne h.ne, sprout_counter h.ne]
  rw [if_pos rfl, lookup_put]
  exact if_pos rfl

/-- The other children are found as before. -/
theorem lookup_old (h : Sprout s p key value) (hi : i ∈ s.nodeArena) (hc : c ≠ s.counter) :
    ((s.sprout p key value).nodes i).children.lookup
        ((s.sprout p key value).childKey (s.nodes c).key) = some c ↔
      (s.nodes i).children.lookup (s.childKey (s.nodes c).key) = some c := by
  change ((s.sprout p key value).nodes i).children.lookup (s.childKey (s.nodes c).key) = some c ↔ _
  rw [sprout_old h.ne (h.radix.ne_counter hi)]
  split
  · next hip =>
    rw [lookup_put, hip]
    split
    · next hk =>
      rw [hk, h.absent]
      constructor
      · exact fun he => absurd (Option.some.inj he).symm hc
      · intro he
        cases he
    · exact Iff.rfl
  · exact Iff.rfl

theorem wellFormed_sprout (h : Sprout s p key value) : WellFormed (s.sprout p key value) := by
  have hwf := h.radix.wellFormed
  obtain ⟨rank, hrank⟩ := hwf.ranked
  refine ⟨hwf.full, Finset.mem_insert_of_mem hwf.root_mem, ?_, ?_, ?_, ?_,
    fun i => if i = s.counter then rank p + 1 else rank i, ?_⟩
  · change ((s.sprout p key value).nodes s.rootNode).parent = none
    rw [sprout_old h.ne (hwf.fresh _ hwf.root_mem).ne]
    exact hwf.root_parent
  · intro i hi
    obtain rfl | hi := Finset.mem_insert.mp hi
    · exact Nat.lt_succ_self _
    · exact Nat.lt_succ_of_lt (hwf.fresh i hi)
  · intro i hi hne
    obtain rfl | hi := Finset.mem_insert.mp hi
    · refine ⟨p, Finset.mem_insert_of_mem h.mem, ?_, h.lookup_counter⟩
      rw [sprout_counter h.ne]
      rfl
    · have hin := (hwf.fresh i hi).ne
      obtain ⟨q, hq, hqp, hql⟩ := hwf.parent i hi hne
      refine ⟨q, Finset.mem_insert_of_mem hq, ?_, ?_⟩
      · rw [sprout_old h.ne hin]
        exact hqp
      · rw [sprout_old h.ne hin]
        exact (h.lookup_old hq hin).mpr hql
  · intro i hi e he
    obtain rfl | hi := Finset.mem_insert.mp hi
    · rw [sprout_counter h.ne] at he
      cases he
    · rw [sprout_old h.ne (hwf.fresh i hi).ne] at he
      split at he
      · obtain rfl | he := mem_put he
        · exact Finset.mem_insert_self _ _
        · exact Finset.mem_insert_of_mem (hwf.children p h.mem e he)
      · exact Finset.mem_insert_of_mem (hwf.children i hi e he)
  · intro i hi q hq
    obtain rfl | hi := Finset.mem_insert.mp hi
    · rw [sprout_counter h.ne] at hq
      obtain rfl : p = q := Option.some.inj hq
      simp only [h.ne, if_true, if_false]
      exact Nat.lt_succ_self _
    · have hin := (hwf.fresh i hi).ne
      rw [sprout_old h.ne hin] at hq
      have hqn := (hwf.fresh q (hwf.parent_mem hi hq)).ne
      simp only [hqn, hin, if_false]
      exact hrank i hi q hq

/-- **A new node keeps the radix tree.** -/
theorem radix_sprout (h : Sprout s p key value) : Radix (s.sprout p key value) where
  wellFormed := h.wellFormed_sprout
  pageSize_pos := h.radix.pageSize_pos
  root_key := by
    change ((s.sprout p key value).nodes s.rootNode).key = []
    rw [sprout_old h.ne h.radix.root_ne]
    exact h.radix.root_key
  keys i hi := by
    obtain rfl | hi' := Finset.mem_insert.mp hi
    · rw [sprout_counter h.ne]
      exact List.nodup_nil
    · rw [sprout_old h.ne (h.radix.ne_counter hi')]
      split
      · exact nodup_keys_put (h.radix.keys p h.mem)
      · exact h.radix.keys i hi'
  entry i hi e he := by
    change e.1 = s.childKey ((s.sprout p key value).nodes e.2).key ∧
      ((s.sprout p key value).nodes e.2).parent = some i
    have hold (hi : i ∈ s.nodeArena) (he : e ∈ (s.nodes i).children) :
        e.1 = s.childKey ((s.sprout p key value).nodes e.2).key ∧
          ((s.sprout p key value).nodes e.2).parent = some i := by
      rw [sprout_old h.ne (h.radix.ne_counter (h.radix.wellFormed.children i hi e he))]
      exact h.radix.entry i hi e he
    obtain rfl | hi' := Finset.mem_insert.mp hi
    · rw [sprout_counter h.ne] at he
      cases he
    · rw [sprout_old h.ne (h.radix.ne_counter hi')] at he
      split at he
      · next hip =>
        obtain rfl | he := mem_put he
        · rw [sprout_counter h.ne]
          exact ⟨rfl, congrArg some hip.symm⟩
        · exact hold hi' (hip ▸ he)
      · exact hold hi' he
  key_ne i hi hne := by
    obtain rfl | hi' := Finset.mem_insert.mp hi
    · rw [sprout_counter h.ne]
      exact h.key_ne
    · rw [sprout_old h.ne (h.radix.ne_counter hi')]
      exact h.radix.key_ne i hi' hne
  dvd_key i hi := by
    change s.pageSize ∣ ((s.sprout p key value).nodes i).key.length
    obtain rfl | hi' := Finset.mem_insert.mp hi
    · rw [sprout_counter h.ne]
      exact h.dvd
    · rw [sprout_old h.ne (h.radix.ne_counter hi')]
      exact h.radix.dvd_key i hi'

theorem stored_sprout (h : Sprout s p key value) : Stored (s.sprout p key value) where
  root := by
    change (s.sprout p key value).deviceValue s.rootNode = some []
    rw [deviceValue_sprout h.ne, if_neg h.radix.root_ne]
    exact h.stored.root
  length i hi v hv := by
    rw [deviceValue_sprout h.ne] at hv
    obtain rfl | hi' := Finset.mem_insert.mp hi
    · rw [if_pos rfl] at hv
      cases hv
      rw [sprout_counter h.ne]
      exact h.length
    · have hin := h.radix.ne_counter hi'
      rw [if_neg hin] at hv
      rw [sprout_old h.ne hin]
      exact h.stored.length i hi' v hv
  closed i hi q hq hv := by
    rw [deviceValue_sprout h.ne] at hv ⊢
    obtain rfl | hi' := Finset.mem_insert.mp hi
    · rw [sprout_counter h.ne] at hq
      obtain rfl : p = q := Option.some.inj hq
      rw [if_neg h.ne]
      exact h.resident
    · have hin := h.radix.ne_counter hi'
      rw [if_neg hin] at hv
      rw [sprout_old h.ne hin] at hq
      rw [if_neg (h.radix.ne_counter (h.radix.wellFormed.parent_mem hi' hq))]
      exact h.stored.closed i hi' q hq hv

theorem hangs (h : Sprout s p key value) : Hangs s (s.sprout p key value) p s.counter value where
  radix := h.radix
  radix_t := h.radix_sprout
  pageSize := rfl
  rootNode := rfl
  key he := by rw [sprout_old h.ne (h.radix.ne_counter (he.child h.radix).mem)]
  edge {q j u} := by
    constructor
    · intro he
      have hchild := he.child h.radix_sprout
      have hparent := hchild.parent
      have hvalue := he.value
      rw [deviceValue_sprout h.ne] at hvalue
      obtain rfl | hj := Finset.mem_insert.mp hchild.mem
      · rw [sprout_counter h.ne] at hparent
        rw [if_pos rfl] at hvalue
        exact .inr ⟨(Option.some.inj hparent).symm, rfl, (Option.some.inj hvalue).symm⟩
      · have hjn := h.radix.ne_counter hj
        have hl := he.lookup
        rw [if_neg hjn] at hvalue
        obtain rfl | hq := Finset.mem_insert.mp he.mem
        · rw [sprout_counter h.ne] at hl
          cases hl
        · rw [sprout_old h.ne hjn] at hl
          exact .inl ⟨hq, (h.lookup_old hq hjn).mp hl, hvalue⟩
    · rintro (he | ⟨rfl, rfl, rfl⟩)
      · have hjn := h.radix.ne_counter (he.child h.radix).mem
        refine ⟨Finset.mem_insert_of_mem he.mem, ?_, ?_⟩
        · rw [sprout_old h.ne hjn]
          exact (h.lookup_old he.mem hjn).mpr he.lookup
        · rw [deviceValue_sprout h.ne, if_neg hjn]
          exact he.value
      · refine ⟨Finset.mem_insert_of_mem h.mem, h.lookup_counter, ?_⟩
        rw [deviceValue_sprout h.ne, if_pos rfl]
  leaf he := absurd (h.radix.wellFormed.fresh _ he.mem) (Nat.lt_irrefl _)

end Sprout

section
variable {s t : UnifiedTreeCore} {p c i : NodeId} {key k₀ : Key} {value v₀ w : Tensor}

/-- What an insertion makes of the tree, as it hangs a node. -/
theorem Hangs.seen {u : UnifiedTreeCore} (h : Hangs s t p c w) (hs : Stored s) (ht : Stored t)
    (hp : OnDevice s k₀ v₀ p) (hseen : SameStored t u) :
    Radix u ∧ Stored u ∧ u.pageSize = s.pageSize ∧ OnDevice u (k₀ ++ (t.nodes c).key) (v₀ ++ w) c ∧
      Gains s u (k₀ ++ (t.nodes c).key) (v₀ ++ w) ∧ Keeps s u := by
  refine ⟨h.radix_t.of_sameShape hseen.shape, hseen.stored ht, hseen.shape.pageSize.trans h.pageSize,
    hseen.onDevice.mpr ((h.onDevice_iff hp).mpr (.inr ⟨rfl, rfl, rfl⟩)), fun x w => ?_,
    fun k v i hi => hseen.onDevice.mpr (h.keeps k v i hi)⟩
  rw [hseen.deviceMap]
  exact h.gains hs ht hp x w

/-- `_add_new_node`, of whole pages below a node on the device. -/
theorem Sprout.addNewNode (h : Radix s) (hs : Stored s) (hp : OnDevice s k₀ v₀ p) (hne : key ≠ [])
    (hdvd : s.pageSize ∣ key.length) (habsent : (s.nodes p).children.lookup (s.childKey key) = none)
    (hlen : value.length = key.length) :
    ∃ t, s.addNewNode p key value = some t ∧ Radix t ∧ Stored t ∧ t.pageSize = s.pageSize ∧
      OnDevice t (k₀ ++ key) (v₀ ++ value) s.counter ∧ Gains s t (k₀ ++ key) (v₀ ++ value) ∧
      Keeps s t := by
  have hsprout : Sprout s p key value :=
    ⟨h, hs, hp.mem h, hp.value hs, hne, hdvd, habsent, hlen⟩
  have hhangs := hsprout.hangs.seen hs hsprout.stored_sprout hp (.addNewNode s p key value)
  rw [sprout_counter hsprout.ne] at hhangs
  refine ⟨_, ?_, hhangs⟩
  rw [UnifiedTreeCore.addNewNode, if_pos ⟨hp.mem h, habsent⟩]
  rfl

/-! ### A node that comes back -/

/-- The slots of one node are new. -/
structure Restored (s t : UnifiedTreeCore) (p c : NodeId) (w : Tensor) : Prop where
  radix : Radix s
  stored : Stored s
  shape : SameShape s t
  mem : p ∈ s.nodeArena
  lookup : (s.nodes p).children.lookup (s.childKey (s.nodes c).key) = some c
  resident : (s.deviceValue p).isSome = true
  evicted : s.deviceValue c = none
  value : ∀ i, t.deviceValue i = if i = c then some w else s.deviceValue i
  length : w.length = (s.nodes c).key.length

namespace Restored

theorem isChild (h : Restored s t p c w) : Child s p c := (h.radix.child h.mem h.lookup).1

theorem ne_root (h : Restored s t p c w) : c ≠ s.rootNode := by
  rintro rfl
  have hnone := h.evicted
  rw [h.stored.root] at hnone
  cases hnone

theorem stored_t (h : Restored s t p c w) : Stored t where
  root := by
    rw [h.shape.rootNode, h.value, if_neg h.ne_root.symm]
    exact h.stored.root
  length i hi v hv := by
    rw [h.value] at hv
    rw [h.shape.key]
    split at hv
    · next hic =>
      cases hv
      exact hic ▸ h.length
    · exact h.stored.length i (h.shape.nodeArena ▸ hi) v hv
  closed i hi q hq hv := by
    rw [h.shape.parent] at hq
    rw [h.value] at hv ⊢
    have hq' : (s.deviceValue q).isSome = true := by
      split at hv
      · next hic =>
        cases h.isChild.parent.symm.trans (hic ▸ hq)
        exact h.resident
      · exact h.stored.closed i (h.shape.nodeArena ▸ hi) q hq hv
    split
    · rfl
    · exact hq'

theorem hangs (h : Restored s t p c w) : Hangs s t p c w where
  radix := h.radix
  radix_t := h.radix.of_sameShape h.shape
  pageSize := h.shape.pageSize
  rootNode := h.shape.rootNode
  key _ := h.shape.key _
  edge {q j u} := by
    constructor
    · rintro ⟨hq, hl, hu⟩
      rw [h.shape.nodeArena] at hq
      rw [h.shape.children, h.shape.key, childKey_congr h.shape.pageSize] at hl
      rw [h.value] at hu
      split at hu
      · next hj =>
        subst hj
        have hparent := (h.radix.child hq hl).1.parent
        exact .inr ⟨Option.some.inj (hparent.symm.trans h.isChild.parent), rfl,
          (Option.some.inj hu).symm⟩
      · exact .inl ⟨hq, hl, hu⟩
    · intro he
      suffices hall : q ∈ s.nodeArena ∧
          (s.nodes q).children.lookup (s.childKey (s.nodes j).key) = some j ∧ t.deviceValue j = some u by
        obtain ⟨hq, hl, hu⟩ := hall
        refine ⟨h.shape.nodeArena.symm ▸ hq, ?_, hu⟩
        rw [h.shape.children, h.shape.key, childKey_congr h.shape.pageSize]
        exact hl
      rw [h.value]
      obtain he | ⟨rfl, rfl, rfl⟩ := he
      · refine ⟨he.mem, he.lookup, ?_⟩
        rw [if_neg]
        · exact he.value
        · rintro rfl
          have hvalue := he.value
          rw [h.evicted] at hvalue
          cases hvalue
      · exact ⟨h.mem, h.lookup, if_pos rfl⟩
  leaf he := by
    -- what is on the device hangs below what is on the device
    have hchild := he.child h.radix
    have hsome := h.stored.closed _ hchild.mem c hchild.parent (by rw [he.value]; rfl)
    rw [h.evicted] at hsome
    cases hsome

end Restored

/-- A node is not on the device. -/
theorem evicted_iff (hp : (s.nodes c).parent = some p) :
    (s.nodes c).evicted = true ↔ s.deviceValue c = none := by
  rw [UnifiedTreeNode.evicted, hp, Option.isSome_some, Bool.true_and, Option.isNone_iff_eq_none]
  rfl

/-- `_unevict_node_on_insert`, of a child of a node on the device. -/
theorem unevictNodeOnInsert (h : Radix s) (hs : Stored s) (hp : OnDevice s k₀ v₀ p)
    (hl : (s.nodes p).children.lookup (s.childKey (s.nodes c).key) = some c)
    (hnone : s.deviceValue c = none) (hlen : w.length = (s.nodes c).key.length) :
    ∃ t, s.unevictNodeOnInsert c w = some t ∧ Radix t ∧ Stored t ∧ t.pageSize = s.pageSize ∧
      OnDevice t (k₀ ++ (s.nodes c).key) (v₀ ++ w) c ∧
      Gains s t (k₀ ++ (s.nodes c).key) (v₀ ++ w) ∧ Keeps s t := by
  have hchild := (h.child (hp.mem h) hl).1
  let u := s.setData c .full { s.data c .full with value := some w }
  have hshape : SameShape s u := .setData s c _ _
  have hseen := (((SameStored.addEvictable u .full w.length).trans (.updateEvictableLeafSets _ c)).trans
    (.updateDuplicateTracking _ c)).trans (.updateEvictableLeafSets _ p)
  have hrestored : Restored s u p c w := by
    refine ⟨h, hs, hshape, hp.mem h, hl, hp.value hs, hnone, fun i => ?_, hlen⟩
    rw [deviceValue, data_setData]
    simp only [and_true]
    split <;> rfl
  have hhangs := hrestored.hangs.seen hs hrestored.stored_t hp hseen
  rw [hshape.key] at hhangs
  refine ⟨_, ?_, hhangs⟩
  rw [UnifiedTreeCore.unevictNodeOnInsert, if_pos ⟨hchild.mem, (evicted_iff hchild.parent).mpr hnone⟩,
    hchild.parent]

end

/-- A tree with one node below the root. -/
def oneLeaf : UnifiedTreeCore := ((UnifiedTreeCore.reset .plain [.full] 1).addNewNode 0 [5, 6] [7, 8]).getD
  (.reset .plain [.full] 1)

theorem oneLeaf_spec : Radix oneLeaf ∧ Stored oneLeaf := by
  have h : Radix (.reset .plain [.full] 1) := radix_reset (List.mem_singleton_self _) Nat.one_pos
  obtain ⟨t, ht, hradix, hstored, -⟩ := Sprout.addNewNode h stored_reset (.refl 0)
    (List.cons_ne_nil 5 [6]) (Nat.one_dvd _) rfl (Eq.refl [7, 8].length)
  have ht' : (UnifiedTreeCore.reset .plain [.full] 1).addNewNode 0 [5, 6] [7, 8] = some t := ht
  rw [oneLeaf, ht']
  exact ⟨hradix, hstored⟩

end QwenStack.TreeCore

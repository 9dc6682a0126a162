import QwenStack.TreeCore.Ancestry

/-!
# Tree core — a leaf goes

Without a host tier every node of the tree is on the device (`Plain`), and eviction takes leaves: a node
without children and locks leaves its parent and the arena (`Removed`).  The other nodes stay where they
are, with their slots and locks; the map loses the keys that lead into the leaf (`Removed.deviceMap`), and
the tree its slots.
-/

namespace QwenStack.TreeCore
open Assoc UnifiedTreeCore Prefixes List

/-- A tree without a host tier. -/
structure Plain (s : UnifiedTreeCore) : Prop where
  resident : ∀ i ∈ s.nodeArena, (s.deviceValue i).isSome = true
  unbacked : ∀ i ∈ s.nodeArena, (s.nodes i).backuped = false

namespace Plain

variable {s t : UnifiedTreeCore} {p child i : NodeId} {n : Nat} {k : Key} {v w : Tensor}

theorem of_data (h : Plain s) (harena : t.nodeArena = s.nodeArena)
    (hvalue : ∀ i, t.deviceValue i = s.deviceValue i)
    (hhost : ∀ i, (t.data i .full).hostValue = (s.data i .full).hostValue) : Plain t := by
  refine ⟨fun i hi => ?_, fun i hi => ?_⟩
  · rw [hvalue]
    exact h.resident i (harena ▸ hi)
  · exact (congrArg Option.isSome (hhost i)).trans (h.unbacked i (harena ▸ hi))

theorem divide (h : Plain s) (hcut : Cut s p child n) : Plain (s.divide p child n) := by
  have hfull := hcut.radix.wellFormed.full
  have hchild := hcut.isChild.mem
  refine ⟨fun i hi => ?_, fun i hi => ?_⟩
  · rw [hcut.deviceValue]
    split
    · rw [Option.isSome_map]
      exact h.resident child hchild
    · next hin =>
      split
      · rw [Option.isSome_map]
        exact h.resident child hchild
      · exact h.resident i ((Finset.mem_insert.mp hi).resolve_left hin)
  · change ((s.divide p child n).data i .full).hostValue.isSome = false
    rw [hcut.data i hfull]
    split
    · exact Option.isSome_map.trans (h.unbacked child hchild)
    · next hin =>
      split
      · exact Option.isSome_map.trans (h.unbacked child hchild)
      · exact h.unbacked i ((Finset.mem_insert.mp hi).resolve_left hin)

theorem split (h : Plain s) (ht : Split s t) : Plain t := by
  obtain rfl | ⟨p, child, n, hcut, ht⟩ := ht
  · exact h
  · cases hcut.splitNode_eq.symm.trans ht
    exact (h.divide hcut).of_data rfl (fun _ => rfl) fun _ => rfl

theorem addNewNode (h : Plain s) (hwf : WellFormed s) (ht : s.addNewNode p k w = some t) : Plain t := by
  obtain ⟨hp, rfl⟩ := of_addNewNode ht
  have hp' := (hwf.fresh p hp).ne
  have hsprout : Plain (s.sprout p k w) := by
    refine ⟨fun i hi => ?_, fun i hi => ?_⟩
    · rw [deviceValue_sprout hp']
      split
      · rfl
      · next hin => exact h.resident i ((Finset.mem_insert.mp hi).resolve_left hin)
    · change ((s.sprout p k w).data i .full).hostValue.isSome = false
      rw [data_sprout hp']
      split
      · rfl
      · next hin => exact h.unbacked i ((Finset.mem_insert.mp hi).resolve_left hin)
  exact hsprout.of_data rfl (fun _ => rfl) fun _ => rfl

/-- No node comes back where none is gone. -/
theorem not_evicted (h : Plain s) (ht : s.unevictNodeOnInsert i w = some t) : False := by
  rw [UnifiedTreeCore.unevictNodeOnInsert] at ht
  split at ht
  · next hguard =>
    have hevicted := hguard.2
    have hvalue := h.resident i hguard.1
    rw [UnifiedTreeNode.evicted, Bool.and_eq_true, Option.isNone_iff_eq_none] at hevicted
    rw [deviceValue, data, hevicted.2] at hvalue
    cases hvalue
  · cases ht

end Plain

/-- A tree that has grown, with the slots that are new. -/
structure Grows (v : Tensor) (s t : UnifiedTreeCore) : Prop where
  plain : Plain t
  parts : Parts s t
  keeps : Keeps s t
  slots : t.treeSlots = s.treeSlots + v

namespace Grows

variable {s t u : UnifiedTreeCore} {v w : Tensor}

theorem refl (h : Plain s) : Grows [] s s :=
  ⟨h, .refl s, fun _ _ _ hi => hi, (add_zero _).symm⟩

theorem trans (h : Grows v s t) (h' : Grows w t u) : Grows (v ++ w) s u := by
  refine ⟨h'.plain, h.parts.trans h'.parts, fun k x i hi => h'.keeps k x i (h.keeps k x i hi), ?_⟩
  rw [h'.slots, h.slots, add_assoc, Multiset.coe_add]

theorem of_split (h : Plain s) (ht : Split s t) : Grows [] s t :=
  ⟨h.split ht, .split ht, fun _ _ _ hi => ht.onDevice hi, ht.treeSlots.trans (add_zero _).symm⟩

/-- Without a host tier nothing happens at the barriers. -/
theorem of_grown (h : Plain s) (ht : Grown Eq s v t) : Grows v s t := by
  induction ht with
  | refl => exact refl h
  | @split v t u _ hsplit ih => exact append_nil v ▸ ih.trans (of_split ih.plain hsplit)
  | unevict _ _ _ hrun _ ih => exact (ih.plain.not_evicted hrun).elim
  | leaf _ hradix _ hrun hkeeps ih =>
    exact ih.trans ⟨ih.plain.addNewNode hradix.wellFormed hrun, .addNewNode hradix.wellFormed hrun,
      hkeeps, treeSlots_addNewNode hradix.wellFormed hrun⟩
  | barrier _ _ _ hb ih => exact hb ▸ ih

end Grows

/-- A leaf has left its parent, and the arena. -/
structure Removed (s : UnifiedTreeCore) (p i : NodeId) (t : UnifiedTreeCore) : Prop where
  components : t.components = s.components
  pageSize : t.pageSize = s.pageSize
  rootNode : t.rootNode = s.rootNode
  counter : t.counter = s.counter
  nodeArena : t.nodeArena = s.nodeArena.erase i
  parent : ∀ j, (t.nodes j).parent = (s.nodes j).parent
  nodes : ∀ j, j ≠ i → t.nodes j = { s.nodes j with
    children := if j = p then del (s.childKey (s.nodes i).key) (s.nodes p).children
      else (s.nodes j).children }

/-- What a leaf is. -/
structure Leaf (s : UnifiedTreeCore) (p i : NodeId) : Prop where
  radix : Radix s
  stored : Stored s
  mem : p ∈ s.nodeArena
  isChild : Child s p i
  children : (s.nodes i).children = []

section
variable {s t : UnifiedTreeCore} {p i j x : NodeId} {k k₀ : Key} {v v₀ w : Tensor}

theorem Removed.of_sameShape {u : UnifiedTreeCore} (h : Removed s p i t) (hu : SameShape t u)
    (hnodes : ∀ j, j ≠ i → u.nodes j = t.nodes j) : Removed s p i u :=
  ⟨hu.components.trans h.components, hu.pageSize.trans h.pageSize, hu.rootNode.trans h.rootNode,
    hu.counter.trans h.counter, hu.nodeArena.trans h.nodeArena,
    fun j => (hu.parent j).trans (h.parent j), fun j hj => (hnodes j hj).trans (h.nodes j hj)⟩

theorem Removed.updateEvictableLeafSets (h : Removed s p i t) (j : NodeId) :
    Removed s p i (t.updateEvictableLeafSets j) :=
  h.of_sameShape (.updateEvictableLeafSets t j) fun _ _ => rfl

/-- A step changes the data of a node. -/
structure Touched (i : NodeId) (s t : UnifiedTreeCore) : Prop where
  shape : SameShape s t
  nodes : ∀ j, j ≠ i → t.nodes j = s.nodes j

theorem Touched.evictComponents (d : Drivers) (s : UnifiedTreeCore) (i : NodeId) (target : EvictLayer) :
    Touched i s (evictComponents d s i target) := by
  refine List.foldlRecOn s.components _ (motive := Touched i s) ⟨.refl s, fun _ _ => rfl⟩
    fun t ht c _ => ?_
  have hset : SameShape t (t.setNode i
      { t.nodes i with componentData := (d.evictComponent c target (t.nodes i)).componentData }) :=
    .setNode t i rfl rfl rfl
  refine ⟨ht.shape.trans ⟨hset.components, hset.pageSize, hset.counter, hset.nodeArena, hset.rootNode,
    hset.children, hset.parent, hset.key⟩, fun j hj => ?_⟩
  change (t.setNode i _).nodes j = _
  rw [setNode_nodes, if_neg hj, ht.nodes j hj]

namespace Leaf

theorem ne_root (h : Leaf s p i) : i ≠ s.rootNode := h.radix.wellFormed.ne_root h.isChild.parent

theorem ne (h : Leaf s p i) : p ≠ i := h.radix.wellFormed.parent_ne h.isChild.mem h.isChild.parent

/-- A device leaf of a plain tree is one. -/
theorem of_isDeviceLeaf (h : Radix s) (hs : Stored s) (hplain : Plain s) (hi : i ∈ s.nodeArena)
    (hleaf : s.isDeviceLeaf i = true) : ∃ p, Leaf s p i := by
  have hwf := h.wellFormed
  rw [isDeviceLeaf] at hleaf
  split at hleaf
  · cases hleaf
  · next hroot =>
    obtain ⟨p, hp, hparent, hlookup⟩ := hwf.parent i hi fun he => hroot (.inl he)
    refine ⟨p, h, hs, hp, (h.child hp hlookup).1, ?_⟩
    split at hleaf
    · cases hleaf
    · split at hleaf
      · cases hleaf
      · next hresident =>
        -- a child would be on the device
        refine List.eq_nil_iff_forall_not_mem.mpr fun e he => hresident ?_
        exact List.any_eq_true.mpr ⟨e, he, hplain.resident e.2 (hwf.children i hi e he)⟩

/-- Nothing hangs below a leaf. -/
theorem parent_ne (h : Leaf s p i) {q : NodeId} (hj : j ∈ s.nodeArena)
    (hq : (s.nodes j).parent = some q) : q ≠ i := by
  rintro rfl
  obtain ⟨q', -, hparent, hlookup⟩ := h.radix.wellFormed.parent j hj (h.radix.wellFormed.ne_root hq)
  cases hq.symm.trans hparent
  rw [h.children] at hlookup
  cases hlookup

end Leaf

/-- `_remove_leaf_from_parent`, after data of the leaf was released. -/
theorem Leaf.removeLeafFromParent (h : Leaf s p i) (ht : Touched i s t) :
    ∃ u, t.removeLeafFromParent i = some u ∧ Removed s p i u := by
  have hkey : t.childKey (t.nodes i).key = s.childKey (s.nodes i).key := by
    rw [childKey_congr ht.shape.pageSize, ht.shape.key]
  rw [UnifiedTreeCore.removeLeafFromParent, ht.shape.parent, h.isChild.parent]
  dsimp only
  rw [hkey, ht.shape.children, if_pos h.isChild.lookup]
  refine ⟨_, rfl, ht.shape.components, ht.shape.pageSize, ht.shape.rootNode, ht.shape.counter,
    congrArg (Finset.erase · i) ht.shape.nodeArena, fun j => ?_, fun j hj => ?_⟩
  · change ((t.setNode p _).nodes j).parent = _
    rw [setNode_nodes, ← ht.shape.parent j]
    split
    · next hjp => rw [hjp]
    · rfl
  · change (t.setNode p _).nodes j = _
    rw [setNode_nodes]
    split
    · next hjp => rw [hjp, ht.nodes p h.ne]
    · exact ht.nodes j hj

/-- A path depends on the parents. -/
theorem path_congr (hparent : ∀ j, (t.nodes j).parent = (s.nodes j).parent)
    (hcounter : t.counter = s.counter) (i : NodeId) : t.path i = s.path i := by
  have hfrom : ∀ (fuel : Nat) (i : NodeId), t.pathFrom fuel i = s.pathFrom fuel i := by
    intro fuel
    induction fuel with
    | zero => exact fun _ => rfl
    | succ fuel ih =>
      intro i
      rw [pathFrom, pathFrom, hparent]
      cases (s.nodes i).parent with
      | none => rfl
      | some p => exact congrArg (i :: ·) (ih p)
  rw [path, path, hcounter, hfrom]

theorem path_cons (h : WellFormed s) (hi : i ∈ s.nodeArena) (hp : (s.nodes i).parent = some p) :
    s.path i = i :: s.pathFrom (s.counter - 1) p := by
  rw [path, ← Nat.sub_add_cancel (Nat.one_le_of_lt (h.fresh i hi)), pathFrom, hp, Nat.add_sub_cancel]

/-- What is above a leaf has data, so it stays. -/
theorem Removed.deleteTombstones (d : Drivers) (h : Removed s p i t) {path : List NodeId}
    (hpath : ∀ j ∈ path, j ≠ i ∧ (s.deviceValue j).isSome = true) :
    ∃ u, t.deleteTombstones d path = some u ∧ Removed s p i u := by
  cases path with
  | nil => exact ⟨t, rfl, h⟩
  | cons cur path =>
    obtain ⟨hne, hvalue⟩ := hpath cur mem_cons_self
    have hdevice : (t.data cur .full).value.isSome = true := by
      rw [data, h.nodes cur hne]
      exact hvalue
    rw [UnifiedTreeCore.deleteTombstones]
    split
    · exact ⟨t, rfl, h⟩
    · split
      · exact ⟨t, rfl, h⟩
      · dsimp only
        rw [if_pos hdevice]
        exact ⟨_, rfl, h.updateEvictableLeafSets cur⟩

/-- **A device leaf without a copy is deleted**, and nothing else. -/
theorem Leaf.evictDeviceLeaf (d : Drivers) (h : Leaf s p i) (hplain : Plain s)
    (hleaf : s.isDeviceLeaf i = true) :
    ∃ t, s.evictDeviceLeaf d i false = some t ∧ Removed s p i t := by
  have hwf := h.radix.wellFormed
  have htouched : Touched i s (s.releaseAllComponentLayers d i) := by
    have hevicted := Touched.evictComponents d s i .all
    exact ⟨hevicted.shape.trans ⟨rfl, rfl, rfl, rfl, rfl, fun _ => rfl, fun _ => rfl, fun _ => rfl⟩,
      hevicted.nodes⟩
  obtain ⟨u, hu, hremoved⟩ := h.removeLeafFromParent htouched
  have hupdated := hremoved.updateEvictableLeafSets p
  have hpath : ∀ j ∈ ((u.updateEvictableLeafSets p).path i).drop 1,
      j ≠ i ∧ (s.deviceValue j).isSome = true := by
    intro j hj
    rw [path_congr hupdated.parent hupdated.counter] at hj
    refine ⟨?_, hplain.resident j (hwf.mem_path h.isChild.mem (mem_of_mem_drop hj)).1⟩
    rintro rfl
    have hnodup := hwf.nodup_path h.isChild.mem
    rw [path_cons hwf h.isChild.mem h.isChild.parent] at hnodup hj
    exact (List.nodup_cons.mp hnodup).1 hj
  obtain ⟨t, ht, hdone⟩ := hupdated.deleteTombstones d hpath
  refine ⟨t, ?_, hdone⟩
  rw [UnifiedTreeCore.evictDeviceLeaf, if_pos ⟨h.isChild.mem, hleaf⟩,
    if_pos (hplain.unbacked i h.isChild.mem), if_neg Bool.false_ne_true, deleteUnbackedDeviceLeaf, hu]
  rw [h.isChild.parent]
  exact ht

end

/-! ### What is left -/

namespace Removed

variable {s t : UnifiedTreeCore} {p i j c x : NodeId} {k k₀ : Key} {v v₀ w : Tensor}

variable (h : Removed s p i t)
include h

theorem mem_iff : j ∈ t.nodeArena ↔ j ≠ i ∧ j ∈ s.nodeArena := by
  rw [h.nodeArena, Finset.mem_erase]

theorem key (hj : j ≠ i) : (t.nodes j).key = (s.nodes j).key := by
  rw [h.nodes j hj]

theorem data (hj : j ≠ i) (c : ComponentType) : t.data j c = s.data j c := by
  rw [UnifiedTreeCore.data, h.nodes j hj]
  rfl

theorem value (hj : j ≠ i) : t.deviceValue j = s.deviceValue j := by
  rw [deviceValue, h.data hj]
  rfl

theorem childKey (k : Key) : t.childKey k = s.childKey k := childKey_congr h.pageSize k

theorem mem_children (hj : j ≠ i) {e : Key × NodeId}
    (he : e ∈ (t.nodes j).children) : e ∈ (s.nodes j).children := by
  rw [h.nodes j hj] at he
  split at he
  · next hjp => exact hjp ▸ (List.mem_filter.mp he).1
  · exact he

theorem child_ne (hleaf : Leaf s p i) (hj : j ∈ s.nodeArena) (hji : j ≠ i)
    {e : Key × NodeId} (he : e ∈ (t.nodes j).children) : e.2 ≠ i := by
  rintro rfl
  obtain ⟨hfirst, hparent⟩ := hleaf.radix.entry j hj e (h.mem_children hji he)
  obtain rfl := Option.some.inj (hparent.symm.trans hleaf.isChild.parent)
  rw [h.nodes j hji] at he
  rw [if_pos rfl] at he
  exact (mem_keys_del.mp (mem_map_of_mem he)).1 hfirst

/-- The other children are found as before. -/
theorem lookup_iff (hleaf : Leaf s p i) (hj : j ∈ s.nodeArena) (hji : j ≠ i) :
    (t.nodes j).children.lookup k = some c ↔ c ≠ i ∧ (s.nodes j).children.lookup k = some c := by
  rw [h.nodes j hji]
  have hother (hc : (s.nodes j).children.lookup k = some i) : j = p ∧ k = s.childKey (s.nodes i).key := by
    obtain ⟨hchild, hk⟩ := hleaf.radix.child hj hc
    exact ⟨Option.some.inj (hchild.parent.symm.trans hleaf.isChild.parent), hk⟩
  split
  · next hjp =>
    subst hjp
    rw [lookup_del]
    split
    · next hk =>
      refine ⟨fun hc => (by cases hc), fun ⟨hci, hc⟩ => ?_⟩
      rw [hk, hleaf.isChild.lookup] at hc
      exact absurd (Option.some.inj hc).symm hci
    · next hk =>
      refine ⟨fun hc => ⟨?_, hc⟩, And.right⟩
      rintro rfl
      exact hk (hother hc).2
  · next hjp =>
    refine ⟨fun hc => ⟨?_, hc⟩, And.right⟩
    rintro rfl
    exact hjp (hother hc).1

theorem radix (hleaf : Leaf s p i) : Radix t := by
  have hwf := hleaf.radix.wellFormed
  obtain ⟨rank, hrank⟩ := hwf.ranked
  have hroot := hleaf.ne_root
  have hkey {j : NodeId} (hj : j ≠ i) : t.childKey (t.nodes j).key = s.childKey (s.nodes j).key := by
    rw [h.childKey, h.key hj]
  refine ⟨⟨h.components ▸ hwf.full, ?_, ?_, ?_, ?_, ?_, rank, ?_⟩, h.pageSize ▸ hleaf.radix.pageSize_pos, ?_,
    ?_, ?_, ?_, ?_⟩
  · exact h.mem_iff.mpr ⟨h.rootNode ▸ hroot.symm, h.rootNode ▸ hwf.root_mem⟩
  · rw [h.parent, h.rootNode]
    exact hwf.root_parent
  · intro j hj
    rw [h.counter]
    exact hwf.fresh j (h.mem_iff.mp hj).2
  · intro j hj hne
    obtain ⟨hji, hj⟩ := h.mem_iff.mp hj
    obtain ⟨q, hq, hparent, hlookup⟩ := hwf.parent j hj (h.rootNode ▸ hne)
    have hqi := hleaf.parent_ne hj hparent
    refine ⟨q, h.mem_iff.mpr ⟨hqi, hq⟩, (h.parent j).trans hparent, ?_⟩
    rw [hkey hji]
    exact (h.lookup_iff hleaf hq hqi).mpr ⟨hji, hlookup⟩
  · intro j hj e he
    obtain ⟨hji, hj⟩ := h.mem_iff.mp hj
    exact h.mem_iff.mpr ⟨h.child_ne hleaf hj hji he, hwf.children j hj e (h.mem_children hji he)⟩
  · intro j hj q hq
    rw [h.parent] at hq
    exact hrank j (h.mem_iff.mp hj).2 q hq
  · rw [h.key (h.rootNode ▸ hroot.symm), h.rootNode]
    exact hleaf.radix.root_key
  · intro j hj
    obtain ⟨hji, hj⟩ := h.mem_iff.mp hj
    rw [h.nodes j hji]
    split
    · exact nodup_keys_del (hleaf.radix.keys p hleaf.mem)
    · exact hleaf.radix.keys j hj
  · intro j hj e he
    obtain ⟨hji, hj⟩ := h.mem_iff.mp hj
    obtain ⟨hfirst, hparent⟩ := hleaf.radix.entry j hj e (h.mem_children hji he)
    rw [hkey (h.child_ne hleaf hj hji he), h.parent]
    exact ⟨hfirst, hparent⟩
  · intro j hj hne
    obtain ⟨hji, hj⟩ := h.mem_iff.mp hj
    rw [h.key hji]
    exact hleaf.radix.key_ne j hj (h.rootNode ▸ hne)
  · intro j hj
    obtain ⟨hji, hj⟩ := h.mem_iff.mp hj
    rw [h.key hji, h.pageSize]
    exact hleaf.radix.dvd_key j hj

theorem plain (hplain : Plain s) : Plain t := by
  refine ⟨fun j hj => ?_, fun j hj => ?_⟩
  · obtain ⟨hji, hj⟩ := h.mem_iff.mp hj
    rw [h.value hji]
    exact hplain.resident j hj
  · obtain ⟨hji, hj⟩ := h.mem_iff.mp hj
    rw [h.nodes j hji]
    exact hplain.unbacked j hj

theorem stored (hleaf : Leaf s p i) : Stored t := by
  refine ⟨?_, fun j hj w hw => ?_, fun j hj q hq hv => ?_⟩
  · rw [h.value (h.rootNode ▸ hleaf.ne_root.symm), h.rootNode]
    exact hleaf.stored.root
  · obtain ⟨hji, hj⟩ := h.mem_iff.mp hj
    rw [h.key hji]
    exact hleaf.stored.length j hj w (h.value hji ▸ hw)
  · obtain ⟨hji, hj⟩ := h.mem_iff.mp hj
    rw [h.parent] at hq
    rw [h.value hji] at hv
    rw [h.value (hleaf.parent_ne hj hq)]
    exact hleaf.stored.closed j hj q hq hv

/-- Put back, the leaf hangs below its parent. -/
theorem hangs (hleaf : Leaf s p i) (hw : s.deviceValue i = some w) : Hangs t s p i w where
  radix := h.radix hleaf
  radix_t := hleaf.radix
  pageSize := h.pageSize.symm
  rootNode := h.rootNode.symm
  key he := (h.key (h.mem_iff.mp (he.child (h.radix hleaf)).mem).1).symm
  edge {q j u} := by
    constructor
    · intro he
      by_cases hji : j = i
      · subst hji
        exact .inr ⟨Option.some.inj ((he.child hleaf.radix).parent.symm.trans hleaf.isChild.parent), rfl,
          Option.some.inj (he.value.symm.trans hw)⟩
      · have hqi := hleaf.parent_ne (he.child hleaf.radix).mem (he.child hleaf.radix).parent
        refine .inl ⟨h.mem_iff.mpr ⟨hqi, he.mem⟩, ?_, (h.value hji).trans he.value⟩
        rw [h.childKey, h.key hji]
        exact (h.lookup_iff hleaf he.mem hqi).mpr ⟨hji, he.lookup⟩
    · rintro (he | ⟨rfl, rfl, rfl⟩)
      · obtain ⟨hqi, hq⟩ := h.mem_iff.mp he.mem
        obtain ⟨hji, hl⟩ := (h.lookup_iff hleaf hq hqi).mp he.lookup
        rw [h.childKey, h.key hji] at hl
        exact ⟨hq, hl, (h.value hji).symm.trans he.value⟩
      · exact ⟨hleaf.mem, hleaf.isChild.lookup, hw⟩
  leaf he := (h.mem_iff.mp he.mem).1 rfl

/-- **The map loses what leads into the leaf.** -/
theorem deviceMap (hleaf : Leaf s p i) (hp : OnDevice s k₀ v₀ p) (hw : s.deviceValue i = some w) :
    t.deviceMap = prune (k₀ ++ s.childKey (s.nodes i).key) s.deviceMap := by
  have ht := h.radix hleaf
  have hts := h.stored hleaf
  have hhangs := h.hangs hleaf hw
  have hp' := hhangs.of_ne hp hleaf.ne
  have hgains := hhangs.gains hts hleaf.stored hp'
  have hpaged := paged_deviceMap ht hts
  have hpage : (s.childKey (s.nodes i).key).length = s.pageSize := by
    rw [childKey_eq, length_take, Nat.min_eq_left hleaf.isChild.pageSize_le]
  have hdvd := hp.dvd hleaf.radix
  -- the page leads into the leaf, and into nothing else
  have hnone (v : Tensor) : t.deviceMap (k₀ ++ s.childKey (s.nodes i).key) ≠ some v := fun hv => by
    have hne : s.childKey (s.nodes i).key ≠ [] :=
      ne_nil_of_length_pos (hpage ▸ hleaf.radix.pageSize_pos)
    obtain ⟨c, -, hc, -⟩ := ((deviceMap_eq_some_iff ht hts).mp hv).child ht hp' hne
    obtain ⟨hci, hl⟩ := (h.lookup_iff hleaf hleaf.mem hleaf.ne).mp hc
    rw [h.childKey, childKey_eq, take_of_length_le hpage.le, hleaf.isChild.lookup] at hl
    exact hci (Option.some.inj hl).symm
  funext k
  rw [prune]
  split
  · next hk =>
    refine Option.eq_none_iff_forall_ne_some.mpr fun v hv => ?_
    have htake := hpaged.take (n := (k₀ ++ s.childKey (s.nodes i).key).length) hv (by
      rw [h.pageSize, length_append, hpage]
      exact Nat.dvd_add hdvd (Nat.dvd_refl _))
    rw [← List.prefix_iff_eq_take.mp hk] at htake
    exact hnone _ htake
  · next hk =>
    refine Option.ext fun v => ⟨fun hv => (hgains k v).mpr (.inl hv), fun hv => ?_⟩
    obtain hv | ⟨hkey, hd, rfl⟩ := (hgains k v).mp hv
    · exact hv
    · have hk₀ : k <+: k₀ := by
        obtain hk₀ | ⟨k₂, rfl⟩ := prefix_or_prefix_of_prefix hkey (prefix_append k₀ _)
        · exact hk₀
        · rw [h.pageSize, length_append] at hd
          obtain hzero | hpos := Nat.eq_zero_or_pos k₂.length
          · rw [eq_nil_of_length_eq_zero hzero, append_nil]
          · refine absurd ((prefix_append_right_inj k₀).mpr ?_) hk
            refine prefix_of_prefix_length_le (childKey_eq s _ ▸ take_prefix _ _)
              ((prefix_append_right_inj k₀).mp hkey) ?_
            rw [hpage]
            exact Nat.le_of_dvd hpos ((Nat.dvd_add_right hdvd).mp hd)
      rw [take_append_of_le_length (by
        rw [hp.length hleaf.radix hleaf.stored]
        exact hk₀.length_le)]
      exact (deviceMap_eq_some_iff ht hts).mpr ⟨k₀, v₀, p, hp', hk₀, hd, rfl⟩

/-- **The tree loses the slots of the leaf.** -/
theorem treeSlots (hleaf : Leaf s p i) (hw : s.deviceValue i = some w) :
    s.treeSlots = t.treeSlots + w := by
  rw [UnifiedTreeCore.treeSlots, UnifiedTreeCore.treeSlots, h.nodeArena,
    ← Finset.sum_erase_add _ _ hleaf.isChild.mem, hw, Option.getD_some]
  refine congrArg (· + (w : Multiset Nat)) (Finset.sum_congr rfl fun j hj => ?_)
  rw [h.value (Finset.ne_of_mem_erase hj)]

end Removed

end QwenStack.TreeCore

import QwenStack.Support.Runs
import QwenStack.TreeCore.Eviction
import QwenStack.TreeCore.Shape

/-!
# Tree core — pinned nodes stay

A pin is a floor under the locks of a node: they are at least one, since every release that takes one
below raises it again.  Every way to evict looks at a lock first, so it finds no pinned node (`Safe`),
and what it does to the other nodes leaves the pinned ones as they are (`Spares`): their data, their keys,
and their places below each other.  A split makes two pinned nodes of one, that share its data
(`Fragments`).
-/

namespace QwenStack.TreeCore
open Assoc UnifiedTreeCore List

/-! ### Pinned nodes -/

/-- A node hangs below the root by pinned nodes. -/
inductive PinnedPath (s : UnifiedTreeCore) : NodeId → Prop where
  | top {i : NodeId} : (s.nodes i).pinned = true → (s.nodes i).parent = some s.rootNode →
      (s.nodes s.rootNode).children.lookup (s.childKey (s.nodes i).key) = some i → PinnedPath s i
  | step {i p : NodeId} : (s.nodes i).pinned = true → (s.nodes i).parent = some p →
      (s.nodes p).children.lookup (s.childKey (s.nodes i).key) = some i → PinnedPath s p →
      PinnedPath s i

/-- A node of the arena points at nodes that were made. -/
structure Allocated (s : UnifiedTreeCore) (i : NodeId) : Prop where
  lt : i < s.counter
  parent : (s.nodes i).parent ≠ some i
  children : ∀ child ∈ (s.nodes i).children, child.2 < s.counter

/-- What holds of pinned nodes. -/
structure Safe (s : UnifiedTreeCore) : Prop where
  full : .full ∈ s.components
  root : s.rootNode < s.counter
  arena : ∀ i ∈ s.nodeArena, Allocated s i
  mem : ∀ i, (s.nodes i).pinned = true → i ∈ s.nodeArena
  locked : ∀ i, (s.nodes i).pinned = true → 1 ≤ (s.data i .full).lockRef
  hostLocked : ∀ i, (s.nodes i).pinned = true → 1 ≤ (s.data i .full).hostLockRef
  deviceLeaves : ∀ i, (s.nodes i).pinned = true → i ∉ s.evictableDeviceLeaves
  hostLeaves : ∀ i, (s.nodes i).pinned = true → i ∉ s.evictableHostLeaves
  path : ∀ i, (s.nodes i).pinned = true → PinnedPath s i

/-- The pinned nodes are those of before, with their data, keys and places. -/
structure Spares (s t : UnifiedTreeCore) : Prop where
  components : t.components = s.components
  pageSize : t.pageSize = s.pageSize
  rootNode : t.rootNode = s.rootNode
  counter : s.counter ≤ t.counter
  pinned : ∀ i, (t.nodes i).pinned = (s.nodes i).pinned
  parent : ∀ i, (s.nodes i).pinned = true → (t.nodes i).parent = (s.nodes i).parent
  key : ∀ i, (s.nodes i).pinned = true → (t.nodes i).key = (s.nodes i).key
  value : ∀ i, (s.nodes i).pinned = true → (t.data i .full).value = (s.data i .full).value
  hostValue : ∀ i, (s.nodes i).pinned = true → (t.data i .full).hostValue = (s.data i .full).hostValue
  link : ∀ i p, (s.nodes i).pinned = true → (s.nodes i).parent = some p →
    (s.nodes p).children.lookup (s.childKey (s.nodes i).key) = some i →
    (t.nodes p).children.lookup (s.childKey (s.nodes i).key) = some i

namespace Spares

variable {s t u : UnifiedTreeCore}

theorem refl (s : UnifiedTreeCore) : Spares s s :=
  ⟨rfl, rfl, rfl, Nat.le_refl _, fun _ => rfl, fun _ _ => rfl, fun _ _ => rfl, fun _ _ => rfl,
    fun _ _ => rfl, fun _ _ _ _ h => h⟩

theorem trans (h : Spares s t) (h' : Spares t u) : Spares s u where
  components := h'.components.trans h.components
  pageSize := h'.pageSize.trans h.pageSize
  rootNode := h'.rootNode.trans h.rootNode
  counter := h.counter.trans h'.counter
  pinned i := (h'.pinned i).trans (h.pinned i)
  parent i hi := (h'.parent i ((h.pinned i).trans hi)).trans (h.parent i hi)
  key i hi := (h'.key i ((h.pinned i).trans hi)).trans (h.key i hi)
  value i hi := (h'.value i ((h.pinned i).trans hi)).trans (h.value i hi)
  hostValue i hi := (h'.hostValue i ((h.pinned i).trans hi)).trans (h.hostValue i hi)
  link i p hi hp hl := by
    have hkey : t.childKey (t.nodes i).key = s.childKey (s.nodes i).key := by
      rw [childKey_congr h.pageSize, h.key i hi]
    have := h'.link i p ((h.pinned i).trans hi) ((h.parent i hi).trans hp)
    rw [hkey] at this
    exact this (h.link i p hi hp hl)

/-- Locks are spared. -/
theorem of_sameValues (h : SameValues s t) : Spares s t where
  components := h.shape.components
  pageSize := h.shape.pageSize
  rootNode := h.shape.rootNode
  counter := h.shape.counter.ge
  pinned := h.pinned
  parent i _ := h.shape.parent i
  key i _ := h.shape.key i
  value i _ := h.values i .full
  hostValue i _ := h.hostValues i .full
  link i p _ _ hl := by
    rw [h.shape.children]
    exact hl

theorem pinnedPath (h : Spares s t) {i : NodeId} (hi : PinnedPath s i) : PinnedPath t i := by
  have hkey (i : NodeId) (hi : (s.nodes i).pinned = true) :
      t.childKey (t.nodes i).key = s.childKey (s.nodes i).key := by
    rw [childKey_congr h.pageSize, h.key i hi]
  induction hi with
  | @top i hi hp hl =>
    have hl' := h.link i _ hi hp hl
    rw [← hkey i hi, ← h.rootNode] at hl'
    exact .top ((h.pinned i).trans hi) (by rw [h.parent i hi, hp, h.rootNode]) hl'
  | @step i p hi hp hl _ ih =>
    have hl' := h.link i _ hi hp hl
    rw [← hkey i hi] at hl'
    exact .step ((h.pinned i).trans hi) ((h.parent i hi).trans hp) hl' ih

end Spares

/-- A step is safe, and spares the pinned nodes. -/
structure Harmless (s t : UnifiedTreeCore) : Prop where
  safe : Safe t
  spares : Spares s t

namespace Harmless

variable {s t u : UnifiedTreeCore}

theorem trans (h : Harmless s t) (h' : Harmless t u) : Harmless s u :=
  ⟨h'.safe, h.spares.trans h'.spares⟩

theorem refl (h : Safe s) : Harmless s s := ⟨h, .refl s⟩

/-- A loop of harmless steps. -/
theorem foldl {α : Type*} {f : UnifiedTreeCore → α → UnifiedTreeCore} {l : List α} (h : Safe s)
    (hf : ∀ u, Harmless s u → ∀ a ∈ l, Harmless u (f u a)) : Harmless s (l.foldl f s) :=
  List.foldlRecOn l f (motive := Harmless s) (refl h) fun u hu a ha => hu.trans (hf u hu a ha)

/-- A loop that may stop. -/
theorem foldlM {α : Type*} {f : UnifiedTreeCore → α → Option UnifiedTreeCore} :
    ∀ {l : List α} {s t : UnifiedTreeCore}, Safe s →
      (∀ u v, Harmless s u → ∀ a ∈ l, f u a = some v → Harmless u v) →
      l.foldlM f s = some t → Harmless s t
  | [], s, t, h, _, ht => by
      cases ht
      exact refl h
  | a :: l, s, t, h, hf, ht => by
      rw [foldlM_cons] at ht
      obtain ⟨u, hu, ht⟩ := Option.bind_eq_some_iff.mp ht
      have hsu := hf s u (refl h) a mem_cons_self hu
      exact hsu.trans (foldlM hsu.safe
        (fun v w hv b hb => hf v w (hsu.trans hv) b (mem_cons_of_mem _ hb)) ht)

end Harmless

/-! ### Leaves -/

section
variable {s : UnifiedTreeCore} {i : NodeId}

theorem isDeviceLeaf_of_locked (h : 1 ≤ (s.data i .full).lockRef) : s.isDeviceLeaf i = false := by
  have hany : ComponentType.all.any (fun c => decide (0 < (s.data i c).lockRef)) = true :=
    List.any_eq_true.mpr ⟨.full, mem_cons_self, decide_eq_true h⟩
  rw [isDeviceLeaf, if_pos hany, ite_self]

theorem isHostLeaf_of_locked (h : 1 ≤ (s.data i .full).hostLockRef) : s.isHostLeaf i = false := by
  have hany : ComponentType.all.any (fun c => decide (0 < (s.data i c).hostLockRef)) = true :=
    List.any_eq_true.mpr ⟨.full, mem_cons_self, decide_eq_true h⟩
  rw [isHostLeaf, if_pos hany, ite_self, ite_self]

theorem isLocked_of_lock (h : 1 ≤ (s.data i .full).lockRef) : s.isLocked i = true :=
  List.any_eq_true.mpr ⟨.full, mem_cons_self, Bool.or_eq_true_iff.mpr (.inl (decide_eq_true h))⟩

/-- The leaf sets are brought up to date at a node: a locked one is not among them, and the others are
as they were. -/
theorem notMem_updateEvictableLeafSets (hd : 1 ≤ (s.data i .full).lockRef)
    (hh : 1 ≤ (s.data i .full).hostLockRef) :
    i ∉ (s.updateEvictableLeafSets i).evictableDeviceLeaves ∧
      i ∉ (s.updateEvictableLeafSets i).evictableHostLeaves := by
  simp [updateEvictableLeafSets, isDeviceLeaf_of_locked hd, isHostLeaf_of_locked hh]

theorem mem_updateEvictableLeafSets_of_ne {j : NodeId} (hj : j ≠ i) :
    (j ∈ (s.updateEvictableLeafSets i).evictableDeviceLeaves ↔ j ∈ s.evictableDeviceLeaves) ∧
      (j ∈ (s.updateEvictableLeafSets i).evictableHostLeaves ↔ j ∈ s.evictableHostLeaves) := by
  constructor
  · simp only [updateEvictableLeafSets]
    split <;> simp [hj]
  · simp only [updateEvictableLeafSets]
    split <;> simp [hj]

theorem Safe.updateEvictableLeafSets (h : Safe s) (i : NodeId) :
    Harmless s (s.updateEvictableLeafSets i) := by
  have hspares := Spares.of_sameValues (.updateEvictableLeafSets s i)
  have hleaves (j : NodeId) (hj : (s.nodes j).pinned = true) :
      j ∉ (s.updateEvictableLeafSets i).evictableDeviceLeaves ∧
        j ∉ (s.updateEvictableLeafSets i).evictableHostLeaves := by
    by_cases he : j = i
    · subst he
      exact notMem_updateEvictableLeafSets (h.locked j hj) (h.hostLocked j hj)
    · rw [(mem_updateEvictableLeafSets_of_ne he).1, (mem_updateEvictableLeafSets_of_ne he).2]
      exact ⟨h.deviceLeaves j hj, h.hostLeaves j hj⟩
  have harena (j : NodeId) (hj : j ∈ s.nodeArena) : Allocated (s.updateEvictableLeafSets i) j :=
    ⟨(h.arena j hj).lt, (h.arena j hj).parent, (h.arena j hj).children⟩
  exact ⟨⟨h.full, h.root, harena, h.mem, h.locked, h.hostLocked, fun j hj => (hleaves j hj).1,
    fun j hj => (hleaves j hj).2, fun j hj => hspares.pinnedPath (h.path j hj)⟩, hspares⟩

/-- A pinned node is no leaf, and locked. -/
theorem Safe.unpinned_of_deviceLeaf (h : Safe s) (hi : s.isDeviceLeaf i = true) :
    (s.nodes i).pinned = false := by
  cases hp : (s.nodes i).pinned with
  | false => rfl
  | true =>
    rw [isDeviceLeaf_of_locked (h.locked i hp)] at hi
    cases hi

theorem Safe.unpinned_of_hostLeaf (h : Safe s) (hi : s.isHostLeaf i = true) :
    (s.nodes i).pinned = false := by
  cases hp : (s.nodes i).pinned with
  | false => rfl
  | true =>
    rw [isHostLeaf_of_locked (h.hostLocked i hp)] at hi
    cases hi

theorem Safe.unpinned_of_unlocked (h : Safe s) (hi : s.isLocked i ≠ true) :
    (s.nodes i).pinned = false := by
  cases hp : (s.nodes i).pinned with
  | false => rfl
  | true => exact absurd (isLocked_of_lock (h.locked i hp)) hi

end

/-! ### Nodes that are not pinned -/

section
variable {s t : UnifiedTreeCore} {i : NodeId}

/-- A step that spares the pinned nodes and keeps their locks, and adds no leaves. -/
theorem Safe.of_spares (h : Safe s) (hs : Spares s t)
    (harena : ∀ j ∈ t.nodeArena, Allocated t j)
    (hmem : ∀ j, (s.nodes j).pinned = true → j ∈ t.nodeArena)
    (hlock : ∀ j, (s.nodes j).pinned = true → 1 ≤ (t.data j .full).lockRef)
    (hhost : ∀ j, (s.nodes j).pinned = true → 1 ≤ (t.data j .full).hostLockRef)
    (hdevice : t.evictableDeviceLeaves ⊆ s.evictableDeviceLeaves)
    (hhosts : t.evictableHostLeaves ⊆ s.evictableHostLeaves) : Harmless s t := by
  have hp (j : NodeId) (hj : (t.nodes j).pinned = true) : (s.nodes j).pinned = true :=
    (hs.pinned j).symm.trans hj
  refine ⟨⟨hs.components ▸ h.full, ?_, harena, fun j hj => hmem j (hp j hj), fun j hj => hlock j (hp j hj),
    fun j hj => hhost j (hp j hj), fun j hj hm => h.deviceLeaves j (hp j hj) (hdevice hm),
    fun j hj hm => h.hostLeaves j (hp j hj) (hhosts hm),
    fun j hj => hs.pinnedPath (h.path j (hp j hj))⟩, hs⟩
  rw [hs.rootNode]
  exact h.root.trans_le hs.counter

/-- Nodes leave the arena and their parents, at most. -/
theorem Safe.allocated (h : Safe s) (harena : t.nodeArena ⊆ s.nodeArena)
    (hcounter : t.counter = s.counter) (hparent : ∀ j, (t.nodes j).parent = (s.nodes j).parent)
    (hchildren : ∀ j, (t.nodes j).children ⊆ (s.nodes j).children) :
    ∀ j ∈ t.nodeArena, Allocated t j := by
  intro j hj
  have hold := h.arena j (harena hj)
  refine ⟨hcounter ▸ hold.lt, hparent j ▸ hold.parent, fun child hchild => ?_⟩
  rw [hcounter]
  exact hold.children child (hchildren j hchild)

theorem setNode_nodes (s : UnifiedTreeCore) (i : NodeId) (n : UnifiedTreeNode) (j : NodeId) :
    (s.setNode i n).nodes j = if j = i then n else s.nodes j := Function.update_apply _ _ _ _

/-- A node that is not pinned changes in its data. -/
theorem Safe.setNode (h : Safe s) (hi : (s.nodes i).pinned = false) {n : UnifiedTreeNode}
    (hn : n.pinned = false) (hchildren : n.children = (s.nodes i).children)
    (hparent : n.parent = (s.nodes i).parent) (harena : t.nodeArena = s.nodeArena)
    (ht : t.nodes = (s.setNode i n).nodes) (hcomponents : t.components = s.components)
    (hpage : t.pageSize = s.pageSize) (hroot : t.rootNode = s.rootNode)
    (hcounter : t.counter = s.counter) (hdevice : t.evictableDeviceLeaves ⊆ s.evictableDeviceLeaves)
    (hhosts : t.evictableHostLeaves ⊆ s.evictableHostLeaves) : Harmless s t := by
  have hnodes (j : NodeId) : t.nodes j = if j = i then n else s.nodes j := by
    rw [ht, setNode_nodes]
  have hsame (j : NodeId) (hj : (s.nodes j).pinned = true) : t.nodes j = s.nodes j := by
    rw [hnodes, if_neg]
    rintro rfl
    rw [hi] at hj
    cases hj
  have hdata (j : NodeId) (hj : (s.nodes j).pinned = true) : t.data j .full = s.data j .full := by
    rw [data, data, hsame j hj]
  refine h.of_spares ⟨hcomponents, hpage, hroot, hcounter.ge, fun j => ?_, fun j hj => ?_, fun j hj => ?_,
    fun j hj => ?_, fun j hj => ?_, fun j p hj _ hl => ?_⟩ (h.allocated harena.subset hcounter
      (fun j => ?_) fun j => ?_) (fun j hj => harena ▸ h.mem j hj) (fun j hj => ?_) (fun j hj => ?_)
    hdevice hhosts
  · rw [hnodes]
    split
    · next he => rw [he, hn, hi]
    · rfl
  · rw [hsame j hj]
  · rw [hsame j hj]
  · rw [hdata j hj]
  · rw [hdata j hj]
  · rw [hnodes]
    split
    · next he => rw [hchildren, ← he, hl]
    · exact hl
  · rw [hnodes]
    split
    · next he => rw [hparent, he]
    · rfl
  · rw [hnodes]
    split
    · next he => rw [hchildren, he]; exact List.Subset.refl _
    · exact List.Subset.refl _
  · rw [hdata j hj]
    exact h.locked j hj
  · rw [hdata j hj]
    exact h.hostLocked j hj

variable (d : Drivers)

theorem Safe.evictComponent (h : Safe s) (hi : (s.nodes i).pinned = false)
    (c : ComponentType) (target : EvictLayer) : Harmless s (evictComponent d s i c target) :=
  h.setNode (n := { s.nodes i with
      componentData := (d.evictComponent c target (s.nodes i)).componentData })
    hi hi rfl rfl rfl rfl rfl rfl rfl rfl (Finset.Subset.refl _) (Finset.Subset.refl _)

theorem Harmless.unpinned (h : Harmless s t) (hi : (s.nodes i).pinned = false) :
    (t.nodes i).pinned = false := (h.spares.pinned i).trans hi

theorem Safe.evictComponents (h : Safe s) (hi : (s.nodes i).pinned = false)
    (target : EvictLayer) : Harmless s (evictComponents d s i target) :=
  .foldl h fun _ hu c _ => hu.safe.evictComponent d (hu.unpinned hi) c target

theorem Safe.evictPresent (h : Safe s) (hi : (s.nodes i).pinned = false)
    (target : EvictLayer) : Harmless s (evictPresent d s i target) :=
  .foldl h fun _ hu c _ => by
    split
    · exact hu.safe.evictComponent d (hu.unpinned hi) c target
    · exact .refl hu.safe

/-- The nodes are as they are, and there are not more leaves. -/
theorem Safe.discard (h : Safe s) (hnodes : t.nodes = s.nodes) (harena : t.nodeArena = s.nodeArena)
    (hcomponents : t.components = s.components)
    (hpage : t.pageSize = s.pageSize) (hroot : t.rootNode = s.rootNode) (hcounter : t.counter = s.counter)
    (hdevices : t.evictableDeviceLeaves ⊆ s.evictableDeviceLeaves)
    (hhosts : t.evictableHostLeaves ⊆ s.evictableHostLeaves) : Harmless s t := by
  have hdata (j : NodeId) : t.data j .full = s.data j .full := by rw [data, data, hnodes]
  refine h.of_spares ⟨hcomponents, hpage, hroot, hcounter.ge, fun j => ?_, fun j _ => ?_, fun j _ => ?_,
    fun j _ => ?_, fun j _ => ?_, fun j p _ _ hl => ?_⟩ (h.allocated harena.subset hcounter
      (fun j => ?_) fun j => ?_) (fun j hj => harena ▸ h.mem j hj) (fun j hj => ?_) (fun j hj => ?_)
    hdevices hhosts
  · rw [hnodes]
  · rw [hnodes]
  · rw [hnodes]
  · rw [hdata]
  · rw [hdata]
  · rw [hnodes]
    exact hl
  · rw [hnodes]
  · rw [hnodes]
    exact List.Subset.refl _
  · rw [hdata]
    exact h.locked j hj
  · rw [hdata]
    exact h.hostLocked j hj

theorem Safe.discardHostLeaf (h : Safe s) (i : NodeId) : Harmless s (s.discardHostLeaf i) :=
  h.discard rfl rfl rfl rfl rfl rfl (Finset.Subset.refl _) (Finset.erase_subset i _)

theorem Safe.discardLeaf (h : Safe s) (i : NodeId) : Harmless s (s.discardLeaf i) :=
  h.discard rfl rfl rfl rfl rfl rfl (Finset.erase_subset i _) (Finset.erase_subset i _)

/-- A node changes in its children only. -/
theorem setChildren_nodes (s : UnifiedTreeCore) (p : NodeId) (children : List (Key × NodeId)) (j : NodeId) :
    (s.setNode p { s.nodes p with children := children }).nodes j =
      { s.nodes j with children := if j = p then children else (s.nodes j).children } := by
  rw [setNode_nodes]
  split
  · next he => rw [he]
  · rfl

/-- **A node that is not pinned leaves the tree.** -/
theorem Safe.removeLeafFromParent (h : Safe s) (hi : (s.nodes i).pinned = false)
    (ht : s.removeLeafFromParent i = some t) : Harmless s t := by
  have hne (j : NodeId) (hj : (s.nodes j).pinned = true) : j ≠ i := by
    rintro rfl
    rw [hi] at hj
    cases hj
  rw [UnifiedTreeCore.removeLeafFromParent] at ht
  cases hp : (s.nodes i).parent with
  | none =>
    rw [hp] at ht
    cases ht
  | some p =>
    rw [hp] at ht
    dsimp only at ht
    split at ht
    · next hlookup =>
      have hnodes (j : NodeId) : t.nodes j = { s.nodes j with
          children := if j = p then del (s.childKey (s.nodes i).key) (s.nodes p).children
            else (s.nodes j).children } := by
        rw [← Option.some.inj ht]
        exact setChildren_nodes s p _ j
      cases ht
      have hdata (j : NodeId) := congrArg (·.componentData .full) (hnodes j)
      refine h.of_spares ⟨rfl, rfl, rfl, Nat.le_refl _, fun j => congrArg (·.pinned) (hnodes j),
        fun j _ => congrArg (·.parent) (hnodes j), fun j _ => congrArg (·.key) (hnodes j),
        fun j _ => congrArg (·.value) (hdata j), fun j _ => congrArg (·.hostValue) (hdata j),
        fun j q hj hq hl => ?_⟩
        (h.allocated (Finset.erase_subset i _) rfl (fun j => congrArg (·.parent) (hnodes j)) fun j => ?_)
        (fun j hj => Finset.mem_erase.mpr ⟨hne j hj, h.mem j hj⟩)
        (fun j hj => (congrArg (·.lockRef) (hdata j)).ge.trans' (h.locked j hj))
        (fun j hj => (congrArg (·.hostLockRef) (hdata j)).ge.trans' (h.hostLocked j hj))
        (Finset.Subset.refl _) (Finset.Subset.refl _)
      · rw [hnodes]
        split
        · next he =>
          subst he
          -- the place that is emptied was that of `i`
          have hkey : s.childKey (s.nodes j).key ≠ s.childKey (s.nodes i).key := fun hk => by
            rw [hk, hlookup] at hl
            exact hne j hj (Option.some.inj hl).symm
          rw [lookup_del, if_neg hkey]
          exact hl
        · exact hl
      · rw [hnodes]
        split
        · next he => exact he ▸ filter_subset_self _
        · exact List.Subset.refl _
    · cases ht

/-- The leaf sets are brought up to date at a parent. -/
theorem Safe.updateParent (h : Safe s) (parent : Option NodeId) : Harmless s (match parent with
      | some p => s.updateEvictableLeafSets p
      | none => s) := by
  cases parent with
  | none => exact .refl h
  | some p => exact h.updateEvictableLeafSets p

/-- **Tombstones**: the walk stops at a lock, so at a pinned node. -/
theorem Safe.deleteTombstones : ∀ {path : List NodeId} {s t : UnifiedTreeCore}, Safe s →
    deleteTombstones d s path = some t → Harmless s t := by
  intro path
  induction path with
  | nil =>
    intro s t h ht
    cases ht
    exact .refl h
  | cons cur path ih =>
    intro s t h ht
    rw [UnifiedTreeCore.deleteTombstones] at ht
    split at ht
    · cases ht
      exact .refl h
    split at ht
    · cases ht
      exact .refl h
    next hlocked =>
    have hcur := h.unpinned_of_unlocked hlocked
    dsimp only at ht
    split at ht
    · cases ht
      exact h.updateEvictableLeafSets cur
    have hdevice := h.evictPresent d hcur .device
    split at ht
    · cases ht
      exact hdevice.trans (hdevice.safe.updateEvictableLeafSets cur)
    have hhost := hdevice.trans (hdevice.safe.evictPresent d (hdevice.unpinned hcur) .host)
    have hdiscard := hhost.trans (hhost.safe.discardHostLeaf cur)
    split at ht
    · cases ht
    · next u hu =>
      have hremoved := hdiscard.trans (hdiscard.safe.removeLeafFromParent (hdiscard.unpinned hcur) hu)
      have hupdated := hremoved.trans (hremoved.safe.updateParent (s.nodes cur).parent)
      exact hupdated.trans (ih hupdated.safe ht)

theorem Safe.releaseAllComponentLayers (h : Safe s) (hi : (s.nodes i).pinned = false) :
    Harmless s (releaseAllComponentLayers d s i) := by
  have hevicted := h.evictComponents d hi .all
  exact hevicted.trans (hevicted.safe.discardLeaf i)

theorem Safe.deleteUnbackedDeviceLeaf (h : Safe s) (hi : (s.nodes i).pinned = false)
    (ht : deleteUnbackedDeviceLeaf d s i = some t) : Harmless s t := by
  obtain ⟨u, hu, ht⟩ := Option.bind_eq_some_iff.mp ht
  have hreleased := h.releaseAllComponentLayers d hi
  have hremoved := hreleased.trans (hreleased.safe.removeLeafFromParent (hreleased.unpinned hi) hu)
  have hupdated := hremoved.trans (hremoved.safe.updateParent (s.nodes i).parent)
  exact hupdated.trans (hupdated.safe.deleteTombstones d ht)

/-! ### Ways to evict -/

theorem Safe.cascadeEvict (h : Safe s) (hi : (s.nodes i).pinned = false)
    (ht : cascadeEvict d s i = some t) : Harmless s t := by
  obtain ⟨u, hu, ht⟩ := Option.bind_eq_some_iff.mp ht
  cases ht
  have hcascade : Harmless s u := .foldlM h (fun v w hv c _ hw => by
    obtain ⟨should, -, hw⟩ := Option.bind_eq_some_iff.mp hw
    split at hw
    · cases hw
      exact hv.safe.evictComponent d (hv.unpinned hi) c .device
    · cases hw
      exact .refl hv.safe) hu
  have hset : Harmless u (u.setData i .full { u.data i .full with value := none }) :=
    hcascade.safe.setNode (n := (u.nodes i).setData .full { u.data i .full with value := none })
      (hcascade.unpinned hi) (hcascade.unpinned hi) rfl rfl rfl rfl rfl rfl rfl rfl (Finset.Subset.refl _)
      (Finset.Subset.refl _)
  exact (hcascade.trans hset).trans (hset.safe.updateEvictableLeafSets i)

theorem Safe.demote (h : Safe s) (hi : (s.nodes i).pinned = false)
    (ht : demote d s i = some t) : Harmless s t := by
  rw [UnifiedTreeCore.demote] at ht
  split at ht
  · obtain ⟨u, hu, ht⟩ := Option.bind_eq_some_iff.mp ht
    cases ht
    have hevicted := h.evictComponent d hi .full .device
    have hcascade := hevicted.trans (hevicted.safe.cascadeEvict d (hevicted.unpinned hi) hu)
    exact hcascade.trans (hcascade.safe.updateParent (s.nodes i).parent)
  · cases ht

theorem Safe.evictDeviceLeaf (h : Safe s) {isWriteBack : Bool}
    (ht : evictDeviceLeaf d s i isWriteBack = some t) : Harmless s t := by
  rw [UnifiedTreeCore.evictDeviceLeaf] at ht
  split at ht
  · next hleaf =>
    have hi := h.unpinned_of_deviceLeaf hleaf.2
    split at ht
    · split at ht
      · cases ht
        exact .refl h
      · exact h.deleteUnbackedDeviceLeaf d hi ht
    · exact h.demote d hi ht
  · cases ht

/-- No node that is found below is pinned. -/
theorem Safe.unlockedBelow (h : Safe s) : ∀ {fuel : Nat} {stack descendants found : List NodeId},
    (∀ j ∈ descendants, (s.nodes j).pinned = false) →
      s.unlockedBelow fuel stack descendants = some found →
      ∀ j ∈ found, (s.nodes j).pinned = false := by
  intro fuel
  induction fuel with
  | zero =>
    intro stack descendants found hd hf
    cases hf
    exact hd
  | succ fuel ih =>
    intro stack descendants found hd hf
    cases stack with
    | nil =>
      cases hf
      exact hd
    | cons cur stack =>
      rw [UnifiedTreeCore.unlockedBelow] at hf
      split at hf
      · cases hf
      · next hcur =>
        refine ih (fun j hj => ?_) hf
        obtain hj | hj := List.mem_append.mp hj
        · exact hd j hj
        · exact List.mem_singleton.mp hj ▸ h.unpinned_of_unlocked hcur

theorem Safe.dropSubtreeNoHost (h : Safe s)
    (ht : dropSubtreeNoHost d s i = some t) : Harmless s t := by
  rw [UnifiedTreeCore.dropSubtreeNoHost] at ht
  split at ht
  · next hleaf =>
    have hi := h.unpinned_of_deviceLeaf hleaf.2.1
    split at ht
    · cases ht
      exact .refl h
    split at ht
    · cases ht
      exact .refl h
    · next descendants hfound =>
      obtain ⟨u, hu, ht⟩ := Option.bind_eq_some_iff.mp ht
      have hunpinned := h.unlockedBelow (fun _ hj => absurd hj not_mem_nil) hfound
      have hdropped : Harmless s u := .foldlM h (fun v w hv j hj hw => by
        rw [dropDescendant] at hw
        split at hw
        · have hj := hv.unpinned (hunpinned j (List.mem_reverse.mp hj))
          have hreleased := hv.safe.releaseAllComponentLayers d hj
          exact hreleased.trans (hreleased.safe.removeLeafFromParent (hreleased.unpinned hj) hw)
        · cases hw) hu
      exact hdropped.trans (hdropped.safe.deleteUnbackedDeviceLeaf d (hdropped.unpinned hi) ht)
  · cases ht

theorem Safe.evictHostLeaf (h : Safe s) (ht : evictHostLeaf d s i = some t) : Harmless s t := by
  rw [UnifiedTreeCore.evictHostLeaf] at ht
  split at ht
  · next hleaf =>
    have hi := h.unpinned_of_hostLeaf hleaf
    obtain ⟨u, hu, ht⟩ := Option.bind_eq_some_iff.mp ht
    have hevicted := h.evictComponents d hi .all
    have hdiscard := hevicted.trans (hevicted.safe.discardHostLeaf i)
    have hremoved := hdiscard.trans (hdiscard.safe.removeLeafFromParent (hdiscard.unpinned hi) hu)
    exact hremoved.trans (hremoved.safe.deleteTombstones d ht)
  · cases ht

/-- A copy that can be reclaimed is not that of a pinned node. -/
theorem Safe.unpinned_of_reclaim (h : Safe s) (hi : s.canReclaimFullHostDuplicate i ≠ false) :
    (s.nodes i).pinned = false := by
  cases hp : (s.nodes i).pinned with
  | false => rfl
  | true =>
    have hzero := of_decide_eq_true (Bool.and_eq_true_iff.mp (Bool.of_not_eq_false hi)).2
    have := h.hostLocked i hp
    omega

theorem Safe.reclaimPass (numTokens : Nat) (spare : Bool) (duplicates : List NodeId) :
    ∀ state : UnifiedTreeCore × Nat × List NodeId, Safe state.1 →
      Harmless state.1 (reclaimPass d numTokens spare state duplicates).1 := by
  induction duplicates with
  | nil => exact fun _ h => .refl h
  | cons i duplicates ih =>
    rintro ⟨s, freed, swept⟩ h
    rw [UnifiedTreeCore.reclaimPass]
    split
    · exact .refl h
    split
    · exact ih (s, freed, swept ++ [i]) h
    split
    · exact ih (s, freed, swept) h
    split
    · exact ih (s, freed, swept) h
    · next hreclaim =>
      have hevicted := Safe.evictComponent d h (h.unpinned_of_reclaim hreclaim) .full .host
      exact hevicted.trans (ih (_, _, _) hevicted.safe)

theorem Safe.reclaimFullHostDuplicates (h : Safe s) (numTokens freed : Nat) :
    Harmless s (reclaimFullHostDuplicates d s numTokens freed) := by
  let duplicates := s.fullHostDuplicates
  let first := UnifiedTreeCore.reclaimPass d numTokens true (s, freed, []) duplicates
  have hfirst : Harmless s first.1 := Safe.reclaimPass d numTokens true duplicates (s, freed, []) h
  have hsecond := hfirst.trans (Safe.reclaimPass d numTokens false duplicates first hfirst.safe)
  exact hsecond.trans (hsecond.safe.discard rfl rfl rfl rfl rfl rfl (Finset.Subset.refl _)
    (Finset.Subset.refl _))

end

end QwenStack.TreeCore

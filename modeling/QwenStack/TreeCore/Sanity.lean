import Mathlib.Algebra.BigOperators.Group.Finset.Basic
import Mathlib.Algebra.BigOperators.Group.Finset.Piecewise
import Mathlib.Algebra.Order.Group.Int
import Mathlib.Tactic.Abel
import QwenStack.Support.Runs
import QwenStack.TreeCore.Shape

/-!
# Tree core — locks and sizes

`sanity_check` recounts the tree: a lock is on data that is there, and the evictable and the protected
size of a component are the slots of its unlocked and of its locked nodes (`Sane`).  Locks keep the
sizes whatever they are put on, and so do splits.  What can fail is a lock on nothing: `pin_prefix` and
the floor raise the locks of every component of a node, and a node may lack the data of one.  Where they
find it the tree stays sane (`run_sane`).
-/

namespace QwenStack.TreeCore
open Assoc UnifiedTreeCore

/-! ### The rules -/

/-- The slots that may be evicted. -/
def ComponentData.evictablePart (cd : ComponentData) : Int := if 0 < cd.lockRef then 0 else cd.size

/-- The slots that may not. -/
def ComponentData.protectedPart (cd : ComponentData) : Int := if 0 < cd.lockRef then cd.size else 0

/-- A sum over the nodes but the root. -/
def UnifiedTreeCore.recount (s : UnifiedTreeCore) (part : ComponentData → Int) (c : ComponentType) : Int :=
  ∑ i ∈ s.nodeArena.erase s.rootNode, part (s.data i c)

/-- What `sanity_check` verifies of the locks and the sizes. -/
structure Sane (s : UnifiedTreeCore) : Prop where
  unlocked : ∀ i ∈ s.nodeArena, i ≠ s.rootNode → ∀ c ∈ s.components,
    (s.data i c).value = none → (s.data i c).lockRef ≤ 0
  evictable : ∀ c ∈ s.components,
    s.componentEvictableSize c = s.recount ComponentData.evictablePart c
  protect : ∀ c ∈ s.components,
    s.componentProtectedSize c = s.recount ComponentData.protectedPart c

section
variable {s : UnifiedTreeCore} {i : NodeId} {c : ComponentType}

/-- One node of a sum changes. -/
theorem recount_setData (hi : i ∈ s.nodeArena) (hne : i ≠ s.rootNode) (cd : ComponentData)
    (part : ComponentData → Int) (c' : ComponentType) :
    (s.setData i c cd).recount part c' =
      s.recount part c' + if c' = c then part cd - part (s.data i c) else 0 := by
  have hmem : i ∈ s.nodeArena.erase s.rootNode := Finset.mem_erase.mpr ⟨hne, hi⟩
  have hrest : ∑ j ∈ (s.nodeArena.erase s.rootNode).erase i, part ((s.setData i c cd).data j c') =
      ∑ j ∈ (s.nodeArena.erase s.rootNode).erase i, part (s.data j c') :=
    Finset.sum_congr rfl fun j hj => by
      rw [data_setData, if_neg fun h => (Finset.mem_erase.mp hj).1 h.1]
  have hnew := Finset.add_sum_erase _ (fun j => part ((s.setData i c cd).data j c')) hmem
  have hold := Finset.add_sum_erase _ (fun j => part (s.data j c')) hmem
  have hself : (s.setData i c cd).data i c' = if c' = c then cd else s.data i c' := by
    rw [data_setData]
    simp only [true_and]
  rw [hrest, hself] at hnew
  rw [recount, recount]
  change ∑ j ∈ s.nodeArena.erase s.rootNode, part ((s.setData i c cd).data j c') = _
  rw [← hnew, ← hold]
  by_cases hc : c' = c
  · subst hc
    simp only [if_true]
    abel
  · simp only [hc, if_false, add_zero]

/-- **A lock changes**, and its slots with it. -/
theorem Sane.change (h : Sane s) (hi : i ∈ s.nodeArena) (hne : i ≠ s.rootNode) {cd : ComponentData}
    {n : Int} (hvalue : cd.value = none → cd.lockRef ≤ 0)
    (hevictable : cd.evictablePart = (s.data i c).evictablePart - n)
    (hprotected : cd.protectedPart = (s.data i c).protectedPart + n) :
    Sane ((s.protect c n).setData i c cd) := by
  refine ⟨fun j hj hjne c' hc' => ?_, fun c' hc' => ?_, fun c' hc' => ?_⟩
  · rw [data_setData]
    split
    · exact hvalue
    · exact h.unlocked j hj hjne c' hc'
  · rw [recount_setData (s := s.protect c n) hi hne]
    have := h.evictable c' hc'
    change Function.update s.componentEvictableSize c _ c' = s.recount _ c' + _
    rw [Function.update_apply, ← this]
    by_cases he : c' = c
    · subst he
      simp only [if_true]
      change _ = _ + (cd.evictablePart - (s.data i c').evictablePart)
      rw [hevictable]
      abel
    · simp only [he, if_false, add_zero]
  · rw [recount_setData (s := s.protect c n) hi hne]
    have := h.protect c' hc'
    change Function.update s.componentProtectedSize c _ c' = s.recount _ c' + _
    rw [Function.update_apply, ← this]
    by_cases he : c' = c
    · subst he
      simp only [if_true]
      change _ = _ + (cd.protectedPart - (s.data i c').protectedPart)
      rw [hprotected]
      abel
    · simp only [he, if_false, add_zero]

theorem protect_zero (s : UnifiedTreeCore) (c : ComponentType) : s.protect c 0 = s := by
  simp only [UnifiedTreeCore.protect, sub_zero, add_zero, Function.update_eq_self]

/-- A lock that changes nothing for its slots. -/
theorem Sane.keep (h : Sane s) (hi : i ∈ s.nodeArena) (hne : i ≠ s.rootNode) {cd : ComponentData}
    (hvalue : cd.value = none → cd.lockRef ≤ 0)
    (hevictable : cd.evictablePart = (s.data i c).evictablePart)
    (hprotected : cd.protectedPart = (s.data i c).protectedPart) : Sane (s.setData i c cd) := by
  have := h.change (n := 0) hi hne hvalue (by rw [hevictable, sub_zero]) (by rw [hprotected, add_zero])
  rwa [protect_zero] at this

end

/-! ### Locks -/

section
variable {s : UnifiedTreeCore} {i : NodeId} {c : ComponentType}

theorem Sane.updateEvictableLeafSets (h : Sane s) (i : NodeId) : Sane (s.updateEvictableLeafSets i) :=
  ⟨h.unlocked, h.evictable, h.protect⟩

theorem Sane.updateDuplicateTracking (h : Sane s) (i : NodeId) : Sane (s.updateDuplicateTracking i) :=
  ⟨h.unlocked, h.evictable, h.protect⟩

variable (h : Sane s) (hi : i ∈ s.nodeArena) (hne : i ≠ s.rootNode)
include h hi hne

/-- Data that is there is locked. -/
theorem Sane.acquireAt (hvalue : (s.data i c).value ≠ none) : Sane (acquireAt c s i) := by
  rw [UnifiedTreeCore.acquireAt]
  split
  · next hzero =>
    refine h.change hi hne (fun hnone => absurd hnone hvalue) ?_ ?_
    · simp [ComponentData.evictablePart, ComponentData.size, hzero]
    · simp [ComponentData.protectedPart, ComponentData.size, hzero]
  · next hnonzero =>
    have hsign : 0 < (s.data i c).lockRef + 1 ↔ 0 < (s.data i c).lockRef := by omega
    refine h.keep hi hne (fun hnone => absurd hnone hvalue) ?_ ?_
    · simp only [ComponentData.evictablePart, ComponentData.size, hsign]
    · simp only [ComponentData.protectedPart, ComponentData.size, hsign]

/-- A lock is released, whatever it was on. -/
theorem Sane.releaseAt (hc : c ∈ s.components) : Sane (releaseAt c s i) := by
  have hunlocked := h.unlocked i hi hne c hc
  rw [UnifiedTreeCore.releaseAt]
  split
  · next hone =>
    refine h.change hi hne (fun _ => by simp [hone]) ?_ ?_
    · simp [ComponentData.evictablePart, ComponentData.size, hone]
    · simp [ComponentData.protectedPart, ComponentData.size, hone]
  · next hnotone =>
    have hsign : 0 < (s.data i c).lockRef - 1 ↔ 0 < (s.data i c).lockRef := by omega
    refine h.keep hi hne (fun hnone => ?_) ?_ ?_
    · have := hunlocked hnone
      dsimp only
      omega
    · simp only [ComponentData.evictablePart, ComponentData.size, hsign]
    · simp only [ComponentData.protectedPart, ComponentData.size, hsign]

/-- The floor on data that is there. -/
theorem Sane.floorLock (hvalue : (s.data i c).value ≠ none) : Sane (floorLock i s c) := by
  have hsome := Option.isSome_iff_ne_none.mpr hvalue
  rw [UnifiedTreeCore.floorLock]
  split
  · next hlow =>
    have hzero : ¬ 0 < (s.data i c).lockRef := by omega
    refine h.change hi hne (fun hnone => absurd hnone hvalue) ?_ ?_
    · simp [ComponentData.evictablePart, ComponentData.size, hzero]
    · simp [ComponentData.protectedPart, ComponentData.size, hzero]
  · exact h

theorem Sane.floorHostLock (hc : c ∈ s.components) : Sane (floorHostLock i s c) := by
  rw [UnifiedTreeCore.floorHostLock]
  split
  · exact h.keep hi hne (h.unlocked i hi hne c hc) rfl rfl
  · exact h

end

/-! ### Paths of locks -/

section
variable {s t : UnifiedTreeCore} {skip : List ComponentType}

/-- A loop of which every step is sane, in trees that differ by the locks. -/
theorem Sane.foldl {α : Type*} {f : UnifiedTreeCore → α → UnifiedTreeCore} {l : List α} (h : Sane t)
    (hst : SameValues s t)
    (hf : ∀ u, SameValues s u → Sane u → ∀ a ∈ l, SameValues u (f u a) ∧ Sane (f u a)) :
    SameValues s (l.foldl f t) ∧ Sane (l.foldl f t) :=
  List.foldlRecOn l f (motive := fun u => SameValues s u ∧ Sane u) ⟨hst, h⟩ fun u hu a ha => by
    obtain ⟨hvalues, hsane⟩ := hf u hu.1 hu.2 a ha
    exact ⟨hu.1.trans hvalues, hsane⟩

theorem Sane.eachLock {lockAt : ComponentType → UnifiedTreeCore → NodeId → UnifiedTreeCore} (h : Sane s)
    (path : List NodeId) (skip : List ComponentType) (hlock : ∀ c u i, SameValues u (lockAt c u i))
    (hsane : ∀ u, SameValues s u → Sane u → ∀ c ∈ s.components, c ∉ skip → ∀ i ∈ lockRange c path,
      Sane (lockAt c u i)) :
    SameValues s (s.eachLock lockAt path skip) ∧ Sane (s.eachLock lockAt path skip) := by
  refine h.foldl (.refl s) fun u hsu hu c hc => ?_
  obtain ⟨hc, hskip⟩ := List.mem_filter.mp hc
  have hrange := hu.foldl (l := lockRange c path) (f := lockAt c) (.refl u) fun v huv hv i hi =>
    ⟨hlock c v i, hsane v (hsu.trans huv) hv c hc (of_decide_eq_true hskip) i hi⟩
  exact hrange

/-- The nodes of a path are in the tree, also in one that differs by the locks. -/
theorem SameValues.mem_path (hst : SameValues s t) (hw : WellFormed s) {i j : NodeId}
    (hi : i ∈ s.nodeArena) (hj : j ∈ s.path i) : j ∈ t.nodeArena ∧ j ≠ t.rootNode := by
  rw [hst.shape.nodeArena, hst.shape.rootNode]
  exact hw.mem_path hi hj

theorem Sane.incLockRef (h : Sane s) (hw : WellFormed s) {i : NodeId}
    (hvalue : ∀ c ∈ s.components, c ∉ skip → ∀ j ∈ lockRange c (s.path i), (s.data j c).value ≠ none)
    (hstep : s.incLockRef i skip = some t) : Sane t ∧ SameShape s t := by
  rw [UnifiedTreeCore.incLockRef] at hstep
  split at hstep
  · next hi =>
    cases hstep
    obtain ⟨hsame, hsane⟩ := h.eachLock (s.path i) skip SameValues.acquireAt
      fun u hsu hu c hc hskip j hj => by
        obtain ⟨hmem, hne⟩ := hsu.mem_path hw hi (lockRange_sub c _ hj)
        exact hu.acquireAt hmem hne (hsu.values j c ▸ hvalue c hc hskip j hj)
    exact ⟨hsane.updateEvictableLeafSets i, hsame.shape.trans (.updateEvictableLeafSets _ i)⟩
  · cases hstep

/-- The floor of one node. -/
theorem Sane.restoreFloor (h : Sane t) (hst : SameValues s t) {i : NodeId} (hi : i ∈ t.nodeArena)
    (hne : i ≠ t.rootNode)
    (hvalue : (s.nodes i).pinned = true → ∀ c ∈ s.components, (s.data i c).value ≠ none) :
    SameValues t (UnifiedTreeCore.restoreFloor UnifiedTreeCore.floorLock t i) ∧
      Sane (UnifiedTreeCore.restoreFloor UnifiedTreeCore.floorLock t i) := by
  rw [UnifiedTreeCore.restoreFloor]
  split
  · next hpinned =>
    rw [hst.pinned] at hpinned
    obtain ⟨hsame, hsane⟩ := h.foldl (f := UnifiedTreeCore.floorLock i) (.refl t)
      fun u htu hu c hc => by
        refine ⟨.floorLock i u c, hu.floorLock ?_ ?_ ?_⟩
        · exact htu.shape.nodeArena ▸ hi
        · exact htu.shape.rootNode ▸ hne
        · rw [(hst.trans htu).values]
          exact hvalue hpinned c (hst.shape.components ▸ hc)
    exact ⟨hsame.trans (.updateEvictableLeafSets _ i), hsane.updateEvictableLeafSets i⟩
  · exact ⟨.refl t, h⟩

theorem Sane.decLockRef (h : Sane s) (hw : WellFormed s) {i : NodeId}
    (hvalue : ∀ j ∈ s.path i, (s.nodes j).pinned = true → ∀ c ∈ s.components, (s.data j c).value ≠ none)
    (hstep : s.decLockRef i skip = some t) : Sane t ∧ SameShape s t := by
  rw [UnifiedTreeCore.decLockRef] at hstep
  split at hstep
  · next hi =>
    cases hstep
    obtain ⟨hsame, hsane⟩ := h.eachLock (s.path i) skip SameValues.releaseAt
      fun u hsu hu c hc _ j hj => by
        obtain ⟨hmem, hne⟩ := hsu.mem_path hw hi (lockRange_sub c _ hj)
        exact hu.releaseAt hmem hne (hsu.shape.components ▸ hc)
    obtain ⟨hsame, hsane⟩ := hsane.foldl (l := s.path i)
      (f := UnifiedTreeCore.restoreFloor UnifiedTreeCore.floorLock) hsame fun u hsu hu j hj => by
        obtain ⟨hmem, hne⟩ := hsu.mem_path hw hi hj
        exact hu.restoreFloor hsu hmem hne (hvalue j hj)
    exact ⟨hsane.updateEvictableLeafSets i, hsame.shape.trans (.updateEvictableLeafSets _ i)⟩
  · cases hstep

/-- A node with all of its data is pinned. -/
theorem Sane.pinNode (h : Sane s) {i : NodeId} (hi : i ∈ s.nodeArena) (hne : i ≠ s.rootNode)
    (hvalue : ∀ c ∈ s.components, (s.data i c).value ≠ none) :
    Sane (s.pinNode i) ∧ ∀ j c, ((s.pinNode i).data j c).value = (s.data j c).value := by
  let u := s.setNode i { s.nodes i with pinned := true }
  have hdata (j : NodeId) (c : ComponentType) : u.data j c = s.data j c := by
    simp only [u, data, setNode, Function.update_apply]
    split
    · next he => rw [he]
    · rfl
  have hu : Sane u := by
    refine ⟨fun j hj hjne c hc => ?_, fun c hc => ?_, fun c hc => ?_⟩
    · rw [hdata]
      exact h.unlocked j hj hjne c hc
    · simp only [recount, hdata]
      exact h.evictable c hc
    · simp only [recount, hdata]
      exact h.protect c hc
  obtain ⟨hsame, hsane⟩ := hu.foldl (l := s.components)
    (f := fun t c => UnifiedTreeCore.floorHostLock i (UnifiedTreeCore.floorLock i t c) c) (.refl u)
    fun t hut ht c hc => by
      have hmem : i ∈ t.nodeArena := hut.shape.nodeArena ▸ hi
      have hroot : i ≠ t.rootNode := hut.shape.rootNode ▸ hne
      have hfloor := SameValues.floorLock i t c
      have hpin : Sane (UnifiedTreeCore.floorLock i t c) := by
        refine ht.floorLock hmem hroot ?_
        rw [hut.values, hdata]
        exact hvalue c hc
      refine ⟨hfloor.trans (.floorHostLock i _ c), hpin.floorHostLock ?_ ?_ ?_⟩
      · exact hfloor.shape.nodeArena ▸ hmem
      · exact hfloor.shape.rootNode ▸ hroot
      · rw [hfloor.shape.components, hut.shape.components]
        exact hc
  refine ⟨hsane.updateEvictableLeafSets i, fun j c => ?_⟩
  exact (hsame.values j c).trans (congrArg ComponentData.value (hdata j c))

theorem Sane.pinPrefix (h : Sane s) (hw : WellFormed s)
    (hvalue : ∀ j ∈ s.path s.deepest, ∀ c ∈ s.components, (s.data j c).value ≠ none) :
    Sane s.pinPrefix ∧ SameShape s s.pinPrefix := by
  have hpins := List.foldlRecOn (s.path s.deepest) UnifiedTreeCore.pinNode
    (motive := fun t => Sane t ∧ SameShape s t ∧ ∀ j c, (t.data j c).value = (s.data j c).value)
    ⟨h, .refl s, fun _ _ => rfl⟩ fun t ht j hj => by
      obtain ⟨hsane, hshape, hvalues⟩ := ht
      obtain ⟨hmem, hne⟩ := hw.mem_path hw.deepest_mem hj
      obtain ⟨hsane', hvalues'⟩ := hsane.pinNode (i := j) (hshape.nodeArena ▸ hmem)
        (hshape.rootNode ▸ hne) fun c hc => by
          rw [hvalues]
          exact hvalue j hj c (hshape.components ▸ hc)
      exact ⟨hsane', hshape.trans (.pinNode t j), fun i c => (hvalues' i c).trans (hvalues i c)⟩
  exact ⟨hpins.1, hpins.2.1⟩

/-! ### Data -/

/-- Data comes back to a node that has none, and so no lock. -/
theorem Sane.unevictNodeOnInsert (h : Sane s) (hw : WellFormed s) {i : NodeId} {freshValue : Tensor}
    (hstep : s.unevictNodeOnInsert i freshValue = some t) : Sane t ∧ SameShape s t := by
  rw [UnifiedTreeCore.unevictNodeOnInsert] at hstep
  split at hstep
  · next hguard =>
    obtain ⟨hi, hevicted⟩ := hguard
    obtain ⟨hparent, hnone⟩ := Bool.and_eq_true_iff.mp hevicted
    have hvalue : (s.data i .full).value = none := Option.isNone_iff_eq_none.mp hnone
    have hne : i ≠ s.rootNode := by
      rintro rfl
      rw [hw.root_parent] at hparent
      cases hparent
    have hlock : ¬ 0 < (s.data i .full).lockRef :=
      Int.not_lt.mpr (h.unlocked i hi hne .full hw.full hvalue)
    have hsane : Sane ((s.setData i .full
        { s.data i .full with value := some freshValue }).addEvictable .full freshValue.length) := by
      refine ⟨fun j hj hjne c hc hn => ?_, fun c hc => ?_, fun c hc => ?_⟩
      · change ((s.setData i .full _).data j c).value = none at hn
        change ((s.setData i .full _).data j c).lockRef ≤ 0
        rw [data_setData] at hn ⊢
        split at hn
        · cases hn
        · next he =>
          rw [if_neg he]
          exact h.unlocked j hj hjne c hc hn
      · change Function.update s.componentEvictableSize .full _ c = (s.setData i .full _).recount _ c
        rw [recount_setData hi hne, Function.update_apply, ← h.evictable c hc]
        split
        · next he =>
          subst he
          simp [ComponentData.evictablePart, ComponentData.size, hlock, hvalue]
          rfl
        · rw [add_zero]
      · change s.componentProtectedSize c = (s.setData i .full _).recount _ c
        rw [recount_setData hi hne, ← h.protect c hc]
        simp [ComponentData.protectedPart, hlock]
    have hsane' := (hsane.updateEvictableLeafSets i).updateDuplicateTracking i
    have hshape := (((SameShape.setData s i .full { s.data i .full with value := some freshValue }).trans
      (.addEvictable _ .full freshValue.length)).trans (.updateEvictableLeafSets _ i)).trans
      (.updateDuplicateTracking _ i)
    cases hstep
    split
    · next p _ =>
      exact ⟨hsane'.updateEvictableLeafSets p, hshape.trans (.updateEvictableLeafSets _ p)⟩
    · exact ⟨hsane', hshape⟩
  · cases hstep

/-- The parts of a node have its slots. -/
theorem redistribute_parts (splitLen : Nat) (cd : ComponentData) :
    (cd.redistribute splitLen).1.evictablePart + (cd.redistribute splitLen).2.evictablePart =
        cd.evictablePart ∧
      (cd.redistribute splitLen).1.protectedPart + (cd.redistribute splitLen).2.protectedPart =
        cd.protectedPart := by
  have hsize : (cd.redistribute splitLen).1.size + (cd.redistribute splitLen).2.size = cd.size := by
    cases hv : cd.value with
    | none => simp [ComponentData.redistribute, ComponentData.size, hv]
    | some v =>
      simp only [ComponentData.redistribute, ComponentData.size, hv, Option.map_some,
        Option.getD_some, List.length_take, List.length_drop]
      omega
  have hupper : (cd.redistribute splitLen).1.lockRef = cd.lockRef := rfl
  have hlower : (cd.redistribute splitLen).2.lockRef = cd.lockRef := rfl
  by_cases hlock : 0 < cd.lockRef
  · simp only [ComponentData.evictablePart, ComponentData.protectedPart, hupper, hlower, hlock, if_true]
    exact ⟨rfl, hsize⟩
  · simp only [ComponentData.evictablePart, ComponentData.protectedPart, hupper, hlower, hlock, if_false]
    exact ⟨hsize, rfl⟩

/-- A sum over the nodes after a split. -/
theorem recount_divide (hw : WellFormed s) {p child : NodeId} (hpm : p ∈ s.nodeArena)
    (hcm : child ∈ s.nodeArena) (hparent : (s.nodes child).parent = some p) (hpc : p ≠ child)
    (splitLen : Nat) {part : ComponentData → Int} {c : ComponentType} (hc : c ∈ s.components)
    (hpart : part ((s.data child c).redistribute splitLen).1 +
      part ((s.data child c).redistribute splitLen).2 = part (s.data child c)) :
    (s.divide p child splitLen).recount part c = s.recount part c := by
  have hnodes := divide_nodes hpc (hw.fresh p hpm).ne splitLen
  have hdata (i : NodeId) (hi : i ∈ s.nodeArena) : (s.divide p child splitLen).data i c =
      if i = child then ((s.data child c).redistribute splitLen).2 else s.data i c := by
    rw [data, hnodes, if_neg (hw.fresh i hi).ne]
    split
    · next he =>
      subst he
      exact (if_neg hpc).symm
    · split
      · exact if_pos hc
      · rfl
  have hnew : (s.divide p child splitLen).data s.counter c =
      ((s.data child c).redistribute splitLen).1 := by
    rw [data, hnodes, if_neg (hw.fresh p hpm).ne', if_neg (hw.fresh child hcm).ne', if_pos rfl]
    exact if_pos hc
  have hne : child ≠ s.rootNode := by
    rintro rfl
    rw [hw.root_parent] at hparent
    cases hparent
  have hmem : child ∈ s.nodeArena.erase s.rootNode := Finset.mem_erase.mpr ⟨hne, hcm⟩
  have hfresh : s.counter ∉ s.nodeArena.erase s.rootNode := fun h =>
    Nat.lt_irrefl _ (hw.fresh _ (Finset.mem_of_mem_erase h))
  have harena : (insert s.counter s.nodeArena).erase s.rootNode =
      insert s.counter (s.nodeArena.erase s.rootNode) :=
    Finset.erase_insert_of_ne (hw.fresh _ hw.root_mem).ne'
  have hrest : ∑ i ∈ (s.nodeArena.erase s.rootNode).erase child,
        part ((s.divide p child splitLen).data i c) =
      ∑ i ∈ (s.nodeArena.erase s.rootNode).erase child, part (s.data i c) :=
    Finset.sum_congr rfl fun i hi => by
      obtain ⟨hic, hi⟩ := Finset.mem_erase.mp hi
      rw [hdata i (Finset.mem_of_mem_erase hi), if_neg hic]
  change ∑ i ∈ (insert s.counter s.nodeArena).erase s.rootNode,
    part ((s.divide p child splitLen).data i c) = _
  rw [harena, Finset.sum_insert hfresh, hnew, ← Finset.add_sum_erase _ _ hmem, hrest, hdata child hcm,
    if_pos rfl, ← add_assoc, hpart, recount, ← Finset.add_sum_erase _ _ hmem]

/-- **A split keeps the locks and the sizes.** -/
theorem Sane.splitNode (h : Sane s) (hw : WellFormed s) {child : NodeId} {splitLen : Nat}
    (hstep : s.splitNode child splitLen = some t) : Sane t ∧ WellFormed t := by
  obtain ⟨p, hpm, hparent, hlookup, hpage, -, rfl⟩ := splitNode_cases hstep
  have hcm : child ∈ s.nodeArena := hw.children p hpm _ (mem_of_lookup hlookup)
  have hw' := hw.divide hpm hcm hparent hlookup hpage
  have hpc : p ≠ child := by
    rintro rfl
    obtain ⟨rank, hrank⟩ := hw.ranked
    exact Nat.lt_irrefl _ (hrank p hpm p hparent)
  have hne : child ≠ s.rootNode := by
    rintro rfl
    rw [hw.root_parent] at hparent
    cases hparent
  have hchild := h.unlocked child hcm hne
  have hsane : Sane (s.divide p child splitLen) := by
    refine ⟨fun i hi hine c hc => ?_, fun c hc => ?_, fun c hc => ?_⟩
    · change c ∈ s.components at hc
      rw [data, divide_nodes hpc (hw.fresh p hpm).ne splitLen]
      obtain rfl | hi := Finset.mem_insert.mp hi
      · rw [if_neg (hw.fresh p hpm).ne', if_neg (hw.fresh child hcm).ne', if_pos rfl]
        simp only [upperFragment, if_pos hc, ComponentData.redistribute, Option.map_eq_none_iff]
        exact hchild c hc
      · rw [if_neg (hw.fresh i hi).ne]
        split
        · exact h.unlocked p hpm (fun he => hine (by rw [‹i = p›, he]; rfl)) c hc
        · split
          · simp only [lowerFragment, if_pos hc, ComponentData.redistribute, Option.map_eq_none_iff]
            exact hchild c hc
          · exact h.unlocked i hi hine c hc
    · exact (h.evictable c hc).trans
        (recount_divide hw hpm hcm hparent hpc splitLen hc (redistribute_parts _ _).1).symm
    · exact (h.protect c hc).trans
        (recount_divide hw hpm hcm hparent hpc splitLen hc (redistribute_parts _ _).2).symm
  refine ⟨((hsane.updateEvictableLeafSets _).updateEvictableLeafSets _).updateDuplicateTracking _, ?_⟩
  exact hw'.of_sameShape (((SameShape.updateEvictableLeafSets _ _).trans
    (.updateEvictableLeafSets _ _)).trans (.updateDuplicateTracking _ _))

end

/-! ### Runs -/

/-- What locks, pins and refills the nodes. -/
inductive LockAction where
  | pinPrefix
  | incLockRef (node : NodeId) (skip : List ComponentType)
  | decLockRef (node : NodeId) (skip : List ComponentType)
  | splitNode (child : NodeId) (splitLen : Nat)
  | unevictNodeOnInsert (node : NodeId) (freshValue : Tensor)
  deriving DecidableEq, Repr

def UnifiedTreeCore.stepLock (s : UnifiedTreeCore) : LockAction → Option UnifiedTreeCore
  | .pinPrefix => some s.pinPrefix
  | .incLockRef i skip => s.incLockRef i skip
  | .decLockRef i skip => s.decLockRef i skip
  | .splitNode child splitLen => s.splitNode child splitLen
  | .unevictNodeOnInsert i freshValue => s.unevictNodeOnInsert i freshValue

/-- Every node of a chain has the data of every component. -/
def Complete (s : UnifiedTreeCore) (chain : List NodeId) : Prop :=
  ∀ j ∈ chain, ∀ c ∈ s.components, (s.data j c).value ≠ none

/-- The locks that a step puts are on data: those of `pin_prefix` and of the floor are on every
component, those of `inc_lock_ref` where the drivers put them. -/
def LocksData (s : UnifiedTreeCore) : LockAction → Prop
  | .pinPrefix => Complete s (s.path s.deepest)
  | .incLockRef i skip => ∀ c ∈ s.components, c ∉ skip → ∀ j ∈ lockRange c (s.path i),
      (s.data j c).value ≠ none
  | .decLockRef i _ => Complete s ((s.path i).filter fun j => (s.nodes j).pinned)
  | .splitNode _ _ => True
  | .unevictNodeOnInsert _ _ => True

/-- **One step.** -/
theorem Sane.step {s t : UnifiedTreeCore} {a : LockAction} (h : Sane s) (hw : WellFormed s)
    (ha : LocksData s a) (hstep : s.stepLock a = some t) : Sane t ∧ WellFormed t := by
  cases a with
  | pinPrefix =>
    cases hstep
    obtain ⟨hsane, hshape⟩ := h.pinPrefix hw ha
    exact ⟨hsane, hw.of_sameShape hshape⟩
  | incLockRef i skip =>
    obtain ⟨hsane, hshape⟩ := h.incLockRef hw ha hstep
    exact ⟨hsane, hw.of_sameShape hshape⟩
  | decLockRef i skip =>
    have hpins (j : NodeId) (hj : j ∈ s.path i) (hpinned : (s.nodes j).pinned = true) :=
      ha j (List.mem_filter.mpr ⟨hj, hpinned⟩)
    obtain ⟨hsane, hshape⟩ := h.decLockRef hw hpins hstep
    exact ⟨hsane, hw.of_sameShape hshape⟩
  | splitNode child splitLen => exact h.splitNode hw hstep
  | unevictNodeOnInsert i freshValue =>
    obtain ⟨hsane, hshape⟩ := h.unevictNodeOnInsert hw hstep
    exact ⟨hsane, hw.of_sameShape hshape⟩

/-- **A tree stays sane while its locks are on data**: in every state of every run, paired or not. -/
theorem run_sane (s : UnifiedTreeCore) (hw : WellFormed s) (hs : Sane s) (actions : List LockAction)
    (hlocks : Runs.Along stepLock LocksData s actions) (n : Nat) (t : UnifiedTreeCore)
    (ht : Runs.exec stepLock s (actions.take n) = some t) : Sane t :=
  (Runs.exec_invariant (J := fun t => Sane t ∧ WellFormed t) (C := LocksData)
    (fun h hC hstep => h.1.step h.2 hC hstep) ⟨hs, hw⟩ hlocks.get n t ht).1

instance (s : UnifiedTreeCore) (chain : List NodeId) : Decidable (Complete s chain) :=
  inferInstanceAs (Decidable (∀ j ∈ chain, ∀ c ∈ s.components, (s.data j c).value ≠ none))

instance (s : UnifiedTreeCore) : (a : LockAction) → Decidable (LocksData s a)
  | .pinPrefix => inferInstanceAs (Decidable (Complete s _))
  | .incLockRef i skip => inferInstanceAs (Decidable (∀ c ∈ s.components, c ∉ skip →
      ∀ j ∈ lockRange c (s.path i), (s.data j c).value ≠ none))
  | .decLockRef _ _ => inferInstanceAs (Decidable (Complete s _))
  | .splitNode _ _ => isTrue trivial
  | .unevictNodeOnInsert _ _ => isTrue trivial

/-- A node below the root, with or without a state. -/
def oneNode (mamba : Option Tensor) : UnifiedTreeCore where
  radixKey := .plain
  components := [.full, .mamba]
  pageSize := 1
  nodes
    | 0 => { children := [([5], 1)] }
    | 1 =>
      { parent := some 0, key := [5, 6],
        componentData := fun
          | .full => { value := some [7, 8] }
          | .mamba => { value := mamba }
          | _ => {} }
    | _ => {}
  counter := 2
  nodeArena := {0, 1}
  rootNode := 0
  componentEvictableSize
    | .full => 2
    | .mamba => ComponentData.size { value := mamba }
    | _ => 0
  componentProtectedSize := fun _ => 0
  evictableDeviceLeaves := {1}
  evictableHostLeaves := ∅
  fullHostDuplicates := []

/-- The node, and the root. -/
theorem mem_oneNode {mamba : Option Tensor} {i : NodeId} (h : i ∈ (oneNode mamba).nodeArena) :
    i = 0 ∨ i = 1 := (Finset.mem_insert.mp h).imp_right Finset.mem_singleton.mp

theorem oneNode_wellFormed (mamba : Option Tensor) : WellFormed (oneNode mamba) where
  full := List.mem_cons_self
  root_mem := Finset.mem_insert_self 0 _
  root_parent := rfl
  fresh i hi := by
    obtain rfl | rfl := mem_oneNode hi
    · exact Nat.zero_lt_two
    · exact Nat.one_lt_two
  parent i hi hne := by
    obtain rfl | rfl := mem_oneNode hi
    · exact absurd rfl hne
    · exact ⟨0, Finset.mem_insert_self 0 _, rfl, rfl⟩
  children i hi child hchild := by
    obtain rfl | rfl := mem_oneNode hi
    · obtain rfl := List.mem_singleton.mp hchild
      exact Finset.mem_insert_of_mem (Finset.mem_singleton_self 1)
    · cases hchild
  ranked := by
    refine ⟨id, fun i hi p hp => ?_⟩
    obtain rfl | rfl := mem_oneNode hi
    · cases hp
    · cases hp
      exact Nat.zero_lt_one

theorem recount_oneNode (mamba : Option Tensor) (part : ComponentData → Int) (c : ComponentType) :
    (oneNode mamba).recount part c = part ((oneNode mamba).data 1 c) := by
  have harena : (oneNode mamba).nodeArena.erase (oneNode mamba).rootNode = {1} := by
    change ({0, 1} : Finset Nat).erase 0 = {1}
    decide
  rw [recount, harena, Finset.sum_singleton]

theorem oneNode_sane (mamba : Option Tensor) : Sane (oneNode mamba) where
  unlocked i hi hne c hc _ := by
    obtain rfl | rfl := mem_oneNode hi
    · exact absurd rfl hne
    · cases c <;> exact Int.le_refl 0
  evictable c hc := by
    rw [recount_oneNode]
    cases c <;> rfl
  protect c hc := by
    rw [recount_oneNode]
    cases c <;> rfl

/-- A node with a state is pinned and locked, and splits while a request has it. -/
def splitUnderLock : List LockAction :=
  [.pinPrefix, .incLockRef 1 [], .splitNode 1 1, .decLockRef 1 []]

theorem splitUnderLock_sane :
    (Runs.exec stepLock (oneNode (some [3])) (splitUnderLock.take 4)).isSome = true ∧
      ∀ t, Runs.exec stepLock (oneNode (some [3])) (splitUnderLock.take 4) = some t → Sane t :=
  ⟨by decide, run_sane _ (oneNode_wellFormed _) (oneNode_sane _) splitUnderLock (by decide) 4⟩

/-- **A pin locks what is not there**: the node has no state, and a lock on it. -/
theorem pin_locks_nothing :
    WellFormed (oneNode none) ∧ Sane (oneNode none) ∧
      Runs.exec stepLock (oneNode none) [.pinPrefix] = some (oneNode none).pinPrefix ∧
      ((oneNode none).pinPrefix.data 1 .mamba).value = none ∧
      ((oneNode none).pinPrefix.data 1 .mamba).lockRef = 1 ∧ ¬ Sane (oneNode none).pinPrefix := by
  have hvalue : ((oneNode none).pinPrefix.data 1 .mamba).value = none := by decide
  have hlock : ((oneNode none).pinPrefix.data 1 .mamba).lockRef = 1 := by decide
  refine ⟨oneNode_wellFormed _, oneNode_sane _, rfl, hvalue, hlock, fun h => ?_⟩
  have hmem : 1 ∈ (oneNode none).pinPrefix.nodeArena := by decide
  have hle := h.unlocked 1 hmem (by decide) .mamba (by decide) hvalue
  rw [hlock] at hle
  exact absurd hle (by decide)

end QwenStack.TreeCore

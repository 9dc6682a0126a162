import QwenStack.TreeCore.Pins

/-!
# Tree core — the floor under the locks

Locks that are taken only raise what is there (`Raises`).  Locks that are released take from the path of a
node, and from one kind of lock (`Releases`); the walk that follows goes along the same path and raises
those of pinned nodes to one again.  So a pinned node is guarded whoever releases what
(`Safe.decLockRef`), and `pin_prefix` guards what it pins (`Safe.pinPrefix`).
-/

namespace QwenStack.TreeCore
open Assoc UnifiedTreeCore

/-! ### Guarded nodes -/

/-- Where data is, and its lock. -/
inductive Tier where
  | device
  | host
  deriving DecidableEq, Repr

def Tier.lock : Tier → ComponentData → Int
  | .device, cd => cd.lockRef
  | .host, cd => cd.hostLockRef

/-- A node is in neither leaf set. -/
def NoLeaf (s : UnifiedTreeCore) (i : NodeId) : Prop :=
  i ∉ s.evictableDeviceLeaves ∧ i ∉ s.evictableHostLeaves

/-- A node has both locks, and is in neither leaf set. -/
structure Guarded (s : UnifiedTreeCore) (i : NodeId) : Prop where
  locks : ∀ tier : Tier, 1 ≤ tier.lock (s.data i .full)
  noLeaf : NoLeaf s i

section
variable {s t u : UnifiedTreeCore} {i j : NodeId}

theorem Safe.guarded (h : Safe s) (hi : (s.nodes i).pinned = true) : Guarded s i := by
  refine ⟨fun tier => ?_, h.deviceLeaves i hi, h.hostLeaves i hi⟩
  cases tier with
  | device => exact h.locked i hi
  | host => exact h.hostLocked i hi

/-- The locks change, and every pinned node is guarded. -/
theorem Safe.of_guarded (h : Safe s) (hst : SameValues s t)
    (hguarded : ∀ j, (s.nodes j).pinned = true → Guarded t j) : Harmless s t := by
  have hp (j : NodeId) (hj : (t.nodes j).pinned = true) : Guarded t j :=
    hguarded j ((hst.pinned j).symm.trans hj)
  have hspares := Spares.of_sameValues hst
  refine ⟨⟨hst.shape.components ▸ h.full, ?_, ?_, fun j hj => ?_, fun j hj => (hp j hj).locks .device,
    fun j hj => (hp j hj).locks .host, fun j hj => (hp j hj).noLeaf.1, fun j hj => (hp j hj).noLeaf.2,
    fun j hj => hspares.pinnedPath (h.path j ((hst.pinned j).symm.trans hj))⟩, hspares⟩
  · rw [hst.shape.rootNode, hst.shape.counter]
    exact h.root
  · exact h.allocated hst.shape.nodeArena.subset hst.shape.counter hst.shape.parent fun j =>
      fun _ hc => hst.shape.children j ▸ hc
  · rw [hst.shape.nodeArena]
    exact h.mem j ((hst.pinned j).symm.trans hj)

/-- Leaf sets that are brought up to date at a locked node do not have it, and keep the others. -/
theorem noLeaf_updateEvictableLeafSets (hj : NoLeaf s j ∨ j = i)
    (hi : j = i → ∀ tier : Tier, 1 ≤ tier.lock (s.data i .full)) :
    NoLeaf (s.updateEvictableLeafSets i) j := by
  by_cases he : j = i
  · subst he
    exact notMem_updateEvictableLeafSets (hi rfl .device) (hi rfl .host)
  · rw [NoLeaf, (mem_updateEvictableLeafSets_of_ne he).1, (mem_updateEvictableLeafSets_of_ne he).2]
    exact hj.resolve_right he

theorem Guarded.updateEvictableLeafSets (h : Guarded s j) (i : NodeId) :
    Guarded (s.updateEvictableLeafSets i) j :=
  ⟨h.locks, noLeaf_updateEvictableLeafSets (.inl h.noLeaf) fun he => he ▸ h.locks⟩

end

/-! ### Locks that are taken -/

/-- The locks are not lower, and the leaf sets the same. -/
structure Raises (s t : UnifiedTreeCore) : Prop where
  same : SameValues s t
  lock : ∀ (tier : Tier) i, tier.lock (s.data i .full) ≤ tier.lock (t.data i .full)
  deviceLeaves : t.evictableDeviceLeaves = s.evictableDeviceLeaves
  hostLeaves : t.evictableHostLeaves = s.evictableHostLeaves

namespace Raises

variable {s t u : UnifiedTreeCore}

theorem refl (s : UnifiedTreeCore) : Raises s s := ⟨.refl s, fun _ _ => Int.le_refl _, rfl, rfl⟩

theorem trans (h : Raises s t) (h' : Raises t u) : Raises s u :=
  ⟨h.same.trans h'.same, fun tier i => (h.lock tier i).trans (h'.lock tier i),
    h'.deviceLeaves.trans h.deviceLeaves, h'.hostLeaves.trans h.hostLeaves⟩

/-- A loop over steps that raise locks. -/
theorem foldl {α : Type*} {f : UnifiedTreeCore → α → UnifiedTreeCore} (hf : ∀ s a, Raises s (f s a))
    (l : List α) (s : UnifiedTreeCore) : Raises s (l.foldl f s) :=
  List.foldlRecOn l f (motive := Raises s) (refl s) fun _ ht a _ => ht.trans (hf _ a)

theorem protect (s : UnifiedTreeCore) (c : ComponentType) (n : Int) : Raises s (s.protect c n) :=
  ⟨.protect s c n, fun _ _ => Int.le_refl _, rfl, rfl⟩

theorem setData (s : UnifiedTreeCore) (i : NodeId) (c : ComponentType) {cd : ComponentData}
    (hvalue : cd.value = (s.data i c).value) (hhost : cd.hostValue = (s.data i c).hostValue)
    (hlock : ∀ tier : Tier, tier.lock (s.data i c) ≤ tier.lock cd) : Raises s (s.setData i c cd) := by
  refine ⟨.setData s i c hvalue hhost, fun tier j => ?_, rfl, rfl⟩
  rw [data_setData]
  split
  · next he =>
    rw [he.1, he.2]
    exact hlock tier
  · exact Int.le_refl _

theorem acquireAt (c : ComponentType) (s : UnifiedTreeCore) (i : NodeId) :
    Raises s (acquireAt c s i) := by
  have hlock (tier : Tier) : tier.lock (s.data i c) ≤
      tier.lock { s.data i c with lockRef := (s.data i c).lockRef + 1 } := by
    cases tier with
    | device => exact Int.le_add_one (Int.le_refl _)
    | host => exact Int.le_refl _
  rw [UnifiedTreeCore.acquireAt]
  split
  · exact (protect s c _).trans (setData (s.protect c _) i c rfl rfl hlock)
  · exact setData s i c rfl rfl hlock

theorem acquireHostAt (c : ComponentType) (s : UnifiedTreeCore) (i : NodeId) :
    Raises s (acquireHostAt c s i) := by
  refine setData s i c rfl rfl fun tier => ?_
  cases tier with
  | device => exact Int.le_refl _
  | host => exact Int.le_add_one (Int.le_refl _)

theorem floorLock (i : NodeId) (s : UnifiedTreeCore) (c : ComponentType) :
    Raises s (floorLock i s c) := by
  rw [UnifiedTreeCore.floorLock]
  split
  · next hlow =>
    have hset : Raises s (s.setData i c { s.data i c with lockRef := 1 }) :=
      setData s i c rfl rfl fun tier => by
        cases tier with
        | device => exact Int.le_of_lt hlow
        | host => exact Int.le_refl _
    split
    · exact hset.trans (protect _ c _)
    · exact hset
  · exact refl s

theorem floorHostLock (i : NodeId) (s : UnifiedTreeCore) (c : ComponentType) :
    Raises s (floorHostLock i s c) := by
  rw [UnifiedTreeCore.floorHostLock]
  split
  · next hlow =>
    refine setData s i c rfl rfl fun tier => ?_
    cases tier with
    | device => exact Int.le_refl _
    | host => exact Int.le_of_lt hlow
  · exact refl s

theorem eachLock {lockAt : ComponentType → UnifiedTreeCore → NodeId → UnifiedTreeCore}
    (hlock : ∀ c s i, Raises s (lockAt c s i)) (s : UnifiedTreeCore) (path : List NodeId)
    (skip : List ComponentType) : Raises s (s.eachLock lockAt path skip) :=
  foldl (fun s c => foldl (hlock c) (lockRange c path) s) _ s

theorem noLeaf (h : Raises s t) {i : NodeId} (hi : NoLeaf s i) : NoLeaf t i := by
  rw [NoLeaf, h.deviceLeaves, h.hostLeaves]
  exact hi

theorem guarded (h : Raises s t) {i : NodeId} (hi : Guarded s i) : Guarded t i :=
  ⟨fun tier => (hi.locks tier).trans (h.lock tier i), h.noLeaf hi.noLeaf⟩

end Raises

theorem Safe.raise {s t : UnifiedTreeCore} (h : Safe s) (hst : Raises s t) : Harmless s t :=
  h.of_guarded hst.same fun _ hj => hst.guarded (h.guarded hj)

theorem Safe.incLockRef {s t : UnifiedTreeCore} {i : NodeId} {skip : List ComponentType} (h : Safe s)
    (ht : s.incLockRef i skip = some t) : Harmless s t := by
  rw [UnifiedTreeCore.incLockRef] at ht
  split at ht
  · cases ht
    have hraised := h.raise (.eachLock Raises.acquireAt s (s.path i) skip)
    exact hraised.trans (hraised.safe.updateEvictableLeafSets i)
  · cases ht

theorem Safe.incHostLockRef {s t : UnifiedTreeCore} {i : NodeId} (h : Safe s)
    (ht : s.incHostLockRef i = some t) : Harmless s t := by
  rw [UnifiedTreeCore.incHostLockRef] at ht
  split at ht
  · cases ht
    have hraised := h.raise (.eachLock Raises.acquireHostAt s (s.path i) [])
    exact hraised.trans (hraised.safe.updateEvictableLeafSets i)
  · cases ht

/-! ### Locks that are released -/

/-- Locks of one kind fall, along a path. -/
structure Releases (tier : Tier) (path : List NodeId) (s t : UnifiedTreeCore) : Prop where
  same : SameValues s t
  lock : ∀ (tier' : Tier) i, tier' ≠ tier ∨ i ∉ path →
    tier'.lock (t.data i .full) = tier'.lock (s.data i .full)
  deviceLeaves : t.evictableDeviceLeaves = s.evictableDeviceLeaves
  hostLeaves : t.evictableHostLeaves = s.evictableHostLeaves

namespace Releases

variable {tier : Tier} {path : List NodeId} {s t u : UnifiedTreeCore}

theorem refl (tier : Tier) (path : List NodeId) (s : UnifiedTreeCore) : Releases tier path s s :=
  ⟨.refl s, fun _ _ _ => rfl, rfl, rfl⟩

theorem trans (h : Releases tier path s t) (h' : Releases tier path t u) : Releases tier path s u :=
  ⟨h.same.trans h'.same, fun tier i hi => (h'.lock tier i hi).trans (h.lock tier i hi),
    h'.deviceLeaves.trans h.deviceLeaves, h'.hostLeaves.trans h.hostLeaves⟩

theorem foldl {α : Type*} {f : UnifiedTreeCore → α → UnifiedTreeCore} {l : List α}
    (hf : ∀ s, ∀ a ∈ l, Releases tier path s (f s a)) (s : UnifiedTreeCore) :
    Releases tier path s (l.foldl f s) :=
  List.foldlRecOn l f (motive := Releases tier path s) (refl tier path s) fun t ht a ha =>
    ht.trans (hf t a ha)

theorem setData (s : UnifiedTreeCore) {i : NodeId} (hi : i ∈ path) (c : ComponentType)
    {cd : ComponentData} (hvalue : cd.value = (s.data i c).value)
    (hhost : cd.hostValue = (s.data i c).hostValue)
    (hlock : ∀ tier' : Tier, tier' ≠ tier → tier'.lock cd = tier'.lock (s.data i c)) :
    Releases tier path s (s.setData i c cd) := by
  refine ⟨.setData s i c hvalue hhost, fun tier' j hj => ?_, rfl, rfl⟩
  rw [data_setData]
  split
  · next he =>
    rw [he.1, he.2]
    exact hlock tier' (hj.resolve_right fun hne => hne (he.1 ▸ hi))
  · rfl

theorem releaseAt (c : ComponentType) (s : UnifiedTreeCore) {i : NodeId} (hi : i ∈ path) :
    Releases .device path s (releaseAt c s i) := by
  have hlock (tier : Tier) (htier : tier ≠ .device) :
      tier.lock { s.data i c with lockRef := (s.data i c).lockRef - 1 } = tier.lock (s.data i c) := by
    cases tier with
    | device => exact absurd rfl htier
    | host => rfl
  rw [UnifiedTreeCore.releaseAt]
  split
  · have hprotect (n : Int) : Releases .device path s (s.protect c n) :=
      ⟨.protect s c n, fun _ _ _ => rfl, rfl, rfl⟩
    exact (hprotect _).trans (setData (s.protect c _) hi c rfl rfl hlock)
  · exact setData s hi c rfl rfl hlock

theorem releaseHostAt (c : ComponentType) (s : UnifiedTreeCore) {i : NodeId} (hi : i ∈ path) :
    Releases .host path s (releaseHostAt c s i) := by
  refine setData s hi c rfl rfl fun tier htier => ?_
  cases tier with
  | device => rfl
  | host => exact absurd rfl htier

theorem eachLock {lockAt : ComponentType → UnifiedTreeCore → NodeId → UnifiedTreeCore}
    (hlock : ∀ c s i, i ∈ path → Releases tier path s (lockAt c s i)) (s : UnifiedTreeCore)
    (skip : List ComponentType) : Releases tier path s (s.eachLock lockAt path skip) :=
  foldl (fun s c _ => foldl (fun s i hi => hlock c s i (lockRange_sub c path hi)) s) s

end Releases

/-- A floor raises locks, and one of `FULL` to one. -/
structure IsFloor (tier : Tier) (floor : NodeId → UnifiedTreeCore → ComponentType → UnifiedTreeCore) :
    Prop where
  raises : ∀ i s c, Raises s (floor i s c)
  floored : ∀ i s, 1 ≤ tier.lock ((floor i s .full).data i .full)

theorem isFloor_floorLock : IsFloor .device floorLock := by
  refine ⟨.floorLock, fun i s => ?_⟩
  rw [UnifiedTreeCore.floorLock]
  split
  · have hone : ((s.setData i .full { s.data i .full with lockRef := 1 }).data i .full).lockRef = 1 := by
      rw [data_setData, if_pos ⟨rfl, rfl⟩]
    split
    · exact hone.ge
    · exact hone.ge
  · next hlock => exact Int.not_lt.mp hlock

theorem isFloor_floorHostLock : IsFloor .host floorHostLock := by
  refine ⟨.floorHostLock, fun i s => ?_⟩
  rw [UnifiedTreeCore.floorHostLock]
  split
  · rw [data_setData, if_pos ⟨rfl, rfl⟩]
    exact Int.le_refl 1
  · next hlock => exact Int.not_lt.mp hlock

section
variable {s t u : UnifiedTreeCore} {i : NodeId} {tier : Tier}
  {floor : NodeId → UnifiedTreeCore → ComponentType → UnifiedTreeCore}

/-- A loop over the components comes to `FULL`, and raises its lock. -/
theorem floored_foldl {f : UnifiedTreeCore → ComponentType → UnifiedTreeCore}
    (hf : ∀ s c, Raises s (f s c)) (hfull : ∀ s, 1 ≤ tier.lock ((f s .full).data i .full)) :
    ∀ {components : List ComponentType}, .full ∈ components →
      ∀ s, 1 ≤ tier.lock ((components.foldl f s).data i .full) := by
  intro components hmem
  induction components with
  | nil => cases hmem
  | cons c components ih =>
    intro s
    obtain rfl | hmem := List.mem_cons.mp hmem
    · exact (hfull s).trans ((Raises.foldl hf components _).lock tier i)
    · exact ih hmem (f s c)

/-- What is kept on the way along a path: the locks are those of before, but for those of one kind on
nodes that are still to come. -/
structure Restoring (tier : Tier) (s : UnifiedTreeCore) (rest : List NodeId) (u : UnifiedTreeCore) :
    Prop where
  same : SameValues s u
  locks : ∀ j, (s.nodes j).pinned = true → ∀ tier' : Tier, tier' ≠ tier ∨ j ∉ rest →
    1 ≤ tier'.lock (u.data j .full)
  noLeaf : ∀ j, (s.nodes j).pinned = true → NoLeaf u j

theorem Releases.restoring {path : List NodeId} (hr : Releases tier path s u) (h : Safe s) :
    Restoring tier s path u := by
  refine ⟨hr.same, fun j hj tier' hkept => ?_, fun j hj => ?_⟩
  · rw [hr.lock tier' j hkept]
    exact (h.guarded hj).locks tier'
  · rw [NoLeaf, hr.deviceLeaves, hr.hostLeaves]
    exact (h.guarded hj).noLeaf

/-- **The floor of one node.** -/
theorem Restoring.restoreFloor {rest : List NodeId} (hfloor : IsFloor tier floor)
    (hfull : .full ∈ s.components) (h : Restoring tier s (i :: rest) u) :
    Restoring tier s rest (restoreFloor floor u i) := by
  rw [UnifiedTreeCore.restoreFloor]
  split
  · next hpinned =>
    rw [h.same.pinned] at hpinned
    have hraise := Raises.foldl (hfloor.raises i) u.components u
    have hlocks (j : NodeId) (hj : (s.nodes j).pinned = true) (tier' : Tier)
        (hkept : tier' ≠ tier ∨ j ∉ rest) :
        1 ≤ tier'.lock ((u.components.foldl (floor i) u).data j .full) := by
      by_cases htier : tier' = tier
      · subst htier
        by_cases hji : j = i
        · subst hji
          exact floored_foldl (hfloor.raises j) (hfloor.floored j) (h.same.shape.components ▸ hfull) u
        · have hrest := hkept.resolve_left fun hne => hne rfl
          exact (h.locks j hj tier' (.inr fun hm => (List.mem_cons.mp hm).elim hji hrest)).trans
            (hraise.lock tier' j)
      · exact (h.locks j hj tier' (.inl htier)).trans (hraise.lock tier' j)
    refine ⟨(h.same.trans hraise.same).trans (.updateEvictableLeafSets _ i), hlocks, fun j hj => ?_⟩
    refine noLeaf_updateEvictableLeafSets (.inl (hraise.noLeaf (h.noLeaf j hj))) fun he tier' => ?_
    by_cases htier : tier' = tier
    · subst htier
      exact floored_foldl (hfloor.raises i) (hfloor.floored i) (h.same.shape.components ▸ hfull) u
    · exact he ▸ hlocks j hj tier' (.inl htier)
  · next hpinned =>
    rw [h.same.pinned] at hpinned
    refine ⟨h.same, fun j hj tier' hkept => h.locks j hj tier' (hkept.imp_right fun hrest => ?_),
      h.noLeaf⟩
    exact fun hm => (List.mem_cons.mp hm).elim (fun he => hpinned (he ▸ hj)) hrest

theorem Restoring.foldl (hfloor : IsFloor tier floor) (hfull : .full ∈ s.components) :
    ∀ {path : List NodeId} {u : UnifiedTreeCore}, Restoring tier s path u →
      Restoring tier s [] (path.foldl (UnifiedTreeCore.restoreFloor floor) u) := by
  intro path
  induction path with
  | nil => exact fun h => h
  | cons i path ih => exact fun h => ih (h.restoreFloor hfloor hfull)

/-- **A release and the walk that follows it.** -/
theorem Safe.restore (h : Safe s) (hfloor : IsFloor tier floor) {path : List NodeId}
    (hr : Releases tier path s u) : Harmless s (path.foldl (UnifiedTreeCore.restoreFloor floor) u) := by
  have hrestored := (hr.restoring h).foldl hfloor h.full
  exact h.of_guarded hrestored.same fun j hj =>
    ⟨fun tier' => hrestored.locks j hj tier' (.inr List.not_mem_nil), hrestored.noLeaf j hj⟩

theorem Safe.decLockRef {skip : List ComponentType} (h : Safe s)
    (ht : s.decLockRef i skip = some t) : Harmless s t := by
  rw [UnifiedTreeCore.decLockRef] at ht
  split at ht
  · cases ht
    have hreleased : Releases .device (s.path i) s (s.eachLock releaseAt (s.path i) skip) :=
      .eachLock (fun c s _ hi => .releaseAt c s hi) s skip
    have hrestored := h.restore isFloor_floorLock hreleased
    exact hrestored.trans (hrestored.safe.updateEvictableLeafSets i)
  · cases ht

theorem Safe.decHostLockRef {skip : List ComponentType} (h : Safe s)
    (ht : s.decHostLockRef i skip = some t) : Harmless s t := by
  rw [UnifiedTreeCore.decHostLockRef] at ht
  split at ht
  · cases ht
    have hreleased : Releases .host (s.path i) s (s.eachLock releaseHostAt (s.path i) skip) :=
      .eachLock (fun c s _ hi => .releaseHostAt c s hi) s skip
    have hrestored := h.restore isFloor_floorHostLock hreleased
    exact hrestored.trans (hrestored.safe.updateEvictableLeafSets i)
  · cases ht

end

/-! ### Pins -/

section
variable {s t u : UnifiedTreeCore} {i j : NodeId}

/-- Nodes are pinned, and locked for it. -/
structure Pins (chosen : NodeId → Prop) (s t : UnifiedTreeCore) : Prop where
  shape : SameShape s t
  value : ∀ i, (t.data i .full).value = (s.data i .full).value
  hostValue : ∀ i, (t.data i .full).hostValue = (s.data i .full).hostValue
  pinned : ∀ i, (t.nodes i).pinned = true ↔ (s.nodes i).pinned = true ∨ chosen i
  guarded : ∀ i, Guarded s i ∨ chosen i → Guarded t i

theorem Pins.pinNode (hfull : .full ∈ s.components) (i : NodeId) : Pins (· = i) s (s.pinNode i) := by
  let u := s.setNode i { s.nodes i with pinned := true }
  let f (t : UnifiedTreeCore) (c : ComponentType) := floorHostLock i (floorLock i t c) c
  have hf (t : UnifiedTreeCore) (c : ComponentType) : Raises t (f t c) :=
    (Raises.floorLock i t c).trans (.floorHostLock i _ c)
  have hraise : Raises u (s.components.foldl f u) := .foldl hf s.components u
  have hdata (j : NodeId) : u.data j .full = s.data j .full := by
    rw [data, setNode_nodes]
    split
    · next he => rw [he]; rfl
    · rfl
  have hlocks (tier : Tier) : 1 ≤ tier.lock ((s.components.foldl f u).data i .full) := by
    refine floored_foldl hf (fun t => ?_) hfull u
    cases tier with
    | device => exact (isFloor_floorLock.floored i t).trans ((Raises.floorHostLock i _ .full).lock .device i)
    | host => exact isFloor_floorHostLock.floored i _
  refine ⟨.pinNode s i, fun j => ?_, fun j => ?_, fun j => ?_, fun j hj => ?_⟩
  · exact (hraise.same.values j .full).trans (congrArg ComponentData.value (hdata j))
  · exact (hraise.same.hostValues j .full).trans (congrArg ComponentData.hostValue (hdata j))
  · change ((s.components.foldl f u).nodes j).pinned = true ↔ _
    rw [hraise.same.pinned, setNode_nodes]
    split
    · next he => exact ⟨fun _ => .inr he, fun _ => rfl⟩
    · next he => exact ⟨.inl, fun h => h.resolve_right he⟩
  · by_cases he : j = i
    · subst he
      exact ⟨hlocks, noLeaf_updateEvictableLeafSets (.inr rfl) fun _ => hlocks⟩
    · have hguarded := hj.resolve_right he
      have hu : Guarded u j := ⟨fun tier => hdata j ▸ hguarded.locks tier, hguarded.noLeaf⟩
      exact (hraise.guarded hu).updateEvictableLeafSets i

theorem Pins.foldl : ∀ {path : List NodeId} {s : UnifiedTreeCore}, .full ∈ s.components →
    Pins (· ∈ path) s (path.foldl UnifiedTreeCore.pinNode s) := by
  intro path
  induction path with
  | nil =>
    intro s _
    refine ⟨.refl s, fun _ => rfl, fun _ => rfl, fun j => ?_, fun j hj => ?_⟩
    · exact ⟨.inl, fun h => h.resolve_right List.not_mem_nil⟩
    · exact hj.resolve_right List.not_mem_nil
  | cons i path ih =>
    intro s hfull
    have hpin := Pins.pinNode hfull i
    have hrest := ih (s := s.pinNode i) (hpin.shape.components ▸ hfull)
    refine ⟨hpin.shape.trans hrest.shape, fun j => (hrest.value j).trans (hpin.value j),
      fun j => (hrest.hostValue j).trans (hpin.hostValue j), fun j => ?_, fun j hj => ?_⟩
    · rw [List.foldl_cons, hrest.pinned, hpin.pinned, List.mem_cons, or_assoc]
    · rw [List.mem_cons, ← or_assoc] at hj
      exact hrest.guarded j (hj.imp_left (hpin.guarded j))

/-- Pinned paths stay, where more is pinned. -/
theorem PinnedPath.of_pins {chosen : NodeId → Prop} (h : Pins chosen s t) (hj : PinnedPath s j) :
    PinnedPath t j := by
  have hlink {p j : NodeId} (hl : (s.nodes p).children.lookup (s.childKey (s.nodes j).key) = some j) :
      (t.nodes p).children.lookup (t.childKey (t.nodes j).key) = some j := by
    rw [h.shape.children, childKey_congr h.shape.pageSize, h.shape.key]
    exact hl
  induction hj with
  | @top j hj hp hl =>
    refine .top ((h.pinned j).mpr (.inl hj)) ?_ ?_
    · rw [h.shape.parent, h.shape.rootNode]
      exact hp
    · rw [h.shape.rootNode]
      exact hlink hl
  | @step j p hj hp hl _ ih =>
    exact .step ((h.pinned j).mpr (.inl hj)) ((h.shape.parent j).trans hp) (hlink hl) ih

/-- A path that is pinned is a pinned path. -/
theorem WellFormed.pinnedPath (hw : WellFormed s) (hi : i ∈ s.nodeArena)
    (h : Pins (· ∈ s.path i) s t) (hj : j ∈ s.path i) : PinnedPath t j := by
  obtain ⟨rank, hrank⟩ := hw.ranked
  -- the parents of the path are on it, and of lower rank
  induction hr : rank j using Nat.strong_induction_on generalizing j with
  | _ r ih =>
    obtain ⟨hmem, hne⟩ := hw.mem_path hi hj
    obtain ⟨p, hp, hparent, hlookup⟩ := hw.parent j hmem hne
    obtain ⟨q, hq, hpath⟩ := (hw.path_complete hi).2 j hj
    cases hparent.symm.trans hq
    have hpinned := (h.pinned j).mpr (.inr hj)
    have hlink : (t.nodes p).children.lookup (t.childKey (t.nodes j).key) = some j := by
      rw [h.shape.children, childKey_congr h.shape.pageSize, h.shape.key]
      exact hlookup
    obtain rfl | hpath := hpath
    · refine .top hpinned ?_ ?_
      · rw [h.shape.parent, h.shape.rootNode]
        exact hparent
      · rw [h.shape.rootNode]
        exact hlink
    · exact .step hpinned ((h.shape.parent j).trans hparent) hlink
        (ih (rank p) (hr ▸ hrank j hmem p hparent) hpath rfl)

/-- **`pin_prefix` guards what it pins.** -/
theorem Safe.pinPrefix (h : Safe s) (hw : WellFormed s) : Safe s.pinPrefix := by
  have hpins : Pins (· ∈ s.path s.deepest) s s.pinPrefix := Pins.foldl h.full
  have hguarded (j : NodeId) (hj : (s.pinPrefix.nodes j).pinned = true) : Guarded s.pinPrefix j :=
    hpins.guarded j (((hpins.pinned j).mp hj).imp_left h.guarded)
  refine ⟨hpins.shape.components ▸ h.full, ?_, ?_, fun j hj => ?_, fun j hj => (hguarded j hj).locks .device,
    fun j hj => (hguarded j hj).locks .host, fun j hj => (hguarded j hj).noLeaf.1,
    fun j hj => (hguarded j hj).noLeaf.2, fun j hj => ?_⟩
  · rw [hpins.shape.rootNode, hpins.shape.counter]
    exact h.root
  · exact h.allocated hpins.shape.nodeArena.subset hpins.shape.counter hpins.shape.parent fun j =>
      fun _ hc => hpins.shape.children j ▸ hc
  · rw [hpins.shape.nodeArena]
    obtain hold | hnew := (hpins.pinned j).mp hj
    · exact h.mem j hold
    · exact (hw.mem_path hw.deepest_mem hnew).1
  · obtain hold | hnew := (hpins.pinned j).mp hj
    · exact (h.path j hold).of_pins hpins
    · exact hw.pinnedPath hw.deepest_mem hpins hnew

/-- Before the first pin. -/
theorem WellFormed.safe (hw : WellFormed s) (hnone : ∀ i, (s.nodes i).pinned = false) : Safe s := by
  obtain ⟨rank, hrank⟩ := hw.ranked
  have hpin {P : NodeId → Prop} (i : NodeId) (hi : (s.nodes i).pinned = true) : P i := by
    rw [hnone] at hi
    cases hi
  refine ⟨hw.full, hw.fresh _ hw.root_mem, fun i hi => ⟨hw.fresh i hi, fun hp => ?_, fun child hc => ?_⟩, hpin,
    hpin, hpin, hpin, hpin, hpin⟩
  · exact Nat.lt_irrefl _ (hrank i hi i hp)
  · exact hw.fresh _ (hw.children i hi child hc)

end

end QwenStack.TreeCore

import QwenStack.TreeCore.Definitions

/-!
# Tree core — eviction

The ways in which `unified_tree_core.py` takes data and nodes from the tree: a leaf of the device is
demoted or deleted, a subtree without a copy on the host is dropped, a leaf of the host is deleted, the
copies on the host of what is also on the device are reclaimed, and ancestors that have neither data nor
children go with their last child.

What a driver frees of a node is its own (`Drivers`).  The tallies of what was freed are left out, but for
the one that `_reclaim_full_host_duplicates` stops by.
-/

namespace QwenStack.TreeCore
open Assoc

/-- `EvictLayer`. -/
inductive EvictLayer where
  | device
  | host
  | all
  deriving DecidableEq, Repr

/-- What `evict_component` leaves of a node, and what it frees. -/
structure Evicted where
  componentData : ComponentType → ComponentData
  /-- The slots taken from the evictable ones. -/
  evictable : ComponentType → Int
  deviceFreed : Nat
  hostFreed : Nat

/-- The drivers of the components, as eviction uses them. -/
structure Drivers where
  evictComponent : ComponentType → EvictLayer → UnifiedTreeNode → Evicted
  nodeHasComponentData : ComponentType → EvictLayer → UnifiedTreeNode → Bool
  evictionPriority : ComponentType → Bool → Int
  /-- A session refers to the component on the node, and none to the trigger. -/
  sessionHolds : ComponentType → ComponentType → UnifiedTreeNode → Bool

namespace UnifiedTreeCore

variable (d : Drivers)

/-- `_evict_component_and_detach_lru`. -/
def evictComponent (s : UnifiedTreeCore) (i : NodeId) (c : ComponentType) (target : EvictLayer) :
    UnifiedTreeCore :=
  let e := d.evictComponent c target (s.nodes i)
  { s.setNode i { s.nodes i with componentData := e.componentData } with
    componentEvictableSize := fun c => s.componentEvictableSize c - e.evictable c }

/-- The components of a node, one after the other. -/
def evictComponents (s : UnifiedTreeCore) (i : NodeId) (target : EvictLayer) : UnifiedTreeCore :=
  s.components.foldl (fun s c => evictComponent d s i c target) s

/-- Those of which the node has data. -/
def evictPresent (s : UnifiedTreeCore) (i : NodeId) (target : EvictLayer) : UnifiedTreeCore :=
  s.components.foldl (fun s c =>
    if d.nodeHasComponentData c target (s.nodes i) = true then evictComponent d s i c target else s) s

/-- A node leaves the leaves of the host. -/
def discardHostLeaf (s : UnifiedTreeCore) (i : NodeId) : UnifiedTreeCore :=
  { s with evictableHostLeaves := s.evictableHostLeaves.erase i }

/-- A node leaves both leaf sets. -/
def discardLeaf (s : UnifiedTreeCore) (i : NodeId) : UnifiedTreeCore :=
  { s.discardHostLeaf i with evictableDeviceLeaves := s.evictableDeviceLeaves.erase i }

/-- A lock is on a node. -/
def isLocked (s : UnifiedTreeCore) (i : NodeId) : Bool :=
  ComponentType.all.any fun c => decide (0 < (s.data i c).lockRef) || decide (0 < (s.data i c).hostLockRef)

/-- `_remove_leaf_from_parent`. -/
def removeLeafFromParent (s : UnifiedTreeCore) (i : NodeId) : Option UnifiedTreeCore :=
  match (s.nodes i).parent with
  | none => none
  | some p =>
      let key := s.childKey (s.nodes i).key
      if (s.nodes p).children.lookup key = some i then
        some { s.setNode p { s.nodes p with children := del key (s.nodes p).children } with
          fullHostDuplicates := s.fullHostDuplicates.filter (· ≠ i)
          nodeArena := s.nodeArena.erase i }
      else none

/-- `_iteratively_delete_tombstone_ancestors`, along the path of a node. -/
def deleteTombstones (s : UnifiedTreeCore) : List NodeId → Option UnifiedTreeCore
  | [] => some s
  | cur :: path =>
      if (s.nodes cur).children.isEmpty = false then some s
      else if s.isLocked cur = true then some s
      else
        let hasDevice := (s.data cur .full).value.isSome
        let hasHost := (s.data cur .full).hostValue.isSome
        if hasDevice = true then some (s.updateEvictableLeafSets cur)
        else
          let t := evictPresent d s cur .device
          if hasHost = true then some (t.updateEvictableLeafSets cur)
          else
            let t := (evictPresent d t cur .host).discardHostLeaf cur
            match removeLeafFromParent t cur with
            | none => none
            | some t =>
                let t := match (s.nodes cur).parent with
                  | some p => t.updateEvictableLeafSets p
                  | none => t
                t.deleteTombstones path

/-- `_iteratively_delete_tombstone_leaf`. -/
def deleteTombstoneLeaf (s : UnifiedTreeCore) (deleted : NodeId) : Option UnifiedTreeCore :=
  deleteTombstones d s ((s.path deleted).drop 1)

/-- `_release_all_component_layers`. -/
def releaseAllComponentLayers (s : UnifiedTreeCore) (i : NodeId) : UnifiedTreeCore :=
  (evictComponents d s i .all).discardLeaf i

/-- `_delete_unbacked_device_leaf`. -/
def deleteUnbackedDeviceLeaf (s : UnifiedTreeCore) (i : NodeId) : Option UnifiedTreeCore := do
  let t ← removeLeafFromParent (releaseAllComponentLayers d s i) i
  let t := match (s.nodes i).parent with
    | some p => t.updateEvictableLeafSets p
    | none => t
  deleteTombstoneLeaf d t i

/-! ### Demotion -/

/-- `_is_cascade_evict_leaf`, on the device. -/
def isCascadeEvictLeaf (s : UnifiedTreeCore) (i : NodeId) : Bool :=
  if (s.nodes i).pinned = true then false else decide (i ∈ s.evictableDeviceLeaves)

/-- `_should_cascade_evict_component`, from `FULL` on the device. -/
def shouldCascadeEvictComponent (s : UnifiedTreeCore) (i : NodeId) (c : ComponentType)
    (isLeaf : Bool) : Option Bool :=
  if d.evictionPriority .full isLeaf < d.evictionPriority c isLeaf then some false
  else if c = .full ∨ d.nodeHasComponentData c .device (s.nodes i) = false then some false
  else if d.evictionPriority .full false ≤ d.evictionPriority c false ∧
      ((s.data i c).lockRef ≠ 0 ∨ d.sessionHolds c .full (s.nodes i) = true) then some false
  else if (s.data i c).lockRef = 0 then some true
  else none

/-- `_cascade_evict`, from `FULL` on the device. -/
def cascadeEvict (s : UnifiedTreeCore) (i : NodeId) : Option UnifiedTreeCore := do
  let isLeaf := s.isCascadeEvictLeaf i
  let t ← s.components.foldlM (fun t c => do
    if (← shouldCascadeEvictComponent d t i c isLeaf) = true then some (evictComponent d t i c .device)
    else some t) s
  let t := t.setData i .full { t.data i .full with value := none }
  some (t.updateEvictableLeafSets i)

/-- `_demote`. -/
def demote (s : UnifiedTreeCore) (i : NodeId) : Option UnifiedTreeCore :=
  if (s.nodes i).evicted = false ∧ (s.nodes i).backuped = true then do
    let t ← cascadeEvict d (evictComponent d s i .full .device) i
    some (match (s.nodes i).parent with
      | some p => t.updateEvictableLeafSets p
      | none => t)
  else none

/-! ### Ways to evict -/

/-- `evict_device_leaf`. -/
def evictDeviceLeaf (s : UnifiedTreeCore) (i : NodeId) (isWriteBack : Bool) : Option UnifiedTreeCore :=
  if i ∈ s.nodeArena ∧ s.isDeviceLeaf i = true then
    if (s.nodes i).backuped = false then
      if isWriteBack = true then some s else deleteUnbackedDeviceLeaf d s i
    else demote d s i
  else none

/-- The nodes below the stack; none if a lock is on one. -/
def unlockedBelow (s : UnifiedTreeCore) : Nat → List NodeId → List NodeId → Option (List NodeId)
  | 0, _, descendants => some descendants
  | _, [], descendants => some descendants
  | fuel + 1, cur :: stack, descendants =>
      if s.isLocked cur = true then none
      else s.unlockedBelow fuel (((s.nodes cur).children.map Prod.snd).reverse ++ stack)
        (descendants ++ [cur])

/-- A host-only descendant is dropped. -/
def dropDescendant (s : UnifiedTreeCore) (i : NodeId) : Option UnifiedTreeCore :=
  if (s.nodes i).evicted = true ∧ (s.nodes i).backuped = true ∧
      (s.nodes i).writeThroughPendingId = none then
    removeLeafFromParent (releaseAllComponentLayers d s i) i
  else none

/-- `drop_subtree_no_host`. -/
def dropSubtreeNoHost (s : UnifiedTreeCore) (i : NodeId) : Option UnifiedTreeCore :=
  if i ∈ s.nodeArena ∧ s.isDeviceLeaf i = true ∧ (s.nodes i).backuped = false ∧
      (s.nodes i).writeThroughPendingId = none then
    if ComponentType.all.any (fun c => decide (0 < (s.data i c).hostLockRef)) = true then some s
    else
      match s.unlockedBelow s.counter ((s.nodes i).children.map Prod.snd).reverse [] with
      | none => some s
      | some descendants => do
          let t ← descendants.reverse.foldlM (dropDescendant d) s
          deleteUnbackedDeviceLeaf d t i
  else none

/-- `_evict_host_leaf`. -/
def evictHostLeaf (s : UnifiedTreeCore) (i : NodeId) : Option UnifiedTreeCore :=
  if s.isHostLeaf i = true then do
    let t ← removeLeafFromParent ((evictComponents d s i .all).discardHostLeaf i) i
    deleteTombstoneLeaf d t i
  else none

/-! ### Duplicates -/

/-- `_can_reclaim_full_host_duplicate`. -/
def canReclaimFullHostDuplicate (s : UnifiedTreeCore) (i : NodeId) : Bool :=
  s.isSettledFullHostDuplicate i && decide ((s.data i .full).hostLockRef = 0)

/-- A pass of `_reclaim_full_host_duplicates`, with what is freed and the entries to sweep. -/
def reclaimPass (numTokens : Nat) (spareImminentDemotes : Bool) :
    UnifiedTreeCore × Nat × List NodeId → List NodeId → UnifiedTreeCore × Nat × List NodeId
  | state, [] => state
  | (s, freed, swept), i :: duplicates =>
      if numTokens ≤ freed then (s, freed, swept)
      else if (s.data i .full).value = none ∨ (s.data i .full).hostValue = none then
        reclaimPass numTokens spareImminentDemotes (s, freed, swept ++ [i]) duplicates
      else if spareImminentDemotes = true ∧ i ∈ s.evictableDeviceLeaves then
        reclaimPass numTokens spareImminentDemotes (s, freed, swept) duplicates
      else if s.canReclaimFullHostDuplicate i = false then
        reclaimPass numTokens spareImminentDemotes (s, freed, swept) duplicates
      else
        reclaimPass numTokens spareImminentDemotes
          (evictComponent d s i .full .host,
            freed + (d.evictComponent .full .host (s.nodes i)).hostFreed, swept ++ [i]) duplicates

/-- `_reclaim_full_host_duplicates`, with what is freed already. -/
def reclaimFullHostDuplicates (s : UnifiedTreeCore) (numTokens freed : Nat) : UnifiedTreeCore :=
  let duplicates := s.fullHostDuplicates
  let first := reclaimPass d numTokens true (s, freed, []) duplicates
  let (t, _, swept) := reclaimPass d numTokens false first duplicates
  { t with fullHostDuplicates := t.fullHostDuplicates.filter (· ∉ swept) }

end UnifiedTreeCore

end QwenStack.TreeCore

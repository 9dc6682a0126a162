import Mathlib.Data.Finset.Basic
import Mathlib.Logic.Function.Basic
import QwenStack.Support.Assoc
import QwenStack.Support.Utf8

/-!
# Tree core — Definitions

`sglang/patches/0007-v5-heat-evictor/unified_tree_core.py`: the radix tree of the KV cache.  A node has
data for several components; `FULL` is the one the tree is made of.  Data is on the device (`value`), on
the host, or on both, and a lock keeps it there.  `pin_prefix` (`unified_radix_cache.py`) locks the
longest chain for good: it raises the locks of its nodes to one, and every release of a lock raises them
again.

A node is an address and stays readable when it has left the tree; the arena has those of the tree.
Operations return `none` where the source raises.  The drivers of the components are not part of this
repository: what is assumed of them is in `lockRange`, `acquireAt`, `releaseAt` and
`ComponentData.redistribute`.  Nor is the class of the keys (`RadixKey`).  Left out are the LRU lists, which have the other components only, the hashes,
the times and priorities, the sessions and the events.
-/

namespace QwenStack.TreeCore
open Assoc

abbrev NodeId := Nat

/-- The tokens of a `RadixKey`. -/
abbrev Key := List Nat

/-- Keys are compared by `=`, as in `Assoc`. -/
instance : BEq Key := instBEqOfDecidableEq

/-- Slots of a memory pool. -/
abbrev Tensor := List Nat

inductive ComponentType where
  | full
  | swa
  | mamba
  | c128
  deriving DecidableEq, Repr

/-- The types that `component_data` is indexed by. -/
def ComponentType.all : List ComponentType := [.full, .swa, .mamba, .c128]

/-- `ComponentData`. -/
structure ComponentData where
  value : Option Tensor := none
  lockRef : Int := 0
  hostValue : Option Tensor := none
  hostLockRef : Int := 0
  deriving DecidableEq, Repr

/-- The number of slots on the device. -/
def ComponentData.size (cd : ComponentData) : Int := (cd.value.map List.length).getD 0

/-- `UnifiedTreeNode`. -/
structure UnifiedTreeNode where
  children : List (Key × NodeId) := []
  parent : Option NodeId := none
  key : Key := []
  componentData : ComponentType → ComponentData := fun _ => {}
  writeThroughPendingId : Option Nat := none
  loadBackPendingId : Option Nat := none
  pinned : Bool := false

namespace UnifiedTreeNode

def backuped (n : UnifiedTreeNode) : Bool := (n.componentData .full).hostValue.isSome

def evicted (n : UnifiedTreeNode) : Bool := n.parent.isSome && (n.componentData .full).value.isNone

/-- A component's data is replaced. -/
def setData (n : UnifiedTreeNode) (c : ComponentType) (cd : ComponentData) : UnifiedTreeNode :=
  { n with componentData := Function.update n.componentData c cd }

end UnifiedTreeNode

/-- The methods of `RadixKey` that the tree calls, with a page size, and what is assumed of them. -/
structure RadixKey where
  childKey : Nat → Key → Key
  keyMatch : Nat → Key → Key → Nat
  pageAligned : Nat → Key → Key
  /-- The first page. -/
  childKey_eq : ∀ p k, childKey p k = k.take p
  /-- What two keys begin with in common, in whole pages. -/
  keyMatch_eq : ∀ p k k', keyMatch p k k' = lcpLen k k' / p * p
  /-- The whole pages. -/
  pageAligned_eq : ∀ p k, pageAligned p k = k.take (k.length / p * p)

/-- Keys of tokens alone. -/
def RadixKey.plain : RadixKey where
  childKey p k := k.take p
  keyMatch p k k' := lcpLen k k' / p * p
  pageAligned p k := k.take (k.length / p * p)
  childKey_eq _ _ := rfl
  keyMatch_eq _ _ _ := rfl
  pageAligned_eq _ _ := rfl

/-- `UnifiedTreeCore`. -/
structure UnifiedTreeCore where
  radixKey : RadixKey
  components : List ComponentType
  pageSize : Nat
  isWriteBack : Bool := false
  nodes : NodeId → UnifiedTreeNode
  /-- The next `NodeId`. -/
  counter : Nat
  nodeArena : Finset NodeId
  rootNode : NodeId
  componentEvictableSize : ComponentType → Int
  componentProtectedSize : ComponentType → Int
  evictableDeviceLeaves : Finset NodeId
  evictableHostLeaves : Finset NodeId
  /-- The keys of the dictionary, in the order of insertion. -/
  fullHostDuplicates : List NodeId

namespace UnifiedTreeCore

/-- `child_key`. -/
def childKey (s : UnifiedTreeCore) (key : Key) : Key := s.radixKey.childKey s.pageSize key

theorem childKey_eq (s : UnifiedTreeCore) (key : Key) : s.childKey key = key.take s.pageSize :=
  s.radixKey.childKey_eq _ _

theorem childKey_eq_iff {s : UnifiedTreeCore} {k k' : Key} :
    s.childKey k = s.childKey k' ↔ k.take s.pageSize = k'.take s.pageSize := by
  rw [childKey_eq, childKey_eq]

theorem childKey_congr {s t : UnifiedTreeCore} (h : t.pageSize = s.pageSize) (key : Key) :
    t.childKey key = s.childKey key := by
  rw [childKey_eq, childKey_eq, h]

def data (s : UnifiedTreeCore) (i : NodeId) (c : ComponentType) : ComponentData :=
  (s.nodes i).componentData c

def setNode (s : UnifiedTreeCore) (i : NodeId) (n : UnifiedTreeNode) : UnifiedTreeCore :=
  { s with nodes := Function.update s.nodes i n }

def setData (s : UnifiedTreeCore) (i : NodeId) (c : ComponentType) (cd : ComponentData) :
    UnifiedTreeCore :=
  s.setNode i ((s.nodes i).setData c cd)

/-- Slots of a component pass from the evictable ones to the protected ones. -/
def protect (s : UnifiedTreeCore) (c : ComponentType) (n : Int) : UnifiedTreeCore :=
  { s with
    componentEvictableSize :=
      Function.update s.componentEvictableSize c (s.componentEvictableSize c - n)
    componentProtectedSize :=
      Function.update s.componentProtectedSize c (s.componentProtectedSize c + n) }

/-- Slots of a component are new to the device. -/
def addEvictable (s : UnifiedTreeCore) (c : ComponentType) (n : Int) : UnifiedTreeCore :=
  { s with
    componentEvictableSize :=
      Function.update s.componentEvictableSize c (s.componentEvictableSize c + n) }

/-! ### Leaves -/

/-- `_is_device_leaf`. -/
def isDeviceLeaf (s : UnifiedTreeCore) (i : NodeId) : Bool :=
  if i = s.rootNode ∨ (s.nodes i).evicted = true then false
  else if ComponentType.all.any (fun c => decide (0 < (s.data i c).lockRef)) = true then false
  else if (s.nodes i).children.any (fun child => (s.data child.2 .full).value.isSome) = true then false
  else true

/-- `_is_host_leaf`. -/
def isHostLeaf (s : UnifiedTreeCore) (i : NodeId) : Bool :=
  if i = s.rootNode ∨ (s.nodes i).evicted = false then false
  else if (s.nodes i).backuped = false then false
  else if ComponentType.all.any (fun c => decide (0 < (s.data i c).hostLockRef)) = true then false
  else if (s.nodes i).children.isEmpty = false then false
  else true

/-- `_update_evictable_leaf_sets`. -/
def updateEvictableLeafSets (s : UnifiedTreeCore) (i : NodeId) : UnifiedTreeCore :=
  { s with
    evictableDeviceLeaves := if s.isDeviceLeaf i = true then insert i s.evictableDeviceLeaves
      else s.evictableDeviceLeaves.erase i
    evictableHostLeaves := if s.isHostLeaf i = true then insert i s.evictableHostLeaves
      else s.evictableHostLeaves.erase i }

/-- `_is_settled_full_host_duplicate`. -/
def isSettledFullHostDuplicate (s : UnifiedTreeCore) (i : NodeId) : Bool :=
  let n := s.nodes i
  decide (i ≠ s.rootNode) && (s.data i .full).value.isSome && (s.data i .full).hostValue.isSome &&
    n.writeThroughPendingId.isNone && n.loadBackPendingId.isNone

/-- `_update_duplicate_tracking`. -/
def updateDuplicateTracking (s : UnifiedTreeCore) (i : NodeId) : UnifiedTreeCore :=
  { s with
    fullHostDuplicates :=
      if s.isSettledFullHostDuplicate i = true then
        if i ∈ s.fullHostDuplicates then s.fullHostDuplicates else s.fullHostDuplicates ++ [i]
      else s.fullHostDuplicates.filter (· ≠ i) }

/-! ### Paths -/

/-- The nodes from one up to the root, which is not among them: `while cur.parent is not None`. -/
def pathFrom (s : UnifiedTreeCore) : Nat → NodeId → List NodeId
  | 0, _ => []
  | fuel + 1, i => match (s.nodes i).parent with
    | none => []
    | some p => i :: s.pathFrom fuel p

/-- There are not more nodes on a path than in all (`path_complete`). -/
def path (s : UnifiedTreeCore) (i : NodeId) : List NodeId := s.pathFrom s.counter i

/-! ### Locks -/

/-- The nodes of a path whose locks a driver takes: all, or those of the lowest. -/
def lockRange : ComponentType → List NodeId → List NodeId
  | .full, path => path
  | _, path => path.take 1

/-- `acquire_component_lock`, at a node. -/
def acquireAt (c : ComponentType) (s : UnifiedTreeCore) (i : NodeId) : UnifiedTreeCore :=
  let cd := s.data i c
  let s := if cd.lockRef = 0 then s.protect c cd.size else s
  s.setData i c { cd with lockRef := cd.lockRef + 1 }

/-- `release_component_lock`, at a node. -/
def releaseAt (c : ComponentType) (s : UnifiedTreeCore) (i : NodeId) : UnifiedTreeCore :=
  let cd := s.data i c
  let s := if cd.lockRef = 1 then s.protect c (-cd.size) else s
  s.setData i c { cd with lockRef := cd.lockRef - 1 }

/-- With `lock_host`. -/
def acquireHostAt (c : ComponentType) (s : UnifiedTreeCore) (i : NodeId) : UnifiedTreeCore :=
  s.setData i c { s.data i c with hostLockRef := (s.data i c).hostLockRef + 1 }

def releaseHostAt (c : ComponentType) (s : UnifiedTreeCore) (i : NodeId) : UnifiedTreeCore :=
  s.setData i c { s.data i c with hostLockRef := (s.data i c).hostLockRef - 1 }

/-- The floor of a pinned node: a lock below one is raised. -/
def floorLock (i : NodeId) (s : UnifiedTreeCore) (c : ComponentType) : UnifiedTreeCore :=
  let cd := s.data i c
  if cd.lockRef < 1 then
    let s := s.setData i c { cd with lockRef := 1 }
    if cd.value.isSome = true then s.protect c cd.size else s
  else s

def floorHostLock (i : NodeId) (s : UnifiedTreeCore) (c : ComponentType) : UnifiedTreeCore :=
  if (s.data i c).hostLockRef < 1 then s.setData i c { s.data i c with hostLockRef := 1 } else s

/-- "restore pin floor on any pinned node along the path". -/
def restoreFloor (floor : NodeId → UnifiedTreeCore → ComponentType → UnifiedTreeCore)
    (s : UnifiedTreeCore) (i : NodeId) : UnifiedTreeCore :=
  if (s.nodes i).pinned = true then (s.components.foldl (floor i) s).updateEvictableLeafSets i else s

/-- Every driver does its part along a path, but those in `skip`. -/
def eachLock (lockAt : ComponentType → UnifiedTreeCore → NodeId → UnifiedTreeCore)
    (s : UnifiedTreeCore) (path : List NodeId) (skip : List ComponentType) : UnifiedTreeCore :=
  (s.components.filter (· ∉ skip)).foldl (fun s c => (lockRange c path).foldl (lockAt c) s) s

/-- `inc_lock_ref`. -/
def incLockRef (s : UnifiedTreeCore) (i : NodeId) (skip : List ComponentType) :
    Option UnifiedTreeCore :=
  if i ∈ s.nodeArena then some ((s.eachLock acquireAt (s.path i) skip).updateEvictableLeafSets i)
  else none

/-- `dec_lock_ref`; `skip` has what the matching `inc_lock_ref` skipped, and `SWA` with `skip_swa`. -/
def decLockRef (s : UnifiedTreeCore) (i : NodeId) (skip : List ComponentType) :
    Option UnifiedTreeCore :=
  if i ∈ s.nodeArena then
    some (((s.path i).foldl (restoreFloor floorLock)
      (s.eachLock releaseAt (s.path i) skip)).updateEvictableLeafSets i)
  else none

/-- `inc_host_lock_ref`. -/
def incHostLockRef (s : UnifiedTreeCore) (i : NodeId) : Option UnifiedTreeCore :=
  if i ∈ s.nodeArena then some ((s.eachLock acquireHostAt (s.path i) []).updateEvictableLeafSets i)
  else none

/-- `dec_host_lock_ref`. -/
def decHostLockRef (s : UnifiedTreeCore) (i : NodeId) (skip : List ComponentType) :
    Option UnifiedTreeCore :=
  if i ∈ s.nodeArena then
    some (((s.path i).foldl (restoreFloor floorHostLock)
      (s.eachLock releaseHostAt (s.path i) skip)).updateEvictableLeafSets i)
  else none

/-! ### Pins -/

/-- The search of `pin_prefix`: the stack of nodes with their depths, and the deepest so far. -/
def search (s : UnifiedTreeCore) : Nat → List (NodeId × Nat) → NodeId × Nat → NodeId × Nat
  | 0, _, deepest => deepest
  | _, [], deepest => deepest
  | fuel + 1, (i, depth) :: stack, deepest =>
      let deepest := if deepest.2 < depth then (i, depth) else deepest
      let children := (s.nodes i).children.map fun child =>
        (child.2, depth + (s.nodes child.2).key.length)
      s.search fuel (children.reverse ++ stack) deepest

/-- Each node is popped once. -/
def deepest (s : UnifiedTreeCore) : NodeId :=
  (s.search (s.counter + 1) [(s.rootNode, 0)] (s.rootNode, 0)).1

/-- One node is pinned. -/
def pinNode (s : UnifiedTreeCore) (i : NodeId) : UnifiedTreeCore :=
  let s := s.setNode i { s.nodes i with pinned := true }
  (s.components.foldl (fun s c => floorHostLock i (floorLock i s c) c) s).updateEvictableLeafSets i

/-- `pin_prefix`. -/
def pinPrefix (s : UnifiedTreeCore) : UnifiedTreeCore := (s.path s.deepest).foldl pinNode s

/-! ### Nodes -/

end UnifiedTreeCore

/-- `redistribute_on_node_split`: the part of the new parent, and the part of the child. -/
def ComponentData.redistribute (splitLen : Nat) (cd : ComponentData) : ComponentData × ComponentData :=
  ({ cd with value := cd.value.map (List.take splitLen)
             hostValue := cd.hostValue.map (List.take splitLen) },
    { cd with value := cd.value.map (List.drop splitLen)
              hostValue := cd.hostValue.map (List.drop splitLen) })

namespace UnifiedTreeCore

/-- The fragment above. -/
def upperFragment (s : UnifiedTreeCore) (child : NodeId) (splitLen : Nat) : UnifiedTreeNode :=
  let n := s.nodes child
  { children := [(s.childKey (n.key.drop splitLen), child)]
    parent := n.parent
    key := n.key.take splitLen
    componentData := fun c => if c ∈ s.components then ((n.componentData c).redistribute splitLen).1
      else {}
    writeThroughPendingId := n.writeThroughPendingId
    loadBackPendingId := n.loadBackPendingId
    pinned := n.pinned }

/-- The child, below. -/
def lowerFragment (s : UnifiedTreeCore) (child : NodeId) (splitLen : Nat) : UnifiedTreeNode :=
  let n := s.nodes child
  { n with
    parent := some s.counter
    key := n.key.drop splitLen
    componentData := fun c => if c ∈ s.components then ((n.componentData c).redistribute splitLen).2
      else n.componentData c }

/-- A node gets a child. -/
def link (s : UnifiedTreeCore) (p : NodeId) (key : Key) (i : NodeId) : UnifiedTreeCore :=
  s.setNode p { s.nodes p with children := put (s.childKey key) i (s.nodes p).children }

/-- `_new_node`, with the fields that the caller sets. -/
def newNode (s : UnifiedTreeCore) (n : UnifiedTreeNode) : UnifiedTreeCore :=
  { s.setNode s.counter n with counter := s.counter + 1, nodeArena := insert s.counter s.nodeArena }

/-- The two fragments of a child take its place below `p`. -/
def divide (s : UnifiedTreeCore) (p child : NodeId) (splitLen : Nat) : UnifiedTreeCore :=
  ((s.newNode (s.upperFragment child splitLen)).setNode child (s.lowerFragment child splitLen)).link p
    (s.nodes child).key s.counter

/-- `_split_node`, of a child that was found in its parent by a key that it shares `splitLen` tokens
with. -/
def splitNode (s : UnifiedTreeCore) (child : NodeId) (splitLen : Nat) : Option UnifiedTreeCore :=
  match (s.nodes child).parent with
  | none => none
  | some p =>
      let key := (s.nodes child).key
      if p ∈ s.nodeArena ∧ (s.nodes p).children.lookup (s.childKey key) = some child ∧
          s.pageSize ≤ splitLen ∧ splitLen < key.length then
        let t := s.divide p child splitLen
        some (((t.updateEvictableLeafSets s.counter).updateEvictableLeafSets
          child).updateDuplicateTracking s.counter)
      else none

/-- `_add_new_node`, below a node that has no child of the key. -/
def addNewNode (s : UnifiedTreeCore) (p : NodeId) (key : Key) (value : Tensor) :
    Option UnifiedTreeCore :=
  if p ∈ s.nodeArena ∧ (s.nodes p).children.lookup (s.childKey key) = none then
    let new := s.counter
    let t := s.newNode
      { parent := some p, key := key,
        componentData := Function.update (fun _ => {}) .full { value := some value } }
    let t := (t.link p key new).addEvictable .full value.length
    some ((t.updateEvictableLeafSets new).updateEvictableLeafSets p)
  else none

/-- `_unevict_node_on_insert`. -/
def unevictNodeOnInsert (s : UnifiedTreeCore) (i : NodeId) (freshValue : Tensor) :
    Option UnifiedTreeCore :=
  if i ∈ s.nodeArena ∧ (s.nodes i).evicted = true then
    let t := s.setData i .full { s.data i .full with value := some freshValue }
    let t := t.addEvictable .full freshValue.length
    let t := (t.updateEvictableLeafSets i).updateDuplicateTracking i
    some (match (s.nodes i).parent with
      | some p => t.updateEvictableLeafSets p
      | none => t)
  else none

end UnifiedTreeCore

end QwenStack.TreeCore

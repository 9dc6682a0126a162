import QwenStack.TreeCore.Matching

/-!
# Tree core — `insert`

An insertion is a machine that can stop: it walks down the tree, makes a leaf of what is left of the key,
and stops (`suspended`) behind a step that wants a copy on the host, so that the cache can make it.  What
the cache does to the tree then is a parameter, which keeps what is on the device (`Quiet`).

This is the insertion of `FULL` alone: its `update_component_on_insert_overlap` is taken to claim no slots,
so that `consumed_from` is `prefix_len`, and its `commit_insert_component_data` to attach nothing; the loop
over `recover_after_unevict` skips it.  Other components have hooks that do, and are left out with
the times, the priorities and the hit counts; `hot` is `hit_count >= write_through_threshold`.
-/

namespace QwenStack.TreeCore
open Assoc UnifiedTreeCore Prefixes

/-- `InsertParams`. -/
structure InsertParams where
  key : Key
  value : Option Tensor
  prevPrefixLen : Nat
  chunked : Bool := false
  trackAdoptedRanges : Bool := false

/-- `InsertResult`. -/
structure InsertResult where
  prefixLen : Nat
  lastDeviceNode : NodeId
  /-- Of `FULL`. -/
  adoptedRanges : Option (List (Nat × Nat)) := none
  deriving DecidableEq, Repr

/-- `record_adopted_range`. -/
def InsertResult.recordAdoptedRange (r : InsertResult) (first last : Nat) : InsertResult :=
  { r with adoptedRanges := r.adoptedRanges.map (· ++ [(first, last)]) }

/-- `_InsertPhase`. -/
inductive InsertPhase where
  | walk
  | commit
  | tail
  deriving DecidableEq, Repr

/-- `_InsertWalkState`. -/
structure InsertWalkState where
  phase : InsertPhase := .walk
  node : NodeId
  key : Key
  value : Tensor
  params : InsertParams
  result : InsertResult
  totalPrefixLength : Nat := 0
  targetNode : NodeId := 0
  isNewLeaf : Bool := false
  pendingActions : List CacheAction := []

/-- `_is_deferrable_action`. -/
def CacheAction.isDeferrable : CacheAction → Bool
  | .freeDeviceKV _ => true
  | .replaceWriteThroughOnNodeSplit .. => true
  | .backupKV _ => false

/-- The slots that actions free. -/
def freedSlots (actions : List CacheAction) : Tensor :=
  actions.flatMap fun action => match action with
    | .freeDeviceKV values => values.flatten
    | _ => []

/-- `InsertStepResult`; with a result, the insertion has ended. -/
structure InsertStepResult where
  actions : List CacheAction
  result : Option InsertResult := none

/-- What an insertion asks of the rest of the cache. -/
structure InsertHooks where
  enableHicache : Bool := false
  /-- A node was hit often enough. -/
  hot : UnifiedTreeCore → NodeId → Bool := fun _ _ => false
  /-- `_needs_incremental_component_backup`. -/
  needsIncrementalBackup : UnifiedTreeNode → Bool := fun _ => false

namespace UnifiedTreeCore

/-- `_inc_hit_count_and_check`, without a cache linker. -/
def incHitCountAndCheck (hooks : InsertHooks) (s : UnifiedTreeCore) (i : NodeId) (chunked : Bool) : Bool :=
  if (s.nodes i).evicted = true ∨ chunked = true then false
  else if s.isWriteBack = true then false
  else hooks.enableHicache && !(s.nodes i).backuped && hooks.hot s i

/-- `_build_backup_kv_action`, ancestors first. -/
def buildBackupKvAction (s : UnifiedTreeCore) (i : NodeId) : CacheAction :=
  .backupKV (i :: ((s.path i).drop 1).takeWhile fun j => !(s.nodes j).backuped).reverse

/-- `_should_backup_after_insert`. -/
def shouldBackupAfterInsert (hooks : InsertHooks) (s : UnifiedTreeCore) (st : InsertWalkState) : Bool :=
  if st.isNewLeaf = true then incHitCountAndCheck hooks s st.targetNode st.params.chunked
  else
    let n := s.nodes st.targetNode
    hooks.enableHicache && !s.isWriteBack && n.backuped && n.writeThroughPendingId.isNone &&
      hooks.needsIncrementalBackup n

/-- The node that a walk goes on to: the child, or the upper part of it. -/
def walkTo (s : UnifiedTreeCore) (child : NodeId) (prefixLen : Nat) :
    Option (UnifiedTreeCore × NodeId × List CacheAction) :=
  if prefixLen < (s.nodes child).key.length then
    (s.splitNode child prefixLen).map fun t => (t, s.counter, (s.splitAction child).toList)
  else some (s, child, [])

/-- The child under the next page, if there is a page. -/
def nextChild (s : UnifiedTreeCore) (st : InsertWalkState) : Option NodeId :=
  if st.key = [] then none else (s.nodes st.node).children.lookup (s.childKey st.key)

/-- `_insert_walk_step`. -/
def insertWalkStep (hooks : InsertHooks) (s : UnifiedTreeCore) (st : InsertWalkState) :
    Option (UnifiedTreeCore × InsertWalkState) :=
  match s.nextChild st with
  | none => some (s, { st with phase := .commit })
  | some child => do
      let prefixLen := s.keyMatch (s.nodes child).key st.key
      let (t, node, splitActions) ← s.walkTo child prefixLen
      let (t, result, freeActions) ←
        if (t.nodes node).evicted = true then do
          let t ← t.unevictNodeOnInsert node (st.value.take prefixLen)
          some (t, st.result.recordAdoptedRange st.totalPrefixLength (st.totalPrefixLength + prefixLen), [])
        else
          let dupStart := st.params.prevPrefixLen - st.totalPrefixLength
          some (t, st.result, if dupStart < prefixLen then
            [.freeDeviceKV [(st.value.take prefixLen).drop dupStart]] else [])
      let backupActions :=
        if incHitCountAndCheck hooks t node st.params.chunked = true then [t.buildBackupKvAction node] else []
      some (t, { st with
        node := node
        totalPrefixLength := st.totalPrefixLength + prefixLen
        key := st.key.drop prefixLen
        value := st.value.drop prefixLen
        result := result
        pendingActions := st.pendingActions ++ (splitActions ++ freeActions ++ backupActions) })

/-- `_insert_commit_step`. -/
def insertCommitStep (s : UnifiedTreeCore) (st : InsertWalkState) :
    Option (UnifiedTreeCore × InsertWalkState) := do
  let finish (st : InsertWalkState) : InsertWalkState :=
    { st with
      phase := .tail
      result := { st.result with
        prefixLen := st.totalPrefixLength, lastDeviceNode := st.targetNode } }
  if st.key = [] then some (s, finish { st with targetNode := st.node })
  else
    let t ← s.addNewNode st.node st.key st.value
    some (t, finish { st with
      targetNode := s.counter
      isNewLeaf := true
      result := st.result.recordAdoptedRange st.totalPrefixLength
        (st.totalPrefixLength + st.key.length) })

/-- `_insert_tail_step`. -/
def insertTailStep (hooks : InsertHooks) (s : UnifiedTreeCore) (st : InsertWalkState) : InsertWalkState :=
  if shouldBackupAfterInsert hooks s st = true then
    { st with pendingActions := st.pendingActions ++ [s.buildBackupKvAction st.targetNode] }
  else st

/-- `_advance_insert`: to the next barrier, or to the end. -/
def advanceInsert (hooks : InsertHooks) : Nat → UnifiedTreeCore → InsertWalkState →
    Option (UnifiedTreeCore × Option InsertWalkState × InsertStepResult)
  | 0, _, _ => none
  | fuel + 1, s, st =>
      if st.phase = .tail then
        let st := insertTailStep hooks s st
        some (s, none, { actions := st.pendingActions, result := some st.result })
      else do
        let (t, st') ← if st.phase = .walk then insertWalkStep hooks s st else insertCommitStep s st
        let newActions := st'.pendingActions.drop st.pendingActions.length
        if newActions.all CacheAction.isDeferrable = true then advanceInsert hooks fuel t st'
        else some (t, some { st' with pendingActions := [] }, { actions := st'.pendingActions })

/-- `begin_insert`: the state that the walk starts with, if there is a page of the key. -/
def beginInsert (s : UnifiedTreeCore) (params : InsertParams) : InsertWalkState :=
  let key := s.pageAligned params.key
  { node := s.rootNode
    key := key
    value := (params.value.getD params.key).take key.length
    params := params
    result :=
      { prefixLen := 0
        lastDeviceNode := s.rootNode
        adoptedRanges := if params.trackAdoptedRanges = true then some [] else none } }

/-- The loop of `UnifiedRadixCache.insert`: the actions of a step are applied, and the insertion goes on. -/
def insertLoop (hooks : InsertHooks) (apply : UnifiedTreeCore → List CacheAction → UnifiedTreeCore) :
    Nat → UnifiedTreeCore → InsertWalkState → Option (UnifiedTreeCore × InsertResult × List CacheAction)
  | 0, _, _ => none
  | fuel + 1, s, st => do
      let (t, st', step) ← advanceInsert hooks (st.key.length + 3) s st
      let t := apply t step.actions
      match st', step.result with
      | none, some result => some (t, result, step.actions)
      | some st', _ => do
          let (t, result, actions) ← insertLoop hooks apply fuel t st'
          some (t, result, step.actions ++ actions)
      | none, none => none

/-- `UnifiedRadixCache.insert`: the tree, the result, and the actions that were applied. -/
def insert (hooks : InsertHooks) (apply : UnifiedTreeCore → List CacheAction → UnifiedTreeCore)
    (s : UnifiedTreeCore) (params : InsertParams) :
    Option (UnifiedTreeCore × InsertResult × List CacheAction) :=
  let st := s.beginInsert params
  if st.key = [] then some (s, { prefixLen := 0, lastDeviceNode := s.rootNode }, [])
  else insertLoop hooks apply (st.key.length + 3) s st

end UnifiedTreeCore

end QwenStack.TreeCore

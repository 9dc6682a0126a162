import Mathlib.Data.Multiset.AddSub
import QwenStack.TreeCore.Insertion

/-!
# Tree core — requests

`sglang/patches/0007-v5-heat-evictor/unified_radix_cache.py`: what the cache does for a request.  A request
has a row of slots, one for each token that was computed; the first of them are slots of the tree, which a
lock on `last_node` keeps there, and the others its own.  When a chunk of it is done
(`cache_unfinished_req`) or all of it (`cache_finished_req`), its own slots go into the tree, and those of
tokens that the tree had already are freed.

When slots are short, leaves go until there are enough of them (`evict_for_alloc`); the loop is the one of
`FULL`, without the turns of other components.

The assertions are in it: a function returns `none` where one fails, or where the tree raises.  Left out are
the disabled cache, the sessions, the linker, bigram keys and salts, and the slots that `SWA` gives up behind
its window.
-/

namespace QwenStack.TreeCore
open Assoc UnifiedTreeCore

/-- `Req`, with its `kv`. -/
structure Req where
  /-- `origin_input_ids + output_ids`. -/
  tokenIds : Key
  /-- Its row of `req_to_token`, as far as there are slots in it. -/
  row : Tensor
  cacheProtectedLen : Nat
  lastNode : NodeId
  prefixIndices : Tensor := []
  /-- The components that the lock on `last_node` left out. -/
  skipLock : List ComponentType := []
  swaPrefixLockReleased : Bool := false
  deriving DecidableEq

namespace Req

/-- `get_fill_ids`: the tokens that were computed. -/
def fillIds (req : Req) : Key := req.tokenIds.take req.row.length

/-- The slots that are its own. -/
def ownSlots (req : Req) : Tensor := req.row.drop req.cacheProtectedLen

/-- `req_to_token_pool.write`, from a position on. -/
def write (req : Req) (first : Nat) (indices : Tensor) : Req :=
  { req with row := req.row.take first ++ indices ++ req.row.drop (first + indices.length) }

/-- The slots in ranges of the row, as `free_kv_row` frees them. -/
def rowSlots (req : Req) (ranges : List (Nat × Nat)) : Tensor :=
  ranges.flatMap fun r => (req.row.take r.2).drop r.1

end Req

/-- `UnifiedRadixCache`, as it is set up. -/
structure UnifiedRadixCache where
  radixKey : RadixKey
  enableHicache : Bool := false
  hooks : InsertHooks := {}
  /-- `_apply_cache_actions`, on the tree. -/
  applyCacheActions : UnifiedTreeCore → List CacheAction → UnifiedTreeCore := fun s _ => s
  validators : Validators
  deviceValidators : Validators
  /-- `SGLANG_OPT_MAMBA_SKIP_DECODE_LOCK`. -/
  mambaSkipDecodeLock : Bool := false

/-- `effective_cache_len`: the least of what `prepare_for_caching_req` returns for the components. -/
def effectiveCacheLen (tokenIdsLen : Nat) (cacheLens : List (Option Nat)) : Nat :=
  cacheLens.foldl (fun len cacheLen => match cacheLen with
    | some cacheLen => min len cacheLen
    | none => len) tokenIdsLen

namespace UnifiedRadixCache

variable (cache : UnifiedRadixCache)

/-- `insert`, with the slots that are freed. -/
def insert (s : UnifiedTreeCore) (params : InsertParams) :
    Option (UnifiedTreeCore × InsertResult × Tensor) := do
  let (t, result, actions) ← s.insert cache.hooks cache.applyCacheActions params
  some (t, result, freedSlots actions)

/-- `match_prefix`. -/
def matchPrefix (s : UnifiedTreeCore) (key : Key) : Option (UnifiedTreeCore × MatchResult) := do
  let (t, result) ← s.matchPrefix cache.enableHicache cache.validators cache.deviceValidators key
  some (cache.applyCacheActions t result.cacheActions, result)

/-- `_dec_req_lock`. -/
def decReqLock (s : UnifiedTreeCore) (req : Req) (skipSwa : Bool) : Option UnifiedTreeCore :=
  s.decLockRef req.lastNode (if skipSwa = true then .swa :: req.skipLock else req.skipLock)

/-- `skip_lock_components`. -/
def skipLockComponents : List ComponentType := if cache.mambaSkipDecodeLock = true then [.mamba] else []

/-- `cache_unfinished_req`, with the slots that are freed. -/
def cacheUnfinishedReq (s : UnifiedTreeCore) (req : Req) (cacheLens : List (Option Nat))
    (chunked : Bool) : Option (UnifiedTreeCore × Req × Tensor) :=
  let kvIndicesOrig := req.row.take req.fillIds.length
  let effective := effectiveCacheLen req.fillIds.length cacheLens
  if effective = 0 then some (s, { req with prefixIndices := kvIndicesOrig }, [])
  else do
    let kvIndices := kvIndicesOrig.take effective
    let key := s.pageAligned (req.fillIds.take effective)
    let (t, result, freed) ← cache.insert s
      { key := key, value := some (kvIndices.take key.length)
        prevPrefixLen := req.cacheProtectedLen, chunked := chunked }
    let (t, found) ← cache.matchPrefix t key
    let newIndices := found.deviceIndices
    if req.cacheProtectedLen ≤ newIndices.length + s.pageSize - 1 ∧ result.prefixLen ≤ newIndices.length then do
      let t ← decReqLock t req false
      let t ← t.incLockRef found.lastDeviceNode cache.skipLockComponents
      some (t,
        { req.write req.cacheProtectedLen (newIndices.drop req.cacheProtectedLen) with
          prefixIndices := if newIndices.length < kvIndicesOrig.length then
            newIndices ++ kvIndicesOrig.drop newIndices.length else newIndices
          cacheProtectedLen := newIndices.length
          lastNode := found.lastDeviceNode
          skipLock := cache.skipLockComponents
          swaPrefixLockReleased := false }, freed)
    else none

/-- `cache_finished_req`, with the slots that are freed. -/
def cacheFinishedReq (s : UnifiedTreeCore) (req : Req) (isInsert : Bool) (kvLenToHandle : Nat)
    (cacheLens : List (Option Nat)) : Option (UnifiedTreeCore × Req × Tensor) :=
  if isInsert = true then do
    let tokenIds := req.tokenIds.take kvLenToHandle
    let kvIndicesFull := req.row.take kvLenToHandle
    let effective := effectiveCacheLen tokenIds.length cacheLens
    -- what is cut off is freed together with the tail
    let tail := if effective < tokenIds.length then
      [(max effective req.cacheProtectedLen, kvIndicesFull.length)] else []
    let kvIndices := if effective < tokenIds.length then kvIndicesFull.take effective else kvIndicesFull
    let key := s.pageAligned (tokenIds.take effective)
    let (t, result, freed) ← cache.insert s
      { key := key, value := some (kvIndices.take key.length), prevPrefixLen := req.cacheProtectedLen }
    let t ← decReqLock t req req.swaPrefixLockReleased
    some (t, { req with lastNode := result.lastDeviceNode },
      freed ++ req.rowSlots ((key.length, kvIndices.length) :: tail))
  else do
    let t ← decReqLock s req req.swaPrefixLockReleased
    some (t, req, req.rowSlots [(req.cacheProtectedLen, kvLenToHandle)])

/-- The loop of `_evict_components` for `FULL`, of a cache that writes through.  `next` is
`evict_device_next_node`, with the number of the slots that were evicted; `target` is what is to be
available. -/
def evictComponents (d : Drivers) (next : UnifiedTreeCore → Nat → Option NodeId) (target : Nat) :
    Nat → UnifiedTreeCore → Multiset Nat → Nat → Option (UnifiedTreeCore × Multiset Nat)
  | 0, _, _, _ => none
  | fuel + 1, s, free, tracker =>
      if target ≤ free.card then some (s, free)
      else
        match next s tracker with
        | none => some (s, free)
        | some i => do
            let slots : Tensor := (s.deviceValue i).getD []
            let t ← s.evictDeviceLeaf d i false
            evictComponents d next target fuel t (free + slots) (tracker + slots.length)

/-- `evict_for_alloc`; an evicted leaf is not evicted again. -/
def evictForAlloc (d : Drivers) (next : UnifiedTreeCore → Nat → Option NodeId) (s : UnifiedTreeCore)
    (free : Multiset Nat) (numTokens : Nat) : Option (UnifiedTreeCore × Multiset Nat) :=
  if numTokens = 0 then some (s, free)
  else evictComponents d next (free.card + numTokens) (s.nodeArena.card + 1) s free 0

end UnifiedRadixCache

end QwenStack.TreeCore

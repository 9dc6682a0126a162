import Mathlib.Order.Lattice
import Mathlib.Order.Nat
import QwenStack.Support.Assoc
import QwenStack.Support.Runs
import QwenStack.Support.Utf8

/-!
# Manual — Definitions

`gateway/src/policies/manual.rs`: sticky routing of sessions, with the key ladder of
`routers/header_utils.rs` that turns a request into a routing key.

The random index of `rand`, the clock and the `xxh3_64` hash are arguments.  A worker is read once
per call, so a call sees one value of its health and its loads; indices into the worker list are
`Fin`, so an index that panics cannot be built.  A call ends with the routing map it leaves.
-/

namespace QwenStack.Manual
open Assoc

/-! ### `routers/header_utils.rs` -/

/-- `HeaderValue`: its bytes. -/
abbrev HeaderValue := List UInt8

/-- `HeaderMap`: names with their values, in order; a name may repeat. -/
abbrev HeaderMap := List (Str × HeaderValue)

/-- `HeaderValue::to_str`: visible ASCII, or nothing. -/
def toStr (v : HeaderValue) : Option Str :=
  if v.all fun b => decide (32 ≤ b ∧ b < 127) || decide (b = 9) then
    some (v.map fun b => Char.ofNat b.toNat)
  else none

/-- `extract_header_value`. -/
def extractHeaderValue (headers : Option HeaderMap) (name : Str) : Option Str := do
  let h ← headers
  let v ← h.lookup name
  let s ← toStr v
  if s = [] then none else some s

/-- `HEADER_ROUTING_KEY`. -/
def headerRoutingKey : Str := "x-smg-routing-key".toList

/-- `HEADER_CC_SESSION_ID`. -/
def headerCcSessionId : Str := "x-claude-code-session-id".toList

/-- `extract_routing_key`: the explicit header, else the session header. -/
def extractRoutingKey (headers : Option HeaderMap) : Option Str :=
  (extractHeaderValue headers headerRoutingKey).or (extractHeaderValue headers headerCcSessionId)

/-- `char::is_whitespace`: the Unicode `White_Space` property. -/
def isWhitespace (c : Char) : Bool :=
  let n := c.toNat
  (9 ≤ n && n ≤ 13) || n == 0x20 || n == 0x85 || n == 0xA0 || n == 0x1680 ||
    (0x2000 ≤ n && n ≤ 0x200A) || n == 0x2028 || n == 0x2029 || n == 0x202F || n == 0x205F ||
    n == 0x3000

/-- `str::trim`. -/
def trim (s : Str) : Str :=
  ((s.dropWhile isWhitespace).reverse.dropWhile isWhitespace).reverse

/-- `CONTENT_KEY_WINDOW`. -/
def contentKeyWindow : Nat := 8192

/-- `synthesize_content_key`. -/
def synthesizeContentKey (xxh3 : List UInt8 → UInt64) (requestText : Option Str) : Option Str := do
  let text ← requestText
  let text := trim text
  if text = [] then none
  else
    let window := text.take contentKeyWindow
    some ("c:".toList ++ Nat.toDigits 16 (xxh3 (Str.bytes window)).toNat)

/-- `resolve_routing_key`. -/
def resolveRoutingKey (xxh3 : List UInt8 → UInt64) (headers : Option HeaderMap)
    (requestText : Option Str) : Option Str :=
  (extractRoutingKey headers).or (synthesizeContentKey xxh3 requestText)

/-! ### Workers -/

abbrev Url := Str

/-- What the policy reads of a `Worker`. -/
structure Worker where
  url : Url
  isHealthy : Bool
  /-- `circuit_breaker().can_execute()`. -/
  canExecute : Bool
  load : Nat
  /-- `worker_routing_key_load().value()`. -/
  routingKeyLoad : Nat
  deriving DecidableEq, Repr

/-- The worker can be given requests. -/
def Worker.available (w : Worker) : Bool := w.isHealthy && w.canExecute

/-- `get_healthy_worker_indices`. -/
def getHealthyWorkerIndices (workers : List Worker) : List (Fin workers.length) :=
  (List.finRange workers.length).filter fun i => (workers.get i).available

/-- `find_worker_index_by_url`. -/
def findWorkerIndexByUrl (workers : List Worker) (url : Url) : Option (Fin workers.length) :=
  (List.finRange workers.length).find? fun i => decide ((workers.get i).url = url)

/-- `find_healthy_worker`. -/
def findHealthyWorker (urls : List Url) (workers : List Worker)
    (healthyIndices : List (Fin workers.length)) : Option (Fin workers.length) :=
  urls.findSome? fun url =>
    (findWorkerIndexByUrl workers url).filter fun idx => decide (idx ∈ healthyIndices)

/-! ### Choosing a new worker -/

/-- `rng.random_range(0..n)`. -/
structure Rng where
  index : Nat → Nat
  index_lt : ∀ n, 0 < n → index n < n

/-- `random_select`. -/
def randomSelect {K : Type} (rng : Rng) (healthyIndices : List K) : Option K :=
  healthyIndices[rng.index healthyIndices.length]?

/-- The loop of `select_min_by`: the least value so far and the candidates that have it. -/
def minCandidates {K V : Type} [LinearOrder V] (getValue : K → V) (indices : List K) :
    Option V × List K :=
  indices.foldl (fun (minVal, candidates) idx =>
    match minVal with
    | none => (some (getValue idx), [idx])
    | some m =>
        if getValue idx < m then (some (getValue idx), [idx])
        else if getValue idx = m then (some m, candidates ++ [idx])
        else (some m, candidates)) (none, [])

/-- `select_min_by`. -/
def selectMinBy {K V : Type} [LinearOrder V] (rng : Rng) (indices : List K) (getValue : K → V) :
    Option K :=
  let candidates := (minCandidates getValue indices).2
  if candidates.length = 1 then candidates.head? else candidates[rng.index candidates.length]?

/-- `min_load_select`. -/
def minLoadSelect (rng : Rng) (workers : List Worker)
    (healthyIndices : List (Fin workers.length)) : Option (Fin workers.length) :=
  selectMinBy rng healthyIndices fun idx => (workers.get idx).load

/-- `min_group_select`. -/
def minGroupSelect (rng : Rng) (workers : List Worker)
    (healthyIndices : List (Fin workers.length)) : Option (Fin workers.length) :=
  selectMinBy rng healthyIndices fun idx => (workers.get idx).routingKeyLoad

/-- `ManualAssignmentMode`. -/
inductive ManualAssignmentMode where
  | random
  | minLoad
  | minGroup
  deriving DecidableEq, Repr

/-- `select_new_worker`. -/
def selectNewWorker (mode : ManualAssignmentMode) (rng : Rng) (workers : List Worker)
    (healthyIndices : List (Fin workers.length)) : Option (Fin workers.length) :=
  match mode with
  | .random => randomSelect rng healthyIndices
  | .minLoad => minLoadSelect rng workers healthyIndices
  | .minGroup => minGroupSelect rng workers healthyIndices

/-! ### The routing map -/

/-- `MAX_CANDIDATE_WORKERS`. -/
def maxCandidateWorkers : Nat := 2

/-- `Node`. -/
structure Node where
  candiWorkerUrls : List Url
  lastAccess : Nat
  deriving DecidableEq, Repr

/-- `Node::push_bounded`: the oldest candidates go until there is room. -/
def pushBounded (url : Url) : List Url → List Url
  | [] => [url]
  | u :: urls =>
      if maxCandidateWorkers ≤ (u :: urls).length then pushBounded url urls
      else (u :: urls) ++ [url]

/-- `routing_map`. -/
abbrev RoutingMap := List (Str × Node)

/-- `ExecutionBranch`. -/
inductive ExecutionBranch where
  | noHealthyWorkers
  | occupiedHit
  | occupiedMiss
  | vacant
  | noRoutingId
  deriving DecidableEq, Repr

/-- What a call returns: the index, the branch taken, and the map it leaves. -/
structure Selection (n : Nat) where
  index : Option (Fin n)
  branch : ExecutionBranch
  routingMap : RoutingMap
  deriving DecidableEq, Repr

/-- `SelectWorkerInfo`, as far as the policy reads it, and what a call draws from outside. -/
structure SelectWorkerInfo where
  requestText : Option Str
  headers : Option HeaderMap
  rng : Rng
  now : Nat

/-- `select_by_routing_id`. -/
def selectByRoutingId (mode : ManualAssignmentMode) (m : RoutingMap) (workers : List Worker)
    (routingId : Str) (healthyIndices : List (Fin workers.length)) (info : SelectWorkerInfo) :
    Option (Selection workers.length) :=
  match m.lookup routingId with
  | some node =>
      match findHealthyWorker node.candiWorkerUrls workers healthyIndices with
      | some idx => some ⟨some idx, .occupiedHit,
          put routingId ⟨node.candiWorkerUrls, info.now⟩ m⟩
      | none => do
          let selectedIdx ← selectNewWorker mode info.rng workers healthyIndices
          let urls := pushBounded (workers.get selectedIdx).url node.candiWorkerUrls
          some ⟨some selectedIdx, .occupiedMiss, put routingId ⟨urls, info.now⟩ m⟩
  | none => do
      let selectedIdx ← selectNewWorker mode info.rng workers healthyIndices
      some ⟨some selectedIdx, .vacant,
        put routingId ⟨[(workers.get selectedIdx).url], info.now⟩ m⟩

/-- `select_worker_impl`; `none` where the source panics. -/
def selectWorkerImpl (xxh3 : List UInt8 → UInt64) (mode : ManualAssignmentMode) (m : RoutingMap)
    (workers : List Worker) (info : SelectWorkerInfo) : Option (Selection workers.length) :=
  let healthyIndices := getHealthyWorkerIndices workers
  if healthyIndices.isEmpty then some ⟨none, .noHealthyWorkers, m⟩
  else
    match resolveRoutingKey xxh3 info.headers info.requestText with
    | some routingId => selectByRoutingId mode m workers routingId healthyIndices info
    | none => do
        let idx ← minLoadSelect info.rng workers healthyIndices
        some ⟨some idx, .noRoutingId, m⟩

/-! ### Runs -/

/-- A worker list of pairwise distinct URLs. -/
structure Fleet where
  workers : List Worker
  distinct : (workers.map Worker.url).Nodup

/-- One request: the workers as they are when it comes, and what it carries. -/
structure Request where
  fleet : Fleet
  info : SelectWorkerInfo

/-- The routing map after a request. -/
def serve (xxh3 : List UInt8 → UInt64) (mode : ManualAssignmentMode) (m : RoutingMap)
    (req : Request) : Option RoutingMap :=
  (selectWorkerImpl xxh3 mode m req.fleet.workers req.info).map Selection.routingMap

/-- The routing map after a sequence of requests. -/
def serveAll (xxh3 : List UInt8 → UInt64) (mode : ManualAssignmentMode) (m : RoutingMap)
    (reqs : List Request) : Option RoutingMap :=
  Runs.exec (serve xxh3 mode) m reqs

end QwenStack.Manual

import Mathlib.Data.List.Sort
import QwenStack.Support.Assoc
import QwenStack.Support.Utf8

/-!
# Registry — Definitions

`gateway/src/core/worker_registry.rs`: the workers with their five indices, and the consistent-hash
ring of each model.

`blake3` is an argument, and so is the id that `WorkerId::new` draws.  A worker is an object behind
an `Arc`: `handle` tells objects apart, the other fields are what never changes in one.  Its health
changes, and is read where it is used.  Iteration over a map is in the order of its list, which
stands for any order.  The sync to the mesh and the metrics are left out.
-/

namespace QwenStack.Registry
open Assoc

abbrev Url := Str
abbrev ModelId := Str
abbrev WorkerId := Str

/-! ### Workers -/

/-- `WorkerType`. -/
inductive WorkerType where
  | regular
  | prefill (bootstrapPort : Option UInt16)
  | decode
  deriving DecidableEq, Repr

/-- `ConnectionMode`. -/
inductive ConnectionMode where
  | http
  | grpc (port : Option UInt16)
  deriving DecidableEq, Repr

/-- `ConnectionMode::matches`. -/
def ConnectionMode.matches : ConnectionMode → ConnectionMode → Bool
  | .http, .http => true
  | .grpc _, .grpc none => true
  | .grpc p₁, .grpc p₂ => decide (p₁ = p₂)
  | _, _ => false

/-- `RuntimeType`. -/
inductive RuntimeType where
  | sglang
  | vllm
  | external
  deriving DecidableEq, Repr

/-- What the registry reads of a `Worker`. -/
structure Worker where
  handle : Nat
  url : Url
  modelId : ModelId
  workerType : WorkerType
  connectionMode : ConnectionMode
  runtimeType : RuntimeType
  deriving DecidableEq, Repr

/-! ### The hash ring -/

/-- `VIRTUAL_NODES_PER_WORKER`. -/
def virtualNodesPerWorker : Nat := 150

/-- `blake3::hash`. -/
abbrev Blake3 := List UInt8 → Vector UInt8 32

/-- `u64::to_le_bytes`. -/
def toLeBytes (n : Nat) : List UInt8 := (List.range 8).map fun i => UInt8.ofNat (n / 256 ^ i)

/-- `u64::from_le_bytes`. -/
def fromLeBytes (bytes : List UInt8) : Nat := bytes.foldr (fun b n => b.toNat + 256 * n) 0

/-- The first eight bytes of a hash, as a number. -/
def leadingWord (hash : Vector UInt8 32) : Nat := fromLeBytes (hash.toList.take 8)

/-- The position of a virtual node. -/
def ringPosition (blake3 : Blake3) (url : Url) (vnode : Nat) : Nat :=
  leadingWord (blake3 (Str.bytes url ++ Str.bytes ['#'] ++ toLeBytes vnode))

/-- `hash_position`. -/
def hashPosition (blake3 : Blake3) (s : Str) : Nat := leadingWord (blake3 (Str.bytes s))

/-- `HashRing`: positions with URLs, sorted by position. -/
structure HashRing where
  entries : List (Nat × Url)
  sorted : entries.Pairwise fun a b => a.1 ≤ b.1

/-- The entries of one worker. -/
def virtualNodes (blake3 : Blake3) (url : Url) : List (Nat × Url) :=
  (List.range virtualNodesPerWorker).map fun vnode => (ringPosition blake3 url vnode, url)

instance : Std.Total fun a b : Nat × Url => a.1 ≤ b.1 := ⟨fun a b => le_total a.1 b.1⟩

instance : IsTrans (Nat × Url) fun a b => a.1 ≤ b.1 := ⟨fun _ _ _ => le_trans⟩

/-- `HashRing::new`.  The sort is not stable: entries of equal position may come in any order. -/
def HashRing.new (blake3 : Blake3) (workers : List Worker) : HashRing where
  entries := (workers.flatMap fun w => virtualNodes blake3 w.url).insertionSort fun a b => a.1 ≤ b.1
  sorted := List.pairwise_insertionSort _ _

/-- The loop of `find_healthy_url` over the URLs it comes by. -/
def firstHealthy (isHealthy : Url → Bool) : List Url → List Url → Option Url
  | _, [] => none
  | checkedUrls, url :: urls =>
      if url ∈ checkedUrls then firstHealthy isHealthy checkedUrls urls
      else if isHealthy url then some url
      else firstHealthy isHealthy (url :: checkedUrls) urls

/-- `partition_point(|(pos, _)| *pos < key_pos)`. -/
def partitionPoint (entries : List (Nat × Url)) (keyPos : Nat) : Nat :=
  (entries.takeWhile fun e => decide (e.1 < keyPos)).length

/-- `find_healthy_url`. -/
def HashRing.findHealthyUrl (blake3 : Blake3) (ring : HashRing) (key : Str)
    (isHealthy : Url → Bool) : Option Url :=
  if ring.entries.isEmpty then none
  else
    let start := partitionPoint ring.entries (hashPosition blake3 key)
    let len := ring.entries.length
    firstHealthy isHealthy [] ((List.range len).filterMap fun i =>
      (ring.entries[(start + i) % len]?).map Prod.snd)

/-! ### The registry -/

/-- `WorkerRegistry`. -/
structure WorkerRegistry where
  workers : List (WorkerId × Worker)
  modelIndex : List (ModelId × List Worker)
  hashRings : List (ModelId × HashRing)
  typeWorkers : List (WorkerType × List WorkerId)
  connectionWorkers : List (ConnectionMode × List WorkerId)
  urlToId : List (Url × WorkerId)

/-- `WorkerRegistry::new`. -/
def WorkerRegistry.new : WorkerRegistry := ⟨[], [], [], [], [], []⟩

namespace WorkerRegistry

/-- `rebuild_hash_ring`. -/
def rebuildHashRing (blake3 : Blake3) (modelId : ModelId) (r : WorkerRegistry) : WorkerRegistry :=
  match r.modelIndex.lookup modelId with
  | some workers => { r with hashRings := put modelId (HashRing.new blake3 workers) r.hashRings }
  | none => { r with hashRings := del modelId r.hashRings }

/-- `get_hash_ring`. -/
def getHashRing (r : WorkerRegistry) (modelId : ModelId) : Option HashRing :=
  r.hashRings.lookup modelId

/-- `register`; `fresh` is the id `WorkerId::new` returns if it is called. -/
def register (blake3 : Blake3) (fresh : WorkerId) (worker : Worker) (r : WorkerRegistry) :
    WorkerRegistry × WorkerId :=
  let workerId := (r.urlToId.lookup worker.url).getD fresh
  let r := { r with
    workers := put workerId worker r.workers
    urlToId := put worker.url workerId r.urlToId
    modelIndex := upsert worker.modelId (· ++ [worker]) [worker] r.modelIndex }
  let r := rebuildHashRing blake3 worker.modelId r
  let r := { r with
    typeWorkers := upsert worker.workerType (· ++ [workerId]) [workerId] r.typeWorkers
    connectionWorkers :=
      upsert worker.connectionMode (· ++ [workerId]) [workerId] r.connectionWorkers }
  (r, workerId)

/-- `reserve_id_for_url`. -/
def reserveIdForUrl (fresh : WorkerId) (url : Url) (r : WorkerRegistry) :
    WorkerRegistry × WorkerId :=
  ({ r with urlToId := orInsert url fresh r.urlToId }, (r.urlToId.lookup url).getD fresh)

/-- `remove`. -/
def remove (blake3 : Blake3) (workerId : WorkerId) (r : WorkerRegistry) :
    WorkerRegistry × Option Worker :=
  match r.workers.lookup workerId with
  | none => (r, none)
  | some worker =>
      let r := { r with
        workers := del workerId r.workers
        urlToId := del worker.url r.urlToId
        modelIndex := andModify worker.modelId
          (fun ws => ws.filter fun w => decide (w.url ≠ worker.url)) r.modelIndex }
      let r := rebuildHashRing blake3 worker.modelId r
      let r := { r with
        typeWorkers := andModify worker.workerType
          (fun ids => ids.filter fun id => decide (id ≠ workerId)) r.typeWorkers
        connectionWorkers := andModify worker.connectionMode
          (fun ids => ids.filter fun id => decide (id ≠ workerId)) r.connectionWorkers }
      (r, some worker)

/-- `remove_by_url`. -/
def removeByUrl (blake3 : Blake3) (url : Url) (r : WorkerRegistry) :
    WorkerRegistry × Option Worker :=
  match r.urlToId.lookup url with
  | some workerId => remove blake3 workerId { r with urlToId := del url r.urlToId }
  | none => (r, none)

/-- `get`. -/
def get (r : WorkerRegistry) (workerId : WorkerId) : Option Worker := r.workers.lookup workerId

/-- `get_by_url`. -/
def getByUrl (r : WorkerRegistry) (url : Url) : Option Worker :=
  (r.urlToId.lookup url).bind r.get

/-- `get_url_by_id`. -/
def getUrlById (r : WorkerRegistry) (workerId : WorkerId) : Option Url :=
  match r.get workerId with
  | some worker => some worker.url
  | none => (r.urlToId.find? fun e => decide (e.2 = workerId)).map Prod.fst

/-- `get_by_model`. -/
def getByModel (r : WorkerRegistry) (modelId : ModelId) : List Worker :=
  (r.modelIndex.lookup modelId).getD []

/-- `get_all`. -/
def getAll (r : WorkerRegistry) : List Worker := r.workers.map Prod.snd

/-- `get_prefill_workers`. -/
def getPrefillWorkers (r : WorkerRegistry) : List Worker :=
  r.getAll.filter fun w => match w.workerType with
    | .prefill _ => true
    | _ => false

/-- `get_workers_filtered`; `isHealthy` is the health of the workers when it is called. -/
def getWorkersFiltered (isHealthy : Worker → Bool) (r : WorkerRegistry) (modelId : Option ModelId)
    (workerType : Option WorkerType) (connectionMode : Option ConnectionMode)
    (runtimeType : Option RuntimeType) (healthyOnly : Bool) : List Worker :=
  let workers := match modelId with
    | some model => r.getByModel model
    | none => r.getAll
  workers.filter fun w =>
    (workerType.all fun t => decide (w.workerType = t)) &&
      (connectionMode.all fun c => w.connectionMode.matches c) &&
      (runtimeType.all fun rt => decide (w.runtimeType = rt)) &&
      (!healthyOnly || isHealthy w)

end WorkerRegistry

/-! ### Runs -/

/-- A call that changes the registry. -/
inductive Call where
  | register (worker : Worker)
  | reserveIdForUrl (url : Url)
  | remove (workerId : WorkerId)
  | removeByUrl (url : Url)
  deriving DecidableEq, Repr

/-- The registry, and how many ids have been drawn. -/
structure State where
  registry : WorkerRegistry
  drawn : Nat

/-- One call; the `n`-th call that may draw an id draws `uuid n`. -/
def State.call (blake3 : Blake3) (uuid : Nat → WorkerId) (s : State) : Call → State
  | .register worker => ⟨(s.registry.register blake3 (uuid s.drawn) worker).1, s.drawn + 1⟩
  | .reserveIdForUrl url => ⟨(s.registry.reserveIdForUrl (uuid s.drawn) url).1, s.drawn + 1⟩
  | .remove workerId => ⟨(s.registry.remove blake3 workerId).1, s.drawn⟩
  | .removeByUrl url => ⟨(s.registry.removeByUrl blake3 url).1, s.drawn⟩

/-- The registry after a sequence of calls. -/
def run (blake3 : Blake3) (uuid : Nat → WorkerId) (calls : List Call) : State :=
  calls.foldl (State.call blake3 uuid) ⟨WorkerRegistry.new, 0⟩

end QwenStack.Registry

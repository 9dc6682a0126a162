import QwenStack.Manual.Definitions
import QwenStack.Registry.Definitions
import QwenStack.Support.Value

/-!
# Power of two choices — Definitions

`gateway/src/core/worker_manager.rs`: in each round the monitor asks all workers for their load and
gives the loads to the policies.  `gateway/src/policies/power_of_two.rs`: the policy draws two workers
and takes the one with the lower load.

What a worker answers is an argument (`ProbeResponse`), and so are the draws.  The counters of
processed requests, the watchers of the loads and the logs are left out.
-/

namespace QwenStack.PowerOfTwo
open Assoc
open Manual (Worker Url Rng getHealthyWorkerIndices)
open Registry (WorkerType ConnectionMode)

/-! ### The monitor -/

/-- What `req.send()` comes to. -/
inductive ProbeResponse where
  | error
  /-- `json` is none when the body is no JSON. -/
  | response (success : Bool) (json : Option Value)

/-- The tokens of `/v1/loads`, if the probe did not fail. -/
def ProbeResponse.totalTokens : ProbeResponse → Option Int
  | .response true (some json) => do
      let aggregate ← json.get "aggregate".toList
      let totalTokens ← aggregate.get "total_tokens".toList
      totalTokens.asI64
  | _ => none

/-- `parse_load_response`. -/
def parseLoadResponse (r : ProbeResponse) : Int := r.totalTokens.getD (-1)

/-- A worker of the registry, with what it answers in this round. -/
structure Probe where
  url : Url
  workerType : WorkerType
  connectionMode : ConnectionMode
  response : ProbeResponse

structure WorkerLoadInfo where
  worker : Url
  workerType : Option Str
  load : Int
  deriving DecidableEq, Repr

structure WorkerLoadsResult where
  loads : List WorkerLoadInfo
  totalWorkers : Nat
  successful : Nat
  failed : Nat
  deriving DecidableEq, Repr

def workerTypeName : WorkerType → Option Str
  | .regular => none
  | .prefill _ => some "prefill".toList
  | .decode => some "decode".toList

def workerLoadInfo (probe : Probe) : WorkerLoadInfo where
  worker := probe.url
  workerType := workerTypeName probe.workerType
  load := if probe.connectionMode = .http then parseLoadResponse probe.response else -1

def getAllWorkerLoads (workers : List Probe) : WorkerLoadsResult :=
  let loads := workers.map workerLoadInfo
  { loads := loads
    totalWorkers := workers.length
    successful := (loads.filter fun l => decide (0 ≤ l.load)).length
    failed := (loads.filter fun l => decide (l.load < 0)).length }

/-- `PowerOfTwoPolicy`. -/
structure PowerOfTwoPolicy where
  cachedLoads : List (Url × Int) := []
  deriving DecidableEq, Repr

def PowerOfTwoPolicy.updateLoads (_ : PowerOfTwoPolicy) (loads : List (Url × Int)) :
    PowerOfTwoPolicy where
  cachedLoads := loads

/-- A round of `monitor_loop`. -/
def monitorRound (workers : List Probe) (policies : List PowerOfTwoPolicy) : List PowerOfTwoPolicy :=
  if policies = [] then policies
  else
    let result := getAllWorkerLoads workers
    let loads := result.loads.foldl (fun loads info => put info.worker info.load loads) []
    if loads = [] then policies else policies.map fun policy => policy.updateLoads loads

/-! ### The policy -/

/-- `as isize`. -/
def asIsize (n : Nat) : Int :=
  if n % 2 ^ 64 < 2 ^ 63 then (n % 2 ^ 64 : Nat) else (n % 2 ^ 64 : Nat) - 2 ^ 64

/-- The two draws of `select_worker`. -/
def drawTwo {K : Type} (rng : Rng) (healthyIndices : List K) : Option (K × K) :=
  let idx1 := rng.index healthyIndices.length
  let idx2 := (idx1 + 1 + rng.index (healthyIndices.length - 1)) % healthyIndices.length
  do
    let workerIdx1 ← healthyIndices[idx1]?
    let workerIdx2 ← healthyIndices[idx2]?
    return (workerIdx1, workerIdx2)

namespace PowerOfTwoPolicy

/-- `(load1, load2)`. -/
def comparedLoads (p : PowerOfTwoPolicy) (worker1 worker2 : Worker) : Int × Int :=
  match p.cachedLoads.lookup worker1.url, p.cachedLoads.lookup worker2.url with
  | some t1, some t2 => (t1, t2)
  | _, _ => (asIsize worker1.load, asIsize worker2.load)

def selectWorker (p : PowerOfTwoPolicy) (rng : Rng) (workers : List Worker) :
    Option (Fin workers.length) :=
  let healthyIndices := getHealthyWorkerIndices workers
  if healthyIndices = [] then none
  else if healthyIndices.length = 1 then healthyIndices[0]?
  else
    (drawTwo rng healthyIndices).map fun (workerIdx1, workerIdx2) =>
      let (load1, load2) := p.comparedLoads (workers.get workerIdx1) (workers.get workerIdx2)
      if load1 ≤ load2 then workerIdx1 else workerIdx2

end PowerOfTwoPolicy

end QwenStack.PowerOfTwo

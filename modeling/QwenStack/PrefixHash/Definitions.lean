import Mathlib.Data.List.MinMax
import Mathlib.Data.Rat.Defs
import Mathlib.Algebra.Order.Ring.Rat
import QwenStack.Manual.Definitions
import QwenStack.Registry.Definitions

/-!
# Prefix hash — Definitions

`gateway/src/policies/prefix_hash.rs`: the first tokens of a request are hashed, the hash is looked up on the
ring of the workers, and the worker found there gets the request unless it has more than its share of the
load; then the least loaded worker gets it.

A worker is read once per call, and the loads, which count requests, do not overflow when they are added up.
The comparison of a load with its share is over the rationals in place of `f64`.  Metrics are left out.
-/

namespace QwenStack.PrefixHash
open Assoc
open Manual (Worker)
open Registry (Url HashRing Blake3)

/-- `xxh3_64`. -/
abbrev Xxh3 := List UInt8 → UInt64

/-- `PrefixHashConfig`. -/
structure PrefixHashConfig where
  prefixTokenCount : Nat
  loadFactor : ℚ

inductive Branch where
  | noHealthyWorkers
  | noTokens
  | ringHit
  | loadBalanceWalk
  | fallbackLeastLoad
  deriving DecidableEq, Repr

/-- What the policy reads of `SelectWorkerInfo`. -/
structure SelectWorkerInfo where
  tokens : Option (List UInt32)
  hashRing : Option HashRing

/-- The bytes of a token in memory. -/
def tokenBytes (token : UInt32) : List UInt8 := (Registry.toLeBytes token.toNat).take 4

/-- `format!("{:016x}", prefix_hash)`. -/
def ringKey (prefixHash : UInt64) : Str := (Nat.toDigits 16 prefixHash.toNat).leftpad 16 '0'

section
variable (xxh3 : Xxh3) (blake3 : Blake3) (cfg : PrefixHashConfig) (workers : List Worker)

/-- `compute_prefix_hash`. -/
def computePrefixHash (tokens : List UInt32) : UInt64 :=
  xxh3 ((tokens.take cfg.prefixTokenCount).flatMap tokenBytes)

/-- `load_ok`. -/
def loadOk (workerLoad totalLoad numWorkers : Nat) : Bool :=
  if totalLoad = 0 ∨ numWorkers = 0 then true
  else
    let avgLoad : ℚ := (totalLoad + 1 : ℕ) / numWorkers
    decide ((workerLoad : ℚ) ≤ avgLoad * cfg.loadFactor)

/-- `healthy_workers`. -/
def healthyWorkers : List (Fin workers.length) :=
  (List.finRange workers.length).filter fun idx => (workers.get idx).isHealthy

/-- `total_load`. -/
def totalLoad : Nat := ((healthyWorkers workers).map fun idx => (workers.get idx).load).sum

/-- `load_ok` of a worker. -/
def workerOk (idx : Fin workers.length) : Bool :=
  loadOk cfg (workers.get idx).load (totalLoad workers) (healthyWorkers workers).length

/-- `healthy_url_map`: of workers with one URL the last. -/
def healthyUrlMap : List (Url × Fin workers.length) :=
  (healthyWorkers workers).foldl (fun urls idx => put (workers.get idx).url idx urls) []

/-- `min_by_key(|(_, w)| w.load())`. -/
def minByLoad (indices : List (Fin workers.length)) : Option (Fin workers.length) :=
  indices.argmin fun idx => (workers.get idx).load

/-- The worker that the ring has for a hash, if there is a ring and it has one. -/
def initialWorker (hashRing : Option HashRing) (prefixHash : UInt64) : Option (Fin workers.length) := do
  let ring ← hashRing
  let initialUrl ← ring.findHealthyUrl blake3 (ringKey prefixHash) fun url =>
    contains url (healthyUrlMap workers)
  (healthyUrlMap workers).lookup initialUrl

/-- The least loaded of the workers that do not have more than their share. -/
def leastLoaded : Option (Fin workers.length) :=
  minByLoad workers ((healthyWorkers workers).filter (workerOk cfg workers))

/-- `find_worker_with_load_balance`. -/
def findWorkerWithLoadBalance (hashRing : Option HashRing) (prefixHash : UInt64) :
    Option (Fin workers.length) × Branch :=
  if healthyWorkers workers = [] then (none, .noHealthyWorkers)
  else
    match initialWorker blake3 workers hashRing prefixHash with
    | some idx =>
        if workerOk cfg workers idx = true then (some idx, .ringHit)
        else
          match leastLoaded cfg workers with
          | some idx => (some idx, .loadBalanceWalk)
          | none => (some idx, .loadBalanceWalk)  -- all workers are overloaded
    | none => (minByLoad workers (healthyWorkers workers), .fallbackLeastLoad)

/-- `select_worker_impl`. -/
def selectWorkerImpl (info : SelectWorkerInfo) : Option (Fin workers.length) × Branch :=
  if workers = [] then (none, .noHealthyWorkers)
  else
    match info.tokens with
    | some (token :: tokens) =>
        findWorkerWithLoadBalance blake3 cfg workers info.hashRing
          (computePrefixHash xxh3 cfg (token :: tokens))
    | _ => (none, .noTokens)

end

end QwenStack.PrefixHash

import QwenStack.Manual.Definitions
import QwenStack.Registry.Indices

/-!
# Registry — the ring and the workers it is used with

`Router::select_worker_for_model` of `gateway/src/routers/http/router.rs`, and the consistent-hash
policy of `gateway/src/policies/consistent_hashing.rs` it hands workers and ring to.

The workers are those of the requested model, or all of them when there is no model to filter by;
the ring is the one of the requested model, or that of `UNKNOWN_MODEL_ID`.  So without a model the
ring has the URLs of the workers handed over exactly when they are registered under
`UNKNOWN_MODEL_ID` (`ring_covers_iff`).  `UNKNOWN_MODEL_ID` is defined outside the repository and is
an argument.
-/

namespace QwenStack.Registry
open Assoc

/-! ### The policy -/

/-- The state of the workers that changes: health and circuit breaker. -/
structure Live where
  isHealthy : Worker → Bool
  canExecute : Worker → Bool

/-- `is_available`. -/
def Live.isAvailable (live : Live) (w : Worker) : Bool := live.isHealthy w && live.canExecute w

/-- `healthy_url_to_idx`. -/
def healthyUrlToIdx (live : Live) (workers : List Worker) : List (Url × Nat) :=
  ((workers.zipIdx.filter fun e => live.isHealthy e.1).map fun e => (e.1.url, e.2)).foldl
    (fun m e => put e.1 e.2 m) []

/-- `find_by_consistent_hash`. -/
def findByConsistentHash (blake3 : Blake3) (live : Live) (workers : List Worker)
    (hashRing : Option HashRing) (key : Str) : Option Nat :=
  let healthy := healthyUrlToIdx live workers
  if healthy.isEmpty then none
  else
    match hashRing with
    | some ring => do
        let url ← ring.findHealthyUrl blake3 key fun url => contains url healthy
        healthy.lookup url
    | none =>
        let healthyIndices := (healthy.map Prod.snd).insertionSort (· ≤ ·)
        healthyIndices[hashPosition blake3 key % healthyIndices.length]?

/-- `Branch`. -/
inductive Branch where
  | noHealthyWorkers
  | targetWorkerHit
  | targetWorkerMiss
  | routingKeyHit
  | randomFallback
  deriving DecidableEq, Repr

/-- `HEADER_TARGET_WORKER`. -/
def headerTargetWorker : Str := "x-smg-target-worker".toList

/-- `extract_target_worker`. -/
def extractTargetWorker (headers : Option Manual.HeaderMap) : Option Str :=
  Manual.extractHeaderValue headers headerTargetWorker

/-- `str::parse::<usize>`. -/
def parseUsize (s : Str) : Option Nat :=
  let digits := match s with
    | '+' :: rest => rest
    | s => s
  if digits.isEmpty || !digits.all Char.isDigit then none
  else
    let n := digits.foldl (fun n c => 10 * n + (c.toNat - 48)) 0
    if n < 2 ^ 64 then some n else none

/-- The implicit routing key. -/
def implicitKey (headers : Option Manual.HeaderMap) : Option Str := do
  let h ← headers
  let v ← ((h.lookup "authorization".toList).or (h.lookup "x-forwarded-for".toList)).or
    (h.lookup "cookie".toList)
  let s ← Manual.toStr v
  if s = [] then none else some s

/-- The answer to a key. -/
def answer : Option Nat → Option Nat × Branch
  | some idx => (some idx, .routingKeyHit)
  | none => (none, .noHealthyWorkers)

/-- `ConsistentHashingPolicy::select_worker_impl`. -/
def selectWorkerImpl (blake3 : Blake3) (live : Live) (rng : Manual.Rng) (workers : List Worker)
    (headers : Option Manual.HeaderMap) (hashRing : Option HashRing) : Option Nat × Branch :=
  if workers.isEmpty then (none, .noHealthyWorkers)
  else
    match extractTargetWorker headers with
    | some idxStr =>
        match parseUsize idxStr with
        | some idx =>
            if (workers[idx]?).any live.isHealthy then (some idx, .targetWorkerHit)
            else (none, .targetWorkerMiss)
        | none => (none, .targetWorkerMiss)
    | none =>
        match Manual.extractRoutingKey headers with
        | some key => answer (findByConsistentHash blake3 live workers hashRing key)
        | none =>
            match implicitKey headers with
            | some key => answer (findByConsistentHash blake3 live workers hashRing key)
            | none =>
                let healthy := workers.zipIdx.filter fun e => live.isHealthy e.1
                if healthy.length = 0 then (none, .noHealthyWorkers)
                else ((healthy[rng.index healthy.length]?).map Prod.snd, .randomFallback)

/-! ### The router -/

/-- `effective_model_id`. -/
def effectiveModelId (enableIgw : Bool) (modelId : Option ModelId) : Option ModelId :=
  if !enableIgw then none else modelId

/-- The slice `available`. -/
def availableWorkers (live : Live) (r : WorkerRegistry) (effective : Option ModelId) : List Worker :=
  (r.getWorkersFiltered live.isHealthy effective (some .regular) (some .http) none false).filter
    live.isAvailable

/-- The ring handed over with it. -/
def handedRing (unknownModelId : ModelId) (r : WorkerRegistry) (effective : Option ModelId) :
    Option HashRing :=
  r.getHashRing (effective.getD unknownModelId)

/-- `select_worker_for_model`, with a policy as what it does with workers and ring. -/
def selectWorkerForModel (unknownModelId : ModelId) (enableIgw : Bool) (live : Live)
    (r : WorkerRegistry) (policy : List Worker → Option HashRing → Option Nat)
    (modelId : Option ModelId) : Option Worker :=
  let effective := effectiveModelId enableIgw modelId
  let available := availableWorkers live r effective
  if available.isEmpty then none
  else (policy available (handedRing unknownModelId r effective)).bind fun idx => available[idx]?

/-! ### What the policy does with a ring that has the workers -/

theorem mem_healthyUrlToIdx {live : Live} {workers : List Worker} {url : Url} :
    url ∈ keys (healthyUrlToIdx live workers) ↔
      ∃ w ∈ workers, live.isHealthy w = true ∧ w.url = url := by
  rw [healthyUrlToIdx, mem_keys_foldl_put]
  simp only [keys, List.map_map, List.map_nil, List.not_mem_nil, or_false, List.mem_map,
    List.mem_filter, Function.comp_apply]
  constructor
  · rintro ⟨⟨w, i⟩, ⟨hmem, hh⟩, rfl⟩
    exact ⟨w, List.fst_mem_of_mem_zipIdx hmem, hh, rfl⟩
  · rintro ⟨w, hw, hh, rfl⟩
    obtain ⟨i, hi, rfl⟩ := List.mem_iff_getElem.mp hw
    exact ⟨(workers[i], i), ⟨List.mk_mem_zipIdx_iff_getElem?.mpr (List.getElem?_eq_getElem hi), hh⟩,
      rfl⟩

theorem lookup_healthyUrlToIdx {live : Live} {workers : List Worker} {url : Url} {idx : Nat}
    (h : (healthyUrlToIdx live workers).lookup url = some idx) :
    ∃ w, workers[idx]? = some w ∧ w.url = url := by
  rcases mem_foldl_put (mem_of_lookup h) with hmem | hmem
  · obtain ⟨⟨w, i⟩, he, heq⟩ := List.mem_map.mp hmem
    cases heq
    exact ⟨w, List.mk_mem_zipIdx_iff_getElem?.mp (List.mem_of_mem_filter he), rfl⟩
  · cases hmem

/-- A ring that has the URL of a healthy worker: the policy finds a worker. -/
theorem findByConsistentHash_some {blake3 : Blake3} {live : Live} {workers : List Worker}
    {ring : HashRing} {w : Worker} (hw : w ∈ workers) (hh : live.isHealthy w = true)
    (hring : ∃ e ∈ ring.entries, e.2 = w.url) (key : Str) :
    ∃ idx, findByConsistentHash blake3 live workers (some ring) key = some idx ∧
      idx < workers.length := by
  have hkey : w.url ∈ keys (healthyUrlToIdx live workers) :=
    mem_healthyUrlToIdx.mpr ⟨w, hw, hh, rfl⟩
  have hne : (healthyUrlToIdx live workers).isEmpty = false := by
    cases hl : healthyUrlToIdx live workers with
    | nil =>
      rw [hl] at hkey
      cases hkey
    | cons e l => rfl
  obtain ⟨e, he, heu⟩ := hring
  have hsome : (ring.findHealthyUrl blake3 key fun url =>
      contains url (healthyUrlToIdx live workers)).isSome := by
    rw [findHealthyUrl_eq, List.find?_isSome]
    exact ⟨w.url, List.mem_map.mpr ⟨e, Ring.mem_clockwise.mpr he, heu⟩, contains_iff.mpr hkey⟩
  obtain ⟨url, hurl⟩ := Option.isSome_iff_exists.mp hsome
  have hcontains : contains url (healthyUrlToIdx live workers) = true := by
    rw [findHealthyUrl_eq] at hurl
    exact List.find?_some (p := fun url => contains url (healthyUrlToIdx live workers)) hurl
  obtain ⟨idx, hidx⟩ := Option.isSome_iff_exists.mp hcontains
  obtain ⟨w', hw', -⟩ := lookup_healthyUrlToIdx hidx
  refine ⟨idx, ?_, (List.getElem?_eq_some_iff.mp hw').1⟩
  simp only [findByConsistentHash, hne, Bool.false_eq_true, if_false, hurl, Option.bind_eq_bind,
    Option.bind_some, hidx]

/-! ### The ring and the slice -/

theorem matches_http {c : ConnectionMode} : c.matches .http = true ↔ c = .http := by
  cases c <;> simp [ConnectionMode.matches]

section
variable {live : Live} {r : WorkerRegistry} {w : Worker}

theorem mem_available_some {model : ModelId} (h : w ∈ availableWorkers live r (some model)) :
    w ∈ r.getByModel model ∧ live.isHealthy w = true := by
  rw [availableWorkers, WorkerRegistry.getWorkersFiltered, List.mem_filter, List.mem_filter] at h
  exact ⟨h.1.1, (Bool.and_eq_true_iff.mp h.2).1⟩

theorem mem_available_none : w ∈ availableWorkers live r none ↔
    w ∈ r.getAll ∧ w.workerType = .regular ∧ w.connectionMode = .http ∧ live.isAvailable w = true := by
  simp only [availableWorkers, WorkerRegistry.getWorkersFiltered, List.mem_filter, Option.all_some,
    Option.all_none, Bool.and_true, Bool.not_false, Bool.true_or, Bool.and_eq_true,
    decide_eq_true_eq, matches_http, and_assoc]

theorem available_healthy {effective : Option ModelId} (h : w ∈ availableWorkers live r effective) :
    live.isHealthy w = true := by
  rw [availableWorkers, List.mem_filter] at h
  exact (Bool.and_eq_true_iff.mp h.2).1

end

namespace Indexed
variable {blake3 : Blake3} {uuid : Nat → WorkerId} {s : State} {w : Worker}

/-- A registered worker is on the ring of its model, and on no other. -/
theorem on_ring_iff (h : Indexed blake3 uuid s) (hw : Registered s.registry w) (model : ModelId) :
    (∃ ring, s.registry.getHashRing model = some ring ∧ ∃ e ∈ ring.entries, e.2 = w.url) ↔
      w.modelId = model := by
  constructor
  · rintro ⟨ring, hring, e, he, hu⟩
    obtain ⟨id, w', hid, hm, hu'⟩ := h.consistent.ringOnly model ring e hring he
    rw [h.keyed.eq_of_url hw ⟨id, hid⟩ (hu.symm.trans hu'.symm), hm]
  · rintro rfl
    obtain ⟨id, hid⟩ := hw
    obtain ⟨ring, hring, hcount⟩ := h.consistent.ring id w hid
    have hpos : 0 < ring.entries.countP fun e => decide (e.2 = w.url) := by
      rw [hcount]
      decide
    obtain ⟨e, he, hu⟩ := List.countP_pos_iff.mp hpos
    exact ⟨ring, hring, e, he, by simpa using hu⟩

end Indexed

/-- Every regular HTTP worker that can be given requests is registered under `UNKNOWN_MODEL_ID`. -/
def OnlyUnknown (unknownModelId : ModelId) (live : Live) (r : WorkerRegistry) : Prop :=
  ∀ w, Registered r w → w.workerType = .regular → w.connectionMode = .http →
    live.isAvailable w = true → w.modelId = unknownModelId

/-- The ring has every URL of the slice it is handed over with. -/
def RingCovers (unknownModelId : ModelId) (live : Live) (r : WorkerRegistry)
    (effective : Option ModelId) : Prop :=
  ∀ w ∈ availableWorkers live r effective, ∃ ring, handedRing unknownModelId r effective = some ring ∧
    ∃ e ∈ ring.entries, e.2 = w.url

theorem ringCovers_iff {blake3 : Blake3} {uuid : Nat → WorkerId} {s : State}
    (h : Indexed blake3 uuid s) (unknownModelId : ModelId) (live : Live) (enableIgw : Bool)
    (modelId : Option ModelId) :
    RingCovers unknownModelId live s.registry (effectiveModelId enableIgw modelId) ↔
      (enableIgw = true ∧ modelId.isSome) ∨ OnlyUnknown unknownModelId live s.registry := by
  cases he : effectiveModelId enableIgw modelId with
  | some model =>
    refine iff_of_true (fun w hw => ?_) (Or.inl ?_)
    · obtain ⟨hm, hreg⟩ := h.consistent.modelOnly model w (mem_available_some hw).1
      exact (h.on_ring_iff hreg model).mpr hm
    · rw [effectiveModelId] at he
      cases enableIgw with
      | false => cases he
      | true =>
        rw [show modelId = some model from he]
        exact ⟨rfl, rfl⟩
  | none =>
    have hno : ¬ (enableIgw = true ∧ modelId.isSome) := by
      rintro ⟨rfl, hm⟩
      rw [show modelId = none from he] at hm
      cases hm
    rw [or_iff_right hno]
    constructor
    · intro hc w hreg ht hcm ha
      exact (h.on_ring_iff hreg _).mp
        (hc w (mem_available_none.mpr ⟨h.keyed.mem_getAll.mpr hreg, ht, hcm, ha⟩))
    · intro hu w hw
      obtain ⟨hall, ht, hcm, ha⟩ := mem_available_none.mp hw
      have hreg := h.keyed.mem_getAll.mp hall
      exact (h.on_ring_iff hreg _).mpr (hu w hreg ht hcm ha)

/-- **The ring handed to the policy has every URL of the slice exactly when** there is a model to
filter by, or all the workers at hand are registered under `UNKNOWN_MODEL_ID`.  A request with a
routing key is then answered from the ring whenever the slice is not empty. -/
theorem run_ring_covers_iff (blake3 : Blake3) {uuid : Nat → WorkerId}
    (hinj : Function.Injective uuid) {calls : List Call}
    (hcalls : RegistersNewUrls blake3 uuid calls) (unknownModelId : ModelId) (live : Live)
    (enableIgw : Bool) (modelId : Option ModelId) :
    (RingCovers unknownModelId live (run blake3 uuid calls).registry
        (effectiveModelId enableIgw modelId) ↔
      (enableIgw = true ∧ modelId.isSome) ∨
        OnlyUnknown unknownModelId live (run blake3 uuid calls).registry) ∧
    (RingCovers unknownModelId live (run blake3 uuid calls).registry
        (effectiveModelId enableIgw modelId) →
      availableWorkers live (run blake3 uuid calls).registry (effectiveModelId enableIgw modelId) ≠ [] →
      ∃ ring, handedRing unknownModelId (run blake3 uuid calls).registry
          (effectiveModelId enableIgw modelId) = some ring ∧
        ∀ rng headers key, extractTargetWorker headers = none →
          Manual.extractRoutingKey headers = some key →
          ∃ idx, selectWorkerImpl blake3 live rng (availableWorkers live
              (run blake3 uuid calls).registry (effectiveModelId enableIgw modelId)) headers
              (some ring) = (some idx, .routingKeyHit) ∧
            idx < (availableWorkers live (run blake3 uuid calls).registry
              (effectiveModelId enableIgw modelId)).length) := by
  have hindexed : Indexed blake3 uuid (run blake3 uuid calls) := by
    have := indexed_take (n := calls.length) hinj fun m _ => hcalls m
    rwa [List.take_length] at this
  refine ⟨ringCovers_iff hindexed unknownModelId live enableIgw modelId, fun hcovers hne => ?_⟩
  revert hcovers hne
  generalize effectiveModelId enableIgw modelId = effective
  intro hcovers hne
  obtain ⟨w, hw⟩ := List.exists_mem_of_ne_nil _ hne
  obtain ⟨ring, hring, hon⟩ := hcovers w hw
  refine ⟨ring, hring, fun rng headers key htarget hkey => ?_⟩
  obtain ⟨idx, hidx, hlt⟩ := @findByConsistentHash_some blake3 live _ ring w hw (available_healthy hw) hon key
  have hempty : (availableWorkers live (run blake3 uuid calls).registry effective).isEmpty = false := by
    simpa using hne
  refine ⟨idx, ?_, hlt⟩
  simp only [selectWorkerImpl, hempty, Bool.false_eq_true, if_false, htarget, hkey, hidx, answer]

/-- Every worker is healthy and its breaker closed. -/
def allLive : Live := ⟨fun _ => true, fun _ => true⟩

/-- In a gateway of several models, the ring of the requested model. -/
theorem twoWorkers_ring_covers :
    Function.Injective countedId ∧ RegistersNewUrls letterHash countedId twoWorkers ∧
      RingCovers ['u'] allLive (run letterHash countedId twoWorkers).registry
        (effectiveModelId true (some ['m'])) :=
  ⟨countedId_injective, twoWorkers_registersNewUrls,
    (run_ring_covers_iff letterHash countedId_injective twoWorkers_registersNewUrls ['u'] allLive true
      (some ['m'])).1.mpr (Or.inl ⟨rfl, rfl⟩)⟩

/-- **In a gateway of one model there is no ring**: the one worker is registered under its model, and
the ring that is looked up is that of no model. -/
theorem single_model_no_ring :
    ¬ ∀ calls, RegistersNewUrls letterHash countedId calls → ∀ live enableIgw modelId,
      RingCovers ['u'] live (run letterHash countedId calls).registry
        (effectiveModelId enableIgw modelId) := by
  intro h
  have hcalls : RegistersNewUrls letterHash countedId [.register (plainWorker ['a'] ['m'])] := by
    intro n w hw
    match n, hw with
    | 0, hw => cases hw; rfl
    | n + 1, hw => cases hw
  obtain ⟨ring, hring, -⟩ := h _ hcalls allLive false (some ['m']) (plainWorker ['a'] ['m']) (by decide)
  have hnone : handedRing ['u'] (run letterHash countedId
      [.register (plainWorker ['a'] ['m'])]).registry (effectiveModelId false (some ['m'])) = none := rfl
  rw [hnone] at hring
  cases hring

end QwenStack.Registry

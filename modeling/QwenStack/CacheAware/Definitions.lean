import QwenStack.Manual.Definitions
import QwenStack.Registry.Definitions
import QwenStack.Tree.Retime

/-!
# Cache-aware routing — Definitions

`gateway/src/policies/cache_aware.rs`: a request goes to the worker that has seen the longest prefix of its
text, as a radix tree has it, and to the least loaded one when there is no such prefix or the load is out of
balance.  There is a tree for each pool of workers and model.

A worker is read once per call.  What the hash maps, the heap and `rand` leave open in a call is a `Choice`.
`EPOCH_COUNTER` is one for all trees.  The comparisons in `f32` are parameters of the configuration, and so
is `UNKNOWN_MODEL_ID`, which is defined outside the repository.  The sync to the mesh, the counters of the
workers and the logs are left out.

A call is answered with an index of a usable worker, if there is one (`Answered`).  The policies come to the
index in two ways: they choose among the usable workers, or they have a URL and look for the first worker
that has it (`Reaches`).
-/

namespace QwenStack.CacheAware
open Assoc
open Registry (Url ModelId WorkerType)
open Manual (Rng)
open QwenStack.Tree (Epoch HashOrder)

/-- What the policy reads of a `Worker`. -/
structure Worker where
  url : Url
  modelId : ModelId
  workerType : WorkerType
  isHealthy : Bool
  /-- `circuit_breaker().can_execute()`. -/
  canExecute : Bool
  load : Nat
  deriving DecidableEq, Repr

/-- `CacheAwareConfig`. -/
structure CacheAwareConfig where
  unknownModelId : ModelId
  balanceAbsThreshold : Nat
  /-- `max_load as f32 > min_load as f32 * balance_rel_threshold`. -/
  relImbalanced : Nat → Nat → Bool
  /-- `match_rate > cache_threshold`, of the matched and the given characters. -/
  isCacheHit : Nat → Nat → Bool

/-- What is left open in a call. -/
structure Choice where
  matching : HashOrder
  removal : HashOrder
  /-- Of each tree. -/
  eviction : Str → HashOrder
  /-- The order of the groups of `init_workers`. -/
  groups : List Str → List Str
  groups_perm : ∀ l, (groups l).Perm l
  rng : Rng

/-- `CacheAwarePolicy`, with the counter. -/
structure CacheAwarePolicy where
  trees : List (Str × Tree)
  epoch : Epoch

/-! ### Keys -/

/-- `pool_tag`. -/
def poolTag : WorkerType → Str
  | .regular => "regular".toList
  | .prefill _ => "prefill".toList
  | .decode => "decode".toList

/-- `make_tree_key`. -/
def makeTreeKey (pool model : Str) : Str := pool ++ "::".toList ++ model

namespace CacheAwareConfig

/-- `normalize_model_key`. -/
def normalizeModelKey (cfg : CacheAwareConfig) (modelId : ModelId) : ModelId :=
  if modelId = [] then cfg.unknownModelId else modelId

/-- `tree_key_for_worker`. -/
def treeKeyForWorker (cfg : CacheAwareConfig) (worker : Worker) : Str :=
  makeTreeKey (poolTag worker.workerType) (cfg.normalizeModelKey worker.modelId)

end CacheAwareConfig

/-! ### Workers -/

/-- `get_healthy_worker_indices`. -/
def getHealthyWorkerIndices (workers : List Worker) : List (Fin workers.length) :=
  (List.finRange workers.length).filter fun i => (workers.get i).isHealthy && (workers.get i).canExecute

/-- `workers.iter().position(|w| w.url() == url)`. -/
def position (workers : List Worker) (url : Url) : Option (Fin workers.length) :=
  (List.finRange workers.length).find? fun i => decide ((workers.get i).url = url)

/-- `choose`. -/
def choose {K : Type} (rng : Rng) (candidates : List K) : Option K :=
  candidates[rng.index candidates.length]?

/-- The least loaded of the healthy workers, "tie break randomly". -/
def minLoadIndex (rng : Rng) (workers : List Worker) (healthyIndices : List (Fin workers.length)) :
    Option (Fin workers.length) := do
  let minLoad ← (healthyIndices.map fun idx => (workers.get idx).load).min?
  choose rng (healthyIndices.filter fun idx => decide ((workers.get idx).load = minLoad))

/-- `usize::MAX`. -/
def usizeMax : Nat := 2 ^ 64 - 1

/-- `is_imbalanced`. -/
def isImbalanced (cfg : CacheAwareConfig) (workers : List Worker) : Bool :=
  let (minLoad, maxLoad) := workers.foldl (fun (m, n) w => (min m w.load, max n w.load)) (usizeMax, 0)
  let minLoad := if minLoad = usizeMax then 0 else minLoad
  decide (cfg.balanceAbsThreshold < maxLoad - minLoad) && cfg.relImbalanced maxLoad minLoad

/-! ### Methods -/

namespace CacheAwarePolicy

/-- `with_config`, from a value of the counter. -/
def new (epoch : Epoch) : CacheAwarePolicy := ⟨[], epoch⟩

/-- A call on the tree of a key has left it. -/
def store (p : CacheAwarePolicy) (key : Str) (tr : Tree) (epoch : Epoch) : CacheAwarePolicy :=
  ⟨put key tr p.trees, epoch⟩

/-- `tree.insert(text, url)`. -/
def insertIn (p : CacheAwarePolicy) (key : Str) (tr : Tree) (text : Str) (url : Url) :
    Option CacheAwarePolicy :=
  (tr.insert text url p.epoch).map fun r => p.store key r.1 r.2

/-- `trees.entry(key).or_insert_with(Tree::new)`, and `tree.insert("", worker.url())`. -/
def seed (p : CacheAwarePolicy) (key : Str) (worker : Worker) : Option CacheAwarePolicy :=
  p.insertIn key ((p.trees.lookup key).getD Tree.new) [] worker.url

/-- `init_workers`: the groups in some order, each with its workers in theirs. -/
def initWorkers (cfg : CacheAwareConfig) (choice : Choice) (p : CacheAwarePolicy) (workers : List Worker) :
    Option CacheAwarePolicy :=
  let keys := choice.groups (workers.map cfg.treeKeyForWorker).dedup
  keys.foldlM (fun p key =>
    (workers.filter fun w => decide (cfg.treeKeyForWorker w = key)).foldlM (seed · key) p) p

/-- `add_worker`. -/
def addWorker (cfg : CacheAwareConfig) (p : CacheAwarePolicy) (worker : Worker) :
    Option CacheAwarePolicy :=
  p.seed (cfg.treeKeyForWorker worker) worker

/-- `tree.remove_tenant(url)`. -/
def removeIn (choice : Choice) (p : CacheAwarePolicy) (key : Str) (tr : Tree) (url : Url) :
    Option CacheAwarePolicy :=
  (tr.removeTenant choice.removal.toIterOrder url).map fun tr => p.store key tr p.epoch

/-- `remove_worker`. -/
def removeWorker (cfg : CacheAwareConfig) (choice : Choice) (p : CacheAwarePolicy) (worker : Worker) :
    Option CacheAwarePolicy :=
  match p.trees.lookup (cfg.treeKeyForWorker worker) with
  | none => some p
  | some tr => p.removeIn choice (cfg.treeKeyForWorker worker) tr worker.url

/-- `evict_cache`. -/
def evictCache (choice : Choice) (p : CacheAwarePolicy) (maxSize : Nat) : Option CacheAwarePolicy := do
  let trees ← p.trees.mapM fun e =>
    (e.2.evictTenantBySize (choice.eviction e.1).toIterOrder maxSize).map fun tr => (e.1, tr)
  some { p with trees := trees }

/-- `select_worker_min_load`. -/
def selectWorkerMinLoad (choice : Choice) (p : CacheAwarePolicy) (workers : List Worker)
    (requestText : Option Str) (healthyIndices : List (Fin workers.length)) (treeKey : Str) :
    Option (CacheAwarePolicy × Option (Fin workers.length)) :=
  match minLoadIndex choice.rng workers healthyIndices with
  | none => some (p, none)
  | some idx =>
      -- Even in imbalanced mode, update the tree to maintain cache state
      match requestText, p.trees.lookup treeKey with
      | some text, some tr => (p.insertIn treeKey tr text (workers.get idx).url).map fun p => (p, some idx)
      | _, _ => some (p, some idx)

/-- The cache-aware part of `select_worker`, on the tree of the key. -/
def selectWorkerByPrefix (cfg : CacheAwareConfig) (choice : Choice) (p : CacheAwarePolicy)
    (workers : List Worker) (text : Str) (healthyIndices : List (Fin workers.length)) (treeKey : Str)
    (tr : Tree) : Option (CacheAwarePolicy × Option (Fin workers.length)) := do
  let (tr, epoch, result) ← tr.prefixMatchWithCounts choice.matching.toIterOrder text p.epoch
  let p := p.store treeKey tr epoch
  let isHit := cfg.isCacheHit result.matchedCharCount result.inputCharCount
  let selectedIdx := if isHit = true then
      (position workers result.tenant).filter fun idx => (workers.get idx).isHealthy
    else minLoadIndex choice.rng workers healthyIndices
  match selectedIdx with
  | some idx => (p.insertIn treeKey tr text (workers.get idx).url).map fun p => (p, some idx)
  | none =>
      -- Selected worker no longer exists or unhealthy, remove stale tenant from tree
      if isHit = true then
        (p.removeIn choice treeKey tr result.tenant).map fun p => (p, healthyIndices.head?)
      else some (p, healthyIndices.head?)

/-- `select_worker`. -/
def selectWorker (cfg : CacheAwareConfig) (choice : Choice) (p : CacheAwarePolicy) (workers : List Worker)
    (requestText : Option Str) : Option (CacheAwarePolicy × Option (Fin workers.length)) :=
  match getHealthyWorkerIndices workers with
  | [] => some (p, none)
  | pivot :: rest =>
      let treeKey := cfg.treeKeyForWorker (workers.get pivot)
      if isImbalanced cfg workers = true then
        selectWorkerMinLoad choice p workers requestText (pivot :: rest) treeKey
      else
        match p.trees.lookup treeKey with
        | none => some (p, choose choice.rng (pivot :: rest))
        | some tr =>
            selectWorkerByPrefix cfg choice p workers (requestText.getD []) (pivot :: rest) treeKey tr

end CacheAwarePolicy

/-! ### Runs -/

/-- One call. -/
inductive Op where
  | initWorkers (workers : List Worker)
  | addWorker (worker : Worker)
  | removeWorker (worker : Worker)
  | selectWorker (workers : List Worker) (requestText : Option Str)
  | evictCache (maxSize : Nat)
  deriving DecidableEq, Repr

open CacheAwarePolicy in
/-- The policy after a call. -/
def step (cfg : CacheAwareConfig) (p : CacheAwarePolicy) (call : Choice × Op) : Option CacheAwarePolicy :=
  match call.2 with
  | .initWorkers workers => p.initWorkers cfg call.1 workers
  | .addWorker worker => p.addWorker cfg worker
  | .removeWorker worker => p.removeWorker cfg call.1 worker
  | .selectWorker workers requestText => (p.selectWorker cfg call.1 workers requestText).map Prod.fst
  | .evictCache maxSize => p.evictCache call.1 maxSize

end QwenStack.CacheAware

/-! ### The workers of a call -/

namespace QwenStack.CacheAware
open Manual (Rng)
open Registry (Url)

variable {workers : List Worker}

/-- The worker is healthy, and its circuit is not open. -/
def Worker.Usable (w : Worker) : Prop := w.isHealthy = true ∧ w.canExecute = true

theorem mem_getHealthyWorkerIndices {i : Fin workers.length} :
    i ∈ getHealthyWorkerIndices workers ↔ (workers.get i).Usable := by
  simp [getHealthyWorkerIndices, Worker.Usable]

/-- A call has no answer exactly if no worker is usable, and no answer but a usable worker. -/
structure Answered (workers : List Worker) (answer : Option (Fin workers.length)) : Prop where
  none_iff : answer = none ↔ getHealthyWorkerIndices workers = []
  usable : ∀ i, answer = some i → i ∈ getHealthyWorkerIndices workers

theorem answered_none (h : getHealthyWorkerIndices workers = []) : Answered workers none :=
  ⟨iff_of_true rfl h, fun _ hi => absurd hi.symm (by simp)⟩

theorem answered_iff {answer : Option (Fin workers.length)} (h : getHealthyWorkerIndices workers ≠ []) :
    Answered workers answer ↔ ∃ i ∈ getHealthyWorkerIndices workers, answer = some i := by
  constructor
  · intro ha
    obtain ⟨i, hi⟩ := Option.ne_none_iff_exists'.mp fun hnone => h (ha.none_iff.mp hnone)
    exact ⟨i, ha.usable i hi, hi⟩
  · rintro ⟨i, hi, rfl⟩
    exact ⟨iff_of_false (by simp) h, fun j hj => Option.some.inj hj ▸ hi⟩

theorem answered_some {i : Fin workers.length} (h : i ∈ getHealthyWorkerIndices workers) :
    Answered workers (some i) :=
  (answered_iff (List.ne_nil_of_mem h)).mpr ⟨i, h, rfl⟩

/-! ### The worker of a URL -/

/-- The first worker of this URL is usable. -/
def Reaches (workers : List Worker) (url : Url) : Prop :=
  ∃ i ∈ getHealthyWorkerIndices workers, position workers url = some i

theorem answered_position_iff (h : getHealthyWorkerIndices workers ≠ []) {url : Url} :
    Answered workers (position workers url) ↔ Reaches workers url :=
  answered_iff h

theorem position_url {url : Url} {i : Fin workers.length} (h : position workers url = some i) :
    (workers.get i).url = url := by
  have hfound := List.find?_some h
  exact of_decide_eq_true hfound

theorem exists_position {url : Url} (h : ∃ w ∈ workers, w.url = url) :
    ∃ i, position workers url = some i := by
  obtain ⟨w, hw, hurl⟩ := h
  obtain ⟨k, hk⟩ := List.get_of_mem hw
  rw [← Option.isSome_iff_exists, position, List.find?_isSome]
  exact ⟨k, List.mem_finRange k, by simp only [hk, hurl, decide_true]⟩

/-! ### Choices -/

theorem choose_mem {K : Type} {rng : Rng} {candidates : List K} {x : K}
    (h : choose rng candidates = some x) : x ∈ candidates :=
  List.mem_of_getElem? h

theorem exists_choose {K : Type} (rng : Rng) {candidates : List K} (h : candidates ≠ []) :
    ∃ x, choose rng candidates = some x :=
  ⟨_, List.getElem?_eq_getElem (rng.index_lt _ (List.length_pos_of_ne_nil h))⟩

/-- Every candidate may be drawn. -/
theorem exists_rng {K : Type} {candidates : List K} {x : K} (h : x ∈ candidates) :
    ∃ rng, choose rng candidates = some x := by
  obtain ⟨k, hk, rfl⟩ := List.getElem_of_mem h
  refine ⟨⟨fun n => if k < n then k else 0, fun n hn => by split <;> assumption⟩, ?_⟩
  change candidates[if k < candidates.length then k else 0]? = _
  rw [if_pos hk, List.getElem?_eq_getElem hk]

/-- The least loaded of some workers is one of them. -/
theorem minLoadIndex_mem {rng : Rng} {indices : List (Fin workers.length)} {i : Fin workers.length}
    (h : minLoadIndex rng workers indices = some i) : i ∈ indices := by
  obtain ⟨minLoad, -, h⟩ := Option.bind_eq_some_iff.mp h
  exact List.mem_of_mem_filter (choose_mem h)

theorem exists_minLoadIndex (rng : Rng) {indices : List (Fin workers.length)} (h : indices ≠ []) :
    ∃ i, minLoadIndex rng workers indices = some i := by
  obtain ⟨minLoad, hmin⟩ := Option.ne_none_iff_exists'.mp
    (fun hnone => h (List.map_eq_nil_iff.mp (List.min?_eq_none_iff.mp hnone)) :
      (indices.map fun idx => (workers.get idx).load).min? ≠ none)
  obtain ⟨idx, hidx, hload⟩ := List.mem_map.mp (List.min?_mem hmin)
  have hleast : indices.filter (fun idx => decide ((workers.get idx).load = minLoad)) ≠ [] :=
    List.ne_nil_of_mem (List.mem_filter.mpr ⟨hidx, decide_eq_true hload⟩)
  obtain ⟨i, hi⟩ := exists_choose rng hleast
  exact ⟨i, Option.bind_eq_some_iff.mpr ⟨minLoad, hmin, hi⟩⟩

end QwenStack.CacheAware

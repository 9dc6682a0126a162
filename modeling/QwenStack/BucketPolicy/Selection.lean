import Mathlib.Data.List.MinMax
import QwenStack.BucketPolicy.Partition
import QwenStack.CacheAware.Definitions

/-!
# Bucket policy — which worker a call gets

`BucketPolicy` has a bucket for each model.  `select_worker` looks at the usable workers only to choose the
bucket and where nothing else gives a URL.  The URL it takes from the bucket, of the range that holds the
length or of the least load, is that of a registered worker, and need not be that of a usable one, nor of
one that was handed in: the worker may be down, removed, or hidden behind another with its URL.
`answered_iff_routes` says when this does not matter.

An event is one locked section on a bucket, or a call of `select_worker` that no other call interrupts.
-/

namespace QwenStack.BucketPolicy
open Assoc
open CacheAware (Worker Answered Reaches getHealthyWorkerIndices position choose)
open Manual (Rng)
open Registry (ModelId)

/-- `BucketConfig`; the comparison in `f32` is a parameter, and so is `UNKNOWN_MODEL_ID`. -/
structure BucketConfig where
  unknownModelId : ModelId
  balanceAbsThreshold : Nat
  /-- `max_load as f32 > balance_rel_threshold * min_load as f32`. -/
  relImbalanced : Nat → Nat → Bool
  bucketAdjustIntervalSecs : Nat

/-- `normalize_model_key`. -/
def BucketConfig.normalizeModelKey (cfg : BucketConfig) (modelId : ModelId) : ModelId :=
  if modelId = [] then cfg.unknownModelId else modelId

/-- What is left open in a call of `select_worker`. -/
structure Choice where
  rng : Rng
  /-- The order in which `chars_per_url` is iterated. -/
  order : List (Url × Nat) → List (Url × Nat)
  order_perm : ∀ l, (order l).Perm l
  now : Nat
  id : Str

/-- The first of everything. -/
def firstDraw : Choice := ⟨⟨fun _ => 0, fun _ h => h⟩, id, fun l => .refl l, 0, []⟩

/-- `BucketPolicy`: the buckets by model. -/
structure BucketPolicy where
  buckets : List (ModelId × Bucket)

/-! ### Registration -/

namespace BucketPolicy

def new : BucketPolicy := ⟨[]⟩

/-- `buckets.entry(key).or_insert_with(..)`. -/
def entry (cfg : BucketConfig) (p : BucketPolicy) (key : ModelId) : Bucket :=
  (p.buckets.lookup key).getD (.new (mul cfg.bucketAdjustIntervalSecs 1000))

/-- The bucket of a key after a locked section. -/
def store (p : BucketPolicy) (key : ModelId) (b : Bucket) : BucketPolicy := ⟨put key b p.buckets⟩

/-- `init_prefill_worker_urls`, for the workers of one model. -/
def initModel (cfg : BucketConfig) (workers : List Worker) (p : BucketPolicy) (key : ModelId) :
    BucketPolicy :=
  let workers := workers.filter fun w => decide (cfg.normalizeModelKey w.modelId = key)
  p.store key ((p.entry cfg key).initPrefillWorkerUrls (workers.map Worker.url))

/-- `init_prefill_worker_urls`: the models are independent of one another. -/
def initPrefillWorkerUrls (cfg : BucketConfig) (p : BucketPolicy) (workers : List Worker) : BucketPolicy :=
  (workers.map fun w => cfg.normalizeModelKey w.modelId).dedup.foldl (initModel cfg workers) p

/-- `add_prefill_url`. -/
def addPrefillUrl (cfg : BucketConfig) (p : BucketPolicy) (worker : Worker) : BucketPolicy :=
  let key := cfg.normalizeModelKey worker.modelId
  p.store key ((p.entry cfg key).addPrefillUrl worker.url)

/-- `remove_prefill_url`. -/
def removePrefillUrl (cfg : BucketConfig) (p : BucketPolicy) (worker : Worker) : BucketPolicy :=
  let key := cfg.normalizeModelKey worker.modelId
  match p.buckets.lookup key with
  | none => p
  | some b => p.store key (b.removePrefillUrl worker.url)

/-- What the adjustment thread does to one bucket. -/
def adjustBoundary (p : BucketPolicy) (key : ModelId) : BucketPolicy :=
  match p.buckets.lookup key with
  | none => p
  | some b => p.store key b.adjustBoundary

end BucketPolicy

/-! ### Selection -/

/-- `is_imbalanced`. -/
def Bucket.isImbalanced (cfg : BucketConfig) (b : Bucket) : Bool :=
  let maxLoad := (b.charsPerUrl.map Prod.snd).max?.getD 0
  let minLoad := (b.charsPerUrl.map Prod.snd).min?.getD 0
  decide (cfg.balanceAbsThreshold < maxLoad - minLoad) && cfg.relImbalanced maxLoad minLoad

/-- The URL of a usable worker drawn at random. -/
def drawnUrl (rng : Rng) (workers : List Worker) (pivot : Fin workers.length)
    (rest : List (Fin workers.length)) : Url :=
  (workers.get ((choose rng (pivot :: rest)).getD pivot)).url

/-- `prefill_url`; `drawn` is used where the bucket gives none. -/
def Bucket.prefillUrl (cfg : BucketConfig) (choice : Choice) (b : Bucket) (charCount : Nat) (drawn : Url) :
    Url :=
  if b.isImbalanced cfg = true then
    match (choice.order b.charsPerUrl).argmin Prod.snd with
    | some e => e.1
    | none => drawn
  else
    match b.findBoundary charCount with
    | some url => if url = [] then drawn else url
    | none => drawn

/-- `select_worker`. -/
def BucketPolicy.selectWorker (cfg : BucketConfig) (choice : Choice) (p : BucketPolicy)
    (workers : List Worker) (requestText : Option Str) : BucketPolicy × Option (Fin workers.length) :=
  match getHealthyWorkerIndices workers with
  | [] => (p, none)
  | pivot :: rest =>
      let charCount := (requestText.getD []).length
      let key := cfg.normalizeModelKey (workers.get pivot).modelId
      let drawn := drawnUrl choice.rng workers pivot rest
      match p.buckets.lookup key with
      | none => (p, position workers drawn)
      | some b =>
          let prefillUrl := b.prefillUrl cfg choice charCount drawn
          (p.store key (b.postProcessRequest choice.now choice.id charCount prefillUrl),
            position workers prefillUrl)

/-- What happens to the policy. -/
inductive Event where
  | init (workers : List Worker)
  | add (worker : Worker)
  | remove (worker : Worker)
  | adjust (key : ModelId)
  | select (choice : Choice) (workers : List Worker) (requestText : Option Str)

def BucketPolicy.step (cfg : BucketConfig) (p : BucketPolicy) : Event → BucketPolicy
  | .init workers => p.initPrefillWorkerUrls cfg workers
  | .add worker => p.addPrefillUrl cfg worker
  | .remove worker => p.removePrefillUrl cfg worker
  | .adjust key => p.adjustBoundary key
  | .select choice workers requestText => (p.selectWorker cfg choice workers requestText).1

/-- The policy after some events. -/
def BucketPolicy.after (cfg : BucketConfig) (events : List Event) : BucketPolicy :=
  events.foldl (BucketPolicy.step cfg) .new

/-! ### When the answer is usable -/

/-- Every usable worker is the first of its URL. -/
def DrawsUsable (workers : List Worker) : Prop :=
  ∀ i ∈ getHealthyWorkerIndices workers, Reaches workers (workers.get i).url

/-- The URLs that the bucket may give are those of usable workers: out of balance, the URLs of the least
load; else the URL whose range holds the length. -/
def Bucket.Routes (cfg : BucketConfig) (b : Bucket) (workers : List Worker) (charCount : Nat) : Prop :=
  if b.isImbalanced cfg = true then
    ∀ e ∈ b.charsPerUrl, (∀ e' ∈ b.charsPerUrl, e.2 ≤ e'.2) → Reaches workers e.1
  else
    match b.findBoundary charCount with
    | some url => if url = [] then DrawsUsable workers else Reaches workers url
    | none => DrawsUsable workers

/-- There is no bucket, or a bucket that gives the URLs of usable workers. -/
def Routes (cfg : BucketConfig) (p : BucketPolicy) (workers : List Worker) (charCount : Nat)
    (pivot : Fin workers.length) : Prop :=
  match p.buckets.lookup (cfg.normalizeModelKey (workers.get pivot).modelId) with
  | none => DrawsUsable workers
  | some b => b.Routes cfg workers charCount

section
variable {cfg : BucketConfig} {workers : List Worker} {pivot : Fin workers.length}
  {rest : List (Fin workers.length)} {b : Bucket}

/-- Any usable worker may be drawn. -/
theorem drawsUsable_iff (hhealthy : getHealthyWorkerIndices workers = pivot :: rest) :
    DrawsUsable workers ↔ ∀ rng, Reaches workers (drawnUrl rng workers pivot rest) := by
  constructor
  · intro h rng
    obtain ⟨i, hi⟩ := CacheAware.exists_choose rng (List.cons_ne_nil pivot rest)
    rw [drawnUrl, hi]
    exact h i (hhealthy ▸ CacheAware.choose_mem hi)
  · intro h i hi
    rw [hhealthy] at hi
    obtain ⟨rng, hrng⟩ := CacheAware.exists_rng hi
    have hdrawn := h rng
    rw [drawnUrl, hrng] at hdrawn
    exact hdrawn

/-- A bucket without loads is in balance. -/
theorem loads_ne_nil (h : b.isImbalanced cfg = true) : b.charsPerUrl ≠ [] := by
  intro hnil
  simp [Bucket.isImbalanced, hnil] at h

/-- Any URL of the least load may come first. -/
theorem exists_order {e : Url × Nat} (he : e ∈ b.charsPerUrl) (hleast : ∀ e' ∈ b.charsPerUrl, e.2 ≤ e'.2) :
    ∃ choice : Choice, (choice.order b.charsPerUrl).argmin Prod.snd = some e := by
  have hperm : (e :: b.charsPerUrl.erase e).Perm b.charsPerUrl := (List.perm_cons_erase he).symm
  refine ⟨{ firstDraw with
    order := fun l => if l = b.charsPerUrl then e :: b.charsPerUrl.erase e else l
    order_perm := fun l => ?_ }, ?_⟩
  · split
    · next h => rw [h]; exact hperm
    · exact .refl l
  · change (if b.charsPerUrl = b.charsPerUrl then _ else _ : List (Url × Nat)).argmin Prod.snd = _
    rw [if_pos rfl, List.argmin_eq_some_iff]
    refine ⟨List.mem_cons_self, fun e' he' => hleast e' (hperm.mem_iff.mp he'), fun e' _ _ => ?_⟩
    simp [List.idxOf, List.findIdx_cons]

theorem Bucket.routes_iff (hhealthy : getHealthyWorkerIndices workers = pivot :: rest) (charCount : Nat) :
    b.Routes cfg workers charCount ↔ ∀ choice : Choice,
      Reaches workers (b.prefillUrl cfg choice charCount (drawnUrl choice.rng workers pivot rest)) := by
  have hdraws : DrawsUsable workers ↔ ∀ choice : Choice, Reaches workers
      (drawnUrl choice.rng workers pivot rest) :=
    (drawsUsable_iff hhealthy).trans
      ⟨fun h choice => h choice.rng, fun h rng => h { firstDraw with rng := rng }⟩
  unfold Bucket.Routes Bucket.prefillUrl
  by_cases himb : b.isImbalanced cfg = true
  · simp only [if_pos himb]
    constructor
    · intro h choice
      cases harg : (choice.order b.charsPerUrl).argmin Prod.snd with
      | none =>
        have hperm := choice.order_perm b.charsPerUrl
        rw [List.argmin_eq_none.mp harg] at hperm
        exact absurd hperm.nil_eq.symm (loads_ne_nil himb)
      | some e =>
        obtain ⟨he, hleast, -⟩ := List.argmin_eq_some_iff.mp harg
        exact h e ((choice.order_perm _).mem_iff.mp he) fun e' he' =>
          hleast e' ((choice.order_perm _).mem_iff.mpr he')
    · intro h e he hleast
      obtain ⟨choice, hchoice⟩ := exists_order he hleast
      have := h choice
      rw [hchoice] at this
      exact this
  · simp only [if_neg himb]
    cases b.findBoundary charCount with
    | none => exact hdraws
    | some url =>
      by_cases hurl : url = []
      · simp only [if_pos hurl]
        exact hdraws
      · simp only [if_neg hurl]
        exact ⟨fun h _ => h, fun h => h firstDraw⟩

end

/-- **When a call is answered with a usable worker.**  Whatever the choices, exactly if no worker is usable,
or if the bucket of the first usable worker's model routes. -/
theorem answered_iff_routes (cfg : BucketConfig) (p : BucketPolicy) (workers : List Worker)
    (requestText : Option Str) :
    (∀ choice, Answered workers (p.selectWorker cfg choice workers requestText).2) ↔
      ∀ pivot, (getHealthyWorkerIndices workers).head? = some pivot →
        Routes cfg p workers (requestText.getD []).length pivot := by
  unfold BucketPolicy.selectWorker Routes
  cases hhealthy : getHealthyWorkerIndices workers with
  | nil => exact iff_of_true (fun _ => CacheAware.answered_none hhealthy) (fun _ h => by cases h)
  | cons pivot rest =>
    have hne : getHealthyWorkerIndices workers ≠ [] := by simp [hhealthy]
    simp only [List.head?_cons, Option.some.injEq, forall_eq']
    cases p.buckets.lookup (cfg.normalizeModelKey (workers.get pivot).modelId) with
    | none =>
      simp only [CacheAware.answered_position_iff hne, drawsUsable_iff hhealthy]
      exact ⟨fun h rng => h { firstDraw with rng := rng }, fun h choice => h choice.rng⟩
    | some b => simp only [CacheAware.answered_position_iff hne, Bucket.routes_iff hhealthy]

/-- A prefill worker. -/
def prefillWorker (url : Url) (isHealthy : Bool) : Worker :=
  ⟨url, [], .prefill none, isHealthy, true, 0⟩

/-- Out of balance from 32 characters on. -/
def defaultConfig : BucketConfig := ⟨[], 32, fun m n => decide (n < m), 5⟩

/-- Two workers share the axis, and the first, that has the short requests, is down. -/
theorem down_worker_answers : ¬ ∀ cfg events choice workers requestText,
    Answered workers ((BucketPolicy.after cfg events).selectWorker cfg choice workers requestText).2 := by
  intro h
  have ha := h defaultConfig [.init [prefillWorker ['a'] true, prefillWorker ['b'] true]] firstDraw
    [prefillWorker ['a'] false, prefillWorker ['b'] true] none
  exact absurd (ha.usable ⟨0, by decide⟩ (by decide +kernel)) (by decide)

end QwenStack.BucketPolicy

import QwenStack.CacheAware.Isolation

/-!
# Cache-aware routing — only to usable workers

`select_worker` takes its index from the usable workers, with one exception: at a cache hit it looks for the
worker of the matched tenant in the whole slice, and asks only whether it is healthy.  A hit on a worker
whose circuit is open is the one call whose answer is not usable (`selectWorker_answered_iff`).
-/

namespace QwenStack.CacheAware
open QwenStack.Tree (Epoch HashOrder)

section
variable {cfg : CacheAwareConfig} {choice : Choice} {p : CacheAwarePolicy} {workers : List Worker}
  {requestText : Option Str} {r : CacheAwarePolicy × Option (Fin workers.length)}

/-- What the text of a call hits, if the call finds a tree, in balance. -/
def cacheHit (cfg : CacheAwareConfig) (choice : Choice) (p : CacheAwarePolicy) (workers : List Worker)
    (requestText : Option Str) : Option Tree.PrefixMatchResult :=
  if isImbalanced cfg workers = true then none
  else do
    let pivot ← (getHealthyWorkerIndices workers).head?
    let tr ← p.trees.lookup (cfg.treeKeyForWorker (workers.get pivot))
    let (_, _, result) ← tr.prefixMatchWithCounts choice.matching.toIterOrder (requestText.getD []) p.epoch
    if cfg.isCacheHit result.matchedCharCount result.inputCharCount = true then some result else none

/-- The tenant that is hit is that of a healthy worker whose circuit is open. -/
def HitsOpen (cfg : CacheAwareConfig) (choice : Choice) (p : CacheAwarePolicy) (workers : List Worker)
    (requestText : Option Str) : Prop :=
  ∃ result ∈ cacheHit cfg choice p workers requestText, ∃ i ∈ position workers result.tenant,
    (workers.get i).isHealthy = true ∧ (workers.get i).canExecute = false

/-- The tenant that is hit is not listed, or not healthy. -/
def HitsStale (cfg : CacheAwareConfig) (choice : Choice) (p : CacheAwarePolicy) (workers : List Worker)
    (requestText : Option Str) : Prop :=
  ∃ result ∈ cacheHit cfg choice p workers requestText, ∀ i ∈ position workers result.tenant,
    (workers.get i).isHealthy = false

instance (cfg : CacheAwareConfig) (choice : Choice) (p : CacheAwarePolicy) (workers : List Worker)
    (requestText : Option Str) : Decidable (HitsStale cfg choice p workers requestText) :=
  inferInstanceAs (Decidable (∃ result ∈ cacheHit cfg choice p workers requestText, ∀ i ∈ _, _))

theorem cacheHit_imbalanced (himb : isImbalanced cfg workers = true) :
    cacheHit cfg choice p workers requestText = none := by
  rw [cacheHit, if_pos himb]

theorem cacheHit_balanced {pivot : Fin workers.length} {rest : List (Fin workers.length)}
    (hhealthy : getHealthyWorkerIndices workers = pivot :: rest) (himb : isImbalanced cfg workers = false) :
    cacheHit cfg choice p workers requestText =
      (p.trees.lookup (cfg.treeKeyForWorker (workers.get pivot))).bind fun tr =>
        (tr.prefixMatchWithCounts choice.matching.toIterOrder (requestText.getD []) p.epoch).bind fun m =>
          if cfg.isCacheHit m.2.2.matchedCharCount m.2.2.inputCharCount = true then some m.2.2 else none := by
  rw [cacheHit, hhealthy, himb]
  rfl

variable {indices : List (Fin workers.length)}

theorem answered_minLoad {text : Option Str} {key : Str}
    (hindices : getHealthyWorkerIndices workers = indices) (hne : indices ≠ [])
    (h : p.selectWorkerMinLoad choice workers text indices key = some r) : Answered workers r.2 := by
  obtain ⟨i, hi⟩ := exists_minLoadIndex choice.rng hne
  have hmem : i ∈ getHealthyWorkerIndices workers := hindices ▸ minLoadIndex_mem hi
  rw [CacheAwarePolicy.selectWorkerMinLoad, hi] at h
  dsimp only at h
  split at h
  · obtain ⟨p', -, rfl⟩ := Option.map_eq_some_iff.mp h
    exact answered_some hmem
  · cases h
    exact answered_some hmem

theorem answered_head (hindices : getHealthyWorkerIndices workers = indices) (hne : indices ≠ []) :
    Answered workers indices.head? := by
  obtain ⟨i, rest, rfl⟩ := List.exists_cons_of_ne_nil hne
  exact answered_some (hindices ▸ List.mem_cons_self)

/-- What a hit selects is usable exactly if its circuit is not open. -/
theorem answered_byPrefix_iff {text : Str} {key : Str} {tr tr' : Tree}
    {epoch : Epoch} {result : Tree.PrefixMatchResult}
    (hindices : getHealthyWorkerIndices workers = indices) (hne : indices ≠ [])
    (hmatch : tr.prefixMatchWithCounts choice.matching.toIterOrder text p.epoch = some (tr', epoch, result))
    (h : p.selectWorkerByPrefix cfg choice workers text indices key tr = some r) :
    Answered workers r.2 ↔ (cfg.isCacheHit result.matchedCharCount result.inputCharCount = true →
        ∀ i ∈ position workers result.tenant, (workers.get i).isHealthy = true →
          (workers.get i).canExecute = true) := by
  rw [CacheAwarePolicy.selectWorkerByPrefix, hmatch, Option.bind_eq_bind, Option.bind_some] at h
  by_cases hhit : cfg.isCacheHit result.matchedCharCount result.inputCharCount = true
  · simp only [hhit, if_true, true_imp_iff] at h ⊢
    cases hsel : (position workers result.tenant).filter fun idx => (workers.get idx).isHealthy with
    | none =>
      rw [hsel] at h
      obtain ⟨p', -, rfl⟩ := Option.map_eq_some_iff.mp h
      refine iff_of_true (answered_head hindices hne) fun i hi hhealthy => ?_
      rw [hi, Option.filter_eq_none_iff] at hsel
      exact absurd hhealthy (hsel i rfl)
    | some i =>
      obtain ⟨hi, hhealthy⟩ := Option.filter_eq_some_iff.mp hsel
      rw [hsel] at h
      obtain ⟨p', -, rfl⟩ := Option.map_eq_some_iff.mp h
      rw [answered_iff (hindices ▸ hne)]
      constructor
      · rintro ⟨j, hj, hij⟩ k hk -
        cases hij
        cases hi.symm.trans hk
        exact (mem_getHealthyWorkerIndices.mp hj).2
      · intro hclosed
        exact ⟨i, mem_getHealthyWorkerIndices.mpr ⟨hhealthy, hclosed i hi hhealthy⟩, rfl⟩
  · simp only [hhit, false_imp_iff, iff_true, Bool.false_eq_true, if_false] at h ⊢
    obtain ⟨i, hi⟩ := exists_minLoadIndex choice.rng hne
    rw [hi] at h
    obtain ⟨p', -, rfl⟩ := Option.map_eq_some_iff.mp h
    exact answered_some (hindices ▸ minLoadIndex_mem hi)

end

/-- **When a call is answered with a usable worker.**  After any calls, exactly if the text does not hit the
tenant of a worker whose circuit is open. -/
theorem selectWorker_answered_iff (cfg : CacheAwareConfig) (epoch : Epoch) (calls : List (Choice × Op))
    (choice : Choice) (workers : List Worker) (requestText : Option Str) :
    ∃ p, Runs.exec (step cfg) (.new epoch) calls = some p ∧
      ∃ r, p.selectWorker cfg choice workers requestText = some r ∧
        (Answered workers r.2 ↔ ¬ HitsOpen cfg choice p workers requestText) := by
  obtain ⟨p, hrun, h⟩ := Runs.exec_total (step_total cfg) calls _ (wellFormed_new epoch)
  obtain ⟨r, hcall, -⟩ := h.selectWorker cfg choice workers requestText
  refine ⟨p, hrun, r, hcall, ?_⟩
  -- where nothing is hit, the answer comes from the usable workers
  have hmiss : cacheHit cfg choice p workers requestText = none → Answered workers r.2 →
      (Answered workers r.2 ↔ ¬ HitsOpen cfg choice p workers requestText) := by
    intro hnone hanswered
    refine iff_of_true hanswered ?_
    rintro ⟨result, hresult, -⟩
    cases hnone.symm.trans hresult
  rw [CacheAwarePolicy.selectWorker] at hcall
  cases hhealthy : getHealthyWorkerIndices workers with
  | nil =>
    simp only [hhealthy] at hcall
    cases hcall
    have hnone : cacheHit cfg choice p workers requestText = none := by
      rw [cacheHit, hhealthy]
      split <;> rfl
    exact hmiss hnone (answered_none hhealthy)
  | cons pivot rest =>
    have hne : pivot :: rest ≠ [] := List.cons_ne_nil _ _
    simp only [hhealthy] at hcall
    cases himb : isImbalanced cfg workers with
    | true =>
      rw [if_pos himb] at hcall
      exact hmiss (cacheHit_imbalanced himb) (answered_minLoad hhealthy hne hcall)
    | false =>
      rw [himb, if_neg Bool.false_ne_true] at hcall
      have hhit : cacheHit cfg choice p workers requestText = _ := cacheHit_balanced hhealthy himb
      cases hl : p.trees.lookup (cfg.treeKeyForWorker (workers.get pivot)) with
      | none =>
        rw [hl] at hcall hhit
        cases hcall
        obtain ⟨i, hi⟩ := exists_choose choice.rng hne
        exact hmiss hhit (hi ▸ answered_some (hhealthy ▸ choose_mem hi))
      | some tr =>
        obtain ⟨⟨tr', epoch', result⟩, hmatch, -⟩ :=
          exists_match (h.lookup hl) choice (requestText.getD []) p.epoch
        rw [hl] at hcall hhit
        rw [Option.bind_some, hmatch, Option.bind_some] at hhit
        rw [answered_byPrefix_iff hhealthy hne hmatch hcall, HitsOpen, hhit]
        by_cases h : cfg.isCacheHit result.matchedCharCount result.inputCharCount = true
        · simp [h]
        · simp [h]

/-- A worker has answered, and its circuit opens. -/
def answeredOnce : List (Choice × Op) :=
  [(.first, .addWorker (regular "a")), (.first, .selectWorker [regular "a"] (some "x".toList))]

/-- The same text comes again. -/
theorem open_circuit_answers : ¬ ∀ cfg epoch calls choice workers requestText,
    ∃ p, Runs.exec (step cfg) (.new epoch) calls = some p ∧
      ∃ r, p.selectWorker cfg choice workers requestText = some r ∧ Answered workers r.2 := by
  intro h
  obtain ⟨p, hrun, r, hcall, hr⟩ := h halfHit 0 answeredOnce .first
    [{ regular "a" with canExecute := false }, regular "b"] (some "x".toList)
  have hanswer : ((Runs.exec (step halfHit) (.new 0) answeredOnce).bind fun p => (p.selectWorker halfHit .first
      [{ regular "a" with canExecute := false }, regular "b"] (some "x".toList)).map Prod.snd) =
        some (some ⟨0, by decide⟩) := by
    decide +kernel
  rw [hrun, Option.bind_some, hcall, Option.map_some] at hanswer
  exact absurd (hr.usable _ (Option.some.inj hanswer)) (by decide)

end QwenStack.CacheAware

import QwenStack.CacheAware.Related

/-!
# Cache-aware routing — pools apart

A run and the same run without the workers of one pool.  The calls for the pool leave the tree of any other,
and the counter.  So the two runs give the tree of another pool the same calls at different epochs, and it
stays the same up to timestamps: its matches find the same, and `select_worker` may return the same workers.

What can part the two trees is a match that refreshes in one of the runs only.  A root without tenants has
then got the tenant `"empty"` in one of them, and an eviction goes by the refreshed timestamp
(`eviction_sees_other_pool`).  Where neither happens the pools are apart (`pools_apart`).
-/

namespace QwenStack.CacheAware
open Assoc List
open Registry (Url ModelId WorkerType)
open QwenStack.Tree (Epoch Alike Refreshes)
open CacheAwarePolicy

/-! ### Runs without a pool -/

namespace Op

/-- The call without the workers of a pool, if any of it is left. -/
def without (cfg : CacheAwareConfig) (pool : Str × ModelId) : Op → Option Op
  | initWorkers workers => some (initWorkers (workers.filter fun w => decide (cfg.pool w ≠ pool)))
  | addWorker worker => if cfg.pool worker = pool then none else some (addWorker worker)
  | removeWorker worker => if cfg.pool worker = pool then none else some (removeWorker worker)
  | selectWorker workers requestText =>
      if ∃ w ∈ workers, cfg.pool w = pool then none else some (selectWorker workers requestText)
  | evictCache maxSize => some (evictCache maxSize)

/-- The workers of a request are of one pool and model. -/
def Homogeneous (cfg : CacheAwareConfig) : Op → Prop
  | selectWorker workers _ => ∀ w ∈ workers, ∀ w' ∈ workers, cfg.pool w = cfg.pool w'
  | _ => True

instance (cfg : CacheAwareConfig) : ∀ op : Op, Decidable (op.Homogeneous cfg)
  | selectWorker workers _ =>
      inferInstanceAs (Decidable (∀ w ∈ workers, ∀ w' ∈ workers, cfg.pool w = cfg.pool w'))
  | initWorkers _ | addWorker _ | removeWorker _ | evictCache _ => isTrue trivial

/-- The most epochs that the call draws. -/
def draws : Op → Nat
  | initWorkers workers => workers.length
  | addWorker _ => 1
  | selectWorker _ _ => 2
  | removeWorker _ | evictCache _ => 0

def evicts : Op → Bool
  | evictCache _ => true
  | _ => false

end Op

/-- The calls that are left of a run. -/
def without (cfg : CacheAwareConfig) (pool : Str × ModelId) (calls : List (Choice × Op)) :
    List (Choice × Op) :=
  calls.filterMap fun call => (call.2.without cfg pool).map (Prod.mk call.1)

/-- The most epochs that a run draws. -/
def draws (calls : List (Choice × Op)) : Nat := (calls.map fun call => call.2.draws).sum

/-- One call of the run without the pool. -/
def stepWithout (cfg : CacheAwareConfig) (pool : Str × ModelId) (q : CacheAwarePolicy)
    (call : Choice × Op) : Option CacheAwarePolicy :=
  match call.2.without cfg pool with
  | none => some q
  | some op => step cfg q (call.1, op)

theorem exec_without (cfg : CacheAwareConfig) (pool : Str × ModelId) (calls : List (Choice × Op))
    (q : CacheAwarePolicy) :
    Runs.exec (step cfg) q (without cfg pool calls) = Runs.exec (stepWithout cfg pool) q calls := by
  induction calls generalizing q with
  | nil => rfl
  | cons call calls ih =>
    rw [without, filterMap_cons, Runs.exec, stepWithout]
    cases call.2.without cfg pool with
    | none => exact ih q
    | some op =>
      simp only [Option.map_some, Runs.exec]
      congr 1
      funext q'
      exact ih q'

/-! ### What the epochs are to a tree -/

/-- The call gives the tree of a key the first epoch of all. -/
def startsIn (cfg : CacheAwareConfig) (b : Str) (p : CacheAwarePolicy) (call : Choice × Op) : Bool :=
  match call.2 with
  | .initWorkers workers => decide (StampsZero cfg b p.epoch (seeded cfg call.1 workers))
  | .addWorker worker => decide (StampsZero cfg b p.epoch [worker])
  | .removeWorker _ | .selectWorker _ _ | .evictCache _ => false

/-- The call is a match in the tree of a key that refreshes. -/
def refreshesIn (cfg : CacheAwareConfig) (b : Str) (p : CacheAwarePolicy) (call : Choice × Op) : Bool :=
  match call.2 with
  | .selectWorker workers _ => matchesIn cfg b p workers && decide (Refreshes p.epoch)
  | .initWorkers _ | .addWorker _ | .removeWorker _ | .evictCache _ => false

/-- The call does so in one of the runs only. -/
def oneSided (f : CacheAwarePolicy → Choice × Op → Bool) (cfg : CacheAwareConfig) (pool : Str × ModelId)
    (p q : CacheAwarePolicy) (call : Choice × Op) : Bool :=
  f p call != (call.2.without cfg pool).any fun op => f q (call.1, op)

/-- After a call the trees of a key may be out of step. -/
def drifts (cfg : CacheAwareConfig) (pool : Str × ModelId) (b : Str) (p q : CacheAwarePolicy)
    (call : Choice × Op) : Bool :=
  oneSided (startsIn cfg b) cfg pool p q call || oneSided (refreshesIn cfg b) cfg pool p q call

/-- A run and the run without a pool, from two policies: trees that may be out of step are not evicted
from, and a match that refreshes in one of the runs only finds tenants at the root. -/
def Undisturbed (cfg : CacheAwareConfig) (pool : Str × ModelId) (b : Str) :
    Bool → CacheAwarePolicy → CacheAwarePolicy → List (Choice × Op) → Prop
  | _, _, _, [] => True
  | drifted, p, q, call :: calls =>
      (call.2.evicts = true → drifted = false) ∧
      (oneSided (refreshesIn cfg b) cfg pool p q call = true →
        (p.trees.lookup b).any Tree.rooted = true) ∧
      ∀ p' ∈ step cfg p call, ∀ q' ∈ stepWithout cfg pool q call,
        Undisturbed cfg pool b (drifted || drifts cfg pool b p q call) p' q' calls

instance Undisturbed.decide (cfg : CacheAwareConfig) (pool : Str × ModelId) (b : Str) :
    ∀ (drifted : Bool) (p q : CacheAwarePolicy) (calls : List (Choice × Op)),
      Decidable (Undisturbed cfg pool b drifted p q calls)
  | _, _, _, [] => isTrue trivial
  | drifted, p, q, call :: calls =>
      have : ∀ p' q', Decidable (Undisturbed cfg pool b (drifted || drifts cfg pool b p q call) p' q' calls) :=
        fun p' q' => Undisturbed.decide cfg pool b _ p' q' calls
      inferInstanceAs (Decidable (_ ∧ _ ∧ ∀ p' ∈ step cfg p call, ∀ q' ∈ stepWithout cfg pool q call, _))

/-! ### One call -/

section
variable {cfg : CacheAwareConfig} {wa wb : Worker} {paced : Prop} {m n : Nat}
  {p q p' q' : CacheAwarePolicy} {choice : Choice}

/-- The workers of a key are not of another pool. -/
theorem ofKey_filter_pool (hpools : cfg.pool wa ≠ cfg.pool wb) (workers : List Worker) :
    ofKey cfg (cfg.treeKeyForWorker wb) (workers.filter fun w => decide (cfg.pool w ≠ cfg.pool wa)) =
      ofKey cfg (cfg.treeKeyForWorker wb) workers := by
  rw [ofKey, ofKey, filter_filter]
  refine filter_congr fun w _ => ?_
  by_cases hw : cfg.treeKeyForWorker w = cfg.treeKeyForWorker wb
  · have hne : cfg.pool w ≠ cfg.pool wa := by
      rw [(treeKey_eq_iff cfg).mp hw]
      exact hpools.symm
    simp [hw, hne]
  · simp [hw]

theorem Related.initWorkers (hpools : cfg.pool wa ≠ cfg.pool wb) {workers : List Worker}
    (h : Related (cfg.treeKeyForWorker wb) paced (m + workers.length) (n + workers.length) p q)
    (hstart : paced → oneSided (startsIn cfg (cfg.treeKeyForWorker wb)) cfg (cfg.pool wa) p q
      (choice, .initWorkers workers) = false)
    (hp : p.initWorkers cfg choice workers = some p')
    (hq : q.initWorkers cfg choice (workers.filter fun w => decide (cfg.pool w ≠ cfg.pool wa)) = some q') :
    Related (cfg.treeKeyForWorker wb) paced m n p' q' := by
  rw [initWorkers_eq] at hp hq
  refine addWorkers _ _ p q p' q' ?_ (h.weaken id ?_ ?_) (fun hpaced => ?_) hp hq
  · rw [ofKey, ofKey, filter_seeded, filter_seeded]
    exact (ofKey_filter_pool hpools workers).symm
  · rw [(seeded_perm cfg choice workers).length_eq]
  · rw [(seeded_perm cfg choice _).length_eq]
    exact Nat.add_le_add_left (length_filter_le _ _) n
  · have hboth := hstart hpaced
    rw [oneSided, bne_eq_false_iff_eq] at hboth
    exact decide_eq_decide.mp hboth

/-- A worker is added in both runs. -/
theorem Related.addWorker {b : Str} {w : Worker} (h : Related b paced (m + 1) (n + 1) p q)
    (hzero : paced → (StampsZero cfg b p.epoch [w] ↔ StampsZero cfg b q.epoch [w]))
    (hp : p.addWorker cfg w = some p') (hq : q.addWorker cfg w = some q') :
    Related b paced m n p' q' := by
  refine addWorkers [w] [w] p q p' q' rfl h hzero ?_ ?_
  · rw [foldlM_cons, hp]
    rfl
  · rw [foldlM_cons, hq]
    rfl

theorem matchesIn_eq {b : Str} (h : Related b paced m n p q) (workers : List Worker) :
    matchesIn cfg b q workers = matchesIn cfg b p workers := by
  have hsome : (q.trees.lookup b).isSome = (p.trees.lookup b).isSome := by
    obtain ⟨hl, hl'⟩ | ⟨tr, tr', hl, hl', -⟩ := rel_cases h.trees
    · rw [hl, hl']
    · rw [hl, hl', Option.isSome_some, Option.isSome_some]
  rw [matchesIn, matchesIn, hsome]

/-- A request for the key, in both runs. -/
theorem Related.selectBoth {b : Str} {workers : List Worker} {requestText : Option Str}
    (hkey : ∀ w ∈ workers, cfg.treeKeyForWorker w = b) (hw : WellFormed p)
    (h : Related b paced (m + 2) (n + 2) p q)
    (hrefresh : (matchesIn cfg b p workers && decide (Refreshes p.epoch)) =
        (matchesIn cfg b q workers && decide (Refreshes q.epoch)) ∨
      ¬paced ∧ (p.trees.lookup b).any Tree.rooted = true)
    (hp : (p.selectWorker cfg choice workers requestText).map Prod.fst = some p')
    (hq : (q.selectWorker cfg choice workers requestText).map Prod.fst = some q') :
    Related b paced m n p' q' := by
  obtain ⟨⟨p₁, i⟩, hrun, rfl⟩ := Option.map_eq_some_iff.mp hp
  obtain ⟨⟨q₁, i'⟩, hrun', rfl⟩ := Option.map_eq_some_iff.mp hq
  refine h.selectWorker hkey hw (fun hmatch => hrefresh.imp_left fun hboth => ?_) hrun hrun'
  rw [matchesIn_eq h, hmatch, Bool.true_and, Bool.true_and] at hboth
  exact decide_eq_decide.mp hboth

/-- **A call** that leaves the trees of a key in step, or that no eviction follows. -/
theorem Related.step (hpools : cfg.pool wa ≠ cfg.pool wb) {call : Choice × Op}
    (hhom : call.2.Homogeneous cfg) (hw : WellFormed p)
    (h : Related (cfg.treeKeyForWorker wb) paced (m + call.2.draws) (n + call.2.draws) p q)
    (hevict : call.2.evicts = true → paced)
    (hstart : paced → oneSided (startsIn cfg (cfg.treeKeyForWorker wb)) cfg (cfg.pool wa) p q call = false)
    (hrefresh : oneSided (refreshesIn cfg (cfg.treeKeyForWorker wb)) cfg (cfg.pool wa) p q call = false ∨
      ¬paced ∧ (p.trees.lookup (cfg.treeKeyForWorker wb)).any Tree.rooted = true)
    (hp : CacheAware.step cfg p call = some p') (hq : stepWithout cfg (cfg.pool wa) q call = some q') :
    Related (cfg.treeKeyForWorker wb) paced m n p' q' := by
  obtain ⟨choice, op⟩ := call
  have hother {w : Worker} (hwa : cfg.pool w = cfg.pool wa) :
      cfg.treeKeyForWorker w ≠ cfg.treeKeyForWorker wb :=
    fun hkey => hpools (hwa.symm.trans ((treeKey_eq_iff cfg).mp hkey))
  simp only [oneSided, bne_eq_false_iff_eq] at hstart hrefresh
  cases op with
  | initWorkers workers =>
    refine h.initWorkers hpools (fun hpaced => ?_) hp hq
    rw [oneSided, bne_eq_false_iff_eq]
    exact hstart hpaced
  | addWorker worker =>
    by_cases hwa : cfg.pool worker = cfg.pool wa
    -- the run without the pool skips the call, the run with it seeds a tree of another key
    · rw [stepWithout, Op.without, if_pos hwa] at hq
      cases hq
      exact (h.foreign_left (.seed (hother hwa) hp)).weaken id (Nat.le_refl m) (Nat.le_succ n)
    · rw [stepWithout, Op.without, if_neg hwa] at hq
      refine h.addWorker (fun hpaced => ?_) hp hq
      have hboth := hstart hpaced
      rw [Op.without, if_neg hwa] at hboth
      exact decide_eq_decide.mp hboth
  | removeWorker worker =>
    by_cases hwa : cfg.pool worker = cfg.pool wa
    · rw [stepWithout, Op.without, if_pos hwa] at hq
      cases hq
      exact h.foreign_left (.removeWorker (hother hwa) hp)
    · rw [stepWithout, Op.without, if_neg hwa] at hq
      by_cases hkey : cfg.treeKeyForWorker worker = cfg.treeKeyForWorker wb
      · exact h.removeWorker hkey hp hq
      · exact (h.foreign_left (.removeWorker hkey hp)).foreign_right (.removeWorker hkey hq)
  | selectWorker workers requestText =>
    by_cases hwa : ∃ w ∈ workers, cfg.pool w = cfg.pool wa
    · rw [stepWithout, Op.without, if_pos hwa] at hq
      cases hq
      obtain ⟨w, hmem, hwa⟩ := hwa
      obtain ⟨⟨p₁, i⟩, hrun, rfl⟩ := Option.map_eq_some_iff.mp hp
      have hkeys (w' : Worker) (hw' : w' ∈ workers) := hother ((hhom w' hw' w hmem).trans hwa)
      exact (h.foreign_left (.selectWorker hkeys hrun)).weaken id (Nat.le_refl m) (Nat.le_add_right n 2)
    · rw [stepWithout, Op.without, if_neg hwa] at hq
      by_cases hkey : ∃ w ∈ workers, cfg.treeKeyForWorker w = cfg.treeKeyForWorker wb
      · obtain ⟨w, hmem, hkey⟩ := hkey
        have hkeys (w' : Worker) (hw' : w' ∈ workers) :
            cfg.treeKeyForWorker w' = cfg.treeKeyForWorker wb :=
          ((treeKey_eq_iff cfg).mpr (hhom w' hw' w hmem)).trans hkey
        rw [Op.without, if_neg hwa] at hrefresh
        exact h.selectBoth hkeys hw hrefresh hp hq
      -- workers of a third pool: each run touches trees of other keys only
      · obtain ⟨⟨p₁, i⟩, hrun, rfl⟩ := Option.map_eq_some_iff.mp hp
        obtain ⟨⟨q₁, i'⟩, hrun', rfl⟩ := Option.map_eq_some_iff.mp hq
        have hkeys (w : Worker) (hw : w ∈ workers) :
            cfg.treeKeyForWorker w ≠ cfg.treeKeyForWorker wb := fun he => hkey ⟨w, hw, he⟩
        exact (h.foreign_left (.selectWorker hkeys hrun)).foreign_right (.selectWorker hkeys hrun')
  | evictCache maxSize => exact h.evictCache (hevict rfl) hp hq

/-! ### Runs -/

theorem stepWithout_total (cfg : CacheAwareConfig) (pool : Str × ModelId) (q : CacheAwarePolicy)
    (call : Choice × Op) (h : WellFormed q) :
    ∃ q', stepWithout cfg pool q call = some q' ∧ WellFormed q' := by
  rw [stepWithout]
  cases call.2.without cfg pool with
  | none => exact ⟨q, rfl, h⟩
  | some op => exact step_total cfg q (call.1, op) h

/-- The two runs, by induction on the calls. -/
theorem Related.run (hpools : cfg.pool wa ≠ cfg.pool wb) {evicts : Prop} :
    ∀ (calls : List (Choice × Op)) (drifted : Bool) (p q p' q' : CacheAwarePolicy), WellFormed p →
      Related (cfg.treeKeyForWorker wb) (evicts ∧ drifted = false) (m + CacheAware.draws calls)
        (n + CacheAware.draws calls) p q →
      (∀ call ∈ calls, call.2.Homogeneous cfg) → (∀ call ∈ calls, call.2.evicts = true → evicts) →
      Undisturbed cfg (cfg.pool wa) (cfg.treeKeyForWorker wb) drifted p q calls →
      Runs.exec (CacheAware.step cfg) p calls = some p' →
      Runs.exec (stepWithout cfg (cfg.pool wa)) q calls = some q' →
      ∃ paced, Related (cfg.treeKeyForWorker wb) paced m n p' q' := by
  intro calls
  induction calls with
  | nil =>
    intro drifted p q p' q' _ h _ _ _ hp hq
    cases hp
    cases hq
    exact ⟨_, h⟩
  | cons call calls ih =>
    intro drifted p q p' q' hw h hhom hev hund hp hq
    obtain ⟨hevict, hroot, hrest⟩ := hund
    obtain ⟨p₁, hstep, hp⟩ := Option.bind_eq_some_iff.mp hp
    obtain ⟨q₁, hstep', hq⟩ := Option.bind_eq_some_iff.mp hq
    obtain ⟨_, hstep₁, hw₁⟩ := step_total cfg p call hw
    cases hstep.symm.trans hstep₁
    have hdraws : CacheAware.draws (call :: calls) = CacheAware.draws calls + call.2.draws := by
      rw [CacheAware.draws, map_cons, sum_cons, Nat.add_comm]
      rfl
    rw [hdraws, ← Nat.add_assoc, ← Nat.add_assoc] at h
    have hstill : (evicts ∧ (drifted || drifts cfg (cfg.pool wa) (cfg.treeKeyForWorker wb) p q call) = false) →
        evicts ∧ drifted = false := fun hp => ⟨hp.1, (Bool.or_eq_false_iff.mp hp.2).1⟩
    refine ih _ p₁ q₁ p' q' hw₁ ?_ (fun c hc => hhom c (mem_cons_of_mem _ hc))
      (fun c hc => hev c (mem_cons_of_mem _ hc)) (hrest p₁ hstep q₁ hstep') hp hq
    refine (h.weaken hstill (Nat.le_refl _) (Nat.le_refl _)).step hpools (hhom call mem_cons_self) hw
      (fun hcall => ⟨hev call mem_cons_self hcall, ?_⟩) (fun hpaced => ?_) ?_ hstep hstep'
    · rw [hevict hcall, Bool.false_or]
      obtain ⟨choice, op⟩ := call
      cases op with
      | evictCache maxSize => rfl
      | initWorkers | addWorker | removeWorker | selectWorker => cases hcall
    · exact (Bool.or_eq_false_iff.mp (Bool.or_eq_false_iff.mp hpaced.2).2).1
    · cases hone : oneSided (refreshesIn cfg (cfg.treeKeyForWorker wb)) cfg (cfg.pool wa) p q call with
      | false => exact .inl rfl
      | true =>
        refine .inr ⟨fun hpaced => ?_, hroot hone⟩
        rw [drifts, hone, Bool.or_true, Bool.or_true] at hpaced
        exact absurd hpaced.2 (by decide)

/-! ### The worker that is returned -/

/-- What a match answers the request with. -/
def answer (cfg : CacheAwareConfig) (choice : Choice) (workers : List Worker)
    (healthyIndices : List (Fin workers.length)) (result : Tree.PrefixMatchResult) :
    Option (Fin workers.length) :=
  (if cfg.isCacheHit result.matchedCharCount result.inputCharCount = true then
      (position workers result.tenant).filter fun idx => (workers.get idx).isHealthy
    else minLoadIndex choice.rng workers healthyIndices).or healthyIndices.head?

theorem selectWorkerByPrefix_index {workers : List Worker} {text : Str} {key : Str} {tr : Tree}
    {healthyIndices : List (Fin workers.length)} {i : Option (Fin workers.length)}
    (h : p.selectWorkerByPrefix cfg choice workers text healthyIndices key tr = some (p', i)) :
    ∃ t node result, tr.settle choice.matching.toIterOrder text = some (t, node, result) ∧
      i = answer cfg choice workers healthyIndices result := by
  rw [CacheAwarePolicy.selectWorkerByPrefix, Tree.prefixMatchWithCounts_eq] at h
  obtain ⟨⟨t, e, r⟩, hmatch, h⟩ := Option.bind_eq_some_iff.mp h
  obtain ⟨⟨u, node, result⟩, hset, hres⟩ := Option.map_eq_some_iff.mp hmatch
  obtain ⟨-, hres⟩ := Prod.mk.inj hres
  cases hres
  refine ⟨u, node, result, hset, ?_⟩
  dsimp only at h
  rw [answer]
  split at h
  · next idx hidx =>
    obtain ⟨p₁, -, h⟩ := Option.map_eq_some_iff.mp h
    obtain ⟨-, rfl⟩ := Prod.mk.inj h
    rw [hidx, Option.some_or]
  · next hidx =>
    rw [hidx, Option.none_or]
    split at h
    · obtain ⟨p₁, -, h⟩ := Option.map_eq_some_iff.mp h
      exact (Prod.mk.inj h).2.symm
    · exact (Prod.mk.inj (Option.some.inj h)).2.symm

theorem selectWorkerMinLoad_index {workers : List Worker} {requestText : Option Str} {key : Str}
    {healthyIndices : List (Fin workers.length)} {i : Option (Fin workers.length)}
    (h : p.selectWorkerMinLoad choice workers requestText healthyIndices key = some (p', i)) :
    i = minLoadIndex choice.rng workers healthyIndices := by
  rw [CacheAwarePolicy.selectWorkerMinLoad] at h
  split at h
  · next hmin => exact (Prod.mk.inj (Option.some.inj h)).2.symm.trans hmin.symm
  · next hmin =>
    split at h
    · obtain ⟨p₁, -, h⟩ := Option.map_eq_some_iff.mp h
      exact (Prod.mk.inj h).2.symm.trans hmin.symm
    · exact (Prod.mk.inj (Option.some.inj h)).2.symm.trans hmin.symm

/-- **Trees that are the same up to timestamps answer the same.** -/
theorem selectWorker_index_eq {b : Str} {workers : List Worker} {requestText : Option Str}
    {i i' : Option (Fin workers.length)} (hkey : ∀ w ∈ workers, cfg.treeKeyForWorker w = b)
    (h : Option.Rel Alike (p.trees.lookup b) (q.trees.lookup b))
    (hp : p.selectWorker cfg choice workers requestText = some (p', i))
    (hq : q.selectWorker cfg choice workers requestText = some (q', i')) : i = i' := by
  rw [CacheAwarePolicy.selectWorker] at hp hq
  cases hhealthy : getHealthyWorkerIndices workers with
  | nil =>
    rw [hhealthy] at hp hq
    exact (Prod.mk.inj (Option.some.inj hp)).2.symm.trans (Prod.mk.inj (Option.some.inj hq)).2
  | cons pivot rest =>
    rw [hhealthy] at hp hq
    dsimp only at hp hq
    rw [hkey _ (workers.get_mem pivot)] at hp hq
    split at hp
    · next himb =>
      rw [if_pos himb] at hq
      rw [selectWorkerMinLoad_index hp, selectWorkerMinLoad_index hq]
    · next himb =>
      rw [if_neg himb] at hq
      obtain ⟨hl, hl'⟩ | ⟨tr, tr', hl, hl', halike⟩ := rel_cases h
      · rw [hl] at hp
        rw [hl'] at hq
        exact (Prod.mk.inj (Option.some.inj hp)).2.symm.trans (Prod.mk.inj (Option.some.inj hq)).2
      · rw [hl] at hp
        rw [hl'] at hq
        obtain ⟨t, node, result, hset, rfl⟩ := selectWorkerByPrefix_index hp
        obtain ⟨t', node', result', hset', rfl⟩ := selectWorkerByPrefix_index hq
        obtain ⟨-, -, rfl⟩ := halike.settle hset hset'
        rfl

end

/-! ### Pools apart -/

/-- The workers that a request may get, by what is left open. -/
def mayReturn (cfg : CacheAwareConfig) (p : CacheAwarePolicy) (workers : List Worker)
    (requestText : Option Str) : Set (Option (Fin workers.length)) :=
  { i | ∃ choice p', p.selectWorker cfg choice workers requestText = some (p', i) }

theorem mayReturn_subset {cfg : CacheAwareConfig} {b : Str} {p q : CacheAwarePolicy} {workers : List Worker}
    {requestText : Option Str} (hq : WellFormed q) (hkey : ∀ w ∈ workers, cfg.treeKeyForWorker w = b)
    (h : Option.Rel Alike (p.trees.lookup b) (q.trees.lookup b)) :
    mayReturn cfg p workers requestText ⊆ mayReturn cfg q workers requestText := by
  rintro i ⟨choice, p', hp⟩
  obtain ⟨⟨q', i'⟩, hrun, -⟩ := hq.selectWorker cfg choice workers requestText
  obtain rfl := selectWorker_index_eq hkey h hp hrun
  exact ⟨choice, q', hrun⟩

/-- **The pools are apart** in a run whose evictions are of trees in step, with an epoch for each call if it
has any. -/
theorem pools_apart (cfg : CacheAwareConfig) (wa wb : Worker) (hpools : cfg.pool wa ≠ cfg.pool wb)
    (epoch : Epoch) (calls : List (Choice × Op)) (hhom : ∀ call ∈ calls, call.2.Homogeneous cfg)
    (hcounter : (∃ call ∈ calls, call.2.evicts = true) → epoch.toNat + draws calls < 2 ^ 64)
    (hund : Undisturbed cfg (cfg.pool wa) (cfg.treeKeyForWorker wb) false (.new epoch) (.new epoch) calls) :
    ∃ p q, Runs.exec (step cfg) (.new epoch) calls = some p ∧
      Runs.exec (step cfg) (.new epoch) (without cfg (cfg.pool wa) calls) = some q ∧
      (p.trees.lookup (cfg.treeKeyForWorker wb)).map Tree.forget =
        (q.trees.lookup (cfg.treeKeyForWorker wb)).map Tree.forget ∧
      ∀ (workers : List Worker) (requestText : Option Str), (∀ w ∈ workers, cfg.pool w = cfg.pool wb) →
        mayReturn cfg p workers requestText = mayReturn cfg q workers requestText := by
  obtain ⟨p, hp, hwp⟩ := Runs.exec_total (step_total cfg) calls _ (wellFormed_new epoch)
  obtain ⟨q, hq, hwq⟩ := Runs.exec_total (stepWithout_total cfg (cfg.pool wa)) calls _ (wellFormed_new epoch)
  have hstart : Related (cfg.treeKeyForWorker wb)
      ((∃ call ∈ calls, call.2.evicts = true) ∧ false = false) (0 + draws calls) (0 + draws calls)
      (.new epoch) (.new epoch) := by
    rw [Nat.zero_add]
    exact ⟨.none, fun he => hcounter he.1, fun he => hcounter he.1, fun _ hsome => nomatch hsome⟩
  obtain ⟨paced, hend⟩ := Related.run hpools calls false _ _ p q (wellFormed_new epoch) hstart hhom
    (fun call hmem hev => ⟨call, hmem, hev⟩) hund hp hq
  have halike : Option.Rel Alike (p.trees.lookup (cfg.treeKeyForWorker wb))
      (q.trees.lookup (cfg.treeKeyForWorker wb)) := rel_mono (fun _ _ hkin => hkin.1) hend.trees
  refine ⟨p, q, hp, (exec_without cfg _ calls _).trans hq, ?_, fun workers requestText hworkers => ?_⟩
  · obtain ⟨hl, hl'⟩ | ⟨tr, tr', hl, hl', hforget⟩ := rel_cases halike
    · rw [hl, hl']
    · rw [hl, hl', Option.map_some, Option.map_some]
      exact congrArg some hforget
  · have hkey (w : Worker) (hw : w ∈ workers) : cfg.treeKeyForWorker w = cfg.treeKeyForWorker wb :=
      (treeKey_eq_iff cfg).mpr (hworkers w hw)
    have halike' : Option.Rel Alike (q.trees.lookup (cfg.treeKeyForWorker wb))
        (p.trees.lookup (cfg.treeKeyForWorker wb)) := by
      obtain ⟨hl, hl'⟩ | ⟨tr, tr', hl, hl', hforget⟩ := rel_cases halike
      · rw [hl, hl']
        exact .none
      · rw [hl, hl']
        exact .some hforget.symm
    exact Set.Subset.antisymm (mayReturn_subset hwq hkey halike) (mayReturn_subset hwp hkey halike')

/-! A run of two pools, of one model each. -/

/-- Half of a request is a hit. -/
def halfHit : CacheAwareConfig where
  unknownModelId := "unknown".toList
  balanceAbsThreshold := 32
  relImbalanced _ _ := false
  isCacheHit matched given := decide (given < 2 * matched)

/-- Every map in the order of insertion, and the first candidate. -/
def Choice.first : Choice where
  matching := .inserted
  removal := .inserted
  eviction _ := .inserted
  groups := id
  groups_perm _ := .refl _
  rng := ⟨fun _ => 0, fun _ h => h⟩

def regular (url : String) : Worker := ⟨url.toList, "m".toList, .regular, true, true, 0⟩

def decoding (url : String) : Worker := ⟨url.toList, "m".toList, .decode, true, true, 0⟩

/-- Requests to two regular workers, and decode workers that are added in between. -/
def mixedCalls (added : List Worker) (texts : List (Worker × String)) (last : Worker × String) :
    List (Choice × Op) :=
  (.first, .initWorkers [regular "r1", regular "r2"]) ::
    texts.map (fun e => (Choice.first, .selectWorker [e.1] (some e.2.toList))) ++
    [(.first, .initWorkers added), (.first, .selectWorker [last.1] (some last.2.toList)),
      (.first, .evictCache 2)]

theorem pools_apart_mixed :
    ∃ p q, Runs.exec (step halfHit) (.new 0)
        (mixedCalls [decoding "d1"] [(regular "r1", "ab")] (regular "r2", "xyz")) = some p ∧
      Runs.exec (step halfHit) (.new 0) (without halfHit (halfHit.pool (decoding "d1"))
        (mixedCalls [decoding "d1"] [(regular "r1", "ab")] (regular "r2", "xyz"))) = some q ∧
      (p.trees.lookup (halfHit.treeKeyForWorker (regular "r1"))).map Tree.forget =
        (q.trees.lookup (halfHit.treeKeyForWorker (regular "r1"))).map Tree.forget ∧
      ∀ (workers : List Worker) (requestText : Option Str),
        (∀ w ∈ workers, halfHit.pool w = halfHit.pool (regular "r1")) →
        mayReturn halfHit p workers requestText = mayReturn halfHit q workers requestText :=
  pools_apart halfHit (decoding "d1") (regular "r1") (by decide) 0 _ (by decide) (by decide +kernel)
    (by decide +kernel)

/-- Two decode workers are added before the last request, which then refreshes what it finds. -/
def refreshingCalls : List (Choice × Op) :=
  mixedCalls [decoding "d1", decoding "d2"] [(regular "r1", "ab"), (regular "r1", "xy")] (regular "r2", "abcd")

theorem refreshingCalls_returns : (Runs.exec (step halfHit) (.new 0) refreshingCalls).isSome = true := by
  decide +kernel

theorem refreshingCalls_without_returns : (Runs.exec (step halfHit) (.new 0)
    (without halfHit (halfHit.pool (decoding "d1")) refreshingCalls)).isSome = true := by
  decide +kernel

/-- **An eviction sees the workers of another pool.**  The match for `"abcd"` refreshes `"ab"` in the run with
them, and `"xy"` is evicted; without them it is `"ab"`. -/
theorem eviction_sees_other_pool :
    (∀ call ∈ refreshingCalls, call.2.Homogeneous halfHit) ∧
    halfHit.pool (decoding "d1") ≠ halfHit.pool (regular "r1") ∧
    ∃ p q, Runs.exec (step halfHit) (.new 0) refreshingCalls = some p ∧
      Runs.exec (step halfHit) (.new 0) (without halfHit (halfHit.pool (decoding "d1")) refreshingCalls) =
        some q ∧
      (p.trees.lookup (halfHit.treeKeyForWorker (regular "r1"))).map Tree.forget ≠
        (q.trees.lookup (halfHit.treeKeyForWorker (regular "r1"))).map Tree.forget ∧
      ((p.selectWorker halfHit .first [regular "r1", regular "r2"] (some "ab".toList)).map fun r => r.2) =
        some (some 0) ∧
      ((q.selectWorker halfHit .first [regular "r1", regular "r2"] (some "ab".toList)).map fun r => r.2) =
        some (some 1) := by
  refine ⟨by decide, by decide, _, _, (Option.some_get refreshingCalls_returns).symm,
    (Option.some_get refreshingCalls_without_returns).symm, ?_, ?_, ?_⟩
  · decide +kernel
  · decide +kernel
  · decide +kernel

end QwenStack.CacheAware

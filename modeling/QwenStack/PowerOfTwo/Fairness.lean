import QwenStack.PowerOfTwo.Definitions

/-!
# Power of two choices — which loads a choice compares

Where the load of one of two workers is not known, a choice is meant to compare the numbers of their
requests.  The policy takes a load as unknown when it has none.  After a round of the monitor it has one
for every worker that was asked, and that of a worker whose probe failed is `-1`, less than any other:
the choice compares what it should exactly when no probe of the two failed, or one of the two was not
asked (`fair_choice_iff`).
-/

namespace QwenStack.PowerOfTwo
open Assoc List
open Manual (Worker Url Rng getHealthyWorkerIndices)

/-! ### The outcome of a round -/

/-- The tokens of the worker, if its probe succeeded. -/
def Probe.totalTokens (probe : Probe) : Option Int :=
  if probe.connectionMode = .http then probe.response.totalTokens else none

theorem workerLoadInfo_load (probe : Probe) :
    (workerLoadInfo probe).load = probe.totalTokens.getD (-1) := by
  rw [workerLoadInfo, Probe.totalTokens]
  split
  · rfl
  · rfl

/-- The probes of a round, by worker. -/
def outcomes (probes : List Probe) : List (Url × Option Int) :=
  probes.foldl (fun m probe => put probe.url probe.totalTokens m) []

/-- The tokens of a worker, if it was asked and its probe succeeded. -/
def tokens (probes : List Probe) (worker : Worker) : Option Int :=
  ((outcomes probes).lookup worker.url).join

/-- The worker was asked. -/
def Asked (probes : List Probe) (worker : Worker) : Prop := worker.url ∈ keys (outcomes probes)

instance (probes : List Probe) (worker : Worker) : Decidable (Asked probes worker) :=
  inferInstanceAs (Decidable (_ ∈ _))

theorem asked_of_tokens {probes : List Probe} {worker : Worker} {t : Int}
    (h : tokens probes worker = some t) : Asked probes worker := by
  rw [tokens, Option.join_eq_some_iff] at h
  exact mem_keys_iff.mpr ⟨_, h⟩

/-- The loads that the monitor collects are the outcomes, with `-1` for a failure. -/
theorem collected_loads (probes : List Probe) :
    (getAllWorkerLoads probes).loads.foldl (fun loads info => put info.worker info.load loads) [] =
      mapValues (Option.getD · (-1)) (outcomes probes) := by
  have hfold : ∀ m : List (Url × Option Int),
      (probes.map workerLoadInfo).foldl (fun loads info => put info.worker info.load loads)
          (mapValues (Option.getD · (-1)) m) =
        mapValues (Option.getD · (-1))
          (probes.foldl (fun m probe => put probe.url probe.totalTokens m) m) := by
    induction probes with
    | nil => exact fun _ => rfl
    | cons probe probes ih =>
      intro m
      rw [map_cons, foldl_cons, foldl_cons, ← ih, workerLoadInfo_load]
      rw [← put_mapValues]
      rfl
  exact hfold []

theorem outcomes_ne_nil {probes : List Probe} (h : probes ≠ []) : outcomes probes ≠ [] := by
  obtain ⟨init, probe, rfl⟩ := eq_nil_or_concat' probes |>.resolve_left h
  rw [outcomes, foldl_append]
  exact put_ne_nil _ _ _

/-- What a policy of a round that asks any worker has cached. -/
theorem cachedLoads_of_mem_monitorRound {probes : List Probe} {policies : List PowerOfTwoPolicy}
    {p : PowerOfTwoPolicy} (hprobes : probes ≠ []) (hp : p ∈ monitorRound probes policies) :
    p.cachedLoads = mapValues (Option.getD · (-1)) (outcomes probes) := by
  rw [monitorRound] at hp
  split at hp
  · next hnone =>
    rw [hnone] at hp
    cases hp
  · rw [if_neg, mem_map] at hp
    · obtain ⟨p', -, rfl⟩ := hp
      exact collected_loads probes
    · rw [collected_loads]
      intro hnil
      exact outcomes_ne_nil hprobes (List.map_eq_nil_iff.mp hnil)

/-! ### The two workers of a choice -/

/-- `selectWorker` draws these two workers. -/
structure Drawn (rng : Rng) (workers : List Worker) (i j : Fin workers.length) : Prop where
  two_le : 2 ≤ (getHealthyWorkerIndices workers).length
  draw : drawTwo rng (getHealthyWorkerIndices workers) = some (i, j)

theorem drawTwo_eq_some_iff {K : Type} {rng : Rng} {l : List K} {a b : K} :
    drawTwo rng l = some (a, b) ↔ l[rng.index l.length]? = some a ∧
      l[(rng.index l.length + 1 + rng.index (l.length - 1)) % l.length]? = some b := by
  rw [drawTwo]
  constructor
  · intro h
    obtain ⟨i, hi, h⟩ := Option.bind_eq_some_iff.mp h
    obtain ⟨j, hj, h⟩ := Option.bind_eq_some_iff.mp h
    cases h
    exact ⟨hi, hj⟩
  · rintro ⟨hi, hj⟩
    simp only [hi, hj]
    rfl

namespace Drawn
variable {rng : Rng} {workers : List Worker} {i j : Fin workers.length}

/-- Two positions among the healthy workers, which differ. -/
theorem positions (h : Drawn rng workers i j) :
    ∃ m n : Nat, m ≠ n ∧ (getHealthyWorkerIndices workers)[m]? = some i ∧
      (getHealthyWorkerIndices workers)[n]? = some j := by
  have hlen := h.two_le
  obtain ⟨hi, hj⟩ := drawTwo_eq_some_iff.mp h.draw
  refine ⟨_, _, ?_, hi, hj⟩
  have h₁ := rng.index_lt (getHealthyWorkerIndices workers).length (by omega)
  have h₂ := rng.index_lt ((getHealthyWorkerIndices workers).length - 1) (by omega)
  generalize (getHealthyWorkerIndices workers).length = n at h₁ h₂ hlen
  -- the second draw is less than a whole turn further
  rcases Nat.lt_or_ge (rng.index n + 1 + rng.index (n - 1)) n with hlt | hge
  · rw [Nat.mod_eq_of_lt hlt]
    omega
  · rw [Nat.mod_eq_sub_mod hge, Nat.mod_eq_of_lt (by omega)]
    omega

theorem ne (h : Drawn rng workers i j) : i ≠ j := by
  obtain ⟨m, n, hne, hi, hj⟩ := h.positions
  obtain ⟨hm, rfl⟩ := List.getElem?_eq_some_iff.mp hi
  obtain ⟨hn, rfl⟩ := List.getElem?_eq_some_iff.mp hj
  intro heq
  exact hne ((((nodup_finRange _).filter _).getElem_inj_iff).mp heq)

theorem selectWorker_eq (h : Drawn rng workers i j) (p : PowerOfTwoPolicy) :
    p.selectWorker rng workers = if (p.comparedLoads (workers.get i) (workers.get j)).1 ≤
        (p.comparedLoads (workers.get i) (workers.get j)).2 then some i else some j := by
  have hnil : getHealthyWorkerIndices workers ≠ [] :=
    ne_nil_of_length_pos (Nat.lt_of_lt_of_le Nat.two_pos h.two_le)
  have hone : (getHealthyWorkerIndices workers).length ≠ 1 := Nat.ne_of_gt h.two_le
  rw [PowerOfTwoPolicy.selectWorker, if_neg hnil, if_neg hone, h.draw, Option.map_some, apply_ite some]

end Drawn

/-! ### Fair choices -/

/-- The loads to compare: the tokens if both are known, else the numbers of requests. -/
def fairLoads (probes : List Probe) (worker1 worker2 : Worker) : Int × Int :=
  match tokens probes worker1, tokens probes worker2 with
  | some t1, some t2 => (t1, t2)
  | _, _ => (worker1.load, worker2.load)

/-- The choice compares these, and a worker whose tokens are not known does not win over one with fewer
requests. -/
structure FairChoice (probes : List Probe) (p : PowerOfTwoPolicy) (rng : Rng) (workers : List Worker)
    (i j : Fin workers.length) : Prop where
  compared : p.comparedLoads (workers.get i) (workers.get j) =
    fairLoads probes (workers.get i) (workers.get j)
  left : tokens probes (workers.get i) = none → (workers.get j).load < (workers.get i).load →
    p.selectWorker rng workers ≠ some i
  right : tokens probes (workers.get j) = none → (workers.get i).load < (workers.get j).load →
    p.selectWorker rng workers ≠ some j

/-- Both tokens are known, or one of the workers was not asked; the numbers of requests fit. -/
def Comparable (probes : List Probe) (worker1 worker2 : Worker) : Prop :=
  tokens probes worker1 ≠ none ∧ tokens probes worker2 ≠ none ∨
    (¬ Asked probes worker1 ∨ ¬ Asked probes worker2) ∧ worker1.load < 2 ^ 63 ∧ worker2.load < 2 ^ 63

theorem asIsize_eq_iff (n : Nat) : asIsize n = n ↔ n < 2 ^ 63 := by
  unfold asIsize
  split
  · omega
  · omega

section
variable {probes : List Probe} {p : PowerOfTwoPolicy}

theorem comparedLoads_of_not_asked
    (hp : p.cachedLoads = mapValues (Option.getD · (-1)) (outcomes probes)) {worker1 worker2 : Worker}
    (h : ¬ Asked probes worker1 ∨ ¬ Asked probes worker2) :
    p.comparedLoads worker1 worker2 = (asIsize worker1.load, asIsize worker2.load) := by
  rw [PowerOfTwoPolicy.comparedLoads, hp, lookup_mapValues, lookup_mapValues]
  cases h₁ : (outcomes probes).lookup worker1.url with
  | none => rfl
  | some o₁ =>
    cases h₂ : (outcomes probes).lookup worker2.url with
    | none => rfl
    | some o₂ =>
      have ha₁ : Asked probes worker1 := mem_keys_iff.mpr ⟨o₁, h₁⟩
      have ha₂ : Asked probes worker2 := mem_keys_iff.mpr ⟨o₂, h₂⟩
      exact absurd h (not_or.mpr ⟨not_not_intro ha₁, not_not_intro ha₂⟩)

theorem comparedLoads_of_asked
    (hp : p.cachedLoads = mapValues (Option.getD · (-1)) (outcomes probes)) {worker1 worker2 : Worker}
    (h₁ : Asked probes worker1) (h₂ : Asked probes worker2) :
    p.comparedLoads worker1 worker2 =
      ((tokens probes worker1).getD (-1), (tokens probes worker2).getD (-1)) := by
  obtain ⟨o₁, h₁⟩ := mem_keys_iff.mp h₁
  obtain ⟨o₂, h₂⟩ := mem_keys_iff.mp h₂
  rw [PowerOfTwoPolicy.comparedLoads, hp, lookup_mapValues, lookup_mapValues, tokens, tokens, h₁, h₂]
  rfl

theorem fairLoads_of_unknown {worker1 worker2 : Worker}
    (h : tokens probes worker1 = none ∨ tokens probes worker2 = none) :
    fairLoads probes worker1 worker2 = ((worker1.load : Int), (worker2.load : Int)) := by
  rw [fairLoads]
  split
  · next h₁ h₂ =>
    rw [h₁, h₂] at h
    rcases h with h | h
    · cases h
    · cases h
  · rfl

theorem comparedLoads_eq_fairLoads_iff
    (hp : p.cachedLoads = mapValues (Option.getD · (-1)) (outcomes probes)) (worker1 worker2 : Worker) :
    p.comparedLoads worker1 worker2 = fairLoads probes worker1 worker2 ↔
      Comparable probes worker1 worker2 := by
  rw [Comparable, ← asIsize_eq_iff, ← asIsize_eq_iff]
  by_cases hasked : Asked probes worker1 ∧ Asked probes worker2
  · rw [comparedLoads_of_asked hp hasked.1 hasked.2]
    cases h₁ : tokens probes worker1 with
    | none =>
      rw [fairLoads_of_unknown (.inl h₁), Prod.mk.injEq]
      constructor
      · rintro ⟨hload, -⟩
        exact absurd hload.symm (Int.ne_of_gt (Int.lt_of_lt_of_le (by decide) (Int.natCast_nonneg _)))
      · rintro (⟨hknown, -⟩ | ⟨hnot, -⟩)
        · exact absurd rfl hknown
        · exact absurd hasked (not_and_or.mpr hnot)
    | some t₁ =>
      cases h₂ : tokens probes worker2 with
      | none =>
        rw [fairLoads_of_unknown (.inr h₂), Prod.mk.injEq]
        constructor
        · rintro ⟨-, hload⟩
          exact absurd hload.symm (Int.ne_of_gt (Int.lt_of_lt_of_le (by decide) (Int.natCast_nonneg _)))
        · rintro (⟨-, hknown⟩ | ⟨hnot, -⟩)
          · exact absurd rfl hknown
          · exact absurd hasked (not_and_or.mpr hnot)
      | some t₂ =>
        rw [fairLoads, h₁, h₂]
        exact ⟨fun _ => .inl ⟨nofun, nofun⟩, fun _ => rfl⟩
  · have hnot := not_and_or.mp hasked
    have hunknown : tokens probes worker1 = none ∨ tokens probes worker2 = none :=
      hnot.imp (fun h => Option.eq_none_iff_forall_ne_some.mpr fun _ ht => h (asked_of_tokens ht))
        (fun h => Option.eq_none_iff_forall_ne_some.mpr fun _ ht => h (asked_of_tokens ht))
    rw [comparedLoads_of_not_asked hp hnot, fairLoads_of_unknown hunknown, Prod.mk.injEq]
    constructor
    · exact fun h => .inr ⟨hnot, h⟩
    · rintro (⟨h₁, h₂⟩ | ⟨-, h⟩)
      · exact absurd hunknown (not_or.mpr ⟨h₁, h₂⟩)
      · exact h

/-- **A choice after a round is fair exactly when the loads of the two workers can be compared.** -/
theorem fair_choice_iff {policies : List PowerOfTwoPolicy} {rng : Rng} {workers : List Worker}
    {i j : Fin workers.length} (hprobes : probes ≠ []) (hp : p ∈ monitorRound probes policies)
    (hdrawn : Drawn rng workers i j) :
    FairChoice probes p rng workers i j ↔ Comparable probes (workers.get i) (workers.get j) := by
  rw [← comparedLoads_eq_fairLoads_iff (cachedLoads_of_mem_monitorRound hprobes hp)]
  constructor
  · exact FairChoice.compared
  · intro hfair
    refine ⟨hfair, fun hunknown hlt hselected => ?_, fun hunknown hlt hselected => ?_⟩
    · rw [hdrawn.selectWorker_eq, hfair, fairLoads_of_unknown (.inl hunknown),
        if_neg (Int.not_le.mpr (Int.ofNat_lt.mpr hlt))] at hselected
      exact hdrawn.ne (Option.some.inj hselected).symm
    · rw [hdrawn.selectWorker_eq, hfair, fairLoads_of_unknown (.inr hunknown),
        if_pos (Int.ofNat_le.mpr (Nat.le_of_lt hlt))] at hselected
      exact hdrawn.ne (Option.some.inj hselected)

end

/-! ### Two rounds -/

/-- Draws that are always the first. -/
def firstDraws : Rng := ⟨fun _ => 0, fun _ h => h⟩

/-- The first of two workers has ten requests, the second none. -/
def unevenWorkers : List Worker :=
  [⟨"w1".toList, true, true, 10, 0⟩, ⟨"w2".toList, true, true, 0, 0⟩]

def loaded : Fin unevenWorkers.length := ⟨0, by decide⟩

def idle : Fin unevenWorkers.length := ⟨1, by decide⟩

/-- A body that tells the load. -/
def loadBody (totalTokens : Int) : Value :=
  .object [("aggregate".toList, .object [("total_tokens".toList, .integer totalTokens)])]

def probed (url : Url) (response : ProbeResponse) : Probe := ⟨url, .regular, .http, response⟩

/-- Both workers answer. -/
def bothAnswer : List Probe :=
  [probed "w1".toList (.response true (some (loadBody 200))),
    probed "w2".toList (.response true (some (loadBody 100)))]

/-- The first worker does not answer. -/
def firstFails : List Probe :=
  [probed "w1".toList .error, probed "w2".toList (.response true (some (loadBody 100)))]

theorem drawn_unevenWorkers : Drawn firstDraws unevenWorkers loaded idle := ⟨by decide, by decide⟩

theorem bothAnswer_fair : FairChoice bothAnswer ⟨[("w1".toList, 200), ("w2".toList, 100)]⟩ firstDraws
    unevenWorkers loaded idle :=
  (@fair_choice_iff bothAnswer _ [{}] _ _ _ _ (cons_ne_nil _ _) (by decide)
    drawn_unevenWorkers).mpr (.inl ⟨by decide, by decide⟩)

/-- The first worker is taken for its load of `-1`. -/
theorem failed_probe_attracts :
    Drawn firstDraws unevenWorkers loaded idle ∧
    ⟨[("w1".toList, -1), ("w2".toList, 100)]⟩ ∈ monitorRound firstFails [{}] ∧
    tokens firstFails (unevenWorkers.get loaded) = none ∧
    (unevenWorkers.get idle).load < (unevenWorkers.get loaded).load ∧
    PowerOfTwoPolicy.selectWorker ⟨[("w1".toList, -1), ("w2".toList, 100)]⟩ firstDraws unevenWorkers =
      some loaded := by
  refine ⟨drawn_unevenWorkers, ?_, ?_, ?_, ?_⟩
  all_goals decide

end QwenStack.PowerOfTwo

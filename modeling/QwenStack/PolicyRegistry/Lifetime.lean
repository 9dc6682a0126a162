import QwenStack.PolicyRegistry.Definitions

/-!
# Policy registry — a policy lives as long as its model has workers

A removal that counts a model down to zero removes the count and then the policy, in two further
operations.  Nothing keeps an addition out in between: one that counts before the count is removed
loses its count, and one that finds the policy before it is removed loses its policy.  And two first
additions that both find no policy both store one.  `Undisturbed` excludes these three and nothing
else; `run_maintained` says that runs without them keep every model with workers counted and served,
and that the count and the policy are the right ones whenever no call is running.

The invariant is about one model (`Settled`), in terms of the numbers of its calls at each stage.
-/

namespace QwenStack.PolicyRegistry
open Assoc Threads

variable {P : Type}

/-! ### One model -/

/-- A model in numbers: its count, its policy, the first choice, and how many of its calls are
where. -/
structure View (P : Type) where
  count : Nat
  policy : Option P
  first : Option P
  /-- Additions about to look for a policy. -/
  looking : Nat
  /-- Additions about to store one. -/
  storing : Nat
  /-- Additions that have returned. -/
  added : Nat
  /-- Removals that were called. -/
  removals : Nat
  /-- Removals about to count down. -/
  leaving : Nat
  /-- Removals about to remove the count. -/
  uncounting : Nat
  /-- Removals about to remove the policy. -/
  cleaning : Nat

/-- What can happen to a model without disturbance. -/
inductive View.Step (v : View P) : View P → Prop where
  | remove (h : v.removals < v.added) :
      Step v { v with removals := v.removals + 1, leaving := v.leaving + 1 }
  | count (p : P) (h : v.uncounting = 0) :
      Step v { v with
        count := v.count + 1
        looking := v.looking + 1
        first := if v.count = 0 then some p else v.first }
  | found (p : P) (h : 0 < v.looking) (hp : v.policy = some p) (hc : v.cleaning = 0) :
      Step v { v with looking := v.looking - 1, added := v.added + 1 }
  | missed (h : 0 < v.looking) (hp : v.policy = none) :
      Step v { v with looking := v.looking - 1, storing := v.storing + 1 }
  | store (p : P) (h : 0 < v.storing) (hp : v.first = some p) :
      Step v { v with storing := v.storing - 1, added := v.added + 1, policy := some p }
  | leave (h : 0 < v.leaving) (hc : v.count ≠ 1) :
      Step v { v with count := v.count - 1, leaving := v.leaving - 1 }
  | last (h : 0 < v.leaving) (hc : v.count = 1) :
      Step v { v with count := 0, leaving := v.leaving - 1, uncounting := v.uncounting + 1 }
  | uncount (h : 0 < v.uncounting) :
      Step v { v with count := 0, uncounting := v.uncounting - 1, cleaning := v.cleaning + 1 }
  | clean (h : 0 < v.cleaning) :
      Step v { v with policy := none, cleaning := v.cleaning - 1 }

/-- What holds for a model. -/
structure View.Good (v : View P) : Prop where
  /-- The count is that of the additions that have counted and not been counted out. -/
  total : v.count + v.removals = v.looking + v.storing + v.added + v.leaving
  bounded : v.removals ≤ v.added
  /-- One cleanup at a time. -/
  single : v.uncounting + v.cleaning ≤ 1
  /-- Nobody counts before the count is removed. -/
  zero : 0 < v.uncounting → v.count = 0
  /-- Nobody has the policy, or is about to store one, while it is about to be removed. -/
  unused : 0 < v.cleaning → v.storing = 0 ∧ v.added + v.leaving = v.removals
  /-- A cleanup has a policy to remove. -/
  present : 0 < v.uncounting + v.cleaning → v.policy ≠ none
  /-- A worker that was added, and not yet counted out, has a policy. -/
  served : v.removals < v.added + v.leaving → v.policy ≠ none
  /-- The policy is the first choice, unless it is about to be removed. -/
  current : v.cleaning = 0 → 0 < v.count → ∀ p, v.policy = some p → v.first = some p
  /-- A model without workers has no policy. -/
  absent : v.count = 0 → v.uncounting = 0 → v.cleaning = 0 → v.policy = none

/-- **What can happen to a model keeps it good.** -/
theorem View.Step.good {v v' : View P} (hs : v.Step v') (h : v.Good) : v'.Good := by
  obtain ⟨total, bounded, single, zero, unused, present, served, current, absent⟩ := h
  cases hs with
  | remove h =>
    exact ⟨by simp only; omega, by simp only; omega, single, zero,
      fun hc => ⟨(unused hc).1, by have := unused hc; simp only; omega⟩, present,
      fun hl => served (by simp only at hl; omega), current, absent⟩
  | count p h =>
    refine ⟨by simp only; omega, bounded, single, fun hu => by simp only at hu; omega, unused,
      present, served, ?_, fun hc => by simp at hc⟩
    -- counting up from zero, there is no policy, or it is about to go
    intro hclean _ q hq
    simp only at hclean hq ⊢
    split
    · next hc => rw [absent hc h hclean] at hq; cases hq
    · next hc => exact current hclean (Nat.pos_iff_ne_zero.mpr hc) q hq
  | found p h hp hc =>
    refine ⟨by simp only; omega, by simp only; omega, single, zero,
      fun h' => by simp only at h'; omega, present, fun _ => by rw [hp]; nofun, current, absent⟩
  | missed h hp =>
    have hnone : v.uncounting + v.cleaning = 0 := by
      by_contra hne
      exact present (Nat.pos_iff_ne_zero.mpr hne) hp
    refine ⟨by simp only; omega, bounded, single, zero, fun h' => by simp only at h'; omega, present,
      served, current, absent⟩
  | store p h hp =>
    refine ⟨by simp only; omega, by simp only; omega, single, zero, ?_, fun _ => nofun, fun _ => nofun,
      ?_, ?_⟩
    · intro hc
      have := (unused hc).1
      omega
    · intro _ _ q hq
      rw [hp, ← hq]
    · intro hc
      simp only at hc
      omega
  | leave h hc =>
    refine ⟨by simp only; omega, bounded, single, fun hu => ?_, fun hcl => ?_, present, fun hl => ?_,
      fun hcl hpos => ?_, fun h0 => ?_⟩
    · have := zero hu
      simp only
      omega
    · have := unused hcl
      simp only
      omega
    · simp only at hl
      exact served (by omega)
    · simp only at hpos
      exact current hcl (by omega)
    · simp only at h0
      omega
  | last h hc =>
    have hpol : v.policy ≠ none := served (by omega)
    have hcl : v.cleaning = 0 := by
      by_contra hne
      have := unused (Nat.pos_iff_ne_zero.mpr hne)
      omega
    refine ⟨by simp only; omega, bounded, ?_, fun _ => rfl, fun h' => ?_, fun _ => hpol,
      fun _ => hpol, fun _ h0 => absurd h0 (Nat.lt_irrefl 0), fun _ hu => by simp at hu⟩
    · have : v.uncounting = 0 := by
        by_contra hne
        have := zero (Nat.pos_iff_ne_zero.mpr hne)
        omega
      simp only
      omega
    · simp only at h'
      omega
  | uncount h =>
    have hz := zero h
    refine ⟨by simp only; omega, bounded, by simp only; omega, fun _ => rfl, fun _ => ?_,
      fun _ => present (by omega), served, fun hcl => by simp at hcl, fun _ _ hcl => by simp at hcl⟩
    simp only
    omega
  | clean h =>
    have hu := unused h
    refine ⟨total, bounded, by simp only; omega, zero, fun h' => by simp only at h'; omega,
      fun h' => by simp only at h'; omega, fun hl => by simp only at hl; omega,
      fun _ _ p hp => (nomatch hp), fun _ _ _ => rfl⟩

/-! ### The model in a state -/

/-- The thread is an addition (or a removal) for the model, at the stage. -/
def Thread.isAt (addition : Bool) (stage : Stage) (modelId : ModelId) (t : Thread P) : Bool :=
  decide (t.call.isAddition = addition) && decide (t.stage = stage) &&
    decide (t.call.modelId = modelId)

/-- How many there are. -/
def State.tally (s : State P) (addition : Bool) (stage : Stage) (modelId : ModelId) : Nat :=
  s.threads.countP (Thread.isAt addition stage modelId)

/-- What the call of a thread would choose. -/
def Thread.choice (defaultPolicy : P) (t : Thread P) : P :=
  match t.call with
  | .onWorkerAdded _ policyHint created =>
      determinePolicyForModel defaultPolicy policyHint created
  | .onWorkerRemoved _ => defaultPolicy

/-- A model in a state. -/
def State.view (s : State P) (m : ModelId) : View P where
  count := (s.registry.modelWorkerCounts.lookup m).getD 0
  policy := s.registry.modelPolicies.lookup m
  first := s.firstChoice.lookup m
  looking := s.tally true .second m
  storing := s.tally true .third m
  added := s.completedAdditions m
  removals := s.startedRemovals m
  leaving := s.tally false .first m
  uncounting := s.tally false .second m
  cleaning := s.tally false .third m

/-- The action disturbs no cleanup and no first addition.
* An addition does not count while a removal is about to remove the count of the model.
* An addition does not find a policy while a removal is about to remove it.
* An addition that finds no policy would choose what the first addition chooses. -/
def Undisturbed (s : State P) : Action P → Prop
  | .begin _ => True
  | .operate i => ∀ t, s.threads[i]? = some t → t.call.isAddition = true →
      (t.stage = .first → s.tally false .second t.call.modelId = 0) ∧
      (t.stage = .second → s.registry.modelPolicies.lookup t.call.modelId ≠ none →
        s.tally false .third t.call.modelId = 0) ∧
      (t.stage = .second → s.registry.modelPolicies.lookup t.call.modelId = none →
        s.firstChoice.lookup t.call.modelId = some (t.choice s.registry.defaultPolicy))

/-- What holds of a state. -/
structure Settled (s : State P) : Prop where
  good : ∀ m, (s.view m).Good
  /-- What is about to be stored is the first choice. -/
  choice : ∀ t ∈ s.threads, t.call.isAddition = true → t.stage = .third →
    s.firstChoice.lookup t.call.modelId = some (t.choice s.registry.defaultPolicy)

theorem settled_init (defaultPolicy : P) : Settled (State.init defaultPolicy) where
  good m := by
    refine ⟨rfl, Nat.le_refl _, Nat.zero_le _, fun _ => rfl, fun _ => ⟨rfl, rfl⟩,
      fun h => absurd h (Nat.lt_irrefl 0), fun h => absurd h (Nat.lt_irrefl 0), fun _ _ => nofun,
      fun _ _ _ => rfl⟩
  choice _ h := (nomatch h)

section
variable {s : State P} {i : Nat} {t : Thread P} {m : ModelId}

/-- The state once the thread at place `i` has done an operation. -/
def State.moved (s : State P) (i : Nat) (t : Thread P) : State P :=
  ⟨(s.registry.operate t.call t.stage).1,
    s.threads.set i ⟨t.call, (s.registry.operate t.call t.stage).2⟩, s.noteChoice t⟩

theorem tally_set (h : s.threads[i]? = some t) (stage' : Stage) (addition : Bool) (stage : Stage)
    (r : Registry P) (first : List (ModelId × P)) :
    (⟨r, s.threads.set i ⟨t.call, stage'⟩, first⟩ : State P).tally addition stage m =
      s.tally addition stage m - (if t.isAt addition stage m = true then 1 else 0) +
        if (⟨t.call, stage'⟩ : Thread P).isAt addition stage m = true then 1 else 0 := by
  obtain ⟨hi, rfl⟩ := List.getElem?_eq_some_iff.mp h
  exact List.countP_set hi

theorem completedAdditions_eq (s : State P) (m : ModelId) :
    s.completedAdditions m = s.tally true .returned m := by
  rw [State.completedAdditions, State.tally]
  congr 1
  funext t
  cases h : t.call.isAddition <;> simp [Thread.isAt, h]

/-- A thread that is there counts. -/
theorem tally_pos (h : s.threads[i]? = some t) :
    0 < s.tally t.call.isAddition t.stage t.call.modelId :=
  countP_pos h (by simp [Thread.isAt])

theorem operate_other (r : Registry P) {c : Call P} (hm : m ≠ c.modelId) (stage : Stage) :
    (r.operate c stage).1.modelWorkerCounts.lookup m = r.modelWorkerCounts.lookup m ∧
      (r.operate c stage).1.modelPolicies.lookup m = r.modelPolicies.lookup m := by
  cases c with
  | onWorkerAdded modelId hint created =>
    rw [Call.modelId] at hm
    cases stage with
    | first => exact ⟨by simp only [Registry.operate, lookup_upsert, if_neg hm], rfl⟩
    | second =>
      simp only [Registry.operate]
      split <;> exact ⟨rfl, rfl⟩
    | third => exact ⟨rfl, by simp only [Registry.operate, lookup_put, if_neg hm]⟩
    | returned => exact ⟨rfl, rfl⟩
  | onWorkerRemoved modelId =>
    rw [Call.modelId] at hm
    cases stage with
    | first =>
      simp only [Registry.operate]
      split
      · exact ⟨by simp only [lookup_put, if_neg hm], rfl⟩
      · exact ⟨rfl, rfl⟩
    | second => exact ⟨by simp only [Registry.operate, lookup_del, if_neg hm], rfl⟩
    | third => exact ⟨rfl, by simp only [Registry.operate, lookup_del, if_neg hm]⟩
    | returned => exact ⟨rfl, rfl⟩

theorem operate_defaultPolicy (r : Registry P) (c : Call P) (stage : Stage) :
    (r.operate c stage).1.defaultPolicy = r.defaultPolicy := by
  cases c <;> cases stage <;> simp only [Registry.operate] <;> split <;> rfl

theorem noteChoice_other (hm : m ≠ t.call.modelId) :
    (s.noteChoice t).lookup m = s.firstChoice.lookup m := by
  obtain ⟨c, stage⟩ := t
  rw [State.noteChoice]
  split
  · next modelId hint created hc hs =>
    subst hc
    split
    · exact (lookup_put m modelId _ _).trans (if_neg hm)
    · rfl
  · rfl

/-- An operation of another model's call. -/
theorem view_moved_other (h : s.threads[i]? = some t) (hm : m ≠ t.call.modelId) :
    (s.moved i t).view m = s.view m := by
  have htally : ∀ a st, (s.moved i t).tally a st m = s.tally a st m := by
    intro a st
    rw [State.moved, tally_set h]
    simp [Thread.isAt, Ne.symm hm]
  have hstarted : (s.moved i t).startedRemovals m = s.startedRemovals m := countP_move_same h rfl
  obtain ⟨hc, hp⟩ := operate_other s.registry hm t.stage
  simp only [State.view, htally, hstarted, completedAdditions_eq]
  simp only [State.moved, hc, hp, noteChoice_other hm]

theorem tally_moved_own (h : s.threads[i]? = some t) (addition : Bool) (stage : Stage) :
    (s.moved i t).tally addition stage t.call.modelId = s.tally addition stage t.call.modelId -
          (if t.call.isAddition = addition ∧ t.stage = stage then 1 else 0) +
        if t.call.isAddition = addition ∧ (s.registry.operate t.call t.stage).2 = stage then 1
        else 0 := by
  rw [State.moved, tally_set h]
  simp [Thread.isAt]

theorem noteChoice_own (m : ModelId) (hint : Option Str) (created : Option P) :
    (s.noteChoice ⟨.onWorkerAdded m hint created, .first⟩).lookup m = if (s.view m).count = 0 then
        some (determinePolicyForModel s.registry.defaultPolicy hint created)
      else (s.view m).first := by
  by_cases hc : (s.registry.modelWorkerCounts.lookup m).getD 0 = 0
  · have hview : (s.view m).count = 0 := hc
    rw [if_pos hview, State.noteChoice]
    simp only [if_pos hc, lookup_put, if_true]
  · have hview : (s.view m).count ≠ 0 := hc
    rw [if_neg hview, State.noteChoice]
    simp only [if_neg hc, State.view]

/-- An operation of an addition. -/
theorem view_addition {hint : Option Str} {created : Option P} {stage : Stage} (hset : Settled s)
    (h : s.threads[i]? = some ⟨.onWorkerAdded m hint created, stage⟩) (hr : stage ≠ .returned)
    (hu : Undisturbed s (.operate i)) :
    (s.view m).Step ((s.moved i ⟨.onWorkerAdded m hint created, stage⟩).view m) := by
  have hstarted : (s.moved i ⟨.onWorkerAdded m hint created, stage⟩).startedRemovals m =
    s.startedRemovals m := countP_move_same h rfl
  have htally := tally_moved_own h
  have hpos : 0 < s.tally true stage m := tally_pos h
  obtain ⟨hfirst, hfound, hmissed⟩ := hu _ h rfl
  simp only [Call.modelId, Call.isAddition] at htally hfirst hfound hmissed
  -- one case for each access of `on_worker_added` to the maps
  cases stage with
  | first =>
    have hview : (s.moved i ⟨.onWorkerAdded m hint created, .first⟩).view m = { s.view m with
          count := (s.view m).count + 1
          looking := (s.view m).looking + 1
          first := if (s.view m).count = 0 then
              some (determinePolicyForModel s.registry.defaultPolicy hint created)
            else (s.view m).first } := by
      have hcount : ((s.moved i ⟨.onWorkerAdded m hint created, .first⟩).registry.modelWorkerCounts.lookup
          m).getD 0 = (s.view m).count + 1 := by
        simp only [State.moved, Registry.operate, lookup_upsert, if_true, Option.getD_some, State.view]
        cases s.registry.modelWorkerCounts.lookup m <;> rfl
      rw [State.view, hcount, hstarted, completedAdditions_eq]
      simp only [htally, Registry.operate, State.view, completedAdditions_eq]
      simp [State.moved, Registry.operate, noteChoice_own]
      rfl
    rw [hview]
    exact .count _ (hfirst rfl)
  | second =>
    cases hp : s.registry.modelPolicies.lookup m with
    | some p =>
      have hview : (s.moved i ⟨.onWorkerAdded m hint created, .second⟩).view m = { s.view m with
            looking := (s.view m).looking - 1
            added := (s.view m).added + 1 } := by
        rw [State.view, hstarted, completedAdditions_eq]
        simp only [htally, Registry.operate, hp, State.view, completedAdditions_eq]
        simp [State.moved, Registry.operate, hp, State.noteChoice]
      rw [hview]
      exact .found p hpos hp (hfound rfl (by rw [hp]; nofun))
    | none =>
      have hview : (s.moved i ⟨.onWorkerAdded m hint created, .second⟩).view m = { s.view m with
            looking := (s.view m).looking - 1
            storing := (s.view m).storing + 1 } := by
        rw [State.view, hstarted, completedAdditions_eq]
        simp only [htally, Registry.operate, hp, State.view, completedAdditions_eq]
        simp [State.moved, Registry.operate, hp, State.noteChoice]
      rw [hview]
      exact .missed hpos hp
  | third =>
    have hview : (s.moved i ⟨.onWorkerAdded m hint created, .third⟩).view m = { s.view m with
          storing := (s.view m).storing - 1
          added := (s.view m).added + 1
          policy := some (determinePolicyForModel s.registry.defaultPolicy hint created) } := by
      rw [State.view, hstarted, completedAdditions_eq]
      simp only [htally, Registry.operate, State.view, completedAdditions_eq]
      simp [State.moved, Registry.operate, State.noteChoice, lookup_put]
    rw [hview]
    exact .store _ hpos (hset.choice _ (List.mem_of_getElem? h) rfl rfl)
  | returned => exact absurd rfl hr

/-- An operation of a removal. -/
theorem view_removal {stage : Stage} (hset : Settled s)
    (h : s.threads[i]? = some ⟨.onWorkerRemoved m, stage⟩) (hr : stage ≠ .returned) :
    (s.view m).Step ((s.moved i ⟨.onWorkerRemoved m, stage⟩).view m) := by
  have hstarted : (s.moved i ⟨.onWorkerRemoved m, stage⟩).startedRemovals m =
    s.startedRemovals m := countP_move_same h rfl
  have htally := tally_moved_own h
  have hpos : 0 < s.tally false stage m := tally_pos h
  simp only [Call.modelId, Call.isAddition] at htally
  cases stage with
  | first =>
    -- a worker that is being removed was counted, so there is a count
    have hcounted : 0 < (s.view m).count := by
      have htotal := (hset.good m).total
      have hbounded := (hset.good m).bounded
      have hleaving : 0 < (s.view m).leaving := hpos
      omega
    cases hc : s.registry.modelWorkerCounts.lookup m with
    | none =>
      rw [State.view, hc] at hcounted
      exact absurd hcounted (Nat.lt_irrefl 0)
    | some count =>
      have hcount : (s.view m).count = count := by rw [State.view, hc]; rfl
      by_cases hlast : count = 1
      · subst hlast
        have hview : (s.moved i ⟨.onWorkerRemoved m, .first⟩).view m = { s.view m with
              count := 0
              leaving := (s.view m).leaving - 1
              uncounting := (s.view m).uncounting + 1 } := by
          rw [State.view, hstarted, completedAdditions_eq]
          simp only [htally, Registry.operate, hc, State.view, completedAdditions_eq]
          simp [State.moved, Registry.operate, hc, State.noteChoice, lookup_put]
        rw [hview]
        exact .last hpos hcount
      · have hne : count - 1 ≠ 0 := by omega
        have hview : (s.moved i ⟨.onWorkerRemoved m, .first⟩).view m = { s.view m with
              count := (s.view m).count - 1
              leaving := (s.view m).leaving - 1 } := by
          rw [State.view, hstarted, completedAdditions_eq]
          simp only [htally, Registry.operate, hc, State.view, completedAdditions_eq, if_neg hne]
          simp [State.moved, Registry.operate, hc, State.noteChoice, lookup_put]
        rw [hview]
        exact .leave hpos (by rw [hcount]; exact hlast)
  | second =>
    have hview : (s.moved i ⟨.onWorkerRemoved m, .second⟩).view m = { s.view m with
          count := 0
          uncounting := (s.view m).uncounting - 1
          cleaning := (s.view m).cleaning + 1 } := by
      rw [State.view, hstarted, completedAdditions_eq]
      simp only [htally, Registry.operate, State.view, completedAdditions_eq]
      simp [State.moved, Registry.operate, State.noteChoice, lookup_del]
    rw [hview]
    exact .uncount hpos
  | third =>
    have hview : (s.moved i ⟨.onWorkerRemoved m, .third⟩).view m = { s.view m with
          policy := none
          cleaning := (s.view m).cleaning - 1 } := by
      rw [State.view, hstarted, completedAdditions_eq]
      simp only [htally, Registry.operate, State.view, completedAdditions_eq]
      simp [State.moved, Registry.operate, State.noteChoice, lookup_del]
    rw [hview]
    exact .clean hpos
  | returned => exact absurd rfl hr

/-- The first choice of a model with workers stays. -/
theorem noteChoice_counted (t : Thread P) (hm : 0 < (s.view m).count) :
    (s.noteChoice t).lookup m = s.firstChoice.lookup m := by
  by_cases hne : m = t.call.modelId
  · obtain ⟨c, stage⟩ := t
    cases c with
    | onWorkerRemoved m' => rfl
    | onWorkerAdded m' hint created =>
      obtain rfl : m = m' := hne
      cases stage with
      | first => rw [noteChoice_own, if_neg (Nat.pos_iff_ne_zero.mp hm)]; rfl
      | second | third | returned => rfl
  · exact noteChoice_other hne

/-- An operation leaves a state settled. -/
theorem Settled.moved (hset : Settled s) (h : s.threads[i]? = some t) (hr : t.stage ≠ .returned)
    (hu : Undisturbed s (.operate i)) : Settled (s.moved i t) := by
  refine ⟨fun m => ?_, ?_⟩
  · by_cases hm : m = t.call.modelId
    · have hstep : (s.view t.call.modelId).Step ((s.moved i t).view t.call.modelId) := by
        obtain ⟨c, stage⟩ := t
        cases c with
        | onWorkerAdded m' hint created => exact view_addition hset h hr hu
        | onWorkerRemoved m' => exact view_removal hset h hr
      rw [hm]
      exact hstep.good (hset.good _)
    · rw [view_moved_other h hm]
      exact hset.good m
  · intro u hmem ha hstage
    have hdefault : (s.moved i t).registry.defaultPolicy = s.registry.defaultPolicy :=
      operate_defaultPolicy _ _ _
    rw [hdefault]
    rcases List.mem_or_eq_of_mem_set hmem with hmem | rfl
    · -- a thread that was about to store has been counted
      have hstoring : 0 < (s.view u.call.modelId).storing :=
        List.countP_pos_iff.mpr ⟨u, hmem, by simp [Thread.isAt, ha, hstage]⟩
      have htotal := (hset.good u.call.modelId).total
      have hbounded := (hset.good u.call.modelId).bounded
      have hfirst : (s.moved i t).firstChoice.lookup u.call.modelId =
        s.firstChoice.lookup u.call.modelId := noteChoice_counted t (by omega)
      rw [hfirst]
      exact hset.choice u hmem ha hstage
    · -- the thread that moved found no policy
      obtain ⟨c, stage⟩ := t
      cases c with
      | onWorkerRemoved m' => cases ha
      | onWorkerAdded m' hint created =>
        cases stage with
        | first => cases hstage
        | second =>
          cases hp : s.registry.modelPolicies.lookup m' with
          | some p => simp [Registry.operate, hp] at hstage
          | none => exact (hu _ h rfl).2.2 rfl hp
        | third => cases hstage
        | returned => exact absurd rfl hr

/-- A call that begins leaves a state settled. -/
theorem Settled.begin (hset : Settled s) {c : Call P} (hc : c.isAddition = true ∨
      s.startedRemovals c.modelId < s.completedAdditions c.modelId) :
    Settled { s with threads := s.threads ++ [⟨c, .first⟩] } := by
  refine ⟨fun m => ?_, fun u hmem ha hstage => ?_⟩
  · have hsame : c.isAddition = true ∨ c.modelId ≠ m →
        State.view { s with threads := s.threads ++ [⟨c, .first⟩] } m = s.view m := by
      rintro (ha | hm)
      · simp [State.view, State.tally, State.completedAdditions, State.startedRemovals,
          List.countP_append, Thread.isAt, ha]
      · simp [State.view, State.tally, State.completedAdditions, State.startedRemovals,
          List.countP_append, Thread.isAt, hm]
    cases c with
    | onWorkerAdded m' hint created =>
      rw [hsame (Or.inl rfl)]
      exact hset.good m
    | onWorkerRemoved m' =>
      by_cases hm : m' = m
      · subst hm
        have hlt : (s.view m').removals < (s.view m').added := hc.resolve_left nofun
        have hview : State.view
            { s with threads := s.threads ++ [⟨.onWorkerRemoved m', .first⟩] } m' =
            { s.view m' with
              removals := (s.view m').removals + 1
              leaving := (s.view m').leaving + 1 } := by
          simp [State.view, State.tally, State.completedAdditions, State.startedRemovals,
            List.countP_append, Thread.isAt, Call.isAddition, Call.modelId]
        rw [hview]
        exact (View.Step.remove hlt).good (hset.good m')
      · rw [hsame (Or.inr hm)]
        exact hset.good m
  · rcases List.mem_append.mp hmem with hmem | hmem
    · exact hset.choice u hmem ha hstage
    · obtain rfl := List.mem_singleton.mp hmem
      cases hstage

/-- **One action.** -/
theorem Settled.step {s' : State P} {a : Action P} (hset : Settled s) (hu : Undisturbed s a)
    (hs : step s a = some s') : Settled s' := by
  cases a with
  | begin c =>
    rw [PolicyRegistry.step] at hs
    split at hs
    · next hc =>
      cases hs
      exact hset.begin hc
    · cases hs
  | operate i =>
    obtain ⟨t, ht, hs⟩ := Option.bind_eq_some_iff.mp hs
    split at hs
    · cases hs
    · next hr =>
      cases hs
      exact hset.moved ht hr hu

end

/-! ### Runs -/

/-- Every model with a worker is served and counted; and while no call is running, its count is
that of its workers and its policy the first choice. -/
structure Maintained (s : State P) : Prop where
  served : ∀ m, s.startedRemovals m < s.completedAdditions m →
    (∃ p, s.registry.modelPolicies.lookup m = some p) ∧
      ∃ n, 1 ≤ n ∧ s.registry.modelWorkerCounts.lookup m = some n
  quiescent : (∀ t ∈ s.threads, t.stage = .returned) → ∀ m,
    (s.registry.modelWorkerCounts.lookup m).getD 0 =
        s.completedAdditions m - s.startedRemovals m ∧
      (s.startedRemovals m < s.completedAdditions m →
        s.registry.modelPolicies.lookup m = s.firstChoice.lookup m)

theorem Settled.maintained {s : State P} (h : Settled s) : Maintained s where
  served m hm := by
    have hgood := h.good m
    have htotal := hgood.total
    have hlt : (s.view m).removals < (s.view m).added := hm
    refine ⟨Option.ne_none_iff_exists'.mp (hgood.served (by omega)), ?_⟩
    have hpos : 0 < (s.view m).count := by omega
    rw [State.view] at hpos
    cases hc : s.registry.modelWorkerCounts.lookup m with
    | none =>
      rw [hc] at hpos
      exact absurd hpos (Nat.lt_irrefl 0)
    | some n =>
      rw [hc] at hpos
      exact ⟨n, hpos, rfl⟩
  quiescent hq m := by
    have hgood := h.good m
    have htotal := hgood.total
    have hidle : ∀ a st, st ≠ Stage.returned → s.tally a st m = 0 := by
      intro a st hst
      refine List.countP_eq_zero.mpr fun t ht => ?_
      simp [Thread.isAt, hq t ht, Ne.symm hst]
    have hlooking : (s.view m).looking = 0 := hidle true .second nofun
    have hstoring : (s.view m).storing = 0 := hidle true .third nofun
    have hleaving : (s.view m).leaving = 0 := hidle false .first nofun
    have hcleaning : (s.view m).cleaning = 0 := hidle false .third nofun
    refine ⟨?_, fun hm => ?_⟩
    · show (s.view m).count = (s.view m).added - (s.view m).removals
      omega
    · have hlt : (s.view m).removals < (s.view m).added := hm
      obtain ⟨p, hp⟩ := Option.ne_none_iff_exists'.mp (hgood.served (by omega))
      exact hp.trans (hgood.current hcleaning (by omega) p hp).symm

/-- **A policy lives as long as its model has workers**, in every run whose actions disturb no
cleanup and no first addition. -/
theorem run_maintained (defaultPolicy : P) {actions : List (Action P)}
    (hu : ∀ n s a, run defaultPolicy (actions.take n) = some s → actions[n]? = some a →
      Undisturbed s a) :
    ∀ n s, run defaultPolicy (actions.take n) = some s → Maintained s := by
  intro n s hs
  exact (Runs.exec_invariant (fun hset hu hstep => hset.step hu hstep) (settled_init defaultPolicy) hu
    n s hs).maintained

/-- Two workers come at the same time, and go at the same time. -/
def twoWorkers : List (Action Nat) :=
  [.begin (.onWorkerAdded ['m'] none none), .begin (.onWorkerAdded ['m'] none none),
    .operate 0, .operate 1, .operate 0, .operate 1, .operate 1, .operate 0,
    .begin (.onWorkerRemoved ['m']), .begin (.onWorkerRemoved ['m']),
    .operate 3, .operate 2, .operate 2, .operate 2]

instance (s : State Nat) : ∀ a, Decidable (Undisturbed s a)
  | .begin _ => isTrue trivial
  | .operate i => inferInstanceAs (Decidable (∀ t ∈ s.threads[i]?, _ → _ ∧ _ ∧ _))

theorem twoWorkers_maintained :
    (run 0 twoWorkers).isSome = true ∧
      (∀ n s a, run 0 (twoWorkers.take n) = some s → twoWorkers[n]? = some a → Undisturbed s a) ∧
      ∀ n s, run 0 (twoWorkers.take n) = some s → Maintained s := by
  have halong : Runs.Along step Undisturbed (State.init 0) twoWorkers := by decide +kernel
  exact ⟨by decide, halong.get, run_maintained 0 halong.get⟩

/-- **A worker that comes while the last one is cleaned up is lost**: it counts before the count is
removed, finds the policy before the policy is removed, and ends with neither. -/
theorem overlapping_addition_lost :
    ¬ ∀ actions s, run (0 : Nat) actions = some s → Maintained s := by
  intro h
  have hrun : (run (0 : Nat) [.begin (.onWorkerAdded ['m'] none none), .operate 0, .operate 0,
      .operate 0, .begin (.onWorkerRemoved ['m']), .operate 1,
      .begin (.onWorkerAdded ['m'] none none), .operate 2, .operate 1, .operate 2, .operate 1]).map
      (fun s => (s.startedRemovals ['m'], s.completedAdditions ['m'],
        s.registry.modelPolicies.lookup ['m'])) = some (1, 2, none) := by
    decide
  obtain ⟨s, hs, hv⟩ := Option.map_eq_some_iff.mp hrun
  simp only [Prod.mk.injEq] at hv
  obtain ⟨p, hp⟩ := ((h _ s hs).served ['m'] (by omega)).1
  rw [hv.2.2] at hp
  cases hp

end QwenStack.PolicyRegistry

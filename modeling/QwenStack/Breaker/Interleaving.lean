import Mathlib.Logic.Function.Iterate
import QwenStack.Breaker.Definitions
import QwenStack.Support.Runs

/-!
# Circuit breaker — probing, operation by operation

The calls of `Breaker/Definitions.lean` as the atomic operations they are made of: a thread is the
operation it does next, and a run interleaves the operations of any number of threads
(`alone`: a thread that runs by itself does what the call does).

A success closes the half-open breaker if its counter reached the threshold.  The exchange that
enters the half-open state clears that counter only afterwards, and a success compares the value it
counted to before it looked at the state.  So a success can bring in successes from before:
`late_success_closes` has two that were counted while the breaker was open close it at once.
`run_probed` says that this is all: if no success counts on top of old ones, or closes with a count
made before the breaker became half open, then it closes after enough successes only.
-/

namespace QwenStack.Breaker

/-- The next operation of a call, or what it has returned. -/
inductive Stage where
  -- `check_and_update_state_returning`
  | loadState
  | loadLastStateChange
  | compareExchange
  | storeLastStateChange
  | storeFailures
  | storeSuccesses
  | reloadState
  -- `record_success`
  | countSuccess
  | clearFailures
  | incrementSuccesses
  | successState (successes : Nat)
  -- `record_failure`
  | countFailure
  | clearSuccesses
  | incrementFailures
  | stampFailure (failures : Nat)
  | failureState (failures : Nat)
  -- `transition_to`
  | swap (newState : CircuitState)
  | stampChange (newState : CircuitState)
  | zeroFailures
  | zeroSuccesses
  | returned (result : Option CircuitState)
  deriving DecidableEq, Repr

/-- What a thread runs. -/
inductive Routine where
  | state
  | recordSuccess
  | recordFailure
  deriving DecidableEq, Repr

def Routine.first : Routine → Stage
  | .state => .loadState
  | .recordSuccess => .countSuccess
  | .recordFailure => .countFailure

/-- One operation.  An operation that reads the clock reads `now`. -/
def CircuitBreaker.operate (config : CircuitBreakerConfig) (b : CircuitBreaker) (now : Nat) :
    Stage → CircuitBreaker × Stage
  | .loadState =>
      (b, if b.state = .opened then .loadLastStateChange else .returned (some b.state))
  | .loadLastStateChange =>
      (b, if config.timeoutMs ≤ now - b.lastStateChangeMs then .compareExchange
        else .returned (some .opened))
  | .compareExchange =>
      if b.state = .opened then ({ b with state := .halfOpen }, .storeLastStateChange)
      else (b, .reloadState)
  | .storeLastStateChange => ({ b with lastStateChangeMs := now }, .storeFailures)
  | .storeFailures => ({ b with consecutiveFailures := 0 }, .storeSuccesses)
  | .storeSuccesses => ({ b with consecutiveSuccesses := 0 }, .returned (some .halfOpen))
  | .reloadState => (b, .returned (some b.state))
  | .countSuccess => ({ b with totalSuccesses := incrementTotal b.totalSuccesses }, .clearFailures)
  | .clearFailures => ({ b with consecutiveFailures := 0 }, .incrementSuccesses)
  | .incrementSuccesses =>
      let successes := increment b.consecutiveSuccesses
      ({ b with consecutiveSuccesses := successes }, .successState successes)
  | .successState successes =>
      (b, match b.state with
        | .halfOpen =>
            if config.successThreshold ≤ successes then .swap .closed else .returned none
        | .closed => .returned none
        | .opened => .returned none)
  | .countFailure => ({ b with totalFailures := incrementTotal b.totalFailures }, .clearSuccesses)
  | .clearSuccesses => ({ b with consecutiveSuccesses := 0 }, .incrementFailures)
  | .incrementFailures =>
      let failures := increment b.consecutiveFailures
      ({ b with consecutiveFailures := failures }, .stampFailure failures)
  | .stampFailure failures => ({ b with lastFailureTimeMs := now }, .failureState failures)
  | .failureState failures =>
      (b, match b.state with
        | .closed => if config.failureThreshold ≤ failures then .swap .opened else .returned none
        | .halfOpen => .swap .opened
        | .opened => .returned none)
  | .swap newState =>
      ({ b with state := newState },
        if b.state ≠ newState then .stampChange newState else .returned none)
  | .stampChange newState =>
      ({ b with lastStateChangeMs := now },
        match newState with
        | .closed => .zeroFailures
        | .opened => .zeroSuccesses
        | .halfOpen => .zeroFailures)
  | .zeroFailures => ({ b with consecutiveFailures := 0 }, .zeroSuccesses)
  | .zeroSuccesses => ({ b with consecutiveSuccesses := 0 }, .returned none)
  | .returned result => (b, .returned result)

/-- The call of a routine, when no other call is under way. -/
def Routine.call (config : CircuitBreakerConfig) (now : Nat) (b : CircuitBreaker) :
    Routine → CircuitBreaker × Option CircuitState
  | .state =>
      let (b, s) := b.checkAndUpdateStateReturning config now
      (b, some s)
  | .recordSuccess => (b.recordSuccess config now, none)
  | .recordFailure => (b.recordFailure config now, none)

/-- **A thread that runs by itself does what the call does**, in eight operations at most. -/
theorem alone (config : CircuitBreakerConfig) (now : Nat) (b : CircuitBreaker) (r : Routine) :
    (fun x : CircuitBreaker × Stage => x.1.operate config now x.2)^[8] (b, r.first) =
      ((r.call config now b).1, .returned (r.call config now b).2) := by
  obtain ⟨state, failures, successes, _, _, _, last⟩ := b
  cases r with
  | state =>
    cases state with
    | closed => rfl
    | halfOpen => rfl
    | opened =>
      by_cases h : config.timeoutMs ≤ now - last
      · simp [Routine.first, Routine.call, CircuitBreaker.operate,
          CircuitBreaker.checkAndUpdateStateReturning, h]
      · simp [Routine.first, Routine.call, CircuitBreaker.operate,
          CircuitBreaker.checkAndUpdateStateReturning, h]
  | recordSuccess =>
    cases state with
    | closed => rfl
    | opened => rfl
    | halfOpen =>
      by_cases h : config.successThreshold ≤ increment successes
      · simp [Routine.first, Routine.call, CircuitBreaker.operate,
          CircuitBreaker.recordSuccess, CircuitBreaker.transitionTo, h]
      · simp [Routine.first, Routine.call, CircuitBreaker.operate, CircuitBreaker.recordSuccess, h]
  | recordFailure =>
    cases state with
    | opened => rfl
    | halfOpen => rfl
    | closed =>
      by_cases h : config.failureThreshold ≤ increment failures
      · simp [Routine.first, Routine.call, CircuitBreaker.operate,
          CircuitBreaker.recordFailure, CircuitBreaker.transitionTo, h]
      · simp [Routine.first, Routine.call, CircuitBreaker.operate, CircuitBreaker.recordFailure, h]

/-! ### Runs -/

/-- A thread, with the number of the half-open period (or the last one) it counted a success in. -/
structure Thread where
  stage : Stage
  period : Nat
  deriving DecidableEq, Repr

/-- The breaker and its threads, with the number of half-open periods so far and the successes
counted since the exchange that entered the last one.  No operation reads these two. -/
structure System where
  breaker : CircuitBreaker
  threads : List Thread
  period : Nat
  probes : Nat
  deriving DecidableEq, Repr

def System.init (start : Nat) : System := ⟨.new start, [], 0, 0⟩

/-- A thread begins, or the `i`-th does its next operation. -/
inductive Action where
  | begin (routine : Routine)
  | operate (i : Nat) (now : Nat)
  deriving DecidableEq, Repr

/-- The thread is about to enter the half-open state. -/
def System.enters (s : System) (t : Thread) : Prop :=
  t.stage = .compareExchange ∧ s.breaker.state = .opened

instance (s : System) (t : Thread) : Decidable (s.enters t) := inferInstanceAs (Decidable (_ ∧ _))

/-- The thread after its operation. -/
def System.moved (config : CircuitBreakerConfig) (s : System) (t : Thread) (now : Nat) : Thread :=
  ⟨(s.breaker.operate config now t.stage).2,
    if t.stage = .incrementSuccesses then s.period else t.period⟩

/-- The state after the next operation of `t`, the `i`-th thread. -/
def System.operate (config : CircuitBreakerConfig) (s : System) (i : Nat) (t : Thread) (now : Nat) :
    System where
  breaker := (s.breaker.operate config now t.stage).1
  threads := s.threads.set i (s.moved config t now)
  period := if s.enters t then s.period + 1 else s.period
  probes := if s.enters t then 0 else if t.stage = .incrementSuccesses then s.probes + 1
    else s.probes

/-- One action. -/
def step (config : CircuitBreakerConfig) (s : System) : Action → Option System
  | .begin routine => some { s with threads := s.threads ++ [⟨routine.first, 0⟩] }
  | .operate i now => (s.threads[i]?).map fun t => s.operate config i t now

/-- The state after some actions. -/
def run (config : CircuitBreakerConfig) (start : Nat) (actions : List Action) : Option System :=
  Runs.exec (step config) (System.init start) actions

/-! ### Probing -/

/-- A success brings in no success from before the half-open period.
* It does not count on top of successes that the period has not seen.
* It does not close with a count made before the period. -/
def CountsAfresh (s : System) : Action → Prop
  | .begin _ => True
  | .operate i _ => s.breaker.state = .halfOpen → ∀ t ∈ s.threads[i]?,
      (t.stage = .incrementSuccesses → s.breaker.consecutiveSuccesses ≤ s.probes) ∧
      (t.stage = .swap .closed → t.period = s.period)

instance (s : System) : ∀ a, Decidable (CountsAfresh s a)
  | .begin _ => isTrue trivial
  | .operate _ _ => inferInstanceAs (Decidable (_ → ∀ t ∈ _, _ ∧ _))

/-- What holds of a thread: while the breaker is half open, what it counted to in this period was
counted in this period. -/
structure Probing (config : CircuitBreakerConfig) (s : System) (t : Thread) : Prop where
  /-- The half-open state is entered by an exchange only. -/
  ne_swap : t.stage ≠ .swap .halfOpen
  period_le : t.period ≤ s.period
  counted : s.breaker.state = .halfOpen → t.period = s.period →
    ∀ successes, t.stage = .successState successes → successes ≤ s.probes
  closing : s.breaker.state = .halfOpen → t.period = s.period → t.stage = .swap .closed →
    config.successThreshold ≤ s.probes

section
variable {config : CircuitBreakerConfig} {s : System} {i now : Nat} {t u : Thread}
  {b : CircuitBreaker} {stage : Stage}

/-- What an operation does to the state word. -/
theorem operate_state (config : CircuitBreakerConfig) (b : CircuitBreaker) (now : Nat)
    (stage : Stage) : (b.operate config now stage).1.state = b.state ∨
    (stage = .compareExchange ∧ b.state = .opened ∧ (b.operate config now stage).1.state = .halfOpen) ∨
    ∃ newState, stage = .swap newState ∧ (b.operate config now stage).1.state = newState := by
  cases stage with
  | compareExchange =>
    by_cases h : b.state = .opened
    · exact Or.inr (Or.inl ⟨rfl, h, by simp [CircuitBreaker.operate, h]⟩)
    · exact Or.inl (by simp [CircuitBreaker.operate, h])
  | swap newState => exact Or.inr (Or.inr ⟨newState, rfl, rfl⟩)
  | _ => exact Or.inl rfl

/-- Where a count comes from. -/
theorem operate_successState {successes : Nat}
    (h : (b.operate config now stage).2 = .successState successes) :
    stage = .incrementSuccesses ∧ successes = increment b.consecutiveSuccesses := by
  cases stage with
  | incrementSuccesses => exact ⟨rfl, (Stage.successState.inj h).symm⟩
  | stampChange newState => cases newState <;> cases h
  | _ => grind [CircuitBreaker.operate]

/-- Where a thread that closes comes from. -/
theorem operate_swap_closed (h : (b.operate config now stage).2 = .swap .closed) :
    b.state = .halfOpen ∧ ∃ successes, stage = .successState successes ∧
      config.successThreshold ≤ successes := by
  cases stage with
  | successState successes =>
    cases hb : b.state with
    | closed | opened => simp [CircuitBreaker.operate, hb] at h
    | halfOpen =>
      refine ⟨rfl, successes, rfl, ?_⟩
      simpa [CircuitBreaker.operate, hb] using h
  | stampChange newState => cases newState <;> cases h
  | _ => grind [CircuitBreaker.operate]

theorem operate_ne_swap : (b.operate config now stage).2 ≠ .swap .halfOpen := by
  intro h
  cases stage with
  | stampChange newState => cases newState <;> cases h
  | _ => grind [CircuitBreaker.operate]

theorem increment_le (n : Nat) : increment n ≤ n + 1 := Nat.mod_le _ _

/-- A period that goes on: if the breaker is half open after an operation, then it was so before
for every thread that counted in the period, and no count was lost. -/
theorem same_period (ht : t.stage ≠ .swap .halfOpen)
    (hb : (s.operate config i t now).breaker.state = .halfOpen) (hle : u.period ≤ s.period)
    (hp : u.period = (s.operate config i t now).period) :
    s.breaker.state = .halfOpen ∧ u.period = s.period ∧ (s.operate config i t now).probes =
        if t.stage = .incrementSuccesses then s.probes + 1 else s.probes := by
  have hne : ¬ s.enters t := by
    intro he
    simp only [System.operate, if_pos he] at hp
    omega
  refine ⟨?_, by simpa only [System.operate, if_neg hne] using hp,
    by simp only [System.operate, if_neg hne]⟩
  rcases operate_state config s.breaker now t.stage with hs | ⟨hs, ho, -⟩ | ⟨newState, hs, hn⟩
  · exact hs.symm.trans hb
  · exact absurd ⟨hs, ho⟩ hne
  · obtain rfl : newState = .halfOpen := hn.symm.trans hb
    exact absurd hs ht

theorem period_le_operate : s.period ≤ (s.operate config i t now).period := by
  simp only [System.operate]
  split
  · exact Nat.le_succ _
  · exact Nat.le_refl _

/-- An operation leaves the other threads as they should be. -/
theorem Probing.other (ht : Probing config s t) (hu : Probing config s u) :
    Probing config (s.operate config i t now) u := by
  refine ⟨hu.ne_swap, Nat.le_trans hu.period_le period_le_operate, fun hb hp n hn => ?_,
    fun hb hp hn => ?_⟩
  · obtain ⟨hb, hp, hprobes⟩ := same_period ht.ne_swap hb hu.period_le hp
    have := hu.counted hb hp n hn
    rw [hprobes]
    split <;> omega
  · obtain ⟨hb, hp, hprobes⟩ := same_period ht.ne_swap hb hu.period_le hp
    have := hu.closing hb hp hn
    rw [hprobes]
    split <;> omega

/-- An operation leaves its thread as it should be. -/
theorem Probing.moved (ht : Probing config s t) (hi : s.threads[i]? = some t)
    (hfresh : CountsAfresh s (.operate i now)) :
    Probing config (s.operate config i t now) (s.moved config t now) := by
  have hle : (s.moved config t now).period ≤ s.period := by
    simp only [System.moved]
    split
    · exact Nat.le_refl _
    · exact ht.period_le
  refine ⟨operate_ne_swap, Nat.le_trans hle period_le_operate, fun hb hp n hn => ?_, fun hb hp hn => ?_⟩
  · -- it counted on top of what the period has seen
    obtain ⟨hb, hp, hprobes⟩ := same_period ht.ne_swap hb hle hp
    obtain ⟨hstage, rfl⟩ := operate_successState hn
    have hcount := (hfresh hb t hi).1 hstage
    rw [hprobes, if_pos hstage]
    exact Nat.le_trans (increment_le _) (Nat.succ_le_succ hcount)
  · -- it counted to the threshold before
    obtain ⟨hb, hp, hprobes⟩ := same_period ht.ne_swap hb hle hp
    obtain ⟨-, n, hstage, hn⟩ := operate_swap_closed hn
    have hne : t.stage ≠ .incrementSuccesses := by rw [hstage]; nofun
    simp only [System.moved, if_neg hne] at hp
    rw [hprobes, if_neg hne]
    exact Nat.le_trans hn (ht.counted hb hp n hstage)

/-- **One action.** -/
theorem probing_step {s' : System} {a : Action} (h : ∀ t ∈ s.threads, Probing config s t)
    (hfresh : CountsAfresh s a) (hs : step config s a = some s') :
    ∀ t ∈ s'.threads, Probing config s' t := by
  cases a with
  | begin routine =>
    cases hs
    intro t ht
    rcases List.mem_append.mp ht with ht | ht
    · exact ⟨(h t ht).ne_swap, (h t ht).period_le, (h t ht).counted, (h t ht).closing⟩
    · obtain rfl := List.mem_singleton.mp ht
      cases routine <;> exact ⟨nofun, Nat.zero_le _, nofun, nofun⟩
  | operate i now =>
    obtain ⟨t, ht, rfl⟩ := Option.map_eq_some_iff.mp hs
    have hmem := List.mem_of_getElem? ht
    intro u hu
    rcases List.mem_or_eq_of_mem_set hu with hu | rfl
    · exact (h t hmem).other (h u hu)
    · exact (h t hmem).moved ht hfresh

/-- The step that closes. -/
theorem closing_step {s' : System} {a : Action} (h : ∀ t ∈ s.threads, Probing config s t)
    (hfresh : CountsAfresh s a) (hs : step config s a = some s')
    (hhalf : s.breaker.state = .halfOpen) (hclosed : s'.breaker.state = .closed) :
    config.successThreshold ≤ s.probes := by
  cases a with
  | begin routine =>
    cases hs
    rw [hhalf] at hclosed
    cases hclosed
  | operate i now =>
    obtain ⟨t, ht, rfl⟩ := Option.map_eq_some_iff.mp hs
    rcases operate_state config s.breaker now t.stage with hw | ⟨-, ho, -⟩ | ⟨newState, hw, hn⟩
    · have hsame : CircuitState.closed = .halfOpen := hclosed.symm.trans (hw.trans hhalf)
      cases hsame
    · rw [hhalf] at ho
      cases ho
    · obtain rfl : newState = .closed := hn.symm.trans hclosed
      exact (h t (List.mem_of_getElem? ht)).closing hhalf ((hfresh hhalf t ht).2 hw) hw

end

/-- **The half-open breaker closes after enough successes**, in every run in which the successes
bring in none from before. -/
theorem run_probed (config : CircuitBreakerConfig) (start : Nat) {actions : List Action}
    (hfresh : ∀ n s a, run config start (actions.take n) = some s → actions[n]? = some a →
      CountsAfresh s a) :
    ∀ n s a s', run config start (actions.take n) = some s → actions[n]? = some a →
      step config s a = some s' → s.breaker.state = .halfOpen → s'.breaker.state = .closed →
        config.successThreshold ≤ s.probes := by
  intro n s a s' hs ha hstep hhalf hclosed
  have hinv : ∀ t ∈ s.threads, Probing config s t :=
    Runs.exec_invariant (J := fun s => ∀ t ∈ s.threads, Probing config s t)
      (fun h hf hs => probing_step h hf hs) (List.forall_mem_nil _) hfresh n s hs
  exact closing_step hinv (hfresh n s a hs ha) hstep hhalf hclosed

/-- Opens at the first failure, closes at the second success, and does not wait. -/
def eagerConfig : CircuitBreakerConfig := .firstFailure 0

/-- The `i`-th thread begins at `now`, and does `n` operations. -/
def Routine.actions (i now n : Nat) (r : Routine) : List Action :=
  .begin r :: List.replicate n (.operate i now)

/-- A failure, a look, and two successes, one after the other. -/
def oneAfterTheOther : List Action :=
  List.flatten [Routine.recordFailure.actions 0 1 8, Routine.state.actions 1 2 6,
    Routine.recordSuccess.actions 2 3 4, Routine.recordSuccess.actions 3 4 5]

theorem oneAfterTheOther_probed :
    (run eagerConfig 0 oneAfterTheOther).map (fun s => s.breaker.state) = some .closed ∧
      ∀ n s a s', run eagerConfig 0 (oneAfterTheOther.take n) = some s →
        oneAfterTheOther[n]? = some a → step eagerConfig s a = some s' →
        s.breaker.state = .halfOpen → s'.breaker.state = .closed →
          eagerConfig.successThreshold ≤ s.probes := by
  have hfresh : Runs.Along (step eagerConfig) CountsAfresh (System.init 0) oneAfterTheOther := by
    decide +kernel
  exact ⟨by decide +kernel, run_probed eagerConfig 0 hfresh.get⟩

/-- Two successes are counted while the breaker is open, then a look makes it half open, then the
second of them sees that. -/
def lateSuccess : List Action :=
  List.flatten [Routine.recordFailure.actions 0 1 8, Routine.recordSuccess.actions 1 2 4,
    Routine.recordSuccess.actions 2 2 3, Routine.state.actions 3 3 3, [.operate 2 3]]

/-- **Successes from before close it**: in `lateSuccess`, none was counted since the breaker became
half open, and the next operation closes it. -/
theorem late_success_closes :
    ¬ ∀ actions s a s', run eagerConfig 0 actions = some s → step eagerConfig s a = some s' →
      s.breaker.state = .halfOpen → s'.breaker.state = .closed →
        eagerConfig.successThreshold ≤ s.probes := by
  intro h
  have hrun : ((run eagerConfig 0 lateSuccess).bind fun s =>
      (step eagerConfig s (.operate 2 3)).map fun s' =>
        (s.breaker.state, s'.breaker.state, s.probes)) = some (.halfOpen, .closed, 0) := by
    decide +kernel
  specialize h lateSuccess
  generalize run eagerConfig 0 lateSuccess = r at h hrun
  obtain ⟨s, hs, hrun⟩ := Option.bind_eq_some_iff.mp hrun
  obtain ⟨s', hstep, hrun⟩ := Option.map_eq_some_iff.mp hrun
  simp only [Prod.mk.injEq] at hrun
  obtain ⟨hhalf, hclosed, hprobes⟩ := hrun
  have := h s _ s' hs hstep hhalf hclosed
  rw [hprobes] at this
  exact absurd this (by decide)

end QwenStack.Breaker

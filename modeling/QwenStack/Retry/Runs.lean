import QwenStack.Support.Until

/-!
# Retries

`gateway/src/core/retry.rs`: an operation that answers with a response is called again and again, with a
pause between two calls, until a response is not to be retried or the attempts are used up.

Responses and durations are of any type.  The delay of an attempt is a parameter, since it is computed in
floating point and may be drawn at random.  What the executor does is told by events; the operation may
have a state of its own, so its responses are numbered by its calls, not by the attempt it is given.  The
attempt stays below the limit, a `u32`, so that the code's sums do not overflow.

`run_law` says all that a run of `execute_response_with_retry` does.  Before a turn its events are those of
the attempts so far, each of which was answered with a response to retry (`Retrying`); the turn that returns
adds its call, and the exhaustion if that response was to be retried too.
-/

namespace QwenStack.Retry

open List

/-- `is_retryable_status`. -/
def isRetryableStatus (status : Nat) : Bool := [408, 429, 500, 502, 503, 504].contains status

/-- The part of a `RetryConfig` that the loop reads. -/
structure RetryConfig where
  maxRetries : Nat
  deriving DecidableEq, Repr

/-- The functions the executor is called with, and what the operation would answer. -/
structure Caller (ρ δ : Type*) where
  /-- The response of each call of the operation, the first at zero. -/
  response : Nat → ρ
  shouldRetry : ρ → Nat → Bool
  /-- `BackoffCalculator::calculate_delay`. -/
  calculateDelay : Nat → δ

inductive Event (δ : Type*) where
  | operation (attempt : Nat)
  | onBackoff (delay : δ) (nextAttempt : Nat)
  | sleep (delay : δ)
  | onExhausted
  deriving DecidableEq, Repr

namespace Event
variable {δ : Type*}

/-- The attempt that the operation is called with. -/
def attempt? : Event δ → Option Nat
  | .operation attempt => some attempt
  | _ => none

def isBackoff : Event δ → Bool
  | .onBackoff _ _ => true
  | _ => false

def isExhausted : Event δ → Bool
  | .onExhausted => true
  | _ => false

end Event

/-- The local state of `execute_response_with_retry`, and what has happened. -/
structure Execution (δ : Type*) where
  attempt : Nat := 0
  /-- The calls of the operation so far. -/
  called : Nat := 0
  events : List (Event δ) := []
  deriving DecidableEq, Repr

section
variable {ρ δ : Type*}

/-- `config.max_retries.max(1)`. -/
def RetryConfig.max (config : RetryConfig) : Nat := Max.max config.maxRetries 1

/-- One turn of the loop, and the response if it returns one. -/
def attemptTurn (config : RetryConfig) (c : Caller ρ δ) (e : Execution δ) :
    Execution δ × Option ρ :=
  let response := c.response e.called
  let e := { e with called := e.called + 1, events := e.events ++ [.operation e.attempt] }
  let isLast := decide (config.max ≤ e.attempt + 1)
  if c.shouldRetry response e.attempt = false then (e, some response)
  else if isLast = true then ({ e with events := e.events ++ [.onExhausted] }, some response)
  else
    let nextAttempt := e.attempt + 1
    let delay := c.calculateDelay e.attempt
    ({ e with attempt := nextAttempt, events := e.events ++ [.onBackoff delay nextAttempt,
      .sleep delay] }, none)

/-- `execute_response_with_retry`, for at most so many turns of its loop. -/
def executeResponseWithRetry (config : RetryConfig) (c : Caller ρ δ) (turns : Nat) :
    Execution δ × Option ρ :=
  Until.loop (attemptTurn config c) turns {}

end

/-! ### The runs of the executor -/

variable {ρ δ : Type*} {config : RetryConfig} {c : Caller ρ δ}

/-- The events of an attempt with a pause after it. -/
def Caller.pause (c : Caller ρ δ) (attempt : Nat) : List (Event δ) :=
  [.operation attempt, .onBackoff (c.calculateDelay attempt) (attempt + 1),
    .sleep (c.calculateDelay attempt)]

/-- The events of a run of `k` attempts that returns. -/
def Caller.runEvents (c : Caller ρ δ) (k : Nat) : List (Event δ) :=
  (List.range (k - 1)).flatMap c.pause ++ [.operation (k - 1)] ++
    if c.shouldRetry (c.response (k - 1)) (k - 1) = true then [.onExhausted] else []

/-- Before a turn of the loop. -/
structure Retrying (config : RetryConfig) (c : Caller ρ δ) (e : Execution δ) : Prop where
  called : e.called = e.attempt
  below : e.attempt < config.max
  events : e.events = (List.range e.attempt).flatMap c.pause
  retried : ∀ i < e.attempt, c.shouldRetry (c.response i) i = true

/-- What a run of `k` attempts ends with. -/
structure Returned (config : RetryConfig) (c : Caller ρ δ) (e : Execution δ) (answer : ρ)
    (k : Nat) : Prop where
  pos : 1 ≤ k
  le_max : k ≤ config.max
  response : answer = c.response (k - 1)
  events : e.events = c.runEvents k
  retried : ∀ i < k - 1, c.shouldRetry (c.response i) i = true
  /-- A response that is to be retried is returned by the last attempt only. -/
  last : c.shouldRetry answer (k - 1) = true → k = config.max

theorem retrying_start : Retrying config c {} where
  called := rfl
  below := Nat.lt_of_lt_of_le Nat.one_pos (Nat.le_max_right _ _)
  events := rfl
  retried := fun _ hi => absurd hi (Nat.not_lt_zero _)

/-! ### One turn -/

/-- A turn that goes on. -/
theorem attemptTurn_none {e e' : Execution δ} (h : Retrying config c e)
    (hturn : attemptTurn config c e = (e', none)) :
    Retrying config c e' ∧ e'.attempt = e.attempt + 1 := by
  rw [attemptTurn, h.called] at hturn
  split at hturn
  · cases congrArg Prod.snd hturn
  next hretry =>
  split at hturn
  · cases congrArg Prod.snd hturn
  next hlast =>
  obtain rfl := congrArg Prod.fst hturn
  refine ⟨⟨rfl, ?_, ?_, fun i hi => ?_⟩, rfl⟩
  · simpa using hlast
  · change e.events ++ [.operation e.attempt] ++ _ = _
    rw [range_succ, flatMap_append, ← h.events, flatMap_singleton, Caller.pause,
      append_assoc, singleton_append]
  · rcases Nat.lt_succ_iff_lt_or_eq.mp hi with hlt | rfl
    · exact h.retried i hlt
    · simpa using hretry

/-- A turn that returns. -/
theorem attemptTurn_some {e e' : Execution δ} {answer : ρ} (h : Retrying config c e)
    (hturn : attemptTurn config c e = (e', some answer)) :
    Returned config c e' answer (e.attempt + 1) := by
  rw [attemptTurn, h.called, h.events] at hturn
  split at hturn
  · next hretry =>
    -- The response is not to be retried.
    obtain ⟨rfl, hanswer⟩ := Prod.mk.inj hturn
    cases hanswer
    refine ⟨Nat.succ_pos _, h.below, rfl, ?_, h.retried, fun hagain => ?_⟩
    · rw [Caller.runEvents, Nat.add_sub_cancel, hretry, if_neg Bool.false_ne_true, append_nil]
    · rw [Nat.add_sub_cancel, hretry] at hagain
      cases hagain
  next hretry =>
  rw [Bool.not_eq_false] at hretry
  split at hturn
  · next hlast =>
    -- It is, but this was the last attempt.
    obtain ⟨rfl, hanswer⟩ := Prod.mk.inj hturn
    cases hanswer
    refine ⟨Nat.succ_pos _, h.below, rfl, ?_, h.retried, fun _ => ?_⟩
    · rw [Caller.runEvents, Nat.add_sub_cancel, if_pos hretry]
    · exact Nat.le_antisymm h.below (of_decide_eq_true hlast)
  · cases congrArg Prod.snd hturn

/-! ### The events of a run -/

theorem attempts_runEvents (c : Caller ρ δ) {k : Nat} (hk : 1 ≤ k) :
    (c.runEvents k).filterMap Event.attempt? = List.range k := by
  have hpauses : ∀ n, ((List.range n).flatMap c.pause).filterMap Event.attempt? = List.range n := by
    intro n
    induction n with
    | zero => rfl
    | succ n ih =>
      rw [range_succ, flatMap_append, filterMap_append, ih]
      rfl
  obtain ⟨n, rfl⟩ := Nat.exists_eq_add_of_le' hk
  rw [Caller.runEvents, Nat.add_sub_cancel, filterMap_append, filterMap_append, hpauses, range_succ]
  split <;> exact append_nil _

theorem countP_pauses (c : Caller ρ δ) (p : Event δ → Bool) {m : Nat}
    (hpause : ∀ i, (c.pause i).countP p = m) (n : Nat) :
    ((List.range n).flatMap c.pause).countP p = n * m := by
  induction n with
  | zero => exact (Nat.zero_mul m).symm
  | succ n ih =>
    rw [range_succ, flatMap_append, countP_append, ih, flatMap_singleton, hpause, Nat.succ_mul]

theorem backoffs_runEvents (c : Caller ρ δ) (k : Nat) :
    (c.runEvents k).countP Event.isBackoff = k - 1 := by
  rw [Caller.runEvents, countP_append, countP_append,
    countP_pauses c Event.isBackoff (m := 1) (fun _ => rfl), Nat.mul_one]
  split <;> rfl

theorem exhausted_runEvents (c : Caller ρ δ) (k : Nat) : (c.runEvents k).countP Event.isExhausted =
      if c.shouldRetry (c.response (k - 1)) (k - 1) = true then 1 else 0 := by
  rw [Caller.runEvents, countP_append, countP_append,
    countP_pauses c Event.isExhausted (m := 0) (fun _ => rfl), Nat.mul_zero]
  split <;> rfl

/-! ### A run -/

/-- The loop comes to its end, and returns. -/
theorem executeResponseWithRetry_returned (config : RetryConfig) (c : Caller ρ δ) {turns : Nat}
    (hturns : config.max ≤ turns) : ∃ k e answer,
      executeResponseWithRetry config c turns = (e, some answer) ∧ Returned config c e answer k := by
  have hpos : 0 < config.max := (retrying_start (c := c)).below
  obtain ⟨e, answer, hrun⟩ : ∃ e answer,
      executeResponseWithRetry config c turns = (e, some answer) :=
    Until.loop_ends (P := Retrying config c) (r := fun e => config.max - e.attempt - 1)
      (fun h hturn => by
        obtain ⟨h', hattempt⟩ := attemptTurn_none h hturn
        have hbelow := h'.below
        exact ⟨h', by omega⟩)
      retrying_start (Nat.lt_of_lt_of_le (Nat.sub_lt hpos Nat.one_pos) hturns)
  have hrule := Until.loop_rule (P := Retrying config c)
    (Q := fun e answer => ∃ k, Returned config c e answer k)
    (fun h hturn => (attemptTurn_none h hturn).1) (fun h hturn => ⟨_, attemptTurn_some h hturn⟩)
    retrying_start turns
  obtain ⟨k, hreturned⟩ := hrule.2 hrun
  exact ⟨k, e, answer, hrun, hreturned⟩

/-- **The law of a run.**  For every configuration, all responses and every predicate, and however many
turns the loop may take: it calls the operation with the attempts in order, pauses between any two, stops
at the first response that is not to be retried, and returns the last one it obtained. -/
theorem run_law (config : RetryConfig) (c : Caller ρ δ) {turns : Nat} (hturns : config.max ≤ turns) :
    ∃ k e, executeResponseWithRetry config c turns = (e, some (c.response (k - 1))) ∧
      (1 ≤ k ∧ k ≤ max 1 config.maxRetries) ∧
      (∀ i < k - 1, c.shouldRetry (c.response i) i = true) ∧
      (c.shouldRetry (c.response (k - 1)) (k - 1) = true → k = max 1 config.maxRetries) ∧
      e.events = c.runEvents k ∧
      e.events.filterMap Event.attempt? = List.range k ∧
      e.events.countP Event.isBackoff = k - 1 ∧
      e.events.countP Event.isExhausted =
        if c.shouldRetry (c.response (k - 1)) (k - 1) = true then 1 else 0 := by
  obtain ⟨k, e, answer, hrun, h⟩ := executeResponseWithRetry_returned config c hturns
  obtain rfl := h.response
  have hmax : config.max = max 1 config.maxRetries := Nat.max_comm _ _
  refine ⟨k, e, hrun, ⟨h.pos, hmax ▸ h.le_max⟩, h.retried, fun hagain => hmax ▸ h.last hagain,
    h.events, ?_, ?_, ?_⟩
  · rw [h.events, attempts_runEvents c h.pos]
  · rw [h.events, backoffs_runEvents]
  · rw [h.events, exhausted_runEvents]

/-- Two attempts of at most three, the second with a response that is not to be retried. -/
theorem run_law_second :
    let c : Caller Nat Nat := ⟨fun i => 503 - 303 * i, fun status _ => isRetryableStatus status, id⟩
    ∃ k e, executeResponseWithRetry ⟨3⟩ c 3 = (e, some (c.response (k - 1))) ∧
      e.events = [.operation 0, .onBackoff 0 1, .sleep 0, .operation 1] ∧
      e.events.filterMap Event.attempt? = List.range k := by
  intro c
  obtain ⟨k, e, hrun, -, -, -, -, hattempts, -, -⟩ := run_law ⟨3⟩ c (Nat.le_refl 3)
  exact ⟨k, e, hrun, (congrArg (·.1.events) hrun).symm, hattempts⟩

end QwenStack.Retry

import Mathlib.Algebra.Group.Nat.Defs
import Mathlib.Data.List.Basic

/-!
# Circuit breaker — Definitions

`gateway/src/core/circuit_breaker.rs`: the breaker of a worker, a state word, two counters and the
time of the last change, all atomics.  Here each call is one function, as it runs when no other call
is under way; `Breaker/Interleaving.lean` has the calls operation by operation.

Times are readings of `now_ms`, in milliseconds, and a call reads the clock once.  The counters of a
row are `u32` and wrap, the totals are `u64`.  Metrics, the label and the log are left out.
-/

namespace QwenStack.Breaker

/-- `CircuitBreakerConfig`, less `window_duration`, which nothing reads. -/
structure CircuitBreakerConfig where
  failureThreshold : Nat
  successThreshold : Nat
  /-- `timeout_duration.as_millis()`. -/
  timeoutDuration : Nat
  failureThreshold_lt : failureThreshold < 2 ^ 32
  successThreshold_lt : successThreshold < 2 ^ 32

/-- `CircuitBreakerConfig::default`. -/
def CircuitBreakerConfig.default : CircuitBreakerConfig where
  failureThreshold := 5
  successThreshold := 2
  timeoutDuration := 30 * 1000
  failureThreshold_lt := by decide
  successThreshold_lt := by decide

/-- Opens at the first failure. -/
def CircuitBreakerConfig.firstFailure (timeoutDuration : Nat) : CircuitBreakerConfig :=
  ⟨1, 2, timeoutDuration, by decide, by decide⟩

/-- `timeout_ms`, cut to `u64`. -/
def CircuitBreakerConfig.timeoutMs (config : CircuitBreakerConfig) : Nat :=
  config.timeoutDuration % 2 ^ 64

inductive CircuitState where
  | closed
  | opened
  | halfOpen
  deriving DecidableEq, Repr

structure CircuitBreaker where
  state : CircuitState
  consecutiveFailures : Nat
  consecutiveSuccesses : Nat
  totalFailures : Nat
  totalSuccesses : Nat
  lastFailureTimeMs : Nat
  lastStateChangeMs : Nat
  deriving DecidableEq, Repr

/-- `CircuitBreaker::with_config_and_label`. -/
def CircuitBreaker.new (now : Nat) : CircuitBreaker where
  state := .closed
  consecutiveFailures := 0
  consecutiveSuccesses := 0
  totalFailures := 0
  totalSuccesses := 0
  lastFailureTimeMs := 0
  lastStateChangeMs := now

/-- `fetch_add(1) + 1` on a `u32`. -/
def increment (n : Nat) : Nat := (n + 1) % 2 ^ 32

/-- `fetch_add(1)` on a `u64`. -/
def incrementTotal (n : Nat) : Nat := (n + 1) % 2 ^ 64

section
variable (config : CircuitBreakerConfig) (now : Nat) (b : CircuitBreaker)

/-- `transition_to`. -/
def CircuitBreaker.transitionTo (newState : CircuitState) : CircuitBreaker :=
  let oldState := b.state
  let b := { b with state := newState }
  if oldState ≠ newState then
    let b := { b with lastStateChangeMs := now }
    match newState with
    | .closed => { b with consecutiveFailures := 0, consecutiveSuccesses := 0 }
    | .opened => { b with consecutiveSuccesses := 0 }
    | .halfOpen => { b with consecutiveFailures := 0, consecutiveSuccesses := 0 }
  else b

/-- `check_and_update_state_returning`.  Alone, the exchange succeeds. -/
def CircuitBreaker.checkAndUpdateStateReturning : CircuitBreaker × CircuitState :=
  if b.state = .opened then
    let elapsedMs := now - b.lastStateChangeMs
    if config.timeoutMs ≤ elapsedMs then
      ({ b with
          state := .halfOpen
          lastStateChangeMs := now
          consecutiveFailures := 0
          consecutiveSuccesses := 0 }, .halfOpen)
    else (b, b.state)
  else (b, b.state)

/-- `can_execute`. -/
def CircuitBreaker.canExecute : CircuitBreaker × Bool :=
  let (b, state) := b.checkAndUpdateStateReturning config now
  (b, match state with
    | .closed => true
    | .opened => false
    | .halfOpen => true)

/-- `record_success`. -/
def CircuitBreaker.recordSuccess : CircuitBreaker :=
  let b := { b with totalSuccesses := incrementTotal b.totalSuccesses }
  let b := { b with consecutiveFailures := 0 }
  let successes := increment b.consecutiveSuccesses
  let b := { b with consecutiveSuccesses := successes }
  match b.state with
  | .halfOpen => if config.successThreshold ≤ successes then b.transitionTo now .closed else b
  | .closed => b
  | .opened => b

/-- `record_failure`. -/
def CircuitBreaker.recordFailure : CircuitBreaker :=
  let b := { b with totalFailures := incrementTotal b.totalFailures }
  let b := { b with consecutiveSuccesses := 0 }
  let failures := increment b.consecutiveFailures
  let b := { b with consecutiveFailures := failures }
  let b := { b with lastFailureTimeMs := now }
  match b.state with
  | .closed => if config.failureThreshold ≤ failures then b.transitionTo now .opened else b
  | .halfOpen => b.transitionTo now .opened
  | .opened => b

/-- `record_outcome`. -/
def CircuitBreaker.recordOutcome (success : Bool) : CircuitBreaker :=
  if success then b.recordSuccess config now else b.recordFailure config now

/-- `reset`. -/
def CircuitBreaker.reset : CircuitBreaker :=
  { b.transitionTo now .closed with consecutiveFailures := 0, consecutiveSuccesses := 0 }

/-- `force_open`. -/
def CircuitBreaker.forceOpen : CircuitBreaker := b.transitionTo now .opened

end

/-! ### Calls -/

/-- A call on a breaker. -/
inductive Call where
  | recordOutcome (success : Bool)
  | state
  | canExecute
  | reset
  | forceOpen
  deriving DecidableEq, Repr

/-- What a call returns. -/
inductive Output where
  | unit
  | state (s : CircuitState)
  | allowed (b : Bool)
  deriving DecidableEq, Repr

/-- One call, at a time. -/
def CircuitBreaker.call (config : CircuitBreakerConfig) (b : CircuitBreaker) :
    Call × Nat → CircuitBreaker × Output
  | (.recordOutcome success, now) => (b.recordOutcome config now success, .unit)
  | (.state, now) =>
      let (b, s) := b.checkAndUpdateStateReturning config now
      (b, .state s)
  | (.canExecute, now) =>
      let (b, allowed) := b.canExecute config now
      (b, .allowed allowed)
  | (.reset, now) => (b.reset now, .unit)
  | (.forceOpen, now) => (b.forceOpen now, .unit)

end QwenStack.Breaker

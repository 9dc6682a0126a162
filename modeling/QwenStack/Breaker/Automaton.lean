import QwenStack.Breaker.Definitions
import QwenStack.Support.Mealy

/-!
# Circuit breaker — the automaton it implements

What a breaker is for, as an automaton whose states carry only what they need (`Phase`): the
failures in a row while closed, the time of opening while open, the successes while half open.

* `Phase.lawful`: every event of a run of the automaton is right in view of the events before it
  (`Lawful`: when it opens, when it lets requests through, how it leaves the half-open state).  The
  laws count events of the trace, not counters.
* `sim_call`: the breaker simulates the automaton, whatever its counters hold in the states where
  the automaton has none.
* `trace_lawful`: so the traces of the breaker are those of the automaton, and lawful.
-/

namespace QwenStack.Breaker
open Mealy

/-! ### The automaton -/

/-- A state of the automaton. -/
inductive Phase where
  | closed (failures : Nat)
  | opened (time : Nat)
  | halfOpen (successes : Nat)
  deriving DecidableEq, Repr

@[simp] def Phase.state : Phase → CircuitState
  | .closed _ => .closed
  | .opened _ => .opened
  | .halfOpen _ => .halfOpen

section
variable (config : CircuitBreakerConfig)

/-- A look at the automaton: an open one is half open once the timeout is over. -/
@[simp] def Phase.look (now : Nat) : Phase → Phase
  | .opened t => if t + config.timeoutMs ≤ now then .halfOpen 0 else .opened t
  | p => p

/-- A success. -/
@[simp] def Phase.success : Phase → Phase
  | .closed _ => .closed 0
  | .opened t => .opened t
  | .halfOpen k => if k + 1 = config.successThreshold then .closed 0 else .halfOpen (k + 1)

/-- A failure. -/
@[simp] def Phase.failure (now : Nat) : Phase → Phase
  | .closed n => if n + 1 = config.failureThreshold then .opened now else .closed (n + 1)
  | .opened t => .opened t
  | .halfOpen _ => .opened now

/-- An open automaton stays as it is. -/
@[simp] def Phase.force (now : Nat) : Phase → Phase
  | .opened t => .opened t
  | _ => .opened now

/-- One call, at a time. -/
@[simp] def Phase.call (p : Phase) : Call × Nat → Phase × Output
  | (.recordOutcome true, _) => (p.success config, .unit)
  | (.recordOutcome false, now) => (p.failure config now, .unit)
  | (.state, now) => (p.look config now, .state (p.look config now).state)
  | (.canExecute, now) =>
      (p.look config now, .allowed (decide ((p.look config now).state ≠ .opened)))
  | (.reset, _) => (.closed 0, .unit)
  | (.forceOpen, now) => (p.force now, .unit)

end

/-! ### Laws of a trace -/

/-- A call that was made, with its time, and the state before and after. -/
abbrev Entry := Event (Call × Nat) Output CircuitState

@[simp] def Entry.isFailure (e : Entry) : Bool := decide (e.input.1 = .recordOutcome false)

@[simp] def Entry.isSuccess (e : Entry) : Bool := decide (e.input.1 = .recordOutcome true)

/-- The call took the breaker into `s`. -/
@[simp] def Entry.enters (s : CircuitState) (e : Entry) : Bool := decide (e.before ≠ s ∧ e.after = s)

/-- The failures in a row: since the last success, reset or entry into the closed state. -/
def failuresInARow (past : List Entry) : Nat :=
  (since (fun e => Entry.isSuccess e || decide (e.input.1 = .reset) || Entry.enters .closed e)
    past).countP Entry.isFailure

/-- The calls since the half-open state was entered. -/
def probes (past : List Entry) : List Entry := since (Entry.enters .halfOpen) past

/-- When the open state was entered. -/
def openedAt (past : List Entry) : Option Nat := (last (Entry.enters .opened) past).map (·.input.2)

/-- What is right for a call after the events `past`. -/
structure Lawful (config : CircuitBreakerConfig) (past : List Entry) (e : Entry) : Prop where
  /-- From closed it opens at the last failure of a full row (or by force), and in no other way. -/
  closed : e.before = .closed →
    (e.after = .opened ↔ e.input.1 = .forceOpen ∨
      (e.input.1 = .recordOutcome false ∧ failuresInARow past + 1 = config.failureThreshold)) ∧
    e.after ≠ .halfOpen
  /-- While open, requests are refused until the timeout is over, and let through from then on;
  outcomes change nothing. -/
  opened : e.before = .opened → ∃ t, openedAt past = some t ∧
    (e.input.1 = .canExecute → e.output = .allowed (decide (t + config.timeoutMs ≤ e.input.2))) ∧
    (e.after = .halfOpen ↔
      (e.input.1 = .state ∨ e.input.1 = .canExecute) ∧ t + config.timeoutMs ≤ e.input.2) ∧
    (∀ success, e.input.1 = .recordOutcome success → e.after = .opened)
  /-- Half open, requests are let through, and no failure has been recorded; a failure opens, the
  last of enough successes closes. -/
  halfOpen : e.before = .halfOpen →
    (e.input.1 = .canExecute → e.output = .allowed true) ∧
    (probes past).countP Entry.isFailure = 0 ∧
    (e.after = .opened ↔ e.input.1 = .recordOutcome false ∨ e.input.1 = .forceOpen) ∧
    (e.after = .closed ↔ e.input.1 = .reset ∨ (e.input.1 = .recordOutcome true ∧
      (probes past).countP Entry.isSuccess + 1 = config.successThreshold))
  /-- From open it closes by a reset only. -/
  reset : e.before = .opened → (e.after = .closed ↔ e.input.1 = .reset)

/-! ### The automaton keeps the laws -/

/-- The state reflects the events. -/
@[simp] def Reflects (past : List Entry) : Phase → Prop
  | .closed n => failuresInARow past = n
  | .opened t => openedAt past = some t
  | .halfOpen k =>
      (probes past).countP Entry.isFailure = 0 ∧ (probes past).countP Entry.isSuccess = k

theorem failuresInARow_snoc (past : List Entry) (e : Entry) : failuresInARow (past ++ [e]) =
      if (Entry.isSuccess e || decide (e.input.1 = .reset) || Entry.enters .closed e) = true then 0
      else failuresInARow past + if Entry.isFailure e = true then 1 else 0 := by
  rw [failuresInARow, since_snoc]
  split
  · rfl
  · rw [List.countP_cons]
    rfl

theorem probes_snoc (past : List Entry) (e : Entry) :
    probes (past ++ [e]) = if Entry.enters .halfOpen e = true then [] else e :: probes past :=
  since_snoc _ _ _

theorem openedAt_snoc (past : List Entry) (e : Entry) :
    openedAt (past ++ [e]) = if Entry.enters .opened e = true then some e.input.2
      else openedAt past := by
  rw [openedAt, last_snoc]
  split <;> rfl

section
variable {config : CircuitBreakerConfig} {past : List Entry}

/-- One call of the automaton, as an entry of its trace. -/
@[simp] def Phase.entry (config : CircuitBreakerConfig) (p : Phase) (i : Call × Nat) : Entry :=
  event (Phase.call config) Phase.state p i

/-- A call on the closed automaton: does one more failure open it? -/
theorem closed_call {n : Nat} (h : failuresInARow past = n) (i : Call × Nat) :
    Lawful config past (Phase.entry config (.closed n) i) ∧
      Reflects (past ++ [Phase.entry config (.closed n) i]) (Phase.call config (.closed n) i).1 := by
  obtain ⟨c, now⟩ := i
  refine ⟨⟨fun _ => ?_, nofun, nofun, nofun⟩, ?_⟩
  · by_cases hn : n + 1 = config.failureThreshold <;>
      rcases c with (_ | _) | _ | _ | _ | _ <;> simp [h, hn]
  · by_cases hn : n + 1 = config.failureThreshold <;>
      rcases c with (_ | _) | _ | _ | _ | _ <;>
      simp [failuresInARow_snoc, openedAt_snoc, h, hn]

/-- A call on the open automaton: is the timeout over? -/
theorem opened_call {t : Nat} (h : openedAt past = some t) (i : Call × Nat) :
    Lawful config past (Phase.entry config (.opened t) i) ∧
      Reflects (past ++ [Phase.entry config (.opened t) i]) (Phase.call config (.opened t) i).1 := by
  obtain ⟨c, now⟩ := i
  refine ⟨⟨nofun, fun _ => ⟨t, h, ?_⟩, nofun, fun _ => ?_⟩, ?_⟩
  · by_cases ht : t + config.timeoutMs ≤ now <;> rcases c with (_ | _) | _ | _ | _ | _ <;> simp [ht]
  · by_cases ht : t + config.timeoutMs ≤ now <;> rcases c with (_ | _) | _ | _ | _ | _ <;> simp [ht]
  · by_cases ht : t + config.timeoutMs ≤ now <;>
      rcases c with (_ | _) | _ | _ | _ | _ <;>
      simp [failuresInARow_snoc, openedAt_snoc, probes_snoc, h, ht]

/-- A call on the half-open automaton: does one more success close it? -/
theorem halfOpen_call {k : Nat} (hf : (probes past).countP Entry.isFailure = 0)
    (hk : (probes past).countP Entry.isSuccess = k) (i : Call × Nat) :
    Lawful config past (Phase.entry config (.halfOpen k) i) ∧
      Reflects (past ++ [Phase.entry config (.halfOpen k) i])
        (Phase.call config (.halfOpen k) i).1 := by
  obtain ⟨c, now⟩ := i
  refine ⟨⟨nofun, nofun, fun _ => ⟨?_, hf, ?_, ?_⟩, nofun⟩, ?_⟩
  · rcases c with (_ | _) | _ | _ | _ | _ <;> simp
  · by_cases hs : k + 1 = config.successThreshold <;>
      rcases c with (_ | _) | _ | _ | _ | _ <;> simp [hs]
  · by_cases hs : k + 1 = config.successThreshold <;>
      rcases c with (_ | _) | _ | _ | _ | _ <;> simp [hs, hk]
  · by_cases hs : k + 1 = config.successThreshold <;>
      rcases c with (_ | _) | _ | _ | _ | _ <;>
      simp [failuresInARow_snoc, openedAt_snoc, probes_snoc, hs, hf, hk]

end

/-- **The automaton keeps the laws.** -/
theorem Phase.lawful (config : CircuitBreakerConfig) (calls : List (Call × Nat)) {past : List Entry}
    {e : Entry} {rest : List Entry}
    (h : trace (Phase.call config) Phase.state (.closed 0) calls = past ++ e :: rest) :
    Lawful config past e := by
  refine trace_law (R := Reflects) (fun past p i hp => ?_) calls [] (Phase.closed 0) rfl past e rest h
  cases p with
  | closed n => exact closed_call hp i
  | opened t => exact opened_call hp i
  | halfOpen k => exact halfOpen_call hp.1 hp.2 i

/-! ### The breaker simulates the automaton -/

/-- The breaker is in the state of the automaton, and has its number.  The counters are below their
thresholds, so they do not wrap before they are compared. -/
def Sim (config : CircuitBreakerConfig) (b : CircuitBreaker) : Phase → Prop
  | .closed n => b.state = .closed ∧ b.consecutiveFailures = n ∧ n < config.failureThreshold
  | .opened t => b.state = .opened ∧ b.lastStateChangeMs = t
  | .halfOpen k => b.state = .halfOpen ∧ b.consecutiveSuccesses = k ∧ k < config.successThreshold

/-- The automaton opened at `now` at the latest. -/
def Phase.Since (now : Nat) : Phase → Prop
  | .opened t => t ≤ now
  | _ => True

section
variable {config : CircuitBreakerConfig} {b : CircuitBreaker} {p : Phase} {now : Nat}

theorem increment_of_lt {n : Nat} (h : n + 1 < 2 ^ 32) : increment n = n + 1 := Nat.mod_eq_of_lt h

theorem Sim.state (h : Sim config b p) : b.state = p.state := by
  cases p with
  | closed n | opened t | halfOpen k => exact h.1

/-- A look. -/
theorem sim_look (h : Sim config b p) (ht : p.Since now) (hst : 1 ≤ config.successThreshold) :
    Sim config (b.checkAndUpdateStateReturning config now).1 (p.look config now) ∧
      (b.checkAndUpdateStateReturning config now).2 = (p.look config now).state := by
  cases p with
  | closed n => simp [CircuitBreaker.checkAndUpdateStateReturning, Sim, h.1, h.2]
  | halfOpen k => simp [CircuitBreaker.checkAndUpdateStateReturning, Sim, h.1, h.2]
  | opened t =>
    obtain ⟨hstate, hlast⟩ := h
    have ht : t ≤ now := ht
    by_cases hover : t + config.timeoutMs ≤ now
    · have helapsed : config.timeoutMs ≤ now - t := by omega
      simp [CircuitBreaker.checkAndUpdateStateReturning, Sim, hstate, hlast, hover, helapsed]
      omega
    · have helapsed : ¬ config.timeoutMs ≤ now - t := by omega
      simp [CircuitBreaker.checkAndUpdateStateReturning, Sim, hstate, hlast, hover, helapsed]

/-- A success. -/
theorem sim_success (h : Sim config b p) (hft : 1 ≤ config.failureThreshold) :
    Sim config (b.recordSuccess config now) (p.success config) := by
  cases p with
  | closed n => simp [CircuitBreaker.recordSuccess, Sim, h.1]; omega
  | opened t => simp [CircuitBreaker.recordSuccess, Sim, h.1, h.2]
  | halfOpen k =>
    obtain ⟨hstate, hcount, hlt⟩ := h
    have hbound := config.successThreshold_lt
    have hincrement : increment b.consecutiveSuccesses = k + 1 := by
      rw [hcount]
      exact increment_of_lt (by omega)
    by_cases hs : k + 1 = config.successThreshold
    · simp [CircuitBreaker.recordSuccess, CircuitBreaker.transitionTo, Sim, hstate, hincrement, hs]
      omega
    · have hs' : ¬ config.successThreshold ≤ k + 1 := by omega
      simp [CircuitBreaker.recordSuccess, Sim, hstate, hincrement, hs, hs']
      omega

/-- A failure. -/
theorem sim_failure (h : Sim config b p) :
    Sim config (b.recordFailure config now) (p.failure config now) := by
  cases p with
  | opened t => simp [CircuitBreaker.recordFailure, Sim, h.1, h.2]
  | halfOpen k => simp [CircuitBreaker.recordFailure, CircuitBreaker.transitionTo, Sim, h.1]
  | closed n =>
    obtain ⟨hstate, hcount, hlt⟩ := h
    have hbound := config.failureThreshold_lt
    have hincrement : increment b.consecutiveFailures = n + 1 := by
      rw [hcount]
      exact increment_of_lt (by omega)
    by_cases hs : n + 1 = config.failureThreshold
    · simp [CircuitBreaker.recordFailure, CircuitBreaker.transitionTo, Sim, hstate, hincrement, hs]
    · have hs' : ¬ config.failureThreshold ≤ n + 1 := by omega
      simp [CircuitBreaker.recordFailure, Sim, hstate, hincrement, hs, hs']
      omega

/-- `transition_to` leads to the new state. -/
@[simp] theorem transitionTo_state (newState : CircuitState) :
    (b.transitionTo now newState).state = newState := by
  cases newState <;> simp only [CircuitBreaker.transitionTo] <;> split <;> rfl

/-- `force_open` on the open breaker does not change when it opened. -/
theorem sim_force (h : Sim config b p) : Sim config (b.forceOpen now) (p.force now) := by
  cases p with
  | closed n => simp [CircuitBreaker.forceOpen, CircuitBreaker.transitionTo, Sim, h.1]
  | opened t => simp [CircuitBreaker.forceOpen, CircuitBreaker.transitionTo, Sim, h.1, h.2]
  | halfOpen k => simp [CircuitBreaker.forceOpen, CircuitBreaker.transitionTo, Sim, h.1]

/-- What opens, opens now. -/
theorem Phase.Since.call {later : Nat} (ht : p.Since now) (hlater : now ≤ later) (c : Call) :
    (p.call config (c, now)).1.Since later := by
  have hkeep : p.Since later := by
    cases p with
    | closed n => trivial
    | opened t => exact Nat.le_trans ht hlater
    | halfOpen k => trivial
  have hlook : (p.look config now).Since later := by
    cases p with
    | closed n => trivial
    | opened t => rw [Phase.look]; split <;> [trivial; exact hkeep]
    | halfOpen k => trivial
  cases c with
  | recordOutcome success =>
    cases success with
    | true =>
      cases p with
      | closed n => trivial
      | opened t => exact hkeep
      | halfOpen k => simp only [Phase.call, Phase.success]; split <;> trivial
    | false =>
      cases p with
      | closed n => simp only [Phase.call, Phase.failure]; split <;> [exact hlater; trivial]
      | opened t => exact hkeep
      | halfOpen k => exact hlater
  | state => exact hlook
  | canExecute => exact hlook
  | reset => trivial
  | forceOpen =>
    cases p with
    | closed n => exact hlater
    | opened t => exact hkeep
    | halfOpen k => exact hlater

/-- **One call.** -/
theorem sim_call (hft : 1 ≤ config.failureThreshold) (hst : 1 ≤ config.successThreshold)
    (h : Sim config b p) (ht : p.Since now) (c : Call) :
    (b.call config (c, now)).2 = (p.call config (c, now)).2 ∧
      Sim config (b.call config (c, now)).1 (p.call config (c, now)).1 := by
  cases c with
  | recordOutcome success =>
    cases success with
    | true => exact ⟨rfl, sim_success h hft⟩
    | false => exact ⟨rfl, sim_failure h⟩
  | state =>
    obtain ⟨hsim, hout⟩ := sim_look h ht hst
    exact ⟨congrArg Output.state hout, hsim⟩
  | canExecute =>
    obtain ⟨hsim, hout⟩ := sim_look h ht hst
    refine ⟨?_, hsim⟩
    simp only [CircuitBreaker.call, CircuitBreaker.canExecute, hout, Phase.call]
    cases (p.look config now).state <;> rfl
  | reset => exact ⟨rfl, transitionTo_state _, rfl, hft⟩
  | forceOpen => exact ⟨rfl, sim_force h⟩

end

/-- **The breaker is the automaton**: for calls at non-decreasing times, what is seen of it is what
is seen of the automaton, and every call does what is right in view of the calls before it. -/
theorem trace_lawful (config : CircuitBreakerConfig) (start : Nat) (calls : List (Call × Nat))
    (hft : 1 ≤ config.failureThreshold) (hst : 1 ≤ config.successThreshold)
    (htimes : calls.Pairwise (fun x y => x.2 ≤ y.2)) :
    trace (CircuitBreaker.call config) CircuitBreaker.state (CircuitBreaker.new start) calls =
        trace (Phase.call config) Phase.state (.closed 0) calls ∧
      ∀ past e rest,
        trace (CircuitBreaker.call config) CircuitBreaker.state (CircuitBreaker.new start) calls =
          past ++ e :: rest → Lawful config past e := by
  have heq : trace (CircuitBreaker.call config) CircuitBreaker.state (CircuitBreaker.new start)
      calls = trace (Phase.call config) Phase.state (.closed 0) calls := by
    refine trace_eq_of_sim (R := fun b p l => Sim config b p ∧ (∀ i ∈ l, p.Since i.2) ∧
      l.Pairwise (fun x y => x.2 ≤ y.2)) (fun b p l h => h.1.state) ?_ calls _ _
      ⟨⟨rfl, rfl, hft⟩, fun _ _ => trivial, htimes⟩
    rintro b p ⟨c, now⟩ l ⟨hsim, hsince, hl⟩
    obtain ⟨hfirst, hl⟩ := List.pairwise_cons.mp hl
    have hnow := hsince _ List.mem_cons_self
    obtain ⟨hout, hnext⟩ := sim_call hft hst hsim hnow c
    exact ⟨hout, hnext, fun i hi => hnow.call (hfirst i hi) c, hl⟩
  exact ⟨heq, fun past e rest h => Phase.lawful config calls (heq ▸ h)⟩

example : 1 ≤ CircuitBreakerConfig.default.failureThreshold ∧
    1 ≤ CircuitBreakerConfig.default.successThreshold := by decide

/-- Opens at the first failure, closes at the second success, waits for 5 ms. -/
def quickConfig : CircuitBreakerConfig := .firstFailure 5

/-- A failure, a late success, a look too early and one in time, and two successes. -/
def recovery : List (Call × Nat) :=
  [(.recordOutcome false, 10), (.recordOutcome true, 11), (.canExecute, 14), (.canExecute, 15),
    (.recordOutcome true, 16), (.recordOutcome true, 17)]

theorem recovery_lawful :
    (trace (CircuitBreaker.call quickConfig) CircuitBreaker.state (CircuitBreaker.new 0)
        recovery).map (·.after) = [.opened, .opened, .opened, .halfOpen, .halfOpen, .closed] ∧
      ∀ past e rest,
        trace (CircuitBreaker.call quickConfig) CircuitBreaker.state (CircuitBreaker.new 0) recovery =
          past ++ e :: rest → Lawful quickConfig past e :=
  ⟨by decide, (trace_lawful quickConfig 0 recovery (by decide) (by decide) (by decide)).2⟩

end QwenStack.Breaker

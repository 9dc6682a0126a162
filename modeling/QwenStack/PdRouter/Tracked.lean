import QwenStack.PdRouter.Definitions

/-!
# PD router — tracked streams

`gateway/src/routers/streaming_utils.rs`: a `BreakerTrackedStream` passes on what its inner stream yields,
and tells the breaker of its worker once, when it is dropped.  `recorded_once` says what, after any polls
and marks in any order: an error counts before an end, whichever came first.
-/

namespace QwenStack.PdRouter

open List

inductive Poll (α : Type*) where
  | ready (a : α)
  | pending
  deriving DecidableEq, Repr

/-- What `poll_next` answers, for errors of some type. -/
abbrev Polled (ε : Type*) := Poll (Option (Except ε Bytes))

/-- What may happen to a stream before it is dropped. -/
inductive StreamCall where
  | pollNext
  | markCompleted
  | markErrored
  deriving DecidableEq, Repr

structure BreakerTrackedStream (ε : Type*) where
  /-- The answer of each poll of the inner stream, which may never end. -/
  inner : Nat → Polled ε
  /-- How often it has been polled. -/
  polled : Nat := 0
  terminal : Terminal := .active

/-- What the `Drop` records: a success, a failure, or nothing. -/
def Terminal.recorded : Terminal → List Bool
  | .completed => [true]
  | .errored => [false]
  | .active => []

namespace BreakerTrackedStream
variable {ε : Type*}

/-- `poll_next`. -/
def pollNext (s : BreakerTrackedStream ε) : BreakerTrackedStream ε × Polled ε :=
  let polled := { s with polled := s.polled + 1 }
  match s.inner s.polled with
  | .ready (some (.ok b)) => (polled, .ready (some (.ok b)))
  | .ready (some (.error e)) => ({ polled with terminal := .errored }, .ready (some (.error e)))
  | .ready none =>
      ({ polled with terminal := if s.terminal = .active then .completed else s.terminal }, .ready none)
  | .pending => (polled, .pending)

/-- `mark_completed`. -/
def markCompleted (s : BreakerTrackedStream ε) : BreakerTrackedStream ε :=
  { s with terminal := s.terminal.markCompleted }

/-- `mark_errored`. -/
def markErrored (s : BreakerTrackedStream ε) : BreakerTrackedStream ε :=
  { s with terminal := .errored }

/-- The stream after the calls, and the answers of its polls. -/
def run (s : BreakerTrackedStream ε) : List StreamCall → BreakerTrackedStream ε × List (Polled ε)
  | [] => (s, [])
  | .pollNext :: cs =>
      let after := s.pollNext.1.run cs
      (after.1, s.pollNext.2 :: after.2)
  | .markCompleted :: cs => s.markCompleted.run cs
  | .markErrored :: cs => s.markErrored.run cs

/-- What the stream records when it is dropped. -/
def drop (s : BreakerTrackedStream ε) : List Bool := s.terminal.recorded

end BreakerTrackedStream

section
variable {ε : Type*}

/-- The stream was marked errored, or a polled item was an error. -/
def Errored (cs : List StreamCall) (answers : List (Polled ε)) : Prop :=
  .markErrored ∈ cs ∨ ∃ e, .ready (some (.error e)) ∈ answers

/-- The stream was marked completed, or its end was polled. -/
def Ended (cs : List StreamCall) (answers : List (Polled ε)) : Prop :=
  .markCompleted ∈ cs ∨ .ready none ∈ answers

section
variable {cs : List StreamCall} {answer : Polled ε} {answers : List (Polled ε)}

theorem errored_pollNext : Errored (.pollNext :: cs) (answer :: answers) ↔
    (∃ e, answer = .ready (some (.error e))) ∨ Errored cs answers := by
  simp only [Errored, mem_cons, reduceCtorEq, false_or, exists_or, eq_comm (b := answer)]
  exact or_left_comm

theorem errored_markCompleted : Errored (.markCompleted :: cs) answers ↔ Errored cs answers := by
  simp only [Errored, mem_cons, reduceCtorEq, false_or]

theorem ended_pollNext : Ended (.pollNext :: cs) (answer :: answers) ↔
    answer = .ready none ∨ Ended cs answers := by
  simp only [Ended, mem_cons, reduceCtorEq, false_or, eq_comm (b := answer)]
  exact or_left_comm

end

/-! ### One call -/

variable (s : BreakerTrackedStream ε) (cs : List StreamCall)

@[simp] theorem markCompleted_errored (t : Terminal) : t.markCompleted = .errored ↔ t = .errored := by
  cases t <;> decide

@[simp] theorem markCompleted_active (t : Terminal) : t.markCompleted ≠ .active := by
  cases t <;> decide

/-- A poll answers what the inner stream does. -/
theorem pollNext_answer : s.pollNext.2 = s.inner s.polled := by
  rw [BreakerTrackedStream.pollNext]
  split <;> next heq => exact heq.symm

theorem pollNext_inner : s.pollNext.1.inner = s.inner ∧ s.pollNext.1.polled = s.polled + 1 := by
  rw [BreakerTrackedStream.pollNext]
  split <;> exact ⟨rfl, rfl⟩

/-- What a poll makes of the terminal. -/
theorem pollNext_terminal : (s.pollNext.1.terminal = .errored ↔
      s.terminal = .errored ∨ ∃ e, s.inner s.polled = .ready (some (.error e))) ∧
    (s.pollNext.1.terminal = .active ↔ s.terminal = .active ∧
      (∀ e, s.inner s.polled ≠ .ready (some (.error e))) ∧ s.inner s.polled ≠ .ready none) := by
  rw [BreakerTrackedStream.pollNext]
  split <;> next heq => cases s.terminal <;> simp [heq]

/-! ### Any calls -/

/-- The polls answer the items of the inner stream, in order. -/
theorem run_answers : (s.run cs).2 =
    (List.range' s.polled (cs.count .pollNext)).map s.inner := by
  induction cs generalizing s with
  | nil => rfl
  | cons c cs ih =>
    cases c with
    | pollNext =>
      rw [BreakerTrackedStream.run, ih, (pollNext_inner s).1, (pollNext_inner s).2,
        pollNext_answer, count_cons_self, List.range'_succ, map_cons]
    | markCompleted =>
      rw [BreakerTrackedStream.run, ih, count_cons_of_ne (by decide)]
      rfl
    | markErrored =>
      rw [BreakerTrackedStream.run, ih, count_cons_of_ne (by decide)]
      rfl

/-- **The terminal after any calls**: errored once there was an error, and active until something
happened. -/
theorem run_terminal :
    ((s.run cs).1.terminal = .errored ↔ s.terminal = .errored ∨ Errored cs (s.run cs).2) ∧
      ((s.run cs).1.terminal = .active ↔
        s.terminal = .active ∧ ¬ Errored cs (s.run cs).2 ∧ ¬ Ended cs (s.run cs).2) := by
  induction cs generalizing s with
  | nil => simp [BreakerTrackedStream.run, Errored, Ended]
  | cons c cs ih =>
    cases c with
    | pollNext =>
      obtain ⟨herrored, hactive⟩ := ih s.pollNext.1
      obtain ⟨hpoll, hpoll'⟩ := pollNext_terminal s
      rw [← pollNext_answer] at hpoll hpoll'
      rw [BreakerTrackedStream.run, herrored, hactive, hpoll, hpoll', errored_pollNext,
        ended_pollNext, not_or, not_or, not_exists]
      refine ⟨or_assoc, ?_⟩
      constructor
      · rintro ⟨⟨hterminal, herror, hnone⟩, hrest, hrest'⟩
        exact ⟨hterminal, ⟨herror, hrest⟩, hnone, hrest'⟩
      · rintro ⟨hterminal, ⟨herror, hrest⟩, hnone, hrest'⟩
        exact ⟨⟨hterminal, herror, hnone⟩, hrest, hrest'⟩
    | markCompleted =>
      obtain ⟨herrored, hactive⟩ := ih s.markCompleted
      have hmarked : Ended (.markCompleted :: cs) (s.markCompleted.run cs).2 :=
        Or.inl mem_cons_self
      rw [BreakerTrackedStream.run, herrored, hactive, BreakerTrackedStream.markCompleted,
        markCompleted_errored, errored_markCompleted]
      exact ⟨Iff.rfl, iff_of_false (fun h => markCompleted_active _ h.1) (fun h => h.2.2 hmarked)⟩
    | markErrored =>
      obtain ⟨herrored, hactive⟩ := ih s.markErrored
      have hmarked : Errored (.markErrored :: cs) (s.markErrored.run cs).2 :=
        Or.inl mem_cons_self
      rw [BreakerTrackedStream.run, herrored, hactive]
      refine ⟨iff_of_true (Or.inl rfl) (Or.inr hmarked), iff_of_false ?_ fun h => h.2.1 hmarked⟩
      rintro ⟨herror, -⟩
      cases herror

/-- **One right outcome.**  For every inner stream and any calls before the drop: the polls answer the
inner items, and the drop records one failure if there was an error, else one success if there was an
end, else nothing. -/
theorem recorded_once (inner : Nat → Polled ε) (cs : List StreamCall) :
    let s := BreakerTrackedStream.run { inner := inner } cs
    s.2 = (List.range (cs.count .pollNext)).map inner ∧
      (Errored cs s.2 → s.1.drop = [false]) ∧
      (¬ Errored cs s.2 → Ended cs s.2 → s.1.drop = [true]) ∧
      (¬ Errored cs s.2 → ¬ Ended cs s.2 → s.1.drop = []) := by
  intro s
  obtain ⟨herrored, hactive⟩ := run_terminal { inner := inner } cs
  refine ⟨?_, fun herr => ?_, fun herr hend => ?_, fun herr hend => ?_⟩
  · rw [range_eq_range']
    exact run_answers _ cs
  · rw [BreakerTrackedStream.drop, herrored.mpr (Or.inr herr), Terminal.recorded]
  · have hne : s.1.terminal ≠ .errored := by
      intro h
      rcases herrored.mp h with hstart | herr'
      · cases hstart
      · exact herr herr'
    have hne' : s.1.terminal ≠ .active := fun h => (hactive.mp h).2.2 hend
    rw [BreakerTrackedStream.drop]
    cases hs : s.1.terminal with
    | active => exact absurd hs hne'
    | completed => rfl
    | errored => exact absurd hs hne
  · rw [BreakerTrackedStream.drop, hactive.mpr ⟨rfl, herr, hend⟩, Terminal.recorded]

end

end QwenStack.PdRouter

import Mathlib.Data.List.Basic

/-!
# Support — machines with outputs

A machine takes an input, gives an output and moves.  Its trace from a state is what an observer
writes down: the input, the output, and what is seen of the state before and after.

* `trace_eq_of_sim`: two machines related by a simulation have the same traces.
* `trace_law`: a state that reflects the events so far, step by step, gives a law about every event
  of a trace in terms of the events before it.
* `since`: the events after the last one of a kind.
* `LastAll`: the last few events are of a kind, which is a run of that length (`lastAll_iff`).
-/

namespace QwenStack.Mealy

open List

variable {σ τ ι ο ω : Type*}

/-- One entry of a trace. -/
structure Event (ι ο ω : Type*) where
  input : ι
  before : ω
  output : ο
  after : ω

/-- The event of one step. -/
@[simp] def event (step : σ → ι → σ × ο) (seen : σ → ω) (s : σ) (i : ι) : Event ι ο ω :=
  ⟨i, seen s, (step s i).2, seen (step s i).1⟩

/-- The trace of the inputs `l` from `s`. -/
def trace (step : σ → ι → σ × ο) (seen : σ → ω) : σ → List ι → List (Event ι ο ω)
  | _, [] => []
  | s, i :: l => event step seen s i :: trace step seen (step s i).1 l

variable {step : σ → ι → σ × ο} {seen : σ → ω} {step' : τ → ι → τ × ο} {seen' : τ → ω}

/-- **The rule for simulations.**  The relation may depend on the inputs to come. -/
theorem trace_eq_of_sim {R : σ → τ → List ι → Prop} (hseen : ∀ s t l, R s t l → seen s = seen' t)
    (hstep : ∀ s t i l, R s t (i :: l) →
      (step s i).2 = (step' t i).2 ∧ R (step s i).1 (step' t i).1 l) :
    ∀ (l : List ι) (s : σ) (t : τ), R s t l → trace step seen s l = trace step' seen' t l := by
  intro l
  induction l with
  | nil => exact fun _ _ _ => rfl
  | cons i l ih =>
    intro s t h
    obtain ⟨hout, hnext⟩ := hstep s t i l h
    have hevent : event step seen s i = event step' seen' t i := by
      simp only [event, hseen s t _ h, hout, hseen _ _ _ hnext]
    rw [trace, trace, hevent, ih _ _ hnext]

/-- **The rule for laws of traces.**  `R past s l` says that `s` reflects the events so far; it may
depend on the inputs to come. -/
theorem trace_law_ahead {R : List (Event ι ο ω) → σ → List ι → Prop}
    {L : List (Event ι ο ω) → Event ι ο ω → Prop}
    (hstep : ∀ past s i l, R past s (i :: l) →
      L past (event step seen s i) ∧ R (past ++ [event step seen s i]) (step s i).1 l) :
    ∀ (l : List ι) (past : List (Event ι ο ω)) (s : σ), R past s l →
      ∀ l₁ e l₂, trace step seen s l = l₁ ++ e :: l₂ → L (past ++ l₁) e := by
  intro l
  induction l with
  | nil =>
    intro past s _ l₁ e l₂ h
    cases l₁ <;> cases h
  | cons i l ih =>
    intro past s hR l₁ e l₂ h
    obtain ⟨hlaw, hnext⟩ := hstep past s i l hR
    rw [trace] at h
    cases l₁ with
    | nil =>
      obtain ⟨rfl, -⟩ := List.cons.inj h
      rw [append_nil]
      exact hlaw
    | cons e₁ l₁ =>
      obtain ⟨rfl, hrest⟩ := List.cons.inj h
      have := ih _ _ hnext l₁ e l₂ hrest
      rwa [append_assoc] at this

/-- The rule without a look ahead. -/
theorem trace_law {R : List (Event ι ο ω) → σ → Prop} {L : List (Event ι ο ω) → Event ι ο ω → Prop}
    (hstep : ∀ past s i, R past s →
      L past (event step seen s i) ∧ R (past ++ [event step seen s i]) (step s i).1)
    (l : List ι) (past : List (Event ι ο ω)) (s : σ) (h : R past s) (l₁ : List (Event ι ο ω))
    (e : Event ι ο ω) (l₂ : List (Event ι ο ω)) (htrace : trace step seen s l = l₁ ++ e :: l₂) :
    L (past ++ l₁) e :=
  trace_law_ahead (R := fun past s _ => R past s) (fun past s i _ => hstep past s i) l past s h l₁ e l₂
    htrace

/-! ### Since -/

/-- The entries after the last one that satisfies `p`, the latest first. -/
def since {α : Type*} (p : α → Bool) (past : List α) : List α :=
  past.reverse.takeWhile fun e => !p e

theorem since_snoc {α : Type*} (p : α → Bool) (past : List α) (e : α) :
    since p (past ++ [e]) = if p e = true then [] else e :: since p past := by
  rw [since, reverse_append, reverse_singleton, singleton_append, takeWhile_cons]
  cases p e <;> rfl

/-- The last entry that satisfies `p`. -/
def last {α : Type*} (p : α → Bool) (past : List α) : Option α := past.reverse.find? p

theorem last_snoc {α : Type*} (p : α → Bool) (past : List α) (e : α) :
    last p (past ++ [e]) = if p e = true then some e else last p past := by
  rw [last, reverse_append, reverse_singleton, singleton_append, List.find?_cons]
  cases p e <;> rfl

/-! ### Runs of a kind -/

/-- The first `n` entries are there and satisfy `p`; the latest comes first. -/
def LastAll {α : Type*} (n : Nat) (p : α → Bool) (l : List α) : Prop :=
  n ≤ l.length ∧ ∀ x ∈ l.take n, p x = true

theorem lastAll_iff {α : Type*} {n : Nat} {p : α → Bool} {l : List α} :
    LastAll n p l ↔ n ≤ (l.takeWhile p).length := by
  induction n generalizing l with
  | zero => simp [LastAll]
  | succ n ih =>
    cases l with
    | nil => simp [LastAll]
    | cons a l =>
      rw [takeWhile_cons]
      cases ha : p a with
      | true =>
        rw [if_pos rfl, length_cons, Nat.succ_le_succ_iff, ← ih]
        simp [LastAll, ha]
      | false => simp [LastAll, ha]

end QwenStack.Mealy

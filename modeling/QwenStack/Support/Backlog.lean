import Mathlib.Data.List.Basic

/-!
# Support — Backlog

Work that arrives with the steps of a run and is done one piece a step.  `f` is what a run that
stopped there would still leave to do, however many steps it had: the pieces that have not arrived
yet.  At the end nothing is left exactly where, at no point of the run, fewer steps remain than
there are pieces still to arrive (`backlog_eq_zero_iff`).
-/

namespace QwenStack.Backlog

variable {α : Type*}

/-- The pieces left after the steps: each does one, of those that have arrived. -/
def backlog (f : List α → Nat) : Nat → List α → List α → Nat
  | k, _, [] => k
  | k, past, x :: xs => backlog f (max (k - 1) (f (past ++ [x]))) (past ++ [x]) xs

theorem backlog_eq_zero_iff {f : List α → Nat} (xs : List α) : ∀ {k : Nat} {past : List α}, f past ≤ k →
      (backlog f k past xs = 0 ↔ k ≤ xs.length ∧ ∀ before after, before ++ after = xs →
          f (past ++ before) ≤ after.length) := by
  induction xs with
  | nil =>
    intro k past hk
    rw [backlog]
    constructor
    · rintro rfl
      refine ⟨Nat.le_refl _, fun before after heq => ?_⟩
      obtain ⟨rfl, rfl⟩ := List.append_eq_nil_iff.mp heq
      simpa using hk
    · exact fun h => Nat.le_zero.mp h.1
  | cons x xs ih =>
    intro k past hk
    rw [backlog, ih (Nat.le_max_right _ _)]
    constructor
    · rintro ⟨hle, hall⟩
      have hk' : k ≤ xs.length + 1 := by
        have := Nat.le_trans (Nat.le_max_left (k - 1) _) hle
        omega
      refine ⟨hk', fun before after heq => ?_⟩
      cases before with
      | nil =>
        obtain rfl : after = x :: xs := heq
        rw [List.append_nil]
        exact Nat.le_trans hk hk'
      | cons y before =>
        obtain ⟨rfl, heq'⟩ := List.cons.inj heq
        simpa using hall before after heq'
    · rintro ⟨hle, hall⟩
      refine ⟨Nat.max_le.mpr ⟨?_, hall [x] xs rfl⟩, fun before after heq => ?_⟩
      · rw [List.length_cons] at hle
        omega
      · have := hall (x :: before) after (by rw [← heq]; rfl)
        simpa using this

end QwenStack.Backlog

import Mathlib.Data.List.Basic

/-!
# Support — ranges that tile an interval

A list of ranges tiles the interval from `lo` to `hi` if the ranges follow one another from `lo` up
to `hi`, both ends of a range included.  `Tiles.covers` finds the range of a number, `Tiles.ordered`
says that the ranges are apart.
-/

namespace QwenStack.Ranges

/-- The ranges follow one another from `lo` to `hi`. -/
def Tiles (hi : Nat) : Nat → List (Nat × Nat) → Prop
  | lo, [] => lo = hi + 1
  | lo, r :: l => r.1 = lo ∧ r.1 ≤ r.2 ∧ Tiles hi (r.2 + 1) l

variable {lo hi c : Nat} {l : List (Nat × Nat)}

theorem tiles_singleton (h : lo ≤ hi) : Tiles hi lo [(lo, hi)] := ⟨rfl, h, rfl⟩

theorem Tiles.le {r : Nat × Nat} (h : Tiles hi lo l) (hr : r ∈ l) : lo ≤ r.1 ∧ r.1 ≤ r.2 := by
  induction l generalizing lo with
  | nil => cases hr
  | cons r' l ih =>
    obtain ⟨hlo, hle, hl⟩ := h
    rcases List.mem_cons.mp hr with rfl | hr
    · exact ⟨Nat.le_of_eq hlo.symm, hle⟩
    · obtain ⟨h₁, h₂⟩ := ih hl hr
      exact ⟨by omega, h₂⟩

/-- The ranges are apart, in order. -/
theorem Tiles.ordered (h : Tiles hi lo l) : l.Pairwise fun r r' => r.2 < r'.1 := by
  induction l generalizing lo with
  | nil => exact .nil
  | cons r l ih =>
    obtain ⟨-, -, hl⟩ := h
    exact .cons (fun r' hr' => (hl.le hr').1) (ih hl)

/-- Each range starts where the one before it ends. -/
theorem Tiles.next (h : Tiles hi lo l) : l.IsChain fun r r' => r'.1 = r.2 + 1 := by
  induction l generalizing lo with
  | nil => exact .nil
  | cons r l ih =>
    obtain ⟨-, -, hl⟩ := h
    cases l with
    | nil => exact .singleton r
    | cons r' l => exact .cons_cons hl.1 (ih hl)

theorem Tiles.last {r : Nat × Nat} (h : Tiles hi lo l) (hr : l.getLast? = some r) : r.2 = hi := by
  induction l generalizing lo with
  | nil => cases hr
  | cons r' l ih =>
    obtain ⟨-, -, hl⟩ := h
    cases l with
    | nil =>
      cases hr
      exact Nat.succ.inj hl
    | cons r'' l => exact ih hl (by rwa [List.getLast?_cons_cons] at hr)

/-- Every number of the interval is in a range. -/
theorem Tiles.covers (h : Tiles hi lo l) (hlo : lo ≤ c) (hhi : c ≤ hi) :
    ∃ (k : Nat) (r : Nat × Nat), l[k]? = some r ∧ r.1 ≤ c ∧ c ≤ r.2 := by
  induction l generalizing lo with
  | nil =>
    have : lo = hi + 1 := h
    omega
  | cons r l ih =>
    obtain ⟨hr, -, hl⟩ := h
    by_cases hc : c ≤ r.2
    · exact ⟨0, r, rfl, hr ▸ hlo, hc⟩
    · obtain ⟨k, r', hk, hin⟩ := ih hl (by omega)
      exact ⟨k + 1, r', hk, hin⟩

end QwenStack.Ranges

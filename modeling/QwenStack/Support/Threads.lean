import Mathlib.Data.List.Basic

/-!
# Support — pools of threads

A pool is a list of threads; a thread that moves is replaced at its place.  Counting the threads
that satisfy a predicate before and after a move is one equation, without subtraction.
-/

namespace QwenStack.Threads

variable {τ : Type*}

variable {l : List τ} {i : Nat} {t : τ} (h : l[i]? = some t)
include h

/-- One thread moves from `t` to `t'`. -/
theorem countP_move (t' : τ) (p : τ → Bool) : (l.set i t').countP p + (if p t = true then 1 else 0) =
      l.countP p + if p t' = true then 1 else 0 := by
  obtain ⟨hi, rfl⟩ := List.getElem?_eq_some_iff.mp h
  have hle := List.boole_getElem_le_countP (p := p) hi
  rw [List.countP_set hi]
  omega

/-- A move the predicate does not see. -/
theorem countP_move_same {t' : τ}
    {p : τ → Bool} (hp : p t' = p t) : (l.set i t').countP p = l.countP p := by
  have := countP_move h t' p
  rw [hp] at this
  omega

/-- A thread that is there counts. -/
theorem countP_pos {p : τ → Bool} (hp : p t = true) : 0 < l.countP p :=
  List.countP_pos_iff.mpr ⟨t, List.mem_of_getElem? h, hp⟩

/-- A thread is between others, and its move is there. -/
theorem exists_split : ∃ l₁ l₂, l = l₁ ++ t :: l₂ ∧ ∀ t', l.set i t' = l₁ ++ t' :: l₂ := by
  obtain ⟨hi, rfl⟩ := List.getElem?_eq_some_iff.mp h
  refine ⟨l.take i, l.drop (i + 1), ?_, fun t' => List.set_eq_take_append_cons_drop.trans (if_pos hi)⟩
  rw [List.getElem_cons_drop, List.take_append_drop]

/-- The others, in any order. -/
theorem exists_perm : ∃ rest, l.Perm (t :: rest) ∧ ∀ t', (l.set i t').Perm (t' :: rest) := by
  obtain ⟨l₁, l₂, rfl, hset⟩ := exists_split h
  refine ⟨l₁ ++ l₂, List.perm_middle, fun t' => ?_⟩
  rw [hset]
  exact List.perm_middle

end QwenStack.Threads

import Mathlib.Data.List.Basic
import Mathlib.Algebra.Order.BigOperators.Group.List
import Mathlib.Algebra.Order.Ring.Nat

/-!
# Support — a heap as a list of cells

Cells are read with `h[n]?`, updated with `List.modify` and allocated at the end.  The lemmas say
what a cell reads after each, and how a sum over all cells changes.
-/

namespace QwenStack.Heap

open List

variable {α : Type*} {h : List α} {a b : α} {f : α → α} {m n : Nat}

theorem modify_same (e : h[n]? = some a) : (h.modify n f)[n]? = some (f a) := by
  rw [List.getElem?_modify_eq, e]; rfl

theorem modify_other (hmn : m ≠ n) : (h.modify m f)[n]? = h[n]? :=
  List.getElem?_modify_ne f h hmn

/-- A cell after an update was a cell before it. -/
theorem modify_inv (e : (h.modify m f)[n]? = some b) :
    (m = n ∧ ∃ a, h[n]? = some a ∧ b = f a) ∨ (m ≠ n ∧ h[n]? = some b) := by
  by_cases hmn : m = n
  · subst hmn
    rw [List.getElem?_modify_eq, Option.map_eq_map, Option.map_eq_some_iff] at e
    obtain ⟨a, ha, rfl⟩ := e
    exact .inl ⟨rfl, a, ha, rfl⟩
  · exact .inr ⟨hmn, (modify_other hmn) ▸ e⟩

theorem lt_of_read (e : h[n]? = some a) : n < h.length := (List.getElem?_eq_some_iff.mp e).1

theorem alloc_same : (h ++ [a])[h.length]? = some a := by simp

theorem alloc_other (e : h[n]? = some b) : (h ++ [a])[n]? = some b := by
  rw [List.getElem?_append_left (lt_of_read e), e]

/-- A cell after an allocation is the new one or was there before. -/
theorem alloc_inv (e : (h ++ [a])[n]? = some b) :
    (n = h.length ∧ b = a) ∨ h[n]? = some b := by
  rcases Nat.lt_trichotomy n h.length with hn | hn | hn
  · exact .inr (by rwa [List.getElem?_append_left hn] at e)
  · subst hn
    rw [alloc_same] at e
    exact .inl ⟨rfl, (Option.some.inj e).symm⟩
  · rw [List.getElem?_append_right (by omega), List.getElem?_singleton, if_neg (by omega)] at e
    cases e

/-- A sum over the cells, after an update of one of them. -/
theorem sum_modify (w : α → Nat) : ∀ {h : List α} {n : Nat} {a : α}, h[n]? = some a →
    ((h.modify n f).map w).sum + w a = (h.map w).sum + w (f a)
  | [], _, _, e => by simp at e
  | b :: h, 0, a, e => by
      simp only [List.getElem?_cons_zero, Option.some.injEq] at e
      subst e
      simp only [modify_zero_cons, map_cons, sum_cons]
      omega
  | b :: h, n + 1, a, e => by
      rw [List.getElem?_cons_succ] at e
      have := sum_modify w e
      simp only [modify_succ_cons, map_cons, sum_cons]
      omega

theorem sum_modify_same (w : α → Nat) (hw : ∀ x, w (f x) = w x) :
    ((h.modify n f).map w).sum = (h.map w).sum := by
  cases e : h[n]? with
  | none =>
    rw [modify_eq_self (List.getElem?_eq_none_iff.mp e)]
  | some a =>
    have := sum_modify (f := f) w e
    rw [hw] at this
    omega

theorem le_sum_of_read (w : α → Nat) (e : h[n]? = some a) : w a ≤ (h.map w).sum :=
  le_sum_of_mem (mem_map_of_mem (List.mem_of_getElem? e))

theorem sum_eq_zero (w : α → Nat) (hz : ∀ (n : Nat) a, h[n]? = some a → w a = 0) :
    (h.map w).sum = 0 := by
  refine List.sum_eq_zero_iff.mpr fun x hx => ?_
  obtain ⟨a, ha, rfl⟩ := List.mem_map.mp hx
  obtain ⟨n, hn⟩ := List.mem_iff_getElem?.mp ha
  exact hz n a hn

end QwenStack.Heap

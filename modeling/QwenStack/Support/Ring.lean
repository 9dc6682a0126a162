import Mathlib.Data.List.Rotate
import Mathlib.Data.List.Sort

/-!
# Support — reading a sorted list in a circle

Entries carry a position and are sorted by it.  `clockwise key` reads them from the first position
at or after `key`, around to the last one before it.  On a sorted list this is a rotation by the
number of smaller positions (`rotate_eq_clockwise`), which is how a binary search with wrap-around
reads it; as two filters it commutes with leaving entries out (`filter_clockwise`).

`find_of_subset` and `head_filter` are the two facts about the first acceptable entry of a list
that minimal disruption rests on.
-/

namespace QwenStack.Ring

open List

variable {α β : Type*} [LinearOrder α]

/-- The entries at or after `key`, then those before it. -/
def clockwise (key : α) (entries : List (α × β)) : List (α × β) :=
  entries.filter (fun e => decide (key ≤ e.1)) ++ entries.filter (fun e => decide (e.1 < key))

theorem mem_clockwise {key : α} {entries : List (α × β)} {e : α × β} :
    e ∈ clockwise key entries ↔ e ∈ entries := by
  simp only [clockwise, mem_append, mem_filter, decide_eq_true_eq]
  constructor
  · rintro (h | h)
    · exact h.1
    · exact h.1
  · intro h
    exact (le_or_gt key e.1).imp (⟨h, ·⟩) (⟨h, ·⟩)

theorem filter_clockwise (key : α) (entries : List (α × β)) (p : α × β → Bool) :
    (clockwise key entries).filter p = clockwise key (entries.filter p) := by
  simp only [clockwise, filter_append, filter_filter, Bool.and_comm]

/-- In a sorted list the smaller positions come first. -/
theorem filter_eq_of_sorted {entries : List (α × β)}
    (h : entries.Pairwise fun a b => a.1 ≤ b.1) (key : α) :
    entries.filter (fun e => decide (e.1 < key)) = entries.takeWhile (fun e => decide (e.1 < key)) ∧
      entries.filter (fun e => decide (key ≤ e.1)) =
        entries.dropWhile (fun e => decide (e.1 < key)) := by
  induction entries with
  | nil => exact ⟨rfl, rfl⟩
  | cons e entries ih =>
    rw [pairwise_cons] at h
    by_cases hk : e.1 < key
    · obtain ⟨ih₁, ih₂⟩ := ih h.2
      simp only [filter_cons, takeWhile_cons, dropWhile_cons, hk, not_le.mpr hk,
        decide_true, decide_false, if_true, ih₁, ih₂, Bool.false_eq_true, if_false, and_self]
    · -- no later entry is smaller than this one
      have hle : ∀ e' ∈ entries, key ≤ e'.1 := fun e' he' => (not_lt.mp hk).trans (h.1 e' he')
      have hno : entries.filter (fun e => decide (e.1 < key)) = [] :=
        List.filter_eq_nil_iff.mpr fun e' he' => by simpa using hle e' he'
      have hall : entries.filter (fun e => decide (key ≤ e.1)) = entries :=
        List.filter_eq_self.mpr fun e' he' => by simpa using hle e' he'
      simp only [filter_cons, takeWhile_cons, dropWhile_cons, hk, not_lt.mp hk,
        decide_true, decide_false, if_true, hno, hall, Bool.false_eq_true, if_false, and_self]

/-- **A binary search with wrap-around reads clockwise.** -/
theorem rotate_eq_clockwise {entries : List (α × β)}
    (h : entries.Pairwise fun a b => a.1 ≤ b.1) (key : α) :
    entries.rotate (entries.takeWhile fun e => decide (e.1 < key)).length = clockwise key entries := by
  obtain ⟨h₁, h₂⟩ := filter_eq_of_sorted h key
  have hrot := rotate_append_length_eq (entries.takeWhile fun e => decide (e.1 < key))
    (entries.dropWhile fun e => decide (e.1 < key))
  rw [takeWhile_append_dropWhile] at hrot
  rw [clockwise, h₁, h₂, hrot]

omit [LinearOrder α] in
/-- The entries at the indices `n, n + 1, …` around the list. -/
theorem filterMap_getElem_eq_rotate {l : List α} (n : ℕ) :
    (List.range l.length).filterMap (fun i => l[(n + i) % l.length]?) = l.rotate n := by
  have all : ∀ l : List α, (List.range l.length).filterMap (fun i => l[i]?) = l := by
    intro l
    induction l with
    | nil => rfl
    | cons a l ih =>
      rw [length_cons, range_succ_eq_map, filterMap_cons, filterMap_map]
      simp only [List.getElem?_cons_zero, Function.comp_def, List.getElem?_cons_succ, ih]
  conv_rhs => rw [← all (l.rotate n), length_rotate]
  refine filterMap_congr fun i hi => ?_
  rw [List.getElem?_rotate (List.mem_range.mp hi), Nat.add_comm]

/-- Two sorted lists of the same entries are equal where no two entries share a position. -/
theorem eq_of_perm {l l' : List (α × β)} (h : l.Pairwise fun a b => a.1 ≤ b.1)
    (h' : l'.Pairwise fun a b => a.1 ≤ b.1) (hp : l.Perm l')
    (hd : ∀ a ∈ l, ∀ b ∈ l, a.1 = b.1 → a = b) : l = l' :=
  List.Perm.eq_of_pairwise
    (fun a b ha hb hab hba => hd a ha b (hp.mem_iff.mpr hb) (le_antisymm hab hba)) h h' hp

/-! ### The first acceptable entry -/

omit [LinearOrder α] in
/-- Fewer acceptable entries: the first one stays first as long as it is acceptable. -/
theorem find_of_subset {p q : α → Bool} {l : List α}
    (hpq : ∀ a ∈ l, p a = true → q a = true) {a : α} (hq : l.find? q = some a)
    (hp : p a = true) : l.find? p = some a := by
  obtain ⟨-, before, after, rfl, hbefore⟩ := List.find?_eq_some_iff_append.mp hq
  refine List.find?_eq_some_iff_append.mpr ⟨hp, before, after, rfl, fun b hb => ?_⟩
  cases hpb : p b with
  | false => rfl
  | true =>
    have := hbefore b hb
    rw [hpq b (mem_append_left _ hb) hpb] at this
    cases this

omit [LinearOrder α] in
/-- The first entry is the first of the entries left in, unless it is left out. -/
theorem head_filter {p : α → Bool} {l : List α} {a : α} (h : l.head? = some a) (hp : p a = true) :
    (l.filter p).head? = some a := by
  cases l with
  | nil => cases h
  | cons b l =>
    cases h
    rw [filter_cons_of_pos hp]
    rfl

end QwenStack.Ring

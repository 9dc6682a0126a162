import Mathlib.Data.List.Basic
import Mathlib.Data.List.Nodup

/-!
# Support — numbers in the order of first appearance

A list grows at its end.  Some of its entries have a key and bear a number.  `Enumerates` says that the
keys have a number each, from 0 on, and under a condition that this is the order in which they appear
first; an entry keeps it if its number is that of its key, or the next one if its key is new.
-/

namespace QwenStack.FirstSeen

open List

variable {α β κ : Type*} [DecidableEq α] [DecidableEq κ]

theorem eraseDups_concat (l : List α) (a : α) :
    (l ++ [a]).eraseDups = if a ∈ l then l.eraseDups else l.eraseDups ++ [a] := by
  rw [eraseDups_append, List.removeAll]
  by_cases h : a ∈ l
  · have helem : l.contains a = true := List.contains_iff_mem.mpr h
    rw [if_pos h, filter_cons_of_neg (by rw [elem_eq_contains, helem]; exact Bool.false_ne_true)]
    exact append_nil _
  · have helem : l.contains a = false := by rw [contains_eq_mem, decide_eq_false h]
    rw [if_neg h, filter_cons_of_pos (by rw [elem_eq_contains, helem]; rfl)]
    rfl

theorem eraseDups_concat_of_mem {l : List α} {a : α} (h : a ∈ l) :
    (l ++ [a]).eraseDups = l.eraseDups := by
  rw [eraseDups_concat, if_pos h]

theorem eraseDups_concat_of_not_mem {l : List α} {a : α} (h : a ∉ l) :
    (l ++ [a]).eraseDups = l.eraseDups ++ [a] := by
  rw [eraseDups_concat, if_neg h]

/-- The number that an entry with a key bears. -/
def numbered (key : β → Option κ) (number : β → Option Nat) (b : β) : Option Nat :=
  (key b).bind fun _ => number b

/-- **Numbers by first appearance**: an entry bears the place of its key in `items`, and if `T` holds
these are the keys in the order in which they appear. -/
structure Enumerates (T : Prop) (key : β → Option κ) (number : β → Option Nat) (items : List κ)
    (l : List β) : Prop where
  placed : ∀ b ∈ l, ∀ k, key b = some k → k ∈ items ∧ number b = some (items.idxOf k)
  first : T → (l.filterMap key).eraseDups = items
  inOrder : T → (l.filterMap (numbered key number)).eraseDups = List.range items.length

namespace Enumerates
variable {T : Prop} {key : β → Option κ} {number : β → Option Nat} {items : List κ} {l : List β}

theorem nil : Enumerates T key number [] ([] : List β) :=
  ⟨fun _ h => absurd h not_mem_nil, fun _ => rfl, fun _ => rfl⟩

variable (h : Enumerates T key number items l)
include h

theorem mem_items {b : β} (hb : b ∈ l) {k : κ}
    (hk : key b = some k) : k ∈ items := (h.placed b hb k hk).1

theorem mem_numbers (hT : T) {n : Nat} :
    n ∈ l.filterMap (numbered key number) ↔ n < items.length := by
  rw [← mem_eraseDups, h.inOrder hT, mem_range]

/-- A key that no entry has; then the order is not that of appearance. -/
theorem extend (hT : ¬ T) (k : κ) : Enumerates T key number (items ++ [k]) l := by
  refine ⟨fun b hb k' hk' => ?_, fun h => absurd h hT, fun h => absurd h hT⟩
  obtain ⟨hmem, hn⟩ := h.placed b hb k' hk'
  refine ⟨mem_append_left _ hmem, ?_⟩
  rw [hn, idxOf_append, if_pos hmem]

/-- An entry without a key. -/
theorem concat_none {b : β} (hb : key b = none) : Enumerates T key number items (l ++ [b]) := by
  have hn : numbered key number b = none := by rw [numbered, hb, Option.bind_none]
  refine ⟨fun b' hb' k hk => ?_, fun hT => ?_, fun hT => ?_⟩
  · rcases List.mem_append.mp hb' with hb' | hb'
    · exact h.placed b' hb' k hk
    · obtain rfl := List.mem_singleton.mp hb'
      rw [hb] at hk
      cases hk
  · rw [filterMap_append, filterMap_cons_none hb, filterMap_nil, append_nil]
    exact h.first hT
  · rw [filterMap_append, filterMap_cons_none hn, filterMap_nil, append_nil]
    exact h.inOrder hT

/-- An entry with a key that has a number. -/
theorem concat_old {b : β} {k : κ} (hb : key b = some k)
    (hk : k ∈ items) (hn : number b = some (items.idxOf k)) :
    Enumerates T key number items (l ++ [b]) := by
  have hnumber : numbered key number b = some (items.idxOf k) := by
    rw [numbered, hb, Option.bind_some, hn]
  refine ⟨fun b' hb' k' hk' => ?_, fun hT => ?_, fun hT => ?_⟩
  · rcases List.mem_append.mp hb' with hb' | hb'
    · exact h.placed b' hb' k' hk'
    · obtain rfl := List.mem_singleton.mp hb'
      rw [hb] at hk'
      cases hk'
      exact ⟨hk, hn⟩
  · rw [filterMap_append, filterMap_cons_some hb, filterMap_nil,
      eraseDups_concat_of_mem]
    · exact h.first hT
    · rw [← h.first hT, mem_eraseDups] at hk
      exact hk
  · rw [filterMap_append, filterMap_cons_some hnumber, filterMap_nil,
      eraseDups_concat_of_mem ((h.mem_numbers hT).mpr (List.idxOf_lt_length_iff.mpr hk))]
    exact h.inOrder hT

/-- An entry with a new key, that bears the next number. -/
theorem concat_new {b : β} {k : κ} (hb : key b = some k)
    (hk : k ∉ items) (hn : number b = some items.length) :
    Enumerates T key number (items ++ [k]) (l ++ [b]) := by
  have hnumber : numbered key number b = some items.length := by
    rw [numbered, hb, Option.bind_some, hn]
  have hidx : (items ++ [k]).idxOf k = items.length := by
    rw [idxOf_append, if_neg hk, idxOf_cons_self, Nat.zero_add]
  refine ⟨fun b' hb' k' hk' => ?_, fun hT => ?_, fun hT => ?_⟩
  · rcases List.mem_append.mp hb' with hb' | hb'
    · obtain ⟨hmem, hold⟩ := h.placed b' hb' k' hk'
      rw [hold, idxOf_append, if_pos hmem]
      exact ⟨mem_append_left _ hmem, rfl⟩
    · obtain rfl := List.mem_singleton.mp hb'
      rw [hb] at hk'
      cases hk'
      rw [hn, hidx]
      exact ⟨mem_append_right _ (mem_singleton_self _), rfl⟩
  · rw [filterMap_append, filterMap_cons_some hb, filterMap_nil,
      eraseDups_concat_of_not_mem, h.first hT]
    rw [← h.first hT, mem_eraseDups] at hk
    exact hk
  · rw [filterMap_append, filterMap_cons_some hnumber, filterMap_nil,
      eraseDups_concat_of_not_mem (fun hmem => Nat.lt_irrefl _ ((h.mem_numbers hT).mp hmem)),
      h.inOrder hT, length_append, length_singleton, range_succ]

/-- One key has one number. -/
theorem same {b b' : β} (hb : b ∈ l) (hb' : b' ∈ l) {k : κ}
    (hk : key b = some k) (hk' : key b' = some k) : number b = number b' := by
  rw [(h.placed b hb k hk).2, (h.placed b' hb' k hk').2]

/-- Two keys have two numbers. -/
theorem apart {b b' : β} (hb : b ∈ l) (hb' : b' ∈ l) {k k' : κ}
    (hk : key b = some k) (hk' : key b' = some k') (hne : k ≠ k') : number b ≠ number b' := by
  rw [(h.placed b hb k hk).2, (h.placed b' hb' k' hk').2]
  intro heq
  exact hne (idxOf_inj (h.mem_items hb hk) |>.mp (Option.some.inj heq))

end Enumerates

end QwenStack.FirstSeen

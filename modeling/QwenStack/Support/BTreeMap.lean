import Mathlib.Data.List.Lex
import Mathlib.Data.List.Sort
import QwenStack.Support.Assoc

/-!
# Support — maps in key order

A `BTreeMap` is an association list whose keys increase.  `insert` keeps the order, so a value that
breaks it cannot be built.
-/

namespace QwenStack
open Assoc List

/-- A map, as its entries in key order. -/
structure BTreeMap (α β : Type) [LinearOrder α] where
  entries : List (α × β)
  sorted : (keys entries).Pairwise (· < ·)

namespace BTreeMap

variable {α β : Type} [LinearOrder α] [DecidableEq α]

/-- The value of a key. -/
def get (m : BTreeMap α β) (k : α) : Option β := m.entries.lookup k

/-- The map without entries. -/
def empty : BTreeMap α β := ⟨[], List.Pairwise.nil⟩

/-- Insertion before the first larger key. -/
def insertEntry (k : α) (v : β) : List (α × β) → List (α × β)
  | [] => [(k, v)]
  | e :: l =>
      if k = e.1 then (k, v) :: l
      else if k < e.1 then (k, v) :: e :: l
      else e :: insertEntry k v l

theorem mem_keys_insertEntry {x k : α} {v : β} {l : List (α × β)} :
    x ∈ keys (insertEntry k v l) ↔ x = k ∨ x ∈ keys l := by
  induction l with
  | nil => simp [insertEntry]
  | cons e l ih =>
    rw [insertEntry]
    split
    · next h => simp [← h]
    · split
      · simp
      · simp only [Assoc.keys_cons, mem_cons, ih]
        tauto

theorem sorted_insertEntry (k : α) (v : β) {l : List (α × β)}
    (h : (keys l).Pairwise (· < ·)) : (keys (insertEntry k v l)).Pairwise (· < ·) := by
  induction l with
  | nil => simp [insertEntry]
  | cons e l ih =>
    rw [Assoc.keys_cons, pairwise_cons] at h
    rw [insertEntry]
    split
    · next hk => exact List.pairwise_cons.mpr ⟨fun x hx => hk ▸ h.1 x hx, h.2⟩
    · next hk =>
      split
      · next hlt =>
        refine List.pairwise_cons.mpr ⟨fun x hx => ?_, List.pairwise_cons.mpr h⟩
        rcases List.mem_cons.mp hx with rfl | hx
        · exact hlt
        · exact hlt.trans (h.1 x hx)
      · next hlt =>
        have hgt : e.1 < k := lt_of_le_of_ne (not_lt.mp hlt) (Ne.symm hk)
        refine List.pairwise_cons.mpr ⟨fun x hx => ?_, ih h.2⟩
        rcases mem_keys_insertEntry.mp hx with rfl | hx
        · exact hgt
        · exact h.1 x hx

/-- `insert`. -/
def insert (k : α) (v : β) (m : BTreeMap α β) : BTreeMap α β :=
  ⟨insertEntry k v m.entries, sorted_insertEntry k v m.sorted⟩

/-- `collect`. -/
def ofList (l : List (α × β)) : BTreeMap α β := l.foldl (fun m e => m.insert e.1 e.2) empty

omit [DecidableEq α] in
theorem nodup_keys (m : BTreeMap α β) : (keys m.entries).Nodup :=
  m.sorted.imp fun h => h.ne

theorem get_insert (m : BTreeMap α β) (x k : α) (v : β) :
    (m.insert k v).get x = if x = k then some v else m.get x := by
  obtain ⟨l, hl⟩ := m
  simp only [get, insert]
  clear hl
  induction l with
  | nil => rw [insertEntry, lookup_cons_eq]
  | cons e l ih =>
    obtain ⟨k', v'⟩ := e
    rw [insertEntry]
    split
    · next h =>
      subst h
      rw [lookup_cons_eq, lookup_cons_eq]
      split <;> rfl
    · next h =>
      split
      · rw [lookup_cons_eq]
      · rw [lookup_cons_eq, lookup_cons_eq, ih]
        by_cases hx : x = k'
        · rw [if_pos hx, if_pos hx, if_neg]
          rintro rfl
          exact h hx
        · rw [if_neg hx, if_neg hx]

theorem get_ofList {l : List (α × β)} (h : (keys l).Nodup) (x : α) :
    (ofList l).get x = l.lookup x := by
  have hget := lookup_foldl (g := get) (m := empty) (fun x k v m => get_insert m x k v) h x
  rw [ofList, hget]
  exact Option.or_none

theorem insertEntry_last {k : α} {v : β} {l : List (α × β)} (h : ∀ x ∈ keys l, x < k) :
    insertEntry k v l = l ++ [(k, v)] := by
  induction l with
  | nil => rfl
  | cons e l ih =>
    rw [Assoc.keys_cons, forall_mem_cons] at h
    rw [insertEntry, if_neg h.1.ne', if_neg h.1.asymm, ih h.2]
    rfl

/-- The entries of a map, collected, are the map. -/
theorem ofList_entries (m : BTreeMap α β) : ofList m.entries = m := by
  have key : ∀ (l : List (α × β)) (acc : BTreeMap α β), (keys (acc.entries ++ l)).Pairwise (· < ·) →
      (l.foldl (fun m e => m.insert e.1 e.2) acc).entries = acc.entries ++ l := by
    intro l
    induction l with
    | nil => exact fun acc _ => (append_nil _).symm
    | cons e l ih =>
      intro acc h
      have hlast : (acc.insert e.1 e.2).entries = acc.entries ++ [e] := by
        refine insertEntry_last fun x hx => ?_
        rw [Assoc.keys_append, pairwise_append] at h
        exact h.2.2 x hx e.1 mem_cons_self
      rw [foldl_cons, ih _ (by rw [hlast, append_assoc]; exact h), hlast, append_assoc]
      rfl
  obtain ⟨l, hl⟩ := m
  have := key l empty hl
  rw [ofList]
  cases h : l.foldl (fun m e => m.insert e.1 e.2) empty with
  | mk l' hl' =>
    rw [h] at this
    subst this
    rfl

end BTreeMap

end QwenStack

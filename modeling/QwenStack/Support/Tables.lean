import Mathlib.Data.List.Dedup
import QwenStack.Support.Assoc

/-!
# Support — indices, maps with several values for a key, tallies

An index files items under keys: a map from keys to lists of items.  It is `Exact` for a relation
between keys and items when every slot lists the related items, each once.  Filing an item that is
not yet there and taking items out keep an index exact, for the relation changed accordingly.

A `Multimap` has the values of each key in order, and its entries are iterated key by key.  `insert` puts
one value in the place of all the values of a key, so that of entries inserted one after the other only the
last of each key is left (`getAll_foldl_insert`).

A tally is a map from keys to counts that has no entry for a count of zero.  `Tally m n` says that
`m` is the tally of the counts `n`.  Counting one up or one down keeps it a tally (`Tally.up`,
`Tally.down`), and its size is the number of distinct keys that count (`Tally.length_eq`).
-/

namespace QwenStack.Assoc

variable {κ ι : Type*} [DecidableEq κ]

/-- The items under a key; none when the key has no slot. -/
def slot (m : List (κ × List ι)) (k : κ) : List ι := (m.lookup k).getD []

theorem slot_upsert (m : List (κ × List ι)) (k k' : κ) (x : ι) :
    slot (upsert k (· ++ [x]) [x] m) k' = if k' = k then slot m k ++ [x] else slot m k' := by
  rw [slot, lookup_upsert]
  split
  · rw [slot]
    cases m.lookup k <;> rfl
  · rfl

theorem slot_andModify (m : List (κ × List ι)) (k k' : κ) (p : ι → Bool) :
    slot (andModify k (fun l => l.filter p) m) k' =
      if k' = k then (slot m k).filter p else slot m k' := by
  rw [slot, lookup_andModify]
  split
  · rw [slot]
    cases m.lookup k <;> rfl
  · rfl

/-- Every slot lists the items related to its key, each once. -/
def Exact (m : List (κ × List ι)) (R : κ → ι → Prop) : Prop :=
  ∀ k, (slot m k).Nodup ∧ ∀ x, x ∈ slot m k ↔ R k x

namespace Exact
variable {m : List (κ × List ι)} {R R' : κ → ι → Prop} {k : κ}

theorem congr (h : Exact m R) (hR : ∀ k x, R k x ↔ R' k x) : Exact m R' :=
  fun k => ⟨(h k).1, fun x => ((h k).2 x).trans (hR k x)⟩

/-- Filing a new item. -/
theorem add (h : Exact m R) {x : ι} (hx : ¬ R k x) :
    Exact (upsert k (· ++ [x]) [x] m) fun k' y => R k' y ∨ k' = k ∧ y = x := by
  intro k'
  rw [slot_upsert]
  split
  · next hk =>
    subst hk
    refine ⟨List.nodup_append.mpr ⟨(h k').1, List.nodup_singleton x, ?_⟩, fun y => ?_⟩
    · rintro a ha b hb rfl
      obtain rfl := List.mem_singleton.mp hb
      exact hx (((h k').2 a).mp ha)
    · rw [List.mem_append, (h k').2, List.mem_singleton]
      exact or_congr_right (by simp)
  · next hk => exact ⟨(h k').1, fun y => ((h k').2 y).trans (by simp [hk])⟩

/-- Taking items out of one slot. -/
theorem filter (h : Exact m R) (p : ι → Bool) :
    Exact (andModify k (fun l => l.filter p) m) fun k' y => R k' y ∧ (k' = k → p y = true) := by
  intro k'
  rw [slot_andModify]
  split
  · next hk =>
    subst hk
    refine ⟨(h k').1.filter p, fun y => ?_⟩
    rw [List.mem_filter, (h k').2]
    exact and_congr_right fun _ => by simp
  · next hk => exact ⟨(h k').1, fun y => ((h k').2 y).trans (by simp [hk])⟩

theorem count_eq_one [DecidableEq ι] (h : Exact m R) {x : ι} (hx : R k x) :
    (slot m k).count x = 1 :=
  List.count_eq_one_of_mem (h k).1 (((h k).2 x).mpr hx)

end Exact

end QwenStack.Assoc

/-! ### Several values for a key -/

namespace QwenStack

open List

/-- Keys with their values; a key that is there has a value. -/
structure Multimap (α β : Type*) where
  entries : List (α × List β)
  nodup : (Assoc.keys entries).Nodup
  nonempty : ∀ e ∈ entries, e.2 ≠ []

namespace Multimap
variable {α β : Type*}

def empty : Multimap α β := ⟨[], nodup_nil, fun _ he => absurd he not_mem_nil⟩

/-- The entries in order, one for each value. -/
def iter (m : Multimap α β) : List (α × β) := m.entries.flatMap fun e => e.2.map fun v => (e.1, v)

variable [DecidableEq α]

/-- The values of a key. -/
def getAll (m : Multimap α β) (k : α) : List β := (m.entries.lookup k).getD []

/-- One value, in the place of those of the key. -/
def insert (m : Multimap α β) (k : α) (v : β) : Multimap α β where
  entries := Assoc.put k [v] m.entries
  nodup := Assoc.nodup_keys_put m.nodup
  nonempty := fun e he => by
    rcases Assoc.mem_put he with rfl | he
    · exact cons_ne_nil v []
    · exact m.nonempty e he

variable {m : Multimap α β}

@[simp] theorem getAll_empty (k : α) : (empty : Multimap α β).getAll k = [] := rfl

theorem getAll_insert (x k : α) (v : β) :
    (m.insert k v).getAll x = if x = k then [v] else m.getAll x := by
  rw [getAll, insert, Assoc.lookup_put]
  split <;> rfl

/-- The values of a key are those of its entries. -/
theorem iter_filter (m : Multimap α β) (x : α) :
    (m.iter.filter fun e => decide (e.1 = x)).map Prod.snd = m.getAll x := by
  obtain ⟨entries, hnodup, hnonempty⟩ := m
  simp only [iter, getAll]
  clear hnonempty
  induction entries with
  | nil => rfl
  | cons e entries ih =>
    obtain ⟨k, vs⟩ := e
    rw [Assoc.keys_cons, nodup_cons] at hnodup
    have hrest := ih hnodup.2
    rw [flatMap_cons, filter_append, map_append, hrest, Assoc.lookup_cons_eq]
    by_cases hk : k = x
    · -- No other entry has this key.
      have hnone : entries.lookup x = none := by
        rw [← Option.not_isSome_iff_eq_none, Option.isSome_iff_exists, ← Assoc.mem_keys_iff, ← hk]
        exact hnodup.1
      rw [hnone, if_pos hk.symm, List.filter_eq_self.mpr (by simp [hk]), map_map]
      exact (append_nil _).trans (map_id _)
    · rw [if_neg (Ne.symm hk), List.filter_eq_nil_iff.mpr (by simp [hk])]
      rfl

/-- **Entries inserted one after the other**: of those with a key that passes, the last is left. -/
theorem getAll_foldl_insert (p : α → Bool) (l : List (α × β)) (x : α) :
    (l.foldl (fun m e => if p e.1 = true then m.insert e.1 e.2 else m) m).getAll x = if p x = true then
        (l.filter fun e => decide (e.1 = x)).getLast?.elim (m.getAll x) fun e => [e.2]
      else m.getAll x := by
  induction l generalizing m with
  | nil => exact (ite_self _).symm
  | cons e l ih =>
    obtain ⟨k, v⟩ := e
    rw [foldl_cons, ih]
    by_cases hx : k = x
    · subst hx
      rw [filter_cons_of_pos (p := fun e : α × β => decide (e.1 = k)) (decide_eq_true rfl),
        List.getLast?_cons]
      split
      · -- The value stands unless a later one takes its place.
        rw [getAll_insert, if_pos rfl]
        cases (l.filter fun e => decide (e.1 = k)).getLast? <;> rfl
      · rfl
    · have hsame : (if p k = true then m.insert k v else m).getAll x = m.getAll x := by
        split
        · rw [getAll_insert, if_neg (Ne.symm hx)]
        · rfl
      rw [filter_cons_of_neg (by simpa using hx), hsame]

end Multimap

end QwenStack

/-! ### Tallies -/

namespace QwenStack
open Assoc

variable {α : Type*} [DecidableEq α]

structure Tally (m : List (α × Nat)) (n : α → Nat) : Prop where
  nodup : (keys m).Nodup
  lookup : ∀ k, m.lookup k = if n k = 0 then none else some (n k)

namespace Tally

variable {m : List (α × Nat)} {n n' : α → Nat} {k : α}

theorem empty : Tally ([] : List (α × Nat)) fun _ => 0 := ⟨List.nodup_nil, fun _ => rfl⟩

variable (h : Tally m n)
include h

theorem getD (k : α) : (m.lookup k).getD 0 = n k := by
  rw [h.lookup]
  split
  · next hk => rw [hk]; rfl
  · rfl

/-- One up. -/
theorem up (hk : n' k = n k + 1) (hother : ∀ x, x ≠ k → n' x = n x) :
    Tally (put k ((m.lookup k).getD 0 + 1) m) n' := by
  refine ⟨nodup_keys_put h.nodup, fun x => ?_⟩
  rw [lookup_put, h.getD]
  by_cases hx : x = k
  · rw [if_pos hx, hx, hk, if_neg (Nat.succ_ne_zero _)]
  · rw [if_neg hx, hother x hx, h.lookup]

/-- A key that counts has an entry. -/
theorem lookup_pos (hk : 0 < n k) : m.lookup k = some (n k) := by
  rw [h.lookup, if_neg (Nat.ne_of_gt hk)]

/-- One down, and the entry goes with the last. -/
theorem down (hk : n k = n' k + 1) (hother : ∀ x, x ≠ k → n' x = n x) :
    Tally (if n k - 1 = 0 then del k m else put k (n k - 1) m) n' := by
  have hpred : n k - 1 = n' k := by rw [hk, Nat.add_sub_cancel]
  rw [hpred]
  split
  · next hzero =>
    refine ⟨nodup_keys_del h.nodup, fun x => ?_⟩
    rw [lookup_del]
    by_cases hx : x = k
    · rw [if_pos hx, hx, if_pos hzero]
    · rw [if_neg hx, hother x hx, h.lookup]
  · next hpos =>
    refine ⟨nodup_keys_put h.nodup, fun x => ?_⟩
    rw [lookup_put]
    by_cases hx : x = k
    · rw [if_pos hx, hx, if_neg hpos]
    · rw [if_neg hx, hother x hx, h.lookup]

theorem mem_keys_iff : k ∈ keys m ↔ 0 < n k := by
  rw [Assoc.mem_keys_iff, h.lookup]
  split
  · next hk => simp [hk]
  · next hk => exact ⟨fun _ => Nat.pos_of_ne_zero hk, fun _ => ⟨_, rfl⟩⟩

/-- The number of entries is the number of distinct keys. -/
theorem length_eq {l : List α} (hl : ∀ k, k ∈ l ↔ 0 < n k) : m.length = l.dedup.length := by
  have hperm : (keys m).Perm l.dedup := by
    refine (List.perm_ext_iff_of_nodup h.nodup l.nodup_dedup).mpr fun k => ?_
    rw [h.mem_keys_iff, List.mem_dedup, hl]
  rw [← hperm.length_eq, keys, List.length_map]

end Tally

end QwenStack

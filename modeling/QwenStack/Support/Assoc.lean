import Mathlib.Data.List.Basic
import Mathlib.Data.List.Nodup
import Mathlib.Algebra.BigOperators.Group.List.Basic
import Mathlib.Algebra.GroupWithZero.Nat

/-!
# Support — association lists as maps

A map is a list of key–value pairs, read with `List.lookup`.  `put` is assignment: it keeps the
position of a key that is present and appends a new one, the order a Python `dict` has.  `del`
removes a key.  Every operation keeps the keys distinct, and its effect on `lookup` and on the
keys is one equation.

A map whose iteration order is not specified is the same list, read up to permutation.
-/

namespace QwenStack.Assoc

open List

variable {α β : Type*} [DecidableEq α]

/-- The keys, in order. -/
def keys (m : List (α × β)) : List α := m.map Prod.fst

/-- `k ∈ m`. -/
def contains (k : α) (m : List (α × β)) : Bool := (m.lookup k).isSome

/-- `m[k] = v`. -/
def put (k : α) (v : β) : List (α × β) → List (α × β)
  | [] => [(k, v)]
  | e :: m => if e.1 = k then (k, v) :: m else e :: put k v m

/-- `m.pop(k)`, for its effect. -/
def del (k : α) (m : List (α × β)) : List (α × β) := m.filter fun e => decide (e.1 ≠ k)

/-- `m.entry(k).or_insert(v)`. -/
def orInsert (k : α) (v : β) (m : List (α × β)) : List (α × β) :=
  if contains k m then m else put k v m

/-- `m.entry(k).and_modify(f)`. -/
def andModify (k : α) (f : β → β) (m : List (α × β)) : List (α × β) :=
  match m.lookup k with
  | some v => put k (f v) m
  | none => m

/-- `m.entry(k).and_modify(f).or_insert(v)`. -/
def upsert (k : α) (f : β → β) (v : β) (m : List (α × β)) : List (α × β) :=
  match m.lookup k with
  | some w => put k (f w) m
  | none => put k v m

/-! ### Keys and lookup -/

omit [DecidableEq α] in
@[simp] theorem keys_nil : keys ([] : List (α × β)) = [] := rfl

omit [DecidableEq α] in
@[simp] theorem keys_cons (e : α × β) (m : List (α × β)) : keys (e :: m) = e.1 :: keys m := rfl

omit [DecidableEq α] in
@[simp] theorem keys_append (m m' : List (α × β)) : keys (m ++ m') = keys m ++ keys m' :=
  map_append

theorem lookup_cons_eq (x k : α) (v : β) (m : List (α × β)) :
    ((k, v) :: m).lookup x = if x = k then some v else m.lookup x := by
  rw [lookup_cons]
  by_cases h : x = k
  · simp [h]
  · rw [if_neg h, show (x == k) = false from by simpa using h]

theorem mem_keys_iff {k : α} {m : List (α × β)} : k ∈ keys m ↔ ∃ v, m.lookup k = some v := by
  induction m with
  | nil => simp
  | cons e m ih =>
    obtain ⟨k', v'⟩ := e
    rw [keys_cons, mem_cons, lookup_cons_eq, ih]
    by_cases h : k = k'
    · simp [h]
    · simp [h]

theorem contains_iff {k : α} {m : List (α × β)} : contains k m = true ↔ k ∈ keys m := by
  rw [contains, Option.isSome_iff_exists, mem_keys_iff]

theorem mem_of_lookup {k : α} {v : β} {m : List (α × β)} (h : m.lookup k = some v) :
    (k, v) ∈ m := by
  induction m with
  | nil => simp at h
  | cons e m ih =>
    obtain ⟨k', v'⟩ := e
    rw [lookup_cons_eq] at h
    split at h
    · next hk => cases h; subst hk; exact mem_cons_self
    · exact mem_cons_of_mem _ (ih h)

theorem lookup_of_mem {k : α} {v : β} {m : List (α × β)} (hn : (keys m).Nodup)
    (h : (k, v) ∈ m) : m.lookup k = some v := by
  induction m with
  | nil => simp at h
  | cons e m ih =>
    obtain ⟨k', v'⟩ := e
    rw [keys_cons, nodup_cons] at hn
    rw [lookup_cons_eq]
    rcases List.mem_cons.mp h with h | h
    · cases h; rw [if_pos rfl]
    · have hk : k ∈ keys m := mem_map_of_mem (f := Prod.fst) h
      have hne : k ≠ k' := fun e => hn.1 (e ▸ hk)
      rw [if_neg hne, ih hn.2 h]

/-! ### Assignment -/

theorem put_ne_nil (k : α) (v : β) (m : List (α × β)) : put k v m ≠ [] := by
  cases m with
  | nil => simp [put]
  | cons e m => simp only [put]; split <;> simp

theorem lookup_put (x k : α) (v : β) (m : List (α × β)) :
    (put k v m).lookup x = if x = k then some v else m.lookup x := by
  induction m with
  | nil => rw [put, lookup_cons_eq]
  | cons e m ih =>
    obtain ⟨k', v'⟩ := e
    by_cases h : k' = k
    · subst h
      simp only [put, if_true, lookup_cons_eq]
      split <;> rfl
    · simp only [put, if_neg h, lookup_cons_eq, ih]
      by_cases hx : x = k'
      · simp [hx, h]
      · simp [hx]

/-- A value is assigned where it stands already. -/
theorem put_of_lookup {k : α} {v : β} {m : List (α × β)} (h : m.lookup k = some v) : put k v m = m := by
  induction m with
  | nil => cases h
  | cons e m ih =>
    obtain ⟨k', v'⟩ := e
    rw [lookup_cons_eq] at h
    by_cases hk : k' = k
    · rw [if_pos hk.symm] at h
      cases h
      rw [put, if_pos hk, hk]
    · rw [if_neg (Ne.symm hk)] at h
      rw [put, if_neg hk, ih h]

theorem mem_keys_put {x k : α} {v : β} {m : List (α × β)} :
    x ∈ keys (put k v m) ↔ x = k ∨ x ∈ keys m := by
  rw [mem_keys_iff, mem_keys_iff, lookup_put]
  by_cases h : x = k <;> simp [h]

theorem keys_put (k : α) (v : β) (m : List (α × β)) :
    keys (put k v m) = if k ∈ keys m then keys m else keys m ++ [k] := by
  induction m with
  | nil => simp [put]
  | cons e m ih =>
    obtain ⟨k', v'⟩ := e
    by_cases h : k' = k
    · simp [put, h]
    · simp only [put, if_neg h, keys_cons, ih, mem_cons, Ne.symm h, false_or]
      split <;> simp

theorem nodup_keys_put {k : α} {v : β} {m : List (α × β)} (h : (keys m).Nodup) :
    (keys (put k v m)).Nodup := by
  rw [keys_put]
  split
  · exact h
  · next hk =>
    refine List.nodup_append.mpr ⟨h, by simp, ?_⟩
    intro a ha b hb
    rw [List.mem_singleton.mp hb]
    rintro rfl
    exact hk ha

/-! ### Removal -/

theorem lookup_del (x k : α) (m : List (α × β)) :
    (del k m).lookup x = if x = k then none else m.lookup x := by
  induction m with
  | nil => simp [del]
  | cons e m ih =>
    obtain ⟨k', v'⟩ := e
    by_cases h : k' = k
    · rw [del, filter_cons_of_neg (by simp [h]), ← del, ih, lookup_cons_eq, h]
      split <;> rfl
    · rw [del, filter_cons_of_pos (by simp [h]), ← del, lookup_cons_eq, ih, lookup_cons_eq]
      by_cases hx : x = k'
      · simp [hx, h]
      · simp [hx]

theorem mem_keys_del {x k : α} {m : List (α × β)} :
    x ∈ keys (del k m) ↔ x ≠ k ∧ x ∈ keys m := by
  rw [mem_keys_iff, mem_keys_iff, lookup_del]
  by_cases h : x = k <;> simp [h]

theorem nodup_keys_del {k : α} {m : List (α × β)} (h : (keys m).Nodup) : (keys (del k m)).Nodup :=
  h.sublist (List.filter_sublist.map Prod.fst)

theorem del_of_not_mem {k : α} {m : List (α × β)} (h : k ∉ keys m) : del k m = m := by
  refine List.filter_eq_self.mpr fun e he => ?_
  simp only [decide_eq_true_eq]
  rintro rfl
  exact h (mem_map_of_mem (f := Prod.fst) he)

theorem del_put (k : α) (v : β) (m : List (α × β)) : del k (put k v m) = del k m := by
  induction m with
  | nil => simp [put, del]
  | cons e m ih =>
    obtain ⟨k', v'⟩ := e
    simp only [del] at ih ⊢
    by_cases hk : k' = k
    · simp [put, hk]
    · simpa [put, hk] using ih

/-- What is left besides the entry. -/
theorem perm_del {k : α} {v : β} {m : List (α × β)} (hn : (keys m).Nodup)
    (h : m.lookup k = some v) : m.Perm ((k, v) :: del k m) := by
  induction m with
  | nil => cases h
  | cons e m ih =>
    obtain ⟨k', v'⟩ := e
    rw [keys_cons, nodup_cons] at hn
    rw [lookup_cons_eq] at h
    by_cases hk : k = k'
    · rw [if_pos hk] at h
      cases h
      rw [del, filter_cons_of_neg (by simp [hk]), ← del, del_of_not_mem (hk ▸ hn.1), hk]
    · rw [if_neg hk] at h
      rw [del, filter_cons_of_pos (by simp [Ne.symm hk]), ← del]
      exact ((ih hn.2 h).cons _).trans (List.Perm.swap _ _ _)

theorem length_del {k : α} {m : List (α × β)} (hn : (keys m).Nodup) (hk : k ∈ keys m) :
    (del k m).length + 1 = m.length := by
  obtain ⟨v, hv⟩ := mem_keys_iff.mp hk
  rw [(perm_del hn hv).length_eq, length_cons]

/-! ### The entry operations -/

theorem lookup_orInsert (x k : α) (v : β) (m : List (α × β)) :
    (orInsert k v m).lookup x = if x = k then some ((m.lookup k).getD v) else m.lookup x := by
  cases h : m.lookup k with
  | none => simp [orInsert, contains, h, lookup_put]
  | some w =>
    simp only [orInsert, contains, h, Option.isSome_some, if_true, Option.getD_some]
    split
    · next hx => rw [hx, h]
    · rfl

theorem nodup_keys_orInsert {k : α} {v : β} {m : List (α × β)} (h : (keys m).Nodup) :
    (keys (orInsert k v m)).Nodup := by
  rw [orInsert]
  split
  · exact h
  · exact nodup_keys_put h

theorem lookup_andModify (x k : α) (f : β → β) (m : List (α × β)) :
    (andModify k f m).lookup x = if x = k then (m.lookup k).map f else m.lookup x := by
  rw [andModify]
  cases h : m.lookup k with
  | some v => simp [lookup_put]
  | none =>
    by_cases hx : x = k
    · simp [hx, h]
    · simp [hx]

theorem lookup_upsert (x k : α) (f : β → β) (v : β) (m : List (α × β)) : (upsert k f v m).lookup x =
      if x = k then some (((m.lookup k).map f).getD v) else m.lookup x := by
  rw [upsert]
  cases h : m.lookup k <;> simp [lookup_put]

/-! ### Sums of values -/

/-- The sum of the values. -/
def total (m : List (α × Nat)) : Nat := (m.map Prod.snd).sum

omit [DecidableEq α] in
@[simp] theorem total_nil : total ([] : List (α × Nat)) = 0 := rfl

omit [DecidableEq α] in
@[simp] theorem total_cons (e : α × Nat) (m : List (α × Nat)) : total (e :: m) = e.2 + total m := rfl

omit [DecidableEq α] in
@[simp] theorem total_append (m m' : List (α × Nat)) : total (m ++ m') = total m + total m' := by
  simp [total]

theorem total_del {k : α} {m : List (α × Nat)} (hn : (keys m).Nodup) :
    total (del k m) + (m.lookup k).getD 0 = total m := by
  cases h : m.lookup k with
  | none =>
    have hk : k ∉ keys m := fun hk => by
      obtain ⟨v, hv⟩ := mem_keys_iff.mp hk
      rw [h] at hv
      cases hv
    rw [del_of_not_mem hk]
    rfl
  | some v =>
    have hsum := ((perm_del hn h).map Prod.snd).sum_eq
    rw [total, total, hsum, map_cons, sum_cons]
    exact Nat.add_comm _ _

theorem mem_put {k : α} {v : β} {e : α × β} {m : List (α × β)} (h : e ∈ put k v m) :
    e = (k, v) ∨ e ∈ m := by
  induction m with
  | nil => exact Or.inl (List.mem_singleton.mp h)
  | cons e' m ih =>
    rw [put] at h
    split at h
    · rcases List.mem_cons.mp h with rfl | h
      · exact Or.inl rfl
      · exact Or.inr (mem_cons_of_mem _ h)
    · rcases List.mem_cons.mp h with rfl | h
      · exact Or.inr mem_cons_self
      · exact (ih h).imp_right (mem_cons_of_mem _)

/-- An entry that an assignment leaves is under another key. -/
theorem mem_put_of_nodup {k : α} {v : β} {e : α × β} {m : List (α × β)} (hn : (keys m).Nodup)
    (h : e ∈ put k v m) : e = (k, v) ∨ e ∈ m ∧ e.1 ≠ k := by
  have hl : (put k v m).lookup e.1 = some e.2 := lookup_of_mem (nodup_keys_put hn) h
  rw [lookup_put] at hl
  split at hl
  · next hk => exact .inl (Prod.ext hk (Option.some.inj hl).symm)
  · next hk => exact .inr ⟨mem_of_lookup hl, hk⟩

theorem lookup_map_values {γ : Type*} (f : β → γ) (m : List (α × β)) (x : α) :
    (m.map fun e => (e.1, f e.2)).lookup x = (m.lookup x).map f := by
  induction m with
  | nil => rfl
  | cons e m ih =>
    obtain ⟨k, v⟩ := e
    rw [map_cons, lookup_cons_eq, lookup_cons_eq, ih]
    split <;> rfl

theorem lookup_filter_values (p : β → Bool) {m : List (α × β)} (h : (keys m).Nodup) (x : α) :
    (m.filter fun e => p e.2).lookup x = (m.lookup x).filter p := by
  induction m with
  | nil => rfl
  | cons e m ih =>
    obtain ⟨k, v⟩ := e
    rw [keys_cons, nodup_cons] at h
    rw [filter_cons, lookup_cons_eq]
    by_cases hx : x = k
    · subst hx
      have hno : m.lookup x = none := by
        rw [← Option.not_isSome_iff_eq_none, Option.isSome_iff_exists, ← mem_keys_iff]
        exact h.1
      rw [if_pos rfl]
      split
      · next hp => rw [lookup_cons_eq, if_pos rfl, Option.filter_some_pos hp]
      · next hp => rw [ih h.2, hno, Option.filter_some_neg (Bool.eq_false_iff.mpr hp)]; rfl
    · rw [if_neg hx, ← ih h.2]
      split
      · rw [lookup_cons_eq, if_neg hx]
      · rfl

/-- An entry that is read first and passes the filter is read first. -/
theorem lookup_filter_kept {p : α × β → Bool} {m : List (α × β)} {k : α} {v : β}
    (h : m.lookup k = some v) (hp : p (k, v) = true) : (m.filter p).lookup k = some v := by
  induction m with
  | nil => cases h
  | cons e m ih =>
    obtain ⟨k', v'⟩ := e
    rw [lookup_cons_eq] at h
    by_cases hk : k = k'
    · rw [if_pos hk] at h
      cases h
      rw [filter_cons_of_pos (hk ▸ hp), lookup_cons_eq, if_pos hk]
    · rw [if_neg hk] at h
      rw [filter_cons]
      split
      · rw [lookup_cons_eq, if_neg hk, ih h]
      · exact ih h

/-- Insertion of entries with distinct keys, into any map whose insertion is an assignment. -/
theorem lookup_foldl {M : Type*} {g : M → α → Option β} {ins : α → β → M → M} {m : M}
    (hins : ∀ x k v m, g (ins k v m) x = if x = k then some v else g m x)
    {l : List (α × β)} (h : (keys l).Nodup) (x : α) :
    g (l.foldl (fun m e => ins e.1 e.2 m) m) x = (l.lookup x).or (g m x) := by
  induction l generalizing m with
  | nil => rfl
  | cons e l ih =>
    obtain ⟨k, v⟩ := e
    rw [keys_cons, nodup_cons] at h
    rw [foldl_cons, ih h.2, hins, lookup_cons_eq]
    by_cases hx : x = k
    · have hno : l.lookup x = none := by
        rw [← Option.not_isSome_iff_eq_none, Option.isSome_iff_exists, ← mem_keys_iff, hx]
        exact h.1
      rw [hno, if_pos hx, if_pos hx]
      rfl
    · rw [if_neg hx, if_neg hx]

theorem mem_keys_foldl_put {l m : List (α × β)} {x : α} :
    x ∈ keys (l.foldl (fun m e => put e.1 e.2 m) m) ↔ x ∈ keys l ∨ x ∈ keys m := by
  induction l generalizing m with
  | nil => simp
  | cons e l ih =>
    rw [foldl_cons, ih, mem_keys_put, keys_cons, mem_cons]
    tauto

theorem nodup_keys_foldl_put {l m : List (α × β)} (h : (keys m).Nodup) :
    (keys (l.foldl (fun m e => put e.1 e.2 m) m)).Nodup := by
  induction l generalizing m with
  | nil => exact h
  | cons e l ih => exact ih (nodup_keys_put h)

theorem mem_foldl_put {l m : List (α × β)} {e : α × β}
    (h : e ∈ l.foldl (fun m e => put e.1 e.2 m) m) : e ∈ l ∨ e ∈ m := by
  induction l generalizing m with
  | nil => exact Or.inr h
  | cons e' l ih =>
    rcases ih h with h | h
    · exact Or.inl (mem_cons_of_mem _ h)
    · rcases mem_put h with rfl | h
      · exact Or.inl mem_cons_self
      · exact Or.inr h

theorem put_of_not_mem {k : α} {v : β} {m : List (α × β)} (h : k ∉ keys m) :
    put k v m = m ++ [(k, v)] := by
  induction m with
  | nil => rfl
  | cons e m ih =>
    rw [keys_cons, mem_cons, not_or] at h
    rw [put, if_neg (Ne.symm h.1), ih h.2]
    rfl

/-! ### Values under a function -/

section
variable {γ : Type*} (f : β → γ)

omit [DecidableEq α] in
/-- Every value, under a function. -/
def mapValues (m : List (α × β)) : List (α × γ) := m.map fun e => (e.1, f e.2)

theorem lookup_mapValues (m : List (α × β)) (x : α) :
    (mapValues f m).lookup x = (m.lookup x).map f := lookup_map_values f m x

theorem contains_mapValues (k : α) (m : List (α × β)) : contains k (mapValues f m) = contains k m := by
  rw [contains, contains, lookup_mapValues, Option.isSome_map]

omit [DecidableEq α] in
theorem keys_mapValues (m : List (α × β)) : keys (mapValues f m) = keys m := by
  rw [keys, keys, mapValues, map_map]
  rfl

theorem put_mapValues (k : α) (v : β) (m : List (α × β)) :
    put k (f v) (mapValues f m) = mapValues f (put k v m) := by
  induction m with
  | nil => rfl
  | cons e m ih =>
    rw [mapValues, map_cons, put, put, ← mapValues]
    split
    · rfl
    · rw [ih]
      rfl

theorem del_mapValues (k : α) (m : List (α × β)) : del k (mapValues f m) = mapValues f (del k m) := by
  rw [del, mapValues, filter_map]
  rfl

theorem orInsert_mapValues (k : α) (v : β) (m : List (α × β)) :
    orInsert k (f v) (mapValues f m) = mapValues f (orInsert k v m) := by
  rw [orInsert, orInsert, contains_mapValues]
  split
  · rfl
  · exact put_mapValues f k v m

/-- A value that the function does not see. -/
theorem mapValues_put_of_const {c : γ} (hf : ∀ v, f v = c) {k : α} {m : List (α × β)}
    (hk : contains k m = true) (v : β) : mapValues f (put k v m) = mapValues f m := by
  induction m with
  | nil => cases hk
  | cons e m ih =>
    rw [put]
    split
    · next he =>
      change (k, f v) :: _ = (e.1, f e.2) :: _
      rw [he, hf, hf]
    · next he =>
      rw [contains, lookup_cons_eq, if_neg (Ne.symm he)] at hk
      change (e.1, f e.2) :: mapValues f (put k v m) = (e.1, f e.2) :: mapValues f m
      rw [ih hk]

end

end QwenStack.Assoc

import QwenStack.Evictor.SizeCap

/-!
# Evictor — the heat order

An eviction loop takes the files in the order in which the heat scan gives them up.  `coldest` is
that order, a function of the bookkeeping alone, and `without` the bookkeeping that is left.

`Takes` says how far a loop goes: while it has budget, its condition holds, there is a victim and
the unlink succeeds.  It holds of exactly one number (`Takes.unique`), and the loop evicts that many
of the coldest files (`evictWhile_takes`).
-/

namespace QwenStack.Evictor
open Assoc List

/-- The first `j` files the heat scan gives up, or all it can give up when these are fewer. -/
def coldest : Nat → State → List (Key × Nat)
  | 0, _ => []
  | j + 1, s =>
      match victim s with
      | none => []
      | some (stem, size) => (stem, size) :: coldest j (dropEntry stem size s)

/-- The bookkeeping without the `j` coldest files. -/
def without : Nat → State → State
  | 0, s => s
  | j + 1, s =>
      match victim s with
      | none => s
      | some (stem, size) => without j (dropEntry stem size s)

/-- The bytes that unlinking these files frees: none for a file that is gone. -/
def freed : (Nat → RemoveOutcome) → List (Key × Nat) → Nat
  | _, [] => 0
  | remove, e :: l => (if remove 0 = .removed then e.2 else 0) + freed (fun i => remove (i + 1)) l

/-- An eviction loop that takes files while `cont` holds, with `cap` to spend, takes `j` of them. -/
structure Takes (cont : State → Nat → Bool) (remove : Nat → RemoveOutcome) (cap : Nat) (s : State)
    (j : Nat) : Prop where
  le : j ≤ cap
  going : ∀ i, i < j → victim (without i s) ≠ none ∧ remove i ≠ .osError ∧
    cont (without i s) (freed remove (coldest i s)) = true
  ended : j = cap ∨ victim (without j s) = none ∨ remove j = .osError ∨
    cont (without j s) (freed remove (coldest j s)) = false

section
variable {s : State} {stem : Key} {size : Nat} {cont : State → Nat → Bool}
  {remove : Nat → RemoveOutcome} {cap i j : Nat}

/-! ### The victim -/

/-- The victim is one of the entries scanned. -/
theorem scan_mem (s : State) (l : List (Key × Nat)) :
    ∀ b, l.foldl (scanEntry s) none = some b → (b.1, b.2.1) ∈ l := by
  suffices ∀ (l seen : List (Key × Nat)) (best : Option (Key × Nat × ℚ)),
      (∀ b, best = some b → (b.1, b.2.1) ∈ seen) →
      ∀ b, l.foldl (scanEntry s) best = some b → (b.1, b.2.1) ∈ seen ++ l by
    simpa using this l [] none (by simp)
  intro l
  induction l with
  | nil =>
    intro seen best h b hb
    rw [append_nil]
    exact h b hb
  | cons e l ih =>
    intro seen best h
    rw [foldl_cons, append_cons]
    refine ih _ _ fun b hb => ?_
    unfold scanEntry at hb
    split at hb
    · exact mem_append_left _ (h b hb)
    · split at hb
      · cases hb
        simp
      · split at hb
        · cases hb
          simp
        · exact mem_append_left _ (h b hb)

theorem victim_mem_take (hv : victim s = some (stem, size)) : (stem, size) ∈ s.lru.take 64 := by
  obtain ⟨b, hb, hbe⟩ := Option.map_eq_some_iff.mp hv
  cases hbe
  exact scan_mem s _ b hb

/-- There is a victim exactly when one of the 64 oldest entries is committed. -/
theorem victim_ne_none_iff : victim s ≠ none ↔ ∃ e ∈ s.lru.take 64, e.1 ∉ s.pendingWrites := by
  constructor
  · intro h
    obtain ⟨⟨stem, size⟩, hv⟩ := Option.ne_none_iff_exists'.mp h
    exact ⟨(stem, size), victim_mem_take hv, (victim_spec hv).2⟩
  · intro h
    obtain ⟨stem, size, hv⟩ := victim_isSome h
    simp [hv]

/-! ### The order -/

@[simp] theorem coldest_zero (s : State) : coldest 0 s = [] := rfl

@[simp] theorem without_zero (s : State) : without 0 s = s := rfl

theorem coldest_succ (hv : victim s = some (stem, size)) (j : Nat) :
    coldest (j + 1) s = (stem, size) :: coldest j (dropEntry stem size s) := by
  rw [coldest, hv]

theorem without_succ (hv : victim s = some (stem, size)) (j : Nat) :
    without (j + 1) s = without j (dropEntry stem size s) := by
  rw [without, hv]

theorem coldest_none (hv : victim s = none) (j : Nat) : coldest j s = [] := by
  cases j with
  | zero => rfl
  | succ j => rw [coldest, hv]

theorem without_none (hv : victim s = none) (j : Nat) : without j s = s := by
  cases j with
  | zero => rfl
  | succ j => rw [without, hv]

/-- Along the order: there are no more victims, or one more is taken. -/
@[elab_as_elim]
theorem order_induction {motive : Nat → State → Prop} (zero : ∀ s, motive 0 s)
    (stuck : ∀ j s, victim s = none → motive (j + 1) s)
    (taken : ∀ j s stem size, victim s = some (stem, size) → motive j (dropEntry stem size s) →
      motive (j + 1) s) (j : Nat) (s : State) : motive j s := by
  induction j generalizing s with
  | zero => exact zero s
  | succ j ih =>
    cases hv : victim s with
    | none => exact stuck j s hv
    | some e => exact taken j s e.1 e.2 hv (ih _)

theorem without_add (i j : Nat) (s : State) : without (i + j) s = without j (without i s) := by
  induction i, s using order_induction with
  | zero s => rw [Nat.zero_add, without_zero]
  | stuck i s hv => rw [Nat.add_right_comm, without_none hv, without_none hv, without_none hv]
  | taken i s stem size hv ih => rw [Nat.add_right_comm, without_succ hv, without_succ hv, ih]

theorem coldest_add (i j : Nat) (s : State) :
    coldest (i + j) s = coldest i s ++ coldest j (without i s) := by
  induction i, s using order_induction with
  | zero s => rw [Nat.zero_add, coldest_zero, without_zero, nil_append]
  | stuck i s hv =>
    rw [Nat.add_right_comm, coldest_none hv, coldest_none hv, without_none hv, coldest_none hv, append_nil]
  | taken i s stem size hv ih =>
    rw [Nat.add_right_comm, coldest_succ hv, coldest_succ hv, without_succ hv, ih, cons_append]

/-- As long as there are victims, every step of the order is one file. -/
theorem coldest_length (h : ∀ i, i < j → victim (without i s) ≠ none) :
    (coldest j s).length = j := by
  induction j generalizing s with
  | zero => rfl
  | succ j ih =>
    obtain ⟨⟨stem, size⟩, hv⟩ := Option.ne_none_iff_exists'.mp (h 0 (Nat.succ_pos j))
    rw [without_zero] at hv
    rw [coldest_succ hv, length_cons, ih]
    intro i hi
    rw [← without_succ hv]
    exact h (i + 1) (Nat.succ_lt_succ hi)

/-- What is left holds the entries that have not been taken. -/
theorem lookup_without (j : Nat) (s : State) (x : Key) :
    (without j s).lru.lookup x = if x ∈ keys (coldest j s) then none else s.lru.lookup x := by
  induction j, s using order_induction with
  | zero s => simp
  | stuck j s hv => simp [without_none hv, coldest_none hv]
  | taken j s stem size hv ih =>
    rw [without_succ hv, coldest_succ hv, ih, dropEntry, lookup_del, Assoc.keys_cons]
    by_cases hx : x = stem <;> simp [hx]

theorem mem_keys_meta_without (j : Nat) (s : State) (x : Key) :
    x ∈ keys (without j s).metaData ↔ x ∈ keys s.metaData ∧ x ∉ keys (coldest j s) := by
  induction j, s using order_induction with
  | zero s => simp
  | stuck j s hv => simp [without_none hv, coldest_none hv]
  | taken j s stem size hv ih =>
    rw [without_succ hv, coldest_succ hv, ih, dropEntry, mem_keys_del, Assoc.keys_cons, mem_cons, not_or]
    tauto

theorem totalBytes_without (j : Nat) (s : State) :
    (without j s).totalBytes = s.totalBytes - (total (coldest j s) : Nat) := by
  induction j, s using order_induction with
  | zero s => simp
  | stuck j s hv => simp [without_none hv, coldest_none hv]
  | taken j s stem size hv ih =>
    rw [without_succ hv, coldest_succ hv, ih, dropEntry, total_cons]
    simp only
    omega

theorem pendingWrites_without (j : Nat) (s : State) :
    (without j s).pendingWrites = s.pendingWrites := by
  induction j, s using order_induction with
  | zero s => rfl
  | stuck j s hv => rw [without_none hv]
  | taken j s stem size hv ih => rw [without_succ hv, ih, dropEntry]

theorem Bookkept.without (hB : Bookkept s) (j : Nat) : Bookkept (without j s) := by
  induction j, s using order_induction with
  | zero s => exact hB
  | stuck j s hv => rwa [without_none hv]
  | taken j s stem size hv ih =>
    rw [without_succ hv]
    exact ih (evictRule_bookkept.drop hB hv).1

theorem length_without (hB : Bookkept s) (j : Nat) :
    (without j s).lru.length + (coldest j s).length = s.lru.length := by
  induction j, s using order_induction with
  | zero s => rfl
  | stuck j s hv => simp [without_none hv, coldest_none hv]
  | taken j s stem size hv ih =>
    have hmem : stem ∈ keys s.lru := mem_keys_iff.mpr ⟨size, hB.lookup_victim hv⟩
    have hlen := ih (evictRule_bookkept.drop hB hv).1
    have hdel := length_del hB.lru_nodup hmem
    rw [without_succ hv, coldest_succ hv, length_cons]
    simp only [dropEntry] at hlen ⊢
    omega

theorem mem_of_mem_coldest {e : Key × Nat} (h : e ∈ coldest j s) : e ∈ s.lru := by
  induction j, s using order_induction with
  | zero s => cases h
  | stuck j s hv =>
    rw [coldest_none hv] at h
    cases h
  | taken j s stem size hv ih =>
    rw [coldest_succ hv] at h
    rcases List.mem_cons.mp h with rfl | h
    · exact (victim_spec hv).1
    · exact mem_of_mem_filter (ih h)

theorem coldest_length_le (j : Nat) (s : State) : (coldest j s).length ≤ j := by
  induction j, s using order_induction with
  | zero s => exact le_refl 0
  | stuck j s hv => simp [coldest_none hv]
  | taken j s stem size hv ih =>
    rw [coldest_succ hv, length_cons]
    exact Nat.succ_le_succ ih

/-- With nothing in flight there is a victim as long as there is a file. -/
theorem victim_without_ne_none (hB : Bookkept s) (hp : s.pendingWrites = [])
    (hj : j < s.lru.length) : victim (without j s) ≠ none := by
  have hlen := length_without hB j
  have hle := coldest_length_le j s
  obtain ⟨e, l, hl⟩ := exists_cons_of_length_pos (l := (without j s).lru) (by omega)
  refine victim_ne_none_iff.mpr ⟨e, by simp [hl], ?_⟩
  simp [pendingWrites_without, hp]

/-- The total of files of one size. -/
theorem total_of_size {a : Nat} {m : List (Key × Nat)} (h : ∀ e ∈ m, e.2 = a) :
    total m = m.length * a := by
  induction m with
  | nil => simp
  | cons e m ih =>
    obtain ⟨he, hm⟩ := List.forall_mem_cons.mp h
    rw [total_cons, ih hm, he, length_cons]
    ring

theorem freed_le (remove : Nat → RemoveOutcome) (l : List (Key × Nat)) : freed remove l ≤ total l := by
  induction l generalizing remove with
  | nil => exact le_refl 0
  | cons e l ih =>
    have := ih fun i => remove (i + 1)
    rw [freed, total_cons]
    split <;> omega

/-! ### How far a loop goes -/

theorem Takes.length (h : Takes cont remove cap s j) : (coldest j s).length = j :=
  coldest_length fun i hi => (h.going i hi).1

/-- A loop cannot end where it is still going. -/
theorem Takes.not_lt (h : Takes cont remove cap s i) (h' : Takes cont remove cap s j) : ¬ i < j := by
  intro hij
  obtain ⟨hv, hr, hc⟩ := h'.going i hij
  rcases h.ended with he | he | he | he
  · have := h'.le
    omega
  · exact hv he
  · exact hr he
  · rw [he] at hc
    cases hc

theorem Takes.unique (h : Takes cont remove cap s i) (h' : Takes cont remove cap s j) : i = j :=
  Nat.le_antisymm (Nat.not_lt.mp (h'.not_lt h)) (Nat.not_lt.mp (h.not_lt h'))

/-- One more file in front. -/
theorem Takes.cons (hv : victim s = some (stem, size)) (hr : remove 0 ≠ .osError)
    (hc : cont s 0 = true)
    (h : Takes (fun s x => cont s ((if remove 0 = .removed then size else 0) + x))
      (fun i => remove (i + 1)) cap (dropEntry stem size s) j) :
    Takes cont remove (cap + 1) s (j + 1) := by
  refine ⟨Nat.succ_le_succ h.le, ?_, ?_⟩
  · intro i hi
    cases i with
    | zero => exact ⟨by simp [hv], hr, hc⟩
    | succ i =>
      rw [without_succ hv, coldest_succ hv, freed]
      exact h.going i (Nat.lt_of_succ_lt_succ hi)
  · rw [without_succ hv, coldest_succ hv, freed]
    exact h.ended.imp_left fun he => congrArg Nat.succ he

/-- A loop that does not start. -/
theorem Takes.stay (h : victim s = none ∨ remove 0 = .osError ∨ cont s 0 = false) :
    Takes cont remove cap s 0 :=
  ⟨Nat.zero_le cap, fun _ hi => absurd hi (Nat.not_lt_zero _), .inr h⟩

/-- What `_evict_one_lru_locked` does when the unlink does not fail. -/
theorem evictOneLruLocked_evicted {remove : RemoveOutcome} (hv : victim s = some (stem, size))
    (hr : remove ≠ .osError) :
    evictOneLruLocked remove s =
      (dropEntry stem size s, .evicted stem (if remove = .removed then size else 0)) := by
  cases remove with
  | osError => exact absurd rfl hr
  | removed => simp only [evictOneLruLocked, hv, if_true]; rfl
  | fileNotFound => simp only [evictOneLruLocked, hv]; rfl

/-- The bookkeeping a loop leaves that has taken `j` files: when the next unlink has failed, its
victim is back, in front. -/
def Leaves (remove : Nat → RemoveOutcome) (s : State) (j : Nat) (s' : State) : Prop :=
  s' = without j s ∨ remove j = .osError ∧
    ∃ stem size, victim (without j s) = some (stem, size) ∧ s' = repin stem size (without j s)

/-- **An eviction loop takes the coldest files**, as many as `Takes` says. -/
theorem evictWhile_takes (cont : State → Nat → Bool) (remove : Nat → RemoveOutcome) (cap : Nat)
    (s : State) :
    ∃ j, Takes cont remove cap s j ∧ (evictWhile cont remove cap 0 s 0).2 = keys (coldest j s) ∧
      Leaves remove s j (evictWhile cont remove cap 0 s 0).1 := by
  -- the loop counts evictions and bytes from where it is: both are shifted away
  suffices ∀ (evictions reclaimed : Nat), ∃ j,
      Takes (fun s x => cont s (reclaimed + x)) (fun i => remove (evictions + i)) cap s j ∧
        (evictWhile cont remove cap evictions s reclaimed).2 = keys (coldest j s) ∧
        Leaves (fun i => remove (evictions + i)) s j
          (evictWhile cont remove cap evictions s reclaimed).1 by
    simpa only [Nat.zero_add] using this 0 0
  induction cap generalizing s with
  | zero => exact fun _ _ => ⟨0, ⟨le_refl 0, by simp, .inl rfl⟩, rfl, .inl rfl⟩
  | succ cap ih =>
    intro evictions reclaimed
    rw [evictWhile]
    by_cases hgo : (!s.lru.isEmpty && cont s reclaimed) = true
    · rw [if_pos hgo]
      rw [Bool.and_eq_true] at hgo
      cases hv : victim s with
      | none =>
        refine ⟨0, .stay (.inl hv), ?_⟩
        rw [evictOneLruLocked, hv]
        exact ⟨rfl, .inl rfl⟩
      | some e =>
        obtain ⟨stem, size⟩ := e
        by_cases hr : remove evictions = .osError
        · refine ⟨0, .stay (.inr (.inl hr)), ?_⟩
          simp only [evictOneLruLocked, hv, hr]
          exact ⟨rfl, .inr ⟨hr, stem, size, hv, rfl⟩⟩
        · rw [evictOneLruLocked_evicted hv hr]
          obtain ⟨j, ht, hk, hl⟩ := ih (dropEntry stem size s) (evictions + 1)
            (reclaimed + if remove evictions = .removed then size else 0)
          refine ⟨j + 1, .cons hv hr hgo.2 ?_, ?_, ?_⟩
          · simpa only [Nat.add_assoc, Nat.add_comm 1, Nat.add_zero] using ht
          · rw [coldest_succ hv, Assoc.keys_cons, ← hk]
          · unfold Leaves at hl ⊢
            rw [without_succ hv]
            simpa only [Nat.add_assoc, Nat.add_comm 1] using hl
    · rw [if_neg hgo]
      refine ⟨0, .stay ?_, rfl, .inl rfl⟩
      rw [Bool.and_eq_true, not_and_or] at hgo
      rcases hgo with hgo | hgo
      · have hlru : s.lru = [] := by simpa using hgo
        refine .inl ?_
        rw [victim, hlru]
        rfl
      · exact .inr (.inr (by simpa using hgo))

/-! ### A victim put back -/

/-- The scan prefers its last best entry to what it has seen. -/
theorem scan_keeps {l : List (Key × Nat)} {b : Key × Nat × ℚ}
    (h : ∀ e ∈ l, e.1 ∉ s.pendingWrites → b.2.2 ≤ score s e.1) :
    l.foldl (scanEntry s) (some b) = some b := by
  induction l with
  | nil => rfl
  | cons e l ih =>
    obtain ⟨he, hl⟩ := List.forall_mem_cons.mp h
    have hstep : scanEntry s (some b) e = some b := by
      unfold scanEntry
      split
      · rfl
      · next hp => exact if_neg (not_lt.mpr (he hp))
    rw [foldl_cons, hstep]
    exact ih hl

/-- The best entry has the lowest score of those the scan has seen. -/
theorem scan_le {l : List (Key × Nat)} {best b : Option (Key × Nat × ℚ)}
    (hb : l.foldl (scanEntry s) best = b) :
    (∀ x, best = some x → ∃ y, b = some y ∧ y.2.2 ≤ x.2.2) ∧
      ∀ e ∈ l, e.1 ∉ s.pendingWrites → ∃ y, b = some y ∧ y.2.2 ≤ score s e.1 := by
  induction l generalizing best with
  | nil => exact ⟨fun x hx => ⟨x, by rw [← hb, foldl_nil, hx], le_refl _⟩, by simp⟩
  | cons e l ih =>
    rw [foldl_cons] at hb
    obtain ⟨hbest, hl⟩ := ih hb
    -- one entry lowers the best score, and does not leave it above its own
    have hmono : ∀ x, best = some x → ∃ y, scanEntry s best e = some y ∧ y.2.2 ≤ x.2.2 := by
      rintro x rfl
      unfold scanEntry
      split
      · exact ⟨x, rfl, le_refl _⟩
      · simp only
        split
        · next hlt => exact ⟨_, rfl, le_of_lt hlt⟩
        · exact ⟨x, rfl, le_refl _⟩
    have hself : e.1 ∉ s.pendingWrites → ∃ y, scanEntry s best e = some y ∧ y.2.2 ≤ score s e.1 := by
      intro hp
      unfold scanEntry
      rw [if_neg hp]
      cases best with
      | none => exact ⟨_, rfl, le_refl _⟩
      | some x =>
        simp only
        split
        · exact ⟨_, rfl, le_refl _⟩
        · next hlt => exact ⟨x, rfl, not_lt.mp hlt⟩
    refine ⟨fun x hx => ?_, List.forall_mem_cons.mpr ⟨fun hp => ?_, hl⟩⟩
    · obtain ⟨y, hy, hyx⟩ := hmono x hx
      obtain ⟨z, hz, hzy⟩ := hbest y hy
      exact ⟨z, hz, le_trans hzy hyx⟩
    · obtain ⟨y, hy, hye⟩ := hself hp
      obtain ⟨z, hz, hzy⟩ := hbest y hy
      exact ⟨z, hz, le_trans hzy hye⟩

theorem scan_score {l : List (Key × Nat)} :
    ∀ b, l.foldl (scanEntry s) none = some b → b.2.2 = score s b.1 := by
  suffices ∀ best : Option (Key × Nat × ℚ), (∀ b, best = some b → b.2.2 = score s b.1) →
      ∀ b, l.foldl (scanEntry s) best = some b → b.2.2 = score s b.1 from this none (by simp)
  induction l with
  | nil => exact fun _ h => h
  | cons e l ih =>
    intro best h
    rw [foldl_cons]
    refine ih _ fun b hb => ?_
    unfold scanEntry at hb
    split at hb
    · exact h b hb
    · split at hb
      · cases hb
        rfl
      · split at hb
        · cases hb
          rfl
        · exact h b hb

/-- The victim has the lowest score of the window. -/
theorem victim_le (hv : victim s = some (stem, size)) :
    ∀ e ∈ s.lru.take 64, e.1 ∉ s.pendingWrites → score s stem ≤ score s e.1 := by
  obtain ⟨b, hb, hbe⟩ := Option.map_eq_some_iff.mp hv
  cases hbe
  intro e he hp
  obtain ⟨y, hy, hye⟩ := (scan_le hb).2 e he hp
  cases hy
  rwa [scan_score b hb] at hye

/-- Without one entry, the window less its last place is a part of the window. -/
theorem take_del_subset (n : Nat) (k : Key) {m : List (Key × Nat)} (hn : (keys m).Nodup) :
    (del k m).take n ⊆ m.take (n + 1) := by
  induction m generalizing n with
  | nil => simp [del]
  | cons e m ih =>
    obtain ⟨he, hm⟩ := List.nodup_cons.mp hn
    by_cases hk : e.1 = k
    · have hdel : del k (e :: m) = m := by
        subst hk
        rw [← del_of_not_mem he]
        simp [del]
      rw [hdel, take_succ_cons]
      exact fun x hx => mem_cons_of_mem _ hx
    · have hdel : del k (e :: m) = e :: del k m := by simp [del, hk]
      rw [hdel, take_succ_cons]
      cases n with
      | zero => simp
      | succ n =>
        rw [take_succ_cons]
        exact cons_subset_cons e (ih n hm)

/-- **A victim that is put back is the victim again.** -/
theorem victim_repin (hn : (keys s.lru).Nodup) (hv : victim s = some (stem, size)) :
    victim (repin stem size s) = some (stem, size) := by
  have hp := (victim_spec hv).2
  have hstep : scanEntry (repin stem size s) none (stem, size) = some (stem, size, score s stem) := by
    unfold scanEntry
    rw [if_neg (show (stem, size).1 ∉ (repin stem size s).pendingWrites from hp)]
    rfl
  have hkeep := scan_keeps (s := repin stem size s) (l := (del stem s.lru).take 63)
    (b := (stem, size, score s stem))
    fun e he hpe => victim_le hv e (take_del_subset 63 stem hn he) hpe
  simp only [victim, repin, take_succ_cons, foldl_cons] at hstep hkeep ⊢
  rw [hstep, hkeep]
  rfl

theorem dropEntry_repin (stem : Key) (size : Nat) (s : State) :
    dropEntry stem size (repin stem size s) = dropEntry stem size s := by
  have : del stem ((stem, size) :: del stem s.lru) = del stem s.lru := by
    simp [del]
  simp only [dropEntry, repin, this]

/-- A failed unlink does not change the order. -/
theorem Leaves.coldest {s' : State} (hB : Bookkept s) (h : Leaves remove s i s') (j : Nat) :
    coldest j s' = coldest j (without i s) := by
  rcases h with rfl | ⟨-, stem, size, hv, rfl⟩
  · rfl
  · cases j with
    | zero => rfl
    | succ j =>
      rw [coldest_succ hv, coldest_succ (victim_repin (hB.without i).lru_nodup hv), dropEntry_repin]

theorem Leaves.victim_without {s' : State} (hB : Bookkept s) (h : Leaves remove s i s') (j : Nat) :
    victim (without j s') = victim (without j (without i s)) := by
  rcases h with rfl | ⟨-, stem, size, hv, rfl⟩
  · rfl
  · cases j with
    | zero => rw [without_zero, without_zero, hv, victim_repin (hB.without i).lru_nodup hv]
    | succ j =>
      rw [without_succ hv, without_succ (victim_repin (hB.without i).lru_nodup hv), dropEntry_repin]

theorem Leaves.totalBytes {s' : State} (h : Leaves remove s i s') :
    s'.totalBytes = (without i s).totalBytes := by
  rcases h with rfl | ⟨-, stem, size, hv, rfl⟩ <;> rfl

theorem Leaves.lru_length {s' : State} (hB : Bookkept s) (h : Leaves remove s i s') :
    s'.lru.length = (without i s).lru.length := by
  rcases h with rfl | ⟨-, stem, size, hv, rfl⟩
  · rfl
  · have hmem : stem ∈ keys (without i s).lru :=
      mem_keys_iff.mpr ⟨size, (hB.without i).lookup_victim hv⟩
    rw [repin, length_cons, length_del (hB.without i).lru_nodup hmem]

theorem Leaves.eq {s' : State} (h : Leaves remove s i s') (hok : ∀ i, remove i ≠ .osError) :
    s' = without i s :=
  h.resolve_right fun h => hok i h.1

end

end QwenStack.Evictor

import QwenStack.Evictor.Stop

/-!
# Evictor — the work of one admission

`_eviction_cap_for` never gives an eviction loop more than 16384 evictions.  `reserve` has two such
loops, one for the cap and one for the free space, each with a budget of its own.

`reserve_takes` says which files a `reserve` evicts: the `k₁` coldest for the cap, and, when the
value then fits, the next `k₂` for the free space.  Together they stay within the 16384 exactly when
the bytes of the coldest files, the watermarks and the two budgets ask for no more
(`reserve_bounded_iff`).
-/

namespace QwenStack.Evictor
open Assoc

/-- The value fits under the cap, if there is one. -/
def Fits (cfg : Settings) (n : Nat) (s : State) : Prop :=
  cfg.maxSizeBytes = 0 ∨ s.totalBytes + n ≤ cfg.maxSizeBytes

instance (cfg : Settings) (n : Nat) (s : State) : Decidable (Fits cfg n s) :=
  inferInstanceAs (Decidable (_ ∨ _))

/-- The cap takes the `k` coldest files: none if the value fits, and otherwise as many as bring the
total down to the target. -/
def CapTakes (cfg : Settings) (remove : Nat → RemoveOutcome) (n : Nat) (s : State) (k : Nat) : Prop :=
  if Fits cfg n s then k = 0
  else Takes (fun s _ => decide (evictTarget cfg n < s.totalBytes)) remove (evictionCapFor cfg.arithmetic n s) s k

/-- The free space takes the `k` coldest files: none without a watermark or when the filesystem
cannot be probed, and otherwise as many as free what is missing. -/
def FreeTakes (cfg : Settings) (os : FreeSpace) (n : Nat) (s : State) (k : Nat) : Prop :=
  if cfg.minFreeBytes = 0 then k = 0
  else
    match os.fsBefore with
    | none => k = 0
    | some (_, free) =>
        Takes (fun _ reclaimed =>
            decide (((free + reclaimed : Nat) : Int) - n < cfg.minFreeBytes))
          os.remove (evictionCapFor cfg.arithmetic (n + cfg.minFreeBytes) s) s k

/-! ### What a `reserve` asks for -/

/-- The watermark of the cap. -/
def watermark (cfg : Settings) : Int :=
  ⌊cfg.arithmetic.round (cfg.arithmetic.round cfg.maxSizeBytes * cfg.evictionRatio)⌋

/-- Without the `k` coldest files, what is left and the value are above the watermark. -/
def Above (cfg : Settings) (n : Nat) (s : State) (k : Nat) : Prop :=
  (total (coldest k s) : Int) < s.totalBytes ∧
    watermark cfg + total (coldest k s) < s.totalBytes + n

/-- For `needed` bytes `k` of `files` files with `bytes` bytes may go: 256, or above a mebibyte half as
many again as the bytes need at the average size, and eight; and 16384 at most. -/
def Allowed (arithmetic : Arithmetic) (needed : Nat) (bytes : Int) (files k : Nat) : Prop :=
  k ≤ 16384 ∧ (k ≤ 256 ∨ 2 ^ 20 < needed ∧ files ≠ 0 ∧
    (k : Int) ≤ ⌊arithmetic.round (arithmetic.round (needed / max 1 (bytes / files)) * (3 / 2))⌋ + 8)

/-- There are `k` coldest files, and they can be unlinked. -/
def CanGo (remove : Nat → RemoveOutcome) (s : State) (k : Nat) : Prop :=
  (coldest k s).length = k ∧ ∀ i < k, remove i ≠ .osError

/-- The `k` coldest files bring what is left and the value down to the watermark, or are all that may
and can go. -/
structure Lowers (cfg : Settings) (remove : Nat → RemoveOutcome) (n : Nat) (s : State) (k : Nat) :
    Prop where
  allowed : Allowed cfg.arithmetic n s.totalBytes s.lru.length k
  canGo : CanGo remove s k
  above : ∀ j < k, Above cfg n s j
  last : Allowed cfg.arithmetic n s.totalBytes s.lru.length (k + 1) → CanGo remove s (k + 1) →
    ¬ Above cfg n s k

/-- **The condition**, where the value is over the cap and `k` files go for it: if the budget for the free
space has room for the files from there to the 16385th, then the 16384 coldest are enough for it. -/
def Affordable (cfg : Config) (env : ReserveEnv) (n : Nat) (s : State) : Prop :=
  cfg.evictionEnabled = true → 0 < cfg.minFreeBytes → 0 < cfg.maxSizeBytes → n ≤ cfg.maxSizeBytes →
  (cfg.maxSizeBytes : Int) < s.totalBytes + n →
  ∀ size free k, env.freeSpace.fsBefore = some (size, free) → Lowers cfg.toSettings env.remove n s k →
    s.totalBytes + n ≤ cfg.maxSizeBytes + total (coldest k s) →
    Allowed cfg.arithmetic (n + cfg.minFreeBytes) (s.totalBytes - total (coldest k s))
      (s.lru.length - k) (16385 - k) →
    CanGo env.freeSpace.remove (without k s) (16385 - k) →
      n + cfg.minFreeBytes ≤
        free + freed env.freeSpace.remove (coldest (16384 - k) (without k s))

section
variable {s s' : State} {cfg : Settings} {remove : Nat → RemoveOutcome} {os : FreeSpace}
  {n i j k : Nat}

/-! ### The two loops -/

/-- **The budget** of a loop. -/
theorem le_evictionCapFor_iff (arithmetic : Arithmetic) (n : Nat) (s : State) (k : Nat) :
    k ≤ evictionCapFor arithmetic n s ↔ Allowed arithmetic n s.totalBytes s.lru.length k := by
  rw [evictionCapFor, Allowed]
  split
  · omega
  · split
    · omega
    · next hbig hfiles =>
      dsimp only
      generalize ⌊arithmetic.round (arithmetic.round (n / (max 1 (s.totalBytes / s.lru.length) : Int)) *
        (3 / 2))⌋ = want
      omega

theorem evictionCapFor_le (arithmetic : Arithmetic) (n : Nat) (s : State) :
    evictionCapFor arithmetic n s ≤ 16384 :=
  ((le_evictionCapFor_iff arithmetic n s _).mp le_rfl).1

theorem CapTakes.le (h : CapTakes cfg remove n s k) : k ≤ 16384 := by
  rw [CapTakes] at h
  split at h
  · omega
  · exact h.le.trans (evictionCapFor_le ..)

theorem FreeTakes.le (h : FreeTakes cfg os n s k) : k ≤ 16384 := by
  rw [FreeTakes] at h
  split at h
  · omega
  · split at h
    · omega
    · exact h.le.trans (evictionCapFor_le ..)

theorem CapTakes.length (h : CapTakes cfg remove n s k) : (coldest k s).length = k := by
  rw [CapTakes] at h
  split at h
  · rw [h, coldest_zero, List.length_nil]
  · exact h.length

theorem FreeTakes.length (h : FreeTakes cfg os n s k) : (coldest k s).length = k := by
  rw [FreeTakes] at h
  split at h
  · rw [h, coldest_zero, List.length_nil]
  · split at h
    · rw [h, coldest_zero, List.length_nil]
    · exact h.length

theorem CapTakes.unique (h : CapTakes cfg remove n s i) (h' : CapTakes cfg remove n s j) : i = j := by
  rw [CapTakes] at h h'
  split at h
  · next hf =>
    rw [if_pos hf] at h'
    rw [h, h']
  · next hf =>
    rw [if_neg hf] at h'
    exact h.unique h'

theorem FreeTakes.unique (h : FreeTakes cfg os n s i) (h' : FreeTakes cfg os n s j) : i = j := by
  unfold FreeTakes at h h'
  split at h
  · next hm =>
    rw [if_pos hm] at h'
    rw [h, h']
  · next hm =>
    rw [if_neg hm] at h'
    cases hfs : os.fsBefore with
    | none =>
      rw [hfs] at h h'
      exact h.trans h'.symm
    | some fs =>
      rw [hfs] at h h'
      exact h.unique h'

/-- The cap-based part of a `reserve` takes what the cap takes. -/
theorem admitSize_takes (cfg : Settings) (remove : Nat → RemoveOutcome) (n : Nat) (s : State) :
    ∃ k, CapTakes cfg remove n s k ∧ (admitSize cfg remove n s).2.1 = keys (coldest k s) ∧
      Leaves remove s k (admitSize cfg remove n s).1 ∧
      ((admitSize cfg remove n s).2.2 = true ↔ Fits cfg n (without k s)) := by
  by_cases hf : Fits cfg n s
  · have hover : ¬ (0 < cfg.maxSizeBytes ∧ (cfg.maxSizeBytes : Int) < s.totalBytes + n) := by
      rcases hf with hf | hf <;> omega
    rw [admitSize, if_neg hover]
    exact ⟨0, by rw [CapTakes, if_pos hf], rfl, .inl rfl, by simpa using hf⟩
  · obtain ⟨hmax, hbig⟩ := not_or.mp hf
    have hover : 0 < cfg.maxSizeBytes ∧ (cfg.maxSizeBytes : Int) < s.totalBytes + n := by omega
    obtain ⟨k, ht, hk, hl⟩ := evictWhile_takes
      (fun s _ => decide (evictTarget cfg n < s.totalBytes)) remove
      (evictionCapFor cfg.arithmetic n s) s
    rw [admitSize, if_pos hover, evictLocked, if_neg hmax]
    refine ⟨k, by rwa [CapTakes, if_neg hf], hk, hl, ?_⟩
    rw [decide_eq_true_iff, hl.totalBytes, Fits]
    exact ⟨.inr, fun h => h.resolve_left hmax⟩

/-- The free-space part of a `reserve` takes what the free space takes. -/
theorem enforceFreeSpaceLocked_takes (cfg : Settings) (os : FreeSpace) (n : Nat) (s : State) :
    ∃ k, FreeTakes cfg os n s k ∧ (enforceFreeSpaceLocked cfg os n s).2.1 = keys (coldest k s) ∧
      Leaves os.remove s k (enforceFreeSpaceLocked cfg os n s).1 := by
  rw [enforceFreeSpaceLocked]
  split
  · next hm => exact ⟨0, by rw [FreeTakes, if_pos hm], rfl, .inl rfl⟩
  · next hm =>
    split
    · next hfs =>
      refine ⟨0, ?_, rfl, .inl rfl⟩
      rw [FreeTakes, if_neg hm, hfs]
    · next total free hfs =>
      obtain ⟨k, ht, hk, hl⟩ := evictWhile_takes
        (fun _ reclaimed => decide (((free + reclaimed : Nat) : Int) - n < cfg.minFreeBytes))
        os.remove (evictionCapFor cfg.arithmetic (n + cfg.minFreeBytes) s) s
      refine ⟨k, ?_, ?_⟩
      · rw [FreeTakes, if_neg hm, hfs]
        exact ht
      · split <;> exact ⟨hk, hl⟩

/-- After a failed unlink of the first loop the second takes the same files. -/
theorem FreeTakes.of_leaves (hB : Bookkept s) (hl : Leaves remove s i s')
    (h : FreeTakes cfg os n s' k) : FreeTakes cfg os n (without i s) k := by
  unfold FreeTakes at h ⊢
  split
  · next hm => rwa [if_pos hm] at h
  · next hm =>
    rw [if_neg hm] at h
    cases hfs : os.fsBefore with
    | none =>
      rw [hfs] at h
      exact h
    | some fs =>
      rw [hfs] at h
      have hcap : evictionCapFor cfg.arithmetic (n + cfg.minFreeBytes) s' =
          evictionCapFor cfg.arithmetic (n + cfg.minFreeBytes) (without i s) := by
        rw [evictionCapFor, evictionCapFor, hl.lru_length hB, hl.totalBytes]
      refine ⟨hcap ▸ h.le, ?_, ?_⟩
      · intro l hlt
        have := h.going l hlt
        rwa [hl.victim_without hB, hl.coldest hB] at this
      · have := h.ended
        rwa [hcap, hl.victim_without hB, hl.coldest hB] at this

/-! ### How many files they take -/

/-- Files can go as long as there is a victim and its unlink does not fail. -/
theorem canGo_iff : CanGo remove s k ↔ ∀ i < k, victim (without i s) ≠ none ∧ remove i ≠ .osError := by
  refine ⟨fun h i hi => ⟨fun hv => ?_, h.2 i hi⟩,
    fun h => ⟨coldest_length fun i hi => (h i hi).1, fun i hi => (h i hi).2⟩⟩
  -- past the last victim the order ends
  have hlen := h.1
  obtain ⟨j, rfl⟩ := Nat.exists_eq_add_of_lt hi
  rw [Nat.add_assoc, coldest_add, coldest_none hv, List.append_nil] at hlen
  have := coldest_length_le i s
  omega

theorem canGo_succ : CanGo remove s (k + 1) ↔
    CanGo remove s k ∧ victim (without k s) ≠ none ∧ remove k ≠ .osError := by
  rw [canGo_iff, canGo_iff, Nat.forall_lt_succ_right]

theorem freed_le_add (remove : Nat → RemoveOutcome) (i j : Nat) (s : State) :
    freed remove (coldest i s) ≤ freed remove (coldest (i + j) s) := by
  rw [coldest_add]
  generalize coldest i s = l
  induction l generalizing remove with
  | nil => exact Nat.zero_le _
  | cons e l ih => exact Nat.add_le_add_left (ih fun i => remove (i + 1)) _

/-- What a loop takes is at least `m` files exactly when it has as many to spend, and goes on at each. -/
theorem Takes.le_iff {cont : State → Nat → Bool} {cap m : Nat} (h : Takes cont remove cap s k) :
    m ≤ k ↔ m ≤ cap ∧ CanGo remove s m ∧
      ∀ i < m, cont (without i s) (freed remove (coldest i s)) = true := by
  constructor
  · intro hm
    refine ⟨hm.trans h.le, canGo_iff.mpr fun i hi => ?_, fun i hi => (h.going i (by omega)).2.2⟩
    exact ⟨(h.going i (by omega)).1, (h.going i (by omega)).2.1⟩
  · rintro ⟨hcap, hgo, hcont⟩
    by_contra hlt
    obtain ⟨hv, hr⟩ := canGo_iff.mp hgo k (by omega)
    rcases h.ended with hk | hk | hk | hk
    · omega
    · exact hv hk
    · exact hr hk
    · rw [hcont k (by omega)] at hk
      cases hk

theorem evictTarget_lt_iff : evictTarget cfg n < (without k s).totalBytes ↔ Above cfg n s k := by
  rw [totalBytes_without, Above]
  change max 0 (watermark cfg - n) < _ ↔ _
  omega

/-- **What the cap takes**, for a value that does not fit. -/
theorem capTakes_iff (hf : ¬ Fits cfg n s) : CapTakes cfg remove n s k ↔ Lowers cfg remove n s k := by
  rw [CapTakes, if_neg hf]
  constructor
  · intro h
    have hlast := mt (h.le_iff (m := k + 1)).mpr (Nat.not_succ_le_self k)
    obtain ⟨hcap, hgo, hcont⟩ := h.le_iff.mp le_rfl
    simp only [decide_eq_true_iff, evictTarget_lt_iff, le_evictionCapFor_iff] at hcap hcont hlast
    exact ⟨hcap, hgo, hcont, fun hcap' hgo' habove =>
      hlast ⟨hcap', hgo', Nat.forall_lt_succ_right.mpr ⟨hcont, habove⟩⟩⟩
  · intro h
    refine ⟨(le_evictionCapFor_iff ..).mpr h.allowed, fun i hi => ?_, ?_⟩
    · obtain ⟨hv, hr⟩ := canGo_iff.mp h.canGo i hi
      exact ⟨hv, hr, decide_eq_true (evictTarget_lt_iff.mpr (h.above i hi))⟩
    · by_contra hgoes
      obtain ⟨hcap, hv, hr, hcont⟩ : k ≠ _ ∧ _ ∧ _ ∧ _ := by simpa only [not_or] using hgoes
      refine h.last ?_ (canGo_succ.mpr ⟨h.canGo, hv, hr⟩) ?_
      · have := (le_evictionCapFor_iff cfg.arithmetic n s k).mpr h.allowed
        exact (le_evictionCapFor_iff ..).mp (by omega)
      · simpa [evictTarget_lt_iff] using hcont

/-- **What the free space takes** after `k` files: as many as go beyond the budget of a `reserve` exactly
when they may and can, and those before the last do not free what is missing. -/
theorem FreeTakes.le_iff (hB : Bookkept s) (hk : k ≤ 16384) (hlen : (coldest k s).length = k)
    (h : FreeTakes cfg os n (without k s) j) : k + j ≤ 16384 ↔
      (0 < cfg.minFreeBytes → ∀ size free, os.fsBefore = some (size, free) →
        Allowed cfg.arithmetic (n + cfg.minFreeBytes) (s.totalBytes - total (coldest k s))
          (s.lru.length - k) (16385 - k) →
        CanGo os.remove (without k s) (16385 - k) →
          n + cfg.minFreeBytes ≤ free + freed os.remove (coldest (16384 - k) (without k s))) := by
  rw [FreeTakes] at h
  split at h
  · next hm => exact iff_of_true (by omega) fun hpos => absurd hm hpos.ne'
  · next hm =>
    split at h
    · next hfs => exact iff_of_true (by omega) fun _ _ _ hsome => nomatch hfs.symm.trans hsome
    · next size free hfs =>
      have hlast : 16385 - k = 16384 - k + 1 := by omega
      have hfiles : (without k s).lru.length = s.lru.length - k := by
        have := length_without hB k
        omega
      have hgoes := h.le_iff (m := 16385 - k)
      rw [le_evictionCapFor_iff, totalBytes_without, hfiles] at hgoes
      have hmissing : (∀ i < 16385 - k, decide (((free + freed os.remove (coldest i (without k s)) : Nat) :
            Int) - n < cfg.minFreeBytes) = true) ↔
          ¬ n + cfg.minFreeBytes ≤ free + freed os.remove (coldest (16384 - k) (without k s)) := by
        simp only [decide_eq_true_iff]
        refine ⟨fun h => ?_, fun h i hi => ?_⟩
        · have := h (16384 - k) (by omega)
          omega
        · obtain ⟨d, hd⟩ := Nat.exists_eq_add_of_le (show i ≤ 16384 - k by omega)
          have := freed_le_add os.remove i d (without k s)
          rw [← hd] at this
          omega
      rw [hmissing] at hgoes
      constructor
      · intro hle hpos size' free' hsome hallowed hgo
        obtain ⟨rfl, rfl⟩ := Prod.mk.inj (Option.some.inj (hfs.symm.trans hsome))
        by_contra hshort
        have := hgoes.mpr ⟨hallowed, hgo, hshort⟩
        omega
      · intro hall
        by_contra hover
        obtain ⟨hallowed, hgo, hshort⟩ := hgoes.mp (by omega)
        exact hshort (hall (Nat.pos_of_ne_zero hm) size free hfs hallowed hgo)

/-! ### `reserve` -/

variable {cfg : Config} {env : ReserveEnv} {key : Key}

/-- A `reserve` that is refused, or admitted, without a look at the index. -/
theorem reserve_disabled_evicted (he : cfg.evictionEnabled = false) :
    (reserve cfg env key n s).2.1 = [] := by
  rw [Config.evictionEnabled, Bool.and_eq_false_iff] at he
  rw [reserve]
  by_cases hc : cfg.evictionConfigured = true
  · have ho : cfg.isStorageOwner = false := by simpa [hc] using he
    simp [hc, ho]
  · simp [hc]

theorem reserve_too_large (he : cfg.evictionEnabled = true)
    (hn : 0 < cfg.maxSizeBytes ∧ cfg.maxSizeBytes < n) :
    reserve cfg env key n s = (s, [], false) := by
  rw [Config.evictionEnabled, Bool.and_eq_true] at he
  simp [reserve, he.1, he.2, hn]

/-- **What a `reserve` evicts**, for a value the cap can hold. -/
theorem reserve_takes (hB : Bookkept s) (he : cfg.evictionEnabled = true)
    (hn : ¬ (0 < cfg.maxSizeBytes ∧ cfg.maxSizeBytes < n)) (env : ReserveEnv) (key : Key) :
    ∃ k₁, CapTakes cfg.toSettings env.remove n s k₁ ∧
      (¬ Fits cfg.toSettings n (without k₁ s) ∧ (reserve cfg env key n s).2.2 = false ∧
          (reserve cfg env key n s).2.1 = keys (coldest k₁ s) ∨
        Fits cfg.toSettings n (without k₁ s) ∧
          ∃ k₂, FreeTakes cfg.toSettings env.freeSpace n (without k₁ s) k₂ ∧
            (reserve cfg env key n s).2.1 = keys (coldest (k₁ + k₂) s) ∧
            (env.Meets (fun o => o ≠ .osError) → (reserve cfg env key n s).2.2 = true →
              (reserve cfg env key n s).1 = preReserve key n env.now (without (k₁ + k₂) s))) := by
  rw [Config.evictionEnabled, Bool.and_eq_true] at he
  obtain ⟨k₁, ht₁, hk₁, hl₁, hfit⟩ := admitSize_takes cfg.toSettings env.remove n s
  refine ⟨k₁, ht₁, ?_⟩
  simp only [reserve, he.1, he.2, Bool.not_true, Bool.false_eq_true, if_false, if_neg hn]
  by_cases hf : Fits cfg.toSettings n (without k₁ s)
  · obtain ⟨k₂, ht₂, hk₂, hl₂⟩ := enforceFreeSpaceLocked_takes cfg.toSettings env.freeSpace n
      (admitSize cfg.toSettings env.remove n s).1
    rw [hfit.mpr hf]
    have hall : (admitSize cfg.toSettings env.remove n s).2.1 ++
        (enforceFreeSpaceLocked cfg.toSettings env.freeSpace n
          (admitSize cfg.toSettings env.remove n s).1).2.1 = keys (coldest (k₁ + k₂) s) := by
      rw [hk₁, hk₂, hl₁.coldest hB, ← keys_append, ← coldest_add]
    simp only [Bool.not_true, Bool.false_eq_true, if_false]
    refine .inr ⟨hf, k₂, ht₂.of_leaves hB hl₁, ?_, ?_⟩
    · split <;> exact hall
    · intro hok
      rw [without_add, ← hl₁.eq hok.1, ← hl₂.eq hok.2]
      split
      · intro h
        cases h
      · exact fun _ => rfl
  · have hno : (admitSize cfg.toSettings env.remove n s).2.2 = false := by
      simpa using mt hfit.mp hf
    rw [hno]
    exact .inl ⟨hf, rfl, hk₁⟩

/-- The work of a `reserve`, for an index that is kept. -/
theorem length_reserve_iff (hB : Bookkept s) (cfg : Config) (env : ReserveEnv) (key : Key) (n : Nat) :
    (reserve cfg env key n s).2.1.length ≤ 16384 ↔ Affordable cfg env n s := by
  by_cases he : cfg.evictionEnabled = true
  swap
  · rw [reserve_disabled_evicted (by simpa using he)]
    exact iff_of_true (Nat.zero_le _) fun he' => absurd he' he
  by_cases hn : 0 < cfg.maxSizeBytes ∧ cfg.maxSizeBytes < n
  · rw [reserve_too_large he hn]
    exact iff_of_true (Nat.zero_le _) fun _ _ _ hle => absurd hn.2 (Nat.not_lt.mpr hle)
  obtain ⟨k₁, ht₁, ⟨hno, -, hk⟩ | ⟨hroom, k₂, ht₂, hk, -⟩⟩ := reserve_takes hB he hn env key
  · -- the value does not fit after what the cap takes
    rw [hk, keys, List.length_map, ht₁.length]
    refine iff_of_true ht₁.le fun _ _ hmax _ hover size free k _ hlowers hroom => ?_
    obtain rfl := ht₁.unique ((capTakes_iff (by rw [Fits]; omega)).mpr hlowers)
    exact absurd (.inr (by rw [totalBytes_without]; omega)) hno
  · rw [hk, keys, List.length_map, coldest_add, List.length_append, ht₁.length, ht₂.length]
    by_cases hf : Fits cfg.toSettings n s
    · rw [CapTakes, if_pos hf] at ht₁
      refine iff_of_true (by have := ht₂.le; omega) fun _ _ hmax _ hover => ?_
      rcases hf with hf | hf <;> omega
    · have hlowers := (capTakes_iff hf).mp ht₁
      obtain ⟨hmax, hover⟩ := not_or.mp hf
      rw [ht₂.le_iff hB ht₁.le ht₁.length]
      constructor
      · intro h _ hmin _ _ _ size free k hfs hlowers' _
        obtain rfl := ht₁.unique ((capTakes_iff hf).mpr hlowers')
        exact h hmin size free hfs
      · intro h hmin size free hfs
        refine h he hmin (Nat.pos_of_ne_zero hmax) ?_ (by omega) size free k₁ hfs hlowers ?_
        · omega
        · rcases hroom with hroom | hroom
          · omega
          · rw [totalBytes_without] at hroom
            omega

/-- **The work of a `reserve`**: in every reachable state it removes 16384 entries at most exactly
when its two watermarks ask for no more together. -/
theorem reserve_bounded_iff (st : Settings) (env₀ : InitEnv) (sections : List Section)
    (env : ReserveEnv) (key : Key) (n : Nat) :
    let cfg := configure st env₀.fs
    let s := run cfg (init cfg env₀).1 sections
    (reserve cfg env key n s).2.1.length ≤ 16384 ↔ Affordable cfg env n s := by
  intro cfg s
  exact length_reserve_iff ((bookkept_init cfg env₀).run cfg sections) cfg env key n

/-! ### Two watermarks at once -/

/-- A cap of 16385 bytes, reached, and a watermark of a mebibyte. -/
def bothWatermarks : Settings := .oneRank 16385 (2 ^ 20)

/-- Reads that adopt `files` files of one byte. -/
def adoptFiles (files : Nat) : List Section :=
  (List.range files).map fun i => .touchAdopt (List.replicate i 'k') 0 1

/-- A write of one byte onto a filesystem that has nothing free. -/
def fullDisk : ReserveEnv :=
  ⟨fun _ => .removed, ⟨some (2 ^ 40, 0), some (2 ^ 40, 0), fun _ => .removed⟩, 0⟩

theorem run_adoptFiles (he : cfg.evictionEnabled = true) (files : Nat) :
    (run cfg State.empty (adoptFiles files)).lru =
        (List.range files).map (fun i => (List.replicate i 'k', 1)) ∧
      (run cfg State.empty (adoptFiles files)).totalBytes = files ∧
      (run cfg State.empty (adoptFiles files)).pendingWrites = [] := by
  induction files with
  | zero => exact ⟨rfl, rfl, rfl⟩
  | succ files ih =>
    obtain ⟨hlru, htotal, hpend⟩ := ih
    have hnew : List.replicate files 'k' ∉
        keys (run cfg State.empty (adoptFiles files)).lru := by
      rw [hlru, keys, List.map_map]
      intro hmem
      obtain ⟨i, hi, he⟩ := List.mem_map.mp hmem
      have := congrArg List.length he
      simp only [Function.comp, List.length_replicate] at this
      exact absurd (List.mem_range.mp hi) (by omega)
    have hstep : run cfg State.empty (adoptFiles (files + 1)) =
        touchAdopt cfg (List.replicate files 'k') 0 1 (run cfg State.empty (adoptFiles files)) := by
      rw [run, adoptFiles, List.range_succ, List.map_append, List.foldl_append]
      rfl
    have hcontains : contains (List.replicate files 'k')
        (run cfg State.empty (adoptFiles files)).lru = false := by
      rw [← Bool.not_eq_true, contains_iff]
      exact hnew
    rw [hstep, touchAdopt]
    simp only [he, hcontains, Bool.not_true, Bool.false_eq_true, if_false]
    refine ⟨?_, ?_, hpend⟩
    · rw [put_of_not_mem hnew, hlru, List.range_succ, List.map_append]
      rfl
    · rw [htotal]
      push_cast
      rfl

/-- The cap takes one of the 16385 files, and the free space all the others. -/
theorem both_watermarks_over_budget :
    ¬ (reserve (configure bothWatermarks obliging.fs) fullDisk ['n'] 1
      (run (configure bothWatermarks obliging.fs)
        (init (configure bothWatermarks obliging.fs) obliging).1 (adoptFiles 16385))).2.1.length ≤
      16384 := by
  have hinit : (init (configure bothWatermarks obliging.fs) obliging).1 = State.empty := by
    decide
  have hB := (bookkept_init (configure bothWatermarks obliging.fs) obliging).run
    (configure bothWatermarks obliging.fs) (adoptFiles 16385)
  rw [hinit] at hB ⊢
  obtain ⟨hlru, htotal, hpend⟩ := run_adoptFiles
    (show (configure bothWatermarks obliging.fs).evictionEnabled = true by decide) 16385
  revert hB hlru htotal hpend
  generalize run (configure bothWatermarks obliging.fs) State.empty (adoptFiles 16385) = s
  intro hB hlru htotal hpend
  have hlen : s.lru.length = 16385 := by rw [hlru, List.length_map, List.length_range]
  have hsize : ∀ e ∈ s.lru, e.2 = 1 := by
    rw [hlru]
    simp
  -- as many bytes are gone as files
  have hgone : ∀ j, j ≤ 16385 → (coldest j s).length = j ∧ total (coldest j s) = j := by
    intro j hj
    have hl : (coldest j s).length = j := coldest_length fun i hi =>
      victim_without_ne_none hB hpend (by omega)
    refine ⟨hl, ?_⟩
    rw [total_of_size fun e he => hsize e (mem_of_mem_coldest he), hl, Nat.mul_one]
  have hwatermark : watermark (configure bothWatermarks obliging.fs).toSettings = 16385 := by
    decide +kernel
  have hmin : (configure bothWatermarks obliging.fs).minFreeBytes = 2 ^ 20 := rfl
  have hmax : (configure bothWatermarks obliging.fs).maxSizeBytes = 16385 := rfl
  have hdouble : (configure bothWatermarks obliging.fs).arithmetic = .double := rfl
  -- one file makes room for the byte
  have hlowers : Lowers (configure bothWatermarks obliging.fs).toSettings fullDisk.remove 1 s 1 := by
    refine ⟨⟨by decide, .inl (by decide)⟩, ⟨(hgone 1 (by decide)).1, by simp [fullDisk]⟩, ?_, ?_⟩
    · intro j hj
      obtain rfl : j = 0 := by omega
      rw [Above, hwatermark, htotal, coldest_zero]
      decide
    · intro _ _
      rw [Above, hwatermark, htotal, (hgone 1 (by decide)).2]
      decide
  have hbudget : Allowed .double (1 + 2 ^ 20) ((16385 : Nat) - (1 : Nat)) (16385 - 1) (16385 - 1) :=
    ⟨by decide, .inr ⟨by decide, by decide, by decide +kernel⟩⟩
  have hrest : CanGo fullDisk.freeSpace.remove (without 1 s) (16385 - 1) := by
    refine ⟨?_, by simp [fullDisk]⟩
    have hall := (hgone (1 + (16385 - 1)) (by decide)).1
    rw [coldest_add, List.length_append, (hgone 1 (by decide)).1] at hall
    omega
  rw [length_reserve_iff hB]
  intro h
  have hroom : s.totalBytes + (1 : Nat) ≤ (16385 : Nat) + (total (coldest 1 s) : Nat) := by
    rw [htotal, (hgone 1 (by decide)).2]
  rw [Affordable, hmax, hmin, htotal, hlen, hdouble] at h
  rw [htotal] at hroom
  have hfreed := h rfl (by decide) (by decide) (by decide) (by decide) (2 ^ 40) 0 1 rfl hlowers hroom
  rw [(hgone 1 (by decide)).2] at hfreed
  have hfreed := hfreed hbudget hrest
  -- even all the files together are less than the watermark
  have hall := (hgone (1 + (16384 - 1)) (by decide)).2
  rw [coldest_add, total_append] at hall
  have := freed_le fullDisk.freeSpace.remove (coldest (16384 - 1) (without 1 s))
  omega

end

end QwenStack.Evictor

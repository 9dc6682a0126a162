import QwenStack.Evictor.InFlight

/-!
# Evictor — the size cap

`reserve` admits a write only if the total stays within the cap, and no eviction, `commit`, `abort`
or `clear` adds a byte.  Two things go over the cap.  The constructor evicts at most 256 files, so
a larger inventory can be left over it; and `touch` adopts a file that is on disk without asking.
`allowance` counts what is over the cap by these two, until a write is admitted again: it bounds
the total in every state (`run_within_allowance`).
-/

namespace QwenStack.Evictor
open Assoc

/-- What one locked section does to the bytes that may be over the cap. -/
def allow (cfg : Config) (s : State) (slack : Nat) : Section → Nat
  | .reserve env key valueBytes => if (reserve cfg env key valueBytes s).2.2 then 0 else slack
  | .touchAdopt key _ size => if contains key s.lru then slack else slack + size
  | .clear => 0
  | _ => slack

/-- The bytes that may be over the cap after a run. -/
def allowance (cfg : Config) : State → Nat → List Section → Nat
  | _, slack, [] => slack
  | s, slack, a :: sections => allowance cfg (step cfg s a) (allow cfg s slack a) sections

section
variable {cfg : Config} {s : State} {k : Key} {n slack : Nat}

/-! ### Evictions only take bytes away -/

theorem evictRule_le (B : Int) :
    EvictRule (fun _ => True) (fun s => s.totalBytes ≤ B) (fun _ => True) where
  drop := by
    intro s stem size h _
    refine ⟨?_, trivial⟩
    simp only [dropEntry]
    omega
  repin := fun _ _ _ _ h _ => h

theorem lookup_getD_nonneg (k : Key) (s : State) : (0 : Int) ≤ ((s.lru.lookup k).getD 0 : Nat) :=
  Int.natCast_nonneg _

/-- A value that is admitted fits. -/
theorem admitSize_fits {cfg : Settings} {remove : Nat → RemoveOutcome} (hmax : 0 < cfg.maxSizeBytes)
    (h : (admitSize cfg remove n s).2.2 = true) :
    (admitSize cfg remove n s).1.totalBytes + n ≤ cfg.maxSizeBytes := by
  by_cases hover : 0 < cfg.maxSizeBytes ∧ (cfg.maxSizeBytes : Int) < s.totalBytes + n
  · simp only [admitSize, if_pos hover] at h ⊢
    exact of_decide_eq_true h
  · simp only [admitSize, if_neg hover]
    omega

/-- **An admitted `reserve` leaves the total within the cap.** -/
theorem reserve_within {env : ReserveEnv} (he : cfg.evictionEnabled = true)
    (hmax : 0 < cfg.maxSizeBytes) (h : (reserve cfg env k n s).2.2 = true) :
    (reserve cfg env k n s).1.totalBytes ≤ cfg.maxSizeBytes := by
  rw [Config.evictionEnabled, Bool.and_eq_true] at he
  simp only [reserve, he.1, he.2, Bool.not_true, Bool.false_eq_true, if_false] at h ⊢
  by_cases hbig : 0 < cfg.maxSizeBytes ∧ cfg.maxSizeBytes < n
  · simp [hbig] at h
  · simp only [if_neg hbig] at h ⊢
    cases hfit : (admitSize cfg.toSettings env.remove n s).2.2 with
    | false => simp [hfit] at h
    | true =>
      have hadmit := admitSize_fits (s := s) hmax hfit
      have hfree : (enforceFreeSpaceLocked cfg.toSettings env.freeSpace n
          (admitSize cfg.toSettings env.remove n s).1).1.totalBytes ≤
          (admitSize cfg.toSettings env.remove n s).1.totalBytes :=
        ((evictRule_le _).enforceFreeSpaceLocked cfg.toSettings (fun _ => trivial) n (le_refl _)).1
      simp only [hfit, Bool.not_true, Bool.false_eq_true, if_false] at h ⊢
      split at h
      · cases h
      · next hok =>
        rw [if_neg hok]
        simp only [preReserve]
        have := lookup_getD_nonneg k (enforceFreeSpaceLocked cfg.toSettings env.freeSpace n
          (admitSize cfg.toSettings env.remove n s).1).1
        omega

/-- A `reserve` that is refused adds nothing. -/
theorem reserve_refused_le {env : ReserveEnv} (he : cfg.evictionEnabled = true)
    (h : (reserve cfg env k n s).2.2 = false) :
    (reserve cfg env k n s).1.totalBytes ≤ s.totalBytes := by
  obtain ⟨s', evicted, hle, -, e | e⟩ := (evictRule_le s.totalBytes).reserve_cases
    (reserveEnv_meets env) he k n (le_refl _)
  · rw [e]
    exact hle
  · rw [e] at h
    cases h

/-- **One locked section** keeps the total within the cap and the allowance. -/
theorem step_within (he : cfg.evictionEnabled = true) (hmax : 0 < cfg.maxSizeBytes)
    (h : s.totalBytes ≤ cfg.maxSizeBytes + slack) (a : Section) :
    (step cfg s a).totalBytes ≤ cfg.maxSizeBytes + allow cfg s slack a := by
  cases a with
  | reserve env k n =>
    simp only [step, allow]
    cases hr : (reserve cfg env k n s).2.2 with
    | false =>
      have := reserve_refused_le he hr
      simp only [Bool.false_eq_true, if_false]
      omega
    | true =>
      have := reserve_within he hmax hr
      simpa using this
  | commit k =>
    simp only [step, allow, commit]
    split <;> exact h
  | abort k =>
    have := lookup_getD_nonneg k s
    simp only [step, allow, abort]
    split
    · exact h
    · simp only
      omega
  | touchTracked k now =>
    simp only [step, allow, touchTracked]
    split
    · exact h
    · split <;> exact h
  | touchAdopt k now size =>
    simp only [step, allow, touchAdopt, he, Bool.not_true, Bool.false_eq_true, if_false]
    split
    · exact h
    · simp only
      omega
  | clear =>
    simp only [step, allow, clear, State.empty]
    omega

theorem run_within (he : cfg.evictionEnabled = true) (hmax : 0 < cfg.maxSizeBytes) :
    ∀ (sections : List Section) (s : State) (slack : Nat),
      s.totalBytes ≤ cfg.maxSizeBytes + slack →
      (run cfg s sections).totalBytes ≤ cfg.maxSizeBytes + allowance cfg s slack sections := by
  intro sections
  induction sections with
  | nil => exact fun s slack h => h
  | cons a sections ih => exact fun s slack h => ih _ _ (step_within he hmax h a)

/-! ### The constructor -/

/-- An entry of the window that is not in flight gives a victim. -/
theorem victim_isSome (h : ∃ e ∈ s.lru.take 64, e.1 ∉ s.pendingWrites) :
    ∃ stem size, victim s = some (stem, size) := by
  have keep : ∀ (l : List (Key × Nat)) (b : Key × Nat × ℚ),
      ∃ b', l.foldl (scanEntry s) (some b) = some b' := by
    intro l
    induction l with
    | nil => exact fun b => ⟨b, rfl⟩
    | cons e l ih =>
      intro b
      have hstep : ∃ b', scanEntry s (some b) e = some b' := by
        unfold scanEntry
        split
        · exact ⟨b, rfl⟩
        · simp only
          split <;> exact ⟨_, rfl⟩
      obtain ⟨b', hb'⟩ := hstep
      rw [List.foldl_cons, hb']
      exact ih b'
  have find : ∀ l : List (Key × Nat), (∃ e ∈ l, e.1 ∉ s.pendingWrites) →
      ∃ b, l.foldl (scanEntry s) none = some b := by
    intro l
    induction l with
    | nil => simp
    | cons e l ih =>
      rintro ⟨x, hx, hxp⟩
      rw [List.foldl_cons]
      by_cases he : e.1 ∈ s.pendingWrites
      · have hstep : scanEntry s none e = none := by rw [scanEntry, if_pos he]
        rw [hstep]
        rcases List.mem_cons.mp hx with rfl | hx
        · exact absurd he hxp
        · exact ih ⟨x, hx, hxp⟩
      · have hstep : scanEntry s none e = some (e.1, e.2, score s e.1) := by
          rw [scanEntry, if_neg he]
        rw [hstep]
        exact keep l _
  obtain ⟨b, hb⟩ := find _ h
  exact ⟨b.1, b.2.1, by rw [victim, hb]; rfl⟩

/-- A loop of successful unlinks, with nothing in flight, ends because its budget is used up, the
index is empty, or its condition is false. -/
theorem evictWhile_ends (cont : State → Nat → Bool) {remove : Nat → RemoveOutcome}
    (hok : ∀ i, remove i ≠ .osError) :
    ∀ (cap evictions : Nat) (s : State) (reclaimed : Nat), s.pendingWrites = [] →
      (evictWhile cont remove cap evictions s reclaimed).2.length = cap ∨
        (evictWhile cont remove cap evictions s reclaimed).1.lru = [] ∨
        ∃ r, cont (evictWhile cont remove cap evictions s reclaimed).1 r = false := by
  intro cap
  induction cap with
  | zero => exact fun _ _ _ _ => .inl rfl
  | succ cap ih =>
    intro evictions s reclaimed hp
    rw [evictWhile]
    by_cases hlru : s.lru = []
    · right; left
      simp [hlru]
    · by_cases hcont : cont s reclaimed = true
      · obtain ⟨e, l, hl⟩ := List.exists_cons_of_ne_nil hlru
        obtain ⟨stem, size, hv⟩ := victim_isSome (s := s) ⟨e, by simp [hl], by simp [hp]⟩
        rw [if_pos (by simp [hlru, hcont])]
        rcases evictOneLruLocked_cases (remove evictions) s with
          ⟨hno, -⟩ | ⟨stem', size', -, ⟨ho, -⟩ | ⟨-, freed, e'⟩⟩
        · rw [hv] at hno
          cases hno
        · exact absurd ho (hok evictions)
        · rw [e']
          have := ih (evictions + 1) (dropEntry stem' size' s) (reclaimed + freed) hp
          simpa only [List.length_cons, Nat.add_right_cancel_iff] using this
      · rw [if_neg (by simp [hcont])]
        exact .inr (.inr ⟨reclaimed, by simpa using hcont⟩)

/-- The cap in doubles is no larger, and so is what the ratio leaves of it. -/
theorem evictTarget_le {cfg : Settings} (hcap : cfg.maxSizeBytes ≤ 2 ^ 53) :
    evictTarget cfg 0 ≤ cfg.maxSizeBytes := by
  have hmax := cfg.arithmetic.round_le (le_refl (cfg.maxSizeBytes : ℚ)) hcap
  have hratio : cfg.arithmetic.round cfg.maxSizeBytes * cfg.evictionRatio ≤ cfg.maxSizeBytes :=
    (mul_le_mul_of_nonneg_right hmax cfg.ratio_pos.le).trans
      (mul_le_of_le_one_right (Nat.cast_nonneg _) cfg.ratio_le)
  have hround := cfg.arithmetic.round_le hratio hcap
  have := Int.floor_le_iff.mpr (hround.trans_lt (lt_add_one (((cfg.maxSizeBytes : Int) : ℚ))))
  rw [evictTarget]
  omega

/-- **The constructor's eviction** ends within the cap, or with its budget used up. -/
theorem initCap_within {remove : Nat → RemoveOutcome} (hB : Bookkept s) (hp : s.pendingWrites = [])
    (hok : ∀ i, remove i ≠ .osError) (hmax : 0 < cfg.maxSizeBytes) (hcap : cfg.maxSizeBytes ≤ 2 ^ 53) :
    (initCap cfg remove s).2.length = 256 ∨ (initCap cfg remove s).1.totalBytes ≤ cfg.maxSizeBytes := by
  rw [initCap]
  split
  · have hB' : Bookkept (evictLocked cfg.toSettings remove 0 s).1 :=
      (evictRule_bookkept.evictLocked (fun _ => trivial) 0 hB).1
    simp only [evictLocked, if_neg (Nat.pos_iff_ne_zero.mp hmax)] at hB' ⊢
    have hbudget : evictionCapFor cfg.arithmetic 0 s = 256 := rfl
    rcases evictWhile_ends (fun s _ => decide (evictTarget cfg.toSettings 0 < s.totalBytes))
      hok (evictionCapFor cfg.arithmetic 0 s) 0 s 0 hp with h | h | ⟨-, h⟩
    · exact .inl (h.trans hbudget)
    · right
      have := hB'.total
      rw [h, total_nil] at this
      omega
    · right
      have : evictTarget cfg.toSettings 0 ≤ cfg.maxSizeBytes := evictTarget_le hcap
      rw [decide_eq_false_iff_not] at h
      omega
  · right
    simp only
    omega

theorem foldl_pendingWrites (files : List (ℚ × Key × Nat)) (s : State) :
    (files.foldl (fun s (mtime, stem, size) =>
      { s with
        lru := put stem size s.lru
        totalBytes := s.totalBytes + size
        metaData := put stem (mtime, 0) s.metaData }) s).pendingWrites = s.pendingWrites := by
  induction files generalizing s with
  | nil => rfl
  | cons f files ih => exact ih _

theorem scan_pendingWrites (configSuffix : Str) (names : Option Listing) (s : State) :
    (scanExistingFiles configSuffix names s).pendingWrites = s.pendingWrites := by
  cases names with
  | none => rfl
  | some listing => exact foldl_pendingWrites _ s

/-- **What `__init__` leaves** is within the cap, or 256 files have been evicted for it. -/
theorem init_within {env : InitEnv} (he : cfg.evictionEnabled = true) (hmax : 0 < cfg.maxSizeBytes)
    (hok : ∀ i, env.remove i ≠ .osError) (hmost : cfg.maxSizeBytes ≤ 2 ^ 53) :
    (init cfg env).2.1.length = 256 ∨ (init cfg env).1.totalBytes ≤ cfg.maxSizeBytes := by
  have hscan := bookkept_scan cfg.configSuffix env.names
  have hpend := scan_pendingWrites cfg.configSuffix env.names State.empty
  have hcap := initCap_within hscan hpend hok hmax hmost
  simp only [init, he, Bool.not_true, Bool.false_eq_true, if_false, initEvict]
  split
  · refine hcap.imp id fun h => le_trans ?_ h
    exact ((evictRule_le _).enforceFreeSpaceLocked cfg.toSettings (fun _ => trivial) 0 (le_refl _)).1
  · exact hcap

/-- **The size cap.**  On an enabled evictor with a cap, whose start-up unlinks succeed, what the
constructor leaves is within a cap of 53 bits unless it has evicted its 256 files; and after any
sequence of locked sections the total is within the cap and the allowance, which starts as what the
constructor left over the cap. -/
theorem run_within_allowance (st : Settings) (env : InitEnv)
    (he : (configure st env.fs).evictionEnabled = true)
    (hmax : 0 < (configure st env.fs).maxSizeBytes) (hok : ∀ i, env.remove i ≠ .osError) :
    let cfg := configure st env.fs
    let s₀ := (init cfg env).1
    (cfg.maxSizeBytes ≤ 2 ^ 53 →
        (init cfg env).2.1.length = 256 ∨ s₀.totalBytes ≤ cfg.maxSizeBytes) ∧
      ∀ sections, (run cfg s₀ sections).totalBytes ≤
        cfg.maxSizeBytes + allowance cfg s₀ (s₀.totalBytes - cfg.maxSizeBytes).toNat sections := by
  refine ⟨init_within he hmax hok, fun sections => run_within he hmax sections _ _ ?_⟩
  have := Int.self_le_toNat ((init (configure st env.fs) env).1.totalBytes -
    (configure st env.fs).maxSizeBytes)
  omega

/-- A directory without files, and one write. -/
theorem one_write_within_allowance :
    (configure tenBytes obliging.fs).evictionEnabled = true ∧
      0 < (configure tenBytes obliging.fs).maxSizeBytes ∧
      (init (configure tenBytes obliging.fs) obliging).1.totalBytes ≤ 10 ∧
      (run (configure tenBytes obliging.fs) (init (configure tenBytes obliging.fs) obliging).1
        [.reserve ⟨fun _ => .removed, obliging.freeSpace, 0⟩ ['k'] 7]).totalBytes ≤ 10 := by
  obtain ⟨hinit, hrun⟩ :=
    run_within_allowance tenBytes obliging rfl (by decide) (fun _ => by simp [obliging])
  refine ⟨rfl, by decide, (hinit (by decide)).resolve_left (by decide), ?_⟩
  exact (hrun [.reserve ⟨fun _ => .removed, obliging.freeSpace, 0⟩ ['k'] 7]).trans (by decide)

/-- A directory with a file of one byte more than the cap of `hugeCap`. -/
def hugeFile : InitEnv :=
  { obliging with names := some ⟨[⟨"a.bin".toList, some (0, 2 ^ 53 + 4)⟩], by decide⟩ }

/-- A cap of more than 53 bits. -/
def hugeCap : Settings := .oneRank (2 ^ 53 + 3) 0

/-- A file of twenty bytes, read from a directory with a cap of ten; and a file that the start-up
leaves, since in doubles the cap is its size. -/
theorem adopted_file_over_cap :
    (configure tenBytes obliging.fs).evictionEnabled = true ∧
      0 < (configure tenBytes obliging.fs).maxSizeBytes ∧
      ¬ (run (configure tenBytes obliging.fs) (init (configure tenBytes obliging.fs) obliging).1
        [.touchTracked ['k'] 0, .touchAdopt ['k'] 0 20]).totalBytes ≤
          (configure tenBytes obliging.fs).maxSizeBytes ∧
      (init (configure hugeCap hugeFile.fs) hugeFile).2.1 = [] ∧
      ¬ (init (configure hugeCap hugeFile.fs) hugeFile).1.totalBytes ≤
          (configure hugeCap hugeFile.fs).maxSizeBytes := by
  refine ⟨by decide, by decide, by decide, ?_, ?_⟩
  · decide +kernel
  · decide +kernel

end

end QwenStack.Evictor

import QwenStack.Evictor.Work

/-!
# Evictor — a write that fails, and large writes

`reserve` enters its key over whatever is tracked under it, and `abort` drops the key.  For a key
that is new this takes the reservation back.  For a key whose file is committed it takes the file
out of the bookkeeping, although the file is still there.

`leavesNoTrace_iff`: a failed write leaves no trace exactly when its key is not tracked, or is one
of the files its own admission evicts.

The budget of an eviction loop grows with the write: one and a half times the number of files of
average size that the write needs, and eight.  With files of one size this is enough to make room
for any write the watermark allows (`large_write_admitted`): the loop ends at its target, or with
nothing left, or after as many files as the write needs.

A rank that does not own the storage refuses every write, and needs no room.
-/

namespace QwenStack.Evictor
open Assoc

/-- After a `reserve` and an `abort` the bookkeeping is what it was, without what the `reserve` has
evicted. -/
structure LeavesNoTrace (cfg : Config) (env : ReserveEnv) (key : Key) (n : Nat) (s : State) : Prop where
  lru : ∀ x, (abort cfg key (reserve cfg env key n s).1).lru.lookup x =
    if x ∈ (reserve cfg env key n s).2.1 then none else s.lru.lookup x
  metaData : ∀ x, x ∈ keys (abort cfg key (reserve cfg env key n s).1).metaData ↔
    x ∈ keys s.metaData ∧ x ∉ (reserve cfg env key n s).2.1
  totalBytes : (abort cfg key (reserve cfg env key n s).1).totalBytes =
    s.totalBytes -
      (((reserve cfg env key n s).2.1.map fun x => (s.lru.lookup x).getD 0).sum : Nat)

/-- The key is not tracked, or is among the files that have to go for the value. -/
def Vacant (cfg : Config) (env : ReserveEnv) (key : Key) (n : Nat) (s : State) : Prop :=
  cfg.evictionEnabled = true → key ∈ keys s.lru →
    ∃ k₁ k₂, CapTakes cfg.toSettings env.remove n s k₁ ∧
      FreeTakes cfg.toSettings env.freeSpace n (without k₁ s) k₂ ∧
      key ∈ keys (coldest (k₁ + k₂) s)

section
variable {cfg : Config} {env : ReserveEnv} {key : Key} {n j : Nat} {s : State} {now : ℚ}

/-! ### Entering a key and dropping it -/

/-- Entering a key and aborting it is dropping it. -/
theorem abort_preReserve (he : cfg.evictionEnabled = true) (key : Key) (n : Nat) (now : ℚ)
    (s : State) :
    (abort cfg key (preReserve key n now s)).lru = del key s.lru ∧
      (abort cfg key (preReserve key n now s)).metaData = del key s.metaData ∧
      (abort cfg key (preReserve key n now s)).totalBytes =
        s.totalBytes - (s.lru.lookup key).getD 0 := by
  have hfresh : del key (del key s.lru) = del key s.lru :=
    del_of_not_mem fun h => (mem_keys_del.mp h).1 rfl
  simp only [abort, he, preReserve, Bool.not_true, Bool.false_eq_true, if_false]
  refine ⟨?_, ?_, ?_⟩
  · rw [del_put, hfresh]
  · rw [del_put]
  · rw [lookup_put, if_pos rfl, Option.getD_some]
    omega

/-- The sizes of the coldest files are the ones the index has. -/
theorem total_coldest (hB : Bookkept s) (j : Nat) :
    ((keys (coldest j s)).map fun x => (s.lru.lookup x).getD 0).sum = total (coldest j s) := by
  have hmem : ∀ e ∈ coldest j s, e ∈ s.lru := fun e he => mem_of_mem_coldest he
  revert hmem
  generalize coldest j s = l
  intro hmem
  induction l with
  | nil => rfl
  | cons e l ih =>
    obtain ⟨he, hl⟩ := List.forall_mem_cons.mp hmem
    rw [keys_cons, List.map_cons, List.sum_cons, total_cons, ih hl,
      lookup_of_mem hB.lru_nodup he, Option.getD_some]

/-- Dropping a key from what is left without the coldest files removes nothing else, exactly when
the key was one of them or was not there. -/
theorem del_without_iff (key : Key) (j : Nat) : (∀ x, (del key (without j s).lru).lookup x =
        if x ∈ keys (coldest j s) then none else s.lru.lookup x) ↔
      (key ∈ keys s.lru → key ∈ keys (coldest j s)) := by
  constructor
  · intro h hk
    by_contra hc
    obtain ⟨v, hv⟩ := mem_keys_iff.mp hk
    have := h key
    rw [lookup_del, if_pos rfl, if_neg hc, hv] at this
    cases this
  · intro h x
    rw [lookup_del, lookup_without]
    by_cases hx : x = key
    · subst hx
      rw [if_pos rfl]
      by_cases hc : x ∈ keys (coldest j s)
      · rw [if_pos hc]
      · rw [if_neg hc]
        have hnot : x ∉ keys s.lru := fun hk => hc (h hk)
        rw [mem_keys_iff, not_exists] at hnot
        exact (Option.eq_none_iff_forall_ne_some.mpr hnot).symm
    · rw [if_neg hx]

/-- **A failed write leaves no trace** exactly when its key is vacant: in every reachable state,
for every write that is admitted with unlinks that succeed. -/
theorem leavesNoTrace_iff (st : Settings) (env₀ : InitEnv) (sections : List Section)
    (env : ReserveEnv) (key : Key) (n : Nat)
    (hok : env.Meets fun o => o ≠ .osError)
    (hadmitted : (reserve (configure st env₀.fs) env key n
      (run (configure st env₀.fs) (init (configure st env₀.fs) env₀).1 sections)).2.2 = true) :
    LeavesNoTrace (configure st env₀.fs) env key n
        (run (configure st env₀.fs) (init (configure st env₀.fs) env₀).1 sections) ↔
      Vacant (configure st env₀.fs) env key n
        (run (configure st env₀.fs) (init (configure st env₀.fs) env₀).1 sections) := by
  have hB := (bookkept_init (configure st env₀.fs) env₀).run (configure st env₀.fs) sections
  revert hadmitted hB
  generalize configure st env₀.fs = cfg
  generalize run cfg (init cfg env₀).1 sections = s
  intro hadmitted hB
  cases he : cfg.evictionEnabled with
  | false =>
    -- nothing is evicted, entered or dropped
    refine ⟨fun _ h => absurd h (by simp [he]), fun _ => ?_⟩
    have hs : (reserve cfg env key n s).1 = s := reserve_disabled he
    have hnil : (reserve cfg env key n s).2.1 = [] := reserve_disabled_evicted he
    constructor <;> rw [hs, hnil, abort, he] <;> simp
  | true =>
    have hn : ¬ (0 < cfg.maxSizeBytes ∧ cfg.maxSizeBytes < n) := by
      intro hn
      rw [reserve_too_large he hn] at hadmitted
      cases hadmitted
    obtain ⟨k₁, ht₁, ⟨-, hno, -⟩ | ⟨hfit, k₂, ht₂, hk, hs⟩⟩ := reserve_takes hB he hn env key
    · rw [hno] at hadmitted
      cases hadmitted
    · have hvacant : Vacant cfg env key n s ↔
          (key ∈ keys s.lru → key ∈ keys (coldest (k₁ + k₂) s)) := by
        constructor
        · intro h hmem
          obtain ⟨i₁, i₂, hi₁, hi₂, hc⟩ := h he hmem
          obtain rfl := hi₁.unique ht₁
          obtain rfl := hi₂.unique ht₂
          exact hc
        · exact fun h _ hmem => ⟨k₁, k₂, ht₁, ht₂, h hmem⟩
      obtain ⟨hlru, hmeta, htotal⟩ :=
        abort_preReserve he key n env.now (without (k₁ + k₂) s)
      rw [hvacant, ← del_without_iff, ← hlru, ← hs hok hadmitted, ← hk]
      refine ⟨fun h => h.lru, fun h => ⟨h, fun x => ?_, ?_⟩⟩
      · rw [hs hok hadmitted, hlru, hk, del_without_iff] at h
        rw [hs hok hadmitted, hmeta, hk, mem_keys_del, mem_keys_meta_without, ← hB.keys_iff]
        refine ⟨fun hx => hx.2, fun hx => ⟨?_, hx⟩⟩
        rintro rfl
        exact hx.2 (h hx.1)
      · have hgone : (without (k₁ + k₂) s).lru.lookup key = none := by
          rw [hs hok hadmitted, hlru, hk, del_without_iff] at h
          rw [lookup_without]
          by_cases hc : key ∈ keys (coldest (k₁ + k₂) s)
          · rw [if_pos hc]
          · rw [if_neg hc]
            have hnot : key ∉ keys s.lru := fun hmem => hc (h hmem)
            rw [mem_keys_iff, not_exists] at hnot
            exact Option.eq_none_iff_forall_ne_some.mpr hnot
        rw [hs hok hadmitted, htotal, hk, hgone, Option.getD_none, totalBytes_without,
          total_coldest hB]
        simp

/-- A first write of seven bytes. -/
theorem first_write_leaves_no_trace :
    (ReserveEnv.Meets (fun o => o ≠ .osError)
        ⟨fun _ => .removed, obliging.freeSpace, 0⟩) ∧
      (reserve (configure tenBytes obliging.fs) ⟨fun _ => .removed, obliging.freeSpace, 0⟩ ['k'] 7
        (run (configure tenBytes obliging.fs)
          (init (configure tenBytes obliging.fs) obliging).1 [])).2.2 = true ∧
      LeavesNoTrace (configure tenBytes obliging.fs) ⟨fun _ => .removed, obliging.freeSpace, 0⟩
        ['k'] 7 (run (configure tenBytes obliging.fs)
          (init (configure tenBytes obliging.fs) obliging).1 []) := by
  have hok : ReserveEnv.Meets (fun o => o ≠ .osError)
      ⟨fun _ => .removed, obliging.freeSpace, 0⟩ := by
    constructor <;> simp [obliging]
  refine ⟨hok, by decide, ?_⟩
  exact (leavesNoTrace_iff tenBytes obliging [] _ ['k'] 7 hok (by decide)).mpr fun _ hmem => by
    cases hmem

/-- A second write of a committed key fails: the committed file is not tracked any more. -/
theorem second_write_leaves_a_trace :
    (reserve (configure tenBytes obliging.fs) ⟨fun _ => .removed, obliging.freeSpace, 0⟩ ['k'] 1
        (run (configure tenBytes obliging.fs) (init (configure tenBytes obliging.fs) obliging).1
          [.reserve ⟨fun _ => .removed, obliging.freeSpace, 0⟩ ['k'] 1, .commit ['k']])).2 =
      ([], true) ∧
    ¬ LeavesNoTrace (configure tenBytes obliging.fs) ⟨fun _ => .removed, obliging.freeSpace, 0⟩
      ['k'] 1 (run (configure tenBytes obliging.fs)
        (init (configure tenBytes obliging.fs) obliging).1
        [.reserve ⟨fun _ => .removed, obliging.freeSpace, 0⟩ ['k'] 1, .commit ['k']]) := by
  refine ⟨by decide, fun h => ?_⟩
  have := h.lru ['k']
  revert this
  decide

end

/-! ### Large writes -/

/-- A large write of `n` bytes among committed files of `a` bytes, on a rank without a free-space
watermark, whose unlinks succeed and whose budget is not cut off, in rational arithmetic. -/
structure LargeWrite (cfg : Config) (env : ReserveEnv) (n a : Nat) (s : State) : Prop where
  exact : cfg.arithmetic = .exact
  minFree : cfg.minFreeBytes = 0
  committed : s.pendingWrites = []
  unlinks : ∀ i, env.remove i ≠ .osError
  size_pos : 0 < a
  size : ∀ e ∈ s.lru, e.2 = a
  large : 2 ^ 20 < n
  below : (n : Int) ≤ ⌊(cfg.maxSizeBytes : ℚ) * cfg.evictionRatio⌋
  budget : (n : ℚ) / a * (3 / 2) + 8 ≤ 16384
  within : s.totalBytes ≤ cfg.maxSizeBytes
  slack : (1 - cfg.evictionRatio) * cfg.maxSizeBytes ≤ n / 2

section
variable {cfg : Config} {env : ReserveEnv} {n a k : Nat} {s : State}

/-! ### The budget -/

/-- The watermark is within the cap. -/
theorem floor_le_max (cfg : Settings) :
    ⌊(cfg.maxSizeBytes : ℚ) * cfg.evictionRatio⌋ ≤ cfg.maxSizeBytes := by
  have := mul_le_mul_of_nonneg_left cfg.ratio_le (Nat.cast_nonneg (α := ℚ) cfg.maxSizeBytes)
  rw [mul_one] at this
  exact Int.floor_le_iff.mpr (lt_of_le_of_lt this (by exact_mod_cast lt_add_one _))

/-- An evictor with a cap is configured. -/
theorem configured_of_max {st : Settings} {fs : Option (Nat × Nat)}
    (h : 0 < (configure st fs).maxSizeBytes) : (configure st fs).evictionConfigured = true := by
  by_contra hc
  have hc : (configure st fs).evictionConfigured = false := by simpa using hc
  simp only [configure, Bool.or_eq_false_iff, decide_eq_false_iff_not] at hc
  simp only [configure, hc, decide_false, Bool.or_self, Bool.false_and, Bool.not_false, if_true] at h

section
variable (h : LargeWrite cfg env n a s) (hB : Bookkept s)
include h hB

/-- The average of files of one size. -/
theorem LargeWrite.average (hne : s.lru.length ≠ 0) : max 1 (s.totalBytes / s.lru.length) = a := by
  rw [hB.total, total_of_size h.size]
  push_cast
  rw [Int.mul_ediv_cancel_left _ (by exact_mod_cast hne)]
  have := h.size_pos
  omega

/-- **The budget is enough**: as many files of one size hold the write. -/
theorem LargeWrite.budget_covers
    (hne : s.lru.length ≠ 0) : n ≤ evictionCapFor cfg.arithmetic n s * a := by
  have ha : (0 : ℚ) < a := by exact_mod_cast h.size_pos
  have hq : (0 : ℚ) ≤ n / a := by positivity
  -- what the write needs, rounded up, is below what the budget asks for
  have hwant : (n : ℚ) / a ≤ (⌊(n : ℚ) / a * (3 / 2)⌋.toNat + 8 : Nat) := by
    have hfloor := Int.lt_floor_add_one ((n : ℚ) / a * (3 / 2))
    have hnonneg : 0 ≤ ⌊(n : ℚ) / a * (3 / 2)⌋ := Int.floor_nonneg.mpr (by positivity)
    have hcast : ((⌊(n : ℚ) / a * (3 / 2)⌋.toNat : Nat) : ℚ) = ⌊(n : ℚ) / a * (3 / 2)⌋ := by
      exact_mod_cast Int.toNat_of_nonneg hnonneg
    push_cast
    rw [hcast]
    linarith
  have hcut : ⌊(n : ℚ) / a * (3 / 2)⌋.toNat + 8 ≤ 16384 := by
    have hfloor := Int.floor_le ((n : ℚ) / a * (3 / 2))
    have hle : ⌊(n : ℚ) / a * (3 / 2)⌋ ≤ 16376 := by
      have hb := h.budget
      exact_mod_cast (show ((⌊(n : ℚ) / a * (3 / 2)⌋ : Int) : ℚ) ≤ 16376 by linarith)
    omega
  have hcap : ⌊(n : ℚ) / a * (3 / 2)⌋.toNat + 8 ≤ evictionCapFor cfg.arithmetic n s := by
    have haverage : ((max 1 (s.totalBytes / s.lru.length) : Int) : ℚ) = a := by
      rw [h.average hB hne]
      rfl
    rw [evictionCapFor, if_neg (Nat.not_le.mpr h.large), if_neg hne]
    simp only [haverage, h.exact, Arithmetic.round, id]
    exact le_min hcut (le_max_right _ _)
  have hn : (n : ℚ) ≤ (evictionCapFor cfg.arithmetic n s : ℚ) * a := by
    rw [← div_le_iff₀ ha]
    exact hwant.trans (by exact_mod_cast hcap)
  exact_mod_cast hn

/-- **The loop makes room**: what it takes leaves the write under the cap. -/
theorem LargeWrite.fits
    (ht : CapTakes cfg.toSettings env.remove n s k) : Fits cfg.toSettings n (without k s) := by
  have hbelow := h.below
  have hmax := floor_le_max cfg.toSettings
  have hwithin := h.within
  rw [CapTakes] at ht
  split at ht
  · next hf => rwa [ht, without_zero]
  · next hf =>
    right
    rcases ht.ended with hk | hv | hr | hc
    · -- the budget is used up
      have hne : s.lru.length ≠ 0 := by
        intro h0
        have htotal := hB.total
        rw [List.length_eq_zero_iff.mp h0, total_nil] at htotal
        exact hf (.inr (by omega))
      have hcover := h.budget_covers hB hne
      rw [totalBytes_without, total_of_size fun e he => h.size e (mem_of_mem_coldest he), ht.length, hk]
      omega
    · -- nothing is left
      have hlru : (without k s).lru = [] := by
        by_contra hne
        obtain ⟨e, l, hl⟩ := List.exists_cons_of_ne_nil hne
        refine victim_ne_none_iff.mpr ⟨e, by simp [hl], ?_⟩ hv
        simp [pendingWrites_without, h.committed]
      have htotal := (hB.without k).total
      rw [hlru, total_nil] at htotal
      omega
    · exact absurd hr (h.unlinks k)
    · -- the target is reached
      rw [decide_eq_false_iff_not, evictTarget, h.exact] at hc
      simp only [Arithmetic.round, id] at hc
      omega

end

/-- **Large writes are admitted**, in every reachable state of a rank that owns the storage, and
the total stays within the cap. -/
theorem large_write_admitted (st : Settings) (env₀ : InitEnv) (sections : List Section)
    (env : ReserveEnv) (key : Key) (n a : Nat)
    (hown : (configure st env₀.fs).isStorageOwner = true)
    (h : LargeWrite (configure st env₀.fs) env n a
      (run (configure st env₀.fs) (init (configure st env₀.fs) env₀).1 sections)) :
    let r := reserve (configure st env₀.fs) env key n
      (run (configure st env₀.fs) (init (configure st env₀.fs) env₀).1 sections)
    r.2.2 = true ∧ r.1.totalBytes ≤ (configure st env₀.fs).maxSizeBytes := by
  have hB := (bookkept_init (configure st env₀.fs) env₀).run (configure st env₀.fs) sections
  have hmax : 0 < (configure st env₀.fs).maxSizeBytes := by
    have := h.large
    have := h.below
    have := floor_le_max (configure st env₀.fs).toSettings
    omega
  have hconf := configured_of_max hmax
  revert h hB hmax hconf hown
  generalize configure st env₀.fs = cfg
  generalize run cfg (init cfg env₀).1 sections = s
  intro hown h hB hmax hconf
  have he : cfg.evictionEnabled = true := by rw [Config.evictionEnabled, hconf, hown]; rfl
  have hn : ¬ (0 < cfg.maxSizeBytes ∧ cfg.maxSizeBytes < n) := by
    have := h.below
    have := floor_le_max cfg.toSettings
    omega
  have hadmitted : (reserve cfg env key n s).2.2 = true := by
    obtain ⟨k, ht, -, -, hfit⟩ := admitSize_takes cfg.toSettings env.remove n s
    simp only [reserve, hconf, hown, Bool.not_true, Bool.false_eq_true, if_false, if_neg hn,
      hfit.mpr (h.fits hB ht), enforceFreeSpaceLocked, if_pos h.minFree]
  exact ⟨hadmitted, reserve_within he hmax hadmitted⟩

/-- A mebibyte of files under a cap of a mebibyte and a half. -/
def halfAgain : Settings := { Settings.oneRank (2 ^ 20 + 2 ^ 19) 0 with arithmetic := .exact }

/-- A second rank of a model whose ranks share their files. -/
def secondRank : Settings := { halfAgain with tpRank := 1, isMlaModel := true }

/-- A write that takes the place of the only file. -/
theorem large_write_replaces :
    (configure halfAgain obliging.fs).isStorageOwner = true ∧
      LargeWrite (configure halfAgain obliging.fs) fullDisk (2 ^ 20 + 1) (2 ^ 20)
        (run (configure halfAgain obliging.fs) (init (configure halfAgain obliging.fs) obliging).1
          [.touchAdopt ['k'] 0 (2 ^ 20)]) ∧
      (reserve (configure halfAgain obliging.fs) fullDisk ['n'] (2 ^ 20 + 1)
        (run (configure halfAgain obliging.fs) (init (configure halfAgain obliging.fs) obliging).1
          [.touchAdopt ['k'] 0 (2 ^ 20)])).2.2 = true := by
  have h : LargeWrite (configure halfAgain obliging.fs) fullDisk (2 ^ 20 + 1) (2 ^ 20)
      (run (configure halfAgain obliging.fs) (init (configure halfAgain obliging.fs) obliging).1
        [.touchAdopt ['k'] 0 (2 ^ 20)]) := by
    have hr : (configure halfAgain obliging.fs).evictionRatio = 1 := rfl
    have hm : (configure halfAgain obliging.fs).maxSizeBytes = 2 ^ 20 + 2 ^ 19 := rfl
    refine ⟨rfl, rfl, by decide, by simp [fullDisk], by decide, by decide, by decide, ?_, by norm_num,
      by decide, ?_⟩
    · rw [hr, hm]
      norm_num
    · rw [hr, hm]
      norm_num
  exact ⟨rfl, h, (large_write_admitted halfAgain obliging [.touchAdopt ['k'] 0 (2 ^ 20)] fullDisk
    ['n'] (2 ^ 20 + 1) (2 ^ 20) rfl h).1⟩

/-- The second rank refuses the same write. -/
theorem second_rank_refuses :
    LargeWrite (configure secondRank obliging.fs) fullDisk (2 ^ 20 + 1) (2 ^ 20)
        (run (configure secondRank obliging.fs)
          (init (configure secondRank obliging.fs) obliging).1 []) ∧
      (reserve (configure secondRank obliging.fs) fullDisk ['n'] (2 ^ 20 + 1)
        (run (configure secondRank obliging.fs)
          (init (configure secondRank obliging.fs) obliging).1 [])).2.2 = false := by
  have hr : (configure secondRank obliging.fs).evictionRatio = 1 := rfl
  have hm : (configure secondRank obliging.fs).maxSizeBytes = 2 ^ 20 + 2 ^ 19 := rfl
  refine ⟨⟨rfl, rfl, by decide, by simp [fullDisk], by decide, by decide, by decide, ?_, by norm_num,
    by decide, ?_⟩, by decide⟩
  · rw [hr, hm]
    norm_num
  · rw [hr, hm]
    norm_num

end

end QwenStack.Evictor

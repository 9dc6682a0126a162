import Mathlib.Data.Int.Log
import Mathlib.Data.Rat.Floor

/-!
# Doubles

The result of an operation on doubles is the exact one, rounded to 53 significant bits: to the nearest such
number, and to the even one of two.  Numbers are not negative here, and neither overflow nor underflow.
-/

namespace QwenStack

/-- The nearest integer, the even one of two. -/
def roundHalfEven (q : ℚ) : ℤ :=
  if q - ⌊q⌋ < 1 / 2 ∨ q - ⌊q⌋ = 1 / 2 ∧ ⌊q⌋ % 2 = 0 then ⌊q⌋ else ⌊q⌋ + 1

/-- The value of the last of 53 bits. -/
def ulp (q : ℚ) : ℚ := 2 ^ (Int.log 2 q - 52)

/-- The nearest double. -/
def roundDouble (q : ℚ) : ℚ := roundHalfEven (q / ulp q) * ulp q

/-- The arithmetic of an expression: that of doubles, or that of the rationals. -/
inductive Arithmetic where
  | double
  | exact
  deriving DecidableEq, Repr

/-- The result of an operation. -/
def Arithmetic.round : Arithmetic → ℚ → ℚ
  | double => roundDouble
  | exact => id

variable {q : ℚ} {m : ℤ} {c : ℕ}

theorem ulp_pos (q : ℚ) : 0 < ulp q := zpow_pos two_pos _

theorem roundHalfEven_le (h : q ≤ m) : roundHalfEven q ≤ m := by
  have hfloor : ⌊q⌋ ≤ m := Int.floor_le_iff.mpr (h.trans_lt (lt_add_one _))
  rw [roundHalfEven]
  split
  · exact hfloor
  · next hup =>
    -- what is rounded up is no integer
    refine Int.add_one_le_of_lt (lt_of_le_of_ne hfloor fun heq => hup (.inl ?_))
    rw [heq]
    linarith

/-- An integer of 53 bits has all its bits above the last one of any number below it. -/
theorem exists_mul_ulp (hq : q ≤ c) (hc : c ≤ 2 ^ 53) : ∃ m : ℤ, (c : ℚ) = m * ulp q := by
  rw [ulp]
  by_cases hlog : Int.log 2 q ≤ 52
  · obtain ⟨k, hk⟩ := Int.eq_ofNat_of_zero_le (sub_nonneg.mpr hlog)
    refine ⟨c * 2 ^ k, ?_⟩
    rw [← neg_sub, hk, zpow_neg, Int.cast_mul, Int.cast_pow, zpow_natCast]
    push_cast
    rw [mul_assoc, mul_inv_cancel₀ (pow_ne_zero k two_ne_zero), mul_one]
  · -- the number is the largest of them
    have hpos : 0 < q := by
      by_contra hneg
      exact hlog (by rw [Int.log_of_right_le_zero 2 (not_lt.mp hneg)]; decide)
    have hle := (Int.zpow_log_le_self one_lt_two hpos).trans (hq.trans (Nat.cast_le.mpr hc))
    have hge : (2 : ℚ) ^ (53 : ℤ) ≤ 2 ^ Int.log 2 q := zpow_le_zpow_right₀ one_le_two (by omega)
    have hlog' : Int.log 2 q = 53 := by
      refine le_antisymm ((zpow_le_zpow_iff_right₀ (one_lt_two : (1 : ℚ) < 2)).mp ?_) (by omega)
      exact_mod_cast hle
    have hmax : (c : ℚ) = 2 ^ 53 :=
      le_antisymm (by exact_mod_cast hc) ((by exact_mod_cast hge : (2 : ℚ) ^ 53 ≤ 2 ^ Int.log 2 q).trans
          ((Int.zpow_log_le_self one_lt_two hpos).trans hq))
    exact ⟨2 ^ 52, by rw [hmax, hlog']; norm_num⟩

/-- **What is below an integer of 53 bits is not rounded above it.** -/
theorem roundDouble_le (hq : q ≤ c) (hc : c ≤ 2 ^ 53) : roundDouble q ≤ c := by
  obtain ⟨m, hm⟩ := exists_mul_ulp hq hc
  have hdiv : q / ulp q ≤ m := (div_le_iff₀ (ulp_pos q)).mpr (hm ▸ hq)
  rw [roundDouble, hm]
  exact mul_le_mul_of_nonneg_right (Int.cast_le.mpr (roundHalfEven_le hdiv)) (ulp_pos q).le

theorem Arithmetic.round_le (arithmetic : Arithmetic) (hq : q ≤ c) (hc : c ≤ 2 ^ 53) :
    arithmetic.round q ≤ c := by
  cases arithmetic with
  | double => exact roundDouble_le hq hc
  | exact => exact hq

end QwenStack

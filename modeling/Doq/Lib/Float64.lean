/-
  Doq.Lib.Float64 — Go's `float64`, as rational numbers.

  An operation on `float64`s gives the exact result rounded to the nearest number of 53 binary
  digits, and on a tie to the one whose last digit is even. `float64 x` is that number, where
  the exponent is in the range of the format: there are no infinities here.

  Rules: rounding keeps the order (`float64_mono`), and the bounds that are themselves numbers
  of the format (`float64_le_one`, `neg_pow_le_float64`).
-/

import Mathlib.Data.Int.Log
import Mathlib.Data.Rat.Floor
import Mathlib.Tactic.Linarith

namespace Doq.Lib

/-- The nearest integer, on a tie the even one. -/
def roundEven (x : ℚ) : ℤ :=
  if x - ⌊x⌋ < 1 / 2 ∨ x - ⌊x⌋ = 1 / 2 ∧ ⌊x⌋ % 2 = 0 then ⌊x⌋ else ⌊x⌋ + 1

/-- The exponent of the last of the 53 digits, the least one for a subnormal number. -/
def ulp (x : ℚ) : ℤ := max (Int.log 2 |x| - 52) (-1074)

def float64 (x : ℚ) : ℚ := roundEven (x / 2 ^ ulp x) * 2 ^ ulp x

/-- Go's conversion to an integer drops the fraction. -/
def truncated (x : ℚ) : ℤ := x.num.tdiv x.den

variable {x y : ℚ}

/-! ## To the nearest integer -/

theorem roundEven_le {n : ℤ} (h : x ≤ n) : roundEven x ≤ n := by
  have hfloor := Int.floor_le x
  unfold roundEven
  split
  · exact_mod_cast hfloor.trans h
  · rename_i hup
    have hlt : (⌊x⌋ : ℚ) < n := by
      have : ¬ x - ⌊x⌋ < 1 / 2 := fun hd => hup (Or.inl hd)
      linarith
    exact_mod_cast hlt

theorem le_roundEven {n : ℤ} (h : (n : ℚ) ≤ x) : n ≤ roundEven x := by
  have := Int.le_floor.mpr h
  unfold roundEven
  split <;> omega

theorem roundEven_mono (h : x ≤ y) : roundEven x ≤ roundEven y := by
  by_cases hxy : ⌊x⌋ = ⌊y⌋
  · unfold roundEven
    rw [hxy]
    by_cases hy : y - ⌊y⌋ < 1 / 2 ∨ y - ⌊y⌋ = 1 / 2 ∧ ⌊y⌋ % 2 = 0
    · have hx : x - ⌊y⌋ < 1 / 2 ∨ x - ⌊y⌋ = 1 / 2 ∧ ⌊y⌋ % 2 = 0 := by
        rcases hy with hy | ⟨hy, heven⟩
        · exact Or.inl (by linarith)
        · rcases h.lt_or_eq with hlt | rfl
          · exact Or.inl (by linarith)
          · exact Or.inr ⟨hy, heven⟩
      rw [if_pos hx, if_pos hy]
    · rw [if_neg hy]
      split <;> omega
  · -- an integer stands between them
    have hlt : ⌊x⌋ + 1 ≤ ⌊y⌋ := by
      have := Int.floor_mono h
      omega
    have hx : x ≤ ((⌊x⌋ + 1 : ℤ) : ℚ) := by
      push_cast
      exact (Int.lt_floor_add_one x).le
    exact (roundEven_le hx).trans (hlt.trans (le_roundEven (Int.floor_le y)))

/-! ## To the nearest number of the format -/

/-- A bound that is a multiple of the last digit. -/
theorem float64_le {n : ℤ} (h : x ≤ n * 2 ^ ulp x) : float64 x ≤ n * 2 ^ ulp x := by
  have hp : (0 : ℚ) < 2 ^ ulp x := zpow_pos two_pos _
  have hn : roundEven (x / 2 ^ ulp x) ≤ n := roundEven_le ((div_le_iff₀ hp).mpr h)
  exact mul_le_mul_of_nonneg_right (by exact_mod_cast hn) hp.le

theorem le_float64 {n : ℤ} (h : n * 2 ^ ulp x ≤ x) : n * 2 ^ ulp x ≤ float64 x := by
  have hp : (0 : ℚ) < 2 ^ ulp x := zpow_pos two_pos _
  have hn : n ≤ roundEven (x / 2 ^ ulp x) := le_roundEven ((le_div_iff₀ hp).mpr h)
  exact mul_le_mul_of_nonneg_right (by exact_mod_cast hn) hp.le

theorem float64_nonpos (h : x ≤ 0) : float64 x ≤ 0 := by
  have := float64_le (x := x) (n := 0) (by simpa using h)
  simpa using this

theorem float64_nonneg (h : 0 ≤ x) : 0 ≤ float64 x := by
  have := le_float64 (x := x) (n := 0) (by simpa using h)
  simpa using this

/-- A power of two from the last digit on is a multiple of it. -/
theorem pow_eq_mul {k : ℤ} (h : ulp x ≤ k) : (2 : ℚ) ^ k = ((2 ^ (k - ulp x).toNat : ℤ) : ℚ) * 2 ^ ulp x := by
  have hk : ((k - ulp x).toNat : ℤ) = k - ulp x := Int.toNat_of_nonneg (by omega)
  push_cast
  rw [← zpow_natCast, hk, ← zpow_add₀ two_ne_zero, sub_add_cancel]

theorem ulp_mono (h0 : 0 < x) (h : x ≤ y) : ulp x ≤ ulp y := by
  unfold ulp
  rw [abs_of_pos h0, abs_of_pos (h0.trans_le h)]
  have := Int.log_mono_right (b := 2) h0 h
  omega

theorem float64_mono (h0 : 0 ≤ x) (h : x ≤ y) : float64 x ≤ float64 y := by
  rcases h0.lt_or_eq with h0 | rfl
  swap
  · exact (float64_nonpos le_rfl).trans (float64_nonneg h)
  have hy0 := h0.trans_le h
  have hlog := Int.log_mono_right (b := 2) h0 h
  by_cases hxy : ulp x = ulp y
  · have hp : (0 : ℚ) < 2 ^ ulp y := zpow_pos two_pos _
    unfold float64
    rw [hxy]
    have hr := roundEven_mono (div_le_div_of_nonneg_right h hp.le)
    exact mul_le_mul_of_nonneg_right (by exact_mod_cast hr) hp.le
  · -- the power of two at the head of `y` stands between them
    have hle := ulp_mono h0 h
    have hy : ulp y = Int.log 2 y - 52 := by
      unfold ulp at hxy ⊢
      rw [abs_of_pos hy0]
      rw [abs_of_pos h0, abs_of_pos hy0] at hxy
      omega
    have hlt : Int.log 2 x + 1 ≤ Int.log 2 y := by
      unfold ulp at hxy
      rw [abs_of_pos h0, abs_of_pos hy0] at hxy
      omega
    have hx : x ≤ 2 ^ Int.log 2 y := by
      have h1 := Int.lt_zpow_succ_log_self (b := 2) (by decide) x
      have h2 : (2 : ℚ) ^ (Int.log 2 x + 1) ≤ 2 ^ Int.log 2 y := zpow_le_zpow_right₀ (by norm_num) hlt
      push_cast at h1
      exact h1.le.trans h2
    have hx' : ulp x ≤ Int.log 2 y := by omega
    have hy' : (2 : ℚ) ^ Int.log 2 y ≤ y := by exact_mod_cast Int.zpow_log_le_self (b := 2) (by decide) hy0
    calc float64 x ≤ 2 ^ Int.log 2 y := by
          rw [pow_eq_mul hx'] at hx ⊢
          exact float64_le hx
      _ ≤ float64 y := by
          rw [pow_eq_mul (x := y) (by omega)] at hy' ⊢
          exact le_float64 hy'

theorem float64_le_one (h : x ≤ 1) : float64 x ≤ 1 := by
  rcases le_or_gt x 0 with h0 | h0
  · exact (float64_nonpos h0).trans (by norm_num)
  · have hulp : ulp x ≤ 0 := by
      have := Int.log_mono_right (b := 2) h0 h
      rw [Int.log_one_right] at this
      unfold ulp
      rw [abs_of_pos h0]
      omega
    have hone := pow_eq_mul hulp
    rw [zpow_zero] at hone
    rw [hone] at h ⊢
    exact float64_le h

theorem neg_pow_le_float64 {k : ℕ} (h : -2 ^ k ≤ x) : -2 ^ k ≤ float64 x := by
  rcases le_or_gt 0 x with h0 | h0
  · have : (0 : ℚ) < 2 ^ k := pow_pos two_pos k
    have := float64_nonneg h0
    linarith
  · have hulp : ulp x ≤ k := by
      have hle : |x| ≤ (2 : ℕ) ^ (k : ℤ) := by
        rw [abs_of_neg h0, zpow_natCast]
        push_cast
        linarith
      have := Int.log_mono_right (b := 2) (abs_pos.mpr h0.ne) hle
      rw [Int.log_zpow (by decide)] at this
      unfold ulp
      omega
    have hpow := pow_eq_mul hulp
    rw [zpow_natCast] at hpow
    rw [hpow, ← neg_mul, ← Int.cast_neg] at h ⊢
    exact le_float64 h

theorem truncated_nonneg (h : 0 ≤ x) : 0 ≤ truncated x :=
  Int.tdiv_nonneg (Rat.num_nonneg.mpr h) (Int.natCast_nonneg _)

end Doq.Lib

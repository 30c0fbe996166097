/-
  Doq.Memory.Weight — `CalculateWeight` of `pkg/queue/memory/fair_weighted_queue.go`.

  A group with ready messages and a free slot weighs the tenfold share of its limit that is
  free, `int((1 - float64(unacked)/float64(maxUnacked+1)) * 10)`. The branches are in
  `calculateWeight`; how the quotient is computed is an `Arithmetic`, with what the queue
  relies on. Go's own is `Arithmetic.float64`, in which every operation rounds, so that
  `CalculateWeight(9, 8, 1)` is 1. `Arithmetic.exact` drops the fraction of the exact value,
  which is 2 there.
-/

import Doq.Lib.Float64
import Doq.Memory.RoundRobin

namespace Doq.Memory

open Lib

/-- An integer as a Go `int`. -/
def wrap64 (n : Int) : Int := (n + 2 ^ 63) % 2 ^ 64 - 2 ^ 63

theorem wrap64_bounds (n : Int) : -2 ^ 63 ≤ wrap64 n ∧ wrap64 n < 2 ^ 63 := by
  unfold wrap64
  omega

theorem wrap64_of_lt {n : Int} (h0 : 0 ≤ n) (h : n < 2 ^ 63) : wrap64 n = n := by
  unfold wrap64
  omega

/-- What comes of `unacked` and `maxUnacked + 1`: never a negative weight while a slot is free,
    and 10 for a group with nothing unacked. -/
structure Arithmetic where
  tenths : Int → Int → Int
  nonneg : ∀ limit unacked, 0 < limit → limit ≤ maxInt64 → -2 ^ 63 ≤ unacked → unacked < limit →
    0 ≤ tenths unacked (wrap64 (limit + 1))
  idle : ∀ divisor, divisor ≠ 0 → tenths 0 divisor = 10

/-- The limit plus one: the largest wraps to the least `int`. -/
theorem wrap64_succ {limit : Int} (h0 : 0 < limit) (h1 : limit ≤ maxInt64) :
    wrap64 (limit + 1) = limit + 1 ∧ limit < maxInt64 ∨ wrap64 (limit + 1) = -2 ^ 63 ∧ limit = maxInt64 := by
  rcases h1.lt_or_eq with hlt | rfl
  · unfold maxInt64 at hlt
    exact Or.inl ⟨wrap64_of_lt (by omega) (by omega), by unfold maxInt64; omega⟩
  · exact Or.inr ⟨by decide, rfl⟩

namespace Arithmetic

/-- Each operation rounded; the constant 10 and the factor 1 are exact. A result outside the
    range of `int` (from 2^59 releases too many on) is left as it is. -/
def float64Tenths (unacked divisor : Int) : Int :=
  let unackedFactor := Lib.float64 (1 - Lib.float64 (Lib.float64 unacked / Lib.float64 divisor))
  let queueSizeFactor := 1
  truncated (Lib.float64 (Lib.float64 (unackedFactor * queueSizeFactor) * 10))

/-- The quotient is at most one before and after it is rounded. -/
theorem quotient_le_one {limit unacked : Int} (h0 : 0 < limit) (h1 : limit ≤ maxInt64) (hu : -2 ^ 63 ≤ unacked)
    (hlt : unacked < limit) : Lib.float64 unacked / Lib.float64 (wrap64 (limit + 1) : Int) ≤ 1 := by
  rcases wrap64_succ h0 h1 with ⟨hw, _⟩ | ⟨hw, _⟩
  · rw [hw]
    have hone : (1 : ℚ) ≤ Lib.float64 (limit + 1 : Int) := by
      have hle : (1 : ℚ) ≤ ((limit + 1 : Int) : ℚ) := by exact_mod_cast (by omega : 1 ≤ limit + 1)
      have : Lib.float64 1 = 1 := by decide +kernel
      exact this ▸ float64_mono zero_le_one hle
    refine (div_le_one (by linarith)).mpr ?_
    by_cases hneg : unacked ≤ 0
    · have : Lib.float64 (unacked : ℚ) ≤ 0 := float64_nonpos (by exact_mod_cast hneg)
      linarith
    · exact float64_mono (by exact_mod_cast (by omega : 0 ≤ unacked)) (by exact_mod_cast (by omega : unacked ≤ limit + 1))
  · have hd : Lib.float64 (wrap64 (limit + 1) : Int) = -2 ^ 63 := by rw [hw]; decide +kernel
    have hn : -2 ^ 63 ≤ Lib.float64 (unacked : ℚ) := neg_pow_le_float64 (by exact_mod_cast hu)
    rw [hd, div_le_one_of_neg (by norm_num)]
    exact hn

def float64 : Arithmetic where
  tenths := float64Tenths
  nonneg limit unacked h0 h1 hu hlt := by
    have hq := float64_le_one (quotient_le_one h0 h1 hu hlt)
    refine truncated_nonneg (float64_nonneg (mul_nonneg (float64_nonneg ?_) (by norm_num)))
    rw [mul_one]
    exact float64_nonneg (by linarith)
  idle divisor _ := by
    have h0 : Lib.float64 ((0 : Int) : ℚ) = 0 := by decide +kernel
    unfold float64Tenths
    rw [h0, zero_div]
    decide +kernel

def exactTenths (unacked divisor : Int) : Int := (10 * (divisor - unacked)).tdiv divisor

def exact : Arithmetic where
  tenths := exactTenths
  nonneg limit unacked h0 h1 hu hlt := by
    unfold exactTenths
    rcases wrap64_succ h0 h1 with ⟨hw, _⟩ | ⟨hw, _⟩
    · rw [hw]
      exact Int.tdiv_nonneg (by omega) (by omega)
    · rw [hw, ← Int.neg_tdiv_neg]
      exact Int.tdiv_nonneg (by omega) (by decide)
  idle divisor h := by
    unfold exactTenths
    rw [Int.sub_zero, Int.mul_tdiv_cancel _ h]

end Arithmetic

namespace FairWeightedQueue

def calculateWeight (ar : Arithmetic) (maxUnacked unacked : Int) (queueSize : Nat) : Int :=
  if queueSize = 0 then 0
  else
    let maxUnacked := if maxUnacked = 0 then maxInt64 else maxUnacked
    let unacked := wrap64 unacked
    if unacked ≥ maxUnacked then 0
    else ar.tenths unacked (wrap64 (maxUnacked + 1))

/-- The limits a Go `int` of a setting can be. -/
def ValidLimit (m : Int) : Prop := 0 ≤ m ∧ m ≤ maxInt64

instance (m : Int) : Decidable (ValidLimit m) := inferInstanceAs (Decidable (_ ∧ _))

variable {ar : Arithmetic} {maxUnacked : Int}

theorem ValidLimit.inForce (h : ValidLimit maxUnacked) :
    0 < (if maxUnacked = 0 then maxInt64 else maxUnacked) ∧ (if maxUnacked = 0 then maxInt64 else maxUnacked) ≤ maxInt64 := by
  obtain ⟨h0, h1⟩ := h
  split
  · decide
  · omega

theorem calculateWeight_nonneg (h : ValidLimit maxUnacked) (unacked : Int) (size : Nat) :
    0 ≤ calculateWeight ar maxUnacked unacked size := by
  obtain ⟨h0, h1⟩ := h.inForce
  have hu := wrap64_bounds unacked
  unfold calculateWeight
  split
  · exact Int.le_refl 0
  · simp only
    generalize (if maxUnacked = 0 then maxInt64 else maxUnacked) = limit at h0 h1 ⊢
    split
    · exact Int.le_refl 0
    · exact ar.nonneg _ _ h0 h1 hu.1 (by omega)

theorem calculateWeight_empty (maxUnacked unacked : Int) : calculateWeight ar maxUnacked unacked 0 = 0 := rfl

theorem calculateWeight_idle (h : ValidLimit maxUnacked) {size : Nat} (hs : 0 < size) :
    calculateWeight ar maxUnacked 0 size = 10 := by
  obtain ⟨h0, h1⟩ := h.inForce
  have hw : wrap64 0 = 0 := by decide
  unfold calculateWeight
  rw [if_neg (by omega)]
  simp only
  rw [hw, if_neg (by omega)]
  refine ar.idle _ ?_
  rcases wrap64_succ h0 h1 with ⟨h, _⟩ | ⟨h, _⟩ <;> omega

theorem calculateWeight_pos {unacked : Int} {size : Nat} (h : 0 < calculateWeight ar maxUnacked unacked size) :
    0 < size ∧ wrap64 unacked < if maxUnacked = 0 then maxInt64 else maxUnacked := by
  unfold calculateWeight at h
  by_cases hsize : size = 0
  · rw [if_pos hsize] at h; omega
  · rw [if_neg hsize] at h
    simp only at h
    refine ⟨by omega, Int.not_le.mp fun hle => ?_⟩
    rw [if_pos hle] at h
    omega

example : [(9, 8), (19, 18), (20, 19), (5, 1)].map (fun p => calculateWeight .float64 p.1 p.2 1) = [1, 0, 0, 8] := by
  decide +kernel

end FairWeightedQueue

end Doq.Memory

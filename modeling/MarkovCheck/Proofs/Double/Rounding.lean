import Mathlib
import MarkovCheck.Proofs.Double.Bits

/-!
# MarkovCheck.Proofs.Double.Rounding

Which rational numbers the nearest double is negative for.

The least positive double is `2 ^ (-1074)`. What is at most half of it rounds to zero, as the tie goes
to the even significand, and a negative number that rounds to zero gives minus zero, which is not less
than zero. All other negative numbers round to a double that is less than zero.

* `magnitudeBits_eq_zero_iff` — what rounds to zero.
* `neg_numLt_zero_iff` — the sign of a double.
* `isNaN_ofRat` — the nearest double is a number.
* `numLt_ofRat_zero_iff` — the rationals whose nearest double is less than zero.
-/

namespace MarkovCheck
namespace Double

variable {n d : ℕ}

/-! ## Significands -/

theorem roundHalfEven_eq_zero_iff (hd : 0 < d) : roundHalfEven n d = 0 ↔ 2 * n ≤ d := by
  have hdiv := Nat.div_add_mod n d
  have hmod := Nat.mod_lt n hd
  unfold roundHalfEven
  dsimp only
  rcases Nat.eq_zero_or_pos (n / d) with hq | hq
  · rw [hq, mul_zero, zero_add] at hdiv
    rw [hq, hdiv]
    split
    · omega
    · split
      · omega
      · simp only [beq_iff_eq, Nat.zero_mod, if_pos, true_iff]
        omega
  · -- A quotient of at least one stays one, whichever way it is rounded.
    have hle : d * 1 ≤ d * (n / d) := Nat.mul_le_mul_left d hq
    split
    · omega
    · split
      · omega
      · split <;> omega

/-! ## Exponents -/

theorem leastExponent_le_unitExponent (n d : ℕ) : leastExponent ≤ unitExponent n d := by
  unfold unitExponent
  dsimp only
  split <;> omega

theorem unitExponent_eq_least (h : (n.log2 : ℤ) - d.log2 - 52 < leastExponent) :
    unitExponent n d = leastExponent := by
  unfold unitExponent
  dsimp only
  rw [if_pos]
  split <;> omega

theorem log2_add_le (hn : 0 < n) {k : ℕ} (h : n * 2 ^ k ≤ d) : n.log2 + k ≤ d.log2 := by
  have hle : 2 ^ (n.log2 + k) ≤ d := by
    calc 2 ^ (n.log2 + k) = 2 ^ n.log2 * 2 ^ k := Nat.pow_add _ _ _
      _ ≤ n * 2 ^ k := Nat.mul_le_mul_right _ (Nat.log2_self_le hn.ne')
      _ ≤ d := h
  exact (Nat.le_log2 ((Nat.two_pow_pos _).trans_le hle).ne').2 hle

/-- A number of at most half the least double has the least unit in the last place. -/
theorem unitExponent_of_le (hn : 0 < n) (h : n * 2 ^ 1075 ≤ d) : unitExponent n d = leastExponent := by
  have hlog := log2_add_le hn h
  refine unitExponent_eq_least ?_
  unfold leastExponent
  omega

/-! ## Magnitudes -/

theorem scaleTwo_neg (n d k : ℕ) : scaleTwo n d (Int.negSucc k) = (n * 2 ^ (k + 1), d) := rfl

/-- With the least unit in the last place, what is at most half of it rounds to zero. -/
theorem roundHalfEven_leastExponent (n : ℕ) (hd : 0 < d) :
    roundHalfEven (scaleTwo n d leastExponent).1 (scaleTwo n d leastExponent).2 = 0 ↔
      n * 2 ^ 1075 ≤ d := by
  have hpow : 2 * (n * 2 ^ (1073 + 1)) = n * 2 ^ 1075 := by
    rw [show 1075 = 1073 + 1 + 1 from rfl, pow_succ' 2 (1073 + 1), Nat.mul_left_comm]
  rw [show leastExponent = Int.negSucc 1073 from rfl, scaleTwo_neg, roundHalfEven_eq_zero_iff hd, hpow]

/-- What rounds to zero is at most half the least double. -/
theorem unboundedBits_eq_zero_iff (hn : 0 < n) (hd : 0 < d) :
    unboundedBits n d = 0 ↔ n * 2 ^ 1075 ≤ d := by
  have hleast : (unitExponent n d - leastExponent).toNat = 0 ↔ unitExponent n d = leastExponent := by
    have := leastExponent_le_unitExponent n d
    omega
  have hpow : Nat.pow 2 52 ≠ 0 := (Nat.two_pow_pos 52).ne'
  rw [unboundedBits, Nat.add_eq_zero_iff, Nat.mul_eq_zero, or_iff_left hpow, hleast]
  constructor
  · rintro ⟨he, h⟩
    rw [he] at h
    exact (roundHalfEven_leastExponent n hd).1 h
  · intro h
    have he := unitExponent_of_le hn h
    refine ⟨he, ?_⟩
    rw [he]
    exact (roundHalfEven_leastExponent n hd).2 h

theorem magnitudeBits_eq_zero_iff (hn : 0 < n) (hd : 0 < d) :
    magnitudeBits n d = 0 ↔ n * 2 ^ 1075 ≤ d := by
  have hinfinity : infinityBits.toNat ≠ 0 := by decide
  rw [magnitudeBits, Nat.min_eq_zero_iff, or_iff_right hinfinity, unboundedBits_eq_zero_iff hn hd]

theorem magnitudeBits_le (n d : ℕ) : magnitudeBits n d ≤ infinityBits.toNat := min_le_left _ _

theorem toNat_magnitudeBits (n d : ℕ) : (magnitudeBits n d).toUInt64.toNat = magnitudeBits n d := by
  rw [Nat.toUInt64_eq, UInt64.toNat_ofNat']
  exact Nat.mod_eq_of_lt ((magnitudeBits_le n d).trans_lt (UInt64.toNat_lt _))

/-! ## Signs -/

theorem getElem_signBit {i : ℕ} (hi : i < 64) : signBit.toBitVec[i] = decide (i = 63) := by
  rw [show signBit.toBitVec = BitVec.twoPow 64 63 from rfl, BitVec.getElem_twoPow]

section Sign

variable {b : UInt64} (h : b.toNat ≤ infinityBits.toNat)
include h

theorem getElem_sign : b.toBitVec[63] = false := by
  have hlt : b.toNat < 2 ^ 63 := h.trans_lt (by decide)
  rw [← BitVec.getLsbD_eq_getElem, BitVec.getLsbD]
  exact Nat.testBit_lt_two_pow hlt

theorem isNegative_of_le : isNegative ⟨b⟩ = false := by
  -- The mask leaves the highest bit only, and the magnitude of infinity does not have it.
  have hbit : b &&& signBit = 0 := by
    rw [← UInt64.toBitVec_inj, UInt64.toBitVec_and]
    ext i hi
    rw [BitVec.getElem_and, getElem_signBit hi]
    by_cases h63 : i = 63
    · subst h63
      simp [getElem_sign h]
    · simp [h63]
  simp [isNegative, hbit]

theorem magnitude_neg_of_le : (neg ⟨b⟩).magnitude = b := by
  rw [magnitude, neg, ← UInt64.toBitVec_inj, UInt64.toBitVec_and, UInt64.toBitVec_not,
    UInt64.toBitVec_xor]
  ext i hi
  rw [BitVec.getElem_and, BitVec.getElem_not, BitVec.getElem_xor, getElem_signBit hi]
  by_cases h63 : i = 63
  · subst h63
    simp [getElem_sign h]
  · simp [h63]

theorem isNegative_neg_of_le : (neg ⟨b⟩).isNegative = true := by
  have hbit : (b ^^^ signBit) &&& signBit ≠ 0 := by
    intro h0
    have h63 := congrArg (fun x : UInt64 => x.toBitVec[63]) h0
    simp [getElem_signBit, getElem_sign h] at h63
  simpa [isNegative, neg] using hbit

theorem isNaN_of_le : isNaN ⟨b⟩ = false := by
  have hle : (magnitude ⟨b⟩).toNat ≤ infinityBits.toNat := by
    rw [toNat_magnitude]
    exact (Nat.mod_le _ _).trans h
  exact decide_eq_false (UInt64.not_lt.2 (UInt64.le_iff_toNat_le.2 hle))

theorem isNaN_neg_of_le : (neg ⟨b⟩).isNaN = false := by
  rw [isNaN, magnitude_neg_of_le h]
  exact decide_eq_false (UInt64.not_lt.2 (UInt64.le_iff_toNat_le.2 h))

theorem not_numLt_zero : numLt ⟨b⟩ zero = false := by
  have hkey : ¬ numKey ⟨b⟩ < 0 := by
    rw [numKey, isNegative_of_le h, if_neg Bool.false_ne_true]
    omega
  simp [numLt, show zero.numKey = 0 from rfl, hkey]

theorem neg_numLt_zero_iff : (neg ⟨b⟩).numLt zero = true ↔ b.toNat ≠ 0 := by
  have hkey : (neg ⟨b⟩).numKey < 0 ↔ b.toNat ≠ 0 := by
    rw [numKey, isNegative_neg_of_le h, if_pos rfl, magnitude_neg_of_le h]
    omega
  simp [numLt, isNaN_neg_of_le h, show zero.isNaN = false from rfl, show zero.numKey = 0 from rfl, hkey]

end Sign

/-! ## Rational numbers -/

theorem lt_neg_one_div_iff {r : ℚ} (hr : r.num < 0) (k : ℕ) :
    r < -(1 / 2 ^ k) ↔ r.den < r.num.natAbs * 2 ^ k := by
  have hden : (0 : ℚ) < r.den := Nat.cast_pos.2 r.den_pos
  have hpow : (0 : ℚ) < 2 ^ k := pow_pos two_pos k
  have hnum : (r.num : ℚ) = -(r.num.natAbs : ℚ) := by
    rw [Nat.cast_natAbs, abs_of_neg hr, Int.cast_neg, neg_neg]
  have hvalue : r = -((r.num.natAbs : ℚ) / r.den) := by
    rw [← neg_div, ← hnum, Rat.num_div_den]
  rw [hvalue, neg_lt_neg_iff, div_lt_div_iff₀ hpow hden, one_mul, ← hvalue]
  exact_mod_cast Iff.rfl

/-- Rounding overflows to infinity, and never to a NaN. -/
theorem isNaN_ofRat (r : ℚ) : (ofRat r).isNaN = false := by
  have hle := (toNat_magnitudeBits r.num.natAbs r.den).trans_le (magnitudeBits_le r.num.natAbs r.den)
  unfold ofRat
  split
  · rfl
  · dsimp only
    split
    · exact isNaN_neg_of_le hle
    · exact isNaN_of_le hle

/-- The double nearest to a rational number is less than zero when the number is negative and does not
round to zero. -/
theorem numLt_ofRat_zero_iff (r : ℚ) : (ofRat r).numLt zero = true ↔ r < -(1 / 2 ^ 1075) := by
  have hbound : -(1 / 2 ^ 1075 : ℚ) < 0 := neg_lt_zero.2 (one_div_pos.2 (pow_pos two_pos _))
  have hbits := toNat_magnitudeBits r.num.natAbs r.den
  have hle := hbits.trans_le (magnitudeBits_le r.num.natAbs r.den)
  -- The sign is put on after rounding, so zero with a sign is the only exception.
  unfold ofRat
  rcases lt_trichotomy r.num 0 with hneg | hzero | hpos
  · have hn : 0 < r.num.natAbs := Int.natAbs_pos.2 hneg.ne
    rw [if_neg hneg.ne, if_pos hneg, neg_numLt_zero_iff hle, hbits, ne_eq,
      magnitudeBits_eq_zero_iff hn r.den_pos, not_le, lt_neg_one_div_iff hneg]
  · rw [if_pos hzero, Rat.num_eq_zero.1 hzero]
    exact iff_of_false (by decide) hbound.not_gt
  · rw [if_neg hpos.ne', if_neg hpos.not_gt, not_numLt_zero hle]
    exact iff_of_false Bool.false_ne_true (hbound.trans (Rat.num_pos.1 hpos)).not_gt

end Double
end MarkovCheck

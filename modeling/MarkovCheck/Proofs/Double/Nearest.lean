import Mathlib
import MarkovCheck.Double.Text
import MarkovCheck.Proofs.Double.Bits
import MarkovCheck.Proofs.Double.Rounding

/-!
# MarkovCheck.Proofs.Double.Nearest

All numbers in the rounding interval of a double round to it.

A finite double is a multiple of its unit in the last place, which is a power of two. Its interval
reaches half a unit to either side. The numbers in it have the same unit, so rounding gives the same
multiple, with one exception: below a power of two units are halved, so the interval is shorter there,
and the numbers in it round up to the next binade.

* `unitExponent_eq` — the unit of a number.
* `ofRat_eq_of_contains` — rounding.
-/

namespace MarkovCheck
namespace Double

variable {n d M : ℕ} {e : ℤ}

/-! ## Powers of two -/

theorem twoPow_eq (k : ℤ) : twoPow k = (2 : ℚ) ^ k := by
  cases k with
  | ofNat k => exact Nat.cast_pow 2 k
  | negSucc k =>
    rw [twoPow, zpow_negSucc, Rat.mkRat_eq_div, Int.cast_one, one_div]
    exact congrArg _ (Nat.cast_pow 2 (k + 1))

theorem scaleTwo_pos (hd : 0 < d) (n : ℕ) (e : ℤ) : 0 < (scaleTwo n d e).2 := by
  cases e with
  | ofNat e => exact Nat.mul_pos hd (Nat.two_pow_pos e)
  | negSucc e => exact hd

theorem scaleTwo_div (n d : ℕ) (e : ℤ) :
    ((scaleTwo n d e).1 : ℚ) / (scaleTwo n d e).2 = (n / d : ℚ) / 2 ^ e := by
  cases e with
  | ofNat e =>
    have hcast : ((d * Nat.pow 2 e : ℕ) : ℚ) = d * 2 ^ e := by
      rw [Nat.cast_mul]
      exact congrArg _ (Nat.cast_pow 2 e)
    rw [scaleTwo, hcast, Int.ofNat_eq_natCast, zpow_natCast, div_div]
  | negSucc e =>
    have hcast : ((n * Nat.pow 2 (e + 1) : ℕ) : ℚ) = n * 2 ^ (e + 1) := by
      rw [Nat.cast_mul]
      exact congrArg _ (Nat.cast_pow 2 (e + 1))
    rw [scaleTwo, hcast, zpow_negSucc, div_inv_eq_mul, div_mul_eq_mul_div]

/-! ## Rounding -/

/-- What is at most half a unit away rounds to the multiple, a tie if the multiple is even. -/
theorem roundHalfEven_eq (hd : 0 < d) (hlow : 2 * M * d ≤ 2 * n + d) (hhigh : 2 * n ≤ 2 * M * d + d)
    (htie : M % 2 = 1 → 2 * M * d ≠ 2 * n + d ∧ 2 * n ≠ 2 * M * d + d) : roundHalfEven n d = M := by
  have hdiv := Nat.div_add_mod n d
  have hmod := Nat.mod_lt n hd
  have hle : n / d ≤ M := by
    rw [← Nat.lt_succ_iff, Nat.div_lt_iff_lt_mul hd, Nat.succ_mul]
    rw [Nat.mul_assoc] at hhigh
    omega
  have hge : M ≤ n / d + 1 := by
    by_contra hlt
    have hmul : (n / d + 2) * d ≤ M * d := Nat.mul_le_mul_right d (by omega)
    rw [Nat.add_mul, Nat.mul_comm (n / d)] at hmul
    rw [Nat.mul_assoc] at hlow
    omega
  unfold roundHalfEven
  dsimp only
  rw [Nat.mul_assoc, Nat.mul_comm M] at hlow hhigh htie
  rcases Nat.lt_or_ge (n / d) M with hlt | hge'
  · obtain rfl : M = n / d + 1 := by omega
    rw [Nat.mul_add] at hlow hhigh htie
    split
    · omega
    · split
      · rfl
      · rw [if_neg]
        rw [beq_iff_eq]
        omega
  · obtain rfl : M = n / d := by omega
    split
    · rfl
    · split
      · omega
      · rw [if_pos]
        rw [beq_iff_eq]
        omega

/-- The same for quotients as rational numbers. -/
theorem roundHalfEven_of_near (hd : 0 < d) (hlow : (M : ℚ) - 1 / 2 ≤ n / d)
    (hhigh : (n / d : ℚ) ≤ M + 1 / 2)
    (htie : M % 2 = 1 → (M : ℚ) - 1 / 2 < n / d ∧ (n / d : ℚ) < M + 1 / 2) :
    roundHalfEven n d = M := by
  have hpos : (0 : ℚ) < d := Nat.cast_pos.2 hd
  have hcast : ∀ a b : ℕ, a ≤ b ↔ (a : ℚ) ≤ b := fun a b => Nat.cast_le.symm
  rw [le_div_iff₀ hpos] at hlow
  rw [div_le_iff₀ hpos] at hhigh
  refine roundHalfEven_eq hd ?_ ?_ fun hodd => ?_
  · rw [hcast]
    push_cast
    linarith
  · rw [hcast]
    push_cast
    linarith
  · obtain ⟨h1, h2⟩ := htie hodd
    rw [lt_div_iff₀ hpos] at h1
    rw [div_lt_iff₀ hpos] at h2
    constructor <;> intro heq <;> have heq := congrArg (Nat.cast (R := ℚ)) heq <;> push_cast at heq <;>
      linarith

/-! ## Units -/

theorem pow_mul_zpow (k : ℕ) (e : ℤ) : (2 : ℚ) ^ k * 2 ^ e = 2 ^ (k + e) := by
  rw [zpow_add₀ two_ne_zero, zpow_natCast]

/-- The logarithms give a first guess, which is at most one too large. -/
theorem guess_spec (hn : 0 < n) (hd : 0 < d) (he : e = (n.log2 : ℤ) - d.log2 - 52) :
    2 ^ 51 * 2 ^ e ≤ (n / d : ℚ) ∧ (n / d : ℚ) < 2 ^ 53 * 2 ^ e := by
  have hnlow : (2 : ℚ) ^ n.log2 ≤ n := by exact_mod_cast Nat.log2_self_le hn.ne'
  have hnhigh : (n : ℚ) < 2 ^ (n.log2 + 1) := by exact_mod_cast Nat.lt_log2_self
  have hdlow : (2 : ℚ) ^ d.log2 ≤ d := by exact_mod_cast Nat.log2_self_le hd.ne'
  have hdhigh : (d : ℚ) < 2 ^ (d.log2 + 1) := by exact_mod_cast Nat.lt_log2_self
  have hdpos : (0 : ℚ) < d := Nat.cast_pos.2 hd
  constructor
  · calc (2 : ℚ) ^ 51 * 2 ^ e = 2 ^ ((n.log2 : ℤ) - (d.log2 + 1 : ℕ)) := by
          rw [pow_mul_zpow, he]
          congr 1
          omega
      _ = 2 ^ n.log2 / 2 ^ (d.log2 + 1) := by
          rw [zpow_sub₀ two_ne_zero, zpow_natCast, zpow_natCast]
      _ ≤ n / d := div_le_div₀ (Nat.cast_nonneg n) hnlow hdpos hdhigh.le
  · calc (n / d : ℚ) < 2 ^ (n.log2 + 1) / 2 ^ d.log2 :=
          div_lt_div₀ hnhigh hdlow (pow_nonneg zero_le_two _) (pow_pos two_pos _)
      _ = 2 ^ (((n.log2 + 1 : ℕ) : ℤ) - d.log2) := by
          rw [zpow_sub₀ two_ne_zero, zpow_natCast, zpow_natCast]
      _ = 2 ^ 53 * 2 ^ e := by
          rw [pow_mul_zpow, he]
          congr 1
          omega

theorem scaleTwo_lt_iff (hd : 0 < d) (k : ℕ) : (scaleTwo n d e).1 < (scaleTwo n d e).2 * 2 ^ k ↔
    (n / d : ℚ) < 2 ^ k * 2 ^ e := by
  have hpos : (0 : ℚ) < (scaleTwo n d e).2 := Nat.cast_pos.2 (scaleTwo_pos hd n e)
  rw [← div_lt_iff₀ (zpow_pos two_pos e), ← scaleTwo_div, div_lt_iff₀ hpos, mul_comm]
  exact_mod_cast Iff.rfl

theorem unitExponent_spec (hn : 0 < n) (hd : 0 < d) : (n / d : ℚ) < 2 ^ 53 * 2 ^ unitExponent n d ∧
    (unitExponent n d = leastExponent ∨ 2 ^ 52 * 2 ^ unitExponent n d ≤ (n / d : ℚ)) := by
  obtain ⟨hlow, hhigh⟩ := guess_spec hn hd rfl
  -- The unit is never less than the least one.
  have hclip : ∀ e : ℤ, 2 ^ 52 * 2 ^ e ≤ (n / d : ℚ) → (n / d : ℚ) < 2 ^ 53 * 2 ^ e →
      (n / d : ℚ) < 2 ^ 53 * 2 ^ (if e < leastExponent then leastExponent else e) ∧
        ((if e < leastExponent then leastExponent else e) = leastExponent ∨
          2 ^ 52 * 2 ^ (if e < leastExponent then leastExponent else e) ≤ (n / d : ℚ)) := by
    intro e hle hlt
    split
    · rename_i h
      have hmono : (2 : ℚ) ^ e ≤ 2 ^ leastExponent := zpow_le_zpow_right₀ one_le_two h.le
      exact ⟨hlt.trans_le (mul_le_mul_of_nonneg_left hmono (by positivity)), .inl rfl⟩
    · exact ⟨hlt, .inr hle⟩
  unfold unitExponent
  dsimp only
  split
  · rename_i h
    have hlt := (scaleTwo_lt_iff hd 52).1 h
    refine hclip _ ?_ ?_
    · rw [pow_mul_zpow] at hlow ⊢
      convert hlow using 2
      omega
    · rw [pow_mul_zpow] at hlt ⊢
      convert hlt using 2
      omega
  · rename_i h
    exact hclip _ (not_lt.1 (mt (scaleTwo_lt_iff hd 52).2 h)) hhigh

/-- The unit of a number has between `2 ^ 52` and `2 ^ 53` multiples up to it, unless it is the least
one. -/
theorem unitExponent_eq (hn : 0 < n) (hd : 0 < d) (hleast : leastExponent ≤ e)
    (hlt : (n / d : ℚ) < 2 ^ 53 * 2 ^ e) (hle : e = leastExponent ∨ 2 ^ 52 * 2 ^ e ≤ (n / d : ℚ)) :
    unitExponent n d = e := by
  obtain ⟨hlt', hle'⟩ := unitExponent_spec hn hd
  have hleast' := leastExponent_le_unitExponent n d
  -- Of two such units the smaller one has too few multiples.
  have hunique : ∀ a b : ℤ, leastExponent ≤ a → a < b → (n / d : ℚ) < 2 ^ 53 * 2 ^ a →
      (b = leastExponent ∨ 2 ^ 52 * 2 ^ b ≤ (n / d : ℚ)) → False := by
    intro a b ha hab hlt hle
    have hle := hle.resolve_left (by omega)
    rw [pow_mul_zpow] at hlt hle
    have hmono : (2 : ℚ) ^ ((53 : ℕ) + a) ≤ 2 ^ ((52 : ℕ) + b) :=
      zpow_le_zpow_right₀ one_le_two (by omega)
    exact absurd (hlt.trans_le hmono) hle.not_gt
  rcases lt_trichotomy (unitExponent n d) e with h | h | h
  · exact (hunique _ _ hleast' h hlt' hle).elim
  · exact h
  · exact (hunique _ _ hleast h hlt hle').elim

/-! ## The parts of a finite double -/

variable {x : Double} {r : ℚ}

theorem leastExponent_le_exponent (x : Double) : leastExponent ≤ x.exponent := by
  unfold exponent
  split <;> omega

theorem lt_exponent_iff : leastExponent < x.exponent ↔ 1 < x.exponentField := by
  unfold exponent
  split <;> omega

/-- The significand is put together with the exponent field by addition. -/
theorem magnitude_eq (x : Double) :
    x.magnitude.toNat = (x.exponent - leastExponent).toNat * 2 ^ 52 + x.significand := by
  have hdiv := Nat.div_add_mod x.magnitude.toNat (2 ^ 52)
  unfold exponent significand
  rw [exponentField]
  dsimp only
  split
  · rename_i h
    change x.magnitude.toNat / 2 ^ 52 = 0 at h
    change _ = _ + x.magnitude.toNat % 2 ^ 52
    rw [h] at hdiv
    omega
  · rename_i h
    change ¬ x.magnitude.toNat / 2 ^ 52 = 0 at h
    have hfield : (((x.magnitude.toNat / 2 ^ 52 : ℕ) : ℤ) - 1 + leastExponent - leastExponent).toNat =
        x.magnitude.toNat / 2 ^ 52 - 1 := by omega
    change _ = (((x.magnitude.toNat / 2 ^ 52 : ℕ) : ℤ) - 1 + leastExponent - leastExponent).toNat * 2 ^ 52 +
      (x.magnitude.toNat % 2 ^ 52 + 2 ^ 52)
    rw [hfield]
    omega

theorem significand_lt (x : Double) : x.significand < 2 ^ 53 := by
  have hmod : x.magnitude.toNat % Nat.pow 2 52 < 2 ^ 52 := Nat.mod_lt _ (Nat.two_pow_pos 52)
  have hpow : Nat.pow 2 52 = 2 ^ 52 := rfl
  unfold significand
  dsimp only
  split <;> omega

theorem le_significand (x : Double) : x.exponent = leastExponent ∨ 2 ^ 52 ≤ x.significand := by
  have hpow : Nat.pow 2 52 = 2 ^ 52 := rfl
  unfold exponent significand
  dsimp only
  split
  · exact .inl rfl
  · right
    omega

theorem significand_pos (h : x.magnitude ≠ 0) : 0 < x.significand := by
  have hmagnitude := magnitude_eq x
  refine Nat.pos_of_ne_zero fun hzero => h (UInt64.toNat_inj.1 ?_)
  rcases le_significand x with he | hle
  · rw [hmagnitude, he, hzero]
    rfl
  · omega

theorem exponent_le (h : x.magnitude < infinityBits) : x.exponent ≤ 971 := by
  have hlt : x.magnitude.toNat < 2047 * 2 ^ 52 := UInt64.lt_iff_toNat_lt.1 h
  have hfield : x.exponentField < 2047 := (Nat.div_lt_iff_lt_mul (Nat.two_pow_pos 52)).2 hlt
  unfold exponent leastExponent
  split <;> omega

/-! ## The rounding interval -/

/-- Where the interval ends below its double, in units. -/
def gapBelow (x : Double) : ℚ := if x.significand = 2 ^ 52 ∧ 1 < x.exponentField then 1 / 4 else 1 / 2

theorem gapBelow_le (x : Double) : x.gapBelow ≤ 1 / 2 := by
  unfold gapBelow
  split <;> norm_num

theorem gapBelow_pos (x : Double) : 0 < x.gapBelow := by
  unfold gapBelow
  split <;> norm_num

theorem twoPow_pred (e : ℤ) : twoPow (e - 1) = 1 / 2 * 2 ^ e := by
  rw [twoPow_eq, zpow_sub_one₀ two_ne_zero, mul_comm, one_div]

theorem roundingInterval_eq (x : Double) : x.roundingInterval =
    ⟨(x.significand - x.gapBelow) * 2 ^ x.exponent, x.significand * 2 ^ x.exponent,
      (x.significand + 1 / 2) * 2 ^ x.exponent, x.significand % 2 == 0⟩ := by
  have hbelow : (if x.significand = Nat.pow 2 52 ∧ 1 < x.exponentField then twoPow (x.exponent - 1) / 2
      else twoPow (x.exponent - 1)) = x.gapBelow * 2 ^ x.exponent := by
    rw [gapBelow, twoPow_pred]
    by_cases h : x.significand = 2 ^ 52 ∧ 1 < x.exponentField
    · rw [if_pos h]
      exact (if_pos h).trans (by ring)
    · rw [if_neg h]
      exact if_neg h
  unfold roundingInterval
  dsimp only
  rw [hbelow, magnitudeRat, twoPow_eq, twoPow_pred, sub_mul, add_mul]

/-- The numbers in the interval, in units; the ends belong to it if the significand is even. -/
theorem contains_iff : x.roundingInterval.contains r = true ↔
    if x.significand % 2 = 0 then
      x.significand - x.gapBelow ≤ r / 2 ^ x.exponent ∧ r / 2 ^ x.exponent ≤ x.significand + 1 / 2
    else x.significand - x.gapBelow < r / 2 ^ x.exponent ∧ r / 2 ^ x.exponent < x.significand + 1 / 2 := by
  have hpos : (0 : ℚ) < 2 ^ x.exponent := zpow_pos two_pos _
  rw [roundingInterval_eq, Decimal.Interval.contains, le_div_iff₀ hpos, div_le_iff₀ hpos, lt_div_iff₀ hpos,
    div_lt_iff₀ hpos]
  by_cases h : x.significand % 2 = 0
  · simp [h]
  · simp [h]

theorem near_of_contains (h : x.roundingInterval.contains r = true) :
    x.significand - x.gapBelow ≤ r / 2 ^ x.exponent ∧ r / 2 ^ x.exponent ≤ x.significand + 1 / 2 ∧
      (x.significand % 2 = 1 →
        x.significand - x.gapBelow < r / 2 ^ x.exponent ∧ r / 2 ^ x.exponent < x.significand + 1 / 2) := by
  rw [contains_iff] at h
  split at h
  · rename_i heven
    exact ⟨h.1, h.2, fun hodd => by omega⟩
  · exact ⟨h.1.le, h.2.le, fun _ => h⟩

/-! ## Rounding to the double -/

/-- Below a power of two, numbers are rounded up to it. -/
theorem unboundedBits_below (hn : 0 < n) (hd : 0 < d) (hM : x.significand = 2 ^ 52)
    (he : leastExponent < x.exponent) (hlow : (2 ^ 52 : ℚ) - 1 / 4 ≤ n / d / 2 ^ x.exponent)
    (hhigh : (n / d : ℚ) / 2 ^ x.exponent < 2 ^ 52) : unboundedBits n d = x.magnitude.toNat := by
  have hpos : (0 : ℚ) < 2 ^ (x.exponent - 1) := zpow_pos two_pos _
  have hhalf : (n / d : ℚ) / 2 ^ (x.exponent - 1) = 2 * (n / d / 2 ^ x.exponent) := by
    rw [zpow_sub_one₀ two_ne_zero]
    ring
  have hunit : unitExponent n d = x.exponent - 1 := by
    refine unitExponent_eq hn hd (by omega) ?_ (.inr ?_)
    · rw [← div_lt_iff₀ hpos, hhalf]
      linarith
    · rw [← le_div_iff₀ hpos, hhalf]
      linarith
  have hround : roundHalfEven (scaleTwo n d (x.exponent - 1)).1 (scaleTwo n d (x.exponent - 1)).2 =
      2 ^ 53 := by
    refine roundHalfEven_of_near (scaleTwo_pos hd n _) ?_ ?_ fun hodd => absurd hodd (by decide)
    · rw [scaleTwo_div, hhalf]
      push_cast
      linarith
    · rw [scaleTwo_div, hhalf]
      push_cast
      linarith
  have hpow : Nat.pow 2 52 = 2 ^ 52 := rfl
  rw [unboundedBits, hunit, hround, magnitude_eq, hM, hpow]
  omega

theorem unboundedBits_near (hn : 0 < n) (hd : 0 < d)
    (hlow : (x.significand : ℚ) - 1 / 2 ≤ n / d / 2 ^ x.exponent)
    (hhigh : (n / d : ℚ) / 2 ^ x.exponent ≤ x.significand + 1 / 2)
    (hodd : x.significand % 2 = 1 → (x.significand : ℚ) - 1 / 2 < n / d / 2 ^ x.exponent ∧
      (n / d : ℚ) / 2 ^ x.exponent < x.significand + 1 / 2)
    (hunit : x.exponent = leastExponent ∨ 2 ^ 52 ≤ (n / d : ℚ) / 2 ^ x.exponent) :
    unboundedBits n d = x.magnitude.toNat := by
  have hpos : (0 : ℚ) < 2 ^ x.exponent := zpow_pos two_pos _
  have hsignificand : (x.significand : ℚ) + 1 ≤ 2 ^ 53 := by exact_mod_cast significand_lt x
  have hexponent : unitExponent n d = x.exponent := by
    refine unitExponent_eq hn hd (leastExponent_le_exponent x) ?_ ?_
    · rw [← div_lt_iff₀ hpos]
      linarith
    · rwa [← le_div_iff₀ hpos]
  have hround : roundHalfEven (scaleTwo n d x.exponent).1 (scaleTwo n d x.exponent).2 =
      x.significand := by
    refine roundHalfEven_of_near (scaleTwo_pos hd n _) ?_ ?_ fun h => ?_ <;> rw [scaleTwo_div]
    · exact hlow
    · exact hhigh
    · exact hodd h
  rw [unboundedBits, hexponent, hround, magnitude_eq]
  rfl

theorem unboundedBits_of_contains (hn : 0 < n) (hd : 0 < d)
    (h : x.roundingInterval.contains (n / d : ℚ) = true) : unboundedBits n d = x.magnitude.toNat := by
  obtain ⟨hlow, hhigh, hodd⟩ := near_of_contains h
  have hgap := gapBelow_le x
  by_cases hbelow : x.exponent = leastExponent ∨ 2 ^ 52 ≤ (n / d : ℚ) / 2 ^ x.exponent
  · refine unboundedBits_near hn hd (by linarith) hhigh (fun h => ?_) hbelow
    exact ⟨by linarith [(hodd h).1], (hodd h).2⟩
  · -- A number with a smaller unit lies below a power of two.
    push Not at hbelow
    obtain ⟨hne, hlt⟩ := hbelow
    have hle := (le_significand x).resolve_left hne
    have hleast : leastExponent < x.exponent := lt_of_le_of_ne (leastExponent_le_exponent x) (Ne.symm hne)
    have hM : x.significand = 2 ^ 52 := by
      by_contra hM
      have hsucc : (2 ^ 52 : ℚ) + 1 ≤ x.significand := by exact_mod_cast lt_of_le_of_ne hle (Ne.symm hM)
      linarith
    have hquarter : x.gapBelow = 1 / 4 := if_pos ⟨hM, lt_exponent_iff.1 hleast⟩
    rw [hM, hquarter] at hlow
    exact unboundedBits_below hn hd hM hleast (by exact_mod_cast hlow) hlt

/-- A number in the interval of a positive finite double rounds to that double. -/
theorem ofRat_eq_of_contains (hsign : x.isNegative = false) (hfinite : x.magnitude < infinityBits)
    (hpos : 0 < r) (h : x.roundingInterval.contains r = true) : ofRat r = x := by
  have hnum : 0 < r.num := Rat.num_pos.2 hpos
  have hvalue : ((r.num.natAbs : ℕ) / r.den : ℚ) = r := by
    rw [Nat.cast_natAbs, abs_of_pos hnum, Rat.num_div_den]
  have hunbounded : unboundedBits r.num.natAbs r.den = x.magnitude.toNat :=
    unboundedBits_of_contains (Int.natAbs_pos.2 hnum.ne') r.den_pos (by rwa [hvalue])
  have hbits : magnitudeBits r.num.natAbs r.den = x.magnitude.toNat := by
    rw [magnitudeBits, hunbounded]
    exact min_eq_right (UInt64.lt_iff_toNat_lt.1 hfinite).le
  rw [ofRat, if_neg hnum.ne', if_neg hnum.not_gt, hbits, Nat.toUInt64_eq, UInt64.ofNat_toNat]
  exact abs_of_nonneg hsign

end Double
end MarkovCheck

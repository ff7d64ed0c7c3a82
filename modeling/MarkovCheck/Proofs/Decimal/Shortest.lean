import Mathlib
import MarkovCheck.Decimal.Shortest

/-!
# MarkovCheck.Proofs.Decimal.Shortest

The shortest decimal number inside an interval lies inside it, and seventeen digits are enough when the
interval is wide.

Grids get finer until one of them has a point in the interval, next to its number. The unit of the
seventeenth one is so small that it fits sixteen places below the number, and an interval that is wider
than the unit cannot lie between two points of the grid.

* `contains_of_shortest` — the number that is found.
* `exists_shortest`      — a number is found.
-/

namespace MarkovCheck
namespace Decimal

variable {i : Interval} {s : Scaled} {r : ℚ} {k : ℤ} {n fuel digits : ℕ}

/-! ## Powers of ten -/

theorem tenPow_eq (k : ℤ) : tenPow k = (10 : ℚ) ^ k := by
  cases k with
  | ofNat k => exact Nat.cast_pow 10 k
  | negSucc k =>
    rw [tenPow, zpow_negSucc, Rat.mkRat_eq_div, Int.cast_one, one_div]
    exact congrArg _ (Nat.cast_pow 10 (k + 1))

theorem lt_pow_length (n : ℕ) : n < 10 ^ (digitsOf n).length :=
  (Nat.length_toDigits_le_iff (by decide) Nat.length_toDigits_pos).1 le_rfl

theorem pow_length_le (hn : 0 < n) : 10 ^ ((digitsOf n).length - 1) ≤ n := by
  rcases Nat.eq_zero_or_pos ((digitsOf n).length - 1) with hzero | hpos
  · rw [hzero]
    exact hn
  · refine not_lt.1 fun hlt => ?_
    have hle : (digitsOf n).length ≤ (digitsOf n).length - 1 :=
      (Nat.length_toDigits_le_iff (by decide) hpos).2 hlt
    omega

/-- The number of digits of a number, and what that says of its multiples. -/
theorem length_spec (hn : 0 < n) (k : ℤ) :
    (10 : ℚ) ^ ((digitsOf n).length + k - 1) ≤ n * 10 ^ k ∧
      (n : ℚ) * 10 ^ k < 10 ^ ((digitsOf n).length + k) := by
  have hten : (10 : ℚ) ≠ 0 := by norm_num
  have hpos : (0 : ℚ) < 10 ^ k := zpow_pos (by norm_num) k
  have hlength : 0 < (digitsOf n).length := Nat.length_toDigits_pos
  have hlow : (10 : ℚ) ^ ((digitsOf n).length - 1) ≤ n := by exact_mod_cast pow_length_le hn
  have hhigh : (n : ℚ) < 10 ^ (digitsOf n).length := by exact_mod_cast lt_pow_length n
  constructor
  · calc (10 : ℚ) ^ ((digitsOf n).length + k - 1) = 10 ^ ((((digitsOf n).length - 1 : ℕ) : ℤ) + k) := by
          congr 1
          omega
      _ = 10 ^ ((digitsOf n).length - 1) * 10 ^ k := by rw [zpow_add₀ hten, zpow_natCast]
      _ ≤ n * 10 ^ k := mul_le_mul_of_nonneg_right hlow hpos.le
  · rw [zpow_add₀ hten, zpow_natCast]
    exact mul_lt_mul_of_pos_right hhigh hpos

theorem magnitude_le (hr : 0 < r) : (10 : ℚ) ^ (magnitude r - 1) ≤ r := by
  have hnum : 0 < r.num.natAbs := Int.natAbs_pos.2 (Rat.num_pos.2 hr).ne'
  have hvalue : (r.num.natAbs : ℚ) / r.den = r := by
    rw [Nat.cast_natAbs, abs_of_pos (Rat.num_pos.2 hr), Rat.num_div_den]
  have hguess : (10 : ℚ) ^ (((digitsOf r.num.natAbs).length : ℤ) - (digitsOf r.den).length - 1) ≤ r := by
    have hlow := (length_spec hnum 0).1
    have hhigh := (length_spec r.den_pos 0).2
    rw [zpow_zero, mul_one, add_zero] at hlow hhigh
    calc (10 : ℚ) ^ (((digitsOf r.num.natAbs).length : ℤ) - (digitsOf r.den).length - 1)
        = 10 ^ (((digitsOf r.num.natAbs).length : ℤ) - 1) / 10 ^ ((digitsOf r.den).length : ℤ) := by
          rw [← zpow_sub₀ (by norm_num)]
          congr 1
          omega
      _ ≤ r.num.natAbs / r.den :=
          div_le_div₀ (Nat.cast_nonneg _) hlow (Nat.cast_pos.2 r.den_pos) hhigh.le
      _ = r := hvalue
  unfold magnitude
  dsimp only
  split
  · exact hguess
  · rename_i h
    rw [not_lt, tenPow_eq] at h
    rwa [add_sub_cancel_right]

/-! ## Grids -/

theorem contains_of_onGrid (h : i.onGrid k = some s) : i.contains s.value = true := by
  unfold Interval.onGrid at h
  dsimp only at h
  split at h
  · rename_i hlower hupper
    split at h
    · cases h
      exact (Bool.and_eq_true_iff.1 hlower).1
    · cases h
      exact hupper
  · rename_i hlower _
    cases h
    exact (Bool.and_eq_true_iff.1 hlower).1
  · rename_i hupper
    cases h
    exact hupper
  · cases h

/-- What lies inside the interval whether or not its ends do. -/
theorem contains_of_lt (hlow : i.low < r) (hhigh : r < i.high) : i.contains r = true := by
  unfold Interval.contains
  split
  · exact Bool.and_eq_true_iff.2 ⟨decide_eq_true hlow.le, decide_eq_true hhigh.le⟩
  · exact Bool.and_eq_true_iff.2 ⟨decide_eq_true hlow, decide_eq_true hhigh⟩

/-- An interval that is wider than the unit of a grid has a point of it next to its value. -/
theorem exists_onGrid (hlow : i.low < i.value) (hhigh : i.value < i.high)
    (hvalue : (10 : ℚ) ^ k ≤ i.value) (hwide : (10 : ℚ) ^ k < i.high - i.low) :
    ∃ s, i.onGrid k = some s := by
  have hunit : (0 : ℚ) < 10 ^ k := zpow_pos (by norm_num) k
  have hone : 1 ≤ i.value / 10 ^ k := (one_le_div₀ hunit).2 hvalue
  have hfloor : 1 ≤ (i.value / 10 ^ k).floor := Rat.le_floor_iff.2 (by exact_mod_cast hone)
  -- The points of the grid on both sides of the value.
  obtain ⟨b, hb⟩ : ∃ b : ℕ, (i.value / 10 ^ k).floor = b := Int.eq_ofNat_of_zero_le (by omega)
  have hbelow : (b : ℚ) * 10 ^ k ≤ i.value := by
    rw [← le_div_iff₀ hunit]
    exact_mod_cast Rat.le_floor_iff.1 hb.ge
  have habove : i.value < (b + 1 : ℕ) * 10 ^ k := by
    rw [← div_lt_iff₀ hunit]
    have hlt : (i.value / 10 ^ k).floor < (b + 1 : ℕ) := by omega
    exact_mod_cast Rat.floor_lt_iff.1 hlt
  have hpos : 0 < b := by omega
  unfold Interval.onGrid
  rw [tenPow_eq, hb]
  dsimp only
  split
  · split <;> exact ⟨_, rfl⟩
  · exact ⟨_, rfl⟩
  · exact ⟨_, rfl⟩
  · rename_i hlower hupper
    exfalso
    have hle : (b : ℚ) * 10 ^ k ≤ i.low := by
      refine not_lt.1 fun hlt => ?_
      have hin : i.contains (Scaled.value ⟨b, k⟩) = true := by
        rw [Scaled.value, tenPow_eq]
        exact contains_of_lt hlt (hbelow.trans_lt hhigh)
      rw [Int.toNat_natCast, hin, decide_eq_true hpos] at hlower
      cases hlower
    have hge : i.high ≤ (b + 1 : ℕ) * 10 ^ k := by
      refine not_lt.1 fun hlt => ?_
      have hin : i.contains (Scaled.value ⟨b + 1, k⟩) = true := by
        rw [Scaled.value, tenPow_eq]
        exact contains_of_lt (hlow.trans habove) hlt
      rw [Int.toNat_natCast, hin] at hupper
      cases hupper
    push_cast at hge
    linarith

theorem contains_of_firstGrid (h : i.firstGrid fuel k = some s) : i.contains s.value = true := by
  induction fuel generalizing k with
  | zero => cases h
  | succ fuel ih =>
    rw [Interval.firstGrid] at h
    split at h
    · rename_i hgrid
      cases h
      exact contains_of_onGrid hgrid
    · exact ih h

theorem exists_firstGrid {j : ℕ} (hj : j < fuel) (h : ∃ s, i.onGrid (k - j) = some s) :
    ∃ s, i.firstGrid fuel k = some s := by
  induction fuel generalizing k j with
  | zero => exact absurd hj (Nat.not_lt_zero j)
  | succ fuel ih =>
    rw [Interval.firstGrid]
    split
    · exact ⟨_, rfl⟩
    · rename_i hnone
      cases j with
      | zero =>
        obtain ⟨s, hs⟩ := h
        rw [Nat.cast_zero, sub_zero, hnone] at hs
        cases hs
      | succ j =>
        refine ih (Nat.lt_of_succ_lt_succ hj) ?_
        rwa [sub_sub, add_comm, ← Nat.cast_succ]

/-! ## The shortest number -/

theorem contains_of_shortest (h : i.shortest digits = some s) : i.contains s.value = true :=
  contains_of_firstGrid h

/-- A number with the given digits is found when the interval is wider than the unit of the last one. -/
theorem exists_shortest (hpos : 0 < i.value) (hlow : i.low < i.value) (hhigh : i.value < i.high)
    (hwide : i.value < (i.high - i.low) * 10 ^ n) : ∃ s, i.shortest (n + 1) = some s := by
  have hten : (10 : ℚ) ≠ 0 := by norm_num
  have hpow : (0 : ℚ) < 10 ^ n := pow_pos (by norm_num) n
  have hmagnitude := magnitude_le hpos
  have hunit : (10 : ℚ) ^ (magnitude i.value - 1 - n) * 10 ^ n = 10 ^ (magnitude i.value - 1) := by
    rw [← zpow_natCast, ← zpow_add₀ hten, sub_add_cancel]
  refine exists_firstGrid (Nat.lt_succ_self n) (exists_onGrid hlow hhigh ?_ ?_)
  · exact (zpow_le_zpow_right₀ (by norm_num) (by omega)).trans hmagnitude
  · rw [← mul_lt_mul_iff_left₀ hpow, hunit]
    exact hmagnitude.trans_lt hwide

end Decimal
end MarkovCheck

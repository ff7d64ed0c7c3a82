import Mathlib
import MarkovCheck.Proofs.Decimal.Shortest

/-!
# MarkovCheck.Proofs.Decimal.Positional

Positional notation denotes the number that is written.

The zeros in front do not change the value of the digits, and each zero at the end that is dropped is a
factor of ten, for which the fraction has one place less.

* `IsPositional` — the parts of the text.
-/

namespace MarkovCheck
namespace Decimal

/-! ## The value of digits -/

theorem digitsValue_eq (ds : List Char) : digitsValue ds = Nat.ofDigitChars 10 ds 0 := by
  simp only [digitsValue, Nat.ofDigitChars_eq_foldl, Nat.mul_comm 10]

theorem digitsValue_digitsOf (n : ℕ) : digitsValue (digitsOf n) = n := by
  rw [digitsValue_eq, digitsOf, Nat.ofDigitChars_ten_toDigits]

theorem digitsValue_zeros_append (n : ℕ) (ds : List Char) :
    digitsValue (List.replicate n '0' ++ ds) = digitsValue ds := by
  rw [digitsValue_eq, digitsValue_eq, Nat.ofDigitChars_append, Nat.ofDigitChars_replicate_zero, mul_zero]

theorem digitsValue_append_zeros (ds : List Char) (n : ℕ) :
    digitsValue (ds ++ List.replicate n '0') = digitsValue ds * 10 ^ n := by
  rw [digitsValue_eq, digitsValue_eq, Nat.ofDigitChars_append, Nat.ofDigitChars_replicate_zero, mul_comm]

theorem stripZeros_append (ds : List Char) :
    ∃ n, ds = stripZeros ds ++ List.replicate n '0' := by
  refine ⟨(ds.reverse.takeWhile (· == '0')).length, ?_⟩
  have hzeros : ds.reverse.takeWhile (· == '0') =
      List.replicate (ds.reverse.takeWhile (· == '0')).length '0' := by
    refine List.eq_replicate_of_mem fun c hc => ?_
    have hzero : (c == '0') = true := List.mem_takeWhile_imp (p := (· == '0')) hc
    exact beq_iff_eq.1 hzero
  rw [stripZeros, ← List.reverse_replicate, ← hzeros, ← List.reverse_append,
    List.takeWhile_append_dropWhile, List.reverse_reverse]

/-- Zeros at the end of a fraction do not count. -/
theorem value_stripZeros (ds es : List Char) :
    (digitsValue (ds ++ stripZeros es) : ℚ) * tenPow (-((stripZeros es).length : ℤ)) =
      digitsValue (ds ++ es) * tenPow (-(es.length : ℤ)) := by
  obtain ⟨n, hn⟩ := stripZeros_append es
  have hlength : (es.length : ℤ) = (stripZeros es).length + n := by
    conv_lhs => rw [hn, List.length_append, List.length_replicate]
    exact Nat.cast_add _ _
  have hvalue : digitsValue (ds ++ es) = digitsValue (ds ++ stripZeros es) * 10 ^ n := by
    conv_lhs => rw [hn, ← List.append_assoc, digitsValue_append_zeros]
  have hscale : (10 : ℚ) ^ n * 10 ^ (-(es.length : ℤ)) = 10 ^ (-((stripZeros es).length : ℤ)) := by
    rw [← zpow_natCast, ← zpow_add₀ (by norm_num), hlength]
    congr 1
    omega
  rw [tenPow_eq, tenPow_eq, ← hscale, ← mul_assoc, hvalue]
  push_cast
  rfl

/-! ## The parts of the text -/

/-- The text of a number consists of digits, and of a point and more digits if there is a fraction. -/
structure IsPositional (s : Scaled) (integral fractional : List Char) : Prop where
  text : s.positional = if fractional = [] then integral else integral ++ '.' :: fractional
  integral_ne_nil : integral ≠ []
  isDigit : ∀ c ∈ integral ++ fractional, c.isDigit = true
  value : (digitsValue (integral ++ fractional) : ℚ) * tenPow (-(fractional.length : ℤ)) = s.value

theorem isDigit_digitsOf (n : ℕ) : ∀ c ∈ digitsOf n, c.isDigit = true := fun _ hc =>
  Nat.isDigit_of_mem_toDigits (by decide) (by decide) hc

theorem isDigit_zeros (n : ℕ) : ∀ c ∈ List.replicate n '0', c.isDigit = true := fun c hc => by
  rw [List.eq_of_mem_replicate hc]
  decide

theorem isPositional_whole (n k : ℕ) :
    IsPositional ⟨n, k⟩ (digitsOf n ++ List.replicate k '0') [] where
  text := rfl
  integral_ne_nil := List.append_ne_nil_of_left_ne_nil Nat.toDigits_ne_nil _
  isDigit := by
    rw [List.append_nil]
    exact List.forall_mem_append.2 ⟨isDigit_digitsOf n, isDigit_zeros k⟩
  value := by
    rw [List.append_nil, digitsValue_append_zeros, digitsValue_digitsOf, Scaled.value, tenPow_eq, tenPow_eq,
      List.length_nil, Nat.cast_zero, neg_zero, zpow_zero, mul_one, zpow_natCast]
    push_cast
    rfl

/-- The padding leaves a digit in front of the point. -/
theorem lt_length_padded (places : ℕ) (ds : List Char) :
    places < (List.replicate (places + 1 - ds.length) '0' ++ ds).length := by
  rw [List.length_append, List.length_replicate]
  omega

theorem isPositional_fraction {n k : ℕ} {padded : List Char}
    (hpadded : padded = List.replicate (k + 1 + 1 - (digitsOf n).length) '0' ++ digitsOf n) :
    IsPositional ⟨n, Int.negSucc k⟩ (padded.take (padded.length - (k + 1)))
      (stripZeros (padded.drop (padded.length - (k + 1)))) where
  text := by
    rw [hpadded]
    simp only [Scaled.positional, List.isEmpty_iff]
  integral_ne_nil := by
    have hlt := lt_length_padded (k + 1) (digitsOf n)
    rw [← hpadded] at hlt
    refine List.length_pos_iff.1 ?_
    rw [List.length_take]
    omega
  isDigit := by
    have hdigit : ∀ c ∈ padded, c.isDigit = true := by
      rw [hpadded]
      exact List.forall_mem_append.2 ⟨isDigit_zeros _, isDigit_digitsOf n⟩
    refine List.forall_mem_append.2 ⟨fun c hc => hdigit c (List.mem_of_mem_take hc), fun c hc => ?_⟩
    obtain ⟨z, hz⟩ := stripZeros_append (padded.drop (padded.length - (k + 1)))
    refine hdigit c (List.mem_of_mem_drop (i := padded.length - (k + 1)) ?_)
    rw [hz]
    exact List.mem_append_left _ hc
  value := by
    have hlt := lt_length_padded (k + 1) (digitsOf n)
    rw [← hpadded] at hlt
    have hplaces : (padded.drop (padded.length - (k + 1))).length = k + 1 := by
      rw [List.length_drop]
      omega
    rw [value_stripZeros, hplaces, List.take_append_drop, hpadded, digitsValue_zeros_append,
      digitsValue_digitsOf]
    rfl

theorem exists_isPositional (s : Scaled) : ∃ integral fractional, IsPositional s integral fractional := by
  obtain ⟨n, k | k⟩ := s
  · exact ⟨_, _, isPositional_whole n k⟩
  · exact ⟨_, _, isPositional_fraction rfl⟩

end Decimal
end MarkovCheck

import Mathlib
import MarkovCheck.Double.Text
import MarkovCheck.Proofs.Decimal.Literal
import MarkovCheck.Proofs.Decimal.Positional
import MarkovCheck.Proofs.Double.Nearest
import MarkovCheck.Proofs.Text.Integer

/-!
# MarkovCheck.Proofs.Double.Text

The text of a double is read back as the double.

The digits of the text are a number in the rounding interval of the double, and all numbers of the
interval round to it. Seventeen digits are enough for that, because the interval of a double is wider than
the last of them. The places of the number are in the range in which reading does round.

* `ofText?_toText` — the text of what is not NaN is read back.
* `isWord_toText`  — the text is a word.
-/

namespace MarkovCheck

variable {c : Char}

/-! ## Digits and points -/

namespace Decimal

variable {s : Scaled} {integral fractional : List Char}

namespace IsPositional

variable (h : IsPositional s integral fractional)

include h

theorem isDigit_or_point (hc : c ∈ s.positional) : c.isDigit = true ∨ c = '.' := by
  rw [h.text] at hc
  split at hc
  · exact .inl (h.isDigit c (List.mem_append_left _ hc))
  · rw [List.mem_append, List.mem_cons] at hc
    rcases hc with hc | rfl | hc
    · exact .inl (h.isDigit c (List.mem_append_left _ hc))
    · exact .inr rfl
    · exact .inl (h.isDigit c (List.mem_append_right _ hc))

/-- The text begins with a digit. -/
theorem exists_cons : ∃ c rest, c.isDigit = true ∧ s.positional = c :: rest := by
  obtain ⟨c, rest, hcons⟩ := List.exists_cons_of_ne_nil h.integral_ne_nil
  have hdigit : c.isDigit = true := h.isDigit c (List.mem_append_left _ (hcons ▸ List.mem_cons_self))
  rw [h.text]
  split
  · exact ⟨c, rest, hdigit, hcons⟩
  · exact ⟨c, rest ++ '.' :: fractional, hdigit, by rw [hcons, List.cons_append]⟩

end IsPositional

theorem isBlank_positional (h : c ∈ s.positional) : Text.isBlank c = false := by
  obtain ⟨integral, fractional, hs⟩ := exists_isPositional s
  rcases hs.isDigit_or_point h with hdigit | rfl
  · exact Text.isBlank_digit hdigit
  · decide

end Decimal

namespace Double

theorem isBlank_finiteText {d : Double} (h : c ∈ d.finiteText) : Text.isBlank c = false := by
  unfold finiteText at h
  split at h
  · exact Decimal.isBlank_positional h
  · cases h

theorem isBlank_toText {d : Double} (h : c ∈ d.toText.toList) : Text.isBlank c = false := by
  have hbody : ∀ c ∈ (if d.isInfinite then "inf".toList else if d.isZero then ['0'] else d.abs.finiteText),
      Text.isBlank c = false := by
    split
    · exact Text.isBlank_of_all (by decide)
    · split
      · exact Text.isBlank_of_all (by decide)
      · exact fun c hc => isBlank_finiteText hc
  unfold toText at h
  split at h
  · exact Text.isBlank_of_all (by decide) c h
  · dsimp only at h
    rw [String.toList_ofList] at h
    split at h
    · rcases List.mem_cons.1 h with rfl | h
      · decide
      · exact hbody c h
    · exact hbody c h

/-! ## Reading decimal numbers -/

section Reading

variable {s : Decimal.Scaled} {integral fractional : List Char} {r : ℚ}

/-- In the range of doubles, the double nearest to a decimal number is the one nearest to its value. -/
theorem nearestDecimal_eq (hvalue : (Decimal.digitsValue (integral ++ fractional) : ℚ) *
      Decimal.tenPow (-(fractional.length : ℤ)) = r)
    (hlow : (10 : ℚ) ^ (-324 : ℤ) ≤ r) (hhigh : r < 10 ^ (309 : ℤ)) :
    nearestDecimal integral fractional 0 = ofRat r := by
  have hone : (1 : ℚ) < 10 := by norm_num
  have hdigits : Decimal.digitsValue (integral ++ fractional) ≠ 0 := fun hzero => by
    rw [hzero, Nat.cast_zero, zero_mul] at hvalue
    exact (zpow_pos (by norm_num) _).not_ge (hlow.trans_eq hvalue.symm)
  obtain ⟨hfirst, hlast⟩ :=
    Decimal.length_spec (Nat.pos_of_ne_zero hdigits) (-(fractional.length : ℤ))
  rw [← Decimal.tenPow_eq (-_), hvalue] at hfirst hlast
  have hmost := (zpow_lt_zpow_iff_right₀ hone).1 (hfirst.trans_lt hhigh)
  have hleast := (zpow_lt_zpow_iff_right₀ hone).1 (hlow.trans_lt hlast)
  unfold nearestDecimal
  dsimp only
  rw [if_neg hdigits, zero_sub, if_neg (by omega), if_neg (by omega), hvalue]

theorem ofUnsignedText?_positional (h : Decimal.IsPositional s integral fractional) :
    ofUnsignedText? s.positional = some (nearestDecimal integral fractional 0) := by
  have hmark : ∀ c ∈ s.positional, Decimal.isExponentMark c = false := fun c hc => by
    rcases h.isDigit_or_point hc with hdigit | rfl
    · refine Bool.eq_false_iff.2 fun hmark => ?_
      rcases Bool.or_eq_true_iff.1 hmark with he | he <;> rw [beq_iff_eq.1 he] at hdigit <;> cases hdigit
    · decide
  have hpoint : ∀ c ∈ integral, (c == '.') = false := fun c hc => by
    refine beq_eq_false_iff_ne.2 fun hpoint => ?_
    have hdigit := h.isDigit c (List.mem_append_left _ hc)
    rw [hpoint] at hdigit
    cases hdigit
  have hsplit : ∃ rest, Decimal.splitAtFirst (· == '.') s.positional = (integral, rest) ∧
      rest.getD [] = fractional := by
    rw [h.text]
    split
    · rename_i hnil
      exact ⟨none, Decimal.splitAtFirst_of_forall hpoint, hnil.symm⟩
    · exact ⟨some fractional, Decimal.splitAtFirst_append hpoint rfl fractional, rfl⟩
  obtain ⟨rest, hsplit, hrest⟩ := hsplit
  have hdigits : (integral ++ fractional).all Char.isDigit = true := List.all_eq_true.2 h.isDigit
  have hnonempty : integral.isEmpty = false := Bool.eq_false_iff.2 (mt List.isEmpty_iff.1 h.integral_ne_nil)
  unfold ofUnsignedText?
  rw [Decimal.splitAtFirst_of_forall hmark]
  dsimp only
  rw [hsplit]
  dsimp only
  rw [hrest, hdigits, hnonempty]
  rfl

end Reading

/-! ## The digits of a double -/

section Digits

variable {x : Double} {r : ℚ}

theorem exists_shortest (hzero : x.magnitude ≠ 0) :
    ∃ s, x.roundingInterval.shortest sufficientDigits = some s := by
  have hunit : (0 : ℚ) < 2 ^ x.exponent := zpow_pos two_pos _
  have hsignificand : (1 : ℚ) ≤ x.significand := by exact_mod_cast significand_pos hzero
  have hlt : (x.significand : ℚ) < 2 ^ 53 := by exact_mod_cast significand_lt x
  have hgap := x.gapBelow_pos
  -- The interval is one unit wide, or three quarters of one when the significand is the least.
  have hwide : (x.significand : ℚ) < (x.gapBelow + 1 / 2) * 10 ^ 16 := by
    unfold gapBelow
    split
    · rename_i h
      rw [h.1]
      norm_num
    · linarith
  have hvalue : x.roundingInterval.value < (x.roundingInterval.high - x.roundingInterval.low) * 10 ^ 16 := by
    rw [roundingInterval_eq]
    calc (x.significand : ℚ) * 2 ^ x.exponent
        < (x.gapBelow + 1 / 2) * 10 ^ 16 * 2 ^ x.exponent := mul_lt_mul_of_pos_right hwide hunit
      _ = ((x.significand + 1 / 2) * 2 ^ x.exponent - (x.significand - x.gapBelow) * 2 ^ x.exponent) *
          10 ^ 16 := by ring
  refine Decimal.exists_shortest ?_ ?_ ?_ hvalue <;> rw [roundingInterval_eq]
  · exact mul_pos (by linarith) hunit
  · exact mul_lt_mul_of_pos_right (by linarith) hunit
  · exact mul_lt_mul_of_pos_right (by linarith) hunit

theorem tenPow_le_half_least : (10 : ℚ) ^ (-324 : ℤ) ≤ 1 / 2 * 2 ^ leastExponent := by
  have hpow : (2 : ℚ) ^ 1075 ≤ 10 ^ 324 := by
    exact_mod_cast show 2 ^ 1075 ≤ 10 ^ 324 by decide +kernel
  calc (10 : ℚ) ^ (-324 : ℤ) = (10 ^ 324)⁻¹ := by rw [zpow_neg, zpow_ofNat]
    _ ≤ (2 ^ 1075)⁻¹ := inv_anti₀ (pow_pos two_pos 1075) hpow
    _ = 1 / 2 * 2 ^ leastExponent := by
      rw [leastExponent, zpow_neg, zpow_ofNat, one_div, ← mul_inv, ← pow_succ']

theorem greatest_lt_tenPow : (2 : ℚ) ^ 53 * 2 ^ (971 : ℤ) < 10 ^ (309 : ℤ) := by
  have hpow : (2 : ℚ) ^ 1024 < 10 ^ 309 := by
    exact_mod_cast show 2 ^ 1024 < 10 ^ 309 by decide +kernel
  rwa [zpow_ofNat, zpow_ofNat, ← pow_add]

/-- What rounds to a double that is neither zero nor infinite is in the range of doubles. -/
theorem range_of_contains (hzero : x.magnitude ≠ 0) (hfinite : x.magnitude < infinityBits)
    (h : x.roundingInterval.contains r = true) :
    (10 : ℚ) ^ (-324 : ℤ) ≤ r ∧ r < 10 ^ (309 : ℤ) := by
  have hunit : (0 : ℚ) < 2 ^ x.exponent := zpow_pos two_pos _
  have hone : (1 : ℚ) ≤ x.significand := by exact_mod_cast significand_pos hzero
  have hlt : (x.significand : ℚ) + 1 ≤ 2 ^ 53 := by exact_mod_cast significand_lt x
  have hgap := x.gapBelow_le
  obtain ⟨hlow, hhigh, -⟩ := near_of_contains h
  rw [le_div_iff₀ hunit] at hlow
  rw [div_le_iff₀ hunit] at hhigh
  have hleast : (2 : ℚ) ^ leastExponent ≤ 2 ^ x.exponent :=
    zpow_le_zpow_right₀ one_le_two (leastExponent_le_exponent x)
  have hmost : (2 : ℚ) ^ x.exponent ≤ 2 ^ (971 : ℤ) := zpow_le_zpow_right₀ one_le_two (exponent_le hfinite)
  constructor
  · calc (10 : ℚ) ^ (-324 : ℤ) ≤ 1 / 2 * 2 ^ leastExponent := tenPow_le_half_least
      _ ≤ 1 / 2 * 2 ^ x.exponent := mul_le_mul_of_nonneg_left hleast (by norm_num)
      _ ≤ (x.significand - x.gapBelow) * 2 ^ x.exponent :=
          mul_le_mul_of_nonneg_right (by linarith) hunit.le
      _ ≤ r := hlow
  · calc r ≤ (x.significand + 1 / 2) * 2 ^ x.exponent := hhigh
      _ ≤ 2 ^ 53 * 2 ^ x.exponent := mul_le_mul_of_nonneg_right (by linarith) hunit.le
      _ ≤ 2 ^ 53 * 2 ^ (971 : ℤ) := mul_le_mul_of_nonneg_left hmost (by norm_num)
      _ < 10 ^ (309 : ℤ) := greatest_lt_tenPow

/-- The digits of a positive finite double are read back, and they begin with a digit. -/
theorem ofUnsignedText?_finiteText (hsign : x.isNegative = false) (hzero : x.magnitude ≠ 0)
    (hfinite : x.magnitude < infinityBits) :
    ofUnsignedText? x.finiteText = some x ∧ ∃ c rest, c.isDigit = true ∧ x.finiteText = c :: rest := by
  obtain ⟨s, hs⟩ := exists_shortest hzero
  obtain ⟨integral, fractional, hparts⟩ := Decimal.exists_isPositional s
  have hcontains := Decimal.contains_of_shortest hs
  obtain ⟨hlow, hhigh⟩ := range_of_contains hzero hfinite hcontains
  have hpos : 0 < s.value := (zpow_pos (by norm_num) _).trans_le hlow
  have htext : x.finiteText = s.positional := by rw [finiteText, hs]
  rw [htext]
  refine ⟨?_, hparts.exists_cons⟩
  rw [ofUnsignedText?_positional hparts, nearestDecimal_eq hparts.value hlow hhigh,
    ofRat_eq_of_contains hsign hfinite hpos hcontains]

end Digits

/-! ## Signs and words -/

section Words

variable {s : List Char} {d : Double}

theorem splitSign_digit (hdigit : c.isDigit = true) (rest : List Char) :
    Decimal.splitSign (c :: rest) = (false, c :: rest) := by
  unfold Decimal.splitSign
  split
  · rename_i h
    cases h
    cases hdigit
  · rename_i h
    cases h
    cases hdigit
  · rfl

theorem toLower_digit (hdigit : c.isDigit = true) : c.toLower = c := by
  obtain ⟨-, hhigh⟩ : 48 ≤ c.toNat ∧ c.toNat ≤ 57 := Char.isDigit_iff_toNat.1 hdigit
  refine dif_neg fun hupper => ?_
  have hlow : 65 ≤ c.toNat := UInt32.le_iff_toNat_le.1 hupper.1
  omega

/-- What begins with a digit is not a word. -/
theorem ofText?_digit (hdigit : c.isDigit = true) (rest : List Char) :
    ofText? (c :: rest) = ofUnsignedText? (c :: rest) := by
  have hword : ∀ x xs, x.isDigit = false →
      (String.ofList ((c :: rest).map Char.toLower) == String.ofList (x :: xs)) = false := by
    intro x xs hx
    refine beq_eq_false_iff_ne.2 fun h => ?_
    rw [List.map_cons, toLower_digit hdigit, String.ofList_inj] at h
    rw [← (List.cons.inj h).1, hdigit] at hx
    cases hx
  have hinf := hword 'i' ['n', 'f'] rfl
  have hinfinity := hword 'i' ['n', 'f', 'i', 'n', 'i', 't', 'y'] rfl
  have hnan := hword 'n' ['a', 'n'] rfl
  unfold ofText?
  rw [splitSign_digit hdigit]
  dsimp only
  rw [show "inf" = String.ofList ['i', 'n', 'f'] from rfl,
    show "infinity" = String.ofList ['i', 'n', 'f', 'i', 'n', 'i', 't', 'y'] from rfl,
    show "nan" = String.ofList ['n', 'a', 'n'] from rfl, hinf, hinfinity, hnan]
  exact Option.map_id'

/-- A sign in front of a text without one. -/
theorem ofText?_minus (h : Decimal.splitSign s = (false, s)) :
    ofText? ('-' :: s) = (ofText? s).map neg := by
  unfold ofText?
  rw [h, show Decimal.splitSign ('-' :: s) = (true, s) from rfl]
  dsimp only
  rw [Option.map_map]
  rfl

theorem neg_abs (hnan : d.isNaN = false) (hsign : d.isNegative = true) : d.abs.neg = d := by
  have hle : d.magnitude.toNat ≤ infinityBits.toNat :=
    UInt64.le_iff_toNat_le.1 (UInt64.not_lt.1 (of_decide_eq_false hnan))
  exact ext_of_magnitude ((isNegative_neg_of_le hle).trans hsign.symm) (magnitude_neg_of_le hle)

/-- The text without its sign. -/
theorem ofText?_body (hnan : d.isNaN = false) :
    ∃ body, d.toText.toList = (if d.isNegative then '-' :: body else body) ∧
      Decimal.splitSign body = (false, body) ∧ ofText? body = some d.abs := by
  have hle : d.magnitude ≤ infinityBits := UInt64.not_lt.1 (of_decide_eq_false hnan)
  refine ⟨if d.isInfinite then "inf".toList else if d.isZero then ['0'] else d.abs.finiteText, ?_, ?_⟩
  · rw [toText, if_neg (Bool.eq_false_iff.1 hnan)]
    exact String.toList_ofList
  · split
    · rename_i hinfinite
      have habs : d.abs = infinity := congrArg Double.mk (beq_iff_eq.1 hinfinite)
      rw [habs]
      exact ⟨rfl, by decide⟩
    · rename_i hinfinite
      split
      · rename_i hzero
        have habs : d.abs = zero := congrArg Double.mk (beq_iff_eq.1 hzero)
        rw [habs]
        exact ⟨rfl, by decide⟩
      · rename_i hzero
        have hfinite : d.abs.magnitude < infinityBits := by
          rw [magnitude_abs]
          exact UInt64.lt_of_le_of_ne hle (mt beq_iff_eq.2 hinfinite)
        have hpositive : d.abs.magnitude ≠ 0 := by
          rw [magnitude_abs]
          exact mt beq_iff_eq.2 hzero
        obtain ⟨hread, c, rest, hdigit, htext⟩ :=
          ofUnsignedText?_finiteText (isNegative_abs d) hpositive hfinite
        rw [htext] at hread ⊢
        exact ⟨splitSign_digit hdigit rest, (ofText?_digit hdigit rest).trans hread⟩

/-- The text of a double that is not NaN is read back. -/
theorem ofText?_toText (hnan : d.isNaN = false) : ofText? d.toText.toList = some d := by
  obtain ⟨body, htext, hbody, hread⟩ := ofText?_body hnan
  rw [htext]
  cases hsign : d.isNegative with
  | true =>
    rw [if_pos rfl, ofText?_minus hbody, hread, Option.map_some, neg_abs hnan hsign]
  | false =>
    rw [if_neg Bool.false_ne_true, hread, abs_of_nonneg hsign]

theorem isWord_toText (hnan : d.isNaN = false) : Text.IsWord d.toText.toList where
  ne_nil hnil := by
    have hread := ofText?_toText hnan
    have hnone : ofText? [] = none := by decide +kernel
    rw [hnil, hnone] at hread
    cases hread
  not_blank _ hc := isBlank_toText hc

end Words

end Double
end MarkovCheck

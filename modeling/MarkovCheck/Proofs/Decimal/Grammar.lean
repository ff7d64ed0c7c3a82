import Mathlib
import MarkovCheck.Proofs.Decimal.Literal
import MarkovCheck.Proofs.Decimal.Positional
import MarkovCheck.Proofs.Text.Integer

/-!
# MarkovCheck.Proofs.Decimal.Grammar

The decimal literals are what is read, and the number that they denote is the result.

A literal is an optional sign, digits with at most one point, and an optional exponent of 32 bits. The parts of
a text are found by splitting at the mark of the exponent, taking off a sign and splitting at the point; no
part holds a character at which another one is split, so each text has one reading. The number of fractional
digits is taken off the exponent with integers of 32 bits too, which is exact unless it overflows.

* `IsMantissa`, `IsExponent`, `IsLiteral` — the grammar of literals.
* `readLiteral_eq_some_iff` — what is read are the texts of the grammar.
* `IsDecimal`   — a literal between blanks.
* `read_exact`  — which texts have a value, and which one.
-/

namespace MarkovCheck
namespace Decimal

open Text (IsSign signed IsInteger)

/-! ## The grammar -/

/-- Digits in front of the point and after it; there need not be a point. -/
inductive IsMantissa : List Char → List Char → List Char → Prop
  | whole (integral : List Char) : IsMantissa integral integral []
  | pointed (integral fractional : List Char) :
    IsMantissa (integral ++ '.' :: fractional) integral fractional

/-- An optional exponent, which is an integer of 32 bits. -/
inductive IsExponent : List Char → ℤ → Prop
  | absent : IsExponent [] 0
  | present {mark : Char} {s : List Char} {e : ℤ} (hmark : mark = 'e' ∨ mark = 'E')
    (h : IsInteger (2 ^ 31) (2 ^ 31 - 1) s e) : IsExponent (mark :: s) e

/-- The text of a literal: a sign, at least one digit, and an exponent. -/
structure IsLiteral (s : List Char) (l : Literal) : Prop where
  parts : ∃ sign mantissa exponent, s = sign ++ mantissa ++ exponent ∧ IsSign sign l.negative ∧
    IsMantissa mantissa l.integral l.fractional ∧ IsExponent exponent l.exponent
  ne_nil : l.integral ++ l.fractional ≠ []
  isDigit : ∀ c ∈ l.integral ++ l.fractional, c.isDigit = true

/-- A literal between blanks. -/
def IsDecimal (text : List Char) (l : Literal) : Prop :=
  ∃ before after s, (∀ c ∈ before, Text.isBlank c = true) ∧ (∀ c ∈ after, Text.isBlank c = true) ∧
    text = before ++ (s ++ after) ∧ IsLiteral s l

/-! ## Parts of a text -/

section Parts

variable {s sign mantissa exponent integral fractional before : List Char} {negative : Bool} {e : ℤ}
  {p : Char → Bool}

theorem splitAtFirst_eq_none (h : splitAtFirst p s = (before, none)) : s = before := by
  induction s generalizing before with
  | nil => exact (Prod.mk.inj h).1
  | cons c s ih =>
    rw [splitAtFirst] at h
    split at h
    · cases h
    · obtain ⟨rfl, hafter⟩ := Prod.mk.inj h
      exact congrArg (c :: ·) (ih (Prod.ext rfl hafter))

/-- A sign is taken off, and there is none to take off a text that starts with none. -/
theorem isSign_splitSign (s : List Char) :
    ∃ sign, s = sign ++ (splitSign s).2 ∧ IsSign sign (splitSign s).1 := by
  unfold splitSign
  split
  · exact ⟨['-'], rfl, .minus⟩
  · exact ⟨['+'], rfl, .plus⟩
  · exact ⟨[], rfl, .absent⟩

theorem splitSign_append (hsign : IsSign sign negative)
    (h : ∀ c ∈ mantissa.head?, c ≠ '-' ∧ c ≠ '+') : splitSign (sign ++ mantissa) = (negative, mantissa) := by
  cases hsign with
  | absent =>
    rw [List.nil_append]
    unfold splitSign
    split
    · exact absurd rfl (h '-' rfl).1
    · exact absurd rfl (h '+' rfl).2
    · rfl
  | plus => rfl
  | minus => rfl

theorem not_isExponentMark {c : Char} (h : c.isDigit = true ∨ c = '.' ∨ c = '-' ∨ c = '+') :
    isExponentMark c = false := by
  rcases h with h | rfl | rfl | rfl
  · refine Bool.eq_false_iff.2 fun hmark => ?_
    rw [isExponentMark, Bool.or_eq_true, beq_iff_eq, beq_iff_eq] at hmark
    rcases hmark with rfl | rfl <;> cases h
  all_goals rfl

theorem ne_point {c : Char} (h : c.isDigit = true) : (c == '.') = false :=
  beq_eq_false_iff_ne.2 fun hc => by cases hc ▸ h

theorem mem_sign (h : IsSign sign negative) {c : Char} (hc : c ∈ sign) : c = '-' ∨ c = '+' := by
  cases h with
  | absent => cases hc
  | plus => exact .inr (List.mem_singleton.1 hc)
  | minus => exact .inl (List.mem_singleton.1 hc)

theorem mem_mantissa (h : IsMantissa mantissa integral fractional) {c : Char} (hc : c ∈ mantissa) :
    c ∈ integral ++ fractional ∨ c = '.' := by
  cases h with
  | whole => exact .inl (List.mem_append_left _ hc)
  | pointed =>
    rcases List.mem_append.1 hc with hc | hc
    · exact .inl (List.mem_append_left _ hc)
    · exact (List.mem_cons.1 hc).symm.imp_left (List.mem_append_right _)

theorem IsMantissa.eq_nil (h : IsMantissa mantissa integral fractional) (hnil : mantissa = []) :
    integral ++ fractional = [] := by
  cases h with
  | whole => rw [hnil, List.append_nil]
  | pointed => exact absurd hnil (List.append_ne_nil_of_right_ne_nil _ (List.cons_ne_nil _ _))

theorem IsExponent.bounds (h : IsExponent exponent e) : -2 ^ 31 ≤ e ∧ e < 2 ^ 31 := by
  cases h with
  | absent => decide
  | present _ h =>
    have := h.least_le
    have := h.le_greatest
    omega

theorem mem_exponent (h : IsExponent exponent e) {c : Char} (hc : c ∈ exponent) :
    c = 'e' ∨ c = 'E' ∨ c = '-' ∨ c = '+' ∨ c.isDigit = true := by
  cases h with
  | absent => cases hc
  | present hmark h =>
    rcases List.mem_cons.1 hc with rfl | hc
    · exact hmark.imp_right .inl
    · obtain ⟨sign, digits, negative, rfl, hsign, -, hdigits, -⟩ := h.parts
      rcases List.mem_append.1 hc with hc | hc
      · exact .inr (.inr ((mem_sign hsign hc).imp_right .inl))
      · exact .inr (.inr (.inr (.inr (hdigits c hc))))

theorem splitAtFirst_mantissa (h : IsMantissa mantissa integral fractional)
    (hdigits : ∀ c ∈ integral ++ fractional, c.isDigit = true) :
    ∃ rest, splitAtFirst (· == '.') mantissa = (integral, rest) ∧ rest.getD [] = fractional := by
  have hintegral : ∀ c ∈ integral, (c == '.') = false := fun c hc =>
    ne_point (hdigits c (List.mem_append_left _ hc))
  cases h with
  | whole => exact ⟨none, splitAtFirst_of_forall hintegral, rfl⟩
  | pointed => exact ⟨some fractional, splitAtFirst_append hintegral rfl fractional, rfl⟩

/-- The text in front of the exponent, and the exponent. -/
theorem splitAtFirst_exponent (h : IsExponent exponent e) (hs : ∀ c ∈ s, isExponentMark c = false) :
    ∃ rest, splitAtFirst isExponentMark (s ++ exponent) = (s, rest) ∧ readExponent rest = some e := by
  cases h with
  | absent =>
    rw [List.append_nil]
    exact ⟨none, splitAtFirst_of_forall hs, rfl⟩
  | @present mark t e hmark h =>
    have hmark : isExponentMark mark = true := by
      rcases hmark with rfl | rfl <;> rfl
    refine ⟨some t, splitAtFirst_append hs hmark t, ?_⟩
    have hread : Text.readInt32 t = .ok e := Text.readInt_eq_ok_iff.2 h
    rw [readExponent, hread]

theorem isExponent_of_readExponent {rest : Option (List Char)}
    (hsplit : splitAtFirst isExponentMark s = (before, rest)) (h : readExponent rest = some e) :
    ∃ exponent, s = before ++ exponent ∧ IsExponent exponent e := by
  cases rest with
  | none =>
    cases h
    exact ⟨[], (splitAtFirst_eq_none hsplit).trans (List.append_nil _).symm, .absent⟩
  | some t =>
    obtain ⟨-, mark, hmark, rfl⟩ := splitAtFirst_eq_some_iff.1 hsplit
    rw [isExponentMark, Bool.or_eq_true, beq_iff_eq, beq_iff_eq] at hmark
    rw [readExponent] at h
    split at h
    · rename_i hread
      cases h
      exact ⟨mark :: t, rfl, .present hmark (Text.readInt_eq_ok_iff.1 hread)⟩
    · cases h

theorem isMantissa_splitAtFirst (mantissa : List Char) :
    IsMantissa mantissa (splitAtFirst (· == '.') mantissa).1
      ((splitAtFirst (· == '.') mantissa).2.getD []) := by
  cases h : splitAtFirst (· == '.') mantissa with
  | mk integral rest =>
    cases rest with
    | none =>
      rw [splitAtFirst_eq_none h]
      exact .whole _
    | some fractional =>
      obtain ⟨-, c, hc, rfl⟩ := splitAtFirst_eq_some_iff.1 h
      rw [beq_iff_eq] at hc
      subst hc
      exact .pointed _ _

end Parts

/-! ## Literals -/

section Literals

variable {s text : List Char} {l : Literal}

/-- What is read has the form of a literal. -/
theorem isLiteral_of_readLiteral (h : readLiteral s = some l) : IsLiteral s l := by
  unfold readLiteral at h
  cases hsplit : splitAtFirst isExponentMark s with
  | mk front rest =>
    rw [hsplit] at h
    dsimp only at h
    split at h
    · cases h
    · rename_i e hexponent
      obtain ⟨exponent, hs, he⟩ := isExponent_of_readExponent hsplit hexponent
      obtain ⟨sign, hfront, hsign⟩ := isSign_splitSign front
      have hmantissa := isMantissa_splitAtFirst (splitSign front).2
      split at h
      · cases h
      · rename_i hne
        split at h
        · rename_i hdigits
          cases h
          refine ⟨⟨sign, _, exponent, ?_, hsign, hmantissa, he⟩, fun hnil => hne ?_,
            List.all_eq_true.1 hdigits⟩
          · rw [← hfront, hs]
          · rw [Bool.and_eq_true, List.isEmpty_iff, List.isEmpty_iff]
            exact List.append_eq_nil_iff.1 hnil
        · cases h

/-- Every literal is read, and each of its parts is found. -/
theorem IsLiteral.readLiteral_eq (h : IsLiteral s l) : readLiteral s = some l := by
  obtain ⟨⟨sign, mantissa, exponent, rfl, hsign, hmantissa, he⟩, hne, hdigits⟩ := h
  have hfront : ∀ c ∈ sign ++ mantissa, isExponentMark c = false := fun c hc => by
    refine not_isExponentMark ?_
    rcases List.mem_append.1 hc with hc | hc
    · exact .inr (.inr (mem_sign hsign hc))
    · exact (mem_mantissa hmantissa hc).imp (hdigits c) .inl
  have hhead : ∀ c ∈ mantissa.head?, c ≠ '-' ∧ c ≠ '+' := fun c hc => by
    rcases mem_mantissa hmantissa (List.mem_of_mem_head? hc) with hc | rfl
    · have hdigit := hdigits c hc
      exact ⟨fun h => (by cases h ▸ hdigit), fun h => (by cases h ▸ hdigit)⟩
    · decide
  obtain ⟨rest, hsplit, hexponent⟩ := splitAtFirst_exponent he hfront
  obtain ⟨rest', hpoint, hfractional⟩ := splitAtFirst_mantissa hmantissa hdigits
  have hnonempty : (l.integral.isEmpty && l.fractional.isEmpty) = false := by
    rw [Bool.eq_false_iff, ne_eq, Bool.and_eq_true, List.isEmpty_iff, List.isEmpty_iff,
      ← List.append_eq_nil_iff]
    exact hne
  simp only [readLiteral, hsplit, hexponent, splitSign_append hsign hhead, hpoint, hfractional, hnonempty,
    List.all_eq_true.2 hdigits, Bool.false_eq_true, if_false, if_true]

theorem readLiteral_eq_some_iff : readLiteral s = some l ↔ IsLiteral s l :=
  ⟨isLiteral_of_readLiteral, IsLiteral.readLiteral_eq⟩

/-- A literal is a word. -/
theorem IsLiteral.isWord (h : IsLiteral s l) : Text.IsWord s := by
  obtain ⟨sign, mantissa, exponent, rfl, hsign, hmantissa, he⟩ := h.parts
  constructor
  case ne_nil =>
    intro hnil
    obtain ⟨⟨-, rfl⟩, -⟩ := (List.append_eq_nil_iff.1 hnil).imp_left List.append_eq_nil_iff.1
    exact h.ne_nil (hmantissa.eq_nil rfl)
  case not_blank =>
    intro c hc
    rcases List.mem_append.1 hc with hc | hc
    · rcases List.mem_append.1 hc with hc | hc
      · rcases mem_sign hsign hc with rfl | rfl <;> rfl
      · rcases mem_mantissa hmantissa hc with hc | rfl
        · exact Text.isBlank_digit (h.isDigit c hc)
        · rfl
    · rcases mem_exponent he hc with rfl | rfl | rfl | rfl | hc
      all_goals first | rfl | exact Text.isBlank_digit hc

/-- Blanks at the ends do not count. -/
theorem isDecimal_iff : IsDecimal text l ↔ IsLiteral (Text.trim text) l := by
  constructor
  · rintro ⟨before, after, s, hbefore, hafter, rfl, h⟩
    rwa [Text.trim_blanks hbefore hafter h.isWord]
  · intro h
    obtain ⟨before, after, hbefore, hafter, htext⟩ := Text.exists_blanks text
    exact ⟨before, after, Text.trim text, hbefore, hafter, htext, h⟩

/-! ## Values -/

theorem signedDigits_eq (l : Literal) :
    l.signedDigits = signed l.negative (Nat.ofDigitChars 10 (l.integral ++ l.fractional) 0) := by
  rw [← digitsValue_eq]
  rfl

/-- The scale is exact, unless it is too small for 32 bits. -/
theorem shift?_eq (h : IsLiteral s l) (hlength : l.fractional.length < 2 ^ 31) :
    l.shift? = if -2 ^ 31 ≤ l.exponent - l.fractional.length then
      some (l.exponent - l.fractional.length) else none := by
  obtain ⟨-, -, exponent, -, -, -, he⟩ := h.parts
  obtain ⟨-, hlt⟩ := he.bounds
  have hmod : (l.fractional.length : ℤ).bmod (Nat.pow 2 32) = l.fractional.length :=
    Int.bmod_eq_of_le (by norm_num) (by norm_num; omega)
  have hfits : fitsInt32 (l.exponent - l.fractional.length) =
      decide (-2 ^ 31 ≤ l.exponent - l.fractional.length) := by
    rw [fitsInt32, decide_eq_true (by norm_num; omega : _ < (Nat.pow 2 31 : ℤ)), Bool.and_true]
    rfl
  rw [Literal.shift?, hmod]
  simp only [hfits, decide_eq_true_eq]

/-- A text without the form of a literal is no decimal. A literal denotes the signed number of its digits
times the power of ten for its exponent less the number of fractional digits, and this is what is read. When
that scale is below the integers of 32 bits, its computation overflows and nothing is read. -/
theorem read_exact (text : String) :
    (read text = .notDecimal ↔ ∀ l, ¬ IsDecimal text.toList l) ∧
      ∀ l, IsDecimal text.toList l → l.fractional.length < 2 ^ 31 →
        (-2 ^ 31 ≤ l.exponent - l.fractional.length → read text =
          .value (signed l.negative (Nat.ofDigitChars 10 (l.integral ++ l.fractional) 0) *
            10 ^ (l.exponent - l.fractional.length))) ∧
        (l.exponent - l.fractional.length < -2 ^ 31 → read text = .overflow) := by
  constructor
  · simp only [isDecimal_iff, ← readLiteral_eq_some_iff]
    unfold read
    split
    · rename_i l hl
      refine ⟨fun h => ?_, fun h => absurd hl (h l)⟩
      unfold Literal.read at h
      split at h <;> cases h
    · rename_i hnone
      exact ⟨fun _ l hl => Option.some_ne_none l (hl.symm.trans hnone), fun _ => rfl⟩
  · intro l hl hlength
    rw [isDecimal_iff] at hl
    have hread : read text = l.read := by
      unfold read
      rw [readLiteral_eq_some_iff.2 hl]
    have hshift := shift?_eq hl hlength
    refine ⟨fun hfits => ?_, fun hfits => ?_⟩
    · rw [if_pos hfits] at hshift
      simp only [hread, Literal.read, hshift, signedDigits_eq, tenPow_eq]
    · rw [if_neg (not_le.2 hfits)] at hshift
      simp only [hread, Literal.read, hshift]

/-- Minus two hundredths and a half, between blanks. -/
theorem read_exact_blanks : read " -.25E-1\n" = .value (-25 * 10 ^ (-3 : ℤ)) := by
  have h : IsDecimal " -.25E-1\n".toList ⟨true, [], ['2', '5'], -1⟩ :=
    isDecimal_iff.2 (readLiteral_eq_some_iff.1 (by decide +kernel))
  exact ((read_exact _).2 _ h (by decide)).1 (by decide)

/-- One tenth with the least exponent of 32 bits is a literal, but its scale is one less than that
exponent. -/
theorem read_overflow : ∃ l, IsDecimal "0.1e-2147483648".toList l ∧
    read "0.1e-2147483648" ≠
      .value (signed l.negative (Nat.ofDigitChars 10 (l.integral ++ l.fractional) 0) *
        10 ^ (l.exponent - l.fractional.length)) := by
  refine ⟨⟨false, ['0'], ['1'], -2147483648⟩,
    isDecimal_iff.2 (readLiteral_eq_some_iff.1 (by decide +kernel)), ?_⟩
  have hread : read "0.1e-2147483648" = .overflow := by decide +kernel
  rw [hread]
  intro h
  cases h

end Literals

end Decimal
end MarkovCheck

import Mathlib
import MarkovCheck.Proofs.Text.Field
import MarkovCheck.Text.Integer

/-!
# MarkovCheck.Proofs.Text.Integer

The decimal text of a number is read back as the number.

* `readNat_toDigits`, `readDigits_toDigits` — numbers up to the greatest one.
* `isWord_toDigits` — the text of a number is a word of digits.
* `readDigits_eq_ok_iff`, `readInt_eq_ok_iff` — the texts that are read, and the numbers they denote.
-/

namespace MarkovCheck
namespace Text

variable {greatest n value : ℕ} {digits : List Char} {c : Char}

theorem isBlank_digit (h : c.isDigit = true) : isBlank c = false := by
  obtain ⟨hlow, hhigh⟩ : 48 ≤ c.toNat ∧ c.toNat ≤ 57 := Char.isDigit_iff_toNat.1 h
  unfold isBlank
  simp
  omega

theorem le_ofDigitChars (value : ℕ) (digits : List Char) :
    value ≤ Nat.ofDigitChars 10 digits value := by
  rw [Nat.ofDigitChars_eq_ofDigitChars_zero]
  exact (Nat.le_mul_of_pos_left value (Nat.pow_pos (by decide))).trans (Nat.le_add_right _ _)

/-- Digits that denote a number up to the greatest one are read. -/
theorem readDigitsFrom_ofDigitChars (hdigits : ∀ c ∈ digits, c.isDigit = true)
    (hle : Nat.ofDigitChars 10 digits value ≤ greatest) :
    readDigitsFrom greatest value digits = .ok (Nat.ofDigitChars 10 digits value) := by
  induction digits generalizing value with
  | nil => rw [readDigitsFrom, Nat.ofDigitChars_nil]
  | cons c digits ih =>
    rw [List.forall_mem_cons] at hdigits
    rw [Nat.ofDigitChars_cons, Nat.mul_comm] at hle ⊢
    rw [readDigitsFrom, digit?, if_pos hdigits.1]
    dsimp only
    rw [if_pos ((le_ofDigitChars _ _).trans hle)]
    exact ih hdigits.2 hle

/-- What is read are digits, and the number that they denote is not too large. -/
theorem readDigitsFrom_eq_ok_iff (hvalue : value ≤ greatest) :
    readDigitsFrom greatest value digits = .ok n ↔ (∀ c ∈ digits, c.isDigit = true) ∧
      n = Nat.ofDigitChars 10 digits value ∧ n ≤ greatest := by
  refine ⟨fun h => ?_, fun ⟨hdigits, hn, hle⟩ => ?_⟩
  · fun_induction readDigitsFrom greatest value digits with
    | case1 value =>
      cases h
      exact ⟨nofun, rfl, hvalue⟩
    | case2 => cases h
    | case3 value c rest d hd hle ih =>
      obtain ⟨hrest, hn, hn'⟩ := ih hle h
      unfold digit? at hd
      split at hd
      · rename_i hc
        cases hd
        refine ⟨List.forall_mem_cons.2 ⟨hc, hrest⟩, ?_, hn'⟩
        rw [Nat.ofDigitChars_cons, Nat.mul_comm]
        exact hn
      · cases hd
    | case4 => cases h
  · rw [hn] at hle ⊢
    exact readDigitsFrom_ofDigitChars hdigits hle

theorem readDigits_eq_ok_iff : readDigits greatest digits = .ok n ↔ digits ≠ [] ∧
    (∀ c ∈ digits, c.isDigit = true) ∧ n = Nat.ofDigitChars 10 digits 0 ∧ n ≤ greatest := by
  cases digits with
  | nil => simp [readDigits]
  | cons c digits =>
    rw [readDigits, readDigitsFrom_eq_ok_iff (Nat.zero_le _), iff_and_self]
    · exact fun _ => List.cons_ne_nil c digits
    · exact nofun

theorem isDigit_toDigits (n : ℕ) : ∀ c ∈ Nat.toDigits 10 n, c.isDigit = true := fun _ hc =>
  Nat.isDigit_of_mem_toDigits (by decide) (by decide) hc

theorem readDigits_toDigits (h : n ≤ greatest) : readDigits greatest (Nat.toDigits 10 n) = .ok n := by
  have hvalue : Nat.ofDigitChars 10 (Nat.toDigits 10 n) 0 = n := Nat.ofDigitChars_ten_toDigits
  have hread := readDigitsFrom_ofDigitChars (isDigit_toDigits n) (hvalue.trans_le h)
  rw [hvalue] at hread
  rw [← hread]
  cases hdigits : Nat.toDigits 10 n with
  | nil => exact absurd hdigits Nat.toDigits_ne_nil
  | cons c digits => rfl

theorem readNat_toDigits (h : n ≤ greatest) : readNat greatest (Nat.toDigits 10 n) = .ok n := by
  rw [← readDigits_toDigits h]
  have hdigit := isDigit_toDigits n
  unfold readNat
  split
  · rename_i hnil
    exact absurd hnil Nat.toDigits_ne_nil
  · rename_i hplus
    rw [hplus] at hdigit
    exact absurd (hdigit '+' List.mem_cons_self) (by decide)
  · rfl

theorem isWord_toDigits (n : ℕ) : IsWord (Nat.toDigits 10 n) where
  ne_nil := Nat.toDigits_ne_nil
  not_blank := fun c hc => isBlank_digit (isDigit_toDigits n c hc)

theorem dropWhile_toDigits (k : ℕ) (rest : List Char) :
    (Nat.toDigits 10 k ++ rest).dropWhile isBlank = Nat.toDigits 10 k ++ rest := by
  have hblank := (isWord_toDigits k).not_blank
  cases hdigits : Nat.toDigits 10 k with
  | nil => exact absurd hdigits Nat.toDigits_ne_nil
  | cons c digits =>
    rw [hdigits] at hblank
    exact List.dropWhile_cons_of_neg (Bool.eq_false_iff.1 (hblank c List.mem_cons_self))

/-! ## Numbers with a sign -/

/-- An optional sign, and whether it is a minus. -/
inductive IsSign : List Char → Bool → Prop
  | absent : IsSign [] false
  | plus : IsSign ['+'] false
  | minus : IsSign ['-'] true

/-- A number with its sign. -/
def signed (negative : Bool) (n : ℕ) : ℤ := if negative then -n else n

@[simp] theorem signed_true (n : ℕ) : signed true n = -n := rfl

@[simp] theorem signed_false (n : ℕ) : signed false n = n := rfl

/-- The text of an integer within the given bounds. -/
structure IsInteger (least greatest : ℕ) (s : List Char) (e : ℤ) : Prop where
  parts : ∃ sign digits negative, s = sign ++ digits ∧ IsSign sign negative ∧ digits ≠ [] ∧
    (∀ c ∈ digits, c.isDigit = true) ∧ e = signed negative (Nat.ofDigitChars 10 digits 0)
  least_le : -(least : ℤ) ≤ e
  le_greatest : e ≤ greatest

variable {least : ℕ} {s sign : List Char} {negative : Bool} {e : ℤ}

theorem isInteger_of_readDigits {bound : ℕ} (hsign : IsSign sign negative)
    (h : readDigits bound digits = .ok n) (hleast : -(least : ℤ) ≤ signed negative n)
    (hgreatest : signed negative n ≤ greatest) :
    IsInteger least greatest (sign ++ digits) (signed negative n) := by
  obtain ⟨hne, hdigits, hn, -⟩ := readDigits_eq_ok_iff.1 h
  exact ⟨⟨sign, digits, negative, rfl, hsign, hne, hdigits, hn ▸ rfl⟩, hleast, hgreatest⟩

/-- What is read is the text of an integer. -/
theorem isInteger_of_readInt (h : readInt least greatest s = .ok e) : IsInteger least greatest s e := by
  have hunsigned : ∀ {digits}, (readDigits greatest digits).map Int.ofNat = .ok e →
      ∀ {sign}, IsSign sign false → IsInteger least greatest (sign ++ digits) e := by
    intro digits h sign hsign
    cases hd : readDigits greatest digits with
    | error err => rw [hd] at h; cases h
    | ok n =>
      rw [hd] at h
      cases h
      have hle := (readDigits_eq_ok_iff.1 hd).2.2.2
      refine isInteger_of_readDigits hsign hd ?_ ?_ <;> rw [signed_false] <;> omega
  unfold readInt at h
  split at h
  · cases h
  · split at h
    · rename_i n hd
      cases h
      have hle := (readDigits_eq_ok_iff.1 hd).2.2.2
      refine isInteger_of_readDigits .minus hd ?_ ?_ <;> rw [signed_true] <;> omega
    · cases h
    · cases h
  · exact hunsigned h .plus
  · exact hunsigned h .absent

/-- Every text of an integer is read. -/
theorem IsInteger.readInt_eq (h : IsInteger least greatest s e) : readInt least greatest s = .ok e := by
  obtain ⟨⟨sign, digits, negative, rfl, hsign, hne, hdigits, rfl⟩, hleast, hgreatest⟩ := h
  have hread : ∀ bound, Nat.ofDigitChars 10 digits 0 ≤ bound →
      readDigits bound digits = .ok (Nat.ofDigitChars 10 digits 0) := fun _ hle =>
    readDigits_eq_ok_iff.2 ⟨hne, hdigits, rfl, hle⟩
  cases hsign with
  | absent =>
    have hread := hread greatest (by rw [signed_false] at hgreatest; omega)
    obtain ⟨c, cs, rfl⟩ := List.exists_cons_of_ne_nil hne
    have hc := hdigits c List.mem_cons_self
    unfold readInt
    split
    · rename_i h; cases h
    · rename_i h; cases h; cases hc
    · rename_i h; cases h; cases hc
    · rw [List.nil_append, hread]
      rfl
  | plus =>
    have hread := hread greatest (by rw [signed_false] at hgreatest; omega)
    simp only [List.singleton_append, readInt, hread]
    rfl
  | minus =>
    have hread := hread least (by rw [signed_true] at hleast; omega)
    simp only [List.singleton_append, readInt, hread]
    rfl

theorem readInt_eq_ok_iff : readInt least greatest s = .ok e ↔ IsInteger least greatest s e :=
  ⟨isInteger_of_readInt, IsInteger.readInt_eq⟩

end Text
end MarkovCheck

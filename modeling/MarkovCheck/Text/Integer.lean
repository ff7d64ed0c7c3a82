/-!
# MarkovCheck.Text.Integer

Decimal integers of a bounded size.

* `readDigits`  — a run of ASCII digits, up to a greatest value.
* `readNat`     — the same with an optional `+`.
* `readInt`     — the same with an optional sign, between two bounds.
* `IntegerError` — why a text is no such number.
-/

namespace MarkovCheck
namespace Text

/-- Why a text does not denote an integer of the required size. -/
inductive IntegerError where
  /-- The text holds no character at all. -/
  | empty
  /-- A character that is no digit stands where a digit is expected. -/
  | invalidDigit
  /-- The number is larger than the greatest admissible value. -/
  | tooLarge
  /-- The number is smaller than the least admissible value. -/
  | tooSmall
deriving DecidableEq, Repr

def IntegerError.message : IntegerError → String
  | .empty => "cannot parse integer from empty string"
  | .invalidDigit => "invalid digit found in string"
  | .tooLarge => "number too large to fit in target type"
  | .tooSmall => "number too small to fit in target type"

def digit? (c : Char) : Option Nat := if c.isDigit then some (c.toNat - '0'.toNat) else none

/-- Appends digits to the number read so far. The first offending character decides: one that is no
digit, or one that makes the number exceed `greatest`. -/
def readDigitsFrom (greatest : Nat) (value : Nat) : List Char → Except IntegerError Nat
  | [] => .ok value
  | c :: rest =>
    match digit? c with
    | none => .error .invalidDigit
    | some d =>
      if value * 10 + d ≤ greatest then readDigitsFrom greatest (value * 10 + d) rest
      else .error .tooLarge

/-- A non-empty run of digits that denotes a number up to `greatest`. -/
def readDigits (greatest : Nat) : List Char → Except IntegerError Nat
  | [] => .error .invalidDigit
  | cs => readDigitsFrom greatest 0 cs

/-- A number up to `greatest`, with an optional `+` in front. -/
def readNat (greatest : Nat) : List Char → Except IntegerError Nat
  | [] => .error .empty
  | '+' :: cs => readDigits greatest cs
  | cs => readDigits greatest cs

/-- A number between `-least` and `greatest`, with an optional sign in front. -/
def readInt (least greatest : Nat) : List Char → Except IntegerError Int
  | [] => .error .empty
  | '-' :: cs =>
    match readDigits least cs with
    | .ok n => .ok (-(n : Int))
    | .error .tooLarge => .error .tooSmall
    | .error e => .error e
  | '+' :: cs => (readDigits greatest cs).map Int.ofNat
  | cs => (readDigits greatest cs).map Int.ofNat

/-- The greatest state index of the text formats, `2^64 - 1`. -/
def greatestIndex : Nat := Nat.pow 2 64 - 1

/-- The least and the greatest 32 bit integer. -/
def readInt32 (s : List Char) : Except IntegerError Int := readInt (Nat.pow 2 31) (Nat.pow 2 31 - 1) s

def readInt64 (s : List Char) : Except IntegerError Int := readInt (Nat.pow 2 63) (Nat.pow 2 63 - 1) s

end Text
end MarkovCheck

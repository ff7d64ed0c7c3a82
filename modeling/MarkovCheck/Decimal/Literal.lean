import MarkovCheck.Text.Blank
import MarkovCheck.Text.Integer

/-!
# MarkovCheck.Decimal.Literal

Decimal literals such as `0.833`, `-2`, `.2` or `1e-3`, and the exact rationals they denote.

The digits are scaled by a power of ten whose exponent, that of the literal less the number of
fractional digits, is computed with integers of 32 bits.

* `Literal`     — sign, digits before and after the point, exponent.
* `Literal.read` — the rational `± digits * 10 ^ shift`, unless the shift overflows.
* `readLiteral`, `read` — reading a text; blanks at its ends do not count.
-/

namespace MarkovCheck
namespace Decimal

structure Literal where
  negative : Bool
  integral : List Char
  fractional : List Char
  exponent : Int
deriving DecidableEq, Repr

def digitsValue (digits : List Char) : Nat :=
  digits.foldl (fun n c => n * 10 + (c.toNat - '0'.toNat)) 0

/-- `10 ^ k` for an exponent of either sign. -/
def tenPow : Int → Rat
  | .ofNat k => (Nat.pow 10 k : Rat)
  | .negSucc k => mkRat 1 (Nat.pow 10 (k + 1))

def fitsInt32 (n : Int) : Bool := -(Nat.pow 2 31 : Int) ≤ n && n < (Nat.pow 2 31 : Int)

namespace Literal

def signedDigits (l : Literal) : Int :=
  let digits : Int := digitsValue (l.integral ++ l.fractional)
  if l.negative then -digits else digits

/-- The exponent less the number of fractional digits, in integers of 32 bits. The number is taken
modulo `2 ^ 32`, and the difference may overflow. -/
def shift? (l : Literal) : Option Int :=
  let shift := l.exponent - (l.fractional.length : Int).bmod (Nat.pow 2 32)
  if fitsInt32 shift then some shift else none

end Literal

/-- What a text says as a decimal. -/
inductive Reading where
  /-- The text is no decimal literal. -/
  | notDecimal
  /-- The exponent and the number of fractional digits are too far apart for 32 bits. -/
  | overflow
  | value (r : Rat)
deriving DecidableEq, Repr

def Literal.read (l : Literal) : Reading :=
  match l.shift? with
  | some shift => .value (l.signedDigits * tenPow shift)
  | none => .overflow

/-- Splits a text at the first character that satisfies `p`, which belongs to neither part. -/
def splitAtFirst (p : Char → Bool) : List Char → List Char × Option (List Char)
  | [] => ([], none)
  | c :: rest =>
    if p c then ([], some rest)
    else
      let (before, after) := splitAtFirst p rest
      (c :: before, after)

/-- Whether a character separates the mantissa from the exponent. -/
def isExponentMark (c : Char) : Bool := c == 'e' || c == 'E'

/-- Splits off an optional sign. -/
def splitSign : List Char → Bool × List Char
  | '-' :: rest => (true, rest)
  | '+' :: rest => (false, rest)
  | s => (false, s)

/-- The exponent of a literal: zero when it is not written, a 32 bit integer otherwise. -/
def readExponent : Option (List Char) → Option Int
  | none => some 0
  | some s =>
    match Text.readInt32 s with
    | .ok e => some e
    | .error _ => none

/-- Reads a literal: an optional sign, digits with at most one point and at least one digit, and an
optional exponent. -/
def readLiteral (s : List Char) : Option Literal :=
  let (mantissa, exponentText) := splitAtFirst isExponentMark s
  match readExponent exponentText with
  | none => none
  | some exponent =>
    let (negative, unsigned) := splitSign mantissa
    let (integral, rest) := splitAtFirst (· == '.') unsigned
    let fractional := rest.getD []
    if integral.isEmpty && fractional.isEmpty then none
    else if (integral ++ fractional).all Char.isDigit then
      some ⟨negative, integral, fractional, exponent⟩
    else none

/-- What a text says, without the blanks at its ends. -/
def read (text : String) : Reading :=
  match readLiteral (Text.trim text.toList) with
  | some l => l.read
  | none => .notDecimal

/-- The value of a decimal text, if it has one. -/
def parse? (text : String) : Option Rat :=
  match read text with
  | .value r => some r
  | _ => none

end Decimal
end MarkovCheck

import MarkovCheck.Decimal.Shortest
import MarkovCheck.Double.Rounding

/-!
# MarkovCheck.Double.Text

The text of doubles.

* `toText`  — the shortest digits that read back to the same double, always in positional notation;
  `inf`, `-inf`, `NaN`, and `-0` for minus zero.
* `ofText?` — reads a decimal number with an exponent of any size, or the word for infinity or NaN;
  the result is the nearest double.
-/

namespace MarkovCheck
namespace Double

/-- `2 ^ k` for an exponent of either sign. -/
def twoPow : Int → Rat
  | .ofNat k => (Nat.pow 2 k : Rat)
  | .negSucc k => mkRat 1 (Nat.pow 2 (k + 1))

/-- The magnitude of a finite double as a rational number. -/
def magnitudeRat (d : Double) : Rat := (d.significand : Rat) * twoPow d.exponent

/-- The numbers that round to a positive finite double: up to half way to its neighbours, which are
nearer below a power of two, and half way itself for an even significand. -/
def roundingInterval (d : Double) : Decimal.Interval :=
  let half := twoPow (d.exponent - 1)
  let below := if d.significand = Nat.pow 2 52 ∧ 1 < d.exponentField then half / 2 else half
  let value := d.magnitudeRat
  ⟨value - below, value, value + half, d.significand % 2 == 0⟩

/-- Seventeen digits always suffice to tell two doubles apart. -/
def sufficientDigits : Nat := 17

def finiteText (d : Double) : List Char :=
  match d.roundingInterval.shortest sufficientDigits with
  | some s => s.positional
  | none => []

def toText (d : Double) : String :=
  if d.isNaN then "NaN"
  else
    let body := if d.isInfinite then "inf".toList else if d.isZero then ['0'] else d.abs.finiteText
    String.ofList (if d.isNegative then '-' :: body else body)

instance : ToString Double := ⟨toText⟩

/-- An exponent: an optional sign and at least one digit. -/
def readExponent : Option (List Char) → Option Int
  | none => some 0
  | some s =>
    let (negative, digits) := Decimal.splitSign s
    if digits.isEmpty || !digits.all Char.isDigit then none
    else
      let n : Int := Decimal.digitsValue digits
      some (if negative then -n else n)

/-- The double nearest to an unsigned decimal number. The decimal places of the number decide first
whether it is far too large or far too small. -/
def nearestDecimal (integral fractional : List Char) (exponent : Int) : Double :=
  let digits := Decimal.digitsValue (integral ++ fractional)
  if digits = 0 then zero
  else
    let scale := exponent - fractional.length
    let places := scale + (Decimal.digitsOf digits).length
    if places > 310 then infinity
    else if places < -330 then zero
    else ofRat ((digits : Rat) * Decimal.tenPow scale)

/-- Reads an unsigned number: digits with at most one point, and an optional exponent. -/
def ofUnsignedText? (s : List Char) : Option Double :=
  let (mantissa, exponentText) := Decimal.splitAtFirst Decimal.isExponentMark s
  let (integral, rest) := Decimal.splitAtFirst (· == '.') mantissa
  let fractional := rest.getD []
  if (integral.isEmpty && fractional.isEmpty) || !(integral ++ fractional).all Char.isDigit then none
  else (readExponent exponentText).map (nearestDecimal integral fractional)

/-- Reads a double: an optional sign, then a number or one of the words `inf`, `infinity` and `nan`
in any case of letters. -/
def ofText? (s : List Char) : Option Double :=
  let (negative, unsigned) := Decimal.splitSign s
  let word := String.ofList (unsigned.map Char.toLower)
  let magnitude :=
    if word == "inf" || word == "infinity" then some infinity
    else if word == "nan" then some nan
    else ofUnsignedText? unsigned
  magnitude.map fun d => if negative then d.neg else d

end Double
end MarkovCheck

import MarkovCheck.Double.Basic

/-!
# MarkovCheck.Double.Rounding

The double nearest to a rational number, and the rational that a finite double denotes.

* `roundHalfEven` — the integer nearest to a quotient of naturals, a tie going to the even one.
* `ofRat`         — the nearest double, ties to even; it overflows to infinity, and a negative
  number that rounds to zero gives minus zero.
* `significand`, `exponent` — a finite double has the magnitude `significand * 2 ^ exponent`.
-/

namespace MarkovCheck
namespace Double

/-- The integer nearest to `n / d`; of two nearest ones the even one. -/
def roundHalfEven (n d : Nat) : Nat :=
  let q := n / d
  let r := n % d
  if 2 * r < d then q
  else if d < 2 * r then q + 1
  else if q % 2 == 0 then q else q + 1

/-- `n / d / 2 ^ e` as a fraction of naturals. -/
def scaleTwo (n d : Nat) : Int → Nat × Nat
  | .ofNat e => (n, d * Nat.pow 2 e)
  | .negSucc e => (n * Nat.pow 2 (e + 1), d)

/-- The least exponent of a unit in the last place. -/
def leastExponent : Int := -1074

/-- The exponent of the unit in the last place of the double nearest to `n / d`: the quotient lies
between `2 ^ 52` and `2 ^ 53` units, unless the unit is the least one. -/
def unitExponent (n d : Nat) : Int :=
  let guess : Int := (n.log2 : Int) - d.log2 - 52
  let scaled := scaleTwo n d guess
  let e := if scaled.1 < scaled.2 * Nat.pow 2 52 then guess - 1 else guess
  if e < leastExponent then leastExponent else e

/-- The bits of the double nearest to the positive quotient `n / d`, if there were no infinity. The
significand is added to the exponent field, so that a carry moves on to the next binade. -/
def unboundedBits (n d : Nat) : Nat :=
  let e := unitExponent n d
  let scaled := scaleTwo n d e
  (e - leastExponent).toNat * Nat.pow 2 52 + roundHalfEven scaled.1 scaled.2

/-- The bits of the double nearest to the positive quotient `n / d`. A carry out of the last binade
gives infinity. -/
def magnitudeBits (n d : Nat) : Nat := min infinityBits.toNat (unboundedBits n d)

/-- The double nearest to a rational number. -/
def ofRat (r : Rat) : Double :=
  if r.num = 0 then zero
  else
    let d : Double := ⟨(magnitudeBits r.num.natAbs r.den).toUInt64⟩
    if r.num < 0 then d.neg else d

def ofInt (z : Int) : Double := ofRat z

/-- The exponent field of the bits. -/
def exponentField (d : Double) : Nat := d.magnitude.toNat / Nat.pow 2 52

/-- The magnitude in units of the last place. -/
def significand (d : Double) : Nat :=
  let fraction := d.magnitude.toNat % Nat.pow 2 52
  if d.exponentField = 0 then fraction else fraction + Nat.pow 2 52

def exponent (d : Double) : Int :=
  if d.exponentField = 0 then leastExponent else (d.exponentField : Int) - 1 + leastExponent

end Double
end MarkovCheck

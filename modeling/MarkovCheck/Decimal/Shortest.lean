import MarkovCheck.Decimal.Literal

/-!
# MarkovCheck.Decimal.Shortest

The shortest decimal number inside an interval, and positional notation.

* `Interval`   — an interval around a positive number, with or without its ends.
* `shortest`   — the decimal with the fewest digits inside the interval; of several the one nearest
  to the number, and of two equally near ones the larger.
* `positional` — digits with the decimal point at its place, never with an exponent.
-/

namespace MarkovCheck
namespace Decimal

/-- An interval of positive numbers around `value`. -/
structure Interval where
  low : Rat
  value : Rat
  high : Rat
  closed : Bool

def Interval.contains (i : Interval) (r : Rat) : Bool :=
  if i.closed then i.low ≤ r && r ≤ i.high else i.low < r && r < i.high

/-- The decimal number `digits * 10 ^ scale`. -/
structure Scaled where
  digits : Nat
  scale : Int
deriving DecidableEq, Repr

def Scaled.value (s : Scaled) : Rat := (s.digits : Rat) * tenPow s.scale

def digitsOf (n : Nat) : List Char := Nat.toDigits 10 n

/-- The `k` with `10 ^ (k - 1) ≤ r < 10 ^ k`, for positive `r`. -/
def magnitude (r : Rat) : Int :=
  let guess : Int := ((digitsOf r.num.natAbs).length : Int) - (digitsOf r.den).length
  if r < tenPow guess then guess else guess + 1

/-- The number with unit `10 ^ scale` that the interval admits: of the two neighbours of its value
on that grid the nearer one inside, the larger one on a tie. -/
def Interval.onGrid (i : Interval) (scale : Int) : Option Scaled :=
  let below : Nat := (i.value / tenPow scale).floor.toNat
  let lower : Scaled := ⟨below, scale⟩
  let upper : Scaled := ⟨below + 1, scale⟩
  match i.contains lower.value && 0 < below, i.contains upper.value with
  | true, true => if i.value - lower.value < upper.value - i.value then some lower else some upper
  | true, false => some lower
  | false, true => some upper
  | false, false => none

/-- Tries finer and finer grids, `fuel` of them, starting with unit `10 ^ scale`. -/
def Interval.firstGrid (i : Interval) : Nat → Int → Option Scaled
  | 0, _ => none
  | fuel + 1, scale =>
    match i.onGrid scale with
    | some s => some s
    | none => i.firstGrid fuel (scale - 1)

/-- The shortest decimal inside the interval, if one with at most `digits` digits lies in it. -/
def Interval.shortest (i : Interval) (digits : Nat) : Option Scaled :=
  i.firstGrid digits (magnitude i.value - 1)

def stripZeros (digits : List Char) : List Char := (digits.reverse.dropWhile (· == '0')).reverse

/-- Positional notation: zeros fill the places up to the point. -/
def Scaled.positional (s : Scaled) : List Char :=
  let ds := digitsOf s.digits
  match s.scale with
  | .ofNat k => ds ++ List.replicate k '0'
  | .negSucc k =>
    let places := k + 1
    let padded := List.replicate (places + 1 - ds.length) '0' ++ ds
    let whole := padded.take (padded.length - places)
    let fraction := stripZeros (padded.drop (padded.length - places))
    if fraction.isEmpty then whole else whole ++ '.' :: fraction

end Decimal
end MarkovCheck

import MarkovCheck.Algebra.RationalFunction
import MarkovCheck.Double.Text

/-!
# MarkovCheck.Value.Basic

The numeric domain of probabilities, rewards and results.

* `Value`        — what the models, the solver and the minimisation need of a number.
* `sumCanonical` — the sum of a list in the order of its values, so that the rounding of doubles
  does not depend on how the list is arranged.
* The instances are doubles, for models with numbers, and rational functions, for models with
  parameters. Only the latter divide exactly, and refuse to divide by zero.
-/

namespace MarkovCheck

/-- A numeric domain. -/
class Value (V : Type) where
  zero : V
  one : V
  ofRat : Rat → V
  /-- The value of a parameter, in domains with parameters. -/
  param? : Parameter → Option V
  add : V → V → V
  sub : V → V → V
  mul : V → V → V
  /-- The quotient, `none` where the domain does not define it. -/
  div? : V → V → Option V
  isZero : V → Bool
  isOne : V → Bool
  /-- Whether the value depends on no parameter. -/
  isConst : V → Bool
  /-- Equality of numbers. -/
  numEq : V → V → Bool
  /-- Equality up to a relative tolerance, which exact domains ignore. -/
  isClose : V → V → Double → Bool
  /-- The number nearest to a value without parameters. -/
  toDouble? : V → Option Double
  infinity? : Option V
  /-- Whether two values count as one value for interning. -/
  sameKey : V → V → Bool
  /-- A total order that fixes the order of summation. -/
  cmp : V → V → Ordering
  toText : V → String

namespace Value

variable {V : Type} [Value V]

/-- Whether the domain has parameters. -/
def supportsParameters (V : Type) [Value V] : Bool := (param? (V := V) "").isSome

def ofInt (z : Int) : V := ofRat z

def sorted (vs : List V) : List V := vs.mergeSort fun a b => (cmp a b).isLE

/-- The sum of values, added to zero one after the other. -/
def sum (vs : List V) : V := vs.foldl add zero

/-- The sum of values in ascending order. -/
def sumCanonical (vs : List V) : V := sum (sorted vs)

end Value

/-- The quotient of rational functions, `none` for the divisor zero. -/
def RationalFunction.quotient? (f g : RationalFunction) : Option RationalFunction :=
  match f.div? g with
  | .ok h => some h
  | .error _ => none

instance : Value Double where
  zero := Double.zero
  one := Double.one
  ofRat := Double.ofRat
  param? _ := none
  add := Double.add
  sub := Double.sub
  mul := Double.mul
  div? a b := some (a.div b)
  isZero := Double.isZero
  isOne d := d.numEq .one
  isConst _ := true
  numEq := Double.numEq
  isClose := Double.isClose
  toDouble? := some
  infinity? := some Double.infinity
  sameKey a b := a.key == b.key
  cmp := Double.totalCompare
  toText := Double.toText

instance : Value RationalFunction where
  zero := RationalFunction.zero
  one := RationalFunction.one
  ofRat := RationalFunction.const
  param? x := some (.param x)
  add := RationalFunction.add
  sub := RationalFunction.sub
  mul := RationalFunction.mul
  div? := RationalFunction.quotient?
  isZero := RationalFunction.isZero
  isOne := RationalFunction.isOne
  isConst := RationalFunction.isConst
  numEq f g := f = g
  isClose f g _ := f = g
  toDouble? f := f.const?.map Double.ofRat
  infinity? := none
  sameKey f g := f = g
  cmp := RationalFunction.cmp
  toText := RationalFunction.toText

end MarkovCheck

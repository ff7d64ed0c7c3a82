/-!
# MarkovCheck.Double.Basic

IEEE double precision numbers, kept as their 64 bits.

Mathematical meaning: the bits are sign, biased exponent and significand. Two numbers are *the same*
when their bits are; the comparison of numbers is `numEq`, for which the two zeros are equal and NaN
differs from everything. Keeping the bits makes the sign of a NaN a part of the value, and the total
order `totalCompare` sees it.

* `add`, `sub`, `mul`, `div` — correctly rounded; a NaN operand is passed on, the left one first,
  and an operation without a defined result gives the negative NaN `undefinedNaN`.
* `numEq`, `numLe`, `numLt` — comparisons of numbers.
* `totalCompare` — the total order of the bits: negative before positive, NaN at both ends.
* `key`          — the bits, with the two zeros identified.
-/

namespace MarkovCheck

/-- A double precision number, given by its bits. -/
structure Double where
  bits : UInt64
deriving DecidableEq, Repr, Hashable, Inhabited

namespace Double

/-- The bits of positive infinity; larger magnitudes are NaN. -/
def infinityBits : UInt64 := 0x7ff0000000000000

def signBit : UInt64 := 0x8000000000000000

def zero : Double := ⟨0⟩
def one : Double := ⟨0x3ff0000000000000⟩
def infinity : Double := ⟨infinityBits⟩

/-- The result of an operation without a defined value, such as `∞ - ∞`. -/
def undefinedNaN : Double := ⟨0xfff8000000000000⟩

/-- The positive quiet NaN, which texts denote. -/
def nan : Double := ⟨0x7ff8000000000000⟩

def isNegative (d : Double) : Bool := d.bits &&& signBit != 0

/-- The bits without the sign. -/
def magnitude (d : Double) : UInt64 := d.bits &&& ~~~signBit

def isNaN (d : Double) : Bool := infinityBits < d.magnitude
def isInfinite (d : Double) : Bool := d.magnitude == infinityBits
def isZero (d : Double) : Bool := d.magnitude == 0

def neg (d : Double) : Double := ⟨d.bits ^^^ signBit⟩
def abs (d : Double) : Double := ⟨d.magnitude⟩

/-- The NaN that an operation passes on: its first operand with the quiet bit set. -/
def quiet (d : Double) : Double := ⟨d.bits ||| 0x0008000000000000⟩

/-- An arithmetic operation, given by its rounded result on numbers. -/
def arithmetic (op : Float → Float → Float) (a b : Double) : Double :=
  if a.isNaN then a.quiet
  else if b.isNaN then b.quiet
  else
    let r := op (Float.ofBits a.bits) (Float.ofBits b.bits)
    if r.isNaN then undefinedNaN else ⟨r.toBits⟩

def add (a b : Double) : Double := arithmetic (· + ·) a b
def sub (a b : Double) : Double := arithmetic (· - ·) a b
def mul (a b : Double) : Double := arithmetic (· * ·) a b
def div (a b : Double) : Double := arithmetic (· / ·) a b

/-- A key whose natural order is the total order of the bits: negative numbers descend with their
magnitude, positive ones ascend. -/
def orderKey (d : Double) : Int :=
  if d.isNegative then -(d.magnitude.toNat : Int) - 1 else d.magnitude.toNat

def totalCompare (a b : Double) : Ordering := compare a.orderKey b.orderKey

/-- A key whose natural order is the order of numbers that are not NaN. -/
def numKey (d : Double) : Int :=
  if d.isNegative then -(d.magnitude.toNat : Int) else d.magnitude.toNat

/-- Equality of numbers: the zeros are equal, NaN equals nothing. -/
def numEq (a b : Double) : Bool := !a.isNaN && !b.isNaN && a.numKey == b.numKey

def numLe (a b : Double) : Bool := !a.isNaN && !b.isNaN && a.numKey ≤ b.numKey
def numLt (a b : Double) : Bool := !a.isNaN && !b.isNaN && a.numKey < b.numKey

/-- The larger of two numbers; a NaN gives way to the other one. -/
def max (a b : Double) : Double :=
  if a.isNaN then b else if numLt a b then b else a

/-- The bits, with the two zeros identified. -/
def key (d : Double) : UInt64 := if d.isZero then 0 else d.bits

/-- Whether two numbers are equal, or differ by at most `tolerance` times the larger magnitude. -/
def isClose (a b tolerance : Double) : Bool :=
  numEq a b || numLe (sub a b).abs (mul tolerance (max a.abs b.abs))

end Double
end MarkovCheck

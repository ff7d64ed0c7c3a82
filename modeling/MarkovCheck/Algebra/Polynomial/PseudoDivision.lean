import MarkovCheck.Algebra.Polynomial.Univariate

/-!
# MarkovCheck.Algebra.Polynomial.PseudoDivision

Division of polynomials in one parameter, where the dividend is first multiplied by a power of the
divisor's leading coefficient.

* `Computed`         — a computation that need not end, and may stop with a fault.
* `pseudoStep`       — cancels the highest power of the parameter.
* `computeRemainder` — repeats the step until the degree is below that of the divisor.
-/

namespace MarkovCheck
namespace Polynomial

/-- What would stop the computation of a gcd without a result. -/
inductive GcdFault where
  /-- The parameter of a pseudo division does not occur in its divisor. -/
  | divisorWithoutParameter
  /-- The content of a polynomial does not divide it. -/
  | contentNotDivisor
  /-- Neither of two polynomials is constant, but one of them has no main parameter. -/
  | noMainParameter
deriving DecidableEq, Repr

/-- A computation on polynomials: it runs on without end (`none`), stops with a fault, or has a result. -/
abbrev Computed := ExceptT GcdFault Option

/-- The result of a computation, or another value if there is none. -/
def Computed.result {α : Type} (c : Computed α) (other : α) : α :=
  match c.run with
  | some (.ok a) => a
  | _ => other

/-- One step of pseudo division: multiplies by the leading coefficient of the divisor, and cancels
the highest power of the parameter. -/
def pseudoStep (x : Parameter) (b r : Polynomial) : Polynomial :=
  (b.leadingCoeffIn x).mul r |>.sub
    (((r.leadingCoeffIn x).mul b).mulMonomial (.power x (r.degreeIn x - b.degreeIn x)))

/-- Repeats the step as long as the degree is not below that of the divisor. -/
def pseudoReduce (x : Parameter) (b r : Polynomial) : Computed Polynomial :=
  if r.isZero || r.degreeIn x < b.degreeIn x then pure r else b |>.pseudoReduce x (pseudoStep x b r)
partial_fixpoint

/-- The computation of a pseudo remainder. The parameter must occur in the divisor. -/
def computeRemainder (x : Parameter) (a b : Polynomial) : Computed Polynomial :=
  if b.degreeIn x = 0 then throw .divisorWithoutParameter else pseudoReduce x b a

/-- The pseudo remainder of `a` by a divisor of positive degree in `x`. -/
def pseudoRemainder (x : Parameter) (a b : Polynomial) : Polynomial :=
  (computeRemainder x a b).result zero

end Polynomial
end MarkovCheck

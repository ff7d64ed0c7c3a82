import MarkovCheck.Algebra.Polynomial.Division
import MarkovCheck.Algebra.Polynomial.PseudoDivision

/-!
# MarkovCheck.Algebra.Polynomial.Gcd

Greatest common divisors of polynomials.

Two polynomials are seen as polynomials in their most significant parameter, with coefficients in the
other ones. The gcd of their contents, which are the gcds of their coefficients, is found first, then
that of their primitive parts by a sequence of pseudo remainders, each made primitive. A polynomial
without the parameter is compared with the content of the other one.

The computations call each other without a bound on the calls, and stop with a fault where they rely on
what should hold: a polynomial that is not constant has a main parameter, a content divides, a pseudo
division has a divisor with the parameter.

* `computeGcd`     — the computation of a gcd, with those of contents, parts and remainders.
* `gcd`            — the monic greatest common divisor, zero only for two zeros.
* `content`, `contentAndPrimitivePart` — the gcd of the coefficients in a parameter, and the cofactor.
-/

namespace MarkovCheck
namespace Polynomial

mutual

/-- The computation of the gcd of two polynomials. -/
def computeGcd (l r : Polynomial) : Computed Polynomial :=
  if l.isZero then pure r.monic
  else if r.isZero then pure l.monic
  else if l.isConst || r.isConst then pure one
  else if l = r then pure l.monic
  else
    match l.mainParameter?, r.mainParameter? with
    | some y, some z =>
      let x := if y ≤ z then y else z
      if l.degreeIn x = 0 then do
        let c ← r |>.computeContent x
        l |>.computeGcd c
      else if r.degreeIn x = 0 then do
        let c ← l |>.computeContent x
        c |>.computeGcd r
      else do
        let (leftContent, left) ← l |>.computeParts x
        let (rightContent, right) ← r |>.computeParts x
        let common ← leftContent |>.computeGcd rightContent
        let last ←
          if right.degreeIn x ≤ left.degreeIn x then left |>.remainderSequence x right
          else right |>.remainderSequence x left
        match last with
        | none => pure common
        | some b => pure (common.mul b).monic
    | _, _ => throw .noMainParameter
partial_fixpoint

/-- The gcd of `c` and the given coefficients; it stops at one. -/
def contentFrom (c : Polynomial) : List (Nat × Polynomial) → Computed Polynomial
  | [] => pure c
  | (_, a) :: rest => do
    let g ← c |>.computeGcd a
    if g.isOne then pure g else g |>.contentFrom rest
partial_fixpoint

/-- The computation of the content of a polynomial in a parameter. -/
def computeContent (x : Parameter) (p : Polynomial) : Computed Polynomial :=
  zero |>.contentFrom (p.coefficientsIn x)
partial_fixpoint

/-- The computation of the content of a polynomial and of its primitive part, which is the monic
quotient by the content. -/
def computeParts (x : Parameter) (p : Polynomial) : Computed (Polynomial × Polynomial) := do
  let c ← p |>.computeContent x
  match p.div? c with
  | some q => pure (c, q.monic)
  | none => throw .contentNotDivisor
partial_fixpoint

/-- The sequence of primitive pseudo remainders of `a` and `b`. It ends with the last `b` before a
zero remainder, or with `none` when a remainder does not depend on the parameter, that is, when the
two are coprime. -/
def remainderSequence (x : Parameter) (a b : Polynomial) : Computed (Option Polynomial) := do
  let r ← computeRemainder x a b
  if r.isZero then pure (some b)
  else if r.degreeIn x = 0 then pure none
  else do
    let (_, p) ← r |>.computeParts x
    b |>.remainderSequence x p
partial_fixpoint

end

/-- The monic greatest common divisor. -/
def gcd (l r : Polynomial) : Polynomial := (computeGcd l r).result one

/-- The monic gcd of the coefficients of a polynomial in a parameter. -/
def content (x : Parameter) (p : Polynomial) : Polynomial := (computeContent x p).result zero

/-- The content and the primitive part; their product is the polynomial up to a constant. -/
def contentAndPrimitivePart (x : Parameter) (p : Polynomial) : Polynomial × Polynomial :=
  (computeParts x p).result (zero, zero)

end Polynomial
end MarkovCheck

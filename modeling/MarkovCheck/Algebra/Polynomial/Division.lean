import MarkovCheck.Algebra.Polynomial.Basic

/-!
# MarkovCheck.Algebra.Polynomial.Division

Exact division of polynomials.

The leading term of a multiple is divisible by the leading term of the divisor. So the quotient is found
by long division from the leading term down, and a leading term that is not divisible decides the whole.

* `divisionRound` — a round of the loop, which takes the leading term off the remainder.
* `div?`          — exact division, `none` when the divisor is zero or does not divide.
-/

namespace MarkovCheck
namespace Polynomial

instance : Nonempty Polynomial := ⟨zero⟩

/-- What is left of `r` without the product of `d` and a term. -/
def subMultiple (r d : Polynomial) (n : Monomial) (c : Rat) : Polynomial :=
  r.sub ((d.mulMonomial n).scale c)

/-- A round of long division by `d` with the given leading term, on the quotient so far and the remainder.
It gives the next two, or the quotient if nothing remains, or `none` if the leading term of the remainder
is not divisible. The remainder may grow in the less significant parameters while its leading term falls,
so its degree does not bound the rounds. -/
def divisionRound (d : Polynomial) (lead : Term) (s : Polynomial × Polynomial) :
    Option (Polynomial × Polynomial ⊕ Polynomial) :=
  match s.2.leadingTerm? with
  | none => some (.inr s.1)
  | some (m, c) =>
    match m.div? lead.1 with
    | none => none
    | some n => some (.inl (s.1.add (term n (c / lead.2)), subMultiple s.2 d n (c / lead.2)))

/-- The quotient, if the divisor is not zero and divides the polynomial. -/
def div? (p d : Polynomial) : Option Polynomial :=
  match d.leadingTerm? with
  | none => none
  | some lead =>
    match d.const? with
    | some c => some (p.scale c⁻¹)
    | none => repeatM (divisionRound d lead) (zero, p)

end Polynomial
end MarkovCheck

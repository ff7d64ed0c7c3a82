import MarkovCheck.Algebra.Polynomial.Basic

/-!
# MarkovCheck.Algebra.Polynomial.Univariate

A polynomial seen as a polynomial in one parameter, with coefficients in the others.

* `coefficientsIn` — the non-zero coefficients with their exponents, ascending.
* `ofCoefficients` — the inverse of it.
* `degreeIn`, `leadingCoeffIn` — the greatest exponent and its coefficient.
-/

namespace MarkovCheck
namespace Polynomial

/-- The greatest exponent of a parameter, zero if it does not occur. -/
def degreeIn (x : Parameter) (p : Polynomial) : Nat :=
  p.terms.foldr (fun t d => max (t.1.exponent x) d) 0

/-- Puts a term into an ascending list of terms, in the place of one with the same monomial. -/
def putTerm (t : Term) : List Term → List Term
  | [] => [t]
  | s :: rest =>
    match t.1.cmp s.1 with
    | .lt => t :: s :: rest
    | .eq => t :: rest
    | .gt => s :: putTerm t rest

/-- Puts a term into the coefficient of an exponent, which is new if no other term has this exponent. -/
def putCoefficient (k : Nat) (t : Term) : List (Nat × Polynomial) → List (Nat × Polynomial)
  | [] => [(k, ⟨[t]⟩)]
  | (j, p) :: rest =>
    if k < j then (k, ⟨[t]⟩) :: (j, p) :: rest
    else if k = j then (j, ⟨putTerm t p.terms⟩) :: rest
    else (j, p) :: putCoefficient k t rest

/-- Moves the power of a parameter from a term to the exponent under which the rest of it is put. -/
def splitTerm (x : Parameter) (cs : List (Nat × Polynomial)) (t : Term) : List (Nat × Polynomial) :=
  putCoefficient (t.1.exponent x) (t.1.without x, t.2) cs

/-- The non-zero coefficients of the powers of a parameter, by ascending exponent. Terms are put where
they belong, never added: the rests of terms with the same exponent are different. -/
def coefficientsIn (x : Parameter) (p : Polynomial) : List (Nat × Polynomial) :=
  p.terms.foldl (splitTerm x) []

/-- The coefficient of the highest power of a parameter, zero for the zero polynomial. -/
def leadingCoeffIn (x : Parameter) (p : Polynomial) : Polynomial :=
  (p.coefficientsIn x).getLast?.elim zero (·.2)

/-- The sum of the given coefficients times powers of the parameter. -/
def ofCoefficients (x : Parameter) (cs : List (Nat × Polynomial)) : Polynomial :=
  ofTerms (cs.flatMap fun c => (c.2.mulMonomial (.power x c.1)).terms)

end Polynomial
end MarkovCheck

import MarkovCheck.Algebra.Valuation
import MarkovCheck.Text.Names

/-!
# MarkovCheck.Algebra.Polynomial.Basic

Polynomials in named parameters with rational coefficients.

Mathematical meaning: a polynomial is the function that gives every monomial its coefficient, zero
for all but finitely many. It is stored as the list of its terms with a non-zero coefficient, in
ascending order of their monomials (`IsReduced`), so the last term is the leading one and equal
functions have equal lists.

* `coeff`   — the coefficient of a monomial, the view through which the operations are understood.
* `addTerm`  — adds one term, the step of all sums and products.
* `add`, `sub`, `neg`, `mul`, `scale`, `mulMonomial` — the arithmetic.
* `leadingTerm?`, `leadingCoeff`, `monic` — the term of the greatest monomial.
* `evalAt`  — the value for given parameter values.
-/

namespace MarkovCheck

/-- One term: a monomial and its coefficient. -/
abbrev Term := Monomial × Rat

/-- A sum of terms. -/
structure Polynomial where
  terms : List Term
deriving DecidableEq, Inhabited

namespace Polynomial

/-- The stored form: monomials reduced and strictly ascending, coefficients not zero. -/
def IsReduced (p : Polynomial) : Prop :=
  p.terms.Pairwise (fun s t => s.1.cmp t.1 = .lt) ∧ ∀ t ∈ p.terms, t.1.IsReduced ∧ t.2 ≠ 0

def coeffIn (m : Monomial) : List Term → Rat
  | [] => 0
  | (n, c) :: rest => if m = n then c else coeffIn m rest

/-- The coefficient of a monomial, zero if it does not occur. -/
def coeff (p : Polynomial) (m : Monomial) : Rat := coeffIn m p.terms

def zero : Polynomial := ⟨[]⟩

/-- The polynomial `c * m`. -/
def term (m : Monomial) (c : Rat) : Polynomial := if c = 0 then zero else ⟨[(m, c)]⟩

def const (c : Rat) : Polynomial := term .one c

def one : Polynomial := const 1

def param (x : Parameter) : Polynomial := term (.power x 1) 1

def isZero (p : Polynomial) : Bool := p.terms.isEmpty

/-- The value of a polynomial without parameters. -/
def const? (p : Polynomial) : Option Rat :=
  match p.terms with
  | [] => some 0
  | [(m, c)] => if m.isOne then some c else none
  | _ => none

def isConst (p : Polynomial) : Bool := p.const?.isSome

def isOne (p : Polynomial) : Bool := p.const? == some 1

def leadingTerm? (p : Polynomial) : Option Term := p.terms.getLast?

/-- The coefficient of the leading term, zero for the zero polynomial. -/
def leadingCoeff (p : Polynomial) : Rat := p.leadingTerm?.elim 0 (·.2)

/-- The most significant parameter that occurs: the first one of the leading monomial. -/
def mainParameter? (p : Polynomial) : Option Parameter :=
  p.leadingTerm?.bind fun t => t.1.factors.head?.map (·.1)

/-- Adds a coefficient to that of a monomial; the term goes when the two cancel. -/
def insertTerm (m : Monomial) (c : Rat) : List Term → List Term
  | [] => [(m, c)]
  | (n, b) :: rest =>
    match m.cmp n with
    | .lt => (m, c) :: (n, b) :: rest
    | .eq => if b + c = 0 then rest else (n, b + c) :: rest
    | .gt => (n, b) :: insertTerm m c rest

/-- Adds a term. -/
def addTerm (p : Polynomial) (t : Term) : Polynomial :=
  if t.2 = 0 then p else ⟨insertTerm t.1 t.2 p.terms⟩

/-- Adds terms one by one, in any order, with any coefficients and repeated monomials. -/
def addTerms (p : Polynomial) (ts : List Term) : Polynomial := ts.foldl addTerm p

/-- The sum of terms. -/
def ofTerms (ts : List Term) : Polynomial := zero.addTerms ts

def add (p q : Polynomial) : Polynomial := p.addTerms q.terms

def neg (p : Polynomial) : Polynomial := ⟨p.terms.map fun t => (t.1, -t.2)⟩

def sub (p q : Polynomial) : Polynomial := p.add q.neg

def scale (p : Polynomial) (c : Rat) : Polynomial :=
  if c = 0 then zero else ⟨p.terms.map fun t => (t.1, t.2 * c)⟩

def mulMonomial (p : Polynomial) (m : Monomial) : Polynomial :=
  ⟨p.terms.map fun t => (t.1.mul m, t.2)⟩

/-- The products of the terms of two polynomials, row by row. -/
def products (p q : Polynomial) : List Term :=
  p.terms.flatMap fun s => q.terms.map fun t => (s.1.mul t.1, s.2 * t.2)

def mul (p q : Polynomial) : Polynomial := ofTerms (p.products q)

/-- The polynomial divided by its leading coefficient; zero stays zero. -/
def monic (p : Polynomial) : Polynomial :=
  let c := p.leadingCoeff
  if c = 0 ∨ c = 1 then p else p.scale c⁻¹

instance : Add Polynomial := ⟨add⟩
instance : Sub Polynomial := ⟨sub⟩
instance : Neg Polynomial := ⟨neg⟩
instance : Mul Polynomial := ⟨mul⟩

/-- The parameters that occur, in ascending order. -/
def parameters (p : Polynomial) : List Parameter :=
  p.terms.foldr (fun t xs => unionNames (t.1.factors.map (·.1)) xs) []

/-- The sum of the values of the terms. -/
def evalTerms (v : Valuation) : List Term → Except NumberError Rat
  | [] => .ok 0
  | (m, c) :: rest =>
    match m.evalAt v with
    | .error e => .error e
    | .ok a =>
      match evalTerms v rest with
      | .error e => .error e
      | .ok b => .ok (c * a + b)

/-- The value for given parameter values; the first parameter without a value is reported. -/
def evalAt (v : Valuation) (p : Polynomial) : Except NumberError Rat := evalTerms v p.terms

/-- Compares two lists of terms lexicographically, terms by monomial and then by coefficient. -/
def cmpTerms : List Term → List Term → Ordering
  | [], [] => .eq
  | [], _ :: _ => .lt
  | _ :: _, [] => .gt
  | (m, a) :: left, (n, b) :: right =>
    match m.cmp n with
    | .eq => if a < b then .lt else if b < a then .gt else cmpTerms left right
    | o => o

/-- A total order: the ascending lists of terms, lexicographically. -/
def cmp (p q : Polynomial) : Ordering := cmpTerms p.terms q.terms

end Polynomial
end MarkovCheck

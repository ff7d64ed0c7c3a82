/-!
# MarkovCheck.Algebra.Monomial

Power products of named parameters.

Mathematical meaning: a monomial is the function that gives every parameter its exponent, zero for
all but finitely many. It is stored as the list of parameters with a positive exponent, in ascending
order of their names (`IsReduced`), so equal functions have equal lists. Exponents are natural
numbers; they and the total degrees, their sums, are taken to stay below `2 ^ 32`.

* `exponent`  — the exponent of a parameter, the view through which the operations are understood.
* `mul`, `div?`, `without` — product, exact quotient, and removal of one parameter.
* `cmp`       — the lexicographic order; the smallest name is the most significant parameter.
-/

namespace MarkovCheck

/-- The name of an indeterminate. Names are ordered by their code points. -/
abbrev Parameter := String

/-- One power `parameter ^ exponent`. -/
abbrev Factor := Parameter × Nat

/-- A product of powers of parameters. -/
structure Monomial where
  factors : List Factor
deriving DecidableEq, Repr, Inhabited

namespace Monomial

def one : Monomial := ⟨[]⟩

/-- A single power; the zeroth power is the empty product. -/
def power (x : Parameter) (k : Nat) : Monomial := if k = 0 then one else ⟨[(x, k)]⟩

def isOne (m : Monomial) : Bool := m.factors.isEmpty

/-- The stored form: names strictly ascending, exponents positive. -/
def IsReduced (m : Monomial) : Prop :=
  m.factors.Pairwise (·.1 < ·.1) ∧ ∀ f ∈ m.factors, 0 < f.2

def exponentIn (x : Parameter) : List Factor → Nat
  | [] => 0
  | (y, k) :: rest => if x = y then k else exponentIn x rest

/-- The exponent of a parameter, zero if it does not occur. -/
def exponent (m : Monomial) (x : Parameter) : Nat := exponentIn x m.factors

def degree (m : Monomial) : Nat := m.factors.foldl (fun n f => n + f.2) 0

def without (m : Monomial) (x : Parameter) : Monomial := ⟨m.factors.filter (·.1 ≠ x)⟩

/-- Merges two lists of factors, adding the exponents of common parameters. -/
def mulFactors : List Factor → List Factor → List Factor
  | [], right => right
  | left, [] => left
  | (x, j) :: left, (y, k) :: right =>
    match compare x y with
    | .lt => (x, j) :: mulFactors left ((y, k) :: right)
    | .eq => (x, j + k) :: mulFactors left right
    | .gt => (y, k) :: mulFactors ((x, j) :: left) right
termination_by left right => left.length + right.length

def mul (a b : Monomial) : Monomial := ⟨mulFactors a.factors b.factors⟩

/-- Subtracts the exponents of the divisor, as long as the dividend has them. -/
def divFactors : List Factor → List Factor → Option (List Factor)
  | left, [] => some left
  | [], _ :: _ => none
  | (x, j) :: left, (y, k) :: right =>
    match compare x y with
    | .lt => (divFactors left ((y, k) :: right)).map ((x, j) :: ·)
    | .eq =>
      if j < k then none
      else if j = k then divFactors left right
      else (divFactors left right).map ((x, j - k) :: ·)
    | .gt => none

def div? (a b : Monomial) : Option Monomial := (divFactors a.factors b.factors).map Monomial.mk

/-- Compares two lists of factors by the first parameter in which their exponents differ. -/
def cmpFactors : List Factor → List Factor → Ordering
  | [], [] => .eq
  | _ :: _, [] => .gt
  | [], _ :: _ => .lt
  | (x, j) :: left, (y, k) :: right =>
    match compare x y with
    | .lt => .gt
    | .gt => .lt
    | .eq =>
      match compare j k with
      | .eq => cmpFactors left right
      | o => o

def cmp (a b : Monomial) : Ordering := cmpFactors a.factors b.factors

/-- The text of one power; an exponent of one is not written. -/
def factorText (f : Factor) : String := if f.2 = 1 then f.1 else f.1 ++ "^" ++ toString f.2

/-- The text of a monomial: its powers joined by `*`, and `1` for the empty product. -/
def toText (m : Monomial) : String :=
  if m.isOne then "1" else "*".intercalate (m.factors.map factorText)

instance : ToString Monomial := ⟨toText⟩

end Monomial
end MarkovCheck

import MarkovCheck.Algebra.Polynomial.Gcd
import MarkovCheck.Algebra.Polynomial.Text

/-!
# MarkovCheck.Algebra.RationalFunction

Quotients of polynomials in canonical form.

Mathematical meaning: a rational function is the quotient of its numerator by its denominator. The
two are coprime and the denominator is monic (`IsCanonical`), so two functions are equal exactly
when they are equal as values.

* `ofFraction?` — the canonical form of any fraction with a denominator that is not zero.
* `add`, `sub`, `mul`, `neg`, `div?` — the arithmetic.
* `evalAt`      — the value for given parameter values.
* `cmp`         — a total order without algebraic meaning, numerators first.
-/

namespace MarkovCheck

/-- A quotient of polynomials. -/
structure RationalFunction where
  numerator : Polynomial
  denominator : Polynomial
deriving DecidableEq, Inhabited

namespace RationalFunction

/-- The stored form: reduced polynomials, coprime, with a monic denominator. -/
def IsCanonical (f : RationalFunction) : Prop :=
  f.numerator.IsReduced ∧ f.denominator.IsReduced ∧ f.denominator.leadingCoeff = 1 ∧
    Polynomial.gcd f.numerator f.denominator = .one

def ofPolynomial (p : Polynomial) : RationalFunction := ⟨p, .one⟩
def zero : RationalFunction := ofPolynomial .zero
def one : RationalFunction := ofPolynomial .one
def const (c : Rat) : RationalFunction := ofPolynomial (.const c)
def param (x : Parameter) : RationalFunction := ofPolynomial (.param x)

def isZero (f : RationalFunction) : Bool := f.numerator.isZero
def isOne (f : RationalFunction) : Bool := f.numerator.isOne && f.denominator.isOne

def const? (f : RationalFunction) : Option Rat :=
  if f.denominator.isOne then f.numerator.const? else none

def isConst (f : RationalFunction) : Bool := f.const?.isSome

/-- The parameters that occur, in ascending order. -/
def parameters (f : RationalFunction) : List Parameter :=
  unionNames f.numerator.parameters f.denominator.parameters

/-- Makes the denominator of a coprime fraction monic. -/
def ofCoprime (n d : Polynomial) : RationalFunction :=
  if n.isZero then zero
  else if d.leadingCoeff = 1 then ⟨n, d⟩
  else ⟨n.scale d.leadingCoeff⁻¹, d.scale d.leadingCoeff⁻¹⟩

/-- The quotient by a divisor; zero where there is none. -/
def cancel (p d : Polynomial) : Polynomial := if p.isZero then .zero else (p.div? d).getD .zero

/-- The canonical form of a fraction whose denominator is not zero. -/
def ofFraction (n d : Polynomial) : RationalFunction :=
  let g := Polynomial.gcd n d
  ofCoprime (cancel n g) (cancel d g)

/-- The text of a function: a fraction of bracketed polynomials, or the numerator alone. -/
def toText (f : RationalFunction) : String :=
  if f.denominator.isOne then f.numerator.toText
  else "(" ++ f.numerator.toText ++ ")/(" ++ f.denominator.toText ++ ")"

instance : ToString RationalFunction := ⟨toText⟩

/-- The canonical form of a fraction. -/
def ofFraction? (n d : Polynomial) : Except NumberError RationalFunction :=
  if d.isZero then .error (.divisionByZero ("(" ++ n.toText ++ ")/(0)")) else .ok (ofFraction n d)

/-- The sum. Over a common denominator the numerators are added, over the denominator one without
any cancelling. -/
def add (f g : RationalFunction) : RationalFunction :=
  if f.denominator = g.denominator then
    if f.denominator.isOne then ofPolynomial (f.numerator.add g.numerator)
    else ofFraction (f.numerator.add g.numerator) f.denominator
  else
    ofFraction ((f.numerator.mul g.denominator).add (g.numerator.mul f.denominator))
      (f.denominator.mul g.denominator)

def neg (f : RationalFunction) : RationalFunction := ⟨f.numerator.neg, f.denominator⟩

def sub (f g : RationalFunction) : RationalFunction := f.add g.neg

/-- The product with a coprime fraction, cancelling crosswise: the factors of the result are coprime
since those of both operands are. -/
def mulFraction (f : RationalFunction) (n d : Polynomial) : RationalFunction :=
  let left := Polynomial.gcd f.numerator d
  let right := Polynomial.gcd n f.denominator
  ofCoprime ((cancel f.numerator left).mul (cancel n right))
    ((cancel f.denominator right).mul (cancel d left))

def mul (f g : RationalFunction) : RationalFunction := f.mulFraction g.numerator g.denominator

/-- The quotient by a function that is not zero. -/
def div? (f g : RationalFunction) : Except NumberError RationalFunction :=
  if g.isZero then .error (.divisionByZero (f.toText ++ " / " ++ g.toText))
  else .ok (f.mulFraction g.denominator g.numerator)

/-- The value for given parameter values. The denominator comes first: it must have a value other
than zero. -/
def evalAt (v : Valuation) (f : RationalFunction) : Except NumberError Rat :=
  match f.denominator.evalAt v with
  | .error e => .error e
  | .ok d =>
    if d = 0 then .error (.divisionByZero f.toText)
    else
      match f.numerator.evalAt v with
      | .error e => .error e
      | .ok n => .ok (n / d)

/-- A total order: numerators first, then denominators. -/
def cmp (f g : RationalFunction) : Ordering :=
  (f.numerator.cmp g.numerator).then (f.denominator.cmp g.denominator)

instance : Add RationalFunction := ⟨add⟩
instance : Sub RationalFunction := ⟨sub⟩
instance : Mul RationalFunction := ⟨mul⟩
instance : Neg RationalFunction := ⟨neg⟩

end RationalFunction
end MarkovCheck

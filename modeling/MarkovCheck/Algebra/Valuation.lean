import MarkovCheck.Algebra.Monomial

/-!
# MarkovCheck.Algebra.Valuation

Values for parameters, and what can go wrong when an expression over parameters is evaluated.

* `Valuation`       — gives some parameters a rational value.
* `NumberError`     — a parameter without a value, or a division by zero.
* `Monomial.evalAt` — the value of a power product.
-/

namespace MarkovCheck

/-- Assigns a value to some of the parameters. -/
abbrev Valuation := Parameter → Option Rat

/-- Why an expression over parameters has no value. -/
inductive NumberError where
  /-- No value was given for a parameter. -/
  | undefinedConstant (name : String)
  /-- The given expression divides by zero. -/
  | divisionByZero (expression : String)
deriving DecidableEq, Repr

def NumberError.message : NumberError → String
  | .undefinedConstant name => "No value was given for the undefined constant " ++ name
  | .divisionByZero expression => "Division by zero while evaluating " ++ expression

namespace Monomial

/-- The product of the powers of the parameters' values; the first parameter without a value is
reported. -/
def evalFactors (v : Valuation) : List Factor → Except NumberError Rat
  | [] => .ok 1
  | (x, k) :: rest =>
    match v x with
    | none => .error (.undefinedConstant x)
    | some a =>
      match evalFactors v rest with
      | .error e => .error e
      | .ok b => .ok (a ^ k * b)

def evalAt (v : Valuation) (m : Monomial) : Except NumberError Rat := evalFactors v m.factors

end Monomial
end MarkovCheck

import MarkovCheck.Algebra.Polynomial.Text

/-!
# MarkovCheck.Program.Expression

The expressions of guarded command programs.

* `Scalar`     — truth values, integers of 64 bits, and exact rationals.
* `Expression` — literals, names of variables and constants, operators, and conditionals.
* `toText`     — the written form, with brackets around compound operands.
-/

namespace MarkovCheck

/-- A value that does not depend on parameters. -/
inductive Scalar where
  | bool (b : Bool)
  | int (n : Int)
  | rational (r : Rat)
deriving DecidableEq, Repr, Inhabited

namespace Scalar

def toText : Scalar → String
  | .bool b => toString b
  | .int n => toString n
  | .rational r => ratText r

/-- The numeric value; a truth value has none. -/
def number? : Scalar → Option Rat
  | .bool _ => none
  | .int n => some n
  | .rational r => some r

end Scalar

inductive UnaryOp where
  | not
  | minus
deriving DecidableEq, Repr

/-- The operators on truth values. -/
inductive Connective where
  | and
  | or
  | implies
  | iff
deriving DecidableEq, Repr

/-- The operators on numbers that stay within the integers. -/
inductive Arithmetic where
  | plus
  | minus
  | times
  | min
  | max
deriving DecidableEq, Repr

inductive Comparison where
  | equal
  | notEqual
  | less
  | lessEqual
  | greater
  | greaterEqual
deriving DecidableEq, Repr

inductive BinaryOp where
  | connective (c : Connective)
  | arithmetic (a : Arithmetic)
  | divide
  | comparison (c : Comparison)
deriving DecidableEq, Repr

/-- An expression of a guard, a probability, an assignment, a label or a reward. -/
inductive Expression where
  | literal (value : Scalar)
  | identifier (name : String)
  | unary (op : UnaryOp) (operand : Expression)
  | binary (op : BinaryOp) (left right : Expression)
  | ifThenElse (condition thenBranch elseBranch : Expression)
deriving DecidableEq, Repr, Inhabited

def UnaryOp.toText : UnaryOp → String
  | .not => "!"
  | .minus => "-"

def Connective.toText : Connective → String
  | .and => "&"
  | .or => "|"
  | .implies => "=>"
  | .iff => "<=>"

def Arithmetic.toText : Arithmetic → String
  | .plus => "+"
  | .minus => "-"
  | .times => "*"
  | .min => "min"
  | .max => "max"

def Comparison.toText : Comparison → String
  | .equal => "="
  | .notEqual => "!="
  | .less => "<"
  | .lessEqual => "<="
  | .greater => ">"
  | .greaterEqual => ">="

def BinaryOp.toText : BinaryOp → String
  | .connective c => c.toText
  | .arithmetic a => a.toText
  | .divide => "/"
  | .comparison c => c.toText

namespace Expression

/-- Whether an operator is written as a function. -/
def isFunction : BinaryOp → Bool
  | .arithmetic .min | .arithmetic .max => true
  | _ => false

/-- Whether an expression needs brackets as an operand. -/
def needsBrackets : Expression → Bool
  | .binary op _ _ => !isFunction op
  | .ifThenElse _ _ _ => true
  | _ => false

def operandText (e : Expression) (text : String) : String :=
  if e.needsBrackets then "(" ++ text ++ ")" else text

def toText : Expression → String
  | .literal value => value.toText
  | .identifier name => name
  | .unary op a => op.toText ++ operandText a a.toText
  | .binary op a b =>
    if isFunction op then op.toText ++ "(" ++ a.toText ++ ", " ++ b.toText ++ ")"
    else operandText a a.toText ++ " " ++ op.toText ++ " " ++ operandText b b.toText
  | .ifThenElse c t e =>
    operandText c c.toText ++ " ? " ++ operandText t t.toText ++ " : " ++ operandText e e.toText

def bool (b : Bool) : Expression := .literal (.bool b)
def int (n : Int) : Expression := .literal (.int n)
def fraction (n : Int) (d : Nat) : Expression := .literal (.rational (mkRat n d))

def not (a : Expression) : Expression := .unary .not a
def and (a b : Expression) : Expression := .binary (.connective .and) a b
def or (a b : Expression) : Expression := .binary (.connective .or) a b
def equals (a b : Expression) : Expression := .binary (.comparison .equal) a b
def less (a b : Expression) : Expression := .binary (.comparison .less) a b
def lessEqual (a b : Expression) : Expression := .binary (.comparison .lessEqual) a b
def greater (a b : Expression) : Expression := .binary (.comparison .greater) a b

instance : Add Expression := ⟨.binary (.arithmetic .plus)⟩
instance : Sub Expression := ⟨.binary (.arithmetic .minus)⟩
instance : Div Expression := ⟨.binary .divide⟩

/-- The conjunction of expressions, nested to the left; `true` for none. -/
def all : List Expression → Expression
  | [] => .bool true
  | a :: rest => rest.foldl .and a

/-- The disjunction of expressions, nested to the left; `false` for none. -/
def any : List Expression → Expression
  | [] => .bool false
  | a :: rest => rest.foldl .or a

end Expression
end MarkovCheck

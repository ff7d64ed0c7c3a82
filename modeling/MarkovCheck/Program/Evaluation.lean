import MarkovCheck.Program.Error

/-!
# MarkovCheck.Program.Evaluation

The value of an expression.

Mathematical meaning: names denote scalars, or values of the numeric domain that may depend on
parameters. Truth values, integers and rationals are exact; integers have 64 bits, and a result that
does not fit is an error. Two evaluators share this meaning: `eval` gives a scalar and refuses names
that depend on parameters, `evalValue` computes in the numeric domain.

* `Binding`, `Env` — what a name stands for.
* `eval`, `evalBool`, `evalInt` — the scalar of an expression.
* `evalValue`      — its value in a numeric domain.
-/

namespace MarkovCheck

/-- What a name stands for: a scalar, or a value that may depend on parameters. -/
inductive Binding (V : Type) where
  | scalar (value : Scalar)
  | symbolic (value : V)

/-- The names that an expression may use. -/
abbrev Env (V : Type) := String → Option (Binding V)

def fitsInt64 (n : Int) : Bool := -(Nat.pow 2 63 : Int) ≤ n && n < (Nat.pow 2 63 : Int)

/-- The result of a connective that its left operand decides alone. -/
def Connective.decided? : Connective → Bool → Option Bool
  | .and, false => some false
  | .or, true => some true
  | .implies, false => some true
  | _, _ => none

def Connective.apply : Connective → Bool → Bool → Bool
  | .and, x, y => x && y
  | .or, x, y => x || y
  | .implies, x, y => !x || y
  | .iff, x, y => x == y

def Arithmetic.onInt : Arithmetic → Int → Int → Int
  | .plus, m, n => m + n
  | .minus, m, n => m - n
  | .times, m, n => m * n
  | .min, m, n => if m ≤ n then m else n
  | .max, m, n => if m ≤ n then n else m

def Arithmetic.onRat : Arithmetic → Rat → Rat → Rat
  | .plus, x, y => x + y
  | .minus, x, y => x - y
  | .times, x, y => x * y
  | .min, x, y => if x ≤ y then x else y
  | .max, x, y => if x ≤ y then y else x

def Comparison.onRat : Comparison → Rat → Rat → Bool
  | .equal, x, y => x = y
  | .notEqual, x, y => x ≠ y
  | .less, x, y => x < y
  | .lessEqual, x, y => x ≤ y
  | .greater, x, y => y < x
  | .greaterEqual, x, y => y ≤ x

namespace Expression

/-- The integer result of an operation, if it fits. -/
def checkedInt (e : Expression) (n : Int) : Except BuildError Scalar :=
  if fitsInt64 n then .ok (.int n) else .error (e.invalid "integer overflow")

def expectNumber (e : Expression) (s : Scalar) : Except BuildError Rat :=
  match s.number? with
  | some r => .ok r
  | none => .error (e.invalid ("expected a number, found " ++ s.toText))

def expectBool (e : Expression) : Scalar → Except BuildError Bool
  | .bool b => .ok b
  | s => .error (e.invalid ("expected a boolean, found " ++ s.toText))

def expectInt (e : Expression) : Scalar → Except BuildError Int
  | .int n => .ok n
  | s => .error (e.invalid ("expected an integer, found " ++ s.toText))

/-- The numbers of two operands of `e`, the left one first. -/
def expectNumbers (e : Expression) (a b : Scalar) : Except BuildError (Rat × Rat) :=
  match e.expectNumber a with
  | .error err => .error err
  | .ok x =>
    match e.expectNumber b with
    | .error err => .error err
    | .ok y => .ok (x, y)

/-- Arithmetic on integers that fit, or on rationals if one of the operands is rational. -/
def arithmetic (e : Expression) (op : Arithmetic) (a b : Scalar) : Except BuildError Scalar :=
  match a, b with
  | .int m, .int n => e.checkedInt (op.onInt m n)
  | a, b =>
    match e.expectNumbers a b with
    | .error err => .error err
    | .ok (x, y) => .ok (.rational (op.onRat x y))

/-- A comparison of two truth values, for equality alone, or of two numbers. -/
def comparison (e : Expression) (op : Comparison) (a b : Scalar) : Except BuildError Scalar :=
  match op, a, b with
  | .equal, .bool x, .bool y => .ok (.bool (x == y))
  | .notEqual, .bool x, .bool y => .ok (.bool (x != y))
  | op, a, b =>
    match e.expectNumbers a b with
    | .error err => .error err
    | .ok (x, y) => .ok (.bool (op.onRat x y))

def quotient (e : Expression) (x y : Rat) : Except BuildError Scalar :=
  if y = 0 then .error (e.invalid "division by zero") else .ok (.rational (x / y))

def applyUnary (e : Expression) : UnaryOp → Scalar → Except BuildError Scalar
  | .not, .bool b => .ok (.bool !b)
  | .minus, .int n => e.checkedInt (-n)
  | .minus, .rational r => .ok (.rational (-r))
  | op, s => .error (e.invalid ("cannot apply " ++ op.toText ++ " to " ++ s.toText))

variable {V : Type}

def evalName (env : Env V) (name : String) : Except BuildError Scalar :=
  match env name with
  | some (.scalar s) => .ok s
  | some (.symbolic _) => .error (.undefinedConstant name)
  | none => .error ((identifier name).invalid ("unknown identifier " ++ name))

/-- The scalar of an expression. Operands are evaluated from left to right, and the right operand of
`&`, `|` and `=>` only if it matters. -/
def eval (env : Env V) : Expression → Except BuildError Scalar
  | .literal s => .ok s
  | .identifier name => evalName env name
  | .unary op a =>
    match eval env a with
    | .error err => .error err
    | .ok s => applyUnary (.unary op a) op s
  | .binary op a b =>
    match eval env a with
    | .error err => .error err
    | .ok s =>
      match op with
      | .connective c =>
        match a.expectBool s with
        | .error err => .error err
        | .ok x =>
          match c.decided? x with
          | some r => .ok (.bool r)
          | none =>
            match eval env b with
            | .error err => .error err
            | .ok t =>
              match b.expectBool t with
              | .error err => .error err
              | .ok y => .ok (.bool (c.apply x y))
      | .arithmetic op' =>
        match eval env b with
        | .error err => .error err
        | .ok t => (Expression.binary op a b).arithmetic op' s t
      | .comparison op' =>
        match eval env b with
        | .error err => .error err
        | .ok t => (Expression.binary op a b).comparison op' s t
      | .divide =>
        match (Expression.binary op a b).expectNumber s with
        | .error err => .error err
        | .ok x =>
          match eval env b with
          | .error err => .error err
          | .ok t =>
            match (Expression.binary op a b).expectNumber t with
            | .error err => .error err
            | .ok y => (Expression.binary op a b).quotient x y
  | .ifThenElse c t e =>
    match eval env c with
    | .error err => .error err
    | .ok s =>
      match c.expectBool s with
      | .error err => .error err
      | .ok true => eval env t
      | .ok false => eval env e

def evalBool (env : Env V) (e : Expression) : Except BuildError Bool :=
  match e.eval env with
  | .error err => .error err
  | .ok s => e.expectBool s

def evalInt (env : Env V) (e : Expression) : Except BuildError Int :=
  match e.eval env with
  | .error err => .error err
  | .ok s => e.expectInt s

variable [Value V]

/-- The value of a number in the numeric domain. -/
def scalarValue (e : Expression) (s : Scalar) : Except BuildError V :=
  match e.expectNumber s with
  | .error err => .error err
  | .ok r => .ok (Value.ofRat r)

/-- The value of an expression that is evaluated as a scalar. -/
def evalScalarValue (env : Env V) (e : Expression) : Except BuildError V :=
  match e.eval env with
  | .error err => .error err
  | .ok s => e.scalarValue s

/-- The value of an expression in the numeric domain. The divisor is evaluated before the dividend;
conditions and the operands of all operators other than `+`, `-`, `*` and `/` are scalars. -/
def evalValue (env : Env V) : Expression → Except BuildError V
  | .identifier name =>
    match env name with
    | some (.symbolic v) => .ok v
    | _ => (identifier name).evalScalarValue env
  | .unary .minus a =>
    match evalValue env a with
    | .error err => .error err
    | .ok x => .ok (Value.sub Value.zero x)
  | .binary (.arithmetic .plus) a b =>
    match evalValue env a with
    | .error err => .error err
    | .ok x =>
      match evalValue env b with
      | .error err => .error err
      | .ok y => .ok (Value.add x y)
  | .binary (.arithmetic .minus) a b =>
    match evalValue env a with
    | .error err => .error err
    | .ok x =>
      match evalValue env b with
      | .error err => .error err
      | .ok y => .ok (Value.sub x y)
  | .binary (.arithmetic .times) a b =>
    match evalValue env a with
    | .error err => .error err
    | .ok x =>
      match evalValue env b with
      | .error err => .error err
      | .ok y => .ok (Value.mul x y)
  | .binary .divide a b =>
    match evalValue env b with
    | .error err => .error err
    | .ok y =>
      if Value.isZero y then .error ((Expression.binary .divide a b).invalid "division by zero")
      else
        match evalValue env a with
        | .error err => .error err
        | .ok x =>
          match Value.div? x y with
          | some q => .ok q
          | none => .error ((Expression.binary .divide a b).invalid "division by zero")
  | .ifThenElse c t e =>
    match c.evalBool env with
    | .error err => .error err
    | .ok true => evalValue env t
    | .ok false => evalValue env e
  | e => e.evalScalarValue env

end Expression
end MarkovCheck

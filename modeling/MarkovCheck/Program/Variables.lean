import MarkovCheck.Program.Constants

/-!
# MarkovCheck.Program.Variables

The variables of a program and their valuations.

A valuation lists the values of the variables in the order of their declarations; a truth value is
stored as 0 or 1.

* `Variable`          — a name with a range and an initial value.
* `resolveVariables`  — the variables of a program.
* `Variables.find?`, `Variables.env` — the place of a name in a valuation, and its value.
* `Variables.all`     — all valuations within the ranges, in lexicographic order.
-/

namespace MarkovCheck

/-- A variable with the bounds of its range; truth values have the range `[0..1]`. -/
structure Variable where
  name : String
  lower : Int
  upper : Int
  isBool : Bool
  initial : Int
deriving DecidableEq, Repr

/-- The variables of all modules, in the order of their declarations. -/
abbrev Variables := List Variable


namespace Variable

def scalar (v : Variable) (n : Int) : Scalar := if v.isBool then .bool (n != 0) else .int n

def inRange (v : Variable) (n : Int) : Bool := v.lower ≤ n && n ≤ v.upper

/-- The stored form of a value, which must have the type of the variable and lie in its range. -/
def store (v : Variable) (s : Scalar) : Except BuildError Int :=
  match v.isBool, s with
  | true, .bool b => .ok (if b then 1 else 0)
  | false, .int n =>
    if v.inRange n then .ok n else .error (.variableOutOfBounds v.name n v.lower v.upper)
  | _, s =>
    .error (.invalidExpression s.toText ("cannot be assigned to variable " ++ v.name))

def range (v : Variable) : List Int :=
  (List.range (v.upper - v.lower + 1).toNat).map fun (k : Nat) => v.lower + k

end Variable

namespace Variables

def find? : Variables → String → Option (Nat × Variable)
  | [], _ => none
  | v :: vs, name =>
    if v.name = name then some (0, v) else (find? vs name).map fun (i, w) => (i + 1, w)

def valueOf : Variables → List Int → String → Option Scalar
  | v :: vs, n :: ns, name => if v.name = name then some (v.scalar n) else valueOf vs ns name
  | _, _, _ => none

/-- The names of a program in a valuation: variables first, then constants. -/
def env {V : Type} (vs : Variables) (c : Constants V) (state : List Int) : Env V := fun name =>
  match valueOf vs state name with
  | some s => some (.scalar s)
  | none => c.lookup name

def initial (vs : Variables) : List Int := vs.map (·.initial)

/-- All valuations within the ranges, in lexicographic order. -/
def all : Variables → List (List Int)
  | [] => [[]]
  | v :: vs => v.range.flatMap fun n => (all vs).map (n :: ·)

/-- The number of valuations within the ranges. -/
def count (vs : Variables) : Nat := vs.foldl (fun n v => n * (v.upper - v.lower + 1).toNat) 1

/-- The text of a valuation. -/
def toText (vs : Variables) (state : List Int) : String :=
  "(" ++ ", ".intercalate ((vs.zip state).map fun (v, n) =>
    v.name ++ "=" ++ (v.scalar n).toText) ++ ")"

end Variables

namespace VariableDecl

variable {V : Type}

def bounds (d : VariableDecl) (env : Env V) : Except BuildError (Int × Int × Bool) :=
  match d.type with
  | .bool => .ok (0, 1, true)
  | .range lower upper =>
    match lower.evalInt env with
    | .error err => .error err
    | .ok l =>
      match upper.evalInt env with
      | .error err => .error err
      | .ok u => .ok (l, u, false)

/-- The stored initial value of a variable, its lower bound if none is declared. -/
def initialValue (d : VariableDecl) (env : Env V) (v : Variable) : Except BuildError Int :=
  match d.initial with
  | none => .ok v.lower
  | some e =>
    match e.eval env with
    | .error err => .error err
    | .ok s => v.store s

/-- A variable that is declared after others: its range must not be empty, and its name new. -/
def resolve (d : VariableDecl) (env : Env V) (earlier : Variables) :
    Except BuildError Variable :=
  match d.bounds env with
  | .error err => .error err
  | .ok (l, u, isBool) =>
    if u < l then
      .error (.malformedModel
        ("the range [" ++ toString l ++ ".." ++ toString u ++ "] of variable " ++ d.name ++
          " is empty"))
    else if (Variables.find? earlier d.name).isSome then
      .error (.malformedModel ("variable " ++ d.name ++ " is declared twice"))
    else
      let v : Variable := ⟨d.name, l, u, isBool, l⟩
      match d.initialValue env v with
      | .error err => .error err
      | .ok n => .ok { v with initial := n }

end VariableDecl

def resolveVariablesFrom {V : Type} (env : Env V) (vs : Variables) :
    List VariableDecl → Except BuildError Variables
  | [] => .ok vs
  | d :: rest =>
    match d.resolve env vs with
    | .error err => .error err
    | .ok v => resolveVariablesFrom env (vs ++ [v]) rest

/-- The variables of all modules; bounds and initial values may refer to constants. -/
def resolveVariables {V : Type} (p : Program) (c : Constants V) : Except BuildError Variables :=
  resolveVariablesFrom c.env [] (p.modules.flatMap (·.vars))

end MarkovCheck

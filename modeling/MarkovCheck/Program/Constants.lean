import MarkovCheck.Program.Evaluation

/-!
# MarkovCheck.Program.Constants

The values of the constants of a program.

Constants are resolved in the order of their declarations, and may refer to the constants before
them. A constant of type `double` without a value is a parameter, if the numeric domain has
parameters; a constant of that type that is defined by parameters is a value of the domain.

* `Constants`        — the bindings, the newest first, so that the last declaration counts.
* `resolveConstants` — the bindings of all constants.
-/

namespace MarkovCheck

/-- The bindings of constants, the newest first. -/
abbrev Constants (V : Type) := List (String × Binding V)

def Constants.env {V : Type} (c : Constants V) : Env V := fun name => c.lookup name

namespace ConstantDecl

variable {V : Type}

/-- Adapts a value to the declared type: integers become rationals for the type `double`, and other
differences are errors. -/
def coerce (d : ConstantDecl) : Binding V → Except BuildError (Binding V)
  | .symbolic v =>
    match d.type with
    | .double => .ok (.symbolic v)
    | _ => .error (.undefinedConstant d.name)
  | .scalar s =>
    match d.type, s with
    | .bool, .bool b => .ok (.scalar (.bool b))
    | .int, .int n => .ok (.scalar (.int n))
    | .double, .int n => .ok (.scalar (.rational n))
    | .double, .rational r => .ok (.scalar (.rational r))
    | type, s =>
      .error (.invalidExpression s.toText
        ("constant " ++ d.name ++ " of type " ++ type.toText ++ " cannot have this value"))

variable [Value V]

/-- The value of a definition: a scalar, or a value of the domain if it depends on parameters and
the constant may. -/
def define (d : ConstantDecl) (env : Env V) (e : Expression) : Except BuildError (Binding V) :=
  match e.eval env with
  | .ok s => .ok (.scalar s)
  | .error (.undefinedConstant name) =>
    match d.type with
    | .double =>
      match e.evalValue env with
      | .ok v => .ok (.symbolic v)
      | .error err => .error err
    | _ => .error (.undefinedConstant name)
  | .error err => .error err

/-- The parameter of a constant without a value. -/
def parameter (d : ConstantDecl) : Except BuildError (Binding V) :=
  match d.type, (Value.param? d.name : Option V) with
  | .double, some v => .ok (.symbolic v)
  | _, _ => .error (.undefinedConstant d.name)

/-- The value of a constant: the given one, that of its definition, or a parameter. -/
def resolve (d : ConstantDecl) (given : List (String × Scalar)) (env : Env V) :
    Except BuildError (Binding V) :=
  let value : Except BuildError (Binding V) :=
    match given.lookup d.name, d.definition with
    | some s, _ => .ok (.scalar s)
    | none, some e => d.define env e
    | none, none => d.parameter
  match value with
  | .error err => .error err
  | .ok b => d.coerce b

end ConstantDecl

variable {V : Type} [Value V]

def resolveConstantsFrom (given : List (String × Scalar)) (c : Constants V) :
    List ConstantDecl → Except BuildError (Constants V)
  | [] => .ok c
  | d :: rest =>
    match d.resolve given c.env with
    | .error err => .error err
    | .ok b => resolveConstantsFrom given ((d.name, b) :: c) rest

/-- The values of the constants of a program; given values take precedence over definitions. -/
def resolveConstants (p : Program) (given : List (String × Scalar)) :
    Except BuildError (Constants V) :=
  resolveConstantsFrom given [] p.constants

end MarkovCheck

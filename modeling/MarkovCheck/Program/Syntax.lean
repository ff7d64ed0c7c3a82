import MarkovCheck.Chain.Model
import MarkovCheck.Program.Expression
import MarkovCheck.Text.Names

/-!
# MarkovCheck.Program.Syntax

Programs of guarded commands: constants, modules with variables and commands, labels and rewards.
-/

namespace MarkovCheck

inductive ConstantType where
  | bool
  | int
  | double
deriving DecidableEq, Repr

def ConstantType.toText : ConstantType → String
  | .bool => "bool"
  | .int => "int"
  | .double => "double"

/-- `const type name = definition;` A constant without a definition is undefined. -/
structure ConstantDecl where
  name : String
  type : ConstantType
  definition : Option Expression := none
deriving DecidableEq, Repr

inductive VariableType where
  | bool
  /-- The integers from a lower to an upper bound. -/
  | range (lower upper : Expression)
deriving DecidableEq, Repr

/-- A variable of a module. Without an initial value it starts with its lower bound or `false`. -/
structure VariableDecl where
  name : String
  type : VariableType
  initial : Option Expression := none
deriving DecidableEq, Repr

/-- `probability : (x'=e) & ...` -/
structure Update where
  probability : Expression
  assignments : List (String × Expression)
deriving DecidableEq, Repr

/-- `[action] guard -> update + ...;` A command without action interleaves, commands with an action
synchronise with all modules that have it. -/
structure Command where
  action : Option String := none
  guard : Expression
  updates : List Update
deriving DecidableEq, Repr

structure Module where
  name : String
  vars : List VariableDecl
  commands : List Command
deriving DecidableEq, Repr

/-- `label "name" = expression;` -/
structure LabelDecl where
  name : String
  expression : Expression
deriving DecidableEq, Repr

/-- A reward structure: every state earns the values of all guards that it satisfies. -/
structure RewardDecl where
  name : String
  items : List (Expression × Expression)
deriving DecidableEq, Repr

structure Program where
  kind : ModelKind := .dtmc
  constants : List ConstantDecl := []
  modules : List Module := []
  init : Option Expression := none
  labels : List LabelDecl := []
  rewards : List RewardDecl := []
deriving DecidableEq, Repr

/-- The actions of the commands of a module, in ascending order. -/
def Module.alphabet (m : Module) : List String := sortNames (m.commands.filterMap (·.action))

namespace Program

def undefinedConstants (p : Program) : List ConstantDecl :=
  p.constants.filter (·.definition.isNone)

def label? (p : Program) (name : String) : Option LabelDecl := p.labels.find? (·.name == name)

def reward? (p : Program) (name : String) : Option RewardDecl := p.rewards.find? (·.name == name)

end Program
end MarkovCheck

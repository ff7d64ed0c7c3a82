import MarkovCheck.Chain.Model

/-!
# MarkovCheck.Logic.Formula

Formulas over the labels of states and the properties built from them.

Mathematical meaning: a state formula is a Boolean combination of labels; `holds` is its truth in a
state, given which labels the state carries. A property asks for the probability of a set of paths
or for an expected reward.

* `StateFormula`, `PathFormula`, `Property` — the syntax.
* `StateFormula.holds`   — truth in one state.
* `StateFormula.states?` — the set of states of a labeling in which it is true.
* `labels`               — the labels that a formula or a property refers to.
-/

namespace MarkovCheck

/-- A formula over the labels of one state. -/
inductive StateFormula where
  | true
  | false
  | label (name : String)
  | not (f : StateFormula)
  | and (f g : StateFormula)
  | or (f g : StateFormula)
deriving DecidableEq, Repr, Inhabited

/-- A formula over paths. -/
inductive PathFormula where
  /-- `X f` -/
  | next (f : StateFormula)
  /-- `f U g` -/
  | until (f g : StateFormula)
  /-- `f U<=k g` -/
  | boundedUntil (f g : StateFormula) (k : Nat)
  /-- `F f` -/
  | eventually (f : StateFormula)
  /-- `G f` -/
  | globally (f : StateFormula)
deriving DecidableEq, Repr

/-- A quantitative query. -/
inductive Property where
  /-- The probability of the paths that satisfy a formula. -/
  | probability (path : PathFormula)
  /-- The expected reward up to a state that satisfies the target. Without a name the model must have
  exactly one reward model. -/
  | reward (name : Option String) (target : StateFormula)
deriving DecidableEq, Repr

namespace StateFormula

/-- Truth in a state, where `carries` tells which labels the state carries. -/
def holds (carries : String → Bool) : StateFormula → Bool
  | .true => Bool.true
  | .false => Bool.false
  | .label name => carries name
  | .not f => !f.holds carries
  | .and f g => f.holds carries && g.holds carries
  | .or f g => f.holds carries || g.holds carries

/-- The labels that occur, from left to right. -/
def labels : StateFormula → List String
  | .true | .false => []
  | .label name => [name]
  | .not f => f.labels
  | .and f g | .or f g => f.labels ++ g.labels

/-- The states in which the formula is true; the leftmost label that the labeling does not know is
reported. -/
def states? (l : Labeling) : StateFormula → Except ModelError StateSet
  | .true => .ok (.full l.numStates)
  | .false => .ok (.empty l.numStates)
  | .label name =>
    match l.states? name with
    | some s => .ok s
    | none => .error (.unknownLabel name)
  | .not f =>
    match f.states? l with
    | .error e => .error e
    | .ok s => .ok s.compl
  | .and f g =>
    match f.states? l with
    | .error e => .error e
    | .ok s =>
      match g.states? l with
      | .error e => .error e
      | .ok t => .ok (s.inter t)
  | .or f g =>
    match f.states? l with
    | .error e => .error e
    | .ok s =>
      match g.states? l with
      | .error e => .error e
      | .ok t => .ok (s.union t)

def toText : StateFormula → String
  | .true => "true"
  | .false => "false"
  | .label name => "\"" ++ name ++ "\""
  | .not f => "!(" ++ f.toText ++ ")"
  | .and f g => "(" ++ f.toText ++ " & " ++ g.toText ++ ")"
  | .or f g => "(" ++ f.toText ++ " | " ++ g.toText ++ ")"

end StateFormula

namespace PathFormula

def labels : PathFormula → List String
  | .next f | .eventually f | .globally f => f.labels
  | .until f g | .boundedUntil f g _ => f.labels ++ g.labels

def toText : PathFormula → String
  | .next f => "X " ++ f.toText
  | .until f g => f.toText ++ " U " ++ g.toText
  | .boundedUntil f g k => f.toText ++ " U<=" ++ toString k ++ " " ++ g.toText
  | .eventually f => "F " ++ f.toText
  | .globally f => "G " ++ f.toText

end PathFormula

namespace Property

def labels : Property → List String
  | .probability path => path.labels
  | .reward _ target => target.labels

/-- The reward models that the property refers to by name. -/
def rewardNames : Property → List String
  | .reward (some name) _ => [name]
  | _ => []

def toText : Property → String
  | .probability path => "P=? [" ++ path.toText ++ "]"
  | .reward (some name) target =>
    "R\x7b\"" ++ name ++ "\"\x7d=? [F " ++ target.toText ++ "]"
  | .reward none target => "R=? [F " ++ target.toText ++ "]"

end Property
end MarkovCheck

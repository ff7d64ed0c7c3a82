import Std.Data.HashMap
import MarkovCheck.Program.Choices
import MarkovCheck.Program.Options

/-!
# MarkovCheck.Program.Build

The model of a program.

Valuations are explored breadth first from the initial ones and numbered as they are found; the
choices of a state are taken with equal probability. Every state is visited once, and there are no
more states than valuations within the ranges of the variables.

* `Exploration` — the numbered valuations and the transitions found so far.
* `expand`      — visits one state.
* `build`       — explores, then evaluates labels and rewards in every state.
-/

namespace MarkovCheck

/-- The label of the initial states. -/
def initLabel : String := "init"

/-- The label of the states that have a self-loop because nothing is enabled. -/
def deadlockLabel : String := "deadlock"

/-- The valuations found so far, in the order of their numbers, and the model that is being built. -/
structure Exploration (V : Type) where
  states : Array (List Int) := #[]
  numbers : Std.HashMap (List Int) Nat := {}
  builder : Builder V := {}
  deadlocks : Array Nat := #[]

namespace Exploration

variable {V : Type}

/-- The number of a valuation, which becomes a new state if it has not been found before. -/
def discover (x : Exploration V) (state : List Int) : Nat × Exploration V :=
  match x.numbers[state]? with
  | some s => (s, x)
  | none =>
    let s := x.states.size
    (s, { x with states := x.states.push state, numbers := x.numbers.insert state s })

def addInitial (x : Exploration V) (state : List Int) : Exploration V :=
  let (s, x) := x.discover state
  { x with builder := x.builder.addInitial s }

variable [Value V]

/-- The probability of choosing one of `n` choices; a single choice needs no factor. -/
def uniform? (n : Nat) : Option V :=
  if n ≤ 1 then none else some ((Value.div? Value.one (Value.ofInt n)).getD Value.zero)

def scaled (scale : Option V) (v : V) : V :=
  match scale with
  | none => v
  | some c => Value.mul v c

/-- Adds the transitions of a state to the valuations of a distribution. -/
def addTransitions (s : Nat) (scale : Option V) (x : Exploration V) (d : Distribution V) :
    Exploration V :=
  d.foldl
    (fun x t =>
      let (target, x) := x.discover t.1
      { x with builder := x.builder.addTransition s target (scaled scale t.2) })
    x

/-- Visits a state: adds the transitions of its choices, or a self-loop if it has none. -/
def expand (c : Context V) (dynamics : Dynamics) (fixDeadlocks : Bool) (s : Nat)
    (state : List Int) (x : Exploration V) : Except BuildError (Exploration V) :=
  match c.choices dynamics state with
  | .error err => .error err
  | .ok [] =>
    if fixDeadlocks then
      .ok { x with
        builder := x.builder.addTransition s s Value.one
        deadlocks := x.deadlocks.push s }
    else
      .error (.malformedModel
        ("state " ++ Variables.toText c.vars state ++ " has no enabled commands"))
  | .ok ds => .ok (ds.foldl (addTransitions s (uniform? ds.length)) x)

/-- Visits the states from number `s` on, `fuel` of them at most. -/
def run (c : Context V) (dynamics : Dynamics) (fixDeadlocks : Bool) :
    Nat → Nat → Exploration V → Except BuildError (Exploration V)
  | 0, _, x => .ok x
  | fuel + 1, s, x =>
    match x.states[s]? with
    | none => .ok x
    | some state =>
      match x.expand c dynamics fixDeadlocks s state with
      | .error err => .error err
      | .ok x => run c dynamics fixDeadlocks fuel (s + 1) x

end Exploration

namespace Program

variable {V : Type} [Value V]

def satisfying (c : Context V) (predicate : Expression) :
    List (List Int) → Except BuildError (List (List Int))
  | [] => .ok []
  | state :: rest =>
    match predicate.evalBool (c.env state) with
    | .error err => .error err
    | .ok holds =>
      match satisfying c predicate rest with
      | .error err => .error err
      | .ok states => .ok (if holds then state :: states else states)

/-- The initial valuations: that of the initial values, or all that satisfy the predicate of the
program. -/
def initialStates (p : Program) (c : Context V) : Except BuildError (List (List Int)) :=
  match p.init with
  | none => .ok [Variables.initial c.vars]
  | some predicate => satisfying c predicate (Variables.all c.vars)

/-- The declarations with the given names; a name without declaration is an error. -/
def selectAll {α : Type} (find : String → Option α) (unknown : String → BuildError) :
    List String → Except BuildError (List α)
  | [] => .ok []
  | name :: rest =>
    match find name with
    | none => .error (unknown name)
    | some a =>
      match selectAll find unknown rest with
      | .error err => .error err
      | .ok as => .ok (a :: as)

/-- Whether a label is reserved for the initial states or the deadlocks. -/
def isReserved (name : String) : Bool := name == initLabel || name == deadlockLabel

/-- The labels to build. No program may declare a reserved label. -/
def selectLabels (p : Program) (o : BuildOptions) : Except BuildError (List LabelDecl) :=
  match p.labels.find? fun l => isReserved l.name with
  | some l => .error (.malformedModel ("the label \"" ++ l.name ++ "\" is reserved"))
  | none =>
    match o.labels with
    | none => .ok p.labels
    | some names => selectAll p.label? .unknownLabel (names.filter fun name => !isReserved name)

def selectRewards (p : Program) (o : BuildOptions) : Except BuildError (List RewardDecl) :=
  match o.rewards with
  | none => .ok p.rewards
  | some names => selectAll p.reward? .unknownReward names

def addLabels (env : Env V) (s : Nat) (b : Builder V) :
    List LabelDecl → Except BuildError (Builder V)
  | [] => .ok b
  | l :: rest =>
    match l.expression.evalBool env with
    | .error err => .error err
    | .ok holds => addLabels env s (if holds then b.addStateLabel s l.name else b) rest

/-- The values of the items whose guards hold. -/
def rewardValues (env : Env V) : List (Expression × Expression) → Except BuildError (List V)
  | [] => .ok []
  | (guard, value) :: rest =>
    match guard.evalBool env with
    | .error err => .error err
    | .ok false => rewardValues env rest
    | .ok true =>
      match value.evalValue env with
      | .error err => .error err
      | .ok v =>
        match rewardValues env rest with
        | .error err => .error err
        | .ok vs => .ok (v :: vs)

/-- Adds the rewards of a state that are not zero. -/
def addRewards (env : Env V) (s : Nat) (b : Builder V) :
    List RewardDecl → Except BuildError (Builder V)
  | [] => .ok b
  | r :: rest =>
    match rewardValues env r.items with
    | .error err => .error err
    | .ok vs =>
      let reward := Value.sumCanonical vs
      addRewards env s (if Value.isZero reward then b else b.addStateReward r.name s reward) rest

/-- Adds the labels and rewards of numbered valuations. -/
def addAnnotations (c : Context V) (labels : List LabelDecl) (rewards : List RewardDecl)
    (b : Builder V) : List (List Int × Nat) → Except BuildError (Builder V)
  | [] => .ok b
  | (state, s) :: rest =>
    match addLabels (c.env state) s b labels with
    | .error err => .error err
    | .ok b =>
      match addRewards (c.env state) s b rewards with
      | .error err => .error err
      | .ok b => addAnnotations c labels rewards b rest

/-- Declares the labels and reward models, the two reserved labels first. -/
def declareNames (x : Exploration V) (numInitial : Nat) (labels : List LabelDecl)
    (rewards : List RewardDecl) : Builder V :=
  let b := x.builder.addLabel initLabel
  let b := (List.range numInitial).foldl (fun b s => b.addStateLabel s initLabel) b
  let b := b.addLabel deadlockLabel
  let b := x.deadlocks.toList.foldl (fun b s => b.addStateLabel s deadlockLabel) b
  let b := labels.foldl (fun b l => b.addLabel l.name) b
  rewards.foldl (fun b r => b.addRewardModel r.name) b

/-- The states reachable from the initial valuations and the transitions between them. -/
def explore (p : Program) (o : BuildOptions) (c : Context V) (initial : List (List Int)) :
    Except BuildError (Exploration V) :=
  Exploration.run c p.dynamics o.fixDeadlocks (Variables.count c.vars + 1) 0
    (initial.foldl Exploration.addInitial {})

/-- The model of a program. -/
def build (p : Program) (o : BuildOptions) : Except BuildError (Model V) :=
  if p.kind ≠ .dtmc then .error (.unsupportedKind p.kind)
  else
    match resolveConstants p o.constants with
    | .error err => .error err
    | .ok constants =>
      match resolveVariables p constants with
      | .error err => .error err
      | .ok vars =>
        match p.selectLabels o with
        | .error err => .error err
        | .ok labels =>
          match p.selectRewards o with
          | .error err => .error err
          | .ok rewards =>
            let c : Context V := ⟨constants, vars⟩
            match p.initialStates c with
            | .error err => .error err
            | .ok [] => .error (.malformedModel "there are no initial states")
            | .ok initial =>
              match p.explore o c initial with
              | .error err => .error err
              | .ok x =>
                match addAnnotations c labels rewards
                    (declareNames x initial.length labels rewards) x.states.toList.zipIdx with
                | .error err => .error err
                | .ok b =>
                  match b.finish .dtmc with
                  | .error err => .error (.model err)
                  | .ok m => .ok m

end Program
end MarkovCheck

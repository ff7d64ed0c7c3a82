import MarkovCheck.Program.Variables

/-!
# MarkovCheck.Program.Choices

What a program can do in a valuation.

A choice is one enabled command without action, or, for an action, one enabled command of every
module that has the action. A choice leads to a distribution: one update of each of its commands is
chosen independently, and the assignments are evaluated in the valuation that is left.

* `Dynamics`     — the commands of a program, sorted by how they combine.
* `distribution` — the successors of a choice with their probabilities.
* `choices`      — the distributions of all choices.
-/

namespace MarkovCheck

/-- Valuations with probabilities; a valuation may occur more than once. -/
abbrev Distribution (V : Type) := List (List Int × V)

/-- The tolerance for the sum of the probabilities of a choice. -/
def probabilityTolerance : Double := .ofRat (mkRat 1 1000000)

structure Dynamics where
  /-- The commands without action of all modules. -/
  interleaved : List Command
  /-- For every action in ascending order, the commands of each module that has it. -/
  synchronised : List (List (List Command))

def Module.commandsOf (m : Module) (action : String) : List Command :=
  m.commands.filter (·.action = some action)

namespace Program

/-- The actions of all modules, in ascending order. -/
def actions (p : Program) : List String :=
  sortNames (p.modules.flatMap fun m => m.commands.filterMap (·.action))

/-- The commands with a given action of each module that has it. -/
def participants (p : Program) (action : String) : List (List Command) :=
  (p.modules.map (·.commandsOf action)).filter (!·.isEmpty)

def dynamics (p : Program) : Dynamics where
  interleaved := p.modules.flatMap fun m => m.commands.filter (·.action.isNone)
  synchronised := p.actions.map p.participants

end Program

/-- All ways to take one element of each list; the last list varies fastest. -/
def combinations {α : Type} : List (List α) → List (List α)
  | [] => [[]]
  | l :: ls => l.flatMap fun a => (combinations ls).map (a :: ·)

/-- What a valuation is evaluated with. -/
structure Context (V : Type) where
  constants : Constants V
  vars : Variables

namespace Context

variable {V : Type} [Value V]

/-- The names in a valuation. -/
def env (c : Context V) (state : List Int) : Env V := Variables.env c.vars c.constants state

/-- The positions and stored values of assignments, evaluated in a valuation. -/
def assignments (c : Context V) (state : List Int) :
    List (String × Expression) → Except BuildError (List (Nat × Int))
  | [] => .ok []
  | (name, e) :: rest =>
    match Variables.find? c.vars name with
    | none => .error (e.invalid ("assigned to the unknown variable " ++ name))
    | some (i, v) =>
      match e.eval (c.env state) with
      | .error err => .error err
      | .ok s =>
        match v.store s with
        | .error err => .error err
        | .ok n =>
          match assignments c state rest with
          | .error err => .error err
          | .ok ns => .ok ((i, n) :: ns)

/-- Carries out assignments, the last one to a variable counts. -/
def assign (target : List Int) (ns : List (Nat × Int)) : List Int :=
  ns.foldl (fun t (i, n) => t.set i n) target

def isNegative (v : V) : Bool :=
  match Value.toDouble? v with
  | some d => d.numLt .zero
  | none => false

/-- The probability of an update, which must not be a negative number. -/
def probability (c : Context V) (state : List Int) (u : Update) : Except BuildError V :=
  match u.probability.evalValue (c.env state) with
  | .error err => .error err
  | .ok v =>
    if isNegative v then
      .error (.malformedModel
        ("the probability " ++ u.probability.toText ++ " evaluates to the negative value " ++
          Value.toText v ++ " in state " ++ Variables.toText c.vars state))
    else .ok v

/-- The successors of an update, starting from those of the commands before it. An update of
probability zero has none, and its assignments do not matter. -/
def applyUpdate (c : Context V) (state : List Int) (u : Update) (d : Distribution V) :
    Except BuildError (Distribution V) :=
  match c.probability state u with
  | .error err => .error err
  | .ok v =>
    if Value.isZero v then .ok []
    else
      match c.assignments state u.assignments with
      | .error err => .error err
      | .ok ns => .ok (d.map fun t => (assign t.1 ns, Value.mul t.2 v))

def applyUpdates (c : Context V) (state : List Int) (d : Distribution V) :
    List Update → Except BuildError (Distribution V)
  | [] => .ok []
  | u :: rest =>
    match c.applyUpdate state u d with
    | .error err => .error err
    | .ok ts =>
      match applyUpdates c state d rest with
      | .error err => .error err
      | .ok ts' => .ok (ts ++ ts')

def applyCommands (c : Context V) (state : List Int) (d : Distribution V) :
    List Command → Except BuildError (Distribution V)
  | [] => .ok d
  | command :: rest =>
    match c.applyUpdates state d command.updates with
    | .error err => .error err
    | .ok d' => applyCommands c state d' rest

/-- The distribution of a choice; its probabilities must sum to one. -/
def distribution (c : Context V) (state : List Int) (commands : List Command) :
    Except BuildError (Distribution V) :=
  match c.applyCommands state [(state, Value.one)] commands with
  | .error err => .error err
  | .ok d =>
    let mass := Value.sumCanonical (d.map (·.2))
    if Value.isClose mass Value.one probabilityTolerance then .ok d
    else
      .error (.malformedModel
        ("the probabilities of a choice in state " ++ Variables.toText c.vars state ++ " sum to " ++
          Value.toText mass ++ " instead of one"))

def enabled (c : Context V) (state : List Int) :
    List Command → Except BuildError (List Command)
  | [] => .ok []
  | command :: rest =>
    match command.guard.evalBool (c.env state) with
    | .error err => .error err
    | .ok holds =>
      match enabled c state rest with
      | .error err => .error err
      | .ok cs => .ok (if holds then command :: cs else cs)

def distributions (c : Context V) (state : List Int) :
    List (List Command) → Except BuildError (List (Distribution V))
  | [] => .ok []
  | commands :: rest =>
    match c.distribution state commands with
    | .error err => .error err
    | .ok d =>
      match distributions c state rest with
      | .error err => .error err
      | .ok ds => .ok (d :: ds)

/-- The distributions of the enabled commands without action. -/
def interleavedChoices (c : Context V) (state : List Int) :
    List Command → Except BuildError (List (Distribution V))
  | [] => .ok []
  | command :: rest =>
    match command.guard.evalBool (c.env state) with
    | .error err => .error err
    | .ok false => interleavedChoices c state rest
    | .ok true =>
      match c.distribution state [command] with
      | .error err => .error err
      | .ok d =>
        match interleavedChoices c state rest with
        | .error err => .error err
        | .ok ds => .ok (d :: ds)

/-- The enabled commands of every participant of an action. -/
def enabledAll (c : Context V) (state : List Int) :
    List (List Command) → Except BuildError (List (List Command))
  | [] => .ok []
  | commands :: rest =>
    match c.enabled state commands with
    | .error err => .error err
    | .ok cs =>
      match enabledAll c state rest with
      | .error err => .error err
      | .ok css => .ok (cs :: css)

/-- The distributions of an action. A participant without enabled commands blocks it. -/
def synchronisedChoices (c : Context V) (state : List Int) (participants : List (List Command)) :
    Except BuildError (List (Distribution V)) :=
  match c.enabledAll state participants with
  | .error err => .error err
  | .ok css => c.distributions state (combinations css)

def allSynchronisedChoices (c : Context V) (state : List Int) :
    List (List (List Command)) → Except BuildError (List (Distribution V))
  | [] => .ok []
  | participants :: rest =>
    match c.synchronisedChoices state participants with
    | .error err => .error err
    | .ok ds =>
      match allSynchronisedChoices c state rest with
      | .error err => .error err
      | .ok ds' => .ok (ds ++ ds')

/-- The distributions of all choices: commands without action first, then the actions. -/
def choices (c : Context V) (dynamics : Dynamics) (state : List Int) :
    Except BuildError (List (Distribution V)) :=
  match c.interleavedChoices state dynamics.interleaved with
  | .error err => .error err
  | .ok ds =>
    match c.allSynchronisedChoices state dynamics.synchronised with
    | .error err => .error err
    | .ok ds' => .ok (ds ++ ds')

end Context
end MarkovCheck

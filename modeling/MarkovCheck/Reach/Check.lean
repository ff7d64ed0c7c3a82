import MarkovCheck.Logic.Formula
import MarkovCheck.Reach.Graph
import MarkovCheck.Reach.LinearSystem
import MarkovCheck.Text.Quoted

/-!
# MarkovCheck.Reach.Check

The value of a property in every state of a model.

Mathematical meaning: `nextProb`, `untilProb` and `boundedUntilProb` give the probability of the
paths from a state that satisfy the formula, `expectedReward` the expected sum of the rewards of the
states before the first target state. The states of probability zero and one are found in the graph; the
others satisfy linear equations with a unique solution.

* `check`        — the values of any property.
* `CheckError`   — names that the model does not know, and rewards that are infinite.
-/

namespace MarkovCheck

/-- Why a property has no values. -/
inductive CheckError where
  /-- No reward model is named, and the model does not have exactly one. -/
  | ambiguousRewardModel (count : Nat)
  /-- The domain has no infinity, and the expected reward of this state is infinite. -/
  | infiniteReward (state : Nat)
  /-- The linear equations lead to a division by zero. -/
  | singularSystem
  | model (cause : ModelError)
deriving DecidableEq, Repr

def CheckError.message : CheckError → String
  | .ambiguousRewardModel count =>
    "The property does not name a reward model, but the model has " ++ toString count ++
      " reward models"
  | .infiniteReward state =>
    "The expected reward of state " ++ toString state ++
      " is infinite, since it does not reach the target with probability one"
  | .singularSystem => "The equation system is singular"
  | .model cause => cause.message

namespace Reach

variable {V : Type} [Value V]

/-- The number of every listed state, by state. -/
def variablesOf (n : Nat) (states : List Nat) : Array (Option Nat) :=
  states.zipIdx.foldl (fun a (s, i) => a.setIfInBounds s (some i)) (Array.replicate n none)

/-- The equation of a state: its transitions to the states that have a variable, and a constant. -/
def equationOf (m : Model V) (columns : Array (Option Nat)) (constant : Nat → V) (s : Nat) :
    LinearSystem.Equation V :=
  .ofRow ((m.row s).filterMap fun e => (columns[e.1]?.join).map fun column => (column, e.2))
    (constant s)

def replace (values : Array V) (states : List Nat) (solution : Array V) : Array V :=
  (states.zip solution.toList).foldl (fun a (s, v) => a.setIfInBounds s v) values

/-- Solves `x s = constant s + ∑ t, P(s, t) * x t` for the given states; the transitions to other
states are left out. -/
def solveStates (m : Model V) (states : List Nat) (constant : Nat → V) :
    Except CheckError (Array V) :=
  let columns := variablesOf m.numStates states
  match LinearSystem.solve? (states.map (equationOf m columns constant)) with
  | some solution => .ok solution
  | none => .error .singularSystem

/-- A vector with one entry for every state. -/
def tabulate (n : Nat) (f : Nat → V) : Array V := Array.ofFn fun i : Fin n => f i

def stepInto (m : Model V) (set : StateSet) (s : Nat) : V :=
  Value.sumCanonical (((m.row s).filter fun e => set.contains e.1).map (·.2))

/-- The probabilities of being in `phi` after one step. -/
def nextProb (m : Model V) (phi : StateSet) : Array V := tabulate m.numStates (stepInto m phi)

/-- One for the members of a set, zero for all other states. -/
def indicator (set : StateSet) (s : Nat) : V := if set.contains s then Value.one else Value.zero

/-- The probabilities of reaching `psi` through `phi`. -/
def untilProb (m : Model V) (phi psi : StateSet) : Except CheckError (Array V) :=
  let predecessors := m.predecessors
  let no := prob0 predecessors phi psi
  let yes := prob1 predecessors phi psi no
  let maybe := (List.range m.numStates).filter fun s => !no.contains s && !yes.contains s
  match solveStates m maybe (stepInto m yes) with
  | .error e => .error e
  | .ok solution => .ok (replace (tabulate m.numStates (indicator yes)) maybe solution)

/-- One step of the bounded until operator. -/
def boundedStep (m : Model V) (phi psi : StateSet) (values : Array V) (s : Nat) : V :=
  if psi.contains s then Value.one
  else if !phi.contains s then Value.zero
  else Value.sumCanonical
    ((m.row s).map fun e => Value.mul e.2 (values[e.1]?.getD Value.zero))

/-- The probabilities of reaching `psi` through `phi` within `k` steps. -/
def boundedUntilProb (m : Model V) (phi psi : StateSet) (k : Nat) : Array V :=
  k.repeat (fun values => tabulate m.numStates (boundedStep m phi psi values))
    (tabulate m.numStates (indicator psi))

/-- With no step left, only the states of `psi` have reached it. -/
theorem boundedUntilProb_zero (m : Model V) (phi psi : StateSet) :
    boundedUntilProb m phi psi 0 = tabulate m.numStates (indicator psi) := rfl

/-- One more step looks at the probabilities of the successors with one step less. -/
theorem boundedUntilProb_succ (m : Model V) (phi psi : StateSet) (k : Nat) :
    boundedUntilProb m phi psi (k + 1) =
      tabulate m.numStates (boundedStep m phi psi (boundedUntilProb m phi psi k)) := rfl

/-- The expected rewards of the states in `yes`, which reach the target with probability one; all
others have the given infinite value. -/
def finiteRewards (m : Model V) (rewards : RewardModel V) (target yes : StateSet) (infinity : V) :
    Except CheckError (Array V) :=
  let maybe := (List.range m.numStates).filter fun s => yes.contains s && !target.contains s
  match solveStates m maybe rewards.value with
  | .error e => .error e
  | .ok solution =>
    .ok (replace
      (tabulate m.numStates fun s => if yes.contains s then Value.zero else infinity) maybe solution)

/-- The expected rewards up to a target state. States that do not reach it with probability one have
an infinite reward, which not every domain can express. -/
def expectedReward (m : Model V) (rewards : RewardModel V) (target : StateSet) :
    Except CheckError (Array V) :=
  let predecessors := m.predecessors
  let all := StateSet.full m.numStates
  let yes := prob1 predecessors all target (prob0 predecessors all target)
  match (List.range m.numStates).find? fun s => !yes.contains s with
  | none => finiteRewards m rewards target yes Value.zero
  | some s =>
    match (Value.infinity? : Option V) with
    | some infinity => finiteRewards m rewards target yes infinity
    | none => .error (.infiniteReward s)

/-- The reward model that a property refers to. -/
def selectReward (m : Model V) : Option String → Except CheckError (RewardModel V)
  | some name =>
    match m.rewardModel? name with
    | some r => .ok r
    | none => .error (.model (.unknownRewardModel name))
  | none =>
    match m.rewards with
    | [r] => .ok r
    | rs => .error (.ambiguousRewardModel rs.length)

def statesOf (m : Model V) (f : StateFormula) : Except CheckError StateSet :=
  match f.states? m.labeling with
  | .ok s => .ok s
  | .error e => .error (.model e)

/-- The states of two formulas, the first one first. -/
def statesOfBoth (m : Model V) (f g : StateFormula) : Except CheckError (StateSet × StateSet) :=
  match statesOf m f with
  | .error e => .error e
  | .ok s =>
    match statesOf m g with
    | .error e => .error e
    | .ok t => .ok (s, t)

def checkPath (m : Model V) : PathFormula → Except CheckError (Array V)
  | .next f =>
    match statesOf m f with
    | .error e => .error e
    | .ok phi => .ok (nextProb m phi)
  | .until f g =>
    match statesOfBoth m f g with
    | .error e => .error e
    | .ok (phi, psi) => untilProb m phi psi
  | .boundedUntil f g k =>
    match statesOfBoth m f g with
    | .error e => .error e
    | .ok (phi, psi) => .ok (boundedUntilProb m phi psi k)
  | .eventually f =>
    match statesOf m f with
    | .error e => .error e
    | .ok psi => untilProb m (.full m.numStates) psi
  | .globally f =>
    match statesOf m f with
    | .error e => .error e
    | .ok phi =>
      match untilProb m (.full m.numStates) phi.compl with
      | .error e => .error e
      | .ok violated => .ok (violated.map (Value.sub Value.one))

/-- The value of a property in every state. -/
def check (m : Model V) : Property → Except CheckError (Array V)
  | .probability path => checkPath m path
  | .reward name target =>
    match selectReward m name with
    | .error e => .error e
    | .ok rewards =>
      match statesOf m target with
      | .error e => .error e
      | .ok states => expectedReward m rewards states

def resultText (values : Array V) : String :=
  let entries := values.toList.zipIdx.map fun (v, s) =>
    toString s ++ ": " ++ Text.quoted (Value.toText v)
  "\x7b" ++ ", ".intercalate entries ++ "\x7d"

end Reach
end MarkovCheck

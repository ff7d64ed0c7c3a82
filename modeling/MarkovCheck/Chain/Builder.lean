import MarkovCheck.Chain.Compressed
import MarkovCheck.Chain.Model

/-!
# MarkovCheck.Chain.Builder

Building a model from transitions, labels and rewards in any order.

Transitions between the same two states are added up in the canonical order of their values, and a
sum of zero is no transition. Therefore the order in which transitions arrive does not matter.

* `Builder`    — everything added so far.
* `compress`   — the matrix of transitions that arrive row by row.
* `rowsOf`     — the rows of the matrix for any list of transitions.
* `finish`     — the model; it needs an initial state.
-/

namespace MarkovCheck

/-- A transition as it is added. -/
structure Transition (V : Type) where
  source : Nat
  target : Nat
  value : V
deriving DecidableEq, Inhabited

/-- The collected parts of a model. The states of a label are listed newest first, and so are the
rewards of a reward model. -/
structure Builder (V : Type) where
  transitions : Array (Transition V) := #[]
  initial : Array Nat := #[]
  labels : List (String × List Nat) := []
  rewards : List (String × List (Nat × V)) := []
  numStates : Nat := 0
deriving Inhabited

namespace Builder

variable {V : Type}

def empty : Builder V := {}

/-- Makes sure that there are at least `n` states. -/
def requireStates (b : Builder V) (n : Nat) : Builder V := { b with numStates := max b.numStates n }

def addTransition (b : Builder V) (source target : Nat) (value : V) : Builder V :=
  { b with
    transitions := b.transitions.push ⟨source, target, value⟩
    numStates := max b.numStates (max source target + 1) }

def addInitial (b : Builder V) (s : Nat) : Builder V :=
  { b with initial := b.initial.push s, numStates := max b.numStates (s + 1) }

/-- Appends an empty entry for a name unless it has one. -/
def declare {α : Type} (name : String) (entries : List (String × List α)) :
    List (String × List α) :=
  if (entries.lookup name).isSome then entries else entries ++ [(name, [])]

/-- Puts an item in front of the entry of a declared name. -/
def consItem {α : Type} (name : String) (item : α) (entries : List (String × List α)) :
    List (String × List α) :=
  entries.map fun e => if e.1 = name then (e.1, item :: e.2) else e

/-- Declares a label, which is then present even if no state carries it. -/
def addLabel (b : Builder V) (name : String) : Builder V :=
  { b with labels := declare name b.labels }

def addStateLabel (b : Builder V) (s : Nat) (name : String) : Builder V :=
  { b with
    labels := consItem name s (declare name b.labels)
    numStates := max b.numStates (s + 1) }

/-- Declares a reward model; states without a reward in it have reward zero. -/
def addRewardModel (b : Builder V) (name : String) : Builder V :=
  { b with rewards := declare name b.rewards }

/-- Sets the reward of a state; the last value set counts. -/
def addStateReward (b : Builder V) (name : String) (s : Nat) (value : V) : Builder V :=
  { b with
    rewards := consItem name (s, value) (declare name b.rewards)
    numStates := max b.numStates (s + 1) }

end Builder

/-- The values of all transitions between two states. -/
structure Bundle (V : Type) where
  source : Nat
  target : Nat
  values : List V

namespace Bundle

variable {V : Type}

/-- Puts a transition in front: into the first bundle if it has the same states. -/
def cons (t : Transition V) : List (Bundle V) → List (Bundle V)
  | [] => [⟨t.source, t.target, [t.value]⟩]
  | g :: rest =>
    if t.source = g.source ∧ t.target = g.target then ⟨g.source, g.target, t.value :: g.values⟩ :: rest
    else ⟨t.source, t.target, [t.value]⟩ :: g :: rest

/-- Bundles the neighbours that have the same states. -/
def ofSorted (ts : List (Transition V)) : List (Bundle V) := ts.foldr cons []

end Bundle

namespace Builder

variable {V : Type}

/-- The matrix with `n` rows that has the given transitions, which arrive row by row. The offset after
the last row is the number of transitions. -/
def compress (n : Nat) (ts : List (Transition V)) : Compressed V :=
  (ts.foldl (fun (c : Compressed V) t => c.push t.source t.target t.value) {}).startRows n

variable [Value V]

/-- The order of transitions: by source, target, and the canonical order of the values. -/
def transitionCmp (a b : Transition V) : Ordering :=
  (compare a.source b.source).then ((compare a.target b.target).then (Value.cmp a.value b.value))

/-- The transitions after adding up: one for every pair of states with a sum other than zero. -/
def mergeTransitions (ts : List (Transition V)) : List (Transition V) :=
  (Bundle.ofSorted (ts.mergeSort fun a b => (transitionCmp a b).isLE)).filterMap fun g =>
    let sum := Value.sum g.values
    if Value.isZero sum then none else some ⟨g.source, g.target, sum⟩

/-- The rows of the matrix with `n` rows. -/
def rowsOf (n : Nat) (ts : List (Transition V)) : Array (List (Nat × V)) :=
  (compress n (mergeTransitions ts)).rows n

/-- Inserts a state into an ascending list without repetition. -/
def insertState (s : Nat) : List Nat → List Nat
  | [] => [s]
  | t :: rest => if s < t then s :: t :: rest else if s = t then t :: rest else t :: insertState s rest

/-- The states of a list in ascending order, each once. -/
def sortStates (l : List Nat) : List Nat :=
  (l.mergeSort (· ≤ ·)).foldr insertState []

/-- The reward vector of a list of rewards, newest first. -/
def rewardVector (n : Nat) (rewards : List (Nat × V)) : Array V :=
  rewards.foldr (fun r values => values.setIfInBounds r.1 r.2) (Array.replicate n Value.zero)

/-- The model of everything that was added. -/
def finish (b : Builder V) (kind : ModelKind) : Except ModelError (Model V) :=
  if b.initial.isEmpty then .error .noInitialStates
  else .ok {
    kind
    rows := rowsOf b.numStates b.transitions.toList
    initial := sortStates b.initial.toList
    labeling := ⟨b.numStates, b.labels.map fun l => (l.1, .ofList b.numStates l.2)⟩
    rewards := b.rewards.map fun r => ⟨r.1, rewardVector b.numStates r.2⟩ }

end Builder
end MarkovCheck

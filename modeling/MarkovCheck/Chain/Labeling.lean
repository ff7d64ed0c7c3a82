import MarkovCheck.Chain.StateSet

/-!
# MarkovCheck.Chain.Labeling

Atomic propositions: every label names the set of states that carry it. Labels keep the order in
which they were first added.

* `set`, `addState` — give a label its states, or one more state.
* `states?`, `has`, `labelsOf` — the states of a label, and the labels of a state.
-/

namespace MarkovCheck

/-- The labels of a model and the states that carry them. -/
structure Labeling where
  numStates : Nat
  labels : List (String × StateSet)
deriving DecidableEq, Repr, Inhabited

namespace Labeling

def empty (n : Nat) : Labeling := ⟨n, []⟩

/-- Changes the entry of a name, or appends a new one. -/
def upsert (name : String) (change : StateSet → StateSet) (fresh : StateSet) :
    List (String × StateSet) → List (String × StateSet)
  | [] => [(name, fresh)]
  | (other, states) :: rest =>
    if other = name then (other, change states) :: rest
    else (other, states) :: upsert name change fresh rest

/-- Gives a label its states, replacing those it had. -/
def set (l : Labeling) (name : String) (states : StateSet) : Labeling :=
  { l with labels := upsert name (fun _ => states) states l.labels }

def addState (l : Labeling) (name : String) (s : Nat) : Labeling :=
  { l with labels := upsert name (·.insert s) ((StateSet.empty l.numStates).insert s) l.labels }

def states? (l : Labeling) (name : String) : Option StateSet := l.labels.lookup name

def contains (l : Labeling) (name : String) : Bool := (l.states? name).isSome

/-- Whether a state carries a label; no state carries an unknown one. -/
def has (l : Labeling) (name : String) (s : Nat) : Bool :=
  match l.states? name with
  | some states => states.contains s
  | none => false

def names (l : Labeling) : List String := l.labels.map (·.1)

def labelsOf (l : Labeling) (s : Nat) : List String :=
  (l.labels.filter (·.2.contains s)).map (·.1)

end Labeling
end MarkovCheck

import MarkovCheck.Chain.Builder

/-!
# MarkovCheck.Chain.Instantiate

Giving the parameters of a model values.

Everything that the model has is added to a builder of doubles, with the nearest number for every
value. So a transition whose number is zero disappears.

* `numberAt`      — the number of a value.
* `instanceParts` — everything that the model has; all probabilities and rewards must have a value.
* `instantiate`   — the model of doubles.
-/

namespace MarkovCheck

/-- Why a model has no instance. -/
inductive InstantiationError where
  /-- A probability or a reward has no value. -/
  | undefined (e : NumberError)
  /-- The parts do not make a model, for want of an initial state. -/
  | invalid (e : ModelError)
deriving DecidableEq, Repr

def InstantiationError.message : InstantiationError → String
  | .undefined e => e.message
  | .invalid e => e.message

namespace Model

def numberAt (v : Valuation) (f : RationalFunction) : Except NumberError Double :=
  (f.evalAt v).map Double.ofRat

/-- Adds the transitions of a state. -/
def addRow (v : Valuation) (m : Model RationalFunction) (b : Builder Double) (s : Nat) :
    Except NumberError (Builder Double) :=
  (m.row s).foldlM (fun b e => (numberAt v e.2).map (b.addTransition s e.1)) b

/-- Adds a label and the states that carry it. -/
def addCarriers (m : Model RationalFunction) (b : Builder Double) (name : String) : Builder Double :=
  (List.range m.numStates).foldl
    (fun b s => if m.labeling.has name s then b.addStateLabel s name else b) (b.addLabel name)

/-- Adds a reward model and the rewards of all states. -/
def addRewards (v : Valuation) (m : Model RationalFunction) (b : Builder Double)
    (r : RewardModel RationalFunction) : Except NumberError (Builder Double) :=
  (List.range m.numStates).foldlM
    (fun b s => (numberAt v (r.value s)).map (b.addStateReward r.name s)) (b.addRewardModel r.name)

/-- The parts of the instance for given parameter values; the first value that is not defined is
reported, transitions before rewards. -/
def instanceParts (v : Valuation) (m : Model RationalFunction) : Except NumberError (Builder Double) :=
  match (List.range m.numStates).foldlM (addRow v m) (Builder.empty.requireStates m.numStates) with
  | .error e => .error e
  | .ok b =>
    let b := m.initial.foldl Builder.addInitial b
    let b := m.labeling.names.foldl (addCarriers m) b
    m.rewards.foldlM (addRewards v m) b

/-- The model of doubles for given parameter values. -/
def instantiate (v : Valuation) (m : Model RationalFunction) :
    Except InstantiationError (Model Double) :=
  match instanceParts v m with
  | .error e => .error (.undefined e)
  | .ok b =>
    match b.finish m.kind with
    | .error e => .error (.invalid e)
    | .ok d => .ok d

end Model
end MarkovCheck

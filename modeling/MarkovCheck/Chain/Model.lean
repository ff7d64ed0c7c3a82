import MarkovCheck.Chain.Labeling
import MarkovCheck.Value.Basic

/-!
# MarkovCheck.Chain.Model

Markov chains: states with a distribution over successors, labels and rewards.

Mathematical meaning: the rows are a sparse matrix `P`. Row `s` lists the targets `t` with
`P(s, t) ≠ 0` in ascending order together with the value (`WellFormed`); `prob` is the view of all
entries. Rewards are one vector per reward model.

* `Model`      — the data of a chain.
* `prob`       — the entry of the matrix, zero when there is no transition.
* `offsets`    — where the rows start when all transitions are numbered one after the other.
* `validate`   — whether every row is a probability distribution.
-/

namespace MarkovCheck

/-- What a model was built as. -/
inductive ModelKind where
  /-- Discrete time Markov chain. -/
  | dtmc
  /-- Continuous time Markov chain. -/
  | ctmc
  /-- Markov decision process. -/
  | mdp
deriving DecidableEq, Repr, Inhabited

/-- A named reward for every state. -/
structure RewardModel (V : Type) where
  name : String
  values : Array V
deriving DecidableEq, Inhabited

def RewardModel.value {V : Type} [Value V] (r : RewardModel V) (s : Nat) : V :=
  r.values[s]?.getD Value.zero

/-- A Markov chain. -/
structure Model (V : Type) where
  kind : ModelKind
  rows : Array (List (Nat × V))
  initial : List Nat
  labeling : Labeling
  rewards : List (RewardModel V)
deriving DecidableEq, Inhabited

/-- What is wrong with a model, or with a name used for it. -/
inductive ModelError where
  /-- The values of a state do not sum to one; `sum` is the text of the sum. -/
  | malformedDistribution (state : Nat) (sum : String)
  /-- No state is initial. -/
  | noInitialStates
  | unknownLabel (name : String)
  | unknownRewardModel (name : String)
deriving DecidableEq, Repr

def ModelError.message : ModelError → String
  | .malformedDistribution state sum =>
    "Malformed model: the outgoing probabilities of state " ++ toString state ++ " sum to " ++ sum ++
      " instead of one"
  | .noInitialStates => "Malformed model: there are no initial states"
  | .unknownLabel name => "Unknown label \"" ++ name ++ "\""
  | .unknownRewardModel name => "Unknown reward model \"" ++ name ++ "\""

namespace Model

variable {V : Type}

def numStates (m : Model V) : Nat := m.rows.size

/-- The transitions of a state, by ascending target. -/
def row (m : Model V) (s : Nat) : List (Nat × V) := m.rows[s]?.getD []

/-- The entry of a row at a target. -/
def entry [Value V] (row : List (Nat × V)) (t : Nat) : V := (row.lookup t).getD Value.zero

/-- The value of the transition between two states, zero when there is none. -/
def prob [Value V] (m : Model V) (s t : Nat) : V := entry (m.row s) t

/-- The values of all transitions, row by row. -/
def transitionValues (m : Model V) : List V := m.rows.toList.flatMap fun row => row.map (·.2)

def numTransitions (m : Model V) : Nat := m.rows.toList.foldl (fun n row => n + row.length) 0

/-- The number of transitions before each of the given rows, and after the last one. -/
def offsetsFrom (start : Nat) : List (List (Nat × V)) → List Nat
  | [] => [start]
  | row :: rest => start :: offsetsFrom (start + row.length) rest

/-- The number of transitions before each row, and at the end of all rows. -/
def offsets (m : Model V) : List Nat := offsetsFrom 0 m.rows.toList

def rewardModel? (m : Model V) (name : String) : Option (RewardModel V) :=
  m.rewards.find? (·.name == name)

/-- The stored form: targets in range and strictly ascending, no value zero, initial states strictly
ascending, in range and not absent, labels and rewards for exactly the states, no name twice. -/
structure WellFormed [Value V] (m : Model V) : Prop where
  targets_ascend : ∀ s, (m.row s).Pairwise (·.1 < ·.1)
  targets_lt : ∀ s, ∀ e ∈ m.row s, e.1 < m.numStates
  values_ne_zero : ∀ s, ∀ e ∈ m.row s, Value.isZero e.2 = false
  initial_ascend : m.initial.Pairwise (· < ·)
  initial_lt : ∀ s ∈ m.initial, s < m.numStates
  initial_ne_nil : m.initial ≠ []
  labeling_size : m.labeling.numStates = m.numStates
  label_size : ∀ l ∈ m.labeling.labels, l.2.bits.size = m.numStates
  label_names : m.labeling.names.Nodup
  reward_size : ∀ r ∈ m.rewards, r.values.size = m.numStates
  reward_names : (m.rewards.map (·.name)).Nodup

variable [Value V]

/-- Whether a probability or a reward depends on a parameter. -/
def hasParameters (m : Model V) : Bool :=
  m.transitionValues.any (!Value.isConst ·) ||
    m.rewards.any fun r => r.values.any (!Value.isConst ·)

def rowSum (m : Model V) (s : Nat) : V := Value.sumCanonical ((m.row s).map (·.2))

/-- What is wrong with the distribution of a state: it is empty, or its sum is not one. -/
def rowError? (m : Model V) (tolerance : Double) (s : Nat) : Option ModelError :=
  if (m.row s).isEmpty then some (.malformedDistribution s "0 (no outgoing transitions)")
  else if Value.isClose (m.rowSum s) Value.one tolerance then none
  else some (.malformedDistribution s (Value.toText (m.rowSum s)))

/-- Whether every state has a distribution as transitions: not empty and with sum one, up to a
relative tolerance. The first offending state is reported. -/
def validate (m : Model V) (tolerance : Double) : Except ModelError Unit :=
  match (List.range m.numStates).findSome? (m.rowError? tolerance) with
  | some e => .error e
  | none => .ok ()

end Model
end MarkovCheck

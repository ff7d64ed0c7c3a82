import MarkovCheck.Bisim.Error
import MarkovCheck.Logic.Formula
import MarkovCheck.Partition.Grouping
import MarkovCheck.Text.Names
import MarkovCheck.Value.Cache

/-!
# MarkovCheck.Bisim.Preserved

What a minimisation must preserve, and the partition that this induces.

* `Preserved`      — names of labels and reward models.
* `observations`   — the preserved labels and rewards of a state.
* `placeState`     — moves a state to the block of its observations.
* `labelPartition` — two states are in one block exactly when their observations agree.
-/

namespace MarkovCheck

/-- The labels and reward models to preserve, each in ascending order. -/
structure Preserved where
  labels : List String := []
  rewards : List String := []
deriving DecidableEq, Repr

namespace Preserved

variable {V : Type}

/-- Everything that a model has. -/
def all (m : Model V) : Preserved :=
  ⟨sortNames m.labeling.names, sortNames (m.rewards.map (·.name))⟩

/-- The reward models that a property refers to; without a name, all of a model. -/
def rewardNames (m : Model V) : Property → List String
  | .reward (some name) _ => [name]
  | .reward none _ => m.rewards.map (·.name)
  | .probability _ => []

/-- Everything that the properties refer to. -/
def ofProperties (m : Model V) (ps : List Property) : Preserved :=
  ⟨sortNames (ps.flatMap Property.labels), sortNames (ps.flatMap (rewardNames m))⟩

end Preserved

namespace Bisim

variable {V : Type}

def findLabels (m : Model V) : List String → Except ReductionError (List (String × StateSet))
  | [] => .ok []
  | name :: rest =>
    match m.labeling.states? name with
    | none => .error (.unknownLabel name)
    | some states =>
      match findLabels m rest with
      | .error e => .error e
      | .ok ls => .ok ((name, states) :: ls)

def findRewards (m : Model V) : List String → Except ReductionError (List (RewardModel V))
  | [] => .ok []
  | name :: rest =>
    match m.rewardModel? name with
    | none => .error (.unknownRewardModel name)
    | some r =>
      match findRewards m rest with
      | .error e => .error e
      | .ok rs => .ok (r :: rs)

/-- The preserved labels and reward models of a model. -/
structure Observed (V : Type) where
  labels : List (String × StateSet)
  rewards : List (RewardModel V)

/-- Finds the preserved labels, then the preserved reward models. -/
def observe (m : Model V) (p : Preserved) : Except ReductionError (Observed V) :=
  match findLabels m p.labels with
  | .error e => .error e
  | .ok labels =>
    match findRewards m p.rewards with
    | .error e => .error e
    | .ok rewards => .ok ⟨labels, rewards⟩

/-- What tells states apart: which labels they carry, and the indices of their rewards. -/
abbrev Observations := List Bool × List Nat

variable [Value V]

def rewardIndices (cache : ValueCache V) (s : Nat) :
    List (RewardModel V) → List Nat × ValueCache V
  | [] => ([], cache)
  | r :: rest =>
    let (i, cache) := cache.insert (r.value s)
    let (is, cache) := rewardIndices cache s rest
    (i :: is, cache)

/-- The observations of a state, and the cache that knows its rewards. -/
def observations (o : Observed V) (cache : ValueCache V) (s : Nat) :
    Observations × ValueCache V :=
  let (rewards, cache) := rewardIndices cache s o.rewards
  ((o.labels.map fun l => l.2.contains s, rewards), cache)

/-- Moves a state to the block of its observations. -/
def placeState (o : Observed V) (w : Grouping Observations × ValueCache V) (s : Nat) :
    Grouping Observations × ValueCache V :=
  let (obs, cache) := observations o w.2 s
  (w.1.put s obs, cache)

/-- The partition of the states by their observations, blocks numbered by smallest states, and the
cache that knows all rewards. -/
def labelPartition (m : Model V) (p : Preserved) (cache : ValueCache V) :
    Except ReductionError (Partition × ValueCache V) :=
  match observe m p with
  | .error e => .error e
  | .ok o =>
    let (g, cache) := (List.range m.numStates).foldl (placeState o) (.start m.numStates, cache)
    .ok (g.partition, cache)

end Bisim
end MarkovCheck

import MarkovCheck.Bisim.Quotient
import MarkovCheck.Bisim.Rounds
import MarkovCheck.Bisim.Worklist
import MarkovCheck.Chain.Union

/-!
# MarkovCheck.Bisim.Reduce

Minimisation of a model, and comparison of two models.

* `reduce`  — the quotient by the coarsest bisimulation that preserves the given labels and rewards.
* `minimise` — the same for the labels and rewards that properties refer to.
* `compare` — whether the initial states of two models are bisimilar.
-/

namespace MarkovCheck
namespace Bisim

/-- How a partition is refined. -/
inductive Algorithm where
  /-- Only where signatures may have changed. -/
  | worklist
  /-- All signatures in every round. -/
  | rounds
deriving DecidableEq, Repr

def Algorithm.phases : Algorithm → List String
  | .worklist => ["preprocess", "reduction"]
  | .rounds => ["reduction"]

def phases (a : Algorithm) : List String := "label partition" :: a.phases ++ ["quotient"]

variable {V : Type} [Value V]

/-- The coarsest refinement of a partition in which states of one block have equal signatures. -/
def Algorithm.run (a : Algorithm) (m : Model V) (p : Partition) (cache : ValueCache V) :
    Partition :=
  match a with
  | .worklist => (refine m p cache).partition.toPartition
  | .rounds => (refineRounds m p cache).1

/-- The minimised model. -/
def reduce (m : Model V) (preserved : Preserved) (kind : BisimKind) (a : Algorithm) :
    Except ReductionError (Quotient V) :=
  match kind with
  | .weak => .error (.unsupportedKind .weak)
  | .strong =>
    match labelPartition m preserved .empty with
    | .error e => .error e
    | .ok (p, cache) => quotient m (a.run m p cache) preserved

/-- The minimised model that preserves what properties refer to. -/
def minimise (m : Model V) (ps : List Property) (kind : BisimKind) :
    Except ReductionError (Quotient V) :=
  reduce m (.ofProperties m ps) kind .worklist

/-- The states of the quotient for the given states, ascending and each once. -/
def classesOf (q : Quotient V) (states : List Nat) : List Nat :=
  Builder.sortStates (states.map fun s => q.stateMap[s]?.getD 0)

/-- Whether the initial states of two models lie in the same classes of their disjoint union. -/
def compare (l r : Model V) (preserved : Preserved) : Except ReductionError Bool :=
  match reduce (l.disjointUnion r) preserved .strong .worklist with
  | .error e => .error e
  | .ok q =>
    .ok (classesOf q l.initial == classesOf q (r.initial.map (· + l.numStates)))

end Bisim
end MarkovCheck

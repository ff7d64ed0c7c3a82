import MarkovCheck.Bisim.Signature

/-!
# MarkovCheck.Bisim.Validity

A test for the result of a refinement.

* `isValidRefinement` — whether a partition refines another one, the states of each of its blocks
  have the same signature, and no two blocks within one block of the other partition do.
-/

namespace MarkovCheck
namespace Bisim

variable {V : Type} [Value V]

/-- The block, the initial block and the signature of a state. -/
structure Profile where
  block : Nat
  initial : Nat
  signature : Signature
deriving DecidableEq, Repr

def profiles (m : Model V) (initial p : Partition) (cache : ValueCache V) : List Profile :=
  let states := List.range m.numStates
  (states.zip (signatures m p cache states).1).map fun (s, sig) => ⟨p.block s, initial.block s, sig⟩

/-- Records the profile of the first state of every block, and checks all others against it. -/
def collectProfiles (table : Array (Option Profile)) :
    List Profile → Option (Array (Option Profile))
  | [] => some table
  | q :: rest =>
    match table[q.block]?.join with
    | none => collectProfiles (table.setIfInBounds q.block (some q)) rest
    | some r =>
      if q.initial = r.initial ∧ q.signature = r.signature then collectProfiles table rest else none

/-- Whether no two profiles agree on initial block and signature. -/
def allDistinct : List Profile → Bool
  | [] => true
  | q :: rest =>
    !(rest.any fun r => q.initial == r.initial && q.signature == r.signature) && allDistinct rest

/-- Whether a partition without empty blocks is the coarsest one that refines the initial partition
and gives the states of a block equal signatures, judged by the signatures of its blocks alone. -/
def isValidRefinement (m : Model V) (initial p : Partition) : Bool :=
  match collectProfiles (Array.replicate p.numBlocks none) (profiles m initial p .empty) with
  | none => false
  | some table =>
    match table.toList.mapM id with
    | none => false
    | some blocks => allDistinct blocks

end Bisim
end MarkovCheck

import MarkovCheck.Bisim.Signature
import MarkovCheck.Numbering

/-!
# MarkovCheck.Bisim.Rounds

Refinement of a partition in rounds, each of which recomputes all signatures.

* `round`       — two states stay together exactly when they were together and their signatures agree.
* `refineRounds` — rounds until the number of blocks no longer changes.
-/

namespace MarkovCheck
namespace Bisim

variable {V : Type} [Value V]

/-- One round: the blocks of the next partition are numbered by smallest states. -/
def round (m : Model V) (p : Partition) (cache : ValueCache V) : Partition × ValueCache V :=
  let states := List.range m.numStates
  let (sigs, cache) := signatures m p cache states
  let keys := (states.map p.block).zip sigs
  let (blocks, numbering) := (Numbering.empty : Numbering (Nat × Signature)).numberAll keys
  (⟨blocks.toArray, max 1 numbering.size⟩, cache)

/-- Repeats rounds until the number of blocks is the same twice, `fuel` times at most. -/
def rounds (m : Model V) : Nat → Partition → ValueCache V → Partition × ValueCache V
  | 0, p, cache => (p, cache)
  | fuel + 1, p, cache =>
    let (q, cache) := round m p cache
    if q.numBlocks = p.numBlocks then (q, cache) else rounds m fuel q cache

/-- Refines a partition until states of one block have equal signatures. The number of blocks grows
with every round but the first and the last, so it changes at most as often as there are states. -/
def refineRounds (m : Model V) (p : Partition) (cache : ValueCache V) :
    Partition × ValueCache V :=
  rounds m (m.numStates + 2) p cache

end Bisim
end MarkovCheck

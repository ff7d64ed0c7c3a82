import MarkovCheck.Numbering
import MarkovCheck.Partition.Basic

/-!
# MarkovCheck.Partition.Grouping

Grouping states by keys, one state after the other.

* `Grouping.start` — all states in one block, and no key known.
* `Grouping.put`   — moves a state to the block of its key, which is a new block if the key is new.
-/

namespace MarkovCheck

/-- The blocks of the states seen so far, and the block of every key. -/
structure Grouping (κ : Type) [BEq κ] [Hashable κ] where
  partition : Partition
  numbering : Numbering κ

namespace Grouping

variable {κ : Type} [BEq κ] [Hashable κ]

def start (n : Nat) : Grouping κ := ⟨.single n, .empty⟩

/-- Moves a state to the block of its key. -/
def put (g : Grouping κ) (s : Nat) (k : κ) : Grouping κ :=
  let (b, numbering) := g.numbering.number k
  ⟨g.partition.setBlock s b, numbering⟩

end Grouping
end MarkovCheck

import MarkovCheck.Chain.Model
import MarkovCheck.Partition.Basic
import MarkovCheck.Value.Cache

/-!
# MarkovCheck.Bisim.Signature

What a state does with respect to a partition: the total value of its transitions into every block.

* `blockSums` — the totals by ascending block; a total of zero is no transition into the block.
* `signature` — the same with interned totals, so that signatures are compared as lists of numbers.
-/

namespace MarkovCheck
namespace Bisim

variable {V : Type}

/-- A block and the values of the transitions into it. -/
abbrev BlockValues (V : Type) := Nat × List V

/-- Puts a transition in front: into the first group if it has the same block. -/
def consGroup (e : Nat × V) : List (BlockValues V) → List (BlockValues V)
  | [] => [(e.1, [e.2])]
  | g :: rest => if e.1 = g.1 then (g.1, e.2 :: g.2) :: rest else (e.1, [e.2]) :: g :: rest

/-- The transitions of a row with the blocks of their targets, by ascending block. -/
def byBlock (p : Partition) (row : List (Nat × V)) : List (Nat × V) :=
  (row.map fun e => (p.block e.1, e.2)).mergeSort fun a b => a.1 ≤ b.1

variable [Value V]

/-- The total values into the blocks, by ascending block and without zeros. -/
def blockSums (m : Model V) (p : Partition) (s : Nat) : List (Nat × V) :=
  ((byBlock p (m.row s)).foldr consGroup []).filterMap fun g =>
    let total := Value.sumCanonical g.2
    if Value.isZero total then none else some (g.1, total)

/-- Blocks with the index of the total value into them. -/
abbrev Signature := List (Nat × Nat)

/-- Interns the totals, in the order of the blocks. -/
def intern (cache : ValueCache V) : List (Nat × V) → Signature × ValueCache V
  | [] => ([], cache)
  | (b, v) :: rest =>
    let (i, cache) := cache.insert v
    let (sig, cache) := intern cache rest
    ((b, i) :: sig, cache)

/-- The signature of a state, and the cache that knows its totals. -/
def signature (m : Model V) (p : Partition) (cache : ValueCache V) (s : Nat) :
    Signature × ValueCache V :=
  intern cache (blockSums m p s)

def signatures (m : Model V) (p : Partition) (cache : ValueCache V) :
    List Nat → List Signature × ValueCache V
  | [] => ([], cache)
  | s :: rest =>
    let (sig, cache) := signature m p cache s
    let (sigs, cache) := signatures m p cache rest
    (sig :: sigs, cache)

end Bisim
end MarkovCheck

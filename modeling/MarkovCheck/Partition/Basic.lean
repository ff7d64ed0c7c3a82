/-!
# MarkovCheck.Partition.Basic

Partitions of the states of a model, given by the number of the block of every state.

Mathematical meaning: a partition denotes the equivalence "in the same block". Blocks may be empty
or numbered in any way; `canonical` chooses the numbering by smallest states, so two partitions
denote the same equivalence exactly when their canonical forms are equal.

* `Partition` — block numbers, and a bound for them.
* `setBlock`  — moves a state to a block.
* `canonical` — the blocks numbered in the order of their smallest states.
-/

namespace MarkovCheck

/-- The block of every state; block numbers lie below `numBlocks`. -/
structure Partition where
  blocks : Array Nat
  numBlocks : Nat
deriving DecidableEq, Repr, Inhabited

namespace Partition

def single (n : Nat) : Partition := ⟨Array.replicate n 0, 1⟩

def size (p : Partition) : Nat := p.blocks.size

def block (p : Partition) (s : Nat) : Nat := p.blocks[s]?.getD 0

/-- The partition with the given block numbers, whose bound is as small as possible. -/
def ofBlocks (blocks : List Nat) : Partition :=
  ⟨blocks.toArray, blocks.foldl (fun n b => max n (b + 1)) 0⟩

/-- Moves a state to a block, which may be a new one. -/
def setBlock (p : Partition) (s b : Nat) : Partition :=
  ⟨p.blocks.setIfInBounds s b, max p.numBlocks (b + 1)⟩

/-- Renumbers blocks in the order of their first occurrence. `table` holds the new numbers of the
blocks seen so far, and `next` the next new number. -/
def renumber (table : Array (Option Nat)) (next : Nat) : List Nat → List Nat × Nat
  | [] => ([], next)
  | b :: rest =>
    match table[b]?.join with
    | some n =>
      let (ns, count) := renumber table next rest
      (n :: ns, count)
    | none =>
      let (ns, count) := renumber (table.setIfInBounds b (some next)) (next + 1) rest
      (next :: ns, count)

/-- The same equivalence with the blocks numbered in the order of their smallest states. -/
def canonical (p : Partition) : Partition :=
  let (blocks, count) := renumber (Array.replicate p.numBlocks none) 0 p.blocks.toList
  ⟨blocks.toArray, count⟩

def members (p : Partition) (b : Nat) : List Nat :=
  (List.range p.size).filter fun s => p.block s == b

def braced (items : List String) : String := "\x7b" ++ ", ".intercalate items ++ "\x7d"

/-- The text of a partition: its blocks that are not empty. -/
def toText (p : Partition) : String :=
  let blocks := ((List.range p.numBlocks).map p.members).filter (!·.isEmpty)
  "\x7b " ++ ", ".intercalate (blocks.map fun states => braced (states.map toString)) ++ " \x7d"

end Partition
end MarkovCheck

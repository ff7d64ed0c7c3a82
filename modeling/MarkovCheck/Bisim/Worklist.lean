import MarkovCheck.Bisim.Signature
import MarkovCheck.Chain.Predecessors
import MarkovCheck.Numbering
import MarkovCheck.Partition.Marked

/-!
# MarkovCheck.Bisim.Worklist

Refinement of a partition by signatures that are recomputed only where they may have changed.

All states are marked at first, and all blocks are on the worklist. A block taken from it is split
by the signatures of its marked states; then the predecessors of every part except the one that
keeps the number of the block are marked, and their blocks join the worklist. The part that keeps
the number is a largest one, and its total follows from those of the others.

* `SignatureFunction` — gives a state its signature with respect to a partition.
* `Worklist`     — the marked partition, the blocks with marked states, and what the signature
  function remembers.
* `step`         — splits one block.
* `refineBy`     — steps until the worklist is empty, for any signature function.
* `refine`       — the same for the totals into the blocks.
-/

namespace MarkovCheck
namespace Bisim

/-- Gives a state its signature with respect to a partition, and may remember something for the next
state. -/
abbrev SignatureFunction (σ : Type) := MarkedPartition → σ → Nat → Signature × σ

/-- The state of a refinement; the next block stands first. -/
structure Worklist (σ : Type) where
  partition : MarkedPartition
  blocks : List Nat
  memory : σ

/-- What is remembered while the states of a block are numbered. -/
structure SplitMemory (σ : Type) where
  memory : σ
  numbering : Numbering Signature

variable {σ : Type}

/-- The number of a state in a split: that of its signature. -/
def numberBySignature (f : SignatureFunction σ) (p : MarkedPartition) (memory : SplitMemory σ)
    (s : Nat) : Nat × SplitMemory σ :=
  let (sig, next) := f p memory.memory s
  let (n, numbering) := memory.numbering.number sig
  (n, ⟨next, numbering⟩)

/-- Marks a state, whose block joins the worklist unless it has a marked state already. -/
def touch (w : MarkedPartition × List Nat) (s : Nat) : MarkedPartition × List Nat :=
  let b := w.1.blockNumber s
  let blocks := if (w.1.block b).hasMarked then w.2 else b :: w.2
  (w.1.mark s, blocks)

/-- Marks the predecessors of the states of a block. -/
def touchPredecessors (predecessors : Array (List Nat)) (w : MarkedPartition × List Nat) (b : Nat) :
    MarkedPartition × List Nat :=
  (w.1.members b).foldl (fun w s => (predecessors[s]?.getD []).foldl touch w) w

/-- Splits a block that was taken from the worklist, and marks the predecessors of its new parts. -/
def step (f : SignatureFunction σ) (predecessors : Array (List Nat)) (b : Nat) (w : Worklist σ) :
    Worklist σ :=
  let (numbered, memory) :=
    w.partition.numberMarked b (numberBySignature f w.partition) ⟨w.memory, .empty⟩
  let (parts, partition) := w.partition.splitNumbered b numbered
  let (partition, blocks) :=
    parts.tail.foldl (touchPredecessors predecessors) (partition, w.blocks)
  ⟨partition, blocks, memory.memory⟩

/-- Takes blocks from the worklist until it is empty, `fuel` of them at most. -/
def run (f : SignatureFunction σ) (predecessors : Array (List Nat)) : Nat → Worklist σ → Worklist σ
  | 0, w => w
  | fuel + 1, w =>
    match w.blocks with
    | [] => w
    | b :: rest => run f predecessors fuel (step f predecessors b { w with blocks := rest })

/-- A bound for the number of steps: every step removes a block from the worklist, and only a new
block, of which there are at most `n`, adds others, at most `n` at a time. -/
def stepBound (n : Nat) : Nat := (n + 1) * (n + 1)

def start (p : Partition) (memory : σ) : Worklist σ :=
  ⟨.ofPartition p, List.range p.numBlocks, memory⟩

variable {V : Type}

/-- Refines a partition, without empty blocks, until states of one block have equal signatures. -/
def refineBy (f : SignatureFunction σ) (m : Model V) (p : Partition) (memory : σ) : Worklist σ :=
  run f m.predecessors (stepBound m.numStates) (start p memory)

variable [Value V]

/-- The totals into the blocks as signatures. -/
def totals (m : Model V) : SignatureFunction (ValueCache V) :=
  fun p cache s => signature m p.toPartition cache s

/-- Refines a partition, without empty blocks, until states of one block have equal totals into every
block. -/
def refine (m : Model V) (p : Partition) (cache : ValueCache V) : Worklist (ValueCache V) :=
  refineBy (totals m) m p cache

end Bisim
end MarkovCheck

import MarkovCheck.Partition.Basic

/-!
# MarkovCheck.Partition.Marked

A partition whose states can be marked, and whose marked states can be split off.

The states are arranged in one array such that every block is a range of it; in each range the
unmarked states come first. Two further arrays give the block and the place of every state, so a
state is marked by one exchange. Numbered states are arranged by counting: the counts of the numbers
give the ranges, and every state moves to the next free place of the range of its number.

* `MarkedPartition.ofPartition` — all states marked.
* `mark`, `isMarked`            — marking a state.
* `swapBlocks`                  — exchanges the numbers of two blocks.
* `countNumbers`, `layOut`, `distribute` — the counting, the ranges, and the moving of the states.
* `numberMarked`                — numbers the marked states of a block.
* `splitNumbered`, `split`      — splits the marked states of a block by numbers; a largest part
  keeps the number of the block.
-/

namespace MarkovCheck

/-- The range of a block: its states stand from `start` to `stop`, the marked ones from `split`. -/
structure Block where
  start : Nat
  split : Nat
  stop : Nat
deriving DecidableEq, Repr, Inhabited

namespace Block

def marked (start stop : Nat) : Block := ⟨start, start, stop⟩

def unmarked (start stop : Nat) : Block := ⟨start, stop, stop⟩

def size (b : Block) : Nat := b.stop - b.start
def numMarked (b : Block) : Nat := b.stop - b.split
def hasMarked (b : Block) : Bool := b.split < b.stop
def hasUnmarked (b : Block) : Bool := b.start < b.split
def isEmpty (b : Block) : Bool := b.start == b.stop

end Block

/-- A partition with marked states. -/
structure MarkedPartition where
  /-- The states, block by block. -/
  states : Array Nat
  blocks : Array Block
  /-- The block of every state. -/
  blockOf : Array Nat
  /-- The place of every state in `states`. -/
  offsetOf : Array Nat
deriving DecidableEq, Repr, Inhabited

namespace MarkedPartition

def numBlocks (p : MarkedPartition) : Nat := p.blocks.size

def block (p : MarkedPartition) (b : Nat) : Block := p.blocks[b]?.getD default

def blockNumber (p : MarkedPartition) (s : Nat) : Nat := p.blockOf[s]?.getD 0

def offset (p : MarkedPartition) (s : Nat) : Nat := p.offsetOf[s]?.getD 0

/-- The states at the places from `start` to `stop`. -/
def slice (p : MarkedPartition) (start stop : Nat) : List Nat := (p.states.extract start stop).toList

/-- The states of a block, unmarked ones first. -/
def members (p : MarkedPartition) (b : Nat) : List Nat := p.slice (p.block b).start (p.block b).stop

def markedStates (p : MarkedPartition) (b : Nat) : List Nat :=
  (p.slice (p.block b).split (p.block b).stop).mergeSort

/-- The equivalence, without the marks. -/
def toPartition (p : MarkedPartition) : Partition := ⟨p.blockOf, p.blocks.size⟩

/-- Puts a state of block `b` at a place. -/
def put (p : MarkedPartition) (b offset s : Nat) : MarkedPartition :=
  { p with
    states := p.states.setIfInBounds offset s
    blockOf := p.blockOf.setIfInBounds s b
    offsetOf := p.offsetOf.setIfInBounds s offset }

/-- Counts how often each number is given, on top of earlier counts. The counts reach up to the
largest number. -/
def countNumbers (counts : Array Nat) (numbered : List (Nat × Nat)) : Array Nat :=
  numbered.foldl (fun counts e =>
    (counts ++ Array.replicate (e.2 + 1 - counts.size) 0).modify e.2 (· + 1)) counts

/-- Lays out ranges of the given sizes one after the other from a given offset on, and tells where
they start. A range is recorded by `openRange`, which is told where the range before it stops. -/
def layOut (openRange : Array Block → Nat → Nat → Nat × Array Block) (blocks : Array Block)
    (stop : Nat) : List Nat → List Nat × Array Block
  | [] => ([], blocks)
  | size :: rest =>
    let (start, blocks) := openRange blocks stop size
    let (starts, blocks) := layOut openRange blocks (start + size) rest
    (start :: starts, blocks)

/-- Records a range as a new block. -/
def appendBlock (make : Nat → Nat → Block) (blocks : Array Block) (stop size : Nat) :
    Nat × Array Block :=
  (stop, blocks.push (make stop (stop + size)))

/-- Moves numbered states to their places: every one to the next free place of its number, in the
block with the name of the number. -/
def distribute (name : Nat → Nat) (p : MarkedPartition) (next : Array Nat) :
    List (Nat × Nat) → MarkedPartition
  | [] => p
  | (s, k) :: rest =>
    let offset := next[k]?.getD 0
    distribute name (p.put (name k) offset s) (next.setIfInBounds k (offset + 1)) rest

/-- The blocks of a partition with every state marked. -/
def ofPartition (p : Partition) : MarkedPartition :=
  let numbered := p.blocks.toList.zipIdx.map fun e => (e.2, e.1)
  let sizes := countNumbers (Array.replicate p.numBlocks 0) numbered
  let (starts, blocks) := layOut (appendBlock .marked) #[] 0 sizes.toList
  let zeros := Array.replicate p.size 0
  distribute id ⟨zeros, blocks, zeros, zeros⟩ starts.toArray numbered

def swapStates (p : MarkedPartition) (i j : Nat) : MarkedPartition :=
  let s := p.states[i]?.getD 0
  let t := p.states[j]?.getD 0
  { p with
    states := (p.states.setIfInBounds i t).setIfInBounds j s
    offsetOf := (p.offsetOf.setIfInBounds t i).setIfInBounds s j }

def setBlock (p : MarkedPartition) (b : Nat) (block : Block) : MarkedPartition :=
  { p with blocks := p.blocks.setIfInBounds b block }

def isMarked (p : MarkedPartition) (s : Nat) : Bool :=
  (p.block (p.blockNumber s)).split ≤ p.offset s

/-- Marks a state: it changes places with the last unmarked state of its block. -/
def mark (p : MarkedPartition) (s : Nat) : MarkedPartition :=
  if p.isMarked s then p
  else
    let b := p.blockNumber s
    let block := p.block b
    (p.swapStates (p.offset s) (block.split - 1)).setBlock b { block with split := block.split - 1 }

/-- Tells the states of a block its number. -/
def renameStates (p : MarkedPartition) (b : Nat) : MarkedPartition :=
  { p with blockOf := (p.members b).foldl (fun a s => a.setIfInBounds s b) p.blockOf }

def swapBlocks (p : MarkedPartition) (a b : Nat) : MarkedPartition :=
  if a = b then p
  else
    let first := p.block a
    let second := p.block b
    (((p.setBlock a second).setBlock b first).renameStates a).renameStates b

/-- The numbers of the blocks that a split of block `b` results in, when there were `before` blocks
before it. -/
def partsOf (p : MarkedPartition) (b before : Nat) : List Nat :=
  b :: (List.range (p.numBlocks - before)).map (before + ·)

/-- The last one of the largest blocks among `best` and the given ones. -/
def largest (p : MarkedPartition) (best : Nat) (others : List Nat) : Nat :=
  others.foldl (fun best c => if (p.block best).size ≤ (p.block c).size then c else best) best

/-- Records the range of a part of the marked states of block `b`. The first part, before which
nothing is laid out, starts where the marked states do; it takes over the number of the block if no
state is unmarked. -/
def openPart (b : Nat) (block : Block) (blocks : Array Block) (stop size : Nat) :
    Nat × Array Block :=
  if stop = 0 then
    if block.hasUnmarked then
      appendBlock .unmarked (blocks.setIfInBounds b (.unmarked block.start block.split))
        block.split size
    else (block.start, blocks.setIfInBounds b (.unmarked block.start (block.start + size)))
  else appendBlock .unmarked blocks stop size

/-- Splits a block into its unmarked states and the marked states of each number. -/
def separate (p : MarkedPartition) (b : Nat) (numbered : List (Nat × Nat)) : MarkedPartition :=
  let block := p.block b
  let (starts, blocks) :=
    layOut (openPart b block) p.blocks 0 (countNumbers #[] numbered).toList
  let first := if block.hasUnmarked then p.numBlocks else p.numBlocks - 1
  let name := fun k => if k = 0 ∧ block.hasUnmarked = false then b else first + k
  distribute name { p with blocks } starts.toArray numbered

/-- Numbers a list of states one after the other, by a function with a memory. -/
def numberStates {σ : Type} (f : σ → Nat → Nat × σ) (memory : σ) :
    List Nat → List (Nat × Nat) × σ
  | [] => ([], memory)
  | s :: rest =>
    let (n, memory) := f memory s
    let (numbered, memory) := numberStates f memory rest
    ((s, n) :: numbered, memory)

/-- The marked states of a block with the numbers that `f` gives them in ascending order of the states.
A single state is not numbered, since it cannot be split. -/
def numberMarked {σ : Type} (p : MarkedPartition) (b : Nat) (f : σ → Nat → Nat × σ) (memory : σ) :
    List (Nat × Nat) × σ :=
  if (p.block b).size = 1 then ([], memory) else numberStates f memory (p.markedStates b)

/-- Splits a block whose marked states are numbered: states with equal numbers stay together, and so
do the unmarked states. Afterwards no state of the block is marked, and the number of the block
belongs to a largest part. The result starts with the numbers of the parts, that of the block
first. A single state only loses its mark. -/
def splitNumbered (p : MarkedPartition) (b : Nat) (numbered : List (Nat × Nat)) :
    List Nat × MarkedPartition :=
  let block := p.block b
  if block.size = 1 then ([b], p.setBlock b (.unmarked block.start block.stop))
  else
    let q := p.separate b numbered
    let parts := q.partsOf b p.numBlocks
    (parts, q.swapBlocks b (q.largest b parts.tail))

/-- Splits the marked states of a block by the numbers that `f` gives them. -/
def split {σ : Type} (p : MarkedPartition) (b : Nat) (f : σ → Nat → Nat × σ) (memory : σ) :
    List Nat × MarkedPartition × σ :=
  let (numbered, memory) := p.numberMarked b f memory
  let (parts, q) := p.splitNumbered b numbered
  (parts, q, memory)

/-- The text of a block: its states, the marked ones with a star. -/
def blockText (p : MarkedPartition) (block : Block) : String :=
  Partition.braced
    ((p.slice block.start block.split).map toString ++
      (p.slice block.split block.stop).map fun s => toString s ++ "*")

/-- The text of a partition: its blocks by number. -/
def toText (p : MarkedPartition) : String :=
  Partition.braced (p.blocks.toList.map p.blockText)

end MarkedPartition
end MarkovCheck

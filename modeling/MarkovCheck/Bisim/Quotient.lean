import MarkovCheck.Bisim.Preserved
import MarkovCheck.Bisim.Signature
import MarkovCheck.Chain.Builder

/-!
# MarkovCheck.Bisim.Quotient

The quotient of a model by a partition of its states.

The quotient has one state for every block, numbered by smallest states. The smallest state of a
block represents it, and all others must agree with it: on the total values into the blocks, on the
preserved labels, and on the preserved rewards.

* `Quotient`      — the smaller model, and the quotient state of every given state.
* `disagreement?` — why two states do not fit into one block.
* `quotient`      — the quotient by a partition.
-/

namespace MarkovCheck

/-- A minimised model. -/
structure Quotient (V : Type) where
  model : Model V
  /-- The state of the quotient for every state of the given model. -/
  stateMap : Array Nat
deriving DecidableEq

namespace Bisim

variable {V : Type} [Value V]

/-- Equality of totals, as numbers. -/
def sameSums : List (Nat × V) → List (Nat × V) → Bool
  | [], [] => true
  | a :: as, b :: bs => a.1 == b.1 && Value.numEq a.2 b.2 && sameSums as bs
  | _, _ => false

/-- The first thing on which two states disagree. -/
def disagreement? (o : Observed V) (sums : Nat → List (Nat × V)) (s r : Nat) : Option String :=
  if !sameSums (sums s) (sums r) then some "the probabilities into the blocks"
  else
    match o.labels.find? fun l => l.2.contains s != l.2.contains r with
    | some l => some ("label \"" ++ l.1 ++ "\"")
    | none =>
      (o.rewards.find? fun w => !Value.numEq (w.value s) (w.value r)).map fun w =>
        "reward model \"" ++ w.name ++ "\""

/-- The smallest state of every block, for a partition in canonical form. -/
def representatives (p : Partition) : Array Nat :=
  p.blocks.toList.zipIdx.foldr (fun (b, s) table => table.setIfInBounds b s)
    (Array.replicate p.numBlocks 0)

/-- The smallest state that disagrees with the representative of its block. -/
def inconsistency? (o : Observed V) (p : Partition) (sums : Nat → List (Nat × V)) :
    Option ReductionError :=
  let table := representatives p
  (List.range p.size).findSome? fun s =>
    let b := p.block s
    let r := table[b]?.getD 0
    if s = r then none
    else (disagreement? o sums s r).map fun reason => .inconsistentBlock b s r reason

/-- Adds what a representative does as a state of the quotient. -/
def addRepresentative (o : Observed V) (sums : Nat → List (Nat × V)) (b : Builder V) (c r : Nat) :
    Builder V :=
  let b := (sums r).foldl (fun b e => b.addTransition c e.1 e.2) b
  let b := o.labels.foldl (fun b l => if l.2.contains r then b.addStateLabel c l.1 else b) b
  o.rewards.foldl (fun b w => b.addStateReward w.name c (w.value r)) b

/-- The parts of the quotient by a partition in canonical form. -/
def quotientBuilder (m : Model V) (o : Observed V) (p : Partition) (sums : Nat → List (Nat × V)) :
    Builder V :=
  let b := Builder.empty.requireStates p.numBlocks
  let b := o.labels.foldl (fun b l => b.addLabel l.1) b
  let b := o.rewards.foldl (fun b w => b.addRewardModel w.name) b
  let b := (representatives p).toList.zipIdx.foldl
    (fun b (r, c) => addRepresentative o sums b c r) b
  m.initial.foldl (fun b s => b.addInitial (p.block s)) b

/-- The quotient by a partition that is a bisimulation. -/
def quotient (m : Model V) (p : Partition) (preserved : Preserved) :
    Except ReductionError (Quotient V) :=
  let p := p.canonical
  match observe m preserved with
  | .error e => .error e
  | .ok o =>
    let table := (Array.range m.numStates).map (blockSums m p)
    let sums := fun s => table[s]?.getD []
    match inconsistency? o p sums with
    | some e => .error e
    | none =>
      match (quotientBuilder m o p sums).finish m.kind with
      | .error e => .error (.model e)
      | .ok q => .ok ⟨q, p.blocks⟩

end Bisim
end MarkovCheck

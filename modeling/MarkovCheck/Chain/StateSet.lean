/-!
# MarkovCheck.Chain.StateSet

Sets of states of a model with a fixed number of states.

* `contains` — membership, the view through which the operations are understood.
* `empty`, `full`, `ofList`, `ofFn`, `insert`, `compl`, `inter`, `union` — construction.
* `toList`, `count` — the members in ascending order, and their number.
-/

namespace MarkovCheck

/-- A set of states: one truth value for every state. -/
structure StateSet where
  bits : Array Bool
deriving DecidableEq, Repr, Inhabited

namespace StateSet

/-- The set of the states below `n` that satisfy a predicate. -/
def ofFn (n : Nat) (p : Nat → Bool) : StateSet := ⟨Array.ofFn fun i : Fin n => p i⟩

def empty (n : Nat) : StateSet := ⟨Array.replicate n false⟩
def full (n : Nat) : StateSet := ⟨Array.replicate n true⟩

/-- Membership; a state beyond the end is in no set. -/
def contains (s : StateSet) (i : Nat) : Bool := s.bits[i]?.getD false

/-- Adds a state; one beyond the end is ignored. -/
def insert (s : StateSet) (i : Nat) : StateSet := ⟨s.bits.setIfInBounds i true⟩

def ofList (n : Nat) (l : List Nat) : StateSet := l.foldl insert (empty n)

def compl (s : StateSet) : StateSet := ⟨s.bits.map (!·)⟩
def inter (s t : StateSet) : StateSet := ⟨Array.zipWith (· && ·) s.bits t.bits⟩
def union (s t : StateSet) : StateSet := ⟨Array.zipWith (· || ·) s.bits t.bits⟩

/-- The members in ascending order. -/
def toList (s : StateSet) : List Nat := (List.range s.bits.size).filter s.contains

def count (s : StateSet) : Nat := s.bits.count true

end StateSet
end MarkovCheck

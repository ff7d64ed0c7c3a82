import MarkovCheck.Chain.Model

/-!
# MarkovCheck.Chain.Predecessors

The converse of the transition relation.

The sources of all transitions stand in one array, those of the transitions into the same state next to each
other. They are arranged by counting. A second array has an entry for every state, which is the number of the
transitions into it at first, then the place where their sources begin; it advances whenever one of them is put
there, and so it has to be moved back in the end.

* `countTargets`, `sumBefore`, `place`, `shift` — the counting, the starts, the placing, and the way back.
* `PredecessorIndex.ofEdges` — the two arrays for a list of edges.
* `predecessors` — for every state the sources of the transitions into it, in ascending order.
-/

namespace MarkovCheck

/-- The sources of edges, by their targets. -/
structure PredecessorIndex where
  sources : Array Nat
  /-- Where the sources of the edges into each state begin, and in the end the number of edges. -/
  starts : Array Nat
deriving DecidableEq, Repr, Inhabited

namespace PredecessorIndex

/-- The number of edges into every state. -/
def countTargets (n : Nat) (edges : List (Nat × Nat)) : Array Nat :=
  edges.foldl (fun counts e => counts.modify e.2 (· + 1)) (Array.replicate n 0)

/-- The sums of the entries before each one, on top of a given sum. -/
def sumBefore (sum : Nat) : List Nat → List Nat
  | [] => []
  | count :: rest => sum :: sumBefore (sum + count) rest

/-- Puts the source of an edge where the next one for its target belongs. -/
def place (x : PredecessorIndex) (e : Nat × Nat) : PredecessorIndex where
  sources := x.sources.setIfInBounds (x.starts[e.2]?.getD 0) e.1
  starts := x.starts.modify e.2 (· + 1)

/-- Moves every entry to the next place, and another one to the first. -/
def shift (first : Nat) : List Nat → List Nat
  | [] => []
  | next :: rest => first :: shift next rest

def ofEdges (n : Nat) (edges : List (Nat × Nat)) : PredecessorIndex :=
  let starts := (sumBefore 0 (countTargets n edges).toList).toArray
  let placed := edges.foldl place ⟨Array.replicate edges.length 0, starts⟩
  ⟨placed.sources, (shift 0 placed.starts.toList).toArray.push placed.sources.size⟩

/-- The sources of the edges into a state. -/
def predecessors (x : PredecessorIndex) (t : Nat) : List Nat :=
  (x.sources.extract (x.starts[t]?.getD 0) (x.starts[t + 1]?.getD 0)).toList

end PredecessorIndex

namespace Model

variable {V : Type}

/-- The pairs of states with a transition, state by state. -/
def edges (m : Model V) : List (Nat × Nat) :=
  (List.range m.numStates).flatMap fun s => ((m.row s).map (·.1)).map fun t => (s, t)

def predecessorIndex (m : Model V) : PredecessorIndex := .ofEdges m.numStates m.edges

/-- The sources of the transitions into every state, in ascending order. -/
def predecessors (m : Model V) : Array (List Nat) :=
  let index := m.predecessorIndex
  Array.ofFn fun t : Fin m.numStates => index.predecessors t

end Model
end MarkovCheck

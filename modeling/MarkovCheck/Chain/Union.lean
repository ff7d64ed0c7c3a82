import MarkovCheck.Chain.Compressed
import MarkovCheck.Chain.Model

/-!
# MarkovCheck.Chain.Union

The disjoint union of two models.

The compressed rows of the second model are put behind those of the first one, after the offset behind the
last row has been taken away, and then that offset is added again. Labels are collected name by name: a label
of either model is kept, also one that no state carries. A reward model needs to be in both.

* `compressed`, `unionRows` — the compressed rows of a model, and of the union.
* `Labeling.addUnion`, `Labeling.append` — one label of the union, and all of them.
* `disjointUnion` — the states of the first model, followed by those of the second one shifted by
  their number.
-/

namespace MarkovCheck
namespace Labeling

/-- The states that carry a label in one of two models side by side; the first one has `n` states and the
second one `k`. -/
def unionStates (l r : Labeling) (n k : Nat) (name : String) : List Nat :=
  (List.range n).filter (l.has name) ++ ((List.range k).filter (r.has name)).map (· + n)

/-- Adds a label of two models side by side, unless it has been added before. -/
def addUnion (l r : Labeling) (n k : Nat) (merged : Labeling) (name : String) : Labeling :=
  if merged.contains name then merged
  else
    let carried := (l.unionStates r n k name).foldl (·.addState name ·) merged
    if carried.contains name then carried else carried.set name (.empty (n + k))

/-- The labels of two models with `n` and `k` states side by side. -/
def append (l r : Labeling) (n k : Nat) : Labeling :=
  (l.names ++ r.names).foldl (l.addUnion r n k) (.empty (n + k))

end Labeling

namespace Model

variable {V : Type}

/-- The transitions of a model, one state after the other. -/
def compressed (m : Model V) : Compressed V := (m.rows.foldl Compressed.pushRow {}).close

def shiftRow (n : Nat) (row : List (Nat × V)) : List (Nat × V) := row.map fun e => (e.1 + n, e.2)

/-- The transitions of two models side by side. -/
def unionRows (l r : Model V) : Compressed V :=
  (r.rows.foldl (fun c row => c.pushRow (shiftRow l.numStates row)) l.compressed.reopen).close

/-- The disjoint union, of the kind of the left model. -/
def disjointUnion (l r : Model V) : Model V where
  kind := l.kind
  rows := (l.unionRows r).rows (l.numStates + r.numStates)
  initial := l.initial ++ r.initial.map (· + l.numStates)
  labeling := l.labeling.append r.labeling l.numStates r.numStates
  rewards := l.rewards.filterMap fun a =>
    (r.rewardModel? a.name).map fun b => ⟨a.name, a.values ++ b.values⟩

end Model
end MarkovCheck

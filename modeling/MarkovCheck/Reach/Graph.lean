import MarkovCheck.Chain.Predecessors

/-!
# MarkovCheck.Reach.Graph

The states that satisfy an until formula with probability zero or one, found in the graph of the
transitions alone.

* `backwardReachable` — the states with a path into a set whose states before the last are in
  another set.
* `prob0` — the states without a path through `phi` to `psi`.
* `prob1` — the states without a path through `phi` without `psi` to a state of `prob0`.
-/

namespace MarkovCheck
namespace Reach

/-- The states found so far, and those whose predecessors have not been visited, the next one first. -/
structure Search where
  found : StateSet
  queue : List Nat

/-- Visits a predecessor: it is found if it lies in the allowed set, and is then the next one. -/
def visit (through : StateSet) (w : Search) (p : Nat) : Search :=
  if through.contains p && !w.found.contains p then ⟨w.found.insert p, p :: w.queue⟩ else w

/-- Visits the predecessors of the states of the queue. Every state enters the queue at most once,
so as many rounds as there are states are enough. -/
def search (predecessors : Array (List Nat)) (through : StateSet) : Nat → Search → StateSet
  | 0, w => w.found
  | fuel + 1, w =>
    match w.queue with
    | [] => w.found
    | s :: rest =>
      search predecessors through fuel
        ((predecessors[s]?.getD []).foldl (visit through) ⟨w.found, rest⟩)

/-- The begin of a search: the target is found, and its greatest state is the next one. -/
def Search.start (target : StateSet) : Search := ⟨target, target.toList.reverse⟩

/-- The states that reach the target by a path whose states before the last are in `through`. -/
def backwardReachable (predecessors : Array (List Nat)) (target through : StateSet) : StateSet :=
  search predecessors through predecessors.size (.start target)

/-- The states without a path through `phi` to `psi`. -/
def prob0 (predecessors : Array (List Nat)) (phi psi : StateSet) : StateSet :=
  (backwardReachable predecessors psi phi).compl

/-- The states without a path to a state of `no` that passes through `phi` and not through `psi`. -/
def prob1 (predecessors : Array (List Nat)) (phi psi no : StateSet) : StateSet :=
  (backwardReachable predecessors no (phi.inter psi.compl)).compl

end Reach
end MarkovCheck

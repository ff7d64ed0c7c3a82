import Mathlib
import MarkovCheck.Proofs.Chain.Operations
import MarkovCheck.Proofs.Double.Bits

/-!
# MarkovCheck.Proofs.Chain.Permutation

The finished model does not depend on the order in which transitions were added.

Addition may depend on the order of its summands, as that of doubles does. But a list has only one
ascending arrangement when the comparison tells all values apart, so sorting the transitions by source,
target and value leaves the same list whatever their order was. The other parts of a builder do not
notice transitions, except for the number of states, which is a maximum.

* `run_others`         — what a builder holds besides its transitions comes from the other operations.
* `Value.sumCanonical_perm`, `mergeTransitions_perm` — sums and merged transitions of a permuted list.
* `finish_run_perm`    — the finished model.
-/

namespace MarkovCheck

open Std (LawfulEqCmp ReflCmp TransCmp)

variable {V : Type}

namespace Builder

/-! ## Operations that add no transition -/

/-- The operations that add no transition. -/
def others (ops : List (Operation V)) : List (Operation V) := ops.filter (·.transition?.isNone)

theorem others_append_transition (ops : List (Operation V)) (s t : ℕ) (v : V) :
    others (ops ++ [.addTransition s t v]) = others ops := by
  simp [others, Operation.transition?]

theorem others_append {op : Operation V} (h : op.transition? = none) (ops : List (Operation V)) :
    others (ops ++ [op]) = others ops ++ [op] := by
  simp [others, h]

/-- Adding a transition touches neither initial states nor labels and rewards. -/
theorem run_others (ops : List (Operation V)) : (run ops).initial = (run (others ops)).initial ∧
    (run ops).labels = (run (others ops)).labels ∧ (run ops).rewards = (run (others ops)).rewards := by
  induction ops using List.reverseRecOn with
  | nil => exact ⟨rfl, rfl, rfl⟩
  | append_singleton ops op ih =>
    obtain ⟨hinitial, hlabels, hrewards⟩ := ih
    cases op with
    | addTransition s t v =>
      rw [run_append, others_append_transition]
      exact ⟨hinitial, hlabels, hrewards⟩
    | _ =>
      rw [run_append, others_append rfl, run_append]
      simp [Operation.apply, requireStates, addInitial, addLabel, addStateLabel, addRewardModel,
        addStateReward, hinitial, hlabels, hrewards]

/-- The number of states is the largest one that the other operations or a transition need. -/
theorem numStates_run_others (ops : List (Operation V)) : (run ops).numStates =
    max (run (others ops)).numStates
      (((ops.filterMap Operation.transition?).map fun t => max t.source t.target + 1).foldr max 0) := by
  rw [numStates_run, numStates_run, others]
  induction ops with
  | nil => rfl
  | cons op ops ih =>
    rw [List.map_cons, List.foldr_cons, ih]
    cases op with
    | addTransition s t v =>
      have hcons : (Operation.addTransition s t v :: ops).filterMap Operation.transition? =
        ⟨s, t, v⟩ :: ops.filterMap Operation.transition? := rfl
      rw [List.filter_cons_of_neg (by simp [Operation.transition?]), hcons]
      exact max_left_comm _ _ _
    | _ =>
      rw [List.filter_cons_of_pos (by simp [Operation.transition?]), List.filterMap_cons_none rfl]
      exact (max_assoc _ _ _).symm

end Builder

/-! ## Sums and models -/

variable [Value V] [TransCmp (Value.cmp (V := V))] [LawfulEqCmp (Value.cmp (V := V))]

/-- The sum does not depend on the arrangement of the list. -/
theorem Value.sumCanonical_perm {l r : List V} (h : l.Perm r) : sumCanonical l = sumCanonical r :=
  congrArg sum (Builder.mergeSort_cmp_perm cmp h)

namespace Builder

instance : LawfulEqCmp (transitionCmp (V := V)) where
  compare_self {t} := by
    rw [transitionCmp, compare_eq_iff_eq.2 rfl, compare_eq_iff_eq.2 rfl]
    exact (ReflCmp.compare_self : Value.cmp t.value t.value = .eq)
  eq_of_compare {t u} h := by
    obtain ⟨hsource, h⟩ := Ordering.then_eq_eq.1 h
    obtain ⟨htarget, hvalue⟩ := Ordering.then_eq_eq.1 h
    cases t
    cases u
    rw [Transition.mk.injEq]
    exact ⟨compare_eq_iff_eq.1 hsource, compare_eq_iff_eq.1 htarget, LawfulEqCmp.eq_of_compare hvalue⟩

theorem mergeTransitions_perm {ts us : List (Transition V)} (h : ts.Perm us) :
    mergeTransitions ts = mergeTransitions us := by
  rw [mergeTransitions, mergeTransitions, mergeSort_cmp_perm transitionCmp h]

/-- The same transitions in another order, added among the same other operations, make the same model,
whatever the addition is; and canonical sums do not depend on the arrangement of their summands. -/
theorem finish_run_perm :
    (∀ (ops ops' : List (Operation V)) (k : ModelKind),
      (ops.filterMap Operation.transition?).Perm (ops'.filterMap Operation.transition?) →
      others ops = others ops' → (run ops).finish k = (run ops').finish k) ∧
    ∀ l l' : List V, l.Perm l' → Value.sumCanonical l = Value.sumCanonical l' := by
  refine ⟨fun ops ops' k htransitions hothers => ?_, fun l l' => Value.sumCanonical_perm⟩
  obtain ⟨hinitial, hlabels, hrewards⟩ := run_others ops
  obtain ⟨hinitial', hlabels', hrewards'⟩ := run_others ops'
  rw [← hothers] at hinitial' hlabels' hrewards'
  have hstates : (run ops).numStates = (run ops').numStates := by
    rw [numStates_run_others ops, numStates_run_others ops', hothers, (htransitions.map _).foldr_eq]
  have hmerged : mergeTransitions (run ops).transitions.toList =
      mergeTransitions (run ops').transitions.toList := by
    rw [transitions_run, transitions_run]
    exact mergeTransitions_perm htransitions
  rw [finish, finish, rowsOf, rowsOf, hmerged, hstates, hinitial, hinitial', hlabels, hlabels', hrewards,
    hrewards']

/-- Doubles of which the sum depends on the order of summation. -/
def thirds : List Double := [⟨0x3fb999999999999a⟩, ⟨0x3fc999999999999a⟩, ⟨0x3fd3333333333333⟩]

theorem thirds_finish_run_perm :
    let ops := [.addInitial 1] ++ thirds.map (.addTransition 0 1) ++ [.addStateLabel 4 "a"]
    let ops' := [.addInitial 1, .addStateLabel 4 "a"] ++ thirds.reverse.map (.addTransition 0 1)
    (run ops).finish .dtmc = (run ops').finish .dtmc ∧
      Value.sumCanonical thirds = Value.sumCanonical thirds.reverse :=
  ⟨finish_run_perm.1 _ _ _ (by decide) rfl, finish_run_perm.2 _ _ (List.reverse_perm _).symm⟩

end Builder
end MarkovCheck

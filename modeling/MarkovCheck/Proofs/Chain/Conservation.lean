import Mathlib
import MarkovCheck.Proofs.Chain.Merge

/-!
# MarkovCheck.Proofs.Chain.Conservation

Adding up transitions conserves what leaves a state.

Sorting permutes the transitions, bundling only puts brackets around their values, and a bundle whose sum
is zero contributes nothing when it is left out. So every weighted sum over a row of the matrix is the
weighted sum over all transitions that were added from that state; in particular the values of a row sum
to one exactly if those of the added transitions do.

* `outflow`         — the weighted sum of the values that were added from a state.
* `sum_rowsOf`      — merging conserves it.
* `validate_ok_iff` — a model is valid, with any tolerance, exactly if all its rows sum to one.
-/

namespace MarkovCheck

open RationalFunction (toFrac)

/-! ## Merging -/

namespace Builder

variable {ts : List (Transition RationalFunction)} {n s : ℕ}

/-- The sum of the values that were added from a state, each times the weight of its target. -/
noncomputable def outflow (ts : List (Transition RationalFunction)) (s : ℕ) (f : ℕ → Frac) : Frac :=
  ((ts.filter fun t => t.source = s).map fun t => t.value.toFrac * f t.target).sum

/-- The same for bundles. -/
noncomputable def bundledOutflow (gs : List (Bundle RationalFunction)) (s : ℕ) (f : ℕ → Frac) : Frac :=
  ((gs.filter fun g => g.source = s).map fun g => (g.values.map toFrac).sum * f g.target).sum

theorem outflow_cons (t : Transition RationalFunction) (ts : List (Transition RationalFunction)) (s : ℕ)
    (f : ℕ → Frac) : outflow (t :: ts) s f =
      (if t.source = s then t.value.toFrac * f t.target else 0) + outflow ts s f := by
  by_cases h : t.source = s <;> simp [outflow, h]

theorem bundledOutflow_cons (g : Bundle RationalFunction) (gs : List (Bundle RationalFunction)) (s : ℕ)
    (f : ℕ → Frac) : bundledOutflow (g :: gs) s f =
      (if g.source = s then (g.values.map toFrac).sum * f g.target else 0) + bundledOutflow gs s f := by
  by_cases h : g.source = s <;> simp [bundledOutflow, h]

theorem outflow_perm {ts' : List (Transition RationalFunction)} (h : ts.Perm ts') (s : ℕ)
    (f : ℕ → Frac) : outflow ts s f = outflow ts' s f := ((h.filter _).map _).sum_eq

theorem bundledOutflow_ofSorted (ts : List (Transition RationalFunction)) (s : ℕ) (f : ℕ → Frac) :
    bundledOutflow (Bundle.ofSorted ts) s f = outflow ts s f := by
  induction ts with
  | nil => rfl
  | cons t ts ih =>
    rw [Bundle.ofSorted_cons, outflow_cons, ← ih]
    cases Bundle.ofSorted ts with
    | nil => simp [Bundle.cons, bundledOutflow_cons]
    | cons g rest =>
      -- The transition joins the first bundle or starts one of its own.
      by_cases hkey : t.source = g.source ∧ t.target = g.target
      · rw [Bundle.cons, if_pos hkey, bundledOutflow_cons, bundledOutflow_cons, hkey.1, hkey.2]
        split <;> simp [add_mul, add_assoc]
      · rw [Bundle.cons, if_neg hkey, bundledOutflow_cons]
        simp

/-- Bundles with sum zero may be left out. -/
theorem outflow_filterMap {gs : List (Bundle RationalFunction)}
    (h : ∀ g ∈ gs, ∀ v ∈ g.values, v.IsCanonical) (s : ℕ) (f : ℕ → Frac) :
    outflow (gs.filterMap fun g => let sum := Value.sum g.values
      if Value.isZero sum then none else some ⟨g.source, g.target, sum⟩) s f =
      bundledOutflow gs s f := by
  induction gs with
  | nil => rfl
  | cons g gs ih =>
    rw [List.forall_mem_cons] at h
    have hsum := Value.sum_denotes h.1
    rw [bundledOutflow_cons, ← ih h.2, List.filterMap_cons, ← hsum.2]
    cases hz : Value.isZero (Value.sum g.values) with
    | true =>
      have hzero : (Value.sum g.values).toFrac = 0 := (RationalFunction.isZero_iff hsum.1).1 hz
      simp [hz, hzero]
    | false => simp [hz, outflow_cons]

theorem outflow_mergeTransitions (hcan : ∀ t ∈ ts, t.value.IsCanonical) (s : ℕ) (f : ℕ → Frac) :
    outflow (mergeTransitions ts) s f = outflow ts s f := by
  have hperm : (ts.mergeSort fun a b => (transitionCmp a b).isLE).Perm ts := List.mergeSort_perm _ _
  rw [mergeTransitions, outflow_filterMap, bundledOutflow_ofSorted, outflow_perm hperm]
  intro g hg v hv
  rw [(Bundle.ofSorted_spec (sorted_keys ts)).2 g hg] at hv
  obtain ⟨t, ht, rfl⟩ := List.mem_map.1 hv
  exact hcan t (hperm.mem_iff.1 (List.mem_of_mem_filter ht))

/-- A weighted sum over a row is the sum over everything that was added from the state. -/
theorem sum_rowsOf (hcan : ∀ t ∈ ts, t.value.IsCanonical) (hs : s < n) (f : ℕ → Frac) :
    (((rowsOf n ts)[s]?.getD []).map fun e => e.2.toFrac * f e.1).sum = outflow ts s f := by
  rw [rowsOf_row hs, List.map_map, ← outflow_mergeTransitions hcan, outflow]
  rfl

end Builder

/-! ## Validity -/

namespace Model

variable {m : Model RationalFunction} {s : ℕ}

theorem rowSum_denotes (hc : m.IsCanonical) (s : ℕ) : (m.rowSum s).Denotes (m.expect s 1) := by
  have hsum := Value.sumCanonical_denotes (l := (m.row s).map (·.2)) fun f hf => by
    obtain ⟨e, he, rfl⟩ := List.mem_map.1 hf
    exact hc.row s e he
  have hexpect : m.expect s 1 = (((m.row s).map (·.2)).map toFrac).sum := by
    simp [expect, Function.comp_def]
  rw [hexpect]
  exact hsum

theorem rowSum_eq_one_iff (hc : m.IsCanonical) : m.rowSum s = .one ↔ m.expect s 1 = 1 := by
  have hsum := rowSum_denotes hc s
  constructor
  · intro h
    rw [← hsum.2, h, RationalFunction.denotes_one.2]
  · intro h
    exact hsum.eq (h ▸ RationalFunction.denotes_one)

theorem row_ne_nil_of_expect (h : m.expect s 1 = 1) : m.row s ≠ [] := by
  intro hnil
  rw [expect, hnil, List.map_nil, List.sum_nil] at h
  exact zero_ne_one h

theorem rowError?_eq_none_iff (hc : m.IsCanonical) (tolerance : Double) :
    m.rowError? tolerance s = none ↔ m.expect s 1 = 1 := by
  rw [← rowSum_eq_one_iff hc]
  unfold rowError?
  have hclose : Value.isClose (m.rowSum s) Value.one tolerance = true ↔ m.rowSum s = .one :=
    decide_eq_true_iff
  constructor
  · intro h
    split at h
    · cases h
    · split at h
      · rename_i hone
        exact hclose.1 hone
      · cases h
  · intro h
    have hne := row_ne_nil_of_expect ((rowSum_eq_one_iff hc).1 h)
    rw [if_neg (by simpa using hne), if_pos (hclose.2 h)]

/-- The tolerance does not matter: every row must sum to one exactly. -/
theorem validate_ok_iff (hc : m.IsCanonical) (tolerance : Double) :
    m.validate tolerance = .ok () ↔ ∀ s < m.numStates, m.expect s 1 = 1 := by
  have hnone : (List.range m.numStates).findSome? (m.rowError? tolerance) = none ↔
      ∀ s < m.numStates, m.expect s 1 = 1 := by
    simp only [List.findSome?_eq_none_iff, List.mem_range, rowError?_eq_none_iff hc]
  rw [← hnone, validate]
  cases (List.range m.numStates).findSome? (m.rowError? tolerance) <;> simp

/-- Every state has a transition, and the values of its transitions sum to exactly one; so the model is
valid, with any tolerance. -/
structure Conserves (m : Model RationalFunction) : Prop where
  valid : ∀ tolerance, m.validate tolerance = .ok ()
  nonempty : ∀ s < m.numStates, m.row s ≠ []
  sum_one : ∀ s < m.numStates, m.rowSum s = .one

theorem conserves_of_expect (hc : m.IsCanonical) (h : ∀ s < m.numStates, m.expect s 1 = 1) :
    m.Conserves where
  valid tolerance := (validate_ok_iff hc tolerance).2 h
  nonempty s hs := row_ne_nil_of_expect (h s hs)
  sum_one s hs := (rowSum_eq_one_iff hc).2 (h s hs)

end Model
end MarkovCheck

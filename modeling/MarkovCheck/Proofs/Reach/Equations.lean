import Mathlib
import MarkovCheck.Proofs.Reach.Harmonic
import MarkovCheck.Proofs.Reach.Elimination
import MarkovCheck.Reach.Check

/-!
# MarkovCheck.Proofs.Reach.Equations

The equations of a set of states have a solution, and only one.

The listed states are numbered; the transitions to other states are left out of the equations, which
amounts to the value zero there. From every listed state a path must leave the list. The same holds
of a part of the list, so no leading part of the system is singular.

* `equationOf_spec`  — the equation of a state, read over the states.
* `solveStates_eq_error_iff`, `not_isSingular_of_path` — when there is no solution, and why there is one.
* `solveStates_spec` — the solution, written into a vector over all states.
-/

namespace MarkovCheck
namespace Reach

open LinearSystem

/-! ## Arrays -/

/-- The number of a state is its position in the list. -/
theorem variablesOf_spec {n s : ℕ} {I : List ℕ} (hI : I.Nodup) (hs : s < n) :
    (variablesOf n I)[s]?.join = if s ∈ I then some (I.idxOf s) else none := by
  have hnodup : (I.zipIdx.map (·.1)).Nodup := by rwa [List.zipIdx_map_fst]
  obtain ⟨-, h2, h3⟩ := foldl_setIfInBounds_spec some hnodup (Array.replicate n none)
  change (I.zipIdx.foldl (fun a e => a.setIfInBounds e.1 (some e.2)) (Array.replicate n none))[s]?.join
    = _
  split
  · rename_i hmem
    have hidx := List.idxOf_lt_length_of_mem hmem
    rw [h2 (s, I.idxOf s) (List.mem_zipIdx_iff_getElem?.2 (by simp [hidx])) (by simpa using hs)]
    rfl
  · rename_i hmem
    rw [h3 s (by rwa [List.zipIdx_map_fst]), Array.getElem?_replicate, if_pos hs]
    rfl

theorem replace_spec (values : Array RationalFunction) {X : Array RationalFunction} {I : List ℕ}
    (hI : I.Nodup) (hlt : ∀ s ∈ I, s < values.size) (hsize : X.size = I.length) :
    (replace values I X).size = values.size ∧
      (∀ s ∈ I, vector (replace values I X) s = vector X (I.idxOf s)) ∧
      ∀ s ∉ I, vector (replace values I X) s = vector values s := by
  have hfst : (I.zip X.toList).map (·.1) = I :=
    List.map_fst_zip (hsize.symm.trans Array.length_toList.symm).le
  obtain ⟨h1, h2, h3⟩ := foldl_setIfInBounds_spec id (hfst.symm ▸ hI) values
  refine ⟨h1, fun s hs => ?_, fun s hs => ?_⟩
  · have hidx := List.idxOf_lt_length_of_mem hs
    have hidx' : I.idxOf s < X.size := hidx.trans_eq hsize.symm
    have hget : X[I.idxOf s]? = some X[I.idxOf s] := Array.getElem?_eq_getElem hidx'
    have hmem : (s, X[I.idxOf s]) ∈ I.zip X.toList := by
      rw [List.mem_iff_getElem?]
      refine ⟨I.idxOf s, ?_⟩
      rw [List.getElem?_zip_eq_some]
      simp [hidx, hget]
    have := h2 _ hmem (hlt s hs)
    rw [vector, vector, hget]
    exact congrArg (fun o => (Option.getD o Value.zero).toFrac) this
  · have := h3 s (hfst.symm ▸ hs)
    rw [vector, vector]
    exact congrArg (fun o => (Option.getD o Value.zero).toFrac) this

theorem tabulate_size (n : ℕ) (f : ℕ → RationalFunction) : (tabulate n f).size = n := by
  simp [tabulate]

theorem getElem?_tabulate {n s : ℕ} (f : ℕ → RationalFunction) (hs : s < n) :
    (tabulate n f)[s]? = some (f s) := by
  simp [tabulate, hs]

theorem vector_tabulate {n s : ℕ} (f : ℕ → RationalFunction) (hs : s < n) :
    vector (tabulate n f) s = (f s).toFrac := by
  rw [vector, getElem?_tabulate f hs, Option.getD_some]

theorem allCanonical_tabulate {n : ℕ} {f : ℕ → RationalFunction} (hf : ∀ s, (f s).IsCanonical) :
    AllCanonical (tabulate n f) := by
  intro v hv
  obtain ⟨i, rfl⟩ := Array.mem_ofFn.1 hv
  exact hf i

theorem allCanonical_replace {values X : Array RationalFunction} (hvalues : AllCanonical values)
    (hX : AllCanonical X) (I : List ℕ) : AllCanonical (replace values I X) := by
  have hpairs : ∀ e ∈ I.zip X.toList, e.2.IsCanonical := fun e he =>
    hX e.2 (Array.mem_toList_iff.1 (List.of_mem_zip he).2)
  unfold replace
  generalize I.zip X.toList = l at hpairs
  induction l generalizing values with
  | nil => exact hvalues
  | cons e l ih =>
    rw [List.forall_mem_cons] at hpairs
    refine ih (fun v hv => ?_) hpairs.2
    rcases Array.mem_or_eq_of_mem_setIfInBounds hv with h | rfl
    · exact hvalues v h
    · exact hpairs.1

/-! ## The equations -/

section Equations

variable {m : Model RationalFunction} {w : RationalFunction → ℚ} {v : Valuation} {I : List ℕ}
  {const : ℕ → RationalFunction} {x y : ℕ → Frac} {s : ℕ}

open scoped Classical in
/-- The unknowns of the listed states as a function of the state, zero for other states. -/
noncomputable def onStates (I : List ℕ) (x : ℕ → Frac) (s : ℕ) : Frac :=
  if s ∈ I then x (I.idxOf s) else 0

/-- The values of the listed states as a function of their number, zero for other numbers. -/
noncomputable def byNumber (I : List ℕ) (y : ℕ → Frac) (i : ℕ) : Frac := (I[i]?.map y).getD 0

theorem byNumber_idxOf (hs : s ∈ I) : byNumber I y (I.idxOf s) = y s := by
  rw [byNumber, List.getElem?_idxOf hs, Option.map_some, Option.getD_some]

theorem onStates_byNumber (I : List ℕ) (y : ℕ → Frac) :
    onStates I (byNumber I y) = Set.indicator {t | t ∈ I} y := by
  funext s
  rw [onStates]
  split
  · rename_i hs
    rw [byNumber_idxOf hs]
    exact (Set.indicator_of_mem (s := {t | t ∈ I}) hs y).symm
  · rename_i hs
    exact (Set.indicator_of_notMem (s := {t | t ∈ I}) hs y).symm

/-- The equation of a state says what it should of the listed states. -/
theorem equationOf_spec (hw : m.WellFormed) (hc : m.IsCanonical) (hI : I.Nodup)
    (hconst : ∀ s, (const s).IsCanonical) (s : ℕ) :
    (equationOf m (variablesOf m.numStates I) const s).IsForm I.length 0 ∧
      ∀ x u, (equationOf m (variablesOf m.numStates I) const s).value x u =
        m.expect s (onStates I x) + (const s).toFrac * u := by
  classical
  have hcolumn : ∀ e ∈ m.row s, (variablesOf m.numStates I)[e.1]?.join =
      if e.1 ∈ I then some (I.idxOf e.1) else none := fun e he =>
    variablesOf_spec hI (hw.targets_lt s e he)
  obtain ⟨h1, h2⟩ := Equation.ofRow_spec (n := I.length)
    (l := (m.row s).filterMap fun e =>
      ((variablesOf m.numStates I)[e.1]?.join).map fun column => (column, e.2))
    (fun g hg => by
      obtain ⟨e, he, hsome⟩ := List.mem_filterMap.1 hg
      rw [hcolumn e he] at hsome
      split at hsome
      · rename_i hmem
        cases hsome
        exact ⟨List.idxOf_lt_length_of_mem hmem, hc.row s e he⟩
      · cases hsome)
    (hconst s)
  refine ⟨h1, fun x u => (h2 x u).trans ?_⟩
  congr 1
  rw [Model.expect]
  generalize m.row s = row at hcolumn
  induction row with
  | nil => rfl
  | cons e row ih =>
    rw [List.forall_mem_cons] at hcolumn
    rw [List.filterMap_cons, hcolumn.1, List.map_cons, List.sum_cons, ← ih hcolumn.2, onStates]
    split
    · rename_i hnone
      split at hnone
      · cases hnone
      · rename_i hmem
        rw [if_neg hmem, mul_zero, zero_add]
    · rename_i g hsome
      split at hsome
      · rename_i hmem
        cases hsome
        rw [if_pos hmem]
        rfl
      · cases hsome

/-- The equations of the listed states, read over the states. -/
theorem solves_equationOf (hw : m.WellFormed) (hc : m.IsCanonical) (hI : I.Nodup)
    (hconst : ∀ s, (const s).IsCanonical) {J : List ℕ} (hJ : J <+: I) (x : ℕ → Frac) (u : Frac) :
    Solves x u 0 (J.map (equationOf m (variablesOf m.numStates I) const)) ↔
      ∀ s ∈ J, onStates I x s = m.expect s (onStates I x) + (const s).toFrac * u := by
  rw [solves_iff]
  have hnumber : ∀ i s, J[i]? = some s → onStates I x s = x i := by
    intro i s hi
    have hi' : I[i]? = some s := by
      obtain ⟨K, rfl⟩ := hJ
      rw [List.getElem?_append_left (List.getElem?_eq_some_iff.1 hi).1, hi]
    obtain ⟨hlt, rfl⟩ := List.getElem?_eq_some_iff.1 hi'
    rw [onStates, if_pos (List.getElem_mem hlt), hI.idxOf_getElem]
  constructor
  · intro h s hs
    obtain ⟨i, hi⟩ := List.getElem?_of_mem hs
    have := h i _ (by rw [List.getElem?_map, hi, Option.map_some])
    rw [(equationOf_spec hw hc hI hconst s).2, zero_add] at this
    rw [hnumber i s hi, this]
  · intro h i e he
    rw [List.getElem?_map, Option.map_eq_some_iff] at he
    obtain ⟨s, hi, rfl⟩ := he
    rw [(equationOf_spec hw hc hI hconst s).2, zero_add, ← h s (List.mem_of_getElem? hi),
      hnumber i s hi]

/-- The equations of some listed states, from the first one on, have a homogeneous solution other than
zero. -/
def IsSingular (m : Model RationalFunction) (I : List ℕ) : Prop :=
  ∃ J, J <+: I ∧ ∃ y : ℕ → Frac, y ≠ 0 ∧ (∀ s ∉ J, y s = 0) ∧ ∀ s ∈ J, y s = m.expect s y

theorem isForm_equationOf (hw : m.WellFormed) (hc : m.IsCanonical) (hI : I.Nodup)
    (hconst : ∀ s, (const s).IsCanonical) :
    ∀ e ∈ I.map (equationOf m (variablesOf m.numStates I) const),
      e.IsForm (I.map (equationOf m (variablesOf m.numStates I) const)).length 0 := by
  intro e he
  obtain ⟨s, -, rfl⟩ := List.mem_map.1 he
  rw [List.length_map]
  exact (equationOf_spec hw hc hI hconst s).1

theorem solveStates_eq_error_iff_solve? :
    solveStates m I const = .error .singularSystem ↔
      solve? (I.map (equationOf m (variablesOf m.numStates I) const)) = none := by
  unfold solveStates
  dsimp only
  split
  · rename_i hsome
    rw [hsome]
    exact iff_of_false nofun nofun
  · rename_i hnone
    exact iff_of_true rfl hnone

/-- Solving for the states of a list divides by zero exactly if a leading part of their equations is
singular. -/
theorem solveStates_eq_error_iff (hw : m.WellFormed) (hc : m.IsCanonical) (hI : I.Nodup)
    (hconst : ∀ s, (const s).IsCanonical) :
    solveStates m I const = .error .singularSystem ↔ IsSingular m I := by
  rw [solveStates_eq_error_iff_solve?, solve?_eq_none_iff (isForm_equationOf hw hc hI hconst),
    List.length_map]
  -- The first equations are those of the first states; only numbers and states have to be exchanged.
  constructor
  · rintro ⟨k, hk, x, hx, hlater, hsol⟩
    rw [← List.map_take, solves_equationOf hw hc hI hconst (List.take_prefix _ _)] at hsol
    obtain ⟨j, hj⟩ := Function.ne_iff.1 hx
    have hjI : j < I.length := (not_le.1 fun hle => hj (hlater j hle)).trans_le hk
    refine ⟨I.take k, List.take_prefix _ _, onStates I x, fun h0 => hj ?_, fun s hs => ?_, fun s hs => ?_⟩
    · have hvalue := congrFun h0 I[j]
      rwa [onStates, if_pos (List.getElem_mem hjI), hI.idxOf_getElem] at hvalue
    · rw [onStates]
      split
      · rename_i hmem
        refine hlater _ (not_lt.1 fun hlt => hs ?_)
        have hidx := List.idxOf_lt_length_of_mem hmem
        exact List.mem_take_iff_getElem.2 ⟨I.idxOf s, by omega, List.getElem_idxOf hidx⟩
      · rfl
    · have hs := hsol s hs
      rwa [mul_zero, add_zero] at hs
  · rintro ⟨J, hJ, y, hy, hout, hin⟩
    have hy' : onStates I (byNumber I y) = y := by
      rw [onStates_byNumber, Set.indicator_eq_self]
      exact fun s hs => hJ.subset (by_contra fun hnot => hs (hout s hnot))
    refine ⟨J.length, hJ.length_le, byNumber I y, fun h0 => hy ?_, fun j hj => ?_, ?_⟩
    · rw [← hy', h0]
      funext s
      exact ite_self _
    · rw [byNumber]
      rcases hs : I[j]? with _ | s
      · rfl
      · refine hout s fun hmem => ?_
        obtain ⟨i, hi, rfl⟩ := List.mem_iff_getElem.1 hmem
        obtain ⟨hjI, hsame⟩ := List.getElem?_eq_some_iff.1 hs
        have hij := (hI.getElem_inj_iff).1 (hsame.trans (hJ.getElem hi))
        omega
    · rw [← List.map_take, ← List.prefix_iff_eq_take.1 hJ, solves_equationOf hw hc hI hconst hJ, hy']
      intro s hs
      rw [mul_zero, add_zero]
      exact hin s hs

/-- The chain leaves the states of a list when there is a path out of it from each of them, so no part
of their equations is singular. -/
theorem not_isSingular_of_path (hs : m.IsStochastic w) (hv : m.ReadsAt w v)
    (hlt : ∀ s ∈ I, s < m.numStates) (hpath : ∀ s ∈ I, PathInto m (· ∉ I) (· ∈ I) s) :
    ¬ IsSingular m I := by
  classical
  rintro ⟨J, hJ, y, hy, hout, hin⟩
  refine hy (Model.eq_zero_of_expect hv hs (I := J.toFinset)
    (fun s hs => hlt s (hJ.subset (List.mem_toFinset.1 hs))) (fun s hs => ?_)
    (fun s hs => hin s (List.mem_toFinset.1 hs)) fun s hs => hout s (mt List.mem_toFinset.2 hs))
  rw [List.mem_toFinset] at hs
  exact (hpath s (hJ.subset hs)).exit fun t ht hmem => ht (hJ.subset (List.mem_toFinset.1 hmem))

/-- The states of a list can be solved for when a path leaves the list from each of them. -/
theorem solveStates_spec (hw : m.WellFormed) (hc : m.IsCanonical) (hs : m.IsStochastic w)
    (hv : m.ReadsAt w v) (hI : I.Nodup) (hlt : ∀ s ∈ I, s < m.numStates)
    (hpath : ∀ s ∈ I, PathInto m (· ∉ I) (· ∈ I) s) (hconst : ∀ s, (const s).IsCanonical) :
    ∃ X, solveStates m I const = .ok X ∧ X.size = I.length ∧ AllCanonical X ∧
      ∀ y, (∀ s ∈ I, y s = (const s).toFrac + m.expect s (Set.indicator {t | t ∈ I} y)) ↔
        ∀ s ∈ I, y s = vector X (I.idxOf s) := by
  classical
  obtain ⟨X, hX⟩ : ∃ X, solve? (I.map (equationOf m (variablesOf m.numStates I) const)) = some X := by
    refine Option.ne_none_iff_exists'.1 fun hnone => not_isSingular_of_path hs hv hlt hpath ?_
    rw [← solveStates_eq_error_iff hw hc hI hconst, solveStates, hnone]
  have hform := isForm_equationOf hw hc hI hconst
  obtain ⟨h1, h2, h3⟩ := solve?_some hform hX
  rw [List.length_map] at h1 h3
  refine ⟨X, by rw [solveStates, hX], h1, h2, fun y => ?_⟩
  have hin : ∀ s ∈ I, Set.indicator {t | t ∈ I} y s = y s := fun s hs =>
    Set.indicator_of_mem (s := {t | t ∈ I}) hs y
  have hiff := h3 (byNumber I y)
  rw [solves_equationOf hw hc hI hconst (List.prefix_refl I), onStates_byNumber] at hiff
  constructor
  · intro h s hs
    have := hiff.1 (fun s hs => by
      rw [hin s hs, mul_one, add_comm]
      exact h s hs) (I.idxOf s) (List.idxOf_lt_length_of_mem hs)
    rwa [byNumber_idxOf hs] at this
  · intro h s hs
    have := hiff.2 (fun i hi => by
      rw [byNumber, List.getElem?_eq_getElem hi, Option.map_some, Option.getD_some,
        h _ (List.getElem_mem hi), hI.idxOf_getElem]) s hs
    rwa [hin s hs, mul_one, add_comm] at this

/-- The same with the solution written into a vector over all states: it is the only one with the given
values at the other states. -/
theorem replace_solution_spec (hw : m.WellFormed) (hc : m.IsCanonical) (hs : m.IsStochastic w)
    (hv : m.ReadsAt w v) (hI : I.Nodup) (hlt : ∀ s ∈ I, s < m.numStates)
    (hpath : ∀ s ∈ I, PathInto m (· ∉ I) (· ∈ I) s) (hconst : ∀ s, (const s).IsCanonical)
    {f : ℕ → RationalFunction} (hf : ∀ s, (f s).IsCanonical) :
    ∃ X, solveStates m I const = .ok X ∧
      (replace (tabulate m.numStates f) I X).size = m.numStates ∧
      AllCanonical (replace (tabulate m.numStates f) I X) ∧
      ∀ y, ((∀ s < m.numStates, s ∉ I → y s = (f s).toFrac) ∧
          ∀ s ∈ I, y s = (const s).toFrac + m.expect s (Set.indicator {t | t ∈ I} y)) ↔
        ∀ s < m.numStates, y s = vector (replace (tabulate m.numStates f) I X) s := by
  obtain ⟨X, hX, hsize, hcan, hsol⟩ := solveStates_spec hw hc hs hv hI hlt hpath hconst
  obtain ⟨h1, h2, h3⟩ := replace_spec (tabulate m.numStates f) hI
    (fun s hs => (hlt s hs).trans_eq (tabulate_size _ _).symm) hsize
  refine ⟨X, hX, h1.trans (tabulate_size _ _),
    allCanonical_replace (allCanonical_tabulate hf) hcan I, fun y => ?_⟩
  rw [hsol]
  constructor
  · rintro ⟨hout, hin⟩ s hs
    by_cases hmem : s ∈ I
    · rw [hin s hmem, h2 s hmem]
    · rw [hout s hs hmem, h3 s hmem, vector_tabulate f hs]
  · intro h
    refine ⟨fun s hs hmem => ?_, fun s hmem => ?_⟩
    · rw [h s hs, h3 s hmem, vector_tabulate f hs]
    · rw [h s (hlt s hmem), h2 s hmem]

end Equations

end Reach
end MarkovCheck

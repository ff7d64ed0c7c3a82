import Mathlib
import MarkovCheck.Proofs.Chain.Evaluated
import MarkovCheck.Proofs.Reach.Reward

/-!
# MarkovCheck.Proofs.Reach.Evaluated

Checking a parametric chain and giving the parameters values commute.

The sets found in the graph are the same before and after the parameters get values. The equations of
the parametric chain have a solution that evaluates, and its values solve the equations at the
valuation; both systems have one solution only, so these are the computed vectors, whatever the
elimination cancelled on the way.

* `Specialises`    — the entries of a vector evaluate to the constants of another.
* `untilProb_evaluate`, `expectedReward_evaluate` — the operators that solve equations.
* `check_evaluate` — any property.
-/

namespace MarkovCheck
namespace Reach

open RationalFunction

/-- The entries of a vector evaluate without error, to the constants of another vector. -/
structure Specialises (v : Valuation) (n : ℕ) (X Y : Array RationalFunction) : Prop where
  size : X.size = n
  const_size : Y.size = n
  canonical : AllCanonical X
  const_canonical : AllCanonical Y
  value : ∀ s < n, ∃ q, HasValue v (vector X s) q ∧ vector Y s = ofQ q

variable {m : Model RationalFunction} {v : Valuation} {phi psi target : StateSet} {s : ℕ}
  {X Y : Array RationalFunction} {n : ℕ}

theorem Specialises.getElem? (h : Specialises v n X Y) (hs : s < n) :
    ∃ f q, X[s]? = some f ∧ f.evalAt v = .ok q ∧ Y[s]? = some (.const q) := by
  obtain ⟨q, hX, hY⟩ := h.value s hs
  have hs1 : s < X.size := hs.trans_eq h.size.symm
  have hs2 : s < Y.size := hs.trans_eq h.const_size.symm
  rw [vector, Array.getElem?_eq_getElem hs1, Option.getD_some] at hX
  rw [vector, Array.getElem?_eq_getElem hs2, Option.getD_some] at hY
  refine ⟨X[s], q, Array.getElem?_eq_getElem hs1,
    (evalAt_eq_ok_iff (h.canonical _ (Array.getElem_mem hs1))).2 hX, ?_⟩
  rw [Array.getElem?_eq_getElem hs2, toFrac_inj (h.const_canonical _ (Array.getElem_mem hs2))
    (denotes_const q).1 (hY.trans (denotes_const q).2.symm)]

theorem Specialises.complement (h : Specialises v n X Y) :
    Specialises v n (X.map (Value.sub Value.one)) (Y.map (Value.sub Value.one)) := by
  obtain ⟨h1, h2⟩ := Bisim.vector_map_sub_one h.canonical
  obtain ⟨h3, h4⟩ := Bisim.vector_map_sub_one h.const_canonical
  refine ⟨by rw [Array.size_map, h.size], by rw [Array.size_map, h.const_size], h1, h3,
    fun s hs => ?_⟩
  obtain ⟨q, hX, hY⟩ := h.value s hs
  refine ⟨1 - q, ?_, ?_⟩
  · rw [h2 s (hs.trans_eq h.size.symm)]
    exact (hasValue_one v).sub hX
  · rw [h4 s (hs.trans_eq h.const_size.symm), hY, map_sub, map_one]

theorem specialises_of_vector {y : ℕ → Frac} {z : ℕ → ℚ} (hX : X.size = n) (hY : Y.size = n)
    (hXc : AllCanonical X) (hYc : AllCanonical Y) (hyz : ∀ s, HasValue v (y s) (z s))
    (hXv : ∀ s < n, y s = vector X s) (hYv : ∀ s < n, ofQ (z s) = vector Y s) :
    Specialises v n X Y :=
  ⟨hX, hY, hXc, hYc, fun s hs => ⟨z s, hXv s hs ▸ hyz s, (hYv s hs).symm⟩⟩

section Operators

variable (h : m.IsEvaluable v) (hc : m.IsCanonical)
include h hc

/-! ## One step, and bounded until -/

theorem nextProb_evaluate (phi : StateSet) :
    Specialises v m.numStates (nextProb m phi) (nextProb (m.evaluate v) phi) := by
  obtain ⟨h1, h2, h3⟩ := nextProb_spec hc phi
  obtain ⟨h4, h5, h6⟩ := nextProb_spec (Model.isCanonical_evaluate v m) phi
  rw [Model.numStates_evaluate] at h4 h6
  refine ⟨h1, h4, h2, h5, fun s hs => ⟨_, h3 s hs ▸ h.hasValue_mass hc s _, ?_⟩⟩
  classical
  rw [h6 s hs, Model.mass]
  refine Model.expect_evaluate v m s fun e _ => ?_
  rw [Set.indicator_apply, Set.indicator_apply]
  split
  · exact (map_one ofQ).symm
  · exact (map_zero ofQ).symm

theorem boundedUntilProb_evaluate (hw : m.WellFormed) (phi psi : StateSet) (k : ℕ) :
    Specialises v m.numStates (boundedUntilProb m phi psi k)
      (boundedUntilProb (m.evaluate v) phi psi k) := by
  have hc' := Model.isCanonical_evaluate v m
  induction k with
  | zero =>
    obtain ⟨h1, h2, h3, -⟩ := boundedUntilProb_spec hc phi psi 0
    obtain ⟨h4, h5, h6, -⟩ := boundedUntilProb_spec hc' phi psi 0
    rw [Model.numStates_evaluate] at h4 h6
    refine ⟨h1, h4, h2, h5, fun s hs => ?_⟩
    rw [h3 s hs, h6 s hs]
    split
    · exact ⟨1, hasValue_one v, (map_one ofQ).symm⟩
    · exact ⟨0, hasValue_zero v, (map_zero ofQ).symm⟩
  | succ k ih =>
    obtain ⟨h1, h2, -⟩ := boundedUntilProb_spec hc phi psi (k + 1)
    obtain ⟨h4, h5, -⟩ := boundedUntilProb_spec hc' phi psi (k + 1)
    rw [Model.numStates_evaluate] at h4
    refine ⟨h1, h4, h2, h5, fun s hs => ?_⟩
    rw [(boundedUntilProb_spec hc phi psi k).2.2.2 s hs,
      (boundedUntilProb_spec hc' phi psi k).2.2.2 s (hs.trans_eq (Model.numStates_evaluate v m).symm)]
    choose! z hz using ih.value
    have hrow : ∀ e ∈ m.row s, e.1 < m.numStates := hw.targets_lt s
    unfold boundedValue
    split
    · exact ⟨1, hasValue_one v, (map_one ofQ).symm⟩
    · split
      · exact ⟨_, h.hasValue_expect hc fun e he => (hz e.1 (hrow e he)).1,
          Model.expect_evaluate v m s fun e he => (hz e.1 (hrow e he)).2⟩
      · exact ⟨0, hasValue_zero v, (map_zero ofQ).symm⟩

/-! ## Unbounded until -/

omit h hc in
@[simp] theorem noStates_evaluate (v : Valuation) (m : Model RationalFunction) (phi psi : StateSet) :
    noStates (m.evaluate v) phi psi = noStates m phi psi := by
  rw [noStates, noStates, Model.predecessors_evaluate]

omit h hc in
@[simp] theorem yesStates_evaluate (v : Valuation) (m : Model RationalFunction)
    (phi psi : StateSet) : yesStates (m.evaluate v) phi psi = yesStates m phi psi := by
  rw [yesStates, yesStates, Model.predecessors_evaluate, noStates_evaluate]

omit h hc in
@[simp] theorem maybeStates_evaluate (v : Valuation) (m : Model RationalFunction)
    (phi psi : StateSet) : maybeStates (m.evaluate v) phi psi = maybeStates m phi psi := by
  rw [maybeStates, maybeStates, Model.numStates_evaluate, noStates_evaluate, yesStates_evaluate]

omit h hc in
/-- A vector that is one or zero on the two sets, and solves the equations elsewhere. -/
theorem solvesUntil_of_outside {R : Type*} [Zero R] [One R] [NeZero (1 : R)] (hf : Fits m phi psi)
    {expectation : ℕ → (ℕ → R) → R} {y : ℕ → R}
    (hout : ∀ s ∉ (maybeStates m phi psi).toFinset,
      y s = if (yesStates m phi psi).contains s then 1 else 0)
    (hin : ∀ s ∈ maybeStates m phi psi, y s = expectation s y) :
    SolvesUntil m phi psi expectation y := by
  constructor
  case one =>
    intro s hs hyes
    rw [hout s fun hmem => ?_, if_pos hyes]
    rw [List.mem_toFinset, mem_maybeStates hs, hyes] at hmem
    cases hmem.2
  case zero =>
    intro s hs hno
    rw [hout s fun hmem => ?_, if_neg fun hyes => ?_]
    · rw [no_of_yes hf hs hyes] at hno
      cases hno
    · rw [List.mem_toFinset, mem_maybeStates hs, hno] at hmem
      cases hmem.1
  case maybe => exact hin

theorem untilProb_evaluate (hf : Fits m phi psi) :
    ∃ X Y, untilProb m phi psi = .ok X ∧ untilProb (m.evaluate v) phi psi = .ok Y ∧
      Specialises v m.numStates X Y := by
  have hw := hf.wellFormed
  have hchain := h.isConstantChain
  have hc' := Model.isCanonical_evaluate v m
  have hn := Model.numStates_evaluate v m
  have hf' : Fits (m.evaluate v) phi psi :=
    ⟨h.wellFormed hw, hf.phi_size.trans hn.symm, hf.psi_size.trans hn.symm⟩
  obtain ⟨X, hX, hsize, hcan, hsol⟩ := untilProb_spec hf hc h.isStochastic (h.readsAt hc)
  obtain ⟨Y, hY, hsize', hcan', hsol'⟩ :=
    untilProb_spec hf' hc' (hchain.isStochastic hc') (hchain.readsAt v)
  refine ⟨X, Y, hX, hY, ?_⟩
  have hindicator : ∀ s, HasValue v (if (yesStates m phi psi).contains s then (1 : Frac) else 0)
      (if (yesStates m phi psi).contains s then 1 else 0) := by
    intro s
    split
    · exact hasValue_one v
    · exact hasValue_zero v
  obtain ⟨y, z, hyz, hyout, hyin, hzout, hzin⟩ := Model.exists_defined_solution h hc
    (I := (maybeStates m phi psi).toFinset)
    (fun s hs => lt_of_mem_maybeStates (List.mem_toFinset.1 hs))
    (fun s hs => path_from_maybe hf (List.mem_toFinset.1 hs) fun t => List.mem_toFinset.1)
    hindicator (c := 0) (d := 0) fun _ _ => hasValue_zero v
  -- The solution and its values solve the two systems, so they are the two results.
  have hy : SolvesUntil m phi psi m.expect y := solvesUntil_of_outside hf hyout fun s hs => by
    rw [← zero_add (m.expect s y)]
    exact hyin s (List.mem_toFinset.2 hs)
  have hz : SolvesUntil (m.evaluate v) phi psi (m.evaluate v).expect fun s => ofQ (z s) := by
    refine solvesUntil_of_outside hf' (fun s hs => ?_) fun s hs => ?_
    · rw [maybeStates_evaluate] at hs
      rw [hzout s hs, yesStates_evaluate, apply_ite ofQ, map_one, map_zero]
    · rw [maybeStates_evaluate] at hs
      rw [Model.expect_evaluate v m s fun _ _ => rfl, hzin s (List.mem_toFinset.2 hs), Pi.zero_apply,
        zero_add]
  rw [hn] at hsize'
  have hYv := (hsol' _).1 hz
  rw [hn] at hYv
  exact specialises_of_vector hsize hsize' hcan hcan' hyz ((hsol y).1 hy) hYv

/-! ## Expected rewards -/

omit h hc in
theorem evalAt_zero (v : Valuation) : (Value.zero : RationalFunction).evalAt v = .ok 0 :=
  (evalAt_eq_ok_iff denotes_zero.1).2 (denotes_zero.2 ▸ hasValue_zero v)

omit hc in
theorem hasValue_reward {r : RewardModel RationalFunction} (hr : r ∈ m.rewards)
    (hrc : AllCanonical r.values) (s : ℕ) :
    HasValue v (r.value s).toFrac ((r.value s).evalOrZero v) := by
  obtain ⟨q, hq⟩ : ∃ q, (r.value s).evalAt v = .ok q := by
    rw [RewardModel.value]
    rcases hs : r.values[s]? with _ | f
    · exact ⟨0, evalAt_zero v⟩
    · exact h.reward r hr f (Array.mem_of_getElem? hs)
  rw [evalOrZero_eq hq]
  exact (evalAt_eq_ok_iff (hrc.getD s).1).1 hq

omit h hc in
theorem toFrac_value_evaluate (v : Valuation) (r : RewardModel RationalFunction) (s : ℕ) :
    ((r.evaluate v).value s).toFrac = ofQ ((r.value s).evalOrZero v) := by
  rw [RewardModel.value, RewardModel.value, RewardModel.evaluate, Array.getElem?_map]
  rcases r.values[s]? with _ | f
  · rw [Option.map_none, Option.getD_none, evalOrZero_eq (evalAt_zero v), map_zero]
    exact denotes_zero.2
  · exact toFrac_constAt v f

/-- Either all expected rewards are finite, or the same state is reported. -/
theorem expectedReward_evaluate (hw : m.WellFormed) (htarget : target.bits.size = m.numStates)
    {r : RewardModel RationalFunction} (hr : r ∈ m.rewards) :
    (∃ X Y, expectedReward m r target = .ok X ∧
        expectedReward (m.evaluate v) (r.evaluate v) target = .ok Y ∧ Specialises v m.numStates X Y) ∨
      ∃ s, expectedReward m r target = .error (.infiniteReward s) ∧
        expectedReward (m.evaluate v) (r.evaluate v) target = .error (.infiniteReward s) := by
  have hn := Model.numStates_evaluate v m
  have hsureStates : sureStates (m.evaluate v) target = sureStates m target := by
    rw [sureStates, hn, yesStates_evaluate]
  rcases sure_or_smallest m target with hsure | ⟨s, hs, hnot, hsmaller⟩
  · refine .inl ?_
    have hchain := h.isConstantChain
    have hc' := Model.isCanonical_evaluate v m
    have hrc : AllCanonical r.values := hc.reward r hr
    have hrc' : AllCanonical (r.evaluate v).values := hc'.reward _ (List.mem_map_of_mem hr)
    obtain ⟨X, hX, hsize, hcan, hsol⟩ :=
      expectedReward_spec hw hc h.isStochastic (h.readsAt hc) htarget hrc hsure
    obtain ⟨Y, hY, hsize', hcan', hsol'⟩ :=
      expectedReward_spec (h.wellFormed hw) hc' (hchain.isStochastic hc') (hchain.readsAt v)
        (htarget.trans hn.symm) hrc' fun s hs => by
          rw [hsureStates]
          exact hsure s (hs.trans_eq hn)
    refine ⟨X, Y, hX, hY, ?_⟩
    -- Both systems have one solution, so the one whose values are known is what is returned.
    let I := (Finset.range m.numStates).filter fun s => target.contains s = false
    have hI : ∀ s, s ∈ I ↔ s < m.numStates ∧ target.contains s = false := fun s => by simp [I]
    obtain ⟨y, z, hyz, hyout, hyin, hzout, hzin⟩ := Model.exists_defined_solution h hc (I := I)
      (fun s hs => ((hI s).1 hs).1)
      (fun s hs => by
        obtain ⟨hlt, -⟩ := (hI s).1 hs
        refine path_from_yes (fits_full hw htarget) hlt (hsure s hlt) fun t ht hmem => ?_
        rw [((hI t).1 hmem).2] at ht
        cases ht)
      (f := 0) (g := 0) (fun _ => hasValue_zero v) fun s _ => hasValue_reward h hr hrc s
    have hnotMem : ∀ s, target.contains s = true → s ∉ I := by
      intro s ht hmem
      rw [((hI s).1 hmem).2] at ht
      cases ht
    have hy : SolvesReward m r target y :=
      ⟨fun s _ ht => hyout s (hnotMem s ht), fun s hs ht => hyin s ((hI s).2 ⟨hs, ht⟩)⟩
    have hz : SolvesReward (m.evaluate v) (r.evaluate v) target fun s => ofQ (z s) := by
      refine ⟨fun s _ ht => ?_, fun s hs ht => ?_⟩
      · rw [hzout s (hnotMem s ht), Pi.zero_apply, map_zero]
      · rw [hn] at hs
        rw [Model.expect_evaluate v m s fun _ _ => rfl, toFrac_value_evaluate,
          hzin s ((hI s).2 ⟨hs, ht⟩), map_add]
    have hYv := (hsol' _).1 hz
    rw [hn] at hsize' hYv
    exact specialises_of_vector hsize hsize' hcan hcan' hyz ((hsol y).1 hy) hYv
  · refine .inr ⟨s, expectedReward_infinite hs hnot hsmaller,
      expectedReward_infinite (hs.trans_eq hn.symm) ?_ ?_⟩
    · rwa [hsureStates]
    · rwa [hsureStates]

end Operators

/-! ## Any property -/

/-- Two results agree at a valuation: the entries of one vector evaluate to those of the other, or both
are the same error, which is not a division by zero. -/
def Agrees (v : Valuation) (n : ℕ) (a b : Except CheckError (Array RationalFunction)) : Prop :=
  (∃ X Y, a = .ok X ∧ b = .ok Y ∧ Specialises v n X Y) ∨
    ∃ e, e ≠ .singularSystem ∧ a = .error e ∧ b = .error e

theorem size_of_statesOf (hw : m.WellFormed) {f : StateFormula} {S : StateSet}
    (h : statesOf m f = .ok S) : S.bits.size = m.numStates :=
  (hw.isSized.size_states? (Bisim.statesOf_eq_ok.1 h)).trans hw.labeling_size

/-- The sets of formulas, which only depend on the labels, are found in both chains or in none. -/
theorem statesOf_evaluate (hw : m.WellFormed) (v : Valuation) (f : StateFormula) :
    (∃ S, statesOf m f = .ok S ∧ statesOf (m.evaluate v) f = .ok S ∧ S.bits.size = m.numStates) ∨
      ∃ e, statesOf m f = .error (.model e) ∧ statesOf (m.evaluate v) f = .error (.model e) := by
  have hsame : statesOf (m.evaluate v) f = statesOf m f := rfl
  rw [hsame]
  rcases Bisim.statesOf_cases m f with ⟨S, hS⟩ | ⟨e, he⟩
  · exact .inl ⟨S, hS, hS, size_of_statesOf hw hS⟩
  · exact .inr ⟨e, he, he⟩

theorem statesOfBoth_evaluate (hw : m.WellFormed) (v : Valuation) (f g : StateFormula) :
    (∃ S T, statesOfBoth m f g = .ok (S, T) ∧ statesOfBoth (m.evaluate v) f g = .ok (S, T) ∧
        S.bits.size = m.numStates ∧ T.bits.size = m.numStates) ∨
      ∃ e, statesOfBoth m f g = .error (.model e) ∧
        statesOfBoth (m.evaluate v) f g = .error (.model e) := by
  rcases statesOf_evaluate hw v f with ⟨S, hS, hS', hsize⟩ | ⟨e, he, he'⟩
  · rcases statesOf_evaluate hw v g with ⟨T, hT, hT', hsize'⟩ | ⟨e, he, he'⟩
    · exact .inl ⟨S, T, by simp only [statesOfBoth, hS, hT], by simp only [statesOfBoth, hS', hT'],
        hsize, hsize'⟩
    · exact .inr ⟨e, by simp only [statesOfBoth, hS, he], by simp only [statesOfBoth, hS', he']⟩
  · exact .inr ⟨e, by simp only [statesOfBoth, he], by simp only [statesOfBoth, he']⟩

theorem selectReward_evaluate (v : Valuation) (m : Model RationalFunction) (name : Option String) :
    (∃ r ∈ m.rewards, selectReward m name = .ok r ∧
        selectReward (m.evaluate v) name = .ok (r.evaluate v)) ∨
      ∃ e, e ≠ .singularSystem ∧ selectReward m name = .error e ∧
        selectReward (m.evaluate v) name = .error e := by
  have hrewards : (m.evaluate v).rewards = m.rewards.map (·.evaluate v) := rfl
  cases name with
  | none =>
    simp only [selectReward, hrewards]
    rcases m.rewards with _ | ⟨r, _ | ⟨r', rs⟩⟩
    · exact .inr ⟨.ambiguousRewardModel 0, by simp, rfl, rfl⟩
    · exact .inl ⟨r, List.mem_cons_self, rfl, rfl⟩
    · exact .inr ⟨.ambiguousRewardModel (rs.length + 2), by simp, rfl, by simp⟩
  | some name =>
    have hfind : (m.evaluate v).rewardModel? name = (m.rewardModel? name).map (·.evaluate v) :=
      List.find?_map
    simp only [selectReward, hfind]
    rcases hr : m.rewardModel? name with _ | r
    · exact .inr ⟨.model (.unknownRewardModel name), by simp, rfl, rfl⟩
    · exact .inl ⟨r, List.mem_of_find?_eq_some hr, rfl, rfl⟩

theorem agrees_check (hw : m.WellFormed) (hc : m.IsCanonical) (h : m.IsEvaluable v)
    (phi : Property) : Agrees v m.numStates (check m phi) (check (m.evaluate v) phi) := by
  have hfull : (StateSet.full m.numStates).bits.size = m.numStates := by simp [StateSet.full]
  have huntil : ∀ S T : StateSet, S.bits.size = m.numStates → T.bits.size = m.numStates →
      Agrees v m.numStates (untilProb m S T) (untilProb (m.evaluate v) S T) :=
    fun S T hS hT => .inl (untilProb_evaluate h hc ⟨hw, hS, hT⟩)
  cases phi with
  | probability path =>
    cases path with
    | next f =>
      rcases statesOf_evaluate hw v f with ⟨S, hS, hS', -⟩ | ⟨e, he, he'⟩
      · exact .inl ⟨_, _, by simp only [check, checkPath, hS], by simp only [check, checkPath, hS'],
          nextProb_evaluate h hc S⟩
      · exact .inr ⟨.model e, by simp, by simp only [check, checkPath, he],
          by simp only [check, checkPath, he']⟩
    | «until» f g =>
      rcases statesOfBoth_evaluate hw v f g with ⟨S, T, hS, hS', hsize, hsize'⟩ | ⟨e, he, he'⟩
      · simp only [check, checkPath, hS, hS']
        exact huntil S T hsize hsize'
      · exact .inr ⟨.model e, by simp, by simp only [check, checkPath, he],
          by simp only [check, checkPath, he']⟩
    | boundedUntil f g k =>
      rcases statesOfBoth_evaluate hw v f g with ⟨S, T, hS, hS', -, -⟩ | ⟨e, he, he'⟩
      · exact .inl ⟨_, _, by simp only [check, checkPath, hS], by simp only [check, checkPath, hS'],
          boundedUntilProb_evaluate h hc hw S T k⟩
      · exact .inr ⟨.model e, by simp, by simp only [check, checkPath, he],
          by simp only [check, checkPath, he']⟩
    | eventually f =>
      rcases statesOf_evaluate hw v f with ⟨S, hS, hS', hsize⟩ | ⟨e, he, he'⟩
      · simp only [check, checkPath, hS, hS', Model.numStates_evaluate]
        exact huntil _ S hfull hsize
      · exact .inr ⟨.model e, by simp, by simp only [check, checkPath, he],
          by simp only [check, checkPath, he']⟩
    | globally f =>
      rcases statesOf_evaluate hw v f with ⟨S, hS, hS', hsize⟩ | ⟨e, he, he'⟩
      · simp only [check, checkPath, hS, hS', Model.numStates_evaluate]
        have hfits : Fits m (.full m.numStates) S.compl :=
          ⟨hw, hfull, (StateSet.size_compl S).trans hsize⟩
        obtain ⟨X, Y, hX, hY, hXY⟩ := untilProb_evaluate h hc hfits
        exact .inl ⟨_, _, by simp only [hX], by simp only [hY], hXY.complement⟩
      · exact .inr ⟨.model e, by simp, by simp only [check, checkPath, he],
          by simp only [check, checkPath, he']⟩
  | reward name f =>
    rcases selectReward_evaluate v m name with ⟨r, hmem, hr, hr'⟩ | ⟨e, hne, he, he'⟩
    · rcases statesOf_evaluate hw v f with ⟨S, hS, hS', hsize⟩ | ⟨e, he, he'⟩
      · simp only [check, hr, hr', hS, hS']
        rcases expectedReward_evaluate h hc hw hsize hmem with hok | ⟨s, hs, hs'⟩
        · exact .inl hok
        · exact .inr ⟨.infiniteReward s, by simp, hs, hs'⟩
      · exact .inr ⟨.model e, by simp, by simp only [check, hr, he], by simp only [check, hr', he']⟩
    · exact .inr ⟨e, hne, by simp only [check, he], by simp only [check, he']⟩

/-- When the values of a chain evaluate, and its rows to distributions, checking any property does not
divide by zero. It has a result exactly if it has one on the chain at the valuation, and then the
result of every state evaluates without error to the result of that state there. -/
theorem check_evaluate (hw : m.WellFormed) (hc : m.IsCanonical) (h : m.IsEvaluable v)
    (phi : Property) :
    check m phi ≠ .error .singularSystem ∧
      ((∃ X, check m phi = .ok X) ↔ ∃ Y, check (m.evaluate v) phi = .ok Y) ∧
      ∀ X Y, check m phi = .ok X → check (m.evaluate v) phi = .ok Y →
        X.size = m.numStates ∧ Y.size = m.numStates ∧ ∀ s < m.numStates,
          ∃ f q, X[s]? = some f ∧ f.evalAt v = .ok q ∧ Y[s]? = some (.const q) := by
  rcases agrees_check hw hc h phi with ⟨X, Y, hX, hY, hXY⟩ | ⟨e, hne, he, he'⟩
  · rw [hX, hY]
    refine ⟨nofun, ⟨fun _ => ⟨Y, rfl⟩, fun _ => ⟨X, rfl⟩⟩, fun X' Y' hX' hY' => ?_⟩
    cases hX'
    cases hY'
    exact ⟨hXY.size, hXY.const_size, fun s hs => hXY.getElem? hs⟩
  · rw [he, he']
    refine ⟨fun heq => hne (Except.error.inj heq), ⟨nofun, nofun⟩, nofun⟩

/-- The probability of heads, and the missing rewards, on a coin with a parameter at one third. -/
theorem biasedCoin_check_evaluate :
    (∃ X Y, check biasedCoin (.probability (.eventually (.label "heads"))) = .ok X ∧
      check (biasedCoin.evaluate oneThird) (.probability (.eventually (.label "heads"))) = .ok Y ∧
      ∀ s < 3, ∃ f q, X[s]? = some f ∧ f.evalAt oneThird = .ok q ∧ Y[s]? = some (.const q)) ∧
    ¬ ∃ Y, check (biasedCoin.evaluate oneThird) (.reward none (.label "heads")) = .ok Y := by
  have hall := check_evaluate biasedCoin_wellFormed biasedCoin_isCanonical biasedCoin_isEvaluable
  constructor
  · have hfits : Fits biasedCoin (.full 3) ⟨#[false, true, false]⟩ :=
      ⟨biasedCoin_wellFormed, rfl, rfl⟩
    obtain ⟨X, -, hX, -⟩ := untilProb_evaluate biasedCoin_isEvaluable biasedCoin_isCanonical hfits
    have hX : check biasedCoin (.probability (.eventually (.label "heads"))) = .ok X := hX
    obtain ⟨-, hok, hvalues⟩ := hall (.probability (.eventually (.label "heads")))
    obtain ⟨Y, hY⟩ := hok.1 ⟨X, hX⟩
    exact ⟨X, Y, hX, hY, (hvalues X Y hX hY).2.2⟩
  · have hinf : check biasedCoin (.reward none (.label "heads")) = .error (.infiniteReward 0) :=
      expectedReward_infinite (s := 0) (by decide) (by decide +kernel) nofun
    rw [← (hall (.reward none (.label "heads"))).2.1, hinf]
    exact nofun

end Reach
end MarkovCheck

import Mathlib
import MarkovCheck.Proofs.Reach.Until

/-!
# MarkovCheck.Proofs.Reach.Reward

One step, bounded until and expected rewards.

The expected reward is finite exactly if every state reaches the target with probability one. The
equations of the states outside the target then have one solution; otherwise the smallest state
that may miss the target is reported.

* `nextProb_spec`, `boundedUntilProb_spec` — sums over the successors.
* `expectedReward_spec`, `expectedReward_infinite` — the solution, and the error.
-/

namespace MarkovCheck
namespace Reach

variable {m : Model RationalFunction} {w : RationalFunction → ℚ} {v : Valuation}
  {phi psi target : StateSet} {s : ℕ}

/-! ## Sums over the successors -/

theorem nextProb_spec (hc : m.IsCanonical) (phi : StateSet) :
    (nextProb m phi).size = m.numStates ∧ AllCanonical (nextProb m phi) ∧
      ∀ s < m.numStates, vector (nextProb m phi) s = m.mass s {t | phi.contains t = true} := by
  refine ⟨tabulate_size _ _, allCanonical_tabulate fun s => (stepInto_denotes hc phi s).1,
    fun s hs => ?_⟩
  rw [nextProb, vector_tabulate _ hs]
  exact (stepInto_denotes hc phi s).2

/-- What one step of bounded until makes of a vector. -/
noncomputable def boundedValue (m : Model RationalFunction) (phi psi : StateSet) (y : ℕ → Frac)
    (s : ℕ) : Frac :=
  if psi.contains s then 1 else if phi.contains s then m.expect s y else 0

theorem boundedStep_denotes (hc : m.IsCanonical) {values : Array RationalFunction}
    (hv : AllCanonical values) (s : ℕ) :
    (boundedStep m phi psi values s).Denotes (boundedValue m phi psi (vector values) s) := by
  unfold boundedStep boundedValue
  split
  · exact RationalFunction.denotes_one
  · by_cases hphi : phi.contains s = true
    · rw [if_neg (by simp [hphi]), if_pos hphi]
      have hterm : ∀ e ∈ m.row s, (Value.mul e.2 (values[e.1]?.getD Value.zero)).Denotes
          (e.2.toFrac * vector values e.1) := fun e he =>
        RationalFunction.mul_spec (hc.row s e he).denotes (hv.getD e.1)
      have hsum := Value.sumCanonical_denotes
        (l := (m.row s).map fun e => Value.mul e.2 (values[e.1]?.getD Value.zero)) fun f hf => by
          obtain ⟨e, he, rfl⟩ := List.mem_map.1 hf
          exact (hterm e he).1
      have hvalue : m.expect s (vector values) = (((m.row s).map fun e =>
          Value.mul e.2 (values[e.1]?.getD Value.zero)).map RationalFunction.toFrac).sum := by
        rw [Model.expect, List.map_map]
        exact congrArg _ (List.map_congr_left fun e he => (hterm e he).2.symm)
      rw [hvalue]
      exact hsum
    · rw [if_pos (by simp [hphi]), if_neg hphi]
      exact RationalFunction.denotes_zero

/-- With every further step the values are those of one step from the values before. -/
theorem boundedUntilProb_spec (hc : m.IsCanonical) (phi psi : StateSet) (k : ℕ) :
    (boundedUntilProb m phi psi k).size = m.numStates ∧
      AllCanonical (boundedUntilProb m phi psi k) ∧
      (∀ s < m.numStates, vector (boundedUntilProb m phi psi 0) s =
        if psi.contains s then 1 else 0) ∧
      ∀ s < m.numStates, vector (boundedUntilProb m phi psi (k + 1)) s =
        boundedValue m phi psi (vector (boundedUntilProb m phi psi k)) s := by
  have hcan : AllCanonical (boundedUntilProb m phi psi k) := by
    induction k with
    | zero => exact allCanonical_tabulate fun s => (indicator_denotes psi s).1
    | succ k ih => exact allCanonical_tabulate fun s => (boundedStep_denotes hc ih s).1
  refine ⟨?_, hcan, fun s hs => ?_, fun s hs => ?_⟩
  · cases k with
    | zero => exact tabulate_size _ _
    | succ k => exact tabulate_size _ _
  · rw [boundedUntilProb_zero, vector_tabulate _ hs]
    exact (indicator_denotes psi s).2
  · rw [boundedUntilProb_succ, vector_tabulate _ hs]
    exact (boundedStep_denotes hc hcan s).2

/-! ## Expected rewards -/

/-- Zero on the target, and the reward plus the expectation at all other states. -/
structure SolvesReward (m : Model RationalFunction) (rewards : RewardModel RationalFunction)
    (target : StateSet) (y : ℕ → Frac) : Prop where
  zero : ∀ s < m.numStates, target.contains s = true → y s = 0
  step : ∀ s < m.numStates, target.contains s = false →
    y s = (rewards.value s).toFrac + m.expect s y

variable {rewards : RewardModel RationalFunction}

/-- The states that reach the target with probability one. -/
abbrev sureStates (m : Model RationalFunction) (target : StateSet) : StateSet :=
  yesStates m (.full m.numStates) target

theorem fits_full (hw : m.WellFormed) (htarget : target.bits.size = m.numStates) :
    Fits m (.full m.numStates) target :=
  ⟨hw, by simp [StateSet.full], htarget⟩

/-- Where every state reaches the target with probability one, the computed vector is the one that
solves the equations. -/
theorem expectedReward_spec (hw : m.WellFormed) (hc : m.IsCanonical) (hs : m.IsStochastic w)
    (hv : m.ReadsAt w v) (htarget : target.bits.size = m.numStates)
    (hrewards : AllCanonical rewards.values)
    (hsure : ∀ s < m.numStates, (sureStates m target).contains s = true) :
    ∃ R, expectedReward m rewards target = .ok R ∧ R.size = m.numStates ∧ AllCanonical R ∧
      ∀ y, SolvesReward m rewards target y ↔ ∀ s < m.numStates, y s = vector R s := by
  let I := (List.range m.numStates).filter fun s =>
    (sureStates m target).contains s && !target.contains s
  have hI : ∀ s, s ∈ I ↔ s < m.numStates ∧ target.contains s = false := by
    intro s
    rw [List.mem_filter, List.mem_range, Bool.and_eq_true, Bool.not_eq_true']
    exact ⟨fun h => ⟨h.1, h.2.2⟩, fun h => ⟨h.1, hsure s h.1, h.2⟩⟩
  obtain ⟨X, hX, hsize, hcan, hsol⟩ := replace_solution_spec (I := I)
    (f := fun s => if (sureStates m target).contains s then Value.zero else Value.zero) hw hc hs hv
    (List.nodup_range.filter _) (fun s hs => ((hI s).1 hs).1)
    (fun s hs => by
      obtain ⟨hlt, -⟩ := (hI s).1 hs
      refine path_from_yes (fits_full hw htarget) hlt (hsure s hlt) fun t ht hmem => ?_
      rw [((hI t).1 hmem).2] at ht
      cases ht)
    (show ∀ s, (rewards.value s).IsCanonical from fun s => (hrewards.getD s).1)
    (fun s => by
      rw [ite_self]
      exact RationalFunction.denotes_zero.1)
  have hnone : (List.range m.numStates).find? (fun s => !(sureStates m target).contains s) = none :=
    List.find?_eq_none.2 fun s hs => by simp [hsure s (List.mem_range.1 hs)]
  refine ⟨_, ?_, hsize, hcan, fun y => ?_⟩
  · unfold expectedReward
    dsimp only
    split
    · unfold finiteRewards
      dsimp only
      split
      · rename_i e he
        cases hX.symm.trans he
      · rename_i solution he
        cases hX.symm.trans he
        rfl
    · rename_i s hsome
      cases hnone.symm.trans hsome
  · rw [← hsol y]
    have hzero : (Value.zero : RationalFunction).toFrac = 0 := RationalFunction.denotes_zero.2
    simp only [ite_self, hzero]
    -- The system leaves out the states of the target, in which the solution is zero.
    have hexpect : (∀ s < m.numStates, target.contains s = true → y s = 0) → ∀ s,
        m.expect s (Set.indicator {t | t ∈ I} y) = m.expect s y := by
      intro hy s
      refine Model.expect_congr fun e he => ?_
      have hlt := hw.targets_lt s e he
      by_cases hmem : e.1 ∈ I
      · exact Set.indicator_of_mem (s := {t | t ∈ I}) hmem y
      · refine (Set.indicator_of_notMem (s := {t | t ∈ I}) hmem y).trans (hy e.1 hlt ?_).symm
        exact by_contra fun hnot => hmem ((hI e.1).2 ⟨hlt, Bool.not_eq_true _ ▸ hnot⟩)
    constructor
    · rintro ⟨hzero, hstep⟩
      refine ⟨fun s hs hmem => hzero s hs (by_contra fun hnot => ?_), fun s hs => ?_⟩
      · exact hmem ((hI s).2 ⟨hs, Bool.not_eq_true _ ▸ hnot⟩)
      · rw [hexpect hzero]
        exact hstep s ((hI s).1 hs).1 ((hI s).1 hs).2
    · rintro ⟨hout, hin⟩
      have hzero : ∀ s < m.numStates, target.contains s = true → y s = 0 := by
        intro s hs ht
        refine hout s hs fun hmem => ?_
        rw [((hI s).1 hmem).2] at ht
        cases ht
      refine ⟨hzero, fun s hs ht => ?_⟩
      rw [← hexpect hzero]
      exact hin s ((hI s).2 ⟨hs, ht⟩)

/-- The smallest state that does not reach the target with probability one is reported. -/
theorem expectedReward_infinite (hs : s < m.numStates)
    (hnot : (sureStates m target).contains s = false)
    (hsmaller : ∀ t < s, (sureStates m target).contains t = true) :
    expectedReward m rewards target = .error (.infiniteReward s) := by
  have hfind : (List.range m.numStates).find? (fun s => !(sureStates m target).contains s) =
      some s := by
    rw [List.find?_range_eq_some]
    refine ⟨by rw [hnot]; rfl, List.mem_range.2 hs, fun t ht => by rw [hsmaller t ht]; rfl⟩
  unfold expectedReward
  dsimp only
  split
  · rename_i hnone
    cases hnone.symm.trans hfind
  · rename_i t hsome
    cases hsome.symm.trans hfind
    rfl

/-- Either every state reaches the target with probability one, or a smallest one does not. -/
theorem sure_or_smallest (m : Model RationalFunction) (target : StateSet) :
    (∀ s < m.numStates, (sureStates m target).contains s = true) ∨
      ∃ s < m.numStates, (sureStates m target).contains s = false ∧
        ∀ t < s, (sureStates m target).contains t = true := by
  rcases hfind : (List.range m.numStates).find?
    (fun s => !(sureStates m target).contains s) with _ | s
  · refine .inl fun s hs => ?_
    have := List.find?_eq_none.1 hfind s (List.mem_range.2 hs)
    simpa using this
  · rw [List.find?_range_eq_some] at hfind
    refine .inr ⟨s, List.mem_range.1 hfind.2.1, by simpa using hfind.1, fun t ht => ?_⟩
    simpa using hfind.2.2 t ht

end Reach
end MarkovCheck

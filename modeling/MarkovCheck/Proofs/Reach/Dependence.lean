import Mathlib
import MarkovCheck.Reach.Check
import MarkovCheck.Proofs.Logic.Formula

/-!
# MarkovCheck.Proofs.Reach.Dependence

What the values of a property depend on.

Of a labeling a formula reads the states of the labels that occur in it, and of a model the operators
read the rows. Models that agree on these and on the reward model that a property asks for give it the
same values, or the same error.

* `statesOf_congr`       — the states of a formula.
* `Agree`, `check_congr` — the values of a property.
-/

namespace MarkovCheck

namespace Reach

variable {V : Type} [Value V] {m m' : Model V}

/-! ## The operators -/

section Operators

variable (h : m.rows = m'.rows)
include h

omit [Value V] in
theorem numStates_congr : m.numStates = m'.numStates := congrArg Array.size h

theorem nextProb_congr : nextProb m = nextProb m' := by
  obtain ⟨_, rows, _⟩ := m
  obtain rfl : rows = m'.rows := h
  rfl

theorem untilProb_congr : untilProb m = untilProb m' := by
  obtain ⟨_, rows, _⟩ := m
  obtain rfl : rows = m'.rows := h
  rfl

theorem boundedUntilProb_congr : boundedUntilProb m = boundedUntilProb m' := by
  obtain ⟨_, rows, _⟩ := m
  obtain rfl : rows = m'.rows := h
  rfl

theorem expectedReward_congr : expectedReward m = expectedReward m' := by
  obtain ⟨_, rows, _⟩ := m
  obtain rfl : rows = m'.rows := h
  rfl

end Operators

/-! ## Properties -/

omit [Value V] in
theorem selectReward_congr (h : m.rewards = m'.rewards) (name : Option String) :
    selectReward m name = selectReward m' name := by
  cases name with
  | none => simp only [selectReward, h]
  | some name => simp only [selectReward, Model.rewardModel?, h]

/-- Both models have the same transitions, and what else a property reads. -/
structure Agree (m m' : Model V) (phi : Property) : Prop where
  rows : m.rows = m'.rows
  labeling_size : m.labeling.numStates = m'.labeling.numStates
  states? : ∀ name ∈ phi.labels, m.labeling.states? name = m'.labeling.states? name
  selectReward : ∀ name target, phi = .reward name target →
    Reach.selectReward m name = Reach.selectReward m' name

omit [Value V] in
theorem statesOf_congr (hsize : m.labeling.numStates = m'.labeling.numStates) {f : StateFormula}
    (h : ∀ name ∈ f.labels, m.labeling.states? name = m'.labeling.states? name) :
    statesOf m f = statesOf m' f := by
  rw [statesOf, StateFormula.states?_congr hsize h, statesOf]

omit [Value V] in
theorem statesOfBoth_congr (hsize : m.labeling.numStates = m'.labeling.numStates) {f g : StateFormula}
    (h : ∀ name ∈ f.labels ++ g.labels, m.labeling.states? name = m'.labeling.states? name) :
    statesOfBoth m f g = statesOfBoth m' f g := by
  rw [List.forall_mem_append] at h
  rw [statesOfBoth, statesOf_congr hsize h.1, statesOf_congr hsize h.2, statesOfBoth]

/-- Models that agree on what a property reads give it the same values, or the same error. -/
theorem check_congr {phi : Property} (h : Agree m m' phi) : check m phi = check m' phi := by
  obtain ⟨hrows, hsize, hlabels, hreward⟩ := h
  have hn := numStates_congr hrows
  cases phi with
  | probability path =>
    change checkPath m path = checkPath m' path
    cases path with
    | next f =>
      have hf : statesOf m f = statesOf m' f := statesOf_congr hsize hlabels
      simp only [checkPath, hf, nextProb_congr hrows]
    | «until» f g =>
      have hfg : statesOfBoth m f g = statesOfBoth m' f g := statesOfBoth_congr hsize hlabels
      simp only [checkPath, hfg, untilProb_congr hrows]
    | boundedUntil f g k =>
      have hfg : statesOfBoth m f g = statesOfBoth m' f g := statesOfBoth_congr hsize hlabels
      simp only [checkPath, hfg, boundedUntilProb_congr hrows]
    | eventually f | globally f =>
      have hf : statesOf m f = statesOf m' f := statesOf_congr hsize hlabels
      simp only [checkPath, hf, untilProb_congr hrows, hn]
  | reward name target =>
    have hf : statesOf m target = statesOf m' target := statesOf_congr hsize hlabels
    simp only [check, hreward name target rfl, hf, expectedReward_congr hrows]

end Reach
end MarkovCheck

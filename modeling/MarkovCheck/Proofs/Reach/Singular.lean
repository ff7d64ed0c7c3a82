import Mathlib
import MarkovCheck.Proofs.Reach.Evaluated

/-!
# MarkovCheck.Proofs.Reach.Singular

When checking a property divides by zero.

Only the operators that solve equations divide, for the states that the graph does not decide. The
elimination takes their equations in order and without looking for pivots, so it fails as soon as the
first few of them are singular, even if all together have a solution. That cannot happen if the values of
all transitions are positive somewhere, as the chain then leaves every part of these states.

* `SolvesFor`            — the states whose equations a property needs.
* `check_singular_iff`   — a division by zero is a leading part of these equations that is singular.
* `isSingular_of_returns` — a first state that is never left.
* `SolvesFor.not_isSingular` — there is none in models with distributions at a valuation.
-/

namespace MarkovCheck
namespace Reach

open RationalFunction

/-- The states outside the target whose expected rewards are finite. -/
def finiteStates (m : Model RationalFunction) (T : StateSet) : List ℕ :=
  (List.range m.numStates).filter fun s => (sureStates m T).contains s && !T.contains s

/-- The states whose values a property finds by solving equations. -/
inductive SolvesFor (m : Model RationalFunction) : Property → List ℕ → Prop where
  | until {f g : StateFormula} {S T : StateSet} (hS : statesOf m f = .ok S) (hT : statesOf m g = .ok T) :
    SolvesFor m (.probability (.until f g)) (maybeStates m S T)
  | eventually {f : StateFormula} {T : StateSet} (hT : statesOf m f = .ok T) :
    SolvesFor m (.probability (.eventually f)) (maybeStates m (.full m.numStates) T)
  | globally {f : StateFormula} {T : StateSet} (hT : statesOf m f = .ok T) :
    SolvesFor m (.probability (.globally f)) (maybeStates m (.full m.numStates) T.compl)
  | reward {name : Option String} {f : StateFormula} {r : RewardModel RationalFunction} {T : StateSet}
    (hr : selectReward m name = .ok r) (hT : statesOf m f = .ok T)
    (hsure : ∀ s < m.numStates, (sureStates m T).contains s = true) :
    SolvesFor m (.reward name f) (finiteStates m T)

variable {m : Model RationalFunction} {v : Valuation} {f g : StateFormula} {S T : StateSet}

/-! ## Operators -/

theorem untilProb_singular_iff (h : Fits m S T) (hc : m.IsCanonical) :
    untilProb m S T = .error .singularSystem ↔ IsSingular m (maybeStates m S T) := by
  rw [← solveStates_eq_error_iff h.wellFormed hc (nodup_maybeStates m S T)
    fun s => (stepInto_denotes hc (yesStates m S T) s).1]
  unfold untilProb
  dsimp only
  split
  · rename_i e he
    rw [Except.error.injEq]
    exact ⟨fun heq => heq ▸ he, fun heq => Except.error.inj (he.symm.trans heq)⟩
  · rename_i X hX
    exact iff_of_false nofun fun heq => nomatch hX.symm.trans heq

theorem expectedReward_singular_iff (hw : m.WellFormed) (hc : m.IsCanonical)
    {r : RewardModel RationalFunction} (hr : r ∈ m.rewards) :
    expectedReward m r T = .error .singularSystem ↔
      (∀ s < m.numStates, (sureStates m T).contains s = true) ∧ IsSingular m (finiteStates m T) := by
  rcases sure_or_smallest m T with hsure | ⟨s, hs, hnot, hsmaller⟩
  · have hrewards : AllCanonical r.values := hc.reward r hr
    have hnone : (List.range m.numStates).find? (fun s => !(sureStates m T).contains s) = none :=
      List.find?_eq_none.2 fun s hs => by simp [hsure s (List.mem_range.1 hs)]
    have hnodup : (finiteStates m T).Nodup := List.nodup_range.filter _
    rw [and_iff_right hsure, ← solveStates_eq_error_iff hw hc hnodup
      (show ∀ s, (r.value s).IsCanonical from fun s => (hrewards.getD s).1)]
    have hfinite : expectedReward m r T = finiteRewards m r T (sureStates m T) Value.zero := by
      unfold expectedReward
      dsimp only
      split
      · rfl
      · rename_i hsome
        cases hnone.symm.trans hsome
    rw [hfinite]
    unfold finiteRewards
    dsimp only
    split
    · rename_i e he
      rw [Except.error.injEq]
      exact ⟨fun heq => heq ▸ he, fun heq => Except.error.inj (he.symm.trans heq)⟩
    · rename_i X hX
      exact iff_of_false nofun fun heq => nomatch hX.symm.trans heq
  · rw [expectedReward_infinite hs hnot hsmaller]
    exact iff_of_false nofun fun h => Bool.false_ne_true (hnot.symm.trans (h.1 s hs))

/-! ## Properties -/

theorem statesOf_ne_singular (m : Model RationalFunction) (f : StateFormula) :
    statesOf m f ≠ .error .singularSystem := by
  rcases Bisim.statesOf_cases m f with ⟨S, hS⟩ | ⟨e, he⟩
  · rw [hS]
    exact nofun
  · rw [he]
    exact nofun

theorem statesOfBoth_ne_singular (m : Model RationalFunction) (f g : StateFormula) :
    statesOfBoth m f g ≠ .error .singularSystem := by
  intro h
  unfold statesOfBoth at h
  split at h
  · rename_i he
    cases h
    exact statesOf_ne_singular m f he
  · split at h
    · rename_i he
      cases h
      exact statesOf_ne_singular m g he
    · cases h

theorem selectReward_ne_singular (m : Model RationalFunction) (name : Option String) :
    selectReward m name ≠ .error .singularSystem := by
  rcases selectReward_evaluate (fun _ => none) m name with ⟨r, -, hr, -⟩ | ⟨e, hne, he, -⟩
  · rw [hr]
    exact nofun
  · rw [he]
    exact fun h => hne (Except.error.inj h)

theorem selectReward_mem {name : Option String} {r : RewardModel RationalFunction}
    (h : selectReward m name = .ok r) : r ∈ m.rewards := by
  rcases selectReward_evaluate (fun _ => none) m name with ⟨r', hr', hok, -⟩ | ⟨e, -, he, -⟩
  · cases hok.symm.trans h
    exact hr'
  · cases he.symm.trans h

/-- Solving the equations of a property is all that can divide by zero. -/
theorem SolvesFor.singular_iff {phi : Property} {I : List ℕ} (hI : SolvesFor m phi I)
    (hw : m.WellFormed) (hc : m.IsCanonical) :
    check m phi = .error .singularSystem ↔ IsSingular m I := by
  cases hI with
  | «until» hS hT =>
    have hfits := Fits.mk hw (size_of_statesOf hw hS) (size_of_statesOf hw hT)
    simp only [check, checkPath, statesOfBoth, hS, hT, untilProb_singular_iff hfits hc]
  | eventually hT =>
    have hfits := fits_full hw (size_of_statesOf hw hT)
    simp only [check, checkPath, hT, untilProb_singular_iff hfits hc]
  | globally hT =>
    have hfits := fits_full hw ((StateSet.size_compl _).trans (size_of_statesOf hw hT))
    simp only [check, checkPath, hT]
    rw [← untilProb_singular_iff hfits hc]
    split
    · rename_i he
      rw [he]
    · rename_i hX
      rw [hX]
      constructor
      · intro h
        cases h
      · intro h
        cases h
  | reward hr hT hsure =>
    simp only [check, hr, hT, expectedReward_singular_iff hw hc (selectReward_mem hr)]
    exact and_iff_right hsure

/-- A property that divides by zero solves equations. -/
theorem exists_solvesFor (hw : m.WellFormed) (hc : m.IsCanonical) {phi : Property}
    (h : check m phi = .error .singularSystem) : ∃ I, SolvesFor m phi I := by
  cases phi with
  | probability path =>
    cases path with
    | next f =>
      simp only [check, checkPath] at h
      split at h
      · rename_i he
        cases h
        exact (statesOf_ne_singular m f he).elim
      · cases h
    | boundedUntil f g k =>
      simp only [check, checkPath] at h
      split at h
      · rename_i he
        cases h
        exact (statesOfBoth_ne_singular m f g he).elim
      · cases h
    | «until» f g =>
      simp only [check, checkPath] at h
      split at h
      · rename_i he
        cases h
        exact (statesOfBoth_ne_singular m f g he).elim
      · rename_i S T hST
        unfold statesOfBoth at hST
        split at hST
        · cases hST
        · rename_i hS
          split at hST
          · cases hST
          · rename_i hT
            exact ⟨_, .until hS hT⟩
    | eventually f =>
      simp only [check, checkPath] at h
      split at h
      · rename_i he
        cases h
        exact (statesOf_ne_singular m f he).elim
      · rename_i hT
        exact ⟨_, .eventually hT⟩
    | globally f =>
      simp only [check, checkPath] at h
      split at h
      · rename_i he
        cases h
        exact (statesOf_ne_singular m f he).elim
      · rename_i hT
        exact ⟨_, .globally hT⟩
  | reward name f =>
    simp only [check] at h
    split at h
    · rename_i he
      cases h
      exact (selectReward_ne_singular m name he).elim
    · rename_i r hr
      split at h
      · rename_i he
        cases h
        exact (statesOf_ne_singular m f he).elim
      · rename_i T hT
        exact ⟨_, .reward hr hT ((expectedReward_singular_iff hw hc (selectReward_mem hr)).1 h).1⟩

/-- Checking a property divides by zero exactly if the equations that it needs have a leading part that
is singular. -/
theorem check_singular_iff (hw : m.WellFormed) (hc : m.IsCanonical) (phi : Property) :
    check m phi = .error .singularSystem ↔ ∃ I, SolvesFor m phi I ∧ IsSingular m I := by
  constructor
  · intro h
    obtain ⟨I, hI⟩ := exists_solvesFor hw hc h
    exact ⟨I, hI, (hI.singular_iff hw hc).1 h⟩
  · rintro ⟨I, hI, h⟩
    exact (hI.singular_iff hw hc).2 h

/-- The equations are singular if the first state returns to itself with probability one. -/
theorem isSingular_of_returns {s : ℕ} {I : List ℕ} (hI : [s] <+: I) (hs : m.mass s {u | u = s} = 1) :
    IsSingular m I := by
  refine ⟨[s], hI, ({u | u = s} : Set ℕ).indicator 1, fun h => ?_, fun t ht => ?_, fun t ht => ?_⟩
  · have hone : ({u | u = s} : Set ℕ).indicator (1 : ℕ → Frac) s = 1 := Set.indicator_of_mem rfl 1
    rw [h] at hone
    exact zero_ne_one hone
  · exact Set.indicator_of_notMem (mt List.mem_singleton.2 ht) 1
  · obtain rfl := List.mem_singleton.1 ht
    have hone : ({u | u = t} : Set ℕ).indicator (1 : ℕ → Frac) t = 1 := Set.indicator_of_mem rfl 1
    exact hone.trans hs.symm

theorem singleton_prefix_maybeStates (h : 0 ∈ maybeStates m S T) : [0] <+: maybeStates m S T := by
  obtain ⟨hlt, hmaybe⟩ := List.mem_filter.1 h
  obtain ⟨n, hn⟩ := Nat.exists_eq_succ_of_ne_zero (List.mem_range.1 hlt).ne'
  rw [maybeStates, hn, List.range_succ_eq_map, List.filter_cons, if_pos hmaybe]
  exact ⟨_, rfl⟩

/-! ## Positive values -/

/-- In a model with distributions at a valuation a path leaves the states whose equations are solved. -/
theorem SolvesFor.not_isSingular {phi : Property} {I : List ℕ} (hI : SolvesFor m phi I)
    (hw : m.WellFormed) (hv : m.IsStochasticAt v) : ¬ IsSingular m I := by
  -- Undecided states reach states of probability zero, and sure ones the target.
  have huntil : ∀ {S T : StateSet}, Fits m S T → ¬ IsSingular m (maybeStates m S T) := fun hfits =>
    not_isSingular_of_path hv.isStochastic hv.readsAt (fun s hs => lt_of_mem_maybeStates hs)
      fun s hs => path_from_maybe hfits hs fun t ht => ht
  cases hI with
  | «until» hS hT => exact huntil ⟨hw, size_of_statesOf hw hS, size_of_statesOf hw hT⟩
  | eventually hT => exact huntil (fits_full hw (size_of_statesOf hw hT))
  | globally hT => exact huntil (fits_full hw ((StateSet.size_compl _).trans (size_of_statesOf hw hT)))
  | @reward _ _ _ T _ hT hsure =>
    have hmem : ∀ {s}, s ∈ finiteStates m T → s < m.numStates ∧ T.contains s = false := fun hs => by
      rw [finiteStates, List.mem_filter, List.mem_range, Bool.and_eq_true, Bool.not_eq_true'] at hs
      exact ⟨hs.1, hs.2.2⟩
    refine not_isSingular_of_path hv.isStochastic hv.readsAt (fun s hs => (hmem hs).1) fun s hs => ?_
    have hlt := (hmem hs).1
    refine path_from_yes (fits_full hw (size_of_statesOf hw hT)) hlt (hsure s hlt) fun t ht hin => ?_
    rw [(hmem hin).2] at ht
    cases ht

end Reach
end MarkovCheck

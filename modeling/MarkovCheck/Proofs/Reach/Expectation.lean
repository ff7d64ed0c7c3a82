import Mathlib
import MarkovCheck.Proofs.Reach.Horizon

/-!
# MarkovCheck.Proofs.Reach.Expectation

Expected rewards of constant chains.

The expected reward of a state is infinite when the state may miss the target. If no state does, a path
leads from every state outside the target into it, so the equations of these states have one solution:
the transitions into the target, which they leave out, would only add zeros. By the minimum principle
the solution is not negative when the rewards are not.

* `IsRewardFixpoint`        — the equations of expected rewards over the numbers.
* `IsRewardFixpoint.nonneg`, `exists_isRewardFixpoint` — they have a solution, and it is not negative.
* `expectedReward_eq_error_iff` — when the expected rewards are infinite.
* `expectedReward_infinite_or_unique`  — the error, and the only solution otherwise.
-/

namespace MarkovCheck
namespace Reach

open Filter Topology

variable {m : Model RationalFunction} {w : RationalFunction → ℚ} {v : Valuation} {target : StateSet}
  {rewards : RewardModel RationalFunction} {r x : ℕ → ℚ} {s : ℕ}

/-- Zero on the target, and the reward plus the average at all other states. -/
structure IsRewardFixpoint (m : Model RationalFunction) (w : RationalFunction → ℚ) (r : ℕ → ℚ)
    (target : StateSet) (x : ℕ → ℚ) : Prop where
  zero : ∀ s < m.numStates, target.contains s = true → x s = 0
  step : ∀ s < m.numStates, target.contains s = false → x s = r s + m.average w s x

/-- The states outside the target. -/
def outside (m : Model RationalFunction) (target : StateSet) : Finset ℕ :=
  (Finset.range m.numStates).filter fun s => target.contains s = false

theorem mem_outside : s ∈ outside m target ↔ s < m.numStates ∧ target.contains s = false := by
  simp [outside]

section Sure

variable (hw : m.WellFormed) (htarget : target.bits.size = m.numStates)
  (hsure : ∀ s < m.numStates, (sureStates m target).contains s = true)
include hw htarget hsure

/-- When every state reaches the target, a path leaves the states outside. -/
theorem path_from_outside (hs : s ∈ outside m target) :
    PathInto m (· ∉ outside m target) (· ∈ outside m target) s := by
  obtain ⟨hlt, -⟩ := mem_outside.1 hs
  refine path_from_yes (fits_full hw htarget) hlt (hsure s hlt) fun t ht hmem => ?_
  rw [(mem_outside.1 hmem).2] at ht
  cases ht

theorem IsRewardFixpoint.nonneg (hs : m.IsStochastic w) (hx : IsRewardFixpoint m w r target x)
    (hr : ∀ s < m.numStates, 0 ≤ r s) : ∀ s < m.numStates, 0 ≤ x s := by
  intro s hlt
  rcases ht : target.contains s with _ | _
  · refine Model.nonneg_of_average_le hs (I := outside m target) (fun t ht => (mem_outside.1 ht).1)
      (fun t ht => ?_) (fun t ht e he hnot => ?_)
      (fun t => path_from_outside hw htarget hsure) s (mem_outside.2 ⟨hlt, ht⟩)
    · obtain ⟨hlt, hout⟩ := mem_outside.1 ht
      rw [hx.step t hlt hout]
      exact le_add_of_nonneg_left (hr t hlt)
    · have hlt := hw.targets_lt t e he
      refine (hx.zero e.1 hlt (by_contra fun hout => hnot ?_)).ge
      exact mem_outside.2 ⟨hlt, Bool.not_eq_true _ ▸ hout⟩
  · exact (hx.zero s hlt ht).ge

theorem exists_isRewardFixpoint (hs : m.IsStochastic w) (hv : m.ReadsAt w v) (r : ℕ → ℚ) :
    ∃ x, IsRewardFixpoint m w r target x := by
  obtain ⟨x, hout, hx⟩ := Model.exists_add_average_eq hv hs (I := outside m target)
    (fun s hs => (mem_outside.1 hs).1) (fun s => path_from_outside hw htarget hsure) r 0
  refine ⟨x, fun s _ ht => hout s fun hmem => ?_, fun s hlt ht => hx s (mem_outside.2 ⟨hlt, ht⟩)⟩
  rw [(mem_outside.1 hmem).2] at ht
  cases ht

end Sure

section Constant

variable (h : IsConstantChain m) (hw : m.WellFormed) (hc : m.IsCanonical)
  (htarget : target.bits.size = m.numStates)
include h hw hc htarget

/-- Infinite rewards are reported for the smallest state that may miss the target. -/
theorem expectedReward_eq_error_iff (hrewards : AllCanonical rewards.values) (s : ℕ) :
    expectedReward m rewards target = .error (.infiniteReward s) ↔
      s < m.numStates ∧ (sureStates m target).contains s = false ∧
        ∀ t < s, (sureStates m target).contains t = true := by
  constructor
  · intro herror
    rcases sure_or_smallest m target with hsure | ⟨t, hlt, hnot, hsmaller⟩
    · obtain ⟨R, hR, -⟩ := expectedReward_spec hw hc (h.isStochastic hc) (h.readsAt fun _ => none)
        htarget hrewards hsure
      cases hR.symm.trans herror
    · cases (expectedReward_infinite hlt hnot hsmaller).symm.trans herror
      exact ⟨hlt, hnot, hsmaller⟩
  · rintro ⟨hlt, hnot, hsmaller⟩
    exact expectedReward_infinite hlt hnot hsmaller

/-- When every state reaches the target, the result consists of numbers, and they solve the equations. -/
theorem expectedReward_eq (hrewards : AllCanonical rewards.values)
    (hr : ∀ s < m.numStates, (rewards.value s).toFrac = RationalFunction.ofQ (r s))
    (hsure : ∀ s < m.numStates, (sureStates m target).contains s = true)
    (hx : IsRewardFixpoint m constValue r target x) :
    expectedReward m rewards target = .ok (tabulate m.numStates fun s => .const (x s)) ∧
      ∀ y, SolvesReward m rewards target y ↔
        ∀ s < m.numStates, y s = RationalFunction.ofQ (x s) := by
  obtain ⟨R, hR, hsize, hcan, hsol⟩ := expectedReward_spec hw hc (h.isStochastic hc)
    (h.readsAt fun _ => none) htarget hrewards hsure
  have hfrac : SolvesReward m rewards target fun s => RationalFunction.ofQ (x s) := by
    constructor
    case zero => exact fun s hlt ht => by rw [hx.zero s hlt ht, map_zero]
    case step => exact fun s hlt ht => by rw [h.expect_eq, hr s hlt, ← map_add, ← hx.step s hlt ht]
  have hvalue := (hsol _).1 hfrac
  refine ⟨by rw [hR, ← eq_tabulate_const hsize hcan hvalue], fun y => (hsol y).trans ?_⟩
  exact forall₂_congr fun s hlt => by rw [hvalue s hlt]

/-- If a state reaches the target with a probability below one, in the limit over the number of steps, the
smallest such state is reported. Otherwise the result is the only vector that is zero on the target and the
reward plus the expectation at all other states; it consists of numbers that are not negative. -/
theorem expectedReward_infinite_or_unique (hsize : rewards.values.size = m.numStates)
    (hrewards : ∀ s < m.numStates, ∃ q : ℚ, 0 ≤ q ∧ rewards.value s = .const q) :
    ∃ z : ℕ → ℚ,
      (∀ s < m.numStates, Tendsto
        (fun k => (within m constValue (.full m.numStates) target k s : ℝ)) atTop (𝓝 (z s))) ∧
      (∀ s, expectedReward m rewards target = .error (.infiniteReward s) ↔
        s < m.numStates ∧ z s < 1 ∧ ∀ t < s, ¬ z t < 1) ∧
      ((∀ s < m.numStates, ¬ z s < 1) → ∃ x : ℕ → ℚ,
        expectedReward m rewards target = .ok (tabulate m.numStates fun s => .const (x s)) ∧
        (∀ s < m.numStates, 0 ≤ x s) ∧
        ∀ y, SolvesReward m rewards target y ↔
          ∀ s < m.numStates, y s = RationalFunction.ofQ (x s)) := by
  have hf := fits_full hw htarget
  have hs := h.isStochastic hc
  obtain ⟨z, hz⟩ := h.exists_solvesUntil hc hf
  have hcan : AllCanonical rewards.values := by
    intro f hmem
    obtain ⟨s, hlt, rfl⟩ := Array.mem_iff_getElem.1 hmem
    obtain ⟨q, -, hq⟩ := hrewards s (hlt.trans_eq hsize)
    rw [RewardModel.value, Array.getElem?_eq_getElem hlt, Option.getD_some] at hq
    exact hq ▸ (RationalFunction.denotes_const q).1
  have hsure : ∀ s < m.numStates, ¬ z s < 1 ↔ (sureStates m target).contains s = true :=
    fun s hlt => by rw [hz.lt_one_iff hf hs hlt, Bool.not_eq_false]
  refine ⟨z, hz.tendsto hf hs, fun s => ?_, fun hone => ?_⟩
  · rw [expectedReward_eq_error_iff h hw hc htarget hcan]
    refine and_congr_right fun hlt => and_congr (hz.lt_one_iff hf hs hlt).symm ?_
    exact forall₂_congr fun t ht => (hsure t (ht.trans hlt)).symm
  · have hsure' : ∀ s < m.numStates, (sureStates m target).contains s = true := fun s hlt =>
      (hsure s hlt).1 (hone s hlt)
    have hvalue : ∀ s < m.numStates,
        (rewards.value s).toFrac = RationalFunction.ofQ (constValue (rewards.value s)) ∧
          0 ≤ constValue (rewards.value s) := fun s hlt => by
      obtain ⟨q, hpos, hq⟩ := hrewards s hlt
      rw [(toFrac_of_const hq).2]
      exact ⟨(toFrac_of_const hq).1, hpos⟩
    obtain ⟨x, hx⟩ := exists_isRewardFixpoint hw htarget hsure' hs (h.readsAt fun _ => none)
      fun s => constValue (rewards.value s)
    obtain ⟨hok, hunique⟩ := expectedReward_eq h hw hc htarget hcan (fun s hlt => (hvalue s hlt).1)
      hsure' hx
    exact ⟨x, hok, hx.nonneg hw htarget hsure' hs fun s hlt => (hvalue s hlt).2, hunique⟩

end Constant

/-- A reward of one for every round of the game. -/
def rounds : RewardModel RationalFunction := ⟨"rounds", #[.const 1, .const 0, .const 0, .const 0]⟩

/-- It takes two rounds on average until the game is won or lost. -/
theorem game_expectedReward : ∃ x : ℕ → ℚ,
    expectedReward game rounds ⟨#[false, true, true, false]⟩ =
      .ok (tabulate 4 fun s => .const (x s)) ∧ x 0 = 2 ∧ x 1 = 0 ∧ x 2 = 0 ∧ x 3 = 0 := by
  have hrewards : ∀ s < 4, ∃ q : ℚ, 0 ≤ q ∧ rounds.value s = .const q
    | 0, _ => ⟨1, zero_le_one, rfl⟩
    | 1, _ => ⟨0, le_rfl, rfl⟩
    | 2, _ => ⟨0, le_rfl, rfl⟩
    | 3, _ => ⟨0, le_rfl, rfl⟩
  have hsize : (⟨#[false, true, true, false]⟩ : StateSet).bits.size = game.numStates := rfl
  obtain ⟨z, -, herror, hfinite⟩ := expectedReward_infinite_or_unique game_isConstantChain game_wellFormed
    game_isCanonical hsize rfl hrewards
  -- The result is no error, so there is no smallest state with a probability below one.
  have hok : ∀ s < 4, expectedReward game rounds ⟨#[false, true, true, false]⟩ ≠
      .error (.infiniteReward s) := by decide +kernel
  have hone : ∀ s < 4, ¬ z s < 1 := by
    intro s
    induction s using Nat.strong_induction_on with
    | _ s ih =>
      intro hlt hz
      exact hok s hlt ((herror s).2 ⟨hlt, hz, fun t ht => ih t ht (ht.trans hlt)⟩)
  obtain ⟨x, hx, -, hsol⟩ := hfinite hone
  obtain ⟨hzero, hstep⟩ := (hsol fun s => RationalFunction.ofQ (x s)).2 fun _ _ => rfl
  have htarget : ∀ s < 4, (⟨#[false, true, true, false]⟩ : StateSet).contains s = true → x s = 0 :=
    fun s hlt ht => RationalFunction.ofQ_injective ((hzero s hlt ht).trans (map_zero _).symm)
  have hwon := htarget 1 (by decide) rfl
  have hlost := htarget 2 (by decide) rfl
  have hrow : ∀ s < 4, (⟨#[false, true, true, false]⟩ : StateSet).contains s = false →
      x s = constValue (rounds.value s) + game.average constValue s x := fun s hlt ht => by
    obtain ⟨q, -, hq⟩ := hrewards s hlt
    have := hstep s hlt ht
    rw [game_isConstantChain.expect_eq, (toFrac_of_const hq).1, ← map_add] at this
    rw [(toFrac_of_const hq).2]
    exact RationalFunction.ofQ_injective this
  have hconst : ∀ q : ℚ, constValue (.const q) = q := fun q => (toFrac_of_const rfl).2
  have hplay : x 0 = 1 + 1 / 2 * x 0 := by
    simpa [Model.average, game, Model.row, rounds, RewardModel.value, hconst, hwon, hlost] using
      hrow 0 (by decide) rfl
  have hlast : x 3 = 0 := by
    simpa [Model.average, game, Model.row, rounds, RewardModel.value, hconst, hwon] using
      hrow 3 (by decide) rfl
  exact ⟨x, hx, by linarith, hwon, hlost, hlast⟩

end Reach
end MarkovCheck

import Mathlib
import MarkovCheck.Proofs.Reach.Qualitative
import MarkovCheck.Proofs.Reach.Reward

/-!
# MarkovCheck.Proofs.Reach.Horizon

The probability of reaching a state at all, as a limit.

The probability of reaching the target within `k` steps needs no equations: it is found by looking one
step ahead `k` times. It grows with `k`, and its limit is a solution of the equations of until. It stays
below every solution, so it tends to the least one.

* `within`                — the probability of reaching `psi` through `phi` within some steps.
* `SolvesUntil.tendsto`   — its limit is the solution of the equations found in the graph.
* `boundedUntilProb_eq`   — bounded until computes it.
* `boundedUntilProb_le_untilProb` — the results of bounded until ascend below that of until.
* `tendsto_boundedUntilProb` — so the results of bounded until tend to that of until.
-/

namespace MarkovCheck

open Filter Topology

namespace Model

variable {m : Model RationalFunction} {w : RationalFunction → ℚ} {s : ℕ}

theorem tendsto_average {x : ℕ → ℕ → ℝ} {y : ℕ → ℝ}
    (h : ∀ e ∈ m.row s, Tendsto (fun k => x k e.1) atTop (𝓝 (y e.1))) :
    Tendsto (fun k => m.average w s (x k)) atTop (𝓝 (m.average w s y)) :=
  tendsto_list_sum _ fun e he => (h e he).const_mul _

end Model

namespace Reach

variable {m : Model RationalFunction} {w : RationalFunction → ℚ} {phi psi : StateSet} {s : ℕ}

/-- The probability of reaching `psi` through `phi` within a number of steps. -/
def within (m : Model RationalFunction) (w : RationalFunction → ℚ) (phi psi : StateSet) : ℕ → ℕ → ℚ
  | 0, s => if psi.contains s then 1 else 0
  | k + 1, s =>
    if psi.contains s then 1
    else if phi.contains s then m.average w s (within m w phi psi k) else 0

theorem within_nonneg (hs : m.IsStochastic w) (k s : ℕ) : 0 ≤ within m w phi psi k s := by
  induction k generalizing s with
  | zero =>
    rw [within]
    split <;> norm_num
  | succ k ih =>
    rw [within]
    split_ifs
    · exact zero_le_one
    · exact List.sum_nonneg fun v hv => by
        obtain ⟨e, he, rfl⟩ := List.mem_map.1 hv
        exact mul_nonneg (hs.positive s e he).le (ih e.1)
    · exact le_rfl

/-- With more steps the probability is at least as high. -/
theorem within_mono (hs : m.IsStochastic w) (s : ℕ) : Monotone fun k => within m w phi psi k s := by
  refine monotone_nat_of_le_succ fun k => ?_
  induction k generalizing s with
  | zero =>
    rw [within]
    split
    · rename_i hpsi
      rw [within, if_pos hpsi]
    · exact within_nonneg hs 1 s
  | succ k ih =>
    rw [within, within]
    split_ifs
    · exact le_rfl
    · exact Model.average_mono hs fun e _ => ih e.1
    · exact le_rfl

/-- No solution of the equations of until is exceeded. -/
theorem IsUntilFixpoint.within_le (hw : m.WellFormed) (hs : m.IsStochastic w) {y : ℕ → ℚ}
    (hy : IsUntilFixpoint m w phi psi y) (k : ℕ) :
    ∀ s < m.numStates, within m w phi psi k s ≤ y s := by
  induction k with
  | zero =>
    intro s hlt
    rw [within]
    split
    · rename_i hpsi
      exact (hy.target s hlt hpsi).ge
    · exact hy.nonneg s hlt
  | succ k ih =>
    intro s hlt
    rw [within]
    split_ifs with hpsi hphi
    · exact (hy.target s hlt hpsi).ge
    · rw [hy.step s hlt hphi (Bool.not_eq_true _ ▸ hpsi)]
      exact Model.average_mono hs fun e he => ih e.1 (hw.targets_lt s e he)
    · exact hy.nonneg s hlt

/-- The limit solves the equations of until. -/
theorem isUntilFixpoint_of_tendsto (hw : m.WellFormed) (hs : m.IsStochastic w) {y : ℕ → ℝ}
    (hy : ∀ s < m.numStates, Tendsto (fun k => (within m w phi psi k s : ℝ)) atTop (𝓝 (y s))) :
    IsUntilFixpoint m w phi psi y := by
  -- The values from the first step on tend to the same limit, and are given by one case each.
  have hnext : ∀ s < m.numStates,
      Tendsto (fun k => (within m w phi psi (k + 1) s : ℝ)) atTop (𝓝 (y s)) := fun s hlt =>
    (tendsto_add_atTop_iff_nat 1).2 (hy s hlt)
  constructor
  case nonneg =>
    intro s hlt
    exact ge_of_tendsto' (hy s hlt) fun k => by exact_mod_cast within_nonneg hs k s
  case target =>
    intro s hlt hpsi
    refine tendsto_nhds_unique (hnext s hlt) ?_
    simp only [within, hpsi, if_true, Rat.cast_one]
    exact tendsto_const_nhds
  case stuck =>
    intro s hlt hphi hpsi
    refine tendsto_nhds_unique (hnext s hlt) ?_
    simp only [within, hpsi, hphi, Bool.false_eq_true, if_false, Rat.cast_zero]
    exact tendsto_const_nhds
  case step =>
    intro s hlt hphi hpsi
    refine tendsto_nhds_unique (hnext s hlt) ?_
    simp only [within, hpsi, hphi, Bool.false_eq_true, if_false, if_true, ← Model.average_cast]
    exact Model.tendsto_average fun e he => hy e.1 (hw.targets_lt s e he)

/-- The solution of the equations found in the graph is the limit. -/
theorem SolvesUntil.tendsto (h : Fits m phi psi) (hs : m.IsStochastic w) {z : ℕ → ℚ}
    (hz : SolvesUntil m phi psi (m.average w) z) :
    ∀ s < m.numStates, Tendsto (fun k => (within m w phi psi k s : ℝ)) atTop (𝓝 (z s)) := by
  have hbound : ∀ s < m.numStates, ∀ k, (within m w phi psi k s : ℝ) ≤ z s := fun s hlt k => by
    exact_mod_cast (hz.isUntilFixpoint h hs).within_le h.wellFormed hs k s hlt
  have hlimit : ∀ s < m.numStates, Tendsto (fun k => (within m w phi psi k s : ℝ)) atTop
      (𝓝 (⨆ k, (within m w phi psi k s : ℝ))) := fun s hlt =>
    tendsto_atTop_ciSup (Rat.cast_mono.comp (within_mono hs s))
      ⟨z s, by rintro _ ⟨k, rfl⟩; exact hbound s hlt k⟩
  have hfix := isUntilFixpoint_of_tendsto h.wellFormed hs hlimit
  intro s hlt
  have heq : (⨆ k, (within m w phi psi k s : ℝ)) = z s :=
    le_antisymm (ciSup_le (hbound s hlt)) (hz.cast.le h hs hfix s hlt)
  rw [← heq]
  exact hlimit s hlt

/-! ## Constant chains -/

variable (h : IsConstantChain m)
include h

/-- Bounded until computes the probabilities within its bound. -/
theorem IsConstantChain.boundedUntilProb_eq (hw : m.WellFormed) (hc : m.IsCanonical)
    (phi psi : StateSet) (k : ℕ) : boundedUntilProb m phi psi k =
      tabulate m.numStates fun s => .const (within m constValue phi psi k s) := by
  obtain ⟨hsize, hcan, -⟩ := boundedUntilProb_spec hc phi psi k
  refine eq_tabulate_const hsize hcan ?_
  clear hsize hcan
  induction k with
  | zero =>
    intro s hlt
    rw [(boundedUntilProb_spec hc phi psi 0).2.2.1 s hlt, within]
    split
    · exact map_one _
    · exact map_zero _
  | succ k ih =>
    intro s hlt
    rw [(boundedUntilProb_spec hc phi psi k).2.2.2 s hlt, within, boundedValue]
    split_ifs
    · exact map_one _
    · rw [← h.expect_eq]
      exact Model.expect_congr fun e he => ih e.1 (hw.targets_lt s e he)
    · exact map_zero _

/-- The results of bounded until grow with the bound and stay below the result of until. On the states
found to have probability zero all of them are zero. -/
theorem boundedUntilProb_le_untilProb (hw : m.WellFormed) (hc : m.IsCanonical)
    (hphi : phi.bits.size = m.numStates) (hpsi : psi.bits.size = m.numStates) :
    ∃ (x : ℕ → ℕ → ℚ) (z : ℕ → ℚ),
      (∀ k, boundedUntilProb m phi psi k = tabulate m.numStates fun s => .const (x k s)) ∧
      untilProb m phi psi = .ok (tabulate m.numStates fun s => .const (z s)) ∧
      (∀ s < m.numStates, ∀ k, x k s ≤ x (k + 1) s ∧ x (k + 1) s ≤ z s) ∧
      ∀ s < m.numStates, (prob0 m.predecessors phi psi).contains s = true →
        z s = 0 ∧ ∀ k, x k s = 0 := by
  have hf : Fits m phi psi := ⟨hw, hphi, hpsi⟩
  have hs := h.isStochastic hc
  obtain ⟨z, hz, hprob⟩ := h.untilProb_eq hc hf
  have hle : ∀ s < m.numStates, ∀ k, within m constValue phi psi k s ≤ z s := fun s hlt k =>
    (hz.isUntilFixpoint hf hs).within_le hw hs k s hlt
  refine ⟨_, z, h.boundedUntilProb_eq hw hc phi psi, hprob, fun s hlt k => ⟨?_, hle s hlt (k + 1)⟩,
    fun s hlt hno => ?_⟩
  · exact within_mono hs s k.le_succ
  · have hzero : z s = 0 := hz.zero s hlt hno
    exact ⟨hzero, fun k => le_antisymm (hzero ▸ hle s hlt k) (within_nonneg hs k s)⟩

omit h in
/-- The chance to win from the start grows with the number of rounds, up to that of winning at all. A lost
game stays lost. -/
theorem game_boundedUntilProb_le : ∃ (x : ℕ → ℕ → ℚ) (z : ℕ → ℚ),
    (∀ k, boundedUntilProb game ⟨#[true, true, false, true]⟩ ⟨#[false, true, false, false]⟩ k =
      tabulate 4 fun s => .const (x k s)) ∧
    untilProb game ⟨#[true, true, false, true]⟩ ⟨#[false, true, false, false]⟩ =
      .ok (tabulate 4 fun s => .const (z s)) ∧
    (∀ k, x k 0 ≤ x (k + 1) 0 ∧ x (k + 1) 0 ≤ z 0) ∧ z 2 = 0 ∧ ∀ k, x k 2 = 0 := by
  have hphi : (⟨#[true, true, false, true]⟩ : StateSet).bits.size = game.numStates := rfl
  have hpsi : (⟨#[false, true, false, false]⟩ : StateSet).bits.size = game.numStates := rfl
  obtain ⟨x, z, hbounded, hprob, hle, hno⟩ := boundedUntilProb_le_untilProb game_isConstantChain
    game_wellFormed game_isCanonical hphi hpsi
  exact ⟨x, z, hbounded, hprob, hle 0 (by decide), hno 2 (by decide) (by decide +kernel)⟩

/-- The results of bounded until tend to the result of until as the bound grows. -/
theorem tendsto_boundedUntilProb (hw : m.WellFormed) (hc : m.IsCanonical)
    (hphi : phi.bits.size = m.numStates) (hpsi : psi.bits.size = m.numStates) :
    ∃ (x : ℕ → ℕ → ℚ) (z : ℕ → ℚ),
      (∀ k, boundedUntilProb m phi psi k = tabulate m.numStates fun s => .const (x k s)) ∧
      untilProb m phi psi = .ok (tabulate m.numStates fun s => .const (z s)) ∧
      ∀ s < m.numStates, Tendsto (fun k => (x k s : ℝ)) atTop (𝓝 (z s)) := by
  have hf : Fits m phi psi := ⟨hw, hphi, hpsi⟩
  obtain ⟨z, hz, hprob⟩ := h.untilProb_eq hc hf
  exact ⟨_, z, h.boundedUntilProb_eq hw hc phi psi, hprob, hz.tendsto hf (h.isStochastic hc)⟩

end Reach
end MarkovCheck

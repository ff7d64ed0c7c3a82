import Mathlib
import MarkovCheck.Proofs.Chain.Conservation
import MarkovCheck.Proofs.Reach.Until

/-!
# MarkovCheck.Proofs.Reach.Qualitative

The states found in the graph are those of probability zero and one.

A value that equals its average is passed on against the direction of the transitions: a state with a
path into the target has a positive value, and one with a path to a state of value zero has a value
below one, since the average over positive weights meets a bound only if all successors do. The search
leaves exactly the states that have both paths.

* `IsUntilFixpoint.pos_of_path`, `SolvesUntil.lt_one_of_path` — how a bound is missed along a path.
* `SolvesUntil.eq_zero_iff`, `SolvesUntil.eq_one_iff` — the values of the solution and the two sets.
* `untilProb_qualitative` — the computed probabilities of constant chains.
-/

namespace MarkovCheck
namespace Reach

variable {m : Model RationalFunction} {w : RationalFunction → ℚ} {phi psi : StateSet} {s : ℕ}

section Field

variable {K : Type*} [Field K] [LinearOrder K] [IsStrictOrderedRing K] {x : ℕ → K}

/-! ## Values along a path -/

/-- A path into the target makes the value positive. -/
theorem IsUntilFixpoint.pos_of_path (hw : m.WellFormed) (hs : m.IsStochastic w)
    (hx : IsUntilFixpoint m w phi psi x) (hlt : s < m.numStates)
    (hpath : PathInto m (fun t => psi.contains t = true) (fun t => phi.contains t = true) s) :
    0 < x s := by
  induction hpath with
  | here hpsi => exact (hx.target _ hlt hpsi).symm ▸ zero_lt_one
  | @step s e hphi he _ ih =>
    rcases hpsi : psi.contains s with _ | _
    · refine (hx.nonneg s hlt).lt_of_ne fun hzero => ?_
      have havg : m.average w s x ≤ 0 := ((hx.step s hlt hphi hpsi).symm.trans hzero.symm).le
      have hsucc := Model.eq_of_average_le hs hlt
        (fun e he => hx.nonneg e.1 (hw.targets_lt s e he)) havg e he
      exact (ih (hw.targets_lt s e he)).ne' hsucc
    · exact (hx.target s hlt hpsi).symm ▸ zero_lt_one

variable (h : Fits m phi psi) (hs : m.IsStochastic w)
  (hx : SolvesUntil m phi psi (m.average w) x)
include h hs hx

theorem SolvesUntil.le_one : ∀ s < m.numStates, x s ≤ 1 := by
  have hle := nonneg_of_maybe h hs (d := (fun _ => 1) - x)
    (fun s hmem => by
      have hlt := lt_of_mem_maybeStates hmem
      rw [Model.average_sub, Model.average_const hs hlt, ← hx.maybe s hmem, Pi.sub_apply])
    (fun s hlt hnot => by
      rcases yes_or_no_or_maybe hlt with hyes | hno | hmem
      · rw [Pi.sub_apply, hx.one s hlt hyes, sub_self]
      · rw [Pi.sub_apply, hx.zero s hlt hno, sub_zero]
        exact zero_le_one
      · exact absurd hmem hnot)
  exact fun s hlt => sub_nonneg.1 (hle s hlt)

/-- A path to a state of probability zero keeps the value below one. -/
theorem SolvesUntil.lt_one_of_path (hlt : s < m.numStates)
    (hpath : PathInto m (fun t => (noStates m phi psi).contains t = true)
      (fun t => phi.contains t = true ∧ psi.contains t = false) s) : x s < 1 := by
  have hle := hx.le_one h hs
  induction hpath with
  | here hno => exact (hx.zero _ hlt hno).symm ▸ zero_lt_one
  | @step s e hthrough he _ ih =>
    refine (hle s hlt).lt_of_ne fun hone => ?_
    have hstep := (hx.isUntilFixpoint h hs).step s hlt hthrough.1 hthrough.2
    have havg : m.average w s (-x) ≤ -1 := by rw [Model.average_neg, ← hstep, hone]
    have hsucc : -x e.1 = -1 := Model.eq_of_average_le (x := -x) hs hlt
      (fun e he => neg_le_neg (hle e.1 (h.wellFormed.targets_lt s e he))) havg e he
    exact (ih (h.wellFormed.targets_lt s e he)).ne (neg_injective hsucc)

/-! ## The two sets -/

theorem SolvesUntil.eq_zero_iff (hlt : s < m.numStates) :
    x s = 0 ↔ (noStates m phi psi).contains s = true := by
  refine ⟨fun hzero => (mem_noStates h hlt).2 fun hpath => ?_, hx.zero s hlt⟩
  exact ((hx.isUntilFixpoint h hs).pos_of_path h.wellFormed hs hlt hpath).ne' hzero

theorem SolvesUntil.eq_one_iff (hlt : s < m.numStates) :
    x s = 1 ↔ (yesStates m phi psi).contains s = true := by
  refine ⟨fun hone => (mem_yesStates h hlt).2 fun hpath => ?_, hx.one s hlt⟩
  exact (hx.lt_one_of_path h hs hlt hpath).ne hone

theorem SolvesUntil.lt_one_iff (hlt : s < m.numStates) :
    x s < 1 ↔ (yesStates m phi psi).contains s = false := by
  rw [(hx.le_one h hs s hlt).lt_iff_ne, Ne, hx.eq_one_iff h hs hlt, Bool.not_eq_true]

/-- The states in neither set have values strictly between. -/
theorem SolvesUntil.between (hmem : s ∈ maybeStates m phi psi) : 0 < x s ∧ x s < 1 := by
  have hlt := lt_of_mem_maybeStates hmem
  obtain ⟨hpsi, hno⟩ := (mem_maybeStates_iff_path h hlt).1 hmem
  exact ⟨(hx.isUntilFixpoint h hs).pos_of_path h.wellFormed hs hlt hpsi,
    hx.lt_one_of_path h hs hlt hno⟩

end Field

/-! ## Constant chains -/

/-- The computed probability of a state is zero exactly on the first set found in the graph, one exactly
on the second, and strictly between at all other states. -/
theorem untilProb_qualitative (h : IsConstantChain m) (hw : m.WellFormed) (hc : m.IsCanonical)
    (hphi : phi.bits.size = m.numStates) (hpsi : psi.bits.size = m.numStates) :
    ∃ z : ℕ → ℚ, untilProb m phi psi = .ok (tabulate m.numStates fun s => .const (z s)) ∧
      ∀ s < m.numStates,
        (z s = 0 ↔ (prob0 m.predecessors phi psi).contains s = true) ∧
        (z s = 1 ↔
          (prob1 m.predecessors phi psi (prob0 m.predecessors phi psi)).contains s = true) ∧
        ((prob0 m.predecessors phi psi).contains s = false →
          (prob1 m.predecessors phi psi (prob0 m.predecessors phi psi)).contains s = false →
          0 < z s ∧ z s < 1) := by
  have hf : Fits m phi psi := ⟨hw, hphi, hpsi⟩
  have hs := h.isStochastic hc
  obtain ⟨z, hz, hprob⟩ := h.untilProb_eq hc hf
  exact ⟨z, hprob, fun s hlt => ⟨hz.eq_zero_iff hf hs hlt, hz.eq_one_iff hf hs hlt, fun hno hyes =>
    hz.between hf hs ((mem_maybeStates hlt).2 ⟨hno, hyes⟩)⟩⟩

/-- A game that is played again after a draw, with a last state from which it is won at once. -/
def game : Model RationalFunction where
  kind := .dtmc
  rows := #[[(0, .const (1 / 2)), (1, .const (1 / 4)), (2, .const (1 / 4))], [(1, .const 1)],
    [(2, .const 1)], [(1, .const 1)]]
  initial := [0, 3]
  labeling := ⟨4, [("won", ⟨#[false, true, false, false]⟩)]⟩
  rewards := [⟨"rounds", #[.const 1, .const 0, .const 0, .const 0]⟩]

theorem game_value : ∀ s, ∀ e ∈ game.row s, ∃ q : ℚ, 0 < q ∧ e.2 = .const q := by
  intro s e he
  have hone : ∀ n, e = (n, RationalFunction.const 1) → ∃ q : ℚ, 0 < q ∧ e.2 = .const q := by
    rintro n rfl
    exact ⟨1, one_pos, rfl⟩
  rcases s with _ | _ | _ | _ | s
  · rcases List.mem_cons.1 he with rfl | he
    · exact ⟨1 / 2, by norm_num, rfl⟩
    · rcases List.mem_pair.1 he with rfl | rfl <;> exact ⟨1 / 4, by norm_num, rfl⟩
  · exact hone 1 (List.mem_singleton.1 he)
  · exact hone 2 (List.mem_singleton.1 he)
  · exact hone 1 (List.mem_singleton.1 he)
  · cases he

theorem game_isCanonical : game.IsCanonical where
  row s e he := by
    obtain ⟨q, -, hq⟩ := game_value s e he
    exact hq ▸ (RationalFunction.denotes_const q).1
  reward := by
    simp [game, (RationalFunction.denotes_const _).1]

theorem game_isConstantChain : IsConstantChain game where
  positive := game_value
  sum_one s hs := by
    have hconst : ∀ q : ℚ, (RationalFunction.const q).toFrac = RationalFunction.ofQ q := fun q =>
      (RationalFunction.denotes_const q).2
    rw [Model.rowSum_eq_one_iff game_isCanonical]
    rcases s with _ | _ | _ | _ | s
    · simp only [Model.expect, game, Model.row, Pi.one_apply, mul_one]
      norm_num [hconst, ← map_add]
    · simp [Model.expect, game, Model.row, hconst]
    · simp [Model.expect, game, Model.row, hconst]
    · simp [Model.expect, game, Model.row, hconst]
    · exact absurd hs (by simp [game, Model.numStates])

theorem game_wellFormed : game.WellFormed where
  targets_ascend s := by rcases s with _ | _ | _ | _ | s <;> simp [game, Model.row]
  targets_lt s := by rcases s with _ | _ | _ | _ | s <;> simp [game, Model.row, Model.numStates]
  values_ne_zero s e he := by
    obtain ⟨q, hpos, hq⟩ := game_value s e he
    exact hq ▸ RationalFunction.isZero_const_eq_false hpos.ne'
  initial_ascend := by decide
  initial_lt := by decide
  initial_ne_nil := by decide
  labeling_size := rfl
  label_size := by decide
  label_names := by decide
  reward_size := by decide
  reward_names := by decide

/-- While draws go on the game may still be won or lost. -/
theorem game_untilProb_qualitative : ∃ z : ℕ → ℚ,
    untilProb game ⟨#[true, true, false, true]⟩ ⟨#[false, true, false, false]⟩ =
      .ok (tabulate 4 fun s => .const (z s)) ∧
    (0 < z 0 ∧ z 0 < 1) ∧ z 1 = 1 ∧ z 2 = 0 ∧ z 3 = 1 := by
  have hphi : (⟨#[true, true, false, true]⟩ : StateSet).bits.size = game.numStates := rfl
  have hpsi : (⟨#[false, true, false, false]⟩ : StateSet).bits.size = game.numStates := rfl
  obtain ⟨z, hprob, hz⟩ :=
    untilProb_qualitative game_isConstantChain game_wellFormed game_isCanonical hphi hpsi
  exact ⟨z, hprob, (hz 0 (by decide)).2.2 (by decide +kernel) (by decide +kernel),
    (hz 1 (by decide)).2.1.2 (by decide +kernel), (hz 2 (by decide)).1.2 (by decide +kernel),
    (hz 3 (by decide)).2.1.2 (by decide +kernel)⟩

end Reach
end MarkovCheck

import Mathlib
import MarkovCheck.Bisim.Rounds
import MarkovCheck.Proofs.Bisim.Bisimulation
import MarkovCheck.Proofs.Bisim.Signature

/-!
# MarkovCheck.Proofs.Bisim.Rounds

Refinement in rounds computes the coarsest bisimulation.

A round keeps two states together exactly when they were together and have equal masses on all
blocks. So rounds refine, and they never separate bisimilar states. While the number of blocks
changes it grows, which happens at most as often as there are states; when it stays, the partition
stays, and is stable.

* `round_spec`  — what one round does.
* `exists_rounds` — the loop is an iteration of rounds that ends because two counts are equal.
* `refineRounds_isCoarsest` — the result is the coarsest bisimulation.
-/

namespace MarkovCheck
namespace Bisim

variable {m : Model RationalFunction} {p q : Partition} {c : ValueCache RationalFunction}

/-- One round as a function of its result. -/
def nextRound (m : Model RationalFunction) (w : Partition × ValueCache RationalFunction) :
    Partition × ValueCache RationalFunction := round m w.1 w.2

/-! ## One round -/

/-- Two states stay together exactly when they were together and the masses of all blocks agree. -/
theorem round_spec (hc : m.IsCanonical) (hn : 0 < m.numStates) (p : Partition)
    (c : ValueCache RationalFunction) :
    (round m p c).1.IsDense m.numStates ∧
      ∀ s < m.numStates, ∀ t < m.numStates, (round m p c).1.block s = (round m p c).1.block t ↔
        p.block s = p.block t ∧ m.SameMasses p.block s t := by
  obtain ⟨-, hknows, hsigs⟩ := signatures_spec m p c (List.range m.numStates)
  let d := (signatures m p c (List.range m.numStates)).2
  let key := fun s => (p.block s, encode d (blockSums m p s))
  have hround : (round m p c).1 = .ofKeys m.numStates key := by
    simp only [round, hsigs, List.zip_map']
    rfl
  obtain ⟨hd, hiff⟩ := Partition.ofKeys_spec hn key
  rw [hround]
  refine ⟨hd, fun s hs t ht => ?_⟩
  rw [hiff s hs t ht, Prod.mk.injEq, encode_inj (hknows s (List.mem_range.2 hs))
    (hknows t (List.mem_range.2 ht)), blockSums_eq_iff hc]

theorem round_refines (hc : m.IsCanonical) (hn : 0 < m.numStates) (p : Partition)
    (c : ValueCache RationalFunction) : (round m p c).1.Refines p m.numStates :=
  fun s hs t ht h => (((round_spec hc hn p c).2 s hs t ht).1 h).1

/-- A round does not separate bisimilar states. -/
theorem round_respects (hw : m.WellFormed) (hc : m.IsCanonical) (hn : 0 < m.numStates)
    {p₀ : Partition} (h : Respects m p₀ p) (c : ValueCache RationalFunction) :
    Respects m p₀ (round m p c).1 := by
  intro r hr s hs t ht hst
  rw [(round_spec hc hn p c).2 s hs t ht]
  exact ⟨h r hr s hs t ht hst, hr.sameMasses hw hc hs ht hst (h r hr)⟩

/-- If the number of blocks stays, the partition was stable, and so is the next one. -/
theorem isStable_round (hw : m.WellFormed) (hc : m.IsCanonical) (hn : 0 < m.numStates)
    (hp : p.IsDense m.numStates) (h : (round m p c).1.numBlocks = p.numBlocks) :
    IsStable m (round m p c).1 := by
  obtain ⟨hd, hiff⟩ := round_spec hc hn p c
  have hsame := ((round_refines hc hn p c).card hd hp).2 h
  intro s hs t ht hst b
  have hmass := ((hiff s hs t ht).1 hst).2
  -- The blocks of the next partition are those of the former, under other numbers.
  refine Model.mass_eq_of_masses hw hmass fun u hu v hv huv hub => ?_
  exact (hsame u hu v hv huv).symm.trans hub

/-! ## The loop -/

theorem rounds_succ (m : Model RationalFunction) (fuel : ℕ) (p : Partition)
    (c : ValueCache RationalFunction) : rounds m (fuel + 1) p c =
      if (round m p c).1.numBlocks = p.numBlocks then round m p c
      else rounds m fuel (round m p c).1 (round m p c).2 := rfl

/-- Before the number of blocks has stayed, every round added a block. So the loop ends by its own
condition, after as many rounds as there are states at most. -/
theorem exists_rounds (hc : m.IsCanonical) (hn : 0 < m.numStates) {fuel : ℕ}
    (hp : p.IsDense m.numStates) (hfuel : m.numStates < p.numBlocks + fuel) :
    ∃ k, p.numBlocks + k ≤ m.numStates ∧
      rounds m fuel p c = (nextRound m)^[k + 1] (p, c) ∧
      ((nextRound m)^[k + 1] (p, c)).1.numBlocks = ((nextRound m)^[k] (p, c)).1.numBlocks := by
  induction fuel generalizing p c with
  | zero =>
    have := hp.numBlocks_le
    omega
  | succ fuel ih =>
    have hd := (round_spec hc hn p c).1
    have hle := ((round_refines hc hn p c).card hd hp).1
    rw [rounds_succ]
    split
    · rename_i heq
      exact ⟨0, hp.numBlocks_le, rfl, heq⟩
    · rename_i hne
      obtain ⟨k, hk, hrun, hcount⟩ := ih (c := (round m p c).2) hd (by omega)
      exact ⟨k + 1, by omega, hrun, hcount⟩

/-- What holds of the partition after any number of rounds. -/
theorem iterate_nextRound_spec (hw : m.WellFormed) (hc : m.IsCanonical) (hn : 0 < m.numStates)
    (hp : p.IsDense m.numStates) (c : ValueCache RationalFunction) (k : ℕ) :
    ((nextRound m)^[k] (p, c)).1.IsDense m.numStates ∧
      ((nextRound m)^[k] (p, c)).1.Refines p m.numStates ∧
      Respects m p ((nextRound m)^[k] (p, c)).1 := by
  induction k with
  | zero => exact ⟨hp, .refl p _, fun r hr => hr.contained⟩
  | succ k ih =>
    rw [Function.iterate_succ_apply']
    obtain ⟨-, href, hresp⟩ := ih
    exact ⟨(round_spec hc hn _ _).1, (round_refines hc hn _ _).trans href,
      round_respects hw hc hn hresp _⟩

/-- Refinement in rounds computes the coarsest bisimulation. -/
theorem refineRounds_isCoarsest (hw : m.WellFormed) (hc : m.IsCanonical)
    (hp : p.IsDense m.numStates) (c : ValueCache RationalFunction) :
    IsCoarsest m p (refineRounds m p c).1 := by
  have hn := hw.numStates_pos
  obtain ⟨k, -, hrun, hcount⟩ := exists_rounds hc hn (c := c) hp
    (show m.numStates < p.numBlocks + (m.numStates + 2) by omega)
  obtain ⟨-, href, hresp⟩ := iterate_nextRound_spec hw hc hn hp c (k + 1)
  obtain ⟨hd, -, -⟩ := iterate_nextRound_spec hw hc hn hp c k
  rw [refineRounds, hrun]
  refine isCoarsest_of_isStable hc ?_ href hresp
  rw [Function.iterate_succ_apply'] at hcount ⊢
  exact isStable_round hw hc hn hd hcount

theorem refineRounds_isDense (hw : m.WellFormed) (hc : m.IsCanonical)
    (hp : p.IsDense m.numStates) (c : ValueCache RationalFunction) :
    (refineRounds m p c).1.IsDense m.numStates := by
  obtain ⟨k, -, hrun, -⟩ := exists_rounds hc hw.numStates_pos (c := c) hp
    (show m.numStates < p.numBlocks + (m.numStates + 2) by omega)
  rw [refineRounds, hrun]
  exact (iterate_nextRound_spec hw hc hw.numStates_pos hp c (k + 1)).1

/-- The round based refinement stops after at most one round more than there are states, because the
number of blocks has stayed, and its blocks are the classes of bisimilar states. -/
theorem refineRounds_bisimilar (hw : m.WellFormed) (hc : m.IsCanonical)
    (hp : p.IsDense m.numStates) (c : ValueCache RationalFunction) :
    (∃ k, k + 1 ≤ m.numStates + 1 ∧ refineRounds m p c = (nextRound m)^[k + 1] (p, c) ∧
      ((nextRound m)^[k + 1] (p, c)).1.numBlocks = ((nextRound m)^[k] (p, c)).1.numBlocks) ∧
    ∀ s < m.numStates, ∀ t < m.numStates,
      (refineRounds m p c).1.block s = (refineRounds m p c).1.block t ↔ Bisimilar m p s t := by
  constructor
  · obtain ⟨k, hk, hrun, hcount⟩ := exists_rounds hc hw.numStates_pos (c := c) hp
      (show m.numStates < p.numBlocks + (m.numStates + 2) by omega)
    exact ⟨k, by omega, hrun, hcount⟩
  · intro s hs t ht
    exact (refineRounds_isCoarsest hw hc hp c).block_eq_iff hs ht

/-- When nothing is observed, all states of a coin are bisimilar, and the refinement finds it. -/
theorem coin_refineRounds_bisimilar :
    (⟨#[0, 0, 0], 1⟩ : Partition).IsDense coin.numStates ∧ ∀ s < 3, ∀ t < 3,
      (refineRounds coin ⟨#[0, 0, 0], 1⟩ .empty).1.block s =
        (refineRounds coin ⟨#[0, 0, 0], 1⟩ .empty).1.block t := by
  have hp : (⟨#[0, 0, 0], 1⟩ : Partition).IsDense coin.numStates :=
    ⟨rfl, by decide, by decide⟩
  obtain ⟨-, hiff⟩ := refineRounds_bisimilar coin_wellFormed coin_isCanonical hp .empty
  have hmass : ∀ s < coin.numStates, ∀ u, coin.mass s {v | (⊤ : Setoid ℕ) u v} = 1 := by
    intro s hs u
    rw [← coin_expect_one hs]
    refine Model.expect_congr fun e _ => Set.indicator_of_mem ?_ _
    exact trivial
  have hone : ∀ s < 3, ∀ t < 3,
      (⟨#[0, 0, 0], 1⟩ : Partition).block s = (⟨#[0, 0, 0], 1⟩ : Partition).block t := by decide
  refine ⟨hp, fun s hs t ht => (hiff s hs t ht).2 ⟨⊤, ⟨?_, ?_⟩, trivial⟩⟩
  · exact fun s hs t ht _ => hone s hs t ht
  · intro s hs t ht _ u
    rw [Model.total_eq_iff coin_isCanonical, hmass s hs, hmass t ht]

end Bisim
end MarkovCheck

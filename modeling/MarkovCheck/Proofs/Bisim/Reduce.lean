import Mathlib
import MarkovCheck.Bisim.Reduce
import MarkovCheck.Proofs.Bisim.Preserved
import MarkovCheck.Proofs.Bisim.Rounds
import MarkovCheck.Proofs.Bisim.Worklist
import MarkovCheck.Proofs.Reach.Harmonic

/-!
# MarkovCheck.Proofs.Bisim.Reduce

Both ways to refine a partition lead to the same quotient.

A quotient depends on nothing but the equivalence that its partition denotes. Where no values
cancel, both refinements compute the coarsest bisimulation, so they denote the same equivalence.

* `quotient_congr` — partitions that denote one equivalence have one quotient.
* `refine_exact`   — the worklist refinement agrees with the rounds, and so do the quotients.
-/

namespace MarkovCheck
namespace Bisim

variable {m : Model RationalFunction}

theorem quotient_congr {p q : Partition} (h : p.canonical = q.canonical) (preserved : Preserved) :
    quotient m p preserved = quotient m q preserved := by
  unfold quotient
  rw [h]

theorem observe_of_labelPartition {preserved : Preserved} {c d : ValueCache RationalFunction}
    {p : Partition} (h : labelPartition m preserved c = .ok (p, d)) :
    ∃ o, observe m preserved = .ok o := by
  unfold labelPartition at h
  split at h
  · cases h
  · rename_i o ho
    exact ⟨o, ho⟩

/-- The initial partition of a minimisation has no empty blocks. -/
theorem labelPartition_isDense (hw : m.WellFormed) {preserved : Preserved}
    {c d : ValueCache RationalFunction} {p : Partition}
    (h : labelPartition m preserved c = .ok (p, d)) : p.IsDense m.numStates := by
  obtain ⟨o, ho⟩ := observe_of_labelPartition h
  obtain ⟨q, e, hq, hd, -⟩ := labelPartition_spec hw.numStates_pos ho c
  rw [h] at hq
  cases hq
  exact hd.toIsDense

/-- Two coarsest partitions denote the same equivalence. -/
theorem IsCoarsest.block_eq_iff_block_eq {p q r : Partition} (hq : IsCoarsest m p q)
    (hr : IsCoarsest m p r) {s t : ℕ} (hs : s < m.numStates) (ht : t < m.numStates) :
    q.block s = q.block t ↔ r.block s = r.block t := by
  rw [hq.block_eq_iff hs ht, hr.block_eq_iff hs ht]

theorem canonical_refine_eq (hw : m.WellFormed) (hc : m.IsCanonical) (hpos : m.NoCancelling)
    {p : Partition} (hp : p.IsDense m.numStates) (c : ValueCache RationalFunction) :
    (refine m p c).partition.toPartition.canonical = (refineRounds m p c).1.canonical := by
  have hd := (refine_spec hw hc hp c).2.1
  have hd' := refineRounds_isDense hw hc hp c
  refine Partition.canonical_congr hd.isBounded hd'.isBounded (hd.size.trans hd'.size.symm) ?_
  rw [hd.size]
  exact fun s hs t ht => (refine_isCoarsest hw hc hpos hp c).block_eq_iff_block_eq
    (refineRounds_isCoarsest hw hc hp c) hs ht

/-- Where no values cancel, the worklist refinement ends with an empty worklist and the coarsest
partition that refines the initial one and has equal total values in every block. It denotes the
same equivalence as the refinement in rounds, and both lead to the same quotient. -/
theorem refine_exact (hw : m.WellFormed) (hc : m.IsCanonical) (hpos : m.NoCancelling) :
    (∀ p : Partition, p.IsDense m.numStates → ∀ c d,
      (refine m p c).blocks = [] ∧
      IsCoarsest m p (refine m p c).partition.toPartition ∧
      ∀ s < m.numStates, ∀ t < m.numStates,
        (refine m p c).partition.toPartition.block s =
            (refine m p c).partition.toPartition.block t ↔
          (refineRounds m p d).1.block s = (refineRounds m p d).1.block t) ∧
    ∀ preserved,
      reduce m preserved .strong .worklist = reduce m preserved .strong .rounds := by
  constructor
  · intro p hp c d
    have hcoarsest := refine_isCoarsest hw hc hpos hp c
    refine ⟨(refine_spec hw hc hp c).1, hcoarsest, fun s hs t ht => ?_⟩
    exact hcoarsest.block_eq_iff_block_eq (refineRounds_isCoarsest hw hc hp d) hs ht
  · intro preserved
    unfold reduce
    simp only
    split
    · rfl
    · rename_i p c hlabel
      have hp := labelPartition_isDense hw hlabel
      exact quotient_congr (canonical_refine_eq hw hc hpos hp c) preserved

/-- Both refinements agree on a coin, whatever is observed of it. -/
theorem coin_refine_exact : coin.NoCancelling ∧ ∀ preserved,
    reduce coin preserved .strong .worklist = reduce coin preserved .strong .rounds := by
  have hv : coin.IsStochasticAt fun _ => none := by
    constructor
    case positive =>
      intro s e he
      obtain ⟨q, hpos, hq⟩ := coin_value s e he
      rw [hq]
      exact ⟨q, hpos, RationalFunction.evalsTo_of_evalAt (RationalFunction.evalAt_const _ q)⟩
    case sum_one =>
      intro s hs
      rw [coin_expect_one hs]
      exact evalsTo_one _
  have hpos := hv.noCancelling coin_isCanonical
  exact ⟨hpos, (refine_exact coin_wellFormed coin_isCanonical hpos).2⟩

end Bisim
end MarkovCheck

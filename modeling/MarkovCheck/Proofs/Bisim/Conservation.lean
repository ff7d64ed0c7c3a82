import Mathlib
import MarkovCheck.Proofs.Bisim.Consistent
import MarkovCheck.Proofs.Chain.Conservation
import MarkovCheck.Proofs.Chain.StoredForm

/-!
# MarkovCheck.Proofs.Bisim.Conservation

Minimising conserves what leaves a state.

A state of the quotient has the block sums of a state of its class as transitions. Together they are
all that leaves this state, since a sum that is left out is zero. Labels and rewards are added beside the
transitions, so it does not matter which ones are preserved.

* `sum_blockSums`         — the block sums of a state.
* `quotientBuilder_chain` — states and transitions of a quotient.
* `reduce_conserves`      — the rows of a minimised model.
-/

namespace MarkovCheck
namespace Bisim

open RationalFunction (toFrac)

variable {m : Model RationalFunction} {o : Observed RationalFunction} {p : Partition}

/-! ## Block sums -/

theorem sum_blockSums (hc : m.IsCanonical) (p : Partition) (s : ℕ) :
    ((blockSums m p s).map fun e => e.2.toFrac).sum = m.expect s 1 := by
  classical
  let mass : ℕ → Frac := fun b => m.mass s {u | p.block u = b}
  let B := ((m.row s).map fun e => p.block e.1).toFinset
  have hexpect : m.expect s 1 = ∑ b ∈ B, mass b := by
    have hcomp := Model.expect_comp (m := m) (s := s) (c := p.block) (B := B)
      (fun e he => List.mem_toFinset.2 (List.mem_map_of_mem he)) fun _ => 1
    simp only [mul_one] at hcomp
    exact hcomp
  have hlist : ((blockSums m p s).map fun e => e.2.toFrac) =
      ((blockSums m p s).map (·.1)).map mass := by
    rw [List.map_map]
    refine List.map_congr_left fun e he => ?_
    exact ((mem_blockSums hc).1 he).1.2
  have hnodup : ((blockSums m p s).map (·.1)).Nodup :=
    (List.pairwise_map.2 (blockSums_ascend m p s)).imp fun hlt => hlt.ne
  -- Blocks with mass zero are missing from the list and add nothing to the sum.
  rw [hexpect, hlist, ← List.sum_toFinset _ hnodup]
  refine Finset.sum_subset ?_ ?_
  · intro b hb
    obtain ⟨e, he, rfl⟩ := List.mem_map.1 (List.mem_toFinset.1 hb)
    by_contra hnot
    refine ((mem_blockSums hc).1 he).2 (Model.mass_eq_zero fun g hg hblock => hnot ?_)
    exact List.mem_toFinset.2 (List.mem_map.2 ⟨g, hg, hblock⟩)
  · intro b _ hb
    by_contra h0
    have hmem := (mem_blockSums hc).2 ⟨Model.total_denotes hc s {u | p.block u = b}, h0⟩
    exact hb (List.mem_toFinset.2 (List.mem_map.2 ⟨_, hmem, rfl⟩))

/-! ## The parts of a quotient -/

section Chain

variable {sums : ℕ → List (ℕ × RationalFunction)} {b : Builder RationalFunction} {c r : ℕ}

theorem addRepresentative_chain (hc : c < b.numStates) (hsums : ∀ e ∈ sums r, e.1 < b.numStates) :
    (addRepresentative o sums b c r).transitions =
        b.transitions ++ ((sums r).map fun e => ⟨c, e.1, e.2⟩).toArray ∧
      (addRepresentative o sums b c r).numStates = b.numStates := by
  unfold addRepresentative
  dsimp only
  rw [foldl_addTransition hc hsums, foldl_addStateLabel (by exact hc) fun l => l.2.contains r,
    foldl_addStateReward (by exact hc) fun w => w.value r]
  exact ⟨rfl, rfl⟩

/-- The transitions of a quotient are the block sums of the representatives, whatever is observed. -/
theorem quotientBuilder_chain (hsums : ∀ s, ∀ e ∈ sums s, e.1 < p.numBlocks)
    (hinitial : ∀ s ∈ m.initial, p.block s < p.numBlocks) :
    (quotientBuilder m o p sums).transitions.toList =
        Builder.transitionsOf p.numBlocks (fun c => sums (repOf p c)) ∧
      (quotientBuilder m o p sums).numStates = p.numBlocks := by
  let start : Builder RationalFunction := o.rewards.foldl (fun b w => b.addRewardModel w.name)
    (o.labels.foldl (fun b l => b.addLabel l.1) (Builder.empty.requireStates p.numBlocks))
  have hstart : start.transitions = #[] ∧ start.numStates = p.numBlocks := by
    simp only [start]
    rw [foldl_addLabel, foldl_addRewardModel]
    simp [Builder.requireStates, Builder.empty]
  let step := fun (b : Builder RationalFunction) c => addRepresentative o sums b c (repOf p c)
  -- The classes are added one after the other.
  have hclasses : ∀ k ≤ p.numBlocks, ((List.range k).foldl step start).transitions.toList =
      Builder.transitionsOf k (fun c => sums (repOf p c)) ∧
        ((List.range k).foldl step start).numStates = p.numBlocks := by
    intro k hk
    induction k with
    | zero => simp [hstart, Builder.transitionsOf]
    | succ k ih =>
      obtain ⟨htransitions, hsize⟩ := ih (by omega)
      have hrep : ∀ e ∈ sums (repOf p k), e.1 < ((List.range k).foldl step start).numStates := by
        rw [hsize]
        exact hsums _
      obtain ⟨htransitions', hsize'⟩ := addRepresentative_chain (o := o) (c := k) (by omega) hrep
      rw [List.range_succ, List.foldl_append, List.foldl_cons, List.foldl_nil]
      refine ⟨?_, hsize'.trans hsize⟩
      change (addRepresentative o sums _ k (repOf p k)).transitions.toList = _
      rw [htransitions', Array.toList_append, htransitions, Builder.transitionsOf,
        Builder.transitionsOf, List.range_succ, List.flatMap_append, List.flatMap_singleton]
  obtain ⟨htransitions, hsize⟩ := hclasses _ le_rfl
  have hfold : quotientBuilder m o p sums = m.initial.foldl (fun b s => b.addInitial (p.block s))
      ((List.range p.numBlocks).foldl step start) := by
    unfold quotientBuilder
    dsimp only
    rw [representatives_zipIdx, List.foldl_map]
  rw [hfold, foldl_addInitial (by rw [hsize]; exact hinitial)]
  exact ⟨htransitions, hsize⟩

end Chain

/-! ## The minimised model -/

theorem quotientBuilder_isSound (hc : m.IsCanonical) (ho : ∀ w ∈ o.rewards, w ∈ m.rewards)
    (p : Partition) : (quotientBuilder m o p (blockSums m p)).IsSound := by
  unfold quotientBuilder
  refine List.foldlRecOn _ _ ?_ fun b hb s _ => hb.addInitial (p.block s)
  refine List.foldlRecOn _ _ ?_ fun b hb e _ => ?_
  · refine List.foldlRecOn _ _ ?_ fun b hb w _ => hb.addRewardModel w.name
    refine List.foldlRecOn _ _ ?_ fun b hb l _ => hb.addLabel l.1
    exact Builder.isSound_empty.requireStates p.numBlocks
  · unfold addRepresentative
    refine List.foldlRecOn _ _ ?_ fun b hb w hw => hb.addStateReward w.name e.2 ?_
    · refine List.foldlRecOn _ _ ?_ fun b hb l _ => ?_
      · refine List.foldlRecOn _ _ hb fun b hb g hg => hb.addTransition e.2 g.1 ?_
        exact (blockSums_mem hc hg).1
      · split
        · exact hb.addStateLabel e.2 l.1
        · exact hb
    · exact (AllCanonical.getD (hc.reward w (ho w hw)) e.1).1

variable {preserved : Preserved} {q : Quotient RationalFunction}

/-- Every state of a quotient by a stable partition has a state of the model in its class, and as much
leaves it as this state. -/
theorem quotient_conserves (hw : m.WellFormed) (hc : m.IsCanonical) (hp : p.IsDense m.numStates)
    (h : quotient m p preserved = .ok q) :
    q.model.WellFormed ∧ q.model.IsCanonical ∧
      ∀ b < q.model.numStates, ∃ s < m.numStates, q.model.expect b 1 = m.expect s 1 := by
  have hdense : p.canonical.IsDense m.numStates := hp.size ▸ Partition.canonical_isDense hp.isBounded
  unfold quotient at h
  dsimp only at h
  split at h
  · cases h
  · rename_i o ho
    split at h
    · cases h
    · split at h
      · cases h
      · rename_i model hfinish
        cases h
        obtain ⟨-, -, hrewards⟩ := observe_spec ho
        rw [blockSums_table] at hfinish
        have hsound := quotientBuilder_isSound (o := o) hc
          (fun w hw => List.mem_of_find?_eq_some (hrewards w hw)) p.canonical
        obtain ⟨htransitions, hsize⟩ := quotientBuilder_chain (o := o)
          (fun s e he => blockSums_lt hw hc hdense he)
          fun s hs => hdense.lt s (hw.initial_lt s hs)
        refine ⟨Builder.finish_wellFormed hsound hfinish, Builder.finish_isCanonical hsound hfinish,
          fun b hb => ⟨repOf p.canonical b, ?_⟩⟩
        rw [Builder.finish_numStates hfinish] at hb
        refine ⟨(repOf_spec hdense (hb.trans_eq hsize)).1, ?_⟩
        rw [Model.expect, Builder.finish_row hfinish, Builder.sum_rowsOf hsound.value hb,
          Builder.outflow, htransitions, ← sum_blockSums hc p.canonical]
        have hfilter := Builder.filter_transitionsOf p.canonical.numBlocks b
          fun c => blockSums m p.canonical (repOf p.canonical c)
        rw [if_pos (hb.trans_eq hsize)] at hfilter
        rw [← hfilter, List.map_map]
        simp [Function.comp_def]

/-- Where the values of every row sum to one, they do in the minimised model. -/
theorem reduce_conserves (hw : m.WellFormed) (hc : m.IsCanonical)
    (hone : ∀ s < m.numStates, m.expect s 1 = 1) {kind : BisimKind} {a : Algorithm}
    (h : reduce m preserved kind a = .ok q) :
    q.model.WellFormed ∧ q.model.IsCanonical ∧ ∀ s < q.model.numStates, q.model.expect s 1 = 1 := by
  unfold reduce at h
  split at h
  · cases h
  · split at h
    · cases h
    · rename_i p c hlabel
      have hd := (a.run_spec hw hc (labelPartition_isDense hw hlabel) c).1
      obtain ⟨hwell, hcan, hexpect⟩ := quotient_conserves hw hc hd h
      refine ⟨hwell, hcan, fun b hb => ?_⟩
      obtain ⟨s, hs, heq⟩ := hexpect b hb
      exact heq.trans (hone s hs)

end Bisim
end MarkovCheck

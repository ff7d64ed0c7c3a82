import Mathlib
import MarkovCheck.Proofs.Bisim.Quotient
import MarkovCheck.Proofs.Bisim.Reduce

/-!
# MarkovCheck.Proofs.Bisim.Consistent

Minimisation never finds an inconsistent block.

Both refinements end with a stable partition of states that agree on what is preserved, also where
values cancel: then the worklist refinement may separate bisimilar states, but it never keeps states
together that differ. So no state disagrees with its representative, and the quotient is built. What
remains to go wrong is that the model does not have a preserved name.

* `Algorithm.run_spec` — what both refinements have in common.
* `quotient_ok`        — the quotient by a stable partition exists.
* `reduce_spec`        — the minimised model is a quotient.
* `reduce_consistent`  — minimisation succeeds on known names, and its partition is stable.
-/

namespace MarkovCheck
namespace Bisim

variable {m : Model RationalFunction} {o : Observed RationalFunction} {p : Partition}
  {preserved : Preserved}

/-! ## Both refinements -/

theorem IsCoarsest.isStable {q : Partition} (hw : m.WellFormed) (hc : m.IsCanonical)
    (h : IsCoarsest m p q) : IsStable m q := fun _ hs _ ht hst =>
  h.isBisimulation.sameMasses hw hc hs ht hst fun _ _ _ _ huv => huv

/-- The result of a refinement has no empty blocks, is stable, and refines the initial partition.
The refinement in rounds does not separate bisimilar states, and the worklist refinement does not
where no values cancel. -/
theorem Algorithm.run_spec (a : Algorithm) (hw : m.WellFormed) (hc : m.IsCanonical)
    (hp : p.IsDense m.numStates) (c : ValueCache RationalFunction) :
    (a.run m p c).IsDense m.numStates ∧ IsStable m (a.run m p c) ∧
      (a.run m p c).Refines p m.numStates ∧
      ((a = .worklist → m.NoCancelling) → Respects m p (a.run m p c)) := by
  cases a with
  | worklist =>
    obtain ⟨-, hd, hstable, href, hresp⟩ := refine_spec hw hc hp c
    exact ⟨hd, hstable, href, fun h => hresp (h rfl)⟩
  | rounds =>
    have hcoarsest := refineRounds_isCoarsest hw hc hp c
    exact ⟨refineRounds_isDense hw hc hp c, hcoarsest.isStable hw hc,
      hcoarsest.isBisimulation.contained, fun _ => hcoarsest.respects⟩

/-- What minimisation makes of what is observed: an initial partition by what is observed, and a
stable refinement of it. -/
theorem exists_run (a : Algorithm) (hw : m.WellFormed) (hc : m.IsCanonical)
    (ho : observe m preserved = .ok o) :
    ∃ p c, labelPartition m preserved .empty = .ok (p, c) ∧
      (a.run m p c).IsDense m.numStates ∧ IsStable m (a.run m p c) ∧
      (∀ s < m.numStates, ∀ t < m.numStates, (a.run m p c).block s = (a.run m p c).block t →
        Agree o s t) ∧
      ((a = .worklist → m.NoCancelling) → ∀ r : Setoid ℕ,
        (∀ s < m.numStates, ∀ t < m.numStates, r s t → Agree o s t) →
        (∀ s < m.numStates, ∀ t < m.numStates, r s t → ∀ u,
          m.mass s {v | r u v} = m.mass t {v | r u v}) →
        ∀ s < m.numStates, ∀ t < m.numStates, r s t →
          (a.run m p c).block s = (a.run m p c).block t) := by
  obtain ⟨p, c, hlabel, hp, hagree⟩ := labelPartition_spec hw.numStates_pos ho .empty
  obtain ⟨hd, hstable, href, hresp⟩ := a.run_spec hw hc hp.toIsDense c
  refine ⟨p, c, hlabel, hd, hstable, fun s hs t ht hst => ?_, fun ha r hr hmass => ?_⟩
  · exact (hagree s hs t ht).1 (href s hs t ht hst)
  · refine hresp ha r ⟨fun s hs t ht hst => ?_, fun s hs t ht hst u => ?_⟩
    · exact (hagree s hs t ht).2 (hr s hs t ht hst)
    · exact (Model.total_eq_iff hc).2 (hmass s hs t ht hst u)

/-! ## The quotient exists -/

theorem size_initial_foldl (b : Builder RationalFunction) (f : ℕ → ℕ) (l : List ℕ) :
    (l.foldl (fun b s => b.addInitial (f s)) b).initial.size = b.initial.size + l.length := by
  induction l generalizing b with
  | nil => rfl
  | cons s l ih =>
    rw [List.foldl_cons, ih, List.length_cons]
    simp only [Builder.addInitial, Array.size_push]
    omega

/-- The parts of a quotient are enough for a model: they have an initial state. -/
theorem quotientBuilder_finish (hw : m.WellFormed) (o : Observed RationalFunction) (p : Partition)
    (sums : ℕ → List (ℕ × RationalFunction)) :
    ∃ q, (quotientBuilder m o p sums).finish m.kind = .ok q := by
  have hsize : 0 < (quotientBuilder m o p sums).initial.size := by
    have := List.length_pos_of_ne_nil hw.initial_ne_nil
    rw [quotientBuilder, size_initial_foldl]
    omega
  refine ⟨_, if_neg ?_⟩
  rw [Array.isEmpty_iff_size_eq_zero]
  omega

/-- The quotient by a stable partition whose blocks agree on what is observed exists. -/
theorem quotient_ok (hw : m.WellFormed) (hc : m.IsCanonical) (hp : p.IsDense m.numStates)
    (hstable : IsStable m p) (ho : observe m preserved = .ok o)
    (hagree : ∀ s < m.numStates, ∀ t < m.numStates, p.block s = p.block t → Agree o s t) :
    ∃ q, quotient m p preserved = .ok q := by
  obtain ⟨q, hq⟩ := quotientBuilder_finish hw o p.canonical (blockSums m p.canonical)
  exact ⟨_, quotient_eq_of_finish hw hc hp hstable ho hagree hq⟩

/-! ## Minimisation -/

/-- With known names the minimisation succeeds, for both refinements. -/
theorem reduce_ok (a : Algorithm) (hw : m.WellFormed) (hc : m.IsCanonical)
    (h : Covers m preserved) : ∃ q, reduce m preserved .strong a = .ok q := by
  obtain ⟨o, ho⟩ := observe_ok_iff.2 h
  obtain ⟨p, c, hlabel, hd, hstable, hagree, -⟩ := exists_run a hw hc ho
  simp only [reduce, hlabel]
  exact quotient_ok hw hc hd hstable ho hagree

/-- Without them the error names what is unknown. -/
theorem reduce_error (a : Algorithm) (hw : m.WellFormed) (hc : m.IsCanonical) {e : ReductionError}
    (h : reduce m preserved .strong a = .error e) :
    (∃ name ∈ preserved.labels, e = .unknownLabel name) ∨
      ∃ name ∈ preserved.rewards, e = .unknownRewardModel name := by
  rcases ho : observe m preserved with e' | o
  · obtain rfl : e' = e := by simpa only [reduce, labelPartition, ho, Except.error.injEq] using h
    exact observe_error ho
  · obtain ⟨q, hq⟩ := reduce_ok a hw hc (observe_ok_iff.1 ⟨o, ho⟩)
    cases h.symm.trans hq

/-- Everything preserved is found when the minimisation succeeds. -/
theorem covers_of_reduce {kind : BisimKind} {a : Algorithm} {q : Quotient RationalFunction}
    (h : reduce m preserved kind a = .ok q) : Covers m preserved := by
  unfold reduce at h
  split at h
  · cases h
  · split at h
    · cases h
    · rename_i hlabel
      exact observe_ok_iff.1 (observe_of_labelPartition hlabel)

section Classes

variable (a : Algorithm) (hw : m.WellFormed) (hc : m.IsCanonical) (hlabels : preserved.labels.Nodup)
  (hrewards : preserved.rewards.Nodup)
include hw hc hlabels hrewards

/-- When everything preserved is found, the model is minimised, and the result is a quotient. -/
theorem reduce_spec (ho : observe m preserved = .ok o) :
    ∃ q c, reduce m preserved .strong a = .ok q ∧ IsQuotient m q.model o c ∧
      (∀ b, b ∈ q.model.initial ↔ ∃ s ∈ m.initial, c s = b) ∧
      ∀ s < m.numStates, q.stateMap[s]? = some (c s) := by
  obtain ⟨p, cache, hlabel, hd, hstable, hagree, -⟩ := exists_run a hw hc ho
  obtain ⟨q, hq, hmodel, hquot, hmap⟩ := quotient_spec hw hc hd hstable ho hlabels hrewards hagree
  refine ⟨q, _, ?_, hquot, fun b => ?_, fun s hs => ?_⟩
  · simp only [reduce, hlabel, hq]
  · rw [hmodel, quotientModel, Builder.mem_sortStates, List.mem_map]
  · have hsize := Partition.canonical_size hd.isBounded
    rw [hd.size] at hsize
    rw [hmap, Partition.block, Array.getElem?_eq_getElem (hs.trans_eq hsize.symm), Option.getD_some]

/-- States that are not alike are in different classes, so there are at least two. -/
theorem one_lt_numStates_of_reduce {q : Quotient RationalFunction}
    (hq : reduce m preserved .strong a = .ok q) {s t : ℕ} (hs : s < m.numStates)
    (ht : t < m.numStates) (hst : ¬ Alike preserved m s m t) : 1 < q.model.numStates := by
  obtain ⟨o, ho⟩ := observe_ok_iff.2 (covers_of_reduce hq)
  obtain ⟨q', c, hq', hquot, -⟩ := reduce_spec a hw hc hlabels hrewards ho
  obtain rfl : q' = q := Except.ok.inj (hq'.symm.trans hq)
  have hclass : c s ≠ c t := fun heq =>
    hst ((agree_iff_alike ho).1 (hquot.agree hs ht (heq ▸ ⟨fun _ _ => rfl, fun _ _ => rfl⟩)))
  have hlt := hquot.lt s hs
  have hlt' := hquot.lt t ht
  omega

end Classes

/-- For every model, also with negative or cancelling values, and both refinements: when the model has
everything that is preserved, the refined partition is stable, that is, the states of a block agree
on the total value into every block and on the preserved labels and rewards, and the minimised
model is returned. No block is ever reported to be inconsistent. -/
theorem reduce_consistent (hw : m.WellFormed) (hc : m.IsCanonical) (preserved : Preserved)
    (a : Algorithm) :
    (Covers m preserved → ∃ p c, labelPartition m preserved .empty = .ok (p, c) ∧
      (∀ s < m.numStates, ∀ t < m.numStates, (a.run m p c).block s = (a.run m p c).block t →
        (∀ b, m.total s {u | (a.run m p c).block u = b} =
          m.total t {u | (a.run m p c).block u = b}) ∧ Alike preserved m s m t) ∧
      ∃ q, quotient m (a.run m p c) preserved = .ok q ∧ reduce m preserved .strong a = .ok q) ∧
    ∀ kind b s r reason, reduce m preserved kind a ≠ .error (.inconsistentBlock b s r reason) := by
  constructor
  · intro h
    obtain ⟨o, ho⟩ := observe_ok_iff.2 h
    obtain ⟨p, c, hlabel, -, hstable, hagree, -⟩ := exists_run a hw hc ho
    refine ⟨p, c, hlabel, fun s hs t ht hst => ⟨fun b => ?_, ?_⟩, ?_⟩
    · exact (Model.total_eq_iff hc).2 (hstable s hs t ht hst b)
    · exact (agree_iff_alike ho).1 (hagree s hs t ht hst)
    · obtain ⟨q, hq⟩ := reduce_ok a hw hc h
      exact ⟨q, by simpa only [reduce, hlabel] using hq, hq⟩
  · intro kind b s r reason herror
    cases kind with
    | weak => cases herror
    | strong =>
      rcases reduce_error a hw hc herror with ⟨name, -, he⟩ | ⟨name, -, he⟩ <;> cases he

/-- A chain in which the values of two moves cancel. -/
def detour : Model RationalFunction where
  kind := .dtmc
  rows := #[[(1, .const 1), (2, .const (-1)), (3, .const 1)], [(3, .const 1)], [(3, .const 1)],
    [(3, .const 1)]]
  initial := [0]
  labeling := ⟨4, [("start", ⟨#[true, false, false, false]⟩)]⟩
  rewards := []

theorem detour_value : ∀ s, ∀ e ∈ detour.row s, e.2 = .const 1 ∨ e.2 = .const (-1) :=
  Model.forall_row
    (P := fun row : List (ℕ × RationalFunction) => ∀ e ∈ row, e.2 = .const 1 ∨ e.2 = .const (-1))
    (List.forall_mem_nil _) (by simp [detour, or_imp, forall_and])

theorem detour_isCanonical : detour.IsCanonical where
  row s e he := by
    rcases detour_value s e he with h | h <;> exact h ▸ (RationalFunction.denotes_const _).1
  reward r hr := nomatch hr

theorem detour_wellFormed : detour.WellFormed where
  targets_ascend s := by rcases s with _ | _ | _ | _ | s <;> simp [detour, Model.row]
  targets_lt s := by rcases s with _ | _ | _ | _ | s <;> simp [detour, Model.row, Model.numStates]
  values_ne_zero s e he := by
    rcases detour_value s e he with h | h <;>
      exact h ▸ RationalFunction.isZero_const_eq_false (by norm_num)
  initial_ascend := by decide
  initial_lt := by decide
  initial_ne_nil := by decide
  labeling_size := rfl
  label_size := by decide
  label_names := by decide
  reward_size := by decide
  reward_names := by decide

/-- The values of the first state of the detour cancel, and it is minimised all the same. -/
theorem detour_reduce_consistent : ¬ detour.NoCancelling ∧ ∀ a : Algorithm,
    ∃ q, reduce detour ⟨["start"], []⟩ .strong a = .ok q := by
  constructor
  · intro h
    have hsum := h 0 (by decide) [.const 1, .const (-1)] (by decide) (List.cons_ne_nil _ _)
    have hzero : (Value.sum [RationalFunction.const 1, .const (-1)]).Denotes 0 := by
      have := Value.sum_denotes (l := [RationalFunction.const 1, .const (-1)]) fun f hf => by
        rcases List.mem_pair.1 hf with rfl | rfl <;> exact (RationalFunction.denotes_const _).1
      simpa [(RationalFunction.denotes_const _).2] using this
    exact (RationalFunction.isZero_eq_false_iff hzero.1).1 hsum hzero.2
  · intro a
    have hcovers : Covers detour ⟨["start"], []⟩ :=
      ⟨by simp [detour, Labeling.states?], by simp⟩
    obtain ⟨-, -, -, -, q, -, hq⟩ :=
      (reduce_consistent detour_wellFormed detour_isCanonical ⟨["start"], []⟩ a).1 hcovers
    exact ⟨q, hq⟩

end Bisim
end MarkovCheck

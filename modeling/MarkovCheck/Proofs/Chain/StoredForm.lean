import Mathlib
import MarkovCheck.Proofs.Chain.Merge
import MarkovCheck.Proofs.Chain.StateSet

/-!
# MarkovCheck.Proofs.Chain.StoredForm

Finished models are in stored form.

Whatever is added to a builder, its states lie below the number of states, its names are declared once,
and its values are canonical if those that are added are. That is all that finishing needs: it sorts and
merges, and drops zeros.

* `Builder.IsSound`   — what holds of a builder at any time.
* `finish_wellFormed`, `finish_isCanonical` — the finished model.
-/

namespace MarkovCheck
namespace Builder

variable {b : Builder RationalFunction} {s : ℕ} {f : RationalFunction}

/-! ## The invariant -/

/-- The parts of a builder fit together. -/
structure IsSound (b : Builder RationalFunction) : Prop where
  target_lt : ∀ t ∈ b.transitions.toList, t.target < b.numStates
  value : ∀ t ∈ b.transitions.toList, t.value.IsCanonical
  initial_lt : ∀ s ∈ b.initial.toList, s < b.numStates
  label_names : (b.labels.map (·.1)).Nodup
  reward_names : (b.rewards.map (·.1)).Nodup
  reward : ∀ r ∈ b.rewards, ∀ e ∈ r.2, e.2.IsCanonical

theorem isSound_empty : (empty : Builder RationalFunction).IsSound where
  target_lt := nofun
  value := nofun
  initial_lt := nofun
  label_names := List.nodup_nil
  reward_names := List.nodup_nil
  reward := nofun

namespace IsSound

variable (h : b.IsSound)
include h

theorem requireStates (n : ℕ) : (b.requireStates n).IsSound where
  target_lt t ht := (h.target_lt t ht).trans_le (le_max_left _ _)
  value := h.value
  initial_lt s hs := (h.initial_lt s hs).trans_le (le_max_left _ _)
  label_names := h.label_names
  reward_names := h.reward_names
  reward := h.reward

theorem addTransition (s t : ℕ) (hf : f.IsCanonical) : (b.addTransition s t f).IsSound where
  target_lt u hu := by
    rw [Builder.addTransition, Array.toList_push, List.mem_append, List.mem_singleton] at hu
    change u.target < max b.numStates (max s t + 1)
    rcases hu with hu | rfl
    · have := h.target_lt u hu
      omega
    · simp
  value u hu := by
    rw [Builder.addTransition, Array.toList_push, List.mem_append, List.mem_singleton] at hu
    rcases hu with hu | rfl
    · exact h.value u hu
    · exact hf
  initial_lt u hu := (h.initial_lt u hu).trans_le (le_max_left _ _)
  label_names := h.label_names
  reward_names := h.reward_names
  reward := h.reward

theorem addInitial (s : ℕ) : (b.addInitial s).IsSound where
  target_lt u hu := (h.target_lt u hu).trans_le (le_max_left _ _)
  value := h.value
  initial_lt u hu := by
    rw [Builder.addInitial, Array.toList_push, List.mem_append, List.mem_singleton] at hu
    change u < max b.numStates (s + 1)
    rcases hu with hu | rfl
    · have := h.initial_lt u hu
      omega
    · omega
  label_names := h.label_names
  reward_names := h.reward_names
  reward := h.reward

theorem addLabel (name : String) : (b.addLabel name).IsSound where
  target_lt := h.target_lt
  value := h.value
  initial_lt := h.initial_lt
  label_names := nodup_declare name h.label_names
  reward_names := h.reward_names
  reward := h.reward

theorem addStateLabel (s : ℕ) (name : String) : (b.addStateLabel s name).IsSound where
  target_lt u hu := (h.target_lt u hu).trans_le (le_max_left _ _)
  value := h.value
  initial_lt u hu := (h.initial_lt u hu).trans_le (le_max_left _ _)
  label_names := by
    rw [Builder.addStateLabel, names_consItem]
    exact nodup_declare name h.label_names
  reward_names := h.reward_names
  reward := h.reward

theorem addRewardModel (name : String) : (b.addRewardModel name).IsSound where
  target_lt := h.target_lt
  value := h.value
  initial_lt := h.initial_lt
  label_names := h.label_names
  reward_names := nodup_declare name h.reward_names
  reward r hr e he := by
    rcases mem_declare hr with hr | rfl
    · exact h.reward r hr e he
    · cases he

theorem addStateReward (name : String) (s : ℕ) (hf : f.IsCanonical) :
    (b.addStateReward name s f).IsSound where
  target_lt u hu := (h.target_lt u hu).trans_le (le_max_left _ _)
  value := h.value
  initial_lt u hu := (h.initial_lt u hu).trans_le (le_max_left _ _)
  label_names := h.label_names
  reward_names := by
    rw [Builder.addStateReward, names_consItem]
    exact nodup_declare name h.reward_names
  reward r hr e he := by
    obtain ⟨d, hd, rfl⟩ := List.mem_map.1 hr
    have hold : ∀ e ∈ d.2, e.2.IsCanonical := by
      rcases mem_declare hd with hd | rfl
      · exact h.reward d hd
      · exact nofun
    split at he
    · rcases List.mem_cons.1 he with rfl | he
      · exact hf
      · exact hold e he
    · exact hold e he

end IsSound

/-! ## The finished model -/

section Finish

variable {V : Type} [Value V] {b : Builder V} {m : Model V} {k : ModelKind} {s : ℕ}

theorem finish_eq (h : b.finish k = .ok m) : b.initial.toList ≠ [] ∧
    m = {
      kind := k
      rows := rowsOf b.numStates b.transitions.toList
      initial := sortStates b.initial.toList
      labeling := ⟨b.numStates, b.labels.map fun l => (l.1, .ofList b.numStates l.2)⟩
      rewards := b.rewards.map fun r => ⟨r.1, rewardVector b.numStates r.2⟩ } := by
  unfold finish at h
  split at h
  · cases h
  · rename_i hne
    cases h
    exact ⟨by simpa using hne, rfl⟩

theorem finish_numStates (h : b.finish k = .ok m) : m.numStates = b.numStates := by
  obtain ⟨-, rfl⟩ := finish_eq h
  exact rowsOf_size _ _

theorem finish_row (h : b.finish k = .ok m) (s : ℕ) :
    m.row s = (rowsOf b.numStates b.transitions.toList)[s]?.getD [] := by
  obtain ⟨-, rfl⟩ := finish_eq h
  rfl

theorem row_eq_nil (h : b.finish k = .ok m) (hs : ¬ s < b.numStates) : m.row s = [] := by
  rw [Model.row, Array.getElem?_eq_none (by rw [← finish_numStates h] at hs; exact not_lt.1 hs)]
  rfl

end Finish

section StoredForm

variable {m : Model RationalFunction} {k : ModelKind}

theorem mem_row_of_finish (hb : b.IsSound) (h : b.finish k = .ok m) {e : ℕ × RationalFunction}
    (he : e ∈ m.row s) : flow b.transitions.toList s e.1 ≠ 0 ∧
      e.2.Denotes (flow b.transitions.toList s e.1) := by
  by_cases hs : s < b.numStates
  · rw [finish_row h] at he
    exact (mem_rowsOf hb.value hs).1 he
  · rw [row_eq_nil h hs] at he
    cases he

/-- The finished model is in stored form. -/
theorem finish_wellFormed (hb : b.IsSound) (h : b.finish k = .ok m) : m.WellFormed := by
  obtain ⟨hne, heq⟩ := finish_eq h
  have hsize := finish_numStates h
  constructor
  case targets_ascend =>
    intro s
    by_cases hs : s < b.numStates
    · rw [finish_row h]
      exact rowsOf_ascend hs _
    · rw [row_eq_nil h hs]
      exact .nil
  case targets_lt =>
    intro s e he
    obtain ⟨u, hu, -, htarget⟩ := exists_of_flow_ne_zero (mem_row_of_finish hb h he).1
    rw [hsize, ← htarget]
    exact hb.target_lt u hu
  case values_ne_zero =>
    intro s e he
    obtain ⟨hflow, hvalue⟩ := mem_row_of_finish hb h he
    exact (RationalFunction.isZero_eq_false_iff hvalue.1).2 (hvalue.2 ▸ hflow)
  case initial_ascend => exact heq ▸ sortStates_ascend _
  case initial_lt =>
    intro s hs
    rw [heq] at hs
    exact (hb.initial_lt s (mem_sortStates.1 hs)).trans_eq hsize.symm
  case initial_ne_nil =>
    obtain ⟨s, hs⟩ := List.exists_mem_of_ne_nil _ hne
    rw [heq]
    exact List.ne_nil_of_mem (mem_sortStates.2 hs)
  case labeling_size => exact heq ▸ hsize.symm
  case label_size =>
    intro l hl
    rw [heq] at hl
    obtain ⟨d, -, rfl⟩ := List.mem_map.1 hl
    exact (StateSet.size_ofList _ _).trans hsize.symm
  case label_names =>
    rw [heq, Labeling.names, List.map_map]
    exact hb.label_names
  case reward_size =>
    intro r hr
    rw [heq] at hr
    obtain ⟨d, -, rfl⟩ := List.mem_map.1 hr
    exact (size_rewardVector _ _).trans hsize.symm
  case reward_names =>
    rw [heq, List.map_map]
    exact hb.reward_names

theorem finish_isCanonical (hb : b.IsSound) (h : b.finish k = .ok m) : m.IsCanonical := by
  constructor
  case row =>
    intro s e he
    exact (mem_row_of_finish hb h he).2.1
  case reward =>
    intro r hr v hv
    obtain ⟨-, rfl⟩ := finish_eq h
    obtain ⟨d, hd, rfl⟩ := List.mem_map.1 hr
    rcases mem_rewardVector hv with rfl | ⟨e, he, rfl⟩
    · exact RationalFunction.denotes_zero.1
    · exact hb.reward d hd e he

end StoredForm
end Builder
end MarkovCheck

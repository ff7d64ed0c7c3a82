import Mathlib
import MarkovCheck.Proofs.Chain.Mass
import MarkovCheck.Proofs.Occurrences
import MarkovCheck.Proofs.Program.Semantics

/-!
# MarkovCheck.Proofs.Program.BreadthFirst

The order in which valuations are found.

A list of valuations that are found one after the other keeps first occurrences only. In breadth first
order it consists of the initial valuations and of the successors of all of its own entries. This
equation alone would allow entries that are their own successors, but no others can be reached: once the
successors of a beginning of the list are in it, it is the list. So the semantics of a program leave
nothing of a model open but its labels and rewards.

* `Reachable.mem_of_closed` — what can be reached.
* `IsSemantics.unique`      — the states and transitions that a program describes.
-/

namespace MarkovCheck
namespace Program

/-! ## What the semantics determine -/

variable {p : Program} {c : Context RationalFunction} {initial states states' : List (List ℤ)}
  {m m' : Model RationalFunction}

/-- Valuations from which no move leads to others contain all that can be reached. -/
theorem Reachable.mem_of_closed {l : List (List ℤ)} (hinitial : ∀ s ∈ initial, s ∈ l)
    (hclosed : ∀ s ∈ l, ∀ t ∈ p.successorsOf c s, t ∈ l) {s : List ℤ}
    (hs : p.Reachable c initial s) : s ∈ l := by
  induction hs with
  | initial hs => exact hinitial _ hs
  | move _ hchoice hus hw ih =>
    exact hclosed _ ih _ (mem_successorsOf.2 ⟨_, hchoice, _, hus, hw, rfl⟩)

namespace IsSemantics

/-- The successors of a beginning come next. -/
theorem prefix_step (h : p.IsSemantics c initial states m) {l : List (List ℤ)} (hl : l <+: states) :
    (initial ++ l.flatMap (p.successorsOf c)).eraseDups <+: states := by
  obtain ⟨r, hr⟩ := hl
  conv_rhs => rw [h.breadth_first, ← hr, List.flatMap_append, ← List.append_assoc,
    ← eraseDups_append_left]
  exact prefix_eraseDups (nodup_eraseDups _) _

theorem eq_of_closed (h : p.IsSemantics c initial states m) {l : List (List ℤ)} (hl : l <+: states)
    (hclosed : ∀ s ∈ initial ++ l.flatMap (p.successorsOf c), s ∈ l) : l = states := by
  refine hl.eq_of_length_le ((h.nodup.subperm fun s hs => ?_).length_le)
  refine Reachable.mem_of_closed (fun s hs => hclosed s (List.mem_append_left _ hs))
    (fun s hs t ht => hclosed t ?_) ((h.reachable s).1 hs)
  exact List.mem_append_right _ (List.mem_flatMap.2 ⟨s, hs, ht⟩)

theorem states_unique (h : p.IsSemantics c initial states m)
    (h' : p.IsSemantics c initial states' m') : states = states' := by
  -- A common beginning grows until it is everything.
  have hgrow : ∀ n, ∃ l, l <+: states ∧ l <+: states' ∧ (l.length = n ∨ l = states ∧ l = states') := by
    intro n
    induction n with
    | zero => exact ⟨[], List.nil_prefix, List.nil_prefix, .inl rfl⟩
    | succ n ih =>
      obtain ⟨l, hl, hl', hn | hall⟩ := ih
      · have hnext := h.prefix_step hl
        have hnext' := h'.prefix_step hl'
        rcases le_or_gt (initial ++ l.flatMap (p.successorsOf c)).eraseDups.length n with hle | hlt
        · have hclosed : ∀ s ∈ initial ++ l.flatMap (p.successorsOf c), s ∈ l := fun s hs =>
            (List.prefix_of_prefix_length_le hnext hl (hn ▸ hle)).subset (List.mem_eraseDups.2 hs)
          exact ⟨l, hl, hl', .inr ⟨h.eq_of_closed hl hclosed, h'.eq_of_closed hl' hclosed⟩⟩
        · exact ⟨_, (List.take_prefix (n + 1) _).trans hnext,
            (List.take_prefix (n + 1) _).trans hnext', .inl (List.length_take_of_le hlt)⟩
      · exact ⟨l, hl, hl', .inr hall⟩
  obtain ⟨l, hl, hl', hn | ⟨hs, hs'⟩⟩ := hgrow (states.length + 1)
  · have := hl.length_le
    omega
  · exact hs.symm.trans hs'

theorem row_unique (h : p.IsSemantics c initial states m) (h' : p.IsSemantics c initial states m')
    {i : ℕ} (hi : i < states.length) : m.row i = m'.row i := by
  have hget := List.getElem?_eq_getElem hi
  by_cases hne : p.choicesAt c states[i] = []
  · rw [h.deadlock i _ hget hne, h'.deadlock i _ hget hne]
  · refine eq_of_ascend (h.ascend i) (h'.ascend i) ?_
    rintro ⟨j, f⟩
    rw [h.transition i _ hget hne, h'.transition i _ hget hne]

/-- A program has one model, apart from labels and rewards. -/
theorem unique (h : p.IsSemantics c initial states m) (h' : p.IsSemantics c initial states' m') :
    states = states' ∧ m.initial = m'.initial ∧ m.rows = m'.rows := by
  obtain rfl := h.states_unique h'
  refine ⟨rfl, h.initial_states.trans h'.initial_states.symm, ?_⟩
  refine Array.ext (h.numStates.trans h'.numStates.symm) fun i hi hi' => ?_
  have hrow := h.row_unique h' (hi.trans_eq h.numStates)
  rwa [Model.row, Model.row, Array.getElem?_eq_getElem hi, Array.getElem?_eq_getElem hi'] at hrow

end IsSemantics
end Program
end MarkovCheck

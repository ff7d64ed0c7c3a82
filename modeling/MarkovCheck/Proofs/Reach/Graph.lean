import Mathlib
import MarkovCheck.Proofs.Chain.Predecessors
import MarkovCheck.Proofs.Chain.StateSet
import MarkovCheck.Reach.Graph

/-!
# MarkovCheck.Proofs.Reach.Graph

The backward search finds exactly the states with a path.

`PathInto` is the path relation: a state reaches the target, directly or by a transition from a state
that may be passed through. During a search every found state has a path, and the predecessors of a
found state that has left the queue are found. A visit moves a state from those not yet found to the
queue, so the search has enough rounds to empty the queue.

* `search_spec`       — the search from any moment on.
* `mem_backwardReachable`, `mem_prob0`, `mem_prob1` — the sets and the paths they stand for.
-/

namespace MarkovCheck
namespace Reach

variable {V : Type}

/-- There is a path into the target whose states before the last may be passed through. -/
inductive PathInto (m : Model V) (target through : ℕ → Prop) : ℕ → Prop where
  | here {s : ℕ} : target s → PathInto m target through s
  | step {s : ℕ} {e : ℕ × V} : through s → e ∈ m.row s → PathInto m target through e.1 →
      PathInto m target through s

/-- A path leaves every set that lies inside what it passes through and outside the target. -/
theorem PathInto.exit {m : Model V} {target through inside : ℕ → Prop} {s : ℕ}
    (h : PathInto m target through s) (ht : ∀ t, target t → ¬ inside t) :
    PathInto m (fun t => ¬ inside t) inside s := by
  induction h with
  | here h => exact .here (ht _ h)
  | @step s e _ he _ ih =>
    by_cases hs : inside s
    · exact .step hs he ih
    · exact .here hs

/-- A path that starts in a set without a way out reaches its target there. -/
theorem PathInto.target_of_closed {m : Model V} {target through : ℕ → Prop} {s : ℕ}
    (h : PathInto m target through s) (inside : ℕ → Prop) (hs : inside s)
    (hclosed : ∀ t, inside t → ∀ e ∈ m.row t, inside e.1) : ∃ t, inside t ∧ target t := by
  induction h with
  | here h => exact ⟨_, hs, h⟩
  | step _ he _ ih => exact ih (hclosed _ hs _ he)

/-- What a path passes through matters for the states of the model only. -/
theorem PathInto.mono [Value V] {m : Model V} (hw : m.WellFormed) {target through through' : ℕ → Prop} {s : ℕ}
    (h : PathInto m target through s) (hs : s < m.numStates)
    (hthrough : ∀ t < m.numStates, through t → through' t) : PathInto m target through' s := by
  induction h with
  | here h => exact .here h
  | step h he _ ih => exact .step (hthrough _ hs h) he (ih (hw.targets_lt _ _ he))

section Search

variable [Value V] {m : Model V} {n : ℕ}

/-- The states that have not been found yet. -/
def unfound (n : ℕ) (found : StateSet) : Finset ℕ :=
  (Finset.range n).filter fun s => found.contains s = false

theorem card_unfound_insert {found : StateSet} (hsize : found.bits.size = n) {s : ℕ}
    (hs : s < n) (hnot : found.contains s = false) :
    (unfound n (found.insert s)).card + 1 = (unfound n found).card := by
  have hmem : s ∈ unfound n found := Finset.mem_filter.2 ⟨Finset.mem_range.2 hs, hnot⟩
  have : unfound n (found.insert s) = (unfound n found).erase s := by
    ext t
    have := StateSet.contains_insert (a := found) (j := t) (hs.trans_eq hsize.symm)
    simp only [unfound, Finset.mem_erase, Finset.mem_filter, ← Bool.not_eq_true, this]
    tauto
  rw [this, Finset.card_erase_add_one hmem]

/-- The number of states that are queued or not found yet. -/
def Search.remaining (n : ℕ) (w : Search) : ℕ := w.queue.length + (unfound n w.found).card

theorem Search.remaining_cons (n : ℕ) (found : StateSet) (s : ℕ) (rest : List ℕ) :
    Search.remaining n ⟨found, s :: rest⟩ = Search.remaining n ⟨found, rest⟩ + 1 := by
  simp only [Search.remaining, List.length_cons]
  omega

/-- Visiting a list of states finds those that may be passed through, and queues the new ones. -/
theorem foldl_visit_spec (through : StateSet) {v : Search} (hsize : v.found.bits.size = n)
    {l : List ℕ} (hl : ∀ s ∈ l, s < n) :
    (l.foldl (visit through) v).found.bits.size = n ∧
      (∀ s, (l.foldl (visit through) v).found.contains s = true ↔
        v.found.contains s = true ∨ s ∈ l ∧ through.contains s = true) ∧
      (∀ s, s ∈ (l.foldl (visit through) v).queue ↔ s ∈ v.queue ∨
        (l.foldl (visit through) v).found.contains s = true ∧ v.found.contains s = false) ∧
      (l.foldl (visit through) v).remaining n = v.remaining n := by
  induction l generalizing v with
  | nil => exact ⟨hsize, by simp, by simp, rfl⟩
  | cons p l ih =>
    rw [List.forall_mem_cons] at hl
    rw [List.foldl_cons]
    by_cases hvisit : (through.contains p && !v.found.contains p) = true
    · rw [visit, if_pos hvisit]
      rw [Bool.and_eq_true, Bool.not_eq_true'] at hvisit
      have hins := fun s =>
        StateSet.contains_insert (a := v.found) (j := s) (hl.1.trans_eq hsize.symm)
      obtain ⟨h1, h2, h3, h4⟩ := ih (v := ⟨v.found.insert p, p :: v.queue⟩)
        ((StateSet.size_insert _ _).trans hsize) hl.2
      refine ⟨h1, fun s => ?_, fun s => ?_, ?_⟩
      · rw [h2, hins, List.mem_cons, or_assoc]
        refine or_congr_right ?_
        constructor
        · rintro (rfl | ⟨h, h'⟩)
          · exact ⟨.inl rfl, hvisit.1⟩
          · exact ⟨.inr h, h'⟩
        · rintro ⟨rfl | h, h'⟩
          · exact .inl rfl
          · exact .inr ⟨h, h'⟩
      · rw [h3, List.mem_cons, h2, ← Bool.not_eq_true, ← Bool.not_eq_true, hins]
        by_cases hsp : s = p
        · subst hsp
          simp [hvisit.2]
        · simp only [hsp, false_or, or_false]
      · -- What goes onto the queue is no longer unfound.
        have hcard := card_unfound_insert hsize hl.1 hvisit.2
        rw [Search.remaining_cons] at h4
        simp only [Search.remaining] at h4 ⊢
        omega
    · rw [visit, if_neg hvisit]
      obtain ⟨h1, h2, h3, h4⟩ := ih hsize hl.2
      refine ⟨h1, fun s => ?_, h3, h4⟩
      rw [h2, List.mem_cons]
      simp only [Bool.and_eq_true, Bool.not_eq_true', not_and, Bool.not_eq_false] at hvisit
      constructor
      · rintro (h | h)
        · exact .inl h
        · exact .inr ⟨.inr h.1, h.2⟩
      · rintro (h | ⟨rfl | h, h'⟩)
        · exact .inl h
        · exact .inl (hvisit h')
        · exact .inr ⟨h, h'⟩

/-- What holds during a search: the target is found, what is found has a path, and the predecessors
of what is found and not queued are found. -/
structure Searching (m : Model V) (target through : StateSet) (w : Search) : Prop where
  size : w.found.bits.size = m.numStates
  target_found : ∀ s, target.contains s = true → w.found.contains s = true
  queue_found : ∀ s ∈ w.queue, w.found.contains s = true
  sound : ∀ s, w.found.contains s = true →
    PathInto m (fun t => target.contains t = true) (fun t => through.contains t = true) s
  closed : ∀ s < m.numStates, through.contains s = true → ∀ e ∈ m.row s,
    w.found.contains e.1 = true → e.1 ∉ w.queue → w.found.contains s = true

theorem searching_step (hw : m.WellFormed) {target through : StateSet} {found : StateSet} {t : ℕ}
    {rest : List ℕ} (h : Searching m target through ⟨found, t :: rest⟩) :
    Searching m target through
      ((m.predecessors[t]?.getD []).foldl (visit through) ⟨found, rest⟩) := by
  obtain ⟨h1, h2, h3, -⟩ := foldl_visit_spec through (v := ⟨found, rest⟩) h.size
    (l := m.predecessors[t]?.getD []) fun s hs => Model.predecessors_lt hs
  set w := (m.predecessors[t]?.getD []).foldl (visit through) ⟨found, rest⟩
  have htlt : t < m.numStates :=
    (StateSet.lt_of_contains (h.queue_found t List.mem_cons_self)).trans_eq h.size
  constructor
  case size => exact h1
  case target_found => exact fun s hs => (h2 s).2 (.inl (h.target_found s hs))
  case queue_found =>
    intro s hs
    rcases (h3 s).1 hs with h' | h'
    · exact (h2 s).2 (.inl (h.queue_found s (List.mem_cons_of_mem t h')))
    · exact h'.1
  case sound =>
    intro s hs
    rcases (h2 s).1 hs with h' | ⟨hmem, hthrough⟩
    · exact h.sound s h'
    · obtain ⟨-, e, he, rfl⟩ := (Model.mem_predecessors hw htlt).1 hmem
      exact .step hthrough he (h.sound e.1 (h.queue_found e.1 List.mem_cons_self))
  case closed =>
    intro s hs hthrough e he hfound hnot
    rw [h3, not_or, not_and, Bool.not_eq_false] at hnot
    by_cases het : e.1 = t
    · exact (h2 s).2 (.inr ⟨(Model.mem_predecessors hw htlt).2 ⟨hs, e, he, het⟩, hthrough⟩)
    · refine (h2 s).2 (.inl (h.closed s hs hthrough e he (hnot.2 hfound) ?_))
      rw [List.mem_cons, not_or]
      exact ⟨het, hnot.1⟩

/-- A search with an empty queue has found every state with a path. -/
theorem Searching.found_of_pathInto (hw : m.WellFormed) {target through : StateSet} {w : Search}
    (h : Searching m target through w) (hqueue : w.queue = []) {s : ℕ} (hs : s < m.numStates)
    (hpath : PathInto m (fun t => target.contains t = true) (fun t => through.contains t = true) s) :
    w.found.contains s = true := by
  induction hpath with
  | here ht => exact h.target_found _ ht
  | step hthrough he _ ih =>
    exact h.closed _ hs hthrough _ he (ih (hw.targets_lt _ _ he)) (hqueue ▸ List.not_mem_nil)

/-- A search with enough rounds finds the states with a path. -/
theorem search_spec (hw : m.WellFormed) {target through : StateSet} {fuel : ℕ} {w : Search}
    (h : Searching m target through w)
    (hfuel : w.remaining m.numStates ≤ fuel) {s : ℕ}
    (hs : s < m.numStates) : (search m.predecessors through fuel w).contains s = true ↔
      PathInto m (fun t => target.contains t = true) (fun t => through.contains t = true) s := by
  induction fuel generalizing w with
  | zero =>
    obtain ⟨-, hu⟩ := Nat.add_eq_zero_iff.1 (Nat.le_zero.1 hfuel)
    rw [Finset.card_eq_zero] at hu
    have hfound : w.found.contains s = true := by
      by_contra hnot
      have : s ∈ unfound m.numStates w.found :=
        Finset.mem_filter.2 ⟨Finset.mem_range.2 hs, Bool.not_eq_true _ ▸ hnot⟩
      rw [hu] at this
      cases this
    exact ⟨fun h' => h.sound s h', fun _ => hfound⟩
  | succ fuel ih =>
    obtain ⟨found, queue⟩ := w
    cases queue with
    | nil => exact ⟨h.sound s, h.found_of_pathInto hw rfl hs⟩
    | cons t rest =>
      obtain ⟨-, -, -, hremaining⟩ := foldl_visit_spec through (v := ⟨found, rest⟩) h.size
        (l := m.predecessors[t]?.getD []) fun s hs => Model.predecessors_lt hs
      rw [Search.remaining_cons] at hfuel
      exact ih (searching_step hw h) (hremaining.trans_le (Nat.le_of_succ_le_succ hfuel))

end Search

/-! ## The sets -/

section Sets

variable [Value V] {m : Model V} {phi psi target through : StateSet} {s : ℕ}

omit [Value V] in
/-- At the begin every state is queued or not found yet. -/
theorem remaining_start (hsize : target.bits.size = m.numStates) :
    (Search.start target).remaining m.numStates = m.numStates := by
  have h1 : target.toList.length =
      ((Finset.range m.numStates).filter fun s => target.contains s = true).card := by
    rw [StateSet.toList, ← List.toFinset_card_of_nodup (List.nodup_range.filter _), hsize]
    congr 1
    ext t
    simp
  have h2 := Finset.card_filter_add_card_filter_not (s := Finset.range m.numStates)
    fun t => target.contains t = true
  rw [Finset.card_range] at h2
  simp only [Bool.not_eq_true] at h2
  rw [Search.remaining, Search.start, List.length_reverse, h1, unfound, h2]

/-- The states with a path into the target. -/
theorem mem_backwardReachable (hw : m.WellFormed) (hsize : target.bits.size = m.numStates)
    (hs : s < m.numStates) : (backwardReachable m.predecessors target through).contains s = true ↔
      PathInto m (fun t => target.contains t = true) (fun t => through.contains t = true) s := by
  have hpre : m.predecessors.size = m.numStates := Model.predecessors_size m
  have hqueue : ∀ t, t ∈ (Search.start target).queue ↔ target.contains t = true := fun t =>
    List.mem_reverse.trans StateSet.mem_toList
  refine search_spec hw ⟨hsize, fun _ h => h, fun s => (hqueue s).1, fun s h => .here h,
    fun t _ _ e _ hfound hnot => absurd ((hqueue e.1).2 hfound) hnot⟩ ?_ hs
  rw [hpre, remaining_start hsize]

theorem search_size (predecessors : Array (List ℕ)) (through : StateSet) (fuel : ℕ) (w : Search) :
    (search predecessors through fuel w).bits.size = w.found.bits.size := by
  have hvisit : ∀ (l : List ℕ) (w : Search),
      (l.foldl (visit through) w).found.bits.size = w.found.bits.size := by
    intro l
    induction l with
    | nil => exact fun _ => rfl
    | cons p l ih =>
      intro w
      rw [List.foldl_cons, ih, visit]
      split
      · exact StateSet.size_insert _ _
      · rfl
  induction fuel generalizing w with
  | zero => rfl
  | succ fuel ih =>
    rw [search]
    split
    · rfl
    · rw [ih, hvisit]

theorem backwardReachable_size (predecessors : Array (List ℕ)) (target through : StateSet) :
    (backwardReachable predecessors target through).bits.size = target.bits.size :=
  search_size predecessors through _ _

omit [Value V] in
theorem prob0_size (hsize : psi.bits.size = m.numStates) :
    (prob0 m.predecessors phi psi).bits.size = m.numStates := by
  rw [prob0, StateSet.size_compl, backwardReachable_size, hsize]

omit [Value V] in
theorem prob1_size {no : StateSet} (hsize : no.bits.size = m.numStates) :
    (prob1 m.predecessors phi psi no).bits.size = m.numStates := by
  rw [prob1, StateSet.size_compl, backwardReachable_size, hsize]

/-- The states without a path through `phi` to `psi`. -/
theorem mem_prob0 (hw : m.WellFormed) (hsize : psi.bits.size = m.numStates)
    (hs : s < m.numStates) : (prob0 m.predecessors phi psi).contains s = true ↔
      ¬ PathInto m (fun t => psi.contains t = true) (fun t => phi.contains t = true) s := by
  have hlt : s < (backwardReachable m.predecessors psi phi).bits.size := by
    rwa [backwardReachable_size, hsize]
  rw [prob0, StateSet.contains_compl hlt, Bool.not_eq_true', ← Bool.not_eq_true,
    mem_backwardReachable hw hsize hs]

/-- The states without a path through `phi` and not `psi` to a state of `no`. -/
theorem mem_prob1 (hw : m.WellFormed) (hphi : phi.bits.size = m.numStates)
    (hpsi : psi.bits.size = m.numStates) {no : StateSet} (hno : no.bits.size = m.numStates)
    (hs : s < m.numStates) : (prob1 m.predecessors phi psi no).contains s = true ↔
      ¬ PathInto m (fun t => no.contains t = true)
        (fun t => phi.contains t = true ∧ psi.contains t = false) s := by
  have hthrough : ∀ t < m.numStates, (phi.inter psi.compl).contains t = true ↔
      phi.contains t = true ∧ psi.contains t = false := by
    intro t ht
    rw [StateSet.contains_inter hphi ((StateSet.size_compl psi).trans hpsi), Bool.and_eq_true,
      StateSet.contains_compl (ht.trans_eq hpsi.symm), Bool.not_eq_true']
  have hlt : s < (backwardReachable m.predecessors no (phi.inter psi.compl)).bits.size := by
    rwa [backwardReachable_size, hno]
  rw [prob1, StateSet.contains_compl hlt, Bool.not_eq_true', ← Bool.not_eq_true,
    mem_backwardReachable hw hno hs, not_iff_not]
  exact ⟨fun h => h.mono hw hs fun t ht => (hthrough t ht).1,
    fun h => h.mono hw hs fun t ht => (hthrough t ht).2⟩

end Sets

end Reach
end MarkovCheck

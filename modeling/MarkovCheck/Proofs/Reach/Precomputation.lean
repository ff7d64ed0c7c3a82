import Mathlib
import MarkovCheck.Proofs.Reach.Qualitative

/-!
# MarkovCheck.Proofs.Reach.Precomputation

The sets that are found in the graph, in terms of paths, and the end of the searches for them.

A path is the list of its states. The relation `PathInto` follows a path from its first state, so by induction
it holds exactly of the states at which a path begins. A search takes a state off its queue in every round, and
every state is put there at most once: what is queued and what has not been found yet get fewer by one. So the
queue is empty after at most as many rounds as there are states. The bound on the rounds that the search is
given is therefore never what stops it.

* `IsPathInto`, `pathInto_iff` — paths as lists of states.
* `Rounds`             — the rounds of a search up to its end.
* `exists_rounds`      — every search ends; `Rounds.search_eq` — with the result of the bounded search.
* `precomputation_exact` — both searches end, with the sets that the paths define.
-/

namespace MarkovCheck
namespace Reach

variable {V : Type} {m : Model V} {s : ℕ} {path : List ℕ}

/-! ## Paths -/

section Paths

variable {target through : ℕ → Prop}

/-- A path of transitions from a state, whose last state is in the target and whose states before the last may
be passed through. -/
structure IsPathInto (m : Model V) (target through : ℕ → Prop) (s : ℕ) (path : List ℕ) : Prop where
  head : path.head? = some s
  transitions : path.IsChain fun a b => ∃ e ∈ m.row a, e.1 = b
  target : ∃ t ∈ path.getLast?, target t
  earlier : ∀ t ∈ path.dropLast, through t

theorem IsPathInto.singleton (h : target s) : IsPathInto m target through s [s] :=
  ⟨rfl, .singleton s, ⟨s, rfl, h⟩, by simp⟩

/-- A transition in front of a path. -/
theorem IsPathInto.cons {e : ℕ × V} (hs : through s) (he : e ∈ m.row s)
    (h : IsPathInto m target through e.1 path) : IsPathInto m target through s (s :: path) := by
  obtain ⟨hhead, htransitions, ⟨t, ht, htarget⟩, hearlier⟩ := h
  obtain ⟨rest, rfl⟩ : ∃ rest, path = e.1 :: rest := List.head?_eq_some_iff.1 hhead
  exact ⟨rfl, List.isChain_cons_cons.2 ⟨⟨e, he, rfl⟩, htransitions⟩, ⟨t, ht, htarget⟩,
    List.forall_mem_cons.2 ⟨hs, hearlier⟩⟩

theorem IsPathInto.pathInto (h : IsPathInto m target through s path) : PathInto m target through s := by
  induction path generalizing s with
  | nil => cases h.head
  | cons a path ih =>
    obtain ⟨hhead, htransitions, ⟨t, ht, htarget⟩, hearlier⟩ := h
    cases hhead
    cases path with
    | nil =>
      cases ht
      exact .here htarget
    | cons b rest =>
      obtain ⟨⟨e, he, rfl⟩, htransitions⟩ := List.isChain_cons_cons.1 htransitions
      obtain ⟨hthrough, hearlier⟩ := List.forall_mem_cons.1 hearlier
      exact .step hthrough he (ih ⟨rfl, htransitions, ⟨t, ht, htarget⟩, hearlier⟩)

/-- The states from which the relation leads into the target are those at which a path begins. -/
theorem pathInto_iff : PathInto m target through s ↔ ∃ path, IsPathInto m target through s path := by
  refine ⟨fun h => ?_, fun ⟨_, h⟩ => h.pathInto⟩
  induction h with
  | here h => exact ⟨_, .singleton h⟩
  | step hthrough he _ ih =>
    obtain ⟨path, hpath⟩ := ih
    exact ⟨_, hpath.cons hthrough he⟩

end Paths

/-! ## The end of a search -/

section Search

variable {predecessors : Array (List ℕ)} {through target : StateSet} {w : Search} {k : ℕ} {result : StateSet}

/-- The rounds of a search and its result: as long as a state is queued, it leaves the queue and its
predecessors, which are known, are visited. -/
inductive Rounds (predecessors : Array (List ℕ)) (through : StateSet) : Search → ℕ → StateSet → Prop where
  | done {found : StateSet} : Rounds predecessors through ⟨found, []⟩ 0 found
  | next {found result : StateSet} {s k : ℕ} {rest ps : List ℕ} (hs : predecessors[s]? = some ps)
      (h : Rounds predecessors through (ps.foldl (visit through) ⟨found, rest⟩) k result) :
      Rounds predecessors through ⟨found, s :: rest⟩ (k + 1) result

/-- A bound on the rounds that is large enough does not change the result. -/
theorem Rounds.search_eq (h : Rounds predecessors through w k result) {fuel : ℕ} (hfuel : k ≤ fuel) :
    search predecessors through fuel w = result := by
  induction h generalizing fuel with
  | done => cases fuel <;> rfl
  | next hs _ ih =>
    obtain ⟨fuel, rfl⟩ := Nat.exists_eq_add_of_le' (Nat.one_le_of_lt hfuel)
    rw [search]
    dsimp only
    rw [hs, Option.getD_some]
    exact ih (Nat.le_of_succ_le_succ hfuel)

/-- Every search ends, since a round takes a state off the queue and only queues states that it finds. -/
theorem exists_rounds (hsize : w.found.bits.size = m.numStates) (hqueue : ∀ s ∈ w.queue, s < m.numStates) :
    ∃ k ≤ w.remaining m.numStates, ∃ result, Rounds m.predecessors through w k result := by
  induction hn : w.remaining m.numStates generalizing w with
  | zero =>
    obtain ⟨found, queue⟩ := w
    obtain rfl : queue = [] := List.eq_nil_of_length_eq_zero (Nat.eq_zero_of_add_eq_zero_right hn)
    exact ⟨0, le_rfl, found, .done⟩
  | succ n ih =>
    obtain ⟨found, queue⟩ := w
    cases queue with
    | nil => exact ⟨0, Nat.zero_le _, found, .done⟩
    | cons s rest =>
      rw [List.forall_mem_cons] at hqueue
      have hs : m.predecessors[s]? = some (m.predecessors[s]?.getD []) := by
        rw [Array.getElem?_eq_getElem (hqueue.1.trans_eq (Model.predecessors_size m).symm), Option.getD_some]
      obtain ⟨hsize', -, hqueued, hremaining⟩ := foldl_visit_spec through (v := ⟨found, rest⟩) hsize
        (l := m.predecessors[s]?.getD []) fun p hp => Model.predecessors_lt hp
      have hqueue' : ∀ t ∈ ((m.predecessors[s]?.getD []).foldl (visit through) ⟨found, rest⟩).queue,
          t < m.numStates := by
        intro t ht
        rcases (hqueued t).1 ht with h | h
        · exact hqueue.2 t h
        · exact (StateSet.lt_of_contains h.1).trans_eq hsize'
      rw [Search.remaining_cons] at hn
      obtain ⟨k, hk, result, h⟩ := ih hsize' hqueue' (hremaining.trans (Nat.succ.inj hn))
      exact ⟨k + 1, Nat.succ_le_succ hk, result, .next hs h⟩

/-- A backward search ends with its result after at most as many rounds as there are states. -/
def SearchEnds (m : Model V) (target through : StateSet) : Prop :=
  ∃ k ≤ m.numStates, Rounds m.predecessors through (.start target) k
    (backwardReachable m.predecessors target through)

theorem searchEnds (hsize : target.bits.size = m.numStates) : SearchEnds m target through := by
  have hqueue : ∀ s ∈ (Search.start target).queue, s < m.numStates := fun s hs =>
    (StateSet.lt_of_contains (StateSet.mem_toList.1 (List.mem_reverse.1 hs))).trans_eq hsize
  obtain ⟨k, hk, result, h⟩ : ∃ k ≤ (Search.start target).remaining m.numStates, ∃ result,
      Rounds m.predecessors through (.start target) k result := exists_rounds hsize hqueue
  rw [remaining_start hsize] at hk
  have hresult : backwardReachable m.predecessors target through = result :=
    h.search_eq (hk.trans_eq (Model.predecessors_size m).symm)
  exact ⟨k, hk, hresult ▸ h⟩

end Search

/-! ## The sets -/

section Sets

variable [Value V] {phi psi : StateSet}

/-- Both searches end. The first set holds exactly the states without a path through `phi` to `psi`, the second
one exactly those without a path through `phi` outside `psi` to a state of the first set. -/
theorem precomputation_exact (hw : m.WellFormed) (hphi : phi.bits.size = m.numStates)
    (hpsi : psi.bits.size = m.numStates) :
    let no := prob0 m.predecessors phi psi
    let yes := prob1 m.predecessors phi psi no
    (SearchEnds m psi phi ∧ ∀ s, no.contains s = true ↔ s < m.numStates ∧
      ¬ ∃ path, IsPathInto m (psi.contains · = true) (phi.contains · = true) s path) ∧
    (SearchEnds m no (phi.inter psi.compl) ∧ ∀ s, yes.contains s = true ↔ s < m.numStates ∧
      ¬ ∃ path, IsPathInto m (no.contains · = true)
        (fun t => phi.contains t = true ∧ psi.contains t = false) s path) := by
  intro no yes
  have hno : no.bits.size = m.numStates := prob0_size hpsi
  have hyes : yes.bits.size = m.numStates := prob1_size hno
  refine ⟨⟨searchEnds hpsi, fun s => ?no⟩, searchEnds hno, fun s => ?yes⟩
  case no =>
    rw [← pathInto_iff]
    refine ⟨fun h => ?_, fun ⟨hs, h⟩ => (mem_prob0 hw hpsi hs).2 h⟩
    have hs := (StateSet.lt_of_contains h).trans_eq hno
    exact ⟨hs, (mem_prob0 hw hpsi hs).1 h⟩
  case yes =>
    rw [← pathInto_iff]
    refine ⟨fun h => ?_, fun ⟨hs, h⟩ => (mem_prob1 hw hphi hpsi hno hs).2 h⟩
    have hs := (StateSet.lt_of_contains h).trans_eq hyes
    exact ⟨hs, (mem_prob1 hw hphi hpsi hno hs).1 h⟩

/-- A lost game is never won, and the game from the last state is never lost. -/
theorem game_precomputation :
    let phi : StateSet := ⟨#[true, true, false, true]⟩
    let psi : StateSet := ⟨#[false, true, false, false]⟩
    let no := prob0 game.predecessors phi psi
    SearchEnds game psi phi ∧ SearchEnds game no (phi.inter psi.compl) ∧
      (¬ ∃ path, IsPathInto game (psi.contains · = true) (phi.contains · = true) 2 path) ∧
      ¬ ∃ path, IsPathInto game (no.contains · = true)
        (fun t => phi.contains t = true ∧ psi.contains t = false) 3 path := by
  intro phi psi no
  have hphi : phi.bits.size = game.numStates := rfl
  have hpsi : psi.bits.size = game.numStates := rfl
  obtain ⟨⟨hends, hno⟩, hends', hyes⟩ := precomputation_exact game_wellFormed hphi hpsi
  exact ⟨hends, hends', ((hno 2).1 (by decide +kernel)).2, ((hyes 3).1 (by decide +kernel)).2⟩

end Sets

end Reach
end MarkovCheck

import Mathlib
import MarkovCheck.Proofs.Chain.Merge
import MarkovCheck.Proofs.Program.Exploration
import MarkovCheck.Proofs.Program.Values

/-!
# MarkovCheck.Proofs.Program.Moves

The computed moves of a valuation are those of the program.

The distributions of its choices list the updates of weight other than zero, so they lead to the
successors of the program, in the same order, and their sums are the probabilities of the moves. The
builder adds up the moves between two numbered valuations, since numbers are positions.

* `nextStates_eq`, `sum_movesOf` — successors and probabilities of a valuation.
* `flow_moves`      — what the builder adds up between two states.
-/

namespace MarkovCheck

open RationalFunction

/-! ## The moves of a valuation -/

namespace Context

variable {c : Context RationalFunction} {s t : List ℤ} {L : List (List Update)}

open Classical in
theorem filterMap_outcome?_states (hc : c.constants.env.IsCanonical) (hvars : c.vars.IsResolved)
    (hs : c.vars.InRange s) (hL : ∀ us ∈ L, ∀ u ∈ us, c.UpdateEvaluates s u) :
    (L.filterMap (c.outcome? s)).map (·.1) =
      (L.filter fun us => c.weight s us ≠ 0).map (c.turn s) := by
  induction L with
  | nil => rfl
  | cons us L ih =>
    rw [List.forall_mem_cons] at hL
    rcases outcome?_spec hc hvars hs hL.1 with ⟨h0, hnone⟩ | ⟨h0, w, hsome, -⟩
    · rw [List.filterMap_cons_none hnone, List.filter_cons_of_neg (by simpa using h0), ih hL.2]
    · rw [List.filterMap_cons_some hsome, List.filter_cons_of_pos (by simpa using h0), List.map_cons,
        List.map_cons, ih hL.2]

theorem filterMap_outcome?_canonical (hc : c.constants.env.IsCanonical) (hvars : c.vars.IsResolved)
    (hs : c.vars.InRange s) (hL : ∀ us ∈ L, ∀ u ∈ us, c.UpdateEvaluates s u) :
    ∀ e ∈ L.filterMap (c.outcome? s), e.2.IsCanonical := by
  intro e he
  obtain ⟨us, hus, hsome⟩ := List.mem_filterMap.1 he
  rcases outcome?_spec hc hvars hs (hL us hus) with ⟨-, hnone⟩ | ⟨-, w, hsome', hw⟩
  · cases hnone.symm.trans hsome
  · cases hsome'.symm.trans hsome
    exact hw.1

open Classical in
theorem sum_filterMap_outcome? (hc : c.constants.env.IsCanonical) (hvars : c.vars.IsResolved)
    (hs : c.vars.InRange s) (hL : ∀ us ∈ L, ∀ u ∈ us, c.UpdateEvaluates s u) {n : ℕ} (hn : n ≠ 0)
    (t : List ℤ) :
    ((((L.filterMap (c.outcome? s)).filter fun e => e.1 = t).map fun e =>
        Exploration.scaled (Exploration.uniform? n) e.2).map toFrac).sum =
      ((L.filter fun us => c.turn s us = t).map fun us => c.weight s us / n).sum := by
  induction L with
  | nil => rfl
  | cons us L ih =>
    rw [List.forall_mem_cons] at hL
    rcases outcome?_spec hc hvars hs hL.1 with ⟨h0, hnone⟩ | ⟨-, w, hsome, hw⟩
    · rw [List.filterMap_cons_none hnone, ih hL.2, List.filter_cons]
      split
      · rw [List.map_cons, List.sum_cons, h0, zero_div, zero_add]
      · rfl
    · rw [List.filterMap_cons_some hsome]
      by_cases ht : c.turn s us = t
      · rw [List.filter_cons_of_pos (by simpa using ht), List.filter_cons_of_pos (by simpa using ht),
          List.map_cons, List.map_cons, List.map_cons, List.sum_cons, List.sum_cons, ih hL.2,
          (Exploration.scaled_denotes hn hw).2]
      · rw [List.filter_cons_of_neg (by simpa using ht), List.filter_cons_of_neg (by simpa using ht),
          ih hL.2]

end Context

namespace Program

open Exploration (movesOf movesOf_of_ne_nil nextStates distributionsAt)

variable {p : Program}

theorem flatten_choices {V : Type} [Value V] {c : Context V} {s : List ℤ} {ds : List (Distribution V)}
    (h : c.choices p.dynamics s = .ok ds) :
    ds.flatten = ((p.choicesAt c s).flatMap picks).filterMap (c.outcome? s) := by
  obtain ⟨-, -, rfl⟩ := choices_ok h
  rw [List.filterMap_flatMap]
  rfl

theorem updates_evaluate {V : Type} [Value V] {c : Context V} {s : List ℤ}
    {ds : List (Distribution V)} (h : c.choices p.dynamics s = .ok ds) :
    ∀ us ∈ (p.choicesAt c s).flatMap picks, ∀ u ∈ us, c.UpdateEvaluates s u := by
  intro us hus u hu
  obtain ⟨choice, hchoice, hpick⟩ := List.mem_flatMap.1 hus
  obtain ⟨command, hcommand, hu⟩ := exists_of_mem_picks hpick u hu
  exact (choices_ok h).2.1 choice hchoice command hcommand u hu

section Moves

variable {c : Context RationalFunction} {s : List ℤ} {ds : List (Distribution RationalFunction)}
  (hc : c.constants.env.IsCanonical) (hvars : c.vars.IsResolved) (hs : c.vars.InRange s)
  (hds : c.choices p.dynamics s = .ok ds)
include hc hvars hs hds

theorem nextStates_eq : nextStates c p.dynamics s = p.successorsOf c s := by
  have hat : distributionsAt c p.dynamics s = ds := by rw [distributionsAt, hds]
  rw [nextStates, hat, Exploration.targetsOf, flatten_choices hds,
    Context.filterMap_outcome?_states hc hvars hs (updates_evaluate hds), successorsOf]

theorem movesOf_canonical : ∀ e ∈ movesOf s ds, e.2.IsCanonical := by
  intro e he
  by_cases hnil : ds = []
  · subst hnil
    rw [List.mem_singleton.1 he]
    exact denotes_one.1
  · rw [movesOf_of_ne_nil hnil] at he
    obtain ⟨d, hd, rfl⟩ := List.mem_map.1 he
    rw [flatten_choices hds] at hd
    have hcan := Context.filterMap_outcome?_canonical hc hvars hs (updates_evaluate hds) d hd
    exact (Exploration.scaled_denotes (mt List.length_eq_zero_iff.1 hnil) hcan.denotes).1

/-- The moves to a valuation have the probability of moving to it as sum. -/
theorem sum_movesOf (hne : p.choicesAt c s ≠ []) (t : List ℤ) :
    (((movesOf s ds).filter fun e => e.1 = t).map fun e => e.2.toFrac).sum = p.moveValue c s t := by
  obtain ⟨-, -, rfl⟩ := choices_ok hds
  have hnil : (p.choicesAt c s).map (c.outcomes s) ≠ [] := mt List.map_eq_nil_iff.1 hne
  have hsum := Context.sum_filterMap_outcome? hc hvars hs (updates_evaluate hds)
    (mt List.length_eq_zero_iff.1 hne) t
  rw [moveValue, ← hsum, movesOf_of_ne_nil hnil, flatten_choices hds, List.length_map,
    List.filter_map, List.map_map, List.map_map]
  rfl

end Moves
end Program

/-! ## What the builder adds up -/

namespace Exploration

theorem filter_zipIdx_flatMap {α β : Type} (g : α → List β) {l : List α} {k i : ℕ} {a : α}
    (h : l[i]? = some a) :
    ((l.zipIdx k).flatMap fun e => (g e.1).map (e.2, ·)).filter (fun e => e.1 = k + i) =
      (g a).map (k + i, ·) := by
  -- Nothing is left of the lists for other numbers.
  have hother : ∀ (b : α) (n : ℕ), n ≠ k + i →
      ((g b).map (n, ·)).filter (fun e => e.1 = k + i) = [] := by
    intro b n hn
    rw [List.filter_map, List.map_eq_nil_iff]
    exact List.filter_eq_nil_iff.2 fun e _ => by simpa using hn
  induction l generalizing k i with
  | nil => cases h
  | cons b l ih =>
    rw [List.zipIdx_cons, List.flatMap_cons, List.filter_append]
    cases i with
    | zero =>
      obtain rfl : b = a := Option.some_inj.1 h
      have htail : ((l.zipIdx (k + 1)).flatMap fun e => (g e.1).map (e.2, ·)).filter
          (fun e => e.1 = k + 0) = [] := by
        rw [List.filter_flatMap, List.flatMap_eq_nil_iff]
        intro e he
        have hle := List.le_snd_of_mem_zipIdx he
        exact hother e.1 e.2 (by omega)
      rw [htail, List.append_nil, List.filter_eq_self.2]
      · rfl
      · intro e he
        obtain ⟨d, -, rfl⟩ := List.mem_map.1 he
        simp
    | succ i =>
      have heq : k + 1 + i = k + (i + 1) := by omega
      rw [hother b k (by omega), List.nil_append, ← heq]
      exact ih (by simpa using h) fun b n hn => heq ▸ hother b n (by omega)

variable {c : Context RationalFunction} {dynamics : Dynamics} {y : Exploration RationalFunction}
  {s t : List ℤ} {i j : ℕ}

/-- Between two states the builder has the moves between their valuations. -/
theorem flow_moves (h : y.IsExplored (movesFrom c dynamics 0 y.found)) (hi : y.found[i]? = some s)
    (hj : y.found[j]? = some t) :
    Builder.flow y.builder.transitions.toList i j =
      (((movesOf s (distributionsAt c dynamics s)).filter fun e => e.1 = t).map
        fun e => e.2.toFrac).sum := by
  have hblock := filter_zipIdx_flatMap (k := 0)
    (fun s => movesOf s (distributionsAt c dynamics s)) hi
  rw [Nat.zero_add] at hblock
  -- Numbers of targets are positions, so they tell the valuations.
  have hidx : ∀ e ∈ movesOf s (distributionsAt c dynamics s), y.found.idxOf e.1 = j ↔ e.1 = t := by
    intro e he
    have hmem : e.1 ∈ y.found := by
      refine h.targets (i, e) (List.mem_of_mem_filter (p := fun e => e.1 = i) ?_)
      rw [movesFrom, hblock]
      exact List.mem_map_of_mem he
    constructor
    · rintro rfl
      rw [List.getElem?_idxOf hmem] at hj
      exact Option.some_inj.1 hj
    · rintro rfl
      exact h.toNumbered.idxOf_eq hj
  have hkey : ∀ e : ℕ × List ℤ × RationalFunction,
      (decide ((⟨e.1, y.found.idxOf e.2.1, e.2.2⟩ : Transition RationalFunction).key =
        toLex (i, j))) = (decide (y.found.idxOf e.2.1 = j) && decide (e.1 = i)) := by
    intro e
    rw [Bool.eq_iff_iff, Bool.and_eq_true, decide_eq_true_eq, decide_eq_true_eq, decide_eq_true_eq]
    change (e.1, y.found.idxOf e.2.1) = (i, j) ↔ _
    rw [Prod.mk.injEq, and_comm]
  rw [Builder.flow, valuesAt, h.transitions, List.filter_map, List.map_map, List.map_map]
  have hfilter : (movesFrom c dynamics 0 y.found).filter
      ((fun t => decide (t.key = toLex (i, j))) ∘
        fun e => (⟨e.1, y.found.idxOf e.2.1, e.2.2⟩ : Transition RationalFunction)) =
      ((movesOf s (distributionsAt c dynamics s)).filter fun e => e.1 = t).map (i, ·) := by
    refine (List.filter_congr fun e _ => hkey e).trans ?_
    rw [← List.filter_filter, movesFrom, hblock, List.filter_map]
    refine congrArg _ (List.filter_congr fun e he => ?_)
    rw [Function.comp_apply, decide_eq_decide]
    exact hidx e he
  rw [hfilter, List.map_map]
  rfl

theorem exists_of_flow_ne_zero {moves : List (ℕ × List ℤ × RationalFunction)}
    (h : y.IsExplored moves) (hflow : Builder.flow y.builder.transitions.toList i j ≠ 0) :
    ∃ t, y.found[j]? = some t := by
  obtain ⟨u, hu, -, rfl⟩ := Builder.exists_of_flow_ne_zero hflow
  rw [h.transitions] at hu
  obtain ⟨e, he, rfl⟩ := List.mem_map.1 hu
  exact ⟨e.2.1, List.getElem?_idxOf (h.targets e he)⟩

end Exploration

end MarkovCheck

import Mathlib
import MarkovCheck.Proofs.Program.Moves
import MarkovCheck.Proofs.Program.Parameters

/-!
# MarkovCheck.Proofs.Program.Simulation

The search of a program before and after its parameters get values.

As long as no probability that is a function other than zero gets the value zero, a valuation has the
same choices and the same successors in both searches, and the probabilities become their values. So
the searches number the same valuations in the same order, and add the same transitions.

* `NonVanishingAt`      — no update of a valuation loses its probability.
* `choices_becomes`     — the distributions of the choices of a valuation.
* `Exploration.Becomes` — two searches side by side.
* `run_becomes`         — the search.
-/

namespace MarkovCheck

open RationalFunction

variable {v : Valuation} {p : Program} {c c' : Context RationalFunction} {s : List ℤ}

/-- Probabilities of updates that are not zero as functions have values other than zero. -/
def Program.NonVanishingAt (p : Program) (c : Context RationalFunction) (v : Valuation) (s : List ℤ) :
    Prop :=
  ∀ choice ∈ p.choicesAt c s, ∀ command ∈ choice, ∀ u ∈ command.updates, ∀ f,
    u.probability.evalValue (c.env s) = .ok f → f.isZero = false →
      ∃ q, f.evalAt v = .ok q ∧ q ≠ 0

/-- The same valuation, and a probability that becomes its value. -/
def OutcomeBecomes (v : Valuation) (e e' : List ℤ × RationalFunction) : Prop :=
  e'.1 = e.1 ∧ e.2.Becomes v e'.2

/-! ## Choices -/

namespace Context

section Updates

variable (h : c.Becomes v c') {u : Update} {us : List Update}
include h

theorem enabledOf_becomes {m : Module}
    (hguards : ∀ command ∈ m.commands, c.GuardEvaluates s command) (action : Option String) :
    c'.enabledOf s action m = c.enabledOf s action m := by
  refine List.filter_congr fun command hcommand => ?_
  obtain ⟨b, hb⟩ := hguards command hcommand
  rw [h.holds_eq hb]

theorem choicesAt_becomes
    (hguards : ∀ m ∈ p.modules, ∀ command ∈ m.commands, c.GuardEvaluates s command) :
    p.choicesAt c' s = p.choicesAt c s := by
  unfold Program.choicesAt
  congr 1
  · exact List.flatMap_congr fun m hm => by rw [enabledOf_becomes h (hguards m hm)]
  · refine List.flatMap_congr fun action _ => congrArg combinations ?_
    exact List.map_congr_left fun m hm => enabledOf_becomes h (hguards m (List.mem_of_mem_filter hm)) _

theorem probabilityAt_becomes (hu : c.UpdateEvaluates s u) (hu' : c'.UpdateEvaluates s u) :
    (c.probabilityAt s u).Becomes v (c'.probabilityAt s u) := by
  obtain ⟨f, hf⟩ := hu.1
  obtain ⟨g, hg⟩ := hu'.1
  rw [probabilityAt, probabilityAt, hf, hg]
  exact Expression.evalValue_becomes (h.env s) hf hg

/-- An update keeps its probability, or has none in both. -/
theorem isZero_becomes (hu : c.UpdateEvaluates s u) (hu' : c'.UpdateEvaluates s u)
    (hne : ∀ f, u.probability.evalValue (c.env s) = .ok f → f.isZero = false →
      ∃ q, f.evalAt v = .ok q ∧ q ≠ 0) :
    Value.isZero (c'.probabilityAt s u) = Value.isZero (c.probabilityAt s u) := by
  have hbecomes := probabilityAt_becomes h hu hu'
  cases hz : Value.isZero (c.probabilityAt s u) with
  | true => exact hbecomes.isZero hz
  | false =>
    obtain ⟨f, hf⟩ := hu.1
    have hat : c.probabilityAt s u = f := by rw [probabilityAt, hf]
    rw [hat] at hz hbecomes
    obtain ⟨q, hq, h0⟩ := hne f hf hz
    obtain ⟨r, hr, hg⟩ := hbecomes.evalAt
    obtain rfl : q = r := Except.ok.inj (hq.symm.trans hr)
    rw [hg]
    exact isZero_const_eq_false h0

theorem assignments_becomes {as : List (String × Expression)} {ns : List (ℕ × ℤ)}
    (has : c.assignments s as = .ok ns) : c'.assignments s as = .ok ns := by
  induction as generalizing ns with
  | nil => exact has
  | cons a as ih =>
    obtain ⟨i, w, n, ms, hfind, hn, hms, rfl⟩ := assignments_cons.1 has
    refine assignments_cons.2 ⟨i, w, n, ms, h.vars ▸ hfind, ?_, ih hms, rfl⟩
    unfold assigned? at hn ⊢
    split at hn
    · rename_i t ht
      rw [Expression.eval_mono (h.env s).scalar ht]
      exact hn
    · cases hn

theorem outcome?_becomes (hus : ∀ u ∈ us, c.UpdateEvaluates s u) (hus' : ∀ u ∈ us, c'.UpdateEvaluates s u)
    (hne : ∀ u ∈ us, ∀ f, u.probability.evalValue (c.env s) = .ok f → f.isZero = false →
      ∃ q, f.evalAt v = .ok q ∧ q ≠ 0) :
    Option.Rel (OutcomeBecomes v) (c.outcome? s us) (c'.outcome? s us) := by
  have hzero : ∀ u ∈ us, Value.isZero (c'.probabilityAt s u) = Value.isZero (c.probabilityAt s u) :=
    fun u hu => isZero_becomes h (hus u hu) (hus' u hu) (hne u hu)
  have hany : (us.any fun u => Value.isZero (c'.probabilityAt s u)) =
      us.any fun u => Value.isZero (c.probabilityAt s u) := by
    rw [Bool.eq_iff_iff, List.any_eq_true, List.any_eq_true]
    exact exists_congr fun u => and_congr_right fun hu => by rw [hzero u hu]
  unfold outcome?
  rw [hany]
  split
  · exact .none
  · rename_i hnone
    have hwrites : us.flatMap (c'.writes s) = us.flatMap (c.writes s) := by
      refine List.flatMap_congr fun u hu => ?_
      obtain ⟨ns, hns⟩ := (hus u hu).2 (Bool.eq_false_iff.2 fun hz =>
        hnone (List.any_eq_true.2 ⟨u, hu, hz⟩))
      rw [writes, writes, hns, assignments_becomes h hns]
    refine .some ⟨by rw [hwrites], ?_⟩
    -- The product of the probabilities, from the left.
    have hfold : ∀ {w w' : RationalFunction}, w.Becomes v w' →
        (us.foldl (fun w u => Value.mul w (c.probabilityAt s u)) w).Becomes v
          (us.foldl (fun w u => Value.mul w (c'.probabilityAt s u)) w') := by
      clear hzero hany hnone hwrites hne
      induction us with
      | nil => exact id
      | cons u us ih =>
        rw [List.forall_mem_cons] at hus hus'
        intro w w' hw
        exact ih hus.2 hus'.2 (hw.mul (probabilityAt_becomes h hus.1 hus'.1))
    exact hfold (becomes_one v)

end Updates

/-- The distributions of the choices of a valuation list the same valuations, and the probabilities
become their values. -/
theorem choices_becomes (h : c.Becomes v c') (hne : p.NonVanishingAt c v s)
    {ds ds' : List (Distribution RationalFunction)} (hds : c.choices p.dynamics s = .ok ds)
    (hds' : c'.choices p.dynamics s = .ok ds') :
    List.Forall₂ (List.Forall₂ (OutcomeBecomes v)) ds ds' := by
  obtain ⟨hguards, hchoices, rfl⟩ := Program.choices_ok hds
  obtain ⟨-, hchoices', rfl⟩ := Program.choices_ok hds'
  rw [choicesAt_becomes h hguards] at hchoices' ⊢
  rw [List.forall₂_map_left_iff, List.forall₂_map_right_iff, List.forall₂_same]
  intro choice hchoice
  have hupdates : ∀ us ∈ picks choice, ∀ u ∈ us, ∃ command ∈ choice, u ∈ command.updates :=
    fun us hus => exists_of_mem_picks hus
  refine List.rel_filterMap (R := fun us us' => us = us' ∧ us ∈ picks choice) ?_
    (List.forall₂_same.2 fun us hus => ⟨rfl, hus⟩)
  rintro us _ ⟨rfl, hus⟩
  refine outcome?_becomes h (fun u hu => ?_) (fun u hu => ?_) fun u hu => ?_ <;>
    obtain ⟨command, hcommand, hu⟩ := hupdates us hus u hu
  · exact hchoices choice hchoice command hcommand u hu
  · exact hchoices' choice hchoice command hcommand u hu
  · exact hne choice hchoice command hcommand u hu

end Context

/-! ## Searches -/

/-- The same states, and a value that becomes its value. -/
def TransitionBecomes (v : Valuation) (t t' : Transition RationalFunction) : Prop :=
  t'.source = t.source ∧ t'.target = t.target ∧ t.value.Becomes v t'.value

namespace Exploration

/-- A search before and after the parameters get values. -/
structure Becomes (v : Valuation) (x x' : Exploration RationalFunction) : Prop where
  states : x'.states = x.states
  numbers : x'.numbers = x.numbers
  deadlocks : x'.deadlocks = x.deadlocks
  initial : x'.builder.initial = x.builder.initial
  transitions : List.Forall₂ (TransitionBecomes v) x.builder.transitions.toList
    x'.builder.transitions.toList

variable {x x' y y' : Exploration RationalFunction} {i : ℕ} {t : List ℤ}

theorem Becomes.found (h : x.Becomes v x') : x'.found = x.found := congrArg Array.toList h.states

theorem Becomes.discover (h : x.Becomes v x') (t : List ℤ) :
    (x'.discover t).1 = (x.discover t).1 ∧ (x.discover t).2.Becomes v (x'.discover t).2 := by
  unfold Exploration.discover
  rw [h.numbers, h.states]
  split
  · exact ⟨rfl, h⟩
  · exact ⟨rfl, rfl, rfl, h.deadlocks, h.initial, h.transitions⟩

theorem Becomes.addInitial (h : x.Becomes v x') (t : List ℤ) :
    (x.addInitial t).Becomes v (x'.addInitial t) := by
  obtain ⟨hnumber, hd⟩ := h.discover t
  refine ⟨hd.states, hd.numbers, hd.deadlocks, ?_, hd.transitions⟩
  change (x'.discover t).2.builder.initial.push (x'.discover t).1 =
    (x.discover t).2.builder.initial.push (x.discover t).1
  rw [hnumber, hd.initial]

theorem Becomes.addTransition (h : x.Becomes v x') (i j : ℕ) {f g : RationalFunction}
    (hfg : f.Becomes v g) :
    ({ x with builder := x.builder.addTransition i j f } : Exploration RationalFunction).Becomes v
      { x' with builder := x'.builder.addTransition i j g } := by
  refine ⟨h.states, h.numbers, h.deadlocks, h.initial, ?_⟩
  change List.Forall₂ _ (x.builder.transitions.push _).toList (x'.builder.transitions.push _).toList
  rw [Array.toList_push, Array.toList_push]
  exact List.rel_append h.transitions (.cons ⟨rfl, rfl, hfg⟩ .nil)

theorem Becomes.move (h : x.Becomes v x') (i : ℕ) {e e' : List ℤ × RationalFunction}
    (he : OutcomeBecomes v e e') : (x.move i e).Becomes v (x'.move i e') := by
  obtain ⟨hnumber, hd⟩ := h.discover e.1
  unfold Exploration.move
  rw [he.1]
  dsimp only
  rw [hnumber]
  exact hd.addTransition i _ he.2

theorem Becomes.foldl_move (h : x.Becomes v x') (i : ℕ) {es es' : List (List ℤ × RationalFunction)}
    (hes : List.Forall₂ (OutcomeBecomes v) es es') :
    (es.foldl (Exploration.move i) x).Becomes v (es'.foldl (Exploration.move i) x') := by
  induction hes generalizing x x' with
  | nil => exact h
  | cons he _ ih => exact ih (h.move i he)

theorem scaled_becomes {n : ℕ} (hn : n ≠ 0) {f g : RationalFunction} (h : f.Becomes v g) :
    (scaled (uniform? n) f).Becomes v (scaled (uniform? n) g) := by
  obtain ⟨hf, q, hq, hg⟩ := h
  have hscaled := scaled_denotes hn hf.denotes
  have hcast : ((n : ℚ) : ℚ) ≠ 0 := Nat.cast_ne_zero.2 hn
  refine ⟨hscaled.1, q * (n : ℚ)⁻¹, ?_, ?_⟩
  · rw [hscaled.2, div_eq_mul_inv, ← map_natCast ofQ]
    exact hq.mul ((hasValue_ofQ v n).inv hcast)
  · have := scaled_denotes hn hg
    rwa [div_eq_mul_inv, ← map_natCast ofQ, ← map_inv₀, ← map_mul] at this

section Run

variable {dynamics : Dynamics} {fix : Bool}

theorem Becomes.expand (h : x.Becomes v x')
    (hchoices : ∀ ds ds', c.choices dynamics s = .ok ds → c'.choices dynamics s = .ok ds' →
      List.Forall₂ (List.Forall₂ (OutcomeBecomes v)) ds ds')
    (hy : x.expand c dynamics fix i s = .ok y) (hy' : x'.expand c' dynamics fix i s = .ok y') :
    y.Becomes v y' := by
  unfold Exploration.expand at hy hy'
  split at hy
  · cases hy
  · rename_i hds
    split at hy
    · rename_i hfix
      cases hy
      split at hy'
      · cases hy'
      · rw [if_pos hfix] at hy'
        cases hy'
        have hloop := h.addTransition i i (becomes_one v)
        exact ⟨hloop.states, hloop.numbers, congrArg (·.push i) hloop.deadlocks, hloop.initial,
          hloop.transitions⟩
      · -- A deadlock is one in both searches.
        rename_i ds' hnil hds'
        exact (hnil (List.forall₂_nil_left_iff.1 (hchoices _ _ hds hds'))).elim
    · cases hy
  · rename_i ds hnil hds
    cases hy
    split at hy'
    · cases hy'
    · rename_i hds'
      exact (hnil (List.forall₂_nil_right_iff.1 (hchoices _ _ hds hds'))).elim
    · rename_i ds' hnil' hds'
      cases hy'
      have hall := hchoices _ _ hds hds'
      have hlength : ds.length ≠ 0 := mt List.length_eq_zero_iff.1 hnil
      rw [← hall.length_eq]
      refine List.rel_foldl (P := Becomes v) (fun x x' hx d d' hd => ?_) h hall
      rw [addTransitions_eq, addTransitions_eq]
      exact hx.foldl_move i (List.rel_map (fun e e' he => ⟨he.1, scaled_becomes hlength he.2⟩) hd)

/-- Two searches stay side by side while they visit valuations in which no probability vanishes. -/
theorem run_becomes {P : List ℤ → Prop} {fuel : ℕ} {moves : List (ℕ × List ℤ × RationalFunction)}
    (hclosed : ∀ t, P t → ∀ u ∈ nextStates c dynamics t, P u)
    (hchoices : ∀ t, P t → ∀ ds ds', c.choices dynamics t = .ok ds →
      c'.choices dynamics t = .ok ds' → List.Forall₂ (List.Forall₂ (OutcomeBecomes v)) ds ds')
    (hx : x.IsExplored moves) (hP : ∀ t ∈ x.found, P t) (h : x.Becomes v x')
    (hy : run c dynamics fix fuel i x = .ok y) (hy' : run c' dynamics fix fuel i x' = .ok y') :
    y.Becomes v y' := by
  induction fuel generalizing i x x' moves with
  | zero =>
    cases hy
    cases hy'
    exact h
  | succ fuel ih =>
    simp only [run] at hy hy'
    rw [h.states] at hy'
    split at hy
    · rename_i hnone
      rw [hnone] at hy'
      cases hy
      cases hy'
      exact h
    · rename_i state hstate
      rw [hstate] at hy'
      dsimp only at hy'
      have hstate' : x.found[i]? = some state := by rwa [Exploration.found, Array.getElem?_toList]
      have hPstate := hP state (List.mem_of_getElem? hstate')
      split at hy
      · cases hy
      · rename_i z hz
        split at hy'
        · cases hy'
        · rename_i z' hz'
          obtain ⟨ds, hds, -, hexplored, hfound, -⟩ := hx.expand_ok hstate' hz
          -- What the first search finds decides what the second one visits next.
          have hat : distributionsAt c dynamics state = ds := by rw [distributionsAt, hds]
          exact ih hexplored (hfound ▸ forall_mem_eraseDups_append hP (hat ▸ hclosed state hPstate))
            (h.expand (hchoices state hPstate) hz hz') hy hy'

end Run
end Exploration
end MarkovCheck

import Mathlib
import MarkovCheck.Proofs.Program.Annotations
import MarkovCheck.Proofs.Program.Moves

/-!
# MarkovCheck.Proofs.Program.Build

The built model is what the program describes.

A build resolves constants and variables, finds the initial valuations, searches from them, and adds
labels and rewards, which change neither states nor transitions. The search looks at the successors of
the program, and all of them are within the ranges of the variables, so it finds exactly the valuations
that can be reached.

* `IsBuild`, `build_steps`  — the steps of a build.
* `initialStates_isInitial` — the initial valuations.
* `explore_spec`            — what the search finds.
* `IsModelOf`               — what the model has of the search.
* `exists_annotated_build`  — a program that can be built.
* `build_semantics`         — the built model.
-/

namespace MarkovCheck
namespace Program

open Builder (SameChain)

/-! ## The steps of a build -/

section Steps

variable {V : Type} [Value V] {p : Program} {o : BuildOptions} {m : Model V}

/-- The steps of a build, each with its result: the constants and variables, the initial valuations,
the search from them, and the builder with the selected labels and rewards. -/
structure IsBuild (p : Program) (o : BuildOptions) (c : Context V) (initial : List (List ℤ))
    (x : Exploration V) (labels : List LabelDecl) (rewards : List RewardDecl) (b : Builder V)
    (m : Model V) : Prop where
  constants : resolveConstants p o.constants = .ok c.constants
  vars : resolveVariables p c.constants = .ok c.vars
  selectLabels : p.selectLabels o = .ok labels
  selectRewards : p.selectRewards o = .ok rewards
  initialStates : p.initialStates c = .ok initial
  explore : p.explore o c initial = .ok x
  annotations : addAnnotations c labels rewards (declareNames x initial.length labels rewards)
    x.states.toList.zipIdx = .ok b
  finish : b.finish .dtmc = .ok m

theorem build_steps (h : p.build o = .ok m) :
    ∃ (c : Context V) (initial : List (List ℤ)) (x : Exploration V) (labels : List LabelDecl)
      (rewards : List RewardDecl) (b : Builder V), p.IsBuild o c initial x labels rewards b m := by
  unfold build at h
  split at h
  · cases h
  · split at h
    · cases h
    · rename_i constants hconstants
      split at h
      · cases h
      · rename_i vars hvars
        split at h
        · cases h
        · rename_i labels hlabels
          split at h
          · cases h
          · rename_i rewards hrewards
            dsimp only at h
            split at h
            · cases h
            · cases h
            · rename_i initial hne hinitial
              split at h
              · cases h
              · rename_i x hx
                split at h
                · cases h
                · rename_i b hb
                  split at h
                  · cases h
                  · rename_i m' hm
                    cases h
                    exact ⟨⟨constants, vars⟩, initial, x, labels, rewards, b, hconstants, hvars,
                      hlabels, hrewards, hinitial, hx, hb, hm⟩

/-- The first steps determine the constants, the variables and the initial valuations. -/
theorem build_steps_at {c : Context V} {initial : List (List ℤ)} (h : p.build o = .ok m)
    (hconstants : resolveConstants p o.constants = .ok c.constants)
    (hvars : resolveVariables p c.constants = .ok c.vars) (hinitial : p.initialStates c = .ok initial) :
    ∃ (x : Exploration V) (labels : List LabelDecl) (rewards : List RewardDecl) (b : Builder V),
      p.IsBuild o c initial x labels rewards b m := by
  obtain ⟨⟨constants, vars⟩, initial', x, labels, rewards, b, hb⟩ := build_steps h
  obtain rfl : c.constants = constants := Except.ok.inj (hconstants.symm.trans hb.constants)
  obtain rfl : c.vars = vars := Except.ok.inj (hvars.symm.trans hb.vars)
  obtain rfl : initial = initial' := Except.ok.inj (hinitial.symm.trans hb.initialStates)
  exact ⟨x, labels, rewards, b, hb⟩

theorem selectAll_find {α : Type} {find : String → Option α} {unknown : String → BuildError}
    {names : List String} {as : List α} (h : selectAll find unknown names = .ok as) :
    ∀ a ∈ as, ∃ name, find name = some a := by
  induction names generalizing as with
  | nil =>
    cases h
    exact fun a ha => absurd ha List.not_mem_nil
  | cons name names ih =>
    simp only [selectAll] at h
    split at h
    · cases h
    · rename_i a ha
      split at h
      · cases h
      · rename_i as has
        cases h
        exact List.forall_mem_cons.2 ⟨⟨name, ha⟩, ih has⟩

omit [Value V] in
theorem satisfying_ok {c : Context V} {e : Expression} {l states : List (List ℤ)}
    (h : satisfying c e l = .ok states) : states = l.filter (c.holds · e) := by
  induction l generalizing states with
  | nil =>
    cases h
    rfl
  | cons s l ih =>
    simp only [satisfying] at h
    split at h
    · cases h
    · rename_i b hb
      split at h
      · cases h
      · rename_i states hstates
        cases h
        have hholds : c.holds s e = b := by rw [Context.holds, hb]
        rw [ih hstates, List.filter_cons, hholds]

end Steps

section Semantics

variable {p : Program} {o : BuildOptions} {m : Model RationalFunction}
  {c : Context RationalFunction} {initial : List (List ℤ)} {x : Exploration RationalFunction}

theorem holds_iff {s : List ℤ} {e : Expression} :
    c.holds s e = true ↔ e.evalBool (c.env s) = .ok true := by
  unfold Context.holds
  cases e.evalBool (c.env s) with
  | ok b => simp
  | error err => simp

theorem initialStates_isInitial (h : p.initialStates c = .ok initial) : p.IsInitial c initial := by
  unfold initialStates at h
  split at h
  · rename_i hnone
    cases h
    exact ⟨fun _ => rfl, fun e he => nomatch hnone.symm.trans he⟩
  · rename_i e he
    have hstates := satisfying_ok h
    refine ⟨fun hnone => (nomatch hnone.symm.trans he), fun e' he' => ?_⟩
    obtain rfl : e = e' := Option.some_inj.1 (he.symm.trans he')
    subst hstates
    refine ⟨(Variables.all_ascend c.vars).filter _, fun s => ?_⟩
    rw [List.mem_filter, Variables.mem_all, holds_iff]

theorem IsInitial.inRange (h : p.IsInitial c initial) (hvars : c.vars.IsResolved) :
    ∀ s ∈ initial, c.vars.InRange s := by
  intro s hs
  cases hinit : p.init with
  | none =>
    rw [h.declared hinit] at hs
    rw [List.mem_singleton.1 hs]
    exact hvars.initial_inRange
  | some e => exact (((h.satisfying e hinit).2 s).1 hs).1

theorem IsInitial.nodup (h : p.IsInitial c initial) : initial.Nodup := by
  cases hinit : p.init with
  | none =>
    rw [h.declared hinit]
    exact List.nodup_singleton _
  | some e => exact (h.satisfying e hinit).1.imp fun hlt => hlt.ne

/-! ## The search -/

/-- Everything that holds of the valuations that a build can find. -/
structure IsFound (p : Program) (c : Context RationalFunction) (initial : List (List ℤ))
    (s : List ℤ) : Prop where
  inRange : c.vars.InRange s
  reachable : p.Reachable c initial s

theorem IsFound.nextStates (hc : c.constants.env.IsCanonical) (hvars : c.vars.IsResolved)
    {s : List ℤ} (h : p.IsFound c initial s) :
    ∀ t ∈ Exploration.nextStates c p.dynamics s, p.IsFound c initial t := by
  intro t ht
  cases hds : c.choices p.dynamics s with
  | error err =>
    rw [Exploration.nextStates, Exploration.distributionsAt, hds] at ht
    cases ht
  | ok ds =>
    rw [nextStates_eq hc hvars h.inRange hds] at ht
    obtain ⟨choice, hchoice, us, hus, hw, rfl⟩ := mem_successorsOf.1 ht
    exact ⟨c.turn_inRange hvars h.inRange us, h.reachable.move hchoice hus hw⟩

/-- The search has visited all valuations that it has found. -/
structure IsSearch (p : Program) (o : BuildOptions) (c : Context RationalFunction)
    (initial : List (List ℤ)) (x : Exploration RationalFunction) : Prop where
  explored : x.IsExplored (Exploration.movesFrom c p.dynamics 0 x.found)
  breadth_first : x.found = (initial ++ x.found.flatMap (p.successorsOf c)).eraseDups
  isFound : ∀ s ∈ x.found, p.IsFound c initial s
  canExpand : ∀ s ∈ x.found, Exploration.CanExpand c p.dynamics o.fixDeadlocks s
  initial_eq : x.builder.initial.toList = List.range initial.length

theorem explore_spec (hc : c.constants.env.IsCanonical) (hvars : c.vars.IsResolved)
    (hinitial : p.IsInitial c initial) (h : p.explore o c initial = .ok x) :
    p.IsSearch o c initial x := by
  obtain ⟨hstart, hstartFound, hstartInitial⟩ :=
    Exploration.isExplored_initial (V := RationalFunction) hinitial.nodup
  obtain ⟨hx, hfound, hP, hexpand, hbuilder⟩ := Exploration.run_ok (P := p.IsFound c initial)
    (fun l hl hall => Variables.length_le_count hl fun s hs => (hall s hs).inRange)
    (fun s hs => hs.nextStates hc hvars) hstart
    (fun s hs => by
      rw [hstartFound] at hs
      exact ⟨hinitial.inRange hvars s hs, .initial hs⟩)
    (Nat.zero_le _) (Nat.lt_succ_self _) h
  rw [List.drop_zero] at hx hfound hexpand
  refine ⟨hx, ?_, hP, hexpand, ?_⟩
  · have hnext : x.found.flatMap (Exploration.nextStates c p.dynamics) =
        x.found.flatMap (p.successorsOf c) :=
      List.flatMap_congr fun s hs => by
        obtain ⟨ds, hds, -⟩ := hexpand s hs
        exact nextStates_eq hc hvars (hP s hs).inRange hds
    rwa [hstartFound, hnext] at hfound
  · rw [hbuilder, hstartInitial]

/-- In a valuation that the search visits, everything that decides its moves has a value. -/
theorem evaluatesAt_of_choices (hc : c.constants.env.IsCanonical) {s : List ℤ}
    {ds : List (Distribution RationalFunction)} (hds : c.choices p.dynamics s = .ok ds) :
    p.EvaluatesAt c s := by
  obtain ⟨hguards, hchoices, -⟩ := choices_ok hds
  refine ⟨hguards, fun choice hchoice command hcommand u hu => ?_,
    fun choice hchoice command hcommand u hu hvalue a ha => ?_⟩
  · exact (hchoices choice hchoice command hcommand u hu).1
  · have hz : Value.isZero (c.probabilityAt s u) = false :=
      Bool.eq_false_iff.2 fun hz => hvalue ((Context.isZero_probabilityAt hc s u).1 hz)
    obtain ⟨ns, hns⟩ := (hchoices choice hchoice command hcommand u hu).2 hz
    exact Context.exists_assigned hns a ha

/-! ## The model -/

namespace IsSearch

variable (h : p.IsSearch o c initial x)
include h

theorem mem_of_reachable {s : List ℤ} (hs : p.Reachable c initial s) : s ∈ x.found := by
  have hmem : ∀ t ∈ initial ++ x.found.flatMap (p.successorsOf c), t ∈ x.found := fun t ht => by
    rwa [h.breadth_first, List.mem_eraseDups]
  refine hs.mem_of_closed (fun t ht => hmem t (List.mem_append_left _ ht)) fun s hs t ht => hmem t ?_
  exact List.mem_append_right _ (List.mem_flatMap.2 ⟨s, hs, ht⟩)

theorem initial_prefix (hinitial : p.IsInitial c initial) : initial <+: x.found :=
  h.breadth_first ▸ prefix_eraseDups hinitial.nodup _

theorem sameChain_declareNames (hinitial : p.IsInitial c initial) (labels : List LabelDecl)
    (rewards : List RewardDecl) :
    SameChain x.builder (declareNames x initial.length labels rewards) :=
  Program.sameChain_declareNames
    ((h.initial_prefix hinitial).length_le.trans_eq h.explored.numStates.symm)
    (fun s hs => (h.explored.deadlocks s hs).trans_eq h.explored.numStates.symm) labels rewards

/-- Labels and rewards leave the states and transitions of the search alone. -/
theorem sameChain_annotated (hinitial : p.IsInitial c initial) {labels : List LabelDecl}
    {rewards : List RewardDecl} {b : Builder RationalFunction}
    (hb : addAnnotations c labels rewards (declareNames x initial.length labels rewards)
      x.states.toList.zipIdx = .ok b) : SameChain x.builder b := by
  have hnames := h.sameChain_declareNames hinitial labels rewards
  refine hnames.trans (sameChain_addAnnotations (fun e he => ?_) hb)
  rw [hnames.numStates, h.explored.numStates]
  exact List.snd_lt_of_mem_zipIdx he

theorem canonical (hc : c.constants.env.IsCanonical) (hvars : c.vars.IsResolved) :
    ∀ t ∈ x.builder.transitions.toList, t.value.IsCanonical := by
  intro t ht
  rw [h.explored.transitions] at ht
  obtain ⟨e, he, rfl⟩ := List.mem_map.1 ht
  obtain ⟨⟨s, i⟩, hs, he⟩ := List.mem_flatMap.1 he
  obtain ⟨d, hd, rfl⟩ := List.mem_map.1 he
  have hs : s ∈ x.found := List.fst_mem_of_mem_zipIdx hs
  obtain ⟨ds, hds, -⟩ := h.canExpand s hs
  rw [Exploration.distributionsAt, hds] at hd
  exact movesOf_canonical hc hvars (h.isFound s hs).inRange hds d hd

/-- The builder adds up the probabilities of the moves between two valuations. -/
theorem flow_eq_moveValue (hc : c.constants.env.IsCanonical) (hvars : c.vars.IsResolved)
    {s t : List ℤ} {i j : ℕ} (hi : x.found[i]? = some s) (hj : x.found[j]? = some t)
    (hne : p.choicesAt c s ≠ []) :
    Builder.flow x.builder.transitions.toList i j = p.moveValue c s t := by
  have hs := List.mem_of_getElem? hi
  obtain ⟨ds, hds, -⟩ := h.canExpand s hs
  rw [Exploration.flow_moves h.explored hi hj, Exploration.distributionsAt, hds]
  exact sum_movesOf hc hvars (h.isFound s hs).inRange hds hne t

theorem flow_of_deadlock {s t : List ℤ} {i j : ℕ} (hi : x.found[i]? = some s)
    (hj : x.found[j]? = some t) (hnil : p.choicesAt c s = []) :
    Builder.flow x.builder.transitions.toList i j = if j = i then 1 else 0 := by
  obtain ⟨ds, hds, -⟩ := h.canExpand s (List.mem_of_getElem? hi)
  obtain rfl : ds = [] := by rw [(choices_ok hds).2.2, hnil, List.map_nil]
  have hsame : j = i ↔ s = t := by
    constructor
    · rintro rfl
      exact Option.some_inj.1 (hi.symm.trans hj)
    · rintro rfl
      rw [← h.explored.toNumbered.idxOf_eq hi, ← h.explored.toNumbered.idxOf_eq hj]
  rw [Exploration.flow_moves h.explored hi hj, Exploration.distributionsAt, hds, Exploration.movesOf]
  by_cases hst : s = t
  · rw [if_pos (hsame.2 hst), List.filter_cons_of_pos (by simpa using hst), List.filter_nil,
      List.map_singleton, List.sum_singleton]
    exact RationalFunction.denotes_one.2
  · rw [if_neg (mt hsame.1 hst), List.filter_cons_of_neg (by simpa using hst), List.filter_nil]
    rfl

end IsSearch

/-- A model has the valuations of a search as states, and what the builder adds up as rows. -/
structure IsModelOf (x : Exploration RationalFunction) (m : Model RationalFunction) : Prop where
  numStates : m.numStates = x.found.length
  initial : m.initial = Builder.sortStates x.builder.initial.toList
  ascend : ∀ i, (m.row i).Pairwise (·.1 < ·.1)
  row : ∀ i < x.found.length, ∀ j f, (j, f) ∈ m.row i ↔
    Builder.flow x.builder.transitions.toList i j ≠ 0 ∧
      f.Denotes (Builder.flow x.builder.transitions.toList i j)

theorem isModelOf_of_finish {b : Builder RationalFunction} {k : ModelKind}
    (hchain : SameChain x.builder b) (hsize : x.builder.numStates = x.found.length)
    (hcan : ∀ t ∈ x.builder.transitions.toList, t.value.IsCanonical) (h : b.finish k = .ok m) :
    IsModelOf x m := by
  unfold Builder.finish at h
  rw [hchain.numStates, hchain.transitions, hchain.initial, hsize] at h
  split at h
  · cases h
  · cases h
    refine ⟨Builder.rowsOf_size _ _, rfl, fun i => ?_, fun i hi j f => Builder.mem_rowsOf hcan hi⟩
    by_cases hi : i < x.found.length
    · exact Builder.rowsOf_ascend hi _
    · rw [Model.row, Array.getElem?_eq_none (by rw [Builder.rowsOf_size]; exact not_lt.1 hi)]
      exact .nil

/-- The entries of the matrix are what the builder adds up. -/
theorem IsModelOf.prob_denotes (hm : IsModelOf x m)
    (hcan : ∀ t ∈ x.builder.transitions.toList, t.value.IsCanonical) {i : ℕ} (hi : i < x.found.length)
    (j : ℕ) : (m.prob i j).Denotes (Builder.flow x.builder.transitions.toList i j) := by
  have hsum := Value.sum_denotes (l := valuesAt x.builder.transitions.toList (toLex (i, j)))
    fun f hf => by
      obtain ⟨t, ht, rfl⟩ := List.mem_map.1 hf
      exact hcan t (List.mem_of_mem_filter ht)
  unfold Model.prob Model.entry
  by_cases h0 : Builder.flow x.builder.transitions.toList i j = 0
  · have hnone : (m.row i).lookup j = none := by
      rw [List.lookup_eq_none_iff]
      intro e he
      rw [bne_iff_ne]
      rintro rfl
      exact ((hm.row i hi e.1 e.2).1 he).1 h0
    rw [hnone, h0]
    exact RationalFunction.denotes_zero
  · have hmem := (hm.row i hi j _).2 ⟨h0, hsum⟩
    have hnodup : ((m.row i).map (·.1)).Nodup :=
      (List.pairwise_map.2 (hm.ascend i)).imp fun hlt => hlt.ne
    rw [Builder.lookup_of_mem hnodup hmem]
    exact hsum

namespace IsSearch

variable (h : p.IsSearch o c initial x) (hm : IsModelOf x m)
include h hm

theorem initial_states : m.initial = List.range initial.length := by
  rw [hm.initial, h.initial_eq]
  exact eq_of_ascend (Builder.sortStates_ascend _) List.pairwise_lt_range fun s =>
    Builder.mem_sortStates

variable (hc : c.constants.env.IsCanonical) (hvars : c.vars.IsResolved) {s : List ℤ} {i : ℕ}
  (hi : x.found[i]? = some s)
include hi

include hc hvars in
theorem mem_row_iff (hne : p.choicesAt c s ≠ []) (j : ℕ) (f : RationalFunction) :
    (j, f) ∈ m.row i ↔
      ∃ t, x.found[j]? = some t ∧ p.moveValue c s t ≠ 0 ∧ f.Denotes (p.moveValue c s t) := by
  rw [hm.row i (List.getElem?_eq_some_iff.1 hi).1]
  constructor
  · rintro ⟨h0, hf⟩
    obtain ⟨t, ht⟩ := Exploration.exists_of_flow_ne_zero h.explored h0
    rw [h.flow_eq_moveValue hc hvars hi ht hne] at h0 hf
    exact ⟨t, ht, h0, hf⟩
  · rintro ⟨t, ht, hmove⟩
    rwa [h.flow_eq_moveValue hc hvars hi ht hne]

theorem row_of_deadlock (hnil : p.choicesAt c s = []) : m.row i = [(i, RationalFunction.one)] := by
  refine eq_of_ascend (hm.ascend i) (List.pairwise_singleton _ _) ?_
  rintro ⟨j, f⟩
  rw [hm.row i (List.getElem?_eq_some_iff.1 hi).1, List.mem_singleton, Prod.mk.injEq]
  constructor
  · rintro ⟨h0, hf⟩
    obtain ⟨t, ht⟩ := Exploration.exists_of_flow_ne_zero h.explored h0
    rw [h.flow_of_deadlock hi ht hnil] at h0 hf
    obtain rfl : j = i := by_contra fun hji => h0 (if_neg hji)
    rw [if_pos rfl] at hf
    exact ⟨rfl, hf.eq RationalFunction.denotes_one⟩
  · rintro ⟨rfl, rfl⟩
    rw [h.flow_of_deadlock hi hi hnil, if_pos rfl]
    exact ⟨one_ne_zero, RationalFunction.denotes_one⟩

end IsSearch

namespace IsBuild

variable {labels : List LabelDecl} {rewards : List RewardDecl} {b : Builder RationalFunction}
  (h : p.IsBuild o c initial x labels rewards b m)
include h

theorem isCanonical : c.constants.env.IsCanonical := resolveConstants_isCanonical h.constants

theorem isResolved : c.vars.IsResolved := resolveVariables_isResolved h.vars

theorem isInitial : p.IsInitial c initial := initialStates_isInitial h.initialStates

theorem isSearch : p.IsSearch o c initial x :=
  explore_spec h.isCanonical h.isResolved h.isInitial h.explore

theorem sameChain : SameChain x.builder b := h.isSearch.sameChain_annotated h.isInitial h.annotations

theorem numStates : b.numStates = x.found.length :=
  h.sameChain.numStates.trans h.isSearch.explored.numStates

theorem canonical : ∀ t ∈ x.builder.transitions.toList, t.value.IsCanonical :=
  h.isSearch.canonical h.isCanonical h.isResolved

theorem isModelOf : IsModelOf x m :=
  isModelOf_of_finish h.sameChain h.isSearch.explored.numStates h.canonical h.finish

/-- The initial valuations have the first numbers. -/
theorem found_of_initial {i : ℕ} {s : List ℤ} (hi : initial[i]? = some s) : x.found[i]? = some s := by
  obtain ⟨rest, hrest⟩ := h.isSearch.initial_prefix h.isInitial
  rw [← hrest, List.getElem?_append_left (List.getElem?_eq_some_iff.1 hi).1, hi]

/-- A move of probability other than zero is a transition of the model. -/
theorem exists_row {i : ℕ} {s t : List ℤ} (hi : x.found[i]? = some s) (h0 : p.moveValue c s t ≠ 0) :
    ∃ j f, x.found[j]? = some t ∧ (j, f) ∈ m.row i ∧ f.Denotes (p.moveValue c s t) := by
  obtain ⟨choice, hchoice, us, hus, hw, hturn⟩ := exists_of_moveValue_ne_zero h0
  have hreach := (h.isSearch.isFound s (List.mem_of_getElem? hi)).reachable
  obtain ⟨j, hj⟩ := List.mem_iff_getElem?.1
    (h.isSearch.mem_of_reachable (hturn ▸ hreach.move hchoice hus hw))
  have hsum := h.isModelOf.prob_denotes h.canonical (List.getElem?_eq_some_iff.1 hi).1 j
  rw [h.isSearch.flow_eq_moveValue h.isCanonical h.isResolved hi hj (List.ne_nil_of_mem hchoice)] at hsum
  refine ⟨j, m.prob i j, hj, ?_, hsum⟩
  rw [h.isSearch.mem_row_iff h.isModelOf h.isCanonical h.isResolved hi (List.ne_nil_of_mem hchoice)]
  exact ⟨t, hj, h0, hsum⟩

end IsBuild

/-- A build succeeds when the choices, labels and rewards of all valuations within the ranges are
known. -/
theorem exists_annotated_build {labels : List LabelDecl} {rewards : List RewardDecl}
    (hkind : p.kind = .dtmc) (hconstants : resolveConstants p o.constants = .ok c.constants)
    (hvars : resolveVariables p c.constants = .ok c.vars) (hlabels : p.selectLabels o = .ok labels)
    (hrewards : p.selectRewards o = .ok rewards) (hinitial : p.initialStates c = .ok initial)
    (hne : initial ≠ [])
    (hexpand : ∀ s, c.vars.InRange s → Exploration.CanExpand c p.dynamics o.fixDeadlocks s)
    (hlabel : ∀ s, c.vars.InRange s → ∀ l ∈ labels, ∃ b, l.expression.evalBool (c.env s) = .ok b)
    (hreward : ∀ s, c.vars.InRange s → ∀ r ∈ rewards, ∃ vs, rewardValues (c.env s) r.items = .ok vs) :
    ∃ m : Model RationalFunction, p.build o = .ok m := by
  have hc := resolveConstants_isCanonical hconstants
  have hv := resolveVariables_isResolved hvars
  have hinit := initialStates_isInitial hinitial
  obtain ⟨hstart, hfound, -⟩ := Exploration.isExplored_initial (V := RationalFunction) hinit.nodup
  obtain ⟨x, hx⟩ : ∃ x, p.explore o c initial = .ok x :=
    Exploration.run_isOk (P := p.IsFound c initial) (fun s hs => hs.nextStates hc hv)
      (fun s hs => hexpand s hs.inRange) hstart fun s hs => by
        rw [hfound] at hs
        exact ⟨hinit.inRange hv s hs, .initial hs⟩
  have hsearch := explore_spec hc hv hinit hx
  have hrange : ∀ e ∈ x.states.toList.zipIdx, c.vars.InRange e.1 := fun e he =>
    (hsearch.isFound e.1 (List.fst_mem_of_mem_zipIdx he)).inRange
  obtain ⟨b, hb⟩ := addAnnotations_isOk (declareNames x initial.length labels rewards)
    (fun e he => hlabel e.1 (hrange e he)) (fun e he => hreward e.1 (hrange e he))
  obtain ⟨m, hm⟩ : ∃ m, b.finish .dtmc = .ok m := by
    refine ⟨_, if_neg fun hempty => hne ?_⟩
    rw [(hsearch.sameChain_annotated hinit hb).initial, ← Array.isEmpty_toList, hsearch.initial_eq,
      List.isEmpty_iff, List.range_eq_nil] at hempty
    exact List.length_eq_zero_iff.1 hempty
  obtain ⟨s, ss, rfl⟩ := List.exists_cons_of_ne_nil hne
  refine ⟨m, ?_⟩
  simp only [build, hkind, hconstants, hvars, hlabels, hrewards, hinitial, hx, hb, hm]
  rfl

/-- For every program and options with which a model is built, the states are the valuations that can
be reached, the initial ones first and the others in breadth first order, and the transitions have the
probabilities of the moves of the program. -/
theorem build_semantics (h : p.build o = .ok m) :
    ∃ (c : Context RationalFunction) (initial states : List (List ℤ)),
      resolveConstants p o.constants = .ok c.constants ∧
        resolveVariables p c.constants = .ok c.vars ∧ p.IsInitial c initial ∧
          p.IsSemantics c initial states m ∧
            (o.fixDeadlocks = false → ∀ s ∈ states, p.choicesAt c s ≠ []) := by
  obtain ⟨c, initial, x, labels, rewards, b, h⟩ := build_steps h
  have hsearch := h.isSearch
  have hm := h.isModelOf
  refine ⟨c, initial, x.found, h.constants, h.vars, h.isInitial, ?_, fun hfix s hs hnil => ?_⟩
  · constructor
    case numStates => exact hm.numStates
    case nodup => exact hsearch.explored.nodup
    case inRange => exact fun s hs => (hsearch.isFound s hs).inRange
    case reachable =>
      exact fun s => ⟨fun hs => (hsearch.isFound s hs).reachable, hsearch.mem_of_reachable⟩
    case evaluates =>
      intro s hs
      obtain ⟨ds, hds, -⟩ := hsearch.canExpand s hs
      exact evaluatesAt_of_choices h.isCanonical hds
    case initial_first => exact hsearch.initial_prefix h.isInitial
    case initial_states => exact hsearch.initial_states hm
    case breadth_first => exact hsearch.breadth_first
    case ascend => exact hm.ascend
    case transition =>
      exact fun i s hi hne j f => hsearch.mem_row_iff hm h.isCanonical h.isResolved hi hne j f
    case deadlock => exact fun i s hi hnil => hsearch.row_of_deadlock hm hi hnil
  · -- The search would have failed at a valuation without choices.
    obtain ⟨ds, hds, hdead⟩ := hsearch.canExpand s hs
    rw [hdead (by rw [(choices_ok hds).2.2, hnil, List.map_nil])] at hfix
    cases hfix

end Semantics

/-! ## A sender and a receiver -/

open Expression (identifier int bool equals)

/-- Tosses a coin to find out whether something is to be sent. -/
def toss : Command where
  guard := (identifier "x").not
  updates := [⟨identifier "p", [("x", bool true)]⟩, ⟨int 1 - identifier "p", []⟩]

/-- What has been tossed is sent to a receiver that takes one message. -/
def relay : Program where
  constants := [⟨"p", .double, none⟩]
  modules := [
    ⟨"sender", [⟨"x", .bool, none⟩],
      [toss, ⟨some "send", identifier "x", [⟨int 1, [("x", bool false)]⟩]⟩]⟩,
    ⟨"receiver", [⟨"y", .range (int 0) (int 1), none⟩],
      [⟨some "send", equals (identifier "y") (int 0),
        [⟨int 1, [("y", identifier "y" + int 1)]⟩]⟩]⟩]

def relayContext : Context RationalFunction where
  constants := [("p", .symbolic (.param "p"))]
  vars := [⟨"x", 0, 1, true, 0⟩, ⟨"y", 0, 1, false, 0⟩]

theorem distribution_toss {s t u : List ℤ}
    (h : relayContext.applyCommands s [(s, Value.one)] [toss] =
      .ok [(t, Value.mul Value.one (.param "p")),
        (u, Value.mul Value.one (Value.sub (.const 1) (.param "p")))]) :
    ∃ d, relayContext.distribution s [toss] = .ok d := by
  have hp := RationalFunction.denotes_param "p"
  have hheads := RationalFunction.mul_spec RationalFunction.denotes_one hp
  have htails := RationalFunction.mul_spec RationalFunction.denotes_one
    (RationalFunction.sub_spec (RationalFunction.denotes_const 1) hp)
  refine ⟨_, Context.distribution_isOk h ?_ ?_⟩
  · simpa using ⟨hheads.1, htails.1⟩
  · calc _ = (RationalFunction.one.mul (.param "p")).toFrac +
          (RationalFunction.one.mul (.sub (.const 1) (.param "p"))).toFrac := by
          rw [← List.sum_pair]; rfl
      _ = 1 := by rw [hheads.2, htails.2, map_one, map_one]; ring

/-- The commands that send and receive. -/
def exchange : List Command := relay.dynamics.synchronised.flatten.flatten

theorem distribution_exchange : ∃ d, relayContext.distribution [1, 0] exchange = .ok d := by
  have hone := RationalFunction.denotes_const 1
  rw [map_one, map_one] at hone
  have hsent := RationalFunction.mul_spec (RationalFunction.mul_spec RationalFunction.denotes_one hone) hone
  refine ⟨[([0, 1], Value.mul (Value.mul Value.one (.const 1)) (.const 1))],
    Context.distribution_isOk rfl ?_ ?_⟩
  · intro e he
    rw [List.mem_singleton.1 he]
    exact hsent.1
  · calc _ = ((RationalFunction.one.mul (.const 1)).mul (.const 1)).toFrac := List.sum_singleton
      _ = 1 := by rw [hsent.2, mul_one, mul_one]

theorem relay_inRange {s : List ℤ} (hs : relayContext.vars.InRange s) :
    s = [0, 0] ∨ s = [0, 1] ∨ s = [1, 0] ∨ s = [1, 1] := by
  rw [← Variables.mem_all,
    show Variables.all relayContext.vars = [[0, 0], [0, 1], [1, 0], [1, 1]] from rfl] at hs
  simpa using hs

theorem relay_canExpand {s : List ℤ} (hs : relayContext.vars.InRange s) :
    Exploration.CanExpand relayContext relay.dynamics true s := by
  have htoss : ∀ {s d}, relayContext.distribution s [toss] = .ok d →
      toss.guard.evalBool (relayContext.env s) = .ok true →
        relayContext.allSynchronisedChoices s relay.dynamics.synchronised = .ok [] →
          relayContext.choices relay.dynamics s = .ok [d] := by
    intro s d hd hguard hsync
    have hinterleaved : relayContext.interleavedChoices s relay.dynamics.interleaved = .ok [d] := by
      change relayContext.interleavedChoices s [toss] = _
      simp only [Context.interleavedChoices, hguard, hd]
    rw [Context.choices, hinterleaved, hsync]
    rfl
  have hsend : ∀ {d}, relayContext.distribution [1, 0] exchange = .ok d →
      relayContext.choices relay.dynamics [1, 0] = .ok [d] := by
    intro d hd
    have hdistributions : relayContext.distributions [1, 0] [exchange] = .ok [d] := by
      simp only [Context.distributions, hd]
    have henabled : relayContext.synchronisedChoices [1, 0] relay.dynamics.synchronised.flatten =
        relayContext.distributions [1, 0] [exchange] := rfl
    have hsync : relayContext.allSynchronisedChoices [1, 0] relay.dynamics.synchronised = .ok [d] := by
      change relayContext.allSynchronisedChoices [1, 0] [relay.dynamics.synchronised.flatten] = _
      simp only [Context.allSynchronisedChoices, henabled, hdistributions]
      rfl
    rw [Context.choices, hsync]
    rfl
  rcases relay_inRange hs with rfl | rfl | rfl | rfl
  · obtain ⟨d, hd⟩ := distribution_toss (s := [0, 0]) (t := [1, 0]) (u := [0, 0]) rfl
    exact ⟨_, htoss hd rfl rfl, fun _ => rfl⟩
  · obtain ⟨d, hd⟩ := distribution_toss (s := [0, 1]) (t := [1, 1]) (u := [0, 1]) rfl
    exact ⟨_, htoss hd rfl rfl, fun _ => rfl⟩
  · obtain ⟨d, hd⟩ := distribution_exchange
    exact ⟨_, hsend hd, fun _ => rfl⟩
  · exact ⟨[], rfl, fun _ => rfl⟩

/-- The sender and the receiver have a model, which is what they describe. -/
theorem relay_build_semantics : ∃ m : Model RationalFunction, relay.build {} = .ok m ∧
    ∃ (c : Context RationalFunction) (initial states : List (List ℤ)),
      resolveConstants relay [] = .ok c.constants ∧
        resolveVariables relay c.constants = .ok c.vars ∧ relay.IsInitial c initial ∧
          relay.IsSemantics c initial states m ∧
            (true = false → ∀ s ∈ states, relay.choicesAt c s ≠ []) := by
  have hinitial : relay.initialStates relayContext = .ok [[0, 0]] := rfl
  obtain ⟨m, hm⟩ := exists_annotated_build (p := relay) (o := {}) rfl rfl rfl rfl rfl hinitial
    (List.cons_ne_nil _ _) (fun s hs => relay_canExpand hs) (fun _ _ _ hl => absurd hl List.not_mem_nil)
    fun _ _ _ hr => absurd hr List.not_mem_nil
  exact ⟨m, hm, build_semantics hm⟩

end Program
end MarkovCheck

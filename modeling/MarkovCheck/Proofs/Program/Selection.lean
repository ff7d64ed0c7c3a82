import Mathlib
import MarkovCheck.Proofs.Chain.StoredForm
import MarkovCheck.Proofs.Program.Instance
import MarkovCheck.Proofs.Program.Labels
import MarkovCheck.Proofs.Reach.Dependence
import MarkovCheck.Proofs.Text.Names

/-!
# MarkovCheck.Proofs.Program.Selection

Building only what properties refer to does not change their values.

Constants, variables, initial valuations and the search are the same whatever is selected, so the two
models differ in their labels and reward models only. A label means the same in both when the same
declarations of its name are selected, and so does a reward structure. By name the first declaration is
selected, without names all of them: the two selections agree on a name that is declared once. If it is
declared more than once, a label holds where any of its declarations does in the model with everything,
but only where the first one does in the other model.

* `IsBuild.states?_congr`       — labels with the same declarations.
* `IsBuild.rewards_eq`          — the reward models in terms of the valuations.
* `build_ofProperties_check`    — the values of properties in both models.
* `twoLabels_check_differs`     — a label that is declared twice.
-/

namespace MarkovCheck

/-! ## Declarations by name -/

/-- A name that occurs once belongs to one item. -/
theorem eq_of_count_le_one {α : Type} (key : α → String) {l : List α} {a a' : α}
    (h : (l.map key).count (key a) ≤ 1) (ha : a ∈ l) (ha' : a' ∈ l) (heq : key a' = key a) :
    a' = a := by
  rw [List.count, List.countP_map, List.countP_eq_length_filter] at h
  have hmem : a ∈ l.filter ((· == key a) ∘ key) := List.mem_filter.2 ⟨ha, beq_iff_eq.2 rfl⟩
  have hmem' : a' ∈ l.filter ((· == key a) ∘ key) := List.mem_filter.2 ⟨ha', beq_iff_eq.2 heq⟩
  obtain ⟨d, hd⟩ := List.length_eq_one_iff.1 (le_antisymm h (List.length_pos_of_mem hmem))
  rw [hd, List.mem_singleton] at hmem hmem'
  exact hmem'.trans hmem.symm

/-- The reward model under a name: the rewards of numbered valuations under it. -/
def Context.rewardModel {V : Type} [Value V] (c : Context V) (found : List (List ℤ))
    (rewards : List RewardDecl) (name : String) : RewardModel V :=
  ⟨name, (found.map fun s => c.rewardUnder s rewards name).toArray⟩

namespace Program

variable {p : Program} {o o' : BuildOptions} {labels labels' : List LabelDecl}
  {rewards rewards' : List RewardDecl} {name : String}

theorem mem_of_selectAll {α : Type} {find : String → Option α} {unknown : String → BuildError}
    {names : List String} {as : List α} (h : selectAll find unknown names = .ok as) :
    ∀ name ∈ names, ∃ a ∈ as, find name = some a := by
  induction names generalizing as with
  | nil => exact fun name hname => absurd hname List.not_mem_nil
  | cons other names ih =>
    simp only [selectAll] at h
    split at h
    · cases h
    · rename_i a ha
      split at h
      · cases h
      · rename_i as' has
        cases h
        rw [List.forall_mem_cons]
        refine ⟨⟨a, List.mem_cons_self, ha⟩, fun name hname => ?_⟩
        obtain ⟨d, hd, hfind⟩ := ih has name hname
        exact ⟨d, List.mem_cons_of_mem a hd, hfind⟩

/-- A label that is selected by name and declared once has the same declaration as among all labels. -/
theorem mem_selectLabels {names : List String} (h : p.selectLabels o = .ok labels)
    (ho : o.labels = some names) (hname : name ∈ names)
    (honce : (p.labels.map (·.name)).count name ≤ 1) (l : LabelDecl) (hl : l.name = name) :
    l ∈ labels ↔ l ∈ p.labels := by
  refine ⟨fun hmem => (selectLabels_ok h l hmem).1, fun hmem => ?_⟩
  unfold selectLabels at h
  rw [ho] at h
  split at h
  · cases h
  · rename_i hnone
    have hfree : isReserved name = false :=
      hl ▸ Bool.eq_false_iff.2 (List.find?_eq_none.1 hnone l hmem)
    obtain ⟨d, hd, hfind⟩ := mem_of_selectAll h name
      (List.mem_filter.2 ⟨hname, by rw [hfree, Bool.not_false]⟩)
    have hdname : d.name = name := beq_iff_eq.1 (List.find?_some hfind :)
    obtain rfl : l = d := eq_of_count_le_one LabelDecl.name (hdname ▸ honce)
      (List.mem_of_find?_eq_some hfind) hmem (hl.trans hdname.symm)
    exact hd

theorem selectLabels_all (h : p.selectLabels o = .ok labels) (ho : o.labels = none) :
    p.labels = labels := by
  unfold selectLabels at h
  rw [ho] at h
  split at h
  · cases h
  · exact Except.ok.inj h

theorem selectRewards_all (h : p.selectRewards o = .ok rewards) (ho : o.rewards = none) :
    p.rewards = rewards := by
  rw [selectRewards, ho] at h
  exact Except.ok.inj h

theorem exists_mem_selectRewards {names : List String} (h : p.selectRewards o = .ok rewards)
    (ho : o.rewards = some names) (hname : name ∈ names) :
    ∃ r ∈ rewards, r ∈ p.rewards ∧ r.name = name := by
  rw [selectRewards, ho] at h
  obtain ⟨r, hr, hfind⟩ := mem_of_selectAll h name hname
  exact ⟨r, hr, List.mem_of_find?_eq_some hfind, beq_iff_eq.1 (List.find?_some hfind :)⟩

/-! ## Two builds of one program -/

namespace IsBuild

variable {c c' : Context RationalFunction} {initial initial' : List (List ℤ)}
  {x x' : Exploration RationalFunction} {b b' : Builder RationalFunction}
  {m m' : Model RationalFunction}

/-- What is selected has no influence on the constants, the variables and the search. -/
theorem search_eq (h : p.IsBuild o c initial x labels rewards b m)
    (h' : p.IsBuild o' c' initial' x' labels' rewards' b' m') (hconstants : o.constants = o'.constants)
    (hfix : o.fixDeadlocks = o'.fixDeadlocks) : c = c' ∧ initial = initial' ∧ x = x' := by
  obtain ⟨constants, vars⟩ := c
  obtain ⟨constants', vars'⟩ := c'
  obtain rfl : constants = constants' :=
    Except.ok.inj (h.constants.symm.trans (hconstants ▸ h'.constants))
  obtain rfl : vars = vars' := Except.ok.inj (h.vars.symm.trans h'.vars)
  obtain rfl : initial = initial' := Except.ok.inj (h.initialStates.symm.trans h'.initialStates)
  have hexplore : p.explore o ⟨constants, vars⟩ initial = p.explore o' ⟨constants, vars⟩ initial := by
    rw [Program.explore, hfix, Program.explore]
  exact ⟨rfl, rfl, Except.ok.inj (h.explore.symm.trans (hexplore.trans h'.explore))⟩

/-- The transitions and initial states of the model are those of the search. -/
theorem chain_eq (h : p.IsBuild o c initial x labels rewards b m) :
    m.kind = .dtmc ∧ m.rows = Builder.rowsOf x.builder.numStates x.builder.transitions.toList ∧
      m.initial = Builder.sortStates x.builder.initial.toList ∧
        m.labeling.numStates = x.builder.numStates := by
  obtain ⟨-, heq⟩ := Builder.finish_eq h.finish
  rw [h.sameChain.numStates, h.sameChain.transitions, h.sameChain.initial] at heq
  subst heq
  exact ⟨rfl, rfl, rfl, rfl⟩

/-- A label has the same states in two models for which the same declarations of it are selected. -/
theorem states?_congr (h : p.IsBuild o c initial x labels rewards b m)
    (h' : p.IsBuild o' c initial x labels' rewards' b' m')
    (hsame : ∀ l : LabelDecl, l.name = name → (l ∈ labels ↔ l ∈ labels')) :
    m.labeling.states? name = m'.labeling.states? name := by
  obtain ⟨-, hknown, hstates⟩ := h.labels_spec
  obtain ⟨-, hknown', hstates'⟩ := h'.labels_spec
  have hnames : name ∈ labels.map (·.name) ↔ name ∈ labels'.map (·.name) := by
    simp only [List.mem_map]
    exact exists_congr fun l => and_congr_left (hsame l)
  have hsome : (m.labeling.states? name).isSome = (m'.labeling.states? name).isSome := by
    rw [Bool.eq_iff_iff, hknown, hknown', hnames]
  cases hT : m.labeling.states? name with
  | none =>
    rw [hT, Option.isSome_none, eq_comm, Option.isSome_eq_false_iff, Option.isNone_iff_eq_none] at hsome
    exact hsome.symm
  | some T =>
    rw [hT, Option.isSome_some, eq_comm, Option.isSome_iff_exists] at hsome
    obtain ⟨T', hT'⟩ := hsome
    have hsize := ((Builder.states?_finish h.finish).2 name T hT).1.trans h.numStates
    have hsize' := ((Builder.states?_finish h'.finish).2 name T' hT').1.trans h'.numStates
    rw [hT', StateSet.ext_of_contains (hsize.trans hsize'.symm)]
    intro i hi
    have hget := List.getElem?_eq_getElem (hi.trans_eq hsize)
    rw [Bool.eq_iff_iff, hstates name T hT i _ hget, hstates' name T' hT' i _ hget]
    refine or_congr_right (exists_congr fun l => ?_)
    constructor
    · rintro ⟨hmem, hname, hholds⟩
      exact ⟨(hsame l hname).1 hmem, hname, hholds⟩
    · rintro ⟨hmem, hname, hholds⟩
      exact ⟨(hsame l hname).2 hmem, hname, hholds⟩

/-- The reward models are determined by their names and the selected structures. -/
theorem rewards_eq (h : p.IsBuild o c initial x labels rewards b m) :
    m.rewards = (m.rewards.map (·.name)).map (c.rewardModel x.found rewards) := by
  obtain ⟨-, -, hvalue⟩ := h.rewardModels
  have hsize : ∀ r ∈ m.rewards, r.values.size = x.found.length := fun r hr => by
    obtain ⟨-, heq⟩ := Builder.finish_eq h.finish
    rw [heq] at hr
    obtain ⟨e, -, rfl⟩ := List.mem_map.1 hr
    exact (Builder.size_rewardVector _ _).trans h.numStates
  rw [List.map_map]
  refine ((List.map_congr_left fun r hr => ?_).trans (List.map_id _)).symm
  have hvalues : (x.found.map fun s => c.rewardUnder s rewards r.name).toArray = r.values := by
    refine Array.ext (by rw [List.size_toArray, List.length_map, hsize r hr]) fun i hi hi' => ?_
    have hget := List.getElem?_eq_getElem (hi'.trans_eq (hsize r hr))
    have hr := hvalue r hr i _ hget
    rw [RewardModel.value, Array.getElem?_eq_getElem hi', Option.getD_some] at hr
    rw [hr, List.getElem_toArray, List.getElem_map]
  exact congrArg (RewardModel.mk r.name) hvalues

/-- With the same structures selected, the reward models are the same. -/
theorem rewards_congr (h : p.IsBuild o c initial x labels rewards b m)
    (h' : p.IsBuild o' c initial x labels' rewards b' m') : m.rewards = m'.rewards := by
  rw [h.rewards_eq, h'.rewards_eq, h.rewardModels.1, h'.rewardModels.1]

/-- The reward model under the name of a selected structure. -/
theorem rewardModel?_eq (h : p.IsBuild o c initial x labels rewards b m) {r : RewardDecl}
    (hr : r ∈ rewards) : m.rewardModel? r.name = some (c.rewardModel x.found rewards r.name) := by
  have hmem : r.name ∈ m.rewards.map (·.name) := by
    rw [h.rewardModels.1]
    exact (Builder.names_foldl_declare (fun r : RewardDecl => r.name) rewards
      (show (([] : List (String × List (ℕ × RationalFunction))).map (·.1)).Nodup from
        List.nodup_nil)).2 _ (.inr (List.mem_map_of_mem hr))
  obtain ⟨y, hy⟩ := Option.isSome_iff_exists.1
    (List.find?_isSome (p := (· == r.name)).2 ⟨_, hmem, beq_self_eq_true _⟩)
  obtain rfl : y = r.name := beq_iff_eq.1 (List.find?_some hy :)
  rw [Model.rewardModel?, h.rewards_eq, List.find?_map]
  exact congrArg _ hy

/-- A structure whose name no other selected one has gives the same reward model whatever else is selected. -/
theorem rewardModel?_congr (h : p.IsBuild o c initial x labels rewards b m)
    (h' : p.IsBuild o' c initial x labels' rewards' b' m') {r : RewardDecl} (hr : r ∈ rewards)
    (hr' : r ∈ rewards') (honly : ∀ d ∈ rewards, d.name = r.name → d = r)
    (honly' : ∀ d ∈ rewards', d.name = r.name → d = r) :
    m.rewardModel? r.name = m'.rewardModel? r.name := by
  rw [h.rewardModel?_eq hr, h'.rewardModel?_eq hr']
  refine congrArg (fun values : List RationalFunction => some (RewardModel.mk r.name values.toArray))
    (List.map_congr_left fun s _ => ?_)
  rw [Context.rewardUnder_eq hr honly, Context.rewardUnder_eq hr' honly']

end IsBuild

/-- A model with the states and transitions of a model of a program is one, too. -/
theorem IsSemantics.congr {c : Context RationalFunction} {initial states : List (List ℤ)}
    {m m' : Model RationalFunction} (h : p.IsSemantics c initial states m) (hrows : m.rows = m'.rows)
    (hinitial : m.initial = m'.initial) : p.IsSemantics c initial states m' := by
  obtain ⟨kind, rows, start, labeling, rewards⟩ := m
  obtain rfl : rows = m'.rows := hrows
  obtain rfl : start = m'.initial := hinitial
  exact ⟨h.numStates, h.nodup, h.inRange, h.reachable, h.evaluates, h.initial_first, h.initial_states,
    h.breadth_first, h.ascend, h.transition, h.deadlock⟩

/-- A model with only the labels and reward structures that properties refer to is the model with all
of them, as far as the properties are concerned: it has the same states, transitions and initial states,
and every one of the properties has the same values, or the same error, provided that no label of it is
declared twice, and no reward structure that is selected by the name in it. -/
theorem build_ofProperties_check {ps : List Property} {m m' : Model RationalFunction}
    (h : p.build (.ofProperties ps) = .ok m) (h' : p.build {} = .ok m') :
    (m.kind = m'.kind ∧ m.rows = m'.rows ∧ m.initial = m'.initial) ∧
      (∃ (c : Context RationalFunction) (initial states : List (List ℤ)),
        p.IsSemantics c initial states m ∧ p.IsSemantics c initial states m') ∧
        ∀ phi ∈ ps, (∀ name ∈ phi.labels, (p.labels.map (·.name)).count name ≤ 1) →
          (ps.any BuildOptions.isUnnamedReward = false →
            ∀ name ∈ phi.rewardNames, (p.rewards.map (·.name)).count name ≤ 1) →
              Reach.check m phi = Reach.check m' phi := by
  obtain ⟨c, initial, states, -, -, -, hsemantics, -⟩ := build_semantics h
  obtain ⟨c₁, initial₁, x, labels, rewards, b, hb⟩ := build_steps h
  obtain ⟨c₂, initial₂, x₂, labels', rewards', b', hb'⟩ := build_steps h'
  obtain ⟨rfl, rfl, rfl⟩ := hb.search_eq hb' rfl rfl
  obtain ⟨hkind, hrows, hinitial, hsize⟩ := hb.chain_eq
  obtain ⟨hkind', hrows', hinitial', hsize'⟩ := hb'.chain_eq
  have hrows : m.rows = m'.rows := hrows.trans hrows'.symm
  have hinitial : m.initial = m'.initial := hinitial.trans hinitial'.symm
  obtain rfl : p.labels = labels' := selectLabels_all hb'.selectLabels rfl
  obtain rfl : p.rewards = rewards' := selectRewards_all hb'.selectRewards rfl
  refine ⟨⟨hkind.trans hkind'.symm, hrows, hinitial⟩,
    ⟨c, initial, states, hsemantics, hsemantics.congr hrows hinitial⟩, fun phi hphi hlabels hrewards => ?_⟩
  refine Reach.check_congr ⟨hrows, hsize.trans hsize'.symm, fun name hname => ?_, ?_⟩
  · have hselected : name ∈ sortNames (ps.flatMap Property.labels) :=
      mem_sortNames.2 (List.mem_flatMap.2 ⟨phi, hphi, hname⟩)
    exact hb.states?_congr hb' (mem_selectLabels hb.selectLabels rfl hselected (hlabels name hname))
  · rintro name target rfl
    cases hany : ps.any BuildOptions.isUnnamedReward with
    | true =>
      obtain rfl : p.rewards = rewards := selectRewards_all hb.selectRewards (if_pos hany)
      exact Reach.selectReward_congr (hb.rewards_congr hb') name
    | false =>
      cases name with
      | none => exact absurd rfl (List.any_eq_false.1 hany _ hphi)
      | some name =>
        have ho : (BuildOptions.ofProperties ps).rewards =
            some (sortNames (ps.flatMap Property.rewardNames)) :=
          if_neg (Bool.eq_false_iff.1 hany)
        obtain ⟨r, hr, hmem, rfl⟩ := exists_mem_selectRewards hb.selectRewards ho
          (mem_sortNames.2 (List.mem_flatMap.2 ⟨_, hphi, List.mem_singleton_self name⟩))
        have honly := fun d hd => selectRewards_names hb.selectRewards
          (fun hnone => absurd (ho.symm.trans hnone) (Option.some_ne_none _)) r hr d hd
        have honce := hrewards hany r.name (List.mem_singleton_self _)
        have honly' := fun d hd heq => eq_of_count_le_one RewardDecl.name honce hmem (hd : d ∈ _) heq
        simp only [Reach.selectReward, hb.rewardModel?_congr hb' hr hmem honly honly']

/-! ## A state with two labels -/

open Expression (int bool)

/-- A single state with two labels, of which the first one does not hold, and two rewards. -/
def twoLabels (first second : String) : Program where
  labels := [⟨first, bool false⟩, ⟨second, bool true⟩]
  rewards := [⟨"steps", [(bool true, int 1)]⟩, ⟨"none", []⟩]

/-- Whether a label holds at once. -/
def atOnce (name : String) : Property := .probability (.boundedUntil .true (.label name) 0)

theorem exists_build_twoLabels (first second : String) (hconstants : o.constants = [])
    (hfix : o.fixDeadlocks = true) (hlabels : (twoLabels first second).selectLabels o = .ok labels)
    (hrewards : (twoLabels first second).selectRewards o = .ok rewards)
    (hsub : ∀ r ∈ rewards, r ∈ (twoLabels first second).rewards) :
    ∃ m : Model RationalFunction, (twoLabels first second).build o = .ok m := by
  have hinitial : (twoLabels first second).initialStates (V := RationalFunction) ⟨[], []⟩ = .ok [[]] := rfl
  refine exists_annotated_build rfl (by rw [hconstants]; rfl) rfl
    hlabels hrewards hinitial (List.cons_ne_nil _ _) (fun s _ => ⟨[], rfl, fun _ => hfix⟩)
    (fun s _ l hl => ?_) fun s _ r hr => ?_
  · rcases List.mem_pair.1 (selectLabels_ok hlabels l hl).1 with rfl | rfl
    · exact ⟨false, rfl⟩
    · exact ⟨true, rfl⟩
  · rcases List.mem_pair.1 (hsub r hr) with rfl | rfl
    · exact ⟨_, rfl⟩
    · exact ⟨[], rfl⟩

/-- Both models exist, and the two properties have the same values in them. -/
theorem twoLabels_build_ofProperties_check : ∃ m m' : Model RationalFunction,
    (twoLabels "never" "always").build
        (.ofProperties [atOnce "always", .reward (some "steps") (.label "always")]) = .ok m ∧
      (twoLabels "never" "always").build {} = .ok m' ∧
        ∀ phi ∈ [atOnce "always", .reward (some "steps") (.label "always")],
          Reach.check m phi = Reach.check m' phi := by
  have hlabels : (twoLabels "never" "always").selectLabels
      (.ofProperties [atOnce "always", .reward (some "steps") (.label "always")]) =
        .ok [⟨"always", bool true⟩] := rfl
  have hrewards : (twoLabels "never" "always").selectRewards
      (.ofProperties [atOnce "always", .reward (some "steps") (.label "always")]) =
        .ok [⟨"steps", [(bool true, int 1)]⟩] := rfl
  obtain ⟨m, hm⟩ := exists_build_twoLabels "never" "always" rfl rfl hlabels hrewards (by decide)
  obtain ⟨m', hm'⟩ := exists_build_twoLabels "never" "always" (o := {}) rfl rfl rfl rfl fun _ => id
  have h := (build_ofProperties_check hm hm').2.2
  exact ⟨m, m', hm, hm', fun phi hphi => h phi hphi (by revert phi; decide) fun _ => by
    revert phi; decide⟩

/-- The label is built from its first declaration alone, or from both. -/
theorem exists_states_twoLabels {m : Model RationalFunction}
    (hm : (twoLabels "a" "a").build o = .ok m) (hconstants : o.constants = [])
    (hlabels : (twoLabels "a" "a").selectLabels o = .ok labels) (hmem : "a" ∈ labels.map (·.name)) :
    0 < m.numStates ∧ ∃ T, m.labeling.states? "a" = some T ∧
      (T.contains 0 = true ↔ ⟨"a", bool true⟩ ∈ labels) := by
  have hinitial : (twoLabels "a" "a").initialStates (V := RationalFunction) ⟨[], []⟩ = .ok [[]] := rfl
  obtain ⟨x, labels', rewards, b, h⟩ := build_steps_at hm (by rw [hconstants]; rfl) rfl hinitial
  obtain rfl : labels = labels' := Except.ok.inj (hlabels.symm.trans h.selectLabels)
  have hstate : x.found[0]? = some [] := h.found_of_initial rfl
  obtain ⟨-, hknown, hstates⟩ := h.labels_spec
  obtain ⟨T, hT⟩ := Option.isSome_iff_exists.1 ((hknown "a").2 (.inr (.inr hmem)))
  refine ⟨h.isModelOf.numStates ▸ (List.getElem?_eq_some_iff.1 hstate).1, T, hT, ?_⟩
  rw [hstates "a" T hT 0 [] hstate]
  constructor
  · rintro ((⟨hinit, -⟩ | ⟨hdead, -⟩) | ⟨l, hl, -, hholds⟩)
    · exact absurd hinit (by decide)
    · exact absurd hdead (by decide)
    · rcases List.mem_pair.1 (selectLabels_ok hlabels l hl).1 with rfl | rfl
      · exact absurd hholds (by decide)
      · exact hl
  · exact fun hl => .inr ⟨_, hl, rfl, rfl⟩

/-- A label that is declared twice holds in the model with everything, and does not hold in the model
with what the property refers to. -/
theorem twoLabels_check_differs : ∃ m m' : Model RationalFunction,
    (twoLabels "a" "a").build (.ofProperties [atOnce "a"]) = .ok m ∧
      (twoLabels "a" "a").build {} = .ok m' ∧ Reach.check m (atOnce "a") ≠ Reach.check m' (atOnce "a") := by
  have hlabels : (twoLabels "a" "a").selectLabels (.ofProperties [atOnce "a"]) =
      .ok [⟨"a", bool false⟩] := rfl
  have hrewards : (twoLabels "a" "a").selectRewards (.ofProperties [atOnce "a"]) = .ok [] := rfl
  obtain ⟨m, hm⟩ := exists_build_twoLabels "a" "a" rfl rfl hlabels hrewards
    fun r hr => absurd hr List.not_mem_nil
  obtain ⟨m', hm'⟩ := exists_build_twoLabels "a" "a" (o := {}) rfl rfl rfl rfl fun _ => id
  obtain ⟨hpos, T, hT, hcontains⟩ := exists_states_twoLabels hm rfl hlabels (by decide)
  obtain ⟨hpos', T', hT', hcontains'⟩ := exists_states_twoLabels hm' rfl rfl (by decide)
  have hvalue : ∀ {n : Model RationalFunction} {S : StateSet}, n.labeling.states? "a" = some S →
      Reach.check n (atOnce "a") = .ok (Reach.tabulate n.numStates (Reach.indicator S)) := by
    intro n S hS
    simp only [Reach.check, atOnce, Reach.checkPath, Reach.statesOfBoth, Reach.statesOf,
      StateFormula.states?, hS]
    rfl
  refine ⟨m, m', hm, hm', fun heq => ?_⟩
  rw [hvalue hT, hvalue hT'] at heq
  have hholds : T.contains 0 = false :=
    Bool.eq_false_iff.2 fun h => absurd (hcontains.1 h) (by decide)
  have hholds' : T'.contains 0 = true := hcontains'.2 (by decide)
  have hentry := congrArg (·[0]?) (Except.ok.inj heq)
  simp only [Reach.tabulate, Array.getElem?_ofFn, hpos, hpos', Reach.indicator, hholds, hholds', dif_pos]
    at hentry
  exact absurd hentry (by decide)

end Program
end MarkovCheck

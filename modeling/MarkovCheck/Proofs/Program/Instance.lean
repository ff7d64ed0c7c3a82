import Mathlib
import MarkovCheck.Proofs.Program.Build
import MarkovCheck.Proofs.Program.Rewards
import MarkovCheck.Proofs.Program.Simulation

/-!
# MarkovCheck.Proofs.Program.Instance

Building a model with parameters and giving them values, in either order.

The model that is built with values for the parameters has the states, initial states and labels of the
model that is built without, and its probabilities and rewards are the values of the functions there.
The two searches find the same valuations as long as no probability of an update vanishes. Rewards may
vanish, but then the names of the reward structures matter: a reward of zero is not added, so a
structure that has the name of an earlier one replaces its rewards only where it has rewards other than
zero.

* `Model.HasInstance` — a model, and what it is for values of its parameters.
* `explore_becomes`   — the searches of the two builds.
* `build_instance`    — the two models.
* `clash`             — two reward structures with one name.
-/

namespace MarkovCheck

open RationalFunction

/-- The second model is the first one for values of its parameters: functions have become numbers. -/
structure Model.HasInstance (v : Valuation) (m n : Model RationalFunction) : Prop where
  numStates : n.numStates = m.numStates
  initial : n.initial = m.initial
  labeling : n.labeling = m.labeling
  prob : ∀ s < m.numStates, ∀ t < m.numStates,
    ∃ q, (m.prob s t).evalAt v = .ok q ∧ n.prob s t = .const q
  rewards : List.Forall₂ (fun r r' => r'.name = r.name ∧
    ∀ s < m.numStates, ∃ q, (r.value s).evalAt v = .ok q ∧ r'.value s = .const q) m.rewards n.rewards

/-! ## Transitions -/

namespace Builder

variable {v : Valuation} {ts ts' : List (Transition RationalFunction)}

theorem flow_cons (t : Transition RationalFunction) (ts : List (Transition RationalFunction)) (i j : ℕ) :
    flow (t :: ts) i j =
      if t.source = i ∧ t.target = j then t.value.toFrac + flow ts i j else flow ts i j := by
  have hkey : t.key = toLex (i, j) ↔ t.source = i ∧ t.target = j := by
    change (t.source, t.target) = (i, j) ↔ _
    rw [Prod.mk.injEq]
  unfold flow valuesAt
  rw [List.filter_cons]
  by_cases h : t.key = toLex (i, j)
  · rw [if_pos (decide_eq_true h), if_pos (hkey.1 h), List.map_cons, List.map_cons, List.sum_cons]
  · rw [if_neg (by simpa using h), if_neg (mt hkey.2 h)]

/-- What is added up becomes its value. -/
theorem flow_becomes (h : List.Forall₂ (TransitionBecomes v) ts ts') (i j : ℕ) :
    ∃ q, HasValue v (flow ts i j) q ∧ flow ts' i j = ofQ q := by
  induction h with
  | nil => exact ⟨0, hasValue_zero v, (map_zero ofQ).symm⟩
  | cons ht _ ih =>
    obtain ⟨hsource, htarget, -, r, hr, hvalue⟩ := ht
    obtain ⟨q, hq, hflow⟩ := ih
    rw [flow_cons, flow_cons, hsource, htarget]
    split
    · exact ⟨r + q, hr.add hq, by rw [hvalue.2, hflow, map_add]⟩
    · exact ⟨q, hq, hflow⟩

end Builder

namespace Program

open Builder (SameChain)

variable {v : Valuation} {p : Program} {o : BuildOptions} {values : List (String × ℚ)}
  {c c' : Context RationalFunction} {initial : List (List ℤ)} {s : List ℤ}

/-! ## The searches -/

theorem foldl_addInitial_becomes {x x' : Exploration RationalFunction} (h : x.Becomes v x')
    (l : List (List ℤ)) :
    (l.foldl Exploration.addInitial x).Becomes v (l.foldl Exploration.addInitial x') := by
  induction l generalizing x x' with
  | nil => exact h
  | cons t l ih => exact ih (h.addInitial t)

/-- Two builds search side by side. -/
theorem explore_becomes {o' : BuildOptions} {x x' : Exploration RationalFunction} (h : c.Becomes v c')
    (hc : c.constants.env.IsCanonical) (hvars : c.vars.IsResolved) (hinitial : p.IsInitial c initial)
    (hne : ∀ s, p.Reachable c initial s → p.NonVanishingAt c v s)
    (hfix : o'.fixDeadlocks = o.fixDeadlocks) (hx : p.explore o c initial = .ok x)
    (hx' : p.explore o' c' initial = .ok x') : x.Becomes v x' := by
  have hempty : ({} : Exploration RationalFunction).Becomes v {} :=
    ⟨rfl, rfl, rfl, rfl, .nil⟩
  obtain ⟨hstart, hfound, -⟩ := Exploration.isExplored_initial (V := RationalFunction) hinitial.nodup
  unfold explore at hx hx'
  rw [h.vars, hfix] at hx'
  refine Exploration.run_becomes (P := p.IsFound c initial) (fun s hs => hs.nextStates hc hvars)
    (fun s hs ds ds' hds hds' => ?_) hstart (fun s hs => ?_) (foldl_addInitial_becomes hempty initial)
    hx hx'
  · exact Context.choices_becomes h (hne s hs.reachable) hds hds'
  · rw [hfound] at hs
    exact ⟨hinitial.inRange hvars s hs, .initial hs⟩

/-! ## Labels -/

section Labels

variable {b b' d d' : Builder RationalFunction} {labels : List LabelDecl} {rewards : List RewardDecl}

theorem addLabels_labels (h : c.Becomes v c') {i : ℕ} (hb : b'.labels = b.labels)
    (hd : addLabels (c.env s) i b labels = .ok d) (hd' : addLabels (c'.env s) i b' labels = .ok d') :
    d'.labels = d.labels := by
  induction labels generalizing b b' with
  | nil =>
    cases hd
    cases hd'
    exact hb
  | cons l labels ih =>
    simp only [addLabels] at hd hd'
    split at hd
    · cases hd
    · rename_i holds hholds
      rw [Expression.evalBool_mono (h.env s).scalar hholds] at hd'
      refine ih ?_ hd hd'
      split
      · exact congrArg (fun ls => Builder.consItem l.name i (Builder.declare l.name ls)) hb
      · exact hb

theorem addAnnotations_labels (h : c.Becomes v c') {l : List (List ℤ × ℕ)} (hb : b'.labels = b.labels)
    (hd : addAnnotations c labels rewards b l = .ok d)
    (hd' : addAnnotations c' labels rewards b' l = .ok d') : d'.labels = d.labels := by
  induction l generalizing b b' with
  | nil =>
    cases hd
    cases hd'
    exact hb
  | cons e l ih =>
    simp only [addAnnotations] at hd hd'
    split at hd
    · cases hd
    · rename_i b₁ hb₁
      split at hd
      · cases hd
      · rename_i b₂ hb₂
        split at hd'
        · cases hd'
        · rename_i b₁' hb₁'
          split at hd'
          · cases hd'
          · rename_i b₂' hb₂'
            refine ih ?_ hd hd'
            rw [addRewards_labels hb₂, addRewards_labels hb₂']
            exact addLabels_labels h hb hb₁ hb₁'

theorem declareNames_labels {x x' : Exploration RationalFunction} (h : x.Becomes v x') (hx : x.IsBare)
    (hx' : x'.IsBare) (n : ℕ) : (declareNames x' n labels rewards).labels =
      (declareNames x n labels rewards).labels := by
  have hfold : ∀ {α : Type} {f : Builder RationalFunction → α → Builder RationalFunction} (l : List α),
      (∀ {b b'} a, b'.labels = b.labels → (f b' a).labels = (f b a).labels) →
        ∀ {b b'}, b'.labels = b.labels → (l.foldl f b').labels = (l.foldl f b).labels := by
    intro α f l hf
    induction l with
    | nil => exact id
    | cons a l ih => exact fun hb => ih (hf a hb)
  have hstate : ∀ (name : String) {b b' : Builder RationalFunction} (i : ℕ), b'.labels = b.labels →
      (b'.addStateLabel i name).labels = (b.addStateLabel i name).labels := fun name b b' i hb =>
    congrArg (fun ls => Builder.consItem name i (Builder.declare name ls)) hb
  have hlabel : ∀ (name : String) {b b' : Builder RationalFunction}, b'.labels = b.labels →
      (b'.addLabel name).labels = (b.addLabel name).labels := fun name b b' hb =>
    congrArg (Builder.declare name) hb
  unfold declareNames
  dsimp only
  rw [h.deadlocks]
  refine hfold (f := fun b r => b.addRewardModel r.name) rewards (fun _ hb => hb) ?_
  refine hfold (f := fun b l => b.addLabel l.name) labels (fun l hb => hlabel l.name hb) ?_
  refine hfold (f := fun b i => b.addStateLabel i deadlockLabel) _ (hstate deadlockLabel) ?_
  refine hlabel deadlockLabel ?_
  refine hfold (f := fun b i => b.addStateLabel i initLabel) _ (hstate initLabel) ?_
  refine hlabel initLabel ?_
  rw [hx.labels, hx'.labels]

theorem finish_labeling {m : Model RationalFunction} {k : ModelKind} (h : b.finish k = .ok m) :
    m.labeling = ⟨b.numStates, b.labels.map fun l => (l.1, .ofList b.numStates l.2)⟩ := by
  unfold Builder.finish at h
  split at h
  · cases h
  · cases h
    rfl

end Labels

/-! ## Rewards -/

section Rewards

variable {rewards : List RewardDecl} {r : RewardDecl}

theorem rewardValues_becomes (h : c.Becomes v c') {items : List (Expression × Expression)}
    {vs vs' : List RationalFunction} (hvs : rewardValues (c.env s) items = .ok vs)
    (hvs' : rewardValues (c'.env s) items = .ok vs') : List.Forall₂ (Becomes v) vs vs' := by
  induction items generalizing vs vs' with
  | nil =>
    cases hvs
    cases hvs'
    exact .nil
  | cons item items ih =>
    simp only [rewardValues] at hvs hvs'
    split at hvs
    · cases hvs
    · rename_i hguard
      rw [Expression.evalBool_mono (h.env s).scalar hguard] at hvs'
      exact ih hvs hvs'
    · rename_i hguard
      rw [Expression.evalBool_mono (h.env s).scalar hguard] at hvs'
      dsimp only at hvs'
      split at hvs
      · cases hvs
      · rename_i f hf
        split at hvs
        · cases hvs
        · rename_i fs hfs
          cases hvs
          split at hvs'
          · cases hvs'
          · rename_i g hg
            split at hvs'
            · cases hvs'
            · rename_i gs hgs
              cases hvs'
              exact .cons (Expression.evalValue_becomes (h.env s) hf hg) (ih hfs hgs)

theorem rewardAt_becomes (h : c.Becomes v c') (hr : ∃ vs, rewardValues (c.env s) r.items = .ok vs)
    (hr' : ∃ vs, rewardValues (c'.env s) r.items = .ok vs) :
    (c.rewardAt s r).Becomes v (c'.rewardAt s r) := by
  obtain ⟨vs, hvs⟩ := hr
  obtain ⟨vs', hvs'⟩ := hr'
  rw [Context.rewardAt, Context.rewardAt, hvs, hvs']
  exact Becomes.sumCanonical (rewardValues_becomes h hvs hvs')

/-- A reward may vanish. Then it is not added, and what is there instead is zero unless another
structure has the same name. -/
theorem rewardUnder_becomes (h : c.Becomes v c') (name : String)
    (hnames : ∀ r ∈ rewards, ∀ r' ∈ rewards, r'.name = r.name → r' = r)
    (hok : ∀ r ∈ rewards, ∃ vs, rewardValues (c.env s) r.items = .ok vs)
    (hok' : ∀ r ∈ rewards, ∃ vs, rewardValues (c'.env s) r.items = .ok vs) :
    (c.rewardUnder s rewards name).Becomes v (c'.rewardUnder s rewards name) := by
  by_cases hname : ∃ r ∈ rewards, r.name = name
  · obtain ⟨r, hr, rfl⟩ := hname
    have hbecomes := rewardAt_becomes h (hok r hr) (hok' r hr)
    -- A reward of zero is the same as none.
    have hzero : ∀ {f : RationalFunction}, f.IsCanonical →
        (if Value.isZero f then Value.zero else f) = f := fun {f} hf => by
      split
      · rename_i hz
        exact denotes_zero.eq ⟨hf, (isZero_iff hf).1 hz⟩
      · rfl
    rw [Context.rewardUnder_eq hr (hnames r hr), Context.rewardUnder_eq hr (hnames r hr),
      hzero hbecomes.1, hzero hbecomes.isCanonical]
    exact hbecomes
  · have hnot : ∀ r ∈ rewards, r.name ≠ name := fun r hr heq => hname ⟨r, hr, heq⟩
    rw [Context.rewardUnder_of_notMem hnot, Context.rewardUnder_of_notMem hnot]
    exact becomes_zero v

end Rewards

/-- Reward models with the same names correspond when those with one name do. -/
theorem rewards_hasInstance {m n : Model RationalFunction}
    (hnames : n.rewards.map (·.name) = m.rewards.map (·.name))
    (h : ∀ r ∈ m.rewards, ∀ r' ∈ n.rewards, r'.name = r.name → ∀ s < m.numStates,
      ∃ q, (r.value s).evalAt v = .ok q ∧ r'.value s = .const q) :
    List.Forall₂ (fun r r' => r'.name = r.name ∧ ∀ s < m.numStates,
      ∃ q, (r.value s).evalAt v = .ok q ∧ r'.value s = .const q) m.rewards n.rewards := by
  have hlength : m.rewards.length = n.rewards.length := by
    have := congrArg List.length hnames
    rwa [List.length_map, List.length_map, eq_comm] at this
  refine List.forall₂_iff_get.2 ⟨hlength, fun k hk hk' => ?_⟩
  have hname : (n.rewards.get ⟨k, hk'⟩).name = (m.rewards.get ⟨k, hk⟩).name := by
    have := congrArg (·[k]?) hnames
    simpa [hk, hk'] using this
  exact ⟨hname, h _ (List.get_mem _ _) _ (List.get_mem _ _) hname⟩

/-- A built model has a reward model for every name of a structure, with the rewards under that name. -/
theorem IsBuild.rewardModels {x : Exploration RationalFunction} {labels : List LabelDecl}
    {rewards : List RewardDecl} {b : Builder RationalFunction} {m : Model RationalFunction}
    (h : p.IsBuild o c initial x labels rewards b m) :
    m.rewards.map (·.name) = (rewards.foldl (fun es r => Builder.declare r.name es)
        ([] : List (String × List (ℕ × RationalFunction)))).map (·.1) ∧
      (∀ s ∈ x.found, ∀ r ∈ rewards, ∃ vs, rewardValues (c.env s) r.items = .ok vs) ∧
        ∀ r ∈ m.rewards, ∀ i s, x.found[i]? = some s → r.value i = c.rewardUnder s rewards r.name := by
  obtain ⟨hmodels, hok, hvalue⟩ :=
    rewards_spec (explore_isBare h.explore).rewards h.annotations h.numStates h.finish
  refine ⟨hmodels, hok, fun r hr i s hi => hvalue r hr i s ?_⟩
  rwa [← Array.getElem?_toList]

/-! ## The models -/

/-- Of the reward structures with one name, only the first can be selected by its name. -/
theorem selectRewards_names {rewards : List RewardDecl} (h : p.selectRewards o = .ok rewards)
    (hnames : o.rewards = none → (p.rewards.map (·.name)).Nodup) :
    ∀ r ∈ rewards, ∀ r' ∈ rewards, r'.name = r.name → r' = r := by
  unfold selectRewards at h
  split at h
  · rename_i hnone
    cases h
    exact fun r hr r' hr' heq => List.inj_on_of_nodup_map (hnames hnone) hr' hr heq
  · have hself : ∀ r ∈ rewards, p.reward? r.name = some r := fun r hr => by
      obtain ⟨name, hname⟩ := selectAll_find h r hr
      have := List.find?_some hname
      rwa [beq_iff_eq.1 this]
    exact fun r hr r' hr' heq =>
      Option.some_inj.1 ((hself r' hr').symm.trans (heq ▸ hself r hr))

/-- In a build without values for the parameters, no probability of an update of a valuation that can be
reached vanishes when the parameters get their values. -/
def NonVanishing (p : Program) (o : BuildOptions) (v : Valuation) : Prop :=
  ∀ (c : Context RationalFunction) (initial : List (List ℤ)),
    resolveConstants p o.constants = .ok c.constants →
      resolveVariables p c.constants = .ok c.vars → p.initialStates c = .ok initial →
        ∀ s, p.Reachable c initial s → p.NonVanishingAt c v s

/-- Building a model and then giving its parameters values gives the same as building it with these
values, provided that no probability of an update vanishes, and that no two of the reward structures to
be built have the same name. -/
theorem build_instance {m n : Model RationalFunction} (hnames : (p.constants.map (·.name)).Nodup)
    (hrewardNames : o.rewards = none → (p.rewards.map (·.name)).Nodup)
    (hvalues : ∀ x, x ∈ values.map (·.1) ↔ x ∈ p.parameters o) (hm : p.build o = .ok m)
    (hn : p.build (o.withValues values) = .ok n) (hne : p.NonVanishing o (valuationOf values)) :
    m.HasInstance (valuationOf values) n := by
  obtain ⟨c, initial, x, labels, rewards, b, h⟩ := build_steps hm
  obtain ⟨c', initial', x', labels', rewards', b', h'⟩ := build_steps hn
  obtain ⟨hsameLabels, hsameRewards, hfix⟩ := o.withValues_selection values
  -- The two builds start alike.
  have hbecomes := Context.becomes_of_resolve hnames hvalues h.constants h'.constants h.vars h'.vars
  obtain rfl : labels = labels' := by
    have hlabels := h'.selectLabels
    rw [selectLabels, hsameLabels] at hlabels
    exact Except.ok.inj (h.selectLabels.symm.trans hlabels)
  obtain rfl : rewards = rewards' := by
    have hrewards := h'.selectRewards
    rw [selectRewards, hsameRewards] at hrewards
    exact Except.ok.inj (h.selectRewards.symm.trans hrewards)
  obtain rfl : initial = initial' :=
    Except.ok.inj ((hbecomes.initialStates h.initialStates).symm.trans h'.initialStates)
  -- They find the same valuations and add corresponding transitions.
  have hsim := explore_becomes hbecomes h.isCanonical h.isResolved h.isInitial
    (hne c initial h.constants h.vars h.initialStates) hfix h.explore h'.explore
  have hmodel := h.isModelOf
  have hmodel' := h'.isModelOf
  constructor
  case numStates => rw [hmodel.numStates, hmodel'.numStates, hsim.found]
  case initial => rw [hmodel.initial, hmodel'.initial, hsim.initial]
  case labeling =>
    have hannotations := h'.annotations
    rw [hsim.states] at hannotations
    have hlabels := addAnnotations_labels hbecomes (declareNames_labels hsim (explore_isBare h.explore)
      (explore_isBare h'.explore) initial.length) h.annotations hannotations
    rw [finish_labeling h.finish, finish_labeling h'.finish, hlabels, h.numStates, h'.numStates,
      hsim.found]
  case prob =>
    intro i hi j _
    rw [hmodel.numStates] at hi
    obtain ⟨q, hq, hflow⟩ := Builder.flow_becomes hsim.transitions i j
    have hprob := hmodel.prob_denotes h.canonical hi j
    have hprob' := hmodel'.prob_denotes h'.canonical (hsim.found ▸ hi) j
    exact Becomes.evalAt ⟨hprob.1, q, hprob.2 ▸ hq, hflow ▸ hprob'⟩
  case rewards =>
    obtain ⟨hmodels, hok, hvalue⟩ := h.rewardModels
    obtain ⟨hmodels', hok', hvalue'⟩ := h'.rewardModels
    rw [hsim.found] at hok' hvalue'
    refine rewards_hasInstance (hmodels'.trans hmodels.symm) fun r hr r' hr' hname i hi => ?_
    rw [hmodel.numStates] at hi
    have hstate : x.found[i]? = some x.found[i] := List.getElem?_eq_getElem hi
    have hmem : x.found[i] ∈ x.found := List.getElem_mem hi
    rw [hvalue r hr i _ hstate, hvalue' r' hr' i _ hstate, hname]
    exact (rewardUnder_becomes hbecomes _ (selectRewards_names h.selectRewards hrewardNames) (hok _ hmem)
      (hok' _ hmem)).evalAt

/-! ## Tries until success -/

open Expression (identifier int bool)

/-- A try with a probability of success that is a parameter. -/
def attempt : Command where
  guard := (identifier "done").not
  updates := [⟨identifier "p", [("done", bool true)]⟩, ⟨identifier "q", []⟩]

/-- Tries until one succeeds, and counts one over the probability of success for each. -/
def trial : Program where
  constants := [⟨"p", .double, none⟩, ⟨"q", .double, some (int 1 - identifier "p")⟩]
  modules := [⟨"trial", [⟨"done", .bool, none⟩], [attempt]⟩]
  labels := [⟨"success", identifier "done"⟩]
  rewards := [⟨"tries", [((identifier "done").not, int 1 / identifier "p")]⟩]

/-- The probabilities of success and failure as constants. -/
def trialContext (p q : Binding RationalFunction) : Context RationalFunction where
  constants := [("q", q), ("p", p)]
  vars := [⟨"done", 0, 1, true, 0⟩]

/-- The program can be built when the two probabilities sum to one. -/
theorem exists_build_trial {o : BuildOptions} {b d : Binding RationalFunction}
    {f g : RationalFunction} {k : Frac} (ho : o.labels = none ∧ o.rewards = none ∧ o.fixDeadlocks = true)
    (hconstants : resolveConstants trial o.constants = .ok (trialContext b d).constants)
    (happly : (trialContext b d).applyCommands [0] [([0], Value.one)] [attempt] =
      .ok [([1], Value.mul Value.one f), ([0], Value.mul Value.one g)])
    (hf : f.Denotes k) (hg : g.Denotes (1 - k))
    (hreward : (rewardValues ((trialContext b d).env [0]) [((identifier "done").not,
      int 1 / identifier "p")]).isOk) : ∃ m : Model RationalFunction, trial.build o = .ok m := by
  obtain ⟨holabels, horewards, hfix⟩ := ho
  have hstates : ∀ {s}, (trialContext b d).vars.InRange s → s = [0] ∨ s = [1] := fun {s} hs => by
    rw [← Variables.mem_all, show Variables.all (trialContext b d).vars = [[0], [1]] from rfl] at hs
    simpa using hs
  obtain ⟨u, hu⟩ : ∃ u, (trialContext b d).distribution [0] [attempt] = .ok u := by
    have hsuccess := mul_spec denotes_one hf
    have hfailure := mul_spec denotes_one hg
    refine ⟨_, Context.distribution_isOk happly ?_ ?_⟩
    · simpa using ⟨hsuccess.1, hfailure.1⟩
    · calc _ = (one.mul f).toFrac + (one.mul g).toFrac := by rw [← List.sum_pair]; rfl
        _ = 1 := by rw [hsuccess.2, hfailure.2]; ring
  have hlabels : trial.selectLabels o = .ok trial.labels := by
    rw [selectLabels, holabels]
    rfl
  have hrewards : trial.selectRewards o = .ok trial.rewards := by rw [selectRewards, horewards]
  have hinitial : trial.initialStates (trialContext b d) = .ok [[0]] := rfl
  refine exists_annotated_build (c := trialContext b d) rfl hconstants rfl hlabels hrewards hinitial
    (List.cons_ne_nil _ _) (fun s hs => ?_) (fun s hs l hl => ?_) fun s hs r hr => ?_
  · rcases hstates hs with rfl | rfl
    · refine ⟨[u], ?_, fun hnil => absurd hnil (List.cons_ne_nil _ _)⟩
      have hinterleaved : (trialContext b d).interleavedChoices [0] trial.dynamics.interleaved =
          .ok [u] := by
        have hguard : attempt.guard.evalBool ((trialContext b d).env [0]) = .ok true := rfl
        change (trialContext b d).interleavedChoices [0] [attempt] = _
        simp only [Context.interleavedChoices, hguard, hu]
      rw [Context.choices, hinterleaved]
      rfl
    · exact ⟨[], rfl, fun _ => hfix⟩
  · obtain rfl := List.mem_singleton.1 hl
    rcases hstates hs with rfl | rfl
    · exact ⟨false, rfl⟩
    · exact ⟨true, rfl⟩
  · obtain rfl := List.mem_singleton.1 hr
    rcases hstates hs with rfl | rfl
    · cases hvs : rewardValues ((trialContext b d).env [0])
          [((identifier "done").not, int 1 / identifier "p")] with
      | ok vs => exact ⟨vs, rfl⟩
      | error err =>
        rw [hvs] at hreward
        cases hreward
    · exact ⟨[], rfl⟩

theorem exists_module_of_mem_choicesAt {V : Type} {c : Context V} {choice : List Command}
    {command : Command} (h : choice ∈ p.choicesAt c s) (hcommand : command ∈ choice) :
    ∃ m ∈ p.modules, command ∈ m.commands := by
  rcases mem_choicesAt.1 h with ⟨m, hm, d, hd, rfl⟩ | ⟨action, -, hall⟩
  · obtain rfl := List.mem_singleton.1 hcommand
    exact ⟨m, hm, List.mem_of_mem_filter hd⟩
  · obtain ⟨i, hi, rfl⟩ := List.mem_iff_getElem.1 hcommand
    obtain ⟨hlength, hget⟩ := List.forall₂_iff_get.1 hall
    have hm := hget i hi (hlength ▸ hi)
    exact ⟨_, List.mem_of_mem_filter (List.get_mem _ _), List.mem_of_mem_filter hm⟩

theorem eq_attempt {V : Type} {c : Context V} {choice : List Command} {command : Command}
    (h : choice ∈ trial.choicesAt c s) (hcommand : command ∈ choice) : command = attempt := by
  obtain ⟨m, hm, hmem⟩ := exists_module_of_mem_choicesAt h hcommand
  obtain rfl := List.mem_singleton.1 hm
  exact List.mem_singleton.1 hmem

/-- With a probability of success of one third, the probabilities of the tries are positive. -/
theorem trial_probability {choice : List Command} {command : Command} {u : Update} {f : RationalFunction}
    (hconstants : resolveConstants trial ({} : BuildOptions).constants = .ok c.constants)
    (hvars : resolveVariables trial c.constants = .ok c.vars) (hchoice : choice ∈ trial.choicesAt c s)
    (hcommand : command ∈ choice) (hu : u ∈ command.updates)
    (hf : u.probability.evalValue (c.env s) = .ok f) :
    ∃ q, f.evalAt (valuationOf [("p", 1 / 3)]) = .ok q ∧ 0 < q := by
  -- The constants, the variables and the only command are known.
  obtain ⟨constants, vars⟩ := c
  obtain rfl : (trialContext (.symbolic (.param "p"))
    (.symbolic (.sub (.const 1) (.param "p")))).constants = constants := Except.ok.inj hconstants
  obtain rfl : (trialContext (.symbolic (.param "p"))
    (.symbolic (.sub (.const 1) (.param "p")))).vars = vars := Except.ok.inj hvars
  obtain rfl := eq_attempt hchoice hcommand
  rcases List.mem_pair.1 hu with rfl | rfl
  · refine ⟨1 / 3, ?_, by norm_num⟩
    obtain rfl : RationalFunction.param "p" = f := by
      cases s <;> exact Except.ok.inj hf
    decide +kernel
  · refine ⟨2 / 3, ?_, by norm_num⟩
    obtain rfl : RationalFunction.sub (.const 1) (.param "p") = f := by
      cases s <;> exact Except.ok.inj hf
    decide +kernel

theorem trial_nonVanishing : trial.NonVanishing {} (valuationOf [("p", 1 / 3)]) := by
  intro c initial hconstants hvars _ s _ choice hchoice command hcommand u hu f hf _
  obtain ⟨q, hq, hpos⟩ := trial_probability hconstants hvars hchoice hcommand hu hf
  exact ⟨q, hq, hpos.ne'⟩

/-- Both models of the tries exist for the probability one third. -/
theorem trial_build_instance : ∃ m n : Model RationalFunction, trial.build {} = .ok m ∧
    trial.build (({} : BuildOptions).withValues [("p", 1 / 3)]) = .ok n ∧
      m.HasInstance (valuationOf [("p", 1 / 3)]) n := by
  have hp := denotes_param "p"
  obtain ⟨m, hm⟩ := exists_build_trial (o := {}) (b := .symbolic (.param "p"))
    (d := .symbolic (.sub (.const 1) (.param "p"))) (f := .param "p") (g := .sub (.const 1) (.param "p"))
    ⟨rfl, rfl, rfl⟩ rfl rfl hp (by simpa using sub_spec (denotes_const 1) hp)
    rfl
  obtain ⟨n, hn⟩ := exists_build_trial (o := ({} : BuildOptions).withValues [("p", 1 / 3)])
    (b := .scalar (.rational (1 / 3))) (d := .scalar (.rational (1 - 1 / 3))) (f := .const (1 / 3))
    (g := .const (1 - 1 / 3)) ⟨rfl, rfl, rfl⟩ rfl (by with_unfolding_all rfl) (denotes_const (1 / 3))
    (by simpa using denotes_const (1 - 1 / 3)) (by decide +kernel)
  refine ⟨m, n, hm, hn, build_instance (by decide) (fun _ => by decide) (fun x => ?_) hm hn
    trial_nonVanishing⟩
  rw [show trial.parameters {} = ["p"] from rfl]
  rfl

/-! ## Two reward structures with one name -/

/-- A reward of one, and under the same name one that is a parameter. -/
def clash : Program where
  constants := [⟨"p", .double, none⟩]
  rewards := [⟨"r", [(bool true, int 1)]⟩, ⟨"r", [(bool true, identifier "p")]⟩]

def clashContext (b : Binding RationalFunction) : Context RationalFunction := ⟨[("p", b)], []⟩

section Clash

variable {b : Binding RationalFunction} {f : RationalFunction}
  (horewards : o.rewards = none)
  (hconstants : resolveConstants clash o.constants = .ok (clashContext b).constants)
  (hvalue : (identifier "p").evalValue ((clashContext b).env []) = .ok f)

theorem clash_rewardValues (hvalue : (identifier "p").evalValue ((clashContext b).env []) = .ok f) :
    rewardValues ((clashContext b).env []) [(bool true, int 1)] = .ok [const 1] ∧
      rewardValues ((clashContext b).env []) [(bool true, identifier "p")] = .ok [f] := by
  have hguard : (bool true).evalBool ((clashContext b).env []) = .ok true := rfl
  exact ⟨rfl, by simp only [rewardValues, hguard, hvalue]⟩

include horewards hconstants hvalue

theorem exists_build_clash (holabels : o.labels = none) (hfix : o.fixDeadlocks = true) :
    ∃ m : Model RationalFunction, clash.build o = .ok m := by
  have hlabels : clash.selectLabels o = .ok [] := by
    rw [selectLabels, holabels]
    rfl
  have hrewards : clash.selectRewards o = .ok clash.rewards := by rw [selectRewards, horewards]
  obtain ⟨hone, hparam⟩ := clash_rewardValues hvalue
  have hinitial : clash.initialStates (clashContext b) = .ok [[]] := rfl
  refine exists_annotated_build (c := clashContext b) rfl hconstants rfl hlabels hrewards hinitial
    (List.cons_ne_nil _ _) (fun s _ => ⟨[], rfl, fun _ => hfix⟩)
    (fun _ _ l hl => absurd hl List.not_mem_nil) fun s hs r hr => ?_
  obtain rfl : s = [] := List.forall₂_nil_left_iff.1 hs
  rcases List.mem_pair.1 hr with rfl | rfl
  · exact ⟨_, hone⟩
  · exact ⟨_, hparam⟩

/-- The reward is the one of the second structure, unless that is zero. -/
theorem clash_rewards {m : Model RationalFunction} (hf : f.IsCanonical) (hm : clash.build o = .ok m) :
    0 < m.numStates ∧ m.rewards ≠ [] ∧
      ∀ r ∈ m.rewards, r.value 0 = if f.isZero then const 1 else f := by
  have hrewards : clash.selectRewards o = .ok clash.rewards := by rw [selectRewards, horewards]
  have hinitial : clash.initialStates (clashContext b) = .ok [[]] := rfl
  obtain ⟨x, labels, rewards, d, h⟩ := build_steps_at hm hconstants rfl hinitial
  obtain rfl : clash.rewards = rewards := Except.ok.inj (hrewards.symm.trans h.selectRewards)
  obtain ⟨hnames, -, hvalues⟩ := h.rewardModels
  have hstate : x.found[0]? = some [] := h.found_of_initial rfl
  refine ⟨?_, fun hnil => ?_, fun r hr => ?_⟩
  · rw [h.isModelOf.numStates]
    exact (List.getElem?_eq_some_iff.1 hstate).1
  · rw [hnil] at hnames
    cases hnames
  · have hname : r.name = "r" := by
      have hmem : r.name ∈ m.rewards.map (·.name) := List.mem_map_of_mem hr
      rw [hnames] at hmem
      exact List.mem_singleton.1 hmem
    have hsingle : ∀ {g : RationalFunction}, g.IsCanonical → Value.sumCanonical [g] = g := by
      intro g hg
      have hsum := Value.sumCanonical_denotes (l := [g]) fun k hk => List.mem_singleton.1 hk ▸ hg
      exact hsum.eq (by simpa using hg.denotes)
    obtain ⟨hone, hparam⟩ := clash_rewardValues hvalue
    have hat : (clashContext b).rewardAt [] ⟨"r", [(bool true, int 1)]⟩ = const 1 := by
      rw [Context.rewardAt, hone]
      exact hsingle (denotes_const 1).1
    have hat' : (clashContext b).rewardAt [] ⟨"r", [(bool true, identifier "p")]⟩ = f := by
      rw [Context.rewardAt, hparam]
      exact hsingle hf
    have hfirst :
        (clashContext b).overwrite [] "r" Value.zero ⟨"r", [(bool true, int 1)]⟩ = const 1 := by
      rw [Context.overwrite, hat, if_pos ⟨rfl, isZero_const_eq_false one_ne_zero⟩]
    rw [hvalues r hr 0 [] hstate, hname, Context.rewardUnder, clash, List.foldl_cons, List.foldl_cons,
      List.foldl_nil, hfirst, Context.overwrite, hat']
    cases hz : f.isZero with
    | true => exact if_neg fun h => Bool.false_ne_true (h.2.symm.trans hz)
    | false => exact if_pos ⟨rfl, hz⟩

end Clash

/-- With the value zero for the parameter, the second structure has no reward to replace that of the
first one with. -/
theorem clash_not_hasInstance : ∃ m n : Model RationalFunction, clash.build {} = .ok m ∧
    clash.build (({} : BuildOptions).withValues [("p", 0)]) = .ok n ∧
      (clash.constants.map (·.name)).Nodup ∧
        (∀ x, x ∈ [("p", (0 : ℚ))].map (·.1) ↔ x ∈ clash.parameters {}) ∧
          clash.NonVanishing {} (valuationOf [("p", 0)]) ∧
            ¬ m.HasInstance (valuationOf [("p", 0)]) n := by
  have hconstants : resolveConstants clash ({} : BuildOptions).constants =
      .ok (clashContext (.symbolic (.param "p"))).constants := rfl
  have hconstants' : resolveConstants clash (({} : BuildOptions).withValues [("p", 0)]).constants =
      .ok (clashContext (.scalar (.rational 0))).constants := rfl
  obtain ⟨m, hm⟩ := exists_build_clash rfl hconstants rfl rfl rfl
  obtain ⟨n, hn⟩ := exists_build_clash rfl hconstants' rfl rfl rfl
  obtain ⟨hpos, hne, hvalue⟩ := clash_rewards rfl hconstants rfl (denotes_param "p").1 hm
  obtain ⟨-, -, hvalue'⟩ := clash_rewards rfl hconstants' rfl (denotes_const 0).1 hn
  refine ⟨m, n, hm, hn, by decide, fun x => ?_, ?_, fun h => ?_⟩
  · rw [show clash.parameters {} = ["p"] from rfl]
    rfl
  · intro c initial _ _ _ s _ choice hchoice command hcommand
    obtain ⟨_, hm, -⟩ := exists_module_of_mem_choicesAt hchoice hcommand
    exact absurd hm List.not_mem_nil
  · obtain ⟨r, rs, hr⟩ := List.exists_cons_of_ne_nil hne
    have hrewards := h.rewards
    rw [hr] at hrewards
    obtain ⟨r', rs', ⟨-, hinstance⟩, -, hr'⟩ := List.forall₂_cons_left_iff.1 hrewards
    obtain ⟨q, hq, hconst⟩ := hinstance 0 hpos
    rw [hvalue r (hr ▸ List.mem_cons_self)] at hq
    rw [hvalue' r' (hr' ▸ List.mem_cons_self)] at hconst
    obtain rfl : 0 = q := Except.ok.inj ((by decide +kernel :
      (RationalFunction.param "p").evalAt (valuationOf [("p", 0)]) = .ok 0).symm.trans hq)
    exact absurd hconst (by decide +kernel)

end Program
end MarkovCheck

import Mathlib
import MarkovCheck.Proofs.Bisim.Consistent
import MarkovCheck.Proofs.Bisim.Transfer
import MarkovCheck.Proofs.Logic.Formula
import MarkovCheck.Proofs.Text.Names

/-!
# MarkovCheck.Proofs.Bisim.Soundness

Minimising a model before checking a property does not change the result.

A property that has an answer refers to known labels and reward models only, so what it refers to can
be observed and the quotient exists. Its labels and its reward model have counterparts in the
quotient, and every operator computes the same there.

* `IsQuotient.check` — the answers on a model and on a quotient.
* `minimise_sound`   — checking the minimised model.
-/

namespace MarkovCheck
namespace Bisim

open Reach

variable {m Q : Model RationalFunction} {o : Observed RationalFunction} {c : ℕ → ℕ} {v : Valuation}
  {phi : Property} {f : StateFormula} {S : StateSet}

/-! ## Formulas -/

theorem statesOf_eq_ok : statesOf m f = .ok S ↔ f.states? m.labeling = .ok S := by
  unfold statesOf
  split
  · rename_i T hT
    rw [hT]
    exact ⟨fun h => by cases h; rfl, fun h => by cases h; rfl⟩
  · rename_i e he
    rw [he]
    exact ⟨nofun, nofun⟩

section Matches

variable {T U W : StateSet}

theorem Matches.full (h : IsQuotient m Q o c) :
    Matches m Q c (.full m.numStates) (.full Q.numStates) := by
  refine ⟨by simp [StateSet.full], by simp [StateSet.full], fun s hs => ?_⟩
  rw [StateSet.contains_full (h.lt s hs), StateSet.contains_full hs]

theorem Matches.empty (m Q : Model RationalFunction) (c : ℕ → ℕ) :
    Matches m Q c (.empty m.numStates) (.empty Q.numStates) := by
  refine ⟨by simp [StateSet.empty], by simp [StateSet.empty], fun s _ => ?_⟩
  rw [StateSet.contains_empty, StateSet.contains_empty]

theorem Matches.compl (hq : IsQuotient m Q o c) (h : Matches m Q c S T) :
    Matches m Q c S.compl T.compl := by
  refine ⟨(StateSet.size_compl S).trans h.size, (StateSet.size_compl T).trans h.quotient_size,
    fun s hs => ?_⟩
  rw [StateSet.contains_compl (hs.trans_eq h.size.symm),
    StateSet.contains_compl ((hq.lt s hs).trans_eq h.quotient_size.symm), h.contains_eq s hs]

theorem Matches.inter (h : Matches m Q c S T) (h' : Matches m Q c U W) :
    Matches m Q c (S.inter U) (T.inter W) := by
  refine ⟨StateSet.size_inter h.size h'.size, StateSet.size_inter h.quotient_size h'.quotient_size,
    fun s hs => ?_⟩
  rw [StateSet.contains_inter h.size h'.size,
    StateSet.contains_inter h.quotient_size h'.quotient_size, h.contains_eq s hs,
    h'.contains_eq s hs]

theorem Matches.union (h : Matches m Q c S T) (h' : Matches m Q c U W) :
    Matches m Q c (S.union U) (T.union W) := by
  refine ⟨StateSet.size_union h.size h'.size, StateSet.size_union h.quotient_size h'.quotient_size,
    fun s hs => ?_⟩
  rw [StateSet.contains_union h.size h'.size,
    StateSet.contains_union h.quotient_size h'.quotient_size, h.contains_eq s hs,
    h'.contains_eq s hs]

end Matches

/-- A formula over observed labels has the same states in the quotient. -/
theorem IsQuotient.states? (h : IsQuotient m Q o c) (hw : m.WellFormed)
    (hobs : ∀ l ∈ o.labels, m.labeling.states? l.1 = some l.2)
    (hcover : ∀ name ∈ f.labels, name ∈ o.labels.map (·.1)) (hS : f.states? m.labeling = .ok S) :
    ∃ T, f.states? Q.labeling = .ok T ∧ Matches m Q c S T := by
  induction f generalizing S with
  | true =>
    cases hS
    refine ⟨_, rfl, ?_⟩
    rw [hw.labeling_size, h.wellFormed.labeling_size]
    exact .full h
  | false =>
    cases hS
    refine ⟨_, rfl, ?_⟩
    rw [hw.labeling_size, h.wellFormed.labeling_size]
    exact .empty m Q c
  | label name =>
    obtain ⟨l, hl, hname⟩ := List.mem_map.1 (hcover name List.mem_cons_self)
    have hname : l.1 = name := hname
    subst hname
    have hl' := hobs l hl
    obtain ⟨T, hT, hcontains⟩ := h.labels l hl
    simp only [StateFormula.states?, hl'] at hS
    cases hS
    have hsize := (h.wellFormed.isSized.size hT).trans h.wellFormed.labeling_size
    exact ⟨T, StateFormula.states?_label.2 hT, (hw.isSized.size hl').trans hw.labeling_size, hsize,
      hcontains⟩
  | not f ih =>
    obtain ⟨U, hU, rfl⟩ := StateFormula.states?_not.1 hS
    obtain ⟨T, hT, hm⟩ := ih hcover hU
    exact ⟨T.compl, StateFormula.states?_not.2 ⟨T, hT, rfl⟩, hm.compl h⟩
  | and f g ihf ihg =>
    simp only [StateFormula.labels, List.forall_mem_append] at hcover
    obtain ⟨U, W, hU, hW, rfl⟩ := StateFormula.states?_and.1 hS
    obtain ⟨T, hT, hm⟩ := ihf hcover.1 hU
    obtain ⟨X, hX, hm'⟩ := ihg hcover.2 hW
    exact ⟨T.inter X, StateFormula.states?_and.2 ⟨T, X, hT, hX, rfl⟩, hm.inter hm'⟩
  | or f g ihf ihg =>
    simp only [StateFormula.labels, List.forall_mem_append] at hcover
    obtain ⟨U, W, hU, hW, rfl⟩ := StateFormula.states?_or.1 hS
    obtain ⟨T, hT, hm⟩ := ihf hcover.1 hU
    obtain ⟨X, hX, hm'⟩ := ihg hcover.2 hW
    exact ⟨T.union X, StateFormula.states?_or.2 ⟨T, X, hT, hX, rfl⟩, hm.union hm'⟩

theorem IsQuotient.statesOf (h : IsQuotient m Q o c) (hw : m.WellFormed)
    (hobs : ∀ l ∈ o.labels, m.labeling.states? l.1 = some l.2)
    (hcover : ∀ name ∈ f.labels, name ∈ o.labels.map (·.1)) (hS : statesOf m f = .ok S) :
    ∃ T, statesOf Q f = .ok T ∧ Matches m Q c S T := by
  obtain ⟨T, hT, hm⟩ := h.states? hw hobs hcover (statesOf_eq_ok.1 hS)
  exact ⟨T, statesOf_eq_ok.2 hT, hm⟩

/-! ## Reward models -/

theorem rewardModel?_singleton (r : RewardModel RationalFunction) (name : String)
    (hm : m.rewards = [r]) : m.rewardModel? name = if r.name = name then some r else none := by
  rw [Model.rewardModel?, hm, List.find?_cons]
  by_cases hname : r.name = name
  · simp [hname]
  · rw [beq_eq_false_iff_ne.2 hname, if_neg hname]
    rfl

/-- The reward model that a property refers to is the one that is observed, and its counterpart is
the one of the quotient. -/
theorem IsQuotient.selectReward (h : IsQuotient m Q o c) {name : Option String}
    {r : RewardModel RationalFunction} (hr : selectReward m name = .ok r)
    (hobs : ∀ w ∈ o.rewards, m.rewardModel? w.name = some w)
    (hcover : o.rewards.map (·.name) =
      sortNames (Preserved.rewardNames m (.reward name f))) :
    ∃ r', selectReward Q name = .ok r' ∧ r' ∈ Q.rewards ∧ r ∈ m.rewards ∧
      ∀ s < m.numStates, r'.value (c s) = r.value s := by
  obtain ⟨g, hg, hvalues⟩ := h.rewards
  -- In both cases the observed reward model is the selected one.
  have hsingle : o.rewards = [r] → ∃ r', Reach.selectReward Q name = .ok r' ∧ r' ∈ Q.rewards ∧
      r ∈ m.rewards ∧ ∀ s < m.numStates, r'.value (c s) = r.value s := by
    intro ho
    obtain ⟨hname, hvalue⟩ := hvalues r (ho ▸ List.mem_cons_self)
    have hQ : Q.rewards = [g r] := by rw [hg, ho, List.map_singleton]
    have hmem := List.mem_of_find?_eq_some (hobs r (ho ▸ List.mem_cons_self))
    refine ⟨g r, ?_, hQ ▸ List.mem_cons_self, hmem, hvalue⟩
    cases name with
    | none => simp only [Reach.selectReward, hQ]
    | some name =>
      have hrname : r.name = name := by
        simp only [Reach.selectReward] at hr
        split at hr
        · rename_i r' hr'
          cases hr
          simpa using List.find?_some hr'
        · cases hr
      simp only [Reach.selectReward, rewardModel?_singleton (g r) name hQ, hname, hrname, if_true]
  have hnames : ∀ name, o.rewards.map (·.name) = [name] → m.rewardModel? name = some r →
      o.rewards = [r] := by
    intro name hmap hfind
    obtain ⟨w, hw, hwname⟩ := List.map_eq_singleton_iff.1 hmap
    have := hobs w (hw ▸ List.mem_cons_self)
    rw [hwname, hfind] at this
    rw [hw, Option.some_inj.1 this]
  cases name with
  | none =>
    simp only [Reach.selectReward] at hr
    split at hr
    · rename_i r' hr'
      cases hr
      refine hsingle (hnames r.name ?_ (by rw [rewardModel?_singleton r _ hr', if_pos rfl]))
      rw [hcover, Preserved.rewardNames, hr']
      rfl
    · cases hr
  | some name =>
    simp only [Reach.selectReward] at hr
    split at hr
    · rename_i r' hr'
      cases hr
      exact hsingle (hnames name hcover hr')
    · cases hr

/-! ## Properties -/

/-- A property has an answer: values, or a state with an infinite reward. -/
def Answered (m : Model RationalFunction) (phi : Property) : Prop :=
  (∃ X, check m phi = .ok X) ∨ ∃ s, check m phi = .error (.infiniteReward s)

/-- The state formulas of a property. -/
def formulas : Property → List StateFormula
  | .probability (.next f) => [f]
  | .probability (.until f g) => [f, g]
  | .probability (.boundedUntil f g _) => [f, g]
  | .probability (.eventually f) => [f]
  | .probability (.globally f) => [f]
  | .reward _ f => [f]

theorem labels_eq (phi : Property) : phi.labels = (formulas phi).flatMap StateFormula.labels := by
  cases phi with
  | probability path => cases path <;> simp [formulas, Property.labels, PathFormula.labels]
  | reward name f => simp [formulas, Property.labels]

theorem not_answered {e : CheckError} (h : check m phi = .error e)
    (he : ∀ s, e ≠ .infiniteReward s) : ¬ Answered m phi := by
  rintro (⟨X, hX⟩ | ⟨s, hs⟩)
  · cases h.symm.trans hX
  · exact he s (Except.error.inj (h.symm.trans hs))

theorem selectReward_error {name : Option String} {e : CheckError}
    (h : selectReward m name = .error e) (s : ℕ) : e ≠ .infiniteReward s := by
  cases name with
  | none =>
    simp only [selectReward] at h
    split at h <;> cases h
    exact nofun
  | some name =>
    simp only [selectReward] at h
    split at h <;> cases h
    exact nofun

/-- A reward property with an answer has a reward model. -/
theorem Answered.selectReward {name : Option String} (h : Answered m (.reward name f)) :
    ∃ r, selectReward m name = .ok r := by
  rcases hr : Reach.selectReward m name with e | r
  · exact absurd h (not_answered (by simp only [check, hr]) (selectReward_error hr))
  · exact ⟨r, rfl⟩

theorem statesOf_cases (m : Model RationalFunction) (f : StateFormula) :
    (∃ S, statesOf m f = .ok S) ∨ ∃ e, statesOf m f = .error (.model e) := by
  unfold statesOf
  split
  · exact .inl ⟨_, rfl⟩
  · exact .inr ⟨_, rfl⟩

/-- The formulas of a property with an answer have sets of states. -/
theorem Answered.states (h : Answered m phi) : ∀ f ∈ formulas phi, ∃ S, statesOf m f = .ok S := by
  intro f hf
  rcases statesOf_cases m f with hS | ⟨e, he⟩
  · exact hS
  refine absurd h ?_
  -- The formula without a set of states decides the result, unless one before it does.
  have hpair : ∀ g k : StateFormula, f ∈ [g, k] →
      ∃ e, statesOfBoth m g k = .error (.model e) := by
    intro g k hmem
    rcases statesOf_cases m g with ⟨S, hS⟩ | ⟨e', he'⟩
    · obtain rfl : f = k := by
        rcases List.mem_cons.1 hmem with rfl | hk
        · cases hS.symm.trans he
        · exact List.mem_singleton.1 hk
      exact ⟨e, by simp only [statesOfBoth, hS, he]⟩
    · exact ⟨e', by simp only [statesOfBoth, he']⟩
  cases phi with
  | probability path =>
    cases path with
    | next g =>
      obtain rfl := List.mem_singleton.1 hf
      exact not_answered (e := .model e) (by simp only [check, checkPath, he]) nofun
    | «until» g k =>
      obtain ⟨e', he'⟩ := hpair g k hf
      exact not_answered (e := .model e') (by simp only [check, checkPath, he']) nofun
    | boundedUntil g k n =>
      obtain ⟨e', he'⟩ := hpair g k hf
      exact not_answered (e := .model e') (by simp only [check, checkPath, he']) nofun
    | eventually g =>
      obtain rfl := List.mem_singleton.1 hf
      exact not_answered (e := .model e) (by simp only [check, checkPath, he]) nofun
    | globally g =>
      obtain rfl := List.mem_singleton.1 hf
      exact not_answered (e := .model e) (by simp only [check, checkPath, he]) nofun
  | reward name g =>
    obtain rfl := List.mem_singleton.1 hf
    rcases hr : Reach.selectReward m name with e' | r
    · exact not_answered (by simp only [check, hr]) (selectReward_error hr)
    · exact not_answered (e := .model e) (by simp only [check, hr, he]) nofun

/-- Everything that a property with an answer refers to can be observed. -/
theorem Answered.observe (h : Answered m phi) :
    ∃ o, observe m (.ofProperties m [phi]) = .ok o := by
  refine observe_ok (fun name hname => ?_) fun name hname => ?_
  · simp only [Preserved.ofProperties, mem_sortNames, List.flatMap_singleton, labels_eq,
      List.mem_flatMap] at hname
    obtain ⟨f, hf, hname⟩ := hname
    obtain ⟨S, hS⟩ := h.states f hf
    exact Labeling.contains_iff_exists.1 (StateFormula.known_of_states? (statesOf_eq_ok.1 hS) name hname)
  · simp only [Preserved.ofProperties, mem_sortNames, List.flatMap_singleton] at hname
    cases phi with
    | probability path => cases hname
    | reward name' f =>
      cases name' with
      | none =>
        obtain ⟨r, hr, rfl⟩ := List.mem_map.1 hname
        exact Option.isSome_iff_exists.1 (List.find?_isSome.2 ⟨r, hr, by simp⟩)
      | some name' =>
        obtain rfl := List.mem_singleton.1 hname
        obtain ⟨r, hr⟩ := h.selectReward
        simp only [Reach.selectReward] at hr
        split at hr
        · rename_i r' hr'
          exact ⟨r', hr'⟩
        · cases hr

/-- A property has the same answer on a quotient that observes what it refers to. -/
theorem IsQuotient.check (h : IsQuotient m Q o c) (hw : m.WellFormed) (hc : m.IsCanonical)
    (hv : m.IsStochasticAt v) (ho : Bisim.observe m (.ofProperties m [phi]) = .ok o)
    (ha : Answered m phi) :
    (∃ X Y, Reach.check m phi = .ok X ∧ Reach.check Q phi = .ok Y ∧ Lifts m Q c X Y) ∨
      ∃ s < m.numStates, Reach.check m phi = .error (.infiniteReward s) ∧
        Reach.check Q phi = .error (.infiniteReward (c s)) := by
  obtain ⟨⟨hnames, hlabels⟩, hrnames, hrewards⟩ := observe_spec ho
  -- All state formulas of the property have matching states, whatever the operator.
  have hstates : ∀ f ∈ formulas phi, ∃ S T, Reach.statesOf m f = .ok S ∧ Reach.statesOf Q f = .ok T ∧
      Matches m Q c S T := by
    intro f hf
    obtain ⟨S, hS⟩ := ha.states f hf
    obtain ⟨T, hT, hm⟩ := h.statesOf hw hlabels (fun name hname => by
      rw [hnames]
      simp only [Preserved.ofProperties, mem_sortNames, List.flatMap_singleton, labels_eq]
      exact List.mem_flatMap.2 ⟨f, hf, hname⟩) hS
    exact ⟨S, T, hS, hT, hm⟩
  cases phi with
  | probability path =>
    refine .inl ?_
    cases path with
    | next f =>
      obtain ⟨S, T, hS, hT, hm⟩ := hstates f List.mem_cons_self
      exact ⟨_, _, by simp only [Reach.check, checkPath, hS],
        by simp only [Reach.check, checkPath, hT], h.nextProb hw hc hm⟩
    | «until» f g =>
      obtain ⟨S, T, hS, hT, hm⟩ := hstates f List.mem_cons_self
      obtain ⟨S', T', hS', hT', hm'⟩ := hstates g (List.mem_cons_of_mem f List.mem_cons_self)
      obtain ⟨X, Y, hX, hY, hl⟩ := h.untilProb hw hc hv hm hm'
      exact ⟨X, Y, by simp only [Reach.check, checkPath, statesOfBoth, hS, hS', hX],
        by simp only [Reach.check, checkPath, statesOfBoth, hT, hT', hY], hl⟩
    | boundedUntil f g k =>
      obtain ⟨S, T, hS, hT, hm⟩ := hstates f List.mem_cons_self
      obtain ⟨S', T', hS', hT', hm'⟩ := hstates g (List.mem_cons_of_mem f List.mem_cons_self)
      exact ⟨_, _, by simp only [Reach.check, checkPath, statesOfBoth, hS, hS'],
        by simp only [Reach.check, checkPath, statesOfBoth, hT, hT'],
        h.boundedUntilProb hw hc hm hm' k⟩
    | eventually f =>
      obtain ⟨S, T, hS, hT, hm⟩ := hstates f List.mem_cons_self
      obtain ⟨X, Y, hX, hY, hl⟩ := h.untilProb hw hc hv (.full h) hm
      exact ⟨X, Y, by simp only [Reach.check, checkPath, hS, hX],
        by simp only [Reach.check, checkPath, hT, hY], hl⟩
    | globally f =>
      obtain ⟨S, T, hS, hT, hm⟩ := hstates f List.mem_cons_self
      obtain ⟨X, Y, hX, hY, hl⟩ := h.untilProb hw hc hv (.full h) (hm.compl h)
      exact ⟨_, _, by simp only [Reach.check, checkPath, hS, hX],
        by simp only [Reach.check, checkPath, hT, hY], hl.complement h⟩
  | reward name f =>
    obtain ⟨S, T, hS, hT, hm⟩ := hstates f List.mem_cons_self
    obtain ⟨r, hr⟩ := ha.selectReward
    obtain ⟨r', hr', hmem', hmem, hvalue⟩ := h.selectReward (f := f) hr hrewards (by
      rw [hrnames]
      simp only [Preserved.ofProperties, List.flatMap_singleton])
    have hcheck : Reach.check m (.reward name f) = Reach.expectedReward m r S := by
      simp only [Reach.check, hr, hS]
    have hcheck' : Reach.check Q (.reward name f) = Reach.expectedReward Q r' T := by
      simp only [Reach.check, hr', hT]
    rw [hcheck, hcheck']
    exact h.expectedReward hw hc hv hm (hc.reward r hmem) (h.canonical.reward r' hmem') hvalue

/-! ## Soundness -/

/-- At a valuation all transitions have positive rational values, and those of a state sum to
one. -/
structure IsDistributionAt (m : Model RationalFunction) (v : Valuation) : Prop where
  positive : ∀ s, ∀ e ∈ m.row s, ∃ q : ℚ, 0 < q ∧ e.2.evalAt v = .ok q
  sum_one : ∀ s < m.numStates, ((m.row s).map fun e => (e.2.evalAt v).toOption.getD 0).sum = 1

theorem IsDistributionAt.isStochasticAt (h : IsDistributionAt m v) : m.IsStochasticAt v := by
  constructor
  case positive =>
    intro s e he
    obtain ⟨q, hpos, hq⟩ := h.positive s e he
    exact ⟨q, hpos, RationalFunction.evalsTo_of_evalAt hq⟩
  case sum_one =>
    intro s hs
    have hterm : ∀ e ∈ m.row s, EvalsTo v (e.2.toFrac * (1 : ℕ → Frac) e.1)
        ((e.2.evalAt v).toOption.getD 0) := by
      intro e he
      obtain ⟨q, -, hq⟩ := h.positive s e he
      rw [hq, Pi.one_apply, mul_one]
      exact RationalFunction.evalsTo_of_evalAt hq
    rw [← h.sum_one s hs]
    exact evalsTo_sum hterm

/-- For every model whose transitions are distributions at some valuation, and every property: when
checking the property gives values, the model can be minimised for it, checking the minimised model
gives values too, and every state has the value of its class; when checking fails because the reward
of a state is infinite, the model can be minimised, and checking the minimised model fails in the same
way for the class of the state. -/
theorem minimise_sound (hw : m.WellFormed) (hc : m.IsCanonical) (hv : IsDistributionAt m v)
    (phi : Property) :
    (∀ X, Reach.check m phi = .ok X → ∃ q Y, minimise m [phi] .strong = .ok q ∧
        Reach.check q.model phi = .ok Y ∧ ∀ s < m.numStates, ∃ b f,
          q.stateMap[s]? = some b ∧ X[s]? = some f ∧ Y[b]? = some f) ∧
      ∀ s, Reach.check m phi = .error (.infiniteReward s) → ∃ q b,
        minimise m [phi] .strong = .ok q ∧ q.stateMap[s]? = some b ∧
          Reach.check q.model phi = .error (.infiniteReward b) := by
  have hmain : Answered m phi → ∃ q c, minimise m [phi] .strong = .ok q ∧
      (∀ s < m.numStates, q.stateMap[s]? = some (c s)) ∧
      ((∃ X Y, Reach.check m phi = .ok X ∧ Reach.check q.model phi = .ok Y ∧
          Lifts m q.model c X Y) ∨
        ∃ s < m.numStates, Reach.check m phi = .error (.infiniteReward s) ∧
          Reach.check q.model phi = .error (.infiniteReward (c s))) ∧
      ∀ s < m.numStates, c s < q.model.numStates := by
    intro ha
    obtain ⟨o, ho⟩ := ha.observe
    obtain ⟨q, c, hq, hquot, -, hmap⟩ :=
      reduce_spec .worklist hw hc (sortNames_nodup _) (sortNames_nodup _) ho
    exact ⟨q, c, hq, hmap, hquot.check hw hc hv.isStochasticAt ho ha, hquot.lt⟩
  constructor
  · intro X hX
    obtain ⟨q, c, hq, hmap, hresult, hlt⟩ := hmain (.inl ⟨X, hX⟩)
    rcases hresult with ⟨X', Y, hX', hY, hl⟩ | ⟨s, -, hs, -⟩
    · cases hX.symm.trans hX'
      refine ⟨q, Y, hq, hY, fun s hs => ?_⟩
      have hs' := hs.trans_eq hl.size.symm
      have hget := Array.getElem?_eq_getElem hs'
      refine ⟨c s, X[s], hmap s hs, hget, ?_⟩
      rw [← hget]
      exact (hl.canonical.getElem?_eq hl.quotient_canonical hs'
        ((hlt s hs).trans_eq hl.quotient_size.symm) (hl.vector_eq s hs).symm).symm
    · cases hX.symm.trans hs
  · intro s hs
    obtain ⟨q, c, hq, hmap, hresult, -⟩ := hmain (.inr ⟨s, hs⟩)
    rcases hresult with ⟨X, Y, hX, -⟩ | ⟨t, ht, hm, hQ⟩
    · cases hX.symm.trans hs
    · cases hm.symm.trans hs
      exact ⟨q, c s, hq, hmap s ht, hQ⟩

theorem coin_isDistributionAt : IsDistributionAt coin fun _ => none where
  positive s e he := by
    obtain ⟨q, hpos, hq⟩ := coin_value s e he
    rw [hq]
    exact ⟨q, hpos, RationalFunction.evalAt_const _ q⟩
  sum_one s hs := by
    have hone : ((1 : ℚ) / 2) + 1 / 2 = 1 := by norm_num
    rcases s with _ | _ | _ | s
    · simpa [coin, Model.row, RationalFunction.evalAt_const, Except.toOption] using hone
    · simp [coin, Model.row, RationalFunction.evalAt_const, Except.toOption]
    · simp [coin, Model.row, RationalFunction.evalAt_const, Except.toOption]
    · exact absurd hs (by simp [coin, Model.numStates])

/-- A coin can be minimised for the probability of heads. For the tosses before heads it can be
minimised too, but these are infinitely many, as tails may come. -/
theorem coin_minimise_sound :
    (∃ X q Y, check coin (.probability (.eventually (.label "heads"))) = .ok X ∧
      minimise coin [.probability (.eventually (.label "heads"))] .strong = .ok q ∧
      check q.model (.probability (.eventually (.label "heads"))) = .ok Y ∧
      ∀ s < 3, ∃ b f, q.stateMap[s]? = some b ∧ X[s]? = some f ∧ Y[b]? = some f) ∧
    check coin (.reward none (.label "heads")) = .error (.infiniteReward 0) ∧
    ∃ q b, minimise coin [.reward none (.label "heads")] .strong = .ok q ∧
      q.stateMap[0]? = some b ∧
      check q.model (.reward none (.label "heads")) = .error (.infiniteReward b) := by
  have hsound := minimise_sound coin_wellFormed coin_isCanonical coin_isDistributionAt
  have hv := coin_isDistributionAt.isStochasticAt
  constructor
  · have hfits : Fits coin (.full 3) ⟨#[false, true, false]⟩ := ⟨coin_wellFormed, rfl, rfl⟩
    obtain ⟨X, hX, -⟩ := untilProb_spec hfits coin_isCanonical hv.isStochastic hv.readsAt
    obtain ⟨q, Y, hq, hY, hall⟩ := (hsound (.probability (.eventually (.label "heads")))).1 X hX
    exact ⟨X, q, Y, hX, hq, hY, hall⟩
  · have hinf : check coin (.reward none (.label "heads")) = .error (.infiniteReward 0) :=
      expectedReward_infinite (s := 0) (by decide) (by decide +kernel) nofun
    exact ⟨hinf, (hsound (.reward none (.label "heads"))).2 0 hinf⟩

end Bisim
end MarkovCheck

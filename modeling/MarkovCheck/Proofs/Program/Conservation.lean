import Mathlib
import MarkovCheck.Proofs.Bisim.Conservation
import MarkovCheck.Proofs.Program.Labels

/-!
# MarkovCheck.Proofs.Program.Conservation

What leaves a state of a built model sums to one.

The mass of every choice is checked, and the check is exact for rational functions. Choosing uniformly
among the choices divides the mass of each by their number, a valuation without choices stays, and
adding up parallel transitions conserves the sum. The values are canonical and the parts of the builder
fit together, so the model is in stored form.

* `distribution_mass`  — the mass of a choice.
* `sum_movesOf_eq_one` — the mass of the moves of a valuation.
* `IsBuild.expect_one` — the mass of a row.
* `IsBuild.isSound`    — the parts of the model fit together.
* `build_conserves`    — the built model, and what it is minimised to.
-/

namespace MarkovCheck

open RationalFunction (toFrac)

/-! ## Choices -/

namespace Context

variable {c : Context RationalFunction} {s : List ℤ} {choice : List Command}

theorem outcomes_isCanonical (hc : c.constants.env.IsCanonical) (hvars : c.vars.IsResolved)
    (hs : c.vars.InRange s) (h : c.Distributes s choice) :
    ∀ e ∈ c.outcomes s choice, e.2.IsCanonical := by
  refine filterMap_outcome?_canonical hc hvars hs fun us hus u hu => ?_
  obtain ⟨command, hcommand, hu⟩ := exists_of_mem_picks hus u hu
  exact (distribution_ok h).1 command hcommand u hu

/-- The mass of a choice is one. -/
theorem distribution_mass (hc : c.constants.env.IsCanonical) (hvars : c.vars.IsResolved)
    (hs : c.vars.InRange s) (h : c.Distributes s choice) :
    ((c.outcomes s choice).map fun e => e.2.toFrac).sum = 1 := by
  have hmass := Value.sumCanonical_denotes (l := (c.outcomes s choice).map (·.2)) fun f hf => by
    obtain ⟨e, he, rfl⟩ := List.mem_map.1 hf
    exact outcomes_isCanonical hc hvars hs h e he
  rw [List.map_map] at hmass
  have hone : Value.sumCanonical ((c.outcomes s choice).map (·.2)) = .one := by
    unfold Distributes distribution at h
    split at h
    · cases h
    · dsimp only at h
      split at h
      · rename_i hclose
        cases h
        exact of_decide_eq_true hclose
      · cases h
  rw [hone] at hmass
  exact hmass.2.symm.trans RationalFunction.denotes_one.2

end Context

namespace Exploration

theorem sum_flatten_eq_length {ds : List (Distribution RationalFunction)}
    (h : ∀ d ∈ ds, (d.map fun e => e.2.toFrac).sum = 1) :
    (ds.flatten.map fun e => e.2.toFrac).sum = ds.length := by
  induction ds with
  | nil => simp
  | cons d ds ih =>
    rw [List.forall_mem_cons] at h
    rw [List.flatten_cons, List.map_append, List.sum_append, h.1, ih h.2, List.length_cons,
      Nat.cast_succ, add_comm]

/-- Choosing uniformly among distributions gives one. -/
theorem sum_movesOf_eq_one (s : List ℤ) {ds : List (Distribution RationalFunction)}
    (hcan : ∀ d ∈ ds, ∀ e ∈ d, e.2.IsCanonical)
    (h : ∀ d ∈ ds, (d.map fun e => e.2.toFrac).sum = 1) :
    ((movesOf s ds).map fun e => e.2.toFrac).sum = 1 := by
  by_cases hnil : ds = []
  · subst hnil
    rw [movesOf, List.map_singleton, List.sum_singleton]
    exact RationalFunction.denotes_one.2
  · have hlength : ds.length ≠ 0 := mt List.length_eq_zero_iff.1 hnil
    have hscaled : ∀ e ∈ ds.flatten, (scaled (uniform? ds.length) e.2).toFrac =
        e.2.toFrac * (ds.length : Frac)⁻¹ := by
      intro e he
      obtain ⟨d, hd, he⟩ := List.mem_flatten.1 he
      rw [(scaled_denotes hlength (hcan d hd e he).denotes).2, div_eq_mul_inv]
    rw [movesOf_of_ne_nil hnil, List.map_map]
    calc (ds.flatten.map fun e => (scaled (uniform? ds.length) e.2).toFrac).sum
        = (ds.flatten.map fun e => e.2.toFrac * (ds.length : Frac)⁻¹).sum := by
          rw [List.map_congr_left hscaled]
      _ = (ds.length : Frac) * (ds.length : Frac)⁻¹ := by
          rw [List.sum_map_mul_right, sum_flatten_eq_length h]
      _ = 1 := mul_inv_cancel₀ (Nat.cast_ne_zero.2 hlength)

end Exploration

/-! ## Searches -/

namespace Program

variable {p : Program} {o : BuildOptions} {m : Model RationalFunction}
  {c : Context RationalFunction} {initial : List (List ℤ)} {x : Exploration RationalFunction}

theorem sum_movesOf_choices (hc : c.constants.env.IsCanonical) (hvars : c.vars.IsResolved)
    {s : List ℤ} (hs : c.vars.InRange s) {ds : List (Distribution RationalFunction)}
    (hds : c.choices p.dynamics s = .ok ds) :
    ((Exploration.movesOf s ds).map fun e => e.2.toFrac).sum = 1 := by
  obtain ⟨-, hchoices, rfl⟩ := choices_spec hds
  refine Exploration.sum_movesOf_eq_one s ?_ ?_
  · intro d hd
    obtain ⟨choice, hchoice, rfl⟩ := List.mem_map.1 hd
    exact Context.outcomes_isCanonical hc hvars hs (hchoices choice hchoice)
  · intro d hd
    obtain ⟨choice, hchoice, rfl⟩ := List.mem_map.1 hd
    exact Context.distribution_mass hc hvars hs (hchoices choice hchoice)

/-- Everything that was added from a state sums to one. -/
theorem IsSearch.outflow_eq_one (h : p.IsSearch o c initial x) (hc : c.constants.env.IsCanonical)
    (hvars : c.vars.IsResolved) {i : ℕ} (hi : i < x.found.length) :
    Builder.outflow x.builder.transitions.toList i 1 = 1 := by
  obtain ⟨s, hs⟩ : ∃ s, x.found[i]? = some s := ⟨_, List.getElem?_eq_getElem hi⟩
  have hmem := List.mem_of_getElem? hs
  obtain ⟨ds, hds, -⟩ := h.canExpand s hmem
  have hblock := Exploration.filter_zipIdx_flatMap (k := 0)
    (fun s => Exploration.movesOf s (Exploration.distributionsAt c p.dynamics s)) hs
  rw [Nat.zero_add] at hblock
  rw [← sum_movesOf_choices hc hvars (h.isFound s hmem).inRange hds, Builder.outflow,
    h.explored.transitions, List.filter_map]
  have hfilter : (Exploration.movesFrom c p.dynamics 0 x.found).filter
      ((fun t => decide (t.source = i)) ∘
        fun e => (⟨e.1, x.found.idxOf e.2.1, e.2.2⟩ : Transition RationalFunction)) =
      (Exploration.movesOf s ds).map (i, ·) := by
    rw [Exploration.distributionsAt, hds] at hblock
    exact hblock
  rw [hfilter, List.map_map, List.map_map]
  simp [Function.comp_def]

/-! ## Labels and rewards -/

section Annotations

open Builder (IsSound)

variable {b b' : Builder RationalFunction} {labels : List LabelDecl} {rewards : List RewardDecl}

theorem rewardValues_isCanonical {env : Env RationalFunction} (henv : env.IsCanonical)
    {items : List (Expression × Expression)} {vs : List RationalFunction}
    (h : rewardValues env items = .ok vs) : ∀ f ∈ vs, f.IsCanonical := by
  induction items generalizing vs with
  | nil =>
    cases h
    exact nofun
  | cons item items ih =>
    simp only [rewardValues] at h
    split at h
    · cases h
    · exact ih h
    · split at h
      · cases h
      · rename_i f hf
        split at h
        · cases h
        · rename_i vs hvs
          cases h
          exact List.forall_mem_cons.2 ⟨Expression.evalValue_isCanonical henv hf, ih hvs⟩

theorem isSound_addLabels {env : Env RationalFunction} {s : ℕ} (hb : b.IsSound)
    (h : addLabels env s b labels = .ok b') : b'.IsSound := by
  induction labels generalizing b with
  | nil =>
    cases h
    exact hb
  | cons l labels ih =>
    simp only [addLabels] at h
    split at h
    · cases h
    · refine ih ?_ h
      split
      · exact hb.addStateLabel s l.name
      · exact hb

theorem isSound_addRewards {env : Env RationalFunction} (henv : env.IsCanonical) {s : ℕ}
    (hb : b.IsSound) (h : addRewards env s b rewards = .ok b') : b'.IsSound := by
  induction rewards generalizing b with
  | nil =>
    cases h
    exact hb
  | cons r rewards ih =>
    simp only [addRewards] at h
    split at h
    · cases h
    · rename_i vs hvs
      refine ih ?_ h
      split
      · exact hb
      · exact hb.addStateReward r.name s
          (Value.sumCanonical_denotes (rewardValues_isCanonical henv hvs)).1

theorem isSound_addAnnotations (hc : c.constants.env.IsCanonical) {l : List (List ℤ × ℕ)}
    (hb : b.IsSound) (h : addAnnotations c labels rewards b l = .ok b') : b'.IsSound := by
  induction l generalizing b with
  | nil =>
    cases h
    exact hb
  | cons e l ih =>
    simp only [addAnnotations] at h
    split at h
    · cases h
    · rename_i b₁ hb₁
      split at h
      · cases h
      · rename_i b₂ hb₂
        refine ih ?_ h
        exact isSound_addRewards (Context.env_isCanonical hc e.1) (isSound_addLabels hb hb₁) hb₂

theorem isSound_declareNames (hx : x.builder.IsSound) (n : ℕ) (labels : List LabelDecl)
    (rewards : List RewardDecl) : (declareNames x n labels rewards).IsSound := by
  unfold declareNames
  refine List.foldlRecOn _ _ ?_ fun b hb r _ => hb.addRewardModel r.name
  refine List.foldlRecOn _ _ ?_ fun b hb l _ => hb.addLabel l.name
  refine List.foldlRecOn _ _ ?_ fun b hb s _ => hb.addStateLabel s deadlockLabel
  refine IsSound.addLabel ?_ deadlockLabel
  refine List.foldlRecOn _ _ ?_ fun b hb s _ => hb.addStateLabel s initLabel
  exact hx.addLabel initLabel

theorem IsSearch.isSound (h : p.IsSearch o c initial x) (hc : c.constants.env.IsCanonical)
    (hvars : c.vars.IsResolved) (hinitial : p.IsInitial c initial) (hbare : x.IsBare) :
    x.builder.IsSound where
  target_lt t ht := by
    rw [h.explored.transitions] at ht
    obtain ⟨e, he, rfl⟩ := List.mem_map.1 ht
    rw [h.explored.numStates]
    exact List.idxOf_lt_length_of_mem (h.explored.targets e he)
  value := h.canonical hc hvars
  initial_lt s hs := by
    rw [h.initial_eq, List.mem_range] at hs
    rw [h.explored.numStates]
    exact hs.trans_le (h.initial_prefix hinitial).length_le
  label_names := by
    rw [hbare.labels]
    exact List.nodup_nil
  reward_names := by
    rw [hbare.rewards]
    exact List.nodup_nil
  reward r hr := by
    rw [hbare.rewards] at hr
    cases hr

end Annotations

/-! ## Built models -/

namespace IsBuild

variable {labels : List LabelDecl} {rewards : List RewardDecl} {b : Builder RationalFunction}
  (h : p.IsBuild o c initial x labels rewards b m)
include h

theorem isSound : b.IsSound := by
  have hx := h.isSearch.isSound h.isCanonical h.isResolved h.isInitial (explore_isBare h.explore)
  exact isSound_addAnnotations h.isCanonical (isSound_declareNames hx _ _ _) h.annotations

/-- The values of every row sum to one. -/
theorem expect_one {s : ℕ} (hs : s < m.numStates) : m.expect s 1 = 1 := by
  rw [Builder.finish_numStates h.finish] at hs
  rw [← h.isSearch.outflow_eq_one h.isCanonical h.isResolved (hs.trans_eq h.numStates),
    ← h.sameChain.transitions, ← Builder.sum_rowsOf h.isSound.value hs, Model.expect,
    Builder.finish_row h.finish]

end IsBuild

/-- Built models are in stored form, with canonical values that sum to one in every row. -/
theorem build_spec (h : p.build o = .ok m) :
    m.WellFormed ∧ m.IsCanonical ∧ ∀ s < m.numStates, m.expect s 1 = 1 := by
  obtain ⟨c, initial, x, labels, rewards, b, h⟩ := build_steps h
  exact ⟨Builder.finish_wellFormed h.isSound h.finish, Builder.finish_isCanonical h.isSound h.finish,
    fun s hs => h.expect_one hs⟩

/-- A built model conserves probability exactly, and so does every model that it is minimised to. It
is minimised to one when what is to be preserved is known. -/
theorem build_conserves (h : p.build o = .ok m) :
    m.Conserves ∧ ∀ preserved,
      (Bisim.Covers m preserved → ∀ a, ∃ q, Bisim.reduce m preserved .strong a = .ok q) ∧
        ∀ kind a q, Bisim.reduce m preserved kind a = .ok q → q.model.Conserves := by
  obtain ⟨hw, hc, hone⟩ := build_spec h
  refine ⟨Model.conserves_of_expect hc hone, fun preserved => ⟨?_, ?_⟩⟩
  · intro hcovers a
    exact Bisim.reduce_ok a hw hc hcovers
  · intro kind a q hq
    obtain ⟨-, hcq, honeq⟩ := Bisim.reduce_conserves hw hc hone hq
    exact Model.conserves_of_expect hcq honeq

/-! ## A label of the sender -/

open Expression (identifier int bool)

/-- The sender and the receiver, with a label where something is to be sent. -/
def labelledRelay : Program := { relay with labels := [⟨"busy", identifier "x"⟩] }

theorem exists_build_labelledRelay :
    ∃ m : Model RationalFunction, labelledRelay.build {} = .ok m := by
  have hinitial : labelledRelay.initialStates relayContext = .ok [[0, 0]] := rfl
  refine exists_annotated_build (c := relayContext) rfl rfl rfl rfl rfl hinitial (List.cons_ne_nil _ _)
    (fun s hs => relay_canExpand hs) (fun s hs l hl => ?_) fun s hs r hr => absurd hr List.not_mem_nil
  obtain rfl := List.mem_singleton.1 hl
  rcases relay_inRange hs with rfl | rfl | rfl | rfl
  · exact ⟨false, rfl⟩
  · exact ⟨false, rfl⟩
  · exact ⟨true, rfl⟩
  · exact ⟨true, rfl⟩

theorem labelledRelay_toss : labelledRelay.moveValue relayContext [0, 0] [1, 0] ≠ 0 := by
  have hchoices : labelledRelay.choicesAt relayContext [0, 0] = [[toss]] := rfl
  have hturns : relayContext.turn [0, 0] [⟨identifier "p", [("x", bool true)]⟩] = [1, 0] ∧
      relayContext.turn [0, 0] [⟨int 1 - identifier "p", []⟩] = [0, 0] := ⟨rfl, rfl⟩
  have hvalue : relayContext.valueOf [0, 0] ⟨identifier "p", [("x", bool true)]⟩ =
      toField (MvPolynomial.X "p") := (RationalFunction.denotes_param "p").2
  rw [moveValue_single hchoices]
  simp [toss, hturns, hvalue]

/-- The label is known, and the states before and after the toss are not alike. -/
theorem labelledRelay_busy (hm : labelledRelay.build {} = .ok m) : Bisim.Covers m ⟨["busy"], []⟩ ∧
    ∃ s < m.numStates, ∃ t < m.numStates, ¬ Bisim.Alike ⟨["busy"], []⟩ m s m t := by
  obtain ⟨hw, -, -⟩ := build_spec hm
  have hinitial : labelledRelay.initialStates relayContext = .ok [[0, 0]] := rfl
  obtain ⟨x, labels, rewards, b, h⟩ := build_steps_at hm rfl rfl hinitial
  obtain rfl : labelledRelay.labels = labels := Except.ok.inj h.selectLabels
  have hidle : x.found[0]? = some [0, 0] := h.found_of_initial rfl
  obtain ⟨tossed, _, hbusy, hrow, -⟩ := h.exists_row hidle labelledRelay_toss
  obtain ⟨T, hT, hcontains⟩ := h.states?_label (List.mem_singleton_self _)
    fun l hl _ => List.mem_singleton.1 hl
  have hidleNot : T.contains 0 = false := (hcontains 0 [0, 0] hidle).trans rfl
  have hbusyIn : T.contains tossed = true := (hcontains tossed [1, 0] hbusy).trans rfl
  refine ⟨⟨fun name hname => ⟨T, ?_⟩, nofun⟩, 0, Model.lt_of_mem_row hrow, tossed,
    hw.targets_lt 0 _ hrow, fun halike => ?_⟩
  · rw [List.mem_singleton.1 hname]
    exact hT
  · have hsame := halike.labels "busy" (List.mem_singleton_self _)
    rw [Labeling.has, Labeling.has, hT] at hsame
    exact Bool.false_ne_true (hidleNot.symm.trans (hsame.trans hbusyIn))

/-- The sender and the receiver conserve probability, and so does what they are minimised to by each of
the refinements, when the label is preserved: then states with something to send and without stay
apart. -/
theorem relay_build_conserves : ∃ m : Model RationalFunction, labelledRelay.build {} = .ok m ∧
    m.Conserves ∧ ∀ a, ∃ q, Bisim.reduce m ⟨["busy"], []⟩ .strong a = .ok q ∧
      1 < q.model.numStates ∧ q.model.Conserves := by
  obtain ⟨m, hm⟩ := exists_build_labelledRelay
  obtain ⟨hw, hc, -⟩ := build_spec hm
  obtain ⟨hcovers, s, hs, t, ht, hst⟩ := labelledRelay_busy hm
  obtain ⟨hconserves, hreduce⟩ := build_conserves hm
  obtain ⟨hok, hall⟩ := hreduce ⟨["busy"], []⟩
  refine ⟨m, hm, hconserves, fun a => ?_⟩
  obtain ⟨q, hq⟩ := hok hcovers a
  have hapart := Bisim.one_lt_numStates_of_reduce a hw hc (List.nodup_singleton _) List.nodup_nil hq hs
    ht hst
  exact ⟨q, hq, hapart, hall .strong a q hq⟩

end Program
end MarkovCheck

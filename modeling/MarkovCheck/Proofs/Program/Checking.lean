import Mathlib
import MarkovCheck.Proofs.Program.Labels
import MarkovCheck.Proofs.Program.Positivity
import MarkovCheck.Proofs.Reach.Singular

/-!
# MarkovCheck.Proofs.Program.Checking

When checking a property of a built model divides by zero.

The rows of a built model sum to one, but their values may be functions that are nowhere probabilities,
as only numbers are refused for being negative. With them the equations of a property can have a leading
part that is singular. That is ruled out if at some values of the parameters all values of the model are
positive, and so if all probabilities of updates are.

* `IsPositiveAt`             — a function that is positive at a valuation.
* `Program.PositiveAt`       — the probabilities of the updates are positive at a valuation.
* `build_isPositiveAt`       — then the values of the model are.
* `build_check_singular_iff` — the divisions by zero of properties of built models.
* `drift`                    — a program with a property that divides by zero.
-/

namespace MarkovCheck

open RationalFunction

variable {v : Valuation}

/-! ## Functions with positive values -/

namespace RationalFunction

/-- The stored function evaluates to a positive number. -/
def IsPositiveAt (v : Valuation) (f : RationalFunction) : Prop :=
  f.IsCanonical ∧ ∃ q : ℚ, f.evalAt v = .ok q ∧ 0 < q

theorem Denotes.isPositiveAt {f : RationalFunction} {k : Frac} {q : ℚ} (h : f.Denotes k)
    (hk : HasValue v k q) (hq : 0 < q) : f.IsPositiveAt v :=
  ⟨h.1, q, (evalAt_eq_ok_iff h.1).2 (h.2 ▸ hk), hq⟩

theorem IsPositiveAt.hasValue {f : RationalFunction} (h : f.IsPositiveAt v) :
    ∃ q : ℚ, 0 < q ∧ HasValue v f.toFrac q := by
  obtain ⟨hf, q, hq, hpos⟩ := h
  exact ⟨q, hpos, (evalAt_eq_ok_iff hf).1 hq⟩

theorem isWeights_isPositiveAt (v : Valuation) : IsWeights (IsPositiveAt v) where
  one := denotes_one.isPositiveAt (hasValue_one v) one_pos
  mul {f g} hf hg := by
    obtain ⟨q, hq, hfq⟩ := hf.hasValue
    obtain ⟨r, hr, hgr⟩ := hg.hasValue
    exact (mul_spec hf.1.denotes hg.1.denotes).isPositiveAt (hfq.mul hgr) (mul_pos hq hr)
  scaled {n} hn f hf := by
    obtain ⟨q, hq, hfq⟩ := hf.hasValue
    have hpos : 0 < (n : ℚ) := Nat.cast_pos.2 (Nat.pos_of_ne_zero hn)
    have hvalue := hfq.mul ((hasValue_ofQ v n).inv hpos.ne')
    rw [map_natCast, ← div_eq_mul_inv] at hvalue
    exact (Exploration.scaled_denotes hn hf.1.denotes).isPositiveAt hvalue (mul_pos hq (inv_pos.2 hpos))

end RationalFunction

/-- Zero and the elements with a positive value. -/
def positivesAt (v : Valuation) : AddSubmonoid Frac where
  carrier := {k | k = 0 ∨ ∃ q : ℚ, 0 < q ∧ HasValue v k q}
  zero_mem' := .inl rfl
  add_mem' := by
    rintro k l (rfl | ⟨q, hq, hk⟩) (rfl | ⟨r, hr, hl⟩)
    · exact .inl (add_zero 0)
    · rw [zero_add]
      exact .inr ⟨r, hr, hl⟩
    · rw [add_zero]
      exact .inr ⟨q, hq, hk⟩
    · exact .inr ⟨q + r, add_pos hq hr, hk.add hl⟩

namespace Program

variable {p : Program} {o : BuildOptions} {m : Model RationalFunction}
  {c : Context RationalFunction} {initial : List (List ℤ)} {x : Exploration RationalFunction}

theorem IsBuild.row_isPositiveAt {labels : List LabelDecl} {rewards : List RewardDecl}
    {b : Builder RationalFunction} (h : p.IsBuild o c initial x labels rewards b m)
    (hx : ∀ t ∈ x.builder.transitions.toList, t.value.IsPositiveAt v) {s : ℕ}
    {e : ℕ × RationalFunction} (he : e ∈ m.row s) : e.2.IsPositiveAt v := by
  obtain ⟨h0, hvalue⟩ := h.mem_row he
  have hflow : Builder.flow x.builder.transitions.toList s e.1 ∈ positivesAt v :=
    flow_mem (fun t ht => Or.inr (hx t ht).hasValue) s e.1
  obtain ⟨q, hq, hk⟩ := hflow.resolve_left h0
  exact hvalue.isPositiveAt hk hq

/-! ## Probabilities with positive values -/

/-- Probabilities of updates that are not zero as functions have positive values. -/
def PositiveAt (p : Program) (c : Context RationalFunction) (v : Valuation) (s : List ℤ) : Prop :=
  ∀ choice ∈ p.choicesAt c s, ∀ command ∈ choice, ∀ u ∈ command.updates, ∀ f,
    u.probability.evalValue (c.env s) = .ok f → f.isZero = false → ∃ q, f.evalAt v = .ok q ∧ 0 < q

/-- The probabilities of updates are positive at all valuations of the variables that can be reached. -/
def Positive (p : Program) (o : BuildOptions) (v : Valuation) : Prop :=
  ∀ (c : Context RationalFunction) (initial : List (List ℤ)),
    resolveConstants p o.constants = .ok c.constants →
      resolveVariables p c.constants = .ok c.vars → p.initialStates c = .ok initial →
        ∀ s, p.Reachable c initial s → p.PositiveAt c v s

/-- The values of a built model are positive where the probabilities of the updates are. -/
theorem build_isPositiveAt (h : p.build o = .ok m) (hv : p.Positive o v) :
    ∀ s, ∀ e ∈ m.row s, e.2.IsPositiveAt v := by
  obtain ⟨c, initial, x, labels, rewards, b, h⟩ := build_steps h
  have hpositive := hv c initial h.constants h.vars h.initialStates
  intro s e he
  refine h.row_isPositiveAt (h.isSearch.transitions_within (isWeights_isPositiveAt v) ?_) he
  intro s hs choice hchoice hdistributes command hcommand u hu hz
  obtain ⟨f, hf⟩ := ((Context.distribution_ok hdistributes).1 command hcommand u hu).1
  have hprob : c.probabilityAt s u = f := by rw [Context.probabilityAt, hf]
  rw [hprob] at hz ⊢
  exact ⟨Expression.evalValue_isCanonical (Context.env_isCanonical h.isCanonical s) hf,
    hpositive s hs choice hchoice command hcommand u hu f hf hz⟩

/-! ## Properties -/

/-- Checking a property of a built model divides by zero exactly if the equations that it needs have a
leading part that is singular. It never does if all values of the model are positive for some values of
the parameters. -/
theorem build_check_singular_iff (h : p.build o = .ok m) (phi : Property) :
    (Reach.check m phi = .error .singularSystem ↔
      ∃ I, Reach.SolvesFor m phi I ∧ Reach.IsSingular m I) ∧
        ((∃ v, ∀ s, ∀ e ∈ m.row s, ∃ q : ℚ, e.2.evalAt v = .ok q ∧ 0 < q) →
          Reach.check m phi ≠ .error .singularSystem) := by
  obtain ⟨hw, hc, hone⟩ := build_spec h
  have hiff := Reach.check_singular_iff hw hc phi
  refine ⟨hiff, fun ⟨v, hv⟩ herror => ?_⟩
  have hstochastic : m.IsStochasticAt v := by
    constructor
    case positive =>
      intro s e he
      obtain ⟨q, hq, hpos⟩ := hv s e he
      exact ⟨q, hpos, evalsTo_of_evalAt hq⟩
    case sum_one =>
      intro s hs
      rw [hone s hs]
      exact evalsTo_one v
  obtain ⟨I, hI, hsingular⟩ := hiff.1 herror
  exact hI.not_isSingular hw hstochastic hsingular

theorem trial_positive : trial.Positive {} (valuationOf [("p", 1 / 3)]) := by
  intro c initial hconstants hvars _ s _ choice hchoice command hcommand u hu f hf _
  exact trial_probability hconstants hvars hchoice hcommand hu hf

/-- The tries have positive probabilities for a probability of success of one third, and so no property
divides by zero. -/
theorem trial_check_regular : ∃ m : Model RationalFunction, trial.build {} = .ok m ∧
    ∀ phi, Reach.check m phi ≠ .error .singularSystem := by
  have hp := denotes_param "p"
  obtain ⟨m, hm⟩ := exists_build_trial (o := {}) (b := .symbolic (.param "p"))
    (d := .symbolic (.sub (.const 1) (.param "p"))) (f := .param "p") (g := .sub (.const 1) (.param "p"))
    ⟨rfl, rfl, rfl⟩ rfl rfl hp (by simpa using sub_spec (denotes_const 1) hp) rfl
  refine ⟨m, hm, fun phi => (build_check_singular_iff hm phi).2 ⟨valuationOf [("p", 1 / 3)], ?_⟩⟩
  exact fun s e he => (build_isPositiveAt hm trial_positive s e he).2

/-! ## A drift in two directions -/

open Expression (identifier int equals)

def stay : Update := ⟨int 1, []⟩

def ahead : Update := ⟨identifier "p", [("s", int 1)]⟩

def astray : Update := ⟨.unary .minus (identifier "p"), [("s", int 2)]⟩

def back : Update := ⟨int 1 / int 2, [("s", int 0)]⟩

def away : Update := ⟨int 1 / int 2, [("s", int 3)]⟩

/-- Leaves with a probability that is a parameter, and with minus that probability. -/
def spread : Command := { guard := equals (identifier "s") (int 0), updates := [stay, ahead, astray] }

def settle : Command := { guard := equals (identifier "s") (int 1), updates := [back, away] }

/-- The probabilities to leave the first state cancel, so it returns to itself with probability one. -/
def drift : Program where
  constants := [⟨"p", .double, none⟩]
  modules := [⟨"drift", [⟨"s", .range (int 0) (int 3), none⟩], [spread, settle]⟩]
  labels := [⟨"goal", equals (identifier "s") (int 2)⟩]

def driftContext : Context RationalFunction where
  constants := [("p", .symbolic (.param "p"))]
  vars := [⟨"s", 0, 3, false, 0⟩]

theorem drift_distributions : (∃ d, driftContext.distribution [0] [spread] = .ok d) ∧
    ∃ d, driftContext.distribution [1] [settle] = .ok d := by
  have hspread : driftContext.applyCommands [0] [([0], Value.one)] [spread] =
      .ok [([0], Value.mul Value.one (.const 1)), ([1], Value.mul Value.one (.param "p")),
        ([2], Value.mul Value.one (Value.sub Value.zero (.param "p")))] := rfl
  have hsettle : driftContext.applyCommands [1] [([1], Value.one)] [settle] =
      .ok [([0], Value.mul Value.one (.const (1 / 2))), ([3], Value.mul Value.one (.const (1 / 2)))] := by
    have hvalue : (int 1 / int 2).evalValue (driftContext.env [1]) = .ok (const (1 / 2)) :=
      Expression.evalValue_divide rfl (by decide +kernel) two_ne_zero
    have hsign : Context.isNegative (const (1 / 2)) = false := by decide +kernel
    have hz : Value.isZero (const (1 / 2)) = false := isZero_const_eq_false (by norm_num)
    have hback : driftContext.assignments [1] [("s", int 0)] = .ok [(0, 0)] := rfl
    have haway : driftContext.assignments [1] [("s", int 3)] = .ok [(0, 3)] := rfl
    simp only [settle, back, away, Context.applyCommands, Context.applyUpdates, Context.applyUpdate,
      Context.probability, hvalue, hsign, hz, hback, haway, Bool.false_eq_true, if_false]
    rfl
  have hweight : ∀ {f : RationalFunction} {k : Frac}, f.Denotes k → (Value.mul Value.one f).Denotes k :=
    fun hf => by
      have := mul_spec denotes_one hf
      rwa [one_mul] at this
  have hp := denotes_param "p"
  have hstay := hweight (denotes_const 1)
  have hahead := hweight hp
  have hastray := hweight (sub_spec denotes_zero hp)
  have hhalf := hweight (denotes_const (1 / 2))
  refine ⟨⟨_, Context.distribution_isOk hspread ?_ ?_⟩, ⟨_, Context.distribution_isOk hsettle ?_ ?_⟩⟩
  · simpa only [List.forall_mem_cons] using ⟨hstay.1, hahead.1, hastray.1, List.forall_mem_nil _⟩
  · calc _ = (Value.mul Value.one (const 1)).toFrac + ((Value.mul Value.one (param "p")).toFrac +
          ((Value.mul Value.one (zero.sub (param "p"))).toFrac + 0)) := rfl
      _ = 1 := by
        rw [hstay.2, hahead.2, hastray.2, map_one, map_one]
        ring
  · simpa only [List.forall_mem_cons] using ⟨hhalf.1, hhalf.1, List.forall_mem_nil _⟩
  · calc _ = (Value.mul Value.one (const (1 / 2))).toFrac +
          ((Value.mul Value.one (const (1 / 2))).toFrac + 0) := rfl
      _ = ofQ (1 / 2 + 1 / 2) := by rw [hhalf.2, add_zero, map_add]; rfl
      _ = 1 := by norm_num

theorem exists_build_drift : ∃ m : Model RationalFunction, drift.build {} = .ok m := by
  have hinitial : drift.initialStates driftContext = .ok [[0]] := rfl
  have hstates : ∀ {s}, driftContext.vars.InRange s → s = [0] ∨ s = [1] ∨ s = [2] ∨ s = [3] :=
    fun {s} hs => by
      rw [← Variables.mem_all,
        show Variables.all driftContext.vars = [[0], [1], [2], [3]] from rfl] at hs
      simpa using hs
  have hchoices : ∀ {s ds}, driftContext.interleavedChoices s [spread, settle] = .ok ds →
      driftContext.choices drift.dynamics s = .ok ds := by
    intro s ds hds
    change driftContext.interleavedChoices s drift.dynamics.interleaved = _ at hds
    have hsync : driftContext.allSynchronisedChoices s drift.dynamics.synchronised = .ok [] := rfl
    simp only [Context.choices, hds, hsync, List.append_nil]
  obtain ⟨⟨d, hd⟩, d', hd'⟩ := drift_distributions
  refine exists_annotated_build (c := driftContext) rfl rfl rfl rfl rfl hinitial (List.cons_ne_nil _ _)
    (fun s hs => ?_) (fun s hs l hl => ?_) fun s hs r hr => absurd hr List.not_mem_nil
  · rcases hstates hs with rfl | rfl | rfl | rfl
    · have h : spread.guard.evalBool (driftContext.env [0]) = .ok true := rfl
      have h' : settle.guard.evalBool (driftContext.env [0]) = .ok false := rfl
      exact ⟨[d], hchoices (by simp only [Context.interleavedChoices, h, h', hd]), fun _ => rfl⟩
    · have h : spread.guard.evalBool (driftContext.env [1]) = .ok false := rfl
      have h' : settle.guard.evalBool (driftContext.env [1]) = .ok true := rfl
      exact ⟨[d'], hchoices (by simp only [Context.interleavedChoices, h, h', hd']), fun _ => rfl⟩
    · exact ⟨[], hchoices rfl, fun _ => rfl⟩
    · exact ⟨[], hchoices rfl, fun _ => rfl⟩
  · obtain rfl := List.mem_singleton.1 hl
    rcases hstates hs with rfl | rfl | rfl | rfl
    · exact ⟨false, rfl⟩
    · exact ⟨false, rfl⟩
    · exact ⟨true, rfl⟩
    · exact ⟨false, rfl⟩

/-- The first valuation returns to itself with probability one, and yet leads to others. -/
theorem drift_moves : drift.moveValue driftContext [0] [0] = 1 ∧
    drift.moveValue driftContext [0] [1] ≠ 0 ∧ drift.moveValue driftContext [0] [2] ≠ 0 ∧
      drift.moveValue driftContext [1] [3] ≠ 0 := by
  have hspread : drift.choicesAt driftContext [0] = [[spread]] := rfl
  have hsettle : drift.choicesAt driftContext [1] = [[settle]] := rfl
  have hturns : driftContext.turn [0] [stay] = [0] ∧ driftContext.turn [0] [ahead] = [1] ∧
      driftContext.turn [0] [astray] = [2] ∧ driftContext.turn [1] [back] = [0] ∧
        driftContext.turn [1] [away] = [3] := ⟨rfl, rfl, rfl, rfl, rfl⟩
  have hstay : driftContext.valueOf [0] stay = 1 := (denotes_const 1).2.trans (map_one ofQ)
  have hahead : driftContext.valueOf [0] ahead = toField (MvPolynomial.X "p") := (denotes_param "p").2
  have hastray : driftContext.valueOf [0] astray = 0 - toField (MvPolynomial.X "p") :=
    (sub_spec denotes_zero (denotes_param "p")).2
  have haway : driftContext.valueOf [1] away = ofQ (1 / 2) := by
    have heval : away.probability.evalValue (driftContext.env [1]) = .ok (const (1 / 2)) :=
      Expression.evalValue_divide rfl rfl two_ne_zero
    rw [Context.valueOf, heval]
    exact (denotes_const (1 / 2)).2
  have hp : toField (MvPolynomial.X "p") ≠ 0 := toField_ne_zero (MvPolynomial.X_ne_zero "p")
  rw [moveValue_single hspread, moveValue_single hspread, moveValue_single hspread,
    moveValue_single hsettle]
  simp [spread, settle, hturns, hstay, hahead, hastray, haway, hp]

section Drift

variable {initial : List (List ℤ)} {x : Exploration RationalFunction} {rewards : List RewardDecl}
  {b : Builder RationalFunction} {m : Model RationalFunction}
  (h : drift.IsBuild {} driftContext initial x drift.labels rewards b m)
  (hstart : x.found[0]? = some [0])
include h hstart

theorem drift_returns (hw : m.WellFormed) : m.mass 0 {u | u = 0} = 1 := by
  obtain ⟨hself, -⟩ := drift_moves
  have hrow : (0, const 1) ∈ m.row 0 := by
    rw [h.isSearch.mem_row_iff h.isModelOf h.isCanonical h.isResolved hstart (List.cons_ne_nil _ _)]
    exact ⟨[0], hstart, hself ▸ one_ne_zero, hself ▸ by simpa using denotes_const 1⟩
  exact (Model.mass_eq_of_mem hw hrow).trans ((denotes_const 1).2.trans (map_one ofQ))

/-- The first state reaches the goal, and by way of the second one the state that is never left. -/
theorem drift_maybe (hw : m.WellFormed) : ∃ T, Reach.statesOf m (.label "goal") = .ok T ∧
    0 ∈ Reach.maybeStates m (.full m.numStates) T := by
  obtain ⟨T, hT, hgoal⟩ := h.states?_label (List.mem_singleton_self _)
    fun l hl _ => List.mem_singleton.1 hl
  have hstates : Reach.statesOf m (.label "goal") = .ok T := by
    rw [Bisim.statesOf_eq_ok, StateFormula.states?, hT]
  have hfits := Reach.fits_full hw (Reach.size_of_statesOf hw hstates)
  -- The transitions of the first two states, and where the label holds.
  obtain ⟨-, hahead, hastray, haway⟩ := drift_moves
  obtain ⟨middle, _, hmiddle, hmiddleRow, -⟩ := h.exists_row hstart hahead
  obtain ⟨goal, _, hgoalState, hgoalRow, -⟩ := h.exists_row hstart hastray
  obtain ⟨far, _, hfar, hfarRow, -⟩ := h.exists_row hmiddle haway
  have hstartNot : T.contains 0 = false := (hgoal 0 [0] hstart).trans rfl
  have hmiddleNot : T.contains middle = false := (hgoal middle [1] hmiddle).trans rfl
  have hgoalIn : T.contains goal = true := (hgoal goal [2] hgoalState).trans rfl
  have hfarNot : T.contains far = false := (hgoal far [3] hfar).trans rfl
  have hpass : ∀ {s : ℕ} {e : ℕ × RationalFunction}, e ∈ m.row s →
      (StateSet.full m.numStates).contains s = true := fun he =>
    StateSet.contains_full (Model.lt_of_mem_row he)
  -- The last state stays where it is, so it has probability zero.
  have hfarNo : (Reach.noStates m (.full m.numStates) T).contains far = true := by
    rw [Reach.mem_noStates hfits (hw.targets_lt middle _ hfarRow)]
    intro hpath
    have hloop := h.isSearch.row_of_deadlock h.isModelOf hfar rfl
    obtain ⟨t, rfl, ht⟩ := hpath.target_of_closed (· = far) rfl fun t ht e he => by
      rw [ht, hloop] at he
      rw [List.mem_singleton.1 he]
    exact Bool.false_ne_true (hfarNot.symm.trans ht)
  refine ⟨T, hstates, (Reach.mem_maybeStates_iff_path hfits (Model.lt_of_mem_row hgoalRow)).2 ⟨?_, ?_⟩⟩
  · exact .step (hpass hgoalRow) hgoalRow (.here hgoalIn)
  · exact .step ⟨hpass hmiddleRow, hstartNot⟩ hmiddleRow
      (.step ⟨hpass hfarRow, hmiddleNot⟩ hfarRow (.here hfarNo))

end Drift

/-- Reaching the goal of the drift divides by zero, as the first state is undecided and returns to itself
with probability one. -/
theorem drift_check_singular : ∃ m : Model RationalFunction, drift.build {} = .ok m ∧
    Reach.check m (.probability (.eventually (.label "goal"))) = .error .singularSystem := by
  obtain ⟨m, hm⟩ := exists_build_drift
  obtain ⟨hw, hc, -⟩ := build_spec hm
  refine ⟨m, hm, ?_⟩
  have hinitial : drift.initialStates driftContext = .ok [[0]] := rfl
  obtain ⟨x, labels, rewards, b, h⟩ := build_steps_at hm rfl rfl hinitial
  obtain rfl : drift.labels = labels := Except.ok.inj h.selectLabels
  have hstart : x.found[0]? = some [0] := h.found_of_initial rfl
  obtain ⟨T, hT, hmaybe⟩ := drift_maybe h hstart hw
  exact ((Reach.SolvesFor.eventually hT).singular_iff hw hc).2
    (Reach.isSingular_of_returns (Reach.singleton_prefix_maybeStates hmaybe) (drift_returns h hstart hw))

end Program
end MarkovCheck

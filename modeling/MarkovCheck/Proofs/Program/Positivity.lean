import Mathlib
import MarkovCheck.Proofs.Double.Rounding
import MarkovCheck.Proofs.Program.Conservation
import MarkovCheck.Proofs.Program.Instance

/-!
# MarkovCheck.Proofs.Program.Positivity

The signs of the probabilities of a program without parameters.

When all constants have values, everything that a program computes is a rational number, and so are the
values of its model. The probability of an update is refused if it is negative, but what is looked at is
the sign of the nearest double. So a negative number that rounds to zero passes. If no update has such a
probability, then all weights are positive: products, fractions and sums of positive numbers are, and as
a row sums to one, none of its values is larger.

* `isNegative_const_iff`  — the numbers that are refused.
* `Program.NoUnderflow`   — no negative probability of an update rounds to zero.
* `transitions_within`    — sets that the values of all added transitions are in.
* `build_positive`        — the values of a model are numbers, and when they are positive.
-/

namespace MarkovCheck

open RationalFunction

/-! ## Numbers -/

namespace RationalFunction

/-- The function is a rational number. -/
def IsNumber (f : RationalFunction) : Prop := ∃ q, f = const q

/-- The function is a positive rational number. -/
def IsPositive (f : RationalFunction) : Prop := ∃ q : ℚ, 0 < q ∧ f = const q

theorem isSubdomain_isNumber : IsSubdomain IsNumber where
  const q := ⟨q, rfl⟩
  add := by
    rintro _ _ ⟨x, rfl⟩ ⟨y, rfl⟩
    exact ⟨_, const_add x y⟩
  sub := by
    rintro _ _ ⟨x, rfl⟩ ⟨y, rfl⟩
    exact ⟨_, const_sub x y⟩
  mul := by
    rintro _ _ ⟨x, rfl⟩ ⟨y, rfl⟩
    exact ⟨_, const_mul x y⟩
  quotient := by
    rintro _ _ h ⟨x, rfl⟩ ⟨y, rfl⟩ hz hq
    rw [const_quotient? (mt isZero_const_iff.2 (Bool.eq_false_iff.1 hz))] at hq
    exact ⟨_, (Option.some_inj.1 hq).symm⟩

/-- Functions that contain one, and are closed under products and under division by the number of
choices. -/
structure IsWeights (P : RationalFunction → Prop) : Prop where
  one : P .one
  mul {f g : RationalFunction} (hf : P f) (hg : P g) : P (f.mul g)
  scaled {n : ℕ} (hn : n ≠ 0) {f : RationalFunction} (hf : P f) :
    P (Exploration.scaled (Exploration.uniform? n) f)

theorem scaled_const {n : ℕ} (hn : n ≠ 0) (q : ℚ) :
    Exploration.scaled (Exploration.uniform? n) (const q) = const (q / n) := by
  have h := Exploration.scaled_denotes hn (denotes_const q)
  have hvalue : ofQ q / (n : Frac) = ofQ (q / n) := by rw [map_div₀, map_natCast]
  exact h.eq (hvalue ▸ denotes_const (q / n))

theorem isWeights_isNumber : IsWeights IsNumber where
  one := ⟨1, rfl⟩
  mul := isSubdomain_isNumber.mul
  scaled := by
    rintro n hn _ ⟨q, rfl⟩
    exact ⟨_, scaled_const hn q⟩

theorem isWeights_isPositive : IsWeights IsPositive where
  one := ⟨1, one_pos, rfl⟩
  mul := by
    rintro _ _ ⟨x, hx, rfl⟩ ⟨y, hy, rfl⟩
    exact ⟨_, mul_pos hx hy, const_mul x y⟩
  scaled := by
    rintro n hn _ ⟨q, hq, rfl⟩
    exact ⟨_, div_pos hq (Nat.cast_pos.2 (Nat.pos_of_ne_zero hn)), scaled_const hn q⟩

end RationalFunction

/-! ## Updates -/

namespace Context

/-- A number is refused as a probability if it is negative and does not round to zero. -/
theorem isNegative_const_iff (q : ℚ) :
    isNegative (const q) = true ↔ q < -(1 / 2 ^ 1075) := by
  have hconst : (const q).const? = some q := (const?_eq_some (denotes_const q).1).2 (denotes_const q).2
  have hdouble : Value.toDouble? (const q) = some (Double.ofRat q) := congrArg (Option.map _) hconst
  rw [isNegative, hdouble]
  exact Double.numLt_ofRat_zero_iff q

section Signs

variable {V : Type} [Value V] {c : Context V} {s : List ℤ} {u : Update} {us : List Update}
  {cs : List Command} {d d' : Distribution V}

theorem applyUpdate_sign (h : c.applyUpdate s u d = .ok d') :
    isNegative (c.probabilityAt s u) = false := by
  unfold applyUpdate probability at h
  split at h
  · cases h
  · rename_i v hv
    split at hv
    · cases hv
    · rename_i w hw
      split at hv
      · cases hv
      · rename_i hsign
        cases hv
        rw [probabilityAt, hw]
        exact Bool.eq_false_iff.2 hsign

theorem applyUpdates_sign (h : c.applyUpdates s d us = .ok d') :
    ∀ u ∈ us, isNegative (c.probabilityAt s u) = false := by
  induction us generalizing d' with
  | nil => exact nofun
  | cons u us ih =>
    simp only [applyUpdates] at h
    split at h
    · cases h
    · rename_i hu
      split at h
      · cases h
      · rename_i hus
        exact List.forall_mem_cons.2 ⟨applyUpdate_sign hu, ih hus⟩

theorem applyCommands_sign (h : c.applyCommands s d cs = .ok d') :
    ∀ command ∈ cs, ∀ u ∈ command.updates, isNegative (c.probabilityAt s u) = false := by
  induction cs generalizing d with
  | nil => exact nofun
  | cons command cs ih =>
    simp only [applyCommands] at h
    split at h
    · cases h
    · rename_i hupdates
      exact List.forall_mem_cons.2 ⟨applyUpdates_sign hupdates, ih h⟩

/-- No update of a choice has a probability that is refused. -/
theorem Distributes.sign (h : c.Distributes s cs) :
    ∀ command ∈ cs, ∀ u ∈ command.updates, isNegative (c.probabilityAt s u) = false := by
  unfold Distributes distribution at h
  split at h
  · cases h
  · rename_i hcommands
    exact applyCommands_sign hcommands

end Signs

variable {P : RationalFunction → Prop} {c : Context RationalFunction} {s : List ℤ} {us : List Update}

theorem foldl_mul_within (hP : IsWeights P) (h : ∀ u ∈ us, P (c.probabilityAt s u))
    {w : RationalFunction} (hw : P w) :
    P (us.foldl (fun w u => Value.mul w (c.probabilityAt s u)) w) :=
  List.foldlRecOn us _ hw fun _ hw u hu => hP.mul hw (h u hu)

/-- The weights of what can come of a choice are in a set when the probabilities other than zero are. -/
theorem outcomes_within (hP : IsWeights P) {choice : List Command}
    (h : ∀ command ∈ choice, ∀ u ∈ command.updates,
      (c.probabilityAt s u).isZero = false → P (c.probabilityAt s u)) :
    ∀ e ∈ c.outcomes s choice, P e.2 := by
  intro e he
  obtain ⟨us, hus, he⟩ := List.mem_filterMap.1 he
  unfold outcome? at he
  split at he
  · cases he
  · rename_i hany
    cases he
    refine foldl_mul_within hP (fun u hu => ?_) hP.one
    obtain ⟨command, hcommand, hmem⟩ := exists_of_mem_picks hus u hu
    refine h command hcommand u hmem (Bool.eq_false_iff.2 fun hz => hany ?_)
    exact List.any_eq_true.2 ⟨u, hu, hz⟩

end Context

/-! ## Searches -/

theorem Exploration.movesOf_within {P : RationalFunction → Prop} (hP : IsWeights P) (s : List ℤ)
    {ds : List (Distribution RationalFunction)} (h : ∀ d ∈ ds, ∀ e ∈ d, P e.2) :
    ∀ e ∈ movesOf s ds, P e.2 := by
  intro e he
  by_cases hnil : ds = []
  · subst hnil
    rw [List.mem_singleton.1 he]
    exact hP.one
  · rw [movesOf_of_ne_nil hnil] at he
    obtain ⟨t, ht, rfl⟩ := List.mem_map.1 he
    obtain ⟨d, hd, ht⟩ := List.mem_flatten.1 ht
    exact hP.scaled (mt List.length_eq_zero_iff.1 hnil) (h d hd t ht)

namespace Program

variable {p : Program} {o : BuildOptions} {m : Model RationalFunction}
  {c : Context RationalFunction} {initial : List (List ℤ)} {x : Exploration RationalFunction}
  {P : RationalFunction → Prop}

/-- The values of all added transitions are in a set when the probabilities other than zero are. -/
theorem IsSearch.transitions_within (h : p.IsSearch o c initial x) (hP : IsWeights P)
    (hprob : ∀ s, p.Reachable c initial s → ∀ choice ∈ p.choicesAt c s, c.Distributes s choice →
      ∀ command ∈ choice, ∀ u ∈ command.updates,
        (c.probabilityAt s u).isZero = false → P (c.probabilityAt s u)) :
    ∀ t ∈ x.builder.transitions.toList, P t.value := by
  intro t ht
  rw [h.explored.transitions] at ht
  obtain ⟨e, he, rfl⟩ := List.mem_map.1 ht
  obtain ⟨⟨s, i⟩, hs, he⟩ := List.mem_flatMap.1 he
  obtain ⟨d, hd, rfl⟩ := List.mem_map.1 he
  have hs : s ∈ x.found := List.fst_mem_of_mem_zipIdx hs
  obtain ⟨ds, hds, -⟩ := h.canExpand s hs
  rw [Exploration.distributionsAt, hds] at hd
  obtain ⟨-, hchoices, rfl⟩ := choices_spec hds
  refine Exploration.movesOf_within hP s (fun d hd => ?_) d hd
  obtain ⟨choice, hchoice, rfl⟩ := List.mem_map.1 hd
  exact Context.outcomes_within hP
    (hprob s (h.isFound s hs).reachable choice hchoice (hchoices choice hchoice))

/-- No update of a valuation has a negative number as probability that rounds to zero. -/
def NoUnderflowAt (p : Program) (c : Context RationalFunction) (s : List ℤ) : Prop :=
  ∀ choice ∈ p.choicesAt c s, ∀ command ∈ choice, ∀ u ∈ command.updates, ∀ q : ℚ,
    u.probability.evalValue (c.env s) = .ok (.const q) → q < -(1 / 2 ^ 1075) ∨ 0 ≤ q

/-- No update of a valuation that can be reached has a negative number as probability that rounds to
zero. -/
def NoUnderflow (p : Program) (o : BuildOptions) : Prop :=
  ∀ (c : Context RationalFunction) (initial : List (List ℤ)),
    resolveConstants p o.constants = .ok c.constants →
      resolveVariables p c.constants = .ok c.vars → p.initialStates c = .ok initial →
        ∀ s, p.Reachable c initial s → p.NoUnderflowAt c s

theorem not_parameter_of_parameters_eq_nil (hp : p.parameters o = []) :
    ∀ d ∈ p.constants, d.type = .double → d.definition = none → o.constants.lookup d.name ≠ none := by
  intro d hd htype hdefinition hgiven
  rw [parameters, List.map_eq_nil_iff, List.filter_eq_nil_iff] at hp
  exact hp d hd (by simp [htype, hdefinition, hgiven])

/-! ## Rows -/

/-- The rational numbers that are not negative, in the field. -/
noncomputable def nonnegatives : AddSubmonoid Frac := (AddSubmonoid.nonneg ℚ).map ofQ

theorem mem_nonnegatives {k : Frac} : k ∈ nonnegatives ↔ ∃ q : ℚ, 0 ≤ q ∧ ofQ q = k := Iff.rfl

theorem toFrac_mem_nonnegatives {f : RationalFunction} (hf : f.IsPositive) :
    f.toFrac ∈ nonnegatives := by
  obtain ⟨q, hq, rfl⟩ := hf
  exact ⟨q, hq.le, (denotes_const q).2.symm⟩

theorem flow_mem {S : AddSubmonoid Frac} {ts : List (Transition RationalFunction)}
    (h : ∀ t ∈ ts, t.value.toFrac ∈ S) (i j : ℕ) : Builder.flow ts i j ∈ S := by
  refine S.list_sum_mem fun k hk => ?_
  obtain ⟨f, hf, rfl⟩ := List.mem_map.1 hk
  obtain ⟨t, ht, rfl⟩ := List.mem_map.1 hf
  exact h t (List.mem_of_mem_filter ht)

/-- Positive numbers that sum to one are at most one. -/
theorem le_one_of_sum {l : List (ℕ × RationalFunction)} (hpos : ∀ e ∈ l, e.2.IsPositive)
    (hsum : (l.map fun e => e.2.toFrac).sum = 1) {e : ℕ × RationalFunction} (he : e ∈ l) {q : ℚ}
    (hq : e.2 = const q) : q ≤ 1 := by
  obtain ⟨l₁, l₂, rfl⟩ := List.append_of_mem he
  have hrest : ((l₁ ++ l₂).map fun e => e.2.toFrac).sum ∈ nonnegatives := by
    refine nonnegatives.list_sum_mem fun k hk => ?_
    obtain ⟨d, hd, rfl⟩ := List.mem_map.1 hk
    refine toFrac_mem_nonnegatives (hpos d ?_)
    rcases List.mem_append.1 hd with hd | hd
    · exact List.mem_append_left _ hd
    · exact List.mem_append_right _ (.tail _ hd)
  obtain ⟨r, hr, hrest⟩ := mem_nonnegatives.1 hrest
  rw [List.map_append, List.sum_append] at hrest
  have hsplit : ofQ (q + r) = ofQ 1 := by
    rw [map_add, map_one, ← hsum, hrest, List.map_append, List.sum_append, List.map_cons,
      List.sum_cons, hq, (denotes_const q).2]
    exact add_left_comm _ _ _
  have hone : q + r = 1 := ofQ_injective hsplit
  linarith

namespace IsBuild

variable {labels : List LabelDecl} {rewards : List RewardDecl} {b : Builder RationalFunction}
  (h : p.IsBuild o c initial x labels rewards b m)
include h

theorem mem_row {s : ℕ} {e : ℕ × RationalFunction} (he : e ∈ m.row s) :
    Builder.flow x.builder.transitions.toList s e.1 ≠ 0 ∧
      e.2.Denotes (Builder.flow x.builder.transitions.toList s e.1) := by
  have hs := (Model.lt_of_mem_row he).trans_eq h.isModelOf.numStates
  exact (h.isModelOf.row s hs e.1 e.2).1 he

theorem row_isNumber (hx : ∀ t ∈ x.builder.transitions.toList, t.value.IsNumber) {s : ℕ}
    {e : ℕ × RationalFunction} (he : e ∈ m.row s) : ∃ q : ℚ, e.2 = const q ∧ q ≠ 0 := by
  obtain ⟨h0, hvalue⟩ := h.mem_row he
  have hflow : Builder.flow x.builder.transitions.toList s e.1 ∈ ofQ.range.toAddSubmonoid := by
    refine flow_mem (fun t ht => ?_) s e.1
    obtain ⟨q, hq⟩ := hx t ht
    exact ⟨q, by rw [hq, (denotes_const q).2]; rfl⟩
  obtain ⟨q, hq⟩ := hflow
  refine ⟨q, hvalue.eq (hq ▸ denotes_const q), ?_⟩
  rintro rfl
  exact h0 (hq ▸ map_zero _)

theorem row_isPositive (hx : ∀ t ∈ x.builder.transitions.toList, t.value.IsPositive) {s : ℕ}
    {e : ℕ × RationalFunction} (he : e ∈ m.row s) : e.2.IsPositive := by
  obtain ⟨h0, hvalue⟩ := h.mem_row he
  obtain ⟨q, hq, hflow⟩ := mem_nonnegatives.1
    (flow_mem (fun t ht => toFrac_mem_nonnegatives (hx t ht)) s e.1)
  rw [← hflow] at h0 hvalue
  refine ⟨q, lt_of_le_of_ne hq ?_, hvalue.eq (denotes_const q)⟩
  rintro rfl
  exact h0 (map_zero _)

theorem constants_isNumber (hp : p.parameters o = []) : c.constants.env.Within IsNumber :=
  resolveConstants_within isSubdomain_isNumber
    (fun d hd htype hdefinition hgiven =>
      (not_parameter_of_parameters_eq_nil hp d hd htype hdefinition hgiven).elim) h.constants

end IsBuild

/-- The probability of an update is a number that is not refused. -/
theorem probabilityAt_number (hc : c.constants.env.Within IsNumber) {s : List ℤ}
    {choice : List Command} (h : c.Distributes s choice) {command : Command}
    (hcommand : command ∈ choice) {u : Update} (hu : u ∈ command.updates) :
    ∃ q : ℚ, u.probability.evalValue (c.env s) = .ok (.const q) ∧ c.probabilityAt s u = .const q ∧
      -(1 / 2 ^ 1075) ≤ q := by
  obtain ⟨f, hf⟩ := ((Context.distribution_ok h).1 command hcommand u hu).1
  have hprob : c.probabilityAt s u = f := by rw [Context.probabilityAt, hf]
  have hsign := h.sign command hcommand u hu
  obtain ⟨q, rfl⟩ := Expression.evalValue_within isSubdomain_isNumber (Context.env_within hc s) hf
  rw [hprob] at hsign
  exact ⟨q, hf, hprob, not_lt.1 fun hlt => Bool.false_ne_true (hsign.symm.trans
    ((Context.isNegative_const_iff q).2 hlt))⟩

/-- When all constants have values, all values of a built model are numbers other than zero. They are
positive and at most one, unless a negative probability of an update rounds to zero. -/
theorem build_positive (hp : p.parameters o = []) (h : p.build o = .ok m) :
    (∀ s, ∀ e ∈ m.row s, ∃ q : ℚ, e.2 = .const q ∧ q ≠ 0) ∧
      (p.NoUnderflow o → ∀ s, ∀ e ∈ m.row s, ∃ q : ℚ, e.2 = .const q ∧ 0 < q ∧ q ≤ 1) := by
  obtain ⟨c, initial, x, labels, rewards, b, h⟩ := build_steps h
  have hc := h.constants_isNumber hp
  constructor
  · intro s e he
    refine h.row_isNumber (h.isSearch.transitions_within isWeights_isNumber ?_) he
    intro s _ choice _ hdistributes command hcommand u hu _
    obtain ⟨q, -, hq, -⟩ := probabilityAt_number hc hdistributes hcommand hu
    exact ⟨q, hq⟩
  · intro hunderflow s e he
    have hx : ∀ t ∈ x.builder.transitions.toList, t.value.IsPositive := by
      refine h.isSearch.transitions_within isWeights_isPositive ?_
      intro s hs choice hchoice hdistributes command hcommand u hu hz
      obtain ⟨q, heval, hq, hle⟩ := probabilityAt_number hc hdistributes hcommand hu
      have hsign := hunderflow c initial h.constants h.vars h.initialStates s hs choice hchoice command
        hcommand u hu q heval
      -- It is not below the bound, so it is not negative, and it is not zero as it counts.
      refine ⟨q, lt_of_le_of_ne (hsign.resolve_left (not_lt.2 hle)) ?_, hq⟩
      rintro rfl
      rw [hq] at hz
      cases hz
    have hrow : ∀ e ∈ m.row s, e.2.IsPositive := fun e he => h.row_isPositive hx he
    obtain ⟨q, hpos, hq⟩ := hrow e he
    refine ⟨q, hq, hpos, le_one_of_sum hrow ?_ he hq⟩
    have hone := h.expect_one (Model.lt_of_mem_row he)
    simpa [Model.expect] using hone

/-! ## Tries with a given probability of success -/

open Expression (identifier int bool)

/-- Gives the probability of success a value. -/
def trialOptions (r : ℚ) : BuildOptions := ({} : BuildOptions).withValues [("p", r)]

def trialAt (r : ℚ) : Context RationalFunction :=
  trialContext (.scalar (.rational r)) (.scalar (.rational (1 - r)))

def success : Update := ⟨identifier "p", [("done", bool true)]⟩

def failure : Update := ⟨identifier "q", []⟩

theorem resolveConstants_trial (r : ℚ) :
    resolveConstants trial (trialOptions r).constants = .ok (trialAt r).constants := rfl

theorem trial_noUnderflow : trial.NoUnderflow (trialOptions (1 / 3)) := by
  intro c initial hconstants hvars _ s _ choice hchoice command hcommand u hu q hq
  obtain ⟨constants, vars⟩ := c
  obtain rfl : (trialAt (1 / 3)).constants = constants := Except.ok.inj hconstants
  obtain rfl : (trialAt (1 / 3)).vars = vars := Except.ok.inj hvars
  obtain rfl := eq_attempt hchoice hcommand
  have hinj : ∀ {r : ℚ}, const r = const q → r = q := fun {r} h => ofQ_injective
    ((denotes_const r).2.symm.trans ((congrArg toFrac h).trans (denotes_const q).2))
  right
  rcases List.mem_pair.1 hu with rfl | rfl
  · obtain rfl : 1 / 3 = q := hinj (by cases s <;> exact Except.ok.inj hq)
    norm_num
  · obtain rfl : 1 - 1 / 3 = q := hinj (by cases s <;> exact Except.ok.inj hq)
    norm_num

/-- The model of the tries that succeed with probability one third has positive probabilities. -/
theorem trial_build_positive : ∃ m : Model RationalFunction,
    trial.build (trialOptions (1 / 3)) = .ok m ∧
      ∀ s, ∀ e ∈ m.row s, ∃ q : ℚ, e.2 = .const q ∧ 0 < q ∧ q ≤ 1 := by
  obtain ⟨m, hm⟩ := exists_build_trial (g := .const (1 - 1 / 3)) ⟨rfl, rfl, rfl⟩
    (resolveConstants_trial (1 / 3)) (by with_unfolding_all rfl) (denotes_const (1 / 3))
    (by simpa using denotes_const (1 - 1 / 3)) (by decide +kernel)
  exact ⟨m, hm, (build_positive (by decide) hm).2 trial_noUnderflow⟩

section Underflow

variable {r : ℚ}

theorem valueOf_success (r : ℚ) : (trialAt r).valueOf [0] success = ofQ r := (denotes_const r).2

/-- The probability of success is what leads from the first valuation to the second. -/
theorem moveValue_trial (r : ℚ) : trial.moveValue (trialAt r) [0] [1] = ofQ r := by
  have hsuccess : (trialAt r).turn [0] [success] = [1] := rfl
  have hfailure : (trialAt r).turn [0] [failure] = [0] := rfl
  have hchoices : trial.choicesAt (trialAt r) [0] = [[attempt]] := rfl
  rw [moveValue_single hchoices]
  change ((([success, failure].filter _).map _).sum : Frac) = _
  simp [hsuccess, hfailure, valueOf_success]

/-- A success of probability other than zero is a transition of the model. -/
theorem trial_row (h0 : r ≠ 0) {m : Model RationalFunction} (hm : trial.build (trialOptions r) = .ok m) :
    ∃ e ∈ m.row 0, e.2 = const r := by
  have hinitial : trial.initialStates (trialAt r) = .ok [[0]] := rfl
  obtain ⟨x, labels, rewards, b, h⟩ := build_steps_at hm (resolveConstants_trial r) rfl hinitial
  have hstart : x.found[0]? = some [0] := h.found_of_initial rfl
  have hmove := moveValue_trial r
  have h0' : trial.moveValue (trialAt r) [0] [1] ≠ 0 := hmove ▸ (map_ne_zero ofQ).2 h0
  obtain ⟨j, f, -, hrow, hf⟩ := h.exists_row hstart h0'
  exact ⟨(j, f), hrow, hf.eq (hmove ▸ denotes_const r)⟩

variable (h0 : r < 0) (hr : -(1 / 2 ^ 1075) ≤ r)
include h0 hr

theorem applyCommands_underflow : (trialAt r).applyCommands [0] [([0], Value.one)] [attempt] =
    .ok [([1], Value.mul Value.one (const r)), ([0], Value.mul Value.one (const (1 - r)))] := by
  have hp : (identifier "p").evalValue ((trialAt r).env [0]) = .ok (const r) := rfl
  have hq : (identifier "q").evalValue ((trialAt r).env [0]) = .ok (const (1 - r)) := rfl
  have hpos : 0 < 1 - r := sub_pos.2 (h0.trans one_pos)
  have hsign : Context.isNegative (const r) = false :=
    Bool.eq_false_iff.2 fun h => not_lt.2 hr ((Context.isNegative_const_iff r).1 h)
  have hsign' : Context.isNegative (const (1 - r)) = false := Bool.eq_false_iff.2 fun h =>
    not_lt.2 (hr.trans (h0.trans hpos).le) ((Context.isNegative_const_iff (1 - r)).1 h)
  have hz : Value.isZero (const r) = false := isZero_const_eq_false h0.ne
  have hz' : Value.isZero (const (1 - r)) = false := isZero_const_eq_false hpos.ne'
  have hdone : (trialAt r).assignments [0] [("done", bool true)] = .ok [(0, 1)] := rfl
  have hstay : (trialAt r).assignments [0] [] = .ok [] := rfl
  simp only [attempt, Context.applyCommands, Context.applyUpdates, Context.applyUpdate,
    Context.probability, hp, hq, hsign, hsign', hz, hz', hdone, hstay, Bool.false_eq_true, if_false]
  rfl

/-- The tries are built with a negative probability of success that rounds to zero. -/
theorem exists_build_underflow : ∃ m : Model RationalFunction, trial.build (trialOptions r) = .ok m := by
  refine exists_build_trial ⟨rfl, rfl, rfl⟩ (resolveConstants_trial r) (applyCommands_underflow h0 hr)
    (denotes_const r) ?_ ?_
  · simpa using denotes_const (1 - r)
  · have hguard : (identifier "done").not.evalBool ((trialAt r).env [0]) = .ok true := rfl
    have hquotient : (int 1 / identifier "p").evalValue ((trialAt r).env [0]) = .ok (const (1 / r)) :=
      Expression.evalValue_divide rfl rfl h0.ne
    change (rewardValues ((trialAt r).env [0]) _).isOk
    simp only [rewardValues, hguard, hquotient]
    rfl

end Underflow

/-- All constants of the tries have values, and yet a transition has a negative one. -/
theorem trial_build_not_positive : trial.parameters (trialOptions (-(1 / 2 ^ 1075))) = [] ∧
    ∃ m : Model RationalFunction, trial.build (trialOptions (-(1 / 2 ^ 1075))) = .ok m ∧
      ∃ s, ∃ e ∈ m.row s, ∃ q : ℚ, e.2 = .const q ∧ q < 0 := by
  have h0 : -(1 / 2 ^ 1075 : ℚ) < 0 := neg_lt_zero.2 (one_div_pos.2 (pow_pos two_pos _))
  obtain ⟨m, hm⟩ := exists_build_underflow h0 le_rfl
  obtain ⟨e, he, hq⟩ := trial_row h0.ne hm
  exact ⟨rfl, m, hm, 0, e, he, _, hq, h0⟩

end Program
end MarkovCheck

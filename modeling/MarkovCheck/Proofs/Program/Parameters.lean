import Mathlib
import MarkovCheck.Program.Build
import MarkovCheck.Proofs.Chain.Builder
import MarkovCheck.Proofs.Program.Substitution

/-!
# MarkovCheck.Proofs.Program.Parameters

A program before and after its parameters get values as options of the build.

* `Program.parameters`, `withValues` — the parameters, and options that give them values.
* `resolveConstants_becomes`    — the constants.
* `resolveVariablesFrom_mono`  — the variables stay the same.
* `Context.Becomes`            — the names in a valuation.
-/

namespace MarkovCheck

open RationalFunction
open Builder (lookup_cons_eq_ite lookup_isSome_iff)

/-! ## Options -/

/-- The constants of type `double` that neither the program nor the options define. -/
def Program.parameters (p : Program) (o : BuildOptions) : List String :=
  (p.constants.filter fun d =>
    d.type = .double && d.definition.isNone && (o.constants.lookup d.name).isNone).map (·.name)

/-- The first value that a list has for a parameter. -/
def valuationOf (values : List (String × ℚ)) : Valuation := fun x => values.lookup x

namespace BuildOptions

/-- Gives constants rational values; the first value for a name counts. -/
def withValues (o : BuildOptions) (values : List (String × ℚ)) : BuildOptions :=
  values.foldr (fun e o => o.setConstant e.1 (.rational e.2)) o

theorem withValues_selection (o : BuildOptions) (values : List (String × ℚ)) :
    (o.withValues values).labels = o.labels ∧ (o.withValues values).rewards = o.rewards ∧
      (o.withValues values).fixDeadlocks = o.fixDeadlocks := by
  induction values with
  | nil => exact ⟨rfl, rfl, rfl⟩
  | cons e values ih => exact ih

theorem lookup_insertConstant (name x : String) (s : Scalar) (l : List (String × Scalar)) :
    (insertConstant name s l).lookup x = if x = name then some s else l.lookup x := by
  induction l with
  | nil => exact lookup_cons_eq_ite x name s []
  | cons e l ih =>
    obtain ⟨other, t⟩ := e
    simp only [insertConstant]
    split
    · exact lookup_cons_eq_ite x name s _
    · rename_i heq
      obtain rfl := Std.compare_eq_iff_eq.1 heq
      rw [lookup_cons_eq_ite, lookup_cons_eq_ite]
      split <;> rfl
    · rename_i hgt
      have hne : name ≠ other := fun heq => by
        rw [heq, compare_gt_iff_gt] at hgt
        exact lt_irrefl _ hgt
      rw [lookup_cons_eq_ite, lookup_cons_eq_ite, ih]
      by_cases h : x = other
      · rw [if_pos h, if_neg fun heq => hne (heq.symm.trans h), if_pos h]
      · rw [if_neg h, if_neg h]

theorem lookup_withValues (o : BuildOptions) (values : List (String × ℚ)) (x : String) :
    (o.withValues values).constants.lookup x =
      ((values.lookup x).map Scalar.rational).or (o.constants.lookup x) := by
  induction values with
  | nil => rfl
  | cons e values ih =>
    rw [withValues, List.foldr_cons, setConstant, lookup_insertConstant, lookup_cons_eq_ite]
    split
    · rfl
    · exact ih

end BuildOptions

/-! ## Constants -/

namespace ConstantDecl

variable {v : Valuation} {env env' : Env RationalFunction} {given given' : List (String × Scalar)}
  {d : ConstantDecl} {b b' c c' : Binding RationalFunction} {e : Expression}

theorem coerce_scalar {s : Scalar} (h : d.coerce (.scalar s) = .ok c) : ∃ t, c = .scalar t := by
  cases c with
  | scalar t => exact ⟨t, rfl⟩
  | symbolic f => cases coerce_symbolic h

theorem coerce_of_double (hd : d.type = .double) {s : Scalar} (h : d.coerce (.scalar s) = .ok c) :
    ∃ q, s.number? = some q ∧ c = .scalar (.rational q) := by
  cases s with
  | bool t => simp [coerce, hd] at h
  | int n =>
    simp only [coerce, hd] at h
    cases h
    exact ⟨n, rfl, rfl⟩
  | rational r =>
    simp only [coerce, hd] at h
    cases h
    exact ⟨r, rfl, rfl⟩

/-- A definition before and after the parameters get values. -/
theorem define_becomes (henv : env.Becomes v env') (h : d.define env e = .ok b)
    (h' : d.define env' e = .ok b') (hc : d.coerce b = .ok c) (hc' : d.coerce b' = .ok c') :
    c.Becomes v c' := by
  unfold define at h h'
  split at h
  · -- A definition without parameters is the same scalar in both.
    rename_i s hs
    cases h
    rw [Expression.eval_mono henv.scalar hs] at h'
    cases h'
    obtain rfl := Except.ok.inj (hc.symm.trans hc')
    obtain ⟨t, rfl⟩ := coerce_scalar hc
    exact .scalar t
  · split at h
    · rename_i htype
      split at h
      · rename_i f hf
        cases h
        simp only [coerce, htype] at hc
        cases hc
        split at h'
        · -- With values for its parameters a definition may be evaluated as a scalar.
          rename_i s hs
          cases h'
          obtain ⟨q, hq, rfl⟩ := coerce_of_double htype hc'
          exact .number rfl (Expression.evalValue_becomes henv hf (Expression.evalValue_of_eval hs hq))
        · simp only [htype] at h'
          split at h'
          · rename_i g hg
            cases h'
            simp only [coerce, htype] at hc'
            cases hc'
            exact .value (Expression.evalValue_becomes henv hf hg)
          · cases h'
        · cases h'
      · cases h
    · cases h
  · cases h

/-- What is given for a constant before and after the parameters get values: the same, unless it is a
parameter. -/
inductive IsGiven (v : Valuation) (given given' : List (String × Scalar)) (d : ConstantDecl) : Prop where
  | same (h : given'.lookup d.name = given.lookup d.name)
      (hdouble : given.lookup d.name = none → d.definition = none → d.type ≠ .double)
  | parameter {q : ℚ} (hq : v d.name = some q) (h : given'.lookup d.name = some (.rational q))
      (hgiven : given.lookup d.name = none) (hdefinition : d.definition = none)
      (hdouble : d.type = .double)

theorem resolve_becomes (henv : env.Becomes v env') (hd : d.IsGiven v given given')
    (h : d.resolve given env = .ok c) (h' : d.resolve given' env' = .ok c') : c.Becomes v c' := by
  unfold resolve at h h'
  dsimp only at h h'
  cases hd with
  | same hlookup hdouble =>
    rw [hlookup] at h'
    cases hgiven : given.lookup d.name with
    | some s =>
      simp only [hgiven] at h h'
      obtain rfl := Except.ok.inj (h.symm.trans h')
      obtain ⟨t, rfl⟩ := coerce_scalar h
      exact .scalar t
    | none =>
      cases hdef : d.definition with
      | some e =>
        simp only [hgiven, hdef] at h h'
        split at h
        · cases h
        · rename_i b hb
          split at h'
          · cases h'
          · rename_i b' hb'
            exact define_becomes henv hb hb' h h'
      | none =>
        -- Then the constant would be a parameter.
        simp only [hgiven, hdef, parameter] at h
        split at h
        · cases h
        · rename_i hb
          split at hb
          · rename_i htype _
            exact (hdouble hgiven hdef htype).elim
          · cases hb
  | parameter hq hlookup hgiven hdef htype =>
    have hparam : (Value.param? d.name : Option RationalFunction) = some (.param d.name) := rfl
    simp only [hgiven, hdef, hlookup, parameter, htype, hparam, coerce] at h h'
    cases h
    cases h'
    exact .number rfl (becomes_param hq)

end ConstantDecl

section Constants

variable {v : Valuation} {p : Program} {o : BuildOptions} {values : List (String × ℚ)}
  {c c' k k' : Constants RationalFunction}

theorem resolveConstantsFrom_becomes {given given' : List (String × Scalar)} {ds : List ConstantDecl}
    (hds : ∀ d ∈ ds, d.IsGiven v given given') (hc : c.env.Becomes v c'.env)
    (h : resolveConstantsFrom given c ds = .ok k) (h' : resolveConstantsFrom given' c' ds = .ok k') :
    k.env.Becomes v k'.env := by
  induction ds generalizing c c' with
  | nil =>
    cases h
    cases h'
    exact hc
  | cons d ds ih =>
    rw [List.forall_mem_cons] at hds
    simp only [resolveConstantsFrom] at h h'
    split at h
    · cases h
    · rename_i b hb
      split at h'
      · cases h'
      · rename_i b' hb'
        have hbind := ConstantDecl.resolve_becomes hc hds.1 hb hb'
        refine ih hds.2 (fun x e he => ?_) h h'
        rw [Constants.env, List.lookup_cons] at he ⊢
        split at he
        · cases he
          exact ⟨b', rfl, hbind⟩
        · exact hc x e he

/-- No other constant is given a value when the parameters are. -/
theorem Program.isGiven (hnames : (p.constants.map (·.name)).Nodup)
    (hvalues : ∀ x, x ∈ values.map (·.1) ↔ x ∈ p.parameters o) :
    ∀ d ∈ p.constants, d.IsGiven (valuationOf values) o.constants (o.withValues values).constants := by
  intro d hd
  have hlookup := o.lookup_withValues values d.name
  have hmem : (values.lookup d.name).isSome ↔
      d.type = .double ∧ d.definition = none ∧ o.constants.lookup d.name = none := by
    rw [lookup_isSome_iff, hvalues, Program.parameters, List.mem_map]
    simp only [List.mem_filter, Bool.and_eq_true, decide_eq_true_eq, Option.isNone_iff_eq_none]
    constructor
    · rintro ⟨d', ⟨hd', ⟨htype, hdef⟩, hgiven⟩, hname⟩
      obtain rfl := List.inj_on_of_nodup_map hnames hd' hd hname
      exact ⟨htype, hdef, hgiven⟩
    · rintro ⟨htype, hdef, hgiven⟩
      exact ⟨d, ⟨hd, ⟨htype, hdef⟩, hgiven⟩, rfl⟩
  rcases hvalue : values.lookup d.name with _ | q
  · rw [hvalue] at hlookup hmem
    exact .same hlookup fun hgiven hdef htype => Bool.false_ne_true (hmem.2 ⟨htype, hdef, hgiven⟩)
  · rw [hvalue] at hlookup hmem
    obtain ⟨htype, hdef, hgiven⟩ := hmem.1 rfl
    exact .parameter hvalue hlookup hgiven hdef htype

theorem resolveConstants_becomes (hnames : (p.constants.map (·.name)).Nodup)
    (hvalues : ∀ x, x ∈ values.map (·.1) ↔ x ∈ p.parameters o)
    (h : resolveConstants p o.constants = .ok k)
    (h' : resolveConstants p (o.withValues values).constants = .ok k') :
    k.env.Becomes (valuationOf values) k'.env := by
  have hempty : (Constants.env []).Becomes (valuationOf values) (Constants.env []) := by
    intro x b hb
    cases hb
  exact resolveConstantsFrom_becomes (Program.isGiven hnames hvalues) hempty h h'

end Constants

/-! ## Variables -/

section Variables

variable {V : Type} {env env' : Env V}
  (henv : ∀ {x s}, env x = some (.scalar s) → env' x = some (.scalar s))
include henv

namespace VariableDecl

variable {d : VariableDecl}

theorem bounds_mono {r : ℤ × ℤ × Bool} (h : d.bounds env = .ok r) : d.bounds env' = .ok r := by
  unfold bounds at h ⊢
  split
  · rename_i htype
    rwa [htype] at h
  · rename_i l u htype
    rw [htype] at h
    dsimp only at h
    split at h
    · cases h
    · rename_i n hn
      rw [Expression.evalInt_mono henv hn]
      split at h
      · cases h
      · rename_i k hk
        rw [Expression.evalInt_mono henv hk]
        exact h

theorem initialValue_mono {w : Variable} {n : ℤ} (h : d.initialValue env w = .ok n) :
    d.initialValue env' w = .ok n := by
  unfold initialValue at h ⊢
  split
  · rename_i hnone
    rwa [hnone] at h
  · rename_i e he
    rw [he] at h
    dsimp only at h
    split at h
    · cases h
    · rename_i s hs
      rw [Expression.eval_mono henv hs]
      exact h

theorem resolve_mono {vs : Variables} {x : Variable} (h : d.resolve env vs = .ok x) :
    d.resolve env' vs = .ok x := by
  unfold resolve at h ⊢
  split at h
  · cases h
  · rename_i l u isBool hr
    rw [bounds_mono henv hr]
    dsimp only at h ⊢
    split at h
    · cases h
    · rename_i hrange
      rw [if_neg hrange]
      split at h
      · cases h
      · rename_i hnew
        rw [if_neg hnew]
        split at h
        · cases h
        · rename_i n hn
          rw [initialValue_mono henv hn]
          exact h

end VariableDecl

theorem resolveVariablesFrom_mono {vs ws : Variables} {ds : List VariableDecl}
    (h : resolveVariablesFrom env vs ds = .ok ws) : resolveVariablesFrom env' vs ds = .ok ws := by
  induction ds generalizing vs with
  | nil => exact h
  | cons d ds ih =>
    simp only [resolveVariablesFrom] at h ⊢
    split at h
    · cases h
    · rename_i x hx
      rw [VariableDecl.resolve_mono henv hx]
      exact ih h

end Variables

namespace Context

variable {v : Valuation} {c c' : Context RationalFunction} {s : List ℤ}

/-- Constants and variables before and after the parameters get values. -/
structure Becomes (v : Valuation) (c c' : Context RationalFunction) : Prop where
  vars : c'.vars = c.vars
  constants : c.constants.env.Becomes v c'.constants.env

theorem Becomes.env (h : c.Becomes v c') (s : List ℤ) : (c.env s).Becomes v (c'.env s) := by
  intro x b hb
  unfold Context.env Variables.env at hb ⊢
  rw [h.vars]
  cases hvalue : Variables.valueOf c.vars s x with
  | some t =>
    rw [hvalue] at hb
    cases hb
    exact ⟨_, rfl, .scalar t⟩
  | none =>
    rw [hvalue] at hb
    exact h.constants x b hb

variable {p : Program} {o : BuildOptions} {values : List (String × ℚ)}

theorem becomes_of_resolve (hnames : (p.constants.map (·.name)).Nodup)
    (hvalues : ∀ x, x ∈ values.map (·.1) ↔ x ∈ p.parameters o)
    (h : resolveConstants p o.constants = .ok c.constants)
    (h' : resolveConstants p (o.withValues values).constants = .ok c'.constants)
    (hvars : resolveVariables p c.constants = .ok c.vars)
    (hvars' : resolveVariables p c'.constants = .ok c'.vars) : c.Becomes (valuationOf values) c' := by
  have henv := resolveConstants_becomes hnames hvalues h h'
  exact ⟨Except.ok.inj (hvars'.symm.trans (resolveVariablesFrom_mono henv.scalar hvars)), henv⟩

theorem Becomes.holds_eq (h : c.Becomes v c') {e : Expression} {b : Bool}
    (he : e.evalBool (c.env s) = .ok b) : c'.holds s e = c.holds s e := by
  rw [holds, holds, he, Expression.evalBool_mono (h.env s).scalar he]

theorem Becomes.satisfying (h : c.Becomes v c') {e : Expression} {l states : List (List ℤ)}
    (hl : Program.satisfying c e l = .ok states) : Program.satisfying c' e l = .ok states := by
  induction l generalizing states with
  | nil => exact hl
  | cons s l ih =>
    simp only [Program.satisfying] at hl ⊢
    split at hl
    · cases hl
    · rename_i b hb
      rw [Expression.evalBool_mono (h.env s).scalar hb]
      split at hl
      · cases hl
      · rename_i states hstates
        rw [ih hstates]
        exact hl

theorem Becomes.initialStates (h : c.Becomes v c') {initial : List (List ℤ)}
    (hinitial : p.initialStates c = .ok initial) : p.initialStates c' = .ok initial := by
  unfold Program.initialStates at hinitial ⊢
  rw [h.vars]
  split
  · rename_i hnone
    rwa [hnone] at hinitial
  · rename_i e he
    rw [he] at hinitial
    exact h.satisfying hinitial

end Context
end MarkovCheck

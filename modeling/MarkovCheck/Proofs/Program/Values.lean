import Mathlib
import MarkovCheck.Proofs.Algebra.Evaluation
import MarkovCheck.Proofs.Chain.Mass
import MarkovCheck.Proofs.Program.Choices
import MarkovCheck.Proofs.Reach.LinearSystem

/-!
# MarkovCheck.Proofs.Program.Values

The values that are computed for a program, in the domain with parameters.

Parameters and constants are in canonical form, and the operators keep it, so every computed value
denotes an element of the field. So updates lead somewhere exactly if their weight is not zero, and with
that weight.

* `IsSubdomain` — sets of values that expressions do not lead out of.
* `evalValue_isCanonical`, `resolveConstants_isCanonical` — expressions and constants.
* `outcome?_spec` — where updates lead, and with which weight.
* `distribution_isOk` — probabilities that sum to one make a distribution.
* `scaled_denotes` — a probability divided by the number of choices.
-/

namespace MarkovCheck

open RationalFunction

/-! ## Closed sets of values -/

/-- Functions that contain the numbers and are closed under the operators of expressions. -/
structure RationalFunction.IsSubdomain (P : RationalFunction → Prop) : Prop where
  const (q : ℚ) : P (.const q)
  add {f g : RationalFunction} (hf : P f) (hg : P g) : P (f.add g)
  sub {f g : RationalFunction} (hf : P f) (hg : P g) : P (f.sub g)
  mul {f g : RationalFunction} (hf : P f) (hg : P g) : P (f.mul g)
  quotient {f g h : RationalFunction} (hf : P f) (hg : P g) (hz : g.isZero = false)
    (hq : f.quotient? g = some h) : P h

/-- All names that depend on parameters have values in a set. -/
def Env.Within (P : RationalFunction → Prop) (env : Env RationalFunction) : Prop :=
  ∀ name f, env name = some (.symbolic f) → P f

section Within

variable {P : RationalFunction → Prop} (hP : IsSubdomain P) {env : Env RationalFunction}
  {e : Expression} {f : RationalFunction}
include hP

namespace Expression

theorem evalScalarValue_within (h : e.evalScalarValue env = .ok f) : P f := by
  unfold evalScalarValue scalarValue at h
  split at h
  · cases h
  · split at h
    · cases h
    · cases h
      exact hP.const _

/-- The value of an expression stays where the values of its names are. -/
theorem evalValue_within (henv : env.Within P) (h : e.evalValue env = .ok f) : P f := by
  fun_induction evalValue env e generalizing f with
  | case1 name g hname =>
    cases h
    exact henv name _ hname
  | case2 name => exact evalScalarValue_within hP h
  | case4 a x hx ih =>
    cases h
    exact hP.sub (hP.const 0) (ih hx)
  | case7 a b x hx y hy ihx ihy =>
    cases h
    exact hP.add (ihx hx) (ihy hy)
  | case10 a b x hx y hy ihx ihy =>
    cases h
    exact hP.sub (ihx hx) (ihy hy)
  | case13 a b x hx y hy ihx ihy =>
    cases h
    exact hP.mul (ihx hx) (ihy hy)
  | case17 a b y hy hz x hx q hq ihy ihx =>
    cases h
    exact hP.quotient (ihx hx) (ihy hy) (Bool.eq_false_iff.2 hz) hq
  | case20 c t e hc ih => exact ih h
  | case21 c t e hc ih => exact ih h
  | case22 e => exact evalScalarValue_within hP h
  | case3 | case5 | case6 | case8 | case9 | case11 | case12 | case14 | case15 | case16 | case18
  | case19 => cases h

end Expression

variable {c c' : Constants RationalFunction} {d : ConstantDecl} {b : Binding RationalFunction}
  {given : List (String × Scalar)}

omit hP in
theorem ConstantDecl.coerce_symbolic (h : d.coerce b = .ok (.symbolic f)) : b = .symbolic f := by
  unfold coerce at h
  split at h
  · split at h
    · cases h
      rfl
    · cases h
  · split at h <;> cases h

/-- The value of a constant stays where those of the constants before it are, if its parameter is there
when it is one. -/
theorem ConstantDecl.resolve_within (henv : env.Within P)
    (hparam : d.type = .double → d.definition = none → given.lookup d.name = none → P (.param d.name))
    (h : d.resolve given env = .ok (.symbolic f)) : P f := by
  unfold resolve at h
  dsimp only at h
  split at h
  · cases h
  · rename_i b hb
    rw [coerce_symbolic h] at hb
    split at hb
    · cases hb
    · unfold define at hb
      split at hb
      · cases hb
      · split at hb
        · split at hb
          · rename_i v hv
            cases hb
            exact Expression.evalValue_within hP henv hv
          · cases hb
        · cases hb
      · cases hb
    · rename_i hgiven hdefinition
      unfold parameter at hb
      split at hb
      · rename_i v htype hv
        cases hb
        cases hv
        exact hparam htype hdefinition hgiven
      · cases hb

theorem resolveConstantsFrom_within {ds : List ConstantDecl} (hc : c.env.Within P)
    (hparam : ∀ d ∈ ds, d.type = .double → d.definition = none → given.lookup d.name = none →
      P (.param d.name))
    (h : resolveConstantsFrom given c ds = .ok c') : c'.env.Within P := by
  induction ds generalizing c with
  | nil =>
    cases h
    exact hc
  | cons d ds ih =>
    rw [List.forall_mem_cons] at hparam
    simp only [resolveConstantsFrom] at h
    split at h
    · cases h
    · rename_i b hb
      refine ih (fun name f hf => ?_) hparam.2 h
      rw [Constants.env, List.lookup_cons] at hf
      split at hf
      · cases hf
        exact ConstantDecl.resolve_within hP hc hparam.1 hb
      · exact hc name f hf

theorem resolveConstants_within {p : Program}
    (hparam : ∀ d ∈ p.constants, d.type = .double → d.definition = none →
      given.lookup d.name = none → P (.param d.name))
    (h : resolveConstants p given = .ok c) : c.env.Within P :=
  resolveConstantsFrom_within (c := []) hP (fun _ _ hf => nomatch hf) hparam h

omit hP in
theorem Context.env_within {c : Context RationalFunction} (hc : c.constants.env.Within P)
    (s : List ℤ) : (c.env s).Within P := by
  intro name f hf
  unfold env Variables.env at hf
  split at hf
  · cases hf
  · exact hc name f hf

end Within

/-! ## Canonical form -/

/-- All names that depend on parameters have values in canonical form. -/
def Env.IsCanonical (env : Env RationalFunction) : Prop :=
  ∀ name f, env name = some (.symbolic f) → f.IsCanonical

theorem isSubdomain_isCanonical : IsSubdomain IsCanonical where
  const q := (denotes_const q).1
  add hf hg := (add_spec hf.denotes hg.denotes).1
  sub hf hg := (sub_spec hf.denotes hg.denotes).1
  mul hf hg := (mul_spec hf.denotes hg.denotes).1
  quotient hf hg _ hq := (quotient?_some hf.denotes hg.denotes hq).2.1

theorem Expression.evalValue_isCanonical {env : Env RationalFunction} {e : Expression}
    {f : RationalFunction} (henv : env.IsCanonical) (h : e.evalValue env = .ok f) : f.IsCanonical :=
  evalValue_within isSubdomain_isCanonical henv h

theorem resolveConstants_isCanonical {c : Constants RationalFunction} {p : Program}
    {given : List (String × Scalar)} (h : resolveConstants p given = .ok c) : c.env.IsCanonical :=
  resolveConstants_within isSubdomain_isCanonical (fun d _ _ _ _ => (denotes_param d.name).1) h

theorem Context.env_isCanonical {c : Context RationalFunction} (hc : c.constants.env.IsCanonical)
    (s : List ℤ) : (c.env s).IsCanonical :=
  env_within hc s

/-! ## Updates -/

namespace Context

variable {c : Context RationalFunction} {s : List ℤ} {u : Update} {us : List Update}

theorem probabilityAt_denotes (hc : c.constants.env.IsCanonical) (s : List ℤ) (u : Update) :
    (c.probabilityAt s u).Denotes (c.valueOf s u) := by
  unfold probabilityAt valueOf
  cases hf : u.probability.evalValue (c.env s) with
  | ok f => exact (Expression.evalValue_isCanonical (env_isCanonical hc s) hf).denotes
  | error err => exact denotes_zero

theorem isZero_probabilityAt (hc : c.constants.env.IsCanonical) (s : List ℤ) (u : Update) :
    Value.isZero (c.probabilityAt s u) = true ↔ c.valueOf s u = 0 := by
  have h := probabilityAt_denotes hc s u
  rw [← h.2]
  exact isZero_iff h.1

theorem any_isZero_iff (hc : c.constants.env.IsCanonical) (s : List ℤ) (us : List Update) :
    (us.any fun u => Value.isZero (c.probabilityAt s u)) = true ↔ c.weight s us = 0 := by
  simp only [List.any_eq_true, isZero_probabilityAt hc, weight, List.prod_eq_zero_iff, List.mem_map]

theorem foldl_mul_denotes (hc : c.constants.env.IsCanonical) (s : List ℤ) (us : List Update)
    {w : RationalFunction} {a : Frac} (hw : w.Denotes a) :
    (us.foldl (fun w u => Value.mul w (c.probabilityAt s u)) w).Denotes (a * c.weight s us) := by
  induction us generalizing w a with
  | nil => rwa [weight, List.map_nil, List.prod_nil, mul_one]
  | cons u us ih =>
    have h := ih (mul_spec hw (probabilityAt_denotes hc s u))
    rwa [mul_assoc] at h

/-- Updates of weight other than zero lead to the valuation that they turn the valuation into, and
others to none. -/
theorem outcome?_spec (hc : c.constants.env.IsCanonical) (hvars : c.vars.IsResolved)
    (hs : c.vars.InRange s) (hus : ∀ u ∈ us, c.UpdateEvaluates s u) :
    (c.weight s us = 0 ∧ c.outcome? s us = none) ∨
      c.weight s us ≠ 0 ∧ ∃ w, c.outcome? s us = some (c.turn s us, w) ∧ w.Denotes (c.weight s us) := by
  by_cases h0 : c.weight s us = 0
  · exact .inl ⟨h0, if_pos ((any_isZero_iff hc s us).2 h0)⟩
  · have hany : ¬ (us.any fun u => Value.isZero (c.probabilityAt s u)) = true :=
      fun h => h0 ((any_isZero_iff hc s us).1 h)
    refine .inr ⟨h0, us.foldl (fun w u => Value.mul w (c.probabilityAt s u)) Value.one, ?_, ?_⟩
    · rw [outcome?, if_neg hany, assign_writes hvars hs]
      intro u hu
      refine (hus u hu).2 (Bool.eq_false_iff.2 fun hz => hany ?_)
      exact List.any_eq_true.2 ⟨u, hu, hz⟩
    · have h := foldl_mul_denotes hc s us denotes_one
      rwa [one_mul] at h

/-! ## Choices -/

/-- A choice has a distribution when the probabilities of what can come of it sum to one. -/
theorem distribution_isOk {cs : List Command} {d : Distribution RationalFunction}
    (h : c.applyCommands s [(s, Value.one)] cs = .ok d) (hd : ∀ e ∈ d, e.2.IsCanonical)
    (hsum : (d.map fun e => e.2.toFrac).sum = 1) : c.distribution s cs = .ok d := by
  have hmass := Value.sumCanonical_denotes (l := d.map (·.2)) fun f hf => by
    obtain ⟨e, he, rfl⟩ := List.mem_map.1 hf
    exact hd e he
  rw [List.map_map, show (d.map (toFrac ∘ (·.2))).sum = 1 from hsum] at hmass
  have hone : Value.sumCanonical (d.map (·.2)) = one := hmass.eq denotes_one
  simp only [distribution, h, hone]
  rfl

end Context

namespace Exploration

theorem scaled_denotes {n : ℕ} (hn : n ≠ 0) {w : RationalFunction} {a : Frac} (hw : w.Denotes a) :
    (scaled (uniform? n) w).Denotes (a / n) := by
  unfold uniform?
  split
  · obtain rfl : n = 1 := by omega
    rwa [Nat.cast_one, div_one]
  · have hcast : ofQ ((n : ℤ) : ℚ) = (n : Frac) := by
      rw [Int.cast_natCast, map_natCast]
    have h0 : ofQ ((n : ℤ) : ℚ) ≠ 0 := by
      rw [hcast]
      exact Nat.cast_ne_zero.2 hn
    obtain ⟨q, hq, hd⟩ := div?_spec denotes_one (denotes_const ((n : ℤ) : ℚ)) h0
    have hdiv : (Value.div? Value.one (Value.ofInt n) : Option RationalFunction) = some q := by
      change quotient? one (const _) = some q
      rw [quotient?, hq]
    rw [hdiv, Option.getD_some, div_eq_mul_one_div]
    have hmul := mul_spec hw hd
    rwa [← hcast]

end Exploration

end MarkovCheck

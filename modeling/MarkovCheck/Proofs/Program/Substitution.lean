import Mathlib
import MarkovCheck.Proofs.Algebra.Definedness
import MarkovCheck.Proofs.Program.Values

/-!
# MarkovCheck.Proofs.Program.Substitution

Values for the parameters of a program, before and after its expressions are evaluated.

A constant without a value is a parameter, and what is computed from it is a rational function. With a
value it is a number, and so is what is computed from it, partly by other rules: a definition that does
not mention parameters is evaluated as a scalar, with integers of 64 bits. Whenever both computations
succeed, the number is the value of the function.

* `Becomes`            — a function has a value, which another one is.
* `Binding.Becomes`, `Env.Becomes` — names before and after the parameters get values.
* `eval_mono`, `evalValue_becomes` — the substitution lemmas of the two evaluators.
* `evalValue_of_eval`  — the evaluators agree on numbers.
-/

namespace MarkovCheck

/-! ## Functions and their values -/

namespace RationalFunction

variable {v : Valuation} {f f' g g' : RationalFunction}

/-- The first function evaluates without error, and the second one is its value. -/
def Becomes (v : Valuation) (f g : RationalFunction) : Prop :=
  f.IsCanonical ∧ ∃ q, HasValue v f.toFrac q ∧ g.Denotes (ofQ q)

theorem becomes_iff (hf : f.IsCanonical) : f.Becomes v g ↔ ∃ q, f.evalAt v = .ok q ∧ g = .const q := by
  simp only [Becomes, hf, true_and, evalAt_eq_ok_iff hf]
  refine exists_congr fun q => and_congr_right fun _ => ?_
  exact ⟨fun h => h.eq (denotes_const q), fun h => h ▸ denotes_const q⟩

theorem Becomes.evalAt (h : f.Becomes v g) : ∃ q, f.evalAt v = .ok q ∧ g = .const q :=
  (becomes_iff h.1).1 h

theorem Becomes.isCanonical (h : f.Becomes v g) : g.IsCanonical := by
  obtain ⟨-, q, -, hg⟩ := h
  exact hg.1

theorem becomes_const (v : Valuation) (c : ℚ) : (const c).Becomes v (const c) :=
  ⟨(denotes_const c).1, c, by rw [(denotes_const c).2]; exact hasValue_ofQ v c, denotes_const c⟩

theorem becomes_zero (v : Valuation) : zero.Becomes v zero := becomes_const v 0

theorem becomes_one (v : Valuation) : one.Becomes v one := becomes_const v 1

theorem becomes_param {x : Parameter} {q : ℚ} (hx : v x = some q) : (param x).Becomes v (const q) :=
  (becomes_iff (denotes_param x).1).2 ⟨q, evalAt_param hx, rfl⟩

theorem Becomes.add (hf : f.Becomes v g) (hf' : f'.Becomes v g') : (f.add f').Becomes v (g.add g') := by
  obtain ⟨hf, q, hq, hg⟩ := hf
  obtain ⟨hf', q', hq', hg'⟩ := hf'
  have hsum := add_spec hf.denotes hf'.denotes
  exact ⟨hsum.1, q + q', hsum.2 ▸ hq.add hq', by simpa using add_spec hg hg'⟩

theorem Becomes.sub (hf : f.Becomes v g) (hf' : f'.Becomes v g') : (f.sub f').Becomes v (g.sub g') := by
  obtain ⟨hf, q, hq, hg⟩ := hf
  obtain ⟨hf', q', hq', hg'⟩ := hf'
  have hdiff := sub_spec hf.denotes hf'.denotes
  exact ⟨hdiff.1, q - q', hdiff.2 ▸ hq.sub hq', by simpa using sub_spec hg hg'⟩

theorem Becomes.mul (hf : f.Becomes v g) (hf' : f'.Becomes v g') : (f.mul f').Becomes v (g.mul g') := by
  obtain ⟨hf, q, hq, hg⟩ := hf
  obtain ⟨hf', q', hq', hg'⟩ := hf'
  have hprod := mul_spec hf.denotes hf'.denotes
  exact ⟨hprod.1, q * q', hprod.2 ▸ hq.mul hq', by simpa using mul_spec hg hg'⟩

/-- Where the number can be divided by, the function can. -/
theorem Becomes.quotient? {h k : RationalFunction} (hf : f.Becomes v g) (hf' : f'.Becomes v g')
    (hh : f.quotient? f' = some h) (hk : g.quotient? g' = some k) : h.Becomes v k := by
  obtain ⟨hf, q, hq, hg⟩ := hf
  obtain ⟨hf', q', hq', hg'⟩ := hf'
  obtain ⟨-, hh⟩ := quotient?_some hf.denotes hf'.denotes hh
  obtain ⟨h0, hk⟩ := quotient?_some hg hg' hk
  have hne : q' ≠ 0 := fun hzero => h0 (by rw [hzero, map_zero])
  refine ⟨hh.1, q * q'⁻¹, ?_, ?_⟩
  · rw [hh.2, div_eq_mul_inv]
    exact hq.mul (hq'.inv hne)
  · rwa [map_mul, map_inv₀, ← div_eq_mul_inv]

theorem Becomes.sumCanonical {l k : List RationalFunction} (h : List.Forall₂ (Becomes v) l k) :
    (Value.sumCanonical l).Becomes v (Value.sumCanonical k) := by
  have hl : ∀ f ∈ l, f.IsCanonical := by
    induction h with
    | nil => exact fun f hf => absurd hf List.not_mem_nil
    | cons hfg _ ih => exact List.forall_mem_cons.2 ⟨hfg.1, ih⟩
  have hk : ∀ g ∈ k, g.IsCanonical := by
    induction h with
    | nil => exact fun f hf => absurd hf List.not_mem_nil
    | cons hfg _ ih => exact List.forall_mem_cons.2 ⟨hfg.isCanonical, ih fun f hf => hl f (.tail _ hf)⟩
  have hsum := Value.sumCanonical_denotes hl
  obtain ⟨q, hq, hqk⟩ : ∃ q, HasValue v (l.map toFrac).sum q ∧ (k.map toFrac).sum = ofQ q := by
    clear hl hk hsum
    induction h with
    | nil => exact ⟨0, hasValue_zero v, (map_zero ofQ).symm⟩
    | cons hfg _ ih =>
      obtain ⟨-, q, hq, hg⟩ := hfg
      obtain ⟨r, hr, hrk⟩ := ih
      refine ⟨q + r, hq.add hr, ?_⟩
      rw [List.map_cons, List.sum_cons, hg.2, hrk, map_add]
  exact ⟨hsum.1, q, hsum.2 ▸ hq, hqk ▸ Value.sumCanonical_denotes hk⟩

/-- What is zero stays zero. -/
theorem Becomes.isZero (h : f.Becomes v g) (hz : f.isZero = true) : g.isZero = true := by
  obtain ⟨hf, q, hq, hg⟩ := h
  rw [(isZero_iff hf).1 hz] at hq
  rw [isZero_iff hg.1, hg.2, ← (hasValue_zero v).unique hq, map_zero]

/-! ## Numbers as functions -/

theorem const_add (x y : ℚ) : (const x).add (const y) = const (x + y) :=
  (add_spec (denotes_const x) (denotes_const y)).eq (by simpa using denotes_const (x + y))

theorem const_sub (x y : ℚ) : (const x).sub (const y) = const (x - y) :=
  (sub_spec (denotes_const x) (denotes_const y)).eq (by simpa using denotes_const (x - y))

theorem const_mul (x y : ℚ) : (const x).mul (const y) = const (x * y) :=
  (mul_spec (denotes_const x) (denotes_const y)).eq (by simpa using denotes_const (x * y))

theorem const_quotient? {x y : ℚ} (h : y ≠ 0) :
    (const x).quotient? (const y) = some (const (x / y)) := by
  obtain ⟨k, hk, hd⟩ := div?_spec (denotes_const x) (denotes_const y) ((map_ne_zero ofQ).2 h)
  have hq : k = const (x / y) := hd.eq (by
    have := denotes_const (x / y)
    rwa [show toField (MvPolynomial.C (x / y)) = ofQ (x / y) from rfl, map_div₀] at this)
  rw [RationalFunction.quotient?, hk, hq]

end RationalFunction

open RationalFunction

/-! ## Expressions -/

variable {v : Valuation}

/-- What a name stands for before and after the parameters get values: a scalar stays, and a function
becomes its value, as a scalar or as a function. -/
inductive Binding.Becomes (v : Valuation) :
    Binding RationalFunction → Binding RationalFunction → Prop where
  | scalar (s : Scalar) : Becomes v (.scalar s) (.scalar s)
  | number {f : RationalFunction} {s : Scalar} {q : ℚ} (hs : s.number? = some q)
      (h : f.Becomes v (.const q)) : Becomes v (.symbolic f) (.scalar s)
  | value {f g : RationalFunction} (h : f.Becomes v g) : Becomes v (.symbolic f) (.symbolic g)

/-- Names before and after the parameters get values. -/
def Env.Becomes (v : Valuation) (env env' : Env RationalFunction) : Prop :=
  ∀ x b, env x = some b → ∃ b', env' x = some b' ∧ b.Becomes v b'

namespace Env.Becomes

variable {env env' : Env RationalFunction} {x : String} (h : env.Becomes v env')
include h

theorem scalar {s : Scalar} (hx : env x = some (.scalar s)) : env' x = some (.scalar s) := by
  obtain ⟨b', hb', hb⟩ := h x _ hx
  cases hb
  exact hb'

theorem symbolic {f g : RationalFunction} (hx : env x = some (.symbolic f))
    (hg : (Expression.identifier x).evalValue env' = .ok g) : f.Becomes v g := by
  obtain ⟨b', hb', hb⟩ := h x _ hx
  cases hb with
  | number hs hf =>
    simp only [Expression.evalValue, hb', Expression.evalScalarValue, Expression.eval,
      Expression.evalName, Expression.scalarValue, Expression.expectNumber, hs] at hg
    cases hg
    exact hf
  | value hf =>
    simp only [Expression.evalValue, hb'] at hg
    cases hg
    exact hf

end Env.Becomes

namespace Expression

section Mono

variable {V : Type} {env env' : Env V} {e : Expression}
  (henv : ∀ {x s}, env x = some (.scalar s) → env' x = some (.scalar s))
include henv

/-- An expression that has a scalar without the values of parameters has it with them. -/
theorem eval_mono {s : Scalar} (h : e.eval env = .ok s) : e.eval env' = .ok s := by
  induction e generalizing s with
  | literal t => exact h
  | identifier x =>
    simp only [eval, evalName] at h ⊢
    split at h
    · rename_i t hx
      rw [henv hx]
      exact h
    · cases h
    · cases h
  | unary op a ih =>
    simp only [eval] at h ⊢
    split at h
    · cases h
    · rename_i t ht
      rw [ih ht]
      exact h
  | binary op a b iha ihb =>
    simp only [eval] at h ⊢
    split at h
    · cases h
    · rename_i t ht
      rw [iha ht]
      cases op with
      | connective c =>
        dsimp only at h ⊢
        split at h
        · cases h
        · split at h
          · exact h
          · split at h
            · cases h
            · rename_i u hu
              rw [ihb hu]
              exact h
      | arithmetic op' =>
        dsimp only at h ⊢
        split at h
        · cases h
        · rename_i u hu
          rw [ihb hu]
          exact h
      | comparison op' =>
        dsimp only at h ⊢
        split at h
        · cases h
        · rename_i u hu
          rw [ihb hu]
          exact h
      | divide =>
        dsimp only at h ⊢
        split at h
        · cases h
        · split at h
          · cases h
          · rename_i u hu
            rw [ihb hu]
            exact h
  | ifThenElse c t e ihc iht ihe =>
    simp only [eval] at h ⊢
    split at h
    · cases h
    · rename_i u hu
      rw [ihc hu]
      dsimp only
      split at h
      · cases h
      · exact iht h
      · exact ihe h

theorem evalBool_mono {b : Bool} (h : e.evalBool env = .ok b) : e.evalBool env' = .ok b := by
  unfold evalBool at h ⊢
  split at h
  · cases h
  · rename_i s hs
    rw [eval_mono henv hs]
    exact h

theorem evalInt_mono {n : ℤ} (h : e.evalInt env = .ok n) : e.evalInt env' = .ok n := by
  unfold evalInt at h ⊢
  split at h
  · cases h
  · rename_i s hs
    rw [eval_mono henv hs]
    exact h

end Mono

variable {env env' : Env RationalFunction} {e : Expression} {f g : RationalFunction}

theorem evalScalarValue_becomes (henv : env.Becomes v env') (h : e.evalScalarValue env = .ok f)
    (h' : e.evalScalarValue env' = .ok g) : f.Becomes v g := by
  unfold evalScalarValue scalarValue at h h'
  split at h
  · cases h
  · rename_i s hs
    rw [eval_mono henv.scalar hs] at h'
    dsimp only at h'
    split at h
    · cases h
    · rename_i r hr
      rw [hr] at h'
      cases h
      cases h'
      exact becomes_const v r

/-- The substitution lemma: a value that is computed with parameters becomes the value that is computed
with their values. -/
theorem evalValue_becomes (henv : env.Becomes v env') (h : e.evalValue env = .ok f)
    (h' : e.evalValue env' = .ok g) : f.Becomes v g := by
  fun_induction evalValue env e generalizing f g with
  | case1 x f hx =>
    cases h
    exact henv.symbolic hx h'
  | case2 x hx =>
    -- A name that is not symbolic is a scalar when it has a value, and stays this scalar.
    obtain ⟨s, hs⟩ : ∃ s, env x = some (.scalar s) := by
      unfold evalScalarValue eval evalName at h
      rcases hname : env x with _ | s | f'
      · rw [hname] at h
        cases h
      · exact ⟨s, rfl⟩
      · exact (hx f' hname).elim
    refine evalScalarValue_becomes henv h ?_
    simpa only [evalValue, henv.scalar hs] using h'
  | case4 a x hx ih =>
    cases h
    simp only [evalValue] at h'
    split at h'
    · cases h'
    · rename_i y hy
      cases h'
      exact (becomes_zero v).sub (ih hx hy)
  | case7 a b x hx y hy ihx ihy =>
    cases h
    simp only [evalValue] at h'
    split at h'
    · cases h'
    · rename_i x' hx'
      split at h'
      · cases h'
      · rename_i y' hy'
        cases h'
        exact (ihx hx hx').add (ihy hy hy')
  | case10 a b x hx y hy ihx ihy =>
    cases h
    simp only [evalValue] at h'
    split at h'
    · cases h'
    · rename_i x' hx'
      split at h'
      · cases h'
      · rename_i y' hy'
        cases h'
        exact (ihx hx hx').sub (ihy hy hy')
  | case13 a b x hx y hy ihx ihy =>
    cases h
    simp only [evalValue] at h'
    split at h'
    · cases h'
    · rename_i x' hx'
      split at h'
      · cases h'
      · rename_i y' hy'
        cases h'
        exact (ihx hx hx').mul (ihy hy hy')
  | case17 a b y hy hz x hx q hq ihy ihx =>
    cases h
    simp only [evalValue] at h'
    split at h'
    · cases h'
    · rename_i y' hy'
      split at h'
      · cases h'
      · split at h'
        · cases h'
        · rename_i x' hx'
          split at h'
          · rename_i q' hq'
            cases h'
            exact (ihx hx hx').quotient? (ihy hy hy') hq hq'
          · cases h'
  | case20 c t e hc ih =>
    simp only [evalValue, evalBool_mono henv.scalar hc] at h'
    exact ih h h'
  | case21 c t e hc ih =>
    simp only [evalValue, evalBool_mono henv.scalar hc] at h'
    exact ih h h'
  | case22 e =>
    refine evalScalarValue_becomes henv h ?_
    rwa [evalValue] at h'
    all_goals assumption
  | case3 | case5 | case6 | case8 | case9 | case11 | case12 | case14 | case15 | case16 | case18
  | case19 => cases h

end Expression

/-! ## Numbers -/

theorem Arithmetic.onInt_cast (op : Arithmetic) (m n : ℤ) :
    ((op.onInt m n : ℤ) : ℚ) = op.onRat m n := by
  cases op <;> simp only [Arithmetic.onInt, Arithmetic.onRat, Int.cast_add, Int.cast_sub, Int.cast_mul,
    Int.cast_le, apply_ite (Int.cast (R := ℚ))]

namespace Expression

variable {env : Env RationalFunction} {e : Expression} {a b s : Scalar} {q x y : ℚ}

theorem expectNumber_ok (h : e.expectNumber a = .ok x) : a.number? = some x := by
  unfold expectNumber at h
  split at h
  · rename_i hx
    rw [hx, Except.ok.inj h]
  · cases h

theorem expectNumbers_ok (h : e.expectNumbers a b = .ok (x, y)) :
    a.number? = some x ∧ b.number? = some y := by
  unfold expectNumbers at h
  split at h
  · cases h
  · rename_i hx
    split at h
    · cases h
    · rename_i hy
      cases h
      exact ⟨expectNumber_ok hx, expectNumber_ok hy⟩

theorem arithmetic_ok {op : Arithmetic} (h : e.arithmetic op a b = .ok s) :
    ∃ x y, a.number? = some x ∧ b.number? = some y ∧ s.number? = some (op.onRat x y) := by
  unfold arithmetic at h
  split at h
  · rename_i m n
    unfold checkedInt at h
    split at h
    · cases h
      exact ⟨m, n, rfl, rfl, congrArg some (op.onInt_cast m n)⟩
    · cases h
  · split at h
    · cases h
    · rename_i x y hxy
      cases h
      obtain ⟨hx, hy⟩ := expectNumbers_ok hxy
      exact ⟨x, y, hx, hy, rfl⟩

theorem minus_ok (h : e.applyUnary .minus a = .ok s) :
    ∃ x, a.number? = some x ∧ s.number? = some (-x) := by
  cases a with
  | bool t => cases h
  | int n =>
    simp only [applyUnary, checkedInt] at h
    split at h
    · cases h
      exact ⟨n, rfl, by rw [Scalar.number?, Int.cast_neg]⟩
    · cases h
  | rational r =>
    cases h
    exact ⟨r, rfl, rfl⟩

theorem quotient_ok (h : e.quotient x y = .ok s) : y ≠ 0 ∧ s.number? = some (x / y) := by
  unfold quotient at h
  split at h
  · cases h
  · rename_i h0
    cases h
    exact ⟨h0, rfl⟩

theorem evalScalarValue_of_eval (h : e.eval env = .ok s) (hq : s.number? = some q) :
    e.evalScalarValue env = .ok (.const q) := by
  rw [evalScalarValue, h]
  simp only [scalarValue, expectNumber, hq]
  rfl

theorem evalValue_arithmetic {op : Arithmetic} {l r : Expression} (hl : l.evalValue env = .ok (.const x))
    (hr : r.evalValue env = .ok (.const y))
    (hscalar : (binary (.arithmetic op) l r).evalScalarValue env = .ok (.const (op.onRat x y))) :
    (binary (.arithmetic op) l r).evalValue env = .ok (.const (op.onRat x y)) := by
  cases op with
  | plus =>
    simp only [evalValue, hl, hr]
    exact congrArg Except.ok (const_add x y)
  | minus =>
    simp only [evalValue, hl, hr]
    exact congrArg Except.ok (const_sub x y)
  | times =>
    simp only [evalValue, hl, hr]
    exact congrArg Except.ok (const_mul x y)
  | min => exact hscalar
  | max => exact hscalar

theorem evalValue_divide {l r : Expression} (hl : l.evalValue env = .ok (.const x))
    (hr : r.evalValue env = .ok (.const y)) (h0 : y ≠ 0) :
    (binary .divide l r).evalValue env = .ok (.const (x / y)) := by
  have hz : Value.isZero (const y) = false := isZero_const_eq_false h0
  have hdiv : Value.div? (const x) (const y) = some (const (x / y)) := const_quotient? h0
  simp only [evalValue, hl, hr, hz, hdiv, if_neg Bool.false_ne_true]

/-- The evaluators agree on numbers. -/
theorem evalValue_of_eval (h : e.eval env = .ok s) (hq : s.number? = some q) :
    e.evalValue env = .ok (.const q) := by
  -- The second evaluator leaves to the first one whatever is not arithmetic.
  have hscalar := evalScalarValue_of_eval h hq
  induction e generalizing s q with
  | literal t => exact hscalar
  | identifier x =>
    simp only [eval, evalName] at h
    split at h
    · rename_i t hx
      simpa only [evalValue, hx] using hscalar
    · cases h
    · cases h
  | unary op a ih =>
    cases op with
    | not => exact hscalar
    | minus =>
      simp only [eval] at h
      split at h
      · cases h
      · rename_i t ht
        obtain ⟨x, hx, hs⟩ := minus_ok h
        obtain rfl : -x = q := Option.some_inj.1 (hs.symm.trans hq)
        simp only [evalValue, ih ht hx (evalScalarValue_of_eval ht hx)]
        exact congrArg Except.ok ((const_sub 0 x).trans (congrArg const (zero_sub x)))
  | binary op a b iha ihb =>
    cases op with
    | connective c => exact hscalar
    | comparison op => exact hscalar
    | arithmetic op =>
      simp only [eval] at h
      split at h
      · cases h
      · rename_i t ht
        split at h
        · cases h
        · rename_i u hu
          obtain ⟨x, y, hx, hy, hs⟩ := arithmetic_ok h
          obtain rfl : op.onRat x y = q := Option.some_inj.1 (hs.symm.trans hq)
          exact evalValue_arithmetic (iha ht hx (evalScalarValue_of_eval ht hx))
            (ihb hu hy (evalScalarValue_of_eval hu hy)) hscalar
    | divide =>
      simp only [eval] at h
      split at h
      · cases h
      · rename_i t ht
        split at h
        · cases h
        · rename_i x hx
          split at h
          · cases h
          · rename_i u hu
            split at h
            · cases h
            · rename_i y hy
              have hx := expectNumber_ok hx
              have hy := expectNumber_ok hy
              obtain ⟨h0, hs⟩ := quotient_ok h
              obtain rfl : x / y = q := Option.some_inj.1 (hs.symm.trans hq)
              exact evalValue_divide (iha ht hx (evalScalarValue_of_eval ht hx))
                (ihb hu hy (evalScalarValue_of_eval hu hy)) h0
  | ifThenElse c t e ihc iht ihe =>
    simp only [eval] at h
    split at h
    · cases h
    · rename_i u hu
      split at h
      · cases h
      · rename_i hb
        simp only [evalValue, evalBool, hu, hb]
        exact iht h hq (evalScalarValue_of_eval h hq)
      · rename_i hb
        simp only [evalValue, evalBool, hu, hb]
        exact ihe h hq (evalScalarValue_of_eval h hq)

end Expression
end MarkovCheck

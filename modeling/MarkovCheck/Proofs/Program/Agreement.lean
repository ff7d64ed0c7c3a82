import Mathlib
import MarkovCheck.Proofs.Program.Meaning
import MarkovCheck.Proofs.Program.Substitution

/-!
# MarkovCheck.Proofs.Program.Agreement

The evaluator for scalars and the one for the numeric domain agree.

The second evaluator keeps parameters symbolic and computes sums, differences, products and quotients in its
own domain, where nothing overflows; everything else it leaves to the first one. Evaluation depends only on the
names that it reads. If none of them is symbolic, then names that are may as well be unknown, and without
symbolic names a value is the number that the expression means. The first evaluator gives this number, too,
unless an integer on the way does not fit.

* `Reads`           — the names that an evaluation looks up.
* `eval_congr`, `evalValue_congr` — nothing but these names matters.
* `meaning_of_evalValue` — a value without symbolic names is a number, and the meaning of the expression.
* `evaluators_agree` — the agreement, in both directions.
-/

namespace MarkovCheck

/-- The operations of the numeric domain; a minimum or a maximum is one of scalars. -/
def Arithmetic.onValue? {V : Type} [Value V] : Arithmetic → Option (V → V → V)
  | .plus => some Value.add
  | .minus => some Value.sub
  | .times => some Value.mul
  | .min | .max => none

namespace Expression

/-! ## Names that are read -/

section Reads

variable {V : Type}

/-- The names that an evaluation looks up: neither those of a branch that is not taken, nor those of a right
operand for which the left one leaves nothing to decide. -/
inductive Reads (env : Env V) : Expression → String → Prop where
  | identifier (x : String) : Reads env (.identifier x) x
  | operand {op : UnaryOp} {a : Expression} {x : String} (h : Reads env a x) : Reads env (.unary op a) x
  | left {op : BinaryOp} {a b : Expression} {x : String} (h : Reads env a x) : Reads env (.binary op a b) x
  | right {op : BinaryOp} {a b : Expression} {x : String}
      (hop : ∀ c, op = .connective c → ∃ t, a.evalBool env = .ok t ∧ c.decided? t = none)
      (h : Reads env b x) : Reads env (.binary op a b) x
  | condition {c t e : Expression} {x : String} (h : Reads env c x) : Reads env (.ifThenElse c t e) x
  | thenBranch {c t e : Expression} {x : String} (hc : c.evalBool env = .ok true) (h : Reads env t x) :
      Reads env (.ifThenElse c t e) x
  | elseBranch {c t e : Expression} {x : String} (hc : c.evalBool env = .ok false) (h : Reads env e x) :
      Reads env (.ifThenElse c t e) x

variable {env env' : Env V} {e : Expression}

theorem evalBool_eq (env : Env V) (e : Expression) : e.evalBool env = (e.eval env).bind e.expectBool := by
  unfold evalBool
  cases e.eval env <;> rfl

theorem eval_bind_expectBool (env : Env V) (e : Expression) {α : Type} (f : Bool → Except BuildError α) :
    ((e.eval env).bind fun s => (e.expectBool s).bind f) = (e.evalBool env).bind f := by
  rw [evalBool_eq]
  cases e.eval env <;> rfl

/-- A scalar depends only on the names that are read. -/
theorem eval_congr (h : ∀ x, Reads env e x → env' x = env x) : e.eval env' = e.eval env := by
  induction e with
  | literal s => rfl
  | identifier x =>
    unfold eval evalName
    rw [h x (.identifier x)]
  | unary op a ih => rw [eval_unary, eval_unary, ih fun x hx => h x (.operand hx)]
  | binary op a b iha ihb =>
    have ha := iha fun x hx => h x (.left hx)
    cases op with
    | connective c =>
      rw [eval_connective, eval_connective, ha, eval_bind_expectBool, eval_bind_expectBool]
      cases ht : a.evalBool env with
      | error => rfl
      | ok t =>
        simp only [Except.bind]
        cases hc : c.decided? t with
        | some => rfl
        | none =>
          -- The right operand counts, so its names are read.
          have hb := ihb fun x hx => h x (.right (by rintro _ ⟨⟩; exact ⟨t, ht, hc⟩) hx)
          dsimp only
          rw [hb]
    | arithmetic op =>
      rw [eval_arithmetic, eval_arithmetic, ha, ihb fun x hx => h x (.right (by rintro _ ⟨⟩) hx)]
    | divide =>
      rw [eval_divide, eval_divide, ha, ihb fun x hx => h x (.right (by rintro _ ⟨⟩) hx)]
    | comparison op =>
      rw [eval_comparison, eval_comparison, ha, ihb fun x hx => h x (.right (by rintro _ ⟨⟩) hx)]
  | ifThenElse c t e ihc iht ihe =>
    rw [eval_ifThenElse, eval_ifThenElse, ihc fun x hx => h x (.condition hx), eval_bind_expectBool,
      eval_bind_expectBool]
    cases hc : c.evalBool env with
    | error => rfl
    | ok b =>
      cases b with
      | true => exact iht fun x hx => h x (.thenBranch hc hx)
      | false => exact ihe fun x hx => h x (.elseBranch hc hx)

theorem evalBool_congr (h : ∀ x, Reads env e x → env' x = env x) : e.evalBool env' = e.evalBool env := by
  rw [evalBool_eq, evalBool_eq, eval_congr h]

end Reads

/-! ## The evaluator for the numeric domain -/

section Value

variable {V : Type} [Value V] {env env' : Env V} {e : Expression}

theorem evalValue_unary_minus (env : Env V) (a : Expression) :
    (unary .minus a).evalValue env = (a.evalValue env).bind fun x => .ok (Value.sub Value.zero x) := by
  rw [evalValue]
  cases a.evalValue env <;> rfl

theorem evalValue_onValue {op : Arithmetic} {g : V → V → V} (hop : op.onValue? = some g) (env : Env V)
    (a b : Expression) : (binary (.arithmetic op) a b).evalValue env =
      (a.evalValue env).bind fun x => (b.evalValue env).bind fun y => .ok (g x y) := by
  cases op with
  | plus | minus | times =>
    cases hop
    rw [evalValue]
    cases a.evalValue env with
    | error => rfl
    | ok x => cases b.evalValue env <;> rfl
  | min | max => cases hop

/-- Operations that the numeric domain does not have are left to the other evaluator. -/
theorem evalValue_onScalars {op : Arithmetic} (hop : (op.onValue? : Option (V → V → V)) = none) (env : Env V)
    (a b : Expression) : (binary (.arithmetic op) a b).evalValue env =
      (binary (.arithmetic op) a b).evalScalarValue env := by
  cases op with
  | plus | minus | times => cases hop
  | min | max => rfl

theorem evalValue_divide_eq (env : Env V) (a b : Expression) : (binary .divide a b).evalValue env =
    (b.evalValue env).bind fun y =>
      if Value.isZero y then .error ((binary .divide a b).invalid "division by zero")
      else (a.evalValue env).bind fun x =>
        ((Value.div? x y).elim (.error ((binary .divide a b).invalid "division by zero")) .ok) := by
  rw [evalValue]
  cases b.evalValue env with
  | error => rfl
  | ok y =>
    simp only [Except.bind]
    split
    · rfl
    · cases a.evalValue env with
      | error => rfl
      | ok x => dsimp only; cases Value.div? x y <;> rfl

theorem evalValue_ifThenElse (env : Env V) (c t e : Expression) : (ifThenElse c t e).evalValue env =
    (c.evalBool env).bind fun b => if b then t.evalValue env else e.evalValue env := by
  rw [evalValue]
  cases c.evalBool env with
  | error => rfl
  | ok b => cases b <;> rfl

theorem evalScalarValue_congr (h : ∀ x, Reads env e x → env' x = env x) :
    e.evalScalarValue env' = e.evalScalarValue env := by
  unfold evalScalarValue
  rw [eval_congr h]

/-- A value depends only on the names that are read. -/
theorem evalValue_congr (h : ∀ x, Reads env e x → env' x = env x) :
    e.evalValue env' = e.evalValue env := by
  induction e with
  | literal s => exact evalScalarValue_congr h
  | identifier x =>
    unfold evalValue
    rw [h x (.identifier x), evalScalarValue_congr h]
  | unary op a ih =>
    cases op with
    | not => exact evalScalarValue_congr h
    | minus => rw [evalValue_unary_minus, evalValue_unary_minus, ih fun x hx => h x (.operand hx)]
  | binary op a b iha ihb =>
    cases op with
    | connective c => exact evalScalarValue_congr h
    | comparison op => exact evalScalarValue_congr h
    | arithmetic op =>
      cases hop : (op.onValue? : Option (V → V → V)) with
      | none => rw [evalValue_onScalars hop, evalValue_onScalars hop, evalScalarValue_congr h]
      | some g =>
        rw [evalValue_onValue hop, evalValue_onValue hop, iha fun x hx => h x (.left hx),
          ihb fun x hx => h x (.right (by rintro _ ⟨⟩) hx)]
    | divide =>
      rw [evalValue_divide_eq, evalValue_divide_eq, iha fun x hx => h x (.left hx),
        ihb fun x hx => h x (.right (by rintro _ ⟨⟩) hx)]
  | ifThenElse c t e _ iht ihe =>
    rw [evalValue_ifThenElse, evalValue_ifThenElse, evalBool_congr fun x hx => h x (.condition hx)]
    cases hc : c.evalBool env with
    | error => rfl
    | ok b =>
      cases b with
      | true => exact iht fun x hx => h x (.thenBranch hc hx)
      | false => exact ihe fun x hx => h x (.elseBranch hc hx)

end Value

end Expression

/-! ## Numbers -/

section Numbers

open RationalFunction

variable {s t : Scalar} {x y : ℚ}

theorem Arithmetic.exists_meaning (op : Arithmetic) (hs : s.number? = some x) (ht : t.number? = some y) :
    ∃ u, op.meaning s t = some u ∧ u.number? = some (op.result x y) := by
  have hnumbers : s.onNumbers (fun x y => some (.rational (op.result x y))) t =
      some (.rational (op.result x y)) := by
    rw [Scalar.onNumbers, hs, ht]
    rfl
  cases s with
  | bool => cases hs
  | rational => exact ⟨_, hnumbers, rfl⟩
  | int m =>
    cases t with
    | bool => cases ht
    | rational => exact ⟨_, hnumbers, rfl⟩
    | int n =>
      obtain rfl : (m : ℚ) = x := Option.some_inj.1 hs
      obtain rfl : (n : ℚ) = y := Option.some_inj.1 ht
      refine ⟨.int (op.result m n), rfl, congrArg some ?_⟩
      rw [← op.onInt_eq, op.onInt_cast, op.onRat_eq]

theorem Arithmetic.onValue?_const {op : Arithmetic}
    {g : RationalFunction → RationalFunction → RationalFunction} (hop : op.onValue? = some g) (x y : ℚ) :
    g (const x) (const y) = const (op.result x y) := by
  cases op with
  | plus => cases hop; exact const_add x y
  | minus => cases hop; exact const_sub x y
  | times => cases hop; exact const_mul x y
  | min | max => cases hop

theorem Scalar.exists_minus (hs : s.number? = some x) :
    ∃ u, UnaryOp.minus.meaning s = some u ∧ u.number? = some (-x) := by
  cases s with
  | bool => cases hs
  | int n =>
    obtain rfl : (n : ℚ) = x := Option.some_inj.1 hs
    exact ⟨_, rfl, congrArg some (Int.cast_neg n)⟩
  | rational r =>
    cases hs
    exact ⟨_, rfl, rfl⟩

namespace Expression

variable {env : Env RationalFunction} {e : Expression} {f : RationalFunction}

/-- The function is the number that the expression means. -/
def MeansNumber (env : Env RationalFunction) (e : Expression) (f : RationalFunction) : Prop :=
  ∃ s q, e.meaning env = some s ∧ s.number? = some q ∧ f = const q

theorem exists_of_bind {α β : Type} {r : Except BuildError α} {g : α → Except BuildError β} {b : β}
    (h : r.bind g = .ok b) : ∃ a, r = .ok a ∧ g a = .ok b := by
  cases r with
  | error err => cases h
  | ok a => exact ⟨a, rfl, h⟩

theorem meaning_of_eval (h : e.eval env = .ok s) : e.meaning env = some s := by
  have hagrees := eval_agrees env e
  rwa [h] at hagrees

theorem meaning_of_evalBool {b : Bool} (h : e.evalBool env = .ok b) : e.meaning env = some (.bool b) := by
  rw [evalBool_eq] at h
  obtain ⟨s, hs, h⟩ := exists_of_bind h
  cases s with
  | bool =>
    cases h
    exact meaning_of_eval hs
  | int | rational => cases h

theorem meansNumber_of_evalScalarValue (h : e.evalScalarValue env = .ok f) : e.MeansNumber env f := by
  unfold evalScalarValue scalarValue at h
  split at h
  · cases h
  · rename_i s hs
    split at h
    · cases h
    · rename_i q hq
      cases h
      exact ⟨s, q, meaning_of_eval hs, expectNumber_ok hq, rfl⟩

/-- Without symbolic names, a value is the number that the expression means. -/
theorem meaning_of_evalValue (henv : ∀ x g, env x ≠ some (.symbolic g)) (h : e.evalValue env = .ok f) :
    e.MeansNumber env f := by
  induction e generalizing f with
  | literal s => exact meansNumber_of_evalScalarValue h
  | identifier x =>
    unfold evalValue at h
    split at h
    · exact (henv x _ ‹_›).elim
    · exact meansNumber_of_evalScalarValue h
  | unary op a ih =>
    cases op with
    | not => exact meansNumber_of_evalScalarValue h
    | minus =>
      rw [evalValue_unary_minus] at h
      obtain ⟨x, ha, h⟩ := exists_of_bind h
      cases h
      obtain ⟨s, q, hs, hq, rfl⟩ := ih ha
      obtain ⟨u, hu, hnumber⟩ := Scalar.exists_minus hq
      refine ⟨u, -q, ?_, hnumber, (const_sub 0 q).trans (congrArg const (zero_sub q))⟩
      rw [meaning, hs, Option.bind_some, hu]
  | binary op a b iha ihb =>
    cases op with
    | connective c => exact meansNumber_of_evalScalarValue h
    | comparison op => exact meansNumber_of_evalScalarValue h
    | arithmetic op =>
      cases hop : (op.onValue? : Option (RationalFunction → RationalFunction → RationalFunction)) with
      | none => exact meansNumber_of_evalScalarValue ((evalValue_onScalars hop env a b).symm.trans h)
      | some g =>
        rw [evalValue_onValue hop] at h
        obtain ⟨x, ha, h⟩ := exists_of_bind h
        obtain ⟨y, hb, h⟩ := exists_of_bind h
        cases h
        obtain ⟨s, p, hs, hp, rfl⟩ := iha ha
        obtain ⟨t, q, ht, hq, rfl⟩ := ihb hb
        obtain ⟨u, hu, hnumber⟩ := op.exists_meaning hp hq
        refine ⟨u, op.result p q, ?_, hnumber, Arithmetic.onValue?_const hop p q⟩
        rw [meaning, hs, Option.bind_some, ht, Option.bind_some, hu]
    | divide =>
      rw [evalValue_divide_eq] at h
      obtain ⟨y, hb, h⟩ := exists_of_bind h
      split at h
      · cases h
      · rename_i hzero
        obtain ⟨x, ha, h⟩ := exists_of_bind h
        obtain ⟨s, p, hs, hp, rfl⟩ := iha ha
        obtain ⟨t, q, ht, hq, rfl⟩ := ihb hb
        have hq0 : q ≠ 0 := mt isZero_const_iff.2 hzero
        have hdiv : Value.div? (const p) (const q) = some (const (p / q)) := const_quotient? hq0
        rw [hdiv] at h
        cases h
        refine ⟨.rational (p / q), p / q, ?_, rfl, rfl⟩
        rw [meaning, hs, Option.bind_some, ht, Option.bind_some, quotientMeaning, Scalar.onNumbers, hp,
          Option.bind_some, hq, Option.bind_some, if_neg hq0]
  | ifThenElse c t e _ iht ihe =>
    rw [evalValue_ifThenElse] at h
    obtain ⟨b, hc, h⟩ := exists_of_bind h
    have hcond := meaning_of_evalBool hc
    cases b with
    | true =>
      obtain ⟨s, q, hs, hq, rfl⟩ := iht h
      refine ⟨s, q, ?_, hq, rfl⟩
      rw [meaning, hcond]
      exact hs
    | false =>
      obtain ⟨s, q, hs, hq, rfl⟩ := ihe h
      refine ⟨s, q, ?_, hq, rfl⟩
      rw [meaning, hcond]
      exact hs

/-! ## Both evaluators -/

/-- The names without those that are symbolic. -/
def scalarsOf (env : Env RationalFunction) : Env RationalFunction := fun x =>
  match env x with
  | some (.scalar s) => some (.scalar s)
  | _ => none

theorem scalarsOf_ne_symbolic (env : Env RationalFunction) (x : String) (g : RationalFunction) :
    scalarsOf env x ≠ some (.symbolic g) := by
  unfold scalarsOf
  split <;> exact nofun

theorem scalarsOf_eq {x : String} (h : ∀ g, env x ≠ some (.symbolic g)) : scalarsOf env x = env x := by
  unfold scalarsOf
  cases hx : env x with
  | none => rfl
  | some b =>
    cases b with
    | scalar s => rfl
    | symbolic g => exact (h g hx).elim

/-- A number that the scalar evaluator gives is the value in the numeric domain. A value there, for which no
symbolic name was read, is a number, and the scalar evaluator gives this number or finds that an integer does
not fit. -/
theorem evaluators_agree (env : Env RationalFunction) (e : Expression) :
    (∀ s q, e.eval env = .ok s → s.number? = some q → e.evalValue env = .ok (const q)) ∧
      ∀ f, e.evalValue env = .ok f → (∀ x, Reads env e x → ∀ g, env x ≠ some (.symbolic g)) →
        ∃ q, f = const q ∧ ((∃ s, e.eval env = .ok s ∧ s.number? = some q) ∨
          ∃ part : Expression, e.eval env = .error (part.invalid "integer overflow")) := by
  refine ⟨fun s q hs hq => evalValue_of_eval hs hq, fun f hf hreads => ?_⟩
  -- Symbolic names are not read, so they may be unknown.
  have hsame : ∀ x, Reads env e x → scalarsOf env x = env x := fun x hx => scalarsOf_eq (hreads x hx)
  rw [← evalValue_congr hsame] at hf
  obtain ⟨s, q, hs, hq, rfl⟩ := meaning_of_evalValue (scalarsOf_ne_symbolic env) hf
  have hagrees := eval_agrees (scalarsOf env) e
  rw [eval_congr hsame] at hagrees
  refine ⟨q, rfl, ?_⟩
  cases he : e.eval env with
  | ok t =>
    rw [he] at hagrees
    obtain rfl : t = s := Option.some_inj.1 (hagrees.symm.trans hs)
    exact .inl ⟨t, rfl, hq⟩
  | error err =>
    rw [he] at hagrees
    rcases hagrees with hnone | ⟨part, rfl⟩
    · rw [hnone] at hs
      cases hs
    · exact .inr ⟨part, rfl⟩

/-- The largest integer and a parameter. -/
def largest : Env RationalFunction
  | "n" => some (.scalar (.int (2 ^ 63 - 1)))
  | "p" => some (.symbolic (.param "p"))
  | _ => none

/-- The successor of a positive integer, and the parameter for other integers. -/
def successor : Expression :=
  .ifThenElse ((identifier "n").greater (int 0)) (identifier "n" + int 1) (identifier "p")

theorem reads_successor {x : String} (h : Reads largest successor x) : x = "n" := by
  have hpositive : ((identifier "n").greater (int 0)).evalBool largest = .ok true := rfl
  cases h with
  | condition h =>
    cases h with
    | left h => cases h; rfl
    | right _ h => cases h
  | thenBranch _ h =>
    cases h with
    | left h => cases h; rfl
    | right _ h => cases h
  | elseBranch hc h =>
    rw [hpositive] at hc
    cases hc

/-- Half of the largest integer is a rational. Its successor does not fit, but it is a value; the parameter is
not read. -/
theorem largest_evaluators_agree :
    (identifier "n" / int 2).eval largest = .ok (.rational (9223372036854775807 / 2)) ∧
      (identifier "n" / int 2).evalValue largest = .ok (const (9223372036854775807 / 2)) ∧
        successor.evalValue largest = .ok (const (2 ^ 63)) ∧
          (∀ x, Reads largest successor x → ∀ g, largest x ≠ some (.symbolic g)) ∧
            ∃ q, const (2 ^ 63) = const q ∧ ((∃ s, successor.eval largest = .ok s ∧ s.number? = some q) ∨
              ∃ part : Expression, successor.eval largest = .error (part.invalid "integer overflow")) := by
  have hhalf : (identifier "n" / int 2).eval largest = .ok (.rational (9223372036854775807 / 2)) := rfl
  have hvalue : successor.evalValue largest = .ok (const (2 ^ 63)) := by
    have hsum : (const ((2 ^ 63 - 1 : ℤ) : ℚ)).add (const ((1 : ℤ) : ℚ)) = const (2 ^ 63) :=
      (const_add _ _).trans (congrArg const (by norm_num))
    exact congrArg Except.ok hsum
  have hreads : ∀ x, Reads largest successor x → ∀ g, largest x ≠ some (.symbolic g) := by
    intro x hx g
    rw [reads_successor hx]
    exact nofun
  exact ⟨hhalf, (evaluators_agree _ _).1 _ _ hhalf rfl, hvalue, hreads,
    (evaluators_agree _ _).2 _ hvalue hreads⟩

end Expression
end Numbers
end MarkovCheck

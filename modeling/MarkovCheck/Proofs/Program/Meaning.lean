import Mathlib
import MarkovCheck.Program.Evaluation

/-!
# MarkovCheck.Proofs.Program.Meaning

The scalar of an expression is its mathematical value.

The meaning of an expression is computed with unbounded integers and rationals: integers stay integers, an
operation on an integer and a rational is one on rationals, and a quotient is always rational. Truth values are
propositions, and the right operand of a connective only needs a meaning where it can make a difference. The
evaluator has 64 bits for an integer. It never gives another value than the meaning, and where there is a
meaning it can only fail because an integer on the way does not fit.

* `Connective.holds`, `Arithmetic.result`, `Comparison.holds` — what the operators mean.
* `Expression.meaning` — the value of an expression.
* `Agrees`, `eval_agrees` — the evaluator and the meaning, by induction on the expression.
* `eval_exact`  — values are exact, and integers that do not fit are errors.
* `eval_inRange`   — integers stay within 64 bits.
-/

namespace MarkovCheck

/-! ## The meaning of operators -/

/-- What a connective says of two propositions. -/
def Connective.holds : Connective → Prop → Prop → Prop
  | .and, p, q => p ∧ q
  | .or, p, q => p ∨ q
  | .implies, p, q => p → q
  | .iff, p, q => p ↔ q

instance (c : Connective) (p q : Prop) [Decidable p] [Decidable q] : Decidable (c.holds p q) :=
  match c with
  | .and => inferInstanceAs (Decidable (p ∧ q))
  | .or => inferInstanceAs (Decidable (p ∨ q))
  | .implies => inferInstanceAs (Decidable (p → q))
  | .iff => inferInstanceAs (Decidable (p ↔ q))

/-- The result of an operation, on integers or on rationals. -/
def Arithmetic.result {α : Type} [Add α] [Sub α] [Mul α] [Min α] [Max α] : Arithmetic → α → α → α
  | .plus, x, y => x + y
  | .minus, x, y => x - y
  | .times, x, y => x * y
  | .min, x, y => Min.min x y
  | .max, x, y => Max.max x y

/-- What a comparison says of two numbers. -/
def Comparison.holds : Comparison → ℚ → ℚ → Prop
  | .equal, x, y => x = y
  | .notEqual, x, y => x ≠ y
  | .less, x, y => x < y
  | .lessEqual, x, y => x ≤ y
  | .greater, x, y => x > y
  | .greaterEqual, x, y => x ≥ y

instance (c : Comparison) (x y : ℚ) : Decidable (c.holds x y) :=
  match c with
  | .equal => inferInstanceAs (Decidable (x = y))
  | .notEqual => inferInstanceAs (Decidable (x ≠ y))
  | .less => inferInstanceAs (Decidable (x < y))
  | .lessEqual => inferInstanceAs (Decidable (x ≤ y))
  | .greater => inferInstanceAs (Decidable (x > y))
  | .greaterEqual => inferInstanceAs (Decidable (x ≥ y))

def UnaryOp.meaning : UnaryOp → Scalar → Option Scalar
  | .not, .bool x => some (.bool (¬ x))
  | .minus, .int n => some (.int (-n))
  | .minus, .rational r => some (.rational (-r))
  | _, _ => none

def Scalar.truth? : Scalar → Option Bool
  | .bool x => some x
  | _ => none

/-- A function of the numbers that two scalars are. -/
def Scalar.onNumbers (f : ℚ → ℚ → Option Scalar) (s t : Scalar) : Option Scalar :=
  s.number?.bind fun x => t.number?.bind fun y => f x y

/-- Integers have an integer as result, other numbers a rational. -/
def Arithmetic.meaning (op : Arithmetic) : Scalar → Scalar → Option Scalar
  | .int m, .int n => some (.int (op.result m n))
  | s, t => s.onNumbers (fun x y => some (.rational (op.result x y))) t

/-- Truth values can be equal or not, numbers are compared. -/
def Comparison.meaning : Comparison → Scalar → Scalar → Option Scalar
  | .equal, .bool x, .bool y => some (.bool (x = y))
  | .notEqual, .bool x, .bool y => some (.bool (x ≠ y))
  | op, s, t => s.onNumbers (fun x y => some (.bool (op.holds x y))) t

def quotientMeaning (s t : Scalar) : Option Scalar :=
  s.onNumbers (fun x y => if y = 0 then none else some (.rational (x / y))) t

/-! ## The meaning of expressions -/

namespace Expression

variable {V : Type}

/-- The value of an expression with unbounded integers and exact rationals, if it has one. -/
def meaning (env : Env V) : Expression → Option Scalar
  | .literal s => some s
  | .identifier x =>
    match env x with
    | some (.scalar s) => some s
    | _ => none
  | .unary op a => (meaning env a).bind op.meaning
  | .binary (.connective c) a b =>
    (meaning env a).bind fun s => s.truth?.bind fun x =>
      -- The right operand counts only where it can make a difference.
      if c.holds x True ↔ c.holds x False then some (.bool (c.holds x True))
      else (meaning env b).bind fun t => t.truth?.bind fun y => some (.bool (c.holds x y))
  | .binary (.arithmetic op) a b => (meaning env a).bind fun s => (meaning env b).bind (op.meaning s)
  | .binary .divide a b => (meaning env a).bind fun s => (meaning env b).bind (quotientMeaning s)
  | .binary (.comparison op) a b => (meaning env a).bind fun s => (meaning env b).bind (op.meaning s)
  | .ifThenElse c t e =>
    (meaning env c).bind fun s => s.truth?.bind fun x => if x then meaning env t else meaning env e

end Expression

/-! ## Operators of the evaluator -/

theorem Connective.decided?_eq (c : Connective) (x : Bool) : c.decided? x =
    if c.holds x True ↔ c.holds x False then some (decide (c.holds x True)) else none := by
  cases c <;> cases x <;> rfl

theorem Connective.apply_eq (c : Connective) (x y : Bool) : c.apply x y = decide (c.holds x y) := by
  cases c <;> cases x <;> cases y <;> rfl

theorem Arithmetic.onInt_eq (op : Arithmetic) (m n : ℤ) : op.onInt m n = op.result m n := by
  cases op with
  | plus | minus | times => rfl
  | min => exact (min_def m n).symm
  | max => exact (max_def m n).symm

theorem Arithmetic.onRat_eq (op : Arithmetic) (x y : ℚ) : op.onRat x y = op.result x y := by
  cases op with
  | plus | minus | times => rfl
  | min => exact (min_def x y).symm
  | max => exact (max_def x y).symm

theorem Comparison.onRat_eq (op : Comparison) (x y : ℚ) : op.onRat x y = decide (op.holds x y) := by
  cases op <;> rfl

theorem fitsInt64_iff {n : ℤ} : fitsInt64 n = true ↔ -2 ^ 63 ≤ n ∧ n < 2 ^ 63 := by
  rw [fitsInt64, Bool.and_eq_true, decide_eq_true_eq, decide_eq_true_eq]
  norm_num

/-- A result of the evaluator against the meaning: a value is the meaning, and an error other than that an
integer does not fit means that there is none. -/
def Agrees (r : Except BuildError Scalar) (m : Option Scalar) : Prop :=
  match r with
  | .ok v => m = some v
  | .error err => m = none ∨ ∃ e : Expression, err = e.invalid "integer overflow"

namespace Expression

variable {V : Type} {env : Env V} {e : Expression} {s t : Scalar}

theorem checkedInt_agrees (e : Expression) (n : ℤ) : Agrees (e.checkedInt n) (some (.int n)) := by
  unfold checkedInt
  split
  · rfl
  · exact .inr ⟨e, rfl⟩

theorem checkedInt_eq_error (e : Expression) {n : ℤ} (hn : ¬ (-2 ^ 63 ≤ n ∧ n < 2 ^ 63)) :
    e.checkedInt n = .error (e.invalid "integer overflow") := by
  rw [checkedInt, if_neg fun h => hn (fitsInt64_iff.mp h)]

theorem expectNumber_eq (e : Expression) (s : Scalar) :
    e.expectNumber s = s.number?.elim (.error (e.invalid ("expected a number, found " ++ s.toText))) .ok := by
  unfold expectNumber
  cases s.number? <;> rfl

/-- Two operands that must be numbers. -/
theorem expectNumbers_agrees (e : Expression) (s t : Scalar) {f : ℚ → ℚ → Except BuildError Scalar}
    {g : ℚ → ℚ → Option Scalar} (h : ∀ x y, Agrees (f x y) (g x y)) :
    Agrees (match e.expectNumbers s t with
      | .error err => .error err
      | .ok (x, y) => f x y) (s.onNumbers g t) := by
  unfold expectNumbers Scalar.onNumbers
  rw [expectNumber_eq, expectNumber_eq]
  cases s.number? with
  | none => exact .inl rfl
  | some x =>
    cases t.number? with
    | none => exact .inl rfl
    | some y => exact h x y

theorem applyUnary_agrees (e : Expression) (op : UnaryOp) (s : Scalar) :
    Agrees (e.applyUnary op s) (op.meaning s) := by
  cases op with
  | not =>
    cases s with
    | bool x => cases x <;> rfl
    | int | rational => exact .inl rfl
  | minus =>
    cases s with
    | bool => exact .inl rfl
    | int n => exact checkedInt_agrees e (-n)
    | rational => rfl

theorem arithmetic_agrees (e : Expression) (op : Arithmetic) (s t : Scalar) :
    Agrees (e.arithmetic op s t) (op.meaning s t) := by
  have hnumbers := expectNumbers_agrees e s t (f := fun x y => .ok (.rational (op.onRat x y)))
    (g := fun x y => some (.rational (op.result x y))) fun x y => by rw [op.onRat_eq]; rfl
  cases s with
  | bool | rational => exact hnumbers
  | int m =>
    cases t with
    | bool | rational => exact hnumbers
    | int n =>
      rw [arithmetic, op.onInt_eq]
      exact checkedInt_agrees e _

theorem comparison_agrees (e : Expression) (op : Comparison) (s t : Scalar) :
    Agrees (e.comparison op s t) (op.meaning s t) := by
  have hnumbers := expectNumbers_agrees e s t (f := fun x y => .ok (.bool (op.onRat x y)))
    (g := fun x y => some (.bool (op.holds x y))) fun x y => by rw [op.onRat_eq]; rfl
  cases op with
  | less | lessEqual | greater | greaterEqual => exact hnumbers
  | equal | notEqual =>
    cases s with
    | int | rational => exact hnumbers
    | bool x =>
      cases t with
      | int | rational => exact hnumbers
      | bool y => cases x <;> cases y <;> rfl

theorem quotient_agrees (e : Expression) (x y : ℚ) :
    Agrees (e.quotient x y) (if y = 0 then none else some (.rational (x / y))) := by
  unfold quotient
  split
  · exact .inl rfl
  · rfl

end Expression

/-! ## Evaluation -/

section Agrees

variable {r : Except BuildError Scalar} {m : Option Scalar} (h : Agrees r m)
include h

/-- One evaluation after another. -/
theorem Agrees.bind {f : Scalar → Except BuildError Scalar} {g : Scalar → Option Scalar}
    (hf : ∀ s, Agrees (f s) (g s)) : Agrees (r.bind f) (m.bind g) := by
  cases r with
  | error err => exact h.imp_left fun hnone => by rw [hnone, Option.bind_none]
  | ok s =>
    rw [show m = some s from h, Option.bind_some]
    exact hf s

/-- Where a truth value is needed, other values are errors. -/
theorem Agrees.bindTruth (e : Expression) {f : Bool → Except BuildError Scalar}
    {g : Bool → Option Scalar} (hf : ∀ x, Agrees (f x) (g x)) :
    Agrees (r.bind fun s => (e.expectBool s).bind f) (m.bind fun s => s.truth?.bind g) :=
  h.bind fun s => by
    cases s with
    | bool x => exact hf x
    | int | rational => exact .inl rfl

/-- Where a number is needed, truth values are errors. -/
theorem Agrees.bindNumber (e : Expression) {f : ℚ → Except BuildError Scalar}
    {g : ℚ → Option Scalar} (hf : ∀ x, Agrees (f x) (g x)) :
    Agrees (r.bind fun s => (e.expectNumber s).bind f) (m.bind fun s => s.number?.bind g) :=
  h.bind fun s => by
    rw [Expression.expectNumber_eq]
    cases s.number? with
    | none => exact .inl rfl
    | some x => exact hf x

end Agrees

namespace Expression

variable {V : Type}

variable {env : Env V}

theorem eval_unary (op : UnaryOp) (a : Expression) :
    (unary op a).eval env = (a.eval env).bind ((unary op a).applyUnary op) := by
  rw [eval]
  cases a.eval env <;> rfl

theorem eval_connective (c : Connective) (a b : Expression) :
    (binary (.connective c) a b).eval env =
      (a.eval env).bind fun s => (a.expectBool s).bind fun x =>
        match c.decided? x with
        | some r => .ok (.bool r)
        | none => (b.eval env).bind fun t => (b.expectBool t).bind fun y => .ok (.bool (c.apply x y)) := by
  rw [eval]
  cases a.eval env with
  | error => rfl
  | ok s =>
    simp only [Except.bind]
    cases a.expectBool s with
    | error => rfl
    | ok x =>
      dsimp only
      cases c.decided? x with
      | some => rfl
      | none =>
        cases b.eval env with
        | error => rfl
        | ok t => dsimp only; cases b.expectBool t <;> rfl

theorem eval_arithmetic (op : Arithmetic) (a b : Expression) :
    (binary (.arithmetic op) a b).eval env = (a.eval env).bind fun s => (b.eval env).bind fun t =>
      (binary (.arithmetic op) a b).arithmetic op s t := by
  rw [eval]
  cases a.eval env with
  | error => rfl
  | ok s => cases b.eval env <;> rfl

theorem eval_comparison (op : Comparison) (a b : Expression) :
    (binary (.comparison op) a b).eval env = (a.eval env).bind fun s => (b.eval env).bind fun t =>
      (binary (.comparison op) a b).comparison op s t := by
  rw [eval]
  cases a.eval env with
  | error => rfl
  | ok s => cases b.eval env <;> rfl

theorem eval_divide (a b : Expression) :
    (binary .divide a b).eval env = (a.eval env).bind fun s =>
      ((binary .divide a b).expectNumber s).bind fun x => (b.eval env).bind fun t =>
        ((binary .divide a b).expectNumber t).bind fun y => (binary .divide a b).quotient x y := by
  rw [eval]
  cases a.eval env with
  | error => rfl
  | ok s =>
    simp only [Except.bind]
    cases (binary .divide a b).expectNumber s with
    | error => rfl
    | ok x =>
      cases b.eval env with
      | error => rfl
      | ok t => dsimp only; cases (binary .divide a b).expectNumber t <;> rfl

theorem eval_ifThenElse (c t e : Expression) :
    (ifThenElse c t e).eval env = (c.eval env).bind fun s => (c.expectBool s).bind fun x =>
      if x then t.eval env else e.eval env := by
  rw [eval]
  cases c.eval env with
  | error => rfl
  | ok s =>
    simp only [Except.bind]
    cases c.expectBool s with
    | error => rfl
    | ok x => cases x <;> rfl

/-- The operands of a quotient are looked at one after the other, which makes no difference. -/
theorem bind_quotientMeaning (m n : Option Scalar) :
    (m.bind fun s => n.bind (quotientMeaning s)) =
      m.bind fun s => s.number?.bind fun x => n.bind fun t => t.number?.bind fun y =>
        if y = 0 then none else some (.rational (x / y)) := by
  cases m with
  | none => rfl
  | some s =>
    cases n with
    | none =>
      rw [Option.bind_some, Option.bind_some, Option.bind_none]
      cases s.number? <;> rfl
    | some t => rfl

/-- The evaluator agrees with the meaning. -/
theorem eval_agrees (env : Env V) (e : Expression) : Agrees (e.eval env) (e.meaning env) := by
  induction e with
  | literal s => rfl
  | identifier x =>
    unfold eval evalName meaning
    cases env x with
    | none => exact .inl rfl
    | some b => cases b <;> first | rfl | exact .inl rfl
  | unary op a iha =>
    rw [eval_unary]
    exact iha.bind fun s => applyUnary_agrees _ op s
  | binary op a b iha ihb =>
    cases op with
    | connective c =>
      rw [eval_connective]
      refine iha.bindTruth a fun x => ?_
      rw [c.decided?_eq]
      by_cases hdecided : c.holds x True ↔ c.holds x False
      · rw [if_pos hdecided, if_pos hdecided]
        rfl
      · rw [if_neg hdecided, if_neg hdecided]
        refine ihb.bindTruth b fun y => ?_
        rw [c.apply_eq]
        rfl
    | arithmetic op =>
      rw [eval_arithmetic]
      exact iha.bind fun s => ihb.bind fun t => arithmetic_agrees _ op s t
    | divide =>
      rw [eval_divide, meaning, bind_quotientMeaning]
      exact iha.bindNumber _ fun x => ihb.bindNumber _ fun y => quotient_agrees _ x y
    | comparison op =>
      rw [eval_comparison]
      exact iha.bind fun s => ihb.bind fun t => comparison_agrees _ op s t
  | ifThenElse c t e ihc iht ihe =>
    rw [eval_ifThenElse]
    refine ihc.bindTruth c fun x => ?_
    cases x with
    | true => exact iht
    | false => exact ihe

/-- A value is exact, any error other than an overflow says that there is no value, and an integer result that
64 bits cannot hold is an error and never another integer. -/
theorem eval_exact (env : Env V) (e : Expression) :
    (∀ v, e.eval env = .ok v → e.meaning env = some v) ∧
      (∀ err, e.eval env = .error err →
        e.meaning env = none ∨ ∃ part : Expression, err = part.invalid "integer overflow") ∧
      (∀ op a b m n, e = binary (.arithmetic op) a b → a.eval env = .ok (.int m) → b.eval env = .ok (.int n) →
        ¬ (-2 ^ 63 ≤ op.result m n ∧ op.result m n < 2 ^ 63) →
        e.eval env = .error (.invalidExpression e.toText "integer overflow")) ∧
      ∀ a n, e = unary .minus a → a.eval env = .ok (.int n) → ¬ (-2 ^ 63 ≤ -n ∧ -n < 2 ^ 63) →
        e.eval env = .error (.invalidExpression e.toText "integer overflow") := by
  have hagrees := eval_agrees env e
  refine ⟨fun v hv => ?value, fun err herr => ?error, ?arithmetic, ?minus⟩
  case value => rwa [hv] at hagrees
  case error => rwa [herr] at hagrees
  case arithmetic =>
    rintro op a b m n rfl ha hb hrange
    rw [eval_arithmetic, ha, hb]
    change checkedInt _ (op.onInt m n) = _
    rw [op.onInt_eq]
    exact checkedInt_eq_error _ hrange
  case minus =>
    rintro a n rfl ha hrange
    rw [eval_unary, ha]
    exact checkedInt_eq_error _ hrange

/-- Half of seven is a rational, the largest integer has no successor and the smallest one no negation. -/
theorem eval_exact_limits (env : Env V) :
    ((int 7 / int 2).eval env = .ok (.rational (7 / 2)) ∧
        (int 7 / int 2).meaning env = some (.rational (7 / 2))) ∧
      (int (2 ^ 63 - 1) + int 1).eval env =
        .error (.invalidExpression (int (2 ^ 63 - 1) + int 1).toText "integer overflow") ∧
      (unary .minus (int (-2 ^ 63))).eval env =
        .error (.invalidExpression (unary .minus (int (-2 ^ 63))).toText "integer overflow") := by
  have hseven : (int 7 / int 2).eval env = .ok (.rational (7 / 2)) := rfl
  refine ⟨⟨hseven, (eval_exact env _).1 _ hseven⟩, ?sum, ?negation⟩
  case sum => exact (eval_exact env _).2.2.1 .plus (int (2 ^ 63 - 1)) (int 1) _ _ rfl rfl rfl (by decide)
  case negation => exact (eval_exact env _).2.2.2 (int (-2 ^ 63)) _ rfl rfl (by decide)

/-! ## Range of integers -/

end Expression

/-- An integer has 64 bits, other scalars have no bound. -/
def Scalar.inRange : Scalar → Bool
  | .int n => fitsInt64 n
  | _ => true

/-- The integer literals of an expression have 64 bits. -/
def Expression.inRange : Expression → Bool
  | .literal s => s.inRange
  | .identifier _ => true
  | .unary _ a => a.inRange
  | .binary _ a b => a.inRange && b.inRange
  | .ifThenElse c t e => c.inRange && t.inRange && e.inRange

/-- An integer that is a result has 64 bits. -/
def ResultInRange (r : Except BuildError Scalar) : Prop := ∀ v, r = .ok v → v.inRange = true

theorem inRange_ok {v : Scalar} (hv : v.inRange = true) : ResultInRange (.ok v) := by
  rintro _ ⟨⟩
  exact hv

theorem inRange_error (err : BuildError) : ResultInRange (.error err) := by
  rintro v ⟨⟩

theorem inRange_bind {α : Type} (r : Except BuildError α) {f : α → Except BuildError Scalar}
    (hf : ∀ x, ResultInRange (f x)) : ResultInRange (r.bind f) := by
  cases r with
  | error err => exact inRange_error err
  | ok x => exact hf x

namespace Expression

variable (e : Expression)

theorem inRange_checkedInt (n : ℤ) : ResultInRange (e.checkedInt n) := by
  unfold checkedInt
  split
  · exact inRange_ok ‹_›
  · exact inRange_error _

theorem inRange_applyUnary (op : UnaryOp) (s : Scalar) : ResultInRange (e.applyUnary op s) := by
  unfold applyUnary
  split
  · exact inRange_ok rfl
  · exact inRange_checkedInt e _
  · exact inRange_ok rfl
  · exact inRange_error _

theorem inRange_arithmetic (op : Arithmetic) (s t : Scalar) : ResultInRange (e.arithmetic op s t) := by
  unfold arithmetic
  split
  · exact inRange_checkedInt e _
  · split
    · exact inRange_error _
    · exact inRange_ok rfl

theorem inRange_comparison (op : Comparison) (s t : Scalar) : ResultInRange (e.comparison op s t) := by
  unfold comparison
  split
  · exact inRange_ok rfl
  · exact inRange_ok rfl
  · split
    · exact inRange_error _
    · exact inRange_ok rfl

theorem inRange_quotient (x y : ℚ) : ResultInRange (e.quotient x y) := by
  unfold quotient
  split
  · exact inRange_error _
  · exact inRange_ok rfl

/-- Integers stay within 64 bits if those of the literals and of the names do. -/
theorem eval_inRange {env : Env V} (henv : ∀ x s, env x = some (.scalar s) → s.inRange = true)
    (he : e.inRange = true) : ResultInRange (e.eval env) := by
  induction e with
  | literal s => exact inRange_ok he
  | identifier x =>
    unfold eval evalName
    split
    · exact inRange_ok (henv x _ ‹_›)
    · exact inRange_error _
    · exact inRange_error _
  | unary op a =>
    rw [eval_unary]
    exact inRange_bind _ fun s => inRange_applyUnary _ op s
  | binary op a b =>
    cases op with
    | connective c =>
      rw [eval_connective]
      refine inRange_bind _ fun s => inRange_bind _ fun x => ?_
      split
      · exact inRange_ok rfl
      · exact inRange_bind _ fun t => inRange_bind _ fun y => inRange_ok rfl
    | arithmetic op =>
      rw [eval_arithmetic]
      exact inRange_bind _ fun s => inRange_bind _ fun t => inRange_arithmetic _ op s t
    | divide =>
      rw [eval_divide]
      exact inRange_bind _ fun s => inRange_bind _ fun x => inRange_bind _ fun t => inRange_bind _ fun y =>
        inRange_quotient _ x y
    | comparison op =>
      rw [eval_comparison]
      exact inRange_bind _ fun s => inRange_bind _ fun t => inRange_comparison _ op s t
  | ifThenElse c t e ihc iht ihe =>
    rw [inRange, Bool.and_eq_true, Bool.and_eq_true] at he
    rw [eval_ifThenElse]
    refine inRange_bind _ fun s => inRange_bind _ fun x => ?_
    split
    · exact iht he.1.2
    · exact ihe he.2

end Expression
end MarkovCheck

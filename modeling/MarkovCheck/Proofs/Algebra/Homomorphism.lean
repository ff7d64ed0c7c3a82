import Mathlib
import MarkovCheck.Proofs.Algebra.Computation
import MarkovCheck.Proofs.Algebra.Definedness

/-!
# MarkovCheck.Proofs.Algebra.Homomorphism

Evaluation commutes with arithmetic.

The result of an operation is cancelled, so it has another denominator and maybe fewer parameters
than the operands. Both can only help: a value of the element that the result denotes is a value of
the result. So what can be computed with the values of the operands can be computed first with the
functions, and evaluated then; the converse fails, as for `(x * x) / x` at zero.

* `evalAt_add`, `evalAt_sub`, `evalAt_mul`, `evalAt_neg`, `evalAt_div?` — one operation.
* `evalAt_arithmetic`    — all of them.
* `number`, `run_evalAt` — a whole computation with numbers, and with functions.
-/

namespace MarkovCheck

variable {v : Valuation}

namespace RationalFunction

variable {f g : RationalFunction} {k : Frac} {a b : ℚ}

/-- A stored function evaluates without error to the value of the element that it denotes. -/
theorem Denotes.evalAt (hf : f.Denotes k) (h : HasValue v k a) : f.evalAt v = .ok a := by
  rw [← hf.2] at h
  exact (evalAt_eq_ok_iff hf.1).2 h

theorem evalAt_add (hf : f.IsCanonical) (hg : g.IsCanonical) (ha : f.evalAt v = .ok a)
    (hb : g.evalAt v = .ok b) : (f + g).evalAt v = .ok (a + b) :=
  (add_spec hf.denotes hg.denotes).evalAt
    (((evalAt_eq_ok_iff hf).1 ha).add ((evalAt_eq_ok_iff hg).1 hb))

theorem evalAt_sub (hf : f.IsCanonical) (hg : g.IsCanonical) (ha : f.evalAt v = .ok a)
    (hb : g.evalAt v = .ok b) : (f - g).evalAt v = .ok (a - b) :=
  (sub_spec hf.denotes hg.denotes).evalAt
    (((evalAt_eq_ok_iff hf).1 ha).sub ((evalAt_eq_ok_iff hg).1 hb))

theorem evalAt_mul (hf : f.IsCanonical) (hg : g.IsCanonical) (ha : f.evalAt v = .ok a)
    (hb : g.evalAt v = .ok b) : (f * g).evalAt v = .ok (a * b) :=
  (mul_spec hf.denotes hg.denotes).evalAt
    (((evalAt_eq_ok_iff hf).1 ha).mul ((evalAt_eq_ok_iff hg).1 hb))

theorem evalAt_neg (hf : f.IsCanonical) (ha : f.evalAt v = .ok a) : (-f).evalAt v = .ok (-a) :=
  (neg_spec hf.denotes).evalAt ((evalAt_eq_ok_iff hf).1 ha).neg

/-- A function whose value is not zero is not zero, so it is a divisor. -/
theorem evalAt_div? (hf : f.IsCanonical) (hg : g.IsCanonical) (ha : f.evalAt v = .ok a)
    (hb : g.evalAt v = .ok b) (h0 : b ≠ 0) :
    ∃ h, f.div? g = .ok h ∧ h.IsCanonical ∧ h.evalAt v = .ok (a / b) := by
  have hvf := (evalAt_eq_ok_iff hf).1 ha
  have hvg := (evalAt_eq_ok_iff hg).1 hb
  obtain ⟨h, hh, hd⟩ := div?_spec hf.denotes hg.denotes (hvg.1.ne_zero h0)
  refine ⟨h, hh, hd.1, hd.evalAt ?_⟩
  rw [div_eq_mul_inv, div_eq_mul_inv]
  exact hvf.mul (hvg.inv h0)

/-- Functions that evaluate without error may be added, subtracted, multiplied, negated, and divided
by one with a value other than zero: the result evaluates without error, to the result of the same
operation on the values. -/
theorem evalAt_arithmetic (hf : f.IsCanonical) (hg : g.IsCanonical) (ha : f.evalAt v = .ok a)
    (hb : g.evalAt v = .ok b) :
    (f + g).evalAt v = .ok (a + b) ∧ (f - g).evalAt v = .ok (a - b) ∧
      (f * g).evalAt v = .ok (a * b) ∧ (-f).evalAt v = .ok (-a) ∧
      (b ≠ 0 → ∃ h, f.div? g = .ok h ∧ h.evalAt v = .ok (a / b)) := by
  refine ⟨evalAt_add hf hg ha hb, evalAt_sub hf hg ha hb, evalAt_mul hf hg ha hb, evalAt_neg hf ha,
    fun h0 => ?_⟩
  obtain ⟨h, hh, -, hv⟩ := evalAt_div? hf hg ha hb h0
  exact ⟨h, hh, hv⟩

/-- The inverse of a parameter. -/
def reciprocal (x : Parameter) : RationalFunction := ⟨.one, .param x⟩

theorem reciprocal_isCanonical (x : Parameter) : (reciprocal x).IsCanonical := by
  refine isCanonical_iff.2 ⟨Polynomial.isReduced_one, Polynomial.isReduced_param x, rfl, ?_⟩
  rw [reciprocal, Polynomial.toMv_one]
  exact isRelPrime_one_left

/-- At one half, `p` and `1/p` have the values one half and two. Their product, from which `p` is
cancelled, has the value one. -/
theorem reciprocal_arithmetic :
    (param "p" + reciprocal "p").evalAt (fun _ => some (1 / 2)) = .ok (5 / 2) ∧
      (param "p" - reciprocal "p").evalAt (fun _ => some (1 / 2)) = .ok (-3 / 2) ∧
      (param "p" * reciprocal "p").evalAt (fun _ => some (1 / 2)) = .ok 1 ∧
      (-param "p").evalAt (fun _ => some (1 / 2)) = .ok (-1 / 2) ∧
      ∃ h, (param "p").div? (reciprocal "p") = .ok h ∧
        h.evalAt (fun _ => some (1 / 2)) = .ok (1 / 4) := by
  have hf : (param "p").evalAt (fun _ => some (1 / 2)) = .ok (1 / 2) := evalAt_param rfl
  have hg : (reciprocal "p").evalAt (fun _ => some (1 / 2)) = .ok 2 := by cbv
  obtain ⟨hadd, hsub, hmul, hneg, hdiv⟩ :=
    evalAt_arithmetic (denotes_param "p").1 (reciprocal_isCanonical "p") hf hg
  norm_num at hadd hsub hmul hneg hdiv ⊢
  exact ⟨hadd, hsub, hmul, hneg, hdiv⟩

end RationalFunction

/-! ## Whole computations -/

namespace Computation

/-- The result of a computation with the values of the parameters, where none of them is missing and
nothing is divided by zero. -/
def number (v : Valuation) : Computation → Option ℚ
  | .fraction n d => quotient (n.evalAt v).toOption (d.evalAt v).toOption
  | .polynomial p => (p.evalAt v).toOption
  | .const q => some q
  | .param x => v x
  | .add a b => Option.map₂ (· + ·) (a.number v) (b.number v)
  | .sub a b => Option.map₂ (· - ·) (a.number v) (b.number v)
  | .mul a b => Option.map₂ (· * ·) (a.number v) (b.number v)
  | .neg a => (a.number v).map (- ·)
  | .div a b => quotient (a.number v) (b.number v)
where
  quotient (x y : Option ℚ) : Option ℚ :=
    (Option.map₂ Prod.mk x y).bind fun e => if e.2 = 0 then none else some (e.1 / e.2)

theorem quotient_eq_some {x y : Option ℚ} {q : ℚ} :
    number.quotient x y = some q ↔ ∃ a b, x = some a ∧ y = some b ∧ b ≠ 0 ∧ a / b = q := by
  cases x <;> cases y <;> simp [number.quotient]

theorem toOption_eq_some {ε α : Type} {x : Except ε α} {a : α} :
    x.toOption = some a ↔ x = .ok a := by
  cases x <;> simp [Except.toOption]

theorem hasValue_toField {p : Polynomial} (hp : p.IsReduced) {a : ℚ} (h : p.evalAt v = .ok a) :
    HasValue v (toField p.toMv) a := by
  obtain ⟨hknown, rfl⟩ := (Polynomial.evalAt_eq_ok_iff hp).1 h
  exact ⟨evalsTo_toField v _, toField_mem_knownField hknown⟩

/-- Where the numbers have a result, the computation divides by zero nowhere, and the element that
it denotes has that value. -/
theorem number_hasValue {c : Computation} {q : ℚ} (hc : c.IsReduced) (h : c.number v = some q) :
    c.IsDefined ∧ HasValue v c.value q := by
  induction c generalizing q with
  | fraction n d =>
    obtain ⟨a, b, ha, hb, h0, rfl⟩ := quotient_eq_some.1 h
    have hn := hasValue_toField hc.1 (toOption_eq_some.1 ha)
    have hd := hasValue_toField hc.2 (toOption_eq_some.1 hb)
    refine ⟨fun hz => hd.1.ne_zero h0 (by rw [hz, map_zero]), ?_⟩
    rw [value, div_eq_mul_inv, div_eq_mul_inv]
    exact hn.mul (hd.inv h0)
  | polynomial p => exact ⟨trivial, hasValue_toField hc (toOption_eq_some.1 h)⟩
  | const c =>
    cases h
    exact ⟨trivial, hasValue_ofQ v c⟩
  | param x =>
    obtain ⟨hcan, hden⟩ := RationalFunction.denotes_param x
    have hval := (RationalFunction.evalAt_eq_ok_iff hcan).1 (RationalFunction.evalAt_param h)
    rw [hden] at hval
    exact ⟨trivial, hval⟩
  | add x y ihx ihy =>
    obtain ⟨a, b, ha, hb, rfl⟩ := Option.map₂_eq_some_iff.1 h
    obtain ⟨hdx, hvx⟩ := ihx hc.1 ha
    obtain ⟨hdy, hvy⟩ := ihy hc.2 hb
    exact ⟨⟨hdx, hdy⟩, hvx.add hvy⟩
  | sub x y ihx ihy =>
    obtain ⟨a, b, ha, hb, rfl⟩ := Option.map₂_eq_some_iff.1 h
    obtain ⟨hdx, hvx⟩ := ihx hc.1 ha
    obtain ⟨hdy, hvy⟩ := ihy hc.2 hb
    exact ⟨⟨hdx, hdy⟩, hvx.sub hvy⟩
  | mul x y ihx ihy =>
    obtain ⟨a, b, ha, hb, rfl⟩ := Option.map₂_eq_some_iff.1 h
    obtain ⟨hdx, hvx⟩ := ihx hc.1 ha
    obtain ⟨hdy, hvy⟩ := ihy hc.2 hb
    exact ⟨⟨hdx, hdy⟩, hvx.mul hvy⟩
  | neg x ihx =>
    obtain ⟨a, ha, rfl⟩ := Option.map_eq_some_iff.1 h
    obtain ⟨hdx, hvx⟩ := ihx hc ha
    exact ⟨hdx, hvx.neg⟩
  | div x y ihx ihy =>
    obtain ⟨a, b, ha, hb, h0, rfl⟩ := quotient_eq_some.1 h
    obtain ⟨hdx, hvx⟩ := ihx hc.1 ha
    obtain ⟨hdy, hvy⟩ := ihy hc.2 hb
    refine ⟨⟨hdx, hdy, hvy.1.ne_zero h0⟩, ?_⟩
    rw [value, div_eq_mul_inv, div_eq_mul_inv]
    exact hvx.mul (hvy.inv h0)

/-- A computation may be made with functions and evaluated at the end: where the computation with
numbers has a result, the one with functions has one too, and evaluates to it. -/
theorem run_evalAt {c : Computation} {q : ℚ} (hc : c.IsReduced) (h : c.number v = some q) :
    ∃ f, c.run = .ok f ∧ f.evalAt v = .ok q := by
  obtain ⟨hdef, hval⟩ := number_hasValue hc h
  obtain ⟨f, hf⟩ := (run_isOk_iff hc).2 hdef
  exact ⟨f, hf, (run_denotes hc hf).evalAt hval⟩

end Computation
end MarkovCheck

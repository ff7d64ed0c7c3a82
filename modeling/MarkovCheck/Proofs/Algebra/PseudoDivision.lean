import Mathlib
import MarkovCheck.Algebra.Polynomial.PseudoDivision
import MarkovCheck.Proofs.Algebra.Division

/-!
# MarkovCheck.Proofs.Algebra.PseudoDivision

Pseudo division ends, with a remainder of smaller degree.

A step multiplies the dividend by the leading coefficient of the divisor and takes off a multiple of the
divisor, so that the leading terms cancel. The degree falls with every step.

* `Computed.Returns`  — a computation ends with a result that has a property.
* `IsPseudoRemainder` — what the remainder has to do with the dividend and the divisor.
* `computeRemainder_returns` — every division by a polynomial with the parameter ends with it.
* `pseudoRemainder_exact` — the remainder in terms of the operations on polynomials.
-/

namespace MarkovCheck
namespace Polynomial

/-! ## Computations -/

namespace Computed

variable {α β : Type} {P : α → Prop} {Q : β → Prop}

/-- A computation ends without a fault, and its result has a property. -/
def Returns (c : Computed α) (P : α → Prop) : Prop := ∃ a, c = pure a ∧ P a

theorem returns_pure {a : α} (h : P a) : Returns (pure a) P := ⟨a, rfl, h⟩

/-- One computation after another. -/
theorem Returns.bind {c : Computed α} {f : α → Computed β} (hc : c.Returns P)
    (hf : ∀ a, P a → (f a).Returns Q) : Returns (c >>= f) Q := by
  obtain ⟨a, rfl, ha⟩ := hc
  rw [pure_bind]
  exact hf a ha

theorem Returns.mono {c : Computed α} {P' : α → Prop} (hc : c.Returns P) (h : ∀ a, P a → P' a) :
    c.Returns P' := by
  obtain ⟨a, rfl, ha⟩ := hc
  exact returns_pure (h a ha)

/-- What ends with a result has it as its value. -/
theorem Returns.eq_result {c : Computed α} (h : c.Returns P) (other : α) :
    c = pure (c.result other) ∧ P (c.result other) := by
  obtain ⟨a, rfl, ha⟩ := h
  exact ⟨rfl, ha⟩

end Computed

/-! ## Steps -/

theorem toMv_pseudoStep {b r : Polynomial} (hb : b.IsReduced) (hr : r.IsReduced) (x : Parameter) :
    (pseudoStep x b r).toMv =
      (inParam x b.toMv).leadingCoeff * r.toMv -
        (inParam x r.toMv).leadingCoeff * b.toMv *
          MvPolynomial.X x ^ (r.degreeIn x - b.degreeIn x) := by
  rw [pseudoStep, toMv_sub, toMv_mul, toMv_mulMonomial, toMv_mul, toMv_leadingCoeffIn hb,
    toMv_leadingCoeffIn hr, Monomial.exponents_power, MvPolynomial.X_pow_eq_monomial, mul_comm
    (MvPolynomial.monomial _ _)]

theorem isReduced_pseudoStep {b r : Polynomial} (hb : b.IsReduced) (hr : r.IsReduced)
    (x : Parameter) : (pseudoStep x b r).IsReduced :=
  isReduced_sub (isReduced_mul (isReduced_leadingCoeffIn hb x) hr)
    (isReduced_mulMonomial (isReduced_mul (isReduced_leadingCoeffIn hr x) hb)
      (Monomial.isReduced_power x _))

/-- The leading terms cancel. -/
theorem degreeIn_pseudoStep {b r : Polynomial} (hb : b.IsReduced) (hr : r.IsReduced)
    {x : Parameter} (hpos : 0 < b.degreeIn x) (hle : b.degreeIn x ≤ r.degreeIn x) :
    (pseudoStep x b r).degreeIn x < r.degreeIn x := by
  have hview : inParam x (pseudoStep x b r).toMv =
      (inParam x b.toMv).cancelLeads (inParam x r.toMv) := by
    rw [toMv_pseudoStep hb hr, map_sub, map_mul, map_mul, map_mul, map_pow, inParam_X_self,
      freeOf_leadingCoeff x b.toMv, freeOf_leadingCoeff x r.toMv, degreeIn_eq hb, degreeIn_eq hr,
      Polynomial.cancelLeads]
    rw [degreeIn_eq hb, degreeIn_eq hr] at hle
    rw [Nat.sub_eq_zero_of_le hle]
    ring
  rw [degreeIn_eq (isReduced_pseudoStep hb hr x), hview, degreeIn_eq hr]
  rw [degreeIn_eq hb, degreeIn_eq hr] at hle
  rw [degreeIn_eq hb] at hpos
  exact Polynomial.natDegree_cancelLeads_lt_of_natDegree_le_natDegree hle (hpos.trans_le hle)

/-! ## Division -/

/-- A remainder is zero or of smaller degree, and differs from a multiple of the dividend by a multiple of
the divisor. It has no new parameters. -/
structure IsPseudoRemainder (x : Parameter) (a b r : Polynomial) : Prop where
  isReduced : r.IsReduced
  degree : r.toMv = 0 ∨ r.degreeIn x < b.degreeIn x
  combination : ∃ k q, (inParam x b.toMv).leadingCoeff ^ k * a.toMv = q * b.toMv + r.toMv
  supportedOn : ∀ xs, SupportedOn (x :: xs) a → SupportedOn (x :: xs) b → SupportedOn (x :: xs) r

section Reduction

variable {x : Parameter} {a b r s : Polynomial}

theorem supportedOn_pseudoStep {xs : List Parameter} (hb : b.IsReduced) (hr : r.IsReduced)
    (hbs : SupportedOn (x :: xs) b) (hrs : SupportedOn (x :: xs) r) :
    SupportedOn (x :: xs) (pseudoStep x b r) := by
  have hlead : ∀ p : Polynomial, p.IsReduced → SupportedOn (x :: xs) p →
      SupportedOn (x :: xs) (p.leadingCoeffIn x) := fun p hp hps =>
    (supportedOn_leadingCoeffIn hp hps).mono fun y hy => List.mem_cons_of_mem _ hy
  exact ((hlead b hb hbs).mul hrs).sub (((hlead r hr hrs).mul hbs).mulPower List.mem_cons_self _)

/-- A remainder after one step more is a remainder before it. -/
theorem IsPseudoRemainder.of_step (hb : b.IsReduced) (hr : r.IsReduced)
    (h : IsPseudoRemainder x (pseudoStep x b r) b s) : IsPseudoRemainder x r b s where
  isReduced := h.isReduced
  degree := h.degree
  combination := by
    obtain ⟨k, q, hk⟩ := h.combination
    refine ⟨k + 1, q + (inParam x b.toMv).leadingCoeff ^ k * (inParam x r.toMv).leadingCoeff *
      MvPolynomial.X x ^ (r.degreeIn x - b.degreeIn x), ?_⟩
    rw [toMv_pseudoStep hb hr] at hk
    linear_combination hk
  supportedOn xs hrs hbs := h.supportedOn xs (supportedOn_pseudoStep hb hr hbs hrs) hbs

/-- By induction on the degree of the dividend. -/
theorem pseudoReduce_returns (hb : b.IsReduced) (hpos : 0 < b.degreeIn x) (hr : r.IsReduced) :
    (pseudoReduce x b r).Returns (IsPseudoRemainder x r b) := by
  induction hd : r.degreeIn x using Nat.strong_induction_on generalizing r with
  | _ d ih =>
    rw [pseudoReduce]
    split
    · rename_i h
      rw [Bool.or_eq_true, decide_eq_true_eq, isZero_iff hr] at h
      exact Computed.returns_pure ⟨hr, h, ⟨0, 0, by simp⟩, fun _ hrs _ => hrs⟩
    · rename_i h
      rw [Bool.or_eq_true, decide_eq_true_eq, not_or, not_lt] at h
      have hlt := degreeIn_pseudoStep hb hr hpos h.2
      exact (ih _ (hd ▸ hlt) (isReduced_pseudoStep hb hr x) rfl).mono fun _ => .of_step hb hr

theorem computeRemainder_returns (ha : a.IsReduced) (hb : b.IsReduced) (hpos : 0 < b.degreeIn x) :
    (computeRemainder x a b).Returns (IsPseudoRemainder x a b) := by
  rw [computeRemainder, if_neg hpos.ne']
  exact pseudoReduce_returns hb hpos ha

end Reduction

/-! ## The remainder -/

section Remainder

variable {x : Parameter} {a b c p : Polynomial}

/-- A repeated factor is a power of it. -/
theorem toMv_iterate_mul (c p : Polynomial) (k : ℕ) : (c.mul^[k] p).toMv = c.toMv ^ k * p.toMv := by
  induction k with
  | zero => rw [Function.iterate_zero_apply, pow_zero, one_mul]
  | succ k ih => rw [Function.iterate_succ_apply', toMv_mul, ih, pow_succ', mul_assoc]

theorem isReduced_iterate_mul (hc : c.IsReduced) (hp : p.IsReduced) (k : ℕ) : (c.mul^[k] p).IsReduced := by
  induction k with
  | zero => exact hp
  | succ k ih =>
    rw [Function.iterate_succ_apply']
    exact isReduced_mul hc ih

/-- Every pseudo division by a polynomial with the parameter ends. Its remainder is zero or of smaller degree
than the divisor, and together with a multiple of the divisor it makes up the dividend, multiplied as often as
needed by the leading coefficient of the divisor. -/
theorem pseudoRemainder_exact (ha : a.IsReduced) (hb : b.IsReduced) (hpos : 0 < b.degreeIn x) :
    computeRemainder x a b = pure (pseudoRemainder x a b) ∧ (pseudoRemainder x a b).IsReduced ∧
      (pseudoRemainder x a b = zero ∨ (pseudoRemainder x a b).degreeIn x < b.degreeIn x) ∧
      (b.leadingCoeffIn x).toMv = (inParam x b.toMv).leadingCoeff ∧
      ∃ (k : ℕ) (q : Polynomial), q.IsReduced ∧
        (b.leadingCoeffIn x).mul^[k] a = (q.mul b).add (pseudoRemainder x a b) := by
  obtain ⟨hreturns, hr⟩ := (computeRemainder_returns ha hb hpos).eq_result zero
  have hlead := toMv_leadingCoeffIn hb x
  refine ⟨hreturns, hr.isReduced, ?degree, hlead, ?combination⟩
  case degree => exact hr.degree.imp_left fun h => toMv_inj hr.isReduced isReduced_zero h
  case combination =>
    obtain ⟨k, f, hk⟩ := hr.combination
    obtain ⟨q, hq, rfl⟩ := exists_toMv f
    refine ⟨k, q, hq, toMv_inj (isReduced_iterate_mul (isReduced_leadingCoeffIn hb x) ha k)
      (isReduced_add (isReduced_mul hq hb) hr.isReduced) ?_⟩
    rw [toMv_iterate_mul, hlead, toMv_add, toMv_mul]
    exact hk

/-- The division of `a * a + b` by `b * a + 1` in `a`, where the leading coefficient `b` is not constant. -/
theorem pseudoRemainder_exact_square :
    let p := ((param "a").mul (param "a")).add (param "b")
    let d := ((param "b").mul (param "a")).add one
    computeRemainder "a" p d = pure (pseudoRemainder "a" p d) ∧
      (pseudoRemainder "a" p d).degreeIn "a" = 0 ∧
      ∃ (k : ℕ) (q : Polynomial), q.IsReduced ∧
        (param "b").mul^[k] p = (q.mul d).add (pseudoRemainder "a" p d) := by
  intro p d
  have ha : (param "a").IsReduced := isReduced_param "a"
  have hb : (param "b").IsReduced := isReduced_param "b"
  have hdegree : d.degreeIn "a" = 1 := by decide +kernel
  have hlead : d.leadingCoeffIn "a" = param "b" := by decide +kernel
  obtain ⟨hreturns, -, hsmall, -, hcombination⟩ := pseudoRemainder_exact (x := "a")
    (isReduced_add (isReduced_mul ha ha) hb) (isReduced_add (isReduced_mul hb ha) isReduced_one)
    (hdegree.symm ▸ Nat.one_pos)
  rw [hlead] at hcombination
  refine ⟨hreturns, ?_, hcombination⟩
  rcases hsmall with h | h
  · rw [h]
    rfl
  · exact Nat.lt_one_iff.1 (hdegree ▸ h)

end Remainder

end Polynomial
end MarkovCheck

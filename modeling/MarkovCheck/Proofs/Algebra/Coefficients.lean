import Mathlib
import MarkovCheck.Algebra.Polynomial.Univariate
import MarkovCheck.Proofs.Algebra.LeadingTerm

/-!
# MarkovCheck.Proofs.Algebra.Coefficients

The arithmetic of polynomials in terms of their coefficients.

A polynomial in its stored form is determined by the coefficients of all monomials. Sums merge terms one by
one, in any order, while scaling and shifting rewrite the stored terms in place; both give the coefficients of
the mathematical result. So equations between coefficients are equations between stored polynomials, among
them the laws of a commutative ring.

* `coeff_eq`    — the stored coefficient is that of the denoted polynomial.
* `Obtained`    — what any sequence of operations gives.
* `Monomial.splittings` — the pairs of monomials with a given product.
* `IsExactAt`   — the coefficients of the results of all operations.
* `RingLaws`    — the laws of a commutative ring for stored polynomials.
* `arithmetic_exact` — stored form, coefficients, equality and laws for everything obtained.
-/

namespace MarkovCheck

namespace Monomial

/-- The pairs of monomials in stored form whose product is a given one. -/
def splittings (m : Monomial) : Set (Monomial × Monomial) :=
  {d | d.1.IsReduced ∧ d.2.IsReduced ∧ d.1.mul d.2 = m}

/-- Every function that is zero almost everywhere gives the exponents of a monomial. -/
theorem exists_exponents (e : Parameter →₀ ℕ) : ∃ m : Monomial, m.IsReduced ∧ m.exponents = e := by
  induction e using Finsupp.induction with
  | zero => exact ⟨one, isReduced_one, exponents_one⟩
  | single_add x k e _ _ ih =>
    obtain ⟨m, hm, rfl⟩ := ih
    refine ⟨(power x k).mul m, isReduced_mul (isReduced_power x k) hm, ?_⟩
    rw [exponents_mul, exponents_power]

/-- The pairs with a given product have the exponents that add up. -/
theorem bijOn_splittings {m : Monomial} (hm : m.IsReduced) :
    Set.BijOn (fun d : Monomial × Monomial => (d.1.exponents, d.2.exponents)) m.splittings
      (Finset.HasAntidiagonal.antidiagonal m.exponents) := by
  refine ⟨?mapsTo, ?injOn, ?surjOn⟩
  case mapsTo =>
    rintro d ⟨-, -, rfl⟩
    exact Finset.HasAntidiagonal.mem_antidiagonal.2 (exponents_mul d.1 d.2).symm
  case injOn =>
    rintro ⟨a, b⟩ ⟨ha, hb, -⟩ ⟨c, d⟩ ⟨hc, hd, -⟩ h
    rw [Prod.mk.injEq] at h
    exact Prod.ext (exponents_inj ha hc h.1) (exponents_inj hb hd h.2)
  case surjOn =>
    rintro ⟨e, f⟩ h
    rw [Finset.mem_coe, Finset.HasAntidiagonal.mem_antidiagonal] at h
    obtain ⟨a, ha, rfl⟩ := exists_exponents e
    obtain ⟨b, hb, rfl⟩ := exists_exponents f
    exact ⟨(a, b), ⟨ha, hb, exponents_inj (isReduced_mul ha hb) hm (by rw [exponents_mul, h])⟩, rfl⟩

theorem finite_splittings {m : Monomial} (hm : m.IsReduced) : m.splittings.Finite :=
  (bijOn_splittings hm).finite_iff_finite.2 (Finset.finite_toSet _)

end Monomial

namespace Polynomial

/-! ## Coefficients -/

section Coefficients

variable {p q : Polynomial} {m n : Monomial}

theorem coeffIn_eq (hm : m.IsReduced) {l : List Term} (h : Ascending l) :
    coeffIn m l = (mvOf l).coeff m.exponents := by
  induction l with
  | nil => simp [coeffIn]
  | cons t l ih =>
    rw [coeffIn, mvOf_cons, MvPolynomial.coeff_add, MvPolynomial.coeff_monomial]
    split
    · rename_i hmt
      subst hmt
      rw [if_pos rfl, coeff_mvOf_eq_zero h.head_ne, add_zero]
    · rename_i hmt
      have hne : t.1.exponents ≠ m.exponents := fun he =>
        hmt (Monomial.exponents_inj (h.2 t List.mem_cons_self).1 hm he).symm
      rw [if_neg hne, zero_add, ih (ascending_cons.1 h).2.2]

/-- The stored coefficient of a monomial is the coefficient of the denoted polynomial. -/
theorem coeff_eq (hp : p.IsReduced) (hm : m.IsReduced) : p.coeff m = p.toMv.coeff m.exponents :=
  coeffIn_eq hm hp

/-- Polynomials in stored form with the same coefficients are equal. -/
theorem eq_iff_coeff (hp : p.IsReduced) (hq : q.IsReduced) :
    p = q ↔ ∀ m, m.IsReduced → p.coeff m = q.coeff m := by
  refine ⟨fun h _ _ => h ▸ rfl, fun h => toMv_inj hp hq (MvPolynomial.ext _ _ fun e => ?_)⟩
  obtain ⟨m, hm, rfl⟩ := Monomial.exists_exponents e
  rw [← coeff_eq hp hm, ← coeff_eq hq hm, h m hm]

/-! ## Operations -/

theorem term_coeff (hn : n.IsReduced) (hm : m.IsReduced) (c : ℚ) :
    (term n c).coeff m = if n = m then c else 0 := by
  rw [coeff_eq (isReduced_term hn c) hm, toMv_term, MvPolynomial.coeff_monomial]
  exact if_congr ⟨Monomial.exponents_inj hn hm, congrArg _⟩ rfl rfl

theorem ofTerms_coeff {ts : List Term} (hts : ∀ t ∈ ts, t.1.IsReduced) (hm : m.IsReduced) :
    (ofTerms ts).coeff m = (ts.map fun t => if t.1 = m then t.2 else 0).sum := by
  rw [coeff_eq (isReduced_ofTerms hts) hm, toMv_ofTerms]
  induction ts with
  | nil => simp
  | cons t ts ih =>
    rw [List.forall_mem_cons] at hts
    rw [mvOf_cons, MvPolynomial.coeff_add, ih hts.2, List.map_cons, List.sum_cons,
      MvPolynomial.coeff_monomial]
    congr 1
    exact if_congr ⟨Monomial.exponents_inj hts.1 hm, congrArg _⟩ rfl rfl

theorem add_coeff (hp : p.IsReduced) (hq : q.IsReduced) (hm : m.IsReduced) :
    (p.add q).coeff m = p.coeff m + q.coeff m := by
  rw [coeff_eq (isReduced_add hp hq) hm, toMv_add, MvPolynomial.coeff_add, coeff_eq hp hm,
    coeff_eq hq hm]

theorem sub_coeff (hp : p.IsReduced) (hq : q.IsReduced) (hm : m.IsReduced) :
    (p.sub q).coeff m = p.coeff m - q.coeff m := by
  rw [coeff_eq (isReduced_sub hp hq) hm, toMv_sub, MvPolynomial.coeff_sub, coeff_eq hp hm,
    coeff_eq hq hm]

theorem neg_coeff (hp : p.IsReduced) (hm : m.IsReduced) : p.neg.coeff m = -p.coeff m := by
  rw [coeff_eq (isReduced_neg hp) hm, toMv_neg, MvPolynomial.coeff_neg, coeff_eq hp hm]

theorem scale_coeff (hp : p.IsReduced) (hm : m.IsReduced) (c : ℚ) :
    (p.scale c).coeff m = c * p.coeff m := by
  rw [coeff_eq (isReduced_scale hp c) hm, toMv_scale, MvPolynomial.coeff_C_mul, coeff_eq hp hm]

/-- The coefficients of a product are the convolution of those of the factors. -/
theorem mul_coeff (hp : p.IsReduced) (hq : q.IsReduced) (hm : m.IsReduced) :
    (p.mul q).coeff m = ∑ᶠ d ∈ m.splittings, p.coeff d.1 * q.coeff d.2 := by
  rw [coeff_eq (isReduced_mul hp hq) hm, toMv_mul, MvPolynomial.coeff_mul, ← finsum_mem_coe_finset]
  refine (finsum_mem_eq_of_bijOn _ (Monomial.bijOn_splittings hm) ?_).symm
  rintro d ⟨h1, h2, -⟩
  rw [coeff_eq hp h1, coeff_eq hq h2]

/-- The coefficients of a multiple by a monomial are shifted: a monomial that is not a multiple has none. -/
theorem mulMonomial_coeff (hp : p.IsReduced) (hn : n.IsReduced) (hm : m.IsReduced) :
    (p.mulMonomial n).coeff m = (m.div? n).elim 0 p.coeff := by
  rw [coeff_eq (isReduced_mulMonomial hp hn) hm, toMv_mulMonomial, MvPolynomial.coeff_monomial_mul']
  cases h : m.div? n with
  | none =>
    rw [if_neg fun hle => ?_, Option.elim_none]
    obtain ⟨k, hk⟩ := (Monomial.exists_div?_iff hm hn).2 hle
    rw [h] at hk
    cases hk
  | some k =>
    obtain ⟨hk, he⟩ := Monomial.div?_spec hm h
    rw [if_pos (he ▸ le_self_add), one_mul, he, add_tsub_cancel_left, Option.elim_some, coeff_eq hp hk]

/-- The leading coefficient of the zero polynomial is zero, and so is every quotient by it. -/
theorem monic_coeff (hp : p.IsReduced) (hm : m.IsReduced) :
    p.monic.coeff m = p.coeff m / p.leadingCoeff := by
  unfold monic
  dsimp only
  split
  · rename_i h
    rcases h with h | h
    · have h0 : p.toMv = 0 := not_not.1 fun h0 => leadingCoeff_ne_zero_of_toMv hp h0 h
      rw [h, div_zero, coeff_eq hp hm, h0, MvPolynomial.coeff_zero]
    · rw [h, div_one]
  · rw [scale_coeff hp hm, div_eq_inv_mul]

theorem isReduced_shifted {cs : List (ℕ × Polynomial)} (hcs : ∀ c ∈ cs, c.2.IsReduced) (x : Parameter) :
    ∀ t ∈ cs.flatMap fun c => (c.2.mulMonomial (.power x c.1)).terms, t.1.IsReduced := by
  intro t ht
  obtain ⟨c, hc, ht⟩ := List.mem_flatMap.1 ht
  exact ((isReduced_mulMonomial (hcs c hc) (Monomial.isReduced_power x c.1)).2 t ht).1

theorem isReduced_ofCoefficients {cs : List (ℕ × Polynomial)} (hcs : ∀ c ∈ cs, c.2.IsReduced)
    (x : Parameter) : (ofCoefficients x cs).IsReduced := isReduced_ofTerms (isReduced_shifted hcs x)

/-- The coefficients are added up, each times its power of the parameter. -/
theorem ofCoefficients_coeff {cs : List (ℕ × Polynomial)} (hcs : ∀ c ∈ cs, c.2.IsReduced)
    (x : Parameter) (hm : m.IsReduced) :
    (ofCoefficients x cs).coeff m =
      (cs.map fun c => (m.div? (.power x c.1)).elim 0 c.2.coeff).sum := by
  rw [coeff_eq (isReduced_ofCoefficients hcs x) hm, ofCoefficients, toMv_ofTerms]
  induction cs with
  | nil => simp
  | cons c cs ih =>
    rw [List.forall_mem_cons] at hcs
    have hpower := Monomial.isReduced_power x c.1
    rw [List.flatMap_cons, mvOf_append, MvPolynomial.coeff_add, ih hcs.2, List.map_cons, List.sum_cons,
      ← mulMonomial_coeff hcs.1 hpower hm, coeff_eq (isReduced_mulMonomial hcs.1 hpower) hm]
    rfl

end Coefficients

/-! ## Sequences of operations -/

/-- The polynomials that operations give from any terms, in any order and number. -/
inductive Obtained : Polynomial → Prop
  | term {m : Monomial} (hm : m.IsReduced) (c : ℚ) : Obtained (term m c)
  | ofTerms {ts : List Term} (hts : ∀ t ∈ ts, t.1.IsReduced) : Obtained (ofTerms ts)
  | add {p q : Polynomial} (hp : Obtained p) (hq : Obtained q) : Obtained (p.add q)
  | sub {p q : Polynomial} (hp : Obtained p) (hq : Obtained q) : Obtained (p.sub q)
  | mul {p q : Polynomial} (hp : Obtained p) (hq : Obtained q) : Obtained (p.mul q)
  | neg {p : Polynomial} (hp : Obtained p) : Obtained p.neg
  | scale {p : Polynomial} (hp : Obtained p) (c : ℚ) : Obtained (p.scale c)
  | mulMonomial {p : Polynomial} {m : Monomial} (hp : Obtained p) (hm : m.IsReduced) :
    Obtained (p.mulMonomial m)
  | monic {p : Polynomial} (hp : Obtained p) : Obtained p.monic
  | ofCoefficients (x : Parameter) {cs : List (ℕ × Polynomial)} (hcs : ∀ c ∈ cs, Obtained c.2) :
    Obtained (ofCoefficients x cs)

section Obtained

variable {p q r : Polynomial} {m : Monomial}

/-- Every operation gives a polynomial in stored form. -/
theorem Obtained.isReduced (h : Obtained p) : p.IsReduced := by
  induction h with
  | term hm c => exact isReduced_term hm c
  | ofTerms hts => exact isReduced_ofTerms hts
  | add _ _ hp hq => exact isReduced_add hp hq
  | sub _ _ hp hq => exact isReduced_sub hp hq
  | mul _ _ hp hq => exact isReduced_mul hp hq
  | neg _ hp => exact isReduced_neg hp
  | scale _ c hp => exact isReduced_scale hp c
  | mulMonomial _ hm hp => exact isReduced_mulMonomial hp hm
  | monic _ hp => exact isReduced_monic hp
  | ofCoefficients x _ hcs => exact isReduced_ofCoefficients hcs x

/-- The results of all operations have the coefficients at `m` of what they stand for. The coefficient of a
product is a sum over finitely many pairs of monomials. -/
structure IsExactAt (p q : Polynomial) (m : Monomial) : Prop where
  term : ∀ n c, n.IsReduced → (term n c).coeff m = if n = m then c else 0
  ofTerms : ∀ ts : List Term, (∀ t ∈ ts, t.1.IsReduced) →
    (ofTerms ts).coeff m = (ts.map fun t => if t.1 = m then t.2 else 0).sum
  add : (p.add q).coeff m = p.coeff m + q.coeff m
  sub : (p.sub q).coeff m = p.coeff m - q.coeff m
  finite : m.splittings.Finite
  mul : (p.mul q).coeff m = ∑ᶠ d ∈ m.splittings, p.coeff d.1 * q.coeff d.2
  neg : p.neg.coeff m = -p.coeff m
  scale : ∀ c, (p.scale c).coeff m = c * p.coeff m
  mulMonomial : ∀ n, n.IsReduced → (p.mulMonomial n).coeff m = (m.div? n).elim 0 p.coeff
  monic : p.monic.coeff m = p.coeff m / p.leadingCoeff
  ofCoefficients : ∀ x (cs : List (ℕ × Polynomial)), (∀ c ∈ cs, Obtained c.2) →
    (ofCoefficients x cs).coeff m =
      (cs.map fun c => (m.div? (.power x c.1)).elim 0 c.2.coeff).sum

theorem isExactAt (hp : p.IsReduced) (hq : q.IsReduced) (hm : m.IsReduced) : IsExactAt p q m where
  term _ c hn := term_coeff hn hm c
  ofTerms _ hts := ofTerms_coeff hts hm
  add := add_coeff hp hq hm
  sub := sub_coeff hp hq hm
  finite := Monomial.finite_splittings hm
  mul := mul_coeff hp hq hm
  neg := neg_coeff hp hm
  scale := scale_coeff hp hm
  mulMonomial _ hn := mulMonomial_coeff hp hn hm
  monic := monic_coeff hp hm
  ofCoefficients x _ hcs := ofCoefficients_coeff (fun c hc => (hcs c hc).isReduced) x hm

/-- The laws of a commutative ring, as equations between stored polynomials. -/
structure RingLaws (p q r : Polynomial) : Prop where
  add_comm : p.add q = q.add p
  add_assoc : (p.add q).add r = p.add (q.add r)
  zero_add : zero.add p = p
  add_neg : p.add p.neg = zero
  sub_eq : p.sub q = p.add q.neg
  mul_comm : p.mul q = q.mul p
  mul_assoc : (p.mul q).mul r = p.mul (q.mul r)
  one_mul : one.mul p = p
  mul_add : p.mul (q.add r) = (p.mul q).add (p.mul r)

/-- Both sides of every law are in stored form and denote the same element. -/
theorem ringLaws (hp : p.IsReduced) (hq : q.IsReduced) (hr : r.IsReduced) : RingLaws p q r := by
  have hadd := isReduced_add hp hq
  have hmul := isReduced_mul hp hq
  constructor
  case add_comm => exact toMv_inj hadd (isReduced_add hq hp) (by simp [add_comm])
  case add_assoc =>
    exact toMv_inj (isReduced_add hadd hr) (isReduced_add hp (isReduced_add hq hr))
      (by simp [add_assoc])
  case zero_add => exact toMv_inj (isReduced_add isReduced_zero hp) hp (by simp)
  case add_neg => exact toMv_inj (isReduced_add hp (isReduced_neg hp)) isReduced_zero (by simp)
  case sub_eq => rfl
  case mul_comm => exact toMv_inj hmul (isReduced_mul hq hp) (by simp [mul_comm])
  case mul_assoc =>
    exact toMv_inj (isReduced_mul hmul hr) (isReduced_mul hp (isReduced_mul hq hr))
      (by simp [mul_assoc])
  case one_mul => exact toMv_inj (isReduced_mul isReduced_one hp) hp (by simp)
  case mul_add =>
    exact toMv_inj (isReduced_mul hp (isReduced_add hq hr)) (isReduced_add hmul (isReduced_mul hp hr))
      (by simp [mul_add])

/-- Whatever the operations give is in stored form, and every operation on it has the coefficients of the
mathematical result. So two results are equal exactly if they have the same coefficients, and the laws of a
commutative ring hold of the stored polynomials. -/
theorem arithmetic_exact (hp : Obtained p) (hq : Obtained q) (hr : Obtained r) :
    p.IsReduced ∧ (∀ m, m.IsReduced → IsExactAt p q m) ∧
      (p = q ↔ ∀ m, m.IsReduced → p.coeff m = q.coeff m) ∧ RingLaws p q r :=
  ⟨hp.isReduced, fun _ hm => isExactAt hp.isReduced hq.isReduced hm,
    eq_iff_coeff hp.isReduced hq.isReduced, ringLaws hp.isReduced hq.isReduced hr.isReduced⟩

end Obtained

/-- The product of `a + b` and `a - b`, which does not depend on the order of the factors. -/
theorem arithmetic_exact_conjugates :
    let p := (param "a").add (param "b")
    let q := (param "a").sub (param "b")
    (p.mul q).IsReduced ∧ p.mul q = q.mul p ∧ ∀ m, m.IsReduced →
      (p.mul q).coeff m = ∑ᶠ d ∈ m.splittings, p.coeff d.1 * q.coeff d.2 := by
  intro p q
  have ha : Obtained (param "a") := .term (Monomial.isReduced_power "a" 1) 1
  have hb : Obtained (param "b") := .term (Monomial.isReduced_power "b" 1) 1
  obtain ⟨-, hexact, -, hlaws⟩ := arithmetic_exact (ha.add hb) (ha.sub hb) ha
  exact ⟨((ha.add hb).mul (ha.sub hb)).isReduced, hlaws.mul_comm, fun m hm => (hexact m hm).mul⟩

end Polynomial
end MarkovCheck

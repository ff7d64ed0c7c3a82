import Mathlib
import MarkovCheck.Proofs.Algebra.Coefficients
import MarkovCheck.Proofs.Algebra.Division
import MarkovCheck.Proofs.Occurrences

/-!
# MarkovCheck.Proofs.Algebra.UnivariateView

A polynomial and its coefficients in one parameter determine each other.

Splitting a polynomial puts its terms under the exponents of the parameter and never adds two of them. What is
left of two terms with the same exponent differs, so no term is lost. In the other direction the coefficients are
multiplied by powers of the parameter and added up, where terms of different coefficients could meet only if a
coefficient contained the parameter. In both directions the coefficient of a power is the one listed for it, and
lists with the same coefficients are equal.

* `IsCoefficients`            — the lists that describe polynomials in one parameter.
* `coeff_ofCoefficients`      — the coefficients of a sum are those that are listed.
* `ofCoefficients_coefficientsIn`, `coefficientsIn_ofCoefficients` — one direction after the other.
* `isGreatest_degreeIn`       — the degree is the greatest exponent that is listed.
* `coefficientsIn_lossless`   — all of it in terms of stored polynomials.
-/

namespace MarkovCheck
namespace Polynomial

variable {x : Parameter} {p : Polynomial} {cs ds : List (ℕ × Polynomial)} {k : ℕ}

/-! ## Lists of coefficients -/

theorem eq_zero_iff_terms : p = zero ↔ p.terms = [] :=
  ⟨fun h => h ▸ rfl, fun h => congrArg Polynomial.mk h⟩

theorem CoefficientList.mem_iff (h : CoefficientList cs) {c : ℕ × Polynomial} :
    c ∈ cs ↔ termsAt cs c.1 = c.2.terms ∧ c.2.terms ≠ [] := by
  refine ⟨fun hc => ⟨termsAt_of_mem h.1 hc, h.2 c hc⟩, fun ⟨heq, hne⟩ => ?_⟩
  obtain ⟨a, ha, hterms⟩ := exists_mem_of_termsAt (heq ▸ hne)
  have hac : a = c.2 := congrArg Polynomial.mk (hterms.trans heq)
  rwa [hac] at ha

/-- Lists of coefficients are determined by the terms under each exponent. -/
theorem CoefficientList.ext (hcs : CoefficientList cs) (hds : CoefficientList ds)
    (h : ∀ k, termsAt cs k = termsAt ds k) : cs = ds :=
  eq_of_ascend hcs.1 hds.1 fun c => by rw [hcs.mem_iff, hds.mem_iff, h]

/-- What describes a polynomial in `x`: exponents ascend, and every coefficient is a polynomial in stored form
that is not zero and does not contain `x`. -/
structure IsCoefficients (x : Parameter) (cs : List (ℕ × Polynomial)) : Prop where
  ascending : cs.Pairwise (·.1 < ·.1)
  isReduced : ∀ c ∈ cs, c.2.IsReduced
  ne_zero : ∀ c ∈ cs, c.2 ≠ zero
  notMem_parameters : ∀ c ∈ cs, x ∉ c.2.parameters

theorem IsCoefficients.coefficientList (h : IsCoefficients x cs) : CoefficientList cs :=
  ⟨h.ascending, fun c hc h0 => h.ne_zero c hc (eq_zero_iff_terms.2 h0)⟩

theorem IsCoefficients.ascending_termsAt (h : IsCoefficients x cs) (k : ℕ) : Ascending (termsAt cs k) := by
  by_cases h0 : termsAt cs k = []
  · rw [h0]
    exact .nil
  · obtain ⟨a, ha, hterms⟩ := exists_mem_of_termsAt h0
    exact hterms ▸ h.isReduced _ ha

theorem isCoefficients_coefficientsIn (hp : p.IsReduced) (x : Parameter) :
    IsCoefficients x (p.coefficientsIn x) where
  ascending := (coefficientsIn_list hp x).1.1
  isReduced c hc := (toMv_coefficientsIn hp hc).1
  ne_zero c hc h0 := (coefficientsIn_list hp x).1.2 c hc (eq_zero_iff_terms.1 h0)
  notMem_parameters c hc := by
    obtain ⟨hred, -, hcoeff⟩ := toMv_coefficientsIn hp hc
    rw [← freeOf_iff_notMem_parameters hred, hcoeff]
    exact freeOf_coeff x p.toMv c.1

/-! ## There and back -/

/-- A coefficient without the parameter contributes to one power only. -/
theorem coeff_inParam_mulMonomial {a : Polynomial} (ha : FreeOf x a.toMv) (j k : ℕ) :
    (inParam x (a.mulMonomial (.power x j)).toMv).coeff k = if k = j then a.toMv else 0 := by
  rw [toMv_mulMonomial, Monomial.exponents_power, ← MvPolynomial.X_pow_eq_monomial, map_mul, map_pow,
    inParam_X_self, ha, Polynomial.coeff_mul_C, Polynomial.coeff_X_pow]
  split
  · exact one_mul _
  · exact zero_mul _

/-- The coefficients of a sum are those that are listed. -/
theorem coeff_ofCoefficients (h : IsCoefficients x cs) (k : ℕ) :
    (inParam x (ofCoefficients x cs).toMv).coeff k = mvOf (termsAt cs k) := by
  rw [ofCoefficients, toMv_ofTerms]
  induction cs with
  | nil => simp [termsAt]
  | cons c cs ih =>
    obtain ⟨hasc, hred, hne, hnot⟩ := h
    rw [List.pairwise_cons] at hasc
    rw [List.forall_mem_cons] at hred hne hnot
    have htail := ih ⟨hasc.2, hred.2, hne.2, hnot.2⟩
    have hfree : FreeOf x c.2.toMv := (freeOf_iff_notMem_parameters hred.1).2 hnot.1
    rw [List.flatMap_cons, mvOf_append, map_add, Polynomial.coeff_add, htail, termsAt_cons]
    have hhead := coeff_inParam_mulMonomial hfree c.1 k
    rw [toMv] at hhead
    rw [hhead]
    split
    · rename_i hk
      have hnil : termsAt cs k = [] := termsAt_eq_nil fun d hd => hk ▸ (hasc.1 d hd).ne'
      rw [hnil, mvOf_nil, add_zero]
      rfl
    · rw [zero_add]

theorem ofCoefficients_coefficientsIn (hp : p.IsReduced) (x : Parameter) :
    ofCoefficients x (p.coefficientsIn x) = p := by
  have hcs := isCoefficients_coefficientsIn hp x
  refine toMv_inj (isReduced_ofCoefficients hcs.isReduced x) hp (inParam_injective x ?_)
  ext k : 1
  rw [coeff_ofCoefficients hcs, (coefficientsIn_list hp x).2, mvOf_termsOfExponent hp]
  rfl

theorem coefficientsIn_ofCoefficients (h : IsCoefficients x cs) :
    (ofCoefficients x cs).coefficientsIn x = cs := by
  have hp : (ofCoefficients x cs).IsReduced := isReduced_ofCoefficients h.isReduced x
  have hlist := isCoefficients_coefficientsIn hp x
  refine hlist.coefficientList.ext h.coefficientList fun k => ?_
  refine mvOf_inj (hlist.ascending_termsAt k) (h.ascending_termsAt k) ?_
  rw [← coeff_ofCoefficients h, (coefficientsIn_list hp x).2, mvOf_termsOfExponent hp]
  rfl

/-! ## Degree -/

/-- The degree of a polynomial is the greatest exponent that is listed. -/
theorem isGreatest_degreeIn (hp : p.IsReduced) (h0 : p ≠ zero) (x : Parameter) :
    IsGreatest {k | ∃ a, (k, a) ∈ p.coefficientsIn x} (p.degreeIn x) := by
  have h0' : p.toMv ≠ 0 := fun h => h0 (toMv_inj hp isReduced_zero h)
  rw [degreeIn_eq hp]
  constructor
  · exact exists_mem_coefficientsIn hp (Polynomial.leadingCoeff_ne_zero.2 (inParam_ne_zero h0'))
  · rintro k ⟨a, ha⟩
    obtain ⟨-, hne, hcoeff⟩ := toMv_coefficientsIn hp ha
    exact Polynomial.le_natDegree_of_ne_zero (hcoeff ▸ hne)

/-- The coefficients of a polynomial in a parameter are not zero and do not contain the parameter, they give the
polynomial back, and the degree is their greatest exponent, zero if there are none. Every list of such
coefficients is that of the polynomial that they give. -/
theorem coefficientsIn_lossless (hp : p.IsReduced) (x : Parameter) :
    IsCoefficients x (p.coefficientsIn x) ∧ ofCoefficients x (p.coefficientsIn x) = p ∧
      (p = zero → p.degreeIn x = 0) ∧
      (p ≠ zero → IsGreatest {k | ∃ a, (k, a) ∈ p.coefficientsIn x} (p.degreeIn x)) ∧
      ∀ cs, IsCoefficients x cs →
        (ofCoefficients x cs).IsReduced ∧ (ofCoefficients x cs).coefficientsIn x = cs := by
  refine ⟨isCoefficients_coefficientsIn hp x, ofCoefficients_coefficientsIn hp x, ?zero,
    fun h0 => isGreatest_degreeIn hp h0 x,
    fun cs hcs => ⟨isReduced_ofCoefficients hcs.isReduced x, coefficientsIn_ofCoefficients hcs⟩⟩
  case zero =>
    rintro rfl
    rfl

/-- The polynomial `2 * a ^ 2 * b + 3 * b - 1` has two coefficients in `a`. The first one alone, as the coefficient
of another power, is found again as well. -/
theorem coefficientsIn_lossless_quadratic :
    let b := param "b"
    let low := (b.scale 3).sub one
    let p := ((((param "a").mul (param "a")).mul b).scale 2).add low
    p.IsReduced ∧ ofCoefficients "a" [(0, low), (2, b.scale 2)] = p ∧ p.degreeIn "a" = 2 ∧
      IsCoefficients "a" [(5, low)] ∧ (ofCoefficients "a" [(5, low)]).coefficientsIn "a" = [(5, low)] := by
  intro b low p
  have ha : (param "a").IsReduced := isReduced_param "a"
  have hb : b.IsReduced := isReduced_param "b"
  have hlow : low.IsReduced := isReduced_sub (isReduced_scale hb 3) isReduced_one
  have hp : p.IsReduced := isReduced_add (isReduced_scale (isReduced_mul (isReduced_mul ha ha) hb) 2) hlow
  have hlist : p.coefficientsIn "a" = [(0, low), (2, b.scale 2)] := by decide +kernel
  have hsingle : IsCoefficients "a" [(5, low)] :=
    ⟨List.pairwise_singleton _ _, List.forall_mem_singleton.2 hlow,
      List.forall_mem_singleton.2 (by decide +kernel), List.forall_mem_singleton.2 (by decide +kernel)⟩
  obtain ⟨-, hback, -, hdegree, hforth⟩ := coefficientsIn_lossless hp "a"
  rw [hlist] at hback hdegree
  have hgreatest : IsGreatest {k | ∃ c, (k, c) ∈ [(0, low), (2, b.scale 2)]} 2 := by
    refine ⟨⟨b.scale 2, by simp⟩, ?_⟩
    rintro k ⟨c, hc⟩
    simp only [List.mem_cons, Prod.mk.injEq, List.not_mem_nil, or_false] at hc
    omega
  exact ⟨hp, hback, (hdegree (by decide +kernel)).unique hgreatest, hsingle, (hforth _ hsingle).2⟩

end Polynomial
end MarkovCheck

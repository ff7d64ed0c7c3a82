import Mathlib
import MarkovCheck.Proofs.Algebra.Gcd

/-!
# MarkovCheck.Proofs.Algebra.PrimitivePart

The content of a polynomial in one parameter and its primitive part.

The content is a gcd of the coefficients, so it does not contain the parameter, and what divides the quotient by
it and does not contain the parameter either would make the content larger. A polynomial without the parameter
divides another one exactly if it divides all of its coefficients; so only constants divide all coefficients
of the primitive part. This does not change when the quotient is divided by its leading coefficient.

* `contentAndPrimitivePart_spec`  — the computation ends with the two parts.
* `isConst_of_primitiveIn`        — primitive polynomials in terms of stored coefficients.
* `contentAndPrimitivePart_exact` — the parts in terms of the operations on polynomials.
-/

namespace MarkovCheck
namespace Polynomial

variable {x : Parameter} {p q d : Polynomial}

theorem contentAndPrimitivePart_spec (hp : p.IsReduced) (h0 : p.toMv ≠ 0) (x : Parameter) :
    computeParts x p = pure (contentAndPrimitivePart x p) ∧ IsSplit x p (contentAndPrimitivePart x p) := by
  have hsupport : SupportedOn (x :: p.parameters) p :=
    (supportedOn_parameters hp).mono fun _ hy => List.mem_cons_of_mem x hy
  exact (computeParts_returns (fun _ _ => computeGcd_returns) hp hsupport h0).eq_result (zero, zero)

/-- Polynomials that denote associates differ by a rational factor. -/
theorem exists_scale_of_associated (hp : p.IsReduced) (hq : q.IsReduced) (h : Associated q.toMv p.toMv) :
    ∃ u : ℚ, u ≠ 0 ∧ q.scale u = p := by
  obtain ⟨unit, hunit⟩ := h
  obtain ⟨u, hu0, hu⟩ := exists_C_of_isUnit unit.isUnit
  refine ⟨u, hu0, (eq_scale hp hq ?_).symm⟩
  rw [← hunit, hu, mul_comm]

/-- What divides all stored coefficients divides the polynomial, if it does not contain the parameter. -/
theorem dvd_of_forall_coefficientsIn (hp : p.IsReduced) (hd : FreeOf x d.toMv)
    (h : ∀ a ∈ p.coefficientsIn x, d.toMv ∣ a.2.toMv) : d.toMv ∣ p.toMv := by
  refine (dvd_iff_dvd_coeff hd).2 fun k => ?_
  by_cases hk : (inParam x p.toMv).coeff k = 0
  · exact hk ▸ dvd_zero _
  · obtain ⟨a, ha⟩ := exists_mem_coefficientsIn hp hk
    exact (toMv_coefficientsIn hp ha).2.2 ▸ h _ ha

/-- Only constants divide all coefficients of a primitive polynomial. -/
theorem isConst_of_primitiveIn (h : PrimitiveIn x p.toMv) (hp : p.IsReduced) (hd : d.IsReduced)
    (hx : x ∉ d.parameters) (hdvd : ∀ a ∈ p.coefficientsIn x, ∃ e : Polynomial, e.mul d = a.2) :
    d.isConst = true := by
  have hfree : FreeOf x d.toMv := (freeOf_iff_notMem_parameters hd).2 hx
  have hall : d.toMv ∣ p.toMv := dvd_of_forall_coefficientsIn hp hfree fun a ha => by
    obtain ⟨e, he⟩ := hdvd a ha
    rw [← he, toMv_mul]
    exact dvd_mul_left _ _
  obtain ⟨c, -, hc⟩ := exists_C_of_isUnit (h d.toMv hfree hall)
  exact (isConst_iff hd).2 ⟨c, hc⟩

/-- The computation of the content and the primitive part of a polynomial that is not zero ends. The content
does not contain the parameter, the product of the two is the polynomial up to a rational factor, the primitive
part has leading coefficient one, and no polynomial without the parameter divides all of its coefficients, except
for constants. -/
theorem contentAndPrimitivePart_exact (hp : p.IsReduced) (h0 : p ≠ zero) (x : Parameter) :
    let c := (contentAndPrimitivePart x p).1
    let q := (contentAndPrimitivePart x p).2
    computeParts x p = pure (c, q) ∧ c.IsReduced ∧ q.IsReduced ∧ x ∉ c.parameters ∧
      (∃ u : ℚ, u ≠ 0 ∧ (c.mul q).scale u = p) ∧ q.leadingCoeff = 1 ∧
      ∀ d : Polynomial, d.IsReduced → x ∉ d.parameters →
        (∀ a ∈ q.coefficientsIn x, ∃ e : Polynomial, e.mul d = a.2) → d.isConst = true := by
  intro c q
  have h0' : p.toMv ≠ 0 := fun h => h0 (toMv_inj hp isReduced_zero h)
  obtain ⟨hreturns, hsplit⟩ := contentAndPrimitivePart_spec hp h0' x
  have hc : c.IsReduced := hsplit.content.isReduced
  have hproduct : Associated (c.mul q).toMv p.toMv := (toMv_mul c q).symm ▸ hsplit.product
  exact ⟨hreturns, hc, hsplit.isReduced, (freeOf_iff_notMem_parameters hc).1 hsplit.content.freeOf,
    exists_scale_of_associated hp (isReduced_mul hc hsplit.isReduced) hproduct, hsplit.leadingCoeff,
    fun d hd hx hdvd => isConst_of_primitiveIn hsplit.primitive hsplit.isReduced hd hx hdvd⟩

/-- The parameter `b` divides all coefficients of `2 * b * (a + b)` in `a`, but not all those of the primitive
part. -/
theorem contentAndPrimitivePart_exact_sum :
    let p := ((param "b").mul ((param "a").add (param "b"))).scale 2
    let q := (contentAndPrimitivePart "a" p).2
    computeParts "a" p = pure (contentAndPrimitivePart "a" p) ∧ q.leadingCoeff = 1 ∧
      ¬ ∀ c ∈ q.coefficientsIn "a", ∃ e : Polynomial, e.mul (param "b") = c.2 := by
  intro p q
  have hb : (param "b").IsReduced := isReduced_param "b"
  have hp : p.IsReduced := isReduced_scale (isReduced_mul hb (isReduced_add (isReduced_param "a") hb)) 2
  obtain ⟨hreturns, -, -, -, -, hlead, hprimitive⟩ :=
    contentAndPrimitivePart_exact hp (by decide +kernel) "a"
  refine ⟨hreturns, hlead, fun hdvd => ?_⟩
  have hconst : (param "b").isConst = true := hprimitive _ hb (by decide +kernel) hdvd
  exact absurd hconst (by decide +kernel)

end Polynomial
end MarkovCheck

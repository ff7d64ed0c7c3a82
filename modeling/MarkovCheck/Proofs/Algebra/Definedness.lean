import Mathlib
import MarkovCheck.Proofs.Algebra.Evaluation

/-!
# MarkovCheck.Proofs.Algebra.Definedness

When a stored function evaluates without error.

Evaluation fails at a pole, and it fails when a parameter has no value, even if the parameter could be
cancelled. A canonical function has neither a pole nor a parameter that some other representation of
the same element avoids, since its parts divide those of every representation. So the elements that
evaluate without error form a field but for the division by elements with value zero.

* `Known`, `knownField` — polynomials in parameters with values, and their quotients.
* `HasValue`            — an element has a value, without parameters that have none.
* `evalAt_eq_ok_iff`    — a stored function evaluates without error exactly to the value of its
  element.
* `evalAt_none_isOk_iff` — without any values exactly the constants evaluate.
* `definedAt`, `definedValue` — the ring of these elements, and the value as a homomorphism.
-/

namespace MarkovCheck

variable {v : Valuation}

/-! ## Polynomials -/

/-- All parameters that occur have a value. -/
def Known (v : Valuation) (f : Mv) : Prop := ∀ x, v x = none → FreeOf x f

theorem Known.add {f g : Mv} (hf : Known v f) (hg : Known v g) : Known v (f + g) :=
  fun x hx => (hf x hx).add (hg x hx)

theorem Known.mul {f g : Mv} (hf : Known v f) (hg : Known v g) : Known v (f * g) :=
  fun x hx => (hf x hx).mul (hg x hx)

theorem known_C (v : Valuation) (c : ℚ) : Known v (MvPolynomial.C c) := fun x _ => freeOf_C x c

theorem known_zero (v : Valuation) : Known v 0 := fun x _ => freeOf_zero x

theorem known_one (v : Valuation) : Known v 1 := fun x _ => freeOf_one x

theorem Known.neg {f : Mv} (hf : Known v f) : Known v (-f) := by
  rw [← zero_sub]
  exact fun x hx => (freeOf_zero x).sub (hf x hx)

theorem Known.of_dvd {f g : Mv} (hf : Known v f) (h0 : f ≠ 0) (h : g ∣ f) : Known v g :=
  fun x hx => (hf x hx).of_dvd h0 h

namespace Monomial

theorem evalFactors_isOk_iff {l : List Factor} :
    (∃ a, evalFactors v l = .ok a) ↔ ∀ x ∈ l.map (·.1), v x ≠ none := by
  induction l with
  | nil => simp [evalFactors]
  | cons f l ih =>
    rw [List.map_cons, List.forall_mem_cons, ← ih]
    simp only [evalFactors]
    rcases v f.1 with _ | a
    · simp
    · cases evalFactors v l <;> simp

end Monomial

namespace Polynomial

theorem evalAt_isOk_iff {p : Polynomial} :
    (∃ a, p.evalAt v = .ok a) ↔ ∀ x ∈ p.parameters, v x ≠ none := by
  have hterms : ∀ l : List Term, (∃ a, evalTerms v l = .ok a) ↔
      ∀ t ∈ l, ∀ x ∈ t.1.factors.map (·.1), v x ≠ none := by
    intro l
    induction l with
    | nil => simp [evalTerms]
    | cons t l ih =>
      rw [List.forall_mem_cons, ← ih, ← Monomial.evalFactors_isOk_iff]
      simp only [evalTerms, Monomial.evalAt]
      cases Monomial.evalFactors v t.1.factors with
      | error err => simp
      | ok a => cases evalTerms v l <;> simp
  rw [evalAt, hterms]
  constructor
  · intro h x hx
    obtain ⟨t, ht, hmem⟩ := mem_parameters.1 hx
    exact h t ht x hmem
  · exact fun h t ht x hx => h x (mem_parameters.2 ⟨t, ht, hx⟩)

/-- A stored polynomial evaluates without error exactly to the value of the polynomial. -/
theorem evalAt_eq_ok_iff {p : Polynomial} (hp : p.IsReduced) {a : ℚ} :
    p.evalAt v = .ok a ↔ Known v p.toMv ∧ evalMv v p.toMv = a := by
  have hknown : Known v p.toMv ↔ ∃ a, p.evalAt v = .ok a := by
    rw [evalAt_isOk_iff]
    constructor
    · exact fun h x hx hnone => (freeOf_iff_notMem_parameters hp).1 (h x hnone) hx
    · exact fun h x hnone => (freeOf_iff_notMem_parameters hp).2 fun hx => h x hx hnone
  rw [hknown]
  constructor
  · exact fun h => ⟨⟨a, h⟩, evalMv_of_evalAt h⟩
  · rintro ⟨⟨b, hb⟩, rfl⟩
    rw [hb, evalMv_of_evalAt hb]

/-- Without any values only constants are known. -/
theorem isConst_of_known {p : Polynomial} (hp : p.IsReduced) (h : Known (fun _ => none) p.toMv) :
    p.isConst = true := by
  have hfactors : ∀ t ∈ p.terms, t.1 = .one := by
    intro t ht
    refine congrArg Monomial.mk (List.eq_nil_iff_forall_not_mem.2 fun f hf => ?_)
    have hx : f.1 ∈ p.parameters := mem_parameters.2 ⟨t, ht, List.mem_map_of_mem hf⟩
    exact (freeOf_iff_notMem_parameters hp).1 (h f.1 rfl) hx
  have hconst : ∀ l : List Term, (∀ t ∈ l, t.1 = .one) → ∃ c, mvOf l = MvPolynomial.C c := by
    intro l hl
    induction l with
    | nil => exact ⟨0, mvOf_nil.trans (map_zero _).symm⟩
    | cons t l ih =>
      rw [List.forall_mem_cons] at hl
      obtain ⟨c, hc⟩ := ih hl.2
      refine ⟨t.2 + c, ?_⟩
      rw [mvOf_cons, hc, hl.1, Monomial.exponents_one, map_add]
      rfl
  exact (isConst_iff hp).2 (hconst p.terms hfactors)

end Polynomial

/-! ## The field of the parameters with values -/

/-- The quotients of polynomials in parameters with values. -/
noncomputable def knownField (v : Valuation) : Subfield Frac where
  carrier := {k | ∃ n d, Known v n ∧ Known v d ∧ d ≠ 0 ∧ k = toField n / toField d}
  mul_mem' := by
    rintro _ _ ⟨n, d, hn, hd, h0, rfl⟩ ⟨m, e, hm, he, h0', rfl⟩
    exact ⟨n * m, d * e, hn.mul hm, hd.mul he, mul_ne_zero h0 h0',
      by rw [div_mul_div_comm, map_mul, map_mul]⟩
  one_mem' := ⟨1, 1, known_one v, known_one v, one_ne_zero, by rw [map_one, div_one]⟩
  add_mem' := by
    rintro _ _ ⟨n, d, hn, hd, h0, rfl⟩ ⟨m, e, hm, he, h0', rfl⟩
    refine ⟨n * e + d * m, d * e, (hn.mul he).add (hd.mul hm), hd.mul he, mul_ne_zero h0 h0', ?_⟩
    rw [div_add_div _ _ (toField_ne_zero h0) (toField_ne_zero h0'), map_add, map_mul, map_mul,
      map_mul]
  zero_mem' := ⟨0, 1, known_zero v, known_one v, one_ne_zero, by rw [map_zero, zero_div]⟩
  neg_mem' := by
    rintro _ ⟨n, d, hn, hd, h0, rfl⟩
    exact ⟨-n, d, hn.neg, hd, h0, by rw [map_neg, neg_div]⟩
  inv_mem' := by
    rintro _ ⟨n, d, hn, hd, h0, rfl⟩
    by_cases hn0 : n = 0
    · exact ⟨0, 1, known_zero v, known_one v, one_ne_zero,
        by rw [hn0, map_zero, zero_div, inv_zero, zero_div]⟩
    · exact ⟨d, n, hd, hn, hn0, by rw [inv_div]⟩

theorem toField_mem_knownField {f : Mv} (hf : Known v f) : toField f ∈ knownField v :=
  ⟨f, 1, hf, known_one v, one_ne_zero, by rw [map_one, div_one]⟩

/-! ## Values without error -/

/-- The element has the value `q`, and parameters without a value can be avoided. -/
def HasValue (v : Valuation) (k : Frac) (q : ℚ) : Prop := EvalsTo v k q ∧ k ∈ knownField v

section HasValue

variable {k l : Frac} {q r : ℚ}

theorem EvalsTo.inv (hk : EvalsTo v k q) (h : q ≠ 0) : EvalsTo v k⁻¹ q⁻¹ := by
  obtain ⟨n, d, hd, rfl, rfl⟩ := hk
  exact ⟨d, n, fun h0 => h (by rw [h0, zero_div]), by rw [inv_div], by rw [inv_div]⟩

theorem HasValue.add (hk : HasValue v k q) (hl : HasValue v l r) : HasValue v (k + l) (q + r) :=
  ⟨hk.1.add hl.1, add_mem hk.2 hl.2⟩

theorem HasValue.mul (hk : HasValue v k q) (hl : HasValue v l r) : HasValue v (k * l) (q * r) :=
  ⟨hk.1.mul hl.1, mul_mem hk.2 hl.2⟩

theorem HasValue.neg (hk : HasValue v k q) : HasValue v (-k) (-q) := ⟨hk.1.neg, neg_mem hk.2⟩

theorem HasValue.sub (hk : HasValue v k q) (hl : HasValue v l r) : HasValue v (k - l) (q - r) := by
  rw [sub_eq_add_neg, sub_eq_add_neg]
  exact hk.add hl.neg

theorem HasValue.inv (hk : HasValue v k q) (h : q ≠ 0) : HasValue v k⁻¹ q⁻¹ :=
  ⟨hk.1.inv h, inv_mem hk.2⟩

theorem HasValue.unique (hq : HasValue v k q) (hr : HasValue v k r) : q = r := hq.1.unique hr.1

theorem hasValue_ofQ (v : Valuation) (c : ℚ) : HasValue v (RationalFunction.ofQ c) c :=
  ⟨RationalFunction.evalsTo_ofQ v c, toField_mem_knownField (known_C v c)⟩

theorem hasValue_zero (v : Valuation) : HasValue v 0 0 := ⟨evalsTo_zero v, zero_mem _⟩

theorem hasValue_one (v : Valuation) : HasValue v 1 1 := ⟨evalsTo_one v, one_mem _⟩

theorem hasValue_sum {α : Type} {l : List α} {f : α → Frac} {g : α → ℚ}
    (h : ∀ a ∈ l, HasValue v (f a) (g a)) : HasValue v (l.map f).sum (l.map g).sum := by
  refine ⟨evalsTo_sum fun a ha => (h a ha).1, list_sum_mem fun k hk => ?_⟩
  obtain ⟨a, ha, rfl⟩ := List.mem_map.1 hk
  exact (h a ha).2

end HasValue

namespace RationalFunction

variable {f : RationalFunction} {q : ℚ}

/-- The parts of a canonical function divide those of every representation, so they have no
parameters that one of these does not have. -/
theorem IsCanonical.known (hf : f.IsCanonical) (h : f.toFrac ∈ knownField v) :
    Known v f.numerator.toMv ∧ Known v f.denominator.toMv := by
  obtain ⟨n, d, hn, hd, h0, he⟩ := h
  have hcross : f.numerator.toMv * d = n * f.denominator.toMv := by
    apply toField_injective
    rw [toFrac, div_eq_div_iff (toField_ne_zero hf.denominator_ne_zero) (toField_ne_zero h0)] at he
    rwa [map_mul, map_mul]
  refine ⟨?_, hd.of_dvd h0 (hf.isRelPrime.symm.dvd_of_dvd_mul_left ⟨n, by rw [hcross, mul_comm]⟩)⟩
  by_cases hn0 : n = 0
  · rw [hn0, zero_mul] at hcross
    rw [(mul_eq_zero.1 hcross).resolve_right h0]
    exact known_zero v
  · exact hn.of_dvd hn0 (hf.isRelPrime.dvd_of_dvd_mul_right ⟨d, hcross.symm⟩)

/-- The denominator of a canonical function is zero nowhere that some representation has a value. -/
theorem IsCanonical.evalMv_denominator_ne_zero (hf : f.IsCanonical) (h : EvalsTo v f.toFrac q) :
    evalMv v f.denominator.toMv ≠ 0 := by
  obtain ⟨n, d, hd, he, -⟩ := h
  have hcross : f.numerator.toMv * d = n * f.denominator.toMv := by
    apply toField_injective
    rw [toFrac, div_eq_div_iff (toField_ne_zero hf.denominator_ne_zero) (ne_zero_of_evalMv hd)] at he
    rwa [map_mul, map_mul]
  obtain ⟨k, hk⟩ : f.denominator.toMv ∣ d :=
    hf.isRelPrime.symm.dvd_of_dvd_mul_left ⟨n, by rw [hcross, mul_comm]⟩
  intro h0
  rw [hk, map_mul, h0, zero_mul] at hd
  exact hd rfl

/-- A stored function evaluates without error exactly to the value of its element. -/
theorem evalAt_eq_ok_iff (hf : f.IsCanonical) : f.evalAt v = .ok q ↔ HasValue v f.toFrac q := by
  constructor
  · intro h
    refine ⟨evalsTo_of_evalAt h, ?_⟩
    unfold evalAt at h
    split at h
    · cases h
    · rename_i d hd
      split at h
      · cases h
      · split at h
        · cases h
        · rename_i n hn
          exact ⟨_, _, ((Polynomial.evalAt_eq_ok_iff hf.1).1 hn).1,
            ((Polynomial.evalAt_eq_ok_iff hf.2.1).1 hd).1, hf.denominator_ne_zero, rfl⟩
  · intro h
    obtain ⟨hn, hd⟩ := hf.known h.2
    have h0 := hf.evalMv_denominator_ne_zero h.1
    have hq : q = evalMv v f.numerator.toMv / evalMv v f.denominator.toMv :=
      h.1.unique ⟨_, _, h0, rfl, rfl⟩
    rw [evalAt, (Polynomial.evalAt_eq_ok_iff hf.2.1).2 ⟨hd, rfl⟩]
    simp only [if_neg h0, (Polynomial.evalAt_eq_ok_iff hf.1).2 ⟨hn, rfl⟩, hq]

/-- Without any values exactly the constants evaluate. -/
theorem evalAt_none_isOk_iff (hf : f.IsCanonical) :
    (∃ q, f.evalAt (fun _ => none) = .ok q) ↔ f.isConst = true := by
  rw [isConst, Option.isSome_iff_exists]
  constructor
  · rintro ⟨q, hq⟩
    obtain ⟨hn, hd⟩ := hf.known ((evalAt_eq_ok_iff hf).1 hq).2
    obtain ⟨a, ha⟩ := (Polynomial.isConst_iff hf.1).1 (Polynomial.isConst_of_known hf.1 hn)
    obtain ⟨b, hb⟩ := (Polynomial.isConst_iff hf.2.1).1 (Polynomial.isConst_of_known hf.2.1 hd)
    refine ⟨a / b, (const?_eq_some hf).2 ?_⟩
    rw [toFrac, ha, hb, map_div₀]
    rfl
  · rintro ⟨c, hc⟩
    exact ⟨c, (evalAt_eq_ok_iff hf).2 ((const?_eq_some hf).1 hc ▸ hasValue_ofQ _ c)⟩

/-- The value at a valuation, zero where there is an error. -/
def evalOrZero (v : Valuation) (f : RationalFunction) : ℚ := (f.evalAt v).toOption.getD 0

theorem evalOrZero_eq (h : f.evalAt v = .ok q) : f.evalOrZero v = q := by
  rw [evalOrZero, h]
  rfl

end RationalFunction

/-! ## The ring of elements with a value -/

/-- The elements that have a value, without parameters that have none. -/
noncomputable def definedAt (v : Valuation) : Subring Frac := regularAt v ⊓ (knownField v).toSubring

theorem mem_definedAt {k : Frac} : k ∈ definedAt v ↔ ∃ q, HasValue v k q := by
  constructor
  · rintro ⟨⟨q, hq⟩, hk⟩
    exact ⟨q, hq, hk⟩
  · rintro ⟨q, hq, hk⟩
    exact ⟨⟨q, hq⟩, hk⟩

/-- The value. -/
noncomputable def definedValue (v : Valuation) : definedAt v →+* ℚ :=
  (valueAt v).comp (Subring.inclusion inf_le_left)

theorem definedValue_eq {k : definedAt v} {q : ℚ} (h : EvalsTo v k q) : definedValue v k = q :=
  valueAt_eq h

theorem isUnit_of_definedValue {k : definedAt v} (h : definedValue v k ≠ 0) : IsUnit k := by
  obtain ⟨q, hq⟩ := mem_definedAt.1 k.2
  rw [definedValue_eq hq.1] at h
  refine IsUnit.of_mul_eq_one ⟨(k : Frac)⁻¹, mem_definedAt.2 ⟨_, hq.inv h⟩⟩ (Subtype.ext ?_)
  exact mul_inv_cancel₀ (hq.1.ne_zero h)

end MarkovCheck

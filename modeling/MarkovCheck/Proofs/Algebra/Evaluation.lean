import Mathlib
import MarkovCheck.Proofs.Algebra.RationalFunction

/-!
# MarkovCheck.Proofs.Algebra.Evaluation

Values of rational functions for given parameter values.

The elements of the field that have a value at a valuation, that is, a representation whose
denominator does not become zero, form a ring, and taking the value is a homomorphism. So an
equation in the field may be evaluated on both sides, and an element with a value other than zero is
not zero.

* `EvalsTo`  — an element of the field has a value.
* `regularAt`, `valueAt` — the ring of these elements, and the homomorphism.
* `evalsTo_of_evalAt` — a stored function that evaluates without error has that value.
-/

namespace MarkovCheck

/-- The value of a polynomial; parameters without a value count as zero. -/
noncomputable def evalMv (v : Valuation) : Mv →+* ℚ := MvPolynomial.eval fun x => (v x).getD 0

/-- The element is a quotient whose denominator does not become zero, with value `q`. -/
def EvalsTo (v : Valuation) (k : Frac) (q : ℚ) : Prop :=
  ∃ n d : Mv, evalMv v d ≠ 0 ∧ k = toField n / toField d ∧ q = evalMv v n / evalMv v d

section EvalsTo

variable {v : Valuation} {k l : Frac} {q r : ℚ}

theorem ne_zero_of_evalMv {d : Mv} (h : evalMv v d ≠ 0) : toField d ≠ 0 :=
  toField_ne_zero fun h0 => h (by rw [h0, map_zero])

theorem evalsTo_toField (v : Valuation) (f : Mv) : EvalsTo v (toField f) (evalMv v f) :=
  ⟨f, 1, by simp, by simp, by simp⟩

theorem evalsTo_zero (v : Valuation) : EvalsTo v 0 0 := by
  simpa using evalsTo_toField v 0

theorem evalsTo_one (v : Valuation) : EvalsTo v 1 1 := by
  simpa using evalsTo_toField v 1

theorem EvalsTo.add (hk : EvalsTo v k q) (hl : EvalsTo v l r) : EvalsTo v (k + l) (q + r) := by
  obtain ⟨n, d, hd, rfl, rfl⟩ := hk
  obtain ⟨m, e, he, rfl, rfl⟩ := hl
  refine ⟨n * e + d * m, d * e, by simpa using ⟨hd, he⟩, ?_, ?_⟩
  · rw [div_add_div _ _ (ne_zero_of_evalMv hd) (ne_zero_of_evalMv he), map_add, map_mul, map_mul,
      map_mul]
  · rw [div_add_div _ _ hd he, map_add, map_mul, map_mul, map_mul]

theorem EvalsTo.neg (hk : EvalsTo v k q) : EvalsTo v (-k) (-q) := by
  obtain ⟨n, d, hd, rfl, rfl⟩ := hk
  exact ⟨-n, d, hd, by rw [map_neg, neg_div], by rw [map_neg, neg_div]⟩

theorem EvalsTo.mul (hk : EvalsTo v k q) (hl : EvalsTo v l r) : EvalsTo v (k * l) (q * r) := by
  obtain ⟨n, d, hd, rfl, rfl⟩ := hk
  obtain ⟨m, e, he, rfl, rfl⟩ := hl
  refine ⟨n * m, d * e, by simpa using ⟨hd, he⟩, ?_, ?_⟩
  · rw [div_mul_div_comm, map_mul, map_mul]
  · rw [div_mul_div_comm, map_mul, map_mul]

/-- An element has at most one value. -/
theorem EvalsTo.unique (hq : EvalsTo v k q) (hr : EvalsTo v k r) : q = r := by
  obtain ⟨n, d, hd, rfl, rfl⟩ := hq
  obtain ⟨m, e, he, h, rfl⟩ := hr
  rw [div_eq_div_iff (ne_zero_of_evalMv hd) (ne_zero_of_evalMv he), ← map_mul, ← map_mul] at h
  have := congrArg (evalMv v) (toField_injective h)
  rw [map_mul, map_mul] at this
  exact (div_eq_div_iff hd he).2 this

theorem EvalsTo.ne_zero (hk : EvalsTo v k q) (h : q ≠ 0) : k ≠ 0 := by
  rintro rfl
  exact h (hk.unique (evalsTo_zero v))

theorem evalsTo_sum {α : Type} {l : List α} {f : α → Frac} {g : α → ℚ}
    (h : ∀ a ∈ l, EvalsTo v (f a) (g a)) : EvalsTo v (l.map f).sum (l.map g).sum := by
  induction l with
  | nil => exact evalsTo_zero v
  | cons a l ih =>
    rw [List.forall_mem_cons] at h
    simpa using h.1.add (ih h.2)

end EvalsTo

/-! ## The ring of elements with a value -/

-- Shortcuts for instance search.
instance : ZeroMemClass (Subring Frac) Frac := inferInstance
instance : OneMemClass (Subring Frac) Frac := inferInstance
instance : AddSubgroupClass (Subring Frac) Frac := inferInstance
instance : SubsemiringClass (Subring Frac) Frac := inferInstance

/-- The elements that have a value. -/
noncomputable def regularAt (v : Valuation) : Subring Frac where
  carrier := {k | ∃ q, EvalsTo v k q}
  mul_mem' := fun ⟨q, hq⟩ ⟨r, hr⟩ => ⟨q * r, hq.mul hr⟩
  one_mem' := ⟨1, evalsTo_one v⟩
  add_mem' := fun ⟨q, hq⟩ ⟨r, hr⟩ => ⟨q + r, hq.add hr⟩
  zero_mem' := ⟨0, evalsTo_zero v⟩
  neg_mem' := fun ⟨q, hq⟩ => ⟨-q, hq.neg⟩

/-- The value. -/
noncomputable def valueAt (v : Valuation) : regularAt v →+* ℚ where
  toFun k := k.2.choose
  map_one' := (1 : regularAt v).2.choose_spec.unique (evalsTo_one v)
  map_mul' a b := (a * b).2.choose_spec.unique (a.2.choose_spec.mul b.2.choose_spec)
  map_zero' := (0 : regularAt v).2.choose_spec.unique (evalsTo_zero v)
  map_add' a b := (a + b).2.choose_spec.unique (a.2.choose_spec.add b.2.choose_spec)

theorem valueAt_eq {v : Valuation} {k : regularAt v} {q : ℚ} (h : EvalsTo v k q) :
    valueAt v k = q := k.2.choose_spec.unique h

/-! ## Stored functions -/

namespace Monomial

theorem evalMv_of_evalFactors {v : Valuation} {l : List Factor} {a : ℚ}
    (h : evalFactors v l = .ok a) : evalMv v (MvPolynomial.monomial (exponentsOf l) 1) = a := by
  induction l generalizing a with
  | nil =>
    cases h
    simp
  | cons f l ih =>
    obtain ⟨x, k⟩ := f
    simp only [evalFactors] at h
    split at h
    · cases h
    · rename_i b hb
      split at h
      · cases h
      · rename_i c hc
        cases h
        rw [exponentsOf_cons, ← mul_one (1 : ℚ), ← MvPolynomial.monomial_mul, map_mul, ih hc,
          ← MvPolynomial.X_pow_eq_monomial, map_pow]
        simp [evalMv, hb]

end Monomial

namespace Polynomial

theorem evalMv_of_evalTerms {v : Valuation} {l : List Term} {a : ℚ}
    (h : evalTerms v l = .ok a) : evalMv v (mvOf l) = a := by
  induction l generalizing a with
  | nil =>
    cases h
    simp
  | cons t l ih =>
    obtain ⟨m, c⟩ := t
    simp only [evalTerms] at h
    split at h
    · cases h
    · rename_i b hb
      split at h
      · cases h
      · rename_i d hd
        cases h
        rw [mvOf_cons, map_add, ih hd, ← mul_one c, ← MvPolynomial.C_mul_monomial, map_mul]
        have hm : evalMv v (MvPolynomial.monomial m.exponents 1) = b :=
          Monomial.evalMv_of_evalFactors hb
        rw [hm]
        simp [evalMv]

theorem evalMv_of_evalAt {v : Valuation} {p : Polynomial} {a : ℚ} (h : p.evalAt v = .ok a) :
    evalMv v p.toMv = a := evalMv_of_evalTerms h

end Polynomial

namespace RationalFunction

/-- A stored function that evaluates without error has that value in the field. -/
theorem evalsTo_of_evalAt {v : Valuation} {f : RationalFunction} {q : ℚ} (h : f.evalAt v = .ok q) :
    EvalsTo v f.toFrac q := by
  unfold evalAt at h
  split at h
  · cases h
  · rename_i d hd
    split at h
    · cases h
    · rename_i hd0
      split at h
      · cases h
      · rename_i n hn
        cases h
        rw [← Polynomial.evalMv_of_evalAt hd] at hd0 ⊢
        rw [← Polynomial.evalMv_of_evalAt hn]
        exact ⟨_, _, hd0, rfl, rfl⟩

/-! ## Constants -/

/-- A constant of the field. -/
noncomputable abbrev ofQ : ℚ →+* Frac := toField.comp MvPolynomial.C

theorem ofQ_injective : Function.Injective ofQ := ofQ.injective

theorem const?_eq_some {f : RationalFunction} (hf : f.IsCanonical) {c : ℚ} :
    f.const? = some c ↔ f.toFrac = ofQ c := by
  constructor
  · intro h
    unfold const? at h
    split at h
    · rename_i h1
      rw [Polynomial.isOne_iff hf.2.1] at h1
      rw [Polynomial.const?_eq_some hf.1] at h
      rw [toFrac, h1, map_one, div_one, h]
      rfl
    · cases h
  · intro h
    have : f = const c := toFrac_inj hf (denotes_const c).1 (h.trans (denotes_const c).2.symm)
    subst this
    have h1 : (const c).denominator.isOne = true := rfl
    rw [const?, if_pos h1]
    exact (Polynomial.const?_eq_some (Polynomial.isReduced_const c)).2 (Polynomial.toMv_const c)

theorem evalAt_const (v : Valuation) (q : ℚ) : (const q).evalAt v = .ok q := by
  by_cases hq : q = 0
  · subst hq
    simp [evalAt, const, ofPolynomial, Polynomial.const, Polynomial.term, Polynomial.one,
      Polynomial.zero, Polynomial.evalAt, Polynomial.evalTerms, Monomial.evalAt, Monomial.one,
      Monomial.evalFactors]
  · simp [evalAt, const, ofPolynomial, Polynomial.const, Polynomial.term, Polynomial.one,
      Polynomial.evalAt, Polynomial.evalTerms, Monomial.evalAt, Monomial.one,
      Monomial.evalFactors, hq]

theorem evalAt_param {v : Valuation} {x : Parameter} {q : ℚ} (hx : v x = some q) :
    (param x).evalAt v = .ok q := by
  simp [evalAt, param, ofPolynomial, Polynomial.param, Polynomial.term,
    Polynomial.one, Polynomial.const, Polynomial.evalAt, Polynomial.evalTerms, Monomial.evalAt,
    Monomial.power, Monomial.one, Monomial.evalFactors, hx]

theorem evalsTo_ofQ (v : Valuation) (c : ℚ) : EvalsTo v (ofQ c) c := by
  have := evalsTo_toField v (MvPolynomial.C c)
  rwa [evalMv, MvPolynomial.eval_C] at this

end RationalFunction
end MarkovCheck

import Mathlib
import MarkovCheck.Algebra.RationalFunction
import MarkovCheck.Proofs.Algebra.Gcd

/-!
# MarkovCheck.Proofs.Algebra.RationalFunction

Rational functions as elements of the field of fractions.

`RationalFunction.toFrac` reads a stored function as the quotient of its numerator by its
denominator. On canonical functions it is injective, and every operation gives a canonical function
that denotes the result in the field. So equations in the field are equations between stored values.

* `toFrac_inj`   — canonical functions that denote the same element are equal.
* `ofFraction_spec` — the canonical form of a fraction.
* `add_spec`, `neg_spec`, `sub_spec`, `mul_spec`, `div?_spec` — the arithmetic.
-/

namespace MarkovCheck

/-- The field in which rational functions are understood. -/
abbrev Frac := FractionRing Mv

/-- A polynomial as an element of the field. -/
noncomputable abbrev toField : Mv →+* Frac := algebraMap Mv Frac

theorem toField_ne_zero {f : Mv} (h : f ≠ 0) : toField f ≠ 0 := by
  rwa [Ne, FaithfulSMul.algebraMap_eq_zero_iff]

theorem toField_injective : Function.Injective toField := FaithfulSMul.algebraMap_injective _ _

namespace RationalFunction

/-- The element of the field that a stored function denotes. -/
noncomputable def toFrac (f : RationalFunction) : Frac :=
  toField f.numerator.toMv / toField f.denominator.toMv

/-! ## Canonical form -/

theorem toMv_ne_zero_of_leadingCoeff {p : Polynomial} (h : p.leadingCoeff = 1) (hp : p.IsReduced) :
    p.toMv ≠ 0 := by
  intro h0
  rw [Polynomial.toMv_inj hp Polynomial.isReduced_zero h0] at h
  exact zero_ne_one h

theorem gcd_eq_one_iff {n d : Polynomial} (hn : n.IsReduced) (hd : d.IsReduced)
    (h0 : d.toMv ≠ 0) : Polynomial.gcd n d = .one ↔ IsRelPrime n.toMv d.toMv := by
  obtain ⟨hr, hg, h1⟩ := Polynomial.gcd_spec hn hd
  constructor
  · intro h e hen hed
    have := (hg e).2 ⟨hen, hed⟩
    rw [h, Polynomial.toMv_one] at this
    exact isUnit_of_dvd_one this
  · intro h
    obtain ⟨g1, g2⟩ := (hg _).1 dvd_rfl
    refine Polynomial.eq_of_associated hr Polynomial.isReduced_one (h1 (.inr h0)) Polynomial.leadingCoeff_one ?_
    rw [Polynomial.toMv_one, associated_one_iff_isUnit]
    exact h g1 g2

/-- The conditions of the canonical form, with coprimality in the ring. -/
theorem isCanonical_iff {f : RationalFunction} : f.IsCanonical ↔
    f.numerator.IsReduced ∧ f.denominator.IsReduced ∧ f.denominator.leadingCoeff = 1 ∧
      IsRelPrime f.numerator.toMv f.denominator.toMv := by
  unfold IsCanonical
  constructor
  · rintro ⟨h1, h2, h3, h4⟩
    exact ⟨h1, h2, h3, (gcd_eq_one_iff h1 h2 (toMv_ne_zero_of_leadingCoeff h3 h2)).1 h4⟩
  · rintro ⟨h1, h2, h3, h4⟩
    exact ⟨h1, h2, h3, (gcd_eq_one_iff h1 h2 (toMv_ne_zero_of_leadingCoeff h3 h2)).2 h4⟩

theorem IsCanonical.denominator_ne_zero {f : RationalFunction} (h : f.IsCanonical) :
    f.denominator.toMv ≠ 0 := toMv_ne_zero_of_leadingCoeff h.2.2.1 h.2.1

theorem IsCanonical.isRelPrime {f : RationalFunction} (h : f.IsCanonical) :
    IsRelPrime f.numerator.toMv f.denominator.toMv := (isCanonical_iff.1 h).2.2.2

/-- Canonical functions that denote the same element are equal. -/
theorem toFrac_inj {f g : RationalFunction} (hf : f.IsCanonical) (hg : g.IsCanonical)
    (h : f.toFrac = g.toFrac) : f = g := by
  have hcross : f.numerator.toMv * g.denominator.toMv = g.numerator.toMv * f.denominator.toMv := by
    apply toField_injective
    unfold toFrac at h
    rw [div_eq_div_iff (toField_ne_zero hf.denominator_ne_zero)
      (toField_ne_zero hg.denominator_ne_zero)] at h
    rwa [map_mul, map_mul]
  have h1 : f.denominator.toMv ∣ g.denominator.toMv :=
    hf.isRelPrime.symm.dvd_of_dvd_mul_left ⟨g.numerator.toMv, by rw [hcross, mul_comm]⟩
  have h2 : g.denominator.toMv ∣ f.denominator.toMv :=
    hg.isRelPrime.symm.dvd_of_dvd_mul_left ⟨f.numerator.toMv, by rw [← hcross, mul_comm]⟩
  have hd : f.denominator = g.denominator :=
    Polynomial.eq_of_associated hf.2.1 hg.2.1 hf.2.2.1 hg.2.2.1 (associated_of_dvd_dvd h1 h2)
  have hn : f.numerator = g.numerator := by
    refine Polynomial.toMv_inj hf.1 hg.1 (mul_right_cancel₀ hf.denominator_ne_zero ?_)
    rw [← hcross, hd]
  cases f
  cases g
  simp_all

/-- A function is canonical and denotes a given element. -/
def Denotes (f : RationalFunction) (k : Frac) : Prop := f.IsCanonical ∧ f.toFrac = k

theorem Denotes.eq {f g : RationalFunction} {k : Frac} (hf : f.Denotes k) (hg : g.Denotes k) :
    f = g := toFrac_inj hf.1 hg.1 (hf.2.trans hg.2.symm)

theorem IsCanonical.denotes {f : RationalFunction} (h : f.IsCanonical) : f.Denotes f.toFrac :=
  ⟨h, rfl⟩

/-! ## Polynomials -/

theorem denotes_ofPolynomial {p : Polynomial} (hp : p.IsReduced) :
    (ofPolynomial p).Denotes (toField p.toMv) := by
  refine ⟨isCanonical_iff.2 ⟨hp, Polynomial.isReduced_one, Polynomial.leadingCoeff_one, ?_⟩, ?_⟩
  · rw [ofPolynomial, Polynomial.toMv_one]
    exact isRelPrime_one_right
  · rw [toFrac, ofPolynomial, Polynomial.toMv_one, map_one, div_one]

theorem denotes_zero : zero.Denotes 0 := by
  have := denotes_ofPolynomial Polynomial.isReduced_zero
  rwa [Polynomial.toMv_zero, map_zero] at this

theorem denotes_one : one.Denotes 1 := by
  have := denotes_ofPolynomial Polynomial.isReduced_one
  rwa [Polynomial.toMv_one, map_one] at this

theorem denotes_const (c : ℚ) : (const c).Denotes (toField (MvPolynomial.C c)) := by
  have := denotes_ofPolynomial (Polynomial.isReduced_const c)
  rwa [Polynomial.toMv_const] at this

theorem denotes_param (x : Parameter) : (param x).Denotes (toField (MvPolynomial.X x)) := by
  have := denotes_ofPolynomial (Polynomial.isReduced_param x)
  rwa [Polynomial.toMv_param] at this

theorem isZero_iff {f : RationalFunction} (hf : f.IsCanonical) : f.isZero = true ↔ f.toFrac = 0 := by
  rw [isZero, Polynomial.isZero_iff hf.1, toFrac, div_eq_zero_iff,
    or_iff_left (toField_ne_zero hf.denominator_ne_zero)]
  exact (map_eq_zero_iff toField toField_injective).symm

theorem isZero_eq_false_iff {f : RationalFunction} (hf : f.IsCanonical) :
    f.isZero = false ↔ f.toFrac ≠ 0 := by
  rw [ne_eq, ← isZero_iff hf, Bool.not_eq_true]

theorem isZero_const_iff {c : ℚ} : (const c).isZero = true ↔ c = 0 := by
  rw [isZero_iff (denotes_const c).1, (denotes_const c).2,
    map_eq_zero_iff toField toField_injective, MvPolynomial.C_eq_zero]

theorem isZero_const_eq_false {c : ℚ} (h : c ≠ 0) : (const c).isZero = false :=
  Bool.eq_false_iff.2 (mt isZero_const_iff.1 h)

/-! ## Coprime fractions -/

theorem ofCoprime_spec {n d : Polynomial} (hn : n.IsReduced) (hd : d.IsReduced)
    (h0 : d.toMv ≠ 0) (h : IsRelPrime n.toMv d.toMv) :
    (ofCoprime n d).Denotes (toField n.toMv / toField d.toMv) := by
  have hlead := Polynomial.leadingCoeff_ne_zero_of_toMv hd h0
  unfold ofCoprime
  split
  · rename_i hz
    rw [Polynomial.isZero_iff hn] at hz
    rw [hz, map_zero, zero_div]
    exact denotes_zero
  · split
    · rename_i h1
      exact ⟨isCanonical_iff.2 ⟨hn, hd, h1, h⟩, rfl⟩
    · have hu := Polynomial.isUnit_C (inv_ne_zero hlead)
      refine ⟨isCanonical_iff.2 ⟨Polynomial.isReduced_scale hn _, Polynomial.isReduced_scale hd _, ?_, ?_⟩, ?_⟩
      · rw [Polynomial.leadingCoeff_scale, mul_inv_cancel₀ hlead]
      · rw [Polynomial.toMv_scale, Polynomial.toMv_scale]
        exact (isRelPrime_mul_unit_left_left hu).2 ((isRelPrime_mul_unit_left_right hu).2 h)
      · rw [toFrac, Polynomial.toMv_scale, Polynomial.toMv_scale, map_mul, map_mul,
          mul_div_mul_left _ _ (toField_ne_zero hu.ne_zero)]

/-- Cancelling a divisor gives the other factor. -/
theorem cancel_spec {p g : Polynomial} (hp : p.IsReduced) (hg : g.IsReduced) (h0 : g.toMv ≠ 0)
    (hd : g.toMv ∣ p.toMv) :
    (cancel p g).IsReduced ∧ p.toMv = (cancel p g).toMv * g.toMv := by
  unfold cancel
  split
  · rename_i hz
    rw [Polynomial.isZero_iff hp] at hz
    exact ⟨Polynomial.isReduced_zero, by rw [hz, Polynomial.toMv_zero, zero_mul]⟩
  · obtain ⟨hs, hc⟩ := Polynomial.div?_divides hp hg h0
    obtain ⟨q, hq⟩ := hc hd
    rw [hq, Option.getD_some]
    exact hs q hq

/-- The cofactors of a gcd are coprime. -/
theorem isRelPrime_cofactors {g l r a b : Mv} (h : IsGcd g l r) (h0 : g ≠ 0) (hl : l = a * g)
    (hr : r = b * g) : IsRelPrime a b := by
  intro e hea heb
  have hdvd : e * g ∣ g := (h _).2
    ⟨hl ▸ mul_dvd_mul_right hea g, hr ▸ mul_dvd_mul_right heb g⟩
  obtain ⟨k, hk⟩ := hdvd
  refine IsUnit.of_mul_eq_one k (mul_right_cancel₀ h0 ?_)
  linear_combination -hk

/-- The canonical form of a fraction denotes the fraction. -/
theorem ofFraction_spec {n d : Polynomial} (hn : n.IsReduced) (hd : d.IsReduced)
    (h0 : d.toMv ≠ 0) : (ofFraction n d).Denotes (toField n.toMv / toField d.toMv) := by
  obtain ⟨hr, hg, -⟩ := Polynomial.gcd_spec hn hd
  have hg0 := hg.ne_zero (.inr h0)
  obtain ⟨g1, g2⟩ := (hg _).1 dvd_rfl
  obtain ⟨hnr, hne⟩ := cancel_spec hn hr hg0 g1
  obtain ⟨hdr, hde⟩ := cancel_spec hd hr hg0 g2
  have hd0 : (cancel d (Polynomial.gcd n d)).toMv ≠ 0 := left_ne_zero_of_mul (hde ▸ h0)
  obtain ⟨hc, he⟩ := ofCoprime_spec hnr hdr hd0 (isRelPrime_cofactors hg hg0 hne hde)
  refine ⟨hc, ?_⟩
  have hn' : toField n.toMv = _ := congrArg toField hne
  have hd' : toField d.toMv = _ := congrArg toField hde
  rw [ofFraction, he, hn', hd', map_mul, map_mul, mul_div_mul_right _ _ (toField_ne_zero hg0)]

/-! ## Arithmetic -/

variable {f g : RationalFunction} {a b : Frac}

theorem neg_spec (hf : f.Denotes a) : f.neg.Denotes (-a) := by
  refine ⟨isCanonical_iff.2 ⟨Polynomial.isReduced_neg hf.1.1, hf.1.2.1, hf.1.2.2.1, ?_⟩, ?_⟩
  · rw [neg, Polynomial.toMv_neg, IsRelPrime.neg_left_iff]
    exact hf.1.isRelPrime
  · rw [← hf.2, toFrac, neg, Polynomial.toMv_neg, map_neg, neg_div]
    rfl

theorem add_spec (hf : f.Denotes a) (hg : g.Denotes b) : (f.add g).Denotes (a + b) := by
  have hfd := toField_ne_zero hf.1.denominator_ne_zero
  have hgd := toField_ne_zero hg.1.denominator_ne_zero
  rw [← hf.2, ← hg.2]
  unfold add
  split
  · rename_i hden
    split
    · rename_i h1
      rw [Polynomial.isOne_iff hf.1.2.1] at h1
      have := denotes_ofPolynomial (Polynomial.isReduced_add hf.1.1 hg.1.1)
      rw [Polynomial.toMv_add, map_add] at this
      rwa [toFrac, toFrac, ← hden, h1, map_one, div_one, div_one]
    · have := ofFraction_spec (Polynomial.isReduced_add hf.1.1 hg.1.1) hf.1.2.1
        hf.1.denominator_ne_zero
      rw [Polynomial.toMv_add, map_add, add_div] at this
      rw [toFrac, toFrac, ← hden]
      exact this
  · have := ofFraction_spec
      (Polynomial.isReduced_add (Polynomial.isReduced_mul hf.1.1 hg.1.2.1)
        (Polynomial.isReduced_mul hg.1.1 hf.1.2.1))
      (Polynomial.isReduced_mul hf.1.2.1 hg.1.2.1)
      (by
        rw [Polynomial.toMv_mul]
        exact mul_ne_zero hf.1.denominator_ne_zero hg.1.denominator_ne_zero)
    rw [Polynomial.toMv_add, Polynomial.toMv_mul, Polynomial.toMv_mul, Polynomial.toMv_mul, map_add,
      map_mul, map_mul, map_mul] at this
    rw [toFrac, toFrac, div_add_div _ _ hfd hgd, mul_comm (toField f.denominator.toMv)
      (toField g.numerator.toMv)]
    exact this

theorem sub_spec (hf : f.Denotes a) (hg : g.Denotes b) : (f.sub g).Denotes (a - b) := by
  rw [sub_eq_add_neg]
  exact add_spec hf (neg_spec hg)

/-- The product with a coprime fraction, whose denominator need not be monic. -/
theorem mulFraction_spec (hf : f.Denotes a) {n d : Polynomial} (hn : n.IsReduced)
    (hd : d.IsReduced) (h0 : d.toMv ≠ 0) (h : IsRelPrime n.toMv d.toMv) :
    (f.mulFraction n d).Denotes (a * (toField n.toMv / toField d.toMv)) := by
  obtain ⟨hl, hlg, -⟩ := Polynomial.gcd_spec hf.1.1 hd
  obtain ⟨hr, hrg, -⟩ := Polynomial.gcd_spec hn hf.1.2.1
  have hl0 := hlg.ne_zero (.inr h0)
  have hr0 := hrg.ne_zero (.inr hf.1.denominator_ne_zero)
  obtain ⟨l1, l2⟩ := (hlg _).1 dvd_rfl
  obtain ⟨r1, r2⟩ := (hrg _).1 dvd_rfl
  obtain ⟨hfnr, hfne⟩ := cancel_spec hf.1.1 hl hl0 l1
  obtain ⟨hdr, hde⟩ := cancel_spec hd hl hl0 l2
  obtain ⟨hnr, hne⟩ := cancel_spec hn hr hr0 r1
  obtain ⟨hfdr, hfde⟩ := cancel_spec hf.1.2.1 hr hr0 r2
  -- The factors of the numerator are coprime to those of the denominator, pair by pair.
  have c1 : IsRelPrime (cancel f.numerator (Polynomial.gcd f.numerator d)).toMv
      (cancel d (Polynomial.gcd f.numerator d)).toMv := isRelPrime_cofactors hlg hl0 hfne hde
  have c2 : IsRelPrime (cancel n (Polynomial.gcd n f.denominator)).toMv
      (cancel f.denominator (Polynomial.gcd n f.denominator)).toMv :=
    isRelPrime_cofactors hrg hr0 hne hfde
  have c3 : IsRelPrime (cancel f.numerator (Polynomial.gcd f.numerator d)).toMv
      (cancel f.denominator (Polynomial.gcd n f.denominator)).toMv :=
    (hf.1.isRelPrime.of_dvd_left ⟨_, hfne⟩).of_dvd_right ⟨_, hfde⟩
  have c4 : IsRelPrime (cancel n (Polynomial.gcd n f.denominator)).toMv
      (cancel d (Polynomial.gcd f.numerator d)).toMv :=
    (h.of_dvd_left ⟨_, hne⟩).of_dvd_right ⟨_, hde⟩
  have hd0 := left_ne_zero_of_mul (hde ▸ h0)
  have hfd0 := left_ne_zero_of_mul (hfde ▸ hf.1.denominator_ne_zero)
  obtain ⟨hc, he⟩ := ofCoprime_spec (Polynomial.isReduced_mul hfnr hnr)
    (Polynomial.isReduced_mul hfdr hdr)
    (by
      rw [Polynomial.toMv_mul]
      exact mul_ne_zero hfd0 hd0)
    (by
      rw [Polynomial.toMv_mul, Polynomial.toMv_mul]
      exact (c3.mul_right c1).mul_left (c2.mul_right c4))
  refine ⟨hc, ?_⟩
  have e1 := congrArg toField hfne
  have e2 := congrArg toField hfde
  have e3 := congrArg toField hne
  have e4 := congrArg toField hde
  rw [map_mul] at e1 e2 e3 e4
  have hl0' := toField_ne_zero hl0
  have hr0' := toField_ne_zero hr0
  rw [mulFraction, he, ← hf.2, toFrac, e1, e2, e3, e4, Polynomial.toMv_mul, Polynomial.toMv_mul,
    map_mul, map_mul]
  have hd0' := toField_ne_zero hd0
  have hfd0' := toField_ne_zero hfd0
  field_simp

theorem mul_spec (hf : f.Denotes a) (hg : g.Denotes b) : (f.mul g).Denotes (a * b) := by
  rw [← hg.2]
  exact mulFraction_spec hf hg.1.1 hg.1.2.1 hg.1.denominator_ne_zero hg.1.isRelPrime

/-- Division by a function other than zero is defined and gives the quotient. -/
theorem div?_spec (hf : f.Denotes a) (hg : g.Denotes b) (h0 : b ≠ 0) :
    ∃ h, f.div? g = .ok h ∧ h.Denotes (a / b) := by
  have hz : g.isZero = false := (isZero_eq_false_iff hg.1).2 (hg.2 ▸ h0)
  have hn0 : g.numerator.toMv ≠ 0 := (Polynomial.isZero_eq_false_iff hg.1.1).1 hz
  refine ⟨f.mulFraction g.denominator g.numerator, by simp [div?, hz], ?_⟩
  have := mulFraction_spec hf hg.1.2.1 hg.1.1 hn0 hg.1.isRelPrime.symm
  rwa [← hg.2, toFrac, div_eq_mul_inv, inv_div]

end RationalFunction
end MarkovCheck

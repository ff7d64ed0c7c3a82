import Mathlib
import MarkovCheck.Algebra.Polynomial.Univariate
import MarkovCheck.Proofs.Algebra.Polynomial

/-!
# MarkovCheck.Proofs.Algebra.Univariate

A polynomial as a univariate polynomial in one of its parameters.

`inParam x` sends the ring of polynomials into the univariate polynomials over it: `x` becomes the
indeterminate, every other parameter a constant. It is injective, its coefficients are free of `x`,
and substituting `x` again gives the polynomial back.

* `FreeOf`               — polynomials in which a parameter does not occur.
* `dvd_iff_dvd_coeff`    — a polynomial without `x` divides another one exactly when it divides its
  coefficients.
* `coefficientsIn_list`  — the terms that are put under every exponent.
* `toMv_coefficientsIn`, `degreeIn_eq`, `toMv_leadingCoeffIn` — the stored univariate view.
-/

open scoped Polynomial

namespace MarkovCheck

/-! ## The view -/

/-- The parameter `x` as the indeterminate, all others as constants. -/
noncomputable def inParam (x : Parameter) : Mv →ₐ[ℚ] Mv[X] :=
  MvPolynomial.aeval fun y => if y = x then Polynomial.X else Polynomial.C (MvPolynomial.X y)

/-- A parameter does not occur. -/
def FreeOf (x : Parameter) (f : Mv) : Prop := inParam x f = Polynomial.C f

theorem inParam_X_self (x : Parameter) : inParam x (MvPolynomial.X x) = Polynomial.X := by
  simp [inParam]

theorem inParam_X_ne {x y : Parameter} (h : y ≠ x) :
    inParam x (MvPolynomial.X y) = Polynomial.C (MvPolynomial.X y) := by
  simp [inParam, h]

theorem inParam_C (x : Parameter) (c : ℚ) :
    inParam x (MvPolynomial.C c) = Polynomial.C (MvPolynomial.C c) := by
  simp only [inParam, MvPolynomial.aeval_C]
  rfl

/-- Substituting the parameter for the indeterminate gives the polynomial back. -/
theorem eval_inParam (x : Parameter) (f : Mv) : (inParam x f).eval (MvPolynomial.X x) = f := by
  induction f using MvPolynomial.induction_on with
  | C c => rw [inParam_C, Polynomial.eval_C]
  | add p q hp hq => rw [map_add, Polynomial.eval_add, hp, hq]
  | mul_X p y hp =>
    rw [map_mul, Polynomial.eval_mul, hp]
    by_cases h : y = x
    · subst h
      rw [inParam_X_self, Polynomial.eval_X]
    · rw [inParam_X_ne h, Polynomial.eval_C]

theorem inParam_injective (x : Parameter) : Function.Injective (inParam x) := by
  intro f g h
  rw [← eval_inParam x f, h, eval_inParam]

theorem inParam_ne_zero {x : Parameter} {f : Mv} (h : f ≠ 0) : inParam x f ≠ 0 := fun h0 =>
  h (inParam_injective x (h0.trans (map_zero _).symm))

/-- One term: its power of `x` and the rest of it. -/
theorem inParam_monomial (x : Parameter) (e : Parameter →₀ ℕ) (c : ℚ) :
    inParam x (MvPolynomial.monomial e c) =
      Polynomial.C (MvPolynomial.monomial (e.erase x) c) * Polynomial.X ^ e x := by
  have hpow : ∀ (s : Parameter →₀ ℕ), s x = 0 → inParam x (MvPolynomial.monomial s c) =
      Polynomial.C (MvPolynomial.monomial s c) := by
    intro s hs
    rw [MvPolynomial.monomial_eq, map_mul, inParam_C, Finsupp.prod, map_prod, map_mul, map_prod]
    congr 1
    refine Finset.prod_congr rfl fun y hy => ?_
    have hyx : y ≠ x := fun h => Finsupp.mem_support_iff.1 hy (h ▸ hs)
    rw [map_pow, map_pow, inParam_X_ne hyx]
  have hsplit : (MvPolynomial.monomial e c : Mv) =
      MvPolynomial.monomial (e.erase x) c * MvPolynomial.X x ^ e x := by
    rw [MvPolynomial.X_pow_eq_monomial, MvPolynomial.monomial_mul, mul_one,
      add_comm, Finsupp.single_add_erase]
  rw [hsplit, map_mul, hpow _ (by simp), map_pow, inParam_X_self]

/-! ## Polynomials without the parameter -/

theorem FreeOf.natDegree {x : Parameter} {f : Mv} (h : FreeOf x f) : (inParam x f).natDegree = 0 := by
  rw [h, Polynomial.natDegree_C]

theorem freeOf_iff {x : Parameter} {f : Mv} : FreeOf x f ↔ (inParam x f).natDegree = 0 := by
  refine ⟨FreeOf.natDegree, fun h => ?_⟩
  obtain ⟨c, hc⟩ := Polynomial.natDegree_eq_zero.1 h
  have : c = f := by rw [← eval_inParam x f, ← hc, Polynomial.eval_C]
  rw [FreeOf, ← hc, this]

theorem freeOf_C (x : Parameter) (c : ℚ) : FreeOf x (MvPolynomial.C c) := inParam_C x c

theorem freeOf_zero (x : Parameter) : FreeOf x 0 := by simp [FreeOf]

theorem freeOf_one (x : Parameter) : FreeOf x 1 := by simp [FreeOf]

theorem FreeOf.add {x : Parameter} {f g : Mv} (hf : FreeOf x f) (hg : FreeOf x g) :
    FreeOf x (f + g) := by
  rw [FreeOf, map_add, hf, hg, map_add]

theorem FreeOf.mul {x : Parameter} {f g : Mv} (hf : FreeOf x f) (hg : FreeOf x g) :
    FreeOf x (f * g) := by
  rw [FreeOf, map_mul, hf, hg, map_mul]

theorem FreeOf.sub {x : Parameter} {f g : Mv} (hf : FreeOf x f) (hg : FreeOf x g) :
    FreeOf x (f - g) := by
  rw [FreeOf, map_sub, hf, hg, map_sub]

theorem FreeOf.pow {x : Parameter} {f : Mv} (hf : FreeOf x f) (k : ℕ) : FreeOf x (f ^ k) := by
  rw [FreeOf, map_pow, hf, map_pow]

theorem freeOf_monomial {x : Parameter} {e : Parameter →₀ ℕ} (h : e x = 0) (c : ℚ) :
    FreeOf x (MvPolynomial.monomial e c) := by
  rw [FreeOf, inParam_monomial, h, pow_zero, mul_one, Finsupp.erase_of_notMem_support]
  simpa using h

/-- The divisors of a polynomial without `x` are without `x`. -/
theorem FreeOf.of_dvd {x : Parameter} {f g : Mv} (hf : FreeOf x f) (h0 : f ≠ 0) (h : g ∣ f) :
    FreeOf x g := by
  obtain ⟨k, rfl⟩ := h
  have hd := hf.natDegree
  rw [map_mul, Polynomial.natDegree_mul (inParam_ne_zero (left_ne_zero_of_mul h0))
    (inParam_ne_zero (right_ne_zero_of_mul h0))] at hd
  exact freeOf_iff.2 (by omega)

/-- All coefficients of the view are without the parameter. -/
theorem freeOf_coeff (x : Parameter) (f : Mv) (k : ℕ) : FreeOf x ((inParam x f).coeff k) := by
  induction f using MvPolynomial.induction_on' with
  | monomial e c =>
    rw [inParam_monomial, Polynomial.coeff_C_mul_X_pow]
    split
    · exact freeOf_monomial (by simp) c
    · exact freeOf_zero x
  | add p q hp hq =>
    rw [map_add, Polynomial.coeff_add]
    exact hp.add hq

theorem freeOf_leadingCoeff (x : Parameter) (f : Mv) : FreeOf x (inParam x f).leadingCoeff :=
  freeOf_coeff x f _

/-- Division by a polynomial without `x` is division of all coefficients. -/
theorem dvd_iff_dvd_coeff {x : Parameter} {c f : Mv} (hc : FreeOf x c) :
    c ∣ f ↔ ∀ k, c ∣ (inParam x f).coeff k := by
  constructor
  · rintro ⟨g, rfl⟩ k
    rw [map_mul, hc, Polynomial.coeff_C_mul]
    exact dvd_mul_right _ _
  · intro h
    obtain ⟨g, hg⟩ := (Polynomial.C_dvd_iff_dvd_coeff c (inParam x f)).2 h
    refine ⟨g.eval (MvPolynomial.X x), ?_⟩
    rw [← eval_inParam x f, hg, Polynomial.eval_mul, Polynomial.eval_C]

namespace Polynomial

/-! ## The stored coefficients -/

/-- The terms of the coefficient of an exponent in a list of coefficients. -/
def termsAt (cs : List (ℕ × Polynomial)) (k : ℕ) : List Term := (cs.lookup k).elim [] (·.terms)

/-- Exponents ascend, and no coefficient is zero. -/
def CoefficientList (cs : List (ℕ × Polynomial)) : Prop :=
  cs.Pairwise (·.1 < ·.1) ∧ ∀ c ∈ cs, c.2.terms ≠ []

theorem termsAt_cons (c : ℕ × Polynomial) (cs : List (ℕ × Polynomial)) (k : ℕ) :
    termsAt (c :: cs) k = if k = c.1 then c.2.terms else termsAt cs k := by
  obtain ⟨j, a⟩ := c
  by_cases h : k = j
  · simp [termsAt, h]
  · have hbeq : (k == j) = false := by simpa using h
    simp only [termsAt, List.lookup_cons, hbeq, if_neg h]

/-- Under an exponent that is not listed there are no terms. -/
theorem termsAt_eq_nil {cs : List (ℕ × Polynomial)} {k : ℕ} (h : ∀ c ∈ cs, c.1 ≠ k) :
    termsAt cs k = [] := by
  induction cs with
  | nil => rfl
  | cons c cs ih =>
    rw [List.forall_mem_cons] at h
    rw [termsAt_cons, if_neg (Ne.symm h.1), ih h.2]

theorem putTerm_ne_nil (t : Term) (l : List Term) : putTerm t l ≠ [] := by
  cases l with
  | nil => exact List.cons_ne_nil _ _
  | cons s l =>
    rw [putTerm]
    split <;> exact List.cons_ne_nil _ _

/-- A term above all others is put last. -/
theorem putTerm_eq_concat {t : Term} {l : List Term} (h : ∀ s ∈ l, t.1.cmp s.1 = .gt) :
    putTerm t l = l ++ [t] := by
  induction l with
  | nil => rfl
  | cons s l ih =>
    rw [List.forall_mem_cons] at h
    rw [putTerm, h.1, ih h.2, List.cons_append]

/-- Only the coefficient of the exponent of a term changes. -/
theorem termsAt_putCoefficient {k : ℕ} {t : Term} {cs : List (ℕ × Polynomial)}
    (h : cs.Pairwise (·.1 < ·.1)) (j : ℕ) :
    termsAt (putCoefficient k t cs) j = if j = k then putTerm t (termsAt cs k) else termsAt cs j := by
  induction cs with
  | nil => exact termsAt_cons _ [] j
  | cons c cs ih =>
    obtain ⟨i, p⟩ := c
    rw [List.pairwise_cons] at h
    rw [putCoefficient]
    split
    · rename_i hki
      have hnil : termsAt ((i, p) :: cs) k = [] :=
        termsAt_eq_nil (List.forall_mem_cons.2 ⟨hki.ne', fun d hd => (hki.trans (h.1 d hd)).ne'⟩)
      rw [termsAt_cons, hnil]
      rfl
    · split
      · rename_i _ hki
        subst hki
        simp only [termsAt_cons]
        split <;> rfl
      · rename_i _ hki
        simp only [termsAt_cons, ih h.2, if_neg hki]
        split
        · rename_i hji
          rw [if_neg (hji ▸ Ne.symm hki)]
        · rfl

theorem coefficientList_putCoefficient {k : ℕ} {t : Term} {cs : List (ℕ × Polynomial)}
    (h : CoefficientList cs) :
    CoefficientList (putCoefficient k t cs) ∧
      ∀ c ∈ putCoefficient k t cs, c.1 = k ∨ ∃ d ∈ cs, d.1 = c.1 := by
  induction cs with
  | nil => simp [putCoefficient, CoefficientList]
  | cons c cs ih =>
    obtain ⟨i, p⟩ := c
    obtain ⟨hp, hn⟩ := h
    rw [List.pairwise_cons] at hp
    rw [List.forall_mem_cons] at hn
    obtain ⟨⟨ihp, ihn⟩, ihm⟩ := ih ⟨hp.2, hn.2⟩
    simp only [putCoefficient]
    split
    · rename_i hki
      refine ⟨⟨List.pairwise_cons.2 ⟨fun d hd => ?_, List.pairwise_cons.2 hp⟩, ?_⟩, ?_⟩
      · rcases List.mem_cons.1 hd with rfl | hd
        · exact hki
        · exact hki.trans (hp.1 d hd)
      · exact List.forall_mem_cons.2 ⟨by simp, List.forall_mem_cons.2 hn⟩
      · exact List.forall_mem_cons.2 ⟨.inl rfl, fun d hd => .inr ⟨d, hd, rfl⟩⟩
    · split
      · refine ⟨⟨List.pairwise_cons.2 hp, List.forall_mem_cons.2 ⟨putTerm_ne_nil t p.terms, hn.2⟩⟩, ?_⟩
        exact List.forall_mem_cons.2 ⟨.inr ⟨_, List.mem_cons_self, rfl⟩,
          fun d hd => .inr ⟨d, List.mem_cons_of_mem _ hd, rfl⟩⟩
      · rename_i h1 h2
        refine ⟨⟨List.pairwise_cons.2 ⟨fun d hd => ?_, ihp⟩, List.forall_mem_cons.2 ⟨hn.1, ihn⟩⟩, ?_⟩
        · rcases ihm d hd with e | ⟨d', hd', e⟩
          · omega
          · exact e ▸ hp.1 d' hd'
        · refine List.forall_mem_cons.2 ⟨.inr ⟨_, List.mem_cons_self, rfl⟩, fun d hd => ?_⟩
          rcases ihm d hd with e | ⟨d', hd', e⟩
          · exact .inl e
          · exact .inr ⟨d', List.mem_cons_of_mem _ hd', e⟩

/-- The terms with a given exponent of `x`, without `x`. -/
def termsOfExponent (x : Parameter) (k : ℕ) (l : List Term) : List Term :=
  (l.filter fun t => t.1.exponent x = k).map fun t => (t.1.without x, t.2)

theorem termsOfExponent_concat (x : Parameter) (k : ℕ) (l : List Term) (t : Term) :
    termsOfExponent x k (l ++ [t]) =
      if k = t.1.exponent x then termsOfExponent x k l ++ [(t.1.without x, t.2)]
      else termsOfExponent x k l := by
  by_cases h : k = t.1.exponent x
  · simp [termsOfExponent, List.filter_append, h]
  · simp [termsOfExponent, List.filter_append, h, Ne.symm h]

/-- Terms with the same exponent of `x` stay in order when `x` is removed. -/
theorem without_lt {x : Parameter} {m n : Monomial} (hm : m.IsReduced) (hn : n.IsReduced)
    (he : m.exponent x = n.exponent x) (h : m.cmp n = .lt) :
    (m.without x).cmp (n.without x) = .lt := by
  rw [Monomial.cmp_eq_lt hm hn] at h
  rw [Monomial.cmp_eq_lt (Monomial.isReduced_without hm x) (Monomial.isReduced_without hn x),
    Monomial.exponents_without, Monomial.exponents_without]
  rw [← Monomial.exponents_apply hm, ← Monomial.exponents_apply hn] at he
  have hm' := Finsupp.single_add_erase x m.exponents
  have hn' := Finsupp.single_add_erase x n.exponents
  rw [← hm', ← hn', he, toLex_add, toLex_add] at h
  exact lt_of_add_lt_add_left h

/-- What is left of a term above all others is put last in its coefficient, so that no other term gives
way to it. -/
theorem putTerm_termsOfExponent {x : Parameter} {l : List Term} {t : Term} (h : Ascending (l ++ [t])) :
    putTerm (t.1.without x, t.2) (termsOfExponent x (t.1.exponent x) l) =
      termsOfExponent x (t.1.exponent x) l ++ [(t.1.without x, t.2)] := by
  refine putTerm_eq_concat fun s' hs' => ?_
  obtain ⟨s, hs, rfl⟩ := List.mem_map.1 hs'
  rw [List.mem_filter, decide_eq_true_eq] at hs
  have hsr : s.1.IsReduced := (h.2 s (List.mem_append_left _ hs.1)).1
  have htr : t.1.IsReduced := (h.2 t (by simp)).1
  have hlt : s.1.cmp t.1 = .lt := (List.pairwise_append.1 h.1).2.2 s hs.1 t List.mem_cons_self
  rw [Monomial.cmp_eq_gt (Monomial.isReduced_without htr x) (Monomial.isReduced_without hsr x),
    ← Monomial.cmp_eq_lt (Monomial.isReduced_without hsr x) (Monomial.isReduced_without htr x)]
  exact without_lt hsr htr hs.2 hlt

/-- The terms are put in ascending order, so by induction on the terms from the last one. -/
theorem coefficientsIn_list {p : Polynomial} (hp : p.IsReduced) (x : Parameter) :
    CoefficientList (p.coefficientsIn x) ∧
      ∀ k, termsAt (p.coefficientsIn x) k = termsOfExponent x k p.terms := by
  obtain ⟨l⟩ := p
  change Ascending l at hp
  change CoefficientList (l.foldl (splitTerm x) []) ∧
    ∀ k, termsAt (l.foldl (splitTerm x) []) k = termsOfExponent x k l
  induction l using List.reverseRecOn with
  | nil => exact ⟨⟨.nil, by simp⟩, fun k => rfl⟩
  | append_singleton l t ih =>
    have hl : Ascending l := ⟨(List.pairwise_append.1 hp.1).1, fun s hs => hp.2 s (by simp [hs])⟩
    obtain ⟨hlist, hterms⟩ := ih hl
    rw [List.foldl_append, List.foldl_cons, List.foldl_nil]
    refine ⟨(coefficientList_putCoefficient hlist).1, fun k => ?_⟩
    rw [splitTerm, termsAt_putCoefficient hlist.1, hterms, hterms, termsOfExponent_concat]
    split
    · rename_i hk
      rw [hk, putTerm_termsOfExponent hp]
    · rfl

theorem exists_mem_of_termsAt {cs : List (ℕ × Polynomial)} {k : ℕ} (h : termsAt cs k ≠ []) :
    ∃ a, (k, a) ∈ cs ∧ a.terms = termsAt cs k := by
  cases hl : cs.lookup k with
  | none => exact absurd (by rw [termsAt, hl, Option.elim_none]) h
  | some a =>
    obtain ⟨l, r, rfl, -⟩ := List.lookup_eq_some_iff.1 hl
    exact ⟨a, by simp, by rw [termsAt, hl, Option.elim_some]⟩

theorem termsAt_of_mem {cs : List (ℕ × Polynomial)} (h : cs.Pairwise (·.1 < ·.1))
    {c : ℕ × Polynomial} (hc : c ∈ cs) : termsAt cs c.1 = c.2.terms := by
  induction cs with
  | nil => cases hc
  | cons d cs ih =>
    rw [List.pairwise_cons] at h
    rw [termsAt_cons]
    rcases List.mem_cons.1 hc with rfl | hc
    · exact if_pos rfl
    · rw [if_neg (h.1 c hc).ne', ih h.2 hc]

theorem ascending_termsOfExponent {l : List Term} (h : Ascending l) (x : Parameter) (k : ℕ) :
    Ascending (termsOfExponent x k l) := by
  induction l with
  | nil => exact .nil
  | cons t l ih =>
    have h' := ascending_cons.1 h
    by_cases hk : t.1.exponent x = k
    · have hcons : termsOfExponent x k (t :: l) =
          (t.1.without x, t.2) :: termsOfExponent x k l := by
        simp [termsOfExponent, hk]
      rw [hcons]
      refine ascending_cons.2
        ⟨fun s' hs' => ?_, ⟨Monomial.isReduced_without h'.2.1.1 x, h'.2.1.2⟩, ih h'.2.2⟩
      obtain ⟨s, hs, rfl⟩ := List.mem_map.1 hs'
      rw [List.mem_filter, decide_eq_true_eq] at hs
      exact without_lt h'.2.1.1 (h'.2.2.2 s hs.1).1 (hk.trans hs.2.symm) (h'.1 s hs.1)
    · have hcons : termsOfExponent x k (t :: l) = termsOfExponent x k l := by
        simp [termsOfExponent, hk]
      rw [hcons]
      exact ih h'.2.2

theorem mvOf_termsOfExponent {l : List Term} (h : Ascending l) (x : Parameter) (k : ℕ) :
    mvOf (termsOfExponent x k l) = (inParam x (mvOf l)).coeff k := by
  induction l with
  | nil => simp [termsOfExponent]
  | cons t l ih =>
    have h' := ascending_cons.1 h
    rw [mvOf_cons, map_add, Polynomial.coeff_add, ← ih h'.2.2, inParam_monomial,
      Polynomial.coeff_C_mul_X_pow, Monomial.exponents_apply h'.2.1.1,
      ← Monomial.exponents_without]
    by_cases hk : t.1.exponent x = k
    · simp [termsOfExponent, hk]
    · simp [termsOfExponent, hk, Ne.symm hk]

/-- Every listed coefficient is a reduced polynomial, and the coefficient of the view. -/
theorem toMv_coefficientsIn {p : Polynomial} (hp : p.IsReduced) {x : Parameter}
    {c : ℕ × Polynomial} (hc : c ∈ p.coefficientsIn x) :
    c.2.IsReduced ∧ c.2.toMv ≠ 0 ∧ c.2.toMv = (inParam x p.toMv).coeff c.1 := by
  obtain ⟨hl, ht⟩ := coefficientsIn_list hp x
  have hterms : c.2.terms = termsOfExponent x c.1 p.terms := by
    rw [← ht, termsAt_of_mem hl.1 hc]
  have hred : c.2.IsReduced := by
    have := ascending_termsOfExponent hp x c.1
    rwa [← hterms] at this
  refine ⟨hred, fun h0 => hl.2 c hc ?_, ?_⟩
  · rw [toMv_inj hred isReduced_zero h0]
    rfl
  · rw [toMv, hterms, mvOf_termsOfExponent hp]
    rfl

/-- The exponents that are not listed have coefficient zero. -/
theorem exists_mem_coefficientsIn {p : Polynomial} (hp : p.IsReduced) {x : Parameter} {k : ℕ}
    (h : (inParam x p.toMv).coeff k ≠ 0) : ∃ a, (k, a) ∈ p.coefficientsIn x := by
  obtain ⟨-, ht⟩ := coefficientsIn_list hp x
  have hne : termsAt (p.coefficientsIn x) k ≠ [] := by
    intro h0
    rw [ht] at h0
    apply h
    rw [toMv, ← mvOf_termsOfExponent hp, h0, mvOf_nil]
  obtain ⟨a, ha, -⟩ := exists_mem_of_termsAt hne
  exact ⟨a, ha⟩

/-! ## Degree and leading coefficient -/

theorem exponent_le_degreeIn {x : Parameter} {p : Polynomial} {t : Term} (ht : t ∈ p.terms) :
    t.1.exponent x ≤ p.degreeIn x := by
  unfold degreeIn
  revert ht
  induction p.terms with
  | nil => exact fun ht => nomatch ht
  | cons s l ih =>
    intro ht
    rcases List.mem_cons.1 ht with rfl | ht
    · exact le_max_left _ _
    · exact (ih ht).trans (le_max_right _ _)

theorem degreeIn_le {x : Parameter} {p : Polynomial} {d : ℕ}
    (h : ∀ t ∈ p.terms, t.1.exponent x ≤ d) : p.degreeIn x ≤ d := by
  unfold degreeIn
  revert h
  induction p.terms with
  | nil => exact fun _ => Nat.zero_le _
  | cons s l ih =>
    intro h
    rw [List.forall_mem_cons] at h
    exact max_le h.1 (ih h.2)

/-- The stored degree is the degree of the view. -/
theorem degreeIn_eq {p : Polynomial} (hp : p.IsReduced) (x : Parameter) :
    p.degreeIn x = (inParam x p.toMv).natDegree := by
  apply le_antisymm
  · refine degreeIn_le fun t ht => Polynomial.le_natDegree_of_ne_zero ?_
    have ha := ascending_termsOfExponent hp x (t.1.exponent x)
    have hmem : (t.1.without x, t.2) ∈ termsOfExponent x (t.1.exponent x) p.terms :=
      List.mem_map.2 ⟨t, List.mem_filter.2 ⟨ht, by simp⟩, rfl⟩
    rw [toMv, ← mvOf_termsOfExponent hp]
    intro h0
    have hc := coeff_mvOf_of_mem ha hmem
    rw [h0, MvPolynomial.coeff_zero] at hc
    exact (hp.2 t ht).2 hc.symm
  · rw [Polynomial.natDegree_le_iff_coeff_eq_zero]
    intro k hk
    rw [toMv, ← mvOf_termsOfExponent hp]
    have : termsOfExponent x k p.terms = [] := by
      simp only [termsOfExponent, List.map_eq_nil_iff, List.filter_eq_nil_iff, decide_eq_true_eq]
      intro t ht e
      have := exponent_le_degreeIn (x := x) ht
      omega
    rw [this, mvOf_nil]

theorem leadingCoeffIn_spec {p : Polynomial} (hp : p.IsReduced) (x : Parameter) :
    (p.leadingCoeffIn x).IsReduced ∧
      (p.leadingCoeffIn x).toMv = (inParam x p.toMv).leadingCoeff := by
  obtain ⟨hl, -⟩ := coefficientsIn_list hp x
  unfold leadingCoeffIn
  cases h : (p.coefficientsIn x).getLast? with
  | none =>
    refine ⟨isReduced_zero, ?_⟩
    have h0 : inParam x p.toMv = 0 := by
      by_contra hne
      obtain ⟨a, ha⟩ := exists_mem_coefficientsIn hp (Polynomial.leadingCoeff_ne_zero.2 hne)
      rw [List.getLast?_eq_none_iff.1 h] at ha
      cases ha
    rw [h0, Option.elim_none, toMv_zero, Polynomial.leadingCoeff_zero]
  | some c =>
    have hc := List.mem_of_getLast? h
    obtain ⟨hred, hne, heq⟩ := toMv_coefficientsIn hp hc
    refine ⟨hred, ?_⟩
    have hdeg : (inParam x p.toMv).natDegree = c.1 := by
      apply le_antisymm
      · rw [Polynomial.natDegree_le_iff_coeff_eq_zero]
        intro k hk
        by_contra hne
        obtain ⟨a, ha⟩ := exists_mem_coefficientsIn hp hne
        obtain ⟨l, hl'⟩ := List.getLast?_eq_some_iff.1 h
        rw [hl'] at ha
        have hp1 := hl.1
        rw [hl', List.pairwise_append] at hp1
        rcases List.mem_append.1 ha with ha | ha
        · have := hp1.2.2 _ ha c (by simp)
          simp only at this
          omega
        · simp only [List.mem_singleton] at ha
          rw [← ha] at hk
          simp at hk
      · exact Polynomial.le_natDegree_of_ne_zero (heq ▸ hne)
    rw [Option.elim_some, heq, ← hdeg, Polynomial.coeff_natDegree]

theorem isReduced_leadingCoeffIn {p : Polynomial} (hp : p.IsReduced) (x : Parameter) :
    (p.leadingCoeffIn x).IsReduced := (leadingCoeffIn_spec hp x).1

theorem toMv_leadingCoeffIn {p : Polynomial} (hp : p.IsReduced) (x : Parameter) :
    (p.leadingCoeffIn x).toMv = (inParam x p.toMv).leadingCoeff := (leadingCoeffIn_spec hp x).2

end Polynomial
end MarkovCheck

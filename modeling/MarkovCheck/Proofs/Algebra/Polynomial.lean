import Mathlib
import MarkovCheck.Algebra.Polynomial.Basic
import MarkovCheck.Proofs.Algebra.Monomial

/-!
# MarkovCheck.Proofs.Algebra.Polynomial

Polynomials as elements of the polynomial ring.

`Polynomial.toMv` reads the list of terms as a multivariate polynomial over the rationals. On
reduced polynomials it is injective, so an equation between stored polynomials is an equation in the
ring. The operations are homomorphisms for `toMv`, whatever the form of their operands, and keep the
stored form. Sums and products add their terms one by one, which is one lemma (`toMv_addTerms`).

* `toMv_add`, `toMv_neg`, `toMv_sub`, `toMv_scale`, `toMv_mul` — the arithmetic.
* `isReduced_add`, ..., `isReduced_mul` — the results are reduced.
* `toMv_inj`   — reduced polynomials that denote the same element are equal; `exists_toMv` — every element is
  denoted by one.
* `toMv_monic` — `monic` is an associate, with leading coefficient one.
-/

namespace MarkovCheck

/-- The ring in which polynomials are understood. -/
abbrev Mv := MvPolynomial Parameter ℚ

-- A shortcut for instance search.
instance : NoZeroDivisors Mv := inferInstance

namespace Polynomial

open MvPolynomial (monomial C)

/-- The stored form of a list of terms. -/
def Ascending (l : List Term) : Prop :=
  l.Pairwise (fun s t => s.1.cmp t.1 = .lt) ∧ ∀ t ∈ l, t.1.IsReduced ∧ t.2 ≠ 0

/-- The polynomial of a list of terms in any order. -/
noncomputable def mvOf : List Term → Mv
  | [] => 0
  | t :: rest => monomial t.1.exponents t.2 + mvOf rest

/-- The element of the polynomial ring that a polynomial denotes. -/
noncomputable def toMv (p : Polynomial) : Mv := mvOf p.terms

@[simp] theorem mvOf_nil : mvOf [] = 0 := rfl

@[simp] theorem mvOf_cons (t : Term) (l : List Term) :
    mvOf (t :: l) = monomial t.1.exponents t.2 + mvOf l := rfl

theorem Ascending.nil : Ascending [] := ⟨.nil, by simp⟩

theorem ascending_cons {t : Term} {l : List Term} :
    Ascending (t :: l) ↔
      (∀ s ∈ l, t.1.cmp s.1 = .lt) ∧ (t.1.IsReduced ∧ t.2 ≠ 0) ∧ Ascending l := by
  simp only [Ascending, List.pairwise_cons, List.forall_mem_cons]
  tauto

/-! ## Coefficients -/

theorem coeff_mvOf_eq_zero {e : Parameter →₀ ℕ} {l : List Term}
    (h : ∀ t ∈ l, t.1.exponents ≠ e) : (mvOf l).coeff e = 0 := by
  induction l with
  | nil => simp
  | cons t l ih =>
    rw [List.forall_mem_cons] at h
    rw [mvOf_cons, MvPolynomial.coeff_add, MvPolynomial.coeff_monomial, if_neg h.1, ih h.2,
      add_zero]

theorem exists_mem_of_coeff_ne_zero {e : Parameter →₀ ℕ} {l : List Term}
    (h : (mvOf l).coeff e ≠ 0) : ∃ t ∈ l, t.1.exponents = e := by
  by_contra hn
  push Not at hn
  exact h (coeff_mvOf_eq_zero hn)

/-- The later terms of an ascending list have other exponents than the first one. -/
theorem Ascending.head_ne {t : Term} {l : List Term} (h : Ascending (t :: l)) :
    ∀ s ∈ l, s.1.exponents ≠ t.1.exponents := by
  intro s hs he
  rw [ascending_cons] at h
  have hlt := (Monomial.cmp_eq_lt h.2.1.1 (h.2.2.2 s hs).1).1 (h.1 s hs)
  exact hlt.ne' (congrArg toLex he)

theorem coeff_mvOf_of_mem {l : List Term} (h : Ascending l) {t : Term} (ht : t ∈ l) :
    (mvOf l).coeff t.1.exponents = t.2 := by
  induction l with
  | nil => cases ht
  | cons s l ih =>
    rw [mvOf_cons, MvPolynomial.coeff_add, MvPolynomial.coeff_monomial]
    rcases List.mem_cons.1 ht with rfl | ht
    · rw [if_pos rfl, coeff_mvOf_eq_zero h.head_ne, add_zero]
    · rw [if_neg (h.head_ne t ht).symm, ih (ascending_cons.1 h).2.2 ht, zero_add]

/-- The terms of an ascending list are the monomials with a non-zero coefficient. -/
theorem mem_iff_coeff {l : List Term} (h : Ascending l) {t : Term} :
    t ∈ l ↔ t.1.IsReduced ∧ t.2 ≠ 0 ∧ (mvOf l).coeff t.1.exponents = t.2 := by
  constructor
  · exact fun ht => ⟨(h.2 t ht).1, (h.2 t ht).2, coeff_mvOf_of_mem h ht⟩
  · rintro ⟨hr, h0, hc⟩
    obtain ⟨s, hs, he⟩ := exists_mem_of_coeff_ne_zero (hc.trans_ne h0)
    have hst : s.1 = t.1 := Monomial.exponents_inj (h.2 s hs).1 hr he
    have hs2 : s.2 = t.2 := by rw [← coeff_mvOf_of_mem h hs, he, hc]
    exact Prod.ext hst hs2 ▸ hs

theorem Ascending.nodup {l : List Term} (h : Ascending l) : l.Nodup := by
  induction l with
  | nil => exact .nil
  | cons t l ih =>
    exact List.nodup_cons.2 ⟨fun ht => h.head_ne t ht rfl, ih (ascending_cons.1 h).2.2⟩

theorem mvOf_inj {l r : List Term} (hl : Ascending l) (hr : Ascending r)
    (h : mvOf l = mvOf r) : l = r := by
  have hp : l.Perm r := (List.perm_ext_iff_of_nodup hl.nodup hr.nodup).2 fun t => by
    rw [mem_iff_coeff hl, mem_iff_coeff hr, h]
  refine hp.eq_of_pairwise (fun s t hs ht hst hts => ?_) hl.1 hr.1
  have h1 := (Monomial.cmp_eq_lt (hl.2 s hs).1 (hr.2 t ht).1).1 hst
  have h2 := (Monomial.cmp_eq_lt (hr.2 t ht).1 (hl.2 s hs).1).1 hts
  exact absurd h1 h2.asymm

/-- Reduced polynomials that denote the same element are equal. -/
theorem toMv_inj {p q : Polynomial} (hp : p.IsReduced) (hq : q.IsReduced)
    (h : p.toMv = q.toMv) : p = q := by
  cases p
  cases q
  exact congrArg Polynomial.mk (mvOf_inj hp hq h)

/-! ## Addition -/

theorem mvOf_append (l r : List Term) : mvOf (l ++ r) = mvOf l + mvOf r := by
  induction l with
  | nil => simp
  | cons t l ih => rw [List.cons_append, mvOf_cons, mvOf_cons, ih, add_assoc]

theorem mvOf_insertTerm (m : Monomial) (c : ℚ) (l : List Term) :
    mvOf (insertTerm m c l) = monomial m.exponents c + mvOf l := by
  fun_induction insertTerm m c l with
  | case1 => rfl
  | case2 n b l h => rfl
  | case3 n b l h h0 =>
    obtain rfl := Monomial.eq_of_cmp h
    rw [mvOf_cons, ← add_assoc, ← map_add, add_comm c, h0, map_zero, zero_add]
  | case4 n b l h h0 =>
    obtain rfl := Monomial.eq_of_cmp h
    rw [mvOf_cons, mvOf_cons, ← add_assoc, ← map_add, add_comm c]
  | case5 n b l h ih => rw [mvOf_cons, ih, mvOf_cons, add_left_comm]

/-- Every monomial of the list with a term more is that of the term or was there before. -/
theorem mem_insertTerm {m : Monomial} {c : ℚ} {l : List Term} {t : Term}
    (h : t ∈ insertTerm m c l) : t.1 = m ∨ ∃ s ∈ l, s.1 = t.1 := by
  fun_induction insertTerm m c l with
  | case1 => exact .inl (congrArg Prod.fst (List.mem_singleton.1 h))
  | case2 n b l hc =>
    rcases List.mem_cons.1 h with rfl | h
    · exact .inl rfl
    · exact .inr ⟨t, h, rfl⟩
  | case3 n b l hc h0 => exact .inr ⟨t, List.mem_cons_of_mem _ h, rfl⟩
  | case4 n b l hc h0 =>
    rcases List.mem_cons.1 h with rfl | h
    · exact .inr ⟨_, List.mem_cons_self, rfl⟩
    · exact .inr ⟨t, List.mem_cons_of_mem _ h, rfl⟩
  | case5 n b l hc ih =>
    rcases List.mem_cons.1 h with rfl | h
    · exact .inr ⟨_, List.mem_cons_self, rfl⟩
    · exact (ih h).imp_right fun ⟨s, hs, e⟩ => ⟨s, List.mem_cons_of_mem _ hs, e⟩

/-- What is below the first term of an ascending list is below all of it. -/
theorem Ascending.lt_of_lt_head {m : Monomial} {t : Term} {l : List Term} (h : Ascending (t :: l))
    (hm : m.IsReduced) (ht : m.cmp t.1 = .lt) : ∀ s ∈ t :: l, m.cmp s.1 = .lt := by
  intro s hs
  rcases List.mem_cons.1 hs with rfl | hs
  · exact ht
  · have h1 := (Monomial.cmp_eq_lt hm (h.2 t List.mem_cons_self).1).1 ht
    have hs' := h.2 s (List.mem_cons_of_mem _ hs)
    have h2 := (Monomial.cmp_eq_lt (h.2 t List.mem_cons_self).1 hs'.1).1
      ((ascending_cons.1 h).1 s hs)
    exact (Monomial.cmp_eq_lt hm hs'.1).2 (h1.trans h2)

theorem ascending_insertTerm {m : Monomial} (hm : m.IsReduced) {c : ℚ} (hc : c ≠ 0) {l : List Term}
    (hl : Ascending l) : Ascending (insertTerm m c l) := by
  fun_induction insertTerm m c l with
  | case1 => exact ascending_cons.2 ⟨by simp, ⟨hm, hc⟩, .nil⟩
  | case2 n b l h => exact ascending_cons.2 ⟨hl.lt_of_lt_head hm h, ⟨hm, hc⟩, hl⟩
  | case3 n b l h h0 => exact (ascending_cons.1 hl).2.2
  | case4 n b l h h0 =>
    obtain ⟨hlt, hn, hl'⟩ := ascending_cons.1 hl
    exact ascending_cons.2 ⟨hlt, ⟨hn.1, h0⟩, hl'⟩
  | case5 n b l h ih =>
    obtain ⟨hlt, hn, hl'⟩ := ascending_cons.1 hl
    refine ascending_cons.2 ⟨fun t ht => ?_, hn, ih hl'⟩
    rcases mem_insertTerm ht with e | ⟨s, hs, e⟩
    · rw [e]
      exact (Monomial.cmp_eq_lt hn.1 hm).2 ((Monomial.cmp_eq_gt hm hn.1).1 h)
    · exact e ▸ hlt s hs

theorem toMv_addTerm (p : Polynomial) (t : Term) :
    (p.addTerm t).toMv = p.toMv + monomial t.1.exponents t.2 := by
  unfold addTerm
  split
  · rename_i h
    rw [h, map_zero, add_zero]
  · exact (mvOf_insertTerm _ _ _).trans (add_comm _ _)

theorem isReduced_addTerm {p : Polynomial} (hp : p.IsReduced) {t : Term} (ht : t.1.IsReduced) :
    (p.addTerm t).IsReduced := by
  unfold addTerm
  split
  · exact hp
  · rename_i h
    exact ascending_insertTerm ht h hp

/-- Terms that are added one by one are added as a sum. -/
theorem toMv_addTerms (p : Polynomial) (ts : List Term) :
    (p.addTerms ts).toMv = p.toMv + mvOf ts := by
  induction ts generalizing p with
  | nil => exact (add_zero _).symm
  | cons t ts ih => rw [addTerms, List.foldl_cons, ← addTerms, ih, toMv_addTerm, mvOf_cons, add_assoc]

theorem isReduced_addTerms {p : Polynomial} (hp : p.IsReduced) {ts : List Term}
    (hts : ∀ t ∈ ts, t.1.IsReduced) : (p.addTerms ts).IsReduced := by
  induction ts generalizing p with
  | nil => exact hp
  | cons t ts ih =>
    rw [List.forall_mem_cons] at hts
    exact ih (isReduced_addTerm hp hts.1) hts.2

@[simp] theorem toMv_zero : zero.toMv = 0 := rfl

theorem isReduced_zero : zero.IsReduced := Ascending.nil

@[simp] theorem toMv_ofTerms (ts : List Term) : (ofTerms ts).toMv = mvOf ts :=
  (toMv_addTerms _ _).trans (zero_add _)

theorem isReduced_ofTerms {ts : List Term} (hts : ∀ t ∈ ts, t.1.IsReduced) : (ofTerms ts).IsReduced :=
  isReduced_addTerms isReduced_zero hts

@[simp] theorem toMv_add (p q : Polynomial) : (p.add q).toMv = p.toMv + q.toMv :=
  toMv_addTerms _ _

theorem isReduced_add {p q : Polynomial} (hp : p.IsReduced) (hq : q.IsReduced) :
    (p.add q).IsReduced := isReduced_addTerms hp fun t ht => (hq.2 t ht).1

/-! ## Multiples -/

theorem mvOf_map {f : Term → Term} {c : Mv}
    (h : ∀ t, (monomial (f t).1.exponents (f t).2 : Mv) = c * monomial t.1.exponents t.2)
    (l : List Term) : mvOf (l.map f) = c * mvOf l := by
  induction l with
  | nil => simp
  | cons t l ih => rw [List.map_cons, mvOf_cons, mvOf_cons, h, ih, mul_add]

theorem ascending_map {f : Term → Term}
    (hlt : ∀ s t : Term, s.1.IsReduced → t.1.IsReduced → s.1.cmp t.1 = .lt →
      (f s).1.cmp (f t).1 = .lt)
    (hf : ∀ t : Term, t.1.IsReduced → t.2 ≠ 0 → (f t).1.IsReduced ∧ (f t).2 ≠ 0)
    {l : List Term} (h : Ascending l) : Ascending (l.map f) := by
  induction l with
  | nil => exact .nil
  | cons t l ih =>
    have h' := ascending_cons.1 h
    refine ascending_cons.2 ⟨fun s' hs' => ?_, hf t h'.2.1.1 h'.2.1.2, ih h'.2.2⟩
    obtain ⟨s, hs, rfl⟩ := List.mem_map.1 hs'
    exact hlt t s h'.2.1.1 (h'.2.2.2 s hs).1 (h'.1 s hs)

@[simp] theorem toMv_neg (p : Polynomial) : p.neg.toMv = -p.toMv := by
  have := mvOf_map (f := fun t => (t.1, -t.2)) (c := -1) (fun t => by simp) p.terms
  simpa [neg, toMv] using this

theorem isReduced_neg {p : Polynomial} (hp : p.IsReduced) : p.neg.IsReduced :=
  ascending_map (f := fun t => (t.1, -t.2)) (fun _ _ _ _ h => h)
    (fun _ h1 h2 => ⟨h1, neg_ne_zero.2 h2⟩) hp

@[simp] theorem toMv_sub (p q : Polynomial) : (p.sub q).toMv = p.toMv - q.toMv := by
  rw [sub, toMv_add, toMv_neg, sub_eq_add_neg]

theorem isReduced_sub {p q : Polynomial} (hp : p.IsReduced) (hq : q.IsReduced) :
    (p.sub q).IsReduced := isReduced_add hp (isReduced_neg hq)

@[simp] theorem toMv_scale (p : Polynomial) (c : ℚ) : (p.scale c).toMv = C c * p.toMv := by
  unfold scale
  split
  · rename_i h
    simp [h]
  · refine mvOf_map (f := fun t => (t.1, t.2 * c)) (fun t => ?_) p.terms
    rw [MvPolynomial.C_mul_monomial, mul_comm]

theorem isReduced_scale {p : Polynomial} (hp : p.IsReduced) (c : ℚ) : (p.scale c).IsReduced := by
  unfold scale
  split
  · exact isReduced_zero
  · rename_i h
    exact ascending_map (f := fun t => (t.1, t.2 * c)) (fun _ _ _ _ h => h)
      (fun _ h1 h2 => ⟨h1, mul_ne_zero h2 h⟩) hp

@[simp] theorem toMv_mulMonomial (p : Polynomial) (m : Monomial) :
    (p.mulMonomial m).toMv = monomial m.exponents 1 * p.toMv := by
  refine mvOf_map (f := fun t => (t.1.mul m, t.2)) (fun t => ?_) p.terms
  rw [Monomial.exponents_mul, MvPolynomial.monomial_mul, one_mul, add_comm]

theorem isReduced_mulMonomial {p : Polynomial} (hp : p.IsReduced) {m : Monomial}
    (hm : m.IsReduced) : (p.mulMonomial m).IsReduced := by
  refine ascending_map (f := fun t => (t.1.mul m, t.2)) (fun s t hs ht h => ?_)
    (fun _ h1 h2 => ⟨Monomial.isReduced_mul h1 hm, h2⟩) hp
  rw [Monomial.cmp_eq_lt hs ht] at h
  rw [Monomial.cmp_eq_lt (Monomial.isReduced_mul hs hm) (Monomial.isReduced_mul ht hm),
    Monomial.exponents_mul, Monomial.exponents_mul]
  exact add_lt_add_left h _

/-! ## Products -/

theorem mvOf_products (q : Polynomial) (l : List Term) :
    mvOf (l.flatMap fun s => q.terms.map fun t => (s.1.mul t.1, s.2 * t.2)) = mvOf l * q.toMv := by
  induction l with
  | nil => simp
  | cons s l ih =>
    have hrow : mvOf (q.terms.map fun t => (s.1.mul t.1, s.2 * t.2)) =
        monomial s.1.exponents s.2 * q.toMv := by
      refine mvOf_map (f := fun t => (s.1.mul t.1, s.2 * t.2)) (fun t => ?_) q.terms
      rw [Monomial.exponents_mul, MvPolynomial.monomial_mul]
    rw [List.flatMap_cons, mvOf_append, ih, hrow, mvOf_cons, add_mul]

@[simp] theorem toMv_mul (p q : Polynomial) : (p.mul q).toMv = p.toMv * q.toMv :=
  (toMv_ofTerms _).trans (mvOf_products q p.terms)

theorem isReduced_mul {p q : Polynomial} (hp : p.IsReduced) (hq : q.IsReduced) :
    (p.mul q).IsReduced := by
  refine isReduced_ofTerms fun u hu => ?_
  obtain ⟨s, hs, hu⟩ := List.mem_flatMap.1 hu
  obtain ⟨t, ht, rfl⟩ := List.mem_map.1 hu
  exact Monomial.isReduced_mul (hp.2 s hs).1 (hq.2 t ht).1

/-! ## Constants and parameters -/

@[simp] theorem toMv_term (m : Monomial) (c : ℚ) : (term m c).toMv = monomial m.exponents c := by
  unfold term
  split
  · rename_i h
    simp [h]
  · simp [toMv]

theorem isReduced_term {m : Monomial} (hm : m.IsReduced) (c : ℚ) : (term m c).IsReduced := by
  unfold term
  split
  · exact isReduced_zero
  · rename_i h
    exact ascending_cons.2 ⟨by simp, ⟨hm, h⟩, .nil⟩

@[simp] theorem toMv_const (c : ℚ) : (const c).toMv = C c := by
  rw [const, toMv_term, Monomial.exponents_one]
  rfl

theorem isReduced_const (c : ℚ) : (const c).IsReduced := isReduced_term Monomial.isReduced_one c

@[simp] theorem toMv_one : one.toMv = 1 := by simp [one]

theorem isReduced_one : one.IsReduced := isReduced_const 1

@[simp] theorem toMv_param (x : Parameter) : (param x).toMv = MvPolynomial.X x := by
  rw [param, toMv_term, Monomial.exponents_power]
  rfl

theorem isReduced_param (x : Parameter) : (param x).IsReduced :=
  isReduced_term (Monomial.isReduced_power x 1) 1

/-- Every element of the ring is denoted by a polynomial in stored form. -/
theorem exists_toMv (f : Mv) : ∃ p : Polynomial, p.IsReduced ∧ p.toMv = f := by
  induction f using MvPolynomial.induction_on with
  | C c => exact ⟨const c, isReduced_const c, toMv_const c⟩
  | add f g hf hg =>
    obtain ⟨p, hp, rfl⟩ := hf
    obtain ⟨q, hq, rfl⟩ := hg
    exact ⟨p.add q, isReduced_add hp hq, toMv_add p q⟩
  | mul_X f x hf =>
    obtain ⟨p, hp, rfl⟩ := hf
    exact ⟨p.mul (param x), isReduced_mul hp (isReduced_param x), by rw [toMv_mul, toMv_param]⟩

theorem isZero_iff {p : Polynomial} (hp : p.IsReduced) : p.isZero = true ↔ p.toMv = 0 := by
  constructor
  · intro h
    rw [isZero, List.isEmpty_iff] at h
    rw [toMv, h, mvOf_nil]
  · intro h
    rw [toMv_inj hp isReduced_zero (h.trans toMv_zero.symm)]
    rfl

theorem isZero_eq_false_iff {p : Polynomial} (hp : p.IsReduced) :
    p.isZero = false ↔ p.toMv ≠ 0 := by
  rw [ne_eq, ← isZero_iff hp, Bool.not_eq_true]

/-- A polynomial without parameters is the constant that it denotes. -/
theorem const?_eq_some {p : Polynomial} (hp : p.IsReduced) {c : ℚ} :
    p.const? = some c ↔ p.toMv = C c := by
  constructor
  · intro h
    unfold const? at h
    split at h
    · rename_i hl
      cases h
      rw [toMv, hl, mvOf_nil, map_zero]
    · rename_i m a hl
      split at h
      · rename_i hm
        cases h
        rw [Monomial.isOne_iff] at hm
        rw [toMv, hl, hm, mvOf_cons, mvOf_nil, add_zero, Monomial.exponents_one]
        rfl
      · cases h
    · cases h
  · intro h
    rw [toMv_inj hp (isReduced_const c) (h.trans (toMv_const c).symm)]
    unfold const term
    split
    · rename_i h0
      rw [h0]
      rfl
    · rfl

theorem isConst_iff {p : Polynomial} (hp : p.IsReduced) :
    p.isConst = true ↔ ∃ c, p.toMv = C c := by
  rw [isConst, Option.isSome_iff_exists]
  exact exists_congr fun c => const?_eq_some hp

theorem isOne_iff {p : Polynomial} (hp : p.IsReduced) : p.isOne = true ↔ p.toMv = 1 := by
  rw [isOne, beq_iff_eq, const?_eq_some hp, map_one]

/-! ## Leading coefficients -/

theorem leadingCoeff_ne_zero_of_toMv {p : Polynomial} (hp : p.IsReduced) (h0 : p.toMv ≠ 0) :
    p.leadingCoeff ≠ 0 := by
  have hne : p.terms ≠ [] := fun h => h0 (by rw [toMv, h, mvOf_nil])
  rw [leadingCoeff, leadingTerm?, List.getLast?_eq_some_getLast hne]
  exact (hp.2 _ (List.getLast_mem hne)).2

theorem leadingCoeff_scale (p : Polynomial) (c : ℚ) :
    (p.scale c).leadingCoeff = p.leadingCoeff * c := by
  unfold scale
  split
  · rename_i h
    rw [h, mul_zero]
    rfl
  · simp only [leadingCoeff, leadingTerm?, List.getLast?_map]
    cases p.terms.getLast? <;> simp

theorem leadingCoeff_one : one.leadingCoeff = 1 := rfl

/-- The polynomial of a constant multiple is the scaled polynomial. -/
theorem eq_scale {p q : Polynomial} (hp : p.IsReduced) (hq : q.IsReduced) {c : ℚ}
    (h : p.toMv = C c * q.toMv) : p = q.scale c :=
  toMv_inj hp (isReduced_scale hq c) (h.trans (toMv_scale q c).symm)

theorem isReduced_monic {p : Polynomial} (hp : p.IsReduced) : p.monic.IsReduced := by
  unfold monic
  dsimp only
  split
  · exact hp
  · exact isReduced_scale hp _

/-- `monic` multiplies by a constant that is not zero. -/
theorem toMv_monic (p : Polynomial) : ∃ c : ℚ, c ≠ 0 ∧ p.monic.toMv = C c * p.toMv := by
  unfold monic
  dsimp only
  split
  · exact ⟨1, one_ne_zero, by simp⟩
  · rename_i h
    push Not at h
    exact ⟨_, inv_ne_zero h.1, toMv_scale _ _⟩

theorem leadingCoeff_monic {p : Polynomial} (hp : p.IsReduced) (h0 : p.toMv ≠ 0) :
    p.monic.leadingCoeff = 1 := by
  have hc := leadingCoeff_ne_zero_of_toMv hp h0
  unfold monic
  dsimp only
  split
  · rename_i h
    exact h.resolve_left hc
  · rw [leadingCoeff_scale, mul_inv_cancel₀ hc]

/-! ## Associates -/

theorem isUnit_C {c : ℚ} (h : c ≠ 0) : IsUnit (C c : Mv) := (isUnit_iff_ne_zero.2 h).map C

/-- The units of the ring are the constants other than zero. -/
theorem exists_C_of_isUnit {f : Mv} (h : IsUnit f) : ∃ c : ℚ, c ≠ 0 ∧ f = C c := by
  obtain ⟨c, hc, hf⟩ := MvPolynomial.isUnit_iff_eq_C_of_isReduced.1 h
  exact ⟨c, hc.ne_zero, hf⟩

theorem associated_monic (p : Polynomial) : Associated p.monic.toMv p.toMv := by
  obtain ⟨c, hc, h⟩ := toMv_monic p
  rw [h]
  exact associated_unit_mul_left _ _ (isUnit_C hc)

/-- Associated polynomials with leading coefficient one are equal. -/
theorem eq_of_associated {p q : Polynomial} (hp : p.IsReduced) (hq : q.IsReduced)
    (hp1 : p.leadingCoeff = 1) (hq1 : q.leadingCoeff = 1) (h : Associated p.toMv q.toMv) :
    p = q := by
  obtain ⟨u, hu⟩ := h
  obtain ⟨c, -, hc⟩ := exists_C_of_isUnit u.isUnit
  have hq' : q = p.scale c := eq_scale hq hp (by rw [← hu, hc, mul_comm])
  have hc1 : c = 1 := by
    rw [hq', leadingCoeff_scale, hp1, one_mul] at hq1
    exact hq1
  refine toMv_inj hp hq ?_
  rw [hq', toMv_scale, hc1, map_one, one_mul]

end Polynomial
end MarkovCheck

import Mathlib
import MarkovCheck.Algebra.Polynomial.Division
import MarkovCheck.Proofs.Algebra.LeadingTerm
import MarkovCheck.Proofs.Algebra.Univariate
import MarkovCheck.Proofs.Text.Names

/-!
# MarkovCheck.Proofs.Algebra.Division

Exact division.

Long division keeps the sum of the remainder and the quotient so far times the divisor. The product that a
round takes off has the leading term of the remainder, so the leading monomials fall; they have only the
parameters of the two polynomials, so there is a last one.

* `SupportedOn`          — all parameters of a polynomial are in a list.
* `Ends`                 — the rounds of a loop up to its answer.
* `exists_ends`          — long division ends, and answers what it should from any round on.
* `division_exact`       — every division ends with the quotient, or with nothing when there is none.
-/

namespace MarkovCheck

namespace Polynomial

/-! ## Parameters -/

/-- Only the listed parameters occur. -/
def SupportedOn (xs : List Parameter) (p : Polynomial) : Prop := ∀ y ∉ xs, FreeOf y p.toMv

theorem freeOf_iff_degreeIn {p : Polynomial} (hp : p.IsReduced) {x : Parameter} :
    FreeOf x p.toMv ↔ p.degreeIn x = 0 := by
  rw [freeOf_iff, degreeIn_eq hp]

theorem mem_parameters {p : Polynomial} {y : Parameter} :
    y ∈ p.parameters ↔ ∃ t ∈ p.terms, y ∈ t.1.factors.map (·.1) := by
  unfold parameters
  induction p.terms with
  | nil => simp
  | cons t l ih =>
    rw [List.foldr_cons, mem_unionNames, ih]
    simp

theorem supportedOn_parameters {p : Polynomial} (hp : p.IsReduced) :
    SupportedOn p.parameters p := by
  intro y hy
  rw [freeOf_iff_degreeIn hp, ← Nat.le_zero]
  refine degreeIn_le fun t ht => ?_
  by_contra h
  refine hy (mem_parameters.2 ⟨t, ht, ?_⟩)
  rw [← Monomial.exponents_ne_zero_iff (hp.2 t ht).1, Monomial.exponents_apply (hp.2 t ht).1]
  omega

/-- A parameter does not occur exactly if it is not listed. -/
theorem freeOf_iff_notMem_parameters {p : Polynomial} (hp : p.IsReduced) {x : Parameter} :
    FreeOf x p.toMv ↔ x ∉ p.parameters := by
  refine ⟨fun h hx => ?_, supportedOn_parameters hp x⟩
  obtain ⟨t, ht, hxt⟩ := mem_parameters.1 hx
  have hle := exponent_le_degreeIn (x := x) ht
  rw [(freeOf_iff_degreeIn hp).1 h, ← Monomial.exponents_apply (hp.2 t ht).1, Nat.le_zero] at hle
  exact (Monomial.exponents_ne_zero_iff (hp.2 t ht).1 x).2 hxt hle

/-- The monomials of a polynomial have positive exponents for its parameters only. -/
theorem SupportedOn.exponents_support {xs : List Parameter} {p : Polynomial} (h : SupportedOn xs p)
    (hp : p.IsReduced) {t : Term} (ht : t ∈ p.terms) : t.1.exponents.support ⊆ xs.toFinset := by
  intro y hy
  rw [List.mem_toFinset]
  by_contra hyx
  have hdeg := (freeOf_iff_degreeIn hp).1 (h y hyx)
  have hle := exponent_le_degreeIn (x := y) ht
  rw [Finsupp.mem_support_iff, Monomial.exponents_apply (hp.2 t ht).1] at hy
  omega

theorem SupportedOn.mono {xs ys : List Parameter} {p : Polynomial} (h : SupportedOn xs p)
    (hs : ∀ y ∈ xs, y ∈ ys) : SupportedOn ys p := fun y hy => h y fun hx => hy (hs y hx)

/-- The coefficients in one parameter have no new parameters. -/
theorem freeOf_of_mem_coefficientsIn {p : Polynomial} (hp : p.IsReduced) {x y : Parameter}
    (hy : FreeOf y p.toMv) {c : ℕ × Polynomial} (hc : c ∈ p.coefficientsIn x) :
    FreeOf y c.2.toMv := by
  obtain ⟨hl, ht⟩ := coefficientsIn_list hp x
  have hred := (toMv_coefficientsIn hp hc).1
  rw [freeOf_iff_degreeIn hp] at hy
  rw [freeOf_iff_degreeIn hred, ← Nat.le_zero]
  refine degreeIn_le fun s hs => ?_
  rw [← termsAt_of_mem hl.1 hc, ht] at hs
  obtain ⟨t, htm, rfl⟩ := List.mem_map.1 hs
  have htp := (List.mem_filter.1 htm).1
  have h1 := exponent_le_degreeIn (x := y) htp
  rw [← Monomial.exponents_apply (Monomial.isReduced_without (hp.2 t htp).1 x),
    Monomial.exponents_without, Finsupp.erase_apply]
  split
  · exact le_rfl
  · rw [Monomial.exponents_apply (hp.2 t htp).1]
    omega

/-- The coefficients of a polynomial in `x` and others are polynomials in the others. -/
theorem supportedOn_of_mem_coefficientsIn {p : Polynomial} (hp : p.IsReduced) {x : Parameter}
    {xs : List Parameter} (h : SupportedOn (x :: xs) p) {c : ℕ × Polynomial}
    (hc : c ∈ p.coefficientsIn x) : SupportedOn xs c.2 := by
  intro y hy
  by_cases hyx : y = x
  · subst hyx
    rw [(toMv_coefficientsIn hp hc).2.2]
    exact freeOf_coeff _ _ _
  · refine freeOf_of_mem_coefficientsIn hp (h y ?_) hc
    simp [hyx, hy]

theorem supportedOn_leadingCoeffIn {p : Polynomial} (hp : p.IsReduced) {x : Parameter}
    {xs : List Parameter} (h : SupportedOn (x :: xs) p) : SupportedOn xs (p.leadingCoeffIn x) := by
  unfold leadingCoeffIn
  cases hl : (p.coefficientsIn x).getLast? with
  | none => exact fun y _ => freeOf_zero y
  | some c => exact supportedOn_of_mem_coefficientsIn hp h (List.mem_of_getLast? hl)

/-- A divisor has no new parameters. -/
theorem SupportedOn.of_dvd {xs : List Parameter} {p q : Polynomial} (h : SupportedOn xs p)
    (h0 : p.toMv ≠ 0) (hd : q.toMv ∣ p.toMv) : SupportedOn xs q :=
  fun y hy => (h y hy).of_dvd h0 hd

theorem SupportedOn.sub {xs : List Parameter} {p q : Polynomial} (hp : SupportedOn xs p)
    (hq : SupportedOn xs q) : SupportedOn xs (p.sub q) := by
  intro y hy
  rw [toMv_sub]
  exact (hp y hy).sub (hq y hy)

theorem SupportedOn.mul {xs : List Parameter} {p q : Polynomial} (hp : SupportedOn xs p)
    (hq : SupportedOn xs q) : SupportedOn xs (p.mul q) := by
  intro y hy
  rw [toMv_mul]
  exact (hp y hy).mul (hq y hy)

theorem SupportedOn.mulPower {xs : List Parameter} {p : Polynomial} (hp : SupportedOn xs p)
    {x : Parameter} (hx : x ∈ xs) (k : ℕ) : SupportedOn xs (p.mulMonomial (.power x k)) := by
  intro y hy
  have hyx : x ≠ y := fun h => hy (h ▸ hx)
  rw [toMv_mulMonomial, Monomial.exponents_power]
  exact (freeOf_monomial (by simp [hyx]) 1).mul (hp y hy)

/-! ## Exact division -/

/-- What a division must do with a dividend and a divisor: it finds the quotient if there is one. -/
def Divides (divide : Polynomial → Polynomial → Option Polynomial) (p d : Polynomial) : Prop :=
  (∀ q, divide p d = some q → q.IsReduced ∧ p.toMv = q.toMv * d.toMv) ∧
    (d.toMv ∣ p.toMv → ∃ q, divide p d = some q)

/-- The rounds of a loop end with an answer, or with a failure. -/
inductive Ends {α β : Type} (round : α → Option (α ⊕ β)) : α → Option β → Prop where
  | fail {a : α} : round a = none → Ends round a none
  | done {a : α} {b : β} : round a = some (.inr b) → Ends round a (some b)
  | next {a a' : α} {x : Option β} : round a = some (.inl a') → Ends round a' x → Ends round a x

/-- A loop that ends returns its answer. -/
theorem Ends.repeatM_eq {α β : Type} [Nonempty β] {round : α → Option (α ⊕ β)} {a : α} {x : Option β}
    (h : Ends round a x) : repeatM round a = x := by
  induction h with
  | fail h =>
    rw [repeatM_eq_of_monadTail, repeatM.body, h]
    rfl
  | done h =>
    rw [repeatM_eq_of_monadTail, repeatM.body, h]
    rfl
  | next h _ ih =>
    rw [repeatM_eq_of_monadTail, repeatM.body, h]
    exact ih

/-- What long division by `d` must answer from a quotient and a remainder on: the quotient of the
remainder is added, and there is none only if the remainder is no multiple. -/
def IsAnswer (d q r : Polynomial) : Option Polynomial → Prop
  | some s => s.IsReduced ∧ r.toMv = (s.toMv - q.toMv) * d.toMv
  | none => ¬ d.toMv ∣ r.toMv

section LongDivision

variable {d r q : Polynomial} {lead t : Term} {n : Monomial} {xs : List Parameter}

theorem toMv_subMultiple (r d : Polynomial) (n : Monomial) (c : ℚ) :
    (subMultiple r d n c).toMv = r.toMv - (term n c).toMv * d.toMv := by
  rw [subMultiple, toMv_sub, toMv_scale, toMv_mulMonomial, toMv_term, ← mul_assoc,
    MvPolynomial.C_mul_monomial, mul_one]

theorem isReduced_subMultiple (hr : r.IsReduced) (hd : d.IsReduced) (hn : n.IsReduced) (c : ℚ) :
    (subMultiple r d n c).IsReduced :=
  isReduced_sub hr (isReduced_scale (isReduced_mulMonomial hd hn) c)

/-- The next remainder has no new parameters. -/
theorem SupportedOn.subMultiple (hrs : SupportedOn xs r) (hds : SupportedOn xs d)
    (hn : n.exponents.support ⊆ xs.toFinset) (c : ℚ) :
    SupportedOn xs (subMultiple r d n c) := by
  intro y hy
  rw [toMv_subMultiple, toMv_term]
  refine (hrs y hy).sub ((freeOf_monomial ?_ c).mul (hds y hy))
  by_contra h
  exact hy (List.mem_toFinset.1 (hn (Finsupp.mem_support_iff.2 h)))

/-- The leading terms cancel. -/
theorem leadingExponents_subMultiple (hd : d.IsReduced) (hlead : d.leadingTerm? = some lead)
    (hr : r.IsReduced) (ht : r.leadingTerm? = some t) (hn : t.1.div? lead.1 = some n)
    (h0 : (subMultiple r d n (t.2 / lead.2)).toMv ≠ 0) :
    leadingExponents (subMultiple r d n (t.2 / lead.2)).toMv < toLex t.1.exponents := by
  have hD : Function.Injective (toLex : (Parameter →₀ ℕ) → _) := toLex.injective
  obtain ⟨hlmem, hlexp, hlcoeff⟩ := leadingTerm?_spec hd hlead
  obtain ⟨htmem, htexp, htcoeff⟩ := leadingTerm?_spec hr ht
  have hl0 : lead.2 ≠ 0 := (hd.2 lead hlmem).2
  have hc0 : t.2 / lead.2 ≠ 0 := div_ne_zero (hr.2 t htmem).2 hl0
  have hsingle : (term n (t.2 / lead.2)).toMv =
      AddMonoidAlgebra.single n.exponents (t.2 / lead.2) := toMv_term n _
  have hterm0 : (term n (t.2 / lead.2)).toMv ≠ 0 := by
    rw [toMv_term]
    exact mt MvPolynomial.monomial_eq_zero.1 hc0
  have hd0 : d.toMv ≠ 0 := fun h => hl0 (by rw [← hlcoeff, h, AddMonoidAlgebra.leadingCoeff_zero])
  -- The product that is taken off has the leading term of the remainder.
  have hexp : leadingExponents r.toMv = leadingExponents ((term n (t.2 / lead.2)).toMv * d.toMv) := by
    rw [leadingExponents_mul hterm0 hd0, hlexp, htexp, hsingle, leadingExponents,
      AddMonoidAlgebra.supDegree_single_ne_zero _ hc0, (Monomial.div?_spec (hr.2 t htmem).1 hn).2,
      toLex_add, add_comm]
  have hcoeff : AddMonoidAlgebra.leadingCoeff toLex r.toMv =
      AddMonoidAlgebra.leadingCoeff toLex ((term n (t.2 / lead.2)).toMv * d.toMv) := by
    rw [AddMonoidAlgebra.leadingCoeff_mul hD fun _ _ => rfl, hlcoeff, htcoeff, hsingle,
      AddMonoidAlgebra.leadingCoeff_single hD, div_mul_cancel₀ _ hl0]
  rw [toMv_subMultiple] at h0 ⊢
  rw [← htexp]
  exact (AddMonoidAlgebra.supDegree_sub_lt_of_leadingCoeff_eq hD hexp hcoeff).resolve_right
    fun h => h0 (sub_eq_zero.2 h)

/-- The leading monomial of a multiple is divisible by that of the divisor. -/
theorem exists_div?_of_dvd (hd : d.IsReduced) (hlead : d.leadingTerm? = some lead)
    (hr : r.IsReduced) (ht : r.leadingTerm? = some t) (hdvd : d.toMv ∣ r.toMv) :
    ∃ n, t.1.div? lead.1 = some n := by
  obtain ⟨hlmem, hlexp, -⟩ := leadingTerm?_spec hd hlead
  obtain ⟨htmem, htexp, htcoeff⟩ := leadingTerm?_spec hr ht
  have hr0 : r.toMv ≠ 0 := fun h =>
    (hr.2 t htmem).2 (by rw [← htcoeff, h, AddMonoidAlgebra.leadingCoeff_zero])
  obtain ⟨g, hg⟩ := hdvd
  have hadd : toLex t.1.exponents = toLex lead.1.exponents + leadingExponents g := by
    rw [← htexp, ← hlexp, hg]
    rw [hg] at hr0
    exact leadingExponents_mul (left_ne_zero_of_mul hr0) (right_ne_zero_of_mul hr0)
  refine (Monomial.exists_div?_iff (hr.2 t htmem).1 (hd.2 lead hlmem).1).2 ?_
  have hadd : t.1.exponents = lead.1.exponents + ofLex (leadingExponents g) := congrArg ofLex hadd
  rw [hadd]
  exact le_self_add

/-- What is answered after one round more is an answer before it. -/
theorem IsAnswer.of_round {c : ℚ} {a : Option Polynomial}
    (h : IsAnswer d (q.add (term n c)) (subMultiple r d n c) a) : IsAnswer d q r a := by
  cases a with
  | none =>
    intro hdvd
    refine h ?_
    rw [toMv_subMultiple]
    exact dvd_sub hdvd (dvd_mul_left _ _)
  | some s =>
    obtain ⟨hs, he⟩ := h
    rw [toMv_subMultiple, toMv_add] at he
    exact ⟨hs, by linear_combination he⟩

/-- Long division ends with the answer, since the leading monomials of the remainders fall and have
finitely many parameters. -/
theorem exists_ends (hd : d.IsReduced) (hds : SupportedOn xs d) (hlead : d.leadingTerm? = some lead)
    (hr : r.IsReduced) (hrs : SupportedOn xs r) (hq : q.IsReduced) :
    ∃ a, Ends (divisionRound d lead) (q, r) a ∧ IsAnswer d q r a := by
  have hdone : ∀ q : Polynomial, q.IsReduced →
      Ends (divisionRound d lead) (q, zero) (some q) ∧ IsAnswer d q zero (some q) := fun q hq =>
    ⟨.done rfl, hq, by rw [sub_self, zero_mul, toMv_zero]⟩
  induction he : ofLex (leadingExponents r.toMv) using (wellFounded_lex_within xs.toFinset).induction
    generalizing r q with
  | _ e ih =>
    rcases ht : r.leadingTerm? with _ | t
    · obtain rfl := leadingTerm?_eq_none_iff.1 ht
      exact ⟨some q, hdone q hq⟩
    · obtain ⟨htmem, htexp, -⟩ := leadingTerm?_spec hr ht
      rcases hn : t.1.div? lead.1 with _ | n
      · refine ⟨none, .fail (by simp only [divisionRound, ht, hn]), fun hdvd => ?_⟩
        obtain ⟨n, hn'⟩ := exists_div?_of_dvd hd hlead hr ht hdvd
        cases hn.symm.trans hn'
      · obtain ⟨hnr, hadd⟩ := Monomial.div?_spec (hr.2 t htmem).1 hn
        have hround : divisionRound d lead (q, r) = some (.inl (q.add (term n (t.2 / lead.2)),
            subMultiple r d n (t.2 / lead.2))) := by
          simp only [divisionRound, ht, hn]
        have hr' := isReduced_subMultiple hr hd hnr (t.2 / lead.2)
        have hq' := isReduced_add hq (isReduced_term hnr (t.2 / lead.2))
        have hsupport : t.1.exponents.support ⊆ xs.toFinset := hrs.exponents_support hr htmem
        have hns : n.exponents.support ⊆ xs.toFinset := by
          refine (Finsupp.support_mono ?_).trans hsupport
          rw [hadd]
          exact le_add_self
        obtain ⟨a, ha, hanswer⟩ : ∃ a, Ends (divisionRound d lead) (q.add (term n (t.2 / lead.2)),
            subMultiple r d n (t.2 / lead.2)) a ∧
              IsAnswer d (q.add (term n (t.2 / lead.2))) (subMultiple r d n (t.2 / lead.2)) a := by
          by_cases h0 : (subMultiple r d n (t.2 / lead.2)).toMv = 0
          · rw [toMv_inj hr' isReduced_zero h0]
            exact ⟨_, hdone _ hq'⟩
          · refine ih _ ⟨?_, ?_⟩ hr' (hrs.subMultiple hds hns _) hq' rfl
            · rw [← he, htexp]
              exact hsupport
            · rw [← he, htexp]
              exact leadingExponents_subMultiple hd hlead hr ht hn h0
        exact ⟨a, .next hround ha, hanswer.of_round⟩

end LongDivision

theorem ne_zero_of_leadingTerm? {d : Polynomial} (hd : d.IsReduced) {lead : Term}
    (h : d.leadingTerm? = some lead) : d.toMv ≠ 0 := by
  rw [ne_eq, ← isZero_iff hd, isZero, List.isEmpty_iff]
  exact List.ne_nil_of_mem (leadingTerm?_spec hd h).1

/-- If the division comes to its loop, the loop ends with the answer. -/
theorem division_ends {p d : Polynomial} (hp : p.IsReduced) (hd : d.IsReduced) {lead : Term}
    (hlead : d.leadingTerm? = some lead) (hconst : d.const? = none) :
    Ends (divisionRound d lead) (zero, p) (p.div? d) ∧ IsAnswer d zero p (p.div? d) := by
  have hps : SupportedOn (unionNames p.parameters d.parameters) p :=
    (supportedOn_parameters hp).mono fun y hy => mem_unionNames.2 (.inl hy)
  have hds : SupportedOn (unionNames p.parameters d.parameters) d :=
    (supportedOn_parameters hd).mono fun y hy => mem_unionNames.2 (.inr hy)
  obtain ⟨a, ha, hanswer⟩ := exists_ends hd hds hlead hp hps isReduced_zero
  have hdiv : p.div? d = a := by
    simp only [div?, hlead, hconst]
    exact ha.repeatM_eq
  rw [hdiv]
  exact ⟨ha, hanswer⟩

/-- The answer is the quotient, and none if the divisor is zero or does not divide. -/
theorem div?_answers {p d : Polynomial} (hp : p.IsReduced) (hd : d.IsReduced) :
    (d.toMv = 0 → p.div? d = none) ∧ (d.toMv ≠ 0 → IsAnswer d zero p (p.div? d)) := by
  rcases hlead : d.leadingTerm? with _ | lead
  · refine ⟨fun _ => by rw [div?, hlead], fun h0 => absurd ?_ h0⟩
    rw [leadingTerm?_eq_none_iff.1 hlead, toMv_zero]
  · have h0 := ne_zero_of_leadingTerm? hd hlead
    refine ⟨fun h => absurd h h0, fun _ => ?_⟩
    rcases hconst : d.const? with _ | c
    · exact (division_ends hp hd hlead hconst).2
    · have hdiv : p.div? d = some (p.scale c⁻¹) := by simp only [div?, hlead, hconst]
      rw [hdiv]
      rw [const?_eq_some hd] at hconst
      have hc0 : c ≠ 0 := fun hc => h0 (by rw [hconst, hc, map_zero])
      refine ⟨isReduced_scale hp _, ?_⟩
      rw [toMv_scale, toMv_zero, sub_zero, hconst, mul_right_comm, ← map_mul, inv_mul_cancel₀ hc0,
        map_one, one_mul]

theorem div?_divides {p d : Polynomial} (hp : p.IsReduced) (hd : d.IsReduced)
    (h0 : d.toMv ≠ 0) : Divides div? p d := by
  have hanswer := (div?_answers hp hd).2 h0
  refine ⟨fun q hq => ?_, fun hdvd => ?_⟩
  · rwa [hq, IsAnswer, toMv_zero, sub_zero] at hanswer
  · cases h : p.div? d with
    | none =>
      rw [h] at hanswer
      exact absurd hdvd hanswer
    | some q => exact ⟨q, rfl⟩

/-- Exact division returns the quotient, and nothing exactly when there is none. -/
theorem div?_eq_some {p d q : Polynomial} (hp : p.IsReduced) (hd : d.IsReduced) :
    p.div? d = some q ↔ d.toMv ≠ 0 ∧ q.IsReduced ∧ p.toMv = q.toMv * d.toMv := by
  constructor
  · intro h
    have h0 : d.toMv ≠ 0 := by
      intro h0
      rw [(div?_answers hp hd).1 h0] at h
      cases h
    exact ⟨h0, (div?_divides hp hd h0).1 q h⟩
  · rintro ⟨h0, hq, he⟩
    obtain ⟨hs, hc⟩ := div?_divides hp hd h0
    obtain ⟨r, hr⟩ := hc ⟨_, he.trans (mul_comm _ _)⟩
    obtain ⟨hrr, hre⟩ := hs r hr
    rw [hr, toMv_inj hrr hq (mul_right_cancel₀ h0 (hre.symm.trans he))]

/-- The loop of a division ends. The division gives a polynomial exactly if the divisor is not zero and this polynomial
times the divisor is the dividend, and nothing exactly if the divisor is zero or does not divide. -/
theorem division_exact {p d : Polynomial} (hp : p.IsReduced) (hd : d.IsReduced) :
    (∀ lead, d.leadingTerm? = some lead → d.const? = none →
        Ends (divisionRound d lead) (zero, p) (p.div? d)) ∧
      (∀ q, p.div? d = some q ↔ d ≠ zero ∧ q.IsReduced ∧ q.mul d = p) ∧
      (p.div? d = none ↔ d = zero ∨ ¬ ∃ q : Polynomial, q.IsReduced ∧ q.mul d = p) := by
  have hzero : d.toMv = 0 ↔ d = zero :=
    ⟨fun h => toMv_inj hd isReduced_zero (h.trans toMv_zero.symm), fun h => h ▸ toMv_zero⟩
  have hproduct : ∀ q : Polynomial, q.IsReduced → (p.toMv = q.toMv * d.toMv ↔ q.mul d = p) :=
    fun q hq => by
      rw [← toMv_mul]
      exact ⟨fun h => toMv_inj (isReduced_mul hq hd) hp h.symm, fun h => congrArg toMv h.symm⟩
  have hsome : ∀ q, p.div? d = some q ↔ d ≠ zero ∧ q.IsReduced ∧ q.mul d = p := fun q => by
    rw [div?_eq_some hp hd, ne_eq, hzero]
    exact and_congr_right fun _ => and_congr_right (hproduct q)
  refine ⟨fun lead hlead hconst => (division_ends hp hd hlead hconst).1, hsome, ?_⟩
  rw [Option.eq_none_iff_forall_ne_some, ← not_and_or.trans (or_congr_left not_not)]
  simp only [ne_eq, hsome, not_and, not_exists]
  exact ⟨fun h h0 q hq => h q h0 hq, fun h q h0 hq => h h0 q hq⟩

/-- The remainders of `a ^ 2 - b ^ 4` by `a - b ^ 2` grow in `b` before they vanish, that of `a` stops at
`b ^ 2`. -/
theorem division_exact_squares :
    let d := (param "a").sub ((param "b").mul (param "b"))
    let s := (param "a").add ((param "b").mul (param "b"))
    (s.mul d).div? d = some s ∧ (param "a").div? d = none := by
  intro d s
  have ha : (param "a").IsReduced := isReduced_param "a"
  have hbb : ((param "b").mul (param "b")).IsReduced :=
    isReduced_mul (isReduced_param "b") (isReduced_param "b")
  have hd : d.IsReduced := isReduced_sub ha hbb
  have hs : s.IsReduced := isReduced_add ha hbb
  -- The divisor vanishes where `a` and `b` are one.
  have hd1 : MvPolynomial.eval (fun _ => (1 : ℚ)) d.toMv = 0 := by simp [d]
  have hd0 : d ≠ zero := fun h => by
    have := congrArg (MvPolynomial.eval fun x => if x = "a" then (1 : ℚ) else 0) (congrArg toMv h)
    simp [d] at this
  refine ⟨((division_exact (isReduced_mul hs hd) hd).2.1 s).2 ⟨hd0, hs, rfl⟩, ?_⟩
  refine (division_exact ha hd).2.2.2 (.inr ?_)
  rintro ⟨q, -, hq⟩
  have := congrArg (MvPolynomial.eval fun _ => (1 : ℚ)) (congrArg toMv hq)
  rw [toMv_mul, map_mul, hd1] at this
  simp at this

end Polynomial
end MarkovCheck

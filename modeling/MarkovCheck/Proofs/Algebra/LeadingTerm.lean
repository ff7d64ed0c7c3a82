import Mathlib
import MarkovCheck.Proofs.Algebra.Polynomial

/-!
# MarkovCheck.Proofs.Algebra.LeadingTerm

Quotients of monomials, and leading terms.

The leading monomial of a polynomial is the greatest exponent function with a coefficient, in the
lexicographic order. Leading monomials of products add up, and a difference of polynomials with the same
leading term has a smaller one. The order itself has infinite descending sequences, which use ever less
significant parameters; over finitely many parameters it has none.

* `Monomial.div?_eq_some`  — the quotient of monomials subtracts exponents.
* `leadingTerm?_spec`      — the stored leading term.
* `wellFounded_lex_within` — there is no infinite descent over finitely many parameters.
-/

namespace MarkovCheck

/-! ## Quotients of monomials -/

namespace Monomial

/-- Every parameter of a quotient occurs in the dividend. -/
theorem mem_divFactors {l r q : List Factor} (h : divFactors l r = some q) {f : Factor} (hf : f ∈ q) :
    ∃ g ∈ l, g.1 = f.1 := by
  fun_induction divFactors l r generalizing q with
  | case1 l =>
    cases h
    exact ⟨f, hf, rfl⟩
  | case2 => cases h
  | case3 x j l y k r _ ih =>
    obtain ⟨q', hq', rfl⟩ := Option.map_eq_some_iff.1 h
    rcases List.mem_cons.1 hf with rfl | hf
    · exact ⟨_, List.mem_cons_self, rfl⟩
    · obtain ⟨g, hg, e⟩ := ih hq' hf
      exact ⟨g, List.mem_cons_of_mem _ hg, e⟩
  | case4 => cases h
  | case5 x l y k r _ _ ih =>
    obtain ⟨g, hg, e⟩ := ih h hf
    exact ⟨g, List.mem_cons_of_mem _ hg, e⟩
  | case6 x j l y k r _ _ _ ih =>
    obtain ⟨q', hq', rfl⟩ := Option.map_eq_some_iff.1 h
    rcases List.mem_cons.1 hf with rfl | hf
    · exact ⟨_, List.mem_cons_self, rfl⟩
    · obtain ⟨g, hg, e⟩ := ih hq' hf
      exact ⟨g, List.mem_cons_of_mem _ hg, e⟩
  | case7 => cases h

theorem divFactors_sound {l r q : List Factor} (hl : Ascending l) (h : divFactors l r = some q) :
    Ascending q ∧ exponentsOf l = exponentsOf r + exponentsOf q := by
  fun_induction divFactors l r generalizing q with
  | case1 l =>
    cases h
    exact ⟨hl, (zero_add _).symm⟩
  | case2 => cases h
  | case3 x j l y k r _ ih =>
    obtain ⟨q', hq', rfl⟩ := Option.map_eq_some_iff.1 h
    obtain ⟨hlt, hpos, hl'⟩ := ascending_cons.1 hl
    obtain ⟨hasc, he⟩ := ih hl' hq'
    refine ⟨ascending_cons.2 ⟨fun f hf => ?_, hpos, hasc⟩, ?_⟩
    · obtain ⟨g, hg, e⟩ := mem_divFactors hq' hf
      exact e ▸ hlt g hg
    · rw [exponentsOf_cons, he, exponentsOf_cons (x, j)]
      abel
  | case4 => cases h
  | case5 x l y k r hxy _ ih =>
    obtain rfl : x = y := Std.compare_eq_iff_eq.1 hxy
    obtain ⟨hasc, he⟩ := ih (ascending_cons.1 hl).2.2 h
    refine ⟨hasc, ?_⟩
    rw [exponentsOf_cons, exponentsOf_cons, he, add_assoc]
  | case6 x j l y k r hxy hjk hne ih =>
    obtain rfl : x = y := Std.compare_eq_iff_eq.1 hxy
    obtain ⟨q', hq', rfl⟩ := Option.map_eq_some_iff.1 h
    obtain ⟨hlt, -, hl'⟩ := ascending_cons.1 hl
    obtain ⟨hasc, he⟩ := ih hl' hq'
    refine ⟨ascending_cons.2 ⟨fun f hf => ?_, Nat.sub_pos_of_lt (by omega), hasc⟩, ?_⟩
    · obtain ⟨g, hg, e⟩ := mem_divFactors hq' hf
      exact e ▸ hlt g hg
    · have hj : Finsupp.single x j = Finsupp.single x k + Finsupp.single x (j - k) := by
        rw [← Finsupp.single_add, Nat.add_sub_of_le (not_lt.1 hjk)]
      rw [exponentsOf_cons, exponentsOf_cons, exponentsOf_cons, he]
      dsimp only
      rw [hj]
      abel
  | case7 => cases h

theorem divFactors_complete {l r : List Factor} (hl : Ascending l) (hr : Ascending r)
    (hle : exponentsOf r ≤ exponentsOf l) : ∃ q, divFactors l r = some q := by
  fun_induction divFactors l r with
  | case1 l => exact ⟨l, rfl⟩
  | case2 f r =>
    have := hle f.1
    rw [exponentsOf_head hr] at this
    exact absurd this (not_le.2 (ascending_cons.1 hr).2.1)
  | case3 x j l y k r hxy ih =>
    rw [compare_lt_iff_lt] at hxy
    obtain ⟨q, hq⟩ := ih (ascending_cons.1 hl).2.2 hr fun z => by
      by_cases hz : z = x
      · subst hz
        rw [exponentsOf_below hr hxy]
        exact Nat.zero_le _
      · simpa [Ne.symm hz] using hle z
    exact ⟨_, by rw [hq]; rfl⟩
  | case4 x j l y k r hxy hjk =>
    obtain rfl : x = y := Std.compare_eq_iff_eq.1 hxy
    have := hle x
    rw [exponentsOf_head hr, exponentsOf_head hl] at this
    exact absurd this (not_le.2 hjk)
  | case5 x l y k r hxy _ ih =>
    obtain rfl : x = y := Std.compare_eq_iff_eq.1 hxy
    exact ih (ascending_cons.1 hl).2.2 (ascending_cons.1 hr).2.2 (by simpa using hle)
  | case6 x j l y k r hxy hjk _ ih =>
    obtain rfl : x = y := Std.compare_eq_iff_eq.1 hxy
    obtain ⟨q, hq⟩ := ih (ascending_cons.1 hl).2.2 (ascending_cons.1 hr).2.2 fun z => by
      by_cases hz : z = x
      · subst hz
        rw [exponentsOf_eq_zero fun g hg => ((ascending_cons.1 hr).1 g hg).ne']
        exact Nat.zero_le _
      · simpa [Ne.symm hz] using hle z
    exact ⟨_, by rw [hq]; rfl⟩
  | case7 x j l y k r hxy =>
    rw [compare_gt_iff_gt] at hxy
    have := hle y
    rw [exponentsOf_head hr, exponentsOf_below hl hxy] at this
    exact absurd this (not_le.2 (ascending_cons.1 hr).2.1)

/-- What the quotient of monomials is. -/
theorem div?_spec {a b c : Monomial} (ha : a.IsReduced) (h : a.div? b = some c) :
    c.IsReduced ∧ a.exponents = b.exponents + c.exponents := by
  obtain ⟨q, hq, rfl⟩ := Option.map_eq_some_iff.1 h
  exact divFactors_sound ha hq

/-- There is a quotient exactly if no exponent of the divisor is larger. -/
theorem exists_div?_iff {a b : Monomial} (ha : a.IsReduced) (hb : b.IsReduced) :
    (∃ c, a.div? b = some c) ↔ b.exponents ≤ a.exponents := by
  constructor
  · rintro ⟨c, hc⟩
    rw [(div?_spec ha hc).2]
    exact le_self_add
  · intro hle
    obtain ⟨q, hq⟩ := divFactors_complete ha hb hle
    exact ⟨⟨q⟩, by rw [div?, hq]; rfl⟩

end Monomial

/-! ## Leading terms -/

namespace Polynomial

open AddMonoidAlgebra (supDegree)

/-- The greatest exponents with a coefficient. -/
noncomputable abbrev leadingExponents (f : Mv) : Lex (Parameter →₀ ℕ) := supDegree toLex f

theorem leadingTerm?_eq_none_iff {p : Polynomial} : p.leadingTerm? = none ↔ p = zero := by
  obtain ⟨l⟩ := p
  rw [leadingTerm?, List.getLast?_eq_none_iff, zero, mk.injEq]

/-- The last term has the greatest exponents. -/
theorem leadingTerm?_spec {p : Polynomial} (hp : p.IsReduced) {t : Term}
    (h : p.leadingTerm? = some t) : t ∈ p.terms ∧ leadingExponents p.toMv = toLex t.1.exponents ∧
      AddMonoidAlgebra.leadingCoeff toLex p.toMv = t.2 := by
  obtain ⟨l⟩ := p
  change Ascending l at hp
  have hmem : t ∈ l := List.mem_of_getLast? h
  have hcoeff : (mvOf l).coeff t.1.exponents = t.2 := coeff_mvOf_of_mem hp hmem
  have hmax : ∀ s ∈ l, toLex s.1.exponents ≤ toLex t.1.exponents := by
    obtain ⟨l, rfl⟩ := List.getLast?_eq_some_iff.1 h
    intro s hs
    rcases List.mem_append.1 hs with hs' | hs'
    · have hlt := (List.pairwise_append.1 hp.1).2.2 s hs' t List.mem_cons_self
      exact ((Monomial.cmp_eq_lt (hp.2 s hs).1 (hp.2 t hmem).1).1 hlt).le
    · rw [List.mem_singleton.1 hs']
  have hlead : leadingExponents (mvOf l) = toLex t.1.exponents := by
    refine AddMonoidAlgebra.supDegree_eq_of_isMaxOn ?_ fun e he => ?_
    · exact MvPolynomial.mem_support_iff.2 (hcoeff.trans_ne (hp.2 t hmem).2)
    · obtain ⟨s, hs, rfl⟩ := exists_mem_of_coeff_ne_zero (MvPolynomial.mem_support_iff.1 he)
      exact hmax s hs
  refine ⟨hmem, hlead, ?_⟩
  change (mvOf l).coeff (Function.invFun toLex (leadingExponents (mvOf l))) = t.2
  rw [hlead, Function.leftInverse_invFun toLex.injective, hcoeff]

/-- Leading terms of a product. -/
theorem leadingExponents_mul {f g : Mv} (hf : f ≠ 0) (hg : g ≠ 0) :
    leadingExponents (f * g) = leadingExponents f + leadingExponents g := by
  have hD : Function.Injective (toLex : (Parameter →₀ ℕ) → _) := toLex.injective
  refine AddMonoidAlgebra.supDegree_mul hD (fun _ _ => rfl) ?_ hf hg
  exact mul_ne_zero ((AddMonoidAlgebra.leadingCoeff_ne_zero hD).2 hf)
    ((AddMonoidAlgebra.leadingCoeff_ne_zero hD).2 hg)

/-- Over finitely many parameters the lexicographic order has no infinite descending sequences. -/
theorem wellFounded_lex_within (S : Finset Parameter) : WellFounded fun a b : Parameter →₀ ℕ =>
    b.support ⊆ S ∧ toLex a < toLex b := by
  have hwf : WellFounded fun a b : Lex ({x // x ∈ S} →₀ ℕ) => a < b := wellFounded_lt
  refine Subrelation.wf (fun {a b} hab => ?_)
    (InvImage.wf (fun e => toLex (e.subtypeDomain (· ∈ S))) hwf)
  -- The parameter that decides has a positive exponent, so it is one of the listed ones.
  obtain ⟨hb, hlt⟩ := hab
  obtain ⟨x, hbelow, hx⟩ := Finsupp.Lex.lt_iff.1 hlt
  have hxS : x ∈ S := hb (Finsupp.mem_support_iff.2 (Nat.ne_zero_of_lt hx))
  exact Finsupp.Lex.lt_iff.2 ⟨⟨x, hxS⟩, fun z hz => hbelow z hz, hx⟩

end Polynomial
end MarkovCheck

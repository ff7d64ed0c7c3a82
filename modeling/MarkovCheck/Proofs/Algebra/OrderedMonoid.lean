import Mathlib
import MarkovCheck.Proofs.Algebra.LeadingTerm

/-!
# MarkovCheck.Proofs.Algebra.OrderedMonoid

Monomials in stored form are an ordered commutative monoid.

Products merge two lists of factors, quotients and comparisons walk along both at once. In terms of exponents
these are sums, differences and the lexicographic order, so the laws are those of exponent functions, moved
back by `exponents_inj`. The empty product is the least monomial. Below a monomial there can be infinitely many
others, since a smaller one may have any exponents of less significant parameters; but a sequence that uses
finitely many parameters does not descend forever.

* `div?_eq_some_iff` — the quotient is the only solution of an equation.
* `isLE_cmp_iff`     — the order is that of the exponents.
* `cmp_mul_right`    — a common factor does not change a comparison.
* `not_descending`   — no infinite descent over finitely many parameters.
* `IsOrderedMonoid`, `monomials_ordered_monoid` — all laws together.
-/

namespace MarkovCheck
namespace Monomial

variable {a b c : Monomial}

/-! ## Products and quotients -/

theorem mul_comm_of_isReduced (ha : a.IsReduced) (hb : b.IsReduced) : a.mul b = b.mul a :=
  exponents_inj (isReduced_mul ha hb) (isReduced_mul hb ha) (by
    rw [exponents_mul, exponents_mul, add_comm])

theorem mul_assoc_of_isReduced (ha : a.IsReduced) (hb : b.IsReduced) (hc : c.IsReduced) :
    (a.mul b).mul c = a.mul (b.mul c) :=
  exponents_inj (isReduced_mul (isReduced_mul ha hb) hc) (isReduced_mul ha (isReduced_mul hb hc)) (by
    simp only [exponents_mul, add_assoc])

/-- A quotient is in stored form, and it is what the divisor has to be multiplied with. -/
theorem div?_eq_some_iff (ha : a.IsReduced) (hb : b.IsReduced) :
    a.div? b = some c ↔ c.IsReduced ∧ a = b.mul c := by
  constructor
  · intro h
    obtain ⟨hc, he⟩ := div?_spec ha h
    exact ⟨hc, exponents_inj ha (isReduced_mul hb hc) (he.trans (exponents_mul b c).symm)⟩
  · rintro ⟨hc, rfl⟩
    have hle : b.exponents ≤ (b.mul c).exponents := exponents_mul b c ▸ le_self_add
    obtain ⟨q, hq⟩ := (exists_div?_iff ha hb).2 hle
    obtain ⟨hqr, he⟩ := div?_spec ha hq
    rw [exponents_mul] at he
    rw [hq, exponents_inj hqr hc (add_left_cancel he).symm]

/-! ## Order -/

theorem cmp_eq_eq_iff (ha : a.IsReduced) : a.cmp b = .eq ↔ a = b := by
  refine ⟨eq_of_cmp, ?_⟩
  rintro rfl
  rw [cmp_eq_compare_exponents ha ha]
  exact compare_eq_iff_eq.2 rfl

theorem cmp_swap (ha : a.IsReduced) (hb : b.IsReduced) : (a.cmp b).swap = b.cmp a := by
  rw [cmp_eq_compare_exponents ha hb, cmp_eq_compare_exponents hb ha]
  exact Std.OrientedCmp.eq_swap.symm

/-- A monomial is at most another one exactly if its exponents are. -/
theorem isLE_cmp_iff (ha : a.IsReduced) (hb : b.IsReduced) :
    (a.cmp b).isLE = true ↔ toLex a.exponents ≤ toLex b.exponents := by
  rw [cmp_eq_compare_exponents ha hb, Ordering.isLE_iff_ne_gt]
  exact compare_le_iff_le

theorem isLE_cmp_trans (ha : a.IsReduced) (hb : b.IsReduced) (hc : c.IsReduced)
    (hab : (a.cmp b).isLE = true) (hbc : (b.cmp c).isLE = true) : (a.cmp c).isLE = true := by
  rw [isLE_cmp_iff ha hb] at hab
  rw [isLE_cmp_iff hb hc] at hbc
  exact (isLE_cmp_iff ha hc).2 (hab.trans hbc)

/-- No monomial is below the empty product. -/
theorem isLE_one_cmp (ha : a.IsReduced) : (one.cmp a).isLE = true := by
  rw [isLE_cmp_iff isReduced_one ha]
  exact bot_le

/-- The parameter that decides a comparison is the same when a factor is added to both sides. -/
theorem cmp_mul_right (ha : a.IsReduced) (hb : b.IsReduced) (hc : c.IsReduced) :
    (a.mul c).cmp (b.mul c) = a.cmp b := by
  rw [cmp_eq_compare_exponents (isReduced_mul ha hc) (isReduced_mul hb hc),
    cmp_eq_compare_exponents ha hb, exponents_mul, exponents_mul, toLex_add, toLex_add,
    ← cmp_eq_compare, ← cmp_eq_compare, cmp_add_right]

/-! ## Descent -/

/-- Only the parameters of a set occur. -/
def Within (S : Finset Parameter) (m : Monomial) : Prop := ∀ f ∈ m.factors, f.1 ∈ S

theorem Within.support_subset {S : Finset Parameter} {m : Monomial} (h : m.Within S)
    (hm : m.IsReduced) : m.exponents.support ⊆ S := by
  intro x hx
  obtain ⟨f, hf, rfl⟩ :=
    List.mem_map.1 ((exponents_ne_zero_iff hm x).1 (Finsupp.mem_support_iff.1 hx))
  exact h f hf

/-- A sequence over finitely many parameters does not descend forever. -/
theorem not_descending {S : Finset Parameter} {f : ℕ → Monomial} (hf : ∀ n, (f n).IsReduced)
    (hS : ∀ n, (f n).Within S) : ¬ ∀ n, (f (n + 1)).cmp (f n) = .lt := by
  intro hlt
  have hempty := wellFounded_iff_isEmpty_descending_chain.1 (Polynomial.wellFounded_lex_within S)
  refine hempty.false ⟨fun n => (f n).exponents, fun n => ⟨(hS n).support_subset (hf n), ?_⟩⟩
  exact (cmp_eq_lt (hf (n + 1)) (hf n)).1 (hlt n)

/-! ## All laws -/

/-- The laws of a commutative monoid with exact quotients and a total order, of which one is the least element
and which products keep. -/
structure IsOrderedMonoid (a b c : Monomial) : Prop where
  isReduced_mul : (a.mul b).IsReduced
  mul_comm : a.mul b = b.mul a
  mul_assoc : (a.mul b).mul c = a.mul (b.mul c)
  one_mul : one.mul a = a
  div?_eq_some : a.div? b = some c ↔ a = b.mul c
  cmp_eq_eq : a.cmp b = .eq ↔ a = b
  cmp_swap : (a.cmp b).swap = b.cmp a
  isLE_trans : (a.cmp b).isLE = true → (b.cmp c).isLE = true → (a.cmp c).isLE = true
  one_isLE : (one.cmp a).isLE = true
  mul_lt_mul : a.cmp b = .lt → (a.mul c).cmp (b.mul c) = .lt

/-- Monomials in stored form satisfy the laws of an ordered monoid, and over finitely many parameters there is
no infinite descending sequence of them. -/
theorem monomials_ordered_monoid (ha : a.IsReduced) (hb : b.IsReduced) (hc : c.IsReduced) :
    IsOrderedMonoid a b c ∧
      ∀ (S : Finset Parameter) (f : ℕ → Monomial), (∀ n, (f n).IsReduced ∧ (f n).Within S) →
        ¬ ∀ n, (f (n + 1)).cmp (f n) = .lt := by
  refine ⟨?laws, fun S f hf => not_descending (fun n => (hf n).1) fun n => (hf n).2⟩
  case laws =>
    constructor
    case isReduced_mul => exact isReduced_mul ha hb
    case mul_comm => exact mul_comm_of_isReduced ha hb
    case mul_assoc => exact mul_assoc_of_isReduced ha hb hc
    case one_mul => exact congrArg Monomial.mk (by rw [one, mulFactors])
    case div?_eq_some => exact (div?_eq_some_iff ha hb).trans (and_iff_right hc)
    case cmp_eq_eq => exact cmp_eq_eq_iff ha
    case cmp_swap => exact cmp_swap ha hb
    case isLE_trans => exact isLE_cmp_trans ha hb hc
    case one_isLE => exact isLE_one_cmp ha
    case mul_lt_mul => exact fun h => (cmp_mul_right ha hb hc).trans h

/-- The degree does not matter: `b ^ 5` is below `a`, and stays below when both are multiplied by `a * c ^ 2`.
The product with this factor is divided by `b ^ 5` again. -/
theorem powers_ordered_monoid :
    let a := power "b" 5
    let b := power "a" 1
    let c : Monomial := ⟨[("a", 1), ("c", 2)]⟩
    c.IsReduced ∧ a.mul b = b.mul a ∧ a.cmp b = .lt ∧ (a.mul c).cmp (b.mul c) = .lt ∧
      (a.mul c).div? a = some c := by
  intro a b c
  have ha : a.IsReduced := isReduced_power "b" 5
  have hc : c.IsReduced := ⟨by decide, by decide⟩
  have hlt : a.cmp b = .lt := by decide
  obtain ⟨hlaws, -⟩ := monomials_ordered_monoid ha (isReduced_power "a" 1) hc
  obtain ⟨hproduct, -⟩ := monomials_ordered_monoid (isReduced_mul ha hc) ha hc
  exact ⟨hc, hlaws.mul_comm, hlt, hlaws.mul_lt_mul hlt, hproduct.div?_eq_some.2 rfl⟩

end Monomial
end MarkovCheck

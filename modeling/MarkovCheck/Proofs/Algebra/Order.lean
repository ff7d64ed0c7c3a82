import Mathlib
import MarkovCheck.Proofs.Algebra.RationalFunction

/-!
# MarkovCheck.Proofs.Algebra.Order

The comparisons of monomials, polynomials and rational functions are total orders.

Monomials and polynomials are compared lexicographically as lists, so antisymmetry and transitivity
come from those of the comparison of elements, down to names and numbers. This needs no stored form:
sorting any list of functions with the comparison leaves an ascending list.
-/

namespace MarkovCheck

open Std (OrientedCmp TransCmp)

namespace Monomial

/-- Compares two factors: first the names, the smaller one is greater, then the exponents. -/
def cmpFactor : Factor → Factor → Ordering :=
  compareLex (fun a b => compare b.1 a.1) fun a b => compare a.2 b.2

instance : TransCmp cmpFactor :=
  have : TransCmp fun a b : Factor => compare b.1 a.1 :=
    { eq_swap := OrientedCmp.eq_swap, isLE_trans := fun h h' => TransCmp.isLE_trans h' h }
  have : TransCmp fun a b : Factor => compare a.2 b.2 :=
    { eq_swap := OrientedCmp.eq_swap, isLE_trans := TransCmp.isLE_trans }
  inferInstanceAs (TransCmp (compareLex _ _))

theorem cmpFactors_eq_compareLex (l r : List Factor) :
    cmpFactors l r = List.compareLex cmpFactor l r := by
  have hswap : ∀ x y : Parameter, compare y x = (compare x y).swap := fun _ _ => OrientedCmp.eq_swap
  fun_induction cmpFactors l r with
  | case1 => rfl
  | case2 => rfl
  | case3 => rfl
  | case4 x j left y k right h =>
    rw [List.compareLex_cons_cons, cmpFactor, compareLex, hswap, h]
    rfl
  | case5 x j left y k right h =>
    rw [List.compareLex_cons_cons, cmpFactor, compareLex, hswap, h]
    rfl
  | case6 x j left y k right h h' ih =>
    rw [List.compareLex_cons_cons, cmpFactor, compareLex, hswap, h, h', ih]
    rfl
  | case7 x j left y k right h h' =>
    rw [List.compareLex_cons_cons, cmpFactor, compareLex, hswap, h]
    cases hjk : compare j k with
    | eq => exact absurd hjk h'
    | lt => rfl
    | gt => rfl

instance : TransCmp cmp where
  eq_swap {a b} := by
    rw [cmp, cmp, cmpFactors_eq_compareLex, cmpFactors_eq_compareLex]
    exact OrientedCmp.eq_swap
  isLE_trans {a b c} := by
    rw [cmp, cmp, cmp, cmpFactors_eq_compareLex, cmpFactors_eq_compareLex, cmpFactors_eq_compareLex]
    exact TransCmp.isLE_trans

end Monomial

namespace Polynomial

/-- Compares two terms: first the monomials, then the coefficients. -/
def cmpTerm : Term → Term → Ordering :=
  compareLex (fun s t => s.1.cmp t.1) fun s t => compare s.2 t.2

instance : TransCmp cmpTerm :=
  have : TransCmp fun s t : Term => s.1.cmp t.1 :=
    { eq_swap := OrientedCmp.eq_swap, isLE_trans := TransCmp.isLE_trans }
  have : TransCmp fun s t : Term => compare s.2 t.2 :=
    { eq_swap := OrientedCmp.eq_swap, isLE_trans := TransCmp.isLE_trans }
  inferInstanceAs (TransCmp (compareLex _ _))

theorem cmpTerms_eq_compareLex (l r : List Term) :
    cmpTerms l r = List.compareLex cmpTerm l r := by
  fun_induction cmpTerms l r with
  | case1 => rfl
  | case2 => rfl
  | case3 => rfl
  | case4 m a left n b right h hlt =>
    rw [List.compareLex_cons_cons, cmpTerm, compareLex, h, compare_lt_iff_lt.2 hlt]
    rfl
  | case5 m a left n b right h hlt hgt =>
    rw [List.compareLex_cons_cons, cmpTerm, compareLex, h, compare_gt_iff_gt.2 hgt]
    rfl
  | case6 m a left n b right h hlt hgt ih =>
    have heq : a = b := le_antisymm (not_lt.1 hgt) (not_lt.1 hlt)
    rw [List.compareLex_cons_cons, cmpTerm, compareLex, h, compare_eq_iff_eq.2 heq, ih]
    rfl
  | case7 m a left n b right h =>
    rw [List.compareLex_cons_cons, cmpTerm, compareLex]
    cases hmn : m.cmp n with
    | eq => exact absurd hmn h
    | lt => rfl
    | gt => rfl

instance : TransCmp cmp where
  eq_swap {a b} := by
    rw [cmp, cmp, cmpTerms_eq_compareLex, cmpTerms_eq_compareLex]
    exact OrientedCmp.eq_swap
  isLE_trans {a b c} := by
    rw [cmp, cmp, cmp, cmpTerms_eq_compareLex, cmpTerms_eq_compareLex, cmpTerms_eq_compareLex]
    exact TransCmp.isLE_trans

end Polynomial

namespace RationalFunction

instance : TransCmp cmp :=
  have : TransCmp fun f g : RationalFunction => f.numerator.cmp g.numerator :=
    { eq_swap := OrientedCmp.eq_swap, isLE_trans := TransCmp.isLE_trans }
  have : TransCmp fun f g : RationalFunction => f.denominator.cmp g.denominator :=
    { eq_swap := OrientedCmp.eq_swap, isLE_trans := TransCmp.isLE_trans }
  inferInstanceAs (TransCmp (compareLex _ _))

end RationalFunction
end MarkovCheck

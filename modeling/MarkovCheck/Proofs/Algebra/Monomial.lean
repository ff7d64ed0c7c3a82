import Mathlib
import MarkovCheck.Algebra.Monomial

/-!
# MarkovCheck.Proofs.Algebra.Monomial

Monomials as finitely supported functions.

`Monomial.exponents` reads the list of factors as the function that gives every parameter its
exponent. On reduced monomials it is injective, it turns products into sums, and the order of
monomials becomes the lexicographic order of functions.

* `exponents_mul`   — the product adds exponents.
* `exponents_inj`   — reduced monomials with equal exponents are equal.
* `cmp_eq_compare_exponents` — `cmp` is the lexicographic comparison of the exponents.
* `isReduced_mul`, `isReduced_without` — the operations keep the stored form.
-/

namespace MarkovCheck
namespace Monomial

/-- The stored form of a list of factors. -/
def Ascending (l : List Factor) : Prop := l.Pairwise (·.1 < ·.1) ∧ ∀ f ∈ l, 0 < f.2

/-- The exponents of a list of factors; repeated parameters would add up. -/
noncomputable def exponentsOf : List Factor → Parameter →₀ ℕ
  | [] => 0
  | f :: rest => Finsupp.single f.1 f.2 + exponentsOf rest

/-- The exponents of a monomial. -/
noncomputable def exponents (m : Monomial) : Parameter →₀ ℕ := exponentsOf m.factors

/-! ## Lists of factors -/

theorem Ascending.nil : Ascending [] := ⟨.nil, by simp⟩

theorem ascending_cons {f : Factor} {l : List Factor} :
    Ascending (f :: l) ↔ (∀ g ∈ l, f.1 < g.1) ∧ 0 < f.2 ∧ Ascending l := by
  simp only [Ascending, List.pairwise_cons, List.forall_mem_cons]
  tauto

@[simp] theorem exponentsOf_nil : exponentsOf [] = 0 := rfl

@[simp] theorem exponentsOf_cons (f : Factor) (l : List Factor) :
    exponentsOf (f :: l) = Finsupp.single f.1 f.2 + exponentsOf l := rfl

theorem exponentsOf_eq_zero {x : Parameter} {l : List Factor} (h : ∀ f ∈ l, f.1 ≠ x) :
    exponentsOf l x = 0 := by
  induction l with
  | nil => rfl
  | cons f l ih =>
    rw [List.forall_mem_cons] at h
    simp [h.1, ih h.2]

/-- Below the first parameter all exponents are zero. -/
theorem exponentsOf_below {f : Factor} {l : List Factor} (h : Ascending (f :: l)) {z : Parameter}
    (hz : z < f.1) : exponentsOf (f :: l) z = 0 := by
  refine exponentsOf_eq_zero fun g hg => ?_
  rcases List.mem_cons.1 hg with rfl | hg
  · exact hz.ne'
  · exact (hz.trans ((ascending_cons.1 h).1 g hg)).ne'

theorem exponentsOf_head {f : Factor} {l : List Factor} (h : Ascending (f :: l)) :
    exponentsOf (f :: l) f.1 = f.2 := by
  have : exponentsOf l f.1 = 0 :=
    exponentsOf_eq_zero fun g hg => ((ascending_cons.1 h).1 g hg).ne'
  simp [this]

/-- The stored exponent of a parameter is the exponent. -/
theorem exponentsOf_apply {l : List Factor} (h : Ascending l) (x : Parameter) :
    exponentsOf l x = exponentIn x l := by
  induction l with
  | nil => rfl
  | cons f l ih =>
    simp only [exponentIn]
    split
    · rename_i hx
      subst hx
      exact exponentsOf_head h
    · rename_i hx
      rw [← ih (ascending_cons.1 h).2.2]
      simp [Ne.symm hx]

/-! ## Products -/

theorem exponentsOf_mulFactors (l r : List Factor) :
    exponentsOf (mulFactors l r) = exponentsOf l + exponentsOf r := by
  fun_induction mulFactors l r with
  | case1 r => simp
  | case2 l _ => simp
  | case3 x j l y k r h ih => simp [ih, add_assoc]
  | case4 x j l y k r h ih =>
    obtain rfl : x = y := Std.compare_eq_iff_eq.1 h
    simp only [exponentsOf_cons, ih, Finsupp.single_add]
    abel
  | case5 x j l y k r h ih =>
    simp only [exponentsOf_cons, ih]
    abel

@[simp] theorem exponents_mul (a b : Monomial) : (a.mul b).exponents = a.exponents + b.exponents :=
  exponentsOf_mulFactors _ _

/-- Every parameter of a product occurs in one of the two lists. -/
theorem mem_mulFactors {l r : List Factor} {f : Factor} (h : f ∈ mulFactors l r) :
    (∃ g ∈ l, g.1 = f.1) ∨ ∃ g ∈ r, g.1 = f.1 := by
  fun_induction mulFactors l r with
  | case1 r => exact .inr ⟨f, h, rfl⟩
  | case2 l _ => exact .inl ⟨f, h, rfl⟩
  | case3 x j l y k r hc ih =>
    rcases List.mem_cons.1 h with rfl | h
    · exact .inl ⟨_, List.mem_cons_self, rfl⟩
    · rcases ih h with ⟨g, hg, e⟩ | hr
      · exact .inl ⟨g, List.mem_cons_of_mem _ hg, e⟩
      · exact .inr hr
  | case4 x j l y k r hc ih =>
    rcases List.mem_cons.1 h with rfl | h
    · exact .inl ⟨_, List.mem_cons_self, rfl⟩
    · rcases ih h with ⟨g, hg, e⟩ | ⟨g, hg, e⟩
      · exact .inl ⟨g, List.mem_cons_of_mem _ hg, e⟩
      · exact .inr ⟨g, List.mem_cons_of_mem _ hg, e⟩
  | case5 x j l y k r hc ih =>
    rcases List.mem_cons.1 h with rfl | h
    · exact .inr ⟨_, List.mem_cons_self, rfl⟩
    · rcases ih h with hl | ⟨g, hg, e⟩
      · exact .inl hl
      · exact .inr ⟨g, List.mem_cons_of_mem _ hg, e⟩

theorem ascending_mulFactors {l r : List Factor} (hl : Ascending l) (hr : Ascending r) :
    Ascending (mulFactors l r) := by
  fun_induction mulFactors l r with
  | case1 r => exact hr
  | case2 l _ => exact hl
  | case3 x j l y k r hc ih =>
    rw [compare_lt_iff_lt] at hc
    have hl' := ascending_cons.1 hl
    refine ascending_cons.2 ⟨fun f hf => ?_, hl'.2.1, ih hl'.2.2 hr⟩
    rcases mem_mulFactors hf with ⟨g, hg, e⟩ | ⟨g, hg, e⟩
    · exact e ▸ hl'.1 g hg
    · rcases List.mem_cons.1 hg with rfl | hg
      · exact e ▸ hc
      · exact e ▸ hc.trans ((ascending_cons.1 hr).1 g hg)
  | case4 x j l y k r hc ih =>
    obtain rfl : x = y := Std.compare_eq_iff_eq.1 hc
    have hl' := ascending_cons.1 hl
    have hr' := ascending_cons.1 hr
    refine ascending_cons.2 ⟨fun f hf => ?_, Nat.add_pos_left hl'.2.1 _, ih hl'.2.2 hr'.2.2⟩
    rcases mem_mulFactors hf with ⟨g, hg, e⟩ | ⟨g, hg, e⟩
    · exact e ▸ hl'.1 g hg
    · exact e ▸ hr'.1 g hg
  | case5 x j l y k r hc ih =>
    rw [compare_gt_iff_gt] at hc
    have hr' := ascending_cons.1 hr
    refine ascending_cons.2 ⟨fun f hf => ?_, hr'.2.1, ih hl hr'.2.2⟩
    rcases mem_mulFactors hf with ⟨g, hg, e⟩ | ⟨g, hg, e⟩
    · rcases List.mem_cons.1 hg with rfl | hg
      · exact e ▸ hc
      · exact e ▸ hc.trans ((ascending_cons.1 hl).1 g hg)
    · exact e ▸ hr'.1 g hg

theorem isReduced_mul {a b : Monomial} (ha : a.IsReduced) (hb : b.IsReduced) :
    (a.mul b).IsReduced := ascending_mulFactors ha hb

theorem isReduced_one : one.IsReduced := Ascending.nil

@[simp] theorem exponents_one : one.exponents = 0 := rfl

theorem isReduced_power (x : Parameter) (k : ℕ) : (power x k).IsReduced := by
  unfold power
  split
  · exact isReduced_one
  · exact ascending_cons.2 ⟨by simp, by simp; omega, .nil⟩

@[simp] theorem exponents_power (x : Parameter) (k : ℕ) :
    (power x k).exponents = Finsupp.single x k := by
  unfold power
  split
  · rename_i h
    simp [h]
  · simp [exponents]

/-! ## Order -/

/-- The first parameter that makes a difference decides. -/
theorem toLex_lt {a b : Parameter →₀ ℕ} (x : Parameter) (hlt : ∀ z < x, a z = b z)
    (hx : a x < b x) : toLex a < toLex b :=
  Finsupp.Lex.lt_iff.2 ⟨x, hlt, hx⟩

theorem cmpFactors_eq_compare {l r : List Factor} (hl : Ascending l) (hr : Ascending r) :
    cmpFactors l r = compare (toLex (exponentsOf l)) (toLex (exponentsOf r)) := by
  fun_induction cmpFactors l r with
  | case1 => exact (compare_eq_iff_eq.2 rfl).symm
  | case2 f l =>
    refine (compare_gt_iff_gt.2 (toLex_lt f.1 (fun z hz => ?_) ?_)).symm
    · simp only [exponentsOf_nil, exponentsOf_below hl hz, Finsupp.coe_zero, Pi.zero_apply]
    · rw [exponentsOf_head hl]
      exact (ascending_cons.1 hl).2.1
  | case3 f r =>
    refine (compare_lt_iff_lt.2 (toLex_lt f.1 (fun z hz => ?_) ?_)).symm
    · simp only [exponentsOf_nil, exponentsOf_below hr hz, Finsupp.coe_zero, Pi.zero_apply]
    · rw [exponentsOf_head hr]
      exact (ascending_cons.1 hr).2.1
  | case4 x j l y k r h =>
    rw [compare_lt_iff_lt] at h
    refine (compare_gt_iff_gt.2 (toLex_lt x (fun z hz => ?_) ?_)).symm
    · rw [exponentsOf_below hl hz, exponentsOf_below hr (hz.trans h)]
    · rw [exponentsOf_below hr h, exponentsOf_head hl]
      exact (ascending_cons.1 hl).2.1
  | case5 x j l y k r h =>
    rw [compare_gt_iff_gt] at h
    refine (compare_lt_iff_lt.2 (toLex_lt y (fun z hz => ?_) ?_)).symm
    · rw [exponentsOf_below hr hz, exponentsOf_below hl (hz.trans h)]
    · rw [exponentsOf_below hl h, exponentsOf_head hr]
      exact (ascending_cons.1 hr).2.1
  | case6 x j l y k r h hjk ih =>
    obtain rfl : x = y := Std.compare_eq_iff_eq.1 h
    obtain rfl : j = k := Std.compare_eq_iff_eq.1 hjk
    rw [ih (ascending_cons.1 hl).2.2 (ascending_cons.1 hr).2.2]
    rw [exponentsOf_cons, exponentsOf_cons, toLex_add, toLex_add, ← cmp_eq_compare,
      ← cmp_eq_compare, cmp_add_left]
  | case7 x j l y k r h hjk =>
    obtain rfl : x = y := Std.compare_eq_iff_eq.1 h
    have hbelow : ∀ z < x, exponentsOf ((x, j) :: l) z = exponentsOf ((x, k) :: r) z :=
      fun z hz => by rw [exponentsOf_below hl hz, exponentsOf_below hr hz]
    have hjx : exponentsOf ((x, j) :: l) x = j := exponentsOf_head hl
    have hkx : exponentsOf ((x, k) :: r) x = k := exponentsOf_head hr
    rcases lt_trichotomy j k with hlt | rfl | hgt
    · rw [compare_lt_iff_lt.2 hlt, compare_lt_iff_lt.2 (toLex_lt x hbelow (by rwa [hjx, hkx]))]
    · exact absurd (compare_eq_iff_eq.2 rfl) hjk
    · rw [compare_gt_iff_gt.2 hgt,
        compare_gt_iff_gt.2 (toLex_lt x (fun z hz => (hbelow z hz).symm) (by rwa [hjx, hkx]))]

/-- The order of reduced monomials is the lexicographic order of their exponents. -/
theorem cmp_eq_compare_exponents {a b : Monomial} (ha : a.IsReduced) (hb : b.IsReduced) :
    a.cmp b = compare (toLex a.exponents) (toLex b.exponents) := cmpFactors_eq_compare ha hb

theorem cmp_eq_lt {a b : Monomial} (ha : a.IsReduced) (hb : b.IsReduced) :
    a.cmp b = .lt ↔ toLex a.exponents < toLex b.exponents := by
  rw [cmp_eq_compare_exponents ha hb, compare_lt_iff_lt]

theorem cmp_eq_gt {a b : Monomial} (ha : a.IsReduced) (hb : b.IsReduced) :
    a.cmp b = .gt ↔ toLex b.exponents < toLex a.exponents := by
  rw [cmp_eq_compare_exponents ha hb, compare_gt_iff_gt]

/-- Lists that compare as equal are equal, whatever their form. -/
theorem eq_of_cmpFactors {l r : List Factor} (h : cmpFactors l r = .eq) : l = r := by
  fun_induction cmpFactors l r with
  | case1 => rfl
  | case2 => cases h
  | case3 => cases h
  | case4 => cases h
  | case5 => cases h
  | case6 x j l y k r hxy hjk ih =>
    obtain rfl : x = y := Std.compare_eq_iff_eq.1 hxy
    obtain rfl : j = k := Std.compare_eq_iff_eq.1 hjk
    rw [ih h]
  | case7 x j l y k r hxy hjk => exact absurd h hjk

theorem eq_of_cmp {a b : Monomial} (h : a.cmp b = .eq) : a = b :=
  congrArg Monomial.mk (eq_of_cmpFactors h)

/-- Reduced monomials are determined by their exponents. -/
theorem exponents_inj {a b : Monomial} (ha : a.IsReduced) (hb : b.IsReduced)
    (h : a.exponents = b.exponents) : a = b :=
  eq_of_cmp (by rw [cmp_eq_compare_exponents ha hb, h]; exact compare_eq_iff_eq.2 rfl)

theorem exponents_apply {m : Monomial} (hm : m.IsReduced) (x : Parameter) :
    m.exponents x = m.exponent x := exponentsOf_apply hm x

theorem isOne_iff {m : Monomial} : m.isOne = true ↔ m = one := by
  cases m with
  | mk l => cases l <;> simp [isOne, one]

/-! ## Removing a parameter -/

theorem isReduced_without {m : Monomial} (hm : m.IsReduced) (x : Parameter) :
    (m.without x).IsReduced :=
  ⟨hm.1.filter _, fun f hf => hm.2 f (List.mem_of_mem_filter hf)⟩

theorem exponents_without (m : Monomial) (x : Parameter) :
    (m.without x).exponents = m.exponents.erase x := by
  unfold without exponents
  induction m.factors with
  | nil => simp
  | cons f l ih =>
    rw [exponentsOf_cons, Finsupp.erase_add, ← ih]
    by_cases h : f.1 = x
    · subst h
      simp
    · rw [List.filter_cons_of_pos (by simpa using h), exponentsOf_cons,
        Finsupp.erase_single_ne (Ne.symm h)]

/-- A parameter has a positive exponent exactly when it is listed. -/
theorem exponents_ne_zero_iff {m : Monomial} (hm : m.IsReduced) (x : Parameter) :
    m.exponents x ≠ 0 ↔ x ∈ m.factors.map (·.1) := by
  unfold exponents
  obtain ⟨l⟩ := m
  change Ascending l at hm
  induction l with
  | nil => simp
  | cons f l ih =>
    by_cases h : x = f.1
    · subst h
      simp only [exponentsOf_head hm, List.map_cons, List.mem_cons, true_or, iff_true]
      exact (ascending_cons.1 hm).2.1.ne'
    · have := ih (ascending_cons.1 hm).2.2
      simp only [exponentsOf_cons, Finsupp.coe_add, Pi.add_apply, Finsupp.single_apply,
        Ne.symm h, if_false, zero_add, List.map_cons, List.mem_cons, h, false_or]
      exact this

end Monomial
end MarkovCheck

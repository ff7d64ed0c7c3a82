import Mathlib
import MarkovCheck.Algebra.Polynomial.Gcd
import MarkovCheck.Proofs.Algebra.PseudoDivision

/-!
# MarkovCheck.Proofs.Algebra.Gcd

The computation of a greatest common divisor ends, and its result is one.

A divisor of a polynomial splits into a part without the parameter `x` and a part that is primitive
in `x`. The first divides the content and the second the primitive part. For primitive polynomials a
step of pseudo division does not change the common divisors, since a primitive polynomial is coprime
to everything without `x`.

The sequence of remainders ends because their degree in `x` falls. The contents do not contain `x`, so the
nested gcds are about fewer parameters, also where a polynomial without `x` is passed on unchanged.

* `PrimitiveIn`       — no divisor without `x` other than the units.
* `exists_primitive`  — every polynomial is a primitive one times one without `x`.
* `IsGcd`             — the divisors of a polynomial are the common divisors of two.
* `IsMonicGcd`, `IsContent`, `IsSplit`, `IsLast` — what the computations return.
* `remainderSequence_returns` — the sequence of primitive remainders ends with a gcd.
* `computeGcd_returns`, `gcd_spec` — `gcd` is a gcd with leading coefficient one.
* `gcd_computation_ends` — no computation runs on or stops with a fault.
* `gcd_greatest`      — the gcd in terms of exact division.
-/

namespace MarkovCheck

/-! ## Primitive polynomials -/

/-- Only the units among the polynomials without `x` divide `f`. -/
def PrimitiveIn (x : Parameter) (f : Mv) : Prop := ∀ c, FreeOf x c → c ∣ f → IsUnit c

/-- The divisors of `g` are the common divisors of `l` and `r`. -/
def IsGcd (g l r : Mv) : Prop := ∀ d, d ∣ g ↔ d ∣ l ∧ d ∣ r

section Primitive

variable {x : Parameter} {f g c : Mv}

theorem PrimitiveIn.of_dvd (h : PrimitiveIn x f) (hd : g ∣ f) : PrimitiveIn x g :=
  fun c hc hcg => h c hc (hcg.trans hd)

theorem PrimitiveIn.isRelPrime (h : PrimitiveIn x f) (hc : FreeOf x c) (h0 : c ≠ 0) :
    IsRelPrime f c := fun _ hdf hdc => h _ (hc.of_dvd h0 hdc) hdf

/-- A primitive divisor of a multiple by a polynomial without `x` divides the other factor. -/
theorem PrimitiveIn.dvd_of_dvd_mul (h : PrimitiveIn x f) (hc : FreeOf x c) (h0 : c ≠ 0)
    (hd : f ∣ c * g) : f ∣ g := (h.isRelPrime hc h0).dvd_of_dvd_mul_left hd

theorem freeOf_of_isUnit (h : IsUnit f) : FreeOf x f := by
  obtain ⟨c, -, rfl⟩ := Polynomial.exists_C_of_isUnit h
  exact freeOf_C x c

/-- By induction on the prime factors, which either contain `x` or do not. -/
theorem exists_primitive (x : Parameter) {f : Mv} (h0 : f ≠ 0) :
    ∃ c p, f = c * p ∧ FreeOf x c ∧ PrimitiveIn x p := by
  induction f using UniqueFactorizationMonoid.induction_on_prime with
  | h₁ => exact absurd rfl h0
  | h₂ u hu =>
    exact ⟨u, 1, (mul_one u).symm, freeOf_of_isUnit hu, fun c _ hc => isUnit_of_dvd_one hc⟩
  | h₃ f p hf hp ih =>
    obtain ⟨c, q, rfl, hc, hq⟩ := ih hf
    by_cases hx : FreeOf x p
    · exact ⟨p * c, q, by ring, hx.mul hc, hq⟩
    · refine ⟨c, p * q, by ring, hc, fun d hd hdvd => hq d hd ?_⟩
      have hd0 : d ≠ 0 := by
        rintro rfl
        exact h0 (by rw [zero_dvd_iff] at hdvd; linear_combination c * hdvd)
      have hpd : ¬ p ∣ d := fun hpd => hx (hd.of_dvd hd0 hpd)
      exact ((hp.irreducible.isRelPrime_iff_not_dvd.2 hpd).symm).dvd_of_dvd_mul_left hdvd

theorem IsGcd.symm {l r : Mv} (h : IsGcd g l r) : IsGcd g r l :=
  fun d => (h d).trans and_comm

theorem isGcd_associated {g' l r : Mv} (h : IsGcd g l r) (ha : Associated g' g) : IsGcd g' l r :=
  fun d => ha.dvd_iff_dvd_right.trans (h d)

theorem IsGcd.ne_zero {l r : Mv} (h : IsGcd g l r) (h0 : l ≠ 0 ∨ r ≠ 0) : g ≠ 0 := by
  rintro rfl
  have := (h 0).1 dvd_rfl
  rw [zero_dvd_iff, zero_dvd_iff] at this
  tauto

/-- The gcd of two polynomials from the gcds of their contents and of their primitive parts. -/
theorem isGcd_of_parts {l r cl cr pl pr gc gp : Mv} (hl : Associated (cl * pl) l)
    (hr : Associated (cr * pr) r) (hcl : FreeOf x cl) (hcr : FreeOf x cr) (hl0 : l ≠ 0)
    (hr0 : r ≠ 0) (hcl' : ∀ d, FreeOf x d → (d ∣ cl ↔ d ∣ l))
    (hcr' : ∀ d, FreeOf x d → (d ∣ cr ↔ d ∣ r)) (hgc : IsGcd gc cl cr) (hgp : IsGcd gp pl pr) :
    IsGcd (gc * gp) l r := by
  have hcl0 : cl ≠ 0 := left_ne_zero_of_mul (hl.ne_zero_iff.2 hl0)
  have hcr0 : cr ≠ 0 := left_ne_zero_of_mul (hr.ne_zero_iff.2 hr0)
  intro d
  constructor
  · intro hd
    obtain ⟨h1, h2⟩ := (hgc gc).1 dvd_rfl
    obtain ⟨h3, h4⟩ := (hgp gp).1 dvd_rfl
    exact ⟨hd.trans ((mul_dvd_mul h1 h3).trans hl.dvd), hd.trans ((mul_dvd_mul h2 h4).trans hr.dvd)⟩
  · rintro ⟨hdl, hdr⟩
    have hd0 : d ≠ 0 := by
      rintro rfl
      exact hl0 (zero_dvd_iff.1 hdl)
    obtain ⟨c, p, rfl, hc, hp⟩ := exists_primitive x hd0
    have hpl : p ∣ pl := hp.dvd_of_dvd_mul hcl hcl0
      (((dvd_mul_left p c).trans hdl).trans hl.dvd')
    have hpr : p ∣ pr := hp.dvd_of_dvd_mul hcr hcr0
      (((dvd_mul_left p c).trans hdr).trans hr.dvd')
    have hcc : c ∣ gc := (hgc c).2
      ⟨(hcl' c hc).2 ((dvd_mul_right c p).trans hdl), (hcr' c hc).2 ((dvd_mul_right c p).trans hdr)⟩
    exact mul_dvd_mul hcc ((hgp p).2 ⟨hpl, hpr⟩)

end Primitive

namespace Polynomial

theorem SupportedOn.of_cons {x : Parameter} {xs : List Parameter} {p : Polynomial}
    (h : SupportedOn (x :: xs) p) (hx : FreeOf x p.toMv) : SupportedOn xs p := by
  intro y hy
  by_cases hyx : y = x
  · exact hyx ▸ hx
  · exact h y (by simp [hyx, hy])

/-- A parameter that occurs is one of those that may. -/
theorem SupportedOn.mem {x : Parameter} {xs : List Parameter} {p : Polynomial} (h : SupportedOn xs p)
    (hp : p.IsReduced) (hx : 0 < p.degreeIn x) : x ∈ xs :=
  not_not.1 fun hnot => hx.ne' ((freeOf_iff_degreeIn hp).1 (h x hnot))

theorem supportedOn_zero (xs : List Parameter) : SupportedOn xs zero := fun y _ => freeOf_zero y

/-! ## What the computations return -/

/-- A greatest common divisor, with leading coefficient one unless both polynomials are zero. -/
structure IsMonicGcd (l r g : Polynomial) : Prop where
  isReduced : g.IsReduced
  isGcd : IsGcd g.toMv l.toMv r.toMv
  leadingCoeff : l.toMv ≠ 0 ∨ r.toMv ≠ 0 → g.leadingCoeff = 1

/-- A polynomial without `x` whose divisors are the divisors without `x` of another one. -/
structure IsContent (x : Parameter) (p c : Polynomial) : Prop where
  isReduced : c.IsReduced
  freeOf : FreeOf x c.toMv
  divisors : ∀ d, FreeOf x d → (d ∣ c.toMv ↔ d ∣ p.toMv)

/-- The content and a primitive cofactor with leading coefficient one. -/
structure IsSplit (x : Parameter) (p : Polynomial) (parts : Polynomial × Polynomial) : Prop where
  content : IsContent x p parts.1
  isReduced : parts.2.IsReduced
  leadingCoeff : parts.2.leadingCoeff = 1
  primitive : PrimitiveIn x parts.2.toMv
  product : Associated (parts.1.toMv * parts.2.toMv) p.toMv

/-- The polynomial at the end of a sequence of remainders, one for coprime polynomials, is a gcd. -/
def IsLast (a b : Polynomial) (last : Option Polynomial) : Prop :=
  (last.getD one).IsReduced ∧ IsGcd (last.getD one).toMv a.toMv b.toMv

section Results

variable {x : Parameter} {xs : List Parameter} {l r g p c a b : Polynomial}

theorem IsLast.symm {last : Option Polynomial} (h : IsLast b a last) : IsLast a b last :=
  ⟨h.1, h.2.symm⟩

theorem IsMonicGcd.symm (h : IsMonicGcd r l g) : IsMonicGcd l r g :=
  ⟨h.isReduced, h.isGcd.symm, fun h0 => h.leadingCoeff h0.symm⟩

/-- A common divisor has no parameters that the two polynomials do not have. -/
theorem IsMonicGcd.supportedOn (h : IsMonicGcd l r g) (hl : SupportedOn xs l)
    (hr : SupportedOn xs r) : SupportedOn xs g := by
  obtain ⟨hgl, hgr⟩ := (h.isGcd _).1 dvd_rfl
  by_cases hl0 : l.toMv = 0
  · by_cases hr0 : r.toMv = 0
    · have hg0 : g.toMv = 0 := zero_dvd_iff.1 ((h.isGcd 0).2 (by simp [hl0, hr0]))
      intro y _
      rw [hg0]
      exact freeOf_zero y
    · exact hr.of_dvd hr0 hgr
  · exact hl.of_dvd hl0 hgl

/-- The content of a polynomial in `x` and others is a polynomial in the others. -/
theorem IsContent.supportedOn (h : IsContent x p c) (hp : SupportedOn (x :: xs) p) :
    SupportedOn xs c := by
  refine SupportedOn.of_cons ?_ h.freeOf
  by_cases h0 : p.toMv = 0
  · have hc0 : c.toMv = 0 := zero_dvd_iff.1 ((h.divisors 0 (freeOf_zero x)).2 (h0 ▸ dvd_rfl))
    intro y _
    rw [hc0]
    exact freeOf_zero y
  · exact hp.of_dvd h0 ((h.divisors _ h.freeOf).1 dvd_rfl)

theorem IsContent.ne_zero (h : IsContent x p c) (h0 : p.toMv ≠ 0) : c.toMv ≠ 0 :=
  ne_zero_of_dvd_ne_zero h0 ((h.divisors _ h.freeOf).1 dvd_rfl)

/-- The polynomial divided by its content is primitive. -/
theorem IsContent.isSplit (h : IsContent x p c) (h0 : p.toMv ≠ 0) {q : Polynomial}
    (hq : q.IsReduced) (he : p.toMv = q.toMv * c.toMv) : IsSplit x p (c, q.monic) where
  content := h
  isReduced := isReduced_monic hq
  leadingCoeff := leadingCoeff_monic hq (left_ne_zero_of_mul (he ▸ h0))
  primitive := by
    intro d hd hdq
    have hdc : d * c.toMv ∣ c.toMv := by
      rw [h.divisors _ (hd.mul h.freeOf), he]
      exact mul_dvd_mul_right (hdq.trans (associated_monic q).dvd) _
    obtain ⟨k, hk⟩ := hdc
    refine IsUnit.of_mul_eq_one k (mul_right_cancel₀ (h.ne_zero h0) ?_)
    linear_combination -hk
  product := by
    rw [he, mul_comm q.toMv]
    exact (associated_monic q).mul_left c.toMv

variable {parts : Polynomial × Polynomial}

theorem IsSplit.supportedOn (h : IsSplit x p parts) (h0 : p.toMv ≠ 0)
    (hp : SupportedOn (x :: xs) p) : SupportedOn (x :: xs) parts.2 :=
  hp.of_dvd h0 ((dvd_mul_left _ _).trans h.product.dvd)

/-- Taking off a content without `x` does not change the degree in `x`. -/
theorem IsSplit.degreeIn (h : IsSplit x p parts) (hp : p.IsReduced) (h0 : p.toMv ≠ 0) :
    parts.2.degreeIn x = p.degreeIn x := by
  obtain ⟨u, hu⟩ := h.product
  have hne : parts.1.toMv * parts.2.toMv * u ≠ 0 := hu ▸ h0
  have hcq := left_ne_zero_of_mul hne
  have hc := inParam_ne_zero (x := x) (left_ne_zero_of_mul hcq)
  have hq := inParam_ne_zero (x := x) (right_ne_zero_of_mul hcq)
  rw [degreeIn_eq hp, degreeIn_eq h.isReduced, ← hu, map_mul, map_mul,
    Polynomial.natDegree_mul (mul_ne_zero hc hq) (inParam_ne_zero u.ne_zero),
    Polynomial.natDegree_mul hc hq, h.content.freeOf.natDegree,
    (freeOf_of_isUnit u.isUnit).natDegree, zero_add, add_zero]

/-! ## One step of the sequence of remainders -/

/-- A divisor of a primitive polynomial divides a dividend exactly when it divides the remainder. -/
theorem IsPseudoRemainder.dvd_iff (h : IsPseudoRemainder x a b r) (hb0 : b.toMv ≠ 0)
    (hprim : PrimitiveIn x b.toMv) {d : Mv} (hd : d ∣ b.toMv) : d ∣ a.toMv ↔ d ∣ r.toMv := by
  obtain ⟨k, q, hk⟩ := h.combination
  constructor
  · intro hda
    have hr : r.toMv = (inParam x b.toMv).leadingCoeff ^ k * a.toMv - q * b.toMv := by
      linear_combination -hk
    rw [hr]
    exact dvd_sub (hda.mul_left _) (hd.mul_left _)
  · intro hdr
    have hlead : (inParam x b.toMv).leadingCoeff ^ k ≠ 0 :=
      pow_ne_zero _ (Polynomial.leadingCoeff_ne_zero.2 (inParam_ne_zero hb0))
    refine (hprim.of_dvd hd).dvd_of_dvd_mul ((freeOf_leadingCoeff x b.toMv).pow k) hlead ?_
    rw [hk]
    exact dvd_add (hd.mul_left _) hdr

/-- If nothing remains, the divisor divides the dividend up to a factor without `x`. It is primitive, so
it is a gcd. -/
theorem isLast_of_zero (hb : b.IsReduced)
    (hiff : ∀ d, d ∣ b.toMv → (d ∣ a.toMv ↔ d ∣ r.toMv)) (h0 : r.toMv = 0) :
    IsLast a b (some b) :=
  ⟨hb, fun d => ⟨fun hd => ⟨(hiff d hd).2 (h0 ▸ dvd_zero d), hd⟩, And.right⟩⟩

/-- Common divisors divide a remainder without `x`, so primitive ones are units. -/
theorem isLast_of_freeOf (hiff : ∀ d, d ∣ b.toMv → (d ∣ a.toMv ↔ d ∣ r.toMv))
    (hprim : PrimitiveIn x b.toMv) (h0 : r.toMv ≠ 0) (hx : FreeOf x r.toMv) : IsLast a b none := by
  refine ⟨isReduced_one, fun d => ?_⟩
  rw [Option.getD_none, toMv_one]
  constructor
  · intro hd
    have hu := isUnit_of_dvd_one hd
    exact ⟨hu.dvd, hu.dvd⟩
  · rintro ⟨hda, hdb⟩
    have hdx : FreeOf x d := hx.of_dvd h0 ((hiff d hdb).1 hda)
    exact (hprim d hdx hdb).dvd

/-- The content of the remainder has no divisor in common with the primitive `b`, so the sequence goes on
with the primitive part. -/
theorem IsLast.of_split {last : Option Polynomial}
    (hiff : ∀ d, d ∣ b.toMv → (d ∣ a.toMv ↔ d ∣ r.toMv)) (hprim : PrimitiveIn x b.toMv)
    (h0 : r.toMv ≠ 0) (hparts : IsSplit x r parts) (h : IsLast b parts.2 last) :
    IsLast a b last := by
  refine ⟨h.1, fun d => (h.2 d).trans ?_⟩
  have hstep : d ∣ b.toMv → (d ∣ parts.2.toMv ↔ d ∣ r.toMv) := by
    intro hdb
    refine ⟨fun hd => (hd.mul_left _).trans hparts.product.dvd, fun hd => ?_⟩
    exact (hprim.of_dvd hdb).dvd_of_dvd_mul hparts.content.freeOf (hparts.content.ne_zero h0)
      (hd.trans hparts.product.dvd')
  constructor
  · rintro ⟨hdb, hdp⟩
    exact ⟨(hiff d hdb).2 ((hstep hdb).1 hdp), hdb⟩
  · rintro ⟨hda, hdb⟩
    exact ⟨hdb, (hstep hdb).2 ((hiff d hdb).1 hda)⟩

/-- The gcd of the contents and the end of the sequence, put together. -/
theorem IsMonicGcd.join {left right : Polynomial × Polynomial} {last : Option Polynomial}
    (hleft : IsSplit x l left) (hright : IsSplit x r right) (hl0 : l.toMv ≠ 0) (hr0 : r.toMv ≠ 0)
    (hc : IsMonicGcd left.1 right.1 c) (hlast : IsLast left.2 right.2 last) :
    IsMonicGcd l r (last.elim c fun b => (c.mul b).monic) := by
  have hc1 := hc.leadingCoeff (.inl (hleft.content.ne_zero hl0))
  have hgcd : IsGcd (c.toMv * (last.getD one).toMv) l.toMv r.toMv :=
    isGcd_of_parts hleft.product hright.product hleft.content.freeOf hright.content.freeOf hl0 hr0
      hleft.content.divisors hright.content.divisors hc.isGcd hlast.2
  cases last with
  | none =>
    rw [Option.getD_none, toMv_one, mul_one] at hgcd
    exact ⟨hc.isReduced, hgcd, fun _ => hc1⟩
  | some b =>
    rw [Option.getD_some, ← toMv_mul] at hgcd
    have hmul := isReduced_mul hc.isReduced hlast.1
    exact ⟨isReduced_monic hmul, isGcd_associated hgcd (associated_monic _),
      fun _ => leadingCoeff_monic hmul (hgcd.ne_zero (.inl hl0))⟩

end Results

/-! ## The cases without recursion -/

section Cases

variable {x : Parameter} {l r g p c : Polynomial}

theorem isMonicGcd_zero_left (hr : r.IsReduced) (hl0 : l.toMv = 0) : IsMonicGcd l r r.monic := by
  refine ⟨isReduced_monic hr, fun d => ?_, fun h => leadingCoeff_monic hr (by tauto)⟩
  rw [hl0, (associated_monic r).dvd_iff_dvd_right]
  exact ⟨fun h => ⟨dvd_zero d, h⟩, And.right⟩

theorem isMonicGcd_self (hl : l.IsReduced) (hl0 : l.toMv ≠ 0) : IsMonicGcd l l l.monic := by
  refine ⟨isReduced_monic hl, fun d => ?_, fun _ => leadingCoeff_monic hl hl0⟩
  rw [(associated_monic l).dvd_iff_dvd_right, and_self]

theorem isUnit_of_isConst (hp : p.IsReduced) (h : p.isConst = true) (h0 : p.toMv ≠ 0) :
    IsUnit p.toMv := by
  obtain ⟨c, hc⟩ := (isConst_iff hp).1 h
  rw [hc] at h0 ⊢
  exact isUnit_C fun hc0 => h0 (by rw [hc0, map_zero])

theorem isMonicGcd_of_isUnit (h : IsUnit l.toMv ∨ IsUnit r.toMv) : IsMonicGcd l r one := by
  refine ⟨isReduced_one, fun d => ?_, fun _ => leadingCoeff_one⟩
  rw [toMv_one]
  constructor
  · intro hd
    have hu := isUnit_of_dvd_one hd
    exact ⟨hu.dvd, hu.dvd⟩
  · rintro ⟨hdl, hdr⟩
    rcases h with h | h
    · exact (isUnit_of_dvd_unit hdl h).dvd
    · exact (isUnit_of_dvd_unit hdr h).dvd

/-- A polynomial without `x` shares with another one the divisors of the content. -/
theorem IsMonicGcd.of_content (hl : FreeOf x l.toMv) (hl0 : l.toMv ≠ 0) (hc : IsContent x r c)
    (h : IsMonicGcd l c g) : IsMonicGcd l r g := by
  refine ⟨h.isReduced, fun d => ?_, fun _ => h.leadingCoeff (.inl hl0)⟩
  rw [h.isGcd]
  constructor
  · exact fun ⟨h1, h2⟩ => ⟨h1, (hc.divisors d (hl.of_dvd hl0 h1)).1 h2⟩
  · exact fun ⟨h1, h2⟩ => ⟨h1, (hc.divisors d (hl.of_dvd hl0 h1)).2 h2⟩

/-- A polynomial whose leading monomial is the empty one has no other term. -/
theorem isConst_of_leadingTerm? (hp : p.IsReduced) {c : ℚ} (h : p.leadingTerm? = some (.one, c)) :
    p.isConst = true := by
  obtain ⟨ts⟩ := p
  obtain ⟨init, rfl⟩ : ∃ init, ts = init ++ [(.one, c)] := List.getLast?_eq_some_iff.1 h
  cases init with
  | nil => rfl
  | cons s init =>
    have hbelow : s.1.cmp .one = .lt :=
      (List.pairwise_append.1 hp.1).2.2 s List.mem_cons_self _ List.mem_cons_self
    -- No monomial is below the empty one.
    obtain ⟨⟨factors⟩, k⟩ := s
    cases factors <;> cases hbelow

/-- A polynomial that is not constant has a main parameter, and depends on it. -/
theorem exists_mainParameter? (hp : p.IsReduced) (h : p.isConst = false) :
    ∃ y, p.mainParameter? = some y ∧ 0 < p.degreeIn y := by
  cases hlead : p.leadingTerm? with
  | none =>
    rw [leadingTerm?_eq_none_iff] at hlead
    rw [hlead] at h
    cases h
  | some t =>
    obtain ⟨⟨factors⟩, c⟩ := t
    cases factors with
    | nil =>
      rw [isConst_of_leadingTerm? hp hlead] at h
      cases h
    | cons f factors =>
      have hmem := (leadingTerm?_spec hp hlead).1
      have hpos : 0 < f.2 := (hp.2 _ hmem).1.2 f List.mem_cons_self
      refine ⟨f.1, ?_, lt_of_lt_of_le ?_ (exponent_le_degreeIn hmem)⟩
      · rw [mainParameter?, hlead]
        rfl
      · simpa [Monomial.exponent, Monomial.exponentIn] using hpos

end Cases

/-! ## The computations end -/

section Computations

variable {x : Parameter} {xs : List Parameter}
  (hgcd : ∀ l r : Polynomial, l.IsReduced → r.IsReduced → SupportedOn xs l → SupportedOn xs r →
    (computeGcd l r).Returns (IsMonicGcd l r))

include hgcd

/-- The gcd of a list of coefficients divides them, and every common divisor divides it. -/
theorem contentFrom_returns {cs : List (ℕ × Polynomial)}
    (hcs : ∀ a ∈ cs, a.2.IsReduced ∧ SupportedOn xs a.2) {c : Polynomial} (hc : c.IsReduced)
    (hs : SupportedOn xs c) :
    (contentFrom c cs).Returns fun g =>
      g.IsReduced ∧ ∀ d, d ∣ g.toMv ↔ d ∣ c.toMv ∧ ∀ a ∈ cs, d ∣ a.2.toMv := by
  induction cs generalizing c with
  | nil =>
    rw [contentFrom]
    exact Computed.returns_pure ⟨hc, fun d => by simp⟩
  | cons a cs ih =>
    rw [List.forall_mem_cons] at hcs
    rw [contentFrom]
    refine (hgcd c a.2 hc hcs.1.1 hs hcs.1.2).bind fun g hg => ?_
    simp only [List.forall_mem_cons]
    split
    · rename_i h1
      rw [isOne_iff hg.isReduced] at h1
      refine Computed.returns_pure ⟨hg.isReduced, fun d =>
        ⟨fun hd => ?_, fun hd => (hg.isGcd d).2 ⟨hd.1, hd.2.1⟩⟩⟩
      have hu : IsUnit d := isUnit_of_dvd_one (h1 ▸ hd)
      exact ⟨hu.dvd, hu.dvd, fun _ _ => hu.dvd⟩
    · refine (ih hcs.2 hg.isReduced (hg.supportedOn hs hcs.1.2)).mono ?_
      rintro k ⟨hk, hdvd⟩
      refine ⟨hk, fun d => ?_⟩
      rw [hdvd, hg.isGcd, and_assoc]

variable {p : Polynomial} (hp : p.IsReduced) (hps : SupportedOn (x :: xs) p)

include hp hps

theorem computeContent_returns : (computeContent x p).Returns (IsContent x p) := by
  rw [computeContent]
  refine (contentFrom_returns hgcd (fun a ha => ⟨(toMv_coefficientsIn hp ha).1,
    supportedOn_of_mem_coefficientsIn hp hps ha⟩) isReduced_zero (supportedOn_zero xs)).mono ?_
  rintro c ⟨hc, hdvd⟩
  have hcoeff : ∀ d, d ∣ c.toMv ↔ ∀ k, d ∣ (inParam x p.toMv).coeff k := by
    intro d
    rw [hdvd, toMv_zero]
    constructor
    · rintro ⟨-, h⟩ k
      by_cases hk : (inParam x p.toMv).coeff k = 0
      · rw [hk]
        exact dvd_zero d
      · obtain ⟨a, ha⟩ := exists_mem_coefficientsIn hp hk
        have := h _ ha
        rwa [(toMv_coefficientsIn hp ha).2.2] at this
    · intro h
      refine ⟨dvd_zero d, fun a ha => ?_⟩
      rw [(toMv_coefficientsIn hp ha).2.2]
      exact h _
  refine ⟨hc, ?_, fun d hd => (hcoeff d).trans (dvd_iff_dvd_coeff hd).symm⟩
  by_cases h0 : p.toMv = 0
  · have hc0 : c.toMv = 0 := by
      rw [← zero_dvd_iff, hcoeff]
      intro k
      rw [h0, map_zero, Polynomial.coeff_zero]
    rw [hc0]
    exact freeOf_zero x
  · have hl : (inParam x p.toMv).leadingCoeff ≠ 0 :=
      Polynomial.leadingCoeff_ne_zero.2 (inParam_ne_zero h0)
    exact (freeOf_leadingCoeff x p.toMv).of_dvd hl ((hcoeff _).1 dvd_rfl _)

/-- The division by the content succeeds. -/
theorem computeParts_returns (h0 : p.toMv ≠ 0) : (computeParts x p).Returns (IsSplit x p) := by
  rw [computeParts]
  refine (computeContent_returns hgcd hp hps).bind fun c hc => ?_
  obtain ⟨hsound, hcomplete⟩ := div?_divides hp hc.isReduced (hc.ne_zero h0)
  obtain ⟨q, hq⟩ := hcomplete ((hc.divisors _ hc.freeOf).1 dvd_rfl)
  obtain ⟨hqr, hqe⟩ := hsound q hq
  rw [hq]
  exact Computed.returns_pure (hc.isSplit h0 hqr hqe)

omit hp hps in
/-- By induction on the degree of the second polynomial. -/
theorem remainderSequence_returns {a b : Polynomial} (ha : a.IsReduced) (hb : b.IsReduced)
    (has : SupportedOn (x :: xs) a) (hbs : SupportedOn (x :: xs) b) (hprim : PrimitiveIn x b.toMv)
    (hpos : 0 < b.degreeIn x) : (remainderSequence x a b).Returns (IsLast a b) := by
  induction hd : b.degreeIn x using Nat.strong_induction_on generalizing a b with
  | _ d ih =>
    rw [remainderSequence]
    refine (computeRemainder_returns ha hb hpos).bind fun r hr => ?_
    have hb0 : b.toMv ≠ 0 := by
      intro h
      rw [degreeIn_eq hb, h, map_zero, Polynomial.natDegree_zero] at hpos
      exact lt_irrefl 0 hpos
    have hiff : ∀ d, d ∣ b.toMv → (d ∣ a.toMv ↔ d ∣ r.toMv) := fun d => hr.dvd_iff hb0 hprim
    have hrs := hr.supportedOn xs has hbs
    split
    · rename_i h
      exact Computed.returns_pure (isLast_of_zero hb hiff ((isZero_iff hr.isReduced).1 h))
    · rename_i h
      rw [isZero_iff hr.isReduced] at h
      split
      · rename_i hx
        rw [← freeOf_iff_degreeIn hr.isReduced] at hx
        exact Computed.returns_pure (isLast_of_freeOf hiff hprim h hx)
      · rename_i hx
        refine (computeParts_returns hgcd hr.isReduced hrs h).bind fun parts hparts => ?_
        have hdeg := hparts.degreeIn hr.isReduced h
        have hlt := hr.degree.resolve_left h
        refine (ih _ (by omega) hb hparts.isReduced hbs (hparts.supportedOn h hrs) hparts.primitive
          (by omega) rfl).mono fun last hlast => ?_
        exact hlast.of_split hiff hprim h hparts

omit hp hps in
/-- The primitive parts of two polynomials, the one of the greater degree first. -/
theorem orderedSequence_returns {l r : Polynomial} {left right : Polynomial × Polynomial}
    (hls : SupportedOn (x :: xs) left.2) (hrs : SupportedOn (x :: xs) right.2) (hleft : IsSplit x l left)
    (hright : IsSplit x r right) (hl : 0 < left.2.degreeIn x) (hr : 0 < right.2.degreeIn x) :
    Computed.Returns (if right.2.degreeIn x ≤ left.2.degreeIn x then remainderSequence x left.2 right.2
      else remainderSequence x right.2 left.2) (IsLast left.2 right.2) := by
  split
  · exact remainderSequence_returns hgcd hleft.isReduced hright.isReduced hls hrs hright.primitive hr
  · exact (remainderSequence_returns hgcd hright.isReduced hleft.isReduced hrs hls hleft.primitive hl).mono
      fun _ hlast => hlast.symm

end Computations

/-! ## The gcd -/

/-- By induction on the number of parameters that may occur. The contents do not contain the main
parameter. -/
theorem computeGcd_returns {xs : List Parameter} {l r : Polynomial} (hl : l.IsReduced)
    (hr : r.IsReduced) (hls : SupportedOn xs l) (hrs : SupportedOn xs r) :
    (computeGcd l r).Returns (IsMonicGcd l r) := by
  induction hn : xs.length using Nat.strong_induction_on generalizing xs l r with
  | _ n ih =>
    rw [computeGcd]
    split
    · rename_i h
      exact Computed.returns_pure (isMonicGcd_zero_left hr ((isZero_iff hl).1 h))
    rename_i hl0
    rw [isZero_iff hl] at hl0
    split
    · rename_i h
      exact Computed.returns_pure (isMonicGcd_zero_left hl ((isZero_iff hr).1 h)).symm
    rename_i hr0
    rw [isZero_iff hr] at hr0
    split
    · rename_i h
      rw [Bool.or_eq_true] at h
      exact Computed.returns_pure (isMonicGcd_of_isUnit
        (h.imp (isUnit_of_isConst hl · hl0) (isUnit_of_isConst hr · hr0)))
    rename_i hconst
    split
    · rename_i h
      subst h
      exact Computed.returns_pure (isMonicGcd_self hl hl0)
    rw [Bool.not_eq_true, Bool.or_eq_false_iff] at hconst
    obtain ⟨y, hy, hydeg⟩ := exists_mainParameter? hl hconst.1
    obtain ⟨z, hz, hzdeg⟩ := exists_mainParameter? hr hconst.2
    rw [hy, hz]
    dsimp only
    have hx : (if y ≤ z then y else z) ∈ xs := by
      split
      · exact hls.mem hl hydeg
      · exact hrs.mem hr hzdeg
    generalize (if y ≤ z then y else z) = x at hx ⊢
    have hsub : ∀ u ∈ xs, u ∈ x :: xs.erase x := fun u hu =>
      (List.perm_cons_erase hx).mem_iff.1 hu
    replace hls := hls.mono hsub
    replace hrs := hrs.mono hsub
    have hgcd : ∀ l r : Polynomial, l.IsReduced → r.IsReduced → SupportedOn (xs.erase x) l →
        SupportedOn (xs.erase x) r → (computeGcd l r).Returns (IsMonicGcd l r) := by
      intro l r hl hr hls hrs
      refine ih _ ?_ hl hr hls hrs rfl
      have := List.length_erase_add_one hx
      omega
    split
    · rename_i h
      have hlx := (freeOf_iff_degreeIn hl).2 h
      refine (computeContent_returns hgcd hr hrs).bind fun c hc => ?_
      exact (hgcd l c hl hc.isReduced (hls.of_cons hlx) (hc.supportedOn hrs)).mono
        fun g hg => hg.of_content hlx hl0 hc
    rename_i hld
    split
    · rename_i h
      have hrx := (freeOf_iff_degreeIn hr).2 h
      refine (computeContent_returns hgcd hl hls).bind fun c hc => ?_
      exact (hgcd c r hc.isReduced hr (hc.supportedOn hls) (hrs.of_cons hrx)).mono
        fun g hg => (hg.symm.of_content hrx hr0 hc).symm
    rename_i hrd
    refine (computeParts_returns hgcd hl hls hl0).bind fun left hleft => ?_
    refine (computeParts_returns hgcd hr hrs hr0).bind fun right hright => ?_
    refine (hgcd _ _ hleft.content.isReduced hright.content.isReduced
      (hleft.content.supportedOn hls) (hright.content.supportedOn hrs)).bind fun c hc => ?_
    have hldeg := hleft.degreeIn hl hl0
    have hrdeg := hright.degreeIn hr hr0
    rw [← apply_ite (· >>= _)]
    refine (orderedSequence_returns hgcd (hleft.supportedOn hl0 hls) (hright.supportedOn hr0 hrs) hleft hright
      (by omega) (by omega)).bind fun last hlast => ?_
    have hjoin := IsMonicGcd.join hleft hright hl0 hr0 hc hlast
    cases last <;> exact Computed.returns_pure hjoin

theorem computeGcd_eq {l r : Polynomial} (hl : l.IsReduced) (hr : r.IsReduced) :
    computeGcd l r = pure (gcd l r) ∧ IsMonicGcd l r (gcd l r) :=
  (computeGcd_returns hl hr ((supportedOn_parameters hl).mono fun _ hy => List.mem_append_left _ hy)
    ((supportedOn_parameters hr).mono fun _ hy => List.mem_append_right _ hy)).eq_result one

/-- `gcd` is a greatest common divisor, and its leading coefficient is one unless both polynomials
are zero. -/
theorem gcd_spec {l r : Polynomial} (hl : l.IsReduced) (hr : r.IsReduced) :
    IsMonicGcd l r (gcd l r) := (computeGcd_eq hl hr).2

/-- Every computation of a gcd ends, with all those of contents, parts and remainders in it. None meets a
polynomial without a main parameter, a content that does not divide, or a divisor without the parameter,
each of which would be the result of the whole. The same holds of a content, of the parts of a polynomial
that is not zero, and of a remainder by a divisor with the parameter. -/
theorem gcd_computation_ends {l r : Polynomial} (hl : l.IsReduced) (hr : r.IsReduced) :
    computeGcd l r = pure (gcd l r) ∧
      ∀ x, computeContent x l = pure (content x l) ∧
        (l.isZero = false → computeParts x l = pure (contentAndPrimitivePart x l)) ∧
        (0 < r.degreeIn x → computeRemainder x l r = pure (pseudoRemainder x l r)) := by
  refine ⟨(computeGcd_eq hl hr).1, fun x => ?_⟩
  have hls : SupportedOn (x :: l.parameters) l :=
    (supportedOn_parameters hl).mono fun _ hy => List.mem_cons_of_mem x hy
  refine ⟨?_, fun h0 => ?_, fun hpos => ?_⟩
  · have hcontent := computeContent_returns (fun _ _ => computeGcd_returns) hl hls
    exact (hcontent.eq_result zero).1
  · rw [isZero_eq_false_iff hl] at h0
    have hparts := computeParts_returns (fun _ _ => computeGcd_returns) hl hls h0
    exact (hparts.eq_result (zero, zero)).1
  · exact ((computeRemainder_returns hl hr hpos).eq_result zero).1

/-- The gcd of `(a + b) * (a + b)` and `(a + b) * b` and what it computes on the way. -/
theorem gcd_computation_ends_sum :
    let l := ((param "a").add (param "b")).mul ((param "a").add (param "b"))
    let r := ((param "a").add (param "b")).mul (param "b")
    computeGcd l r = pure (gcd l r) ∧
      computeParts "a" l = pure (contentAndPrimitivePart "a" l) ∧
      computeRemainder "a" l r = pure (pseudoRemainder "a" l r) := by
  intro l r
  have hs : ((param "a").add (param "b")).IsReduced :=
    isReduced_add (isReduced_param "a") (isReduced_param "b")
  obtain ⟨hgcd, hnested⟩ := gcd_computation_ends (isReduced_mul hs hs)
    (isReduced_mul hs (isReduced_param "b"))
  obtain ⟨-, hparts, hremainder⟩ := hnested "a"
  exact ⟨hgcd, hparts (by decide +kernel), hremainder (by decide +kernel)⟩

/-! ## Exact division -/

/-- Exact division succeeds exactly when the divisor is not zero and divides. -/
theorem div?_isSome_iff {p d : Polynomial} (hp : p.IsReduced) (hd : d.IsReduced) :
    (p.div? d).isSome = true ↔ d.toMv ≠ 0 ∧ d.toMv ∣ p.toMv := by
  constructor
  · intro h
    obtain ⟨q, hq⟩ := Option.isSome_iff_exists.1 h
    obtain ⟨h0, -, he⟩ := (div?_eq_some hp hd).1 hq
    exact ⟨h0, q.toMv, he.trans (mul_comm _ _)⟩
  · rintro ⟨h0, hdvd⟩
    exact Option.isSome_iff_exists.2 ((div?_divides hp hd h0).2 hdvd)

/-- A divisor that is not zero divides exactly, and the quotient times the divisor is the dividend. -/
theorem exists_div?_mul {p d : Polynomial} (hp : p.IsReduced) (hd : d.IsReduced)
    (h0 : d.toMv ≠ 0) (h : d.toMv ∣ p.toMv) : ∃ q, p.div? d = some q ∧ q.mul d = p := by
  obtain ⟨q, hq⟩ := (div?_divides hp hd h0).2 h
  obtain ⟨-, hqr, he⟩ := (div?_eq_some hp hd).1 hq
  exact ⟨q, hq, toMv_inj (isReduced_mul hqr hd) hp ((toMv_mul q d).trans he.symm)⟩

/-- The gcd is zero exactly for two zeros. Otherwise its leading coefficient is one and it divides
both polynomials exactly. Every polynomial that divides both exactly divides it. -/
theorem gcd_greatest {l r : Polynomial} (hl : l.IsReduced) (hr : r.IsReduced) :
    ((gcd l r).isZero = true ↔ l.isZero = true ∧ r.isZero = true) ∧
      (¬ (l.isZero = true ∧ r.isZero = true) → (gcd l r).leadingCoeff = 1 ∧
        (∃ a, l.div? (gcd l r) = some a ∧ a.mul (gcd l r) = l) ∧
        ∃ b, r.div? (gcd l r) = some b ∧ b.mul (gcd l r) = r) ∧
      ∀ d : Polynomial, d.IsReduced → (l.div? d).isSome = true → (r.div? d).isSome = true →
        ((gcd l r).div? d).isSome = true := by
  obtain ⟨hg, hgcd, hlead⟩ := gcd_spec hl hr
  obtain ⟨hdl, hdr⟩ := (hgcd _).1 dvd_rfl
  rw [isZero_iff hg, isZero_iff hl, isZero_iff hr]
  refine ⟨⟨fun h0 => ?_, fun ⟨hl0, hr0⟩ => ?_⟩, fun hne => ?_, fun d hd hld hrd => ?_⟩
  · rw [h0, zero_dvd_iff] at hdl hdr
    exact ⟨hdl, hdr⟩
  · exact zero_dvd_iff.1 ((hgcd 0).2 ⟨by rw [hl0], by rw [hr0]⟩)
  · have hne := not_and_or.1 hne
    have hg0 := hgcd.ne_zero hne
    exact ⟨hlead hne, exists_div?_mul hl hg hg0 hdl, exists_div?_mul hr hg hg0 hdr⟩
  · obtain ⟨h0, hdvd⟩ := (div?_isSome_iff hl hd).1 hld
    exact (div?_isSome_iff hg hd).2 ⟨h0, (hgcd _).2 ⟨hdvd, ((div?_isSome_iff hr hd).1 hrd).2⟩⟩

/-- The sum of two parameters divides the gcd of `(a + b) * (a + b)` and `(a + b) * b`, which is
monic. -/
theorem gcd_greatest_sum :
    let s := (param "a").add (param "b")
    (gcd (s.mul s) (s.mul (param "b"))).leadingCoeff = 1 ∧
      ((gcd (s.mul s) (s.mul (param "b"))).div? s).isSome = true := by
  intro s
  have hb : (param "b").IsReduced := isReduced_param "b"
  have hs : s.IsReduced := isReduced_add (isReduced_param "a") hb
  have hs0 : s.toMv ≠ 0 := by
    rw [toMv_add, toMv_param, toMv_param]
    intro h
    have := congrArg (MvPolynomial.eval fun _ => (1 : ℚ)) h
    norm_num at this
  have hss := isReduced_mul hs hs
  have hsb := isReduced_mul hs hb
  obtain ⟨-, hlead, hgreatest⟩ := gcd_greatest hss hsb
  refine ⟨(hlead fun h => ?_).1, hgreatest s hs ?_ ?_⟩
  · rw [isZero_iff hss, toMv_mul] at h
    exact mul_ne_zero hs0 hs0 h.1
  · exact (div?_isSome_iff hss hs).2 ⟨hs0, by rw [toMv_mul]; exact dvd_mul_right _ _⟩
  · exact (div?_isSome_iff hsb hs).2 ⟨hs0, by rw [toMv_mul]; exact dvd_mul_right _ _⟩

end Polynomial
end MarkovCheck

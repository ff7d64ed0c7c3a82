import Mathlib
import MarkovCheck.Proofs.Algebra.RationalFunction

/-!
# MarkovCheck.Proofs.Algebra.Computation

Whatever is computed with rational functions is in canonical form.

Mathematical meaning: a computation starts from fractions of polynomials, polynomials, numbers and
parameters, and adds, subtracts, multiplies, negates and divides. It denotes an element of the field
(`value`). The machine refuses to divide by zero only, and otherwise stores the one canonical
function that denotes this element. So stored functions are compared by comparing their parts.

* `Computation`   — the operations on rational functions as a tree.
* `run`, `value`  — the stored result, and the element of the field.
* `run_spec`      — a successful run gives the canonical function of the value.
* `run_canonical` — the canonical form in terms of the numerator and the denominator.
-/

namespace MarkovCheck

/-- A computation with rational functions. -/
inductive Computation where
  | fraction (numerator denominator : Polynomial)
  | polynomial (p : Polynomial)
  | const (q : ℚ)
  | param (x : Parameter)
  | add (a b : Computation)
  | sub (a b : Computation)
  | mul (a b : Computation)
  | neg (a : Computation)
  | div (a b : Computation)

namespace Computation

/-- The stored result of an operation on two results, the left one first. -/
def combine (f : RationalFunction → RationalFunction → Except NumberError RationalFunction) :
    Except NumberError RationalFunction → Except NumberError RationalFunction →
      Except NumberError RationalFunction
  | .ok x, .ok y => f x y
  | .error err, _ => .error err
  | _, .error err => .error err

/-- The stored result. -/
def run : Computation → Except NumberError RationalFunction
  | .fraction n d => RationalFunction.ofFraction? n d
  | .polynomial p => .ok (.ofPolynomial p)
  | .const q => .ok (.const q)
  | .param x => .ok (.param x)
  | .add a b => combine (fun f g => .ok (f.add g)) a.run b.run
  | .sub a b => combine (fun f g => .ok (f.sub g)) a.run b.run
  | .mul a b => combine (fun f g => .ok (f.mul g)) a.run b.run
  | .neg a => a.run.map RationalFunction.neg
  | .div a b => combine RationalFunction.div? a.run b.run

/-- The element of the field; a quotient by zero counts as zero. -/
noncomputable def value : Computation → Frac
  | .fraction n d => toField n.toMv / toField d.toMv
  | .polynomial p => toField p.toMv
  | .const q => toField (MvPolynomial.C q)
  | .param x => toField (MvPolynomial.X x)
  | .add a b => a.value + b.value
  | .sub a b => a.value - b.value
  | .mul a b => a.value * b.value
  | .neg a => -a.value
  | .div a b => a.value / b.value

/-- The polynomials that a computation starts from are in their stored form. -/
def IsReduced : Computation → Prop
  | .fraction n d => n.IsReduced ∧ d.IsReduced
  | .polynomial p => p.IsReduced
  | .const _ | .param _ => True
  | .add a b | .sub a b | .mul a b | .div a b => a.IsReduced ∧ b.IsReduced
  | .neg a => a.IsReduced

/-- No denominator and no divisor is zero. -/
def IsDefined : Computation → Prop
  | .fraction _ d => d.toMv ≠ 0
  | .polynomial _ | .const _ | .param _ => True
  | .add a b | .sub a b | .mul a b => a.IsDefined ∧ b.IsDefined
  | .neg a => a.IsDefined
  | .div a b => a.IsDefined ∧ b.IsDefined ∧ b.value ≠ 0

variable {c : Computation} {f g : RationalFunction}

theorem combine_eq_ok {op : RationalFunction → RationalFunction → Except NumberError RationalFunction}
    {x y : Except NumberError RationalFunction} :
    combine op x y = .ok f ↔ ∃ a b, x = .ok a ∧ y = .ok b ∧ op a b = .ok f := by
  cases x <;> cases y <;> simp [combine]

theorem ofFraction?_eq_ok {n d : Polynomial} (hd : d.IsReduced) :
    RationalFunction.ofFraction? n d = .ok f ↔ d.toMv ≠ 0 ∧ RationalFunction.ofFraction n d = f := by
  rw [RationalFunction.ofFraction?, ← Polynomial.isZero_eq_false_iff hd]
  split
  · rename_i h
    simp [h]
  · rename_i h
    simp [h]

theorem div?_eq_ok {a b : Frac} (hf : f.Denotes a) (hg : g.Denotes b) :
    (∃ h, f.div? g = .ok h) ↔ b ≠ 0 := by
  constructor
  · rintro ⟨h, hh⟩ h0
    have hz : g.isZero = true := (RationalFunction.isZero_iff hg.1).2 (hg.2.trans h0)
    simp [RationalFunction.div?, hz] at hh
  · intro h0
    obtain ⟨h, hh, -⟩ := RationalFunction.div?_spec hf hg h0
    exact ⟨h, hh⟩

/-- The result of a successful run denotes the value. -/
theorem run_denotes (hc : c.IsReduced) (h : c.run = .ok f) : f.Denotes c.value := by
  induction c generalizing f with
  | fraction n d =>
    obtain ⟨h0, rfl⟩ := (ofFraction?_eq_ok hc.2).1 h
    exact RationalFunction.ofFraction_spec hc.1 hc.2 h0
  | polynomial p =>
    cases h
    exact RationalFunction.denotes_ofPolynomial hc
  | const q =>
    cases h
    exact RationalFunction.denotes_const q
  | param x =>
    cases h
    exact RationalFunction.denotes_param x
  | add a b iha ihb =>
    obtain ⟨x, y, hx, hy, hxy⟩ := combine_eq_ok.1 h
    cases hxy
    exact RationalFunction.add_spec (iha hc.1 hx) (ihb hc.2 hy)
  | sub a b iha ihb =>
    obtain ⟨x, y, hx, hy, hxy⟩ := combine_eq_ok.1 h
    cases hxy
    exact RationalFunction.sub_spec (iha hc.1 hx) (ihb hc.2 hy)
  | mul a b iha ihb =>
    obtain ⟨x, y, hx, hy, hxy⟩ := combine_eq_ok.1 h
    cases hxy
    exact RationalFunction.mul_spec (iha hc.1 hx) (ihb hc.2 hy)
  | neg a iha =>
    rw [run] at h
    rcases hx : a.run with err | x
    · rw [hx] at h
      cases h
    · rw [hx] at h
      cases h
      exact RationalFunction.neg_spec (iha hc hx)
  | div a b iha ihb =>
    obtain ⟨x, y, hx, hy, hxy⟩ := combine_eq_ok.1 h
    have h0 := (div?_eq_ok (iha hc.1 hx) (ihb hc.2 hy)).1 ⟨f, hxy⟩
    obtain ⟨z, hz, hd⟩ := RationalFunction.div?_spec (iha hc.1 hx) (ihb hc.2 hy) h0
    cases hxy.symm.trans hz
    exact hd

theorem run_isOk_iff (hc : c.IsReduced) : (∃ f, c.run = .ok f) ↔ c.IsDefined := by
  have hpair : ∀ {a b : Computation} {op : RationalFunction → RationalFunction → RationalFunction},
      ((∃ f, a.run = .ok f) ↔ a.IsDefined) → ((∃ f, b.run = .ok f) ↔ b.IsDefined) →
      ((∃ f, combine (fun x y => .ok (op x y)) a.run b.run = .ok f) ↔
        a.IsDefined ∧ b.IsDefined) := by
    intro a b op iha ihb
    rw [← iha, ← ihb]
    constructor
    · rintro ⟨f, hf⟩
      obtain ⟨x, y, hx, hy, -⟩ := combine_eq_ok.1 hf
      exact ⟨⟨x, hx⟩, y, hy⟩
    · rintro ⟨⟨x, hx⟩, y, hy⟩
      exact ⟨op x y, combine_eq_ok.2 ⟨x, y, hx, hy, rfl⟩⟩
  induction c with
  | fraction n d => exact ⟨fun ⟨f, hf⟩ => ((ofFraction?_eq_ok hc.2).1 hf).1,
      fun h0 => ⟨_, (ofFraction?_eq_ok hc.2).2 ⟨h0, rfl⟩⟩⟩
  | polynomial p => exact ⟨fun _ => trivial, fun _ => ⟨_, rfl⟩⟩
  | const q => exact ⟨fun _ => trivial, fun _ => ⟨_, rfl⟩⟩
  | param x => exact ⟨fun _ => trivial, fun _ => ⟨_, rfl⟩⟩
  | add a b iha ihb => exact hpair (iha hc.1) (ihb hc.2)
  | sub a b iha ihb => exact hpair (iha hc.1) (ihb hc.2)
  | mul a b iha ihb => exact hpair (iha hc.1) (ihb hc.2)
  | neg a iha =>
    refine Iff.trans ?_ (iha hc)
    rw [run]
    cases a.run <;> simp [Except.map]
  | div a b iha ihb =>
    constructor
    · rintro ⟨f, hf⟩
      obtain ⟨x, y, hx, hy, hxy⟩ := combine_eq_ok.1 hf
      exact ⟨(iha hc.1).1 ⟨x, hx⟩, (ihb hc.2).1 ⟨y, hy⟩,
        (div?_eq_ok (run_denotes hc.1 hx) (run_denotes hc.2 hy)).1 ⟨f, hxy⟩⟩
    · rintro ⟨ha, hb, h0⟩
      obtain ⟨x, hx⟩ := (iha hc.1).2 ha
      obtain ⟨y, hy⟩ := (ihb hc.2).2 hb
      obtain ⟨f, hf⟩ := (div?_eq_ok (run_denotes hc.1 hx) (run_denotes hc.2 hy)).2 h0
      exact ⟨f, combine_eq_ok.2 ⟨x, y, hx, hy, hf⟩⟩

theorem denominator_of_zero (hf : f.IsCanonical) (h : f.numerator = .zero) :
    f.denominator = .one := by
  refine Polynomial.eq_of_associated hf.2.1 Polynomial.isReduced_one hf.2.2.1
    Polynomial.leadingCoeff_one ?_
  rw [Polynomial.toMv_one, associated_one_iff_isUnit]
  have hrel := hf.isRelPrime
  rw [h, Polynomial.toMv_zero] at hrel
  exact hrel (dvd_zero _) dvd_rfl

theorem eq_iff_cross (hf : f.IsCanonical) (hg : g.IsCanonical) :
    f = g ↔ f.numerator.mul g.denominator = g.numerator.mul f.denominator := by
  constructor
  · rintro rfl
    rfl
  · intro h
    refine RationalFunction.toFrac_inj hf hg ?_
    rw [RationalFunction.toFrac, RationalFunction.toFrac,
      div_eq_div_iff (toField_ne_zero hf.denominator_ne_zero)
        (toField_ne_zero hg.denominator_ne_zero), ← map_mul, ← map_mul, ← Polynomial.toMv_mul,
      ← Polynomial.toMv_mul, h]

/-- A run succeeds exactly when nothing is divided by zero. Its result then stands for the value in
the field; the gcd of its parts is one, its denominator is monic, and it is `0 / 1` if the numerator
is zero. Two results are the same stored function exactly when they are equal crosswise. -/
theorem run_canonical (hc : c.IsReduced) :
    ((∃ f, c.run = .ok f) ↔ c.IsDefined) ∧
      ∀ f, c.run = .ok f →
        toField f.numerator.toMv / toField f.denominator.toMv = c.value ∧
        Polynomial.gcd f.numerator f.denominator = .one ∧ f.denominator.leadingCoeff = 1 ∧
        (f.numerator = .zero → f.denominator = .one) ∧
        ∀ (c' : Computation) (g : RationalFunction), c'.IsReduced → c'.run = .ok g →
          (f = g ↔ f.numerator.mul g.denominator = g.numerator.mul f.denominator) := by
  refine ⟨run_isOk_iff hc, fun f hf => ?_⟩
  obtain ⟨hcan, hval⟩ := run_denotes hc hf
  exact ⟨hval, hcan.2.2.2, hcan.2.2.1, denominator_of_zero hcan,
    fun c' g hc' hg => eq_iff_cross hcan (run_denotes hc' hg).1⟩

/-- The quotient `(x * x - 1) / (x - 1)` is computed, and it is the stored function `x + 1`, with
coprime parts. -/
theorem run_canonical_quotient :
    let x : Computation := .param "x"
    let quotient := div (sub (mul x x) (const 1)) (sub x (const 1))
    ∃ f, quotient.run = .ok f ∧ (add x (const 1)).run = .ok f ∧
      Polynomial.gcd f.numerator f.denominator = .one := by
  intro x quotient
  have hreduced : quotient.IsReduced := ⟨⟨⟨trivial, trivial⟩, trivial⟩, trivial, trivial⟩
  have hne : x.value - (const 1).value ≠ 0 := by
    rw [show x.value - (const 1).value =
      toField (MvPolynomial.X "x" - MvPolynomial.C 1) from (map_sub _ _ _).symm]
    refine toField_ne_zero fun h => ?_
    have := congrArg (MvPolynomial.eval fun _ => (2 : ℚ)) h
    norm_num at this
  obtain ⟨hok, hresult⟩ := run_canonical hreduced
  obtain ⟨f, hf⟩ := hok.2 ⟨⟨⟨trivial, trivial⟩, trivial⟩, ⟨trivial, trivial⟩, hne⟩
  refine ⟨f, hf, ?_, (hresult f hf).2.1⟩
  have hsum : (add x (const 1)).run = .ok ((RationalFunction.param "x").add (.const 1)) := rfl
  have hsumReduced : (add x (const 1)).IsReduced := ⟨trivial, trivial⟩
  have hden := run_denotes hsumReduced hsum
  have hfden := run_denotes hreduced hf
  have hsame : quotient.value = (add x (const 1)).value := by
    have hone : (const 1).value = 1 := by rw [value, map_one, map_one]
    change (x.value * x.value - (const 1).value) / (x.value - (const 1).value) =
      x.value + (const 1).value
    rw [div_eq_iff hne, hone]
    ring
  rw [hsum, hden.eq (hsame ▸ hfden)]

end Computation
end MarkovCheck

import Mathlib
import MarkovCheck.Proofs.Algebra.Evaluation
import MarkovCheck.Proofs.Chain.Mass
import MarkovCheck.Proofs.Reach.Graph

/-!
# MarkovCheck.Proofs.Reach.Harmonic

The minimum principle, and systems of equations that are not singular.

A weight reads the values of a chain as positive numbers with sum one in every row. On a set that can
be left from each of its states, a function that is at least its average is not negative if it is not
outside. So a function that equals its average on the set and is zero outside is zero. This carries
over to the field of rational functions: a determinant that is not zero at one valuation is not zero.

* `nonneg_of_average_le` — the minimum principle.
* `eq_zero_of_expect`    — the homogeneous equations over the field have the zero solution only.
-/

namespace MarkovCheck
namespace Model

variable {m : Model RationalFunction} {w : RationalFunction → ℚ} {s : ℕ}
variable {K : Type*} [Field K]

/-- The values, read by a weight, are positive and sum to one in every row. -/
structure IsStochastic (m : Model RationalFunction) (w : RationalFunction → ℚ) : Prop where
  positive : ∀ s, ∀ e ∈ m.row s, 0 < w e.2
  sum_one : ∀ s < m.numStates, ((m.row s).map fun e => w e.2).sum = 1

/-- The weighted average of a function over the successors of a state. -/
def average (m : Model RationalFunction) (w : RationalFunction → ℚ) (s : ℕ) (x : ℕ → K) : K :=
  ((m.row s).map fun e => (w e.2 : K) * x e.1).sum

theorem average_congr {x y : ℕ → K} (h : ∀ e ∈ m.row s, x e.1 = y e.1) :
    m.average w s x = m.average w s y := by
  unfold average
  rw [List.map_congr_left fun e he => by rw [h e he]]

theorem average_cast [CharZero K] (m : Model RationalFunction) (w : RationalFunction → ℚ) (s : ℕ)
    (z : ℕ → ℚ) : m.average w s (fun t => (z t : K)) = (m.average w s z : ℚ) := by
  change _ = Rat.castHom K (m.average w s z)
  rw [average, average, map_list_sum, List.map_map]
  refine congrArg _ (List.map_congr_left fun e _ => ?_)
  simp

theorem average_sub (m : Model RationalFunction) (w : RationalFunction → ℚ) (s : ℕ) (x y : ℕ → K) :
    m.average w s (x - y) = m.average w s x - m.average w s y := by
  unfold average
  induction m.row s with
  | nil => simp
  | cons e row ih =>
    rw [List.map_cons, List.sum_cons, ih, List.map_cons, List.sum_cons, List.map_cons, List.sum_cons,
      Pi.sub_apply]
    ring

theorem average_neg (m : Model RationalFunction) (w : RationalFunction → ℚ) (s : ℕ) (x : ℕ → K) :
    m.average w s (-x) = -m.average w s x := by
  have h0 : m.average w s (0 : ℕ → K) = 0 := by simp [average]
  rw [← zero_sub, average_sub, h0, zero_sub]

/-! ## The minimum principle -/

variable [LinearOrder K] [IsStrictOrderedRing K]

theorem average_const (hs : m.IsStochastic w) (hlt : s < m.numStates) (c : K) :
    m.average w s (fun _ => c) = c := by
  have hcast : ((m.row s).map fun e => (w e.2 : K)).sum = 1 := by
    have := congrArg (Rat.castHom K) (hs.sum_one s hlt)
    rwa [map_list_sum, List.map_map, map_one] at this
  rw [average, List.sum_map_mul_right, hcast, one_mul]

theorem average_mono (hs : m.IsStochastic w) {x y : ℕ → K} (hle : ∀ e ∈ m.row s, x e.1 ≤ y e.1) :
    m.average w s x ≤ m.average w s y :=
  List.sum_le_sum fun e he => mul_le_mul_of_nonneg_left (hle e he) (by
    exact_mod_cast (hs.positive s e he).le)

/-- An average is at most a lower bound only when all values are the bound. -/
theorem eq_of_average_le (hs : m.IsStochastic w) (hlt : s < m.numStates) {x : ℕ → K} {c : K}
    (hle : ∀ e ∈ m.row s, c ≤ x e.1) (havg : m.average w s x ≤ c) :
    ∀ e ∈ m.row s, x e.1 = c := by
  intro e he
  have hpos : ∀ e ∈ m.row s, (0 : K) < w e.2 := fun e he => by
    exact_mod_cast hs.positive s e he
  by_contra hne
  have hsum : m.average w s (fun _ => c) < m.average w s x :=
    List.sum_lt_sum _ _ (fun e he => mul_le_mul_of_nonneg_left (hle e he) (hpos e he).le)
      ⟨e, he, mul_lt_mul_of_pos_left (lt_of_le_of_ne (hle e he) (Ne.symm hne)) (hpos e he)⟩
  rw [average_const hs hlt] at hsum
  exact absurd havg (not_le.2 hsum)

/-- A function that is at least its average on a set that can be left, and not negative where a step
leaves the set, is not negative on the set. -/
theorem nonneg_of_average_le (hs : m.IsStochastic w) {I : Finset ℕ} (hI : ∀ s ∈ I, s < m.numStates)
    {x : ℕ → K} (hx : ∀ s ∈ I, m.average w s x ≤ x s)
    (hout : ∀ s ∈ I, ∀ e ∈ m.row s, e.1 ∉ I → 0 ≤ x e.1)
    (hpath : ∀ s ∈ I, Reach.PathInto m (· ∉ I) (· ∈ I) s) : ∀ s ∈ I, 0 ≤ x s := by
  by_contra! hneg
  obtain ⟨s, hsI, hs0⟩ := hneg
  obtain ⟨a, ha, hmin⟩ := I.exists_min_image x ⟨s, hsI⟩
  have ha0 : x a < 0 := (hmin s hsI).trans_lt hs0
  -- The least value is passed on to the successors, so it never leaves the set.
  have hstuck : ∀ t, Reach.PathInto m (· ∉ I) (· ∈ I) t → t ∈ I → x t ≠ x a := by
    intro t ht
    induction ht with
    | here hnot => exact fun h => (hnot h).elim
    | @step t e _ he _ ih =>
      intro htI hta
      have hle : ∀ e ∈ m.row t, x a ≤ x e.1 := by
        intro e he
        by_cases heI : e.1 ∈ I
        · exact hmin e.1 heI
        · exact ha0.le.trans (hout t htI e he heI)
      have heq := eq_of_average_le hs (hI t htI) hle ((hx t htI).trans hta.le) e he
      refine ih (by_contra fun heI => ?_) heq
      have := hout t htI e he heI
      rw [heq] at this
      exact absurd ha0 (not_lt.2 this)
  exact hstuck a (hpath a ha) ha rfl

/-- A function that equals its average on a set that can be left, and is zero outside, is zero. -/
theorem eq_zero_of_average (hs : m.IsStochastic w) {I : Finset ℕ} (hI : ∀ s ∈ I, s < m.numStates)
    (hpath : ∀ s ∈ I, Reach.PathInto m (· ∉ I) (· ∈ I) s) {x : ℕ → K}
    (hx : ∀ s ∈ I, x s = m.average w s x) (hout : ∀ s ∉ I, x s = 0) : x = 0 := by
  funext s
  by_cases hsI : s ∈ I
  · refine le_antisymm ?_ ?_
    · have := nonneg_of_average_le hs hI (x := -x)
        (fun s hs => by rw [average_neg, ← hx s hs, Pi.neg_apply])
        (fun s _ e _ he => by rw [Pi.neg_apply, hout e.1 he, neg_zero]) hpath s hsI
      exact neg_nonneg.1 this
    · exact nonneg_of_average_le hs hI (fun s hs => (hx s hs).ge)
        (fun s _ e _ he => (hout e.1 he).ge) hpath s hsI
  · exact hout s hsI

end Model

/-! ## Over the field of rational functions -/

namespace Model

variable {m : Model RationalFunction} {w : RationalFunction → ℚ} {v : Valuation} {I : Finset ℕ}

/-- The weight reads the values of the transitions at a valuation. -/
def ReadsAt (m : Model RationalFunction) (w : RationalFunction → ℚ) (v : Valuation) : Prop :=
  ∀ s, ∀ e ∈ m.row s, EvalsTo v e.2.toFrac (w e.2)

theorem ReadsAt.mass (h : m.ReadsAt w v) (s : ℕ) (A : Set ℕ) :
    EvalsTo v (m.mass s A) (m.average w s (A.indicator 1)) := by
  classical
  refine evalsTo_sum fun e he => ?_
  rw [Rat.cast_id, Set.indicator_apply, Set.indicator_apply]
  refine (h s e he).mul ?_
  split
  · exact evalsTo_one v
  · exact evalsTo_zero v

/-- A function on a set, with the values of another function outside. -/
theorem exists_extend {R : Type*} (I : Finset ℕ) (a : I → R) (y : ℕ → R) :
    ∃ x : ℕ → R, (fun t : I => x t) = a ∧ ∀ s ∉ I, x s = y s :=
  ⟨fun s => if hs : s ∈ I then a ⟨s, hs⟩ else y s, funext fun t => dif_pos t.2, fun _ hs => dif_neg hs⟩

/-- The matrix of the homogeneous equations on a set, in the ring of elements with a value. -/
noncomputable def systemAt (h : m.ReadsAt w v) (I : Finset ℕ) : Matrix I I (regularAt v) :=
  1 - Matrix.of fun s t => ⟨m.mass s {u | u = t}, _, h.mass s {u | u = t}⟩

theorem systemAt_mulVec_frac (h : m.ReadsAt w v) {x : ℕ → Frac} (hout : ∀ s ∉ I, x s = 0) (s : I) :
    ((systemAt h I).map (regularAt v).subtype).mulVec (fun t => x t) s = x s - m.expect s x := by
  have hsum : m.expect s x = ∑ t : I, m.mass s {u | u = t} * x t :=
    (sum_row_comp RationalFunction.toFrac (c := id) fun e _ he => hout e.1 he).trans
      (Finset.sum_coe_sort I fun t => m.mass s {u | u = t} * x t).symm
  have hmap : (systemAt h I).map (regularAt v).subtype =
      1 - Matrix.of fun s t : I => m.mass s {u | u = t} := by
    ext a b
    by_cases hab : a = b <;> simp [systemAt, hab]
  rw [hmap, Matrix.sub_mulVec, Matrix.one_mulVec, Pi.sub_apply, hsum]
  rfl

theorem systemAt_mulVec_rat (h : m.ReadsAt w v) {x : ℕ → ℚ} (hout : ∀ s ∉ I, x s = 0) (s : I) :
    ((systemAt h I).map (valueAt v)).mulVec (fun t => x t) s = x s - m.average w s x := by
  have hsum : m.average w s x = ∑ t : I, m.average w s (Set.indicator {u | u = t} 1) * x t :=
    (sum_row_comp (fun f => (w f : ℚ)) (c := id) fun e _ he => hout e.1 he).trans
      (Finset.sum_coe_sort I fun t => m.average w s (Set.indicator {u | u = t} 1) * x t).symm
  have hmap : (systemAt h I).map (valueAt v) =
      1 - Matrix.of fun s t : I => m.average w s (Set.indicator {u | u = (t : ℕ)} 1) := by
    ext a b
    have hval := valueAt_eq (k := ⟨m.mass a {u | u = b}, _, h.mass a {u | u = b}⟩) (h.mass a {u | u = b})
    rw [Matrix.map_apply, systemAt, Matrix.sub_apply, map_sub, Matrix.of_apply, hval,
      Matrix.sub_apply, Matrix.of_apply]
    by_cases hab : a = b
    · rw [hab, Matrix.one_apply_eq, Matrix.one_apply_eq, map_one]
    · rw [Matrix.one_apply_ne hab, Matrix.one_apply_ne hab, map_zero]
  rw [hmap, Matrix.sub_mulVec, Matrix.one_mulVec, Pi.sub_apply, hsum]
  rfl

/-- At the valuation the system is not singular. -/
theorem det_systemAt_rat_ne_zero (h : m.ReadsAt w v) (hs : m.IsStochastic w)
    (hI : ∀ s ∈ I, s < m.numStates) (hpath : ∀ s ∈ I, Reach.PathInto m (· ∉ I) (· ∈ I) s) :
    ((systemAt h I).map (valueAt v)).det ≠ 0 := by
  classical
  intro hdet
  obtain ⟨y, hy0, hy⟩ := Matrix.exists_mulVec_eq_zero_iff.2 hdet
  obtain ⟨x, hxy, hout⟩ := exists_extend I y 0
  have hzero : x = 0 := by
    refine eq_zero_of_average hs hI hpath (fun s hsI => ?_) hout
    have := systemAt_mulVec_rat h hout ⟨s, hsI⟩
    rw [hxy, hy, Pi.zero_apply] at this
    exact sub_eq_zero.1 this.symm
  refine hy0 (hxy.symm.trans ?_)
  rw [hzero]
  rfl

/-- So it is not singular over the field. -/
theorem det_systemAt_ne_zero (h : m.ReadsAt w v) (hs : m.IsStochastic w)
    (hI : ∀ s ∈ I, s < m.numStates) (hpath : ∀ s ∈ I, Reach.PathInto m (· ∉ I) (· ∈ I) s) :
    (systemAt h I).det ≠ 0 := by
  intro hdet
  refine det_systemAt_rat_ne_zero h hs hI hpath ?_
  rw [← RingHom.mapMatrix_apply, ← RingHom.map_det, hdet, map_zero]

/-- The homogeneous equations on a set that can be left have the zero solution only. -/
theorem eq_zero_of_expect (h : m.ReadsAt w v) (hs : m.IsStochastic w)
    (hI : ∀ s ∈ I, s < m.numStates) (hpath : ∀ s ∈ I, Reach.PathInto m (· ∉ I) (· ∈ I) s)
    {x : ℕ → Frac} (hx : ∀ s ∈ I, x s = m.expect s x) (hout : ∀ s ∉ I, x s = 0) : x = 0 := by
  by_contra hne
  have hdet : ((systemAt h I).map (regularAt v).subtype).det = 0 := by
    refine Matrix.exists_mulVec_eq_zero_iff.1 ⟨fun t => x t, fun h0 => hne ?_, ?_⟩
    · funext s
      by_cases hsI : s ∈ I
      · exact congrFun h0 ⟨s, hsI⟩
      · exact hout s hsI
    · funext s
      rw [systemAt_mulVec_frac h hout, ← hx s s.2, sub_self, Pi.zero_apply]
  rw [← RingHom.mapMatrix_apply, ← RingHom.map_det] at hdet
  exact det_systemAt_ne_zero h hs hI hpath (Subtype.val_injective hdet)

/-- Numbers solve the equations on a set that can be left, with any constants and whatever they are to be
outside. -/
theorem exists_add_average_eq (h : m.ReadsAt w v) (hs : m.IsStochastic w)
    (hI : ∀ s ∈ I, s < m.numStates) (hpath : ∀ s ∈ I, Reach.PathInto m (· ∉ I) (· ∈ I) s)
    (c y : ℕ → ℚ) : ∃ x : ℕ → ℚ, (∀ s ∉ I, x s = y s) ∧ ∀ s ∈ I, x s = c s + m.average w s x := by
  classical
  have hdet := det_systemAt_rat_ne_zero h hs hI hpath
  obtain ⟨z, hz, hzout⟩ := exists_extend I (fun _ => 0) y
  obtain ⟨a, ha⟩ := (Matrix.mulVec_surjective_iff_isUnit.2
    ((Matrix.isUnit_iff_isUnit_det _).2 (isUnit_iff_ne_zero.2 hdet)))
      fun s => c s + m.average w s z
  obtain ⟨x, hx, hxout⟩ := exists_extend I a y
  refine ⟨x, hxout, fun s hsI => ?_⟩
  have hout : ∀ s ∉ I, (x - z) s = 0 := fun s hs => by
    rw [Pi.sub_apply, hxout s hs, hzout s hs, sub_self]
  have hin : (fun t : I => (x - z) t) = a := by
    funext t
    rw [Pi.sub_apply, congrFun hx t, congrFun hz t, sub_zero]
  have hsol := systemAt_mulVec_rat h hout ⟨s, hsI⟩
  have hzs : z s = 0 := congrFun hz ⟨s, hsI⟩
  rw [hin, congrFun ha ⟨s, hsI⟩, average_sub, Pi.sub_apply, hzs] at hsol
  linear_combination -hsol

/-! ## Models with distributions at a valuation -/

/-- At the valuation all transitions have positive values, and those of a state sum to one. -/
structure IsStochasticAt (m : Model RationalFunction) (v : Valuation) : Prop where
  positive : ∀ s, ∀ e ∈ m.row s, ∃ q : ℚ, 0 < q ∧ EvalsTo v e.2.toFrac q
  sum_one : ∀ s < m.numStates, EvalsTo v (m.expect s 1) 1

open scoped Classical in
/-- The value of a function at a valuation, zero if it has none. -/
noncomputable def weightAt (v : Valuation) (f : RationalFunction) : ℚ :=
  if h : ∃ q, EvalsTo v f.toFrac q then h.choose else 0

theorem weightAt_eq {f : RationalFunction} {q : ℚ} (h : EvalsTo v f.toFrac q) :
    weightAt v f = q := by
  have hex : ∃ q, EvalsTo v f.toFrac q := ⟨q, h⟩
  rw [weightAt, dif_pos hex]
  exact hex.choose_spec.unique h

theorem IsStochasticAt.readsAt (h : m.IsStochasticAt v) : m.ReadsAt (weightAt v) v := by
  intro s e he
  obtain ⟨q, -, hq⟩ := h.positive s e he
  rwa [weightAt_eq hq]

theorem IsStochasticAt.isStochastic (h : m.IsStochasticAt v) : m.IsStochastic (weightAt v) := by
  constructor
  case positive =>
    intro s e he
    obtain ⟨q, hpos, hq⟩ := h.positive s e he
    rwa [weightAt_eq hq]
  case sum_one =>
    intro s hs
    have hsum : EvalsTo v (m.expect s 1) ((m.row s).map fun e => weightAt v e.2 * 1).sum :=
      evalsTo_sum fun e he => (h.readsAt s e he).mul (evalsTo_one v)
    simpa using hsum.unique (h.sum_one s hs)

/-- A set into which there is a transition has a positive mass at the valuation. -/
theorem IsStochasticAt.mass_pos (h : m.IsStochasticAt v) {s : ℕ} {A : Set ℕ}
    (hA : ∃ e ∈ m.row s, e.1 ∈ A) : ∃ q : ℚ, 0 < q ∧ EvalsTo v (m.mass s A) q := by
  classical
  refine ⟨_, ?_, h.readsAt.mass s A⟩
  have hpos := h.isStochastic.positive s
  obtain ⟨e, he, heA⟩ := hA
  have hlt : ((m.row s).map fun _ => (0 : ℚ)).sum <
      ((m.row s).map fun e => (weightAt v e.2 : ℚ) * A.indicator 1 e.1).sum := by
    refine List.sum_lt_sum _ _ (fun g hg => ?_) ⟨e, he, ?_⟩
    · exact mul_nonneg (hpos g hg).le (Set.indicator_nonneg (fun _ _ => zero_le_one) _)
    · rw [Set.indicator_of_mem heA, Pi.one_apply, mul_one]
      exact hpos e he
  rw [List.map_const', List.sum_replicate, smul_zero] at hlt
  exact hlt

/-- Values that are positive somewhere do not cancel. -/
theorem IsStochasticAt.noCancelling (h : m.IsStochasticAt v) (hc : m.IsCanonical) :
    m.NoCancelling := by
  intro s _ vs hsub hne
  have hrow : ∀ f ∈ vs, ∃ e ∈ m.row s, e.2 = f := fun f hf => List.mem_map.1 (hsub.subset hf)
  have hden := Value.sum_denotes (l := vs) fun f hf => by
    obtain ⟨e, he, rfl⟩ := hrow f hf
    exact hc.row s e he
  refine (RationalFunction.isZero_eq_false_iff hden.1).2 ?_
  rw [hden.2]
  have hval : EvalsTo v (vs.map RationalFunction.toFrac).sum (vs.map (weightAt v)).sum :=
    evalsTo_sum fun f hf => by
      obtain ⟨e, he, rfl⟩ := hrow f hf
      exact h.readsAt s e he
  refine hval.ne_zero (List.sum_pos _ (fun q hq => ?_) ?_).ne'
  · obtain ⟨f, hf, rfl⟩ := List.mem_map.1 hq
    obtain ⟨e, he, rfl⟩ := hrow f hf
    exact h.isStochastic.positive s e he
  · exact mt List.map_eq_nil_iff.1 hne

end Model
end MarkovCheck

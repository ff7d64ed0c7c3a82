import Mathlib
import MarkovCheck.Proofs.Algebra.Definedness
import MarkovCheck.Proofs.Bisim.Soundness

/-!
# MarkovCheck.Proofs.Chain.Evaluated

The chain that a parametric chain becomes at a valuation.

Every value is replaced by the constant it evaluates to. When all probabilities evaluate to positive
numbers and sum to one, the graph stays the same, and the result is a chain with constants. The
expectation of a vector that evaluates is the average of its values. A system of equations that can be
left from each of its states has a solution that evaluates, since its determinant is not zero at the
valuation.

* `Model.evaluate`    — the chain at a valuation.
* `Model.IsEvaluable` — all values of a chain evaluate, and the rows are distributions.
* `hasValue_expect`, `expect_evaluate` — expectations in both chains.
* `exists_defined_solution` — the solution of a system evaluates to that of the system at the
  valuation.
-/

namespace MarkovCheck

open Reach

namespace RationalFunction

/-- The constant that a function becomes at a valuation. -/
def constAt (v : Valuation) (f : RationalFunction) : RationalFunction := .const (f.evalOrZero v)

theorem toFrac_constAt (v : Valuation) (f : RationalFunction) :
    (f.constAt v).toFrac = ofQ (f.evalOrZero v) := (denotes_const _).2

end RationalFunction

/-- The reward model with every reward replaced by the constant it evaluates to. -/
def RewardModel.evaluate (v : Valuation) (r : RewardModel RationalFunction) :
    RewardModel RationalFunction := ⟨r.name, r.values.map (RationalFunction.constAt v)⟩

namespace Model

open RationalFunction

/-- The chain with every value replaced by the constant it evaluates to. -/
def evaluate (v : Valuation) (m : Model RationalFunction) : Model RationalFunction where
  kind := m.kind
  rows := m.rows.map fun row => row.map fun e => (e.1, e.2.constAt v)
  initial := m.initial
  labeling := m.labeling
  rewards := m.rewards.map (·.evaluate v)

/-- The rows are distributions at the valuation, and all rewards evaluate. -/
structure IsEvaluable (m : Model RationalFunction) (v : Valuation) : Prop extends
    Bisim.IsDistributionAt m v where
  reward : ∀ r ∈ m.rewards, ∀ f ∈ r.values, ∃ q, f.evalAt v = .ok q

variable {m : Model RationalFunction} {v : Valuation} {s : ℕ}

/-! ## The graph and the stored form -/

@[simp] theorem numStates_evaluate (v : Valuation) (m : Model RationalFunction) :
    (m.evaluate v).numStates = m.numStates := by
  simp [numStates, evaluate]

@[simp] theorem row_evaluate (v : Valuation) (m : Model RationalFunction) (s : ℕ) :
    (m.evaluate v).row s = (m.row s).map fun e => (e.1, e.2.constAt v) := by
  rw [row, row, evaluate, Array.getElem?_map]
  cases m.rows[s]? <;> rfl

theorem targets_evaluate (v : Valuation) (m : Model RationalFunction) (s : ℕ) :
    ((m.evaluate v).row s).map (·.1) = (m.row s).map (·.1) := by
  rw [row_evaluate, List.map_map]
  rfl

@[simp] theorem predecessors_evaluate (v : Valuation) (m : Model RationalFunction) :
    (m.evaluate v).predecessors = m.predecessors := by
  have hindex : (m.evaluate v).predecessorIndex = m.predecessorIndex := by
    simp only [predecessorIndex, edges, numStates_evaluate, targets_evaluate]
  refine Array.ext (by simp only [predecessors, Array.size_ofFn, numStates_evaluate]) fun t _ _ => ?_
  simp only [predecessors, Array.getElem_ofFn, hindex]

theorem IsEvaluable.evalOrZero_pos (h : m.IsEvaluable v) {e : ℕ × RationalFunction}
    (he : e ∈ m.row s) : 0 < e.2.evalOrZero v := by
  obtain ⟨q, hpos, hq⟩ := h.positive s e he
  rwa [evalOrZero_eq hq]

theorem IsEvaluable.isStochastic (h : m.IsEvaluable v) : m.IsStochastic (evalOrZero v) where
  positive _ _ he := h.evalOrZero_pos he
  sum_one := h.sum_one

theorem IsEvaluable.hasValue (h : m.IsEvaluable v) (hc : m.IsCanonical) {e : ℕ × RationalFunction}
    (he : e ∈ m.row s) : HasValue v e.2.toFrac (e.2.evalOrZero v) := by
  obtain ⟨q, -, hq⟩ := h.positive s e he
  rw [evalOrZero_eq hq]
  exact (evalAt_eq_ok_iff (hc.row s e he)).1 hq

theorem IsEvaluable.readsAt (h : m.IsEvaluable v) (hc : m.IsCanonical) :
    m.ReadsAt (evalOrZero v) v := fun _ _ he => (h.hasValue hc he).1

theorem isCanonical_evaluate (v : Valuation) (m : Model RationalFunction) :
    (m.evaluate v).IsCanonical where
  row s e he := by
    rw [row_evaluate] at he
    obtain ⟨g, -, rfl⟩ := List.mem_map.1 he
    exact (denotes_const _).1
  reward r hr f hf := by
    obtain ⟨r, -, rfl⟩ := List.mem_map.1 hr
    obtain ⟨g, -, rfl⟩ := Array.mem_map.1 hf
    exact (denotes_const _).1

theorem IsEvaluable.isConstantChain (h : m.IsEvaluable v) : IsConstantChain (m.evaluate v) where
  positive s e he := by
    rw [row_evaluate] at he
    obtain ⟨g, hg, rfl⟩ := List.mem_map.1 he
    exact ⟨_, h.evalOrZero_pos hg, rfl⟩
  sum_one s hs := by
    rw [numStates_evaluate] at hs
    have hsum := Value.sumCanonical_denotes (l := ((m.evaluate v).row s).map (·.2)) fun f hf => by
      obtain ⟨e, he, rfl⟩ := List.mem_map.1 hf
      exact (isCanonical_evaluate v m).row s e he
    have hone : ((((m.evaluate v).row s).map (·.2)).map toFrac).sum = 1 := by
      rw [← map_one ofQ, ← h.isStochastic.sum_one s hs, map_list_sum, row_evaluate, List.map_map,
        List.map_map, List.map_map]
      exact congrArg _ (List.map_congr_left fun e _ => toFrac_constAt v e.2)
    rw [hone] at hsum
    exact hsum.eq denotes_one

theorem IsEvaluable.wellFormed (h : m.IsEvaluable v) (hw : m.WellFormed) :
    (m.evaluate v).WellFormed where
  targets_ascend s := by
    rw [row_evaluate, List.pairwise_map]
    exact hw.targets_ascend s
  targets_lt s e he := by
    rw [row_evaluate] at he
    obtain ⟨g, hg, rfl⟩ := List.mem_map.1 he
    rw [numStates_evaluate]
    exact hw.targets_lt s g hg
  values_ne_zero s e he := by
    rw [row_evaluate] at he
    obtain ⟨g, hg, rfl⟩ := List.mem_map.1 he
    exact isZero_const_eq_false (h.evalOrZero_pos hg).ne'
  initial_ascend := hw.initial_ascend
  initial_lt s hs := by
    rw [numStates_evaluate]
    exact hw.initial_lt s hs
  initial_ne_nil := hw.initial_ne_nil
  labeling_size := by
    rw [numStates_evaluate]
    exact hw.labeling_size
  label_size := by
    rw [numStates_evaluate]
    exact hw.label_size
  label_names := hw.label_names
  reward_size r hr := by
    obtain ⟨w, hw', rfl⟩ := List.mem_map.1 hr
    rw [numStates_evaluate, RewardModel.evaluate, Array.size_map]
    exact hw.reward_size w hw'
  reward_names := by
    rw [evaluate, List.map_map]
    exact hw.reward_names

/-! ## Expectations -/

/-- The expectation of a vector that evaluates is the average of its values. -/
theorem IsEvaluable.hasValue_expect (h : m.IsEvaluable v) (hc : m.IsCanonical) {y : ℕ → Frac}
    {z : ℕ → ℚ} (hy : ∀ e ∈ m.row s, HasValue v (y e.1) (z e.1)) :
    HasValue v (m.expect s y) (m.average (evalOrZero v) s z) :=
  hasValue_sum fun e he => (h.hasValue hc he).mul (hy e he)

theorem expect_evaluate (v : Valuation) (m : Model RationalFunction) (s : ℕ) {y : ℕ → Frac}
    {z : ℕ → ℚ} (hy : ∀ e ∈ m.row s, y e.1 = ofQ (z e.1)) :
    (m.evaluate v).expect s y = ofQ (m.average (evalOrZero v) s z) := by
  rw [expect, average, map_list_sum, row_evaluate, List.map_map, List.map_map]
  refine congrArg _ (List.map_congr_left fun e he => ?_)
  rw [Function.comp_apply, Function.comp_apply, toFrac_constAt, hy e he, map_mul, Rat.cast_id]

/-! ## Systems of equations -/

section System

variable {I : Finset ℕ}

/-- The expectation of a vector that is zero outside a set, as a product with a matrix. -/
theorem expect_eq_sum {x : ℕ → Frac} (hout : ∀ s ∉ I, x s = 0) :
    m.expect s x = ∑ t : I, m.mass s {u | u = t} * x t :=
  (sum_row_comp RationalFunction.toFrac (c := id) fun e _ he => hout e.1 he).trans
    (Finset.sum_coe_sort I fun t => m.mass s {u | u = t} * x t).symm

theorem IsEvaluable.hasValue_mass (h : m.IsEvaluable v) (hc : m.IsCanonical) (s : ℕ) (A : Set ℕ) :
    HasValue v (m.mass s A) (m.average (evalOrZero v) s (A.indicator 1)) := by
  classical
  refine h.hasValue_expect hc fun e _ => ?_
  rw [Set.indicator_apply, Set.indicator_apply]
  split
  · exact hasValue_one v
  · exact hasValue_zero v

/-- The matrix of the equations on a set, in the ring of elements that evaluate. -/
noncomputable def definedSystem (h : m.IsEvaluable v) (hc : m.IsCanonical) (I : Finset ℕ) :
    Matrix I I (definedAt v) :=
  1 - Matrix.of fun s t =>
    ⟨m.mass s {u | u = t}, mem_definedAt.2 ⟨_, h.hasValue_mass hc s {u | u = t}⟩⟩

theorem isUnit_definedSystem (h : m.IsEvaluable v) (hc : m.IsCanonical)
    (hI : ∀ s ∈ I, s < m.numStates) (hpath : ∀ s ∈ I, PathInto m (· ∉ I) (· ∈ I) s) :
    IsUnit (definedSystem h hc I) := by
  have hreads := h.readsAt hc
  have hmap : (definedSystem h hc I).map (definedValue v) =
      (systemAt hreads I).map (valueAt v) := by
    ext a b
    by_cases hab : a = b
    · simp [definedSystem, systemAt, definedValue, hab]
      rfl
    · simp [definedSystem, systemAt, definedValue, hab]
      rfl
  rw [Matrix.isUnit_iff_isUnit_det]
  refine isUnit_of_definedValue ?_
  rw [RingHom.map_det, RingHom.mapMatrix_apply, hmap]
  exact det_systemAt_rat_ne_zero hreads h.isStochastic hI hpath

theorem definedSystem_mulVec (h : m.IsEvaluable v) (hc : m.IsCanonical) {a : I → definedAt v}
    {x : ℕ → Frac} (hin : ∀ t : I, x t = a t) (hout : ∀ s ∉ I, x s = 0) (s : I) :
    ((definedSystem h hc I).mulVec a s : Frac) = x s - m.expect s x := by
  rw [definedSystem, Matrix.sub_mulVec, Matrix.one_mulVec, Pi.sub_apply, AddSubgroupClass.coe_sub,
    hin s, expect_eq_sum hout, Matrix.mulVec, dotProduct, AddSubmonoidClass.coe_finsetSum]
  exact congrArg _ (Finset.sum_congr rfl fun t _ => by rw [hin t]; rfl)

/-- On a set that can be left from each of its states the equations have a solution that evaluates,
whatever it is to be outside. Its values solve the equations at the valuation. -/
theorem exists_defined_solution (h : m.IsEvaluable v) (hc : m.IsCanonical)
    (hI : ∀ s ∈ I, s < m.numStates) (hpath : ∀ s ∈ I, PathInto m (· ∉ I) (· ∈ I) s)
    {f c : ℕ → Frac} {g d : ℕ → ℚ} (hf : ∀ s, HasValue v (f s) (g s))
    (hconst : ∀ s ∈ I, HasValue v (c s) (d s)) :
    ∃ (y : ℕ → Frac) (z : ℕ → ℚ), (∀ s, HasValue v (y s) (z s)) ∧
      (∀ s ∉ I, y s = f s) ∧ (∀ s ∈ I, y s = c s + m.expect s y) ∧
      (∀ s ∉ I, z s = g s) ∧ ∀ s ∈ I, z s = d s + m.average (evalOrZero v) s z := by
  classical
  -- The values outside go to the constant side, what remains is zero outside.
  let base : ℕ → Frac := fun s => if s ∈ I then 0 else f s
  have hbase : ∀ s, HasValue v (base s) (if s ∈ I then 0 else g s) := by
    intro s
    dsimp only [base]
    split
    · exact hasValue_zero v
    · exact hf s
  obtain ⟨a, ha⟩ := Matrix.mulVec_surjective_iff_isUnit.2 (isUnit_definedSystem h hc hI hpath)
    fun s => ⟨c s + m.expect s base, mem_definedAt.2
      ⟨_, (hconst s s.2).add (h.hasValue_expect hc (z := fun t => if t ∈ I then 0 else g t)
        fun e _ => hbase e.1)⟩⟩
  obtain ⟨y, hy, hyOut⟩ := exists_extend I (fun t => (a t : Frac)) f
  have hyValue : ∀ s, ∃ q, HasValue v (y s) q := by
    intro s
    by_cases hs : s ∈ I
    · rw [show y s = a ⟨s, hs⟩ from congrFun hy ⟨s, hs⟩]
      exact mem_definedAt.1 (a ⟨s, hs⟩).2
    · rw [hyOut s hs]
      exact ⟨_, hf s⟩
  choose z hz using hyValue
  -- Outside, `y` is `base`, so the difference is the vector that was found.
  have hsol : ∀ s ∈ I, y s = c s + m.expect s y := by
    intro s hs
    have hrow := congrArg Subtype.val (congrFun ha ⟨s, hs⟩)
    rw [definedSystem_mulVec h hc (x := y - base) (fun t => ?_) fun t ht => ?_, expect_sub,
      Pi.sub_apply, show base s = 0 from if_pos hs] at hrow
    · linear_combination hrow
    · rw [Pi.sub_apply, show base t = 0 from if_pos t.2, sub_zero]
      exact congrFun hy t
    · rw [Pi.sub_apply, hyOut t ht, show base t = f t from if_neg ht, sub_self]
  refine ⟨y, z, hz, hyOut, hsol, fun s hs => ?_, fun s hs => ?_⟩
  · exact (hyOut s hs ▸ hz s).unique (hf s)
  · have heq := (hconst s hs).add (h.hasValue_expect hc (s := s) fun e _ => hz e.1)
    rw [← hsol s hs] at heq
    exact (hz s).unique heq

end System

end Model

/-! ## A coin with a parameter -/

/-- A coin that shows heads with probability `p`, tossed once. -/
def biasedCoin : Model RationalFunction where
  kind := .dtmc
  rows := #[[(1, .param "p"), (2, RationalFunction.one.sub (.param "p"))], [(1, .const 1)],
    [(2, .const 1)]]
  initial := [0]
  labeling := ⟨3, [("heads", ⟨#[false, true, false]⟩)]⟩
  rewards := [⟨"tosses", #[.const 1, .const 0, .const 0]⟩]

/-- The valuation that gives `p` the value one third. -/
def oneThird : Valuation := fun x => if x = "p" then some (1 / 3) else none

theorem biasedCoin_sides :
    (RationalFunction.param "p").IsCanonical ∧
      HasValue oneThird (RationalFunction.param "p").toFrac (1 / 3) ∧
    (RationalFunction.one.sub (.param "p")).IsCanonical ∧
      HasValue oneThird (RationalFunction.one.sub (.param "p")).toFrac (2 / 3) := by
  have hparam := RationalFunction.denotes_param "p"
  have hsub := RationalFunction.sub_spec RationalFunction.denotes_one hparam
  have heval : (RationalFunction.param "p").evalAt oneThird = .ok (1 / 3) := by decide +kernel
  have hvalue := (RationalFunction.evalAt_eq_ok_iff hparam.1).1 heval
  refine ⟨hparam.1, hvalue, hsub.1, ?_⟩
  have hdiff := (hasValue_one oneThird).sub hvalue
  rw [hparam.2] at hdiff
  rw [hsub.2]
  norm_num at hdiff ⊢
  exact hdiff

theorem biasedCoin_value : ∀ s, ∀ e ∈ biasedCoin.row s,
    e.2.IsCanonical ∧ ∃ q, 0 < q ∧ HasValue oneThird e.2.toFrac q := by
  obtain ⟨hheads, hheadsValue, htails, htailsValue⟩ := biasedCoin_sides
  have hone : (RationalFunction.const 1).IsCanonical ∧
      ∃ q, 0 < q ∧ HasValue oneThird (RationalFunction.const 1).toFrac q :=
    ⟨(RationalFunction.denotes_const 1).1, 1, one_pos,
      (RationalFunction.denotes_const 1).2 ▸ hasValue_ofQ oneThird 1⟩
  intro s e he
  rcases s with _ | _ | _ | s
  · rcases List.mem_cons.1 he with rfl | he
    · exact ⟨hheads, 1 / 3, by norm_num, hheadsValue⟩
    · obtain rfl := List.mem_singleton.1 he
      exact ⟨htails, 2 / 3, by norm_num, htailsValue⟩
  · obtain rfl := List.mem_singleton.1 he
    exact hone
  · obtain rfl := List.mem_singleton.1 he
    exact hone
  · cases he

theorem biasedCoin_isCanonical : biasedCoin.IsCanonical where
  row s e he := (biasedCoin_value s e he).1
  reward r hr v hv := by
    obtain rfl := List.mem_singleton.1 hr
    simp only [List.mem_toArray, List.mem_cons, List.not_mem_nil, or_false] at hv
    rcases hv with rfl | rfl | rfl <;> exact (RationalFunction.denotes_const _).1

theorem biasedCoin_wellFormed : biasedCoin.WellFormed where
  targets_ascend s := by rcases s with _ | _ | _ | s <;> simp [biasedCoin, Model.row]
  targets_lt s := by
    rcases s with _ | _ | _ | s <;> simp [biasedCoin, Model.row, Model.numStates]
  values_ne_zero s e he := by
    obtain ⟨hc, q, hpos, hq⟩ := biasedCoin_value s e he
    exact (RationalFunction.isZero_eq_false_iff hc).2 (hq.1.ne_zero hpos.ne')
  initial_ascend := by decide
  initial_lt := by decide
  initial_ne_nil := by decide
  labeling_size := rfl
  label_size := by decide
  label_names := by decide
  reward_size := by simp [biasedCoin, Model.numStates]
  reward_names := by decide

theorem biasedCoin_isEvaluable : biasedCoin.IsEvaluable oneThird where
  positive s e he := by
    obtain ⟨hc, q, hpos, hq⟩ := biasedCoin_value s e he
    exact ⟨q, hpos, (RationalFunction.evalAt_eq_ok_iff hc).2 hq⟩
  sum_one s hs := by
    obtain ⟨hheads, hheadsValue, htails, htailsValue⟩ := biasedCoin_sides
    have hthirds : ((1 : ℚ) / 3) + 2 / 3 = 1 := by norm_num
    rcases s with _ | _ | _ | s
    · simpa [biasedCoin, Model.row, (RationalFunction.evalAt_eq_ok_iff hheads).2 hheadsValue,
        (RationalFunction.evalAt_eq_ok_iff htails).2 htailsValue, Except.toOption] using hthirds
    · simp [biasedCoin, Model.row, RationalFunction.evalAt_const, Except.toOption]
    · simp [biasedCoin, Model.row, RationalFunction.evalAt_const, Except.toOption]
    · exact absurd hs (by simp [biasedCoin, Model.numStates])
  reward r hr f hf := by
    obtain rfl := List.mem_singleton.1 hr
    simp only [List.mem_toArray, List.mem_cons, List.not_mem_nil, or_false] at hf
    rcases hf with rfl | rfl | rfl <;> exact ⟨_, RationalFunction.evalAt_const _ _⟩

end MarkovCheck

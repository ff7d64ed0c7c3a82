import Mathlib
import MarkovCheck.Proofs.Reach.Equations

/-!
# MarkovCheck.Proofs.Reach.Until

Unbounded until: the equations it solves, and the least solution.

The two sets found in the graph fit the equations: a successor of a state of `no` that may go on lies
in `no`, a successor of a state of `yes` outside `psi` lies in `yes`. From a state in neither a path
leads to `no`, so the equations of these states have one solution. A vector that is not negative and
satisfies the equations of the definition is at least one on `yes` by the minimum principle, and then
at least the computed one everywhere.

* `untilProb_spec`               — the computed vector, for parametric chains.
* `IsConstantChain.untilProb_eq` — for constant chains it consists of numbers.
* `untilProb_least`              — they are the least solution.
-/

namespace MarkovCheck
namespace Reach

open LinearSystem

variable {m : Model RationalFunction} {w : RationalFunction → ℚ} {v : Valuation}
  {phi psi : StateSet} {s : ℕ}

/-- The states found to have probability zero. -/
def noStates (m : Model RationalFunction) (phi psi : StateSet) : StateSet :=
  prob0 m.predecessors phi psi

/-- The states found to have probability one. -/
def yesStates (m : Model RationalFunction) (phi psi : StateSet) : StateSet :=
  prob1 m.predecessors phi psi (noStates m phi psi)

/-- The other states. -/
def maybeStates (m : Model RationalFunction) (phi psi : StateSet) : List ℕ :=
  (List.range m.numStates).filter fun s =>
    !(noStates m phi psi).contains s && !(yesStates m phi psi).contains s

/-- The model and the two sets have the same states. -/
structure Fits (m : Model RationalFunction) (phi psi : StateSet) : Prop where
  wellFormed : m.WellFormed
  phi_size : phi.bits.size = m.numStates
  psi_size : psi.bits.size = m.numStates

/-! ## The states found in the graph -/

section Graph

variable (h : Fits m phi psi) (hs : s < m.numStates)
include h hs

theorem mem_noStates : (noStates m phi psi).contains s = true ↔
    ¬ PathInto m (fun t => psi.contains t = true) (fun t => phi.contains t = true) s :=
  mem_prob0 h.wellFormed h.psi_size hs

theorem mem_yesStates : (yesStates m phi psi).contains s = true ↔
    ¬ PathInto m (fun t => (noStates m phi psi).contains t = true)
      (fun t => phi.contains t = true ∧ psi.contains t = false) s :=
  mem_prob1 h.wellFormed h.phi_size h.psi_size (prob0_size h.psi_size) hs

omit h in
theorem mem_maybeStates : s ∈ maybeStates m phi psi ↔
    (noStates m phi psi).contains s = false ∧ (yesStates m phi psi).contains s = false := by
  rw [maybeStates, List.mem_filter, List.mem_range, Bool.and_eq_true, Bool.not_eq_true',
    Bool.not_eq_true', and_iff_right hs]

/-- The states from which both the target and the states of probability zero can be reached. -/
theorem mem_maybeStates_iff_path : s ∈ maybeStates m phi psi ↔
    PathInto m (fun t => psi.contains t = true) (fun t => phi.contains t = true) s ∧
      PathInto m (fun t => (noStates m phi psi).contains t = true)
        (fun t => phi.contains t = true ∧ psi.contains t = false) s := by
  rw [mem_maybeStates hs, ← Bool.not_eq_true, ← Bool.not_eq_true, mem_noStates h hs,
    mem_yesStates h hs, not_not, not_not]

omit h in
theorem yes_or_no_or_maybe : (yesStates m phi psi).contains s = true ∨
    (noStates m phi psi).contains s = true ∨ s ∈ maybeStates m phi psi := by
  rw [mem_maybeStates hs, ← Bool.not_eq_true, ← Bool.not_eq_true]
  tauto

/-- No state is in both sets. -/
theorem no_of_yes (hyes : (yesStates m phi psi).contains s = true) :
    (noStates m phi psi).contains s = false := by
  rw [← Bool.not_eq_true]
  exact fun hno => (mem_yesStates h hs).1 hyes (.here hno)

/-- The target states have probability one. -/
theorem yes_of_psi (hpsi : psi.contains s = true) : (yesStates m phi psi).contains s = true := by
  rw [mem_yesStates h hs]
  intro hpath
  cases hpath with
  | here hno => exact (mem_noStates h hs).1 hno (.here hpsi)
  | step hthrough _ _ => exact absurd hpsi (Bool.not_eq_true _ ▸ hthrough.2)

/-- States that are neither targets nor may be passed have probability zero. -/
theorem no_of_neither (hphi : phi.contains s = false) (hpsi : psi.contains s = false) :
    (noStates m phi psi).contains s = true := by
  rw [mem_noStates h hs]
  intro hpath
  cases hpath with
  | here ht => exact absurd ht (Bool.not_eq_true _ ▸ hpsi)
  | step hthrough _ _ => exact absurd hthrough (Bool.not_eq_true _ ▸ hphi)

/-- A state of probability zero that may be passed has successors of probability zero only. -/
theorem no_successor (hno : (noStates m phi psi).contains s = true)
    (hphi : phi.contains s = true) : ∀ e ∈ m.row s, (noStates m phi psi).contains e.1 = true := by
  intro e he
  rw [mem_noStates h (h.wellFormed.targets_lt s e he)]
  exact fun hpath => (mem_noStates h hs).1 hno (.step hphi he hpath)

/-- A state of probability one that is not a target may be passed. -/
theorem phi_of_yes (hyes : (yesStates m phi psi).contains s = true)
    (hpsi : psi.contains s = false) : phi.contains s = true := by
  by_contra hphi
  have := no_of_neither h hs (Bool.not_eq_true _ ▸ hphi) hpsi
  rw [no_of_yes h hs hyes] at this
  cases this

/-- A state of probability one that is not a target has successors of probability one only. -/
theorem yes_successor (hyes : (yesStates m phi psi).contains s = true)
    (hpsi : psi.contains s = false) : ∀ e ∈ m.row s, (yesStates m phi psi).contains e.1 = true := by
  intro e he
  rw [mem_yesStates h (h.wellFormed.targets_lt s e he)]
  exact fun hpath => (mem_yesStates h hs).1 hyes (.step ⟨phi_of_yes h hs hyes hpsi, hpsi⟩ he hpath)

/-- A path leaves the states of probability one that are not targets. -/
theorem path_from_yes (hyes : (yesStates m phi psi).contains s = true) {inside : ℕ → Prop}
    (hinside : ∀ t, psi.contains t = true → ¬ inside t) :
    PathInto m (fun t => ¬ inside t) inside s := by
  have hno := no_of_yes h hs hyes
  rw [← Bool.not_eq_true, mem_noStates h hs, not_not] at hno
  exact hno.exit hinside

end Graph

theorem nodup_maybeStates (m : Model RationalFunction) (phi psi : StateSet) :
    (maybeStates m phi psi).Nodup := List.nodup_range.filter _

theorem lt_of_mem_maybeStates (hs : s ∈ maybeStates m phi psi) : s < m.numStates :=
  List.mem_range.1 (List.mem_of_mem_filter hs)

/-- A path leaves the states in neither set. -/
theorem path_from_maybe (h : Fits m phi psi) (hs : s ∈ maybeStates m phi psi) {inside : ℕ → Prop}
    (hinside : ∀ t, inside t → t ∈ maybeStates m phi psi) :
    PathInto m (fun t => ¬ inside t) inside s := by
  have hlt := lt_of_mem_maybeStates hs
  have hyes := ((mem_maybeStates hlt).1 hs).2
  rw [← Bool.not_eq_true, mem_yesStates h hlt, not_not] at hyes
  refine hyes.exit fun t ht hmem => ?_
  have hmaybe := hinside t hmem
  rw [mem_maybeStates (lt_of_mem_maybeStates hmaybe), ht] at hmaybe
  cases hmaybe.1

/-! ## The equations -/

theorem stepInto_denotes (hc : m.IsCanonical) (set : StateSet) (s : ℕ) :
    (stepInto m set s).Denotes (m.mass s {t | set.contains t = true}) := by
  have hsum := Value.sumCanonical_denotes (l := ((m.row s).filter fun e => set.contains e.1).map (·.2))
    fun f hf => by
      obtain ⟨e, he, rfl⟩ := List.mem_map.1 hf
      exact hc.row s e (List.mem_of_mem_filter he)
  rw [Model.mass_eq_sum_filter, List.filter_congr (q := fun e => set.contains e.1) fun e _ => ?_]
  · exact hsum
  · exact Bool.eq_iff_iff.2 (@decide_eq_true_iff _ (Classical.propDecidable _))

theorem indicator_denotes (set : StateSet) (s : ℕ) :
    (indicator (V := RationalFunction) set s).Denotes (if set.contains s then 1 else 0) := by
  rw [indicator]
  split
  · exact RationalFunction.denotes_one
  · exact RationalFunction.denotes_zero

/-- One on the first set, zero on the second, and equal to its expectation at all other states. -/
structure SolvesUntil {R : Type*} [Zero R] [One R] (m : Model RationalFunction) (phi psi : StateSet)
    (expectation : ℕ → (ℕ → R) → R) (y : ℕ → R) : Prop where
  one : ∀ s < m.numStates, (yesStates m phi psi).contains s = true → y s = 1
  zero : ∀ s < m.numStates, (noStates m phi psi).contains s = true → y s = 0
  maybe : ∀ s ∈ maybeStates m phi psi, y s = expectation s y

/-- Splitting the expectation of a vector that is one on the first set and zero on the second. -/
theorem expect_until (h : Fits m phi psi) {y : ℕ → Frac}
    (hone : ∀ s < m.numStates, (yesStates m phi psi).contains s = true → y s = 1)
    (hzero : ∀ s < m.numStates, (noStates m phi psi).contains s = true → y s = 0) (s : ℕ) :
    m.mass s {t | (yesStates m phi psi).contains t = true} +
      m.expect s (Set.indicator {t | t ∈ maybeStates m phi psi} y) = m.expect s y := by
  classical
  rw [Model.mass, ← Model.expect_add]
  refine Model.expect_congr fun e he => ?_
  have hlt := h.wellFormed.targets_lt s e he
  rw [Pi.add_apply, Set.indicator_apply, Set.indicator_apply]
  simp only [Set.mem_ofPred_eq, mem_maybeStates hlt]
  by_cases hyes : (yesStates m phi psi).contains e.1 = true
  · simp [hyes, hone e.1 hlt hyes]
  · by_cases hno : (noStates m phi psi).contains e.1 = true
    · simp [hyes, hno, hzero e.1 hlt hno]
    · simp [hyes, hno]

/-- The computed vector is the one that solves the equations. -/
theorem untilProb_spec (h : Fits m phi psi) (hc : m.IsCanonical) (hs : m.IsStochastic w)
    (hv : m.ReadsAt w v) : ∃ R, untilProb m phi psi = .ok R ∧ R.size = m.numStates ∧
      AllCanonical R ∧
      ∀ y, SolvesUntil m phi psi m.expect y ↔ ∀ s < m.numStates, y s = vector R s := by
  obtain ⟨X, hX, hsize, hcan, hsol⟩ := replace_solution_spec h.wellFormed hc hs hv
    (nodup_maybeStates m phi psi) (fun s hs => lt_of_mem_maybeStates hs)
    (fun s hs => path_from_maybe h hs fun t ht => ht)
    (fun s => (stepInto_denotes hc (yesStates m phi psi) s).1)
    (fun s => (indicator_denotes (yesStates m phi psi) s).1)
  refine ⟨_, ?_, hsize, hcan, fun y => ?_⟩
  · unfold untilProb
    dsimp only
    split
    · rename_i e he
      cases hX.symm.trans he
    · rename_i solution he
      cases hX.symm.trans he
      rfl
  · rw [← hsol y]
    have hvalue : ∀ s, (indicator (V := RationalFunction) (yesStates m phi psi) s).toFrac =
        if (yesStates m phi psi).contains s then 1 else 0 := fun s => (indicator_denotes _ s).2
    have hstep : ∀ s, (stepInto m (yesStates m phi psi) s).toFrac = _ := fun s =>
      (stepInto_denotes hc (yesStates m phi psi) s).2
    simp only [hvalue, hstep]
    constructor
    · rintro ⟨hone, hzero, hmaybe⟩
      refine ⟨fun s hs hnot => ?_, fun s hs => ?_⟩
      · rcases yes_or_no_or_maybe hs with hyes | hno | hmem
        · rw [if_pos hyes, hone s hs hyes]
        · rw [hzero s hs hno, if_neg fun hyes => ?_]
          rw [no_of_yes h hs hyes] at hno
          cases hno
        · exact absurd hmem hnot
      · rw [expect_until h hone hzero]
        exact hmaybe s hs
    · rintro ⟨hout, hmaybe⟩
      have hone : ∀ s < m.numStates, (yesStates m phi psi).contains s = true → y s = 1 := by
        intro s hs hyes
        rw [hout s hs fun hmem => ?_, if_pos hyes]
        rw [mem_maybeStates hs, hyes] at hmem
        cases hmem.2
      have hzero : ∀ s < m.numStates, (noStates m phi psi).contains s = true → y s = 0 := by
        intro s hs hno
        rw [hout s hs fun hmem => ?_, if_neg fun hyes => ?_]
        · rw [no_of_yes h hs hyes] at hno
          cases hno
        · rw [mem_maybeStates hs, hno] at hmem
          cases hmem.1
      refine ⟨hone, hzero, fun s hs => ?_⟩
      rw [← expect_until h hone hzero]
      exact hmaybe s hs

/-! ## The least solution -/

section Least

variable {K : Type*} [Field K] [LinearOrder K] [IsStrictOrderedRing K]

/-- A vector that is not negative, one on the target, zero where the path may not go on, and equal to
its average everywhere else. -/
structure IsUntilFixpoint (m : Model RationalFunction) (w : RationalFunction → ℚ)
    (phi psi : StateSet) (x : ℕ → K) : Prop where
  nonneg : ∀ s < m.numStates, 0 ≤ x s
  target : ∀ s < m.numStates, psi.contains s = true → x s = 1
  stuck : ∀ s < m.numStates, phi.contains s = false → psi.contains s = false → x s = 0
  step : ∀ s < m.numStates, phi.contains s = true → psi.contains s = false →
    x s = m.average w s x

variable {x y : ℕ → K}

/-- Every solution is at least one on the states of probability one. -/
theorem IsUntilFixpoint.one_le (h : Fits m phi psi) (hs : m.IsStochastic w)
    (hy : IsUntilFixpoint m w phi psi y) : ∀ s < m.numStates,
    (yesStates m phi psi).contains s = true → 1 ≤ y s := by
  intro s hlt hyes
  by_cases hpsi : psi.contains s = true
  · exact (hy.target s hlt hpsi).ge
  let I := (Finset.range m.numStates).filter fun t =>
    (yesStates m phi psi).contains t = true ∧ psi.contains t = false
  have hI : ∀ t, t ∈ I ↔ t < m.numStates ∧ (yesStates m phi psi).contains t = true ∧
      psi.contains t = false := fun t => by simp [I]
  have hmem : s ∈ I := (hI s).2 ⟨hlt, hyes, Bool.not_eq_true _ ▸ hpsi⟩
  have hle := Model.nonneg_of_average_le hs (x := y - fun _ => 1) (fun t ht => ((hI t).1 ht).1)
    (fun t ht => by
      obtain ⟨h1, h2, h3⟩ := (hI t).1 ht
      rw [Model.average_sub, Model.average_const hs h1, ← hy.step t h1 (phi_of_yes h h1 h2 h3) h3,
        Pi.sub_apply])
    (fun t ht e he hnot => by
      obtain ⟨h1, h2, h3⟩ := (hI t).1 ht
      have hlt := h.wellFormed.targets_lt t e he
      have hyes := yes_successor h h1 h2 h3 e he
      have hpsi : psi.contains e.1 = true :=
        by_contra fun hpsi => hnot ((hI e.1).2 ⟨hlt, hyes, Bool.not_eq_true _ ▸ hpsi⟩)
      rw [Pi.sub_apply, hy.target e.1 hlt hpsi, sub_self])
    (fun t ht => by
      obtain ⟨h1, h2, -⟩ := (hI t).1 ht
      refine path_from_yes h h1 h2 fun u hu hmem => ?_
      rw [((hI u).1 hmem).2.2] at hu
      cases hu) s hmem
  exact sub_nonneg.1 hle

/-- A function that is at least its average on the states in neither set, and not negative on the two
sets, is not negative. -/
theorem nonneg_of_maybe (h : Fits m phi psi) (hs : m.IsStochastic w) {d : ℕ → K}
    (hmaybe : ∀ s ∈ maybeStates m phi psi, m.average w s d ≤ d s)
    (hout : ∀ s < m.numStates, s ∉ maybeStates m phi psi → 0 ≤ d s) :
    ∀ s < m.numStates, 0 ≤ d s := by
  intro s hlt
  by_cases hmem : s ∈ maybeStates m phi psi
  · refine Model.nonneg_of_average_le hs (I := (maybeStates m phi psi).toFinset)
      (fun t ht => lt_of_mem_maybeStates (List.mem_toFinset.1 ht))
      (fun t ht => hmaybe t (List.mem_toFinset.1 ht))
      (fun t ht e he hnot => hout e.1 (h.wellFormed.targets_lt t e he) fun hmem =>
        hnot (List.mem_toFinset.2 hmem))
      (fun t ht => path_from_maybe h (List.mem_toFinset.1 ht) fun u => List.mem_toFinset.1) s
      (List.mem_toFinset.2 hmem)
  · exact hout s hlt hmem

variable (h : Fits m phi psi) (hs : m.IsStochastic w)
  (hx : SolvesUntil m phi psi (m.average w) x)
include h hs hx

/-- What solves the equations found in the graph solves those of the definition. -/
theorem SolvesUntil.isUntilFixpoint : IsUntilFixpoint m w phi psi x := by
  constructor
  case nonneg =>
    refine nonneg_of_maybe h hs (fun s hs => (hx.maybe s hs).ge) fun s hlt hnot => ?_
    rcases yes_or_no_or_maybe hlt with hyes | hno | hmem
    · exact (hx.one s hlt hyes).symm ▸ zero_le_one
    · exact (hx.zero s hlt hno).ge
    · exact absurd hmem hnot
  case target => exact fun s hlt hpsi => hx.one s hlt (yes_of_psi h hlt hpsi)
  case stuck => exact fun s hlt hphi hpsi => hx.zero s hlt (no_of_neither h hlt hphi hpsi)
  case step =>
    intro s hlt hphi hpsi
    rcases yes_or_no_or_maybe hlt with hyes | hno | hmem
    · have hsucc : ∀ e ∈ m.row s, x e.1 = 1 := fun e he =>
        hx.one e.1 (h.wellFormed.targets_lt s e he) (yes_successor h hlt hyes hpsi e he)
      rw [hx.one s hlt hyes, Model.average_congr (y := fun _ => 1) hsucc, Model.average_const hs hlt]
    · have hsucc : ∀ e ∈ m.row s, x e.1 = 0 := fun e he =>
        hx.zero e.1 (h.wellFormed.targets_lt s e he) (no_successor h hlt hno hphi e he)
      rw [hx.zero s hlt hno, Model.average_congr (y := fun _ => 0) hsucc, Model.average_const hs hlt]
    · exact hx.maybe s hmem

/-- And it is at most any other solution of those. -/
theorem SolvesUntil.le (hy : IsUntilFixpoint m w phi psi y) : ∀ s < m.numStates, x s ≤ y s := by
  have hle := nonneg_of_maybe h hs (d := y - x)
    (fun s hmem => by
      have hlt := lt_of_mem_maybeStates hmem
      obtain ⟨hno, hyes⟩ := (mem_maybeStates hlt).1 hmem
      have hpsi : psi.contains s = false := by
        rw [← Bool.not_eq_true]
        exact fun hpsi => absurd (yes_of_psi h hlt hpsi) (Bool.not_eq_true _ ▸ hyes)
      have hphi : phi.contains s = true := by
        by_contra hphi
        exact absurd (no_of_neither h hlt (Bool.not_eq_true _ ▸ hphi) hpsi) (Bool.not_eq_true _ ▸ hno)
      rw [Model.average_sub, ← hy.step s hlt hphi hpsi, ← hx.maybe s hmem, Pi.sub_apply])
    (fun s hlt hnot => by
      rcases yes_or_no_or_maybe hlt with hyes | hno | hmem
      · rw [Pi.sub_apply, hx.one s hlt hyes]
        exact sub_nonneg.2 (hy.one_le h hs s hlt hyes)
      · rw [Pi.sub_apply, hx.zero s hlt hno, sub_zero]
        exact hy.nonneg s hlt
      · exact absurd hmem hnot)
  exact fun s hlt => sub_nonneg.1 (hle s hlt)

omit h hs hx in
/-- Numbers that solve the equations solve them in every field. -/
theorem SolvesUntil.cast {z : ℕ → ℚ} (hz : SolvesUntil m phi psi (m.average w) z) :
    SolvesUntil m phi psi (m.average w) fun s => (z s : K) := by
  constructor
  case one => exact fun s hlt hyes => by rw [hz.one s hlt hyes, Rat.cast_one]
  case zero => exact fun s hlt hno => by rw [hz.zero s hlt hno, Rat.cast_zero]
  case maybe => exact fun s hs => by rw [Model.average_cast, ← hz.maybe s hs]

end Least

/-! ## Constant chains -/

section Constant

/-- The value of a constant function, zero for other functions. -/
def constValue (f : RationalFunction) : ℚ := f.const?.getD 0

theorem toFrac_of_const {f : RationalFunction} {q : ℚ} (hf : f = .const q) :
    f.toFrac = RationalFunction.ofQ q ∧ constValue f = q := by
  subst hf
  have hq : (RationalFunction.const q).toFrac = RationalFunction.ofQ q :=
    (RationalFunction.denotes_const q).2
  refine ⟨hq, ?_⟩
  rw [constValue, (RationalFunction.const?_eq_some (RationalFunction.denotes_const q).1).2 hq,
    Option.getD_some]

/-- Canonical values that are numbers are stored as constants. -/
theorem eq_tabulate_const {R : Array RationalFunction} {n : ℕ} {z : ℕ → ℚ} (hsize : R.size = n)
    (hcan : AllCanonical R) (hz : ∀ s < n, RationalFunction.ofQ (z s) = vector R s) :
    R = tabulate n fun s => .const (z s) := by
  refine Array.ext (hsize.trans (tabulate_size _ _).symm) fun s h1 h2 => ?_
  have hlt : s < n := h1.trans_eq hsize
  have hconst := RationalFunction.denotes_const (z s)
  have hvalue : R[s].toFrac = (RationalFunction.const (z s)).toFrac := by
    have := hz s hlt
    rw [vector, Array.getElem?_eq_getElem h1, Option.getD_some] at this
    exact this.symm.trans hconst.2.symm
  rw [RationalFunction.toFrac_inj (hcan _ (Array.getElem_mem h1)) hconst.1 hvalue]
  have := getElem?_tabulate (fun s => RationalFunction.const (z s)) hlt
  rw [Array.getElem?_eq_getElem h2, Option.some_inj] at this
  exact this.symm

/-- All transitions have positive constants as values, and those of a state sum to one. -/
structure IsConstantChain (m : Model RationalFunction) : Prop where
  positive : ∀ s, ∀ e ∈ m.row s, ∃ q : ℚ, 0 < q ∧ e.2 = .const q
  sum_one : ∀ s < m.numStates, m.rowSum s = RationalFunction.one

variable (h : IsConstantChain m)
include h

theorem IsConstantChain.toFrac_eq : ∀ s, ∀ e ∈ m.row s,
    e.2.toFrac = RationalFunction.ofQ (constValue e.2) := by
  intro s e he
  obtain ⟨q, -, hq⟩ := h.positive s e he
  rw [(toFrac_of_const hq).1, (toFrac_of_const hq).2]

theorem IsConstantChain.readsAt (v : Valuation) : m.ReadsAt constValue v := by
  intro s e he
  rw [h.toFrac_eq s e he]
  exact RationalFunction.evalsTo_ofQ v _

theorem IsConstantChain.expect_eq (s : ℕ) (z : ℕ → ℚ) :
    m.expect s (fun t => RationalFunction.ofQ (z t)) =
      RationalFunction.ofQ (m.average constValue s z) := by
  rw [Model.expect, Model.average, map_list_sum, List.map_map]
  congr 1
  refine List.map_congr_left fun e he => ?_
  rw [h.toFrac_eq s e he, Function.comp_apply, Rat.cast_id, map_mul]

theorem IsConstantChain.isStochastic (hc : m.IsCanonical) : m.IsStochastic constValue := by
  constructor
  case positive =>
    intro s e he
    obtain ⟨q, hpos, hq⟩ := h.positive s e he
    rwa [(toFrac_of_const hq).2]
  case sum_one =>
    intro s hs
    have hsum := Value.sumCanonical_denotes (l := (m.row s).map (·.2)) fun f hf => by
      obtain ⟨e, he, rfl⟩ := List.mem_map.1 hf
      exact hc.row s e he
    have hone : (1 : Frac) = (((m.row s).map (·.2)).map RationalFunction.toFrac).sum := by
      rw [← hsum.2, ← RationalFunction.denotes_one.2]
      exact congrArg RationalFunction.toFrac (h.sum_one s hs).symm
    refine RationalFunction.ofQ_injective ?_
    rw [map_one, hone, map_list_sum, List.map_map, List.map_map]
    refine congrArg _ (List.map_congr_left fun e he => ?_)
    rw [Function.comp_apply, Function.comp_apply, h.toFrac_eq s e he]

/-- Numbers solve the equations found in the graph. -/
theorem IsConstantChain.exists_solvesUntil (hc : m.IsCanonical) (hf : Fits m phi psi) :
    ∃ z : ℕ → ℚ, SolvesUntil m phi psi (m.average constValue) z := by
  obtain ⟨z, hout, hz⟩ := Model.exists_add_average_eq (h.readsAt fun _ => none) (h.isStochastic hc)
    (I := (maybeStates m phi psi).toFinset)
    (fun s hs => lt_of_mem_maybeStates (List.mem_toFinset.1 hs))
    (fun s hs => path_from_maybe hf (List.mem_toFinset.1 hs) fun t => List.mem_toFinset.1)
    0 fun s => if (yesStates m phi psi).contains s then 1 else 0
  refine ⟨z, fun s hlt hyes => ?_, fun s hlt hno => ?_, fun s hs =>
    (hz s (List.mem_toFinset.2 hs)).trans (zero_add _)⟩
  · rw [hout s fun hmem => ?_, if_pos hyes]
    rw [List.mem_toFinset, mem_maybeStates hlt, hyes] at hmem
    cases hmem.2
  · rw [hout s fun hmem => ?_, if_neg fun hyes => ?_]
    · rw [no_of_yes hf hlt hyes] at hno
      cases hno
    · rw [List.mem_toFinset, mem_maybeStates hlt, hno] at hmem
      cases hmem.1

/-- The computed probabilities are numbers that solve the equations found in the graph. -/
theorem IsConstantChain.untilProb_eq (hc : m.IsCanonical) (hf : Fits m phi psi) :
    ∃ z : ℕ → ℚ, SolvesUntil m phi psi (m.average constValue) z ∧
      untilProb m phi psi = .ok (tabulate m.numStates fun s => .const (z s)) := by
  obtain ⟨z, hz⟩ := h.exists_solvesUntil hc hf
  obtain ⟨R, hR, hsize, hcan, hsol⟩ := untilProb_spec hf hc (h.isStochastic hc) (h.readsAt fun _ => none)
  have hfrac : SolvesUntil m phi psi m.expect fun s => RationalFunction.ofQ (z s) := by
    constructor
    case one => exact fun s hlt hyes => by rw [hz.one s hlt hyes, map_one]
    case zero => exact fun s hlt hno => by rw [hz.zero s hlt hno, map_zero]
    case maybe => exact fun s hs => by rw [h.expect_eq, ← hz.maybe s hs]
  exact ⟨z, hz, by rw [hR, ← eq_tabulate_const hsize hcan ((hsol _).1 hfrac)]⟩

/-- Unbounded until divides by zero in no constant chain. The result consists of constants, and they
are the least vector that is not negative, one on the target, zero on the states that neither are
targets nor may be passed, and equal to its average everywhere else; the least among the vectors over
any ordered field. -/
theorem untilProb_least (hw : m.WellFormed) (hc : m.IsCanonical)
    (hphi : phi.bits.size = m.numStates) (hpsi : psi.bits.size = m.numStates) :
    ∃ z : ℕ → ℚ, untilProb m phi psi = .ok (tabulate m.numStates fun s => .const (z s)) ∧
      IsUntilFixpoint m constValue phi psi z ∧
      ∀ (K : Type) [Field K] [LinearOrder K] [IsStrictOrderedRing K] (y : ℕ → K),
        IsUntilFixpoint m constValue phi psi y → ∀ s < m.numStates, (z s : K) ≤ y s := by
  have hf : Fits m phi psi := ⟨hw, hphi, hpsi⟩
  have hs := h.isStochastic hc
  obtain ⟨z, hz, hprob⟩ := h.untilProb_eq hc hf
  exact ⟨z, hprob, hz.isUntilFixpoint hf hs, fun K _ _ _ y hy => hz.cast.le hf hs hy⟩

omit h in
theorem coin_isConstantChain : IsConstantChain coin where
  positive := coin_value
  sum_one s hs := by
    have hsum := Value.sumCanonical_denotes (l := (coin.row s).map (·.2)) fun f hf => by
      obtain ⟨e, he, rfl⟩ := List.mem_map.1 hf
      exact coin_isCanonical.row s e he
    have hone : (((coin.row s).map (·.2)).map RationalFunction.toFrac).sum = 1 := by
      rw [← coin_expect_one hs, Model.expect, List.map_map]
      exact congrArg _ (List.map_congr_left fun e _ => (mul_one _).symm)
    rw [hone] at hsum
    exact hsum.eq RationalFunction.denotes_one

omit h in
/-- A coin shows heads with probability one half. -/
theorem coin_untilProb_least : ∃ z : ℕ → ℚ,
    untilProb coin ⟨#[true, true, true]⟩ ⟨#[false, true, false]⟩ =
      .ok (tabulate 3 fun s => .const (z s)) ∧ z 0 = 1 / 2 ∧ z 1 = 1 ∧ z 2 = 0 := by
  have hphi : (⟨#[true, true, true]⟩ : StateSet).bits.size = coin.numStates := rfl
  have hpsi : (⟨#[false, true, false]⟩ : StateSet).bits.size = coin.numStates := rfl
  obtain ⟨z, hz, hfix, hleast⟩ :=
    untilProb_least coin_isConstantChain coin_wellFormed coin_isCanonical hphi hpsi
  have hconst : ∀ q : ℚ, constValue (.const q) = q := fun q => (toFrac_of_const rfl).2
  have hrow0 : ∀ y : ℕ → ℚ, coin.average constValue 0 y = 1 / 2 * y 1 + 1 / 2 * y 2 := by
    intro y
    simp [Model.average, coin, Model.row, hconst]
  have hrow2 : ∀ y : ℕ → ℚ, coin.average constValue 2 y = y 2 := by
    intro y
    simp [Model.average, coin, Model.row, hconst]
  have htails : z 2 = 0 := by
    let y : ℕ → ℚ := fun s => if s = 0 then 1 / 2 else if s = 1 then 1 else 0
    have hy : IsUntilFixpoint coin constValue ⟨#[true, true, true]⟩ ⟨#[false, true, false]⟩ y := by
      constructor
      case nonneg =>
        intro s _
        dsimp only [y]
        split_ifs <;> norm_num
      case target => decide
      case stuck => decide
      case step =>
        intro s hlt _ hs
        obtain rfl | rfl | rfl : s = 0 ∨ s = 1 ∨ s = 2 := by
          have : s < 3 := hlt
          omega
        · rw [hrow0]
          norm_num [y]
        · cases hs
        · rw [hrow2]
    exact le_antisymm (hleast ℚ y hy 2 (by decide)) (hfix.nonneg 2 (by decide))
  have hheads : z 1 = 1 := hfix.target 1 (by decide) rfl
  have htossed := hfix.step 0 (by decide) rfl rfl
  rw [hrow0, hheads, htails] at htossed
  exact ⟨z, hz, by simpa using htossed, hheads, htails⟩

end Constant

end Reach
end MarkovCheck

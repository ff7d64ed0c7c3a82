import Mathlib
import MarkovCheck.Chain.Model
import MarkovCheck.Proofs.Algebra.RationalFunction
import MarkovCheck.Proofs.Occurrences

/-!
# MarkovCheck.Proofs.Chain.Mass

The rows of a chain as linear functionals over the field of rational functions.

`Model.expect` is the sum of `P(s, t) * f t` over the transitions of a state; the `mass` of a set is
the expectation of its indicator. States with equal masses on the classes of a colouring have equal
expectations of every function of the colour. `Model.total` is the stored value of a mass: the sum
of the values of the transitions into a set.

* `Value.sum_denotes`, `Value.sumCanonical_denotes` — stored sums denote sums.
* `Model.IsCanonical`  — all values of a model are in canonical form.
* `Model.expect_comp`  — the expectation of a function of a colour, colour by colour.
* `Model.total_eq_iff` — totals are equal exactly when the masses are.
* `Model.NoCancelling` — sums of values are zero only when they are empty, so masses tell edges.
-/

namespace MarkovCheck

namespace Value

/-! ## Sums -/

theorem foldl_add_denotes {l : List RationalFunction} (h : ∀ f ∈ l, f.IsCanonical)
    {f : RationalFunction} {a : Frac} (hf : f.Denotes a) :
    (l.foldl add f).Denotes (a + (l.map RationalFunction.toFrac).sum) := by
  induction l generalizing f a with
  | nil => simpa using hf
  | cons g l ih =>
    rw [List.forall_mem_cons] at h
    have := ih h.2 (RationalFunction.add_spec hf h.1.denotes)
    rwa [add_assoc, ← List.sum_cons, ← List.map_cons] at this

/-- The sum of canonical functions denotes the sum. -/
theorem sum_denotes {l : List RationalFunction} (h : ∀ f ∈ l, f.IsCanonical) :
    (sum l).Denotes (l.map RationalFunction.toFrac).sum := by
  have := foldl_add_denotes h RationalFunction.denotes_zero
  rwa [zero_add] at this

/-- The order of summation does not matter for exact values. -/
theorem sumCanonical_denotes {l : List RationalFunction} (h : ∀ f ∈ l, f.IsCanonical) :
    (sumCanonical l).Denotes (l.map RationalFunction.toFrac).sum := by
  have hp : (sorted l).Perm l := List.mergeSort_perm _ _
  have := sum_denotes (l := sorted l) fun f hf => h f (hp.mem_iff.1 hf)
  rwa [(hp.map _).sum_eq] at this

end Value

namespace Model

/-- What holds of the stored rows, and of one without transitions, holds of the row of every state. -/
theorem forall_row {V : Type} {m : Model V} {P : List (ℕ × V) → Prop} (hnil : P [])
    (h : ∀ row ∈ m.rows.toList, P row) (s : ℕ) : P (m.row s) := by
  unfold row
  cases hrow : m.rows[s]? with
  | none => exact hnil
  | some row => exact h row (Array.mem_toList_iff.2 (Array.mem_of_getElem? hrow))

/-- All values that a model stores are in canonical form. -/
structure IsCanonical (m : Model RationalFunction) : Prop where
  row : ∀ s, ∀ e ∈ m.row s, e.2.IsCanonical
  reward : ∀ r ∈ m.rewards, ∀ v ∈ r.values, v.IsCanonical

theorem WellFormed.nodup_targets {V : Type} [Value V] {m : Model V} (hw : m.WellFormed) (s : ℕ) :
    ((m.row s).map (·.1)).Nodup :=
  nodup_of_ascend (f := id) (List.pairwise_map.2 (hw.targets_ascend s))

/-- The sum of the values of the transitions of a state, each times the value of a function at its
target. -/
noncomputable def expect (m : Model RationalFunction) (s : ℕ) (f : ℕ → Frac) : Frac :=
  ((m.row s).map fun e => e.2.toFrac * f e.1).sum

/-- The sum of the values of the transitions of a state into a set, in the field. -/
noncomputable def mass (m : Model RationalFunction) (s : ℕ) (A : Set ℕ) : Frac :=
  m.expect s (A.indicator 1)

/-- Two states have equal masses on the states of every colour. -/
def SameMasses (m : Model RationalFunction) {κ : Type*} (c : ℕ → κ) (s t : ℕ) : Prop :=
  ∀ b, m.mass s {u | c u = b} = m.mass t {u | c u = b}

open scoped Classical in
/-- The sum of the values of the transitions of a state into a set. -/
noncomputable def total (m : Model RationalFunction) (s : ℕ) (A : Set ℕ) : RationalFunction :=
  Value.sum (((m.row s).filter fun e => e.1 ∈ A).map (·.2))

/-- No values of a state add up to zero, unless there are none of them. -/
def NoCancelling (m : Model RationalFunction) : Prop :=
  ∀ s < m.numStates, ∀ vs : List RationalFunction, vs.Sublist ((m.row s).map (·.2)) → vs ≠ [] →
    Value.isZero (Value.sum vs) = false

variable {m : Model RationalFunction} {s t : ℕ}

theorem WellFormed.numStates_pos (hw : m.WellFormed) : 0 < m.numStates := by
  obtain ⟨s, hs⟩ := List.exists_mem_of_ne_nil _ hw.initial_ne_nil
  exact (Nat.zero_le s).trans_lt (hw.initial_lt s hs)

theorem row_eq_nil_of_le (hs : m.numStates ≤ s) : m.row s = [] := by
  rw [Model.row, Array.getElem?_eq_none hs, Option.getD_none]

theorem lt_of_mem_row {e : ℕ × RationalFunction} (he : e ∈ m.row s) : s < m.numStates := by
  by_contra hs
  rw [row_eq_nil_of_le (not_lt.1 hs)] at he
  cases he

/-! ## Expectations -/

theorem expect_congr {f g : ℕ → Frac} (h : ∀ e ∈ m.row s, f e.1 = g e.1) :
    m.expect s f = m.expect s g := by
  unfold expect
  rw [List.map_congr_left fun e he => by rw [h e he]]

theorem expect_add (m : Model RationalFunction) (s : ℕ) (f g : ℕ → Frac) :
    m.expect s (f + g) = m.expect s f + m.expect s g := by
  unfold expect
  rw [← List.sum_map_add]
  simp [mul_add]

theorem expect_sub (m : Model RationalFunction) (s : ℕ) (f g : ℕ → Frac) :
    m.expect s (f - g) = m.expect s f - m.expect s g := by
  rw [eq_sub_iff_add_eq, ← expect_add, sub_add_cancel]

theorem expect_zero (m : Model RationalFunction) (s : ℕ) : m.expect s 0 = 0 := by
  simp [expect]

/-- A weighted sum over a row, colour by colour; colours at which the function is zero may be left
out. -/
theorem sum_row_comp {V R : Type*} {κ : Type*} [CommSemiring R] {row : List (ℕ × V)} (w : V → R)
    {c : ℕ → κ} {g : κ → R} {B : Finset κ} (h : ∀ e ∈ row, c e.1 ∉ B → g (c e.1) = 0) :
    (row.map fun e => w e.2 * g (c e.1)).sum =
      ∑ b ∈ B, (row.map fun e => w e.2 * Set.indicator {u | c u = b} 1 e.1).sum * g b := by
  induction row with
  | nil => simp
  | cons e row ih =>
    rw [List.forall_mem_cons] at h
    simp only [List.map_cons, List.sum_cons, add_mul, Finset.sum_add_distrib, ih h.2]
    congr 1
    rw [Finset.sum_eq_single (c e.1)]
    · simp
    · intro b _ hb
      simp [Set.indicator_of_notMem, hb.symm]
    · intro hB
      simp [h.1 hB]

theorem expect_comp {κ : Type*} {B : Finset κ} {c : ℕ → κ} (h : ∀ e ∈ m.row s, c e.1 ∈ B)
    (g : κ → Frac) : m.expect s (g ∘ c) = ∑ b ∈ B, m.mass s {u | c u = b} * g b :=
  sum_row_comp _ fun e he hB => (hB (h e he)).elim

/-- States of two models that have equal masses on all colours have equal expectations of functions
that depend on the colour in the same way. -/
theorem expect_eq_of_colours {m' : Model RationalFunction} {κ : Type*} {c d : ℕ → κ}
    (h : ∀ b, m.mass s {u | c u = b} = m'.mass t {u | d u = b}) {f f' : ℕ → Frac} {g : κ → Frac}
    (hf : ∀ e ∈ m.row s, f e.1 = g (c e.1)) (hf' : ∀ e ∈ m'.row t, f' e.1 = g (d e.1)) :
    m.expect s f = m'.expect t f' := by
  classical
  let B := ((m.row s).map (fun e => c e.1) ++ (m'.row t).map fun e => d e.1).toFinset
  have hB : ∀ e ∈ m.row s, c e.1 ∈ B := fun e he => List.mem_toFinset.2
    (List.mem_append_left _ (List.mem_map_of_mem he))
  have hB' : ∀ e ∈ m'.row t, d e.1 ∈ B := fun e he => List.mem_toFinset.2
    (List.mem_append_right _ (List.mem_map_of_mem he))
  calc m.expect s f = m.expect s (g ∘ c) := expect_congr hf
    _ = ∑ b ∈ B, m.mass s {u | c u = b} * g b := expect_comp hB g
    _ = ∑ b ∈ B, m'.mass t {u | d u = b} * g b := Finset.sum_congr rfl fun b _ => by rw [h b]
    _ = m'.expect t (g ∘ d) := (expect_comp hB' g).symm
    _ = m'.expect t f' := (expect_congr hf').symm

/-- States with equal masses on the classes of a colouring have equal expectations of every function
that depends, on the states of the model, on the colour only. -/
theorem expect_eq_of_masses (hw : m.WellFormed) {κ : Type*} {c : ℕ → κ}
    (h : m.SameMasses c s t) {f : ℕ → Frac}
    (hf : ∀ u < m.numStates, ∀ v < m.numStates, c u = c v → f u = f v) :
    m.expect s f = m.expect t f := by
  classical
  let g : κ → Frac := fun b => if h : ∃ u < m.numStates, c u = b then f h.choose else 0
  have hg : ∀ w, ∀ e ∈ m.row w, f e.1 = g (c e.1) := by
    intro w e he
    have hlt := hw.targets_lt w e he
    have hex : ∃ u < m.numStates, c u = c e.1 := ⟨e.1, hlt, rfl⟩
    simp only [g, dif_pos hex]
    exact hf e.1 hlt _ hex.choose_spec.1 hex.choose_spec.2.symm
  exact expect_eq_of_colours h (hg s) (hg t)

/-! ## Masses -/

/-- A set that is, within the model, a union of classes has the same mass at states with equal
masses on the classes. -/
theorem mass_eq_of_masses (hw : m.WellFormed) {κ : Type*} {c : ℕ → κ}
    (h : m.SameMasses c s t) {A : Set ℕ}
    (hA : ∀ u < m.numStates, ∀ v < m.numStates, c u = c v → u ∈ A → v ∈ A) :
    m.mass s A = m.mass t A := by
  refine expect_eq_of_masses hw h fun u hu v hv huv => ?_
  by_cases h : u ∈ A
  · rw [Set.indicator_of_mem h, Set.indicator_of_mem (hA u hu v hv huv h)]
    rfl
  · rw [Set.indicator_of_notMem h,
      Set.indicator_of_notMem fun h' => h (hA v hv u hu huv.symm h')]

theorem mass_congr {A B : Set ℕ} (h : ∀ e ∈ m.row s, e.1 ∈ A ↔ e.1 ∈ B) :
    m.mass s A = m.mass s B := by
  classical
  refine expect_congr fun e he => ?_
  simp only [Set.indicator_apply, h e he]

theorem mass_eq_zero {A : Set ℕ} (h : ∀ e ∈ m.row s, e.1 ∉ A) : m.mass s A = 0 := by
  rw [mass, ← expect_zero m s]
  exact expect_congr fun e he => Set.indicator_of_notMem (h e he) _

open scoped Classical in
theorem mass_eq_sum_filter (m : Model RationalFunction) (s : ℕ) (A : Set ℕ) :
    m.mass s A = ((((m.row s).filter fun e => e.1 ∈ A).map (·.2)).map RationalFunction.toFrac).sum := by
  unfold mass expect
  induction m.row s with
  | nil => rfl
  | cons e row ih =>
    rw [List.map_cons, List.sum_cons, ih, List.filter_cons]
    by_cases he : e.1 ∈ A
    · simp [he]
    · simp [he]

/-- The mass of a single target is the value of the transition to it. -/
theorem mass_eq_of_mem (hw : m.WellFormed) {e : ℕ × RationalFunction} (he : e ∈ m.row s) :
    m.mass s {u | u = e.1} = e.2.toFrac := by
  classical
  obtain ⟨l, r, hrow⟩ := List.append_of_mem he
  have hasc := hw.targets_ascend s
  rw [hrow, List.pairwise_append, List.pairwise_cons] at hasc
  obtain ⟨-, ⟨hr, -⟩, hl⟩ := hasc
  have hl' : l.filter (fun d => d.1 = e.1) = [] := List.filter_eq_nil_iff.2 fun d hd =>
    by simpa using (hl d hd e List.mem_cons_self).ne
  have hr' : r.filter (fun d => d.1 = e.1) = [] := List.filter_eq_nil_iff.2 fun d hd =>
    by simpa using (hr d hd).ne'
  rw [mass_eq_sum_filter, hrow]
  simp [hl', hr']

/-- The stored total denotes the mass. -/
theorem total_denotes (hm : m.IsCanonical) (s : ℕ) (A : Set ℕ) :
    (m.total s A).Denotes (m.mass s A) := by
  rw [mass_eq_sum_filter]
  refine Value.sum_denotes fun f hf => ?_
  obtain ⟨e, he, rfl⟩ := List.mem_map.1 hf
  exact hm.row s e (List.mem_of_mem_filter he)

theorem total_eq_total_iff {m' : Model RationalFunction} (hm : m.IsCanonical) (hm' : m'.IsCanonical)
    {A B : Set ℕ} : m.total s A = m'.total t B ↔ m.mass s A = m'.mass t B := by
  constructor
  · intro h
    rw [← (total_denotes hm s A).2, h, (total_denotes hm' t B).2]
  · intro h
    exact (total_denotes hm s A).eq (h ▸ total_denotes hm' t B)

theorem total_eq_iff (hm : m.IsCanonical) {A B : Set ℕ} :
    m.total s A = m.total t B ↔ m.mass s A = m.mass t B := total_eq_total_iff hm hm

/-- Where no values cancel, a state has a transition into a set exactly if its mass there is not
zero. -/
theorem NoCancelling.mass_ne_zero_iff (hpos : m.NoCancelling) (hc : m.IsCanonical)
    (hs : s < m.numStates) {A : Set ℕ} : m.mass s A ≠ 0 ↔ ∃ e ∈ m.row s, e.1 ∈ A := by
  classical
  constructor
  · intro h
    by_contra hno
    push Not at hno
    exact h (mass_eq_zero hno)
  · rintro ⟨e, he, heA⟩
    have hden := total_denotes hc s A
    rw [← hden.2]
    refine (RationalFunction.isZero_eq_false_iff hden.1).1 (hpos s hs _ ?_ ?_)
    · exact List.filter_sublist.map _
    · intro hnil
      have : e ∈ (m.row s).filter fun e => e.1 ∈ A := List.mem_filter.2 ⟨he, by simpa using heA⟩
      rw [List.map_eq_nil_iff.1 hnil] at this
      cases this

/-- Where sets with a transition into them have masses other than zero, no values cancel. -/
theorem noCancelling_of_mass (hw : m.WellFormed) (hc : m.IsCanonical)
    (h : ∀ s < m.numStates, ∀ A : Set ℕ, (∃ e ∈ m.row s, e.1 ∈ A) → m.mass s A ≠ 0) :
    m.NoCancelling := by
  classical
  intro s hs vs hvs hne
  obtain ⟨l, hl, rfl⟩ := List.sublist_map_iff.1 hvs
  obtain ⟨A, hA⟩ : ∃ A : Set ℕ, ∀ u, u ∈ A ↔ u ∈ l.map (·.1) := ⟨_, fun _ => Iff.rfl⟩
  have hasc := hw.targets_ascend s
  -- The transitions that are added up are those into the set of their targets.
  have hfilter : (m.row s).filter (fun e => e.1 ∈ A) = l := by
    refine eq_of_ascend (f := fun e : ℕ × RationalFunction => e.1)
      (hasc.sublist List.filter_sublist) (hasc.sublist hl) fun e => ?_
    rw [List.mem_filter, decide_eq_true_eq, hA, List.mem_map]
    constructor
    · rintro ⟨he, d, hd, hde⟩
      have := mass_eq_of_mem hw he
      rw [← hde, mass_eq_of_mem hw (hl.mem hd)] at this
      obtain rfl : d = e := Prod.ext hde
        (((hc.row s d (hl.mem hd)).denotes.eq) (this ▸ (hc.row s e he).denotes))
      exact hd
    · exact fun he => ⟨hl.mem he, e, he, rfl⟩
  have hden := Value.sum_denotes (l := l.map (·.2)) fun f hf => by
    obtain ⟨e, he, rfl⟩ := List.mem_map.1 hf
    exact hc.row s e (hl.mem he)
  refine (RationalFunction.isZero_eq_false_iff hden.1).2 ?_
  obtain ⟨e, he⟩ := List.exists_mem_of_ne_nil l (fun hnil => hne (by rw [hnil]; rfl))
  have hmass := h s hs A ⟨e, hl.mem he, (hA e.1).2 (List.mem_map_of_mem he)⟩
  rwa [mass_eq_sum_filter, hfilter, ← hden.2] at hmass

end Model

/-! ## A coin

A chain for the theorems that follow to be tried on. -/

/-- A fair coin that is tossed once. -/
def coin : Model RationalFunction where
  kind := .dtmc
  rows := #[[(1, .const (1 / 2)), (2, .const (1 / 2))], [(1, .const 1)], [(2, .const 1)]]
  initial := [0]
  labeling := ⟨3, [("heads", ⟨#[false, true, false]⟩)]⟩
  rewards := [⟨"tosses", #[.const 1, .const 0, .const 0]⟩]

theorem coin_value : ∀ s, ∀ e ∈ coin.row s, ∃ q : ℚ, 0 < q ∧ e.2 = .const q := by
  intro s e he
  rcases s with _ | _ | _ | s
  · rcases List.mem_cons.1 he with rfl | he
    · exact ⟨1 / 2, by norm_num, rfl⟩
    · obtain rfl := List.mem_singleton.1 he
      exact ⟨1 / 2, by norm_num, rfl⟩
  · obtain rfl := List.mem_singleton.1 he
    exact ⟨1, one_pos, rfl⟩
  · obtain rfl := List.mem_singleton.1 he
    exact ⟨1, one_pos, rfl⟩
  · cases he

theorem coin_expect_one {s : ℕ} (hs : s < coin.numStates) : coin.expect s 1 = 1 := by
  have hconst : ∀ q : ℚ, (RationalFunction.const q).toFrac = toField (MvPolynomial.C q) := fun q =>
    (RationalFunction.denotes_const q).2
  rcases s with _ | _ | _ | s
  · simp only [Model.expect, coin, Model.row, Pi.one_apply, mul_one]
    norm_num [hconst, ← map_add]
  · simp [Model.expect, coin, Model.row, hconst]
  · simp [Model.expect, coin, Model.row, hconst]
  · exact absurd hs (by simp [coin, Model.numStates])

theorem coin_isCanonical : coin.IsCanonical where
  row s e he := by
    obtain ⟨q, -, hq⟩ := coin_value s e he
    rw [hq]
    exact (RationalFunction.denotes_const q).1
  reward r hr v hv := by
    obtain rfl := List.mem_singleton.1 hr
    simp only [List.mem_toArray, List.mem_cons, List.not_mem_nil, or_false] at hv
    rcases hv with rfl | rfl | rfl <;> exact (RationalFunction.denotes_const _).1

theorem coin_wellFormed : coin.WellFormed where
  targets_ascend s := by rcases s with _ | _ | _ | s <;> simp [coin, Model.row]
  targets_lt s := by rcases s with _ | _ | _ | s <;> simp [coin, Model.row, Model.numStates]
  values_ne_zero s e he := by
    obtain ⟨q, hpos, hq⟩ := coin_value s e he
    exact hq ▸ RationalFunction.isZero_const_eq_false hpos.ne'
  initial_ascend := by decide
  initial_lt := by decide
  initial_ne_nil := by decide
  labeling_size := rfl
  label_size := by decide
  label_names := by decide
  reward_size := by simp [coin, Model.numStates]
  reward_names := by decide

end MarkovCheck

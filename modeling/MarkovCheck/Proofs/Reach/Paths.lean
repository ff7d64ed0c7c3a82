import Mathlib
import MarkovCheck.Proofs.Chain.Builder
import MarkovCheck.Proofs.Reach.Qualitative
import MarkovCheck.Proofs.Reach.Reward

/-!
# MarkovCheck.Proofs.Reach.Paths

Bounded until as a sum over paths.

A path is the list of its states, and its weight the product of the values of its transitions. The paths
that bounded until counts end in the first state of `psi` and pass states of `phi` before. Those from a
state outside `psi` are the state, put in front of a path of a successor with one step less: no path
arises from two successors, and the weight gains one factor. So the sums over paths satisfy the
recursion of bounded until.

* `IsUntilPath`, `Model.weight` — the paths and their weights.
* `mem_untilPaths`  — the paths with a bounded number of steps, as a finite set.
* `sum_untilPaths`  — their weights, one step at a time.
* `boundedUntilProb_denotes_sum` — bounded until gives the sum over its paths.
-/

namespace MarkovCheck

namespace Model

variable {m : Model RationalFunction} {s : ℕ}

/-- The product of the values of the transitions along a path. -/
noncomputable def weight (m : Model RationalFunction) : List ℕ → Frac
  | s :: t :: path => (m.prob s t).toFrac * m.weight (t :: path)
  | _ => 1

theorem weight_singleton (m : Model RationalFunction) (s : ℕ) : m.weight [s] = 1 := by
  simp only [weight]

theorem weight_cons_cons (m : Model RationalFunction) (s t : ℕ) (path : List ℕ) :
    m.weight (s :: t :: path) = (m.prob s t).toFrac * m.weight (t :: path) := by
  simp only [weight]

/-- The targets of the transitions of a state. -/
def successors (m : Model RationalFunction) (s : ℕ) : List ℕ := (m.row s).map (·.1)

theorem WellFormed.nodup_successors (hw : m.WellFormed) (s : ℕ) : (m.successors s).Nodup :=
  hw.nodup_targets s

theorem WellFormed.prob_of_mem (hw : m.WellFormed) {e : ℕ × RationalFunction} (he : e ∈ m.row s) :
    m.prob s e.1 = e.2 := by
  rw [prob, entry, Builder.lookup_of_mem (hw.nodup_successors s) he, Option.getD_some]

/-- The expectation as a sum over the successors. -/
theorem WellFormed.expect_eq_sum (hw : m.WellFormed) (s : ℕ) (f : ℕ → Frac) :
    m.expect s f = ∑ t ∈ (m.successors s).toFinset, (m.prob s t).toFrac * f t := by
  rw [List.sum_toFinset _ (hw.nodup_successors s), successors, List.map_map, expect]
  refine congrArg _ (List.map_congr_left fun e he => ?_)
  rw [Function.comp_apply, hw.prob_of_mem he]

end Model

namespace Reach

variable {m : Model RationalFunction} {phi psi : StateSet} {k s t : ℕ} {path : List ℕ}

/-- A path of transitions from a state, whose last state is in `psi` and whose earlier states are in
`phi` and not in `psi`. -/
@[mk_iff]
structure IsUntilPath (m : Model RationalFunction) (phi psi : StateSet) (s : ℕ) (path : List ℕ) :
    Prop where
  head : path.head? = some s
  transitions : path.IsChain fun a b => b ∈ m.successors a
  target : ∃ t ∈ path.getLast?, psi.contains t = true
  earlier : ∀ t ∈ path.dropLast, phi.contains t = true ∧ psi.contains t = false

instance : Decidable (IsUntilPath m phi psi s path) := decidable_of_iff' _ (isUntilPath_iff m phi psi s path)

theorem isUntilPath_singleton : IsUntilPath m phi psi s [t] ↔ t = s ∧ psi.contains s = true := by
  rw [isUntilPath_iff]
  constructor
  · rintro ⟨hhead, -, ⟨u, hu, hpsi⟩, -⟩
    cases hhead
    cases hu
    exact ⟨rfl, hpsi⟩
  · rintro ⟨rfl, hpsi⟩
    exact ⟨rfl, .singleton _, ⟨t, rfl, hpsi⟩, by simp⟩

theorem isUntilPath_cons_cons {a b : ℕ} : IsUntilPath m phi psi s (a :: b :: path) ↔
    a = s ∧ (phi.contains s = true ∧ psi.contains s = false) ∧ b ∈ m.successors s ∧
      IsUntilPath m phi psi b (b :: path) := by
  rw [isUntilPath_iff, isUntilPath_iff, List.isChain_cons_cons, List.dropLast_cons_cons,
    List.forall_mem_cons, List.getLast?_cons_cons, List.head?_cons, List.head?_cons, Option.some_inj]
  constructor
  · rintro ⟨rfl, ⟨hb, hchain⟩, htarget, hfirst, hrest⟩
    exact ⟨rfl, hfirst, hb, rfl, hchain, htarget, hrest⟩
  · rintro ⟨rfl, hfirst, hb, -, hchain, htarget, hrest⟩
    exact ⟨rfl, ⟨hb, hchain⟩, htarget, hfirst, hrest⟩

/-! ## The paths with a bounded number of steps -/

/-- The paths of a bounded number of steps, found by looking one step ahead. -/
def untilPaths (m : Model RationalFunction) (phi psi : StateSet) : ℕ → ℕ → Finset (List ℕ)
  | 0, s => if psi.contains s then {[s]} else ∅
  | k + 1, s =>
    if psi.contains s then {[s]}
    else if phi.contains s then
      (m.successors s).toFinset.biUnion fun t => (untilPaths m phi psi k t).image (s :: ·)
    else ∅

theorem mem_untilPaths :
    path ∈ untilPaths m phi psi k s ↔ IsUntilPath m phi psi s path ∧ path.length ≤ k + 1 := by
  induction k generalizing s path with
  | zero =>
    rw [untilPaths]
    rcases path with _ | ⟨a, _ | ⟨b, path⟩⟩
    · split <;> simp [isUntilPath_iff]
    · rw [isUntilPath_singleton]
      split <;> simp [*]
    · split <;> simp
  | succ k ih =>
    rw [untilPaths]
    rcases path with _ | ⟨a, _ | ⟨b, path⟩⟩
    · split_ifs <;> simp [isUntilPath_iff]
    · -- A path of one state ends where it starts; those of the successors have a state more.
      rw [isUntilPath_singleton]
      split_ifs <;> simp [*, isUntilPath_iff]
    · rw [isUntilPath_cons_cons]
      split_ifs with hpsi hphi
      · simp [hpsi]
      · simp only [Finset.mem_biUnion, Finset.mem_image, List.mem_toFinset, ih, List.cons.injEq,
          List.length_cons]
        constructor
        · rintro ⟨t, ht, p, ⟨hp, hlen⟩, rfl, rfl⟩
          obtain rfl : b = t := Option.some_inj.1 hp.head
          exact ⟨⟨rfl, ⟨hphi, Bool.not_eq_true _ ▸ hpsi⟩, ht, hp⟩, Nat.succ_le_succ hlen⟩
        · rintro ⟨⟨rfl, -, hb, hp⟩, hlen⟩
          exact ⟨b, hb, b :: path, ⟨hp, Nat.le_of_succ_le_succ hlen⟩, rfl, rfl⟩
      · simp [hphi]

/-- The weights of the paths with one step more. -/
theorem sum_untilPaths (hw : m.WellFormed) (phi psi : StateSet) (k s : ℕ) :
    ∑ path ∈ untilPaths m phi psi (k + 1) s, m.weight path =
      boundedValue m phi psi (fun t => ∑ path ∈ untilPaths m phi psi k t, m.weight path) s := by
  rw [untilPaths, boundedValue]
  split_ifs
  · rw [Finset.sum_singleton, Model.weight_singleton]
  · have hhead : ∀ t, ∀ path ∈ untilPaths m phi psi k t, path.head? = some t := fun t path hpath =>
      (mem_untilPaths.1 hpath).1.head
    have hdisjoint : ((m.successors s).toFinset : Set ℕ).PairwiseDisjoint fun t =>
        (untilPaths m phi psi k t).image (s :: ·) := by
      intro t _ u _ htu
      refine Finset.disjoint_left.2 fun path hpt hpu => htu ?_
      obtain ⟨p, hp, rfl⟩ := Finset.mem_image.1 hpt
      obtain ⟨q, hq, heq⟩ := Finset.mem_image.1 hpu
      obtain rfl := (List.cons.inj heq).2
      exact Option.some_inj.1 ((hhead t _ hp).symm.trans (hhead u _ hq))
    rw [Finset.sum_biUnion hdisjoint, hw.expect_eq_sum]
    refine Finset.sum_congr rfl fun t _ => ?_
    rw [Finset.sum_image fun p _ q _ heq => (List.cons.inj heq).2, Finset.mul_sum]
    refine Finset.sum_congr rfl fun path hpath => ?_
    obtain ⟨rest, rfl⟩ := List.head?_eq_some_iff.1 (hhead t path hpath)
    rw [Model.weight_cons_cons]
  · exact Finset.sum_empty

/-- Bounded until gives every state the sum of the weights of the paths from it, with as many steps as the
bound allows, whose last state is in `psi` and whose earlier states are in `phi` and not in `psi`. -/
theorem boundedUntilProb_denotes_sum (hw : m.WellFormed) (hc : m.IsCanonical) (phi psi : StateSet)
    (k : ℕ) (hs : s < m.numStates) : ∃ paths : Finset (List ℕ),
      (∀ path, path ∈ paths ↔ IsUntilPath m phi psi s path ∧ path.length ≤ k + 1) ∧
      ∃ f, (boundedUntilProb m phi psi k)[s]? = some f ∧ f.Denotes (∑ path ∈ paths, m.weight path) := by
  have hvalue : ∀ s < m.numStates, vector (boundedUntilProb m phi psi k) s =
      ∑ path ∈ untilPaths m phi psi k s, m.weight path := by
    induction k with
    | zero =>
      intro s hs
      rw [(boundedUntilProb_spec hc phi psi 0).2.2.1 s hs, untilPaths]
      split
      · rw [Finset.sum_singleton, Model.weight_singleton]
      · exact Finset.sum_empty.symm
    | succ k ih =>
      intro s hs
      rw [(boundedUntilProb_spec hc phi psi k).2.2.2 s hs, sum_untilPaths hw, boundedValue, boundedValue]
      split_ifs
      · rfl
      · exact Model.expect_congr fun e he => ih e.1 (hw.targets_lt s e he)
      · rfl
  obtain ⟨hsize, hcan, -⟩ := boundedUntilProb_spec hc phi psi k
  refine ⟨untilPaths m phi psi k s, fun path => mem_untilPaths, ?_⟩
  have hlt : s < (boundedUntilProb m phi psi k).size := hs.trans_eq hsize.symm
  refine ⟨_, Array.getElem?_eq_getElem hlt, hcan _ (Array.getElem_mem hlt), ?_⟩
  rw [← hvalue s hs, vector, Array.getElem?_eq_getElem hlt, Option.getD_some]

/-- The game is won within two steps in the first round or after one draw. -/
theorem game_boundedUntilProb : ∃ (paths : Finset (List ℕ)) (f : RationalFunction),
    (boundedUntilProb game ⟨#[true, false, false, true]⟩ ⟨#[false, true, false, false]⟩ 2)[0]? = some f ∧
      f.Denotes (∑ path ∈ paths, game.weight path) ∧
      [0, 1] ∈ paths ∧ [0, 0, 1] ∈ paths ∧ [0, 0, 0, 1] ∉ paths ∧ [0, 1, 1] ∉ paths := by
  obtain ⟨paths, hpaths, f, hf, hsum⟩ := boundedUntilProb_denotes_sum game_wellFormed game_isCanonical
    ⟨#[true, false, false, true]⟩ ⟨#[false, true, false, false]⟩ 2 (show 0 < game.numStates by decide)
  refine ⟨paths, f, hf, hsum, ?_⟩
  simp only [hpaths]
  decide

end Reach
end MarkovCheck

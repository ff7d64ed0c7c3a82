import Mathlib
import MarkovCheck.Proofs.Bisim.Quotient
import MarkovCheck.Proofs.Reach.Reward

/-!
# MarkovCheck.Proofs.Bisim.Transfer

What is computed on a quotient, read through the classes, is what is computed on the model.

The expectation of a function of the classes is the same in both. Where the values are positive at a
valuation, so are the transitions between classes, and so the sets found in the graph are unions of
classes. A solution of the equations of the quotient therefore solves those of the model when it is
read through the classes, and the model has only one.

* `IsQuotient.expect_eq`, `IsQuotient.pathInto_iff` — expectations and paths.
* `IsQuotient.untilProb`, `IsQuotient.expectedReward` — the computed vectors.
-/

namespace MarkovCheck
namespace Bisim

open Reach

/-- Two sets of states that are the same, seen through the classes. -/
structure Matches (m Q : Model RationalFunction) (c : ℕ → ℕ) (S T : StateSet) : Prop where
  size : S.bits.size = m.numStates
  quotient_size : T.bits.size = Q.numStates
  contains_eq : ∀ s < m.numStates, T.contains (c s) = S.contains s

/-- Two vectors of canonical values that are the same, seen through the classes. -/
structure Lifts (m Q : Model RationalFunction) (c : ℕ → ℕ) (X Y : Array RationalFunction) :
    Prop where
  size : X.size = m.numStates
  quotient_size : Y.size = Q.numStates
  canonical : AllCanonical X
  quotient_canonical : AllCanonical Y
  vector_eq : ∀ s < m.numStates, vector Y (c s) = vector X s

theorem vector_map_sub_one {X : Array RationalFunction} (hX : AllCanonical X) :
    AllCanonical (X.map (Value.sub Value.one)) ∧
      ∀ s < X.size, vector (X.map (Value.sub Value.one)) s = 1 - vector X s := by
  constructor
  · intro f hf
    obtain ⟨g, hg, rfl⟩ := Array.mem_map.1 hf
    exact (RationalFunction.sub_spec RationalFunction.denotes_one (hX g hg).denotes).1
  · intro s hs
    have hget : X[s]? = some X[s] := Array.getElem?_eq_getElem hs
    rw [vector, vector, Array.getElem?_map, hget]
    exact (RationalFunction.sub_spec RationalFunction.denotes_one
      (hX _ (Array.getElem_mem hs)).denotes).2

namespace IsQuotient

variable {m Q : Model RationalFunction} {o : Observed RationalFunction} {c : ℕ → ℕ} {s : ℕ}
  {v : Valuation} {phi phi' psi psi' target target' : StateSet}

theorem toFrac_eq (h : IsQuotient m Q o c) (hs : s < m.numStates) {e : ℕ × RationalFunction}
    (he : e ∈ Q.row (c s)) : e.2.toFrac = m.mass s {u | c u = e.1} :=
  ((h.row s hs e.1 e.2).1 he).1.2

theorem mem_targets_iff (h : IsQuotient m Q o c) (hc : m.IsCanonical) (hs : s < m.numStates)
    (b : ℕ) : b ∈ (Q.row (c s)).map (·.1) ↔ m.mass s {u | c u = b} ≠ 0 := by
  rw [List.mem_map]
  constructor
  · rintro ⟨e, he, rfl⟩
    exact ((h.row s hs e.1 e.2).1 he).2
  · intro hne
    exact ⟨(b, _), (h.row s hs b _).2 ⟨Model.total_denotes hc s _, hne⟩, rfl⟩

/-- The expectation of a function of the classes. -/
theorem expect_eq (h : IsQuotient m Q o c) (hc : m.IsCanonical) (hs : s < m.numStates)
    (g : ℕ → Frac) : Q.expect (c s) g = m.expect s fun t => g (c t) := by
  classical
  have hnodup := h.wellFormed.nodup_targets (c s)
  have hvalue : Q.expect (c s) g =
      (((Q.row (c s)).map (·.1)).map fun b => m.mass s {u | c u = b} * g b).sum := by
    rw [Model.expect, List.map_map]
    exact congrArg _ (List.map_congr_left fun e he => by rw [h.toFrac_eq hs he]; rfl)
  have hcolours : ∀ e ∈ m.row s, c e.1 ∈ ((m.row s).map fun e => c e.1).toFinset := fun e he =>
    List.mem_toFinset.2 (List.mem_map_of_mem he)
  have hzero : ∀ b, b ∉ (m.row s).map (fun e => c e.1) → m.mass s {u | c u = b} = 0 :=
    fun b hb => Model.mass_eq_zero fun e he heb => hb (List.mem_map.2 ⟨e, he, heb⟩)
  rw [hvalue, ← List.sum_toFinset _ hnodup]
  refine (Finset.sum_subset (fun b hb => ?_) fun b _ hb => ?_).trans
    (Model.expect_comp hcolours g).symm
  · rw [List.mem_toFinset, h.mem_targets_iff hc hs] at hb
    exact List.mem_toFinset.2 (by_contra fun hnot => hb (hzero b hnot))
  · rw [List.mem_toFinset, h.mem_targets_iff hc hs, not_not] at hb
    rw [hb, zero_mul]

theorem fits (h : IsQuotient m Q o c) (hw : m.WellFormed) (hphi : Matches m Q c phi phi')
    (hpsi : Matches m Q c psi psi') : Fits m phi psi ∧ Fits Q phi' psi' :=
  ⟨⟨hw, hphi.size, hpsi.size⟩, ⟨h.wellFormed, hphi.quotient_size, hpsi.quotient_size⟩⟩

theorem nextProb (h : IsQuotient m Q o c) (hw : m.WellFormed) (hc : m.IsCanonical)
    (hphi : Matches m Q c phi phi') : Lifts m Q c (nextProb m phi) (nextProb Q phi') := by
  obtain ⟨h1, h2, h3⟩ := nextProb_spec hc phi
  obtain ⟨h4, h5, h6⟩ := nextProb_spec h.canonical phi'
  refine ⟨h1, h4, h2, h5, fun s hs => ?_⟩
  rw [h6 (c s) (h.lt s hs), h3 s hs, Model.mass, Model.mass, h.expect_eq hc hs]
  refine Model.expect_congr fun e he => ?_
  classical
  simp only [Set.indicator_apply, Set.mem_ofPred_eq, hphi.contains_eq e.1 (hw.targets_lt s e he)]
  rfl

theorem boundedUntilProb (h : IsQuotient m Q o c) (hw : m.WellFormed) (hc : m.IsCanonical)
    (hphi : Matches m Q c phi phi') (hpsi : Matches m Q c psi psi') (k : ℕ) :
    Lifts m Q c (boundedUntilProb m phi psi k) (boundedUntilProb Q phi' psi' k) := by
  induction k with
  | zero =>
    obtain ⟨h1, h2, h3, -⟩ := boundedUntilProb_spec hc phi psi 0
    obtain ⟨h4, h5, h6, -⟩ := boundedUntilProb_spec h.canonical phi' psi' 0
    refine ⟨h1, h4, h2, h5, fun s hs => ?_⟩
    rw [h6 (c s) (h.lt s hs), h3 s hs, hpsi.contains_eq s hs]
  | succ k ih =>
    obtain ⟨h1, h2, -⟩ := boundedUntilProb_spec hc phi psi (k + 1)
    obtain ⟨h4, h5, -⟩ := boundedUntilProb_spec h.canonical phi' psi' (k + 1)
    refine ⟨h1, h4, h2, h5, fun s hs => ?_⟩
    rw [(boundedUntilProb_spec h.canonical phi' psi' k).2.2.2 (c s) (h.lt s hs),
      (boundedUntilProb_spec hc phi psi k).2.2.2 s hs, boundedValue, boundedValue,
      hpsi.contains_eq s hs, hphi.contains_eq s hs, h.expect_eq hc hs,
      Model.expect_congr fun e he => ih.vector_eq e.1 (hw.targets_lt s e he)]

section Positive

variable (h : IsQuotient m Q o c) (hw : m.WellFormed) (hc : m.IsCanonical)
  (hv : m.IsStochasticAt v)

include h hc hv

/-- The transitions of a class are those of each of its states, between classes. -/
theorem mem_targets_iff_edge (hs : s < m.numStates) (b : ℕ) :
    b ∈ (Q.row (c s)).map (·.1) ↔ ∃ e ∈ m.row s, c e.1 = b := by
  rw [h.mem_targets_iff hc hs, (hv.noCancelling hc).mass_ne_zero_iff hc hs]
  rfl

/-- The quotient has distributions at the same valuations. -/
theorem isStochasticAt : Q.IsStochasticAt v := by
  constructor
  case positive =>
    intro b e he
    obtain ⟨s, hs, rfl⟩ := h.surj b (Model.lt_of_mem_row he)
    rw [h.toFrac_eq hs he]
    exact hv.mass_pos ((h.mem_targets_iff_edge hc hv hs e.1).1 (List.mem_map_of_mem he))
  case sum_one =>
    intro b hb
    obtain ⟨s, hs, rfl⟩ := h.surj b hb
    rw [h.expect_eq hc hs]
    exact hv.sum_one s hs

include hw

/-- Paths in the quotient are paths in the model. -/
theorem pathInto_iff {T T' through through' : ℕ → Prop} (hT : ∀ s < m.numStates, T' (c s) ↔ T s)
    (hthrough : ∀ s < m.numStates, through' (c s) ↔ through s) (hs : s < m.numStates) :
    PathInto Q T' through' (c s) ↔ PathInto m T through s := by
  constructor
  · intro hpath
    generalize hb : c s = b at hpath
    induction hpath generalizing s with
    | here ht =>
      subst hb
      exact .here ((hT s hs).1 ht)
    | step ht he _ ih =>
      subst hb
      obtain ⟨e, he', heq⟩ :=
        (h.mem_targets_iff_edge hc hv hs _).1 (List.mem_map_of_mem (f := Prod.fst) he)
      exact .step ((hthrough s hs).1 ht) he' (ih (hw.targets_lt s e he') heq)
  · intro hpath
    induction hpath with
    | here ht => exact .here ((hT _ hs).2 ht)
    | step ht he _ ih =>
      obtain ⟨e, he', heq⟩ := List.mem_map.1 ((h.mem_targets_iff_edge hc hv hs _).2 ⟨_, he, rfl⟩)
      exact .step ((hthrough _ hs).2 ht) he' (heq ▸ ih (hw.targets_lt _ _ he))

theorem noStates (hphi : Matches m Q c phi phi') (hpsi : Matches m Q c psi psi') :
    Matches m Q c (noStates m phi psi) (noStates Q phi' psi') := by
  obtain ⟨hf, hf'⟩ := h.fits hw hphi hpsi
  refine ⟨prob0_size hpsi.size, prob0_size hpsi.quotient_size, fun s hs => ?_⟩
  rw [Bool.eq_iff_iff, mem_noStates hf' (h.lt s hs), mem_noStates hf hs, not_iff_not]
  refine h.pathInto_iff hw hc hv (fun t ht => ?_) (fun t ht => ?_) hs
  · rw [hpsi.contains_eq t ht]
  · rw [hphi.contains_eq t ht]

theorem yesStates (hphi : Matches m Q c phi phi') (hpsi : Matches m Q c psi psi') :
    Matches m Q c (yesStates m phi psi) (yesStates Q phi' psi') := by
  obtain ⟨hf, hf'⟩ := h.fits hw hphi hpsi
  have hno := h.noStates hw hc hv hphi hpsi
  refine ⟨prob1_size hno.size, prob1_size hno.quotient_size, fun s hs => ?_⟩
  rw [Bool.eq_iff_iff, mem_yesStates hf' (h.lt s hs), mem_yesStates hf hs, not_iff_not]
  refine h.pathInto_iff hw hc hv (fun t ht => ?_) (fun t ht => ?_) hs
  · rw [hno.contains_eq t ht]
  · rw [hphi.contains_eq t ht, hpsi.contains_eq t ht]

theorem mem_maybeStates_iff (hphi : Matches m Q c phi phi') (hpsi : Matches m Q c psi psi')
    (hs : s < m.numStates) : c s ∈ maybeStates Q phi' psi' ↔ s ∈ maybeStates m phi psi := by
  rw [mem_maybeStates (h.lt s hs), mem_maybeStates hs,
    (h.noStates hw hc hv hphi hpsi).contains_eq s hs,
    (h.yesStates hw hc hv hphi hpsi).contains_eq s hs]

/-! ## The computed vectors -/

theorem untilProb (hphi : Matches m Q c phi phi') (hpsi : Matches m Q c psi psi') :
    ∃ X Y, untilProb m phi psi = .ok X ∧ untilProb Q phi' psi' = .ok Y ∧ Lifts m Q c X Y := by
  obtain ⟨hf, hf'⟩ := h.fits hw hphi hpsi
  have hv' := h.isStochasticAt hc hv
  obtain ⟨X, hX, h1, h2, h3⟩ := untilProb_spec hf hc hv.isStochastic hv.readsAt
  obtain ⟨Y, hY, h4, h5, h6⟩ := untilProb_spec hf' h.canonical hv'.isStochastic hv'.readsAt
  have hsol := (h6 (vector Y)).2 fun _ _ => rfl
  refine ⟨X, Y, hX, hY, h1, h4, h2, h5, (h3 fun s => vector Y (c s)).1 ?_⟩
  constructor
  case one =>
    intro s hs hyes
    rw [← (h.yesStates hw hc hv hphi hpsi).contains_eq s hs] at hyes
    exact hsol.one (c s) (h.lt s hs) hyes
  case zero =>
    intro s hs hno
    rw [← (h.noStates hw hc hv hphi hpsi).contains_eq s hs] at hno
    exact hsol.zero (c s) (h.lt s hs) hno
  case maybe =>
    intro s hmem
    have hs := lt_of_mem_maybeStates hmem
    rw [← h.expect_eq hc hs]
    exact hsol.maybe (c s) ((h.mem_maybeStates_iff hw hc hv hphi hpsi hs).2 hmem)

theorem sureStates (htarget : Matches m Q c target target') :
    Matches m Q c (sureStates m target) (sureStates Q target') := by
  refine h.yesStates hw hc hv ⟨by simp [StateSet.full], by simp [StateSet.full], fun s hs => ?_⟩
    htarget
  rw [StateSet.contains_full (h.lt s hs), StateSet.contains_full hs]

/-- Expected rewards are the same, and so is the error when one is infinite. -/
theorem expectedReward (htarget : Matches m Q c target target')
    {r r' : RewardModel RationalFunction} (hr : AllCanonical r.values)
    (hr' : AllCanonical r'.values) (hvalue : ∀ s < m.numStates, r'.value (c s) = r.value s) :
    (∃ X Y, expectedReward m r target = .ok X ∧ expectedReward Q r' target' = .ok Y ∧
        Lifts m Q c X Y) ∨
      ∃ s < m.numStates, expectedReward m r target = .error (.infiniteReward s) ∧
        expectedReward Q r' target' = .error (.infiniteReward (c s)) := by
  have hsure := h.sureStates hw hc hv htarget
  have hv' := h.isStochasticAt hc hv
  rcases sure_or_smallest m target with hall | ⟨s, hs, hnot, hsmaller⟩
  · refine .inl ?_
    have hall' : ∀ b < Q.numStates, (Reach.sureStates Q target').contains b = true := by
      intro b hb
      obtain ⟨s, hs, rfl⟩ := h.surj b hb
      rw [hsure.contains_eq s hs]
      exact hall s hs
    obtain ⟨X, hX, h1, h2, h3⟩ :=
      expectedReward_spec hw hc hv.isStochastic hv.readsAt htarget.size hr hall
    obtain ⟨Y, hY, h4, h5, h6⟩ := expectedReward_spec h.wellFormed h.canonical hv'.isStochastic
      hv'.readsAt htarget.quotient_size hr' hall'
    have hsol := (h6 (vector Y)).2 fun _ _ => rfl
    refine ⟨X, Y, hX, hY, h1, h4, h2, h5, (h3 fun s => vector Y (c s)).1 ?_⟩
    constructor
    case zero =>
      intro s hs ht
      rw [← htarget.contains_eq s hs] at ht
      exact hsol.zero (c s) (h.lt s hs) ht
    case step =>
      intro s hs ht
      rw [← htarget.contains_eq s hs] at ht
      rw [← h.expect_eq hc hs, ← hvalue s hs]
      exact hsol.step (c s) (h.lt s hs) ht
  · refine .inr ⟨s, hs, expectedReward_infinite hs hnot hsmaller, ?_⟩
    refine expectedReward_infinite (h.lt s hs) (by rw [hsure.contains_eq s hs, hnot]) fun b hb => ?_
    obtain ⟨t, ht, rfl⟩ := h.growth s hs b hb
    rw [hsure.contains_eq t (ht.trans hs)]
    exact hsmaller t ht

end Positive

end IsQuotient

/-- The complementary probabilities. -/
theorem Lifts.complement {m Q : Model RationalFunction} {o : Observed RationalFunction} {c : ℕ → ℕ}
    {X Y : Array RationalFunction} (h : Lifts m Q c X Y) (hq : IsQuotient m Q o c) :
    Lifts m Q c (X.map (Value.sub Value.one)) (Y.map (Value.sub Value.one)) := by
  obtain ⟨h1, h2⟩ := vector_map_sub_one h.canonical
  obtain ⟨h3, h4⟩ := vector_map_sub_one h.quotient_canonical
  refine ⟨Array.size_map.trans h.size, Array.size_map.trans h.quotient_size, h1, h3, fun s hs => ?_⟩
  rw [h4 (c s) ((hq.lt s hs).trans_eq h.quotient_size.symm), h2 s (hs.trans_eq h.size.symm),
    h.vector_eq s hs]

end Bisim
end MarkovCheck

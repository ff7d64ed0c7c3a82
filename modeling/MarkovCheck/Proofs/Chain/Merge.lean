import Mathlib
import MarkovCheck.Proofs.Algebra.Order
import MarkovCheck.Proofs.Chain.Builder

/-!
# MarkovCheck.Proofs.Chain.Merge

Parallel transitions are added up.

Sorting brings the transitions between the same two states together, whatever the order in which they
were added, and bundling collects them. So a row has exactly the targets to which the added values do
not sum to zero, each once and with that sum.

* `flow`       — the sum of the values that were added between two states.
* `mem_rowsOf`, `rowsOf_ascend` — the rows of a matrix for any list of transitions.
-/

namespace MarkovCheck

open Std (LawfulEqCmp OrientedCmp TransCmp)

/-- The two states of a transition, in the order of the rows. -/
def Transition.key {V : Type} (t : Transition V) : ℕ ×ₗ ℕ := toLex (t.source, t.target)

/-- The two states of a bundle. -/
def Bundle.key {V : Type} (g : Bundle V) : ℕ ×ₗ ℕ := toLex (g.source, g.target)

section Bundles

variable {V : Type}

/-- The values of the transitions between two states. -/
def valuesAt (ts : List (Transition V)) (k : ℕ ×ₗ ℕ) : List V :=
  (ts.filter fun t => t.key = k).map (·.value)

namespace Bundle

theorem ofSorted_cons (t : Transition V) (ts : List (Transition V)) :
    ofSorted (t :: ts) = cons t (ofSorted ts) := rfl

theorem cons_of_key {t : Transition V} {g : Bundle V} (h : t.key = g.key) (rest : List (Bundle V)) :
    cons t (g :: rest) = ⟨g.source, g.target, t.value :: g.values⟩ :: rest := by
  have h' : (t.source, t.target) = (g.source, g.target) := h
  rw [Prod.mk.injEq] at h'
  exact if_pos h'

theorem cons_of_ne {t : Transition V} {g : Bundle V} (h : t.key ≠ g.key) (rest : List (Bundle V)) :
    cons t (g :: rest) = ⟨t.source, t.target, [t.value]⟩ :: g :: rest :=
  if_neg fun h' => h (congrArg toLex (Prod.ext h'.1 h'.2))

theorem mem_keys_ofSorted {ts : List (Transition V)} {k : ℕ ×ₗ ℕ} :
    k ∈ (ofSorted ts).map key ↔ k ∈ ts.map Transition.key := by
  induction ts with
  | nil => rfl
  | cons t ts ih =>
    rw [ofSorted_cons, List.map_cons, List.mem_cons, ← ih]
    rcases ofSorted ts with _ | ⟨g, rest⟩
    · exact List.mem_cons
    · by_cases h : t.key = g.key
      · rw [cons_of_key h, h, List.map_cons, List.map_cons, List.mem_cons, List.mem_cons]
        exact ⟨.inr, fun h => h.elim .inl id⟩
      · rw [cons_of_ne h]
        exact List.mem_cons

/-- Of sorted transitions, the bundles ascend, and each has all values of its states. -/
theorem ofSorted_spec {ts : List (Transition V)} (h : ts.Pairwise (·.key ≤ ·.key)) :
    (ofSorted ts).Pairwise (·.key < ·.key) ∧ ∀ g ∈ ofSorted ts, g.values = valuesAt ts g.key := by
  induction ts with
  | nil => exact ⟨.nil, nofun⟩
  | cons t ts ih =>
    rw [List.pairwise_cons] at h
    obtain ⟨hasc, hvalues⟩ := ih h.2
    have hle : ∀ g ∈ ofSorted ts, t.key ≤ g.key := by
      intro g hg
      obtain ⟨u, hu, hkey⟩ := List.mem_map.1 (mem_keys_ofSorted.1 (List.mem_map_of_mem hg))
      exact hkey ▸ h.1 u hu
    have hother : ∀ k, t.key ≠ k → valuesAt (t :: ts) k = valuesAt ts k := fun k hk => by
      rw [valuesAt, List.filter_cons_of_neg (by simpa using hk), valuesAt]
    have hsame : valuesAt (t :: ts) t.key = t.value :: valuesAt ts t.key := by
      rw [valuesAt, List.filter_cons_of_pos (by simp), List.map_cons, valuesAt]
    have hnone : (∀ g ∈ ofSorted ts, t.key < g.key) → valuesAt ts t.key = [] := by
      intro hlt
      rw [valuesAt, List.map_eq_nil_iff, List.filter_eq_nil_iff]
      intro u hu hkey
      obtain ⟨g, hg, hg'⟩ := List.mem_map.1 (mem_keys_ofSorted.2 (List.mem_map_of_mem hu))
      exact (hlt g hg).ne' (hg'.trans (by simpa using hkey))
    rw [ofSorted_cons]
    -- The first transition joins the first bundle, or starts one of its own.
    cases hgs : ofSorted ts with
    | nil =>
      refine ⟨List.pairwise_singleton _ _, fun g hg => ?_⟩
      obtain rfl := List.mem_singleton.1 hg
      change [t.value] = valuesAt (t :: ts) t.key
      rw [hsame, hnone (by rw [hgs]; exact nofun)]
    | cons g rest =>
      rw [hgs] at hasc hvalues hle hnone
      rw [List.pairwise_cons] at hasc
      by_cases hkey : t.key = g.key
      · rw [cons_of_key hkey]
        refine ⟨List.pairwise_cons.2 hasc, List.forall_mem_cons.2 ⟨?_, fun b hb => ?_⟩⟩
        · change t.value :: g.values = valuesAt (t :: ts) g.key
          rw [← hkey, hsame, hvalues g List.mem_cons_self, hkey]
        · rw [hother _ (hkey.trans_lt (hasc.1 b hb)).ne]
          exact hvalues b (List.mem_cons_of_mem g hb)
      · have hlt : ∀ b ∈ g :: rest, t.key < b.key := by
          have hg : t.key < g.key := lt_of_le_of_ne (hle g List.mem_cons_self) hkey
          exact List.forall_mem_cons.2 ⟨hg, fun b hb => hg.trans (hasc.1 b hb)⟩
        rw [cons_of_ne hkey]
        refine ⟨List.pairwise_cons.2 ⟨hlt, List.pairwise_cons.2 hasc⟩,
          List.forall_mem_cons.2 ⟨?_, fun b hb => ?_⟩⟩
        · change [t.value] = valuesAt (t :: ts) t.key
          rw [hsame, hnone hlt]
        · rw [hother _ (hlt b hb).ne]
          exact hvalues b hb

end Bundle
end Bundles

namespace Builder

/-! ## Merging -/

variable {ts : List (Transition RationalFunction)} {n s j : ℕ} {f : RationalFunction}

/-- The sum of the values that were added between two states. -/
noncomputable def flow (ts : List (Transition RationalFunction)) (s t : ℕ) : Frac :=
  ((valuesAt ts (toLex (s, t))).map RationalFunction.toFrac).sum

/-- Something was added between states whose values do not add up to zero. -/
theorem exists_of_flow_ne_zero (h : flow ts s j ≠ 0) : ∃ u ∈ ts, u.source = s ∧ u.target = j := by
  by_contra hnone
  push Not at hnone
  have hvalues : valuesAt ts (toLex (s, j)) = [] := by
    rw [valuesAt, List.map_eq_nil_iff, List.filter_eq_nil_iff]
    intro u hu hkey
    have hkey : (u.source, u.target) = (s, j) := of_decide_eq_true hkey
    rw [Prod.mk.injEq] at hkey
    exact hnone u hu hkey.1 hkey.2
  rw [flow, hvalues] at h
  exact h rfl

section Sorting

variable {V : Type} [Value V] [TransCmp (Value.cmp (V := V))]

instance : TransCmp (transitionCmp (V := V)) :=
  have : TransCmp fun a b : Transition V => compare a.source b.source :=
    { eq_swap := OrientedCmp.eq_swap, isLE_trans := TransCmp.isLE_trans }
  have : TransCmp fun a b : Transition V => compare a.target b.target :=
    { eq_swap := OrientedCmp.eq_swap, isLE_trans := TransCmp.isLE_trans }
  have : TransCmp fun a b : Transition V => Value.cmp a.value b.value :=
    { eq_swap := OrientedCmp.eq_swap, isLE_trans := TransCmp.isLE_trans }
  inferInstanceAs (TransCmp (compareLex _ (compareLex _ _)))

/-- Sorting with a total order leaves an ascending list. -/
theorem pairwise_mergeSort_cmp {α : Type} (cmp : α → α → Ordering) [TransCmp cmp] (l : List α) :
    (l.mergeSort fun a b => (cmp a b).isLE).Pairwise fun a b => (cmp a b).isLE = true := by
  refine List.pairwise_mergeSort (fun a b c => TransCmp.isLE_trans) (fun a b => ?_) l
  have hswap : cmp b a = (cmp a b).swap := OrientedCmp.eq_swap
  rw [hswap]
  cases cmp a b <;> rfl

/-- When only identical values are equal, a list has one ascending arrangement. -/
theorem eq_of_perm_of_ascend {α : Type} (cmp : α → α → Ordering) [TransCmp cmp] [LawfulEqCmp cmp]
    {l r : List α} (h : l.Perm r) (hl : l.Pairwise fun a b => (cmp a b).isLE = true)
    (hr : r.Pairwise fun a b => (cmp a b).isLE = true) : l = r := by
  have hantisymm : ∀ a b, (cmp a b).isLE = true → (cmp b a).isLE = true → a = b :=
    fun a b hab hba => LawfulEqCmp.eq_of_compare (OrientedCmp.isLE_antisymm hab hba)
  exact h.eq_of_pairwise (fun a b _ _ => hantisymm a b) hl hr

theorem mergeSort_cmp_perm {α : Type} (cmp : α → α → Ordering) [TransCmp cmp] [LawfulEqCmp cmp]
    {l r : List α} (h : l.Perm r) :
    (l.mergeSort fun a b => (cmp a b).isLE) = r.mergeSort fun a b => (cmp a b).isLE :=
  eq_of_perm_of_ascend cmp
    ((List.mergeSort_perm l _).trans (h.trans (List.mergeSort_perm r _).symm))
    (pairwise_mergeSort_cmp cmp l) (pairwise_mergeSort_cmp cmp r)

theorem sorted_keys (ts : List (Transition V)) :
    (ts.mergeSort fun a b => (transitionCmp a b).isLE).Pairwise (·.key ≤ ·.key) := by
  refine (pairwise_mergeSort_cmp transitionCmp ts).imp fun {a b} h => ?_
  simp only [Transition.key, Prod.Lex.toLex_le_toLex]
  unfold transitionCmp at h
  rcases lt_trichotomy a.source b.source with hlt | heq | hgt
  · exact .inl hlt
  · rw [Nat.compare_eq_eq.2 heq] at h
    refine .inr ⟨heq, not_lt.1 fun hgt => ?_⟩
    rw [Nat.compare_eq_gt.2 hgt] at h
    cases h
  · rw [Nat.compare_eq_gt.2 hgt] at h
    cases h

theorem mergeTransitions_ascend (ts : List (Transition V)) :
    (mergeTransitions ts).Pairwise (·.key < ·.key) := by
  refine List.Pairwise.filterMap _ (fun g g' hlt t ht t' ht' => ?_)
    (Bundle.ofSorted_spec (sorted_keys ts)).1
  dsimp only at ht ht'
  split at ht
  · cases ht
  · split at ht'
    · cases ht'
    · cases ht
      cases ht'
      exact hlt

/-- Merged transitions arrive row by row. -/
theorem mergeTransitions_sorted (ts : List (Transition V)) :
    (mergeTransitions ts).Pairwise (·.source ≤ ·.source) :=
  (mergeTransitions_ascend ts).imp fun h => (Prod.Lex.toLex_lt_toLex.1 h).elim le_of_lt fun h => h.1.le

theorem rowsOf_row {n s : ℕ} (hs : s < n) (ts : List (Transition V)) :
    (rowsOf n ts)[s]?.getD [] =
      ((mergeTransitions ts).filter fun t => t.source = s).map fun t => (t.target, t.value) := by
  rw [rowsOf, rows_compress (mergeTransitions_sorted ts) hs, Option.getD_some]

theorem rowsOf_ascend {n s : ℕ} (hs : s < n) (ts : List (Transition V)) :
    ((rowsOf n ts)[s]?.getD []).Pairwise (·.1 < ·.1) := by
  rw [rowsOf_row hs, List.pairwise_map]
  refine ((mergeTransitions_ascend ts).filter _).imp_of_mem fun {a b} ha hb hlt => ?_
  have hsource : a.source = b.source := by
    have h1 := (List.mem_filter.1 ha).2
    have h2 := (List.mem_filter.1 hb).2
    simp only [decide_eq_true_eq] at h1 h2
    rw [h1, h2]
  rcases (Prod.Lex.toLex_lt_toLex.1 hlt) with h | h
  · exact absurd hsource h.ne
  · exact h.2

section Sums

variable [LawfulEqCmp (Value.cmp (V := V))]

/-- Sorted transitions have the values between two states in their canonical order. -/
theorem valuesAt_mergeSort (ts : List (Transition V)) (k : ℕ ×ₗ ℕ) :
    valuesAt (ts.mergeSort fun a b => (transitionCmp a b).isLE) k = Value.sorted (valuesAt ts k) := by
  have hperm : (valuesAt (ts.mergeSort fun a b => (transitionCmp a b).isLE) k).Perm
      (Value.sorted (valuesAt ts k)) :=
    (((List.mergeSort_perm ts _).filter _).map _).trans (List.mergeSort_perm _ _).symm
  have hsorted : (valuesAt (ts.mergeSort fun a b => (transitionCmp a b).isLE) k).Pairwise
      fun a b => (Value.cmp a b).isLE = true := by
    rw [valuesAt, List.pairwise_map]
    refine ((pairwise_mergeSort_cmp transitionCmp ts).filter _).imp_of_mem fun {a b} ha hb h => ?_
    -- Between the same two states the values decide.
    have ha := of_decide_eq_true (List.mem_filter.1 ha).2
    have hb := of_decide_eq_true (List.mem_filter.1 hb).2
    have hkey : (a.source, a.target) = (b.source, b.target) := ha.trans hb.symm
    obtain ⟨hsource, htarget⟩ := Prod.mk.inj hkey
    rwa [transitionCmp, Nat.compare_eq_eq.2 hsource, Nat.compare_eq_eq.2 htarget] at h
  exact eq_of_perm_of_ascend Value.cmp hperm hsorted (pairwise_mergeSort_cmp _ _)

/-- A transition has the sum of what was added between its states. -/
theorem mem_mergeTransitions_sum {ts : List (Transition V)} {t : Transition V} :
    t ∈ mergeTransitions ts ↔ valuesAt ts t.key ≠ [] ∧
      t.value = Value.sumCanonical (valuesAt ts t.key) ∧ Value.isZero t.value = false := by
  simp only [mergeTransitions, List.mem_filterMap]
  have hvalues : ∀ g ∈ Bundle.ofSorted (ts.mergeSort fun a b => (transitionCmp a b).isLE),
      Value.sum g.values = Value.sumCanonical (valuesAt ts g.key) := fun g hg => by
    rw [(Bundle.ofSorted_spec (sorted_keys ts)).2 g hg, valuesAt_mergeSort, Value.sumCanonical]
  have hkeys : ∀ k, k ∈ (Bundle.ofSorted (ts.mergeSort fun a b => (transitionCmp a b).isLE)).map
      Bundle.key ↔ valuesAt ts k ≠ [] := fun k => by
    rw [Bundle.mem_keys_ofSorted, valuesAt, ne_eq, List.map_eq_nil_iff, List.filter_eq_nil_iff,
      List.mem_map]
    simp
  constructor
  · rintro ⟨g, hg, h⟩
    split at h
    · cases h
    · rename_i hz
      cases h
      refine ⟨(hkeys g.key).1 (List.mem_map_of_mem hg), hvalues g hg, Bool.eq_false_iff.2 hz⟩
  · rintro ⟨hne, hvalue, hz⟩
    obtain ⟨g, hg, hkey⟩ := List.mem_map.1 ((hkeys t.key).2 hne)
    refine ⟨g, hg, ?_⟩
    rw [hvalues g hg, hkey, ← hvalue, hz, if_neg Bool.false_ne_true]
    obtain ⟨hsource, htarget⟩ := Prod.mk.inj (show (g.source, g.target) = (t.source, t.target) from hkey)
    rw [hsource, htarget]

/-- A row has the sums of what was added from its state, without the sums that are zero. -/
theorem mem_rowsOf_sum {n s j : ℕ} {v : V} (hs : s < n) (ts : List (Transition V)) :
    (j, v) ∈ (rowsOf n ts)[s]?.getD [] ↔ valuesAt ts (toLex (s, j)) ≠ [] ∧
      v = Value.sumCanonical (valuesAt ts (toLex (s, j))) ∧ Value.isZero v = false := by
  rw [rowsOf_row hs, List.mem_map]
  constructor
  · rintro ⟨t, ht, heq⟩
    obtain ⟨ht, hsource⟩ := List.mem_filter.1 ht
    obtain ⟨rfl, rfl⟩ := Prod.mk.inj heq
    rw [← of_decide_eq_true hsource]
    exact mem_mergeTransitions_sum.1 ht
  · intro h
    exact ⟨⟨s, j, v⟩, List.mem_filter.2 ⟨mem_mergeTransitions_sum.2 h, by simp⟩, rfl⟩

end Sums

end Sorting

theorem rowsOf_size {V : Type} [Value V] (n : ℕ) (ts : List (Transition V)) : (rowsOf n ts).size = n :=
  Array.size_ofFn

instance : TransCmp (Value.cmp (V := RationalFunction)) := inferInstanceAs (TransCmp RationalFunction.cmp)

theorem flow_sorted (ts : List (Transition RationalFunction)) (s t : ℕ) :
    flow (ts.mergeSort fun a b => (transitionCmp a b).isLE) s t = flow ts s t :=
  ((((List.mergeSort_perm ts _).filter _).map _).map _).sum_eq

theorem bundle_spec (hcan : ∀ t ∈ ts, t.value.IsCanonical) {g : Bundle RationalFunction}
    (hg : g ∈ Bundle.ofSorted (ts.mergeSort fun a b => (transitionCmp a b).isLE)) :
    (Value.sum g.values).Denotes (flow ts g.source g.target) := by
  rw [(Bundle.ofSorted_spec (sorted_keys ts)).2 g hg, ← flow_sorted]
  refine Value.sum_denotes fun v hv => ?_
  obtain ⟨t, ht, rfl⟩ := List.mem_map.1 hv
  exact hcan t (List.mem_mergeSort.1 (List.mem_of_mem_filter ht))

theorem mem_mergeTransitions (hcan : ∀ t ∈ ts, t.value.IsCanonical)
    {t : Transition RationalFunction} : t ∈ mergeTransitions ts ↔
      flow ts t.source t.target ≠ 0 ∧ t.value.Denotes (flow ts t.source t.target) := by
  simp only [mergeTransitions, List.mem_filterMap]
  constructor
  · rintro ⟨g, hg, h⟩
    have hsum := bundle_spec hcan hg
    split at h
    · cases h
    · rename_i hz
      cases h
      refine ⟨?_, hsum⟩
      rw [← hsum.2]
      exact (RationalFunction.isZero_eq_false_iff hsum.1).1 (Bool.eq_false_iff.2 hz)
  · rintro ⟨hflow, hvalue⟩
    -- A sum that is not zero has a summand, and the bundle of that summand is the one.
    obtain ⟨u, hu⟩ : ∃ u, u ∈ valuesAt ts t.key := by
      refine List.exists_mem_of_ne_nil _ fun hnil => hflow ?_
      change ((valuesAt ts t.key).map _).sum = 0
      rw [hnil, List.map_nil, List.sum_nil]
    obtain ⟨e, he, rfl⟩ := List.mem_map.1 hu
    obtain ⟨he, hkey⟩ := List.mem_filter.1 he
    have hsorted : e ∈ ts.mergeSort fun a b => (transitionCmp a b).isLE := List.mem_mergeSort.2 he
    have hmem := Bundle.mem_keys_ofSorted.2 (List.mem_map_of_mem (f := Transition.key) hsorted)
    obtain ⟨g, hg, hgkey⟩ := List.mem_map.1 hmem
    rw [decide_eq_true_eq] at hkey
    have hstates : (g.source, g.target) = (t.source, t.target) := hgkey.trans hkey
    rw [Prod.mk.injEq] at hstates
    have hsum := bundle_spec hcan hg
    rw [hstates.1, hstates.2] at hsum
    have hz : Value.isZero t.value = false :=
      (RationalFunction.isZero_eq_false_iff hvalue.1).2 (hvalue.2 ▸ hflow)
    refine ⟨g, hg, ?_⟩
    rw [hsum.eq hvalue, hstates.1, hstates.2, hz, if_neg Bool.false_ne_true]

/-! ## Rows -/

/-- A row has the targets to which the added values do not sum to zero, with that sum. -/
theorem mem_rowsOf (hcan : ∀ t ∈ ts, t.value.IsCanonical) (hs : s < n) :
    (j, f) ∈ (rowsOf n ts)[s]?.getD [] ↔ flow ts s j ≠ 0 ∧ f.Denotes (flow ts s j) := by
  rw [rowsOf_row hs, List.mem_map]
  constructor
  · rintro ⟨t, ht, heq⟩
    obtain ⟨ht, hsource⟩ := List.mem_filter.1 ht
    obtain ⟨rfl, rfl⟩ := Prod.mk.inj heq
    rw [← of_decide_eq_true hsource]
    exact (mem_mergeTransitions hcan).1 ht
  · intro h
    exact ⟨⟨s, j, f⟩, List.mem_filter.2 ⟨(mem_mergeTransitions hcan).2 h, by simp⟩, rfl⟩

end Builder
end MarkovCheck

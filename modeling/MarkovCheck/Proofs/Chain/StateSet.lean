import Mathlib
import MarkovCheck.Chain.StateSet

/-!
# MarkovCheck.Proofs.Chain.StateSet

Membership in the sets that the operations build.

* `contains_insert`, `contains_compl`, `contains_inter`, `contains_union` — one lemma per operation,
  for sets of states below `n`.
* `ext_of_contains` — a set is determined by its members.
* `mem_toList` — the members as a list.
-/

namespace MarkovCheck
namespace StateSet

variable {a b : StateSet} {n i j : ℕ}

theorem lt_of_contains (h : a.contains i = true) : i < a.bits.size := by
  by_contra hge
  rw [contains, Array.getElem?_eq_none (not_lt.1 hge)] at h
  cases h

/-- Sets of equally many states with the same members are equal. -/
theorem ext_of_contains (hsize : a.bits.size = b.bits.size)
    (h : ∀ i < a.bits.size, a.contains i = b.contains i) : a = b := by
  refine congrArg StateSet.mk (Array.ext hsize fun i h1 h2 => ?_)
  have := h i h1
  rwa [contains, contains, Array.getElem?_eq_getElem h1, Array.getElem?_eq_getElem h2] at this

theorem contains_insert (hi : i < a.bits.size) :
    (a.insert i).contains j = true ↔ a.contains j = true ∨ j = i := by
  simp only [contains, insert]
  by_cases hij : i = j
  · subst hij
    simp [hi]
  · rw [Array.getElem?_setIfInBounds_ne hij, or_iff_left (Ne.symm hij)]

theorem size_insert (a : StateSet) (i : ℕ) : (a.insert i).bits.size = a.bits.size := by
  simp [insert]

theorem size_compl (a : StateSet) : a.compl.bits.size = a.bits.size := by
  simp [compl]

theorem contains_compl (hi : i < a.bits.size) : a.compl.contains i = !a.contains i := by
  simp [contains, compl, hi]

theorem contains_inter (ha : a.bits.size = n) (hb : b.bits.size = n) (i : ℕ) :
    (a.inter b).contains i = (a.contains i && b.contains i) := by
  by_cases hi : i < n
  · simp [contains, inter, ha, hb, hi]
  · simp [contains, inter, ha, hb, hi]

theorem contains_union (ha : a.bits.size = n) (hb : b.bits.size = n) (i : ℕ) :
    (a.union b).contains i = (a.contains i || b.contains i) := by
  by_cases hi : i < n
  · simp [contains, union, ha, hb, hi]
  · simp [contains, union, ha, hb, hi]

theorem size_inter (ha : a.bits.size = n) (hb : b.bits.size = n) :
    (a.inter b).bits.size = n := by
  simp [inter, ha, hb]

theorem size_union (ha : a.bits.size = n) (hb : b.bits.size = n) :
    (a.union b).bits.size = n := by
  simp [union, ha, hb]

theorem contains_full (hi : i < n) : (full n).contains i = true := by
  simp [contains, full, hi]

theorem contains_empty (n i : ℕ) : (empty n).contains i = false := by
  by_cases hi : i < n
  · simp [contains, empty, hi]
  · simp [contains, empty, hi]

theorem mem_toList : i ∈ a.toList ↔ a.contains i = true := by
  rw [toList, List.mem_filter, List.mem_range]
  exact ⟨And.right, fun h => ⟨lt_of_contains h, h⟩⟩

theorem size_ofList (n : ℕ) (l : List ℕ) : (ofList n l).bits.size = n := by
  have hfold : ∀ a : StateSet, (l.foldl insert a).bits.size = a.bits.size := by
    induction l with
    | nil => exact fun _ => rfl
    | cons s l ih => exact fun a => (ih (a.insert s)).trans (size_insert a s)
  rw [ofList, hfold, empty, Array.size_replicate]

theorem contains_ofList_of_lt (hi : i < n) (l : List ℕ) :
    (ofList n l).contains i = true ↔ i ∈ l := by
  have hfold : ∀ a : StateSet, a.bits.size = n →
      ((l.foldl insert a).contains i = true ↔ a.contains i = true ∨ i ∈ l) := by
    induction l with
    | nil => simp
    | cons s l ih =>
      intro a ha
      have hinsert : (a.insert s).contains i = true ↔ a.contains i = true ∨ i = s := by
        by_cases hs : s < a.bits.size
        · exact contains_insert hs
        · have hne : i ≠ s := fun h => hs (h ▸ ha ▸ hi)
          rw [contains, insert, Array.getElem?_setIfInBounds_ne hne.symm, or_iff_left hne]
          rfl
      rw [List.foldl_cons, ih _ ((size_insert a s).trans ha), hinsert, List.mem_cons, or_assoc]
  rw [ofList, hfold _ (by simp [empty]), contains_empty]
  simp

theorem contains_ofList {l : List ℕ} (hl : ∀ s ∈ l, s < n) :
    (ofList n l).contains i = true ↔ i ∈ l := by
  by_cases hi : i < n
  · exact contains_ofList_of_lt hi l
  · refine iff_of_false (fun h => hi ?_) fun h => hi (hl i h)
    exact (lt_of_contains h).trans_eq (size_ofList n l)

end StateSet
end MarkovCheck

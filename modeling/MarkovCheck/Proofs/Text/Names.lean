import Mathlib
import MarkovCheck.Text.Names

/-!
# MarkovCheck.Proofs.Text.Names

Sets of names have the names of the lists they are made from, each once.

* `mem_unionNames`, `mem_sortNames` — the names.
* `sortNames_nodup`                 — no name twice.
-/

namespace MarkovCheck

theorem mem_insertName {x y : String} {l : List String} :
    y ∈ insertName x l ↔ y = x ∨ y ∈ l := by
  induction l with
  | nil => simp [insertName]
  | cons z l ih =>
    simp only [insertName]
    split
    · simp
    · rename_i h
      obtain rfl := Std.compare_eq_iff_eq.1 h
      simp
    · simp only [List.mem_cons, ih]
      tauto

theorem mem_unionNames {y : String} {xs ys : List String} :
    y ∈ unionNames xs ys ↔ y ∈ xs ∨ y ∈ ys := by
  unfold unionNames
  induction xs with
  | nil => simp
  | cons x xs ih =>
    rw [List.foldr_cons, mem_insertName, ih, List.mem_cons, or_assoc]

theorem mem_sortNames {y : String} {xs : List String} : y ∈ sortNames xs ↔ y ∈ xs := by
  rw [sortNames, mem_unionNames]
  simp

theorem insertName_ascend {x : String} {l : List String} (h : l.Pairwise (· < ·)) :
    (insertName x l).Pairwise (· < ·) := by
  induction l with
  | nil => exact List.pairwise_singleton _ _
  | cons z l ih =>
    have hz := List.pairwise_cons.1 h
    simp only [insertName]
    split
    · rename_i hlt
      rw [compare_lt_iff_lt] at hlt
      refine List.pairwise_cons.2 ⟨List.forall_mem_cons.2 ⟨hlt, fun y hy => ?_⟩, h⟩
      exact hlt.trans (hz.1 y hy)
    · exact h
    · rename_i hgt
      rw [compare_gt_iff_gt] at hgt
      refine List.pairwise_cons.2 ⟨fun y hy => ?_, ih hz.2⟩
      rcases mem_insertName.1 hy with rfl | hy
      · exact hgt
      · exact hz.1 y hy

theorem sortNames_nodup (xs : List String) : (sortNames xs).Nodup := by
  have : (sortNames xs).Pairwise (· < ·) := by
    unfold sortNames unionNames
    induction xs with
    | nil => exact .nil
    | cons x xs ih => exact insertName_ascend ih
  exact this.imp fun h => h.ne

end MarkovCheck

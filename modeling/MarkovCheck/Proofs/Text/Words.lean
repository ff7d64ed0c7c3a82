import Mathlib
import MarkovCheck.Proofs.Text.Integer
import MarkovCheck.Proofs.Text.Line

/-!
# MarkovCheck.Proofs.Text.Words

Lines that consist of words with spaces in between.

* `IsWords` — the words of a line are its fields, and it fits on a line.
* `getLast?_intercalate`, `length_le_intercalate` — parts that are put together.
-/

namespace MarkovCheck
namespace Text

section Parts

variable {l : List (List Char)} {c : Char}

theorem mem_intercalate (h : c ∈ [' '].intercalate l) : c = ' ' ∨ ∃ w ∈ l, c ∈ w := by
  induction l with
  | nil => cases h
  | cons w l ih =>
    cases l with
    | nil =>
      rw [List.intercalate_singleton] at h
      exact .inr ⟨w, List.mem_cons_self, h⟩
    | cons v l =>
      rw [List.intercalate_cons_cons, List.mem_append, List.mem_append, List.mem_singleton] at h
      rcases h with (h | h) | h
      · exact .inr ⟨w, List.mem_cons_self, h⟩
      · exact .inl h
      · refine (ih h).imp_right ?_
        rintro ⟨u, hu, hc⟩
        exact ⟨u, List.mem_cons_of_mem w hu, hc⟩

theorem intercalate_append {α : Type} (sep w : List α) (ws : List (List α)) :
    ∃ rest, sep.intercalate (w :: ws) = w ++ rest := by
  cases ws with
  | nil => exact ⟨[], by rw [List.intercalate_singleton, List.append_nil]⟩
  | cons v ws => exact ⟨_, by rw [List.intercalate_cons_cons, List.append_assoc]⟩

theorem length_le_intercalate (h : ∀ w ∈ l, w ≠ []) :
    l.length ≤ ([' '].intercalate l).length := by
  induction l with
  | nil => exact Nat.zero_le _
  | cons w l ih =>
    rw [List.forall_mem_cons] at h
    have hw : 0 < w.length := List.length_pos_iff.2 h.1
    cases l with
    | nil =>
      rw [List.intercalate_singleton]
      exact hw
    | cons v l =>
      have hl := ih h.2
      rw [List.intercalate_cons_cons, List.length_append, List.length_append, List.length_cons]
      omega

theorem getLast?_intercalate (hne : l ≠ []) (h : ∀ w ∈ l, w.getLast? = some c) :
    ([' '].intercalate l).getLast? = some c := by
  induction l with
  | nil => exact absurd rfl hne
  | cons w l ih =>
    rw [List.forall_mem_cons] at h
    cases l with
    | nil =>
      rw [List.intercalate_singleton]
      exact h.1
    | cons v l =>
      rw [List.intercalate_cons_cons, List.getLast?_append, ih (List.cons_ne_nil v l) h.2]
      rfl

end Parts

/-- The text consists of words with spaces in between. -/
structure IsWords (line : String) (ws : List (List Char)) : Prop where
  toList_eq : line.toList = [' '].intercalate ws
  word : ∀ w ∈ ws, IsWord w

namespace IsWords

variable {line : String} {ws : List (List Char)} {c : Char} (h : IsWords line ws)

include h

theorem fields_eq : fields line.toList = ws := by
  rw [h.toList_eq, fields_intercalate h.word]

/-- The only blanks are the spaces in between. -/
theorem eq_space (hc : c ∈ line.toList) (hblank : isBlank c = true) : c = ' ' := by
  rw [h.toList_eq] at hc
  refine (mem_intercalate hc).resolve_right ?_
  rintro ⟨w, hw, hc⟩
  rw [(h.word w hw).not_blank c hc] at hblank
  cases hblank

theorem isLine : IsLine line where
  lineFeed hmem := absurd (h.eq_space hmem (by decide)) (by decide)
  carriageReturn hlast := absurd (h.eq_space (List.mem_of_getLast? hlast) (by decide)) (by decide)

theorem isContent (hws : ws ≠ []) : line.toList.all isBlank = false := by
  have hfields := h.fields_eq
  rw [Bool.eq_false_iff, ne_eq, List.all_eq_true]
  intro hblank
  exact hws (hfields.symm.trans (fields_eq_nil hblank))

end IsWords

end Text
end MarkovCheck

import Mathlib
import MarkovCheck.Text.Blank

/-!
# MarkovCheck.Proofs.Text.Field

Words that are put together with spaces are the fields of the text.

* `fields_word`, `fields_intercalate` — the fields of words.
* `trim_eq_nil_iff`, `trim_word`      — texts of blanks alone, and texts without blanks.
* `trim_blanks`, `exists_blanks`      — words between blanks.
-/

namespace MarkovCheck
namespace Text

variable {w s rest : List Char} {c : Char}

/-- A word has characters, none of them a blank. -/
structure IsWord (w : List Char) : Prop where
  ne_nil : w ≠ []
  not_blank : ∀ c ∈ w, isBlank c = false

theorem isBlank_space : isBlank ' ' = true := by decide

theorem isBlank_of_all {w : List Char} (h : w.all (!isBlank ·) = true) :
    ∀ c ∈ w, isBlank c = false := by
  simpa only [List.all_eq_true, Bool.not_eq_true'] using h

/-! ## Fields -/

theorem fieldsFrom_append (h : ∀ c ∈ w, isBlank c = false) (field rest : List Char) :
    fieldsFrom field (w ++ rest) = fieldsFrom (w.reverse ++ field) rest := by
  induction w generalizing field with
  | nil => rfl
  | cons c w ih =>
    rw [List.forall_mem_cons] at h
    rw [List.cons_append, fieldsFrom, if_neg (Bool.eq_false_iff.1 h.1), ih h.2, List.reverse_cons,
      List.append_assoc, List.singleton_append]

theorem fields_blank (h : isBlank c = true) (s : List Char) : fields (c :: s) = fields s := by
  rw [fields, fieldsFrom, if_pos h]
  rfl

theorem fields_eq_nil (h : ∀ c ∈ s, isBlank c = true) : fields s = [] := by
  induction s with
  | nil => rfl
  | cons c s ih =>
    rw [List.forall_mem_cons] at h
    rw [fields_blank h.1, ih h.2]

theorem fields_last (h : IsWord w) : fields w = [w] := by
  have hfields := fieldsFrom_append h.not_blank [] []
  rw [List.append_nil, List.append_nil] at hfields
  have hne : w.reverse.isEmpty = false :=
    List.isEmpty_eq_false_iff.2 (List.reverse_ne_nil_iff.2 h.ne_nil)
  rw [fields, hfields, fieldsFrom, hne, List.reverse_reverse]
  rfl

/-- A word in front of a blank is the first field. -/
theorem fields_word (h : IsWord w) (hc : isBlank c = true) (rest : List Char) :
    fields (w ++ c :: rest) = w :: fields rest := by
  have hne : w.reverse.isEmpty = false :=
    List.isEmpty_eq_false_iff.2 (List.reverse_ne_nil_iff.2 h.ne_nil)
  rw [fields, fieldsFrom_append h.not_blank, List.append_nil, fieldsFrom, if_pos hc, hne,
    List.reverse_reverse]
  rfl

theorem fields_intercalate {ws : List (List Char)} (h : ∀ w ∈ ws, IsWord w) :
    fields ([' '].intercalate ws) = ws := by
  induction ws with
  | nil => rfl
  | cons w ws ih =>
    rw [List.forall_mem_cons] at h
    cases ws with
    | nil => rw [List.intercalate_singleton, fields_last h.1]
    | cons v ws =>
      rw [List.intercalate_cons_cons, List.append_assoc, List.singleton_append,
        fields_word h.1 isBlank_space, ih h.2]

/-! ## Trimming -/

/-- Nothing is left of a text exactly if all of it is blank. -/
theorem trim_eq_nil_iff : trim s = [] ↔ ∀ c ∈ s, isBlank c = true := by
  rw [trim, trimEnd, List.reverse_eq_nil_iff, List.dropWhile_eq_nil_iff]
  refine ⟨fun h => List.dropWhile_eq_nil_iff.1 ?_, fun h c hc => ?_⟩
  · by_contra hne
    -- What is left in front of the blanks at the end starts with a character that is none.
    have hhead := List.head_dropWhile_not isBlank hne
    rw [h _ (List.mem_reverse.2 (List.head_mem hne))] at hhead
    cases hhead
  · exact h c ((List.dropWhile_sublist _).subset (List.mem_reverse.1 hc))

theorem dropWhile_word (h : ∀ c ∈ w, isBlank c = false) : w.dropWhile isBlank = w := by
  cases w with
  | nil => rfl
  | cons c w => exact List.dropWhile_cons_of_neg (Bool.eq_false_iff.1 (h c List.mem_cons_self))

theorem trim_word (h : ∀ c ∈ w, isBlank c = false) : trim w = w := by
  have hrev : ∀ c ∈ w.reverse, isBlank c = false := fun c hc => h c (List.mem_reverse.1 hc)
  rw [trim, trimEnd, dropWhile_word h, dropWhile_word hrev, List.reverse_reverse]

section Blanks

variable {before after : List Char} (hbefore : ∀ c ∈ before, isBlank c = true)
  (hafter : ∀ c ∈ after, isBlank c = true)
include hbefore hafter

/-- Trimming leaves a word that stands between blanks. -/
theorem trim_blanks (hw : IsWord w) : trim (before ++ (w ++ after)) = w := by
  have hfront : (w ++ after).dropWhile isBlank = w ++ after := by
    obtain ⟨c, v, rfl⟩ := List.exists_cons_of_ne_nil hw.ne_nil
    exact List.dropWhile_cons_of_neg (Bool.eq_false_iff.1 (hw.not_blank c List.mem_cons_self))
  have hback : ∀ c ∈ w.reverse, isBlank c = false := fun c hc =>
    hw.not_blank c (List.mem_reverse.1 hc)
  rw [trim, trimEnd, List.dropWhile_append_of_pos hbefore, hfront, List.reverse_append,
    List.dropWhile_append_of_pos fun c hc => hafter c (List.mem_reverse.1 hc), dropWhile_word hback,
    List.reverse_reverse]

end Blanks

/-- What trimming takes off is blank. -/
theorem exists_blanks (s : List Char) : ∃ before after, (∀ c ∈ before, isBlank c = true) ∧
    (∀ c ∈ after, isBlank c = true) ∧ s = before ++ (trim s ++ after) := by
  refine ⟨s.takeWhile isBlank, ((s.dropWhile isBlank).reverse.takeWhile isBlank).reverse,
    fun c hc => List.mem_takeWhile_imp hc,
    fun c hc => List.mem_takeWhile_imp (List.mem_reverse.1 hc), ?_⟩
  rw [trim, trimEnd, ← List.reverse_append, List.takeWhile_append_dropWhile, List.reverse_reverse,
    List.takeWhile_append_dropWhile]

end Text
end MarkovCheck

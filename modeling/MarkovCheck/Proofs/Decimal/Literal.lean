import Mathlib
import MarkovCheck.Decimal.Literal

/-!
# MarkovCheck.Proofs.Decimal.Literal

Splitting texts at a character.

* `splitAtFirst_append`, `splitAtFirst_eq_some_iff` — the parts of a text with such a character.
* `splitAtFirst_of_forall` — a text without one.
-/

namespace MarkovCheck
namespace Decimal

variable {p : Char → Bool} {s before after : List Char} {c : Char}

theorem splitAtFirst_append (h : ∀ x ∈ before, p x = false) (hc : p c = true) (after : List Char) :
    splitAtFirst p (before ++ c :: after) = (before, some after) := by
  induction before with
  | nil => exact if_pos hc
  | cons x before ih =>
    rw [List.forall_mem_cons] at h
    rw [List.cons_append, splitAtFirst, if_neg (Bool.eq_false_iff.1 h.1), ih h.2]

theorem splitAtFirst_of_forall (h : ∀ x ∈ s, p x = false) : splitAtFirst p s = (s, none) := by
  induction s with
  | nil => rfl
  | cons x s ih =>
    rw [List.forall_mem_cons] at h
    rw [splitAtFirst, if_neg (Bool.eq_false_iff.1 h.1), ih h.2]

/-- A text is split at the first character that satisfies the predicate. -/
theorem splitAtFirst_eq_some_iff : splitAtFirst p s = (before, some after) ↔
    (∀ x ∈ before, p x = false) ∧ ∃ c, p c = true ∧ s = before ++ c :: after := by
  constructor
  · intro h
    induction s generalizing before with
    | nil => cases h
    | cons x s ih =>
      rw [splitAtFirst] at h
      split at h
      · rename_i hx
        cases h
        exact ⟨fun _ hmem => absurd hmem List.not_mem_nil, x, hx, rfl⟩
      · rename_i hx
        obtain ⟨rfl, hafter⟩ := Prod.mk.inj h
        obtain ⟨hbefore, c, hc, hs⟩ := ih (Prod.ext rfl hafter)
        exact ⟨List.forall_mem_cons.2 ⟨Bool.eq_false_iff.2 hx, hbefore⟩, c, hc, congrArg (x :: ·) hs⟩
  · rintro ⟨hbefore, c, hc, rfl⟩
    exact splitAtFirst_append hbefore hc after

end Decimal
end MarkovCheck

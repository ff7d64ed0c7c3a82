import Mathlib
import MarkovCheck.Chain.Model
import MarkovCheck.Proofs.Algebra.RationalFunction

/-!
# MarkovCheck.Proofs.Chain.Vector

Arrays with an entry for every state.

* `vector`, `AllCanonical`  — an array of stored values as a function of the state.
* `foldl_setIfInBounds_spec` — the entries after writes at different positions.
-/

namespace MarkovCheck

/-- An array of stored values as a vector; it is zero past its end. -/
noncomputable def vector (X : Array RationalFunction) (j : ℕ) : Frac :=
  (X[j]?.getD Value.zero).toFrac

/-- All values are in canonical form. -/
def AllCanonical (X : Array RationalFunction) : Prop := ∀ v ∈ X, v.IsCanonical

variable {X Y : Array RationalFunction}

theorem AllCanonical.getD (h : AllCanonical X) (j : ℕ) :
    (X[j]?.getD Value.zero).Denotes (vector X j) := by
  rcases hj : X[j]? with _ | v
  · exact ⟨RationalFunction.denotes_zero.1, by rw [vector, hj]⟩
  · exact ⟨h v (Array.mem_of_getElem? hj), by rw [vector, hj]⟩

theorem AllCanonical.getElem?_eq (hX : AllCanonical X) (hY : AllCanonical Y) {i j : ℕ}
    (hi : i < X.size) (hj : j < Y.size) (h : vector X i = vector Y j) : X[i]? = Y[j]? := by
  have h1 := hX.getD i
  have h2 := hY.getD j
  rw [Array.getElem?_eq_getElem hi, Option.getD_some] at h1
  rw [Array.getElem?_eq_getElem hj, Option.getD_some, ← h] at h2
  rw [Array.getElem?_eq_getElem hi, Array.getElem?_eq_getElem hj, h1.eq h2]

/-- Writes at different positions: what stands there afterwards, and elsewhere. -/
theorem foldl_setIfInBounds_spec {α β : Type} (g : α → β) {l : List (ℕ × α)}
    (hl : (l.map (·.1)).Nodup) (a : Array β) :
    (l.foldl (fun a e => a.setIfInBounds e.1 (g e.2)) a).size = a.size ∧
      (∀ e ∈ l, e.1 < a.size →
        (l.foldl (fun a e => a.setIfInBounds e.1 (g e.2)) a)[e.1]? = some (g e.2)) ∧
      ∀ s, s ∉ l.map (·.1) → (l.foldl (fun a e => a.setIfInBounds e.1 (g e.2)) a)[s]? = a[s]? := by
  induction l generalizing a with
  | nil => exact ⟨rfl, fun e he => (List.not_mem_nil he).elim, fun _ _ => rfl⟩
  | cons d l ih =>
    rw [List.map_cons, List.nodup_cons] at hl
    obtain ⟨h1, h2, h3⟩ := ih hl.2 (a.setIfInBounds d.1 (g d.2))
    rw [Array.size_setIfInBounds] at h1 h2
    rw [List.foldl_cons]
    refine ⟨h1, fun e he hlt => ?_, fun s hs => ?_⟩
    · rcases List.mem_cons.1 he with rfl | he
      · rw [h3 e.1 hl.1, Array.getElem?_setIfInBounds_self_of_lt hlt]
      · exact h2 e he hlt
    · rw [List.map_cons, List.mem_cons, not_or] at hs
      rw [h3 s hs.2, Array.getElem?_setIfInBounds_ne (Ne.symm hs.1)]

end MarkovCheck

import Mathlib
import MarkovCheck.Proofs.Chain.Builder
import MarkovCheck.Proofs.Chain.StateSet

/-!
# MarkovCheck.Proofs.Chain.Labeling

A labeling is determined by its names and by who carries them.

* `contains_iff`, `has_eq_contains` — names and states, in terms of the entries.
* `IsSized`     — all labels are sets over the states of the labeling, as they are in a labeling that
  was built from the empty one.
* `states?_eq`, `eq_of_has` — labelings in which the same states carry a label, or all labels.
-/

namespace MarkovCheck

/-- Entries with the same names in the same order are equal when those of the same name are. -/
theorem eq_of_map_eq {α β : Type} {f : α → β} {l r : List α} (h : l.map f = r.map f)
    (heq : ∀ a ∈ l, ∀ b ∈ r, f a = f b → a = b) : l = r := by
  induction l generalizing r with
  | nil => exact (List.map_eq_nil_iff.1 h.symm).symm
  | cons a l ih =>
    obtain ⟨b, r, rfl, hab, htail⟩ := List.map_eq_cons_iff.1 h.symm
    rw [heq a List.mem_cons_self b List.mem_cons_self hab.symm, ih htail.symm fun c hc d hd =>
      heq c (List.mem_cons_of_mem a hc) d (List.mem_cons_of_mem b hd)]

namespace Labeling

variable {l k : Labeling} {name : String} {S : StateSet}

/-! ## Names and states -/

theorem contains_iff : l.contains name = true ↔ name ∈ l.names := Builder.lookup_isSome_iff

theorem contains_iff_exists : l.contains name = true ↔ ∃ S, l.states? name = some S :=
  Option.isSome_iff_exists

theorem not_contains_iff : (!l.contains name) = true ↔ l.states? name = none := by
  rw [contains, Option.not_isSome, Option.isNone_iff_eq_none]

theorem has_eq_false (h : name ∉ l.names) (s : ℕ) : l.has name s = false := by
  have hnone : l.states? name = none := by
    rw [← not_contains_iff, Bool.not_eq_true', ← Bool.not_eq_true, contains_iff]
    exact h
  rw [has, hnone]

/-- The entry of a label says which states carry it. -/
theorem has_eq_contains (hnames : l.names.Nodup) {e : String × StateSet} (he : e ∈ l.labels) (s : ℕ) :
    l.has e.1 s = e.2.contains s := by
  rw [has, states?, Builder.lookup_of_mem hnames he]

/-! ## Sizes -/

/-- Every label has a truth value for every state. -/
def IsSized (l : Labeling) : Prop := ∀ e ∈ l.labels, e.2.bits.size = l.numStates

theorem empty_isSized (n : ℕ) : (empty n).IsSized := fun _ he => (List.not_mem_nil he).elim

/-- What holds of all sets of states still holds after one of them was changed or a new one appended. -/
theorem forall_mem_upsert {P : StateSet → Prop} {change : StateSet → StateSet} {fresh : StateSet}
    (hchange : ∀ S, P S → P (change S)) (hfresh : P fresh) {labels : List (String × StateSet)}
    (h : ∀ e ∈ labels, P e.2) : ∀ e ∈ upsert name change fresh labels, P e.2 := by
  induction labels with
  | nil =>
    intro e he
    obtain rfl := List.mem_singleton.1 he
    exact hfresh
  | cons e labels ih =>
    rw [List.forall_mem_cons] at h
    rw [upsert]
    split
    · exact List.forall_mem_cons.2 ⟨hchange _ h.1, h.2⟩
    · exact List.forall_mem_cons.2 ⟨h.1, ih h.2⟩

theorem IsSized.set (h : l.IsSized) (hS : S.bits.size = l.numStates) : (l.set name S).IsSized :=
  forall_mem_upsert (P := fun T => T.bits.size = l.numStates) (fun _ _ => hS) hS h

theorem IsSized.addState (h : l.IsSized) (s : ℕ) : (l.addState name s).IsSized := by
  refine forall_mem_upsert (P := fun T => T.bits.size = l.numStates)
    (fun S hS => (StateSet.size_insert S s).trans hS) ?_ h
  rw [StateSet.size_insert, StateSet.empty, Array.size_replicate]

theorem IsSized.size (h : l.IsSized) (hS : l.states? name = some S) : S.bits.size = l.numStates := by
  rw [states?, List.lookup_eq_some_iff] at hS
  obtain ⟨before, after, heq, -⟩ := hS
  exact h (name, S) (heq ▸ List.mem_append_right _ List.mem_cons_self)

/-! ## Extensionality -/

/-- Labelings in which the same states carry a label have the same set for it. -/
theorem IsSized.states?_eq (hk : k.IsSized) (hl : l.IsSized) (hn : k.numStates = l.numStates)
    (hcontains : k.contains name = l.contains name)
    (hhas : ∀ s < l.numStates, k.has name s = l.has name s) : k.states? name = l.states? name := by
  simp only [contains] at hcontains
  simp only [has] at hhas
  rcases hkS : k.states? name with _ | S <;> rcases hlT : l.states? name with _ | T <;>
    simp only [hkS, hlT, Option.isSome_none, Option.isSome_some, reduceCtorEq] at hcontains hhas
  · rfl
  · have hS := (hk.size hkS).trans hn
    refine congrArg some (StateSet.ext_of_contains (hS.trans (hl.size hlT).symm) fun s hs => ?_)
    exact hhas s (hs.trans_eq hS)

/-- Labelings with the same names in the same order, carried by the same states, are equal. -/
theorem IsSized.eq_of_has (hk : k.IsSized) (hl : l.IsSized) (hn : k.numStates = l.numStates)
    (hnames : k.names = l.names) (hnodup : l.names.Nodup)
    (hhas : ∀ name, ∀ s < l.numStates, k.has name s = l.has name s) : k = l := by
  have hlabels : k.labels = l.labels := eq_of_map_eq hnames fun e he d hd heq => by
    have hsize := (hk e he).trans hn
    refine Prod.ext heq (StateSet.ext_of_contains (hsize.trans (hl d hd).symm) fun s hs => ?_)
    rw [← has_eq_contains (hnames ▸ hnodup) he, ← has_eq_contains hnodup hd, heq,
      hhas d.1 s (hs.trans_eq hsize)]
  obtain ⟨kn, ks⟩ := k
  obtain ⟨ln, ls⟩ := l
  cases hn
  cases hlabels
  rfl

end Labeling

theorem Model.WellFormed.isSized {V : Type} [Value V] {m : Model V} (h : m.WellFormed) :
    m.labeling.IsSized := fun e he => (h.label_size e he).trans h.labeling_size.symm

end MarkovCheck

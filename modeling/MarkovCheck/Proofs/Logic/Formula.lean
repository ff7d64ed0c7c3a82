import Mathlib
import MarkovCheck.Logic.Formula
import MarkovCheck.Proofs.Chain.Labeling

/-!
# MarkovCheck.Proofs.Logic.Formula

State formulas are evaluated pointwise, and depend on their labels only.

The states of a formula are computed with operations on sets, from the labels upwards. Membership
commutes with each operation as long as all sets are over the same states, which is so in a labeling
that was built from the empty one. What goes wrong is decided from left to right, which is also the
order in which the labels of a formula are listed, so the error names the first of them that is
unknown.

* `states?_label`, `states?_not`, `states?_and`, `states?_or` — the states of a formula from those of
  its parts.
* `states?_of_known`, `states?_of_unknown` — which formulas have states, and what is reported for the
  others.
* `Labeling.IsSized.contains_states?` — the members of the set, by the truth of the formula.
* `states?_congr` — labelings that agree on the labels of a formula.
* `states?_exact` — all of this together.
-/

namespace MarkovCheck

namespace StateFormula

variable {l k : Labeling} {f g : StateFormula} {name : String} {S : StateSet}

theorem states?_label : (label name).states? l = .ok S ↔ l.states? name = some S := by
  simp only [states?]
  cases l.states? name with
  | none => simp
  | some T => simp

theorem states?_not : f.not.states? l = .ok S ↔ ∃ U, f.states? l = .ok U ∧ U.compl = S := by
  simp only [states?]
  cases f.states? l with
  | error e => simp
  | ok U => simp

theorem states?_and : (f.and g).states? l = .ok S ↔
    ∃ U W, f.states? l = .ok U ∧ g.states? l = .ok W ∧ U.inter W = S := by
  simp only [states?]
  cases f.states? l with
  | error e => simp
  | ok U => cases g.states? l <;> simp

theorem states?_or : (f.or g).states? l = .ok S ↔
    ∃ U W, f.states? l = .ok U ∧ g.states? l = .ok W ∧ U.union W = S := by
  simp only [states?]
  cases f.states? l with
  | error e => simp
  | ok U => cases g.states? l <;> simp

theorem find?_unknown_eq_none :
    f.labels.find? (!l.contains ·) = none ↔ ∀ name ∈ f.labels, l.contains name := by
  simp [List.find?_eq_none]

/-- A formula whose labels are known has a set of states. -/
theorem states?_of_known (h : ∀ name ∈ f.labels, l.contains name) :
    ∃ S, f.states? l = .ok S := by
  induction f with
  | true => exact ⟨_, rfl⟩
  | false => exact ⟨_, rfl⟩
  | label name =>
    obtain ⟨S, hS⟩ := Labeling.contains_iff_exists.1 (h name List.mem_cons_self)
    exact ⟨S, states?_label.2 hS⟩
  | not f ih =>
    obtain ⟨U, hU⟩ := ih h
    exact ⟨U.compl, states?_not.2 ⟨U, hU, rfl⟩⟩
  | and f g ihf ihg =>
    rw [labels, List.forall_mem_append] at h
    obtain ⟨U, hU⟩ := ihf h.1
    obtain ⟨W, hW⟩ := ihg h.2
    exact ⟨U.inter W, states?_and.2 ⟨U, W, hU, hW, rfl⟩⟩
  | or f g ihf ihg =>
    rw [labels, List.forall_mem_append] at h
    obtain ⟨U, hU⟩ := ihf h.1
    obtain ⟨W, hW⟩ := ihg h.2
    exact ⟨U.union W, states?_or.2 ⟨U, W, hU, hW, rfl⟩⟩

/-- The first unknown label of a formula is reported. -/
theorem states?_of_unknown (h : f.labels.find? (!l.contains ·) = some name) :
    f.states? l = .error (.unknownLabel name) := by
  -- The unknown label is in the left part, or the left part has a set of states.
  have hpair : ∀ {f g : StateFormula}, (f.labels ++ g.labels).find? (!l.contains ·) = some name →
      f.labels.find? (!l.contains ·) = some name ∨
        (∃ U, f.states? l = .ok U) ∧ g.labels.find? (!l.contains ·) = some name := by
    intro f g h
    rw [List.find?_append, Option.or_eq_some_iff] at h
    exact h.imp_right fun ⟨hf, hg⟩ => ⟨states?_of_known (find?_unknown_eq_none.1 hf), hg⟩
  induction f with
  | true => cases h
  | false => cases h
  | label other =>
    rw [labels, List.find?_singleton] at h
    obtain ⟨hunknown, heq⟩ := Option.ite_none_right_eq_some.1 h
    cases heq
    simp only [states?, Labeling.not_contains_iff.1 hunknown]
  | not f ih => simp only [states?, ih h]
  | and f g ihf ihg | or f g ihf ihg =>
    rcases hpair h with hf | ⟨⟨U, hU⟩, hg⟩
    · simp only [states?, ihf hf]
    · simp only [states?, hU, ihg hg]

/-- A formula with a set of states refers to known labels only. -/
theorem known_of_states? (h : f.states? l = .ok S) : ∀ name ∈ f.labels, l.contains name := by
  rw [← find?_unknown_eq_none]
  rcases hfind : f.labels.find? (!l.contains ·) with _ | first
  · rfl
  · cases h.symm.trans (states?_of_unknown hfind)

/-- Only the labels that occur matter. -/
theorem states?_congr (hsize : k.numStates = l.numStates)
    (h : ∀ name ∈ f.labels, k.states? name = l.states? name) : f.states? k = f.states? l := by
  induction f with
  | true | false => simp only [states?, hsize]
  | label name => simp only [states?, h name (List.mem_singleton_self name)]
  | not f ih => simp only [states?, ih h]
  | and f g ihf ihg | or f g ihf ihg =>
    rw [labels, List.forall_mem_append] at h
    simp only [states?, ihf h.1, ihg h.2]

end StateFormula

namespace Labeling

variable {l : Labeling} {f : StateFormula} {S : StateSet}

open StateFormula

theorem IsSized.size_states? (hl : l.IsSized) (h : f.states? l = .ok S) :
    S.bits.size = l.numStates := by
  induction f generalizing S with
  | true =>
    cases h
    exact Array.size_replicate
  | false =>
    cases h
    exact Array.size_replicate
  | label name => exact hl.size (states?_label.1 h)
  | not f ih =>
    obtain ⟨U, hU, rfl⟩ := states?_not.1 h
    exact (StateSet.size_compl U).trans (ih hU)
  | and f g ihf ihg =>
    obtain ⟨U, W, hU, hW, rfl⟩ := states?_and.1 h
    exact StateSet.size_inter (ihf hU) (ihg hW)
  | or f g ihf ihg =>
    obtain ⟨U, W, hU, hW, rfl⟩ := states?_or.1 h
    exact StateSet.size_union (ihf hU) (ihg hW)

/-- A state is in the set of a formula exactly if the formula is true for the labels it carries. -/
theorem IsSized.contains_states? (hl : l.IsSized) (h : f.states? l = .ok S) {s : ℕ}
    (hs : s < l.numStates) : S.contains s = f.holds fun name => l.has name s := by
  induction f generalizing S with
  | true =>
    cases h
    exact StateSet.contains_full hs
  | false =>
    cases h
    exact StateSet.contains_empty _ _
  | label name => rw [holds, has, states?_label.1 h]
  | not f ih =>
    obtain ⟨U, hU, rfl⟩ := states?_not.1 h
    rw [StateSet.contains_compl (hs.trans_eq (hl.size_states? hU).symm), ih hU, holds]
  | and f g ihf ihg =>
    obtain ⟨U, W, hU, hW, rfl⟩ := states?_and.1 h
    rw [StateSet.contains_inter (hl.size_states? hU) (hl.size_states? hW), ihf hU, ihg hW, holds]
  | or f g ihf ihg =>
    obtain ⟨U, W, hU, hW, rfl⟩ := states?_or.1 h
    rw [StateSet.contains_union (hl.size_states? hU) (hl.size_states? hW), ihf hU, ihg hW, holds]

end Labeling

namespace StateFormula

/-- For every formula and every labeling: the formula has a set of states exactly if the labeling
knows all its labels, and otherwise the first label is reported that it does not know. When all labels
are sets over the states of the labeling, a state is in the set exactly if the formula is true for the
labels it carries, and labelings of equally many states that agree on the labels of the formula give
the same result. -/
theorem states?_exact (f : StateFormula) (l : Labeling) :
    ((∃ S, f.states? l = .ok S) ↔ ∀ name ∈ f.labels, l.contains name) ∧
      (∀ e, f.states? l = .error e ↔
        ∃ name, f.labels.find? (!l.contains ·) = some name ∧ e = .unknownLabel name) ∧
      (l.IsSized →
        (∀ S, f.states? l = .ok S → S.bits.size = l.numStates ∧
          ∀ s < l.numStates, S.contains s = f.holds fun name => l.has name s) ∧
        ∀ k : Labeling, k.IsSized → k.numStates = l.numStates →
          (∀ name ∈ f.labels, k.contains name = l.contains name ∧
            ∀ s < l.numStates, k.has name s = l.has name s) →
          f.states? k = f.states? l) := by
  refine ⟨⟨?_, states?_of_known⟩, fun e => ⟨fun h => ?_, ?_⟩, fun hl => ⟨fun S hS => ?_, ?_⟩⟩
  · rintro ⟨S, hS⟩
    exact known_of_states? hS
  · rcases hfind : f.labels.find? (!l.contains ·) with _ | name
    · obtain ⟨S, hS⟩ := states?_of_known (find?_unknown_eq_none.1 hfind)
      cases h.symm.trans hS
    · cases h.symm.trans (states?_of_unknown hfind)
      exact ⟨name, rfl, rfl⟩
  · rintro ⟨name, hname, rfl⟩
    exact states?_of_unknown hname
  · exact ⟨hl.size_states? hS, fun s => hl.contains_states? hS⟩
  · intro k hk hn hagree
    refine states?_congr hn fun name hname => ?_
    obtain ⟨hcontains, hhas⟩ := hagree name hname
    exact hk.states?_eq hl hn hcontains hhas

/-- Of three states the first carries `a` and the second `b`. The first state satisfies `a & !b` and
the second does not, another label changes nothing, and of two unknown labels the first is reported. -/
theorem two_labels_states?_exact :
    let l := ((Labeling.empty 3).addState "a" 0).addState "b" 1
    l.IsSized ∧
      (∃ S, ((label "a").and (.not (.label "b"))).states? l = .ok S ∧ S.contains 0 ∧ !S.contains 1) ∧
      ((label "a").and (.not (.label "b"))).states? (l.addState "c" 2) =
        ((label "a").and (.not (.label "b"))).states? l ∧
      ((label "a").and ((label "d").or (.label "c"))).states? l = .error (.unknownLabel "d") := by
  intro l
  have hl : l.IsSized := ((Labeling.empty_isSized 3).addState 0).addState 1
  obtain ⟨hok, -, hsized⟩ := states?_exact ((label "a").and (.not (.label "b"))) l
  obtain ⟨hstates, hcongr⟩ := hsized hl
  obtain ⟨-, herror, -⟩ := states?_exact ((label "a").and ((label "d").or (.label "c"))) l
  obtain ⟨S, hS⟩ := hok.2 (by decide)
  obtain ⟨-, hcontains⟩ := hstates S hS
  refine ⟨hl, ⟨S, hS, ?_, ?_⟩, hcongr _ (hl.addState 2) rfl (by decide), (herror _).2 ⟨"d", by decide, rfl⟩⟩
  · exact (hcontains 0 (by decide)).trans (by decide)
  · rw [hcontains 1 (by decide)]
    decide

end StateFormula
end MarkovCheck

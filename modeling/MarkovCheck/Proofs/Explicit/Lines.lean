import Mathlib
import MarkovCheck.Explicit.Reader
import MarkovCheck.Proofs.Decimal.Literal
import MarkovCheck.Proofs.Text.Field

/-!
# MarkovCheck.Proofs.Explicit.Lines

The lines of the explicit format.

Reading succeeds exactly on the lines that have one of the forms that the format gives them, and it
returns what stands there. So what is read is known without looking at the reader again.

* `IsTransitionLine`, `IsStateLine`  — the forms of lines.
* `IsTransitionFile`, `IsLabelFile`  — the forms of files.
* `readTransitions_ok`, `readLabels_ok` — files that are read.
-/

namespace MarkovCheck
namespace Explicit

variable {line : List Char} {names : LabelNames} {s : ℕ} {ls : List String} {t : Transition Double}

/-! ## Lines -/

/-- Three fields that are the source, the target and the probability of a transition. -/
def IsTransitionLine (line : List Char) (t : Transition Double) : Prop :=
  ∃ source target probability, Text.fields line = [source, target, probability] ∧
    readIndex? source = some t.source ∧ readIndex? target = some t.target ∧
      Double.ofText? probability = some t.value

theorem readTransition?_eq_some : readTransition? line = some t ↔ IsTransitionLine line t := by
  unfold readTransition?
  constructor
  · intro h
    split at h
    · rename_i source target probability hfields
      split at h
      · rename_i hsource htarget hvalue
        cases h
        exact ⟨source, target, probability, hfields, hsource, htarget, hvalue⟩
      · cases h
    · cases h
  · rintro ⟨source, target, probability, hfields, hsource, htarget, hvalue⟩
    simp only [hfields, hsource, htarget, hvalue]

/-- A state, a colon and the indices of declared labels. -/
def IsStateLine (names : LabelNames) (line : List Char) (s : ℕ) (ls : List String) : Prop :=
  ∃ state indices, line = state ++ ':' :: indices ∧ ':' ∉ state ∧
    readIndex? (Text.trim state) = some s ∧
      List.Forall₂ (fun index name => ∃ i, readIndex? index = some i ∧ names.lookup i = some name)
        (Text.fields indices) ls

theorem namesOf?_eq_some {indices : List (List Char)} : namesOf? names indices = some ls ↔
    List.Forall₂ (fun index name => ∃ i, readIndex? index = some i ∧ names.lookup i = some name)
      indices ls := by
  unfold namesOf?
  induction indices generalizing ls with
  | nil =>
    rw [List.mapM_nil, List.forall₂_nil_left_iff, eq_comm]
    exact Option.some_inj
  | cons index indices ih =>
    rw [List.mapM_cons, List.forall₂_cons_left_iff]
    simp only [Option.bind_eq_bind, Option.bind_eq_some_iff, Option.pure_def, Option.some_inj, ih]
    constructor
    · rintro ⟨name, hname, names', hnames, rfl⟩
      exact ⟨name, names', hname, hnames, rfl⟩
    · rintro ⟨name, names', hname, hnames, rfl⟩
      exact ⟨name, hname, names', hnames, rfl⟩

theorem readStateLabels?_eq_some :
    readStateLabels? names line = some (s, ls) ↔ IsStateLine names line s ls := by
  unfold readStateLabels?
  constructor
  · intro h
    split at h
    · cases h
    · rename_i state indices hsplit
      split at h
      · rename_i hstate hnames
        cases h
        obtain ⟨hbefore, c, hc, rfl⟩ := Decimal.splitAtFirst_eq_some_iff.1 hsplit
        obtain rfl : c = ':' := beq_iff_eq.1 hc
        refine ⟨state, indices, rfl, fun hmem => ?_, hstate, namesOf?_eq_some.1 hnames⟩
        exact absurd (hbefore ':' hmem) (by decide)
      · cases h
  · rintro ⟨state, indices, rfl, hcolon, hstate, hnames⟩
    have hbefore : ∀ x ∈ state, (x == ':') = false := fun x hx =>
      beq_eq_false_iff_ne.2 fun heq => hcolon (heq ▸ hx)
    rw [Decimal.splitAtFirst_append hbefore rfl]
    simp only [hstate, namesOf?_eq_some.2 hnames]

/-! ## Lists of lines -/

theorem readTransitionLines_ok {lines : List (ℕ × List Char)} {ts : List (Transition Double)} :
    readTransitionLines lines = .ok ts ↔
      List.Forall₂ IsTransitionLine (lines.map (·.2)) ts := by
  rw [List.forall₂_map_left_iff]
  induction lines generalizing ts with
  | nil =>
    rw [List.forall₂_nil_left_iff]
    exact ⟨fun h => (Except.ok.inj h).symm, fun h => h ▸ rfl⟩
  | cons l lines ih =>
    simp only [readTransitionLines]
    constructor
    · intro h
      split at h
      · cases h
      · rename_i t ht
        split at h
        · cases h
        · rename_i ts' hts
          cases h
          exact .cons (readTransition?_eq_some.1 ht) (ih.1 hts)
    · rintro (_ | ⟨ht, hts⟩)
      simp only [readTransition?_eq_some.2 ht, ih.2 hts]

theorem readStateLabelLines_ok {lines : List (ℕ × List Char)} {states : List (ℕ × List String)} :
    readStateLabelLines names lines = .ok states ↔
      List.Forall₂ (fun line e => IsStateLine names line e.1 e.2) (lines.map (·.2)) states := by
  rw [List.forall₂_map_left_iff]
  induction lines generalizing states with
  | nil =>
    rw [List.forall₂_nil_left_iff]
    exact ⟨fun h => (Except.ok.inj h).symm, fun h => h ▸ rfl⟩
  | cons l lines ih =>
    simp only [readStateLabelLines]
    constructor
    · intro h
      split at h
      · cases h
      · rename_i e he
        split at h
        · cases h
        · rename_i states' hstates
          cases h
          exact .cons (readStateLabels?_eq_some.1 he) (ih.1 hstates)
    · rintro (_ | ⟨he, hstates⟩)
      simp only [readStateLabels?_eq_some.2 he, ih.2 hstates]

/-! ## Files -/

/-- The lines that hold anything else than blanks. -/
def contentLines (lines : List String) : List (List Char) :=
  (lines.map String.toList).filter fun line => !line.all Text.isBlank

theorem contentLines_eq {lines : List String}
    (h : ∀ line ∈ lines, line.toList.all Text.isBlank = false) :
    contentLines lines = lines.map String.toList := by
  rw [contentLines, List.filter_eq_self, List.forall_mem_map]
  exact fun line hline => by rw [h line hline, Bool.not_false]

theorem content_numbered (n : ℕ) (lines : List String) :
    ((numbered n lines).filter isContent).map (·.2) = contentLines lines := by
  have htrim : ∀ line : List Char, (Text.trim line).isEmpty = line.all Text.isBlank := fun line => by
    rw [Bool.eq_iff_iff, List.isEmpty_iff, Text.trim_eq_nil_iff, List.all_eq_true]
  induction lines generalizing n with
  | nil => rfl
  | cons s lines ih =>
    rw [numbered, contentLines, List.map_cons, List.filter_cons, List.filter_cons, ← contentLines,
      isContent, htrim]
    split
    · rw [List.map_cons, ih]
    · exact ih (n + 1)

/-- A header with the number of states and the number of transitions, and as many transitions. -/
def IsTransitionFile (lines : List String) (n : ℕ) (ts : List (Transition Double)) : Prop :=
  ∃ header rest, lines = header :: rest ∧
    readTransitionHeader header.toList = .ok (n, ts.length) ∧
      List.Forall₂ IsTransitionLine (contentLines rest) ts

theorem readTransitions_ok {lines : List String} {n : ℕ} {ts : List (Transition Double)} :
    readTransitions lines = .ok (n, ts) ↔ IsTransitionFile lines n ts := by
  unfold readTransitions
  cases lines with
  | nil => exact iff_of_false nofun fun ⟨_, _, h, _⟩ => List.cons_ne_nil _ _ h.symm
  | cons header rest =>
    simp only [numbered]
    constructor
    · intro h
      split at h
      · cases h
      · rename_i states expected hheader
        split at h
        · cases h
        · rename_i ts' hts
          split at h
          · rename_i hlength
            cases h
            refine ⟨header, rest, rfl, hlength ▸ hheader, ?_⟩
            rw [← content_numbered 2]
            exact readTransitionLines_ok.1 hts
          · cases h
    · rintro ⟨_, _, heq, hheader, hts⟩
      cases heq
      rw [← content_numbered 2] at hts
      simp only [hheader, readTransitionLines_ok.2 hts, if_pos]

/-- No line at all, or a header that declares labels, and labels for states. -/
def IsLabelFile (lines : List String) (labels : LabelFile) : Prop :=
  lines = [] ∧ labels = ⟨[], []⟩ ∨ ∃ header rest names, lines = header :: rest ∧
    readLabelHeader header.toList = .ok names ∧ labels.names = names.map (·.2) ∧
      List.Forall₂ (fun line e => IsStateLine names line e.1 e.2) (contentLines rest) labels.states

theorem readLabels_ok {lines : List String} {labels : LabelFile} :
    readLabels lines = .ok labels ↔ IsLabelFile lines labels := by
  unfold readLabels IsLabelFile
  cases lines with
  | nil =>
    simp only [numbered, true_and, reduceCtorEq, false_and, exists_false, or_false, Except.ok.injEq,
      eq_comm]
  | cons header rest =>
    simp only [numbered, reduceCtorEq, false_and, false_or]
    constructor
    · intro h
      split at h
      · cases h
      · rename_i names hnames
        split at h
        · cases h
        · rename_i states hstates
          cases h
          refine ⟨header, rest, names, rfl, hnames, rfl, ?_⟩
          rw [← content_numbered 2]
          exact readStateLabelLines_ok.1 hstates
    · rintro ⟨_, _, names, heq, hnames, hlabels, hstates⟩
      cases heq
      rw [← content_numbered 2] at hstates
      simp only [hnames, readStateLabelLines_ok.2 hstates, ← hlabels]

end Explicit
end MarkovCheck

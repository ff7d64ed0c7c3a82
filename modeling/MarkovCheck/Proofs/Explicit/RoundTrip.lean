import Mathlib
import MarkovCheck.Proofs.Chain.Union
import MarkovCheck.Proofs.Double.Sum
import MarkovCheck.Proofs.Explicit.Read
import MarkovCheck.Proofs.Explicit.Written

/-!
# MarkovCheck.Proofs.Explicit.RoundTrip

A model that is written is read again.

The files that are written have the forms of the format, so they are read, as the transitions and labels
of the model. Rows ascend and have no zeros, so adding up leaves them as they are. Initial states travel
as the states of a label, which is why an ordinary label of that name is lost, and labels without states
survive because the header declares them.

* `write_read` — reading what was written.
-/

namespace MarkovCheck
namespace Explicit

open Builder (Operation)

variable {m m' : Model Double} {s : ℕ} {name : String}

/-! ## What is added -/

theorem marks_labelFile : (labelFile m).Marks s name ↔
    s < m.numStates ∧ name ∈ writtenNames m ∧ marks m s name = true := by
  have hmem : ∀ s, name ∈ (writtenLabels m s).map (·.1) ↔
      name ∈ writtenNames m ∧ marks m s name = true := fun s => by
    simp only [writtenLabels, List.mem_map, List.mem_filter]
    constructor
    · rintro ⟨e, ⟨he, hmarks⟩, rfl⟩
      exact ⟨List.fst_mem_of_mem_zipIdx he, hmarks⟩
    · rintro ⟨hname, hmarks⟩
      rw [← List.zipIdx_map_fst 0 (writtenNames m), List.mem_map] at hname
      obtain ⟨e, he, rfl⟩ := hname
      exact ⟨e, ⟨he, hmarks⟩, rfl⟩
  simp only [LabelFile.Marks, labelFile, List.mem_map, mem_labelledStates]
  constructor
  · rintro ⟨_, ⟨s, ⟨hs, -⟩, rfl⟩, rfl, hname⟩
    exact ⟨hs, (hmem s).1 hname⟩
  · rintro ⟨hs, hname⟩
    have hname := (hmem s).2 hname
    refine ⟨_, ⟨s, ⟨hs, fun hnil => ?_⟩, rfl⟩, rfl, hname⟩
    rw [hnil] at hname
    cases hname

theorem marks_initial (hm : m.WellFormed) :
    (labelFile m).Marks s initialLabel ↔ s ∈ m.initial := by
  rw [marks_labelFile, marks, if_pos rfl, List.contains_iff_mem]
  exact ⟨fun h => h.2.2, fun h => ⟨hm.initial_lt s h, List.mem_cons_self, h⟩⟩

theorem marks_label (hm : m.WellFormed) (hname : name ≠ initialLabel) :
    (labelFile m).Marks s name ↔ m.labeling.has name s = true := by
  rw [marks_labelFile, marks, if_neg hname]
  refine ⟨fun h => h.2.2, fun h => ?_⟩
  have hmem : name ∈ m.labeling.names := by
    by_contra hnot
    rw [Labeling.has_eq_false hnot] at h
    cases h
  obtain ⟨l, hl, rfl⟩ := List.mem_map.1 hmem
  refine ⟨?_, List.mem_cons_of_mem _ (List.mem_filter.2 ⟨hmem, decide_eq_true hname⟩), h⟩
  rw [Labeling.has_eq_contains hm.label_names hl] at h
  exact (StateSet.lt_of_contains h).trans_eq (hm.label_size l hl)

/-- What is added for the files of a model. -/
def writtenOperations (m : Model Double) : List (Operation Double) :=
  operations m.numStates (transitions m) (labelFile m)

theorem numStates_written (hm : m.WellFormed) :
    (Builder.run (writtenOperations m)).numStates = m.numStates := by
  have hmem : .requireStates m.numStates ∈ writtenOperations m := List.mem_cons_self
  refine le_antisymm (Builder.numStates_run_le ?_) (Builder.numStates_le_run hmem)
  have hdeclared : (labelFile m).names.contains initialLabel = true :=
    List.contains_iff_mem.2 List.mem_cons_self
  rw [writtenOperations, operations, if_pos hdeclared, List.append_nil]
  refine List.forall_mem_cons.2 ⟨le_rfl, List.forall_mem_append.2 ⟨List.forall_mem_append.2 ⟨?_, ?_⟩, ?_⟩⟩
  · refine List.forall_mem_map.2 fun t ht => ?_
    obtain ⟨hsource, hrow⟩ := Builder.mem_transitionsOf.1 ht
    have htarget : t.target < m.numStates := hm.targets_lt _ _ hrow
    exact Nat.succ_le_of_lt (max_lt hsource htarget)
  · exact List.forall_mem_map.2 fun _ _ => Nat.zero_le _
  · intro op hop
    obtain ⟨e, he, hop⟩ := List.mem_flatMap.1 hop
    obtain ⟨name, -, rfl⟩ := List.mem_map.1 hop
    obtain ⟨s, hs, rfl⟩ := List.mem_map.1 he
    have hlt := (mem_labelledStates.1 hs).1
    unfold labelOperation
    split <;> exact hlt

theorem labelNames_written (hm : m.WellFormed) :
    (Builder.run (writtenOperations m)).labelNames = m.labeling.names.filter (· ≠ initialLabel) := by
  have hdeclared : (labelFile m).names.filter (· ≠ initialLabel) =
      m.labeling.names.filter (· ≠ initialLabel) := by
    rw [labelFile, writtenNames, List.filter_cons_of_neg (by simp), List.filter_filter]
    simp only [Bool.and_self]
  have hstates : ((labelFile m).states.flatMap fun e => e.2.filter (· ≠ initialLabel)).removeAll
      (m.labeling.names.filter (· ≠ initialLabel)) = [] := by
    rw [List.removeAll, List.filter_eq_nil_iff, List.forall_mem_flatMap]
    intro e he name hname
    obtain ⟨hname, hne⟩ := List.mem_filter.1 hname
    have hmarks : (labelFile m).Marks e.1 name := ⟨e, he, rfl, hname⟩
    have hwritten := (marks_labelFile.1 hmarks).2.1
    have hmem := (List.mem_cons.1 hwritten).resolve_left (of_decide_eq_true hne)
    rw [List.elem_iff.2 hmem]
    exact Bool.false_ne_true
  rw [Builder.labelNames_run, writtenOperations, labels_operations, hdeclared, List.eraseDups_append,
    hstates, List.eraseDups_nil, List.append_nil, eraseDups_of_nodup (hm.label_names.filter _)]

/-! ## The model that is read -/

section Finish

variable (hm : m.WellFormed) (h : IsWritable m)
  (hbuild : (build m.numStates (transitions m) (labelFile m)).finish .dtmc = .ok m')

include hm hbuild

theorem numStates_read : m'.numStates = m.numStates := by
  rw [build_eq_run] at hbuild
  rw [Builder.finish_numStates hbuild]
  exact numStates_written hm

include h in
theorem row_read (s : ℕ) : m'.row s = m.row s := by
  have hn := numStates_read hm hbuild
  rw [build_eq_run] at hbuild
  obtain ⟨hsize, hrows⟩ := Builder.rowsOf_transitionsOf (n := m.numStates) hm.targets_ascend
    (fun s e he => Double.sum_singleton_number (h.number s e he) (hm.values_ne_zero s e he))
    hm.values_ne_zero
  have hrow : m'.row s = (Builder.rowsOf m.numStates (transitions m))[s]?.getD [] := by
    rw [Builder.finish_row hbuild, Builder.transitions_run, transitions_operations,
      ← Builder.finish_numStates hbuild, hn]
  rw [hrow]
  by_cases hs : s < m.numStates
  · rw [transitions, hrows s hs, Option.getD_some]
  · rw [transitions, Array.getElem?_eq_none (by rw [hsize]; exact not_lt.1 hs), Model.row,
      Array.getElem?_eq_none (not_lt.1 hs)]

theorem initial_read : m'.initial = m.initial := by
  have hascend : m'.initial.Pairwise (· < ·) := by
    obtain ⟨-, rfl⟩ := Builder.finish_eq hbuild
    exact Builder.sortStates_ascend _
  have hdeclared : initialLabel ∈ (labelFile m).names := List.mem_cons_self
  refine eq_of_ascend (f := id) hascend hm.initial_ascend fun s => ?_
  rw [(isDescribedBy_of_finish hbuild).initial, or_iff_left fun h => h.1 hdeclared, marks_initial hm]

theorem labels_read : m'.labeling.labels = m.labeling.labels.filter (·.1 ≠ initialLabel) := by
  have hn := numStates_read hm hbuild
  have hnames : m'.labeling.names = (m.labeling.labels.filter (·.1 ≠ initialLabel)).map (·.1) := by
    have hdeclared : m'.labeling.names = (Builder.run (writtenOperations m)).labelNames := by
      rw [build_eq_run] at hbuild
      obtain ⟨-, rfl⟩ := Builder.finish_eq hbuild
      rw [Labeling.names, List.map_map]
      rfl
    rw [hdeclared, labelNames_written hm, Labeling.names, List.filter_map]
    rfl
  have hnodup : m'.labeling.names.Nodup := by
    rw [hnames]
    exact hm.label_names.sublist (List.filter_sublist.map _)
  have hsize : ∀ l ∈ m'.labeling.labels, l.2.bits.size = m.numStates := by
    rw [← hn, Builder.finish_numStates hbuild]
    obtain ⟨-, rfl⟩ := Builder.finish_eq hbuild
    exact List.forall_mem_map.2 fun l _ => StateSet.size_ofList _ _
  -- Entries of the same name have the same states.
  have hstates : ∀ l ∈ m'.labeling.labels, ∀ l' ∈ m.labeling.labels.filter (·.1 ≠ initialLabel),
      l.1 = l'.1 → l = l' := by
    intro l hl l' hl' heq
    obtain ⟨hl', hne⟩ := List.mem_filter.1 hl'
    have hne : l'.1 ≠ initialLabel := of_decide_eq_true hne
    refine Prod.ext heq (StateSet.ext_of_contains ((hsize l hl).trans (hm.label_size l' hl').symm) ?_)
    intro i _
    rw [Bool.eq_iff_iff, ← Labeling.has_eq_contains hnodup hl, ← Labeling.has_eq_contains hm.label_names hl', heq,
      (isDescribedBy_of_finish hbuild).label, and_iff_right hne, marks_label hm hne]
  exact eq_of_map_eq hnames hstates

end Finish

/-- Reading what was written gives a model with the same states, initial states and transitions, and
with the same labels in the same order but the one that stands for initial states. -/
theorem write_read (hm : m.WellFormed) (h : IsWritable m) :
    ∃ m', read (transitionText m).toUTF8 (labelText m).toUTF8 = .ok m' ∧
      m'.numStates = m.numStates ∧ m'.initial = m.initial ∧ (∀ s, m'.row s = m.row s) ∧
        m'.labeling.labels = m.labeling.labels.filter (·.1 ≠ initialLabel) := by
  obtain ⟨s, hs⟩ := List.exists_mem_of_ne_nil _ hm.initial_ne_nil
  obtain ⟨m', hbuild⟩ : ∃ m', (build m.numStates (transitions m) (labelFile m)).finish .dtmc = .ok m' :=
    finish_build ((marks_initial hm).2 hs)
  have htransitions := isTransitionFile_written h hm
  have hlabels := isLabelFile_written h
  rw [← lines_transitionText h] at htransitions
  rw [← lines_labelText h] at hlabels
  exact ⟨m', read_ok.2 ⟨_, _, _, htransitions, hlabels, hbuild⟩, numStates_read hm hbuild,
    initial_read hm hbuild, row_read hm h hbuild, labels_read hm hbuild⟩

/-- A label that stands for initial states but for the wrong ones, one with a blank, and one that no
state has. -/
def blankLabels : Model Double where
  kind := .dtmc
  rows := #[[(0, ⟨0x3fb999999999999a⟩), (1, ⟨0x3feccccccccccccd⟩)], [(1, .one)]]
  initial := [1]
  labeling := ⟨2, [("init", ⟨#[true, false]⟩), ("at work", ⟨#[true, true]⟩), ("", ⟨#[false, false]⟩)]⟩
  rewards := []

theorem blankLabels_wellFormed : blankLabels.WellFormed where
  targets_ascend := Model.forall_row .nil (by decide)
  targets_lt := Model.forall_row (P := fun row => ∀ e ∈ row, e.1 < blankLabels.numStates)
    (List.forall_mem_nil _) (by decide)
  values_ne_zero := Model.forall_row (P := fun row => ∀ e ∈ row, Value.isZero e.2 = false)
    (List.forall_mem_nil _) (by decide)
  initial_ascend := List.pairwise_singleton _ _
  initial_lt := by decide
  initial_ne_nil := List.cons_ne_nil _ _
  labeling_size := rfl
  label_size := by decide
  label_names := by decide
  reward_size := List.forall_mem_nil _
  reward_names := List.nodup_nil

theorem blankLabels_isWritable : IsWritable blankLabels where
  numStates := by decide
  numTransitions := by decide
  numLabels := by decide
  number := Model.forall_row (P := fun row : List (ℕ × Double) => ∀ e ∈ row, e.2.isNaN = false)
    (List.forall_mem_nil _) (by decide)
  quote := by decide
  lineFeed := by decide

theorem blankLabels_write_read : blankLabels.WellFormed ∧ IsWritable blankLabels ∧
    ∃ m', read (transitionText blankLabels).toUTF8 (labelText blankLabels).toUTF8 = .ok m' ∧
      m'.numStates = blankLabels.numStates ∧ m'.initial = blankLabels.initial ∧
        (∀ s, m'.row s = blankLabels.row s) ∧
          m'.labeling.labels = blankLabels.labeling.labels.filter (·.1 ≠ initialLabel) :=
  ⟨blankLabels_wellFormed, blankLabels_isWritable,
    write_read blankLabels_wellFormed blankLabels_isWritable⟩

end Explicit
end MarkovCheck

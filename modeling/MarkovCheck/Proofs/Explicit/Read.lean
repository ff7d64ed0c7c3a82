import Mathlib
import MarkovCheck.Proofs.Chain.Operations
import MarkovCheck.Proofs.Double.Bits
import MarkovCheck.Proofs.Explicit.Lines
import MarkovCheck.Proofs.Text.Line

/-!
# MarkovCheck.Proofs.Explicit.Read

The model that is read from two files is the one that their lines describe.

Reading puts a sequence of operations on a builder together: the transitions, the labels that are
declared, and the labels of the states in the order of their lines. What a builder makes of such a
sequence is known, so the model has the sums of the transition lines and the labels of the state lines,
and nothing else.

A line that is no text ends the lines of its file, also in front of further lines, and nothing reports
it. So the lines that are read are all lines of an input only if all of them are texts.

* `operations`    — what is added for the parts of the two files.
* `IsDescribedBy` — the model of these parts.
* `read_ok`       — what is read, and from which lines.
-/

namespace MarkovCheck
namespace Explicit

open Builder (Operation)

variable {n s : ℕ} {ts : List (Transition Double)} {labels : LabelFile} {m : Model Double}
  {name : String}

/-! ## Operations -/

/-- A label of a state as an operation: the initial label makes the state an initial one. -/
def labelOperation (s : ℕ) (name : String) : Operation Double :=
  if name = initialLabel then .addInitial s else .addStateLabel s name

/-- What is added for the parts of the two files. -/
def operations (n : ℕ) (ts : List (Transition Double)) (labels : LabelFile) :
    List (Operation Double) :=
  .requireStates n :: (ts.map (fun t => .addTransition t.source t.target t.value) ++
    (labels.names.filter (· ≠ initialLabel)).map .addLabel ++
      labels.states.flatMap (fun e => e.2.map (labelOperation e.1)) ++
        if labels.names.contains initialLabel then [] else [.addInitial 0])

theorem apply_labelOperation (b : Builder Double) (s : ℕ) (name : String) :
    (labelOperation s name).apply b = addLabel b s name := by
  unfold labelOperation addLabel
  split <;> rfl

theorem build_eq_run (n : ℕ) (ts : List (Transition Double)) (labels : LabelFile) :
    build n ts labels = Builder.run (operations n ts labels) := by
  have hfinal : ∀ b : Builder Double,
      (if labels.names.contains initialLabel then b else b.addInitial 0) =
        List.foldl Operation.apply b
          (if labels.names.contains initialLabel then [] else [.addInitial 0]) := fun b => by
    split <;> rfl
  rw [build, Builder.run, operations, List.foldl_cons, List.foldl_append, List.foldl_append,
    List.foldl_append, List.foldl_map, List.foldl_map, List.foldl_flatMap, hfinal]
  simp only [List.foldl_map, apply_labelOperation]
  rfl

/-- A line of the label file gives the state the label. -/
def LabelFile.Marks (labels : LabelFile) (s : ℕ) (name : String) : Prop :=
  ∃ e ∈ labels.states, e.1 = s ∧ name ∈ e.2

theorem addInitial_mem_operations : .addInitial s ∈ operations n ts labels ↔
    labels.Marks s initialLabel ∨ initialLabel ∉ labels.names ∧ s = 0 := by
  have hlast : Operation.addInitial s ∈
      (if labels.names.contains initialLabel then [] else [.addInitial 0] : List (Operation Double)) ↔
        initialLabel ∉ labels.names ∧ s = 0 := by
    split
    · rename_i h
      exact iff_of_false List.not_mem_nil fun h' => h'.1 (List.contains_iff_mem.1 h)
    · rename_i h
      rw [List.mem_singleton, Operation.addInitial.injEq, and_iff_right]
      exact fun h' => h (List.contains_iff_mem.2 h')
  have hlabel : ∀ (i : ℕ) (name : String),
      labelOperation i name = .addInitial s ↔ i = s ∧ name = initialLabel := fun i name => by
    unfold labelOperation
    split <;> simp [*]
  simp only [operations, List.mem_cons, List.mem_append, hlast, List.mem_map, List.mem_flatMap, hlabel,
    reduceCtorEq, false_or, and_false, exists_false, LabelFile.Marks]
  refine or_congr_left (exists_congr fun e => and_congr_right fun _ => ?_)
  exact ⟨fun ⟨_, h, hs, hname⟩ => ⟨hs, hname ▸ h⟩, fun ⟨hs, h⟩ => ⟨_, h, hs, rfl⟩⟩

theorem addStateLabel_mem_operations : .addStateLabel s name ∈ operations n ts labels ↔
    name ≠ initialLabel ∧ labels.Marks s name := by
  have hlast : Operation.addStateLabel s name ∉
      (if labels.names.contains initialLabel then [] else [.addInitial 0] : List (Operation Double)) := by
    split <;> simp
  have hlabel : ∀ (i : ℕ) (x : String),
      labelOperation i x = .addStateLabel s name ↔ i = s ∧ x = name ∧ name ≠ initialLabel :=
    fun i x => by
    unfold labelOperation
    split
    · rename_i h
      exact iff_of_false nofun fun h' => h'.2.2 (h'.2.1 ▸ h)
    · rename_i h
      rw [Operation.addStateLabel.injEq]
      exact and_congr_right fun _ => (and_iff_left_of_imp fun h' => h' ▸ h).symm
  simp only [operations, List.mem_cons, List.mem_append, hlast, List.mem_map, List.mem_flatMap, hlabel,
    reduceCtorEq, false_or, and_false, exists_false, or_false, LabelFile.Marks]
  constructor
  · rintro ⟨e, he, x, hx, hs, rfl, hne⟩
    exact ⟨hne, e, he, hs, hx⟩
  · rintro ⟨hne, e, he, hs, hx⟩
    exact ⟨e, he, _, hx, hs, rfl, hne⟩

theorem transitions_operations : (operations n ts labels).filterMap Operation.transition? = ts := by
  have htransition : ts.filterMap (Operation.transition? ∘ fun t =>
      .addTransition t.source t.target t.value) = ts := List.filterMap_some
  have hdeclared : ((labels.names.filter (· ≠ initialLabel)).map Operation.addLabel).filterMap
      (Operation.transition? (V := Double)) = [] := by
    rw [List.filterMap_map]
    exact List.filterMap_eq_nil_iff.2 fun _ _ => rfl
  have hlabel : (labels.states.flatMap fun e => e.2.map (labelOperation e.1)).filterMap
      Operation.transition? = [] := by
    rw [List.filterMap_eq_nil_iff]
    intro op hop
    obtain ⟨e, -, hop⟩ := List.mem_flatMap.1 hop
    obtain ⟨name, -, rfl⟩ := List.mem_map.1 hop
    unfold labelOperation
    split <;> rfl
  have hlast : (if labels.names.contains initialLabel then [] else [.addInitial 0] :
      List (Operation Double)).filterMap Operation.transition? = [] := by
    split <;> rfl
  rw [operations, List.filterMap_cons_none rfl, List.filterMap_append, List.filterMap_append,
    List.filterMap_append, List.filterMap_map, htransition, hdeclared, hlabel, hlast, List.append_nil,
    List.append_nil, List.append_nil]

/-- Labels are declared by the header first. -/
theorem labels_operations : (operations n ts labels).filterMap Operation.label? =
    labels.names.filter (· ≠ initialLabel) ++
      labels.states.flatMap fun e => e.2.filter (· ≠ initialLabel) := by
  have htransition : (ts.map fun t => Operation.addTransition t.source t.target t.value).filterMap
      Operation.label? = [] := by
    rw [List.filterMap_map]
    exact List.filterMap_eq_nil_iff.2 fun _ _ => rfl
  have hdeclared : ((labels.names.filter (· ≠ initialLabel)).map Operation.addLabel).filterMap
      (Operation.label? (V := Double)) = labels.names.filter (· ≠ initialLabel) := by
    rw [List.filterMap_map]
    exact List.filterMap_some
  have hlabel : ∀ (s : ℕ) (ls : List String), (ls.map (labelOperation s)).filterMap Operation.label? =
      ls.filter (· ≠ initialLabel) := fun s ls => by
    rw [List.filterMap_map, ← List.filterMap_eq_filter]
    refine List.filterMap_congr fun name _ => ?_
    rw [Function.comp_apply, labelOperation, Option.guard]
    by_cases h : name = initialLabel <;> simp [h, Operation.label?]
  have hlast : (if labels.names.contains initialLabel then [] else [.addInitial 0] :
      List (Operation Double)).filterMap Operation.label? = [] := by
    split <;> rfl
  rw [operations, List.filterMap_cons_none rfl, List.filterMap_append, List.filterMap_append,
    List.filterMap_append, htransition, hdeclared, hlast, List.append_nil, List.nil_append,
    List.filterMap_flatMap]
  simp only [hlabel]

theorem added_operations (s t : ℕ) :
    Builder.added (operations n ts labels) s t = valuesAt ts (toLex (s, t)) := by
  rw [← Builder.valuesAt_run, Builder.transitions_run, transitions_operations]

/-! ## The model -/

/-- The model of a number of states, transitions and labels: transitions between the same states are
added up in their canonical order, and a sum of zero is no transition. -/
structure IsDescribedBy (n : ℕ) (ts : List (Transition Double)) (labels : LabelFile)
    (m : Model Double) : Prop where
  numStates : n ≤ m.numStates
  transition : ∀ s t v, (t, v) ∈ m.row s ↔ valuesAt ts (toLex (s, t)) ≠ [] ∧
    v = Value.sumCanonical (valuesAt ts (toLex (s, t))) ∧ Value.isZero v = false
  initial : ∀ s, s ∈ m.initial ↔
    labels.Marks s initialLabel ∨ initialLabel ∉ labels.names ∧ s = 0
  label : ∀ s name, m.labeling.has name s = true ↔ name ≠ initialLabel ∧ labels.Marks s name

theorem isDescribedBy_of_finish (h : (build n ts labels).finish .dtmc = .ok m) :
    IsDescribedBy n ts labels m := by
  rw [build_eq_run] at h
  constructor
  case numStates =>
    rw [Builder.finish_numStates h]
    have hmem : .requireStates n ∈ operations n ts labels := List.mem_cons_self
    exact Builder.numStates_le_run hmem
  case transition =>
    intro s t v
    rw [Builder.mem_row_run h, added_operations]
  case initial =>
    intro s
    obtain ⟨-, rfl⟩ := Builder.finish_eq h
    rw [← addInitial_mem_operations, ← Builder.mem_initial_run]
    exact Builder.mem_sortStates
  case label =>
    intro s name
    rw [Builder.has_iff_of_finish h, addStateLabel_mem_operations]

/-! ## Reading -/

variable {transitionFile labelFile : ByteArray}

theorem read_ok : read transitionFile labelFile = .ok m ↔
    ∃ n ts labels, IsTransitionFile (Text.lines transitionFile) n ts ∧
      IsLabelFile (Text.lines labelFile) labels ∧ (build n ts labels).finish .dtmc = .ok m := by
  simp only [← readTransitions_ok, ← readLabels_ok]
  unfold read
  constructor
  · intro h
    split at h
    · cases h
    · rename_i n ts hts
      split at h
      · cases h
      · rename_i labels hlabels
        split at h
        · cases h
        · rename_i m' hm
          cases h
          exact ⟨n, ts, labels, hts, hlabels, hm⟩
  · rintro ⟨n, ts, labels, hts, hlabels, hm⟩
    simp only [hts, hlabels, hm]

/-- When an initial state is described, finishing gives a model. -/
theorem finish_build {k : ModelKind} (h : labels.Marks s initialLabel) :
    ∃ m, (build n ts labels).finish k = .ok m := by
  rw [build_eq_run]
  exact Builder.finish_ok k (addInitial_mem_operations.2 (.inl h))

/-- Of two inputs whose lines are texts, every line is read: the header, and the content lines after it
as transitions that are added up, and as labels that the states have. -/
theorem read_all_lines
    (htransitions : ∀ l ∈ Text.rawLines transitionFile.toList, (Text.decodeLine? l).isSome = true)
    (hlabels : ∀ l ∈ Text.rawLines labelFile.toList, (Text.decodeLine? l).isSome = true)
    (h : read transitionFile labelFile = .ok m) :
    ∃ transitionLines labelLines n ts labels,
      (Text.rawLines transitionFile.toList).map Text.decodeLine? = transitionLines.map some ∧
        (Text.rawLines labelFile.toList).map Text.decodeLine? = labelLines.map some ∧
          IsTransitionFile transitionLines n ts ∧ IsLabelFile labelLines labels ∧
            IsDescribedBy n ts labels m := by
  obtain ⟨n, ts, labels, hts, hls, hm⟩ := read_ok.1 h
  exact ⟨_, _, n, ts, labels, Text.map_decodeLine?_eq htransitions, Text.map_decodeLine?_eq hlabels, hts,
    hls, isDescribedBy_of_finish hm⟩

/-- Two states, the second of which has a transition to itself. -/
def stepTransitions : ByteArray := "2 2\n0 1 1\n1 1 1\n".toUTF8

def stepLabels : ByteArray := "0=\"init\" 1=\"a\"\n0: 0\n1: 1\n".toUTF8

theorem readTransitions_step : readTransitions (Text.lines stepTransitions) =
    .ok (2, [⟨0, 1, .one⟩, ⟨1, 1, .one⟩]) := by decide +kernel

theorem step_read_all_lines :
    (∀ l ∈ Text.rawLines stepTransitions.toList, (Text.decodeLine? l).isSome = true) ∧
      (∀ l ∈ Text.rawLines stepLabels.toList, (Text.decodeLine? l).isSome = true) ∧
        ∃ m, read stepTransitions stepLabels = .ok m ∧
          ∃ transitionLines labelLines n ts labels,
            (Text.rawLines stepTransitions.toList).map Text.decodeLine? = transitionLines.map some ∧
              (Text.rawLines stepLabels.toList).map Text.decodeLine? = labelLines.map some ∧
                IsTransitionFile transitionLines n ts ∧ IsLabelFile labelLines labels ∧
                  IsDescribedBy n ts labels m := by
  have htransitions : ∀ l ∈ Text.rawLines stepTransitions.toList,
      (Text.decodeLine? l).isSome = true := by decide +kernel
  have hlabels : ∀ l ∈ Text.rawLines stepLabels.toList, (Text.decodeLine? l).isSome = true := by
    decide +kernel
  have hread : readLabels (Text.lines stepLabels) =
      .ok ⟨["init", "a"], [(0, ["init"]), (1, ["a"])]⟩ := by decide +kernel
  obtain ⟨m, hm⟩ : ∃ m, (build 2 [⟨0, 1, .one⟩, ⟨1, 1, .one⟩]
      ⟨["init", "a"], [(0, ["init"]), (1, ["a"])]⟩).finish .dtmc = .ok m :=
    finish_build ⟨(0, ["init"]), List.mem_cons_self, rfl, List.mem_cons_self⟩
  have h : read stepTransitions stepLabels = .ok m :=
    read_ok.2 ⟨_, _, _, readTransitions_ok.1 readTransitions_step, readLabels_ok.1 hread, hm⟩
  exact ⟨htransitions, hlabels, m, h, read_all_lines htransitions hlabels h⟩

/-- The same labels with a line in between that is no text. -/
def unreadableLabels : ByteArray :=
  ⟨#[48, 61, 34, 105, 110, 105, 116, 34, 32, 49, 61, 34, 97, 34, 10, 48, 58, 32, 48, 10, 48, 58, 32, 49,
    255, 10, 49, 58, 32, 49, 10]⟩

/-- The line after one that is no text is lost: state 1 does not have the label that it is given there. -/
theorem unreadable_label_lost : ∃ m, read stepTransitions unreadableLabels = .ok m ∧
    ∃ l ∈ (Text.rawLines unreadableLabels.toList).tail, Text.decodeLine? l = some "1: 1" ∧
      readLabelHeader "0=\"init\" 1=\"a\"".toList = .ok [(0, "init"), (1, "a")] ∧
        IsStateLine [(0, "init"), (1, "a")] "1: 1".toList 1 ["a"] ∧
          m.labeling.has "a" 1 = false := by
  have hread : readLabels (Text.lines unreadableLabels) =
      .ok ⟨["init", "a"], [(0, ["init"])]⟩ := by decide +kernel
  obtain ⟨m, hm⟩ : ∃ m, (build 2 [⟨0, 1, .one⟩, ⟨1, 1, .one⟩]
      ⟨["init", "a"], [(0, ["init"])]⟩).finish .dtmc = .ok m :=
    finish_build ⟨(0, ["init"]), List.mem_cons_self, rfl, List.mem_cons_self⟩
  have hline : readStateLabels? [(0, "init"), (1, "a")] "1: 1".toList = some (1, ["a"]) := by
    decide +kernel
  refine ⟨m, read_ok.2 ⟨_, _, _, readTransitions_ok.1 readTransitions_step, readLabels_ok.1 hread, hm⟩,
    [49, 58, 32, 49, 10], by decide +kernel, by decide +kernel, by decide +kernel,
    readStateLabels?_eq_some.1 hline, ?_⟩
  rw [Bool.eq_false_iff, ne_eq, (isDescribedBy_of_finish hm).label]
  rintro ⟨-, e, he, hs, -⟩
  obtain rfl := List.mem_singleton.1 he
  cases hs

end Explicit
end MarkovCheck

import Mathlib
import MarkovCheck.Explicit.Writer
import MarkovCheck.Proofs.Chain.Builder
import MarkovCheck.Proofs.Double.Text
import MarkovCheck.Proofs.Explicit.Lines
import MarkovCheck.Proofs.Text.Words

/-!
# MarkovCheck.Proofs.Explicit.Written

The lines that are written have the forms of the explicit format.

Numbers and values are words, so the fields of a transition line are the ones that were written. The
names of labels stand between quotation marks and may hold anything else, blanks too: the declaration of
a label ends at its second quotation mark, and what follows is the next one.

* `IsWritable` — what the format needs of a model.
* `isTransitionFile_written`, `isLabelFile_written` — the two files.
-/

namespace MarkovCheck
namespace Explicit

variable {m : Model Double} {s : ℕ} {name : String} {names : LabelNames}

/-- What the format needs of a model: numbers that it can hold, values that are not NaN, and names that
end at a quotation mark and fit on a line. -/
structure IsWritable (m : Model Double) : Prop where
  numStates : m.numStates ≤ Text.greatestIndex
  numTransitions : m.numTransitions ≤ Text.greatestIndex
  numLabels : m.labeling.names.length ≤ Text.greatestIndex
  number : ∀ s, ∀ e ∈ m.row s, e.2.isNaN = false
  quote : ∀ name ∈ m.labeling.names, '"' ∉ name.toList
  lineFeed : ∀ name ∈ m.labeling.names, '\n' ∉ name.toList

theorem readIndex?_toDigits {n : ℕ} (h : n ≤ Text.greatestIndex) :
    readIndex? (Nat.toDigits 10 n) = some n := by
  rw [readIndex?, Text.readNat_toDigits h]

/-! ## Transitions -/

/-- The transitions of a model, row by row. -/
def transitions (m : Model Double) : List (Transition Double) :=
  Builder.transitionsOf m.numStates m.row

theorem length_transitions (m : Model Double) : (transitions m).length = m.numTransitions := by
  rw [transitions, Builder.transitionsOf, List.length_flatMap, Model.numTransitions_eq]
  simp only [List.length_map]

/-- The line of a transition without its ending. -/
def transitionWords (t : Transition Double) : String :=
  toString t.source ++ " " ++ toString t.target ++ " " ++ t.value.toText

theorem isWords_transition {t : Transition Double} (hnumber : t.value.isNaN = false) :
    Text.IsWords (transitionWords t)
      [Nat.toDigits 10 t.source, Nat.toDigits 10 t.target, t.value.toText.toList] where
  toList_eq := by simp [transitionWords]
  word := by
    simp only [List.forall_mem_cons, Text.isWord_toDigits, Double.isWord_toText hnumber,
      List.not_mem_nil, false_imp_iff, implies_true, and_self]

/-- The header of the transition file. -/
def transitionHeader (m : Model Double) : String :=
  toString m.numStates ++ " " ++ toString m.numTransitions

theorem isWords_header (m : Model Double) :
    Text.IsWords (transitionHeader m) [Nat.toDigits 10 m.numStates, Nat.toDigits 10 m.numTransitions] where
  toList_eq := by simp [transitionHeader]
  word := by
    simp only [List.forall_mem_cons, Text.isWord_toDigits, List.not_mem_nil, false_imp_iff, implies_true,
      and_self]

/-- The lines of the transition file. -/
def transitionLines (m : Model Double) : List String :=
  transitionHeader m :: (transitions m).map transitionWords

theorem transitionText_eq (m : Model Double) :
    transitionText m = String.join ((transitionLines m).map (· ++ "\n")) := by
  rw [← String.toList_inj]
  simp only [transitionText, transitionLines, transitionHeader, transitions, Builder.transitionsOf,
    String.toList_append, String.toList_join, List.map_cons, List.map_flatMap, List.flatMap_cons,
    List.flatMap_map, List.map_map, List.flatMap_assoc]
  rfl

section Transitions

variable (h : IsWritable m)
include h

theorem isLine_transitionLines : ∀ line ∈ transitionLines m, Text.IsLine line := by
  refine List.forall_mem_cons.2 ⟨(isWords_header m).isLine, fun line hline => ?_⟩
  obtain ⟨t, ht, rfl⟩ := List.mem_map.1 hline
  exact (isWords_transition (h.number _ _ (Builder.mem_transitionsOf.1 ht).2)).isLine

theorem lines_transitionText : Text.lines (transitionText m).toUTF8 = transitionLines m := by
  rw [transitionText_eq, Text.lines_join (isLine_transitionLines h)]

theorem isTransitionLine_words (hm : m.WellFormed) {t : Transition Double} (ht : t ∈ transitions m) :
    IsTransitionLine (transitionWords t).toList t := by
  obtain ⟨hsource, hrow⟩ := Builder.mem_transitionsOf.1 ht
  have htarget : t.target < m.numStates := hm.targets_lt _ _ hrow
  have hnumber := h.number _ _ hrow
  exact ⟨_, _, _, (isWords_transition hnumber).fields_eq,
    readIndex?_toDigits (hsource.le.trans h.numStates), readIndex?_toDigits (htarget.le.trans h.numStates),
    Double.ofText?_toText hnumber⟩

theorem isTransitionFile_written (hm : m.WellFormed) :
    IsTransitionFile (transitionLines m) m.numStates (transitions m) := by
  have hheader : readTransitionHeader (transitionHeader m).toList =
      .ok (m.numStates, (transitions m).length) := by
    rw [readTransitionHeader, (isWords_header m).fields_eq]
    simp only [Text.readNat_toDigits h.numStates, Text.readNat_toDigits h.numTransitions,
      length_transitions]
  refine ⟨_, _, rfl, hheader, ?_⟩
  · rw [contentLines_eq, List.forall₂_map_left_iff, List.forall₂_map_left_iff, List.forall₂_same]
    · exact fun t ht => isTransitionLine_words h hm ht
    · intro line hline
      obtain ⟨t, ht, rfl⟩ := List.mem_map.1 hline
      have hnumber := h.number _ _ (Builder.mem_transitionsOf.1 ht).2
      exact (isWords_transition hnumber).isContent (List.cons_ne_nil _ _)

end Transitions

/-! ## Declarations of labels -/

/-- A declaration ends at its second quotation mark. -/
theorem readDeclaration?_eq {name : List Char} (h : '"' ∉ name) (k : ℕ) (rest : List Char) :
    readDeclaration? (Nat.toDigits 10 k ++ '=' :: '"' :: (name ++ '"' :: rest)) =
      some (Nat.toDigits 10 k, String.ofList name, rest.dropWhile Text.isBlank) := by
  have hdigits := Text.isDigit_toDigits k
  have hindex : (Nat.toDigits 10 k ++ '=' :: '"' :: (name ++ '"' :: rest)).takeWhile Char.isDigit =
      Nat.toDigits 10 k := by
    rw [List.takeWhile_append_of_pos hdigits, List.takeWhile_cons_of_neg (by decide), List.append_nil]
  have hrest : (Nat.toDigits 10 k ++ '=' :: '"' :: (name ++ '"' :: rest)).dropWhile Char.isDigit =
      '=' :: '"' :: (name ++ '"' :: rest) := by
    rw [List.dropWhile_append_of_pos hdigits, List.dropWhile_cons_of_neg (by decide)]
  have hquote : ∀ c ∈ name, decide (c ≠ '"') = true := fun c hc =>
    decide_eq_true fun heq => h (heq ▸ hc)
  have htake : (name ++ '"' :: rest).takeWhile (· ≠ '"') = name := by
    rw [List.takeWhile_append_of_pos hquote, List.takeWhile_cons_of_neg (by decide), List.append_nil]
  have hdrop : (name ++ '"' :: rest).dropWhile (· ≠ '"') = '"' :: rest := by
    rw [List.dropWhile_append_of_pos hquote, List.dropWhile_cons_of_neg (by decide)]
  have hequals : ('=' :: '"' :: (name ++ '"' :: rest)).dropWhile Text.isBlank =
      '=' :: '"' :: (name ++ '"' :: rest) := List.dropWhile_cons_of_neg (by decide)
  have hmark : ('"' :: (name ++ '"' :: rest)).dropWhile Text.isBlank = '"' :: (name ++ '"' :: rest) :=
    List.dropWhile_cons_of_neg (by decide)
  have hne : (Nat.toDigits 10 k).isEmpty = false :=
    List.isEmpty_eq_false_iff.2 Nat.toDigits_ne_nil
  unfold readDeclaration?
  simp only [Text.dropWhile_toDigits, hindex, hrest, hequals, hmark, htake, hdrop, hne, Bool.false_eq_true,
    if_false]

theorem setName_last {i : ℕ} (h : ∀ e ∈ names, e.1 < i) (name : String) :
    setName i name names = names ++ [(i, name)] := by
  induction names with
  | nil => rfl
  | cons e names ih =>
    rw [List.forall_mem_cons] at h
    rw [setName, if_neg h.1.not_gt, if_neg h.1.ne', ih h.2, List.cons_append]

theorem toList_declaration (e : String × ℕ) (rest : List Char) :
    (declaration e).toList ++ rest =
      Nat.toDigits 10 e.2 ++ '=' :: '"' :: (e.1.toList ++ '"' :: rest) := by
  simp [declaration]

/-- After the first declaration and a space come the other ones. -/
theorem intercalate_declarations (name : String) (ws : List String) (k : ℕ) :
    ∃ rest, [' '].intercalate (((name :: ws).zipIdx k).map fun e => (declaration e).toList) =
        (declaration (name, k)).toList ++ rest ∧
      rest.dropWhile Text.isBlank =
        [' '].intercalate ((ws.zipIdx (k + 1)).map fun e => (declaration e).toList) := by
  rw [List.zipIdx_cons, List.map_cons]
  cases ws with
  | nil => exact ⟨[], by rw [List.zipIdx_nil, List.map_nil, List.intercalate_singleton, List.append_nil], rfl⟩
  | cons v ws =>
    rw [List.zipIdx_cons, List.map_cons, List.intercalate_cons_cons, List.append_assoc]
    refine ⟨_, rfl, ?_⟩
    obtain ⟨rest, hrest⟩ := Text.intercalate_append [' '] (declaration (v, k + 1)).toList
      ((ws.zipIdx (k + 1 + 1)).map fun e => (declaration e).toList)
    rw [hrest, toList_declaration, List.singleton_append, List.dropWhile_cons_of_pos Text.isBlank_space,
      Text.dropWhile_toDigits]

/-- Declarations with ascending indices are read one after the other. -/
theorem readDeclarations_eq (header : List Char) {ws : List String} {k fuel : ℕ}
    (hquote : ∀ name ∈ ws, '"' ∉ name.toList) (hindex : ∀ e ∈ names, e.1 < k)
    (hgreatest : k + ws.length ≤ Text.greatestIndex + 1) (hfuel : ws.length < fuel) :
    readDeclarations header fuel
      ([' '].intercalate ((ws.zipIdx k).map fun e => (declaration e).toList)) names =
        .ok (names ++ (ws.zipIdx k).map Prod.swap) := by
  induction ws generalizing k fuel names with
  | nil =>
    obtain ⟨fuel, rfl⟩ := Nat.exists_eq_succ_of_ne_zero hfuel.ne_bot
    rw [List.zipIdx_nil, List.map_nil, List.map_nil, List.append_nil]
    rfl
  | cons name ws ih =>
    rw [List.forall_mem_cons] at hquote
    rw [List.length_cons] at hgreatest hfuel
    obtain ⟨fuel, rfl⟩ := Nat.exists_eq_succ_of_ne_zero hfuel.ne_bot
    obtain ⟨rest, heq, hrest⟩ := intercalate_declarations name ws k
    have hcontent : ∀ l, (Text.trim (Nat.toDigits 10 k ++ l)).isEmpty = false := fun l => by
      obtain ⟨c, hc⟩ := List.exists_mem_of_ne_nil _ (Nat.toDigits_ne_nil (b := 10) (n := k))
      rw [List.isEmpty_eq_false_iff, ne_eq, Text.trim_eq_nil_iff]
      intro hblank
      have hdigit := (Text.isWord_toDigits k).not_blank c hc
      rw [hblank c (List.mem_append_left _ hc)] at hdigit
      cases hdigit
    have hnames : ∀ e ∈ names ++ [(k, name)], e.1 < k + 1 := by
      refine List.forall_mem_append.2 ⟨fun e he => (hindex e he).trans (Nat.lt_succ_self k), ?_⟩
      exact List.forall_mem_singleton.2 (Nat.lt_succ_self k)
    rw [heq, toList_declaration, readDeclarations, hcontent, if_neg Bool.false_ne_true,
      readDeclaration?_eq hquote.1]
    dsimp only
    rw [Text.readDigits_toDigits (by omega)]
    dsimp only
    rw [hrest, String.ofList_toList, setName_last hindex,
      ih hquote.2 hnames (by omega) (by omega), List.zipIdx_cons, List.map_cons, List.append_assoc]
    rfl

/-- The header of the label file. -/
def labelHeader (m : Model Double) : String :=
  " ".intercalate ((writtenNames m).zipIdx.map declaration)

theorem toList_labelHeader (m : Model Double) : (labelHeader m).toList =
    [' '].intercalate ((writtenNames m).zipIdx.map fun e => (declaration e).toList) := by
  rw [labelHeader, String.toList_intercalate, List.map_map]
  rfl

/-- The names with their indices. -/
def writtenIndex (m : Model Double) : LabelNames := (writtenNames m).zipIdx.map Prod.swap

theorem length_writtenNames (m : Model Double) :
    (writtenNames m).length ≤ m.labeling.names.length + 1 :=
  Nat.succ_le_succ (List.length_filter_le _ _)

theorem lookup_writtenIndex {e : String × ℕ} (he : e ∈ (writtenNames m).zipIdx) :
    (writtenIndex m).lookup e.2 = some e.1 := by
  have hkeys : ((writtenIndex m).map (·.1)).Nodup := by
    have hindices : (writtenIndex m).map (·.1) = (writtenNames m).zipIdx.map Prod.snd := by
      rw [writtenIndex, List.map_map]
      rfl
    rw [hindices, List.zipIdx_map_snd]
    exact List.nodup_range'
  exact Builder.lookup_of_mem hkeys (List.mem_map_of_mem he)

section Labels

variable (h : IsWritable m)
include h

theorem quote_notMem (hname : name ∈ writtenNames m) : '"' ∉ name.toList := by
  rcases List.mem_cons.1 hname with rfl | hname
  · decide
  · exact h.quote name (List.mem_of_mem_filter hname)

theorem lineFeed_notMem (hname : name ∈ writtenNames m) : '\n' ∉ name.toList := by
  rcases List.mem_cons.1 hname with rfl | hname
  · decide
  · exact h.lineFeed name (List.mem_of_mem_filter hname)

theorem readLabelHeader_written : readLabelHeader (labelHeader m).toList = .ok (writtenIndex m) := by
  have hlength := length_writtenNames m
  have hlabels := h.numLabels
  have hne : ∀ w ∈ (writtenNames m).zipIdx.map (fun e => (declaration e).toList), w ≠ [] := by
    rw [List.forall_mem_map]
    exact fun e _ => by simp [declaration]
  have hfuel : (writtenNames m).length ≤ (labelHeader m).toList.length := by
    have hle := Text.length_le_intercalate hne
    rwa [List.length_map, List.length_zipIdx, ← toList_labelHeader] at hle
  have hread := readDeclarations_eq (labelHeader m).toList (fun _ => quote_notMem h)
    (List.forall_mem_nil fun e : ℕ × String => e.1 < 0) (by omega) (Nat.lt_succ_of_le hfuel)
  rw [← toList_labelHeader] at hread
  exact hread

theorem isLine_labelHeader : Text.IsLine (labelHeader m) where
  lineFeed hmem := by
    rw [toList_labelHeader] at hmem
    rcases Text.mem_intercalate hmem with heq | ⟨w, hw, hmem⟩
    · cases heq
    · obtain ⟨e, he, rfl⟩ := List.mem_map.1 hw
      have hdigits : '\n' ∉ Nat.toDigits 10 e.2 := fun hmem =>
        absurd (Text.isDigit_toDigits e.2 _ hmem) (by decide)
      have hname : '\n' ∉ e.1.toList := lineFeed_notMem h (List.fst_mem_of_mem_zipIdx he)
      rw [← List.append_nil (declaration e).toList, toList_declaration] at hmem
      simp [hdigits, hname] at hmem
  carriageReturn hlast := by
    have hquote : ∀ w ∈ (writtenNames m).zipIdx.map (fun e => (declaration e).toList),
        w.getLast? = some '"' := by
      rw [List.forall_mem_map]
      exact fun e _ => by rw [declaration, String.toList_append, List.getLast?_append]; rfl
    have hne : (writtenNames m).zipIdx.map (fun e => (declaration e).toList) ≠ [] :=
      List.cons_ne_nil _ _
    rw [toList_labelHeader, Text.getLast?_intercalate hne hquote] at hlast
    cases hlast

end Labels

/-! ## Labels of states -/

/-- The names and indices of the labels that a state has. -/
def writtenLabels (m : Model Double) (s : ℕ) : List (String × ℕ) :=
  (writtenNames m).zipIdx.filter fun e => marks m s e.1

/-- The line of a state without its ending. -/
def stateWords (m : Model Double) (s : ℕ) : String :=
  toString s ++ ": " ++ " ".intercalate ((writtenLabels m s).map fun e => toString e.2)

/-- The states that have a line. -/
def labelledStates (m : Model Double) : List ℕ :=
  (List.range m.numStates).filter fun s => !(writtenLabels m s).isEmpty

theorem mem_labelledStates :
    s ∈ labelledStates m ↔ s < m.numStates ∧ writtenLabels m s ≠ [] := by
  simp [labelledStates]

/-- What the label file says. -/
def labelFile (m : Model Double) : LabelFile :=
  ⟨writtenNames m, (labelledStates m).map fun s => (s, (writtenLabels m s).map (·.1))⟩

/-- The lines of the label file. -/
def labelLines (m : Model Double) : List String :=
  labelHeader m :: (labelledStates m).map (stateWords m)

theorem labelText_eq (m : Model Double) :
    labelText m = String.join ((labelLines m).map (· ++ "\n")) := by
  have hstates : ∀ l : List ℕ, (l.flatMap fun s => (labelLine m s).toList) =
      (l.filter fun s => !(writtenLabels m s).isEmpty).flatMap fun s =>
        (stateWords m s ++ "\n").toList := fun l => by
    induction l with
    | nil => rfl
    | cons s l ih =>
      rw [List.flatMap_cons, ih, List.filter_cons, labelLine, writtenLabels]
      cases hlabels : (writtenNames m).zipIdx.filter fun e => marks m s e.1 with
      | nil => rfl
      | cons e es =>
        rw [List.isEmpty_cons, Bool.not_false, if_pos rfl, List.flatMap_cons, stateWords, writtenLabels,
          hlabels]
  rw [← String.toList_inj, labelText, String.toList_append, String.toList_join, List.flatMap_map, hstates,
    labelLines, String.toList_join, List.map_cons, List.map_map, List.flatMap_cons, List.flatMap_map]
  rfl

theorem toList_stateWords (m : Model Double) (s : ℕ) : (stateWords m s).toList =
    Nat.toDigits 10 s ++ ':' :: ' ' ::
      [' '].intercalate ((writtenLabels m s).map fun e => Nat.toDigits 10 e.2) := by
  simp [stateWords, String.toList_intercalate, Function.comp_def]

theorem isWords_state (hs : writtenLabels m s ≠ []) : Text.IsWords (stateWords m s)
    ((Nat.toDigits 10 s ++ [':']) :: (writtenLabels m s).map fun e => Nat.toDigits 10 e.2) where
  toList_eq := by
    obtain ⟨e, es, hlabels⟩ := List.exists_cons_of_ne_nil hs
    rw [toList_stateWords, hlabels, List.map_cons, List.intercalate_cons_cons]
    simp
  word := by
    refine List.forall_mem_cons.2 ⟨⟨by simp, ?_⟩, List.forall_mem_map.2 fun e _ => Text.isWord_toDigits _⟩
    exact List.forall_mem_append.2 ⟨(Text.isWord_toDigits s).not_blank, Text.isBlank_of_all (by decide)⟩

section States

variable (h : IsWritable m)
include h

theorem isStateLine_written (hs : s < m.numStates) :
    IsStateLine (writtenIndex m) (stateWords m s).toList s ((writtenLabels m s).map (·.1)) := by
  have hdigits := Text.isWord_toDigits s
  have hcolon : ':' ∉ Nat.toDigits 10 s := fun hmem =>
    absurd (Text.isDigit_toDigits s _ hmem) (by decide)
  refine ⟨_, _, toList_stateWords m s, hcolon, ?_, ?_⟩
  · rw [Text.trim_word hdigits.not_blank, readIndex?_toDigits (hs.le.trans h.numStates)]
  · rw [Text.fields_blank Text.isBlank_space, Text.fields_intercalate
      (List.forall_mem_map.2 fun e _ => Text.isWord_toDigits _), List.forall₂_map_left_iff,
      List.forall₂_map_right_iff, List.forall₂_same]
    intro e he
    have hindex := List.mem_of_mem_filter he
    have hlt := (List.mem_zipIdx hindex).2.1
    have hlength := length_writtenNames m
    have hlabels := h.numLabels
    exact ⟨e.2, readIndex?_toDigits (by omega), lookup_writtenIndex hindex⟩

theorem lines_labelText : Text.lines (labelText m).toUTF8 = labelLines m := by
  rw [labelText_eq, Text.lines_join]
  refine List.forall_mem_cons.2 ⟨isLine_labelHeader h, List.forall_mem_map.2 fun s hs => ?_⟩
  exact (isWords_state (mem_labelledStates.1 hs).2).isLine

theorem isLabelFile_written : IsLabelFile (labelLines m) (labelFile m) := by
  have hnames : writtenNames m = (writtenIndex m).map (·.2) := by
    rw [writtenIndex, List.map_map]
    exact (List.zipIdx_map_fst 0 (writtenNames m)).symm
  refine .inr ⟨_, _, writtenIndex m, rfl, readLabelHeader_written h, hnames, ?_⟩
  rw [contentLines_eq, List.map_map, labelFile, List.forall₂_map_left_iff, List.forall₂_map_right_iff,
    List.forall₂_same]
  · exact fun s hs => isStateLine_written h (mem_labelledStates.1 hs).1
  · refine List.forall_mem_map.2 fun s hs => ?_
    exact (isWords_state (mem_labelledStates.1 hs).2).isContent (List.cons_ne_nil _ _)

end States

end Explicit
end MarkovCheck

import Mathlib
import MarkovCheck.Chain.Builder

/-!
# MarkovCheck.Proofs.Chain.Compressed

What the compressed rows of a matrix hold.

Rows are started late, but the offset of a row that has been started never changes: entries arrive in
the order of the rows, so the ones that are still to come lie behind. Hence every offset is the number
of the transitions from smaller states, whichever rows have entries.

* `Holds`                   — the invariant: which transitions have been added.
* `push_holds`, `startRows_holds` — one step each.
* `compress_holds`          — a whole matrix.
* `Lists`, `Lists.foldl_pushRow`, `Lists.close_row` — rows that are pushed as a whole.
* `compress_row`            — row `s` has the transitions from state `s`.
* `offsetsFrom_compress`    — the offsets are where the rows begin.
-/

namespace MarkovCheck

variable {V : Type} {ts : List (Transition V)} {t : Transition V} {n s : ℕ}

/-! ## Rows of a model -/

namespace Model

theorem rows_toList (m : Model V) : m.rows.toList = (List.range m.numStates).map m.row := by
  refine List.ext_getElem (by simp [numStates]) fun s h _ => ?_
  rw [Array.length_toList] at h
  simp [row, h]

theorem foldl_length (k : ℕ) (rows : List (List (ℕ × V))) :
    rows.foldl (fun n row => n + row.length) k = k + (rows.map List.length).sum := by
  induction rows generalizing k with
  | nil => rfl
  | cons row rows ih => rw [List.foldl_cons, ih, List.map_cons, List.sum_cons, Nat.add_assoc]

theorem numTransitions_eq (m : Model V) :
    m.numTransitions = ((List.range m.numStates).map fun s => (m.row s).length).sum := by
  rw [numTransitions, foldl_length, rows_toList, List.map_map, Nat.zero_add]
  rfl

theorem offsetsFrom_concat (k : ℕ) (rows : List (List (ℕ × V))) (row : List (ℕ × V)) :
    offsetsFrom k (rows ++ [row]) = offsetsFrom k rows ++ [k + rows.flatten.length + row.length] := by
  induction rows generalizing k with
  | nil => rfl
  | cons first rows ih =>
    rw [List.cons_append, offsetsFrom, ih, offsetsFrom, List.flatten_cons, List.length_append, Nat.add_assoc k]
    rfl

theorem length_offsetsFrom (k : ℕ) (rows : List (List (ℕ × V))) :
    (offsetsFrom k rows).length = rows.length + 1 := by
  induction rows generalizing k with
  | nil => rfl
  | cons row rows ih => rw [offsetsFrom, List.length_cons, ih, List.length_cons]

theorem offsetsFrom_getElem? (k : ℕ) {rows : List (List (ℕ × V))} (hs : s ≤ rows.length) :
    (offsetsFrom k rows)[s]? = some (k + (rows.take s).flatten.length) := by
  induction rows generalizing k s with
  | nil =>
    obtain rfl := Nat.le_zero.1 hs
    rfl
  | cons row rows ih =>
    rcases s with _ | s
    · rfl
    · rw [offsetsFrom, List.getElem?_cons_succ, ih _ (Nat.le_of_succ_le_succ hs), List.take_succ_cons,
        List.flatten_cons, List.length_append, Nat.add_assoc]

/-- Offsets never descend. -/
theorem offsetsFrom_ascend (k : ℕ) (rows : List (List (ℕ × V))) :
    (offsetsFrom k rows).Pairwise (· ≤ ·) ∧ ∀ offset ∈ offsetsFrom k rows, k ≤ offset := by
  induction rows generalizing k with
  | nil => exact ⟨List.pairwise_singleton _ _, fun offset h => (List.mem_singleton.1 h).ge⟩
  | cons row rows ih =>
    obtain ⟨hascend, hle⟩ := ih (k + row.length)
    have hrest : ∀ offset ∈ offsetsFrom (k + row.length) rows, k ≤ offset := fun offset h =>
      (Nat.le_add_right _ _).trans (hle offset h)
    exact ⟨List.pairwise_cons.2 ⟨hrest, hascend⟩, List.forall_mem_cons.2 ⟨le_rfl, hrest⟩⟩

end Model

/-! ## Slices of sorted lists -/

section Slices

variable {α : Type} {f : α → ℕ} {l : List α}

theorem take_countP_lt (h : l.Pairwise (f · ≤ f ·)) (r : ℕ) :
    l.take (l.countP (f · < r)) = l.filter (f · < r) := by
  induction l with
  | nil => rfl
  | cons a l ih =>
    rw [List.pairwise_cons] at h
    by_cases ha : f a < r
    · rw [List.countP_cons_of_pos (by simpa using ha), List.filter_cons_of_pos (by simpa using ha),
        List.take_succ_cons, ih h.2]
    · -- What follows is not smaller either.
      have hnone : ∀ b ∈ a :: l, ¬ decide (f b < r) = true := by
        simp only [decide_eq_true_eq, not_lt]
        exact List.forall_mem_cons.2 ⟨not_lt.1 ha, fun b hb => (not_lt.1 ha).trans (h.1 b hb)⟩
      rw [List.countP_eq_zero.2 hnone, List.filter_eq_nil_iff.2 hnone, List.take_zero]

theorem drop_countP_lt (h : l.Pairwise (f · ≤ f ·)) (r : ℕ) :
    l.drop (l.countP (f · < r)) = l.filter (r ≤ f ·) := by
  induction l with
  | nil => rfl
  | cons a l ih =>
    rw [List.pairwise_cons] at h
    by_cases ha : f a < r
    · rw [List.countP_cons_of_pos (by simpa using ha), List.filter_cons_of_neg (by simpa using ha),
        List.drop_succ_cons, ih h.2]
    · have hall : ∀ b ∈ a :: l, r ≤ f b :=
        List.forall_mem_cons.2 ⟨not_lt.1 ha, fun b hb => (not_lt.1 ha).trans (h.1 b hb)⟩
      rw [List.countP_eq_zero.2 fun b hb => by simpa using hall b hb,
        List.filter_eq_self.2 fun b hb => by simpa using hall b hb, List.drop_zero]

/-- The members of a sorted list with one value lie between two counts. -/
theorem extract_countP (h : l.Pairwise (f · ≤ f ·)) (r : ℕ) :
    l.extract (l.countP (f · < r)) (l.countP (f · < r + 1)) = l.filter (f · = r) := by
  have hcount : l.countP (f · < r) = (l.filter (f · < r + 1)).countP (f · < r) := by
    rw [List.countP_filter]
    refine List.countP_congr fun a _ => ?_
    simp only [Bool.and_eq_true, decide_eq_true_eq]
    omega
  rw [List.extract_eq_take_drop, ← List.drop_take, take_countP_lt h, hcount,
    drop_countP_lt (h.filter _), List.filter_filter]
  refine List.filter_congr fun a _ => ?_
  rw [Bool.eq_iff_iff]
  simp only [Bool.and_eq_true, decide_eq_true_eq]
  omega

end Slices

namespace Compressed

variable {c : Compressed V} {rows : List (List (ℕ × V))}

/-! ## The invariant -/

/-- The transitions that have been added; the offset of a row that has been started is the number of
those from smaller states. -/
structure Holds (c : Compressed V) (ts : List (Transition V)) : Prop where
  offsets : ∀ s < c.offsets.size, c.offsets[s]? = some (ts.countP (·.source < s))
  targets : c.targets.toList = ts.map (·.target)
  values : c.values.toList = ts.map (·.value)
  started : ∀ t ∈ ts, t.source < c.offsets.size

theorem holds_empty : ({} : Compressed V).Holds [] where
  offsets _ h := absurd h (Nat.not_lt_zero _)
  targets := rfl
  values := rfl
  started := nofun

theorem size_startRows (c : Compressed V) (s : ℕ) :
    (c.startRows s).offsets.size = max c.offsets.size (s + 1) := by
  rw [startRows, Array.size_append, Array.size_replicate]
  omega

/-- Rows that are started now begin behind all transitions so far. -/
theorem startRows_holds (h : c.Holds ts) (s : ℕ) : (c.startRows s).Holds ts where
  offsets r hr := by
    rw [size_startRows] at hr
    rw [startRows, Array.getElem?_append]
    split
    · rename_i hlt
      exact h.offsets r hlt
    · rename_i hge
      have hall : ∀ t ∈ ts, decide (t.source < r) = true := fun t ht => by
        have := h.started t ht
        rw [decide_eq_true_eq]
        omega
      rw [Array.getElem?_replicate, if_pos (by omega), List.countP_eq_length.2 hall, ← Array.length_toList,
        h.targets, List.length_map]
  targets := h.targets
  values := h.values
  started t ht := by
    have := h.started t ht
    rw [size_startRows]
    omega

/-- A transition whose row is the last one that has been started, or a later one. -/
theorem push_holds (h : c.Holds ts) (hlast : c.offsets.size ≤ t.source + 1) :
    (c.push t.source t.target t.value).Holds (ts ++ [t]) := by
  have hrows := startRows_holds h t.source
  have hsize : (c.startRows t.source).offsets.size = t.source + 1 := by
    rw [size_startRows, max_eq_right hlast]
  constructor
  case offsets =>
    intro r hr
    change r < (c.startRows t.source).offsets.size at hr
    change (c.startRows t.source).offsets[r]? = _
    have hnot : ¬ t.source < r := by omega
    rw [hrows.offsets r hr, List.countP_append, List.countP_singleton, if_neg (by simpa using hnot),
      add_zero]
  case targets =>
    change ((c.startRows t.source).targets.push t.target).toList = _
    rw [Array.toList_push, hrows.targets, List.map_append, List.map_singleton]
  case values =>
    change ((c.startRows t.source).values.push t.value).toList = _
    rw [Array.toList_push, hrows.values, List.map_append, List.map_singleton]
  case started =>
    intro u hu
    change u.source < (c.startRows t.source).offsets.size
    rw [List.mem_append, List.mem_singleton] at hu
    rcases hu with hu | rfl
    · exact hrows.started u hu
    · omega

/-! ## Rows that are pushed as a whole -/

/-- The rows that have been pushed; together with the offset that is still missing, the offsets are where
they begin and end. -/
structure Lists (c : Compressed V) (rows : List (List (ℕ × V))) : Prop where
  offsets : c.offsets.toList ++ [c.targets.size] = Model.offsetsFrom 0 rows
  targets : c.targets.toList = rows.flatten.map (·.1)
  values : c.values.toList = rows.flatten.map (·.2)

theorem lists_empty : ({} : Compressed V).Lists [] := ⟨rfl, rfl, rfl⟩

theorem Lists.targets_size (h : c.Lists rows) : c.targets.size = rows.flatten.length := by
  rw [← Array.length_toList, h.targets, List.length_map]

theorem Lists.values_size (h : c.Lists rows) : c.values.size = rows.flatten.length := by
  rw [← Array.length_toList, h.values, List.length_map]

theorem pushRow_eq (c : Compressed V) (row : List (ℕ × V)) : c.pushRow row =
    ⟨c.offsets.push c.targets.size, c.targets ++ (row.map (·.1)).toArray,
      c.values ++ (row.map (·.2)).toArray⟩ := by
  have hfold : ∀ c : Compressed V, row.foldl (fun (c : Compressed V) e =>
      { c with targets := c.targets.push e.1, values := c.values.push e.2 }) c =
        ⟨c.offsets, c.targets ++ (row.map (·.1)).toArray, c.values ++ (row.map (·.2)).toArray⟩ := by
    induction row with
    | nil => simp
    | cons e row ih =>
      intro c
      rw [List.foldl_cons, ih]
      simp
  exact hfold _

theorem Lists.pushRow (h : c.Lists rows) (row : List (ℕ × V)) : (c.pushRow row).Lists (rows ++ [row]) := by
  rw [pushRow_eq]
  constructor
  case offsets =>
    simp only [Array.toList_push, Array.size_append, List.size_toArray, List.length_map]
    rw [h.offsets, h.targets_size, Model.offsetsFrom_concat, Nat.zero_add]
  case targets => simp [h.targets]
  case values => simp [h.values]

theorem Lists.foldl_pushRow (h : c.Lists rows) (more : List (List (ℕ × V))) :
    (more.foldl Compressed.pushRow c).Lists (rows ++ more) := by
  induction more generalizing c rows with
  | nil => rwa [List.append_nil]
  | cons row more ih =>
    have := ih (h.pushRow row)
    rwa [List.append_assoc] at this

theorem lists_foldl_pushRow (rows : List (List (ℕ × V))) :
    (rows.foldl Compressed.pushRow ({} : Compressed V)).Lists rows :=
  lists_empty.foldl_pushRow rows

theorem reopen_close (c : Compressed V) : c.close.reopen = c := by
  rw [close, reopen, Array.pop_push]

theorem Lists.close_offsets (h : c.Lists rows) : c.close.offsets.toList = Model.offsetsFrom 0 rows := by
  rw [close, Array.toList_push, h.offsets]

/-- Where a row begins that is followed by others or by the end. -/
theorem Lists.close_offset (h : c.Lists rows) (hs : s ≤ rows.length) :
    c.close.offsets[s]? = some (rows.take s).flatten.length := by
  rw [← Array.getElem?_toList, h.close_offsets, Model.offsetsFrom_getElem? 0 hs, Nat.zero_add]

/-- A row has the entries that it was pushed with. -/
theorem Lists.close_row (h : c.Lists rows) (hs : s < rows.length) : c.close.row s = rows[s] := by
  have hsplit : rows.flatten = (rows.take s).flatten ++ (rows[s] ++ (rows.drop (s + 1)).flatten) := by
    rw [← List.flatten_cons, ← List.drop_eq_getElem_cons hs, ← List.flatten_append, List.take_append_drop]
  have hnext : (rows.take (s + 1)).flatten.length = (rows.take s).flatten.length + rows[s].length := by
    rw [List.take_succ_eq_append_getElem hs, List.flatten_append, List.length_append, List.flatten_singleton]
  rw [row, h.close_offset hs.le, h.close_offset hs, Option.getD_some, Option.getD_some, hnext]
  change ((c.targets.extract _ _).zip (c.values.extract _ _)).toList = _
  rw [Array.toList_zip, Array.toList_extract, Array.toList_extract, h.targets, h.values]
  simp only [List.extract_eq_take_drop, Nat.add_sub_cancel_left, ← List.map_drop, ← List.map_take,
    List.zip_map', hsplit, List.drop_left, List.take_left]
  exact List.map_id _

theorem Lists.close_rows (h : c.Lists rows) : c.close.rows rows.length = rows.toArray := by
  refine Array.ext (by rw [Compressed.rows, Array.size_ofFn, List.size_toArray]) fun s hs _ => ?_
  rw [Compressed.rows, Array.size_ofFn] at hs
  simp only [Compressed.rows, Array.getElem_ofFn, h.close_row hs, List.getElem_toArray]

end Compressed

namespace Builder

open Compressed (Holds)

/-! ## Whole matrices -/

theorem foldl_push_holds (h : ts.Pairwise (·.source ≤ ·.source)) :
    (ts.foldl (fun (c : Compressed V) t => c.push t.source t.target t.value) {}).Holds ts ∧
      ∀ u : ℕ, (∀ t ∈ ts, t.source ≤ u) →
        (ts.foldl (fun (c : Compressed V) t => c.push t.source t.target t.value) {}).offsets.size ≤
          u + 1 := by
  induction ts using List.reverseRecOn with
  | nil => exact ⟨Compressed.holds_empty, fun u _ => Nat.zero_le _⟩
  | append_singleton ts t ih =>
    rw [List.pairwise_append] at h
    obtain ⟨hholds, hsize⟩ := ih h.1
    have hlast := hsize t.source fun u hu => h.2.2 u hu t List.mem_cons_self
    rw [List.foldl_append, List.foldl_cons, List.foldl_nil]
    refine ⟨Compressed.push_holds hholds hlast, fun u hu => ?_⟩
    change (Compressed.startRows _ t.source).offsets.size ≤ u + 1
    rw [Compressed.size_startRows, max_eq_right hlast]
    exact Nat.succ_le_succ (hu t (by simp))

theorem compress_holds (h : ts.Pairwise (·.source ≤ ·.source)) (n : ℕ) : (compress n ts).Holds ts :=
  Compressed.startRows_holds (foldl_push_holds h).1 n

theorem lt_size_compress (n : ℕ) (ts : List (Transition V)) : n < (compress n ts).offsets.size := by
  rw [compress, Compressed.size_startRows]
  omega

/-- There is one offset more than there are rows, if all transitions are in these rows. -/
theorem size_compress (h : ts.Pairwise (·.source ≤ ·.source)) (hn : ∀ t ∈ ts, t.source < n) :
    (compress n ts).offsets.size = n + 1 := by
  rw [compress, Compressed.size_startRows, max_eq_right]
  rcases Nat.eq_zero_or_pos n with rfl | hpos
  · rw [List.eq_nil_iff_forall_not_mem.2 fun t ht => absurd (hn t ht) (Nat.not_lt_zero _)]
    exact Nat.zero_le _
  · have := (foldl_push_holds h).2 (n - 1) fun t ht => Nat.le_sub_one_of_lt (hn t ht)
    omega

/-- A row has the transitions from its state. -/
theorem compress_row (h : ts.Pairwise (·.source ≤ ·.source)) (hs : s < n) :
    (compress n ts).row s = (ts.filter (·.source = s)).map fun t => (t.target, t.value) := by
  have hholds := compress_holds h n
  have hsize := lt_size_compress n ts
  rw [Compressed.row, hholds.offsets s (by omega), hholds.offsets (s + 1) (by omega)]
  simp only [Option.getD_some]
  rw [Array.toList_zip, Array.toList_extract, Array.toList_extract, hholds.targets, hholds.values,
    ← extract_countP h s]
  simp only [List.extract_eq_take_drop, ← List.map_drop, ← List.map_take, List.zip_map']

/-- Every offset is the number of the transitions from smaller states. -/
theorem compress_offsets (h : ts.Pairwise (·.source ≤ ·.source)) (hn : ∀ t ∈ ts, t.source < n) :
    (compress n ts).offsets.toList = (List.range' 0 (n + 1)).map fun s => ts.countP (·.source < s) := by
  have hsize := size_compress h hn
  refine List.ext_getElem? fun s => ?_
  rw [Array.getElem?_toList, List.getElem?_map]
  by_cases hs : s < n + 1
  · rw [(compress_holds h n).offsets s (by rwa [hsize]), List.getElem?_range' hs, Option.map_some,
      Nat.zero_add, Nat.one_mul]
  · rw [Array.getElem?_eq_none (by omega), List.getElem?_eq_none (by simpa using hs), Option.map_none]

example : (compress 5 [⟨1, 0, "p"⟩, ⟨3, 1, "q"⟩]).offsets = #[0, 0, 1, 1, 2, 2] := by decide

theorem countP_lt_mono (ts : List (Transition V)) {r s : ℕ} (h : r ≤ s) :
    ts.countP (·.source < r) ≤ ts.countP (·.source < s) :=
  List.countP_mono_left fun t _ hlt => by
    rw [decide_eq_true_eq] at hlt ⊢
    omega

/-- Offsets never descend. -/
theorem compress_offsets_ascend (h : ts.Pairwise (·.source ≤ ·.source))
    (hn : ∀ t ∈ ts, t.source < n) : (compress n ts).offsets.toList.Pairwise (· ≤ ·) := by
  rw [compress_offsets h hn, List.pairwise_map]
  exact (List.pairwise_lt_range' 1).imp fun hlt => countP_lt_mono ts hlt.le

/-- The offset after the last row is the number of transitions. -/
theorem compress_sentinel (h : ts.Pairwise (·.source ≤ ·.source)) (hn : ∀ t ∈ ts, t.source < n) :
    (compress n ts).offsets[n]? = some (compress n ts).targets.size := by
  have hholds := compress_holds h n
  rw [hholds.offsets n (lt_size_compress n ts), List.countP_eq_length.2 fun t ht => by
    simpa using hn t ht, ← Array.length_toList, hholds.targets, List.length_map]

theorem offsetsFrom_rows (h : ts.Pairwise (·.source ≤ ·.source)) (k r : ℕ) :
    Model.offsetsFrom (ts.countP (·.source < r)) ((List.range' r k).map fun s =>
        (ts.filter (·.source = s)).map fun t => (t.target, t.value)) =
      (List.range' r (k + 1)).map fun s => ts.countP (·.source < s) := by
  induction k generalizing r with
  | zero => rfl
  | succ k ih =>
    have hnext : ts.countP (·.source < r) + (ts.filter (·.source = r)).length =
        ts.countP (·.source < r + 1) := by
      rw [← extract_countP h r, List.extract_eq_take_drop, List.length_take, List.length_drop]
      have hle := countP_lt_mono ts (Nat.le_add_right r 1)
      have := List.countP_le_length (p := fun t : Transition V => decide (t.source < r + 1)) (l := ts)
      omega
    rw [List.range'_succ, List.map_cons, Model.offsetsFrom, List.length_map, hnext, ih]
    rfl

theorem rows_compress (h : ts.Pairwise (·.source ≤ ·.source)) (hs : s < n) :
    ((compress n ts).rows n)[s]? =
      some ((ts.filter (·.source = s)).map fun t => (t.target, t.value)) := by
  rw [Compressed.rows, Array.getElem?_ofFn, dif_pos hs, compress_row h hs]

/-- The offsets of the rows are the stored ones. -/
theorem offsetsFrom_compress (h : ts.Pairwise (·.source ≤ ·.source)) (hn : ∀ t ∈ ts, t.source < n) :
    Model.offsetsFrom 0 ((compress n ts).rows n).toList = (compress n ts).offsets.toList := by
  have hrows : ((compress n ts).rows n).toList = (List.range' 0 n).map fun s =>
      (ts.filter (·.source = s)).map fun t => (t.target, t.value) := by
    refine List.ext_getElem? fun s => ?_
    rw [Array.getElem?_toList, List.getElem?_map, ← List.range_eq_range']
    by_cases hs : s < n
    · rw [rows_compress h hs, List.getElem?_range hs, Option.map_some]
    · rw [Array.getElem?_eq_none (by rw [Compressed.rows, Array.size_ofFn]; omega),
        List.getElem?_eq_none (by simpa using hs), Option.map_none]
  have hfrom := offsetsFrom_rows h n 0
  rw [List.countP_eq_zero.2 fun t _ => by simp] at hfrom
  rw [hrows, hfrom, compress_offsets h hn]

end Builder
end MarkovCheck

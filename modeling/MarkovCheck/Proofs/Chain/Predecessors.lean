import Mathlib
import MarkovCheck.Chain.Predecessors
import MarkovCheck.Proofs.Chain.Compressed
import MarkovCheck.Proofs.Chain.Mass

/-!
# MarkovCheck.Proofs.Chain.Predecessors

The predecessor lists are the converse of the transitions.

The sources for state `t` belong behind those for smaller states, so they begin at the number of the edges into
smaller states (`before`). While edges are placed one after the other, the entry of `t` is ahead of this by the
edges into `t` that have been placed, and their sources stand in between. When all have been placed, every
entry is where the next state begins, which is why moving the entries by one place gives the starts again.

* `countTargets_eq`, `sumBefore_eq` — what the array holds after the first two passes.
* `Placed`, `Placed.place`, `Placed.foldl_place` — the invariant of the placing, kept by one edge and by all.
* `ofEdges_starts`, `ofEdges_predecessors` — the sources of the edges into a state, in the order of the edges.
* `predecessors_eq`, `mem_predecessors` — the list of a state holds, in ascending order, the states with a
  transition to it.
* `predecessorIndex_converse` — the lists are the converse of the transitions.
-/

namespace MarkovCheck
namespace PredecessorIndex

variable {edges done rest : List (ℕ × ℕ)} {e : ℕ × ℕ} {n t : ℕ} {x : PredecessorIndex}

/-- The number of the edges into states that are smaller than `t`. -/
def before (edges : List (ℕ × ℕ)) (t : ℕ) : ℕ := edges.countP (·.2 < t)

/-- The number of the edges into `t`. -/
def into (edges : List (ℕ × ℕ)) (t : ℕ) : ℕ := edges.countP (·.2 = t)

/-- The sources of the edges into `t`, in the order of the edges. -/
def sourcesInto (edges : List (ℕ × ℕ)) (t : ℕ) : List ℕ := (edges.filter (·.2 = t)).map (·.1)

theorem length_sourcesInto (edges : List (ℕ × ℕ)) (t : ℕ) :
    (sourcesInto edges t).length = into edges t := by
  rw [sourcesInto, List.length_map, into, List.countP_eq_length_filter]

theorem sourcesInto_append (l r : List (ℕ × ℕ)) (t : ℕ) :
    sourcesInto (l ++ r) t = sourcesInto l t ++ sourcesInto r t := by
  rw [sourcesInto, List.filter_append, List.map_append, sourcesInto, sourcesInto]

theorem into_cons (e : ℕ × ℕ) (edges : List (ℕ × ℕ)) (t : ℕ) :
    into (e :: edges) t = into edges t + if e.2 = t then 1 else 0 := by
  simp [into, List.countP_cons]

theorem into_append (l r : List (ℕ × ℕ)) (t : ℕ) : into (l ++ r) t = into l t + into r t :=
  List.countP_append

theorem before_succ (edges : List (ℕ × ℕ)) (t : ℕ) :
    before edges (t + 1) = before edges t + into edges t := by
  induction edges with
  | nil => rfl
  | cons e edges ih =>
    simp only [before, into, List.countP_cons, decide_eq_true_eq] at ih ⊢
    split_ifs <;> omega

theorem before_mono (edges : List (ℕ × ℕ)) {s t : ℕ} (h : s ≤ t) : before edges s ≤ before edges t :=
  List.countP_mono_left fun e _ hlt => by
    rw [decide_eq_true_eq] at hlt ⊢
    omega

theorem before_zero (edges : List (ℕ × ℕ)) : before edges 0 = 0 :=
  List.countP_eq_zero.2 fun e _ => by simp

theorem before_eq_length (h : ∀ e ∈ edges, e.2 < n) : before edges n = edges.length :=
  List.countP_eq_length.2 fun e he => by simpa using h e he

/-- The ranges for two states have no place in common. -/
theorem before_add_ne {s t j k : ℕ} (hst : s ≠ t) (hj : j < into edges s) (hk : k < into edges t) :
    before edges s + j ≠ before edges t + k := by
  have hs := before_succ edges s
  have ht := before_succ edges t
  rcases Nat.lt_or_gt_of_ne hst with h | h
  · have : before edges (s + 1) ≤ before edges t := before_mono edges h
    omega
  · have : before edges (t + 1) ≤ before edges s := before_mono edges h
    omega

/-! ## Counting, and the way to the starts and back -/

theorem foldl_modify_getElem? (counts : Array ℕ) (edges : List (ℕ × ℕ)) (t : ℕ) :
    (edges.foldl (fun counts e => counts.modify e.2 (· + 1)) counts)[t]? =
      counts[t]?.map (· + into edges t) := by
  induction edges generalizing counts with
  | nil => simp [into]
  | cons e edges ih =>
    rw [List.foldl_cons, ih, Array.getElem?_modify, into_cons]
    split
    · rw [Option.map_map]
      exact congrArg (Option.map · _) (funext fun k => by simp only [Function.comp_apply]; omega)
    · rfl

theorem countTargets_eq (n : ℕ) (edges : List (ℕ × ℕ)) :
    (countTargets n edges).toList = (List.range n).map (into edges) := by
  refine List.ext_getElem? fun t => ?_
  rw [Array.getElem?_toList, countTargets, foldl_modify_getElem?, Array.getElem?_replicate,
    List.getElem?_map]
  by_cases ht : t < n
  · rw [if_pos ht, List.getElem?_range ht, Option.map_some, Option.map_some, Nat.zero_add]
  · rw [if_neg ht, List.getElem?_eq_none (by simpa using ht), Option.map_none, Option.map_none]

theorem sumBefore_eq (edges : List (ℕ × ℕ)) (k t : ℕ) :
    sumBefore (before edges t) ((List.range' t k).map (into edges)) =
      (List.range' t k).map (before edges) := by
  induction k generalizing t with
  | zero => rfl
  | succ k ih =>
    rw [List.range'_succ, List.map_cons, sumBefore, ← before_succ, ih, List.map_cons]

theorem shift_eq (edges : List (ℕ × ℕ)) (k t : ℕ) :
    shift (before edges t) ((List.range' t k).map fun u => before edges (u + 1)) =
      (List.range' t k).map (before edges) := by
  induction k generalizing t with
  | zero => rfl
  | succ k ih => rw [List.range'_succ, List.map_cons, shift, ih, List.map_cons]

/-! ## Placing -/

/-- What holds when some of the edges have been placed: the sources for a state stand behind those for smaller
states, and its entry is the next free place. -/
structure Placed (n : ℕ) (edges done : List (ℕ × ℕ)) (x : PredecessorIndex) : Prop where
  sources_size : x.sources.size = edges.length
  starts_size : x.starts.size = n
  starts : ∀ t < n, x.starts[t]? = some (before edges t + into done t)
  sources : ∀ t < n, ∀ k < into done t, x.sources[before edges t + k]? = (sourcesInto done t)[k]?

/-- An edge is placed where none of the others is. -/
theorem Placed.place (h : Placed n edges done x) (hedges : edges = done ++ e :: rest) (he : e.2 < n) :
    Placed n edges (done ++ [e]) (x.place e) := by
  have hinto : ∀ t, into edges t = into done t + (into rest t + if e.2 = t then 1 else 0) := fun t => by
    rw [hedges, into_append, into_cons]
  have hinto' : ∀ t, into (done ++ [e]) t = into done t + if e.2 = t then 1 else 0 := fun t => by
    rw [into_append, into_cons, into, into, List.countP_nil, Nat.zero_add]
  have hat : x.starts[e.2]?.getD 0 = before edges e.2 + into done e.2 := by
    rw [h.starts _ he]
    rfl
  constructor
  case sources_size => exact Array.size_setIfInBounds.trans h.sources_size
  case starts_size => exact Array.size_modify.trans h.starts_size
  case starts =>
    intro t ht
    change (x.starts.modify e.2 (· + 1))[t]? = _
    rw [Array.getElem?_modify, h.starts t ht, hinto']
    split <;> rfl
  case sources =>
    intro t ht k hk
    change (x.sources.setIfInBounds _ e.1)[_]? = _
    rw [hat, sourcesInto_append, Array.getElem?_setIfInBounds]
    rw [hinto'] at hk
    by_cases hlast : e.2 = t ∧ k = into done t
    · -- The place of the edge.
      obtain ⟨rfl, rfl⟩ := hlast
      have hlt : before edges e.2 + into done e.2 < x.sources.size := by
        have hsucc := before_succ edges e.2
        have hle : before edges (e.2 + 1) ≤ edges.length := List.countP_le_length
        have := hinto e.2
        rw [if_pos rfl] at this
        rw [h.sources_size]
        omega
      rw [if_pos rfl, if_pos hlt, List.getElem?_append_right (length_sourcesInto _ _).le, length_sourcesInto,
        Nat.sub_self]
      simp [sourcesInto]
    · -- Another place, which has been filled before.
      have hk' : k < into done t := by
        split at hk
        · rename_i het
          have : k ≠ into done t := fun heq => hlast ⟨het, heq⟩
          omega
        · exact hk
      have hne : before edges e.2 + into done e.2 ≠ before edges t + k := by
        have hn := hinto e.2
        have ht := hinto t
        rw [if_pos rfl] at hn
        by_cases het : e.2 = t
        · subst het
          omega
        · exact before_add_ne het (by omega) (by omega)
      rw [if_neg hne, h.sources t ht k hk', List.getElem?_append_left (by rwa [length_sourcesInto])]

/-- All edges are placed. -/
theorem Placed.foldl_place (h : Placed n edges done x) (hedges : edges = done ++ rest)
    (hlt : ∀ e ∈ rest, e.2 < n) : Placed n edges edges (rest.foldl PredecessorIndex.place x) := by
  induction rest generalizing done x with
  | nil =>
    rw [List.append_nil] at hedges
    subst hedges
    exact h
  | cons e rest ih =>
    rw [List.forall_mem_cons] at hlt
    exact ih (h.place hedges hlt.1) (by rw [hedges, List.append_assoc]; rfl) hlt.2

/-- Nothing has been placed when the array holds the starts. -/
theorem placed_nil (n : ℕ) (edges : List (ℕ × ℕ)) : Placed n edges [] ⟨Array.replicate edges.length 0,
    (sumBefore 0 (countTargets n edges).toList).toArray⟩ := by
  have hstarts : sumBefore 0 (countTargets n edges).toList = (List.range n).map (before edges) := by
    have := sumBefore_eq edges n 0
    rwa [before_zero, ← List.range_eq_range', ← countTargets_eq] at this
  constructor
  case sources_size => exact Array.size_replicate
  case starts_size => simp [hstarts]
  case starts =>
    intro t ht
    simp [hstarts, ht, into]
  case sources => exact fun t _ k hk => absurd hk (Nat.not_lt_zero k)

/-! ## The index of all edges -/

section Index

variable (hlt : ∀ e ∈ edges, e.2 < n)
include hlt

/-- The sources for a state begin behind those for smaller states. -/
theorem ofEdges_starts (ht : t ≤ n) : (ofEdges n edges).starts[t]? = some (before edges t) := by
  have hplaced := (placed_nil n edges).foldl_place rfl hlt
  set x := edges.foldl PredecessorIndex.place _ with hx
  -- The entry of a state is where the next state begins.
  have hends : x.starts.toList = (List.range' 0 n).map fun u => before edges (u + 1) := by
    refine List.ext_getElem? fun u => ?_
    rw [Array.getElem?_toList, List.getElem?_map, ← List.range_eq_range']
    by_cases hu : u < n
    · rw [hplaced.starts u hu, List.getElem?_range hu, Option.map_some, before_succ]
    · rw [Array.getElem?_eq_none (by rw [hplaced.starts_size]; omega),
        List.getElem?_eq_none (by simpa using hu), Option.map_none]
  have hshift : shift 0 x.starts.toList = (List.range n).map (before edges) := by
    have := shift_eq edges n 0
    rwa [before_zero, ← hends, ← List.range_eq_range'] at this
  change ((shift 0 x.starts.toList).toArray.push x.sources.size)[t]? = _
  rw [hshift, hplaced.sources_size, Array.getElem?_push]
  rcases ht.lt_or_eq with ht | rfl
  · simp [ht, ht.ne]
  · simp [before_eq_length hlt]

/-- The sources of the edges into a state, in the order of the edges. -/
theorem ofEdges_predecessors (ht : t < n) : (ofEdges n edges).predecessors t = sourcesInto edges t := by
  have hplaced := (placed_nil n edges).foldl_place rfl hlt
  have hsize : (ofEdges n edges).sources.size = edges.length := hplaced.sources_size
  have hle : before edges (t + 1) ≤ edges.length := List.countP_le_length
  rw [predecessors, ofEdges_starts hlt ht.le, ofEdges_starts hlt ht, Option.getD_some, Option.getD_some]
  refine List.ext_getElem? fun k => ?_
  rw [Array.getElem?_toList, Array.getElem?_extract, hsize, min_eq_left hle, before_succ, Nat.add_sub_cancel_left]
  split
  · rename_i hk
    exact hplaced.sources t ht k hk
  · rename_i hk
    rw [List.getElem?_eq_none (by rwa [length_sourcesInto, ← not_lt])]

theorem sum_into : ((List.range n).map (into edges)).sum = edges.length := by
  have hbefore : ∀ k, ((List.range k).map (into edges)).sum = before edges k := fun k => by
    induction k with
    | zero => exact (before_zero edges).symm
    | succ k ih =>
      rw [List.range_succ, List.map_append, List.sum_append, ih, before_succ]
      simp
  rw [hbefore, before_eq_length hlt]

end Index

/-- Whatever is listed is the source of an edge, or the number that unused places have. -/
theorem lt_of_mem_predecessors (hlt : ∀ e ∈ edges, e.1 < n) {s : ℕ}
    (hs : s ∈ (ofEdges n edges).predecessors t) : s < n := by
  have hplace : ∀ y ∈ ((edges.foldl place ⟨Array.replicate edges.length 0,
      (sumBefore 0 (countTargets n edges).toList).toArray⟩).sources), y < n := by
    refine List.foldlRecOn (motive := fun x : PredecessorIndex => ∀ y ∈ x.sources, y < n) edges place ?_ ?_
    · intro y hy
      obtain ⟨hne, rfl⟩ := Array.mem_replicate.1 hy
      obtain ⟨e, he⟩ := List.exists_mem_of_length_pos (Nat.pos_of_ne_zero hne)
      exact (Nat.zero_le _).trans_lt (hlt e he)
    · intro x hx e he y hy
      rcases Array.mem_or_eq_of_mem_setIfInBounds hy with hy | rfl
      · exact hx y hy
      · exact hlt e he
  rw [predecessors, Array.mem_toList_iff, Array.mem_extract_iff_getElem] at hs
  obtain ⟨k, hk, rfl⟩ := hs
  exact hplace _ (Array.getElem_mem _)

end PredecessorIndex

/-! ## Models -/

namespace Model

open PredecessorIndex

variable {V : Type}

theorem mem_edges {m : Model V} {e : ℕ × ℕ} :
    e ∈ m.edges ↔ e.1 < m.numStates ∧ e.2 ∈ (m.row e.1).map (·.1) := by
  rw [edges, List.mem_flatMap]
  constructor
  · rintro ⟨s, hs, he⟩
    obtain ⟨t, ht, rfl⟩ := List.mem_map.1 he
    exact ⟨List.mem_range.1 hs, ht⟩
  · exact fun ⟨hs, ht⟩ => ⟨e.1, List.mem_range.2 hs, List.mem_map.2 ⟨e.2, ht, rfl⟩⟩

theorem length_edges (m : Model V) : m.edges.length = m.numTransitions := by
  rw [edges, List.length_flatMap, numTransitions_eq]
  simp only [List.length_map]

theorem edges_lt [Value V] {m : Model V} (hw : m.WellFormed) : ∀ e ∈ m.edges, e.2 < m.numStates := by
  intro e he
  obtain ⟨d, hd, heq⟩ := List.mem_map.1 (mem_edges.1 he).2
  exact heq ▸ hw.targets_lt e.1 d hd

/-- A state has one edge into another one if that is a target, and none otherwise. -/
theorem sourcesInto_targets {targets : List ℕ} (hn : targets.Nodup) (s t : ℕ) :
    sourcesInto (targets.map fun u => (s, u)) t = if t ∈ targets then [s] else [] := by
  induction targets with
  | nil => rfl
  | cons u targets ih =>
    rw [List.nodup_cons] at hn
    have hcons : sourcesInto ((u :: targets).map fun u => (s, u)) t =
        (if u = t then [s] else []) ++ sourcesInto (targets.map fun u => (s, u)) t := by
      by_cases h : u = t <;> simp [sourcesInto, h]
    rw [hcons, ih hn.2]
    by_cases h : u = t
    · subst h
      simp [hn.1]
    · simp [h, Ne.symm h]

/-- The states with an edge into a state, in ascending order. -/
theorem sourcesInto_edges [Value V] {m : Model V} (hw : m.WellFormed) (t : ℕ) :
    sourcesInto m.edges t = (List.range m.numStates).filter fun s => t ∈ (m.row s).map (·.1) := by
  rw [edges]
  induction List.range m.numStates with
  | nil => rfl
  | cons s l ih =>
    rw [List.flatMap_cons, sourcesInto_append, sourcesInto_targets (hw.nodup_targets s), ih,
      List.filter_cons]
    simp only [decide_eq_true_eq]
    split <;> rfl

theorem predecessors_size (m : Model V) : m.predecessors.size = m.numStates := Array.size_ofFn

theorem predecessors_getD (m : Model V) {t : ℕ} (ht : t < m.numStates) :
    m.predecessors[t]?.getD [] = m.predecessorIndex.predecessors t := by
  rw [predecessors, Array.getElem?_ofFn, dif_pos ht]
  rfl

/-- The states with a transition to a state, in ascending order. -/
theorem predecessors_eq [Value V] {m : Model V} (hw : m.WellFormed) {t : ℕ} (ht : t < m.numStates) :
    m.predecessors[t]?.getD [] =
      (List.range m.numStates).filter fun s => t ∈ (m.row s).map (·.1) := by
  rw [predecessors_getD m ht, predecessorIndex, ofEdges_predecessors (edges_lt hw) ht,
    sourcesInto_edges hw]

theorem mem_predecessors [Value V] {m : Model V} (hw : m.WellFormed) {s t : ℕ}
    (ht : t < m.numStates) :
    s ∈ m.predecessors[t]?.getD [] ↔ s < m.numStates ∧ ∃ e ∈ m.row s, e.1 = t := by
  rw [predecessors_eq hw ht]
  simp

/-- Predecessors are states. -/
theorem predecessors_lt {m : Model V} {s t : ℕ} (h : s ∈ m.predecessors[t]?.getD []) :
    s < m.numStates := by
  by_cases ht : t < m.numStates
  · rw [predecessors_getD m ht] at h
    exact lt_of_mem_predecessors (fun e he => (mem_edges.1 he).1) h
  · rw [Array.getElem?_eq_none (by rwa [predecessors_size, not_lt] at *)] at h
    cases h

/-- The list of a state holds, in ascending order, exactly the states with a transition to it, and all lists
together have as many entries as there are transitions. -/
theorem predecessorIndex_converse [Value V] {m : Model V} (hw : m.WellFormed) :
    (∀ t < m.numStates, (m.predecessorIndex.predecessors t).Pairwise (· < ·) ∧
        ∀ s, s ∈ m.predecessorIndex.predecessors t ↔ ∃ v, (t, v) ∈ m.row s) ∧
      ((List.range m.numStates).map fun t => (m.predecessorIndex.predecessors t).length).sum =
        m.numTransitions := by
  have hlists : ∀ t < m.numStates, m.predecessorIndex.predecessors t = sourcesInto m.edges t := fun t ht => by
    rw [predecessorIndex, ofEdges_predecessors (edges_lt hw) ht]
  constructor
  · intro t ht
    rw [hlists t ht, sourcesInto_edges hw]
    refine ⟨List.pairwise_lt_range.filter _, fun s => ?_⟩
    rw [List.mem_filter, List.mem_range, decide_eq_true_eq, List.mem_map]
    constructor
    · rintro ⟨-, e, he, rfl⟩
      exact ⟨e.2, he⟩
    · rintro ⟨v, he⟩
      refine ⟨?_, (t, v), he, rfl⟩
      -- Only a state has a row that is not empty.
      by_contra hs
      rw [row, Array.getElem?_eq_none (not_lt.1 hs)] at he
      cases he
  · rw [← length_edges, ← sum_into (edges_lt hw)]
    refine congrArg List.sum (List.map_congr_left fun t ht => ?_)
    rw [hlists t (List.mem_range.1 ht), length_sourcesInto]

/-- Nothing leads to the first state, and two transitions lead to each of the others. -/
theorem coin_predecessorIndex :
    (List.range 3).map coin.predecessorIndex.predecessors = [[], [0, 1], [0, 2]] ∧
      (∀ s, s ∈ [0, 2] ↔ ∃ v, (2, v) ∈ coin.row s) ∧ coin.numTransitions = 4 := by
  have hlists : (List.range 3).map coin.predecessorIndex.predecessors = [[], [0, 1], [0, 2]] := by decide
  obtain ⟨hmem, hsum⟩ := predecessorIndex_converse coin_wellFormed
  have htwo : coin.predecessorIndex.predecessors 2 = [0, 2] := by decide
  refine ⟨hlists, fun s => ?_, ?_⟩
  · rw [← htwo]
    exact (hmem 2 (by decide)).2 s
  · rw [← hsum]
    decide

end Model
end MarkovCheck

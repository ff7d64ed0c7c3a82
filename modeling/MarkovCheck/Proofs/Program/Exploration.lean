import Mathlib
import MarkovCheck.Program.Build
import MarkovCheck.Proofs.Program.BreadthFirst

/-!
# MarkovCheck.Proofs.Program.Exploration

The search for the valuations that can be reached.

The numbers of the valuations are their positions in the list of those found, so a transition that was
added keeps its meaning while the list grows. Visiting a valuation appends those of its successors that
are new. The search has fuel for every valuation within the ranges, which all that are found are, so
it ends because all of them have been visited.

* `Numbered`, `IsExplored` — what holds of a search at any time.
* `expand_ok`    — visiting one state.
* `run_ok`       — what has been found and added at the end of the search.
-/

namespace MarkovCheck

namespace Exploration

variable {V : Type} {x y : Exploration V} {state t : List ℤ} {s : ℕ}

/-- The valuations found so far, in the order of their numbers. -/
def found (x : Exploration V) : List (List ℤ) := x.states.toList

/-! ## Numbers -/

/-- No valuation is found twice, and its number is its position. -/
structure Numbered (x : Exploration V) : Prop where
  nodup : x.found.Nodup
  numbers : ∀ (t : List ℤ) (k : ℕ), x.numbers[t]? = some k ↔ x.found[k]? = some t

theorem Numbered.idxOf_eq (h : x.Numbered) {k : ℕ} (hk : x.found[k]? = some t) :
    x.found.idxOf t = k := by
  obtain ⟨hlt, rfl⟩ := List.getElem?_eq_some_iff.1 hk
  exact h.nodup.idxOf_getElem k hlt

/-- A valuation gets its position as number, at the end of the list if it is new. -/
theorem Numbered.discover (h : x.Numbered) (t : List ℤ) :
    (x.discover t).2.Numbered ∧ (x.discover t).2.found = (x.found ++ [t]).eraseDups ∧
      (x.discover t).1 = (x.discover t).2.found.idxOf t ∧
        (x.discover t).2.builder = x.builder ∧ (x.discover t).2.deadlocks = x.deadlocks := by
  unfold Exploration.discover
  split
  · rename_i k hk
    have hget := (h.numbers t k).1 hk
    refine ⟨h, ?_, (h.idxOf_eq hget).symm, rfl, rfl⟩
    rw [eraseDups_concat_of_mem (List.mem_of_getElem? hget), eraseDups_of_nodup h.nodup]
  · rename_i hnone
    have hnot : t ∉ x.found := by
      intro hmem
      obtain ⟨k, hk⟩ := List.mem_iff_getElem?.1 hmem
      rw [(h.numbers t k).2 hk] at hnone
      cases hnone
    have hfound : (x.states.push t).toList = x.found ++ [t] := Array.toList_push
    have hsize : x.states.size = x.found.length := Array.length_toList.symm
    refine ⟨⟨?_, fun u k => ?_⟩, ?_, ?_, rfl, rfl⟩
    · change (x.states.push t).toList.Nodup
      rw [hfound]
      exact h.nodup.append (List.nodup_singleton t) (by simpa using hnot)
    · change (x.numbers.insert t x.states.size)[u]? = some k ↔ (x.states.push t).toList[k]? = some u
      rw [hfound, Std.HashMap.getElem?_insert, List.getElem?_append, hsize]
      by_cases htu : t = u
      · subst htu
        rw [if_pos (beq_self_eq_true t), Option.some_inj]
        constructor
        · rintro rfl
          simp
        · intro hk
          split at hk
          · exact absurd (List.mem_of_getElem? hk) hnot
          · rename_i hlt
            have := (List.getElem?_eq_some_iff.1 hk).1
            rw [List.length_singleton] at this
            omega
      · rw [if_neg (by simpa using htu), h.numbers]
        split
        · rfl
        · rename_i hlt
          rw [List.getElem?_eq_none (not_lt.1 hlt)]
          refine ⟨nofun, fun hk => absurd ?_ htu⟩
          exact (List.mem_singleton.1 (List.mem_of_getElem? hk)).symm
    · change (x.states.push t).toList = _
      rw [hfound, eraseDups_concat_of_notMem hnot, eraseDups_of_nodup h.nodup]
    · change x.states.size = (x.states.push t).toList.idxOf t
      rw [hfound, List.idxOf_append_of_notMem hnot, List.idxOf_cons_self, hsize, Nat.add_zero]

/-! ## Moves -/

variable {moves : List (ℕ × List ℤ × V)}

/-- Adds a transition to a valuation. -/
def move (s : ℕ) (x : Exploration V) (e : List ℤ × V) : Exploration V :=
  let (target, x) := x.discover e.1
  { x with builder := x.builder.addTransition s target e.2 }

/-- What holds of a search after it has added moves from numbered states to valuations. -/
structure IsExplored (x : Exploration V) (moves : List (ℕ × List ℤ × V)) : Prop extends
    x.Numbered where
  targets : ∀ e ∈ moves, e.2.1 ∈ x.found
  transitions : x.builder.transitions.toList =
    moves.map fun e => ⟨e.1, x.found.idxOf e.2.1, e.2.2⟩
  numStates : x.builder.numStates = x.found.length
  deadlocks : ∀ s ∈ x.deadlocks, s < x.found.length

theorem idxOf_eraseDups_append {l r : List (List ℤ)} (hl : l.Nodup) (ht : t ∈ l) :
    (l ++ r).eraseDups.idxOf t = l.idxOf t := by
  obtain ⟨k, hk⟩ := prefix_eraseDups hl r
  rw [← hk, List.idxOf_append_of_mem ht]

theorem IsExplored.move (h : x.IsExplored moves) (hs : s < x.found.length) (e : List ℤ × V) :
    (x.move s e).IsExplored (moves ++ [(s, e)]) ∧
      (x.move s e).found = (x.found ++ [e.1]).eraseDups ∧
        (x.move s e).builder.initial = x.builder.initial := by
  obtain ⟨hnum, hfound, hidx, hbuilder, hdead⟩ := h.toNumbered.discover e.1
  have hfound' : (x.move s e).found = (x.found ++ [e.1]).eraseDups := hfound
  have hle : x.found.length ≤ (x.move s e).found.length := by
    rw [hfound']
    exact (prefix_eraseDups h.nodup [e.1]).length_le
  have hmem : e.1 ∈ (x.move s e).found := by
    rw [hfound', List.mem_eraseDups]
    exact List.mem_append_right _ List.mem_cons_self
  have htarget : (x.move s e).found.idxOf e.1 < (x.move s e).found.length :=
    List.idxOf_lt_length_of_mem hmem
  have hbuild : (x.move s e).builder =
      x.builder.addTransition s ((x.move s e).found.idxOf e.1) e.2 := by
    change (x.discover e.1).2.builder.addTransition s (x.discover e.1).1 e.2 = _
    rw [hbuilder, hidx]
    rfl
  refine ⟨?_, hfound', by rw [hbuild]; rfl⟩
  constructor
  case toNumbered => exact ⟨hnum.nodup, hnum.numbers⟩
  case targets =>
    intro d hd
    rcases List.mem_append.1 hd with hd | hd
    · rw [hfound', List.mem_eraseDups]
      exact List.mem_append_left _ (h.targets d hd)
    · rw [List.mem_singleton.1 hd]
      exact hmem
  case transitions =>
    rw [hbuild, Builder.addTransition, Array.toList_push, h.transitions, List.map_append,
      List.map_singleton]
    congr 1
    refine List.map_congr_left fun d hd => ?_
    rw [hfound', idxOf_eraseDups_append h.nodup (h.targets d hd)]
  case numStates =>
    -- The list grows by the target, if it is new, so the largest number is that of its last entry.
    have hnew : (x.move s e).found.length = x.found.length ∨
        (x.move s e).found.idxOf e.1 + 1 = (x.move s e).found.length := by
      by_cases hold : e.1 ∈ x.found
      · exact .inl (by rw [hfound', eraseDups_concat_of_mem hold, eraseDups_of_nodup h.nodup])
      · refine .inr ?_
        rw [hfound', eraseDups_concat_of_notMem hold, eraseDups_of_nodup h.nodup,
          List.idxOf_append_of_notMem hold, List.idxOf_cons_self, List.length_append,
          List.length_singleton, Nat.add_zero]
    have hnumStates := h.numStates
    rw [hbuild]
    change max x.builder.numStates _ = _
    omega
  case deadlocks =>
    intro d hd
    change d ∈ (x.discover e.1).2.deadlocks at hd
    rw [hdead] at hd
    exact (h.deadlocks d hd).trans_le hle

theorem IsExplored.foldl_move (h : x.IsExplored moves) (hs : s < x.found.length)
    (es : List (List ℤ × V)) : (es.foldl (Exploration.move s) x).IsExplored (moves ++ es.map (s, ·)) ∧
      (es.foldl (Exploration.move s) x).found = (x.found ++ es.map (·.1)).eraseDups ∧
        (es.foldl (Exploration.move s) x).builder.initial = x.builder.initial := by
  induction es generalizing x moves with
  | nil =>
    refine ⟨by simpa using h, ?_, rfl⟩
    rw [List.map_nil, List.append_nil, eraseDups_of_nodup h.nodup]
    rfl
  | cons e es ih =>
    obtain ⟨hx, hfound, hinitial⟩ := h.move hs e
    have hle : x.found.length ≤ (x.move s e).found.length := by
      rw [hfound]
      exact (prefix_eraseDups h.nodup [e.1]).length_le
    obtain ⟨hy, hfound', hinitial'⟩ := ih hx (hs.trans_le hle)
    refine ⟨by simpa using hy, ?_, hinitial'.trans hinitial⟩
    rw [List.foldl_cons, hfound', hfound, eraseDups_append_left, List.append_assoc]
    rfl

/-! ## Visiting a state -/

variable [Value V] {c : Context V} {dynamics : Dynamics} {fixDeadlocks : Bool}

/-- The moves of a valuation with the distributions of its choices; without any it stays. -/
def movesOf (state : List ℤ) : List (Distribution V) → List (List ℤ × V)
  | [] => [(state, Value.one)]
  | ds => ds.flatten.map fun t => (t.1, scaled (uniform? ds.length) t.2)

theorem movesOf_of_ne_nil {ds : List (Distribution V)} (h : ds ≠ []) :
    movesOf state ds = ds.flatten.map fun t => (t.1, scaled (uniform? ds.length) t.2) := by
  cases ds with
  | nil => exact (h rfl).elim
  | cons d ds => rfl

/-- The valuations that distributions list. -/
def targetsOf (ds : List (Distribution V)) : List (List ℤ) := ds.flatten.map (·.1)

theorem addTransitions_eq (s : ℕ) (scale : Option V) (x : Exploration V) (d : Distribution V) :
    addTransitions s scale x d = (d.map fun t => (t.1, scaled scale t.2)).foldl (move s) x := by
  rw [addTransitions, List.foldl_map]
  rfl

/-- Going through the distributions one by one is going through all their entries. -/
theorem foldl_addTransitions (s : ℕ) (x : Exploration V) {ds : List (Distribution V)} (h : ds ≠ []) :
    ds.foldl (addTransitions s (uniform? ds.length)) x = (movesOf state ds).foldl (move s) x := by
  rw [movesOf_of_ne_nil h, List.map_flatten, List.foldl_flatten, List.foldl_map]
  exact congrFun (congrFun (congrArg _ (funext₂ fun x d =>
    addTransitions_eq s (uniform? ds.length) x d)) _) _

/-- The moves lead to the valuations that the distributions list. -/
theorem map_fst_movesOf {ds : List (Distribution V)} (h : ds ≠ []) :
    (movesOf state ds).map (·.1) = targetsOf ds := by
  rw [movesOf_of_ne_nil h, List.map_map]
  rfl

theorem IsExplored.expand_ok (h : x.IsExplored moves) (hs : x.found[s]? = some state)
    (hy : x.expand c dynamics fixDeadlocks s state = .ok y) :
    ∃ ds, c.choices dynamics state = .ok ds ∧ (ds = [] → fixDeadlocks = true) ∧
      y.IsExplored (moves ++ (movesOf state ds).map (s, ·)) ∧
        y.found = (x.found ++ targetsOf ds).eraseDups ∧ y.builder.initial = x.builder.initial := by
  have hlt : s < x.found.length := (List.getElem?_eq_some_iff.1 hs).1
  unfold expand at hy
  split at hy
  · cases hy
  · rename_i hnone
    split at hy
    · rename_i hfix
      cases hy
      refine ⟨[], hnone, fun _ => hfix, ?_, ?_, rfl⟩
      · constructor
        case toNumbered => exact ⟨h.nodup, h.numbers⟩
        case targets =>
          intro e he
          rcases List.mem_append.1 he with he | he
          · exact h.targets e he
          · rw [List.mem_singleton.1 he]
            exact List.mem_of_getElem? hs
        case transitions =>
          change (x.builder.transitions.push _).toList = _
          rw [Array.toList_push, h.transitions, List.map_append, movesOf, List.map_singleton,
            List.map_singleton]
          change _ = _ ++ [(⟨s, x.found.idxOf state, Value.one⟩ : Transition V)]
          rw [h.toNumbered.idxOf_eq hs]
          rfl
        case numStates =>
          have hnumStates := h.numStates
          change max x.builder.numStates (max s s + 1) = x.found.length
          omega
        case deadlocks =>
          intro d hd
          rcases Array.mem_push.1 hd with hd | rfl
          · exact h.deadlocks d hd
          · exact hlt
      · rw [targetsOf, List.flatten_nil, List.map_nil, List.append_nil, eraseDups_of_nodup h.nodup]
        rfl
    · cases hy
  · rename_i ds hne hds
    cases hy
    obtain ⟨hexplored, hfound, hinitial⟩ := h.foldl_move hlt (movesOf state ds)
    rw [← foldl_addTransitions s x hne] at hexplored hfound hinitial
    exact ⟨ds, hds, fun hnil => (hne hnil).elim, hexplored, map_fst_movesOf hne ▸ hfound, hinitial⟩

/-! ## The search -/

/-- The distributions of the choices of a valuation. -/
def distributionsAt (c : Context V) (dynamics : Dynamics) (state : List ℤ) : List (Distribution V) :=
  match c.choices dynamics state with
  | .ok ds => ds
  | .error _ => []

/-- The valuations that a valuation can move to, in the order in which they are found. -/
def nextStates (c : Context V) (dynamics : Dynamics) (state : List ℤ) : List (List ℤ) :=
  targetsOf (distributionsAt c dynamics state)

/-- The moves of valuations that are numbered from `s` on. -/
def movesFrom (c : Context V) (dynamics : Dynamics) (s : ℕ) (states : List (List ℤ)) :
    List (ℕ × List ℤ × V) :=
  (states.zipIdx s).flatMap fun e => (movesOf e.1 (distributionsAt c dynamics e.1)).map (e.2, ·)

/-- The choices of a valuation are known, and it has some unless a deadlock may stay. -/
def CanExpand (c : Context V) (dynamics : Dynamics) (fixDeadlocks : Bool) (state : List ℤ) : Prop :=
  ∃ ds, c.choices dynamics state = .ok ds ∧ (ds = [] → fixDeadlocks = true)

section Run

variable {P : List ℤ → Prop} {bound fuel : ℕ}

omit [Value V] in
theorem forall_mem_eraseDups_append {l r : List (List ℤ)} (hl : ∀ t ∈ l, P t) (hr : ∀ t ∈ r, P t) :
    ∀ t ∈ (l ++ r).eraseDups, P t := by
  intro t ht
  rw [List.mem_eraseDups] at ht
  exact (List.mem_append.1 ht).elim (hl t) (hr t)

/-- When all valuations that can be found are among finitely many, the search ends after all that were
found have been visited. -/
theorem run_ok (hbound : ∀ l : List (List ℤ), l.Nodup → (∀ t ∈ l, P t) → l.length ≤ bound)
    (hclosed : ∀ t, P t → ∀ u ∈ nextStates c dynamics t, P u) (h : x.IsExplored moves)
    (hP : ∀ t ∈ x.found, P t) (hs : s ≤ x.found.length) (hfuel : bound < fuel + s)
    (hy : run c dynamics fixDeadlocks fuel s x = .ok y) :
    y.IsExplored (moves ++ movesFrom c dynamics s (y.found.drop s)) ∧
      y.found = (x.found ++ (y.found.drop s).flatMap (nextStates c dynamics)).eraseDups ∧
        (∀ t ∈ y.found, P t) ∧ (∀ t ∈ y.found.drop s, CanExpand c dynamics fixDeadlocks t) ∧
          y.builder.initial = x.builder.initial := by
  induction fuel generalizing s x moves with
  | zero =>
    have := hbound x.found h.nodup hP
    omega
  | succ fuel ih =>
    simp only [run] at hy
    split at hy
    · -- All valuations have been visited.
      rename_i hnone
      obtain rfl : x = y := Except.ok.inj hy
      have hge : x.found.length ≤ s := by
        rw [found, Array.length_toList]
        exact Array.getElem?_eq_none_iff.1 hnone
      rw [List.drop_eq_nil_of_le hge]
      refine ⟨by simpa [movesFrom] using h, ?_, hP, nofun, rfl⟩
      rw [List.flatMap_nil, List.append_nil, eraseDups_of_nodup h.nodup]
    · rename_i state hstate
      have hstate' : x.found[s]? = some state := by rwa [found, Array.getElem?_toList]
      split at hy
      · cases hy
      · rename_i z hz
        obtain ⟨ds, hds, hfix, hexplored, hfound, hinitial⟩ := h.expand_ok hstate' hz
        have hat : distributionsAt c dynamics state = ds := by rw [distributionsAt, hds]
        have hkept : x.found <+: z.found := hfound ▸ prefix_eraseDups h.nodup _
        have hlt : s < z.found.length :=
          (List.getElem?_eq_some_iff.1 hstate').1.trans_le hkept.length_le
        have hPz : ∀ t ∈ z.found, P t := hfound ▸ forall_mem_eraseDups_append hP
          (hat ▸ hclosed state (hP state (List.mem_of_getElem? hstate')))
        obtain ⟨hy', hfoundy, hPy, hexpand, hinitialy⟩ :=
          ih hexplored hPz hlt (by omega) hy
        -- The visited valuation is still at its place in the final list.
        have hlater : z.found <+: y.found := hfoundy ▸ prefix_eraseDups hexplored.nodup _
        have hdrop : y.found.drop s = state :: y.found.drop (s + 1) :=
          drop_of_prefix (hkept.trans hlater) hstate'
        rw [hdrop]
        refine ⟨?_, ?_, hPy, List.forall_mem_cons.2 ⟨⟨ds, hds, hfix⟩, hexpand⟩,
          hinitialy.trans hinitial⟩
        · rw [movesFrom, List.zipIdx_cons, List.flatMap_cons, hat, ← List.append_assoc]
          exact hy'
        · rw [List.flatMap_cons, nextStates, hat, ← List.append_assoc, ← eraseDups_append_left (_ ++ _),
            ← hfound]
          exact hfoundy

/-- The search succeeds when the choices of all valuations that can be found are known. -/
theorem run_isOk (hclosed : ∀ t, P t → ∀ u ∈ nextStates c dynamics t, P u)
    (hexpand : ∀ t, P t → CanExpand c dynamics fixDeadlocks t) (h : x.IsExplored moves)
    (hP : ∀ t ∈ x.found, P t) : ∃ y, run c dynamics fixDeadlocks fuel s x = .ok y := by
  induction fuel generalizing s x moves with
  | zero => exact ⟨x, rfl⟩
  | succ fuel ih =>
    simp only [run]
    split
    · exact ⟨x, rfl⟩
    · rename_i state hstate
      have hstate' : x.found[s]? = some state := by rwa [found, Array.getElem?_toList]
      have hPstate := hP state (List.mem_of_getElem? hstate')
      obtain ⟨ds, hds, hfix⟩ := hexpand state hPstate
      obtain ⟨z, hz⟩ : ∃ z, x.expand c dynamics fixDeadlocks s state = .ok z := by
        unfold expand
        rw [hds]
        rcases ds with _ | ⟨d, ds⟩
        · exact ⟨_, if_pos (hfix rfl)⟩
        · exact ⟨_, rfl⟩
      rw [hz]
      obtain ⟨ds', hds', -, hexplored, hfound, -⟩ := h.expand_ok hstate' hz
      have hat : distributionsAt c dynamics state = ds' := by rw [distributionsAt, hds']
      exact ih hexplored (hfound ▸ forall_mem_eraseDups_append hP (hat ▸ hclosed state hPstate))

end Run

/-! ## The initial valuations -/

omit [Value V] in
theorem isExplored_empty : IsExplored ({} : Exploration V) [] where
  nodup := List.nodup_nil
  numbers t k := by simp [found]
  targets := nofun
  transitions := rfl
  numStates := rfl
  deadlocks := nofun

omit [Value V] in
theorem IsExplored.addInitial (h : x.IsExplored []) (hnot : t ∉ x.found) :
    (x.addInitial t).IsExplored [] ∧ (x.addInitial t).found = x.found ++ [t] ∧
      (x.addInitial t).builder.initial.toList = x.builder.initial.toList ++ [x.found.length] := by
  obtain ⟨hnum, hfound, hidx, hbuilder, hdead⟩ := h.toNumbered.discover t
  rw [eraseDups_concat_of_notMem hnot, eraseDups_of_nodup h.nodup] at hfound
  have hfound' : (x.addInitial t).found = x.found ++ [t] := hfound
  have hbuild : (x.addInitial t).builder = x.builder.addInitial x.found.length := by
    change (x.discover t).2.builder.addInitial (x.discover t).1 = _
    rw [hbuilder, hidx, hfound, List.idxOf_append_of_notMem hnot, List.idxOf_cons_self, Nat.add_zero]
  refine ⟨?_, hfound', by rw [hbuild, Builder.addInitial, Array.toList_push]⟩
  constructor
  case toNumbered => exact ⟨hnum.nodup, hnum.numbers⟩
  case targets => exact nofun
  case transitions =>
    rw [hbuild]
    exact h.transitions
  case numStates =>
    have hnumStates := h.numStates
    rw [hbuild, hfound', List.length_append, List.length_singleton]
    change max x.builder.numStates (x.found.length + 1) = _
    omega
  case deadlocks =>
    intro d hd
    change d ∈ (x.discover t).2.deadlocks at hd
    rw [hdead] at hd
    rw [hfound', List.length_append]
    exact Nat.lt_add_right _ (h.deadlocks d hd)

omit [Value V] in
theorem IsExplored.foldl_addInitial {l : List (List ℤ)} (h : x.IsExplored [])
    (hl : (x.found ++ l).Nodup) : (l.foldl Exploration.addInitial x).IsExplored [] ∧
      (l.foldl Exploration.addInitial x).found = x.found ++ l ∧
        (l.foldl Exploration.addInitial x).builder.initial.toList =
          x.builder.initial.toList ++ List.range' x.found.length l.length := by
  induction l generalizing x with
  | nil => exact ⟨h, (List.append_nil _).symm, (List.append_nil _).symm⟩
  | cons t l ih =>
    have hnot : t ∉ x.found := fun hmem =>
      (List.nodup_append.1 hl).2.2 t hmem t List.mem_cons_self rfl
    obtain ⟨hx, hfound, hinitial⟩ := h.addInitial hnot
    have hl' : ((x.addInitial t).found ++ l).Nodup := by
      rw [hfound, List.append_assoc]
      exact hl
    obtain ⟨hy, hfound', hinitial'⟩ := ih hx hl'
    refine ⟨hy, ?_, ?_⟩
    · rw [List.foldl_cons, hfound', hfound, List.append_assoc]
      rfl
    · rw [List.foldl_cons, hinitial', hinitial, hfound, List.length_append, List.length_singleton,
        List.append_assoc, List.length_cons, List.range'_succ]
      rfl

omit [Value V] in
theorem isExplored_initial {l : List (List ℤ)} (hl : l.Nodup) :
    (l.foldl Exploration.addInitial ({} : Exploration V)).IsExplored [] ∧
      (l.foldl Exploration.addInitial ({} : Exploration V)).found = l ∧
        (l.foldl Exploration.addInitial ({} : Exploration V)).builder.initial.toList =
          List.range l.length := by
  have hempty : ({} : Exploration V).found = [] := rfl
  obtain ⟨hx, hfound, hinitial⟩ := isExplored_empty.foldl_addInitial (V := V) (l := l) (by
    rwa [hempty, List.nil_append])
  refine ⟨hx, by rw [hfound, hempty, List.nil_append], ?_⟩
  rw [hinitial, List.range_eq_range']
  rfl

end Exploration
end MarkovCheck

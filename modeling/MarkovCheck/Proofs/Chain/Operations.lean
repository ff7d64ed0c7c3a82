import Mathlib
import MarkovCheck.Proofs.Chain.Entries
import MarkovCheck.Proofs.Chain.StoredForm
import MarkovCheck.Proofs.Occurrences

/-!
# MarkovCheck.Proofs.Chain.Operations

What a builder makes of any sequence of operations.

One lemma for every part of a builder says what an operation does to it, and by induction what a
sequence of operations leaves there: transitions and initial states are collected, labels and rewards
go to the entries of their names, and the number of states is the largest one that was needed. Finishing
sorts and merges, so nothing depends on the order but the rewards, of which the last one counts.

* `Operation`, `run` — the operations, and the builder after a sequence of them.
* `Stores`           — compressed rows that are those of a model.
* `IsAssembled`      — the model of a sequence of operations.
* `finish_run`       — finishing gives that model, and fails when there is no initial state.
-/

namespace MarkovCheck

/-- The compressed rows of a model: row `s` lies between two consecutive offsets, the last of which is the
number of transitions. -/
structure Compressed.Stores {V : Type} (c : Compressed V) (m : Model V) : Prop where
  offsets_size : c.offsets.size = m.numStates + 1
  offsets_ascend : c.offsets.toList.Pairwise (· ≤ ·)
  sentinel : c.offsets[m.numStates]? = some m.numTransitions
  targets_size : c.targets.size = m.numTransitions
  values_size : c.values.size = m.numTransitions
  offsets : m.offsets = c.offsets.toList
  row : ∀ s < m.numStates, m.row s = c.row s

/-- The rows of a model are stored when they have been pushed one after the other. -/
theorem Compressed.Lists.stores {V : Type} {c : Compressed V} {m : Model V} (h : c.Lists m.rows.toList) :
    c.close.Stores m := by
  have hcount : m.rows.toList.flatten.length = m.numTransitions := by
    rw [Model.numTransitions, Model.foldl_length, List.length_flatten, Nat.zero_add]
  constructor
  case offsets_size =>
    rw [← Array.length_toList, h.close_offsets, Model.length_offsetsFrom, Array.length_toList]
    rfl
  case offsets_ascend =>
    rw [h.close_offsets]
    exact (Model.offsetsFrom_ascend 0 _).1
  case sentinel =>
    have hlength : m.rows.toList.length = m.numStates := Array.length_toList
    rw [← hlength, h.close_offset le_rfl, List.take_length, hcount]
  case targets_size => exact h.targets_size.trans hcount
  case values_size => exact h.values_size.trans hcount
  case offsets => exact h.close_offsets.symm
  case row =>
    intro s hs
    have hs' : s < m.rows.toList.length := by rwa [Array.length_toList]
    rw [h.close_row hs', Model.row, Array.getElem?_eq_getElem hs, Option.getD_some]
    exact (Array.getElem_toList hs).symm

namespace Builder

/-- The operations of a builder. -/
inductive Operation (V : Type) where
  | requireStates (n : ℕ)
  | addTransition (source target : ℕ) (value : V)
  | addInitial (s : ℕ)
  | addLabel (name : String)
  | addStateLabel (s : ℕ) (name : String)
  | addRewardModel (name : String)
  | addStateReward (name : String) (s : ℕ) (value : V)

namespace Operation

variable {V : Type}

def apply (b : Builder V) : Operation V → Builder V
  | requireStates n => b.requireStates n
  | addTransition s t v => b.addTransition s t v
  | addInitial s => b.addInitial s
  | addLabel name => b.addLabel name
  | addStateLabel s name => b.addStateLabel s name
  | addRewardModel name => b.addRewardModel name
  | addStateReward name s v => b.addStateReward name s v

/-- The number of states that an operation needs: the one that it requires, or one more than the
largest state that it mentions. -/
def numStates : Operation V → ℕ
  | requireStates n => n
  | addTransition s t _ => max s t + 1
  | addInitial s | addStateLabel s _ | addStateReward _ s _ => s + 1
  | addLabel _ | addRewardModel _ => 0

def transition? : Operation V → Option (Transition V)
  | addTransition s t v => some ⟨s, t, v⟩
  | _ => none

def initial? : Operation V → Option ℕ
  | addInitial s => some s
  | _ => none

/-- The label that an operation declares. -/
def label? : Operation V → Option String
  | addLabel name | addStateLabel _ name => some name
  | _ => none

/-- The reward model that an operation declares. -/
def rewardModel? : Operation V → Option String
  | addRewardModel name | addStateReward name _ _ => some name
  | _ => none

/-- The value that an operation adds between two states. -/
def valueAt? (s t : ℕ) : Operation V → Option V
  | addTransition s' t' v => if s' = s ∧ t' = t then some v else none
  | _ => none

/-- The reward that an operation sets for a state. -/
def rewardAt? (name : String) (s : ℕ) : Operation V → Option V
  | addStateReward name' s' v => if name' = name ∧ s' = s then some v else none
  | _ => none

/-- The value of an operation, if it has one, is in canonical form. -/
def IsCanonical : Operation RationalFunction → Prop
  | addTransition _ _ f | addStateReward _ _ f => f.IsCanonical
  | _ => True

end Operation

variable {V : Type} {ops : List (Operation V)} {b : Builder V} {op : Operation V} {name : String} {s : ℕ}

/-- The builder after a sequence of operations. -/
def run (ops : List (Operation V)) : Builder V := ops.foldl Operation.apply empty

theorem run_append (ops : List (Operation V)) (op : Operation V) :
    run (ops ++ [op]) = op.apply (run ops) := by
  rw [run, List.foldl_append]
  rfl

/-- The compressed rows of everything that was added. -/
def compressed [Value V] (b : Builder V) : Compressed V :=
  compress b.numStates (mergeTransitions b.transitions.toList)

/-- The values that were added between two states. -/
def added (ops : List (Operation V)) (s t : ℕ) : List V := ops.filterMap (Operation.valueAt? s t)

/-- The reward that was set last for a state. -/
def lastReward? (ops : List (Operation V)) (name : String) (s : ℕ) : Option V :=
  (ops.filterMap (Operation.rewardAt? name s)).getLast?

/-! ## The parts of a builder -/

theorem numStates_run (ops : List (Operation V)) :
    (run ops).numStates = (ops.map Operation.numStates).foldr max 0 := by
  have hstep : ∀ (b : Builder V) (op : Operation V),
      (op.apply b).numStates = max b.numStates op.numStates := fun b op => by
    cases op <;> simp [Operation.apply, Operation.numStates, Builder.requireStates,
      Builder.addTransition, Builder.addInitial, Builder.addLabel, Builder.addStateLabel,
      Builder.addRewardModel, Builder.addStateReward]
  have hfold : ∀ b : Builder V, (ops.foldl Operation.apply b).numStates =
      max b.numStates ((ops.map Operation.numStates).foldr max 0) := by
    induction ops with
    | nil => exact fun b => (max_eq_left (Nat.zero_le _)).symm
    | cons op ops ih =>
      intro b
      rw [List.foldl_cons, ih, hstep, List.map_cons, List.foldr_cons, max_assoc]
  exact (hfold empty).trans (max_eq_right (Nat.zero_le _))

theorem numStates_le_run (h : op ∈ ops) : op.numStates ≤ (run ops).numStates := by
  rw [numStates_run]
  induction ops with
  | nil => cases h
  | cons o ops ih =>
    rw [List.map_cons, List.foldr_cons]
    rcases List.mem_cons.1 h with rfl | h
    · exact le_max_left _ _
    · exact (ih h).trans (le_max_right _ _)

theorem numStates_run_le {n : ℕ} (h : ∀ op ∈ ops, op.numStates ≤ n) : (run ops).numStates ≤ n := by
  rw [numStates_run]
  induction ops with
  | nil => exact Nat.zero_le n
  | cons op ops ih =>
    rw [List.forall_mem_cons] at h
    exact max_le h.1 (ih h.2)

theorem transitions_run (ops : List (Operation V)) :
    (run ops).transitions.toList = ops.filterMap Operation.transition? := by
  induction ops using List.reverseRecOn with
  | nil => rfl
  | append_singleton ops op ih =>
    rw [run_append, List.filterMap_append, ← ih]
    cases op with
    | addTransition s t v => exact Array.toList_push
    | _ => exact (List.append_nil _).symm

theorem initial_run (ops : List (Operation V)) :
    (run ops).initial.toList = ops.filterMap Operation.initial? := by
  induction ops using List.reverseRecOn with
  | nil => rfl
  | append_singleton ops op ih =>
    rw [run_append, List.filterMap_append, ← ih]
    cases op with
    | addInitial s => exact Array.toList_push
    | _ => exact (List.append_nil _).symm

theorem mem_initial_run : s ∈ (run ops).initial.toList ↔ .addInitial s ∈ ops := by
  rw [initial_run, List.mem_filterMap]
  constructor
  · rintro ⟨op, hop, h⟩
    cases op with
    | addInitial t => cases h; exact hop
    | _ => cases h
  · exact fun h => ⟨_, h, rfl⟩

/-- Declaring a name once more changes nothing. -/
theorem names_declare_concat {α : Type} {entries : List (String × List α)} {names : List String}
    (h : entries.map (·.1) = names.eraseDups) (x : String) :
    (declare x entries).map (·.1) = (names ++ [x]).eraseDups := by
  have hmem : x ∈ entries.map (·.1) ↔ x ∈ names := by rw [h, List.mem_eraseDups]
  by_cases hx : x ∈ names
  · rw [declare_of_mem (hmem.2 hx), eraseDups_concat_of_mem hx, h]
  · rw [declare_of_notMem (mt hmem.1 hx), List.map_append, eraseDups_concat_of_notMem hx, h]
    rfl

/-- Labels keep the order in which they were declared first. -/
theorem labelNames_run (ops : List (Operation V)) :
    (run ops).labelNames = (ops.filterMap Operation.label?).eraseDups := by
  induction ops using List.reverseRecOn with
  | nil => rfl
  | append_singleton ops op ih =>
    rw [run_append, List.filterMap_append]
    cases op with
    | addLabel x => exact names_declare_concat ih x
    | addStateLabel i x => exact (names_consItem _).trans (names_declare_concat ih x)
    | _ => exact ih.trans (congrArg List.eraseDups (List.append_nil _).symm)

theorem mem_labelNames_run : name ∈ (run ops).labelNames ↔ ∃ op ∈ ops, op.label? = some name := by
  rw [labelNames_run, List.mem_eraseDups, List.mem_filterMap]

theorem carries_run : (run ops).Carries s name ↔ .addStateLabel s name ∈ ops := by
  have hstep : ∀ (b : Builder V) (op : Operation V),
      (op.apply b).Carries s name ↔ b.Carries s name ∨ .addStateLabel s name = op := fun b op => by
    cases op with
    | addLabel x => exact carries_addLabel.trans (or_iff_left nofun).symm
    | addStateLabel i x =>
      rw [Operation.apply, carries_addStateLabel, Operation.addStateLabel.injEq, and_comm]
    | _ => exact (or_iff_left nofun).symm
  induction ops using List.reverseRecOn with
  | nil => exact iff_of_false List.not_mem_nil List.not_mem_nil
  | append_singleton ops op ih =>
    rw [run_append, hstep, List.mem_append, List.mem_singleton]
    exact or_congr_left ih

/-- So do reward models. -/
theorem rewardNames_run (ops : List (Operation V)) :
    (run ops).rewardNames = (ops.filterMap Operation.rewardModel?).eraseDups := by
  induction ops using List.reverseRecOn with
  | nil => rfl
  | append_singleton ops op ih =>
    rw [run_append, List.filterMap_append]
    cases op with
    | addRewardModel x => exact names_declare_concat ih x
    | addStateReward x i v => exact (names_consItem _).trans (names_declare_concat ih x)
    | _ => exact ih.trans (congrArg List.eraseDups (List.append_nil _).symm)

theorem mem_rewardNames_run :
    name ∈ (run ops).rewardNames ↔ ∃ op ∈ ops, op.rewardModel? = some name := by
  rw [rewardNames_run, List.mem_eraseDups, List.mem_filterMap]

theorem rewardOf_run [Value V] (ops : List (Operation V)) (name : String) (s : ℕ) :
    (run ops).rewardOf name s = (lastReward? ops name s).getD Value.zero := by
  have hstep : ∀ (b : Builder V) (op : Operation V),
      (op.apply b).rewardOf name s = (op.rewardAt? name s).getD (b.rewardOf name s) := fun b op => by
    cases op with
    | addRewardModel x =>
      exact congrArg (fun l => (List.lookup s l).getD Value.zero) (lookup_declare x name b.rewards)
    | addStateReward x i v =>
      rw [Operation.apply, rewardOf_addStateReward, Operation.rewardAt?]
      by_cases h : x = name ∧ i = s
      · rw [if_pos h, if_pos ⟨h.1.symm, h.2.symm⟩, Option.getD_some]
      · rw [if_neg h, if_neg fun h' => h ⟨h'.1.symm, h'.2.symm⟩, Option.getD_none]
    | _ => rfl
  induction ops using List.reverseRecOn with
  | nil => rfl
  | append_singleton ops op ih =>
    rw [run_append, hstep, ih, lastReward?, lastReward?, List.filterMap_append, List.getLast?_append]
    cases h : op.rewardAt? name s <;> simp [h]

theorem valuesAt_run (ops : List (Operation V)) (s t : ℕ) :
    valuesAt (run ops).transitions.toList (toLex (s, t)) = added ops s t := by
  rw [transitions_run, valuesAt, List.filter_filterMap, List.map_filterMap, added]
  refine List.filterMap_congr fun op _ => ?_
  cases op with
  | addTransition i j v =>
    by_cases h : i = s ∧ j = t <;>
      simp [Operation.transition?, Operation.valueAt?, Transition.key, Option.filter, h]
  | _ => rfl

theorem source_lt_run : ∀ t ∈ (run ops).transitions.toList, t.source < (run ops).numStates := by
  intro t ht
  rw [transitions_run, List.mem_filterMap] at ht
  obtain ⟨op, hop, h⟩ := ht
  cases op with
  | addTransition i j v =>
    cases h
    have := numStates_le_run hop
    change max i j + 1 ≤ _ at this
    change i < _
    omega
  | _ => cases h

/-- A row has the sums of what was added from its state, without the sums that are zero. -/
theorem mem_row_run [Value V] [Std.TransCmp (Value.cmp (V := V))] [Std.LawfulEqCmp (Value.cmp (V := V))]
    {m : Model V} {k : ModelKind} (hm : (run ops).finish k = .ok m) {s t : ℕ} {v : V} :
    (t, v) ∈ m.row s ↔ added ops s t ≠ [] ∧ v = Value.sumCanonical (added ops s t) ∧
      Value.isZero v = false := by
  by_cases hs : s < (run ops).numStates
  · rw [finish_row hm, mem_rowsOf_sum hs, valuesAt_run]
  · -- Nothing was added for a state that is none.
    rw [row_eq_nil hm hs]
    refine iff_of_false List.not_mem_nil fun hadd => hadd.1 ?_
    rw [← valuesAt_run, valuesAt, List.map_eq_nil_iff, List.filter_eq_nil_iff]
    intro u hu hkey
    obtain ⟨rfl, -⟩ := Prod.mk.inj (of_decide_eq_true hkey)
    exact hs (source_lt_run u hu)

theorem has_iff_of_finish [Value V] {m : Model V} {k : ModelKind} (hm : (run ops).finish k = .ok m)
    (name : String) (s : ℕ) :
    m.labeling.has name s = true ↔ .addStateLabel s name ∈ ops := by
  obtain ⟨hknown, hstates⟩ := states?_finish hm
  unfold Labeling.has
  split
  · rename_i T hT
    obtain ⟨hsize, hcontains⟩ := hstates name T hT
    by_cases hs : s < (run ops).numStates
    · exact (hcontains s hs).trans carries_run
    · refine iff_of_false (fun h => hs ?_) fun h => hs ?_
      · exact (StateSet.lt_of_contains h).trans_eq hsize
      · exact numStates_le_run h
  · rename_i hnone
    refine iff_of_false Bool.false_ne_true fun h => ?_
    have hmem := (hknown name).2 (mem_labelNames_run.2 ⟨_, h, rfl⟩)
    rw [hnone] at hmem
    cases hmem

/-- A model can be finished when an initial state was added. -/
theorem finish_ok [Value V] (k : ModelKind) (h : .addInitial s ∈ ops) :
    ∃ m, (run ops).finish k = .ok m := by
  have hne : (run ops).initial.isEmpty = false := by
    rw [← Array.isEmpty_toList, List.isEmpty_eq_false_iff]
    exact List.ne_nil_of_mem (mem_initial_run.2 h)
  rw [finish, hne]
  exact ⟨_, rfl⟩

/-- The reward of a state is the one that was set, if no other one was. -/
theorem lastReward?_eq_some {v : V} (h : .addStateReward name s v ∈ ops)
    (hunique : ∀ w, .addStateReward name s w ∈ ops → w = v) : lastReward? ops name s = some v := by
  have hmem : ∀ w, w ∈ ops.filterMap (Operation.rewardAt? name s) ↔ .addStateReward name s w ∈ ops := by
    intro w
    rw [List.mem_filterMap]
    constructor
    · rintro ⟨op, hop, hw⟩
      cases op with
      | addStateReward x i u =>
        obtain ⟨⟨rfl, rfl⟩, heq⟩ := Option.ite_none_right_eq_some.1 hw
        cases heq
        exact hop
      | _ => cases hw
    · exact fun hw => ⟨_, hw, if_pos ⟨rfl, rfl⟩⟩
  rw [lastReward?, List.getLast?_eq_some_getLast (List.ne_nil_of_mem ((hmem v).2 h))]
  exact congrArg some (hunique _ ((hmem _).1 (List.getLast_mem _)))

/-! ## The finished model -/

section Finish

variable {ops : List (Operation RationalFunction)} {m : Model RationalFunction} {k : ModelKind}

theorem run_isSound (h : ∀ op ∈ ops, op.IsCanonical) : (run ops).IsSound := by
  induction ops using List.reverseRecOn with
  | nil => exact isSound_empty
  | append_singleton ops op ih =>
    rw [List.forall_mem_append, List.forall_mem_singleton] at h
    have hsound := ih h.1
    rw [run_append]
    cases op with
    | requireStates n => exact hsound.requireStates n
    | addTransition s t f => exact hsound.addTransition s t h.2
    | addInitial s => exact hsound.addInitial s
    | addLabel name => exact hsound.addLabel name
    | addStateLabel s name => exact hsound.addStateLabel s name
    | addRewardModel name => exact hsound.addRewardModel name
    | addStateReward name s f => exact hsound.addStateReward name s h.2

/-- The last offset is the number of all entries. -/
theorem offsetsFrom_getLast? (k : ℕ) (rows : List (List (ℕ × V))) :
    (Model.offsetsFrom k rows).getLast? = some (rows.foldl (fun n row => n + row.length) k) := by
  induction rows generalizing k with
  | nil => rfl
  | cons row rows ih =>
    rw [Model.offsetsFrom, List.getLast?_cons, ih, List.foldl_cons, Option.getD_some]

/-- The rows of the finished model are the compressed ones. -/
theorem compressed_stores {b : Builder RationalFunction} (hb : b.IsSound)
    (hsource : ∀ t ∈ b.transitions.toList, t.source < b.numStates) (h : b.finish k = .ok m) :
    b.compressed.Stores m := by
  have hsorted := mergeTransitions_sorted b.transitions.toList
  have hlt : ∀ t ∈ mergeTransitions b.transitions.toList, t.source < b.numStates := fun t ht => by
    obtain ⟨u, hu, hs, -⟩ := exists_of_flow_ne_zero ((mem_mergeTransitions hb.value).1 ht).1
    exact hs ▸ hsource u hu
  have hholds := compress_holds hsorted b.numStates
  have hn := finish_numStates h
  have hrows : m.rows = (b.compressed).rows b.numStates := by
    obtain ⟨-, rfl⟩ := finish_eq h
    rfl
  have hoffsets : m.offsets = b.compressed.offsets.toList := by
    rw [Model.offsets, hrows]
    exact offsetsFrom_compress hsorted hlt
  have hsentinel := compress_sentinel hsorted hlt
  -- The number of transitions is the last offset.
  have hcount : b.compressed.targets.size = m.numTransitions := by
    have hlast : m.offsets.getLast? = some m.numTransitions := offsetsFrom_getLast? 0 m.rows.toList
    rw [hoffsets, List.getLast?_eq_getElem?, Array.length_toList, Array.getElem?_toList, compressed,
      size_compress hsorted hlt, Nat.add_sub_cancel, hsentinel] at hlast
    exact Option.some_inj.1 hlast
  constructor
  case offsets_size => rw [hn]; exact size_compress hsorted hlt
  case offsets_ascend => exact compress_offsets_ascend hsorted hlt
  case sentinel => rw [hn, ← hcount]; exact hsentinel
  case targets_size => exact hcount
  case values_size =>
    rw [← hcount, ← Array.length_toList, ← Array.length_toList, compressed, hholds.targets, hholds.values,
      List.length_map, List.length_map]
  case offsets => exact hoffsets
  case row =>
    intro s hs
    rw [hn] at hs
    rw [Model.row, hrows, Compressed.rows, Array.getElem?_ofFn, dif_pos hs, Option.getD_some]

/-- The model of a sequence of operations, in stored form and with compressed rows: the transitions
have the sums of the values that were added, labels hold where they were added, and the last reward that
was set counts. -/
structure IsAssembled (ops : List (Operation RationalFunction)) (m : Model RationalFunction) : Prop
    extends m.WellFormed where
  numStates : m.numStates = (ops.map Operation.numStates).foldr max 0
  stores : (run ops).compressed.Stores m
  transition : ∀ s t f, (t, f) ∈ m.row s ↔
    ((added ops s t).map RationalFunction.toFrac).sum ≠ 0 ∧
      f.Denotes ((added ops s t).map RationalFunction.toFrac).sum
  initial : ∀ s, s ∈ m.initial ↔ .addInitial s ∈ ops
  labelled : ∀ name, name ∈ m.labeling.names ↔ ∃ op ∈ ops, op.label? = some name
  label : ∀ name s, m.labeling.has name s = true ↔ .addStateLabel s name ∈ ops
  rewarded : ∀ name, name ∈ m.rewards.map (·.name) ↔ ∃ op ∈ ops, op.rewardModel? = some name
  reward : ∀ r ∈ m.rewards, ∀ s < m.numStates,
    r.value s = (lastReward? ops r.name s).getD RationalFunction.zero

theorem finish_isAssembled (h : ∀ op ∈ ops, op.IsCanonical) (hm : (run ops).finish k = .ok m) :
    IsAssembled ops m := by
  have hsound := run_isSound h
  have hn := finish_numStates hm
  obtain ⟨hne, heq⟩ := finish_eq hm
  obtain ⟨hnames, hvalue⟩ := finish_rewards hm
  constructor
  case toWellFormed => exact finish_wellFormed hsound hm
  case numStates => rw [hn, numStates_run]
  case stores => exact compressed_stores hsound source_lt_run hm
  case transition =>
    intro s t f
    have hflow : flow (run ops).transitions.toList s t =
        ((added ops s t).map RationalFunction.toFrac).sum := by rw [flow, valuesAt_run]
    rw [← hflow]
    by_cases hs : s < (run ops).numStates
    · rw [finish_row hm]
      exact mem_rowsOf hsound.value hs
    · -- Nothing was added for a state that is none.
      refine iff_of_false (fun hmem => ?_) fun hadd => hs ?_
      · rw [row_eq_nil hm hs] at hmem
        cases hmem
      · obtain ⟨u, hu, hsource, -⟩ := exists_of_flow_ne_zero hadd.1
        exact hsource ▸ source_lt_run u hu
  case initial =>
    intro s
    rw [← mem_initial_run, heq]
    exact mem_sortStates
  case labelled =>
    intro name
    rw [← mem_labelNames_run, heq, Labeling.names, List.map_map]
    rfl
  case label => exact has_iff_of_finish hm
  case rewarded =>
    intro name
    rw [hnames, mem_rewardNames_run]
  case reward =>
    intro r hr s hs
    rw [hvalue hsound.reward_names r hr s (hn ▸ hs), rewardOf_run]
    rfl

/-- After any operations, finishing fails exactly if no initial state was added, and what it gives
otherwise is the model of these operations. -/
theorem finish_run (k : ModelKind) (h : ∀ op ∈ ops, op.IsCanonical) :
    ((run ops).finish k = .error .noInitialStates ↔ ∀ s, .addInitial s ∉ ops) ∧
      ((∃ m, (run ops).finish k = .ok m) ↔ ∃ s, .addInitial s ∈ ops) ∧
        ∀ m, (run ops).finish k = .ok m → m.kind = k ∧ IsAssembled ops m := by
  have hempty : (run ops).initial.isEmpty = true ↔ ∀ s, .addInitial s ∉ ops := by
    rw [← Array.isEmpty_toList, List.isEmpty_iff, List.eq_nil_iff_forall_not_mem]
    exact forall_congr' fun s => not_congr mem_initial_run
  have hsome : (∃ s, .addInitial s ∈ ops) ↔ ¬ (run ops).initial.isEmpty = true := by
    rw [hempty]
    push Not
    rfl
  refine ⟨?_, ?_, fun m hm => ⟨?_, finish_isAssembled h hm⟩⟩
  · rw [← hempty, finish]
    split <;> simp [*]
  · rw [hsome, finish]
    split <;> simp [*]
  · obtain ⟨-, rfl⟩ := finish_eq hm
    rfl

/-- Five states, of which only state 3 has a transition: the values from state 1 cancel. -/
def gapOperations : List (Operation RationalFunction) :=
  [.requireStates 5, .addTransition 3 1 .one, .addTransition 1 0 .one, .addTransition 1 0 (.neg .one),
    .addInitial 3, .addLabel "a", .addStateLabel 1 "b"]

theorem gap_finish_run : (∀ op ∈ gapOperations, op.IsCanonical) ∧
    ∃ m, (run gapOperations).finish .dtmc = .ok m ∧ m.kind = .dtmc ∧ IsAssembled gapOperations m := by
  have hone := RationalFunction.denotes_one.1
  have hcan : ∀ op ∈ gapOperations, op.IsCanonical := by
    simp only [gapOperations, List.forall_mem_cons, Operation.IsCanonical, hone,
      (RationalFunction.neg_spec hone.denotes).1, List.not_mem_nil, false_imp_iff, implies_true, and_self]
  obtain ⟨-, hok, hm⟩ := finish_run .dtmc hcan
  obtain ⟨m, h⟩ := hok.2 ⟨3, by simp [gapOperations]⟩
  exact ⟨hcan, m, h, hm m h⟩

end Finish
end Builder
end MarkovCheck

import Mathlib
import MarkovCheck.Chain.Instantiate
import MarkovCheck.Proofs.Algebra.Definedness
import MarkovCheck.Proofs.Chain.Labeling
import MarkovCheck.Proofs.Chain.Operations
import MarkovCheck.Proofs.Double.Rounding
import MarkovCheck.Proofs.Double.Sum

/-!
# MarkovCheck.Proofs.Chain.Instantiate

A model has an instance exactly where all of its values are defined.

Adding the parts of an instance fails at the first value that is not defined, and is otherwise a
sequence of operations of a builder. A model is in stored form, so these operations add every
transition once, in ascending order, declare every name once, and set every reward once. So nothing is
merged or reordered when the instance is finished, and nothing is lost but the transitions whose number
is zero. Without any values exactly the constants are defined.

* `Follows`               — a step that may fail, and the step that it otherwise is.
* `instanceOperations`    — the operations that add the parts of an instance.
* `instanceParts_follows` — the parts exist exactly if all values are defined.
* `IsInstance`            — what an instance has in common with its model.
* `instantiate_exact`     — which models have an instance, and what it is.
-/

namespace MarkovCheck

/-! ## Steps that may fail -/

section Steps

variable {α β ε : Type} {step : β → α → Except ε β} {total : β → α → β} {good : α → Prop}

/-- A step does the same as a total one for good items, and fails for the others. -/
structure Follows (step : β → α → Except ε β) (total : β → α → β) (good : α → Prop) : Prop where
  ok : ∀ b x, good x → step b x = .ok (total b x)
  error : ∀ b x, ¬ good x → ∃ e, step b x = .error e

/-- Step by step this is so for lists, which are good if all of their items are. -/
theorem Follows.foldlM (h : Follows step total good) :
    Follows (fun b l => List.foldlM step b l) (fun b l => l.foldl total b) fun l => ∀ x ∈ l, good x where
  ok b l hl := by
    induction l generalizing b with
    | nil => rfl
    | cons x l ih =>
      rw [List.forall_mem_cons] at hl
      rw [List.foldlM_cons, h.ok b x hl.1, List.foldl_cons]
      exact ih _ hl.2
  error b l hl := by
    induction l generalizing b with
    | nil => exact absurd (List.forall_mem_nil _) hl
    | cons x l ih =>
      rw [List.foldlM_cons]
      by_cases hx : good x
      · rw [h.ok b x hx]
        exact ih _ fun hl' => hl (List.forall_mem_cons.2 ⟨hx, hl'⟩)
      · obtain ⟨e, he⟩ := h.error b x hx
        exact ⟨e, by rw [he]; rfl⟩

end Steps

namespace Model

open Builder (Operation)

variable {m : Model RationalFunction} {v : Valuation} {d : Model Double} {s : ℕ}

/-! ## Numbers -/

/-- The double nearest to the value of a function. -/
def number (v : Valuation) (f : RationalFunction) : Double := .ofRat (f.evalOrZero v)

theorem number_eq {f : RationalFunction} {q : ℚ} (h : f.evalAt v = .ok q) : number v f = .ofRat q := by
  rw [number, RationalFunction.evalOrZero_eq h]

theorem numberAt_follows {α : Type} (f : α → RationalFunction)
    (add : Builder Double → α → Double → Builder Double) :
    Follows (fun b x => (numberAt v (f x)).map (add b x)) (fun b x => add b x (number v (f x)))
      fun x => ∃ q, (f x).evalAt v = .ok q where
  ok b x hx := by
    obtain ⟨q, hq⟩ := hx
    rw [number_eq hq, numberAt, hq]
    rfl
  error b x hx := by
    rcases hf : (f x).evalAt v with e | q
    · exact ⟨e, by rw [numberAt, hf]; rfl⟩
    · exact absurd ⟨q, hf⟩ hx

/-! ## The operations of an instance -/

def rowOperations (v : Valuation) (m : Model RationalFunction) (s : ℕ) : List (Operation Double) :=
  (m.row s).map fun e => .addTransition s e.1 (number v e.2)

def labelOperations (m : Model RationalFunction) (name : String) : List (Operation Double) :=
  .addLabel name :: ((List.range m.numStates).filter (m.labeling.has name)).map (.addStateLabel · name)

def rewardOperations (v : Valuation) (m : Model RationalFunction) (r : RewardModel RationalFunction) :
    List (Operation Double) :=
  .addRewardModel r.name ::
    (List.range m.numStates).map fun s => .addStateReward r.name s (number v (r.value s))

/-- What adds the parts of the instance of a model. -/
def instanceOperations (v : Valuation) (m : Model RationalFunction) : List (Operation Double) :=
  .requireStates m.numStates :: ((List.range m.numStates).flatMap (rowOperations v m) ++
    m.initial.map .addInitial ++ m.labeling.names.flatMap (labelOperations m) ++
      m.rewards.flatMap (rewardOperations v m))

/-- All values of a model are defined at a valuation. -/
structure IsDefinedAt (m : Model RationalFunction) (v : Valuation) : Prop where
  transition : ∀ s < m.numStates, ∀ e ∈ m.row s, ∃ q, e.2.evalAt v = .ok q
  reward : ∀ r ∈ m.rewards, ∀ s < m.numStates, ∃ q, (r.value s).evalAt v = .ok q

theorem addRow_follows : Follows (addRow v m) (fun b s => (rowOperations v m s).foldl Operation.apply b)
    fun s => ∀ e ∈ m.row s, ∃ q, e.2.evalAt v = .ok q := by
  have h := fun s => (numberAt_follows (v := v) (fun e : ℕ × RationalFunction => e.2)
    fun b e => b.addTransition s e.1).foldlM
  constructor
  case ok =>
    intro b s hs
    rw [rowOperations, List.foldl_map]
    exact (h s).ok b (m.row s) hs
  case error => exact fun b s hs => (h s).error b (m.row s) hs

theorem addCarriers_eq (m : Model RationalFunction) :
    addCarriers m = fun b name => (labelOperations m name).foldl Operation.apply b := by
  funext b name
  rw [labelOperations, List.foldl_cons, List.foldl_map, List.foldl_filter]
  rfl

theorem addRewards_follows :
    Follows (addRewards v m) (fun b r => (rewardOperations v m r).foldl Operation.apply b)
      fun r => ∀ s < m.numStates, ∃ q, (r.value s).evalAt v = .ok q := by
  have h := fun r : RewardModel RationalFunction =>
    (numberAt_follows (v := v) (fun s : ℕ => r.value s) fun b s => b.addStateReward r.name s).foldlM
  constructor
  case ok =>
    intro b r hr
    rw [rewardOperations, List.foldl_cons, List.foldl_map]
    exact (h r).ok _ (List.range m.numStates) fun s hs => hr s (List.mem_range.1 hs)
  case error =>
    intro b r hr
    exact (h r).error _ (List.range m.numStates) fun hr' => hr fun s hs => hr' s (List.mem_range.2 hs)

/-- The parts of an instance are those that the operations add if all values are defined, and do not
exist otherwise. -/
theorem instanceParts_follows :
    (m.IsDefinedAt v → instanceParts v m = .ok (Builder.run (instanceOperations v m))) ∧
      (¬ m.IsDefinedAt v → ∃ e, instanceParts v m = .error e) := by
  have hrows := (addRow_follows (v := v) (m := m)).foldlM
  have hrewards := (addRewards_follows (v := v) (m := m)).foldlM
  have hrange : ∀ {P : ℕ → Prop}, (∀ s ∈ List.range m.numStates, P s) ↔ ∀ s < m.numStates, P s := by
    simp only [List.mem_range, implies_true]
  by_cases hrow : ∀ s < m.numStates, ∀ e ∈ m.row s, ∃ q, e.2.evalAt v = .ok q
  · rw [instanceParts, hrows.ok _ _ (hrange.2 hrow)]
    by_cases hreward : ∀ r ∈ m.rewards, ∀ s < m.numStates, ∃ q, (r.value s).evalAt v = .ok q
    · refine ⟨fun _ => ?_, fun h => absurd ⟨hrow, hreward⟩ h⟩
      dsimp only
      rw [hrewards.ok _ _ hreward, addCarriers_eq, Builder.run, instanceOperations, List.foldl_cons,
        List.foldl_append, List.foldl_append, List.foldl_append, List.foldl_flatMap, List.foldl_map,
        List.foldl_flatMap, List.foldl_flatMap]
      rfl
    · exact ⟨fun h => absurd h.reward hreward, fun _ => hrewards.error _ _ hreward⟩
  · refine ⟨fun h => absurd h.transition hrow, fun _ => ?_⟩
    obtain ⟨e, he⟩ := hrows.error (Builder.empty.requireStates m.numStates) _ (mt hrange.1 hrow)
    exact ⟨e, by rw [instanceParts, he]⟩

/-! ## What the operations leave -/

/-- A state is added to the instance only if the model has it. -/
theorem numStates_operations (hw : m.WellFormed) :
    (Builder.run (instanceOperations v m)).numStates = m.numStates := by
  have hmem : .requireStates m.numStates ∈ instanceOperations v m := List.mem_cons_self
  refine le_antisymm (Builder.numStates_run_le ?_) (Builder.numStates_le_run hmem)
  refine List.forall_mem_cons.2 ⟨le_rfl, List.forall_mem_append.2 ⟨List.forall_mem_append.2
    ⟨List.forall_mem_append.2 ⟨List.forall_mem_flatMap.2 fun s hs => List.forall_mem_map.2 fun e he => ?_,
      List.forall_mem_map.2 hw.initial_lt⟩, List.forall_mem_flatMap.2 fun name _ => ?_⟩,
        List.forall_mem_flatMap.2 fun r _ => ?_⟩⟩
  · exact Nat.succ_le_of_lt (max_lt (List.mem_range.1 hs) (hw.targets_lt s e he))
  · refine List.forall_mem_cons.2 ⟨Nat.zero_le _, List.forall_mem_map.2 fun s hs => ?_⟩
    exact List.mem_range.1 (List.mem_filter.1 hs).1
  · exact List.forall_mem_cons.2 ⟨Nat.zero_le _, List.forall_mem_map.2 fun s hs => List.mem_range.1 hs⟩

theorem addInitial_mem_operations : .addInitial s ∈ instanceOperations v m ↔ s ∈ m.initial := by
  simp [instanceOperations, rowOperations, labelOperations, rewardOperations]

theorem addStateLabel_mem_operations {name : String} : .addStateLabel s name ∈ instanceOperations v m ↔
    name ∈ m.labeling.names ∧ s < m.numStates ∧ m.labeling.has name s = true := by
  simp [instanceOperations, rowOperations, labelOperations, rewardOperations]

theorem addStateReward_mem_operations {name : String} {x : Double} :
    .addStateReward name s x ∈ instanceOperations v m ↔
      ∃ r ∈ m.rewards, s < m.numStates ∧ r.name = name ∧ number v (r.value s) = x := by
  simp [instanceOperations, rowOperations, labelOperations, rewardOperations]

/-- What the operations say about a part, kind of operation by kind of operation. -/
theorem filterMap_operations {γ : Type} {f : Operation Double → Option γ}
    (h : f (.requireStates m.numStates) = none) : (instanceOperations v m).filterMap f =
      (List.range m.numStates).flatMap (fun s => (rowOperations v m s).filterMap f) ++
        m.initial.filterMap (f ∘ .addInitial) ++
          m.labeling.names.flatMap (fun name => (labelOperations m name).filterMap f) ++
            m.rewards.flatMap (fun r => (rewardOperations v m r).filterMap f) := by
  rw [instanceOperations, List.filterMap_cons_none h, List.filterMap_append, List.filterMap_append,
    List.filterMap_append, List.filterMap_flatMap, List.filterMap_map, List.filterMap_flatMap,
    List.filterMap_flatMap]

-- A kind of operation that says nothing about a part leaves nothing of it.
section Unsaid

variable {γ : Type} {f : Operation Double → Option γ}

theorem rows_unsaid (h : ∀ s t x, f (.addTransition s t x) = none) :
    (List.range m.numStates).flatMap (fun s => (rowOperations v m s).filterMap f) = [] :=
  List.flatMap_eq_nil_iff.2 fun s _ =>
    List.filterMap_eq_nil_iff.2 (List.forall_mem_map.2 fun e _ => h s e.1 _)

theorem initial_unsaid (h : ∀ s, f (.addInitial s) = none) : m.initial.filterMap (f ∘ .addInitial) = [] :=
  List.filterMap_eq_nil_iff.2 fun s _ => h s

theorem labels_unsaid (h : ∀ name, f (.addLabel name) = none)
    (hstate : ∀ s name, f (.addStateLabel s name) = none) :
    m.labeling.names.flatMap (fun name => (labelOperations m name).filterMap f) = [] :=
  List.flatMap_eq_nil_iff.2 fun name _ => List.filterMap_eq_nil_iff.2
    (List.forall_mem_cons.2 ⟨h name, List.forall_mem_map.2 fun s _ => hstate s name⟩)

theorem rewards_unsaid (h : ∀ name, f (.addRewardModel name) = none)
    (hstate : ∀ name s x, f (.addStateReward name s x) = none) :
    m.rewards.flatMap (fun r => (rewardOperations v m r).filterMap f) = [] :=
  List.flatMap_eq_nil_iff.2 fun r _ => List.filterMap_eq_nil_iff.2
    (List.forall_mem_cons.2 ⟨h r.name, List.forall_mem_map.2 fun s _ => hstate r.name s _⟩)

end Unsaid

theorem transitions_operations : (instanceOperations v m).filterMap Operation.transition? =
    Builder.transitionsOf m.numStates fun s => (m.row s).map fun e => (e.1, number v e.2) := by
  rw [filterMap_operations rfl, initial_unsaid fun _ => rfl, labels_unsaid (fun _ => rfl) fun _ _ => rfl,
    rewards_unsaid (fun _ => rfl) fun _ _ _ => rfl, List.append_nil, List.append_nil, List.append_nil]
  simp [rowOperations, Operation.transition?, Function.comp_def, Builder.transitionsOf]

/-- Every label is declared, and declared again for the states that carry it. -/
theorem labels_operations : ((instanceOperations v m).filterMap Operation.label?).eraseDups =
    m.labeling.names.eraseDups := by
  have hlabel : ∀ name ∈ m.labeling.names, ∃ more,
      (labelOperations m name).filterMap Operation.label? = name :: more ∧ ∀ x ∈ more, x = name :=
    fun name _ => ⟨_, rfl, by simp +contextual [Operation.label?]⟩
  rw [filterMap_operations rfl, rows_unsaid fun _ _ _ => rfl, initial_unsaid fun _ => rfl,
    rewards_unsaid (fun _ => rfl) fun _ _ _ => rfl, List.nil_append, List.nil_append, List.append_nil,
    eraseDups_flatMap hlabel, List.map_id']

/-- So are reward models, for the rewards of all states. -/
theorem rewards_operations : ((instanceOperations v m).filterMap Operation.rewardModel?).eraseDups =
    (m.rewards.map (·.name)).eraseDups := by
  have hreward : ∀ r ∈ m.rewards, ∃ more,
      (rewardOperations v m r).filterMap Operation.rewardModel? = r.name :: more ∧
        ∀ x ∈ more, x = r.name := fun r _ => ⟨_, rfl, by simp [Operation.rewardModel?]⟩
  rw [filterMap_operations rfl, rows_unsaid fun _ _ _ => rfl, initial_unsaid fun _ => rfl,
    labels_unsaid (fun _ => rfl) fun _ _ => rfl, List.nil_append, List.nil_append, List.nil_append,
    eraseDups_flatMap hreward]

/-! ## The instance -/

/-- The model of doubles has the same states, labels and reward models, and the nearest numbers for the
values of all transitions and rewards, without transitions whose number is zero. -/
structure IsInstance (v : Valuation) (m : Model RationalFunction) (d : Model Double) : Prop where
  kind : d.kind = m.kind
  numStates : d.numStates = m.numStates
  initial : d.initial = m.initial
  labeling : d.labeling = m.labeling
  transition : ∀ s t x, (t, x) ∈ d.row s ↔
    ∃ f q, (t, f) ∈ m.row s ∧ f.evalAt v = .ok q ∧ x = .ofRat q ∧ x.isZero = false
  targets_ascend : ∀ s, (d.row s).Pairwise (·.1 < ·.1)
  reward_names : d.rewards.map (·.name) = m.rewards.map (·.name)
  reward : ∀ r ∈ m.rewards, ∀ r' ∈ d.rewards, r'.name = r.name → ∀ s < m.numStates,
    ∃ q, (r.value s).evalAt v = .ok q ∧ r'.value s = .ofRat q

section Finish

variable {k : ModelKind} (hw : m.WellFormed) (h : (Builder.run (instanceOperations v m)).finish k = .ok d)
include hw h

theorem numStates_instance : d.numStates = m.numStates :=
  (Builder.finish_numStates h).trans (numStates_operations hw)

/-- The rows keep their order and lose their zeros. -/
theorem row_instance (s : ℕ) :
    d.row s = ((m.row s).map fun e => (e.1, number v e.2)).filter (!Value.isZero ·.2) := by
  have hascend : ∀ s, ((m.row s).map fun e => (e.1, number v e.2)).Pairwise (·.1 < ·.1) := fun s => by
    rw [List.pairwise_map]
    exact hw.targets_ascend s
  have hnumber : ∀ s, ∀ e ∈ (m.row s).map fun e => (e.1, number v e.2), e.2.isNaN = false := fun s =>
    List.forall_mem_map.2 fun e _ => Double.isNaN_ofRat _
  obtain ⟨hsize, hrows⟩ := Builder.rowsOf_transitionsOf_filter (n := m.numStates) hascend
    (fun s e he hz => Double.sum_singleton_number (hnumber s e he) hz)
    fun s e _ hz => Double.isZero_sum_singleton hz
  rw [Builder.finish_row h, Builder.transitions_run, transitions_operations, numStates_operations hw]
  by_cases hs : s < m.numStates
  · rw [hrows s hs, Option.getD_some]
  · rw [Array.getElem?_eq_none (hsize.trans_le (not_lt.1 hs)), row_eq_nil_of_le (not_lt.1 hs)]
    rfl

theorem initial_instance : d.initial = m.initial := by
  obtain ⟨-, rfl⟩ := Builder.finish_eq h
  refine eq_of_ascend (f := id) (Builder.sortStates_ascend _) hw.initial_ascend fun s => ?_
  rw [Builder.mem_sortStates, Builder.mem_initial_run, addInitial_mem_operations]

theorem labeling_instance : d.labeling = m.labeling := by
  have hn := numStates_operations (v := v) hw
  have hnames : d.labeling.names = m.labeling.names := by
    have hdeclared : d.labeling.names = (Builder.run (instanceOperations v m)).labelNames := by
      obtain ⟨-, rfl⟩ := Builder.finish_eq h
      rw [Labeling.names, List.map_map]
      rfl
    rw [hdeclared, Builder.labelNames_run, labels_operations, eraseDups_of_nodup hw.label_names]
  have hsize : d.labeling.numStates = m.labeling.numStates := by
    obtain ⟨-, rfl⟩ := Builder.finish_eq h
    exact hn.trans hw.labeling_size.symm
  have hsized : d.labeling.IsSized := by
    obtain ⟨-, rfl⟩ := Builder.finish_eq h
    exact List.forall_mem_map.2 fun l _ => StateSet.size_ofList _ _
  refine hsized.eq_of_has hw.isSized hsize hnames hw.label_names fun name s hs => ?_
  rw [hw.labeling_size] at hs
  rw [Bool.eq_iff_iff, Builder.has_iff_of_finish h, addStateLabel_mem_operations]
  refine ⟨fun hcarries => hcarries.2.2, fun hcarries => ⟨?_, hs, hcarries⟩⟩
  by_contra hnot
  rw [Labeling.has_eq_false hnot] at hcarries
  cases hcarries

theorem rewardNames_instance : d.rewards.map (·.name) = m.rewards.map (·.name) := by
  rw [(Builder.finish_rewards h).1, Builder.rewardNames_run, rewards_operations,
    eraseDups_of_nodup hw.reward_names]

theorem reward_instance {r : RewardModel RationalFunction} (hr : r ∈ m.rewards)
    {r' : RewardModel Double} (hr' : r' ∈ d.rewards) (hname : r'.name = r.name) (hs : s < m.numStates) :
    r'.value s = number v (r.value s) := by
  obtain ⟨hnames, hvalue⟩ := Builder.finish_rewards h
  have hnodup : (Builder.run (instanceOperations v m)).rewardNames.Nodup := by
    rw [← hnames, rewardNames_instance hw h]
    exact hw.reward_names
  have hlast : Builder.lastReward? (instanceOperations v m) r.name s = some (number v (r.value s)) := by
    refine Builder.lastReward?_eq_some (addStateReward_mem_operations.2 ⟨r, hr, hs, rfl, rfl⟩) ?_
    intro x hx
    obtain ⟨r₂, hr₂, -, hname₂, rfl⟩ := addStateReward_mem_operations.1 hx
    rw [List.inj_on_of_nodup_map hw.reward_names hr₂ hr hname₂]
  rw [hvalue hnodup r' hr' s (hs.trans_eq (numStates_operations hw).symm), Builder.rewardOf_run, hname,
    hlast, Option.getD_some]

/-- Where all values are defined, the finished operations are the instance. -/
theorem isInstance_finish (hdefined : m.IsDefinedAt v) (hk : k = m.kind) : IsInstance v m d := by
  constructor
  case kind =>
    obtain ⟨-, rfl⟩ := Builder.finish_eq h
    exact hk
  case numStates => exact numStates_instance hw h
  case initial => exact initial_instance hw h
  case labeling => exact labeling_instance hw h
  case transition =>
    intro s t x
    rw [row_instance hw h, List.mem_filter, List.mem_map]
    constructor
    · rintro ⟨⟨e, he, heq⟩, hz⟩
      obtain ⟨q, hq⟩ := hdefined.transition s (lt_of_mem_row he) e he
      rw [Bool.not_eq_true'] at hz
      cases heq
      exact ⟨e.2, q, he, hq, number_eq hq, hz⟩
    · rintro ⟨f, q, hf, hq, rfl, hz⟩
      refine ⟨⟨(t, f), hf, by rw [number_eq hq]⟩, ?_⟩
      rw [Bool.not_eq_true']
      exact hz
  case targets_ascend =>
    intro s
    rw [row_instance hw h]
    exact List.Pairwise.filter _ (List.pairwise_map.2 (hw.targets_ascend s))
  case reward_names => exact rewardNames_instance hw h
  case reward =>
    intro r hr r' hr' hname s hs
    obtain ⟨q, hq⟩ := hdefined.reward r hr s hs
    exact ⟨q, hq, (reward_instance hw h hr hr' hname hs).trans (number_eq hq)⟩

end Finish

/-! ## Which models have an instance -/

/-- A model in stored form has an instance where all its values are defined. -/
theorem instantiate_ok (hw : m.WellFormed) (h : m.IsDefinedAt v) :
    ∃ d, m.instantiate v = .ok d ∧ IsInstance v m d := by
  obtain ⟨s, hs⟩ := List.exists_mem_of_ne_nil _ hw.initial_ne_nil
  obtain ⟨d, hd⟩ := Builder.finish_ok m.kind (addInitial_mem_operations.2 hs)
  refine ⟨d, ?_, isInstance_finish hw hd h rfl⟩
  simp only [instantiate, instanceParts_follows.1 h, hd]

/-- Elsewhere a value without a number is reported. -/
theorem instantiate_error (h : ¬ m.IsDefinedAt v) : ∃ e, m.instantiate v = .error (.undefined e) := by
  obtain ⟨e, he⟩ := instanceParts_follows.2 h
  exact ⟨e, by simp only [instantiate, he]⟩

theorem forall_mem_transitionValues {P : RationalFunction → Prop} :
    (∀ f ∈ m.transitionValues, P f) ↔ ∀ s < m.numStates, ∀ e ∈ m.row s, P e.2 := by
  rw [transitionValues, rows_toList, List.forall_mem_flatMap, List.forall_mem_map]
  simp only [List.mem_range, List.forall_mem_map]

theorem forall_mem_values {P : RationalFunction → Prop} {r : RewardModel RationalFunction} :
    (∀ f ∈ r.values, P f) ↔ ∀ s < r.values.size, P (r.value s) := by
  have hvalue : ∀ s (hs : s < r.values.size), r.value s = r.values[s] := fun s hs => by
    rw [RewardModel.value, Array.getElem?_eq_getElem hs, Option.getD_some]
  constructor
  · intro h s hs
    rw [hvalue s hs]
    exact h _ (Array.getElem_mem hs)
  · intro h f hf
    obtain ⟨s, hs, rfl⟩ := Array.mem_iff_getElem.1 hf
    exact hvalue s hs ▸ h s hs

theorem hasParameters_eq_false_iff : m.hasParameters = false ↔
    (∀ f ∈ m.transitionValues, f.isConst = true) ∧
      ∀ r ∈ m.rewards, ∀ f ∈ r.values, f.isConst = true := by
  simp [hasParameters, Value.isConst, ← Array.any_toList]

/-- Without any values exactly the models without parameters are defined. -/
theorem isDefinedAt_none_iff (hw : m.WellFormed) (hc : m.IsCanonical) :
    m.IsDefinedAt (fun _ => none) ↔ m.hasParameters = false := by
  rw [hasParameters_eq_false_iff, forall_mem_transitionValues]
  have hrow : ∀ s < m.numStates, ∀ e ∈ m.row s,
      (∃ q, e.2.evalAt (fun _ => none) = .ok q) ↔ e.2.isConst = true := fun s _ e he =>
    RationalFunction.evalAt_none_isOk_iff (hc.row s e he)
  have hreward : ∀ r ∈ m.rewards,
      (∀ s < m.numStates, ∃ q, (r.value s).evalAt (fun _ => none) = .ok q) ↔
        ∀ f ∈ r.values, f.isConst = true := fun r hr => by
    rw [← hw.reward_size r hr, ← forall_mem_values (P := fun f => ∃ q, f.evalAt _ = .ok q)]
    exact forall₂_congr fun f hf => RationalFunction.evalAt_none_isOk_iff (hc.reward r hr f hf)
  constructor
  · intro h
    exact ⟨fun s hs e he => (hrow s hs e he).1 (h.transition s hs e he),
      fun r hr => (hreward r hr).1 (h.reward r hr)⟩
  · rintro ⟨h1, h2⟩
    exact ⟨fun s hs e he => (hrow s hs e he).2 (h1 s hs e he), fun r hr => (hreward r hr).2 (h2 r hr)⟩

/-- Of a model that a builder finished there is an instance exactly if all transitions and all rewards
have values, so without any parameter values exactly if it has no parameters. Otherwise a value that is
not defined is reported. The instance has the same states, labels and reward models, and the nearest
numbers for the values. -/
theorem instantiate_exact {ops : List (Operation RationalFunction)} {k : ModelKind}
    (h : ∀ op ∈ ops, op.IsCanonical) (hm : (Builder.run ops).finish k = .ok m) (v : Valuation) :
    ((∃ d, m.instantiate v = .ok d) ↔ (∀ f ∈ m.transitionValues, ∃ q, f.evalAt v = .ok q) ∧
        ∀ r ∈ m.rewards, ∀ s < m.numStates, ∃ q, (r.value s).evalAt v = .ok q) ∧
      ((∃ d, m.instantiate (fun _ => none) = .ok d) ↔ m.hasParameters = false) ∧
      (∀ e, m.instantiate v = .error e → ∃ e', e = .undefined e') ∧
      ∀ d, m.instantiate v = .ok d → IsInstance v m d := by
  have hsound := Builder.run_isSound h
  have hw := Builder.finish_wellFormed hsound hm
  have hc := Builder.finish_isCanonical hsound hm
  have hok : ∀ w : Valuation, (∃ d, m.instantiate w = .ok d) ↔ m.IsDefinedAt w := by
    intro w
    constructor
    · rintro ⟨d, hd⟩
      by_contra hnot
      obtain ⟨e, he⟩ := instantiate_error hnot
      cases hd.symm.trans he
    · intro hdefined
      obtain ⟨d, hd, -⟩ := instantiate_ok hw hdefined
      exact ⟨d, hd⟩
  refine ⟨?_, ?_, fun e he => ?_, fun d hd => ?_⟩
  · rw [hok, forall_mem_transitionValues]
    exact ⟨fun hdefined => ⟨hdefined.transition, hdefined.reward⟩, fun hdefined => ⟨hdefined.1, hdefined.2⟩⟩
  · rw [hok, isDefinedAt_none_iff hw hc]
  · have hnot : ¬ m.IsDefinedAt v := fun hdefined => by
      obtain ⟨d, hd⟩ := (hok v).2 hdefined
      cases hd.symm.trans he
    obtain ⟨e', he'⟩ := instantiate_error hnot
    exact ⟨e', Except.error.inj (he.symm.trans he')⟩
  · obtain ⟨d', hd', hinstance⟩ := instantiate_ok hw ((hok v).1 ⟨d, hd⟩)
    cases hd.symm.trans hd'
    exact hinstance

/-- From the first of two states the second one is reached with probability `p`. -/
def stepOperations : List (Operation RationalFunction) :=
  [.addTransition 0 1 (.param "p"), .addTransition 1 1 .one, .addInitial 0]

theorem stepOperations_isCanonical : ∀ op ∈ stepOperations, op.IsCanonical := by
  have hp := (RationalFunction.denotes_param "p").1
  have hone := RationalFunction.denotes_one.1
  simp [stepOperations, Operation.IsCanonical, hp, hone]

theorem added_step (s t : ℕ) : Builder.added stepOperations s t =
    if t = 1 then if s = 0 then [.param "p"] else if s = 1 then [.one] else [] else [] := by
  have hinitial : [.addInitial 0].filterMap (Operation.valueAt? (V := RationalFunction) s t) = [] := rfl
  rw [Builder.added, stepOperations, List.filterMap_cons, List.filterMap_cons, hinitial]
  by_cases ht : t = 1 <;> rcases s with _ | _ | s <;>
    simp [Operation.valueAt?, ht, eq_comm (a := 1)]

theorem mem_row_step {k : ModelKind} (hm : (Builder.run stepOperations).finish k = .ok m) {t : ℕ}
    {f : RationalFunction} : (t, f) ∈ m.row s ↔ t = 1 ∧ (s = 0 ∧ f = .param "p" ∨ s = 1 ∧ f = .one) := by
  have hp := (RationalFunction.denotes_param "p").1
  have hone := RationalFunction.denotes_one.1
  have hp0 := (RationalFunction.isZero_eq_false_iff hp).1 rfl
  have hone0 := (RationalFunction.isZero_eq_false_iff hone).1 rfl
  have hdenotes : ∀ {g : RationalFunction}, g.IsCanonical → (f.Denotes g.toFrac ↔ f = g) := fun hg =>
    ⟨fun h => h.eq hg.denotes, fun h => h ▸ hg.denotes⟩
  rw [(Builder.finish_isAssembled stepOperations_isCanonical hm).transition, added_step]
  rcases s with _ | _ | s <;> by_cases ht : t = 1 <;> simp [ht, hp0, hone0, hdenotes hp, hdenotes hone]

/-- Without a value for `p` there is no instance. When `p` is zero the first state has no transition. -/
theorem step_instantiate_exact : (∀ op ∈ stepOperations, op.IsCanonical) ∧
    ∃ m, (Builder.run stepOperations).finish .dtmc = .ok m ∧
      (¬ ∃ d, m.instantiate (fun _ => none) = .ok d) ∧
        ∃ d, m.instantiate (fun _ => some 0) = .ok d ∧ d.numStates = 2 ∧ d.row 0 = [] := by
  have hcan := stepOperations_isCanonical
  have hinitial : .addInitial 0 ∈ stepOperations := by simp [stepOperations]
  obtain ⟨m, hm⟩ := Builder.finish_ok .dtmc hinitial
  obtain ⟨hok, hnone, -, hinstance⟩ := instantiate_exact hcan hm fun _ => some 0
  have hassembled := Builder.finish_isAssembled hcan hm
  have hnum : m.numStates = 2 := hassembled.numStates
  have hrewards : m.rewards = [] := by
    rw [← List.map_eq_nil_iff, List.eq_nil_iff_forall_not_mem]
    intro name hname
    obtain ⟨op, hop, heq⟩ := (hassembled.rewarded name).1 hname
    revert op
    simp [stepOperations, Operation.rewardModel?]
  refine ⟨hcan, m, hm, ?_, ?_⟩
  · rw [hnone, hasParameters_eq_false_iff, forall_mem_transitionValues]
    intro h
    exact absurd (h.1 0 (by omega) (1, .param "p") ((mem_row_step hm).2 ⟨rfl, .inl ⟨rfl, rfl⟩⟩)) (by decide)
  · have hvalue : ∀ s < m.numStates, ∀ e ∈ m.row s, ∃ q, e.2.evalAt (fun _ => some 0) = .ok q := by
      rintro s - ⟨t, f⟩ he
      obtain ⟨-, ⟨-, rfl⟩ | ⟨-, rfl⟩⟩ := (mem_row_step hm).1 he
      · exact ⟨0, RationalFunction.evalAt_param rfl⟩
      · exact ⟨1, RationalFunction.evalAt_const _ 1⟩
    obtain ⟨d, hd⟩ := hok.2 ⟨forall_mem_transitionValues.2 hvalue, by simp [hrewards]⟩
    have hd' := hinstance d hd
    refine ⟨d, hd, hd'.numStates.trans hnum, ?_⟩
    refine List.eq_nil_iff_forall_not_mem.2 fun e he => ?_
    obtain ⟨f, q, hf, hq, hx, hz⟩ := (hd'.transition 0 e.1 e.2).1 he
    obtain ⟨-, ⟨-, rfl⟩ | ⟨h01, -⟩⟩ := (mem_row_step hm).1 hf
    · cases (RationalFunction.evalAt_param rfl).symm.trans hq
      rw [hx] at hz
      exact absurd hz (by decide +kernel)
    · cases h01

end Model
end MarkovCheck

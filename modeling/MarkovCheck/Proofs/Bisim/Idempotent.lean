import Mathlib
import MarkovCheck.Proofs.Bisim.Consistent
import MarkovCheck.Proofs.Bisim.Soundness
import MarkovCheck.Proofs.Chain.Union

/-!
# MarkovCheck.Proofs.Bisim.Idempotent

Minimising a minimised model changes nothing.

A stable partition of the quotient, pulled back along the classes, is a bisimulation of the model.
When the first partition was the coarsest one it contains this bisimulation, so the second partition
has one block for every state of the quotient. Its canonical form numbers every state by itself, and
the quotient by it is the given model, in all its parts.

Where values cancel, the worklist refinement may separate bisimilar states, and then minimising twice
gives less than minimising once.

* `quotientModel_eq_self`      — the quotient by blocks of one state each is the model.
* `IsQuotient.mass_eq`         — masses of sets of classes.
* `IsQuotient.block_injective` — a stable partition of a minimal quotient separates all states.
* `reduce_idempotent`          — minimising twice.
* `cancelling_reduce_not_idempotent` — where values cancel.
-/

namespace MarkovCheck
namespace Bisim

variable {m Q : Model RationalFunction} {o : Observed RationalFunction} {p : Partition}
  {preserved : Preserved} {n : ℕ}

/-! ## Blocks of one state -/

/-- The partition whose blocks are the states. -/
def discrete (n : ℕ) : Partition := ⟨Array.range n, n⟩

theorem discrete_block {s : ℕ} (hs : s < n) : (discrete n).block s = s := by
  simp [discrete, Partition.block, hs]

theorem discrete_isDense (n : ℕ) : (discrete n).IsDense n where
  size := Array.size_range
  lt _ hs := (discrete_block hs).trans_lt hs
  surj b hb := ⟨b, hb, discrete_block hb⟩

theorem repOf_discrete {b : ℕ} (hb : b < n) : repOf (discrete n) b = b := by
  obtain ⟨hlt, hblock⟩ := repOf_spec (discrete_isDense n) (b := b) hb
  rwa [discrete_block hlt] at hblock

/-- The totals into blocks of one state are the row. -/
theorem blockSums_discrete (hw : Q.WellFormed) (hc : Q.IsCanonical) (s : ℕ) :
    blockSums Q (discrete Q.numStates) s = Q.row s := by
  refine eq_of_ascend (blockSums_ascend _ _ s) (hw.targets_ascend s) fun e => ?_
  have hmass : Q.mass s {u | (discrete Q.numStates).block u = e.1} = Q.mass s {u | u = e.1} :=
    Model.mass_congr fun d hd => by
      rw [Set.mem_ofPred_eq, Set.mem_ofPred_eq, discrete_block (hw.targets_lt s d hd)]
  rw [mem_blockSums hc, hmass]
  constructor
  · rintro ⟨hden, hne⟩
    have : ∃ d ∈ Q.row s, d.1 = e.1 := by
      by_contra hno
      push Not at hno
      exact hne (Model.mass_eq_zero fun d hd => hno d hd)
    obtain ⟨d, hd, hde⟩ := this
    rw [← hde, Model.mass_eq_of_mem hw hd] at hden
    obtain rfl : d = e := Prod.ext hde (((hc.row s d hd).denotes).eq hden)
    exact hd
  · intro he
    rw [Model.mass_eq_of_mem hw he]
    exact ⟨(hc.row s e he).denotes,
      (RationalFunction.isZero_eq_false_iff (hc.row s e he)).1 (hw.values_ne_zero s e he)⟩

theorem ofList_discrete {S : StateSet} (hS : S.bits.size = n) :
    StateSet.ofList n ((List.range n).filter fun c =>
      S.contains (repOf (discrete n) c)).reverse = S := by
  refine StateSet.ext_of_contains ((StateSet.size_ofList _ _).trans hS.symm) fun i hi => ?_
  rw [StateSet.size_ofList] at hi
  rw [Bool.eq_iff_iff, StateSet.contains_ofList fun c hc => List.mem_range.1
    (List.mem_of_mem_filter (List.mem_reverse.1 hc))]
  simp [hi, repOf_discrete hi]

theorem rewardVector_discrete {w : RewardModel RationalFunction} (hw : w.values.size = n) :
    Builder.rewardVector n ((List.range n).map fun c =>
      (c, w.value (repOf (discrete n) c))).reverse = w.values := by
  rw [Builder.rewardVector_eq]
  refine Array.ext (Array.size_ofFn.trans hw.symm) fun i h1 h2 => ?_
  rw [Array.getElem_ofFn, repOf_discrete (h2.trans_eq hw), RewardModel.value,
    Array.getElem?_eq_getElem h2, Option.getD_some]

theorem sortStates_discrete (hw : Q.WellFormed) :
    Builder.sortStates (Q.initial.map (discrete Q.numStates).block) = Q.initial := by
  have hmap : Q.initial.map (discrete Q.numStates).block = Q.initial :=
    (List.map_congr_left fun s hs => discrete_block (hw.initial_lt s hs)).trans (List.map_id _)
  rw [hmap]
  exact eq_of_ascend (f := id) (Builder.sortStates_ascend _) hw.initial_ascend
    fun s => Builder.mem_sortStates

/-- The quotient by blocks of one state is the model, when all of it is observed. -/
theorem quotientModel_eq_self (hw : Q.WellFormed) (hc : Q.IsCanonical) :
    quotientModel Q ⟨Q.labeling.labels, Q.rewards⟩ (discrete Q.numStates) = Q := by
  obtain ⟨hsize, hrow⟩ := quotientModel_row (o := ⟨Q.labeling.labels, Q.rewards⟩) hc
    (discrete Q.numStates)
  have hrows : (quotientModel Q ⟨Q.labeling.labels, Q.rewards⟩ (discrete Q.numStates)).rows =
      Q.rows := by
    refine Array.ext hsize fun s h1 h2 => ?_
    have hs : s < Q.numStates := h2
    have := hrow s hs
    rw [repOf_discrete hs, blockSums_discrete hw hc, Model.row, Model.row,
      Array.getElem?_eq_getElem h1, Array.getElem?_eq_getElem h2] at this
    exact this
  have hlabels : (Q.labeling.labels.map fun l => (l.1, StateSet.ofList Q.numStates
      ((List.range Q.numStates).filter
        fun c => l.2.contains (repOf (discrete Q.numStates) c)).reverse)) = Q.labeling.labels :=
    (List.map_congr_left fun l hl => by rw [ofList_discrete (hw.label_size l hl)]).trans
      (List.map_id' _)
  have hrewards : (Q.rewards.map fun w => (⟨w.name, Builder.rewardVector Q.numStates
      ((List.range Q.numStates).map
        fun c => (c, w.value (repOf (discrete Q.numStates) c))).reverse⟩ :
          RewardModel RationalFunction)) = Q.rewards :=
    (List.map_congr_left fun w hw' => by rw [rewardVector_discrete (hw.reward_size w hw')]).trans
      (List.map_id' _)
  -- The quotient is its fields, and each of them is the one of the model.
  calc quotientModel Q ⟨Q.labeling.labels, Q.rewards⟩ (discrete Q.numStates)
      = ⟨Q.kind, (quotientModel Q ⟨Q.labeling.labels, Q.rewards⟩ (discrete Q.numStates)).rows,
          Builder.sortStates (Q.initial.map (discrete Q.numStates).block),
          ⟨Q.numStates, Q.labeling.labels.map fun l => (l.1, StateSet.ofList Q.numStates
            ((List.range Q.numStates).filter
              fun c => l.2.contains (repOf (discrete Q.numStates) c)).reverse)⟩,
          Q.rewards.map fun w => ⟨w.name, Builder.rewardVector Q.numStates
            ((List.range Q.numStates).map
              fun c => (c, w.value (repOf (discrete Q.numStates) c))).reverse⟩⟩ := rfl
    _ = ⟨Q.kind, Q.rows, Q.initial, ⟨Q.labeling.numStates, Q.labeling.labels⟩, Q.rewards⟩ := by
      rw [hrows, sortStates_discrete hw, hlabels, hrewards, hw.labeling_size]

/-! ## The second partition -/

/-- A set of classes has the mass of the states in these classes. -/
theorem IsQuotient.mass_eq {c : ℕ → ℕ} (h : IsQuotient m Q o c) (hc : m.IsCanonical) {s : ℕ}
    (hs : s < m.numStates) (A : Set ℕ) : Q.mass (c s) A = m.mass s {t | c t ∈ A} :=
  h.expect_eq hc hs _

/-- In the quotient by the coarsest bisimulation, a stable partition by all labels and rewards has
one block for every state. -/
theorem IsQuotient.block_injective {c : ℕ → ℕ} (h : IsQuotient m Q o c) (hc : m.IsCanonical)
    (hstable : IsStable Q p)
    (hagree : ∀ b < Q.numStates, ∀ b' < Q.numStates, p.block b = p.block b' →
      Agree ⟨Q.labeling.labels, Q.rewards⟩ b b')
    (hcoarsest : ∀ r : Setoid ℕ,
      (∀ s < m.numStates, ∀ t < m.numStates, r s t → Agree o s t) →
      (∀ s < m.numStates, ∀ t < m.numStates, r s t → ∀ u,
        m.mass s {v | r u v} = m.mass t {v | r u v}) →
      ∀ s < m.numStates, ∀ t < m.numStates, r s t → c s = c t) :
    ∀ b < Q.numStates, ∀ b' < Q.numStates, p.block b = p.block b' → b = b' := by
  intro b hb b' hb' hbb'
  obtain ⟨s, hs, rfl⟩ := h.surj b hb
  obtain ⟨t, ht, rfl⟩ := h.surj b' hb'
  refine hcoarsest (Setoid.ker fun s => p.block (c s)) ?_ ?_ s hs t ht hbb'
  · exact fun s hs t ht hst => h.agree hs ht (hagree _ (h.lt s hs) _ (h.lt t ht) hst)
  · intro s hs t ht hst u
    have hclass : {v | Setoid.ker (fun s => p.block (c s)) u v} =
        {v | c v ∈ {x | p.block x = p.block (c u)}} := by
      ext v
      exact eq_comm
    rw [hclass, ← h.mass_eq hc hs, ← h.mass_eq hc ht]
    exact hstable _ (h.lt s hs) _ (h.lt t ht) hst _

/-! ## Minimising twice -/

/-- Everything that a model has can be observed of it. -/
theorem observe_self (hw : Q.WellFormed) :
    observe Q ⟨Q.labeling.names, Q.rewards.map (·.name)⟩ =
      .ok ⟨Q.labeling.labels, Q.rewards⟩ :=
  observe_eq_ok (o := ⟨Q.labeling.labels, Q.rewards⟩) (fun _ hl => Builder.lookup_of_mem hw.label_names hl)
    fun _ hr => Model.rewardModel?_of_mem hw.reward_names hr

/-- Where minimisation finds the coarsest bisimulation, that is, always with the refinement in
rounds, and with the worklist refinement when no values cancel, minimising the minimised model
returns it unchanged, with every state in a class of its own. -/
theorem reduce_idempotent (hw : m.WellFormed) (hc : m.IsCanonical)
    (hlabels : preserved.labels.Nodup) (hrewards : preserved.rewards.Nodup)
    (hcovers : Covers m preserved) (a : Algorithm) (ha : a = .worklist → m.NoCancelling) :
    ∃ q, reduce m preserved .strong a = .ok q ∧
      reduce q.model preserved .strong a = .ok ⟨q.model, Array.range q.model.numStates⟩ := by
  obtain ⟨o, ho⟩ := observe_ok_iff.2 hcovers
  obtain ⟨p, c, hlabel, hd, hstable, hagree, hcoarsest⟩ := exists_run a hw hc ho
  obtain ⟨q, hq, hmodel, hquot, -⟩ := quotient_spec hw hc hd hstable ho hlabels hrewards hagree
  have hQ : observe q.model preserved = .ok ⟨q.model.labeling.labels, q.model.rewards⟩ := by
    obtain ⟨⟨hnames, -⟩, hrnames, -⟩ := observe_spec ho
    have hpreserved : (⟨q.model.labeling.names, q.model.rewards.map (·.name)⟩ : Preserved) =
        preserved := by
      rw [hmodel, Labeling.names, quotientModel, List.map_map, List.map_map]
      exact congrArg₂ Preserved.mk hnames hrnames
    rw [← observe_self hquot.wellFormed, hpreserved]
  obtain ⟨p', c', hlabel', hd', hstable', hagree', -⟩ :=
    exists_run a hquot.wellFormed hquot.canonical hQ
  -- Of the second partition only stability is needed: the first one is the coarsest.
  have hinj := hquot.block_injective hc hstable' hagree' fun r hr hmass s hs t ht hst =>
    (Partition.canonical_block_eq_iff hd.isBounded (hs.trans_eq hd.size.symm)
      (ht.trans_eq hd.size.symm)).2 (hcoarsest ha r hr hmass s hs t ht hst)
  have hcanonical := Partition.canonical_eq_range hd' hinj
  obtain ⟨q', hq', hmodel', -, hmap'⟩ := quotient_spec hquot.wellFormed hquot.canonical hd' hstable'
    hQ hlabels hrewards hagree'
  refine ⟨q, by simp only [reduce, hlabel, hq], ?_⟩
  have heq : q' = ⟨q.model, Array.range q.model.numStates⟩ := by
    rw [hcanonical] at hmodel' hmap'
    exact congrArg₂ Quotient.mk
      (hmodel'.trans (quotientModel_eq_self hquot.wellFormed hquot.canonical)) hmap'
  simp only [reduce, hlabel', hq', heq]

theorem coin_noCancelling : coin.NoCancelling :=
  coin_isDistributionAt.isStochasticAt.noCancelling coin_isCanonical

/-- The quotient of a coin is minimal for both refinements. Where values cancel, the refinement in
rounds still finds a minimal one. -/
theorem coin_reduce_idempotent :
    (∀ a, ∃ q, reduce coin ⟨["heads"], ["tosses"]⟩ .strong a = .ok q ∧
      reduce q.model ⟨["heads"], ["tosses"]⟩ .strong a =
        .ok ⟨q.model, Array.range q.model.numStates⟩) ∧
    ∃ q, reduce detour ⟨["start"], []⟩ .strong .rounds = .ok q ∧
      reduce q.model ⟨["start"], []⟩ .strong .rounds =
        .ok ⟨q.model, Array.range q.model.numStates⟩ := by
  have hcoin : Covers coin ⟨["heads"], ["tosses"]⟩ :=
    ⟨by simp [coin, Labeling.states?], by simp [coin, Model.rewardModel?]⟩
  have hdetour : Covers detour ⟨["start"], []⟩ :=
    ⟨by simp [detour, Labeling.states?], by simp⟩
  exact ⟨fun a => reduce_idempotent coin_wellFormed coin_isCanonical (by decide) (by decide) hcoin a
    fun _ => coin_noCancelling, reduce_idempotent detour_wellFormed detour_isCanonical (by decide)
    (by decide) hdetour .rounds fun h => absurd h (by decide)⟩

/-! ## Where values cancel -/

/-- The first two states move in the same way once the next two are in one block: then the values with
which the second state moves to them cancel. -/
def cancelling : Model RationalFunction where
  kind := .dtmc
  rows := #[[(4, .const 1)], [(2, .const 1), (3, .const (-1)), (4, .const 1)], [(0, .const 1)],
    [(0, .const 1)], [(4, .const 1)], [(5, .const 1)]]
  initial := [0]
  labeling := ⟨6, [("a", ⟨#[true, true, false, false, false, false]⟩)]⟩
  rewards := []

/-- What the worklist refinement makes of it. The first two states still move in the same way. -/
def cancelled : Model RationalFunction where
  kind := .dtmc
  rows := #[[(3, .const 1)], [(3, .const 1)], [(0, .const 1)], [(3, .const 1)]]
  initial := [0]
  labeling := ⟨4, [("a", ⟨#[true, true, false, false]⟩)]⟩
  rewards := []

theorem cancelling_value : ∀ s, ∀ e ∈ cancelling.row s, e.2 = .const 1 ∨ e.2 = .const (-1) :=
  Model.forall_row
    (P := fun row : List (ℕ × RationalFunction) => ∀ e ∈ row, e.2 = .const 1 ∨ e.2 = .const (-1))
    (List.forall_mem_nil _) (by simp [cancelling, or_imp, forall_and])

theorem cancelling_isCanonical : cancelling.IsCanonical where
  row s e he := by
    rcases cancelling_value s e he with h | h <;> exact h ▸ (RationalFunction.denotes_const _).1
  reward r hr := nomatch hr

theorem cancelling_wellFormed : cancelling.WellFormed where
  targets_ascend := Model.forall_row .nil (by decide)
  targets_lt := Model.forall_row (P := fun row => ∀ e ∈ row, e.1 < cancelling.numStates)
    (List.forall_mem_nil _) (by decide)
  values_ne_zero s e he := by
    rcases cancelling_value s e he with h | h <;>
      exact h ▸ RationalFunction.isZero_const_eq_false (by norm_num)
  initial_ascend := by decide
  initial_lt := by decide
  initial_ne_nil := by decide
  labeling_size := rfl
  label_size := by decide
  label_names := by decide
  reward_size := by decide
  reward_names := by decide

/-- The refinement splits off the states that move to the label, whose predecessor is the second state
only. It is marked and split from the first one without its signature being compared to that of the
first. -/
theorem cancelling_reduce :
    reduce cancelling ⟨["a"], []⟩ .strong .worklist = .ok ⟨cancelled, #[0, 1, 2, 2, 3, 3]⟩ := by
  have hlabel : labelPartition cancelling ⟨["a"], []⟩ .empty =
      .ok (⟨#[0, 0, 1, 1, 1, 1], 2⟩, .empty) := by
    have hd : (⟨#[0, 0, 1, 1, 1, 1], 2⟩ : Partition).IsDense cancelling.numStates :=
      ⟨rfl, by decide, by decide⟩
    refine labelPartition_eq (by decide) (o := ⟨cancelling.labeling.labels, []⟩) rfl rfl
      (hd.isOrdered (by decide)) ?_ _
    unfold Agree
    decide
  simp only [reduce, hlabel, Algorithm.run, refine_eq_iterate]
  cbv

theorem cancelled_reduce :
    ∃ m, m.numStates = 3 ∧
      reduce cancelled ⟨["a"], []⟩ .strong .worklist = .ok ⟨m, #[0, 0, 1, 2]⟩ := by
  have hlabel : labelPartition cancelled ⟨["a"], []⟩ .empty = .ok (⟨#[0, 0, 1, 1], 2⟩, .empty) := by
    have hd : (⟨#[0, 0, 1, 1], 2⟩ : Partition).IsDense cancelled.numStates :=
      ⟨rfl, by decide, by decide⟩
    refine labelPartition_eq (by decide) (o := ⟨cancelled.labeling.labels, []⟩) rfl rfl
      (hd.isOrdered (by decide)) ?_ _
    unfold Agree
    decide
  refine ⟨⟨.dtmc, #[[(2, .const 1)], [(0, .const 1)], [(2, .const 1)]], [0],
    ⟨3, [("a", ⟨#[true, false, false]⟩)]⟩, []⟩, rfl, ?_⟩
  simp only [reduce, hlabel, Algorithm.run, refine_eq_iterate]
  cbv

/-- Minimising twice with the worklist refinement gives a smaller model than minimising once. -/
theorem cancelling_reduce_not_idempotent :
    (cancelling.WellFormed ∧ cancelling.IsCanonical ∧ Covers cancelling ⟨["a"], []⟩) ∧
    ∃ q r, reduce cancelling ⟨["a"], []⟩ .strong .worklist = .ok q ∧
      reduce q.model ⟨["a"], []⟩ .strong .worklist = .ok r ∧
      r.stateMap = #[0, 0, 1, 2] ∧ r.model.numStates < q.model.numStates ∧
      r ≠ ⟨q.model, Array.range q.model.numStates⟩ := by
  obtain ⟨m, hm, hagain⟩ := cancelled_reduce
  have hlt : m.numStates < cancelled.numStates := hm.trans_lt (by decide)
  refine ⟨⟨cancelling_wellFormed, cancelling_isCanonical,
    ⟨by simp [cancelling, Labeling.states?], by simp⟩⟩, _, _, cancelling_reduce, hagain, rfl, hlt, ?_⟩
  intro h
  exact hlt.ne (congrArg (fun q => q.model.numStates) h)

end Bisim
end MarkovCheck

import Mathlib
import MarkovCheck.Bisim.Quotient
import MarkovCheck.Proofs.Bisim.Bisimulation
import MarkovCheck.Proofs.Bisim.Preserved
import MarkovCheck.Proofs.Bisim.Signature
import MarkovCheck.Proofs.Chain.Builder
import MarkovCheck.Proofs.Chain.StateSet

/-!
# MarkovCheck.Proofs.Bisim.Quotient

The quotient by a stable partition, and how it relates to the model.

For a stable partition whose blocks agree on what is observed, no state disagrees with its
representative, so the quotient is built. `IsQuotient` is all that is said about it later: the class
of a state is a state of the quotient with the same expectations, seen through the classes, the same
labels and the same rewards.

* `repOf_isLeast`          — the representative of a block is its smallest state.
* `finish_quotientBuilder` — the model that is built from the parts.
* `quotient_spec`          — the quotient exists and is one.
-/

namespace MarkovCheck
namespace Bisim

variable {m : Model RationalFunction} {o : Observed RationalFunction} {p : Partition} {n : ℕ}

/-! ## Representatives -/

/-- A table that is filled from the back holds the first entry of every block. -/
theorem foldr_setIfInBounds_spec {l : List (ℕ × ℕ)} (hl : l.Pairwise (·.2 < ·.2)) (table : Array ℕ)
    {b : ℕ} (hb : b < table.size) (hmem : b ∈ l.map (·.1)) :
    ∃ s, (l.foldr (fun e table => table.setIfInBounds e.1 e.2) table)[b]? = some s ∧
      IsLeast {t | (b, t) ∈ l} s := by
  have hsize : ∀ k : List (ℕ × ℕ),
      (k.foldr (fun e table => table.setIfInBounds e.1 e.2) table).size = table.size := by
    intro k
    induction k with
    | nil => rfl
    | cons e k ih => rw [List.foldr_cons, Array.size_setIfInBounds, ih]
  induction l with
  | nil => cases hmem
  | cons e l ih =>
    rw [List.pairwise_cons] at hl
    rw [List.foldr_cons]
    by_cases h : e.1 = b
    · subst h
      refine ⟨e.2, Array.getElem?_setIfInBounds_self_of_lt (by rwa [hsize]), List.mem_cons_self,
        fun t ht => ?_⟩
      rcases List.mem_cons.1 ht with heq | ht
      · rw [← heq]
      · exact (hl.1 _ ht).le
    · rw [List.map_cons, List.mem_cons, or_iff_right (Ne.symm h)] at hmem
      obtain ⟨s, hget, hs, hleast⟩ := ih hl.2 hmem
      refine ⟨s, by rw [Array.getElem?_setIfInBounds_ne h, hget], List.mem_cons_of_mem e hs,
        fun t ht => hleast ?_⟩
      rcases List.mem_cons.1 ht with rfl | ht
      · exact absurd rfl h
      · exact ht

/-- The representative of a block. -/
def repOf (p : Partition) (b : ℕ) : ℕ := (representatives p)[b]?.getD 0

theorem representatives_size (p : Partition) : (representatives p).size = p.numBlocks := by
  unfold representatives
  induction p.blocks.toList.zipIdx with
  | nil => simp
  | cons e k ih => rw [List.foldr_cons, Array.size_setIfInBounds, ih]

/-- The representative of a block is its smallest state. -/
theorem repOf_isLeast (hp : p.IsDense n) {b : ℕ} (hb : b < p.numBlocks) :
    IsLeast {s | s < n ∧ p.block s = b} (repOf p b) := by
  have hentry : ∀ s, (b, s) ∈ p.blocks.toList.zipIdx ↔ s < n ∧ p.block s = b := by
    intro s
    rw [List.mem_zipIdx_iff_getElem?, Array.getElem?_toList, Partition.block, ← hp.size]
    by_cases hs : s < p.size
    · rw [Array.getElem?_eq_getElem hs, Option.some_inj, Option.getD_some, and_iff_right hs]
    · rw [Array.getElem?_eq_none (not_lt.1 hs)]
      simp [hs]
  have hasc : p.blocks.toList.zipIdx.Pairwise (·.2 < ·.2) := by
    rw [← List.pairwise_map (f := Prod.snd) (R := (· < ·)), List.zipIdx_map_snd]
    exact List.pairwise_lt_range'
  obtain ⟨s, hs⟩ := hp.surj b hb
  have hmem : b ∈ p.blocks.toList.zipIdx.map (·.1) :=
    List.mem_map.2 ⟨(b, s), (hentry s).2 hs, rfl⟩
  obtain ⟨r, hrep, hleast⟩ :=
    foldr_setIfInBounds_spec hasc (Array.replicate p.numBlocks 0) (by simpa using hb) hmem
  have hrep' : repOf p b = r := congrArg (fun x => Option.getD x 0) hrep
  have hset : {t | (b, t) ∈ p.blocks.toList.zipIdx} = {t | t < n ∧ p.block t = b} :=
    Set.ext hentry
  rwa [hrep', ← hset]

theorem repOf_spec (hp : p.IsDense n) {b : ℕ} (hb : b < p.numBlocks) :
    repOf p b < n ∧ p.block (repOf p b) = b := (repOf_isLeast hp hb).1

theorem representatives_zipIdx (p : Partition) : (representatives p).toList.zipIdx =
    (List.range p.numBlocks).map fun c => (repOf p c, c) := by
  apply List.ext_getElem
  · simp [representatives_size]
  · intro c h1 h2
    have hc : c < (representatives p).size := by simpa using h1
    simp [repOf, hc]

/-! ## The builder -/

section Assemble

variable (sums : ℕ → List (ℕ × RationalFunction))

theorem foldl_addTransition {b : Builder RationalFunction} {c : ℕ} (hc : c < b.numStates)
    {l : List (ℕ × RationalFunction)} (hl : ∀ e ∈ l, e.1 < b.numStates) :
    l.foldl (fun b e => b.addTransition c e.1 e.2) b =
      { b with transitions := b.transitions ++ (l.map fun e => ⟨c, e.1, e.2⟩).toArray } := by
  induction l generalizing b with
  | nil => simp
  | cons e l ih =>
    rw [List.forall_mem_cons] at hl
    have hstep : b.addTransition c e.1 e.2 =
        { b with transitions := b.transitions.push ⟨c, e.1, e.2⟩ } := by
      rw [Builder.addTransition, max_eq_left (by omega)]
    rw [List.foldl_cons, hstep]
    refine (ih (b := { b with transitions := b.transitions.push ⟨c, e.1, e.2⟩ }) hc hl.2).trans ?_
    simp

theorem foldl_addStateLabel {b : Builder RationalFunction} {c : ℕ} (hc : c < b.numStates)
    (carries : String × StateSet → Bool) (l : List (String × StateSet)) :
    l.foldl (fun b l => if carries l then b.addStateLabel c l.1 else b) b =
      { b with labels := l.foldl (fun es l =>
          if carries l then Builder.consItem l.1 c (Builder.declare l.1 es) else es) b.labels } := by
  induction l generalizing b with
  | nil => rfl
  | cons e l ih =>
    rw [List.foldl_cons, List.foldl_cons]
    split
    · have hstep : b.addStateLabel c e.1 =
          { b with labels := Builder.consItem e.1 c (Builder.declare e.1 b.labels) } := by
        rw [Builder.addStateLabel, max_eq_left (by omega)]
      rw [hstep]
      exact ih (b := { b with labels := Builder.consItem e.1 c (Builder.declare e.1 b.labels) }) hc
    · exact ih hc

theorem foldl_addStateReward {b : Builder RationalFunction} {c : ℕ} (hc : c < b.numStates)
    (g : RewardModel RationalFunction → RationalFunction) (l : List (RewardModel RationalFunction)) :
    l.foldl (fun b w => b.addStateReward w.name c (g w)) b =
      { b with rewards := l.foldl (fun es w =>
          Builder.consItem w.name (c, g w) (Builder.declare w.name es)) b.rewards } := by
  induction l generalizing b with
  | nil => rfl
  | cons e l ih =>
    have hstep : b.addStateReward e.name c (g e) =
        { b with rewards := Builder.consItem e.name (c, g e) (Builder.declare e.name b.rewards) } := by
      rw [Builder.addStateReward, max_eq_left (by omega)]
    rw [List.foldl_cons, List.foldl_cons, hstep]
    exact ih (b := { b with
      rewards := Builder.consItem e.name (c, g e) (Builder.declare e.name b.rewards) }) hc

/-- What the builder holds once the first `k` classes of `n` are added, before initial states. -/
def partialBuilder (o : Observed RationalFunction) (p : Partition) (n k : ℕ) :
    Builder RationalFunction where
  transitions := (Builder.transitionsOf k fun c => sums (repOf p c)).toArray
  initial := #[]
  labels := o.labels.map fun l => (l.1, ((List.range k).filter fun c => l.2.contains (repOf p c)).reverse)
  rewards := o.rewards.map fun w => (w.name, ((List.range k).map fun c => (c, w.value (repOf p c))).reverse)
  numStates := n

/-- Adding one more class. -/
theorem addRepresentative_partialBuilder (hlabels : (o.labels.map (·.1)).Nodup)
    (hrewards : (o.rewards.map (·.name)).Nodup) (hsums : ∀ s, ∀ e ∈ sums s, e.1 < n) {k : ℕ}
    (hk : k < n) : addRepresentative o sums (partialBuilder sums o p n k) k (repOf p k) =
      partialBuilder sums o p n (k + 1) := by
  have h1 := Builder.foldl_consItem [] (fun l : String × StateSet => l.1)
    (fun l => l.2.contains (repOf p k)) (fun _ => k)
    (fun l => ((List.range k).filter fun c => l.2.contains (repOf p c)).reverse) hlabels
  have h2 := Builder.foldl_consItem [] (fun w : RewardModel RationalFunction => w.name)
    (fun _ => true) (fun w => (k, w.value (repOf p k)))
    (fun w => ((List.range k).map fun c => (c, w.value (repOf p c))).reverse) hrewards
  have h3 : (Builder.transitionsOf (k + 1) fun c => sums (repOf p c)) =
      (Builder.transitionsOf k fun c => sums (repOf p c)) ++
        (sums (repOf p k)).map fun e => ⟨k, e.1, e.2⟩ := by
    rw [Builder.transitionsOf, List.range_succ, List.flatMap_append, List.flatMap_singleton]
    rfl
  simp only [List.nil_append, if_true] at h1 h2
  unfold addRepresentative
  dsimp only
  rw [foldl_addTransition hk (hsums _)]
  rw [foldl_addStateLabel (by exact hk) fun l => l.2.contains (repOf p k)]
  rw [foldl_addStateReward (by exact hk) fun w => w.value (repOf p k)]
  have h4 : ∀ l : String × StateSet,
      ((List.range (k + 1)).filter fun c => l.2.contains (repOf p c)).reverse =
        if l.2.contains (repOf p k) then
          k :: ((List.range k).filter fun c => l.2.contains (repOf p c)).reverse
        else ((List.range k).filter fun c => l.2.contains (repOf p c)).reverse := by
    intro l
    rw [List.range_succ, List.filter_append, List.reverse_append, List.filter_singleton]
    by_cases h : l.2.contains (repOf p k) = true <;> simp [h]
  have h5 : ∀ w : RewardModel RationalFunction,
      ((List.range (k + 1)).map fun c => (c, w.value (repOf p c))).reverse =
        (k, w.value (repOf p k)) ::
          ((List.range k).map fun c => (c, w.value (repOf p c))).reverse := by
    intro w
    rw [List.range_succ, List.map_append]
    simp
  simp only [partialBuilder, h1, h2, h3, h4, h5, List.append_toArray]

theorem foldl_addLabel (b : Builder RationalFunction) (l : List (String × StateSet)) :
    l.foldl (fun b l => b.addLabel l.1) b =
      { b with labels := l.foldl (fun es l => Builder.declare l.1 es) b.labels } := by
  induction l generalizing b with
  | nil => rfl
  | cons e l ih => exact ih (b.addLabel e.1)

theorem foldl_addRewardModel (b : Builder RationalFunction)
    (l : List (RewardModel RationalFunction)) :
    l.foldl (fun b w => b.addRewardModel w.name) b =
      { b with rewards := l.foldl (fun es w => Builder.declare w.name es) b.rewards } := by
  induction l generalizing b with
  | nil => rfl
  | cons e l ih => exact ih (b.addRewardModel e.name)

theorem foldl_addInitial {b : Builder RationalFunction} {l : List ℕ} {f : ℕ → ℕ}
    (hl : ∀ s ∈ l, f s < b.numStates) :
    l.foldl (fun b s => b.addInitial (f s)) b =
      { b with initial := b.initial ++ (l.map f).toArray } := by
  induction l generalizing b with
  | nil => simp
  | cons s l ih =>
    rw [List.forall_mem_cons] at hl
    have hstep : b.addInitial (f s) = { b with initial := b.initial.push (f s) } := by
      rw [Builder.addInitial, max_eq_left (by omega)]
    rw [List.foldl_cons, hstep]
    refine (ih (b := { b with initial := b.initial.push (f s) }) hl.2).trans ?_
    simp

/-- The parts that the quotient is built from. -/
theorem quotientBuilder_eq (hlabels : (o.labels.map (·.1)).Nodup)
    (hrewards : (o.rewards.map (·.name)).Nodup) (hsums : ∀ s, ∀ e ∈ sums s, e.1 < p.numBlocks)
    (hinitial : ∀ s ∈ m.initial, p.block s < p.numBlocks) :
    quotientBuilder m o p sums =
      { partialBuilder sums o p p.numBlocks p.numBlocks with
        initial := (m.initial.map p.block).toArray } := by
  have hstart : (o.rewards.foldl (fun b w => b.addRewardModel w.name)
      (o.labels.foldl (fun b l => b.addLabel l.1) (Builder.empty.requireStates p.numBlocks))) =
      partialBuilder sums o p p.numBlocks 0 := by
    have h1 := Builder.foldl_declare ([] : List (String × List ℕ)) (fun l : String × StateSet => l.1)
      hlabels
    have h2 := Builder.foldl_declare ([] : List (String × List (ℕ × RationalFunction)))
      (fun w : RewardModel RationalFunction => w.name) hrewards
    rw [foldl_addLabel, foldl_addRewardModel]
    simp [partialBuilder, Builder.requireStates, Builder.empty, Builder.transitionsOf, h1, h2]
  have hclasses : ∀ k ≤ p.numBlocks, (List.range k).foldl
      (fun b c => addRepresentative o sums b c (repOf p c)) (partialBuilder sums o p p.numBlocks 0) =
        partialBuilder sums o p p.numBlocks k := by
    intro k hk
    induction k with
    | zero => rfl
    | succ k ih =>
      rw [List.range_succ, List.foldl_append, ih (by omega), List.foldl_cons, List.foldl_nil,
        addRepresentative_partialBuilder sums hlabels hrewards hsums hk]
  unfold quotientBuilder
  dsimp only
  rw [hstart, representatives_zipIdx, List.foldl_map, hclasses _ le_rfl, foldl_addInitial hinitial]
  simp [partialBuilder]

end Assemble

/-! ## The quotient of a stable partition -/

theorem numEq_iff {a b : RationalFunction} : Value.numEq a b = true ↔ a = b := decide_eq_true_iff

theorem sameSums_iff {as bs : List (ℕ × RationalFunction)} : sameSums as bs = true ↔ as = bs := by
  induction as generalizing bs with
  | nil => cases bs <;> simp [sameSums]
  | cons a as ih =>
    cases bs with
    | nil => simp [sameSums]
    | cons b bs =>
      simp only [sameSums, Bool.and_eq_true, beq_iff_eq, numEq_iff, ih, List.cons.injEq,
        Prod.ext_iff]

/-- States with the same sums that agree do not disagree. -/
theorem disagreement?_eq_none {sums : ℕ → List (ℕ × RationalFunction)} {s r : ℕ}
    (hsums : sums s = sums r) (h : Agree o s r) : disagreement? o sums s r = none := by
  have hlabels : o.labels.find? (fun l => l.2.contains s != l.2.contains r) = none :=
    List.find?_eq_none.2 fun l hl => by simp [h.1 l hl]
  have hrewards : o.rewards.find? (fun w => !Value.numEq (w.value s) (w.value r)) = none :=
    List.find?_eq_none.2 fun w hw => by simp [numEq_iff.2 (h.2 w hw)]
  rw [disagreement?, sameSums_iff.2 hsums, hlabels, hrewards]
  rfl

theorem inconsistency?_eq_none {sums : ℕ → List (ℕ × RationalFunction)} (hp : p.IsDense n)
    (h : ∀ s < n, ∀ t < n, p.block s = p.block t → sums s = sums t ∧ Agree o s t) :
    inconsistency? o p sums = none := by
  unfold inconsistency?
  rw [List.findSome?_eq_none_iff]
  intro s hs
  rw [List.mem_range, hp.size] at hs
  obtain ⟨hr, hblock⟩ := repOf_spec hp (hp.lt s hs)
  obtain ⟨h1, h2⟩ := h s hs _ hr hblock.symm
  dsimp only
  split
  · rfl
  · exact Option.map_eq_none_iff.2 (disagreement?_eq_none h1 h2)

/-- The quotient has the classes of a model as states, and does what the states of a class do. -/
structure IsQuotient (m Q : Model RationalFunction) (o : Observed RationalFunction) (c : ℕ → ℕ) :
    Prop where
  wellFormed : Q.WellFormed
  canonical : Q.IsCanonical
  lt : ∀ s < m.numStates, c s < Q.numStates
  surj : ∀ b < Q.numStates, ∃ s < m.numStates, c s = b
  /-- Classes are numbered by their smallest states. -/
  growth : ∀ s < m.numStates, ∀ b < c s, ∃ t < s, c t = b
  row : ∀ s < m.numStates, ∀ b v, (b, v) ∈ Q.row (c s) ↔
    v.Denotes (m.mass s {u | c u = b}) ∧ m.mass s {u | c u = b} ≠ 0
  labels : ∀ l ∈ o.labels, ∃ S, Q.labeling.states? l.1 = some S ∧
    ∀ s < m.numStates, S.contains (c s) = l.2.contains s
  rewards : ∃ f : RewardModel RationalFunction → RewardModel RationalFunction,
    Q.rewards = o.rewards.map f ∧ ∀ w ∈ o.rewards, (f w).name = w.name ∧
      ∀ s < m.numStates, (f w).value (c s) = w.value s

/-- States agree on what is observed when their classes agree on all that the quotient has. -/
theorem IsQuotient.agree {Q : Model RationalFunction} {c : ℕ → ℕ} (h : IsQuotient m Q o c) {s t : ℕ}
    (hs : s < m.numStates) (ht : t < m.numStates)
    (hst : Agree ⟨Q.labeling.labels, Q.rewards⟩ (c s) (c t)) : Agree o s t := by
  constructor
  · intro l hl
    obtain ⟨S, hS, hcontains⟩ := h.labels l hl
    rw [Labeling.states?, List.lookup_eq_some_iff] at hS
    obtain ⟨pre, post, heq, -⟩ := hS
    have := hst.1 (l.1, S) (by rw [heq]; simp)
    rwa [hcontains s hs, hcontains t ht] at this
  · intro w hw
    obtain ⟨f, hf, hvalues⟩ := h.rewards
    have hmem : f w ∈ Q.rewards := hf ▸ List.mem_map_of_mem hw
    have := hst.2 (f w) hmem
    rwa [(hvalues w hw).2 s hs, (hvalues w hw).2 t ht] at this

/-- The model that is built. -/
def quotientModel (m : Model RationalFunction) (o : Observed RationalFunction) (p : Partition) :
    Model RationalFunction where
  kind := m.kind
  rows := Builder.rowsOf p.numBlocks
    (Builder.transitionsOf p.numBlocks fun c => blockSums m p (repOf p c))
  initial := Builder.sortStates (m.initial.map p.block)
  labeling := ⟨p.numBlocks, o.labels.map fun l => (l.1, .ofList p.numBlocks
    ((List.range p.numBlocks).filter fun c => l.2.contains (repOf p c)).reverse)⟩
  rewards := o.rewards.map fun w => ⟨w.name, Builder.rewardVector p.numBlocks
    ((List.range p.numBlocks).map fun c => (c, w.value (repOf p c))).reverse⟩

theorem blockSums_mem (hc : m.IsCanonical) {s : ℕ} {e : ℕ × RationalFunction}
    (he : e ∈ blockSums m p s) : e.2.IsCanonical ∧ Value.isZero e.2 = false := by
  obtain ⟨h1, h2⟩ := (mem_blockSums hc).1 he
  refine ⟨h1.1, (RationalFunction.isZero_eq_false_iff h1.1).2 ?_⟩
  rwa [h1.2]

theorem blockSums_lt (hw : m.WellFormed) (hc : m.IsCanonical) (hp : p.IsDense m.numStates) {s : ℕ}
    {e : ℕ × RationalFunction} (he : e ∈ blockSums m p s) : e.1 < p.numBlocks := by
  have hne := ((mem_blockSums hc).1 he).2
  by_contra hge
  refine hne (Model.mass_eq_zero fun g hg hmem => hge ?_)
  have hblock : p.block g.1 = e.1 := hmem
  rw [← hblock]
  exact hp.lt g.1 (hw.targets_lt s g hg)

theorem finish_quotientBuilder (hw : m.WellFormed) (hc : m.IsCanonical) (hp : p.IsDense m.numStates)
    (hlabels : (o.labels.map (·.1)).Nodup) (hrewards : (o.rewards.map (·.name)).Nodup) :
    (quotientBuilder m o p (blockSums m p)).finish m.kind = .ok (quotientModel m o p) := by
  rw [quotientBuilder_eq _ hlabels hrewards (fun s e he => blockSums_lt hw hc hp he)
    fun s hs => hp.lt s (hw.initial_lt s hs)]
  rw [Builder.finish, if_neg (by simp [hw.initial_ne_nil])]
  simp [partialBuilder, quotientModel, Function.comp_def]

theorem quotientModel_row (hc : m.IsCanonical) (p : Partition) :
    (quotientModel m o p).numStates = p.numBlocks ∧
      ∀ b < p.numBlocks, (quotientModel m o p).row b = blockSums m p (repOf p b) := by
  obtain ⟨h1, h2⟩ := Builder.rowsOf_transitionsOf (n := p.numBlocks)
    (f := fun c => blockSums m p (repOf p c)) (fun c => blockSums_ascend _ _ _)
    (fun c e he => Builder.sum_singleton (blockSums_mem hc he).1) fun c e he => (blockSums_mem hc he).2
  refine ⟨h1, fun b hb => ?_⟩
  rw [Model.row, quotientModel, h2 b hb, Option.getD_some]

section IsQuotient

variable (hw : m.WellFormed) (hc : m.IsCanonical) (hp : p.IsDense m.numStates)
  (hlabels : (o.labels.map (·.1)).Nodup) (hrewards : (o.rewards.map (·.name)).Nodup)
include hw hc hp hlabels hrewards

theorem quotientModel_wellFormed : (quotientModel m o p).WellFormed := by
  obtain ⟨hsize, hrow⟩ := quotientModel_row (o := o) hc p
  have hmem : ∀ s, ∀ e ∈ (quotientModel m o p).row s, e ∈ blockSums m p (repOf p s) := by
    intro s e he
    by_cases hs : s < p.numBlocks
    · rwa [hrow s hs] at he
    · exact absurd (hsize ▸ Model.lt_of_mem_row he) hs
  have hinitial : ∀ b ∈ (quotientModel m o p).initial, ∃ s ∈ m.initial, p.block s = b := fun b hb =>
    List.mem_map.1 (Builder.mem_sortStates.1 hb)
  constructor
  case targets_ascend =>
    intro s
    by_cases hs : s < p.numBlocks
    · rw [hrow s hs]
      exact blockSums_ascend _ _ _
    · rw [Model.row, Array.getElem?_eq_none (by rw [← hsize] at hs; exact not_lt.1 hs)]
      exact .nil
  case targets_lt =>
    exact fun s e he => (blockSums_lt hw hc hp (hmem s e he)).trans_eq hsize.symm
  case values_ne_zero => exact fun s e he => (blockSums_mem hc (hmem s e he)).2
  case initial_ascend => exact Builder.sortStates_ascend _
  case initial_lt =>
    intro b hb
    obtain ⟨s, hs, rfl⟩ := hinitial b hb
    exact (hp.lt s (hw.initial_lt s hs)).trans_eq hsize.symm
  case initial_ne_nil =>
    obtain ⟨s, hs⟩ := List.exists_mem_of_ne_nil _ hw.initial_ne_nil
    exact List.ne_nil_of_mem (Builder.mem_sortStates.2 (List.mem_map_of_mem hs))
  case labeling_size => exact hsize.symm
  case label_size =>
    intro l hl
    obtain ⟨k, -, rfl⟩ := List.mem_map.1 hl
    exact (StateSet.size_ofList _ _).trans hsize.symm
  case label_names =>
    rw [Labeling.names, quotientModel, List.map_map]
    exact hlabels
  case reward_size =>
    intro r hr
    obtain ⟨w, -, rfl⟩ := List.mem_map.1 hr
    rw [hsize]
    simp [Builder.rewardVector_eq]
  case reward_names =>
    rw [quotientModel, List.map_map]
    exact hrewards

omit hw hp hlabels hrewards in
theorem quotientModel_isCanonical (hmem : ∀ w ∈ o.rewards, w ∈ m.rewards) :
    (quotientModel m o p).IsCanonical := by
  obtain ⟨hsize, hrow⟩ := quotientModel_row (o := o) hc p
  constructor
  case row =>
    intro s e he
    by_cases hs : s < p.numBlocks
    · rw [hrow s hs] at he
      exact (blockSums_mem hc he).1
    · exact absurd (hsize ▸ Model.lt_of_mem_row he) hs
  case reward =>
    intro r hr v hv
    obtain ⟨w, hw, rfl⟩ := List.mem_map.1 hr
    rw [Builder.rewardVector_eq] at hv
    obtain ⟨c, rfl⟩ := Array.mem_ofFn.1 hv
    exact (AllCanonical.getD (hc.reward w (hmem w hw)) _).1

/-- The model that is built from a stable partition is a quotient. -/
theorem isQuotient_quotientModel (hstable : IsStable m p)
    (hagree : ∀ s < m.numStates, ∀ t < m.numStates, p.block s = p.block t → Agree o s t)
    (hgrowth : ∀ s < m.numStates, ∀ b < p.block s, ∃ t < s, p.block t = b)
    (hmem : ∀ w ∈ o.rewards, w ∈ m.rewards) : IsQuotient m (quotientModel m o p) o p.block := by
  obtain ⟨hsize, hrow⟩ := quotientModel_row (o := o) hc p
  have hrep : ∀ s < m.numStates, repOf p (p.block s) < m.numStates ∧
      p.block (repOf p (p.block s)) = p.block s := fun s hs => repOf_spec hp (hp.lt s hs)
  constructor
  case wellFormed => exact quotientModel_wellFormed hw hc hp hlabels hrewards
  case canonical => exact quotientModel_isCanonical hc hmem
  case lt => exact fun s hs => (hp.lt s hs).trans_eq hsize.symm
  case surj => exact fun b hb => hp.surj b (hb.trans_eq hsize)
  case growth => exact hgrowth
  case row =>
    intro s hs b v
    obtain ⟨hlt, hblock⟩ := hrep s hs
    rw [hrow _ (hp.lt s hs), (blockSums_eq_iff hc).2 (hstable _ hlt s hs hblock)]
    exact mem_blockSums hc
  case labels =>
    intro l hl
    have hnames := (quotientModel_wellFormed hw hc hp hlabels hrewards).label_names
    let S : StateSet := .ofList p.numBlocks
      ((List.range p.numBlocks).filter fun c => l.2.contains (repOf p c)).reverse
    refine ⟨S, Builder.lookup_of_mem hnames (e := (l.1, S)) (List.mem_map.2 ⟨l, hl, rfl⟩),
      fun s hs => ?_⟩
    obtain ⟨hlt, hblock⟩ := hrep s hs
    rw [← (hagree _ hlt s hs hblock).1 l hl, Bool.eq_iff_iff,
      StateSet.contains_ofList fun c hc => List.mem_range.1 (List.mem_of_mem_filter
        (List.mem_reverse.1 hc))]
    simp [hp.lt s hs]
  case rewards =>
    refine ⟨_, rfl, fun w hw => ⟨rfl, fun s hs => ?_⟩⟩
    obtain ⟨hlt, hblock⟩ := hrep s hs
    rw [← (hagree _ hlt s hs hblock).2 w hw, RewardModel.value, Builder.rewardVector_eq]
    simp [hp.lt s hs]

end IsQuotient

/-- Equal masses of all blocks are equal masses of all blocks in canonical form. -/
theorem sameMasses_canonical_iff (hw : m.WellFormed) (hsize : p.size = m.numStates)
    (hp : p.IsBounded) {s t : ℕ} :
    m.SameMasses p.canonical.block s t ↔ m.SameMasses p.block s t := by
  constructor
  · exact fun h b => Model.mass_eq_of_masses hw h fun u hu v hv huv hub =>
      ((hp.canonical_iff hsize hu hv).1 huv).symm.trans hub
  · exact fun h b => Model.mass_eq_of_masses hw h fun u hu v hv huv hub =>
      ((hp.canonical_iff hsize hu hv).2 huv).symm.trans hub

/-- The canonical form of a stable partition is stable. -/
theorem isStable_canonical (hw : m.WellFormed) (hp : p.IsDense m.numStates) (h : IsStable m p) :
    IsStable m p.canonical := fun s hs t ht hst =>
  (sameMasses_canonical_iff hw hp.size hp.isBounded).2
    (h s hs t ht ((hp.isBounded.canonical_iff hp.size hs ht).1 hst))

/-- The totals that are looked up in a table are those of the states. -/
theorem blockSums_table (m : Model RationalFunction) (p : Partition) :
    (fun s => ((Array.range m.numStates).map (blockSums m p))[s]?.getD []) = blockSums m p := by
  funext s
  by_cases hs : s < m.numStates
  · simp [hs]
  · simp [hs, blockSums, Model.row_eq_nil_of_le (not_lt.1 hs), byBlock]

/-- By a stable partition whose blocks agree on what is observed, the quotient is what the builder
makes of it: no state disagrees with its representative. -/
theorem quotient_eq_of_finish (hw : m.WellFormed) (hc : m.IsCanonical) (hp : p.IsDense m.numStates)
    (hstable : IsStable m p) {preserved : Preserved} (ho : observe m preserved = .ok o)
    (hagree : ∀ s < m.numStates, ∀ t < m.numStates, p.block s = p.block t → Agree o s t)
    {q : Model RationalFunction}
    (hq : (quotientBuilder m o p.canonical (blockSums m p.canonical)).finish m.kind = .ok q) :
    quotient m p preserved = .ok ⟨q, p.canonical.blocks⟩ := by
  have hdense : p.canonical.IsDense m.numStates := hp.size ▸ Partition.canonical_isDense hp.isBounded
  have hok : inconsistency? o p.canonical (blockSums m p.canonical) = none := by
    refine inconsistency?_eq_none hdense fun s hs t ht hst => ⟨?_, hagree s hs t ht ?_⟩
    · exact (blockSums_eq_iff hc).2 (isStable_canonical hw hp hstable s hs t ht hst)
    · exact (hp.isBounded.canonical_iff hp.size hs ht).1 hst
  unfold quotient
  simp only [ho, blockSums_table, hok, hq]

/-- The quotient by a stable partition whose blocks agree on what is observed is built, and it is a
quotient. -/
theorem quotient_spec (hw : m.WellFormed) (hc : m.IsCanonical) (hp : p.IsDense m.numStates)
    (hstable : IsStable m p) {preserved : Preserved} (ho : observe m preserved = .ok o)
    (hlabels : preserved.labels.Nodup) (hrewards : preserved.rewards.Nodup)
    (hagree : ∀ s < m.numStates, ∀ t < m.numStates, p.block s = p.block t → Agree o s t) :
    ∃ q, quotient m p preserved = .ok q ∧ q.model = quotientModel m o p.canonical ∧
      IsQuotient m q.model o p.canonical.block ∧ q.stateMap = p.canonical.blocks := by
  obtain ⟨⟨h1, -⟩, h2, h3⟩ := observe_spec ho
  have hbounded := hp.isBounded
  have hdense : p.canonical.IsDense m.numStates := hp.size ▸ Partition.canonical_isDense hbounded
  have hagree' : ∀ s < m.numStates, ∀ t < m.numStates,
      p.canonical.block s = p.canonical.block t → Agree o s t := fun s hs t ht hst =>
    hagree s hs t ht ((hbounded.canonical_iff hp.size hs ht).1 hst)
  have hfinish := finish_quotientBuilder hw hc hdense (h1.symm ▸ hlabels) (h2.symm ▸ hrewards)
  refine ⟨⟨quotientModel m o p.canonical, p.canonical.blocks⟩, ?_, rfl, ?_, rfl⟩
  · exact quotient_eq_of_finish hw hc hp hstable ho hagree hfinish
  · refine isQuotient_quotientModel hw hc hdense (h1.symm ▸ hlabels) (h2.symm ▸ hrewards)
      (isStable_canonical hw hp hstable) hagree' (fun s hs b hb => ?_) fun w hw => ?_
    · exact (Partition.canonical_isOrdered hbounded).growth s (hs.trans_eq hp.size.symm) b hb
    · exact List.mem_of_find?_eq_some (h3 w hw)

end Bisim
end MarkovCheck

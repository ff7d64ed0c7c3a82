import Mathlib
import MarkovCheck.Proofs.Bisim.Bisimulation
import MarkovCheck.Proofs.Bisim.Iterations
import MarkovCheck.Proofs.Bisim.Signature

/-!
# MarkovCheck.Proofs.Bisim.Worklist

The worklist refinement computes the coarsest bisimulation.

Two facts hold between steps. Unmarked states of one block have equal masses on all blocks: a state
that stays unmarked has no transition into a part with a new number, so for it the blocks have not
changed. And, where no values cancel, bisimilar states are in one block and marked alike: a state
has a transition into a union of classes exactly when its mass there is not zero. When no block has
a marked state any more, the first fact says that the partition is stable, and the second one that
nothing was separated without need.

* `IsStep`           — an iteration that splits by the totals into the blocks.
* `Invariant`, `RespectsMarks` — the two facts, the first with the bookkeeping of the worklist.
* `step_invariant`, `step_respectsMarks` — one step keeps them.
* `refine_spec`      — the result is stable and refines the initial partition.
* `refine_isCoarsest` — without cancelling, it is the coarsest bisimulation.
* `refine_eq_iterate` — the refinement in a form that computes.
-/

namespace MarkovCheck
namespace Bisim

variable {m : Model RationalFunction}

/-! ## Numbering by signatures -/

/-- The signatures of a list of states are numbered one after the other. -/
theorem numberStates_totals (m : Model RationalFunction) (p : MarkedPartition)
    (memory : SplitMemory (ValueCache RationalFunction)) (l : List ℕ) :
    MarkedPartition.numberStates (numberBySignature (totals m) p) memory l =
      let (sigs, cache) := signatures m p.toPartition memory.memory l
      let (numbers, numbering) := memory.numbering.numberAll sigs
      (l.zip numbers, ⟨cache, numbering⟩) := by
  induction l generalizing memory with
  | nil => rfl
  | cons s l ih =>
    simp only [MarkedPartition.numberStates, ih]
    rfl

/-- The numbers of a list of states are those of their encoded totals, by the cache and the numbering
that are left. -/
theorem numberStates_spec (m : Model RationalFunction) (p : MarkedPartition)
    {memory : SplitMemory (ValueCache RationalFunction)} (hn : memory.numbering.Dense) (l : List ℕ) :
    ∃ (c : ValueCache RationalFunction) (o : Numbering Signature),
      (MarkedPartition.numberStates (numberBySignature (totals m) p) memory l).2 = ⟨c, o⟩ ∧
      memory.memory.Extends c ∧ memory.numbering.Extends o ∧ o.Dense ∧
      (∀ s ∈ l, Knows c (blockSums m p.toPartition s) ∧
        ∃ i, o.find? (encode c (blockSums m p.toPartition s)) = some i) ∧
      (MarkedPartition.numberStates (numberBySignature (totals m) p) memory l).1 =
        l.map fun s => (s, (o.find? (encode c (blockSums m p.toPartition s))).getD 0) := by
  obtain ⟨hext, hknows, hsigs⟩ := signatures_spec m p.toPartition memory.memory l
  obtain ⟨hd, hnext, hfind, hmap, -⟩ :=
    Numbering.numberAll_spec hn (signatures m p.toPartition memory.memory l).1
  rw [numberStates_totals]
  refine ⟨_, _, rfl, hext, hnext, hd, fun s hs => ⟨hknows s hs, hfind _ ?_⟩, ?_⟩
  · rw [hsigs]
    exact List.mem_map_of_mem hs
  · rw [List.map_prod_left_eq_zip]
    exact congrArg l.zip (hmap.trans ((congrArg (List.map _) hsigs).trans List.map_map))

section Marked

open MarkedPartition

variable {p q : MarkedPartition} {n b : ℕ}

/-- The marked states of a block are numbered such that equal numbers stand for equal masses. -/
theorem numberMarked_spec (hc : m.IsCanonical) (hp : p.Consistent n) (hb : b < p.numBlocks)
    (hm : (p.block b).hasMarked = true) (c : ValueCache RationalFunction) :
    ∃ g, IsNumbered p b g (p.numberMarked b (numberBySignature (totals m) p) ⟨c, .empty⟩).1 ∧
      ∀ s < n, ∀ t < n, p.blockNumber s = b → p.blockNumber t = b → p.isMarked s = true →
        p.isMarked t = true → (g s = g t ↔ m.SameMasses p.blockNumber s t) := by
  obtain ⟨g, hg⟩ := numberMarked_isNumbered hp hb hm (isGapless_numberMarked (totals m) p p b c)
  refine ⟨g, hg, fun s hs t ht hsb htb hsm htm => ?_⟩
  rcases hg.numbers with ⟨h1, -⟩ | ⟨hmap, -⟩
  · obtain rfl := hp.eq_of_size_one h1 hs ht hsb htb
    exact ⟨fun _ _ => rfl, fun _ => rfl⟩
  · have hsize : (p.block b).size ≠ 1 := by
      intro h1
      rw [numberMarked, if_pos h1, eq_comm, List.map_eq_nil_iff] at hmap
      have hmem := (hp.mem_markedStates hb).2 ⟨hs, hsb, hsm⟩
      rw [hmap] at hmem
      cases hmem
    have hempty : (⟨c, .empty⟩ : SplitMemory (ValueCache RationalFunction)).numbering.Dense :=
      Numbering.dense_empty
    obtain ⟨d, o, -, -, -, hd, hall, hmap'⟩ := numberStates_spec m p hempty (p.markedStates b)
    rw [numberMarked, if_neg hsize, hmap'] at hmap
    have hvalue : ∀ u ∈ p.markedStates b,
        (o.find? (encode d (blockSums m p.toPartition u))).getD 0 = g u := fun u hu =>
      (Prod.mk.inj (List.map_inj_left.1 hmap u hu)).2
    have hsmem := (hp.mem_markedStates hb).2 ⟨hs, hsb, hsm⟩
    have htmem := (hp.mem_markedStates hb).2 ⟨ht, htb, htm⟩
    obtain ⟨hks, i, hi⟩ := hall s hsmem
    obtain ⟨hkt, j, hj⟩ := hall t htmem
    have hiff : encode d (blockSums m p.toPartition s) = encode d (blockSums m p.toPartition t) ↔
        m.SameMasses p.blockNumber s t := by
      rw [encode_inj hks hkt, blockSums_eq_iff hc]
      rfl
    rw [← hvalue s hsmem, ← hvalue t htmem, hi, hj, Option.getD_some, Option.getD_some, ← hiff]
    constructor
    · rintro rfl
      exact hd.inj hi hj
    · intro h
      rw [h, hj] at hi
      exact (Option.some.inj hi).symm

end Marked

/-! ## One step -/

/-- An iteration in which the marked states of the block are split by their masses on the blocks. -/
structure IsStep (m : Model RationalFunction) (b : ℕ)
    (w v : Worklist (ValueCache RationalFunction)) (q : MarkedPartition) (g : ℕ → ℕ)
    (parts : List ℕ) : Prop extends IsIteration m.predecessors m.numStates b w v q g parts where
  number_iff : ∀ s < m.numStates, ∀ t < m.numStates, w.partition.blockNumber s = b →
    w.partition.blockNumber t = b → w.partition.isMarked s = true → w.partition.isMarked t = true →
    (g s = g t ↔ m.SameMasses w.partition.blockNumber s t)

theorem step_spec (hc : m.IsCanonical) {w : Worklist (ValueCache RationalFunction)} {b : ℕ}
    (hw : Bookkept m.numStates { w with blocks := b :: w.blocks }) :
    ∃ q g parts, IsStep m b w (step (totals m) m.predecessors b w) q g parts := by
  obtain ⟨hb, hm⟩ := (hw.queued.mem_iff b).1 List.mem_cons_self
  obtain ⟨g, hg, hiff⟩ := numberMarked_spec hc hw.consistent hb hm w.memory
  obtain ⟨q, parts, h⟩ := step_isIteration (fun _ _ => Model.predecessors_lt) hw hg
  exact ⟨q, g, parts, h, hiff⟩

/-- What holds between steps: the worklist holds the blocks with marked states, unmarked states of
one block have equal masses on all blocks, and the initial partition is refined. -/
structure Invariant (m : Model RationalFunction) (p₀ : Partition)
    (w : Worklist (ValueCache RationalFunction)) : Prop extends Bookkept m.numStates w where
  stable : ∀ s < m.numStates, ∀ t < m.numStates, w.partition.isMarked s = false →
    w.partition.isMarked t = false → w.partition.blockNumber s = w.partition.blockNumber t →
    m.SameMasses w.partition.blockNumber s t
  refines : w.partition.toPartition.Refines p₀ m.numStates

/-- Bisimilar states are in one block, and marked alike. -/
def RespectsMarks (m : Model RationalFunction) (p₀ : Partition) (p : MarkedPartition) : Prop :=
  ∀ r, IsBisimulation m p₀ r → ∀ s < m.numStates, ∀ t < m.numStates, r s t →
    p.blockNumber s = p.blockNumber t ∧ p.isMarked s = p.isMarked t

section Step

variable {p₀ : Partition} {w v : Worklist (ValueCache RationalFunction)} {q : MarkedPartition}
  {b : ℕ} {g : ℕ → ℕ} {parts : List ℕ}

/-- The states with a transition into a part with a new number are marked. -/
theorem IsStep.marked_iff (hw : m.WellFormed) (h : IsStep m b w v q g parts) {s : ℕ}
    (hs : s < m.numStates) : v.partition.isMarked s = true ↔
      q.isMarked s = true ∨ ∃ e ∈ m.row s, q.blockNumber e.1 ∈ parts.tail := by
  rw [h.touched.marked_iff s hs]
  refine or_congr_right ⟨?_, ?_⟩
  · rintro ⟨t, ht, hmem, hst⟩
    obtain ⟨-, e, he, rfl⟩ := (Model.mem_predecessors hw ht).1 hst
    exact ⟨e, he, hmem⟩
  · rintro ⟨e, he, hmem⟩
    have hlt := hw.targets_lt s e he
    exact ⟨e.1, hlt, hmem, (Model.mem_predecessors hw hlt).2 ⟨hs, e, he, rfl⟩⟩

theorem IsStep.notMem_tail (hw : m.WellFormed) (h : IsStep m b w v q g parts) {s : ℕ}
    (hs : s < m.numStates) (hsm : v.partition.isMarked s = false) :
    q.isMarked s = false ∧ ∀ e ∈ m.row s, q.blockNumber e.1 ∉ parts.tail := by
  have hiff := h.marked_iff hw hs
  rw [hsm, Bool.false_eq_true, false_iff, not_or] at hiff
  exact ⟨by simpa using hiff.1, fun e he hmem => hiff.2 ⟨e, he, hmem⟩⟩

/-- For a state without transitions into the new parts the blocks have not changed. -/
theorem IsStep.mass_eq (hw : m.WellFormed) (h : IsStep m b w v q g parts) {s : ℕ}
    (hs : ∀ e ∈ m.row s, q.blockNumber e.1 ∉ parts.tail) (c : ℕ) :
    m.mass s {u | v.partition.blockNumber u = c} =
      m.mass s {u | w.partition.blockNumber u = c} := by
  refine Model.mass_congr fun e he => ?_
  rw [Set.mem_ofPred_eq, Set.mem_ofPred_eq, h.touched.blockNumber_eq,
    blockNumber_of_notMem_tail h.split (hw.targets_lt s e he) (hs e he)]

/-- Unmarked states of one block had equal masses before the step. -/
theorem IsStep.sameMasses (hi : Invariant m p₀ { w with blocks := b :: w.blocks })
    (h : IsStep m b w v q g parts) {s t : ℕ} (hs : s < m.numStates) (ht : t < m.numStates)
    (hsm : q.isMarked s = false) (htm : q.isMarked t = false)
    (hst : q.blockNumber s = q.blockNumber t) : m.SameMasses w.partition.blockNumber s t := by
  have hold := blockNumber_eq_of_isSplit hi.consistent h.split hs ht hst
  by_cases hsb : w.partition.blockNumber s = b
  · have htb := hold.symm.trans hsb
    obtain ⟨hmark, hnum⟩ := (h.split.same_iff s hs t ht hsb htb).1 hst
    cases hm : w.partition.isMarked s with
    | true => exact (h.number_iff s hs t ht hsb htb hm (hmark.symm.trans hm)).1 (hnum hm)
    | false => exact hi.stable s hs t ht hm (hmark.symm.trans hm) hold
  · have htb : w.partition.blockNumber t ≠ b := fun e => hsb (hold.trans e)
    have h1 := (h.split.other s hs hsb).2.symm.trans hsm
    have h2 := (h.split.other t ht htb).2.symm.trans htm
    exact hi.stable s hs t ht h1 h2 hold

/-- A step keeps the invariant. -/
theorem step_invariant (hw : m.WellFormed) (hi : Invariant m p₀ { w with blocks := b :: w.blocks })
    (h : IsStep m b w v q g parts) : Invariant m p₀ v where
  consistent := h.touched.consistent
  queued := h.touched.queued
  stable := by
    intro s hs t ht hsm htm hst c
    obtain ⟨hsm', hs'⟩ := h.notMem_tail hw hs hsm
    obtain ⟨htm', ht'⟩ := h.notMem_tail hw ht htm
    rw [h.touched.blockNumber_eq, h.touched.blockNumber_eq] at hst
    rw [h.mass_eq hw hs', h.mass_eq hw ht']
    exact h.sameMasses hi hs ht hsm' htm' hst c
  refines := by
    intro s hs t ht hst
    change v.partition.blockNumber s = v.partition.blockNumber t at hst
    rw [h.touched.blockNumber_eq, h.touched.blockNumber_eq] at hst
    exact hi.refines s hs t ht (blockNumber_eq_of_isSplit hi.consistent h.split hs ht hst)

/-- Where no values cancel, a step does not separate bisimilar states, nor mark them differently. -/
theorem step_respectsMarks (hw : m.WellFormed) (hc : m.IsCanonical) (hpos : m.NoCancelling)
    (hr : RespectsMarks m p₀ w.partition) (h : IsStep m b w v q g parts) :
    RespectsMarks m p₀ v.partition := by
  intro r hbis s hs t ht hst
  have hnum : ∀ u < m.numStates, ∀ x < m.numStates, r u x → q.blockNumber u = q.blockNumber x := by
    intro u hu x hx hux
    obtain ⟨hblock, hmark⟩ := hr r hbis u hu x hx hux
    by_cases hub : w.partition.blockNumber u = b
    · have hxb := hblock.symm.trans hub
      refine (h.split.same_iff u hu x hx hub hxb).2 ⟨hmark, fun hm => ?_⟩
      refine (h.number_iff u hu x hx hub hxb hm (hmark.symm.trans hm)).2 ?_
      exact hbis.sameMasses (q := w.partition.toPartition) hw hc hu hx hux
        fun y hy z hz hyz => (hr r hbis y hy z hz hyz).1
    · have hxb : w.partition.blockNumber x ≠ b := fun e => hub (hblock.trans e)
      rw [(h.split.other u hu hub).1, (h.split.other x hx hxb).1, hblock]
  have hmark : q.isMarked s = q.isMarked t := by
    obtain ⟨hblock, hmark⟩ := hr r hbis s hs t ht hst
    by_cases hsb : w.partition.blockNumber s = b
    · rw [(h.split.inside s hs hsb).2, (h.split.inside t ht (hblock.symm.trans hsb)).2]
    · have htb : w.partition.blockNumber t ≠ b := fun e => hsb (hblock.trans e)
      rw [(h.split.other s hs hsb).2, (h.split.other t ht htb).2, hmark]
  have hedge : (∃ e ∈ m.row s, q.blockNumber e.1 ∈ parts.tail) ↔
      ∃ e ∈ m.row t, q.blockNumber e.1 ∈ parts.tail := by
    have hs' := hpos.mass_ne_zero_iff hc hs (A := {u | q.blockNumber u ∈ parts.tail})
    have ht' := hpos.mass_ne_zero_iff hc ht (A := {u | q.blockNumber u ∈ parts.tail})
    rw [hbis.mass_eq hw hc hs ht hst fun u hu x hx hux hmem => by
      rwa [Set.mem_ofPred_eq, ← hnum u hu x hx hux]] at hs'
    exact hs'.symm.trans ht'
  refine ⟨?_, ?_⟩
  · rw [h.touched.blockNumber_eq, h.touched.blockNumber_eq]
    exact hnum s hs t ht hst
  · rw [Bool.eq_iff_iff, h.marked_iff hw hs, h.marked_iff hw ht, hmark, hedge]

end Step

/-! ## All steps -/

/-- The facts that hold between steps hold after all of them. -/
theorem run_spec (hw : m.WellFormed) (hc : m.IsCanonical) {p₀ : Partition}
    {w : Worklist (ValueCache RationalFunction)} (hi : Invariant m p₀ w) (fuel : ℕ) :
    Invariant m p₀ (run (totals m) m.predecessors fuel w) ∧
      (m.NoCancelling → RespectsMarks m p₀ w.partition →
        RespectsMarks m p₀ (run (totals m) m.predecessors fuel w).partition) := by
  obtain ⟨k, hk, -⟩ := exists_after (totals m) m.predecessors fuel w
  refine hk.of_step (P := fun _ v => Invariant m p₀ v ∧ (m.NoCancelling →
    RespectsMarks m p₀ w.partition → RespectsMarks m p₀ v.partition)) ⟨hi, fun _ h => h⟩ ?_
  rintro - b rest p cache ⟨hi, hr⟩
  obtain ⟨q, g, parts, h⟩ := step_spec hc (w := ⟨p, rest, cache⟩) hi.toBookkept
  exact ⟨step_invariant hw hi h,
    fun hpos hw₀ => step_respectsMarks (w := ⟨p, rest, cache⟩) hw hc hpos (hr hpos hw₀) h⟩

theorem start_invariant {p : Partition} (hp : p.IsDense m.numStates)
    (c : ValueCache RationalFunction) :
    Invariant m p (start p c) ∧ RespectsMarks m p (start p c).partition := by
  obtain ⟨-, -, hall⟩ := MarkedPartition.ofPartition_spec hp
  refine ⟨⟨(start_bookkept hp c).1, fun s hs _ _ hsm => ?_, ?_⟩, ?_⟩
  · rw [start, (hall s hs).2] at hsm
    cases hsm
  · intro s hs t ht hst
    rwa [← (hall s hs).1, ← (hall t ht).1]
  · intro r hr s hs t ht hst
    rw [start, (hall s hs).1, (hall t ht).1, (hall s hs).2, (hall t ht).2]
    exact ⟨hr.contained s hs t ht hst, rfl⟩

/-- The worklist becomes empty. The result has no empty blocks, is stable, and refines the initial
partition; without cancelling it does not separate bisimilar states. -/
theorem refine_spec (hw : m.WellFormed) (hc : m.IsCanonical) {p : Partition}
    (hp : p.IsDense m.numStates) (c : ValueCache RationalFunction) :
    (refine m p c).blocks = [] ∧
      (refine m p c).partition.toPartition.IsDense m.numStates ∧
      IsStable m (refine m p c).partition.toPartition ∧
      (refine m p c).partition.toPartition.Refines p m.numStates ∧
      (m.NoCancelling → Respects m p (refine m p c).partition.toPartition) := by
  obtain ⟨hi, hr⟩ := start_invariant (m := m) hp c
  obtain ⟨hi', hr'⟩ := run_spec hw hc hi (stepBound m.numStates)
  have hblocks : (refine m p c).blocks = [] :=
    run_blocks_eq_nil (fun _ _ => Model.predecessors_lt) hi.toBookkept (start_bookkept hp c).2
  have hunmarked : ∀ s < m.numStates, (refine m p c).partition.isMarked s = false := by
    intro s hs
    rw [← Bool.not_eq_true]
    intro hm
    have hmem : _ ∈ (refine m p c).blocks := (hi'.mem_blocks_iff _).2 ⟨s, hs, rfl, hm⟩
    rw [hblocks] at hmem
    cases hmem
  refine ⟨hblocks, hi'.consistent.isDense, ?_, hi'.refines, ?_⟩
  · intro s hs t ht hst
    exact hi'.stable s hs t ht (hunmarked s hs) (hunmarked t ht) hst
  · intro hpos r hbis s hs t ht hst
    exact (hr' hpos hr r hbis s hs t ht hst).1

/-- Without cancelling, the worklist refinement computes the coarsest bisimulation. -/
theorem refine_isCoarsest (hw : m.WellFormed) (hc : m.IsCanonical) (hpos : m.NoCancelling)
    {p : Partition} (hp : p.IsDense m.numStates) (c : ValueCache RationalFunction) :
    IsCoarsest m p (refine m p c).partition.toPartition := by
  obtain ⟨-, -, hstable, href, hresp⟩ := refine_spec hw hc hp c
  exact isCoarsest_of_isStable hc hstable href (hresp hpos)

/-! ## Computing the refinement

With signatures numbered by their positions, the refinement of a given model can be computed. -/

/-- The numbers of the marked states of a block: the positions of their signatures. -/
def numberByPosition (m : Model RationalFunction) (p : MarkedPartition) (b : ℕ)
    (c : ValueCache RationalFunction) : List (ℕ × ℕ) × ValueCache RationalFunction :=
  if (p.block b).size = 1 then ([], c)
  else
    let (sigs, cache) := signatures m p.toPartition c (p.markedStates b)
    ((p.markedStates b).zip (Numbering.positions [] sigs), cache)

theorem numberMarked_totals (m : Model RationalFunction) (p : MarkedPartition) (b : ℕ)
    (c : ValueCache RationalFunction) :
    let r := p.numberMarked b (numberBySignature (totals m) p) ⟨c, .empty⟩
    (r.1, r.2.memory) = numberByPosition m p b c := by
  intro r
  simp only [r, MarkedPartition.numberMarked, numberByPosition]
  split
  · rfl
  · simp only [numberStates_totals, Numbering.lists_empty.numberAll]

/-- Splits the first block of the worklist, if there is one. -/
def advance (m : Model RationalFunction) (w : Worklist (ValueCache RationalFunction)) :
    Worklist (ValueCache RationalFunction) :=
  match w.blocks with
  | [] => w
  | b :: rest =>
    let (numbered, cache) := numberByPosition m w.partition b w.memory
    let (parts, partition) := w.partition.splitNumbered b numbered
    let (partition, blocks) :=
      parts.tail.foldl (touchPredecessors m.predecessors) (partition, rest)
    ⟨partition, blocks, cache⟩

theorem run_eq_iterate (m : Model RationalFunction) (fuel : ℕ)
    (w : Worklist (ValueCache RationalFunction)) :
    run (totals m) m.predecessors fuel w = (advance m)^[fuel] w := by
  induction fuel generalizing w with
  | zero => rfl
  | succ fuel ih =>
    rw [Function.iterate_succ_apply, run, advance]
    rcases h : w.blocks with _ | ⟨b, rest⟩
    · simp only
      rw [Function.iterate_fixed (by simp only [advance, h])]
    · simp only [ih, step, ← numberMarked_totals]

theorem refine_eq_iterate (m : Model RationalFunction) (p : Partition)
    (c : ValueCache RationalFunction) :
    refine m p c = (advance m)^[stepBound m.numStates] (start p c) :=
  run_eq_iterate m _ _

end Bisim
end MarkovCheck

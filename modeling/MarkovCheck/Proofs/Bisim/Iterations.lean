import Mathlib
import MarkovCheck.Bisim.Worklist
import MarkovCheck.Proofs.Chain.Mass
import MarkovCheck.Proofs.Chain.Predecessors
import MarkovCheck.Proofs.Interning
import MarkovCheck.Proofs.Partition.Split

/-!
# MarkovCheck.Proofs.Bisim.Iterations

The loop of the worklist refinement, for any signature function.

An iteration splits the block that it takes off the worklist, after which none of its states is marked,
and then marks predecessors of the states of the new parts. A state is marked together with its block
joining the worklist, so the worklist holds the blocks with marked states, each once, also where the
states of the block that was just split are marked again. States are marked only if there is a new
block, and there are never more blocks than states; between two new blocks the worklist shrinks. So
the number of blocks that may still arise, each with room for a full worklist, and the length of the
worklist together decrease with every iteration.

* `Queued`, `Bookkept`  — what the worklist has to do with the marks.
* `IsIteration`, `step_isIteration` — what one iteration does.
* `IsIteration.bookkept`, `IsIteration.measure_lt` — it keeps the books, and makes progress.
* `After`, `After.of_step`, `exists_after` — several iterations, and what a run consists of.
* `refineBy_worklist`   — the invariant at every iteration, and the end of the loop.
-/

namespace MarkovCheck
namespace Bisim

variable {σ : Type}

/-! ## Numbering by signatures -/

/-- Numbers are given in order, so those that are new in a list of states have no gaps. -/
theorem exists_numberStates (f : SignatureFunction σ) (p : MarkedPartition) {memory : SplitMemory σ}
    (hn : memory.numbering.Dense) (l : List ℕ) :
    ∀ e ∈ (MarkedPartition.numberStates (numberBySignature f p) memory l).1, ∀ j,
      memory.numbering.size ≤ j → j < e.2 →
        ∃ e' ∈ (MarkedPartition.numberStates (numberBySignature f p) memory l).1, e'.2 = j := by
  induction l generalizing memory with
  | nil => exact fun e he => (List.not_mem_nil he).elim
  | cons s l ih =>
    obtain ⟨hd, -, -, hnew⟩ := Numbering.number_spec hn (f p memory.memory s).1
    rw [MarkedPartition.numberStates]
    dsimp only
    intro e he j hle hlt
    rcases List.mem_cons.1 he with rfl | he
    · have := Numbering.number_le hn (f p memory.memory s).1
      exact absurd hlt (not_lt.2 (this.trans hle))
    · by_cases hj : j < (memory.numbering.number (f p memory.memory s).1).2.size
      · exact ⟨_, List.mem_cons_self, (hnew j hle hj).symm⟩
      · obtain ⟨e', he', rfl⟩ := @ih (numberBySignature f p memory s).2 hd e he j (not_lt.1 hj) hlt
        exact ⟨e', List.mem_cons_of_mem _ he', rfl⟩

theorem isGapless_numberMarked (f : SignatureFunction σ) (p q : MarkedPartition) (b : ℕ)
    (memory : σ) : MarkedPartition.IsGapless
      (p.numberMarked b (numberBySignature f q) ⟨memory, .empty⟩).1 := by
  have hempty : (⟨memory, .empty⟩ : SplitMemory σ).numbering.Dense := Numbering.dense_empty
  have hsize : (⟨memory, .empty⟩ : SplitMemory σ).numbering.size = 0 := by
    simp [Numbering.size, Numbering.empty]
  unfold MarkedPartition.numberMarked
  split
  · exact fun e he => (List.not_mem_nil he).elim
  · exact fun e he j hj => exists_numberStates f q hempty _ e he j (hsize ▸ Nat.zero_le j) hj

open MarkedPartition

variable {p q : MarkedPartition} {n b : ℕ}

/-! ## Marking predecessors -/

/-- The worklist holds the blocks with marked states, each once. -/
structure Queued (p : MarkedPartition) (blocks : List ℕ) : Prop where
  nodup : blocks.Nodup
  mem_iff : ∀ b, b ∈ blocks ↔ b < p.numBlocks ∧ (p.block b).hasMarked = true

/-- From `v` to `w`, the states in `D` were marked, and their blocks joined the worklist. -/
structure Touched (v w : MarkedPartition × List ℕ) (n : ℕ) (D : ℕ → Prop) : Prop where
  consistent : w.1.Consistent n
  queued : Queued w.1 w.2
  numBlocks_eq : w.1.numBlocks = v.1.numBlocks
  blockNumber_eq : ∀ s, w.1.blockNumber s = v.1.blockNumber s
  marked_iff : ∀ s < n, w.1.isMarked s = true ↔ v.1.isMarked s = true ∨ D s

theorem Touched.refl {w : MarkedPartition × List ℕ} (hp : w.1.Consistent n)
    (hq : Queued w.1 w.2) : Touched w w n fun _ => False :=
  ⟨hp, hq, rfl, fun _ => rfl, fun _ _ => (or_iff_left id).symm⟩

theorem Touched.trans {u v w : MarkedPartition × List ℕ} {D E F : ℕ → Prop}
    (h : Touched u v n D) (h' : Touched v w n E) (hF : ∀ s < n, F s ↔ D s ∨ E s) :
    Touched u w n F where
  consistent := h'.consistent
  queued := h'.queued
  numBlocks_eq := h'.numBlocks_eq.trans h.numBlocks_eq
  blockNumber_eq s := (h'.blockNumber_eq s).trans (h.blockNumber_eq s)
  marked_iff s hs := by rw [h'.marked_iff s hs, h.marked_iff s hs, or_assoc, hF s hs]

/-- One state is marked. -/
theorem touch_spec {w : MarkedPartition × List ℕ} (hp : w.1.Consistent n) (hq : Queued w.1 w.2)
    {s : ℕ} (hs : s < n) : Touched w (touch w s) n (· = s) := by
  obtain ⟨hcons, hcount, hnum, hmark⟩ := mark_spec hp hs
  have hb := hp.live_block s hs
  have hmarked : ∀ b < w.1.numBlocks, ((w.1.mark s).block b).hasMarked = true ↔
      (w.1.block b).hasMarked = true ∨ b = w.1.blockNumber s := by
    intro b hb
    rw [hcons.hasMarked_iff (hcount.symm ▸ hb), hp.hasMarked_iff hb]
    constructor
    · rintro ⟨t, ht, htb, htm⟩
      rw [hnum] at htb
      rcases (hmark t ht).1 htm with h | rfl
      · exact .inl ⟨t, ht, htb, h⟩
      · exact .inr htb.symm
    · rintro (⟨t, ht, htb, htm⟩ | rfl)
      · exact ⟨t, ht, (hnum t).trans htb, (hmark t ht).2 (.inl htm)⟩
      · exact ⟨s, hs, hnum s, (hmark s hs).2 (.inr rfl)⟩
  refine ⟨hcons, ⟨?_, fun b => ?_⟩, hcount, hnum, hmark⟩
  · simp only [touch]
    split
    · exact hq.nodup
    · rename_i h
      exact List.nodup_cons.2 ⟨fun hmem => h ((hq.mem_iff _).1 hmem).2, hq.nodup⟩
  · simp only [touch, hcount]
    by_cases hlt : b < w.1.numBlocks
    · rw [hmarked b hlt]
      split
      · rename_i h
        rw [hq.mem_iff]
        constructor
        · rintro ⟨h1, h2⟩
          exact ⟨h1, .inl h2⟩
        · rintro ⟨h1, h2 | rfl⟩
          · exact ⟨h1, h2⟩
          · exact ⟨h1, h⟩
      · rw [List.mem_cons, hq.mem_iff]
        tauto
    · split
      · rw [hq.mem_iff]
        simp [hlt]
      · rw [List.mem_cons, hq.mem_iff]
        constructor
        · rintro (rfl | h)
          · exact absurd hb hlt
          · exact absurd h.1 hlt
        · rintro ⟨h, -⟩
          exact absurd h hlt

theorem foldl_touch_spec {w : MarkedPartition × List ℕ} (hp : w.1.Consistent n)
    (hq : Queued w.1 w.2) {l : List ℕ} (hl : ∀ s ∈ l, s < n) :
    Touched w (l.foldl touch w) n (· ∈ l) := by
  induction l generalizing w with
  | nil => exact (Touched.refl hp hq).trans (.refl hp hq) (by simp)
  | cons s l ih =>
    rw [List.forall_mem_cons] at hl
    have h := touch_spec hp hq hl.1
    exact h.trans (ih h.consistent h.queued hl.2) fun t _ => List.mem_cons

/-- The predecessors of a list of states are marked. -/
theorem foldl_touch_predecessors {w : MarkedPartition × List ℕ} (hp : w.1.Consistent n)
    (hq : Queued w.1 w.2) {lists : Array (List ℕ)}
    (hl : ∀ t : ℕ, ∀ s ∈ lists[t]?.getD [], s < n) (l : List ℕ) :
    Touched w (l.foldl (fun w t => (lists[t]?.getD []).foldl touch w) w) n
      fun s => ∃ t ∈ l, s ∈ lists[t]?.getD [] := by
  induction l generalizing w with
  | nil => exact (Touched.refl hp hq).trans (.refl hp hq) (by simp)
  | cons t l ih =>
    have h := foldl_touch_spec hp hq (hl t)
    exact h.trans (ih h.consistent h.queued) fun s _ => by simp

/-- The predecessors of the states of several blocks are marked. -/
theorem foldl_touchPredecessors_spec {w : MarkedPartition × List ℕ} (hp : w.1.Consistent n)
    (hq : Queued w.1 w.2) {lists : Array (List ℕ)}
    (hl : ∀ t : ℕ, ∀ s ∈ lists[t]?.getD [], s < n) {blocks : List ℕ}
    (hb : ∀ b ∈ blocks, b < w.1.numBlocks) :
    Touched w (blocks.foldl (touchPredecessors lists) w) n
      fun s => ∃ t < n, w.1.blockNumber t ∈ blocks ∧ s ∈ lists[t]?.getD [] := by
  induction blocks generalizing w with
  | nil => exact (Touched.refl hp hq).trans (.refl hp hq) (by simp)
  | cons b blocks ih =>
    rw [List.forall_mem_cons] at hb
    have h : Touched w (touchPredecessors lists w b) n _ :=
      foldl_touch_predecessors hp hq hl (w.1.members b)
    refine h.trans (ih h.consistent h.queued fun c hc => h.numBlocks_eq ▸ hb.2 c hc) ?_
    intro s _
    simp only [h.blockNumber_eq, hp.mem_members hb.1, List.mem_cons]
    constructor
    · rintro ⟨t, ht, rfl | hmem, hst⟩
      · exact .inl ⟨t, ⟨ht, rfl⟩, hst⟩
      · exact .inr ⟨t, ht, hmem, hst⟩
    · rintro (⟨t, ⟨ht, rfl⟩, hst⟩ | ⟨t, ht, hmem, hst⟩)
      · exact ⟨t, ht, .inl rfl, hst⟩
      · exact ⟨t, ht, .inr hmem, hst⟩

/-! ## Splitting a block -/

/-- After a split the rest of the worklist holds the blocks with marked states. -/
theorem queued_of_isSplit {g : ℕ → ℕ} {parts rest : List ℕ} (hp : p.Consistent n)
    (hq : Queued p (b :: rest)) (h : IsSplit p q n b g parts) : Queued q rest := by
  obtain ⟨hnot, hnd⟩ := List.nodup_cons.1 hq.nodup
  refine ⟨hnd, fun c => ?_⟩
  have hmem := hq.mem_iff c
  rw [List.mem_cons] at hmem
  constructor
  · intro hc
    have hcb : c ≠ b := fun e => hnot (e ▸ hc)
    obtain ⟨hlt, hm⟩ := hmem.1 (.inr hc)
    obtain ⟨s, hs, rfl, hsm⟩ := (hp.hasMarked_iff hlt).1 hm
    obtain ⟨h1, h2⟩ := h.other s hs hcb
    have hlt' := hlt.trans_le h.le
    exact ⟨hlt', (h.consistent.hasMarked_iff hlt').2 ⟨s, hs, h1, h2.trans hsm⟩⟩
  · rintro ⟨hlt, hm⟩
    obtain ⟨s, hs, rfl, hsm⟩ := (h.consistent.hasMarked_iff hlt).1 hm
    have hsb : p.blockNumber s ≠ b := fun e => by
      rw [(h.inside s hs e).2] at hsm
      cases hsm
    obtain ⟨h1, h2⟩ := h.other s hs hsb
    rw [h1] at hmem ⊢
    have hlt := hp.live_block s hs
    exact (hmem.2 ⟨hlt, (hp.hasMarked_iff hlt).2 ⟨s, hs, rfl, h2.symm.trans hsm⟩⟩).resolve_left hsb

theorem mem_tail_iff {g : ℕ → ℕ} {parts : List ℕ} (h : IsSplit p q n b g parts) {c : ℕ} :
    c ∈ parts.tail ↔ p.numBlocks ≤ c ∧ c < q.numBlocks := by
  rw [h.parts_eq, List.tail_cons]
  simp only [List.mem_map, List.mem_range]
  constructor
  · rintro ⟨i, hi, rfl⟩
    omega
  · rintro ⟨h1, h2⟩
    exact ⟨c - p.numBlocks, by omega, by omega⟩

/-- A state that is not in a part with a new number keeps its number. -/
theorem blockNumber_of_notMem_tail {g : ℕ → ℕ} {parts : List ℕ} (h : IsSplit p q n b g parts)
    {s : ℕ} (hs : s < n) (hnot : q.blockNumber s ∉ parts.tail) :
    q.blockNumber s = p.blockNumber s := by
  by_cases hsb : p.blockNumber s = b
  · have hmem := (h.inside s hs hsb).1
    rw [h.parts_eq, List.mem_cons] at hmem
    rw [h.parts_eq, List.tail_cons] at hnot
    exact (hmem.resolve_right hnot).trans hsb.symm
  · exact (h.other s hs hsb).1

/-- States that a split leaves together were in one block. -/
theorem blockNumber_eq_of_isSplit {g : ℕ → ℕ} {parts : List ℕ} (hp : p.Consistent n)
    (h : IsSplit p q n b g parts) {s t : ℕ} (hs : s < n) (ht : t < n)
    (hst : q.blockNumber s = q.blockNumber t) : p.blockNumber s = p.blockNumber t := by
  have hparts : ∀ u < n, ∀ v < n, p.blockNumber u = b → p.blockNumber v ≠ b →
      q.blockNumber u ≠ q.blockNumber v := by
    intro u hu v hv hub hvb huv
    have hmem := (h.inside u hu hub).1
    rw [huv, (h.other v hv hvb).1, h.parts_eq, MarkedPartition.mem_parts_iff h.le] at hmem
    have := hp.live_block v hv
    rcases hmem with hmem | hmem
    · exact hvb hmem
    · omega
  by_cases hsb : p.blockNumber s = b
  · by_cases htb : p.blockNumber t = b
    · rw [hsb, htb]
    · exact absurd hst (hparts s hs t ht hsb htb)
  · by_cases htb : p.blockNumber t = b
    · exact absurd hst.symm (hparts t ht s hs htb hsb)
    · rwa [(h.other s hs hsb).1, (h.other t ht htb).1] at hst

theorem Queued.length_le {p : MarkedPartition} {blocks : List ℕ} (h : Queued p blocks) :
    blocks.length ≤ p.numBlocks := by
  have hsub : blocks.toFinset ⊆ Finset.range p.numBlocks := fun b hb =>
    Finset.mem_range.2 ((h.mem_iff b).1 (List.mem_toFinset.1 hb)).1
  have := Finset.card_le_card hsub
  rwa [List.toFinset_card_of_nodup h.nodup, Finset.card_range] at this

/-! ## One iteration -/

/-- What an iteration does: the marked states of a block are split by numbers, and the states with a
transition into a part with a new number are marked. -/
structure IsIteration (lists : Array (List ℕ)) (n b : ℕ) (w v : Worklist σ) (q : MarkedPartition)
    (g : ℕ → ℕ) (parts : List ℕ) : Prop where
  split : w.partition.IsSplit q n b g parts
  touched : Touched (q, w.blocks) (v.partition, v.blocks) n
    fun s => ∃ t < n, q.blockNumber t ∈ parts.tail ∧ s ∈ lists[t]?.getD []

/-- The arrays of the partition fit together, and the worklist holds the blocks with marked states. -/
structure Bookkept (n : ℕ) (w : Worklist σ) : Prop where
  consistent : w.partition.Consistent n
  queued : Queued w.partition w.blocks

variable {f : SignatureFunction σ} {lists : Array (List ℕ)} {w v : Worklist σ} {g : ℕ → ℕ}
  {parts : List ℕ}

/-- The step of a block that heads the worklist, by the numbers of its marked states. -/
theorem step_isIteration (hlists : ∀ t : ℕ, ∀ s ∈ lists[t]?.getD [], s < n)
    (hw : Bookkept n { w with blocks := b :: w.blocks })
    (hg : w.partition.IsNumbered b g
      (w.partition.numberMarked b (numberBySignature f w.partition) ⟨w.memory, .empty⟩).1) :
    ∃ q parts, IsIteration lists n b w (step f lists b w) q g parts := by
  obtain ⟨hb, -⟩ := (hw.queued.mem_iff b).1 List.mem_cons_self
  have hsplit := splitNumbered_spec hw.consistent hb hg
  have htouch := foldl_touchPredecessors_spec (w := (_, w.blocks)) hsplit.consistent
    (queued_of_isSplit hw.consistent hw.queued hsplit) hlists
    fun c hc => ((mem_tail_iff hsplit).1 hc).2
  exact ⟨_, _, hsplit, htouch⟩

/-- For any signature function the marked states have such numbers. -/
theorem exists_isNumbered (f : SignatureFunction σ)
    (hw : Bookkept n { w with blocks := b :: w.blocks }) :
    ∃ g, w.partition.IsNumbered b g
      (w.partition.numberMarked b (numberBySignature f w.partition) ⟨w.memory, .empty⟩).1 := by
  obtain ⟨hb, hm⟩ := (hw.queued.mem_iff b).1 List.mem_cons_self
  exact numberMarked_isNumbered hw.consistent hb hm (isGapless_numberMarked f _ _ b w.memory)

theorem IsIteration.bookkept (h : IsIteration lists n b w v q g parts) : Bookkept n v :=
  ⟨h.touched.consistent, h.touched.queued⟩

/-- Without a new block no state is marked, and the worklist stays. -/
theorem IsIteration.length_eq (h : IsIteration lists n b w v q g parts) (hq : Queued q w.blocks)
    (hcount : q.numBlocks = w.partition.numBlocks) : v.blocks.length = w.blocks.length := by
  have hnone : ∀ s < n, v.partition.isMarked s = true ↔ q.isMarked s = true := by
    intro s hs
    rw [h.touched.marked_iff s hs, or_iff_left]
    rintro ⟨t, -, hmem, -⟩
    rw [mem_tail_iff h.split] at hmem
    omega
  refine List.Perm.length_eq ((List.perm_ext_iff_of_nodup h.touched.queued.nodup hq.nodup).2 ?_)
  intro c
  rw [h.touched.queued.mem_iff, hq.mem_iff, h.touched.numBlocks_eq]
  refine and_congr_right fun hc => ?_
  have hc' := hc.trans_eq h.touched.numBlocks_eq.symm
  rw [h.touched.consistent.hasMarked_iff hc', h.split.consistent.hasMarked_iff hc]
  refine exists_congr fun s => and_congr_right fun hs => ?_
  rw [h.touched.blockNumber_eq, hnone s hs]

/-- What remains to be done: blocks that may still arise, each with room for a full worklist, and the
blocks of the worklist. -/
def measure (n : ℕ) (w : Worklist σ) : ℕ :=
  (n - w.partition.numBlocks) * (n + 1) + w.blocks.length

/-- Every iteration makes progress. -/
theorem IsIteration.measure_lt (h : IsIteration lists n b w v q g parts)
    (hw : Bookkept n { w with blocks := b :: w.blocks }) :
    measure n v < measure n { w with blocks := b :: w.blocks } := by
  have hcount : v.partition.numBlocks = q.numBlocks := h.touched.numBlocks_eq
  rcases h.split.le.eq_or_lt with heq | hlt
  · have hlen := h.length_eq (queued_of_isSplit hw.consistent hw.queued h.split) heq.symm
    simp only [measure, hcount, ← heq, hlen, List.length_cons]
    omega
  · have hle := h.touched.consistent.isDense.numBlocks_le
    have hlen := h.touched.queued.length_le
    change v.partition.numBlocks ≤ _ at hle
    simp only at hlen
    have hd : n - v.partition.numBlocks + 1 ≤ n - w.partition.numBlocks := by omega
    have hmul := Nat.mul_le_mul_right (n + 1) hd
    rw [Nat.add_mul, Nat.one_mul] at hmul
    simp only [measure, List.length_cons]
    omega

/-! ## All iterations -/

/-- The loop that starts at `w` is at `v` after `k` iterations. -/
inductive After (f : SignatureFunction σ) (lists : Array (List ℕ)) (w : Worklist σ) :
    ℕ → Worklist σ → Prop where
  | start : After f lists w 0 w
  | next {k b : ℕ} {rest : List ℕ} {p : MarkedPartition} {memory : σ} :
      After f lists w k ⟨p, b :: rest, memory⟩ →
      After f lists w (k + 1) (step f lists b ⟨p, rest, memory⟩)

/-- What every iteration keeps holds at all of them. -/
theorem After.of_step {k : ℕ} (h : After f lists w k v) {P : ℕ → Worklist σ → Prop} (hw : P 0 w)
    (hstep : ∀ k b rest p memory, P k ⟨p, b :: rest, memory⟩ →
      P (k + 1) (step f lists b ⟨p, rest, memory⟩)) : P k v := by
  induction h with
  | start => exact hw
  | next _ ih => exact hstep _ _ _ _ _ ih

theorem After.trans {u : Worklist σ} {j k : ℕ} (h : After f lists w j v) (h' : After f lists v k u) :
    After f lists w (j + k) u :=
  h'.of_step (P := fun k u => After f lists w (j + k) u) h fun _ _ _ _ _ => .next

/-- A run consists of iterations: as many as it may have, unless the worklist becomes empty before. -/
theorem exists_after (f : SignatureFunction σ) (lists : Array (List ℕ)) (fuel : ℕ)
    (w : Worklist σ) : ∃ k, After f lists w k (run f lists fuel w) ∧
      (k = fuel ∨ (run f lists fuel w).blocks = []) := by
  induction fuel generalizing w with
  | zero => exact ⟨0, .start, .inl rfl⟩
  | succ fuel ih =>
    obtain ⟨p, blocks, memory⟩ := w
    cases blocks with
    | nil => exact ⟨0, .start, .inr rfl⟩
    | cons b rest =>
      obtain ⟨k, hk, hend⟩ := ih (step f lists b ⟨p, rest, memory⟩)
      have hone : After f lists ⟨p, b :: rest, memory⟩ 1 (step f lists b ⟨p, rest, memory⟩) :=
        .next .start
      refine ⟨1 + k, hone.trans hk, hend.imp_left fun h => ?_⟩
      rw [h, Nat.add_comm]

/-- The books are kept at every iteration, and the number of iterations is bounded. -/
theorem After.bookkept {k : ℕ} (h : After f lists w k v)
    (hlists : ∀ t : ℕ, ∀ s ∈ lists[t]?.getD [], s < n) (hw : Bookkept n w) :
    Bookkept n v ∧ measure n v + k ≤ measure n w := by
  refine h.of_step (P := fun k v => Bookkept n v ∧ measure n v + k ≤ measure n w) ⟨hw, le_rfl⟩ ?_
  rintro k b rest p memory ⟨hv, hle⟩
  obtain ⟨g, hg⟩ := exists_isNumbered (w := ⟨p, rest, memory⟩) f hv
  obtain ⟨q, parts, hstep⟩ := step_isIteration (w := ⟨p, rest, memory⟩) hlists hv hg
  have hlt := hstep.measure_lt hv
  exact ⟨hstep.bookkept, by simp only at hlt; omega⟩

/-- With room for enough iterations a run ends with an empty worklist. -/
theorem run_blocks_eq_nil (hlists : ∀ t : ℕ, ∀ s ∈ lists[t]?.getD [], s < n) (hw : Bookkept n w)
    {fuel : ℕ} (hfuel : measure n w < fuel) : (run f lists fuel w).blocks = [] := by
  obtain ⟨k, hk, hend⟩ := exists_after f lists fuel w
  have := (hk.bookkept hlists hw).2
  exact hend.resolve_left (by omega)

theorem start_bookkept {p : Partition} (hp : p.IsDense n) (memory : σ) :
    Bookkept n (start p memory) ∧ measure n (start p memory) < stepBound n := by
  obtain ⟨hcons, hcount, hall⟩ := ofPartition_spec hp
  have hle := hp.numBlocks_le
  refine ⟨⟨hcons, List.nodup_range, fun b => ?_⟩, ?_⟩
  · change b ∈ List.range p.numBlocks ↔ b < (MarkedPartition.ofPartition p).numBlocks ∧ _
    rw [List.mem_range, hcount]
    refine ⟨fun hb => ⟨hb, ?_⟩, And.left⟩
    have hb' := hb.trans_eq hcount.symm
    obtain ⟨s, hs, hsb⟩ := hcons.exists_mem hb'
    exact (hcons.hasMarked_iff hb').2 ⟨s, hs, hsb, (hall s hs).2⟩
  · simp only [measure, start, hcount, List.length_range, stepBound]
    have := Nat.mul_le_mul_right (n + 1) (Nat.sub_le n p.numBlocks)
    rw [Nat.add_mul, Nat.one_mul]
    omega

/-- A block is on the worklist exactly if it has a marked state. -/
theorem Bookkept.mem_blocks_iff (hw : Bookkept n w) (b : ℕ) : b ∈ w.blocks ↔
    ∃ s < n, w.partition.blockNumber s = b ∧ w.partition.isMarked s = true := by
  rw [hw.queued.mem_iff]
  constructor
  · rintro ⟨hb, hm⟩
    exact (hw.consistent.hasMarked_iff hb).1 hm
  · rintro ⟨s, hs, rfl, hm⟩
    have hb := hw.consistent.live_block s hs
    exact ⟨hb, (hw.consistent.hasMarked_iff hb).2 ⟨s, hs, rfl, hm⟩⟩

variable {V : Type}

/-- Refining a partition without empty blocks, by any signature function. At every iteration the
worklist holds exactly the blocks with a marked state, each once, so a block that is taken off it has
a marked state. There are fewer iterations than `stepBound` says, and the refinement ends with an empty
worklist. -/
theorem refineBy_worklist (f : SignatureFunction σ) (memory : σ) (m : Model V) {p : Partition}
    (hp : p.IsDense m.numStates) :
    (∀ k w, After f m.predecessors (start p memory) k w →
      k < stepBound m.numStates ∧ w.blocks.Nodup ∧
      (∀ b, b ∈ w.blocks ↔
        ∃ s < m.numStates, w.partition.blockNumber s = b ∧ w.partition.isMarked s = true) ∧
      ∀ b rest, w.blocks = b :: rest → (w.partition.block b).hasMarked = true) ∧
    ∃ k, After f m.predecessors (start p memory) k (refineBy f m p memory) ∧
      (refineBy f m p memory).blocks = [] := by
  have hlists : ∀ t : ℕ, ∀ s ∈ m.predecessors[t]?.getD [], s < m.numStates :=
    fun _ _ => Model.predecessors_lt
  obtain ⟨hstart, hfuel⟩ := start_bookkept hp memory
  constructor
  · intro k w hk
    obtain ⟨hw, hle⟩ := hk.bookkept hlists hstart
    refine ⟨by omega, hw.queued.nodup, hw.mem_blocks_iff, fun b rest hb => ?_⟩
    exact ((hw.queued.mem_iff b).1 (hb ▸ List.mem_cons_self)).2
  · obtain ⟨k, hk, -⟩ := exists_after f m.predecessors (stepBound m.numStates) (start p memory)
    exact ⟨k, hk, run_blocks_eq_nil hlists hstart hfuel⟩

/-- The signature is the block of the state with the number of calls so far, so no two are equal. -/
def countCalls : SignatureFunction ℕ := fun p calls s => ([(p.blockNumber s, calls)], calls + 1)

/-- The single block of a coin is refined by such signatures in less than sixteen iterations. -/
theorem coin_refineBy_worklist : (Partition.single 3).IsDense coin.numStates ∧
    ∃ k < 16, After countCalls coin.predecessors (start (.single 3) 0) k
        (refineBy countCalls coin (.single 3) 0) ∧
      (refineBy countCalls coin (.single 3) 0).blocks = [] := by
  have hp : (Partition.single 3).IsDense coin.numStates := by
    constructor
    case size => rfl
    case lt => decide
    case surj => decide
  obtain ⟨hall, k, hk, hend⟩ := refineBy_worklist countCalls 0 coin hp
  exact ⟨hp, k, (hall k _ hk).1, hk, hend⟩

end Bisim
end MarkovCheck

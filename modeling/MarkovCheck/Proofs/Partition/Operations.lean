import Mathlib
import MarkovCheck.Proofs.Partition.Split

/-!
# MarkovCheck.Proofs.Partition.Operations

What holds of a marked partition after any sequence of operations.

The operations are marking a state, exchanging two blocks, and splitting a block by a partitioner. One
lemma says what an operation does: it keeps the partition consistent, marks one state, or unmarks the
states of one block. By induction on the sequence the arrays always describe an arrangement of all
states, and the marks tell the history: a state is marked when it was marked, at the latest at the
beginning, and its block has not been split since.

* `Operation`, `run`  — the operations, and the partition after a sequence of them.
* `IsArrangement`     — what the arrays of a partition have to do with each other.
* `MarkedSince`       — the history by which a state is marked.
* `apply_spec`        — what an operation does.
* `run_isArrangement` — what a sequence of operations leaves.
-/

namespace MarkovCheck
namespace MarkedPartition

/-! ## Arrangements -/

/-- The states are arranged without repetition, every state knows its place, and the blocks are ranges
of places that do not overlap and leave no gap. -/
structure IsArrangement (p : MarkedPartition) (n : ℕ) : Prop where
  states_perm : p.states.toList.Perm (List.range n)
  blockOf_size : p.blockOf.size = n
  offsetOf_size : p.offsetOf.size = n
  /-- The offsets are inverse to the arrangement. -/
  offset_eq_iff : ∀ s < n, ∀ i < n, p.offset s = i ↔ p.states[i]? = some s
  start_lt_stop : ∀ b < p.numBlocks, (p.block b).start < (p.block b).stop
  start_le_split : ∀ b < p.numBlocks, (p.block b).start ≤ (p.block b).split
  split_le_stop : ∀ b < p.numBlocks, (p.block b).split ≤ (p.block b).stop
  stop_le : ∀ b < p.numBlocks, (p.block b).stop ≤ n
  disjoint : ∀ b < p.numBlocks, ∀ c < p.numBlocks, b ≠ c →
    (p.block b).stop ≤ (p.block c).start ∨ (p.block c).stop ≤ (p.block b).start
  covered : ∀ i < n, ∃ b < p.numBlocks, p.Covers b i
  /-- The block of a state is the one whose range contains its place. -/
  blockNumber_eq_iff : ∀ s < n, ∀ b,
    p.blockNumber s = b ↔ b < p.numBlocks ∧ p.Covers b (p.offset s)

variable {p : MarkedPartition} {n : ℕ}

theorem Consistent.states_eq (hp : p.Consistent n) :
    p.states.toList = (List.range n).map p.stateAt := by
  apply List.ext_getElem
  · simp [hp.states_size]
  · intro i h1 h2
    have hi : i < p.states.size := by simpa using h1
    simp [stateAt, hi]

/-- The states are those below `n`, each at one place. -/
theorem Consistent.states_perm (hp : p.Consistent n) : p.states.toList.Perm (List.range n) := by
  have hnd : p.states.toList.Nodup := by
    rw [hp.states_eq]
    refine List.Nodup.map_on (fun i hi j hj hij => ?_) List.nodup_range
    rw [← (hp.offset_stateAt (List.mem_range.1 hi)).2, hij,
      (hp.offset_stateAt (List.mem_range.1 hj)).2]
  rw [List.perm_ext_iff_of_nodup hnd List.nodup_range]
  intro s
  rw [hp.states_eq, List.mem_map, List.mem_range]
  constructor
  · rintro ⟨i, hi, rfl⟩
    exact (hp.offset_stateAt (List.mem_range.1 hi)).1
  · exact fun hs => ⟨p.offset s, List.mem_range.2 (hp.offset_lt hs), hp.stateAt_offset hs⟩

theorem Consistent.isArrangement (hp : p.Consistent n) : p.IsArrangement n where
  states_perm := hp.states_perm
  blockOf_size := hp.blockOf_size
  offsetOf_size := hp.offsetOf_size
  offset_eq_iff s hs i hi := by
    constructor
    · rintro rfl
      exact hp.state_offset s hs
    · intro h
      have hat : p.stateAt i = s := by rw [stateAt, h, Option.getD_some]
      rw [← hat, (hp.offset_stateAt hi).2]
  start_lt_stop := hp.start_lt_stop
  start_le_split := hp.start_le_split
  split_le_stop := hp.split_le_stop
  stop_le := hp.stop_le
  disjoint b hb c hc hbc := by
    have hlt := hp.start_lt_stop b hb
    have hlt' := hp.start_lt_stop c hc
    by_contra h
    push Not at h
    -- Overlapping ranges have the later one of their starts in common.
    refine hbc (hp.disjoint b c hb hc (max (p.block b).start (p.block c).start) ?_ ?_)
    · exact ⟨le_max_left _ _, max_lt hlt h.1⟩
    · exact ⟨le_max_right _ _, max_lt h.2 hlt'⟩
  covered i hi := by
    obtain ⟨hs, ho⟩ := hp.offset_stateAt hi
    have hcov := hp.covers _ hs
    rw [ho] at hcov
    exact ⟨_, hp.live_block _ hs, hcov⟩
  blockNumber_eq_iff s hs b := by
    constructor
    · rintro rfl
      exact ⟨hp.live_block s hs, hp.covers s hs⟩
    · exact fun h => hp.blockNumber_eq hs h.1 h.2

/-! ## Operations -/

/-- The operations on a marked partition. A partitioner sees the partition, and remembers what it
likes from one state to the next. -/
inductive Operation where
  | mark (s : ℕ)
  | swap (a b : ℕ)
  | split {σ : Type} (b : ℕ) (number : MarkedPartition → σ → ℕ → ℕ × σ) (memory : σ)

namespace Operation

def apply (p : MarkedPartition) : Operation → MarkedPartition
  | mark s => p.mark s
  | swap a b => p.swapBlocks a b
  | split b number memory => (p.split b (number p) memory).2.1

/-- An operation mentions states and blocks that exist, and a split is that of a block with a marked
state, by a partitioner whose numbers have no gaps. -/
def Permitted (n : ℕ) (p : MarkedPartition) : Operation → Prop
  | mark s => s < n
  | swap a b => a < p.numBlocks ∧ b < p.numBlocks
  | split b number memory => b < p.numBlocks ∧ (p.block b).hasMarked = true ∧
      IsGapless (p.numberMarked b (number p) memory).1

/-- The operation splits the block of a state. -/
def Splits (p : MarkedPartition) (s : ℕ) : Operation → Prop
  | mark _ | swap _ _ => False
  | split b _ _ => p.blockNumber s = b

end Operation

/-- The partition after a sequence of operations. -/
def run (p : MarkedPartition) (ops : List Operation) : MarkedPartition :=
  ops.foldl Operation.apply p

theorem run_append (p : MarkedPartition) (ops ops' : List Operation) :
    run p (ops ++ ops') = run (run p ops) ops' := List.foldl_append

theorem run_concat (p : MarkedPartition) (ops : List Operation) (op : Operation) :
    run p (ops ++ [op]) = op.apply (run p ops) := run_append p ops [op]

/-- Every operation is permitted when its turn comes. -/
def AllPermitted (n : ℕ) (p : MarkedPartition) : List Operation → Prop
  | [] => True
  | op :: ops => op.Permitted n p ∧ AllPermitted n (op.apply p) ops

theorem allPermitted_concat {ops : List Operation} {op : Operation} :
    AllPermitted n p (ops ++ [op]) ↔ AllPermitted n p ops ∧ op.Permitted n (run p ops) := by
  induction ops generalizing p with
  | nil => simp [AllPermitted, run]
  | cons first ops ih =>
    rw [List.cons_append, AllPermitted, ih, AllPermitted, and_assoc]
    rfl

/-- An operation keeps a partition consistent. It marks the state that it says, and unmarks the states
of the block that it splits. -/
theorem apply_spec (hp : p.Consistent n) {op : Operation} (h : op.Permitted n p) :
    (op.apply p).Consistent n ∧ ∀ s < n, (op.apply p).isMarked s = true ↔
      op = .mark s ∨ p.isMarked s = true ∧ ¬ op.Splits p s := by
  cases op with
  | mark t =>
    obtain ⟨hcons, -, -, hmark⟩ := mark_spec hp (show t < n from h)
    refine ⟨hcons, fun s hs => ?_⟩
    rw [Operation.apply, hmark s hs, Operation.mark.injEq, eq_comm (a := t)]
    simp only [Operation.Splits, not_false_eq_true, and_true]
    exact or_comm
  | swap a b =>
    refine ⟨hp.swapBlocks h.1 h.2, fun s hs => ?_⟩
    rw [Operation.apply, swapBlocks_isMarked hp h.1 h.2 hs]
    simp [Operation.Splits]
  | split b number memory =>
    obtain ⟨hb, hm, hgapless⟩ := h
    obtain ⟨g, hnum⟩ := numberMarked_isNumbered hp hb hm hgapless
    have hsplit := splitNumbered_spec hp hb hnum
    rw [Operation.apply, split_eq]
    refine ⟨hsplit.consistent, fun s hs => ?_⟩
    simp only [reduceCtorEq, false_or, Operation.Splits]
    by_cases hsb : p.blockNumber s = b
    · simp [(hsplit.inside s hs hsb).2, hsb]
    · simp [(hsplit.other s hs hsb).2, hsb]

/-! ## Histories -/

/-- The state was marked, as all states are at the beginning, and none of the operations since then
split the block that it was in. -/
def MarkedSince (p : MarkedPartition) (ops : List Operation) (s : ℕ) : Prop :=
  ∃ before since, ops = before ++ since ∧
    (before = [] ∨ ∃ earlier, before = earlier ++ [.mark s]) ∧
    ∀ between op rest, since = between ++ op :: rest → ¬ op.Splits (run p (before ++ between)) s

theorem markedSince_nil (p : MarkedPartition) (s : ℕ) : MarkedSince p [] s :=
  ⟨[], [], rfl, .inl rfl, fun between op rest h => by simp at h⟩

theorem markedSince_concat {ops : List Operation} {op : Operation} {s : ℕ} :
    MarkedSince p (ops ++ [op]) s ↔
      op = .mark s ∨ MarkedSince p ops s ∧ ¬ op.Splits (run p ops) s := by
  constructor
  · rintro ⟨before, since, heq, hmark, hno⟩
    rcases since.eq_nil_or_concat with rfl | ⟨since, last, rfl⟩
    · -- The state was marked by the last operation.
      rw [List.append_nil] at heq
      rcases hmark with rfl | ⟨earlier, rfl⟩
      · simp at heq
      · exact .inl (List.append_inj_right' heq rfl |> List.singleton_inj.1)
    · rw [List.concat_eq_append, ← List.append_assoc] at heq
      rw [List.concat_eq_append] at hno
      obtain ⟨rfl, hlast⟩ := List.append_inj' heq rfl
      obtain rfl := List.singleton_inj.1 hlast
      refine .inr ⟨⟨before, since, rfl, hmark, fun between op' rest h => ?_⟩, ?_⟩
      · exact hno between op' (rest ++ [op]) (by rw [h, List.append_assoc, List.cons_append])
      · exact hno since op [] rfl
  · rintro (rfl | ⟨⟨before, since, rfl, hmark, hno⟩, hlast⟩)
    · exact ⟨ops ++ [.mark s], [], by rw [List.append_nil], .inr ⟨ops, rfl⟩,
        fun between op' rest h => by simp at h⟩
    · refine ⟨before, since ++ [op], List.append_assoc .., hmark, fun between op' rest h => ?_⟩
      rcases rest.eq_nil_or_concat with rfl | ⟨rest, last, rfl⟩
      · obtain ⟨rfl, hop⟩ := List.append_inj' h rfl
        obtain rfl := List.singleton_inj.1 hop
        exact hlast
      · rw [List.concat_eq_append, ← List.cons_append, ← List.append_assoc] at h
        exact hno between op' rest (List.append_inj' h rfl).1

/-- A sequence of operations keeps a partition consistent, and changes the marks of its states as the
history says. -/
theorem run_spec (hp : p.Consistent n) (hmarked : ∀ s < n, p.isMarked s = true)
    {ops : List Operation} (h : AllPermitted n p ops) :
    (run p ops).Consistent n ∧ ∀ s < n, (run p ops).isMarked s = true ↔ MarkedSince p ops s := by
  induction ops using List.reverseRecOn with
  | nil => exact ⟨hp, fun s hs => iff_of_true (hmarked s hs) (markedSince_nil p s)⟩
  | append_singleton ops op ih =>
    rw [allPermitted_concat] at h
    obtain ⟨hcons, hmark⟩ := ih h.1
    obtain ⟨hcons', hmark'⟩ := apply_spec hcons h.2
    rw [run_concat]
    refine ⟨hcons', fun s hs => ?_⟩
    rw [hmark' s hs, hmark s hs, markedSince_concat]

/-- After any sequence of operations on a partition without empty blocks, of which all states are marked
at first: the arrays describe an arrangement of all states in blocks, and a state is marked exactly if
it was marked and its block has not been split since. -/
theorem run_isArrangement {q : Partition} (hq : q.IsDense n) {ops : List Operation}
    (h : AllPermitted n (ofPartition q) ops) :
    (run (ofPartition q) ops).IsArrangement n ∧ ∀ s < n,
      (run (ofPartition q) ops).isMarked s = true ↔ MarkedSince (ofPartition q) ops s := by
  obtain ⟨hcons, -, hstart⟩ := ofPartition_spec hq
  obtain ⟨hrun, hmark⟩ := run_spec hcons (fun s hs => (hstart s hs).2) h
  exact ⟨hrun.isArrangement, hmark⟩

/-- Splits off the marked states of a block, all together. -/
def splitOff (b : ℕ) : Operation := .split b (fun _ _ _ => (0, ())) ()

/-- Two blocks, of which the first is split twice: state 2, marked in between, leaves it. -/
def leaveTwo : List Operation := [splitOff 0, .mark 2, .swap 0 1, splitOff 1, .mark 0]

theorem leaveTwo_allPermitted : AllPermitted 5 (ofPartition ⟨#[0, 1, 0, 0, 1], 2⟩) leaveTwo := by
  refine ⟨⟨?_, ?_, ?_⟩, ?_, ?_, ⟨?_, ?_, ?_⟩, ?_, trivial⟩ <;> cbv <;> decide

/-- The marks of states 2 and 3 end with the splits; state 4 is in the other block, and state 0 is
marked again. -/
theorem leaveTwo_run_isArrangement :
    (run (ofPartition ⟨#[0, 1, 0, 0, 1], 2⟩) leaveTwo).IsArrangement 5 ∧
      MarkedSince (ofPartition ⟨#[0, 1, 0, 0, 1], 2⟩) leaveTwo 4 ∧
      ¬ MarkedSince (ofPartition ⟨#[0, 1, 0, 0, 1], 2⟩) leaveTwo 2 ∧
      MarkedSince (ofPartition ⟨#[0, 1, 0, 0, 1], 2⟩) leaveTwo 0 := by
  obtain ⟨harr, hmark⟩ := run_isArrangement (n := 5) (q := ⟨#[0, 1, 0, 0, 1], 2⟩)
    ⟨by decide, by decide, by decide⟩ leaveTwo_allPermitted
  refine ⟨harr, (hmark 4 (by decide)).1 ?_, (hmark 2 (by decide)).not.1 ?_,
    (hmark 0 (by decide)).1 ?_⟩
  · cbv
  · rw [Bool.not_eq_true]
    cbv
  · cbv

end MarkedPartition
end MarkovCheck

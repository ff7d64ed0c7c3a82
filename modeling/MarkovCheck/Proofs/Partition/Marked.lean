import Mathlib
import MarkovCheck.Proofs.Partition.Arrangement

/-!
# MarkovCheck.Proofs.Partition.Marked

What marking a state and exchanging two blocks do to a consistent partition.

The arrays are left behind here: the results speak about the block of every state, the number of
blocks, and which states are marked.

* `moveBorder`      — two states of a block exchange places, and the border of the marked ones moves.
* `mark_spec`       — one more state is marked, and nothing else changes.
* `swapBlocks_spec` — two blocks exchange their numbers.
-/

namespace MarkovCheck
namespace MarkedPartition

variable {p : MarkedPartition} {n : ℕ}

/-! ## Marking -/

theorem block_setBlock_self {b : ℕ} (hb : b < p.numBlocks) (blk : Block) :
    (p.setBlock b blk).block b = blk := by
  rw [block, setBlock, Array.getElem?_setIfInBounds_self_of_lt hb, Option.getD_some]

theorem block_setBlock_ne (p : MarkedPartition) {b c : ℕ} (h : c ≠ b) (blk : Block) :
    (p.setBlock b blk).block c = p.block c := by
  rw [block, setBlock, Array.getElem?_setIfInBounds_ne h.symm, block]

theorem numBlocks_setBlock (p : MarkedPartition) (b : ℕ) (blk : Block) :
    (p.setBlock b blk).numBlocks = p.numBlocks := by
  simp [numBlocks, setBlock]

theorem isMarked_iff {s : ℕ} :
    p.isMarked s = true ↔ (p.block (p.blockNumber s)).split ≤ p.offset s := by
  rw [isMarked, decide_eq_true_eq]

theorem Consistent.offset_inj (hp : p.Consistent n) {s t : ℕ} (hs : s < n) (ht : t < n)
    (h : p.offset s = p.offset t) : s = t := by
  rw [← hp.stateAt_offset hs, h, hp.stateAt_offset ht]

/-- Moving states within their blocks, and moving the borders between unmarked and marked states,
keeps a partition consistent. -/
theorem Consistent.rearrange (hp : p.Consistent n) {q : MarkedPartition}
    (hstates : q.states.size = n) (hoffsets : q.offsetOf.size = n) (hnum : q.blockOf = p.blockOf)
    (hcount : q.numBlocks = p.numBlocks)
    (hrange : ∀ b, (q.block b).start = (p.block b).start ∧ (q.block b).stop = (p.block b).stop)
    (hsplit : ∀ b < p.numBlocks,
      (p.block b).start ≤ (q.block b).split ∧ (q.block b).split ≤ (p.block b).stop)
    (hplace : ∀ s < n, q.states[q.offset s]? = some s ∧ p.Covers (p.blockNumber s) (q.offset s)) :
    q.Consistent n := by
  have hblock : ∀ s, q.blockNumber s = p.blockNumber s := fun s => by
    rw [blockNumber, hnum, blockNumber]
  have hcovers : ∀ b i, q.Covers b i ↔ p.Covers b i := fun b i => by
    rw [Covers, (hrange b).1, (hrange b).2, Covers]
  constructor
  case states_size => exact hstates
  case blockOf_size => rw [hnum, hp.blockOf_size]
  case offsetOf_size => exact hoffsets
  case live_lt => exact fun b hb => hb
  case start_le_split => exact fun b hb => (hrange b).1 ▸ (hsplit b (hcount ▸ hb)).1
  case split_le_stop => exact fun b hb => (hrange b).2 ▸ (hsplit b (hcount ▸ hb)).2
  case start_lt_stop =>
    intro b hb
    rw [(hrange b).1, (hrange b).2]
    exact hp.start_lt_stop b (hcount ▸ hb)
  case stop_le => exact fun b hb => (hrange b).2 ▸ hp.stop_le b (hcount ▸ hb)
  case disjoint =>
    intro b c hb hc i hbi hci
    rw [hcovers] at hbi hci
    exact hp.disjoint b c (hcount ▸ hb) (hcount ▸ hc) i hbi hci
  case settled_lt => exact fun s hs => hs
  case state_offset => exact fun s hs => (hplace s hs).1
  case live_block =>
    intro s hs
    rw [hblock, hcount]
    exact hp.live_block s hs
  case covers =>
    intro s hs
    rw [hblock, hcovers]
    exact (hplace s hs).2

/-- Two states exchange their places. -/
theorem swapStates_spec (hp : p.Consistent n) {s t : ℕ} (hs : s < n) (ht : t < n) :
    (∀ u, (p.swapStates (p.offset s) (p.offset t)).offset u = p.offset (Equiv.swap s t u)) ∧
      ∀ u < n, (p.swapStates (p.offset s) (p.offset t)).states[p.offset (Equiv.swap s t u)]? =
        some u := by
  have hstates : (p.swapStates (p.offset s) (p.offset t)).states =
      (p.states.setIfInBounds (p.offset s) t).setIfInBounds (p.offset t) s := by
    change (p.states.setIfInBounds _ (p.stateAt _)).setIfInBounds _ (p.stateAt _) = _
    rw [hp.stateAt_offset hs, hp.stateAt_offset ht]
  have hoffsets : (p.swapStates (p.offset s) (p.offset t)).offsetOf =
      (p.offsetOf.setIfInBounds t (p.offset s)).setIfInBounds s (p.offset t) := by
    change (p.offsetOf.setIfInBounds (p.stateAt _) _).setIfInBounds (p.stateAt _) _ = _
    rw [hp.stateAt_offset hs, hp.stateAt_offset ht]
  have hso := (hp.offset_lt hs).trans_eq hp.states_size.symm
  have hto := (hp.offset_lt ht).trans_eq hp.states_size.symm
  refine ⟨fun u => ?_, fun u hu => ?_⟩
  · rw [MarkedPartition.offset, hoffsets]
    by_cases hus : u = s
    · rw [hus, Equiv.swap_apply_left,
        Array.getElem?_setIfInBounds_self_of_lt (by simpa [hp.offsetOf_size] using hs),
        Option.getD_some]
    · rw [Array.getElem?_setIfInBounds_ne (Ne.symm hus)]
      by_cases hut : u = t
      · rw [hut, Equiv.swap_apply_right,
          Array.getElem?_setIfInBounds_self_of_lt (by simpa [hp.offsetOf_size] using ht),
          Option.getD_some]
      · rw [Array.getElem?_setIfInBounds_ne (Ne.symm hut), Equiv.swap_apply_of_ne_of_ne hus hut,
          MarkedPartition.offset]
  · rw [hstates]
    by_cases hus : u = s
    · rw [hus, Equiv.swap_apply_left, Array.getElem?_setIfInBounds_self_of_lt (by simpa using hto)]
    · by_cases hut : u = t
      · have hne : p.offset t ≠ p.offset s := fun h => hus (hut.trans (hp.offset_inj ht hs h))
        rw [hut, Equiv.swap_apply_right, Array.getElem?_setIfInBounds_ne hne,
          Array.getElem?_setIfInBounds_self_of_lt (by simpa using hso)]
      · rw [Equiv.swap_apply_of_ne_of_ne hus hut,
          Array.getElem?_setIfInBounds_ne fun h => hut (hp.offset_inj hu ht h.symm),
          Array.getElem?_setIfInBounds_ne fun h => hus (hp.offset_inj hu hs h.symm)]
        exact hp.state_offset u hu

/-- The block of an unmarked state has a last unmarked state. -/
theorem Consistent.exists_last (hp : p.Consistent n) {s : ℕ} (hs : s < n)
    (hm : ¬ p.isMarked s = true) :
    ∃ t < n, p.blockNumber t = p.blockNumber s ∧ p.offset s ≤ p.offset t ∧
      p.offset t + 1 = (p.block (p.blockNumber s)).split := by
  rw [isMarked_iff, not_le] at hm
  have hb := hp.live_block s hs
  have h0 := (hp.covers s hs).1
  have h1 := hp.split_le_stop _ hb
  have h2 := hp.stop_le _ hb
  obtain ⟨ht, hoff⟩ := hp.offset_stateAt
    (show (p.block (p.blockNumber s)).split - 1 < n by omega)
  refine ⟨_, ht, hp.blockNumber_eq ht hb ?_, by omega, by omega⟩
  rw [hoff]
  exact ⟨by omega, by omega⟩

/-- Two states exchange their places, and the marked states of their block start with the place that
the second one had. -/
def moveBorder (p : MarkedPartition) (s t : ℕ) : MarkedPartition :=
  (p.swapStates (p.offset s) (p.offset t)).setBlock (p.blockNumber s)
    { p.block (p.blockNumber s) with split := p.offset t }

/-- A state is marked by an exchange with the last unmarked one. -/
theorem mark_eq_moveBorder {s t : ℕ} (hm : ¬ p.isMarked s = true)
    (hsplit : p.offset t + 1 = (p.block (p.blockNumber s)).split) :
    p.mark s = p.moveBorder s t := by
  rw [mark, if_neg hm, moveBorder]
  simp only [← hsplit, Nat.add_sub_cancel]

theorem moveBorder_numBlocks (p : MarkedPartition) (s t : ℕ) :
    (p.moveBorder s t).numBlocks = p.numBlocks := numBlocks_setBlock _ _ _

theorem moveBorder_block_ne (p : MarkedPartition) {s t c : ℕ} (hc : c ≠ p.blockNumber s) :
    (p.moveBorder s t).block c = p.block c := block_setBlock_ne _ hc _

theorem moveBorder_block_self {s t : ℕ} (hb : p.blockNumber s < p.numBlocks) :
    (p.moveBorder s t).block (p.blockNumber s) =
      { p.block (p.blockNumber s) with split := p.offset t } :=
  block_setBlock_self (p := p.swapStates (p.offset s) (p.offset t)) hb _

theorem blockNumber_swap {s t : ℕ} (h : p.blockNumber t = p.blockNumber s) (u : ℕ) :
    p.blockNumber (Equiv.swap s t u) = p.blockNumber u := by
  rw [Equiv.swap_apply_def]
  split_ifs with hus hut
  · rw [hus, h]
  · rw [hut, h]
  · rfl

section MoveBorder

variable (hp : p.Consistent n) {s t : ℕ} (hs : s < n) (ht : t < n)
  (htb : p.blockNumber t = p.blockNumber s)
include hp hs ht

theorem moveBorder_offset (u : ℕ) : (p.moveBorder s t).offset u = p.offset (Equiv.swap s t u) :=
  (swapStates_spec hp hs ht).1 u

include htb

theorem Consistent.moveBorder : (p.moveBorder s t).Consistent n := by
  have hself := moveBorder_block_self (t := t) (hp.live_block s hs)
  refine hp.rearrange ?_ ?_ rfl (moveBorder_numBlocks p s t) ?_ ?_ ?_
  · simp [MarkedPartition.moveBorder, setBlock, swapStates, hp.states_size]
  · simp [MarkedPartition.moveBorder, setBlock, swapStates, hp.offsetOf_size]
  · intro c
    by_cases hc : c = p.blockNumber s
    · rw [hc, hself]
      exact ⟨rfl, rfl⟩
    · rw [moveBorder_block_ne p hc]
      exact ⟨rfl, rfl⟩
  · intro c hc
    by_cases hcb : c = p.blockNumber s
    · rw [hcb, hself, ← htb]
      have hcov := hp.covers t ht
      exact ⟨hcov.1, hcov.2.le⟩
    · rw [moveBorder_block_ne p hcb]
      exact ⟨hp.start_le_split c hc, hp.split_le_stop c hc⟩
  · intro u hu
    have hswap : Equiv.swap s t u < n := by
      rw [Equiv.swap_apply_def]
      split_ifs <;> assumption
    rw [moveBorder_offset hp hs ht]
    exact ⟨(swapStates_spec hp hs ht).2 u hu, blockNumber_swap htb u ▸ hp.covers _ hswap⟩

/-- When the border moves by one place, one more state is marked. -/
theorem moveBorder_isMarked (hle : p.offset s ≤ p.offset t)
    (hsplit : p.offset t + 1 = (p.block (p.blockNumber s)).split) {u : ℕ} (hu : u < n) :
    (p.moveBorder s t).isMarked u = true ↔ p.isMarked u = true ∨ u = s := by
  rw [isMarked_iff, isMarked_iff, moveBorder_offset hp hs ht]
  change ((p.moveBorder s t).block (p.blockNumber u)).split ≤ _ ↔ _
  by_cases hub : p.blockNumber u = p.blockNumber s
  · rw [hub, moveBorder_block_self (hp.live_block s hs), ← hsplit]
    change p.offset t ≤ _ ↔ _
    by_cases hus : u = s
    · rw [hus, Equiv.swap_apply_left]
      simp
    · rw [or_iff_left hus]
      by_cases hut : u = t
      · have hne : p.offset s ≠ p.offset t := fun h =>
          hus (hut.trans (hp.offset_inj hs ht h).symm)
        rw [hut, Equiv.swap_apply_right]
        omega
      · have hne : p.offset u ≠ p.offset t := fun h => hut (hp.offset_inj hu ht h)
        rw [Equiv.swap_apply_of_ne_of_ne hus hut]
        omega
  · have hus : u ≠ s := fun h => hub (h ▸ rfl)
    have hut : u ≠ t := fun h => hub (h ▸ htb)
    rw [moveBorder_block_ne p hub, Equiv.swap_apply_of_ne_of_ne hus hut, or_iff_left hus]

end MoveBorder

/-- One more state is marked, and nothing else changes. -/
theorem mark_spec (hp : p.Consistent n) {s : ℕ} (hs : s < n) :
    (p.mark s).Consistent n ∧ (p.mark s).numBlocks = p.numBlocks ∧
      (∀ t, (p.mark s).blockNumber t = p.blockNumber t) ∧
      ∀ t < n, (p.mark s).isMarked t = true ↔ p.isMarked t = true ∨ t = s := by
  by_cases hm : p.isMarked s = true
  · rw [mark, if_pos hm]
    refine ⟨hp, rfl, fun _ => rfl, fun t _ => ⟨.inl, ?_⟩⟩
    rintro (h | rfl)
    · exact h
    · exact hm
  · obtain ⟨t, ht, htb, hle, hsplit⟩ := hp.exists_last hs hm
    rw [mark_eq_moveBorder hm hsplit]
    exact ⟨hp.moveBorder hs ht htb, moveBorder_numBlocks p s t, fun _ => rfl,
      fun u hu => moveBorder_isMarked hp hs ht htb hle hsplit hu⟩

/-! ## Exchanging two blocks -/

theorem foldl_setIfInBounds_size (l : List ℕ) (b : ℕ) (blockOf : Array ℕ) :
    (l.foldl (fun a s => a.setIfInBounds s b) blockOf).size = blockOf.size := by
  induction l generalizing blockOf with
  | nil => rfl
  | cons t l ih => rw [List.foldl_cons, ih, Array.size_setIfInBounds]

theorem foldl_setIfInBounds_of_notMem {l : List ℕ} {s : ℕ} (h : s ∉ l) (b : ℕ)
    (blockOf : Array ℕ) :
    (l.foldl (fun a s => a.setIfInBounds s b) blockOf)[s]? = blockOf[s]? := by
  induction l generalizing blockOf with
  | nil => rfl
  | cons t l ih =>
    rw [List.mem_cons, not_or] at h
    rw [List.foldl_cons, ih h.2, Array.getElem?_setIfInBounds_ne (Ne.symm h.1)]

theorem foldl_setIfInBounds_of_mem {l : List ℕ} {s : ℕ} (h : s ∈ l) (b : ℕ)
    {blockOf : Array ℕ} (hs : s < blockOf.size) :
    (l.foldl (fun a s => a.setIfInBounds s b) blockOf)[s]? = some b := by
  induction l generalizing blockOf with
  | nil => cases h
  | cons t l ih =>
    rw [List.foldl_cons]
    by_cases hl : s ∈ l
    · exact ih hl (by simpa using hs)
    · obtain rfl : s = t := by
        rcases List.mem_cons.1 h with h | h
        · exact h
        · exact absurd h hl
      rw [foldl_setIfInBounds_of_notMem hl, Array.getElem?_setIfInBounds_self_of_lt hs]

theorem renameStates_of_mem {b s : ℕ} (h : s ∈ p.members b) (hs : s < p.blockOf.size) :
    (p.renameStates b).blockNumber s = b := by
  rw [blockNumber, renameStates, foldl_setIfInBounds_of_mem h b hs, Option.getD_some]

theorem renameStates_of_notMem {b s : ℕ} (h : s ∉ p.members b) :
    (p.renameStates b).blockNumber s = p.blockNumber s := by
  rw [blockNumber, renameStates, foldl_setIfInBounds_of_notMem h, blockNumber]

theorem renameStates_size (p : MarkedPartition) (b : ℕ) :
    (p.renameStates b).blockOf.size = p.blockOf.size := foldl_setIfInBounds_size _ _ _

/-- Two blocks exchange their numbers, and nothing else changes. -/
theorem swapBlocks_spec (hp : p.Consistent n) {a b : ℕ} (ha : a < p.numBlocks)
    (hb : b < p.numBlocks) :
    (p.swapBlocks a b).numBlocks = p.numBlocks ∧
      (∀ c, (p.swapBlocks a b).block c = p.block (Equiv.swap a b c)) ∧
      (∀ s < n, (p.swapBlocks a b).blockNumber s = Equiv.swap a b (p.blockNumber s)) ∧
      (p.swapBlocks a b).states = p.states ∧ (p.swapBlocks a b).offsetOf = p.offsetOf ∧
      (p.swapBlocks a b).blockOf.size = n := by
  by_cases hab : a = b
  · rw [swapBlocks, if_pos hab, hab, Equiv.swap_self]
    exact ⟨rfl, fun _ => rfl, fun _ _ => rfl, rfl, rfl, hp.blockOf_size⟩
  set q := (p.setBlock a (p.block b)).setBlock b (p.block a) with hq
  have hdef : p.swapBlocks a b = (q.renameStates a).renameStates b := by
    rw [swapBlocks, if_neg hab]
  have ha' : a < (p.setBlock a (p.block b)).numBlocks := by rwa [numBlocks_setBlock]
  have hb' : b < (p.setBlock a (p.block b)).numBlocks := by rwa [numBlocks_setBlock]
  have hblock : ∀ c, q.block c = p.block (Equiv.swap a b c) := fun c => by
    by_cases hcb : c = b
    · rw [hcb, Equiv.swap_apply_right, hq, block_setBlock_self hb']
    · rw [hq, block_setBlock_ne _ hcb]
      by_cases hca : c = a
      · rw [hca, Equiv.swap_apply_left, block_setBlock_self ha]
      · rw [Equiv.swap_apply_of_ne_of_ne hca hcb, block_setBlock_ne _ hca]
  -- The ranges are exchanged first, so renaming the states of one block is that of the other one.
  have hmema : q.members a = p.members b := by
    rw [members, hblock, Equiv.swap_apply_left]
    rfl
  have hmemb : (q.renameStates a).members b = p.members a := by
    change q.members b = _
    rw [members, hblock, Equiv.swap_apply_right]
    rfl
  refine ⟨?_, ?_, ?_, ?_, ?_, ?_⟩
  · rw [hdef]
    change q.numBlocks = _
    rw [hq, numBlocks_setBlock, numBlocks_setBlock]
  · intro c
    rw [hdef]
    exact hblock c
  · intro s hs
    have hsize : s < q.blockOf.size := hs.trans_eq hp.blockOf_size.symm
    have hsize' : s < (q.renameStates a).blockOf.size := hsize.trans_eq (renameStates_size q a).symm
    rw [hdef]
    by_cases hsa : p.blockNumber s = a
    · rw [renameStates_of_mem (hmemb ▸ (hp.mem_members ha).2 ⟨hs, hsa⟩) hsize', hsa,
        Equiv.swap_apply_left]
    · rw [renameStates_of_notMem fun h => hsa ((hp.mem_members ha).1 (hmemb ▸ h)).2]
      by_cases hsb : p.blockNumber s = b
      · rw [renameStates_of_mem (hmema ▸ (hp.mem_members hb).2 ⟨hs, hsb⟩) hsize, hsb,
          Equiv.swap_apply_right]
      · rw [renameStates_of_notMem fun h => hsb ((hp.mem_members hb).1 (hmema ▸ h)).2,
          Equiv.swap_apply_of_ne_of_ne hsa hsb]
        rfl
  · rw [hdef]
    rfl
  · rw [hdef]
    rfl
  · rw [hdef, renameStates_size, renameStates_size]
    exact hp.blockOf_size

/-- Exchanging two numbers keeps a partition consistent. -/
theorem Consistent.swapBlocks (hp : p.Consistent n) {a b : ℕ} (ha : a < p.numBlocks)
    (hb : b < p.numBlocks) : (p.swapBlocks a b).Consistent n := by
  obtain ⟨hcount, hblock, hnum, hstates, hoffsets, hsize⟩ := swapBlocks_spec hp ha hb
  have hlt : ∀ c, c < (p.swapBlocks a b).numBlocks → Equiv.swap a b c < p.numBlocks := by
    intro c hc
    rw [hcount] at hc
    rw [Equiv.swap_apply_def]
    split_ifs <;> assumption
  have hoff : ∀ s, (p.swapBlocks a b).offset s = p.offset s := fun s => by
    rw [MarkedPartition.offset, hoffsets, MarkedPartition.offset]
  constructor
  case states_size => rw [hstates, hp.states_size]
  case blockOf_size => exact hsize
  case offsetOf_size => rw [hoffsets, hp.offsetOf_size]
  case live_lt => exact fun c hc => hc
  case start_le_split => exact fun c hc => hblock c ▸ hp.start_le_split _ (hlt c hc)
  case split_le_stop => exact fun c hc => hblock c ▸ hp.split_le_stop _ (hlt c hc)
  case start_lt_stop => exact fun c hc => hblock c ▸ hp.start_lt_stop _ (hlt c hc)
  case stop_le => exact fun c hc => hblock c ▸ hp.stop_le _ (hlt c hc)
  case disjoint =>
    intro c d hc hd i hci hdi
    rw [Covers, hblock] at hci hdi
    exact (Equiv.swap a b).injective (hp.disjoint _ _ (hlt c hc) (hlt d hd) i hci hdi)
  case settled_lt => exact fun s hs => hs
  case state_offset =>
    intro s hs
    rw [hoff, hstates]
    exact hp.state_offset s hs
  case live_block =>
    intro s hs
    rw [hnum s hs, hcount, Equiv.swap_apply_def]
    have := hp.live_block s hs
    split_ifs <;> assumption
  case covers =>
    intro s hs
    rw [hnum s hs, hoff, Covers, hblock, Equiv.swap_apply_self]
    exact hp.covers s hs

theorem swapBlocks_isMarked (hp : p.Consistent n) {a b s : ℕ} (ha : a < p.numBlocks)
    (hb : b < p.numBlocks) (hs : s < n) : (p.swapBlocks a b).isMarked s = p.isMarked s := by
  obtain ⟨-, hblock, hnum, -, hoffsets, -⟩ := swapBlocks_spec hp ha hb
  rw [isMarked, hnum s hs, hblock, Equiv.swap_apply_self, MarkedPartition.offset, hoffsets,
    isMarked, MarkedPartition.offset]

end MarkedPartition
end MarkovCheck

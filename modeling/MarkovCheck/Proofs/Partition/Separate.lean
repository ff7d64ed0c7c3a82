import Mathlib
import MarkovCheck.Proofs.Partition.Marked

/-!
# MarkovCheck.Proofs.Partition.Separate

The marked states of a block become blocks of their own.

The numbered states are laid out again inside the range of their block: behind the unmarked states,
or from the start of the block when all its states are marked. By `Distribution` this is the same as
placing the parts of the numbers one by one, which keeps the partition consistent and touches no
other block.

* `partNumber`            — the number of the block that a part becomes.
* `separate_eq`           — separating numbered states is separating the parts of the numbers.
* `appendParts_isExtended` — laying out parts behind what is left of a block.
* `separate_spec`         — the parts are blocks, and nothing else changes.
-/

namespace MarkovCheck
namespace MarkedPartition

variable {p : MarkedPartition} {n : ℕ}

/-! ## Parts by number -/

/-- The number of the `j`-th part of the marked states of a block: new, unless the block has no
other states left and its number goes to the first part. -/
def partNumber (p : MarkedPartition) (b j : ℕ) : ℕ :=
  if (p.block b).hasUnmarked then p.numBlocks + j
  else if j = 0 then b
  else p.numBlocks + (j - 1)

/-- Separates a block into its unmarked states and the given parts of its marked states, of which the
first takes the number of the block if no state is unmarked. -/
def separateParts (p : MarkedPartition) (b : ℕ) (parts : List (List ℕ)) : MarkedPartition :=
  let block := p.block b
  if block.hasUnmarked then
    appendParts .unmarked (p.setBlock b (.unmarked block.start block.split)) block.split parts
  else
    match parts with
    | [] => p
    | first :: rest =>
      let stop := block.start + first.length
      appendParts .unmarked ((p.place b block.start first).setBlock b (.unmarked block.start stop))
        stop rest

/-- Behind the first part, the ranges of parts are those of new blocks. -/
theorem layOut_openPart (b : ℕ) (block : Block) (blocks : Array Block) {stop : ℕ} (h : 0 < stop)
    (sizes : List ℕ) : layOut (openPart b block) blocks stop sizes =
      layOut (appendBlock .unmarked) blocks stop sizes := by
  induction sizes generalizing blocks stop with
  | nil => rfl
  | cons size sizes ih =>
    have hopen : openPart b block blocks stop size = appendBlock .unmarked blocks stop size :=
      if_neg h.ne'
    rw [layOut, layOut, hopen]
    simp only [appendBlock, ih _ (Nat.lt_add_right size h)]

/-- Separating numbered states lays out ranges and moves the states into them. -/
theorem separate_eq_distribute {b : ℕ} (hb : b < p.numBlocks) {numbered : List (ℕ × ℕ)}
    {parts : List (List ℕ)} (hparts : collect (countParts numbered) numbered = parts) :
    p.separate b numbered = distribute (p.partNumber b)
      (p.withBlocks (layOut (openPart b (p.block b)) p.blocks 0 (parts.map List.length)).2)
      (layOut (openPart b (p.block b)) p.blocks 0 (parts.map List.length)).1.toArray numbered := by
  have hsizes : (countNumbers #[] numbered).toList = parts.map List.length := by
    simpa [hparts] using countNumbers_eq 0 numbered
  have hname : (fun k => if k = 0 ∧ (p.block b).hasUnmarked = false then b
      else (if (p.block b).hasUnmarked then p.numBlocks else p.numBlocks - 1) + k) =
        p.partNumber b := by
    funext k
    rw [partNumber]
    cases (p.block b).hasUnmarked with
    | true => simp
    | false =>
      simp only [and_true, Bool.false_eq_true, if_false]
      split_ifs <;> omega
  rw [separate, hsizes]
  dsimp only
  rw [hname]
  rfl

theorem separate_eq_of_unmarked {b : ℕ} (hb : b < p.numBlocks) {numbered : List (ℕ × ℕ)}
    {first : List ℕ} {rest : List (List ℕ)}
    (hparts : collect (countParts numbered) numbered = first :: rest) (hpos : first ≠ [])
    (hnd : (numbered.map (·.1)).Nodup) (hu : (p.block b).hasUnmarked = true) :
    p.separate b numbered = p.separateParts b (first :: rest) := by
  set block := p.block b with hblock
  set q := p.setBlock b (.unmarked block.start block.split) with hq
  have hlay : layOut (openPart b block) p.blocks 0 ((first :: rest).map List.length) =
      layOut (appendBlock .unmarked) q.blocks block.split ((first :: rest).map List.length) := by
    have hopen : openPart b block p.blocks 0 first.length =
        appendBlock .unmarked q.blocks block.split first.length := by
      rw [openPart, if_pos rfl, if_pos hu]
      rfl
    rw [List.map_cons, layOut, layOut, hopen]
    simp only [appendBlock]
    rw [layOut_openPart b block _ (Nat.add_pos_right _ (List.length_pos_iff.2 hpos))]
  have hfits := fits_layOut .unmarked q.blocks block.split (first :: rest)
  rw [← hparts] at hfits
  have hname : p.partNumber b = (q.numBlocks + ·) := by
    funext j
    rw [partNumber, if_pos hu, hq, numBlocks_setBlock]
  have hdef : p.separateParts b (first :: rest) =
      appendParts .unmarked q block.split (first :: rest) := by
    unfold separateParts
    exact if_pos hu
  rw [hdef, appendParts_eq, separate_eq_distribute hb hparts, ← hblock, hlay, ← hparts,
    distribute_eq _ _ hfits (fun e he => lt_countParts he) hnd, hname]
  change _ = (placeParts _ (p.withBlocks q.blocks) _ _).withBlocks _
  rw [placeParts_withBlocks, placeParts_withBlocks]
  rfl

theorem separate_eq_of_allMarked {b : ℕ} (hb : b < p.numBlocks) {numbered : List (ℕ × ℕ)}
    {first : List ℕ} {rest : List (List ℕ)}
    (hparts : collect (countParts numbered) numbered = first :: rest) (hpos : first ≠ [])
    (hnd : (numbered.map (·.1)).Nodup) (hu : (p.block b).hasUnmarked = false) :
    p.separate b numbered = p.separateParts b (first :: rest) := by
  set block := p.block b with hblock
  set stop := block.start + first.length with hstop
  set q := (p.place b block.start first).setBlock b (.unmarked block.start stop) with hq
  have hqdef : q = (p.place b block.start first).withBlocks q.blocks := rfl
  have hlay : layOut (openPart b block) p.blocks 0 ((first :: rest).map List.length) =
      (block.start :: (layOut (appendBlock .unmarked) q.blocks stop (rest.map List.length)).1,
        (layOut (appendBlock .unmarked) q.blocks stop (rest.map List.length)).2) := by
    have hopen : openPart b block p.blocks 0 first.length = (block.start, q.blocks) := by
      rw [openPart, if_pos rfl, if_neg (by simp [hu]), hq, setBlock, place_blocks]
    rw [List.map_cons, layOut, hopen]
    dsimp only
    rw [layOut_openPart b block _ (Nat.add_pos_right _ (List.length_pos_iff.2 hpos))]
  have hfits : Fits block.start
      (block.start :: (layOut (appendBlock .unmarked) q.blocks stop (rest.map List.length)).1)
      (collect (countParts numbered) numbered) := by
    rw [hparts]
    exact .cons le_rfl (fits_layOut .unmarked q.blocks stop rest)
  have hzero : p.partNumber b 0 = b := by
    rw [partNumber, if_neg (by simp [← hblock, hu]), if_pos rfl]
  have hname : (fun j => p.partNumber b (j + 1)) = (q.numBlocks + ·) := by
    funext j
    rw [partNumber, if_neg (by simp [← hblock, hu]), if_neg j.succ_ne_zero, hq, numBlocks_setBlock,
      numBlocks, numBlocks, place_blocks, Nat.add_sub_cancel]
  have hdef : p.separateParts b (first :: rest) = appendParts .unmarked q stop rest := by
    unfold separateParts
    exact if_neg (by simp [← hblock, hu])
  rw [hdef, appendParts_eq, separate_eq_distribute hb hparts, ← hblock, hlay,
    distribute_eq _ _ hfits (fun e he => lt_countParts he) hnd, hparts, placeParts, hzero, hname,
    place_withBlocks, placeParts_withBlocks]
  conv_rhs => rw [hqdef, placeParts_withBlocks]
  rfl

/-- Separating numbered states is separating the parts of the numbers. -/
theorem separate_eq {b : ℕ} (hb : b < p.numBlocks) {numbered : List (ℕ × ℕ)} (h0 : numbered ≠ [])
    (hne : ∀ part ∈ collect (countParts numbered) numbered, part ≠ [])
    (hnd : (numbered.map (·.1)).Nodup) :
    p.separate b numbered = p.separateParts b (collect (countParts numbered) numbered) := by
  rcases hparts : collect (countParts numbered) numbered with _ | ⟨first, rest⟩
  · obtain ⟨e, he⟩ := List.exists_mem_of_ne_nil _ h0
    have hlt := lt_countParts he
    have hlen := length_collect (countParts numbered) numbered
    rw [hparts, List.length_nil] at hlen
    omega
  · rw [hparts] at hne
    cases hu : (p.block b).hasUnmarked with
    | true => exact separate_eq_of_unmarked hb hparts (hne first List.mem_cons_self) hnd hu
    | false => exact separate_eq_of_allMarked hb hparts (hne first List.mem_cons_self) hnd hu

/-! ## Separated parts -/

/-- The parts of the marked states of block `b` are blocks of `q`, the other states stay, and the
blocks that `b` was split into have no marked states. -/
structure IsSeparated (p q : MarkedPartition) (n b : ℕ) (parts : List (List ℕ)) : Prop where
  consistent : q.Consistent n
  le : p.numBlocks ≤ q.numBlocks
  other : ∀ c < p.numBlocks, c ≠ b → q.block c = p.block c
  frame : ∀ s ∉ parts.flatten, q.blockNumber s = p.blockNumber s ∧ q.offset s = p.offset s
  number : ∀ j part, parts[j]? = some part → ∀ s ∈ part, q.blockNumber s = p.partNumber b j
  unmarked : ∀ c < q.numBlocks, c = b ∨ p.numBlocks ≤ c → (q.block c).hasMarked = false

theorem hasMarked_unmarked (start stop : ℕ) : (Block.unmarked start stop).hasMarked = false := by
  simp [Block.hasMarked, Block.unmarked]

/-- A block may be given up. -/
theorem Consistent.without (hp : p.Consistent n) (b : ℕ) :
    p.Settled n (fun c => c < p.numBlocks ∧ c ≠ b) fun s => s < n ∧ p.blockNumber s ≠ b where
  states_size := hp.states_size
  blockOf_size := hp.blockOf_size
  offsetOf_size := hp.offsetOf_size
  live_lt _ hc := hc.1
  start_le_split c hc := hp.start_le_split c hc.1
  split_le_stop c hc := hp.split_le_stop c hc.1
  start_lt_stop c hc := hp.start_lt_stop c hc.1
  stop_le c hc := hp.stop_le c hc.1
  disjoint c d hc hd := hp.disjoint c d hc.1 hd.1
  settled_lt _ hs := hs.1
  state_offset s hs := hp.state_offset s hs.1
  live_block s hs := ⟨hp.live_block s hs.1, hs.2⟩
  covers s hs := hp.covers s hs.1

/-- A block may be given up but for its unmarked states. -/
theorem Consistent.keepUnmarked (hp : p.Consistent n) {b : ℕ} (hb : b < p.numBlocks)
    (hu : (p.block b).start < (p.block b).split) :
    (p.setBlock b (.unmarked (p.block b).start (p.block b).split)).Settled n (· < p.numBlocks)
      fun s => s < n ∧ s ∉ p.slice (p.block b).split (p.block b).stop := by
  set q := p.setBlock b (.unmarked (p.block b).start (p.block b).split)
  have hqb : q.block b = .unmarked (p.block b).start (p.block b).split := block_setBlock_self hb _
  have hqc : ∀ c, c ≠ b → q.block c = p.block c := fun c hc => block_setBlock_ne p hc _
  have hall : ∀ P : Block → Prop, (∀ c < p.numBlocks, P (p.block c)) →
      P (.unmarked (p.block b).start (p.block b).split) → ∀ c < p.numBlocks, P (q.block c) :=
    fun _ h hblk c hc => forall_block_of_update hqb (fun c _ => hqc c) h hblk c (.inl hc)
  have hstop := hp.split_le_stop b hb
  -- Ranges only get smaller.
  have hcovers : ∀ c i, q.Covers c i → p.Covers c i := by
    intro c i hi
    by_cases hc : c = b
    · rw [hc, Covers, hqb] at hi
      rw [hc]
      exact ⟨hi.1, hi.2.trans_le hstop⟩
    · rwa [Covers, hqc c hc] at hi
  constructor
  case states_size => exact hp.states_size
  case blockOf_size => exact hp.blockOf_size
  case offsetOf_size => exact hp.offsetOf_size
  case live_lt => exact fun c hc => hc.trans_eq (numBlocks_setBlock p b _).symm
  case start_le_split => exact hall (fun blk => blk.start ≤ blk.split) hp.start_le_split hu.le
  case split_le_stop => exact hall (fun blk => blk.split ≤ blk.stop) hp.split_le_stop le_rfl
  case start_lt_stop => exact hall (fun blk => blk.start < blk.stop) hp.start_lt_stop hu
  case stop_le => exact hall (fun blk => blk.stop ≤ n) hp.stop_le (hstop.trans (hp.stop_le b hb))
  case disjoint =>
    intro c d hc hd i hci hdi
    exact hp.disjoint c d hc hd i (hcovers c i hci) (hcovers d i hdi)
  case settled_lt => exact fun s hs => hs.1
  case state_offset => exact fun s hs => hp.state_offset s hs.1
  case live_block => exact fun s hs => hp.live_block s hs.1
  case covers =>
    rintro s ⟨hs, hnot⟩
    have hcov := hp.covers s hs
    change q.Covers (p.blockNumber s) (p.offset s)
    by_cases hsb : p.blockNumber s = b
    · rw [hsb] at hcov ⊢
      rw [hp.mem_slice (hp.stop_le b hb)] at hnot
      rw [Covers, hqb]
      refine ⟨hcov.1, ?_⟩
      by_contra h
      exact hnot ⟨hs, not_lt.1 h, hcov.2⟩
    · rw [Covers, hqc _ hsb]
      exact hcov

/-- Places of other blocks lie outside the range of a block. -/
theorem Consistent.outside (hp : p.Consistent n) {b c i : ℕ} (hb : b < p.numBlocks)
    (hc : c < p.numBlocks) (hcb : c ≠ b) (hi : p.Covers c i) :
    i < (p.block b).start ∨ (p.block b).stop ≤ i := by
  by_contra h
  push Not at h
  exact hcb (hp.disjoint c b hc hb i hi h)

/-- `r` has the given parts as new blocks in addition to those of `q`, where block `b` of `p` is left
with unmarked states only, and the states of the parts have no place yet. -/
structure IsExtended (p q r : MarkedPartition) (n b : ℕ) (settled : ℕ → Prop)
    (parts : List (List ℕ)) : Prop where
  settled : r.Settled n (· < r.numBlocks) fun s => settled s ∨ s ∈ parts.flatten
  le : p.numBlocks ≤ r.numBlocks
  other : ∀ c < p.numBlocks, c ≠ b → r.block c = p.block c
  frame : ∀ s ∉ parts.flatten, r.blockNumber s = q.blockNumber s ∧ r.offset s = q.offset s
  number : ∀ j part, parts[j]? = some part → ∀ s ∈ part, r.blockNumber s = p.numBlocks + j
  unmarked : ∀ c < r.numBlocks, c = b ∨ p.numBlocks ≤ c → (r.block c).hasMarked = false

/-- Parts that are laid out behind what is left of a block, inside its old range, become new
blocks. -/
theorem appendParts_isExtended (hp : p.Consistent n) {b stop : ℕ} (hb : b < p.numBlocks)
    {q : MarkedPartition} {settled : ℕ → Prop} (hq : q.Settled n (· < p.numBlocks) settled)
    (hcount : q.numBlocks = p.numBlocks) (hself : q.block b = .unmarked (p.block b).start stop)
    (hother : ∀ c, c ≠ b → q.block c = p.block c) {parts : List (List ℕ)}
    (hne : ∀ part ∈ parts, part ≠ []) (hnd : parts.flatten.Nodup)
    (hfresh : ∀ s ∈ parts.flatten, s < n ∧ ¬ settled s)
    (hend : stop + parts.flatten.length = (p.block b).stop) :
    IsExtended p q (appendParts .unmarked q stop parts) n b settled parts := by
  have hstop := hp.stop_le b hb
  have hend' : stop + parts.flatten.length ≤ n := hend.trans_le hstop
  have hstart : (p.block b).start < stop := by
    simpa [hself, Block.unmarked] using hq.start_lt_stop b hb
  have happ := appendParts_settled isRange_unmarked hq hne hnd (fun s hs => (hfresh s hs).1)
    (fun s hs => (hfresh s hs).2) hend' fun c hc i hi => by
      by_cases hcb : c = b
      · rw [hcb, Covers, hself] at hi
        exact .inl hi.2
      · rw [Covers, hother c hcb] at hi
        rcases hp.outside hb hc hcb hi with h | h
        · exact .inl (h.trans hstart)
        · exact .inr (hend.trans_le h)
  obtain ⟨hcount', hblock, hframe⟩ := appendParts_frame .unmarked q stop parts
  have hnumber := fun j part (hj : parts[j]? = some part) => appendParts_number .unmarked
    hq.states_size hq.blockOf_size hq.offsetOf_size hnd (fun s hs => (hfresh s hs).1) hend' hj
  rw [hcount] at hcount' hblock happ
  constructor
  case settled =>
    refine happ.congr (fun c => ?_) fun s => Iff.rfl
    rw [hcount']
    omega
  case le => omega
  case other =>
    intro c hc hcb
    rw [hblock c hc, hother c hcb]
  case frame => exact hframe
  case number =>
    intro j part hj s hs
    rw [(hnumber j part hj).1 s hs, hcount]
  case unmarked =>
    rintro c hc (rfl | hle)
    · rw [hblock c hb, hself, hasMarked_unmarked]
    · obtain ⟨j, rfl⟩ := Nat.exists_eq_add_of_le hle
      have hj := List.getElem?_eq_getElem (show j < parts.length by omega)
      obtain ⟨-, a, ha⟩ := hnumber j _ hj
      rw [hcount] at ha
      rw [ha, hasMarked_unmarked]

/-- The marked states of a block become blocks beside the unmarked ones. -/
theorem separate_unmarked (hp : p.Consistent n) {b : ℕ} (hb : b < p.numBlocks)
    (hu : (p.block b).hasUnmarked = true) {parts : List (List ℕ)} (hne : ∀ part ∈ parts, part ≠ [])
    (hperm : parts.flatten.Perm (p.slice (p.block b).split (p.block b).stop)) :
    IsSeparated p (p.separateParts b parts) n b parts := by
  have hlt : (p.block b).start < (p.block b).split := by simpa [Block.hasUnmarked] using hu
  have hstop := hp.stop_le b hb
  have hmem : ∀ s, s ∈ parts.flatten ↔ s ∈ p.slice (p.block b).split (p.block b).stop :=
    fun s => hperm.mem_iff
  have hmem_lt : ∀ s ∈ parts.flatten, s < n := fun s hs =>
    ((hp.mem_slice hstop).1 ((hmem s).1 hs)).1
  have hlen : (p.block b).split + parts.flatten.length = (p.block b).stop := by
    rw [hperm.length_eq, hp.length_slice hstop, Nat.add_sub_cancel' (hp.split_le_stop b hb)]
  -- The block keeps its unmarked states, and the parts are laid out behind them.
  have hext := appendParts_isExtended hp hb (hp.keepUnmarked hb hlt) (numBlocks_setBlock p b _)
    (block_setBlock_self hb _) (fun c hc => block_setBlock_ne p hc _) hne
    (hperm.nodup_iff.2 (hp.slice_nodup hstop))
    (fun s hs => ⟨hmem_lt s hs, fun h => h.2 ((hmem s).1 hs)⟩) hlen
  have hdef : p.separateParts b parts = appendParts .unmarked
      (p.setBlock b (.unmarked (p.block b).start (p.block b).split)) (p.block b).split parts := by
    unfold separateParts
    exact if_pos hu
  rw [hdef]
  constructor
  case consistent =>
    refine hext.settled.congr (fun c => Iff.rfl) fun s => ?_
    rw [hmem]
    by_cases hs : s ∈ p.slice (p.block b).split (p.block b).stop
    · simp [hs, hmem_lt s ((hmem s).2 hs)]
    · simp [hs]
  case le => exact hext.le
  case other => exact hext.other
  case frame => exact hext.frame
  case number =>
    intro j part hj s hs
    rw [hext.number j part hj s hs, partNumber, if_pos hu]
  case unmarked => exact hext.unmarked

/-- When all states of a block are marked, the first part takes over its number. -/
theorem separate_allMarked (hp : p.Consistent n) {b : ℕ} (hb : b < p.numBlocks)
    (hu : (p.block b).hasUnmarked = false) {first : List ℕ} {rest : List (List ℕ)}
    (hne : ∀ part ∈ first :: rest, part ≠ [])
    (hperm : (first :: rest).flatten.Perm (p.slice (p.block b).split (p.block b).stop)) :
    IsSeparated p (p.separateParts b (first :: rest)) n b (first :: rest) := by
  have hsplit : (p.block b).split = (p.block b).start := by
    have h1 : ¬ (p.block b).start < (p.block b).split := by simpa [Block.hasUnmarked] using hu
    exact le_antisymm (not_lt.1 h1) (hp.start_le_split b hb)
  rw [hsplit] at hperm
  have hstop := hp.stop_le b hb
  have hnd := hperm.nodup_iff.2 (hp.slice_nodup hstop)
  have hlen := hperm.length_eq
  rw [hp.length_slice hstop] at hlen
  have hstart := hp.start_lt_stop b hb
  have hmem : ∀ s, s ∈ (first :: rest).flatten ↔ s < n ∧ p.blockNumber s = b := fun s => by
    rw [hperm.mem_iff]
    exact hp.mem_members hb
  rw [List.forall_mem_cons] at hne
  simp only [List.flatten_cons, List.nodup_append, List.mem_append, List.length_append]
    at hnd hmem hlen
  have hfirst : ∀ s ∈ first, s < n := fun s hs => ((hmem s).1 (.inl hs)).1
  have hfirstEnd : (p.block b).start + first.length ≤ n := by omega
  set stop := (p.block b).start + first.length with hstopdef
  set q := (p.place b (p.block b).start first).setBlock b (.unmarked (p.block b).start stop) with hq
  have hb' : b < (p.place b (p.block b).start first).numBlocks := by
    rwa [numBlocks, place_blocks]
  have hother : ∀ c, c ≠ b → q.block c = p.block c := fun c hc => by
    rw [hq, block_setBlock_ne _ hc, block, place_blocks, block]
  -- First the block is laid out again with the first part, then the other parts behind it.
  have hset : q.Settled n (fun c => (c < p.numBlocks ∧ c ≠ b) ∨ c = b)
      fun s => (s < n ∧ p.blockNumber s ≠ b) ∨ s ∈ first :=
    (hp.without b).place (b := b) (fun h => h.2 rfl) hne.1 hnd.1 hfirst
      (fun s hs h => h.2 ((hmem s).1 (.inl hs)).2) hfirstEnd
      (fun c hc i hi => (hp.outside hb hc.1 hc.2 hi).imp_right fun h => by omega)
      rfl rfl rfl (Array.getElem?_setIfInBounds_self_of_lt hb')
      (fun c hc => by
        rw [hq, setBlock, Array.getElem?_setIfInBounds_ne hc.2.symm, place_blocks])
      rfl (Nat.le_add_right _ _) le_rfl rfl
  have hlive : q.Settled n (· < p.numBlocks) _ := hset.congr (fun c => by
    by_cases hcb : c = b
    · simp [hcb, hb]
    · simp [hcb]) fun s => Iff.rfl
  have hext := appendParts_isExtended hp hb hlive
    ((numBlocks_setBlock _ _ _).trans (by rw [numBlocks, place_blocks, numBlocks]))
    (block_setBlock_self hb' _) hother hne.2 hnd.2.1
    (fun s hs => ⟨((hmem s).1 (.inr hs)).1, fun h => h.elim (fun h => h.2 ((hmem s).1 (.inr hs)).2)
      fun h => hnd.2.2 s h s hs rfl⟩) (by omega)
  have hdef : p.separateParts b (first :: rest) = appendParts .unmarked q stop rest := by
    unfold separateParts
    exact if_neg (by simp [hu])
  rw [hdef]
  constructor
  case consistent =>
    refine hext.settled.congr (fun c => Iff.rfl) fun s => ?_
    rw [or_assoc, hmem]
    by_cases hsb : p.blockNumber s = b
    · simp [hsb]
    · simp [hsb]
  case le => exact hext.le
  case other => exact hext.other
  case frame =>
    intro s hs
    rw [List.flatten_cons, List.mem_append, not_or] at hs
    rw [(hext.frame s hs.2).1, (hext.frame s hs.2).2]
    exact place_of_notMem p b _ hs.1
  case number =>
    intro j part hj s hs
    rw [partNumber, if_neg (by simp [hu])]
    cases j with
    | zero =>
      obtain rfl : first = part := by simpa using hj
      rw [if_pos rfl, (hext.frame s fun h => hnd.2.2 s hs s h rfl).1]
      exact (place_of_mem hnd.1 hfirst hp.states_size hp.blockOf_size hp.offsetOf_size hfirstEnd
        hs).1
    | succ j =>
      rw [if_neg j.succ_ne_zero, Nat.add_sub_cancel]
      exact hext.number j part (by simpa using hj) s hs
  case unmarked => exact hext.unmarked

/-- The marked states of a block become blocks of their own. -/
theorem separate_spec (hp : p.Consistent n) {b : ℕ} (hb : b < p.numBlocks)
    (hm : (p.block b).hasMarked = true) {parts : List (List ℕ)} (hne : ∀ part ∈ parts, part ≠ [])
    (hperm : parts.flatten.Perm (p.slice (p.block b).split (p.block b).stop)) :
    IsSeparated p (p.separateParts b parts) n b parts := by
  by_cases hu : (p.block b).hasUnmarked = true
  · exact separate_unmarked hp hb hu hne hperm
  · rw [Bool.not_eq_true] at hu
    cases parts with
    | nil =>
      have hlt : (p.block b).split < (p.block b).stop := by simpa [Block.hasMarked] using hm
      have := hperm.length_eq
      rw [hp.length_slice (hp.stop_le b hb), List.flatten_nil, List.length_nil] at this
      omega
    | cons first rest => exact separate_allMarked hp hb hu hne hperm

end MarkedPartition
end MarkovCheck

import Mathlib
import MarkovCheck.Partition.Marked
import MarkovCheck.Proofs.Partition.Basic
import MarkovCheck.Proofs.Partition.Distribution

/-!
# MarkovCheck.Proofs.Partition.Arrangement

The arrays of a marked partition describe one arrangement of the states.

While blocks are laid out, only some blocks are live and only some states have their final place.
`Settled` is the invariant of such a moment: live blocks are disjoint ranges, and a settled state
stands at its place, inside its live block. Placing one more block outside the live ranges settles
its states and disturbs nothing (`Settled.place`). When all blocks are live and all states settled,
the partition is `Consistent`.

* `Settled`, `Consistent` — the invariant, halfway and at the end.
* `appendParts_spec`  — laying out blocks one after the other.
* `ofPartition_spec`  — the arrangement that a refinement starts with.
-/

namespace MarkovCheck
namespace MarkedPartition

/-- The place `i` lies in the range of a block. -/
def Covers (p : MarkedPartition) (b i : ℕ) : Prop := (p.block b).start ≤ i ∧ i < (p.block b).stop

/-- The live blocks are disjoint ranges, and every settled state stands at its place in a live
block. -/
structure Settled (p : MarkedPartition) (n : ℕ) (live settled : ℕ → Prop) : Prop where
  states_size : p.states.size = n
  blockOf_size : p.blockOf.size = n
  offsetOf_size : p.offsetOf.size = n
  live_lt : ∀ b, live b → b < p.numBlocks
  start_le_split : ∀ b, live b → (p.block b).start ≤ (p.block b).split
  split_le_stop : ∀ b, live b → (p.block b).split ≤ (p.block b).stop
  start_lt_stop : ∀ b, live b → (p.block b).start < (p.block b).stop
  stop_le : ∀ b, live b → (p.block b).stop ≤ n
  disjoint : ∀ b c, live b → live c → ∀ i, p.Covers b i → p.Covers c i → b = c
  settled_lt : ∀ s, settled s → s < n
  state_offset : ∀ s, settled s → p.states[p.offset s]? = some s
  live_block : ∀ s, settled s → live (p.blockNumber s)
  covers : ∀ s, settled s → p.Covers (p.blockNumber s) (p.offset s)

/-- All blocks are live and all states settled. -/
def Consistent (p : MarkedPartition) (n : ℕ) : Prop := p.Settled n (· < p.numBlocks) (· < n)

/-! ## Placing a block -/

theorem place_cons (p : MarkedPartition) (b offset s : ℕ) (part : List ℕ) :
    p.place b offset (s :: part) = (p.put b offset s).place b (offset + 1) part := rfl

theorem put_of_ne (p : MarkedPartition) (b offset : ℕ) {s t : ℕ} (h : s ≠ t) :
    (p.put b offset t).blockNumber s = p.blockNumber s ∧
      (p.put b offset t).offset s = p.offset s := by
  simp only [put, blockNumber, MarkedPartition.offset]
  rw [Array.getElem?_setIfInBounds_ne h.symm, Array.getElem?_setIfInBounds_ne h.symm]
  exact ⟨rfl, rfl⟩

theorem put_self {p : MarkedPartition} {s : ℕ} (hb : s < p.blockOf.size) (ho : s < p.offsetOf.size)
    (b offset : ℕ) :
    (p.put b offset s).blockNumber s = b ∧ (p.put b offset s).offset s = offset := by
  simp [put, blockNumber, MarkedPartition.offset, hb, ho]

theorem place_sizes (p : MarkedPartition) (b offset : ℕ) (part : List ℕ) :
    (p.place b offset part).states.size = p.states.size ∧
      (p.place b offset part).blockOf.size = p.blockOf.size ∧
      (p.place b offset part).offsetOf.size = p.offsetOf.size := by
  induction part generalizing p offset with
  | nil => exact ⟨rfl, rfl, rfl⟩
  | cons s part ih =>
    obtain ⟨h1, h2, h3⟩ := ih (p.put b offset s) (offset + 1)
    rw [place_cons, h1, h2, h3]
    simp [put]

theorem place_states (p : MarkedPartition) (b offset : ℕ) (part : List ℕ) {i : ℕ}
    (h : i < offset ∨ offset + part.length ≤ i) :
    (p.place b offset part).states[i]? = p.states[i]? := by
  induction part generalizing p offset with
  | nil => rfl
  | cons s part ih =>
    rw [List.length_cons] at h
    rw [place_cons, ih _ _ (by omega), put, Array.getElem?_setIfInBounds_ne (by omega)]

theorem place_of_notMem (p : MarkedPartition) (b offset : ℕ) {part : List ℕ} {s : ℕ}
    (h : s ∉ part) : (p.place b offset part).blockNumber s = p.blockNumber s ∧
      (p.place b offset part).offset s = p.offset s := by
  induction part generalizing p offset with
  | nil => exact ⟨rfl, rfl⟩
  | cons t part ih =>
    rw [List.mem_cons, not_or] at h
    obtain ⟨h1, h2⟩ := ih (p.put b offset t) (offset + 1) h.2
    rw [place_cons, h1, h2]
    exact put_of_ne p b offset h.1

/-- The states of the placed block stand in its range. -/
theorem place_of_mem {p : MarkedPartition} {n b offset : ℕ} {part : List ℕ} (hn : part.Nodup)
    (hlt : ∀ s ∈ part, s < n) (hs : p.states.size = n) (hb : p.blockOf.size = n)
    (ho : p.offsetOf.size = n) (hend : offset + part.length ≤ n) {s : ℕ} (hmem : s ∈ part) :
    (p.place b offset part).blockNumber s = b ∧
      offset ≤ (p.place b offset part).offset s ∧
      (p.place b offset part).offset s < offset + part.length ∧
      (p.place b offset part).states[(p.place b offset part).offset s]? = some s := by
  induction part generalizing p offset with
  | nil => cases hmem
  | cons t part ih =>
    rw [List.nodup_cons] at hn
    rw [List.forall_mem_cons] at hlt
    rw [List.length_cons] at hend ⊢
    rw [place_cons]
    by_cases hst : s ∈ part
    · obtain ⟨h1, h2, h3, h4⟩ := ih (p := p.put b offset t) hn.2 hlt.2
        (by simpa [put] using hs) (by simpa [put] using hb) (by simpa [put] using ho)
        (show offset + 1 + part.length ≤ n by omega) hst
      exact ⟨h1, by omega, by omega, h4⟩
    · obtain rfl : s = t := by
        rcases List.mem_cons.1 hmem with h | h
        · exact h
        · exact absurd h hst
      obtain ⟨h1, h2⟩ := place_of_notMem (p.put b offset s) b (offset + 1) hst
      obtain ⟨h3, h4⟩ := put_self (hlt.1.trans_eq hb.symm) (hlt.1.trans_eq ho.symm) b offset
      rw [h1, h2, h3, h4, place_states _ _ _ _ (.inl (by omega)), put,
        Array.getElem?_setIfInBounds_self_of_lt (by omega)]
      exact ⟨rfl, le_rfl, by omega, rfl⟩

/-- What holds of the live blocks, and of the range that is recorded for one block, holds of all of them
afterwards. -/
theorem forall_block_of_update {p q : MarkedPartition} {b : ℕ} {blk : Block} {live : ℕ → Prop}
    {P : Block → Prop} (hself : q.block b = blk)
    (hother : ∀ c, live c → c ≠ b → q.block c = p.block c) (hp : ∀ c, live c → P (p.block c))
    (hblk : P blk) : ∀ c, live c ∨ c = b → P (q.block c) := by
  intro c hc
  by_cases hcb : c = b
  · rwa [hcb, hself]
  · have hlive := hc.resolve_right hcb
    rw [hother c hlive hcb]
    exact hp c hlive

/-- Placing a block outside the live ranges, and recording its range, settles its states. -/
theorem Settled.place {p : MarkedPartition} {n : ℕ} {live settled : ℕ → Prop}
    (hp : p.Settled n live settled) {b offset : ℕ} {part : List ℕ} (hb : ¬ live b)
    (hne : part ≠ []) (hnd : part.Nodup) (hlt : ∀ s ∈ part, s < n)
    (hfresh : ∀ s ∈ part, ¬ settled s) (hend : offset + part.length ≤ n)
    (hfree : ∀ c, live c → ∀ i, p.Covers c i → i < offset ∨ offset + part.length ≤ i)
    {q : MarkedPartition} {blk : Block} (hstates : q.states = (p.place b offset part).states)
    (hblockOf : q.blockOf = (p.place b offset part).blockOf)
    (hoffsetOf : q.offsetOf = (p.place b offset part).offsetOf)
    (hblk : q.blocks[b]? = some blk) (hsame : ∀ c, live c → q.blocks[c]? = p.blocks[c]?)
    (hstart : blk.start = offset) (hsplit : offset ≤ blk.split)
    (hsplit' : blk.split ≤ offset + part.length) (hstop : blk.stop = offset + part.length) :
    q.Settled n (fun c => live c ∨ c = b) fun s => settled s ∨ s ∈ part := by
  obtain ⟨h1, h2, h3⟩ := place_sizes p b offset part
  have hpos : 0 < part.length := List.length_pos_iff.2 hne
  have hqb : q.block b = blk := by rw [block, hblk, Option.getD_some]
  have hqc : ∀ c, live c → q.block c = p.block c := fun c hc => by rw [block, hsame c hc, block]
  have hqc' : ∀ c, live c → c ≠ b → q.block c = p.block c := fun c hc _ => hqc c hc
  have hcovb : ∀ i, q.Covers b i ↔ offset ≤ i ∧ i < offset + part.length := fun i => by
    rw [Covers, hqb, hstart, hstop]
  have hcovc : ∀ c, live c → ∀ i, q.Covers c i ↔ p.Covers c i := fun c hc i => by
    rw [Covers, hqc c hc, Covers]
  have hnum : ∀ s, q.blockNumber s = (p.place b offset part).blockNumber s := fun s => by
    rw [blockNumber, hblockOf, blockNumber]
  have hoff : ∀ s, q.offset s = (p.place b offset part).offset s := fun s => by
    rw [MarkedPartition.offset, hoffsetOf, MarkedPartition.offset]
  have hnew : ∀ s ∈ part, _ := fun s hs =>
    place_of_mem (b := b) hnd hlt hp.states_size hp.blockOf_size hp.offsetOf_size hend hs
  have hold : ∀ s, settled s → s ∉ part := fun s hs hmem => hfresh s hmem hs
  -- A live block is the new one or an old one, whose range and states are untouched.
  constructor
  case states_size => rw [hstates, h1, hp.states_size]
  case blockOf_size => rw [hblockOf, h2, hp.blockOf_size]
  case offsetOf_size => rw [hoffsetOf, h3, hp.offsetOf_size]
  case live_lt =>
    rintro c (hc | rfl)
    · have hlt := hp.live_lt c hc
      have := hsame c hc
      rw [Array.getElem?_eq_getElem hlt] at this
      exact (Array.getElem?_eq_some_iff.1 this).1
    · exact (Array.getElem?_eq_some_iff.1 hblk).1
  case start_le_split =>
    exact forall_block_of_update (P := fun blk => blk.start ≤ blk.split) hqb hqc' hp.start_le_split
      (hstart.trans_le hsplit)
  case split_le_stop =>
    exact forall_block_of_update (P := fun blk => blk.split ≤ blk.stop) hqb hqc' hp.split_le_stop
      (hsplit'.trans_eq hstop.symm)
  case start_lt_stop =>
    exact forall_block_of_update (P := fun blk => blk.start < blk.stop) hqb hqc' hp.start_lt_stop
      (by omega)
  case stop_le =>
    exact forall_block_of_update (P := fun blk => blk.stop ≤ n) hqb hqc' hp.stop_le
      (hstop.trans_le hend)
  case disjoint =>
    rintro c d (hc | rfl) (hd | rfl) i hci hdi
    · exact hp.disjoint c d hc hd i ((hcovc c hc i).1 hci) ((hcovc d hd i).1 hdi)
    · have := hfree c hc i ((hcovc c hc i).1 hci)
      rw [hcovb] at hdi
      omega
    · have := hfree d hd i ((hcovc d hd i).1 hdi)
      rw [hcovb] at hci
      omega
    · rfl
  case settled_lt =>
    rintro s (hs | hs)
    · exact hp.settled_lt s hs
    · exact hlt s hs
  case state_offset =>
    rintro s (hs | hs)
    · have hcov := hfree _ (hp.live_block s hs) _ (hp.covers s hs)
      rw [hoff, (place_of_notMem p b offset (hold s hs)).2, hstates, place_states _ _ _ _ hcov]
      exact hp.state_offset s hs
    · rw [hoff, hstates]
      exact (hnew s hs).2.2.2
  case live_block =>
    rintro s (hs | hs)
    · rw [hnum, (place_of_notMem p b offset (hold s hs)).1]
      exact .inl (hp.live_block s hs)
    · rw [hnum, (hnew s hs).1]
      exact .inr rfl
  case covers =>
    rintro s (hs | hs)
    · obtain ⟨e1, e2⟩ := place_of_notMem p b offset (hold s hs)
      rw [hnum, hoff, e1, e2, hcovc _ (hp.live_block s hs)]
      exact hp.covers s hs
    · obtain ⟨e1, e2, e3, -⟩ := hnew s hs
      rw [hnum, hoff, e1, hcovb]
      exact ⟨e2, e3⟩

theorem Settled.congr {p : MarkedPartition} {n : ℕ} {live live' settled settled' : ℕ → Prop}
    (hp : p.Settled n live settled) (hl : ∀ b, live b ↔ live' b)
    (hs : ∀ s, settled s ↔ settled' s) : p.Settled n live' settled' := by
  obtain rfl : live = live' := funext fun b => propext (hl b)
  obtain rfl : settled = settled' := funext fun s => propext (hs s)
  exact hp

/-! ## Appending blocks -/

/-- Appends one block. -/
def append (make : ℕ → ℕ → Block) (p : MarkedPartition) (offset : ℕ) (part : List ℕ) :
    MarkedPartition :=
  { p.place p.blocks.size offset part with
    blocks := p.blocks.push (make offset (offset + part.length)) }

theorem appendParts_cons (make : ℕ → ℕ → Block) (p : MarkedPartition) (offset : ℕ)
    (part : List ℕ) (parts : List (List ℕ)) : appendParts make p offset (part :: parts) =
      appendParts make (p.append make offset part) (offset + part.length) parts := by
  rw [appendParts, place_blocks]
  rfl

theorem append_numBlocks (make : ℕ → ℕ → Block) (p : MarkedPartition) (offset : ℕ)
    (part : List ℕ) : (p.append make offset part).numBlocks = p.numBlocks + 1 := by
  simp [append, numBlocks]

theorem append_block_of_lt (make : ℕ → ℕ → Block) (p : MarkedPartition) (offset : ℕ)
    (part : List ℕ) {b : ℕ} (h : b < p.numBlocks) :
    (p.append make offset part).block b = p.block b := by
  rw [block, append, Array.getElem?_push_lt h, block, Array.getElem?_eq_getElem h]

theorem append_block_self (make : ℕ → ℕ → Block) (p : MarkedPartition) (offset : ℕ)
    (part : List ℕ) :
    (p.append make offset part).block p.numBlocks = make offset (offset + part.length) := by
  simp [block, append, numBlocks]

theorem append_of_notMem (make : ℕ → ℕ → Block) (p : MarkedPartition) (offset : ℕ)
    {part : List ℕ} {s : ℕ} (h : s ∉ part) :
    (p.append make offset part).blockNumber s = p.blockNumber s ∧
      (p.append make offset part).offset s = p.offset s :=
  place_of_notMem p p.blocks.size offset h

/-- The range that `make` gives to a block starts and stops where it should. -/
def IsRange (make : ℕ → ℕ → Block) : Prop := ∀ a e, a ≤ e →
  (make a e).start = a ∧ a ≤ (make a e).split ∧ (make a e).split ≤ e ∧ (make a e).stop = e

theorem isRange_marked : IsRange .marked := fun _ _ h => ⟨rfl, le_rfl, h, rfl⟩

theorem isRange_unmarked : IsRange .unmarked := fun _ _ h => ⟨rfl, h, le_rfl, rfl⟩

section Append

variable {make : ℕ → ℕ → Block} {p : MarkedPartition} {n offset : ℕ} {live settled : ℕ → Prop}

theorem append_settled (hmake : IsRange make) (hp : p.Settled n live settled) {part : List ℕ}
    (hne : part ≠ []) (hnd : part.Nodup) (hlt : ∀ s ∈ part, s < n)
    (hfresh : ∀ s ∈ part, ¬ settled s) (hend : offset + part.length ≤ n)
    (hfree : ∀ c, live c → ∀ i, p.Covers c i → i < offset ∨ offset + part.length ≤ i) :
    (p.append make offset part).Settled n (fun c => live c ∨ c = p.numBlocks)
      fun s => settled s ∨ s ∈ part := by
  obtain ⟨h1, h2, h3, h4⟩ := hmake offset (offset + part.length) (Nat.le_add_right _ _)
  exact hp.place (fun h => lt_irrefl _ (hp.live_lt _ h)) hne hnd hlt hfresh hend hfree rfl rfl rfl
    (Array.getElem?_push_size ..)
    (fun c hc => by
      have := hp.live_lt c hc
      rw [append, Array.getElem?_push_lt this, Array.getElem?_eq_getElem this]) h1 h2 h3 h4

/-- The blocks that stood before stay, and so do the states that are not placed. -/
theorem appendParts_frame (make : ℕ → ℕ → Block) (p : MarkedPartition) (offset : ℕ)
    (parts : List (List ℕ)) :
    (appendParts make p offset parts).numBlocks = p.numBlocks + parts.length ∧
      (∀ b < p.numBlocks, (appendParts make p offset parts).block b = p.block b) ∧
      ∀ s ∉ parts.flatten, (appendParts make p offset parts).blockNumber s = p.blockNumber s ∧
        (appendParts make p offset parts).offset s = p.offset s := by
  induction parts generalizing p offset with
  | nil => exact ⟨rfl, fun _ _ => rfl, fun _ _ => ⟨rfl, rfl⟩⟩
  | cons part parts ih =>
    obtain ⟨h1, h2, h3⟩ := ih (p.append make offset part) (offset + part.length)
    rw [append_numBlocks] at h1 h2
    rw [appendParts_cons]
    refine ⟨by rw [h1, List.length_cons]; omega, fun b hb => ?_, fun s hs => ?_⟩
    · rw [h2 b (by omega), append_block_of_lt make p offset part hb]
    · rw [List.flatten_cons, List.mem_append, not_or] at hs
      rw [(h3 s hs.2).1, (h3 s hs.2).2]
      exact append_of_notMem make p offset hs.1

/-- The blocks laid out one after the other are live, and their states settled. -/
theorem appendParts_settled (hmake : IsRange make) (hp : p.Settled n live settled)
    {parts : List (List ℕ)} (hne : ∀ part ∈ parts, part ≠ []) (hnd : parts.flatten.Nodup)
    (hlt : ∀ s ∈ parts.flatten, s < n) (hfresh : ∀ s ∈ parts.flatten, ¬ settled s)
    (hend : offset + parts.flatten.length ≤ n)
    (hfree : ∀ c, live c → ∀ i, p.Covers c i → i < offset ∨ offset + parts.flatten.length ≤ i) :
    (appendParts make p offset parts).Settled n
      (fun b => live b ∨ (p.numBlocks ≤ b ∧ b < p.numBlocks + parts.length))
      fun s => settled s ∨ s ∈ parts.flatten := by
  induction parts generalizing p offset live settled with
  | nil => exact hp.congr (fun b => by simp) (fun s => by simp)
  | cons part parts ih =>
    rw [List.forall_mem_cons] at hne
    simp only [List.flatten_cons, List.nodup_append, List.mem_append, List.length_append]
      at hnd hlt hfresh hend hfree
    have hp' : (p.append make offset part).Settled n _ _ :=
      append_settled hmake hp hne.1 hnd.1 (fun s hs => hlt s (.inl hs))
        (fun s hs => hfresh s (.inl hs)) (by omega) fun c hc i hi => by
          have := hfree c hc i hi
          omega
    have hend' : offset + part.length + parts.flatten.length ≤ n := by omega
    rw [appendParts_cons]
    refine (ih hp' hne.2 hnd.2.1 (fun s hs => hlt s (.inr hs)) ?_ hend' ?_).congr ?_ ?_
    · rintro s hs (h | h)
      · exact hfresh s (.inr hs) h
      · exact hnd.2.2 s h s hs rfl
    · rintro c (hc | rfl) i hi
      · rw [Covers, append_block_of_lt make p offset part (hp.live_lt c hc)] at hi
        have := hfree c hc i hi
        omega
      · obtain ⟨-, -, -, hstop⟩ := hmake offset (offset + part.length) (Nat.le_add_right _ _)
        rw [Covers, append_block_self, hstop] at hi
        omega
    · intro b
      rw [append_numBlocks, List.length_cons]
      constructor
      · rintro ((h | rfl) | h)
        · exact .inl h
        · exact .inr (by omega)
        · exact .inr (by omega)
      · rintro (h | h)
        · exact .inl (.inl h)
        · by_cases hb : b = p.numBlocks
          · exact .inl (.inr hb)
          · exact .inr (by omega)
    · intro s
      rw [List.flatten_cons, List.mem_append, or_assoc]

/-- The states of the parts are in the new blocks, in order. -/
theorem appendParts_number (make : ℕ → ℕ → Block) (hs : p.states.size = n)
    (hb : p.blockOf.size = n) (ho : p.offsetOf.size = n) {parts : List (List ℕ)}
    (hnd : parts.flatten.Nodup) (hlt : ∀ s ∈ parts.flatten, s < n)
    (hend : offset + parts.flatten.length ≤ n) {j : ℕ} {part : List ℕ}
    (hj : parts[j]? = some part) :
    (∀ s ∈ part, (appendParts make p offset parts).blockNumber s = p.numBlocks + j) ∧
      ∃ a, (appendParts make p offset parts).block (p.numBlocks + j) =
        make a (a + part.length) := by
  induction parts generalizing p offset j with
  | nil => simp at hj
  | cons first parts ih =>
    simp only [List.flatten_cons, List.nodup_append, List.mem_append, List.length_append]
      at hnd hlt hend
    have hend' : offset + first.length + parts.flatten.length ≤ n := by omega
    rw [appendParts_cons]
    cases j with
    | zero =>
      obtain rfl : first = part := by simpa using hj
      obtain ⟨-, hblock, hframe⟩ := appendParts_frame make (p.append make offset first)
        (offset + first.length) parts
      refine ⟨fun s hmem => ?_, offset, ?_⟩
      · rw [(hframe s fun h => hnd.2.2 s hmem s h rfl).1]
        exact (place_of_mem (b := p.blocks.size) hnd.1 (fun t ht => hlt t (.inl ht)) hs hb ho
          (show offset + first.length ≤ n by omega) hmem).1
      · rw [Nat.add_zero, hblock _ (by rw [append_numBlocks]; omega), append_block_self]
    | succ j =>
      obtain ⟨h1, h2, h3⟩ := place_sizes p p.blocks.size offset first
      have := ih (p := p.append make offset first) (h1.trans hs) (h2.trans hb) (h3.trans ho)
        hnd.2.1 (fun s hs => hlt s (.inr hs)) hend' (by simpa using hj)
      rwa [append_numBlocks, Nat.add_assoc, Nat.add_comm 1 j] at this

end Append

/-! ## Consistent partitions -/

section Consistent

variable {p : MarkedPartition} {n : ℕ}

/-- The state at a place. -/
def stateAt (p : MarkedPartition) (i : ℕ) : ℕ := p.states[i]?.getD 0

theorem Consistent.offset_lt (hp : p.Consistent n) {s : ℕ} (hs : s < n) : p.offset s < n :=
  (hp.covers s hs).2.trans_le (hp.stop_le _ (hp.live_block s hs))

theorem Consistent.stateAt_offset (hp : p.Consistent n) {s : ℕ} (hs : s < n) :
    p.stateAt (p.offset s) = s := by
  rw [stateAt, hp.state_offset s hs, Option.getD_some]

/-- Every place is the place of a state. -/
theorem Consistent.offset_stateAt (hp : p.Consistent n) {i : ℕ} (hi : i < n) :
    p.stateAt i < n ∧ p.offset (p.stateAt i) = i := by
  have hmaps : Set.MapsTo p.offset (Finset.range n) (Finset.range n) := fun s hs => by
    simpa using hp.offset_lt (by simpa using hs)
  have hinj : Set.InjOn p.offset (Finset.range n) := fun s hs t ht hst => by
    have hs : s < n := by simpa using hs
    have ht : t < n := by simpa using ht
    rw [← hp.stateAt_offset hs, hst, hp.stateAt_offset ht]
  obtain ⟨s, hs, rfl⟩ := Finset.surjOn_of_injOn_of_card_le p.offset hmaps hinj le_rfl
    (by simpa using hi)
  have hs : s < n := by simpa using hs
  rw [hp.stateAt_offset hs]
  exact ⟨hs, rfl⟩

/-- A state that stands in the range of a block belongs to it. -/
theorem Consistent.blockNumber_eq (hp : p.Consistent n) {s b : ℕ} (hs : s < n)
    (hb : b < p.numBlocks) (h : p.Covers b (p.offset s)) : p.blockNumber s = b :=
  hp.disjoint _ _ (hp.live_block s hs) hb _ (hp.covers s hs) h

theorem Consistent.slice_eq (hp : p.Consistent n) {start stop : ℕ} (h : stop ≤ n) :
    p.slice start stop = (List.range' start (stop - start)).map p.stateAt := by
  have hsize := hp.states_size
  apply List.ext_getElem
  · simp [slice]
    omega
  · intro i h1 h2
    have : start + i < p.states.size := by
      simp [slice] at h1
      omega
    simp [slice, stateAt, this]

theorem Consistent.mem_slice (hp : p.Consistent n) {start stop s : ℕ} (h : stop ≤ n) :
    s ∈ p.slice start stop ↔ s < n ∧ start ≤ p.offset s ∧ p.offset s < stop := by
  rw [hp.slice_eq h, List.mem_map]
  constructor
  · rintro ⟨i, hi, rfl⟩
    rw [List.mem_range'_1] at hi
    obtain ⟨h1, h2⟩ := hp.offset_stateAt (show i < n by omega)
    rw [h2]
    exact ⟨h1, by omega⟩
  · rintro ⟨hs, h1, h2⟩
    exact ⟨p.offset s, List.mem_range'_1.2 (by omega), hp.stateAt_offset hs⟩

theorem Consistent.slice_nodup (hp : p.Consistent n) {start stop : ℕ} (h : stop ≤ n) :
    (p.slice start stop).Nodup := by
  rw [hp.slice_eq h]
  refine List.Nodup.map_on ?_ List.nodup_range'
  intro i hi j hj hij
  rw [List.mem_range'_1] at hi hj
  rw [← (hp.offset_stateAt (show i < n by omega)).2, hij,
    (hp.offset_stateAt (show j < n by omega)).2]

theorem Consistent.length_slice (hp : p.Consistent n) {start stop : ℕ} (h : stop ≤ n) :
    (p.slice start stop).length = stop - start := by
  rw [hp.slice_eq h, List.length_map, List.length_range']

/-- The states of a block. -/
theorem Consistent.mem_members (hp : p.Consistent n) {b s : ℕ} (hb : b < p.numBlocks) :
    s ∈ p.members b ↔ s < n ∧ p.blockNumber s = b := by
  rw [members, hp.mem_slice (hp.stop_le b hb)]
  constructor
  · rintro ⟨hs, h⟩
    exact ⟨hs, hp.blockNumber_eq hs hb h⟩
  · rintro ⟨hs, rfl⟩
    exact ⟨hs, hp.covers s hs⟩

/-- No block is empty. -/
theorem Consistent.exists_mem (hp : p.Consistent n) {b : ℕ} (hb : b < p.numBlocks) :
    ∃ s < n, p.blockNumber s = b := by
  have hlt := hp.start_lt_stop b hb
  obtain ⟨h1, h2⟩ := hp.offset_stateAt (hlt.trans_le (hp.stop_le b hb))
  refine ⟨_, h1, hp.blockNumber_eq h1 hb ?_⟩
  rw [h2]
  exact ⟨le_rfl, hlt⟩

/-- A block has a marked state exactly when its range says so. -/
theorem Consistent.hasMarked_iff (hp : p.Consistent n) {b : ℕ} (hb : b < p.numBlocks) :
    (p.block b).hasMarked = true ↔ ∃ s < n, p.blockNumber s = b ∧ p.isMarked s = true := by
  have h1 := hp.start_le_split b hb
  simp only [Block.hasMarked, isMarked, decide_eq_true_eq]
  constructor
  · intro hlt
    obtain ⟨hs, ho⟩ := hp.offset_stateAt (hlt.trans_le (hp.stop_le b hb))
    have hnum : p.blockNumber (p.stateAt (p.block b).split) = b :=
      hp.blockNumber_eq hs hb ⟨by omega, by omega⟩
    exact ⟨_, hs, hnum, by rw [hnum, ho]⟩
  · rintro ⟨s, hs, rfl, hm⟩
    exact hm.trans_lt (hp.covers s hs).2

/-- The partition without the marks. -/
theorem Consistent.isDense (hp : p.Consistent n) : p.toPartition.IsDense n where
  size := hp.blockOf_size
  lt := hp.live_block
  surj _ hb := hp.exists_mem hb

/-! ## The first arrangement -/

/-- Arrays for `n` states without any block. -/
def blank (n : ℕ) : MarkedPartition :=
  ⟨Array.replicate n 0, #[], Array.replicate n 0, Array.replicate n 0⟩

theorem blank_settled (n : ℕ) : (blank n).Settled n (fun _ => False) (fun _ => False) := by
  constructor <;> simp [blank]

/-- The parts that the states of a partition are collected into. -/
def partsOfPartition (q : Partition) : List (List ℕ) :=
  collect q.numBlocks ((List.range q.size).map fun s => (s, q.block s))

theorem ofPartition_eq {q : Partition} (hq : q.IsDense n) :
    ofPartition q = appendParts .marked (blank q.size) 0 (partsOfPartition q) := by
  have hnum : q.blocks.toList.zipIdx.map (fun e => (e.2, e.1)) =
      (List.range q.size).map fun s => (s, q.block s) := by
    rw [Partition.blocks_eq_map]
    apply List.ext_getElem
    · simp
    · intro i h1 h2
      simp
  have hlt : ∀ e ∈ (List.range q.size).map (fun s => (s, q.block s)), e.2 < q.numBlocks := by
    rw [List.forall_mem_map]
    exact fun s hs => hq.isBounded s (List.mem_range.1 hs)
  have hnd : (((List.range q.size).map fun s => (s, q.block s)).map (·.1)).Nodup := by
    simpa [Function.comp_def] using List.nodup_range
  have hfits := fits_layOut .marked #[] 0 (partsOfPartition q)
  rw [partsOfPartition] at hfits
  rw [appendParts_eq, ofPartition, hnum, countNumbers_eq, max_eq_left (countParts_le_iff.2 hlt)]
  dsimp only
  rw [distribute_eq id _ hfits hlt hnd, ← placeParts_withBlocks]
  simp only [blank, withBlocks, numBlocks, partsOfPartition, List.size_toArray, List.length_nil,
    Nat.zero_add]
  rfl

theorem partsOfPartition_perm {q : Partition} (hq : q.IsDense n) :
    (partsOfPartition q).flatten.Perm (List.range n) := by
  have hlt : ∀ e ∈ (List.range q.size).map (fun s => (s, q.block s)), e.2 < q.numBlocks := by
    rw [List.forall_mem_map]
    exact fun s hs => hq.isBounded s (List.mem_range.1 hs)
  simpa [partsOfPartition, hq.size, Function.comp_def] using collect_perm hlt

theorem ne_nil_of_mem_partsOfPartition {q : Partition} (hq : q.IsDense n) :
    ∀ part ∈ partsOfPartition q, part ≠ [] := ne_nil_of_mem_collect fun j hj => by
  obtain ⟨s, hs, h⟩ := hq.surj j hj
  exact ⟨(s, q.block s), List.mem_map_of_mem (List.mem_range.2 (hq.size ▸ hs)), h⟩

/-- A partition without empty blocks, arranged with all states marked. -/
theorem ofPartition_spec {q : Partition} (hq : q.IsDense n) :
    (ofPartition q).Consistent n ∧ (ofPartition q).numBlocks = q.numBlocks ∧
      ∀ s < n, (ofPartition q).blockNumber s = q.block s ∧ (ofPartition q).isMarked s = true := by
  have hperm := partsOfPartition_perm hq
  have hnd := hperm.nodup_iff.2 List.nodup_range
  have hmem : ∀ s, s ∈ (partsOfPartition q).flatten ↔ s < n := fun s => by
    rw [hperm.mem_iff, List.mem_range]
  have hend : 0 + (partsOfPartition q).flatten.length ≤ n := by
    rw [hperm.length_eq, List.length_range, Nat.zero_add]
  have hlen : (partsOfPartition q).length = q.numBlocks := length_collect _ _
  have hzero : (blank n).numBlocks = 0 := rfl
  rw [ofPartition_eq hq, hq.size]
  obtain ⟨hcount, -, -⟩ := appendParts_frame .marked (blank n) 0 (partsOfPartition q)
  have hset := appendParts_settled isRange_marked (blank_settled n)
    (ne_nil_of_mem_partsOfPartition hq) hnd (fun s hs => (hmem s).1 hs) (fun _ _ => id) hend
    (fun _ h => h.elim)
  rw [hlen, hzero, Nat.zero_add] at hset hcount
  have hcons : (appendParts .marked (blank n) 0 (partsOfPartition q)).Consistent n :=
    hset.congr (fun b => by simp [hcount]) (fun s => by simp [hmem])
  refine ⟨hcons, hcount, fun s hs => ?_⟩
  have hpart := getElem?_collect q.numBlocks ((List.range q.size).map fun s => (s, q.block s))
    (hq.lt s hs)
  obtain ⟨hnum, a, hblock⟩ := appendParts_number .marked (blank_settled n).states_size
    (blank_settled n).blockOf_size (blank_settled n).offsetOf_size hnd
    (fun s hs => (hmem s).1 hs) hend hpart
  have hs' : s ∈ (((List.range q.size).map fun s => (s, q.block s)).filter
      fun e => e.2 = q.block s).map (·.1) := by
    refine List.mem_map.2 ⟨(s, q.block s), List.mem_filter.2 ⟨?_, by simp⟩, rfl⟩
    exact List.mem_map_of_mem (List.mem_range.2 (hq.size ▸ hs))
  rw [hzero, Nat.zero_add] at hblock hnum
  have hcov := hcons.covers s hs
  rw [hnum s hs', Covers, hblock] at hcov
  refine ⟨hnum s hs', ?_⟩
  rw [isMarked, hnum s hs', hblock, decide_eq_true_eq]
  exact hcov.1

end Consistent

end MarkedPartition
end MarkovCheck

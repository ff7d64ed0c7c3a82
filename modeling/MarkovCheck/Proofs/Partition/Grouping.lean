import Mathlib
import MarkovCheck.Partition.Grouping
import MarkovCheck.Proofs.Partition.Basic

/-!
# MarkovCheck.Proofs.Partition.Grouping

Grouping states by keys gives a partition with the blocks in the order of their smallest states.

After the first `k` states, the block of each of them is the number of its key, the numbers in use are
those below the size of the numbering, and each was given to a state after all smaller ones. One more
state keeps this: its key has a number already, or gets the next one. The number of blocks is a maximum
over all numbers given, so it starts to be right with the first state.

* `Groups`           — what holds after some of the states.
* `Groups.put`       — one more state.
* `Groups.isOrdered`, `Groups.block_eq_iff` — the partition in the end.
-/

namespace MarkovCheck

namespace Partition

variable {p : Partition} {s t : ℕ}

theorem size_setBlock (p : Partition) (s b : ℕ) : (p.setBlock s b).size = p.size :=
  Array.size_setIfInBounds

theorem block_setBlock (hs : s < p.size) (b t : ℕ) :
    (p.setBlock s b).block t = if t = s then b else p.block t := by
  rw [block, setBlock]
  split
  · subst t
    rw [Array.getElem?_setIfInBounds_self_of_lt hs, Option.getD_some]
  · rename_i hne
    rw [Array.getElem?_setIfInBounds_ne (Ne.symm hne), block]

end Partition

namespace Grouping

variable {κ : Type} [BEq κ] [Hashable κ] {g : Grouping κ} {n k : ℕ} {key : ℕ → κ}

/-- The first `k` of `n` states are in the blocks of their keys, in the order of first occurrence. -/
structure Groups (g : Grouping κ) (n k : ℕ) (key : ℕ → κ) : Prop where
  size : g.partition.size = n
  numBlocks : g.partition.numBlocks = max 1 g.numbering.size
  dense : g.numbering.Dense
  find? : ∀ s < k, g.numbering.find? (key s) = some (g.partition.block s)
  used : ∀ b < g.numbering.size, ∃ s < k, g.partition.block s = b
  growth : ∀ s < k, ∀ b < g.partition.block s, ∃ t < s, g.partition.block t = b

/-- Only the keys of the states seen so far matter. -/
theorem Groups.congr {key' : ℕ → κ} (h : g.Groups n k key) (hkey : ∀ s < k, key' s = key s) :
    g.Groups n k key' :=
  { h with find? := fun s hs => by rw [hkey s hs, h.find? s hs] }

/-- Two states are in one block exactly if their keys are equal. -/
theorem Groups.block_eq_iff (h : g.Groups n n key) {s t : ℕ} (hs : s < n) (ht : t < n) :
    g.partition.block s = g.partition.block t ↔ key s = key t := by
  have hs := h.find? s hs
  have ht := h.find? t ht
  constructor
  · intro heq
    rw [heq] at hs
    exact h.dense.inj hs ht
  · intro heq
    rw [heq, ht] at hs
    exact (Option.some.inj hs).symm

/-- When there is a state, the blocks are in order. -/
theorem Groups.isOrdered (h : g.Groups n n key) (hn : 0 < n) : g.partition.IsOrdered n := by
  have hlt : ∀ s < n, g.partition.block s < g.numbering.size := fun s hs =>
    h.dense.lt (h.find? s hs)
  have hpos := (Nat.zero_le _).trans_lt (hlt 0 hn)
  have hcount : g.partition.numBlocks = g.numbering.size :=
    h.numBlocks.trans (max_eq_right hpos)
  refine Partition.IsDense.isOrdered ⟨h.size, ?_, ?_⟩ h.growth
  · exact fun s hs => (hlt s hs).trans_eq hcount.symm
  · exact fun b hb => h.used b (hb.trans_eq hcount)

variable [LawfulBEq κ] [LawfulHashable κ]

theorem start_groups (n : ℕ) (key : ℕ → κ) : (start n : Grouping κ).Groups n 0 key where
  size := Array.size_replicate
  numBlocks := rfl
  dense := Numbering.dense_empty
  find? s hs := absurd hs s.not_lt_zero
  used b hb := absurd hb (by simp [start, Numbering.empty, Numbering.size])
  growth s hs := absurd hs s.not_lt_zero

theorem Groups.put (h : g.Groups n k key) (hk : k < n) : (g.put k (key k)).Groups n (k + 1) key := by
  obtain ⟨hd, hext, hfind, hnew⟩ := Numbering.number_spec h.dense (key k)
  have hsize := Numbering.size_number h.dense (key k)
  have hle := Numbering.number_le h.dense (key k)
  have hblock := Partition.block_setBlock (hk.trans_eq h.size.symm) (g.numbering.number (key k)).1
  have hself : (g.put k (key k)).partition.block k = (g.numbering.number (key k)).1 :=
    (hblock k).trans (if_pos rfl)
  have hold : ∀ s < k, (g.put k (key k)).partition.block s = g.partition.block s := fun s hs =>
    (hblock s).trans (if_neg hs.ne)
  constructor
  case size => exact (Partition.size_setBlock _ _ _).trans h.size
  case numBlocks =>
    change max g.partition.numBlocks ((g.numbering.number (key k)).1 + 1) =
      max 1 (g.numbering.number (key k)).2.size
    rw [h.numBlocks, hsize, max_assoc]
  case dense => exact hd
  case find? =>
    intro s hs
    rcases Nat.lt_succ_iff_lt_or_eq.1 hs with hs | rfl
    · rw [hold s hs]
      exact hext _ _ (h.find? s hs)
    · rw [hself]
      exact hfind
  case used =>
    intro b hb
    by_cases hb' : b < g.numbering.size
    · obtain ⟨s, hs, rfl⟩ := h.used b hb'
      exact ⟨s, hs.trans k.lt_succ_self, hold s hs⟩
    · exact ⟨k, k.lt_succ_self, hself.trans (hnew b (not_lt.1 hb') hb).symm⟩
  case growth =>
    intro s hs b hb
    rcases Nat.lt_succ_iff_lt_or_eq.1 hs with hs | rfl
    · rw [hold s hs] at hb
      obtain ⟨t, ht, rfl⟩ := h.growth s hs b hb
      exact ⟨t, ht, hold t (ht.trans hs)⟩
    · rw [hself] at hb
      obtain ⟨t, ht, rfl⟩ := h.used b (hb.trans_le hle)
      exact ⟨t, ht, hold t ht⟩

end Grouping
end MarkovCheck

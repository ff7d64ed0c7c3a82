import Mathlib
import MarkovCheck.Partition.Basic
import MarkovCheck.Proofs.Interning

/-!
# MarkovCheck.Proofs.Partition.Basic

Partitions whose blocks are not empty, and the canonical form.

Numbering the states by keys gives a partition without empty blocks, whose blocks are the classes of
states with equal keys. The canonical form is of this kind, with the blocks as keys: it denotes the
same equivalence, and gives a state the number of a block only after all smaller numbers. That is to
number the blocks by their smallest states, and an equivalence has only one partition that does so.

* `IsDense`, `Refines` — the partitions that the algorithms work on, and their order.
* `Refines.card`       — a finer partition with equally many blocks is the same.
* `IsOrdered`          — blocks numbered by smallest states; `IsOrdered.ext`, there is one such numbering.
* `ofKeys_spec`        — the partition by keys.
* `canonical_isOrdered`, `canonical_block_eq_iff` — the same equivalence, numbered by smallest states.
* `canonical_congr`    — partitions that denote one equivalence have one canonical form.
* `canonical_eq_range` — the canonical form when every state is a block.
* `canonical_normalForm` — equal canonical forms exactly for equal equivalences.
-/

namespace MarkovCheck
namespace Partition

/-- A partition of `n` states in which no block is empty. -/
structure IsDense (p : Partition) (n : ℕ) : Prop where
  size : p.size = n
  lt : ∀ s < n, p.block s < p.numBlocks
  surj : ∀ b < p.numBlocks, ∃ s < n, p.block s = b

/-- States below `n` in one block of `p` are in one block of `q`. -/
def Refines (p q : Partition) (n : ℕ) : Prop :=
  ∀ s < n, ∀ t < n, p.block s = p.block t → q.block s = q.block t

variable {p q : Partition} {n : ℕ}

theorem Refines.refl (p : Partition) (n : ℕ) : p.Refines p n := fun _ _ _ _ h => h

theorem Refines.trans {r : Partition} (h : p.Refines q n) (h' : q.Refines r n) :
    p.Refines r n := fun s hs t ht e => h' s hs t ht (h s hs t ht e)

theorem IsDense.image_block (h : p.IsDense n) :
    (Finset.range n).image p.block = Finset.range p.numBlocks := by
  ext b
  simp only [Finset.mem_image, Finset.mem_range]
  constructor
  · rintro ⟨s, hs, rfl⟩
    exact h.lt s hs
  · exact h.surj b

/-- There are at most as many blocks as states. -/
theorem IsDense.numBlocks_le (h : p.IsDense n) : p.numBlocks ≤ n := by
  have := Finset.card_image_le (f := p.block) (s := Finset.range n)
  rwa [h.image_block, Finset.card_range, Finset.card_range] at this

/-- A finer partition has at least as many blocks, and with equally many it is the same. -/
theorem Refines.card (hq : q.IsDense n) (hp : p.IsDense n) (h : q.Refines p n) :
    p.numBlocks ≤ q.numBlocks ∧ (q.numBlocks = p.numBlocks → p.Refines q n) := by
  choose! rep hrep using hq.surj
  have hsurj : Set.SurjOn (p.block ∘ rep) (Finset.range q.numBlocks) (Finset.range p.numBlocks) := by
    intro b hb
    obtain ⟨s, hs, rfl⟩ := hp.surj b (by simpa using hb)
    obtain ⟨h1, h2⟩ := hrep (q.block s) (hq.lt s hs)
    exact ⟨q.block s, by simpa using hq.lt s hs, h _ h1 s hs h2⟩
  constructor
  · simpa using Finset.card_le_card_of_surjOn _ hsurj
  · intro heq s hs t ht hst
    have hmaps : Set.MapsTo (p.block ∘ rep) (Finset.range q.numBlocks) (Finset.range p.numBlocks) := by
      intro b hb
      have := hp.lt _ (hrep b (by simpa using hb)).1
      simpa using this
    have hinj := Finset.injOn_of_surjOn_of_card_le _ hmaps hsurj (by simp [heq])
    refine hinj (by simpa using hq.lt s hs) (by simpa using hq.lt t ht) ?_
    obtain ⟨s1, s2⟩ := hrep (q.block s) (hq.lt s hs)
    obtain ⟨t1, t2⟩ := hrep (q.block t) (hq.lt t ht)
    simp only [Function.comp_apply]
    rw [h _ s1 s hs s2, h _ t1 t ht t2, hst]

/-! ## Blocks in the order of their smallest states -/

/-- No block is empty, and the blocks are numbered in the order of their smallest states. -/
structure IsOrdered (p : Partition) (n : ℕ) : Prop extends p.IsDense n where
  order : ∀ b c r r', IsLeast {s | s < n ∧ p.block s = b} r →
    IsLeast {s | s < n ∧ p.block s = c} r' → (b < c ↔ r < r')

/-- Classes before which all smaller classes occur are numbered by their smallest states. -/
theorem lt_iff_of_growth {c : ℕ → ℕ} (h : ∀ s < n, ∀ b < c s, ∃ t < s, c t = b) {b b' r r' : ℕ}
    (hr : IsLeast {s | s < n ∧ c s = b} r) (hr' : IsLeast {s | s < n ∧ c s = b'} r') :
    b < b' ↔ r < r' := by
  have hstep : ∀ {b b' r r' : ℕ}, IsLeast {s | s < n ∧ c s = b} r →
      IsLeast {s | s < n ∧ c s = b'} r' → b < b' → r < r' := by
    intro b b' r r' hr hr' hlt
    obtain ⟨hn, rfl⟩ := hr'.1
    obtain ⟨t, ht, htb⟩ := h r' hn b hlt
    exact (hr.2 ⟨ht.trans hn, htb⟩).trans_lt ht
  refine ⟨hstep hr hr', fun hlt => ?_⟩
  rcases lt_trichotomy b b' with hb | rfl | hb
  · exact hb
  · exact absurd (hr.unique hr') hlt.ne
  · exact absurd (hstep hr' hr hb) hlt.not_gt

theorem IsDense.isOrdered (h : p.IsDense n)
    (hgrowth : ∀ s < n, ∀ b < p.block s, ∃ t < s, p.block t = b) : p.IsOrdered n :=
  ⟨h, fun _ _ _ _ hr hr' => lt_iff_of_growth hgrowth hr hr'⟩

/-- A block that is not empty has a smallest state. -/
theorem exists_isLeast {s : ℕ} (hs : s < n) :
    ∃ r ≤ s, IsLeast {t | t < n ∧ p.block t = p.block s} r := by
  have hex : ∃ t, t < n ∧ p.block t = p.block s := ⟨s, hs, rfl⟩
  exact ⟨Nat.find hex, Nat.find_min' hex ⟨hs, rfl⟩, Nat.find_spec hex, fun t ht => Nat.find_min' hex ht⟩

/-- Before a block come states of all blocks with smaller numbers. -/
theorem IsOrdered.growth (h : p.IsOrdered n) : ∀ s < n, ∀ b < p.block s, ∃ t < s, p.block t = b := by
  intro s hs b hb
  obtain ⟨t, ht, rfl⟩ := h.surj b (hb.trans (h.lt s hs))
  obtain ⟨r, -, hr⟩ := exists_isLeast (p := p) ht
  obtain ⟨r', hle, hr'⟩ := exists_isLeast (p := p) hs
  exact ⟨r, ((h.order _ _ _ _ hr hr').1 hb).trans_le hle, hr.1.2⟩

/-- An equivalence has one partition with its blocks in order. -/
theorem IsOrdered.ext (hp : p.IsOrdered n) (hq : q.IsOrdered n)
    (h : ∀ s < n, ∀ t < n, p.block s = p.block t ↔ q.block s = q.block t) : p = q := by
  have hblock : ∀ s < n, p.block s = q.block s := by
    intro s
    induction s using Nat.strong_induction_on with
    | _ s ih =>
      intro hs
      -- A smaller number has been given to a smaller state, on which both agree.
      rcases lt_trichotomy (p.block s) (q.block s) with hlt | heq | hgt
      · obtain ⟨t, ht, htb⟩ := hq.growth s hs _ hlt
        have := (h t (ht.trans hs) s hs).1 ((ih t ht (ht.trans hs)).trans htb)
        exact htb.symm.trans this
      · exact heq
      · obtain ⟨t, ht, htb⟩ := hp.growth s hs _ hgt
        have := (h t (ht.trans hs) s hs).2 ((ih t ht (ht.trans hs)).symm.trans htb)
        exact this.symm.trans htb
  have hsize : p.blocks.size = q.blocks.size := hp.size.trans hq.size.symm
  have hblocks : p.blocks = q.blocks := by
    refine Array.ext hsize fun s h1 h2 => ?_
    have := hblock s (h1.trans_eq hp.size)
    rwa [block, block, Array.getElem?_eq_getElem h1, Array.getElem?_eq_getElem h2, Option.getD_some,
      Option.getD_some] at this
  have hcount : p.numBlocks = q.numBlocks := by
    have himage : (Finset.range n).image p.block = (Finset.range n).image q.block :=
      Finset.image_congr fun s hs => hblock s (by simpa using hs)
    rw [hp.image_block, hq.image_block] at himage
    rw [← Finset.card_range p.numBlocks, himage, Finset.card_range]
  calc p = ⟨p.blocks, p.numBlocks⟩ := rfl
    _ = q := by rw [hblocks, hcount]

/-! ## Partitions by keys -/

section Keys

variable {κ : Type} [BEq κ] [Hashable κ] [LawfulBEq κ] [LawfulHashable κ]

/-- The states numbered by their keys. -/
def ofKeys (n : ℕ) (key : ℕ → κ) : Partition :=
  ⟨((Numbering.empty : Numbering κ).numberAll ((List.range n).map key)).1.toArray,
    max 1 ((Numbering.empty : Numbering κ).numberAll ((List.range n).map key)).2.size⟩

/-- The blocks are the classes of states with equal keys. -/
theorem ofKeys_spec (hn : 0 < n) (key : ℕ → κ) :
    (ofKeys n key).IsDense n ∧
      ∀ s < n, ∀ t < n, (ofKeys n key).block s = (ofKeys n key).block t ↔ key s = key t := by
  obtain ⟨number, hmap, hinj, hlt, hsurj⟩ := Numbering.numberAll_empty ((List.range n).map key)
  have hmem : ∀ s < n, key s ∈ (List.range n).map key := fun s hs =>
    List.mem_map_of_mem (List.mem_range.2 hs)
  have hblock : ∀ s < n, (ofKeys n key).block s = number (key s) := fun s hs => by
    simp [ofKeys, block, hmap, hs]
  refine ⟨⟨?_, ?_, ?_⟩, ?_⟩
  · rw [ofKeys, size, List.size_toArray, hmap]
    simp
  · intro s hs
    rw [hblock s hs]
    exact (hlt _ (hmem s hs)).trans_le (le_max_right _ _)
  · intro b hb
    have h0 := hlt _ (hmem 0 hn)
    have hb : b < max 1 _ := hb
    obtain ⟨k, hk, rfl⟩ := hsurj b (by omega)
    obtain ⟨s, hs, rfl⟩ := List.mem_map.1 hk
    rw [List.mem_range] at hs
    exact ⟨s, hs, hblock s hs⟩
  · intro s hs t ht
    rw [hblock s hs, hblock t ht]
    exact hinj _ (hmem s hs) _ (hmem t ht)

end Keys

/-! ## The canonical form -/

/-- Renumbering is numbering the blocks, as long as the table has a place for each. -/
theorem renumber_eq_numberAll {table : Array (Option ℕ)} {n : Numbering ℕ} {l : List ℕ}
    (hl : ∀ b ∈ l, b < table.size) (hfind : ∀ b < table.size, table[b]?.join = n.find? b) :
    renumber table n.size l = ((n.numberAll l).1, (n.numberAll l).2.size) := by
  induction l generalizing table n with
  | nil => rfl
  | cons b l ih =>
    rw [List.forall_mem_cons] at hl
    have hb := hfind b hl.1
    simp only [renumber, Numbering.numberAll, Numbering.number]
    rw [hb]
    cases hcase : n.find? b with
    | some i => simp only [ih hl.2 hfind]
    | none =>
      have hsize := Numbering.size_insert hcase n.size
      have hl' : ∀ c ∈ l, c < (table.setIfInBounds b (some n.size)).size := by simpa using hl.2
      have := ih (n := ⟨n.numbers.insert b n.size⟩) hl' fun c hc => by
        rw [Array.size_setIfInBounds] at hc
        rw [Numbering.find?_insert, Array.getElem?_setIfInBounds]
        by_cases hbc : b = c
        · simp [hbc, hc]
        · simp [hbc, hfind c hc]
      simp only [← hsize, this]

theorem blocks_eq_map (p : Partition) : p.blocks.toList = (List.range p.size).map p.block := by
  apply List.ext_getElem
  · simp [size]
  · intro s h1 h2
    simp only [Array.length_toList] at h1
    simp [block, h1]

/-- Block numbers lie below the bound. -/
def IsBounded (p : Partition) : Prop := ∀ s < p.size, p.block s < p.numBlocks

theorem IsDense.isBounded (h : p.IsDense n) : p.IsBounded := fun s hs =>
  h.lt s (h.size ▸ hs)

theorem canonical_eq (hp : p.IsBounded) : p.canonical =
    ⟨((Numbering.empty : Numbering ℕ).numberAll ((List.range p.size).map p.block)).1.toArray,
      ((Numbering.empty : Numbering ℕ).numberAll ((List.range p.size).map p.block)).2.size⟩ := by
  have hl : ∀ b ∈ (List.range p.size).map p.block,
      b < (Array.replicate p.numBlocks (none : Option ℕ)).size := by
    simpa using fun s hs => hp s hs
  have := renumber_eq_numberAll (n := (Numbering.empty : Numbering ℕ)) hl
    (by intro b hb; simp_all [Numbering.find?, Numbering.empty])
  have h0 : (Numbering.empty : Numbering ℕ).size = 0 := rfl
  rw [h0] at this
  rw [canonical, blocks_eq_map, this]

/-- The blocks in canonical form are the old ones under other numbers. -/
theorem exists_canonical (hp : p.IsBounded) : ∃ number : ℕ → ℕ,
    (∀ s < p.size, p.canonical.block s = number (p.block s)) ∧
      (∀ s < p.size, ∀ t < p.size, number (p.block s) = number (p.block t) ↔
        p.block s = p.block t) ∧
      (∀ s < p.size, number (p.block s) < p.canonical.numBlocks) ∧
      ∀ b < p.canonical.numBlocks, ∃ s < p.size, number (p.block s) = b := by
  obtain ⟨number, hmap, hinj, hlt, hsurj⟩ :=
    Numbering.numberAll_empty ((List.range p.size).map p.block)
  have hmem : ∀ s < p.size, p.block s ∈ (List.range p.size).map p.block := fun s hs =>
    List.mem_map_of_mem (List.mem_range.2 hs)
  rw [canonical_eq hp]
  refine ⟨number, ?_, fun s hs t ht => hinj _ (hmem s hs) _ (hmem t ht),
    fun s hs => hlt _ (hmem s hs), ?_⟩
  · intro s hs
    simp [block, hmap, hs]
  · intro b hb
    obtain ⟨k, hk, rfl⟩ := hsurj b hb
    obtain ⟨s, hs, rfl⟩ := List.mem_map.1 hk
    exact ⟨s, List.mem_range.1 hs, rfl⟩

theorem canonical_size (hp : p.IsBounded) : p.canonical.size = p.size := by
  obtain ⟨number, hmap, -⟩ := Numbering.numberAll_empty ((List.range p.size).map p.block)
  rw [canonical_eq hp, size, List.size_toArray, hmap]
  simp

theorem canonical_block_eq_iff (hp : p.IsBounded) {s t : ℕ} (hs : s < p.size) (ht : t < p.size) :
    p.canonical.block s = p.canonical.block t ↔ p.block s = p.block t := by
  obtain ⟨number, hblock, hinj, -⟩ := exists_canonical hp
  rw [hblock s hs, hblock t ht, hinj s hs t ht]

theorem IsBounded.canonical_iff (hp : p.IsBounded) (hsize : p.size = n) {s t : ℕ} (hs : s < n)
    (ht : t < n) : p.canonical.block s = p.canonical.block t ↔ p.block s = p.block t :=
  canonical_block_eq_iff hp (hs.trans_eq hsize.symm) (ht.trans_eq hsize.symm)

/-- The canonical form has no empty block. -/
theorem canonical_isDense (hp : p.IsBounded) : p.canonical.IsDense p.size := by
  obtain ⟨number, hblock, -, hlt, hsurj⟩ := exists_canonical hp
  refine ⟨canonical_size hp, fun s hs => hblock s hs ▸ hlt s hs, fun b hb => ?_⟩
  obtain ⟨s, hs, h⟩ := hsurj b hb
  exact ⟨s, hs, (hblock s hs).trans h⟩

/-- The canonical form numbers blocks by their smallest states. -/
theorem canonical_isOrdered (hp : p.IsBounded) : p.canonical.IsOrdered p.size := by
  refine (canonical_isDense hp).isOrdered fun s hs b hb => ?_
  have hget : p.canonical.blocks[s]? = some (p.canonical.block s) := by
    have hs' : s < p.canonical.blocks.size := hs.trans_eq (canonical_size hp).symm
    rw [block, Array.getElem?_eq_getElem hs', Option.getD_some]
  generalize p.canonical.block s = i at hget hb
  rw [canonical_eq hp] at hget ⊢
  rw [List.getElem?_toArray] at hget
  obtain ⟨t, ht, htb⟩ :=
    Numbering.numberAll_growth Numbering.dense_empty hget (Nat.zero_le _) hb
  refine ⟨t, ht, ?_⟩
  rw [block, List.getElem?_toArray, htb, Option.getD_some]

/-- Partitions that denote the same equivalence have the same canonical form. -/
theorem canonical_congr (hp : p.IsBounded) (hq : q.IsBounded) (hsize : p.size = q.size)
    (h : ∀ s < p.size, ∀ t < p.size, p.block s = p.block t ↔ q.block s = q.block t) :
    p.canonical = q.canonical := by
  refine (canonical_isOrdered hp).ext (hsize ▸ canonical_isOrdered hq) fun s hs t ht => ?_
  rw [canonical_block_eq_iff hp hs ht, h s hs t ht, hq.canonical_iff hsize.symm hs ht]

/-- The blocks of an ordered partition keep their numbers. -/
theorem IsOrdered.canonical_eq_self (h : p.IsOrdered n) : p.canonical = p := by
  have hp := h.isBounded
  refine IsOrdered.ext (h.size ▸ canonical_isOrdered hp) h fun s hs t ht => ?_
  exact hp.canonical_iff h.size hs ht

theorem canonical_canonical (hp : p.IsBounded) : p.canonical.canonical = p.canonical :=
  (canonical_isOrdered hp).canonical_eq_self

/-- When no two states share a block, the canonical form numbers every state by itself. -/
theorem canonical_eq_range (hp : p.IsDense n)
    (hinj : ∀ s < n, ∀ t < n, p.block s = p.block t → s = t) : p.canonical = ⟨Array.range n, n⟩ := by
  have hblock : ∀ s < n, (⟨Array.range n, n⟩ : Partition).block s = s := fun s hs => by
    simp [block, hs]
  have hdense : (⟨Array.range n, n⟩ : Partition).IsDense n :=
    ⟨Array.size_range, fun s hs => by rwa [hblock s hs], fun b hb => ⟨b, hb, hblock b hb⟩⟩
  have hordered := hdense.isOrdered fun s hs b hb => by
    rw [hblock s hs] at hb
    exact ⟨b, hb, hblock b (hb.trans hs)⟩
  refine (hp.size ▸ canonical_isOrdered hp.isBounded).ext hordered fun s hs t ht => ?_
  rw [hp.isBounded.canonical_iff hp.size hs ht, hblock s hs, hblock t ht]
  exact ⟨hinj s hs t ht, fun h => h ▸ rfl⟩

/-- The canonical form is a normal form of equivalences: two partitions have the same one exactly if
they put the same states together. It denotes the same equivalence, numbers the blocks by their
smallest states, and is its own canonical form. -/
theorem canonical_normalForm (hp : p.IsBounded) (hq : q.IsBounded) (hsize : p.size = q.size) :
    (p.canonical = q.canonical ↔
      ∀ s < p.size, ∀ t < p.size, p.block s = p.block t ↔ q.block s = q.block t) ∧
    (∀ s < p.size, ∀ t < p.size, p.canonical.block s = p.canonical.block t ↔ p.block s = p.block t) ∧
    p.canonical.IsOrdered p.size ∧ p.canonical.canonical = p.canonical := by
  refine ⟨⟨fun heq s hs t ht => ?_, canonical_congr hp hq hsize⟩,
    fun s hs t ht => canonical_block_eq_iff hp hs ht, canonical_isOrdered hp, canonical_canonical hp⟩
  rw [← canonical_block_eq_iff hp hs ht, heq, hq.canonical_iff hsize.symm hs ht]

/-- Two numberings of one equivalence, in both of which some numbers are not used. -/
theorem sparse_canonical_normalForm :
    let p : Partition := ⟨#[5, 2, 5, 0], 7⟩
    let q : Partition := ⟨#[0, 3, 0, 1], 4⟩
    (p.IsBounded ∧ q.IsBounded ∧ p.size = q.size) ∧ p.canonical = q.canonical ∧
      p.canonical.IsOrdered 4 := by
  intro p q
  have hp : p.IsBounded := by
    unfold IsBounded
    decide
  have hq : q.IsBounded := by
    unfold IsBounded
    decide
  obtain ⟨hiff, -, hordered, -⟩ := canonical_normalForm hp hq rfl
  exact ⟨⟨hp, hq, rfl⟩, hiff.2 (by decide), hordered⟩

end Partition
end MarkovCheck

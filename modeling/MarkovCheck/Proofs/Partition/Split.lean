import Mathlib
import MarkovCheck.Proofs.Partition.Separate

/-!
# MarkovCheck.Proofs.Partition.Split

What splitting a block does to the blocks and the marks of a consistent partition.

* `splitNumbered_spec`    — a split is an `IsSplit`: it separates the states of one block by mark and
  number, and leaves none of them marked.
* `splitNumbered_largest` — the number of the block goes to a part of maximal size.
* `split_by_function`     — both for a partitioner that is a function of the states.
-/

namespace MarkovCheck
namespace MarkedPartition

variable {p : MarkedPartition} {n : ℕ}

/-- `q` splits block `b` of `p` into the given parts: states of the block stay together when they are
unmarked, or marked with equal numbers. None of them is marked any more; all other states keep their
block and their mark. -/
structure IsSplit (p q : MarkedPartition) (n b : ℕ) (g : ℕ → ℕ) (parts : List ℕ) : Prop where
  consistent : q.Consistent n
  le : p.numBlocks ≤ q.numBlocks
  parts_eq : parts = b :: (List.range (q.numBlocks - p.numBlocks)).map (p.numBlocks + ·)
  other : ∀ s < n, p.blockNumber s ≠ b →
    q.blockNumber s = p.blockNumber s ∧ q.isMarked s = p.isMarked s
  inside : ∀ s < n, p.blockNumber s = b → q.blockNumber s ∈ parts ∧ q.isMarked s = false
  same_iff : ∀ s < n, ∀ t < n, p.blockNumber s = b → p.blockNumber t = b →
    (q.blockNumber s = q.blockNumber t ↔
      p.isMarked s = p.isMarked t ∧ (p.isMarked s = true → g s = g t))
  block_eq : ∀ c < p.numBlocks, c ≠ b → q.block c = p.block c

/-- The numbers of the marked states of a block: dense, and absent for a single state. -/
structure IsNumbered (p : MarkedPartition) (b : ℕ) (g : ℕ → ℕ) (numbered : List (ℕ × ℕ)) :
    Prop where
  hasMarked : (p.block b).hasMarked = true
  numbers : (p.block b).size = 1 ∧ numbered = [] ∨
    numbered = (p.markedStates b).map (fun s => (s, g s)) ∧
      ∀ j < countParts numbered, ∃ s ∈ p.markedStates b, g s = j

theorem mem_parts_iff {a k b c : ℕ} (h : a ≤ k) :
    c ∈ b :: (List.range (k - a)).map (a + ·) ↔ c = b ∨ a ≤ c ∧ c < k := by
  simp only [List.mem_cons, List.mem_map, List.mem_range]
  refine or_congr_right ⟨?_, ?_⟩
  · rintro ⟨i, hi, rfl⟩
    omega
  · rintro ⟨h1, h2⟩
    exact ⟨c - a, by omega, by omega⟩

theorem Consistent.mem_markedStates (hp : p.Consistent n) {b s : ℕ} (hb : b < p.numBlocks) :
    s ∈ p.markedStates b ↔ s < n ∧ p.blockNumber s = b ∧ p.isMarked s = true := by
  rw [markedStates, List.mem_mergeSort, hp.mem_slice (hp.stop_le b hb), isMarked_iff]
  have hle := hp.start_le_split b hb
  constructor
  · rintro ⟨hs, h1, h2⟩
    obtain rfl := hp.blockNumber_eq hs hb ⟨hle.trans h1, h2⟩
    exact ⟨hs, rfl, h1⟩
  · rintro ⟨hs, rfl, h⟩
    exact ⟨hs, h, (hp.covers s hs).2⟩

theorem Consistent.markedStates_nodup (hp : p.Consistent n) {b : ℕ} (hb : b < p.numBlocks) :
    (p.markedStates b).Nodup := by
  rw [markedStates, (List.mergeSort_perm _ _).nodup_iff]
  exact hp.slice_nodup (hp.stop_le b hb)

theorem Consistent.isMarked_eq_false (hp : p.Consistent n) {s : ℕ} (hs : s < n)
    (h : (p.block (p.blockNumber s)).hasMarked = false) : p.isMarked s = false := by
  rw [Bool.eq_false_iff]
  intro hm
  have := (hp.hasMarked_iff (hp.live_block s hs)).2 ⟨s, hs, rfl, hm⟩
  rw [h] at this
  cases this

theorem Consistent.hasUnmarked_of_not_isMarked (hp : p.Consistent n) {s : ℕ} (hs : s < n)
    (h : p.isMarked s = false) : (p.block (p.blockNumber s)).hasUnmarked = true := by
  have hcov := (hp.covers s hs).1
  have hlt : ¬ (p.block (p.blockNumber s)).split ≤ p.offset s := fun hle => by
    simp [isMarked_iff.2 hle] at h
  simp only [Block.hasUnmarked, decide_eq_true_eq]
  omega

/-! ## Numbers of parts -/

theorem partNumber_inj {b i j : ℕ} (hb : b < p.numBlocks) :
    p.partNumber b i = p.partNumber b j ↔ i = j := by
  unfold partNumber
  split_ifs <;> omega

theorem partNumber_eq_or {b : ℕ} (j : ℕ) :
    p.partNumber b j = b ∨ p.numBlocks ≤ p.partNumber b j := by
  unfold partNumber
  split_ifs <;> omega

/-- The parts are new blocks if the block keeps its unmarked states. -/
theorem ne_partNumber {b : ℕ} (hb : b < p.numBlocks) (hu : (p.block b).hasUnmarked = true) (j : ℕ) :
    b ≠ p.partNumber b j := by
  rw [partNumber, if_pos hu]
  omega

/-! ## Splitting by numbers -/

section Separated

variable {q : MarkedPartition} {b : ℕ} {g : ℕ → ℕ} {numbered : List (ℕ × ℕ)}
  (hp : p.Consistent n) (hb : b < p.numBlocks)
  (hnum : numbered = (p.markedStates b).map fun s => (s, g s))
include hp hb hnum

/-- The parts consist of the marked states of the block. -/
theorem mem_flatten_collect {s : ℕ} : s ∈ (collect (countParts numbered) numbered).flatten ↔
    s < n ∧ p.blockNumber s = b ∧ p.isMarked s = true := by
  have hmap : numbered.map (·.1) = p.markedStates b := by simp [hnum, Function.comp_def]
  rw [(collect_perm fun e he => lt_countParts he).mem_iff, hmap, hp.mem_markedStates hb]

variable (hsep : IsSeparated p q n b (collect (countParts numbered) numbered))
include hsep

theorem blockNumber_of_marked {s : ℕ} (hs : s < n) (hsb : p.blockNumber s = b)
    (hsm : p.isMarked s = true) : q.blockNumber s = p.partNumber b (g s) := by
  have hmem : (s, g s) ∈ numbered :=
    hnum ▸ List.mem_map_of_mem ((hp.mem_markedStates hb).2 ⟨hs, hsb, hsm⟩)
  refine hsep.number (g s) _ (getElem?_collect _ _ (lt_countParts hmem)) s ?_
  exact List.mem_map.2 ⟨(s, g s), List.mem_filter.2 ⟨hmem, by simp⟩, rfl⟩

theorem frame_of_unmarked {s : ℕ} (h : ¬ (p.blockNumber s = b ∧ p.isMarked s = true)) :
    q.blockNumber s = p.blockNumber s ∧ q.offset s = p.offset s :=
  hsep.frame s fun hmem => h ((mem_flatten_collect hp hb hnum).1 hmem).2

/-- Separating the parts that the numbers give splits the block. -/
theorem isSplit_of_isSeparated : IsSplit p q n b g (q.partsOf b p.numBlocks) := by
  have hunmarked : ∀ s < n, p.blockNumber s = b → p.isMarked s = false →
      q.blockNumber s = b ∧ (p.block b).hasUnmarked = true := fun s hs hsb hsm =>
    ⟨(frame_of_unmarked hp hb hnum hsep (by simp [hsm])).1.trans hsb,
      hsb ▸ hp.hasUnmarked_of_not_isMarked hs hsm⟩
  constructor
  case consistent => exact hsep.consistent
  case le => exact hsep.le
  case parts_eq => rfl
  case other =>
    intro s hs hsb
    obtain ⟨h1, h2⟩ := frame_of_unmarked hp hb hnum hsep fun h => hsb h.1
    rw [isMarked, h1, h2, hsep.other _ (hp.live_block s hs) hsb, isMarked]
    exact ⟨rfl, rfl⟩
  case inside =>
    intro s hs hsb
    have hlt := hsep.consistent.live_block s hs
    have hor : q.blockNumber s = b ∨ p.numBlocks ≤ q.blockNumber s := by
      cases hsm : p.isMarked s with
      | true => exact blockNumber_of_marked hp hb hnum hsep hs hsb hsm ▸ partNumber_eq_or (g s)
      | false => exact .inl (hunmarked s hs hsb hsm).1
    refine ⟨?_, hsep.consistent.isMarked_eq_false hs (hsep.unmarked _ hlt hor)⟩
    rw [partsOf, mem_parts_iff hsep.le]
    exact hor.imp_right fun h => ⟨h, hlt⟩
  case same_iff =>
    intro s hs t ht hsb htb
    cases hsm : p.isMarked s with
    | true =>
      rw [blockNumber_of_marked hp hb hnum hsep hs hsb hsm]
      cases htm : p.isMarked t with
      | true =>
        rw [blockNumber_of_marked hp hb hnum hsep ht htb htm, partNumber_inj hb]
        simp
      | false =>
        obtain ⟨h1, hu⟩ := hunmarked t ht htb htm
        simp [h1, (ne_partNumber hb hu (g s)).symm]
    | false =>
      obtain ⟨h1, hu⟩ := hunmarked s hs hsb hsm
      rw [h1]
      cases htm : p.isMarked t with
      | true =>
        rw [blockNumber_of_marked hp hb hnum hsep ht htb htm]
        simp [ne_partNumber hb hu (g t)]
      | false => simp [(hunmarked t ht htb htm).1]
  case block_eq => exact hsep.other

end Separated

/-- A block whose marked states are numbered without gaps is split by mark and number. -/
theorem separate_isSplit (hp : p.Consistent n) {b : ℕ} (hb : b < p.numBlocks) {g : ℕ → ℕ}
    {numbered : List (ℕ × ℕ)} (hm : (p.block b).hasMarked = true)
    (hnum : numbered = (p.markedStates b).map fun s => (s, g s))
    (hdense : ∀ j < countParts numbered, ∃ s ∈ p.markedStates b, g s = j) :
    IsSplit p (p.separate b numbered) n b g ((p.separate b numbered).partsOf b p.numBlocks) := by
  have hmap : numbered.map (·.1) = p.markedStates b := by simp [hnum, Function.comp_def]
  have hperm : (collect (countParts numbered) numbered).flatten.Perm (p.markedStates b) :=
    hmap ▸ collect_perm fun e he => lt_countParts he
  have hne : ∀ part ∈ collect (countParts numbered) numbered, part ≠ [] :=
    ne_nil_of_mem_collect fun j hj => by
      obtain ⟨s, hs, hg⟩ := hdense j hj
      exact ⟨(s, g s), hnum ▸ List.mem_map_of_mem hs, hg⟩
  have hnil : numbered ≠ [] := by
    obtain ⟨s, hs, hsb, hsm⟩ := (hp.hasMarked_iff hb).1 hm
    rintro rfl
    have := (hp.mem_markedStates hb).2 ⟨hs, hsb, hsm⟩
    rw [← hmap] at this
    cases this
  rw [separate_eq hb hnil hne (hmap.symm ▸ hp.markedStates_nodup hb)]
  exact isSplit_of_isSeparated hp hb hnum
    (separate_spec hp hb hm hne (hperm.trans (List.mergeSort_perm _ _)))

theorem Consistent.eq_of_size_one (hp : p.Consistent n) {b s t : ℕ}
    (h1 : (p.block b).size = 1) (hs : s < n) (ht : t < n) (hsb : p.blockNumber s = b)
    (htb : p.blockNumber t = b) : s = t := by
  have hcs := hp.covers s hs
  have hct := hp.covers t ht
  rw [hsb, Covers] at hcs
  rw [htb, Covers] at hct
  rw [Block.size] at h1
  exact hp.offset_inj hs ht (by omega)

/-- A single state only loses its mark. -/
theorem unmark_isSplit (hp : p.Consistent n) {b : ℕ} (hb : b < p.numBlocks) (g : ℕ → ℕ)
    (h1 : (p.block b).size = 1) :
    IsSplit p (p.setBlock b (.unmarked (p.block b).start (p.block b).stop)) n b g [b] := by
  set q := p.setBlock b (.unmarked (p.block b).start (p.block b).stop) with hq
  have hcount : q.numBlocks = p.numBlocks := numBlocks_setBlock p b _
  have hqb : q.block b = .unmarked (p.block b).start (p.block b).stop := block_setBlock_self hb _
  have hqc : ∀ c, c ≠ b → q.block c = p.block c := fun c hc => block_setBlock_ne p hc _
  have hcons : q.Consistent n := by
    refine hp.rearrange hp.states_size hp.offsetOf_size rfl hcount ?_ ?_
      fun s hs => ⟨hp.state_offset s hs, hp.covers s hs⟩
    · intro c
      by_cases hc : c = b
      · rw [hc, hqb]
        exact ⟨rfl, rfl⟩
      · rw [hqc c hc]
        exact ⟨rfl, rfl⟩
    · intro c hc
      by_cases hcb : c = b
      · rw [hcb, hqb]
        exact ⟨(hp.start_lt_stop b hb).le, le_rfl⟩
      · rw [hqc c hcb]
        exact ⟨hp.start_le_split c hc, hp.split_le_stop c hc⟩
  constructor
  case consistent => exact hcons
  case le => exact hcount.ge
  case parts_eq => rw [hcount, Nat.sub_self, List.range_zero, List.map_nil]
  case other =>
    intro s hs hsb
    refine ⟨rfl, ?_⟩
    change decide ((q.block (p.blockNumber s)).split ≤ p.offset s) = _
    rw [hqc _ hsb, isMarked]
  case inside =>
    intro s hs hsb
    refine ⟨?_, hcons.isMarked_eq_false hs ?_⟩
    · rw [List.mem_singleton]
      exact hsb
    · change (q.block (p.blockNumber s)).hasMarked = false
      rw [hsb, hqb, hasMarked_unmarked]
  case same_iff =>
    intro s hs t ht hsb htb
    obtain rfl := hp.eq_of_size_one h1 hs ht hsb htb
    simp
  case block_eq => exact fun c _ hcb => hqc c hcb

/-- A split remains one when the block exchanges its number with a part. -/
theorem IsSplit.swapBlocks {q : MarkedPartition} {b c : ℕ} {g : ℕ → ℕ} {parts : List ℕ}
    (h : IsSplit p q n b g parts) (hp : p.Consistent n) (hb : b < p.numBlocks) (hc : c ∈ parts) :
    IsSplit p (q.swapBlocks b c) n b g parts := by
  have hmem : ∀ d, d ∈ parts ↔ d = b ∨ p.numBlocks ≤ d ∧ d < q.numBlocks := fun d => by
    rw [h.parts_eq, mem_parts_iff h.le]
  have hbq : b < q.numBlocks := hb.trans_le h.le
  have hcq : c < q.numBlocks := ((hmem c).1 hc).elim (fun e => e ▸ hbq) fun e => e.2
  obtain ⟨hcount, hblock, hnum, -⟩ := swapBlocks_spec h.consistent hbq hcq
  constructor
  case consistent => exact h.consistent.swapBlocks hbq hcq
  case le => exact h.le.trans_eq hcount.symm
  case parts_eq => rw [hcount, h.parts_eq]
  case other =>
    intro s hs hsb
    obtain ⟨h1, h2⟩ := h.other s hs hsb
    rw [swapBlocks_isMarked h.consistent hbq hcq hs, hnum s hs, h1, h2]
    refine ⟨Equiv.swap_apply_of_ne_of_ne hsb fun hsc => ?_, rfl⟩
    rcases (hmem c).1 hc with h | h
    · exact hsb (hsc.trans h)
    · have := hp.live_block s hs
      omega
  case inside =>
    intro s hs hsb
    obtain ⟨h1, h2⟩ := h.inside s hs hsb
    rw [swapBlocks_isMarked h.consistent hbq hcq hs, hnum s hs, Equiv.swap_apply_def]
    refine ⟨?_, h2⟩
    split_ifs
    · exact hc
    · exact (hmem b).2 (.inl rfl)
    · exact h1
  case same_iff =>
    intro s hs t ht hsb htb
    rw [hnum s hs, hnum t ht, (Equiv.swap b c).injective.eq_iff]
    exact h.same_iff s hs t ht hsb htb
  case block_eq =>
    intro d hd hdb
    have hdc : d ≠ c := by
      rintro rfl
      rcases (hmem d).1 hc with h | h
      · exact hdb h
      · omega
    rw [hblock, Equiv.swap_apply_of_ne_of_ne hdb hdc]
    exact h.block_eq d hd hdb

theorem largest_mem (p : MarkedPartition) (best : ℕ) (others : List ℕ) :
    p.largest best others ∈ best :: others := by
  induction others generalizing best with
  | nil => exact List.mem_singleton.2 rfl
  | cons c others ih =>
    rw [largest, List.foldl_cons]
    rcases List.mem_cons.1 (ih (if (p.block best).size ≤ (p.block c).size then c else best))
      with h | h
    · rw [largest] at h
      rw [h]
      split_ifs <;> simp
    · exact List.mem_cons_of_mem _ (List.mem_cons_of_mem _ h)

theorem splitNumbered_of_size_ne_one {b : ℕ} (h1 : (p.block b).size ≠ 1)
    (numbered : List (ℕ × ℕ)) : p.splitNumbered b numbered =
      ((p.separate b numbered).partsOf b p.numBlocks,
        (p.separate b numbered).swapBlocks b ((p.separate b numbered).largest b
          ((p.separate b numbered).partsOf b p.numBlocks).tail)) := if_neg h1

/-- A block whose marked states are numbered is split by mark and number. -/
theorem splitNumbered_spec (hp : p.Consistent n) {b : ℕ} (hb : b < p.numBlocks) {g : ℕ → ℕ}
    {numbered : List (ℕ × ℕ)} (h : IsNumbered p b g numbered) :
    IsSplit p (p.splitNumbered b numbered).2 n b g (p.splitNumbered b numbered).1 := by
  by_cases h1 : (p.block b).size = 1
  · rw [splitNumbered]
    simp only [if_pos h1]
    exact unmark_isSplit hp hb g h1
  · rw [splitNumbered_of_size_ne_one h1]
    obtain ⟨hnum, hdense⟩ := h.numbers.resolve_left fun h => h1 h.1
    exact (separate_isSplit hp hb h.hasMarked hnum hdense).swapBlocks hp hb (largest_mem _ _ _)

/-! ## The largest part -/

theorem size_le_largest (p : MarkedPartition) {best c : ℕ} {others : List ℕ}
    (hc : c ∈ best :: others) : (p.block c).size ≤ (p.block (p.largest best others)).size := by
  induction others generalizing best c with
  | nil =>
    obtain rfl := List.mem_singleton.1 hc
    exact le_rfl
  | cons d others ih =>
    rw [largest, List.foldl_cons, ← largest]
    have hbest := @ih (if (p.block best).size ≤ (p.block d).size then d else best) _
      List.mem_cons_self
    rcases List.mem_cons.1 hc with rfl | hc
    · refine le_trans ?_ hbest
      split_ifs with h
      · exact h
      · exact le_rfl
    rcases List.mem_cons.1 hc with rfl | hc
    · refine le_trans ?_ hbest
      split_ifs with h
      · exact le_rfl
      · exact (not_le.1 h).le
    · exact ih (List.mem_cons_of_mem _ hc)

/-- After a split the number of the block belongs to a part of maximal size. -/
theorem splitNumbered_largest (hp : p.Consistent n) {b : ℕ} (hb : b < p.numBlocks) {g : ℕ → ℕ}
    {numbered : List (ℕ × ℕ)} (h : IsNumbered p b g numbered) {c : ℕ}
    (hc : c ∈ (p.splitNumbered b numbered).1) :
    ((p.splitNumbered b numbered).2.block c).size ≤
      ((p.splitNumbered b numbered).2.block b).size := by
  by_cases h1 : (p.block b).size = 1
  · rw [splitNumbered] at hc
    simp only [if_pos h1, List.mem_singleton] at hc
    rw [hc]
  rw [splitNumbered_of_size_ne_one h1] at hc ⊢
  dsimp only at hc ⊢
  obtain ⟨hnum, hdense⟩ := h.numbers.resolve_left fun h => h1 h.1
  have hsplit := separate_isSplit hp hb h.hasMarked hnum hdense
  set q := p.separate b numbered
  set parts := q.partsOf b p.numBlocks with hparts
  have hmem : q.largest b parts.tail ∈ parts := largest_mem q b parts.tail
  have hlt : ∀ d ∈ parts, d < q.numBlocks := by
    intro d hd
    rw [hparts, partsOf, mem_parts_iff hsplit.le] at hd
    have := hb.trans_le hsplit.le
    omega
  have hbq : b < q.numBlocks := hb.trans_le hsplit.le
  obtain ⟨-, hblock, -⟩ := swapBlocks_spec hsplit.consistent hbq (hlt _ hmem)
  rw [hblock, hblock, Equiv.swap_apply_left]
  refine size_le_largest q ?_
  change Equiv.swap b _ c ∈ parts
  rw [Equiv.swap_apply_def]
  split_ifs
  · exact hmem
  · exact List.mem_cons_self
  · exact hc

/-! ## Partitioners -/

theorem map_fst_numberStates {σ : Type} (f : σ → ℕ → ℕ × σ) (memory : σ) (l : List ℕ) :
    (numberStates f memory l).1.map (·.1) = l := by
  induction l generalizing memory with
  | nil => rfl
  | cons s l ih =>
    rw [numberStates]
    simp only [List.map_cons, ih]

theorem numberStates_function (g : ℕ → ℕ) (l : List ℕ) :
    (numberStates (fun _ s => (g s, ())) () l).1 = l.map fun s => (s, g s) := by
  induction l with
  | nil => rfl
  | cons s l ih =>
    rw [numberStates]
    simp only [List.map_cons, ih]

/-- With every number all smaller ones are given. -/
def IsGapless (numbered : List (ℕ × ℕ)) : Prop :=
  ∀ e ∈ numbered, ∀ j < e.2, ∃ e' ∈ numbered, e'.2 = j

theorem IsGapless.exists_number {numbered : List (ℕ × ℕ)} (h : IsGapless numbered) {j : ℕ}
    (hj : j < countParts numbered) : ∃ e ∈ numbered, e.2 = j := by
  have hle : ∃ e ∈ numbered, j ≤ e.2 := by
    by_contra hnot
    push Not at hnot
    exact absurd (countParts_le_iff.2 hnot) (not_le.2 hj)
  obtain ⟨e, he, hje⟩ := hle
  rcases hje.eq_or_lt with rfl | hlt
  · exact ⟨e, he, rfl⟩
  · exact h e he j hlt

/-- Numbers of different states are those of a function. -/
theorem exists_eq_map {numbered : List (ℕ × ℕ)} (hnd : (numbered.map (·.1)).Nodup) :
    ∃ g : ℕ → ℕ, numbered = (numbered.map (·.1)).map fun s => (s, g s) := by
  induction numbered with
  | nil => exact ⟨0, rfl⟩
  | cons e numbered ih =>
    rw [List.map_cons, List.nodup_cons] at hnd
    obtain ⟨g, hg⟩ := ih hnd.2
    refine ⟨Function.update g e.1 e.2, ?_⟩
    rw [List.map_cons, List.map_cons, Function.update_self]
    congr 1
    rw [hg, List.map_map, List.map_map, List.map_map]
    refine List.map_congr_left fun d hd => ?_
    have hne : d.1 ≠ e.1 := fun h => hnd.1 (h ▸ List.mem_map_of_mem hd)
    simp [Function.update_of_ne hne]

/-- The numbers that a partitioner gives to the marked states of a block are those of a function. -/
theorem numberMarked_isNumbered (hp : p.Consistent n) {b : ℕ} (hb : b < p.numBlocks)
    (hm : (p.block b).hasMarked = true) {σ : Type} {f : σ → ℕ → ℕ × σ} {memory : σ}
    (h : IsGapless (p.numberMarked b f memory).1) :
    ∃ g, IsNumbered p b g (p.numberMarked b f memory).1 := by
  by_cases h1 : (p.block b).size = 1
  · rw [numberMarked, if_pos h1]
    exact ⟨0, hm, .inl ⟨h1, rfl⟩⟩
  rw [numberMarked, if_neg h1] at h ⊢
  have hfst := map_fst_numberStates f memory (p.markedStates b)
  obtain ⟨g, hg⟩ := exists_eq_map (hfst.symm ▸ hp.markedStates_nodup hb)
  rw [hfst] at hg
  refine ⟨g, hm, .inr ⟨hg, fun j hj => ?_⟩⟩
  obtain ⟨e, he, rfl⟩ := h.exists_number hj
  rw [hg] at he
  obtain ⟨s, hs, rfl⟩ := List.mem_map.1 he
  exact ⟨s, hs, rfl⟩

/-- A partitioner without a memory gives the numbers of its function. -/
theorem numberMarked_function (hp : p.Consistent n) {b : ℕ} (hb : b < p.numBlocks) {g : ℕ → ℕ}
    (hm : ∃ s < n, p.blockNumber s = b ∧ p.isMarked s = true)
    (hg : ∀ s < n, p.blockNumber s = b → p.isMarked s = true → ∀ j < g s,
      ∃ t < n, p.blockNumber t = b ∧ p.isMarked t = true ∧ g t = j) :
    IsNumbered p b g (p.numberMarked b (fun _ s => (g s, ())) ()).1 := by
  have hm := (hp.hasMarked_iff hb).2 hm
  by_cases h1 : (p.block b).size = 1
  · rw [numberMarked, if_pos h1]
    exact ⟨hm, .inl ⟨h1, rfl⟩⟩
  rw [numberMarked, if_neg h1, numberStates_function]
  have hgapless : IsGapless ((p.markedStates b).map fun s => (s, g s)) := by
    intro e he j hj
    obtain ⟨s, hs, rfl⟩ := List.mem_map.1 he
    obtain ⟨hsn, hsb, hsm⟩ := (hp.mem_markedStates hb).1 hs
    obtain ⟨t, htn, htb, htm, rfl⟩ := hg s hsn hsb hsm j hj
    exact ⟨(t, g t), List.mem_map_of_mem ((hp.mem_markedStates hb).2 ⟨htn, htb, htm⟩), rfl⟩
  refine ⟨hm, .inr ⟨rfl, fun j hj => ?_⟩⟩
  obtain ⟨e, he, rfl⟩ := hgapless.exists_number hj
  obtain ⟨s, hs, rfl⟩ := List.mem_map.1 he
  exact ⟨s, hs, rfl⟩

theorem split_eq {σ : Type} (p : MarkedPartition) (b : ℕ) (f : σ → ℕ → ℕ × σ) (memory : σ) :
    p.split b f memory = ((p.splitNumbered b (p.numberMarked b f memory).1).1,
      (p.splitNumbered b (p.numberMarked b f memory).1).2, (p.numberMarked b f memory).2) := rfl

/-- Splitting a block by a function of its states whose numbers on the marked states have no gaps.
Two states of the block stay together if both were unmarked, or both were marked with the same number;
all other blocks keep their range, their states and their marks. What is returned are the numbers of
the parts: that of the block, which now belongs to a part of maximal size, and all new ones in
ascending order. None of their states is marked. -/
theorem split_by_function (hp : p.Consistent n) {b : ℕ} (hb : b < p.numBlocks) {g : ℕ → ℕ}
    (hm : ∃ s < n, p.blockNumber s = b ∧ p.isMarked s = true)
    (hg : ∀ s < n, p.blockNumber s = b → p.isMarked s = true → ∀ j < g s,
      ∃ t < n, p.blockNumber t = b ∧ p.isMarked t = true ∧ g t = j) :
    ∃ parts q, p.split b (fun _ s => (g s, ())) () = (parts, q, ()) ∧ q.Consistent n ∧
      (∀ s < n, ∀ t < n, p.blockNumber s = b → p.blockNumber t = b →
        (q.blockNumber s = q.blockNumber t ↔ p.isMarked s = false ∧ p.isMarked t = false ∨
          p.isMarked s = true ∧ p.isMarked t = true ∧ g s = g t)) ∧
      (∀ c < p.numBlocks, c ≠ b → q.block c = p.block c ∧ ∀ s < n,
        (q.blockNumber s = c ↔ p.blockNumber s = c) ∧
          (p.blockNumber s = c → q.isMarked s = p.isMarked s)) ∧
      (∀ s < n, q.blockNumber s ∈ parts → q.isMarked s = false) ∧
      p.numBlocks ≤ q.numBlocks ∧
      parts = b :: List.range' p.numBlocks (q.numBlocks - p.numBlocks) ∧
      (∀ c, c ∈ parts ↔ ∃ s < n, p.blockNumber s = b ∧ q.blockNumber s = c) ∧
      ∀ c ∈ parts, (q.members c).length ≤ (q.members b).length := by
  have hnum := numberMarked_function hp hb hm hg
  have h := splitNumbered_spec hp hb hnum
  have hlargest := fun c => splitNumbered_largest hp hb hnum (c := c)
  refine ⟨_, _, split_eq p b _ (), h.consistent, ?_⟩
  set parts := (p.splitNumbered b (p.numberMarked b (fun _ s => (g s, ())) ()).1).1
  set q := (p.splitNumbered b (p.numberMarked b (fun _ s => (g s, ())) ()).1).2
  have hmem : ∀ c, c ∈ parts ↔ c = b ∨ p.numBlocks ≤ c ∧ c < q.numBlocks := fun c => by
    rw [h.parts_eq, mem_parts_iff h.le]
  have hlt : ∀ c ∈ parts, c < q.numBlocks := by
    intro c hc
    rcases (hmem c).1 hc with rfl | hc
    · exact hb.trans_le h.le
    · exact hc.2
  -- A state of another block keeps its number, which is not the number of a part.
  have hinside : ∀ s < n, q.blockNumber s ∈ parts → p.blockNumber s = b := by
    intro s hs hmemq
    by_contra hsb
    rw [(h.other s hs hsb).1, hmem] at hmemq
    have := hp.live_block s hs
    omega
  refine ⟨?_, ?_, ?_, h.le, ?_, ?_, ?_⟩
  · intro s hs t ht hsb htb
    rw [h.same_iff s hs t ht hsb htb]
    cases p.isMarked s <;> cases p.isMarked t <;> simp
  · intro c hc hcb
    refine ⟨h.block_eq c hc hcb, fun s hs => ⟨⟨fun hsc => ?_, fun hsc => ?_⟩, fun hsc => ?_⟩⟩
    · have hsb : p.blockNumber s ≠ b := by
        intro hsb
        have := (hmem _).1 (h.inside s hs hsb).1
        omega
      rw [← (h.other s hs hsb).1, hsc]
    · rw [(h.other s hs (hsc ▸ hcb)).1, hsc]
    · exact (h.other s hs (hsc ▸ hcb)).2
  · exact fun s hs hmemq => (h.inside s hs (hinside s hs hmemq)).2
  · rw [h.parts_eq, List.range'_eq_map_range]
  · refine fun c => ⟨fun hc => ?_, ?_⟩
    · obtain ⟨s, hs, rfl⟩ := h.consistent.exists_mem (hlt c hc)
      exact ⟨s, hs, hinside s hs hc, rfl⟩
    · rintro ⟨s, hs, hsb, rfl⟩
      exact (h.inside s hs hsb).1
  · intro c hc
    rw [members, members, h.consistent.length_slice (h.consistent.stop_le c (hlt c hc)),
      h.consistent.length_slice (h.consistent.stop_le b (hlt b ((hmem b).2 (.inl rfl))))]
    exact hlargest c hc

/-- Five states in two blocks. State 3 is not marked, and so it stands in front of the others of its
block. -/
def halfMarked : MarkedPartition where
  states := #[3, 0, 2, 1, 4]
  blocks := #[⟨0, 1, 3⟩, ⟨3, 3, 5⟩]
  blockOf := #[0, 1, 0, 0, 1]
  offsetOf := #[1, 3, 2, 0, 4]

theorem halfMarked_consistent : halfMarked.Consistent 5 where
  states_size := rfl
  blockOf_size := rfl
  offsetOf_size := rfl
  live_lt _ hb := hb
  start_le_split := by decide
  split_le_stop := by decide
  start_lt_stop := by decide
  stop_le := by decide
  disjoint b c hb hc i hi hi' := by
    change b < 2 at hb
    change c < 2 at hc
    interval_cases b <;> interval_cases c <;> simp [Covers, block, halfMarked] at hi hi' ⊢ <;> omega
  settled_lt _ hs := hs
  state_offset := by decide
  live_block := by decide
  covers := by
    unfold Covers
    decide

/-- States 0 and 2 are marked with different numbers, and state 3 is not marked, so the first block
falls into three parts; states 1 and 4 stay together, and stay marked. -/
theorem halfMarked_split : ∃ parts q,
    halfMarked.split 0 (fun _ s => (if s = 2 then 0 else 1, ())) () = (parts, q, ()) ∧
      q.Consistent 5 ∧ q.blockNumber 0 ≠ q.blockNumber 2 ∧ q.blockNumber 0 ≠ q.blockNumber 3 ∧
      q.blockNumber 2 ≠ q.blockNumber 3 ∧ q.blockNumber 1 = 1 ∧ q.blockNumber 4 = 1 ∧
      q.isMarked 1 = true ∧ q.isMarked 2 = false := by
  obtain ⟨parts, q, hsplit, hq, hsame, hother, hunmarked, -, -, hparts, -⟩ :=
    split_by_function halfMarked_consistent (b := 0) (g := fun s => if s = 2 then 0 else 1)
      (by decide) ⟨0, by decide⟩ (by decide)
  have hone := (hother 1 (by decide) (by decide)).2
  refine ⟨parts, q, hsplit, hq, ?_, ?_, ?_, ?_, ?_, ?_, ?_⟩
  · rw [ne_eq, hsame 0 (by decide) 2 (by decide) (by decide) (by decide)]
    decide
  · rw [ne_eq, hsame 0 (by decide) 3 (by decide) (by decide) (by decide)]
    decide
  · rw [ne_eq, hsame 2 (by decide) 3 (by decide) (by decide) (by decide)]
    decide
  · exact (hone 1 (by decide)).1.2 (by decide)
  · exact (hone 4 (by decide)).1.2 (by decide)
  · exact (hone 1 (by decide)).2 (by decide)
  · exact hunmarked 2 (by decide) ((hparts _).2 ⟨2, by decide, by decide, rfl⟩)

end MarkedPartition
end MarkovCheck

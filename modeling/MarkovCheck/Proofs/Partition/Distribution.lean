import Mathlib
import MarkovCheck.Partition.Marked

/-!
# MarkovCheck.Proofs.Partition.Distribution

Counting and moving numbered states is the same as placing their parts one after the other.

The states of each number form a part. The counts are the sizes of the parts, so the ranges that are
laid out for the counts fit the parts. States are moved in the order in which they are listed, from one
range to another, but moves of different states to different places commute, so the moves into one
range may be made together.

* `collect`, `placeParts` — the parts, and placing them one by one.
* `countNumbers_eq`       — the counts are the sizes of the parts.
* `Fits`                  — the ranges fit the parts.
* `distribute_eq`         — moving the states is placing the parts.
* `appendParts_eq`        — placing parts in new blocks, in terms of the ranges laid out for them.
-/

namespace MarkovCheck
namespace MarkedPartition

/-! ## Parts -/

/-- The states with each of the numbers below `count`, in the order of the list. -/
def collect (count : ℕ) (numbered : List (ℕ × ℕ)) : List (List ℕ) :=
  (numbered.foldr (fun e lists => lists.modify e.2 (e.1 :: ·)) (Array.replicate count [])).toList

theorem collect_cons (count : ℕ) (e : ℕ × ℕ) (l : List (ℕ × ℕ)) :
    collect count (e :: l) = (collect count l).modify e.2 (e.1 :: ·) := by
  simp [collect]

theorem length_collect (count : ℕ) (l : List (ℕ × ℕ)) : (collect count l).length = count := by
  induction l with
  | nil => simp [collect]
  | cons e l ih => rw [collect_cons, List.length_modify, ih]

/-- The states with a number, in the order of the list. -/
theorem getElem?_collect (count : ℕ) (l : List (ℕ × ℕ)) {j : ℕ} (hj : j < count) :
    (collect count l)[j]? = some ((l.filter fun e => e.2 = j).map (·.1)) := by
  induction l with
  | nil => simp [collect, hj]
  | cons e l ih =>
    rw [collect_cons, List.getElem?_modify, ih]
    by_cases h : e.2 = j
    · simp [h]
    · simp [h]

theorem flatten_modify_perm (s : ℕ) {ls : List (List ℕ)} {j : ℕ} (hj : j < ls.length) :
    (ls.modify j (s :: ·)).flatten.Perm (s :: ls.flatten) := by
  induction ls generalizing j with
  | nil => simp at hj
  | cons l ls ih =>
    cases j with
    | zero => simp
    | succ j =>
      rw [List.modify_succ_cons, List.flatten_cons, List.flatten_cons]
      have := ih (j := j) (by simpa using hj)
      exact (this.append_left l).trans List.perm_middle

/-- Every numbered state is collected once. -/
theorem collect_perm {count : ℕ} {l : List (ℕ × ℕ)} (h : ∀ e ∈ l, e.2 < count) :
    (collect count l).flatten.Perm (l.map (·.1)) := by
  induction l with
  | nil => simp [collect]
  | cons e l ih =>
    rw [List.forall_mem_cons] at h
    rw [collect_cons, List.map_cons]
    have hlt : e.2 < (collect count l).length := (length_collect count l).symm ▸ h.1
    exact (flatten_modify_perm e.1 hlt).trans ((ih h.2).cons e.1)

/-- When every number occurs, no part is empty. -/
theorem ne_nil_of_mem_collect {count : ℕ} {l : List (ℕ × ℕ)}
    (h : ∀ j < count, ∃ e ∈ l, e.2 = j) : ∀ part ∈ collect count l, part ≠ [] := by
  intro part hpart
  obtain ⟨j, hj⟩ := List.mem_iff_getElem?.1 hpart
  have hlt : j < count := by
    rw [← length_collect count l]
    exact (List.getElem?_eq_some_iff.1 hj).1
  rw [getElem?_collect count l hlt, Option.some.injEq] at hj
  obtain ⟨e, he, hej⟩ := h j hlt
  rintro rfl
  have : e ∈ l.filter fun e => e.2 = j := List.mem_filter.2 ⟨he, by simpa using hej⟩
  rw [List.map_eq_nil_iff.1 hj] at this
  cases this

/-! ## Counting -/

/-- The least number of parts that hold the given numbers. -/
def countParts (numbered : List (ℕ × ℕ)) : ℕ := numbered.foldr (fun e n => max (e.2 + 1) n) 0

theorem countParts_cons (e : ℕ × ℕ) (l : List (ℕ × ℕ)) :
    countParts (e :: l) = max (e.2 + 1) (countParts l) := rfl

theorem countParts_le_iff {l : List (ℕ × ℕ)} {k : ℕ} :
    countParts l ≤ k ↔ ∀ e ∈ l, e.2 < k := by
  induction l with
  | nil => simp [countParts]
  | cons e l ih => rw [countParts_cons, max_le_iff, ih, List.forall_mem_cons, Nat.add_one_le_iff]

theorem lt_countParts {l : List (ℕ × ℕ)} {e : ℕ × ℕ} (he : e ∈ l) : e.2 < countParts l :=
  countParts_le_iff.1 le_rfl e he

theorem countNumbers_cons (counts : Array ℕ) (e : ℕ × ℕ) (l : List (ℕ × ℕ)) :
    countNumbers counts (e :: l) = countNumbers
      ((counts ++ Array.replicate (e.2 + 1 - counts.size) 0).modify e.2 (· + 1)) l := rfl

theorem countNumbers_size (counts : Array ℕ) (l : List (ℕ × ℕ)) :
    (countNumbers counts l).size = max counts.size (countParts l) := by
  induction l generalizing counts with
  | nil => simp [countNumbers, countParts]
  | cons e l ih =>
    rw [countNumbers_cons, ih, countParts_cons]
    simp only [Array.size_modify, Array.size_append, Array.size_replicate]
    omega

theorem countNumbers_getD (counts : Array ℕ) (l : List (ℕ × ℕ)) (j : ℕ) :
    (countNumbers counts l)[j]?.getD 0 =
      counts[j]?.getD 0 + (l.filter fun e => e.2 = j).length := by
  induction l generalizing counts with
  | nil => simp [countNumbers]
  | cons e l ih =>
    set grown := counts ++ Array.replicate (e.2 + 1 - counts.size) 0 with hdef
    have hgrown : grown[j]?.getD 0 = counts[j]?.getD 0 := by
      rw [hdef, Array.getElem?_append]
      split
      · rfl
      · rename_i h
        rw [Array.getElem?_eq_none (not_lt.1 h), Array.getElem?_replicate]
        split <;> rfl
    have hcons : countNumbers counts (e :: l) = countNumbers (grown.modify e.2 (· + 1)) l := rfl
    rw [hcons, ih, Array.getElem?_modify, List.filter_cons]
    by_cases h : e.2 = j
    · have hlt : j < grown.size := by
        rw [hdef, Array.size_append, Array.size_replicate]
        omega
      rw [Array.getElem?_eq_getElem hlt, Option.getD_some] at hgrown
      simp only [h, Array.getElem?_eq_getElem hlt, hgrown, if_true, Option.map_some,
        Option.getD_some, decide_true, List.length_cons]
      omega
    · simp [h, hgrown]

/-- The counts are the sizes of the parts. -/
theorem countNumbers_eq (k : ℕ) (l : List (ℕ × ℕ)) :
    (countNumbers (Array.replicate k 0) l).toList =
      (collect (max k (countParts l)) l).map List.length := by
  have hsize : (countNumbers (Array.replicate k 0) l).size = max k (countParts l) := by
    rw [countNumbers_size, Array.size_replicate]
  apply List.ext_getElem
  · rw [List.length_map, length_collect, Array.length_toList, hsize]
  · intro j h1 h2
    rw [Array.length_toList] at h1
    have hcount := countNumbers_getD (Array.replicate k 0) l j
    have hpart := getElem?_collect _ l (h1.trans_eq hsize)
    rw [List.length_map] at h2
    rw [List.getElem?_eq_getElem h2, Option.some_inj] at hpart
    rw [Array.getElem?_eq_getElem h1, Option.getD_some] at hcount
    rw [Array.getElem_toList, List.getElem_map, hpart, hcount, List.length_map]
    by_cases hj : j < k
    · simp [hj]
    · simp [hj]

/-! ## Placing parts -/

/-- Places the states of block `b` one after the other from a given offset on. -/
def place (p : MarkedPartition) (b offset : ℕ) : List ℕ → MarkedPartition
  | [] => p
  | s :: rest => place (p.put b offset s) b (offset + 1) rest

/-- Places parts at their starts, in blocks with the given names. -/
def placeParts (name : ℕ → ℕ) (p : MarkedPartition) : List ℕ → List (List ℕ) → MarkedPartition
  | start :: starts, part :: parts =>
    placeParts (fun j => name (j + 1)) (p.place (name 0) start part) starts parts
  | _, _ => p

/-- Every part has as many places as it has states before the next one starts, and the first one
starts at `stop` or later. -/
inductive Fits : ℕ → List ℕ → List (List ℕ) → Prop
  | nil (stop : ℕ) : Fits stop [] []
  | cons {stop start : ℕ} {part : List ℕ} {starts : List ℕ} {parts : List (List ℕ)}
      (hle : stop ≤ start) (hrest : Fits (start + part.length) starts parts) :
      Fits stop (start :: starts) (part :: parts)

theorem Fits.length_eq {stop : ℕ} {starts : List ℕ} {parts : List (List ℕ)}
    (h : Fits stop starts parts) : starts.length = parts.length := by
  induction h with
  | nil => rfl
  | cons hle hrest ih => rw [List.length_cons, List.length_cons, ih]

theorem Fits.le {stop : ℕ} {starts : List ℕ} {parts : List (List ℕ)}
    (h : Fits stop starts parts) {k : ℕ} (hk : k < starts.length) : stop ≤ starts[k]?.getD 0 := by
  induction h generalizing k with
  | nil => cases hk
  | cons hle hrest ih =>
    cases k with
    | zero => exact hle
    | succ k =>
      have := ih (Nat.lt_of_succ_lt_succ hk)
      rw [List.getElem?_cons_succ]
      omega

/-- When the first state of a part has its place, the others fit behind it. -/
theorem Fits.advance {s k stop : ℕ} {starts : List ℕ} {parts : List (List ℕ)}
    (h : Fits stop starts (parts.modify k (s :: ·))) (hk : k < parts.length) :
    Fits stop (starts.set k (starts[k]?.getD 0 + 1)) parts := by
  induction parts generalizing k stop starts with
  | nil => cases hk
  | cons part parts ih =>
    cases k with
    | zero =>
      rw [List.modify_zero_cons] at h
      cases h with
      | cons hle hrest =>
        rename_i start starts
        rw [List.length_cons] at hrest
        refine .cons (by simpa using Nat.le_succ_of_le hle) ?_
        simpa [Nat.add_assoc, Nat.add_comm 1] using hrest
    | succ k =>
      rw [List.modify_succ_cons] at h
      cases h with
      | cons hle hrest => exact .cons hle (ih hrest (Nat.lt_of_succ_lt_succ hk))

theorem put_put_comm (p : MarkedPartition) (b c : ℕ) {o o' s t : ℕ} (hs : s ≠ t) (ho : o ≠ o') :
    (p.put b o s).put c o' t = (p.put c o' t).put b o s := by
  simp only [put]
  rw [Array.setIfInBounds_comm _ _ ho, Array.setIfInBounds_comm _ _ hs,
    Array.setIfInBounds_comm _ _ hs]

/-- A state may be moved before or after a part that it does not belong to. -/
theorem place_put_comm (p : MarkedPartition) (b c : ℕ) {o s offset : ℕ} {part : List ℕ}
    (hs : s ∉ part) (ho : offset + part.length ≤ o) :
    (p.put c o s).place b offset part = (p.place b offset part).put c o s := by
  induction part generalizing p offset with
  | nil => rfl
  | cons t part ih =>
    rw [List.mem_cons, not_or] at hs
    rw [List.length_cons] at ho
    rw [place, place, put_put_comm p c b hs.1 (by omega), ih _ hs.2 (by omega)]

theorem placeParts_empty (name : ℕ → ℕ) (p : MarkedPartition) {starts : List ℕ}
    {parts : List (List ℕ)} (h : ∀ part ∈ parts, part = []) :
    placeParts name p starts parts = p := by
  induction parts generalizing name starts with
  | nil => cases starts <;> rfl
  | cons part parts ih =>
    rw [List.forall_mem_cons] at h
    cases starts with
    | nil => rfl
    | cons start starts =>
      obtain ⟨rfl, h⟩ := h
      exact ih _ h

/-- The first state of a part may be moved before all other states. -/
theorem placeParts_modify (name : ℕ → ℕ) (p : MarkedPartition) {s k stop : ℕ} {starts : List ℕ}
    {parts : List (List ℕ)} (h : Fits stop starts (parts.modify k (s :: ·))) (hk : k < parts.length)
    (hs : s ∉ parts.flatten) : placeParts name p starts (parts.modify k (s :: ·)) =
      placeParts name (p.put (name k) (starts[k]?.getD 0) s)
        (starts.set k (starts[k]?.getD 0 + 1)) parts := by
  induction parts generalizing name p k stop starts with
  | nil => cases hk
  | cons part parts ih =>
    rw [List.flatten_cons, List.mem_append, not_or] at hs
    cases k with
    | zero =>
      rw [List.modify_zero_cons] at h ⊢
      cases h with
      | cons hle hrest => rfl
    | succ k =>
      rw [List.modify_succ_cons] at h ⊢
      have hk := Nat.lt_of_succ_lt_succ hk
      cases h with
      | cons hle hrest =>
        rename_i start starts
        have hlen := hrest.length_eq
        rw [List.length_modify] at hlen
        rw [placeParts, ih _ _ hrest hk hs.2, List.getElem?_cons_succ, List.set_cons_succ, placeParts,
          place_put_comm p (name 0) (name (k + 1)) hs.1 (hrest.le (by omega))]

/-- Moving numbered states is placing their parts, if these fit. -/
theorem distribute_eq (name : ℕ → ℕ) (p : MarkedPartition) {stop : ℕ} {starts : List ℕ}
    {numbered : List (ℕ × ℕ)} {count : ℕ} (hfits : Fits stop starts (collect count numbered))
    (hlt : ∀ e ∈ numbered, e.2 < count) (hnd : (numbered.map (·.1)).Nodup) :
    distribute name p starts.toArray numbered =
      placeParts name p starts (collect count numbered) := by
  induction numbered generalizing p starts with
  | nil =>
    refine (placeParts_empty name p fun part hpart => ?_).symm
    simp only [collect, List.foldr_nil, Array.toList_replicate] at hpart
    exact List.eq_of_mem_replicate hpart
  | cons e numbered ih =>
    rw [List.forall_mem_cons] at hlt
    rw [List.map_cons, List.nodup_cons] at hnd
    rw [collect_cons] at hfits ⊢
    have hk : e.2 < (collect count numbered).length := (length_collect count numbered).symm ▸ hlt.1
    have hs : e.1 ∉ (collect count numbered).flatten := fun h =>
      hnd.1 ((collect_perm hlt.2).mem_iff.1 h)
    rw [placeParts_modify name p hfits hk hs, ← ih _ (hfits.advance hk) hlt.2 hnd.2, distribute,
      List.getElem?_toArray, List.setIfInBounds_toArray]

/-! ## Parts as new blocks -/

/-- Appends blocks for the given parts, whose states are placed one after the other. -/
def appendParts (make : ℕ → ℕ → Block) (p : MarkedPartition) (offset : ℕ) :
    List (List ℕ) → MarkedPartition
  | [] => p
  | part :: rest =>
    let stop := offset + part.length
    let q := p.place p.blocks.size offset part
    appendParts make { q with blocks := q.blocks.push (make offset stop) } stop rest

/-- The same arrangement of the states with other blocks. -/
def withBlocks (p : MarkedPartition) (blocks : Array Block) : MarkedPartition :=
  { p with blocks }

theorem place_withBlocks (p : MarkedPartition) (blocks : Array Block) (b offset : ℕ)
    (part : List ℕ) :
    (p.withBlocks blocks).place b offset part = (p.place b offset part).withBlocks blocks := by
  induction part generalizing p offset with
  | nil => rfl
  | cons s part ih => exact ih (p.put b offset s) (offset + 1)

theorem placeParts_withBlocks (name : ℕ → ℕ) (p : MarkedPartition) (blocks : Array Block)
    (starts : List ℕ) (parts : List (List ℕ)) : placeParts name (p.withBlocks blocks) starts parts =
      (placeParts name p starts parts).withBlocks blocks := by
  induction parts generalizing name p starts with
  | nil => cases starts <;> rfl
  | cons part parts ih =>
    cases starts with
    | nil => rfl
    | cons start starts => rw [placeParts, place_withBlocks, ih, placeParts]

theorem place_blocks (p : MarkedPartition) (b offset : ℕ) (part : List ℕ) :
    (p.place b offset part).blocks = p.blocks := by
  induction part generalizing p offset with
  | nil => rfl
  | cons s part ih => exact ih (p.put b offset s) (offset + 1)

/-- Ranges that are laid out for the sizes of some parts fit them. -/
theorem fits_layOut (make : ℕ → ℕ → Block) (blocks : Array Block) (stop : ℕ)
    (parts : List (List ℕ)) :
    Fits stop (layOut (appendBlock make) blocks stop (parts.map List.length)).1 parts := by
  induction parts generalizing blocks stop with
  | nil => exact .nil stop
  | cons part parts ih => exact .cons le_rfl (ih _ _)

/-- Appending blocks is laying out their ranges and placing the parts there. -/
theorem appendParts_eq (make : ℕ → ℕ → Block) (p : MarkedPartition) (offset : ℕ)
    (parts : List (List ℕ)) : appendParts make p offset parts =
      (placeParts (p.numBlocks + ·) p
        (layOut (appendBlock make) p.blocks offset (parts.map List.length)).1 parts).withBlocks
        (layOut (appendBlock make) p.blocks offset (parts.map List.length)).2 := by
  induction parts generalizing p offset with
  | nil => rfl
  | cons part parts ih =>
    have hblocks := place_blocks p p.blocks.size offset part
    have hname : (fun j => (p.blocks.push (make offset (offset + part.length))).size + j) =
        fun j => p.numBlocks + (j + 1) := by
      funext j
      rw [Array.size_push, numBlocks]
      omega
    rw [appendParts, ih]
    change ((placeParts _ ((p.place p.blocks.size offset part).withBlocks _) _ parts).withBlocks _) = _
    rw [placeParts_withBlocks]
    simp only [numBlocks, hblocks, hname]
    rfl

end MarkedPartition
end MarkovCheck

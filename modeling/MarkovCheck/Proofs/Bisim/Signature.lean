import Mathlib
import MarkovCheck.Bisim.Signature
import MarkovCheck.Proofs.Chain.Mass
import MarkovCheck.Proofs.Interning

/-!
# MarkovCheck.Proofs.Bisim.Signature

Signatures compare like the masses of the blocks.

`blockSums` lists the blocks with a mass other than zero, in ascending order and each once, so two
lists are equal exactly when the masses of all blocks are. Interning replaces the totals by indices.
It is a map that only depends on the cache that is left in the end, and one that is injective on
the lists whose totals this cache knows. So signatures are compared like the lists, whatever the
cache contained before.

* `mem_blockSums`, `blockSums_ascend` — what `blockSums` lists.
* `blockSums_eq_iff`  — equal lists, equal masses.
* `encode_inj`        — equal signatures, equal lists.
* `signature_spec`, `signatures_spec` — signatures are encoded lists.
-/

namespace MarkovCheck
namespace Bisim

/-! ## Groups -/

section Groups

variable {V : Type}

/-- The groups of a list: its entries by ascending block. -/
def groups (l : List (ℕ × V)) : List (BlockValues V) := l.foldr consGroup []

/-- The groups of a list in ascending order: each holds the values of one block, in order, and every
block that occurs has one. -/
theorem groups_spec {l : List (ℕ × V)} (h : l.Pairwise (·.1 ≤ ·.1)) :
    (groups l).Pairwise (·.1 < ·.1) ∧
      (∀ g ∈ groups l, g.2 = (l.filter fun e => e.1 = g.1).map (·.2)) ∧
      ∀ b, (∃ g ∈ groups l, g.1 = b) ↔ ∃ e ∈ l, e.1 = b := by
  induction l with
  | nil => simp [groups]
  | cons e l ih =>
    rw [List.pairwise_cons] at h
    obtain ⟨hasc, hval, hmem⟩ := ih h.2
    have hstep : groups (e :: l) = consGroup e (groups l) := rfl
    rw [hstep]
    revert hasc hval hmem
    cases groups l with
    | nil =>
      intro _ _ hmem
      have hl : ∀ x ∈ l, False := fun x hx => by
        obtain ⟨g, hg, -⟩ := (hmem x.1).2 ⟨x, hx, rfl⟩
        cases hg
      obtain rfl : l = [] := List.eq_nil_iff_forall_not_mem.2 hl
      simp [consGroup]
    | cons g rest =>
      intro hasc hval hmem
      rw [List.pairwise_cons] at hasc
      have hle : e.1 ≤ g.1 := by
        obtain ⟨x, hx, hxg⟩ := (hmem g.1).1 ⟨g, List.mem_cons_self, rfl⟩
        exact hxg ▸ h.1 x hx
      -- The pair joins the first group, or begins one before it.
      rcases hle.eq_or_lt with heq | hlt
      · rw [consGroup, if_pos heq]
        refine ⟨List.pairwise_cons.2 hasc, ?_, fun b => ?_⟩
        · rw [List.forall_mem_cons] at hval ⊢
          refine ⟨by simp [heq, ← hval.1], fun x hx => ?_⟩
          have : e.1 ≠ x.1 := by
            have := hasc.1 x hx
            omega
          simp [this, ← hval.2 x hx]
        · rw [List.exists_mem_cons_iff (p := fun x => x.1 = b) (a := e), ← hmem b, heq]
          simp only [List.exists_mem_cons_iff, or_self_left]
      · rw [consGroup, if_neg hlt.ne]
        have hall : ∀ x ∈ g :: rest, e.1 < x.1 := by
          intro x hx
          rcases List.mem_cons.1 hx with rfl | hx
          · exact hlt
          · exact hlt.trans (hasc.1 x hx)
        have hfresh : ∀ x ∈ l, ¬ x.1 = e.1 := by
          intro x hx hxe
          obtain ⟨y, hy, hye⟩ := (hmem e.1).2 ⟨x, hx, hxe⟩
          exact absurd (hall y hy) (by omega)
        refine ⟨List.pairwise_cons.2 ⟨hall, List.pairwise_cons.2 hasc⟩, ?_, fun b => ?_⟩
        · rw [List.forall_mem_cons]
          refine ⟨?_, fun x hx => ?_⟩
          · have : l.filter (fun x => decide (x.1 = e.1)) = [] := by
              rw [List.filter_eq_nil_iff]
              simpa using hfresh
            simp [this]
          · have : e.1 ≠ x.1 := (hall x hx).ne
            simp [this, ← hval x hx]
        · rw [List.exists_mem_cons_iff, hmem b, List.exists_mem_cons_iff]

end Groups

/-! ## Block sums -/

variable {m : Model RationalFunction} {p : Partition} {s t : ℕ}

theorem byBlock_perm (p : Partition) (row : List (ℕ × RationalFunction)) :
    (byBlock p row).Perm (row.map fun e => (p.block e.1, e.2)) := List.mergeSort_perm _ _

theorem byBlock_ascend (p : Partition) (row : List (ℕ × RationalFunction)) :
    (byBlock p row).Pairwise (·.1 ≤ ·.1) := by
  have : (byBlock p row).Pairwise fun a b => decide (a.1 ≤ b.1) = true :=
    List.pairwise_mergeSort (by simpa using fun _ _ _ => le_trans) (by simpa using Nat.le_total) _
  simpa using this

theorem blockSums_eq_filterMap (m : Model RationalFunction) (p : Partition) (s : ℕ) :
    blockSums m p s = (groups (byBlock p (m.row s))).filterMap fun g =>
      if Value.isZero (Value.sumCanonical g.2) then none
      else some (g.1, Value.sumCanonical g.2) := rfl

/-- The values of one block add up to its mass. -/
theorem sum_filter_byBlock (m : Model RationalFunction) (p : Partition) (s b : ℕ) :
    ((((byBlock p (m.row s)).filter fun e => e.1 = b).map (·.2)).map RationalFunction.toFrac).sum =
      m.mass s {u | p.block u = b} := by
  classical
  rw [Model.mass_eq_sum_filter, (((byBlock_perm p _).filter _).map _ |>.map _).sum_eq,
    List.filter_map]
  simp only [List.map_map, Function.comp_def, Set.mem_ofPred_eq]
  congr!

theorem sumCanonical_group_denotes (hm : m.IsCanonical) {g : BlockValues RationalFunction}
    (hg : g ∈ groups (byBlock p (m.row s))) :
    (Value.sumCanonical g.2).Denotes (m.mass s {u | p.block u = g.1}) := by
  have hval := (groups_spec (byBlock_ascend p (m.row s))).2.1 g hg
  rw [← sum_filter_byBlock, ← hval]
  refine Value.sumCanonical_denotes fun f hf => ?_
  rw [hval] at hf
  obtain ⟨e, he, rfl⟩ := List.mem_map.1 hf
  obtain ⟨e', he', rfl⟩ := List.mem_map.1 ((byBlock_perm p _).mem_iff.1 (List.mem_of_mem_filter he))
  exact hm.row s e' he'

/-- The blocks ascend, and each occurs once. -/
theorem blockSums_ascend (m : Model RationalFunction) (p : Partition) (s : ℕ) :
    (blockSums m p s).Pairwise (·.1 < ·.1) := by
  rw [blockSums_eq_filterMap, List.pairwise_filterMap]
  refine (groups_spec (byBlock_ascend p (m.row s))).1.imp ?_
  intro g h hlt x hx y hy
  split at hx
  · cases hx
  · split at hy
    · cases hy
    · cases hx
      cases hy
      exact hlt

/-- The blocks with a mass other than zero are listed with this mass. -/
theorem mem_blockSums (hm : m.IsCanonical) {b : ℕ} {v : RationalFunction} :
    (b, v) ∈ blockSums m p s ↔
      v.Denotes (m.mass s {u | p.block u = b}) ∧ m.mass s {u | p.block u = b} ≠ 0 := by
  rw [blockSums_eq_filterMap, List.mem_filterMap]
  constructor
  · rintro ⟨g, hg, h⟩
    have hden := sumCanonical_group_denotes hm hg
    split at h
    · cases h
    · rename_i hz
      cases h
      rw [Bool.not_eq_true] at hz
      refine ⟨hden, ?_⟩
      rw [← hden.2]
      exact (RationalFunction.isZero_eq_false_iff hden.1).1 hz
  · rintro ⟨hv, h0⟩
    have : ∃ g ∈ groups (byBlock p (m.row s)), g.1 = b := by
      rw [(groups_spec (byBlock_ascend p (m.row s))).2.2 b]
      by_contra hno
      push Not at hno
      refine h0 (Model.mass_eq_zero fun e he hb => ?_)
      exact hno (p.block e.1, e.2) ((byBlock_perm p _).mem_iff.2 (List.mem_map_of_mem he)) hb
    obtain ⟨g, hg, rfl⟩ := this
    have hden := sumCanonical_group_denotes hm hg
    refine ⟨g, hg, ?_⟩
    have hz : Value.isZero (Value.sumCanonical g.2) = false :=
      (RationalFunction.isZero_eq_false_iff hden.1).2 (hden.2 ▸ h0)
    rw [hz, hden.eq hv]
    simp

/-- The lists of two states are equal exactly when the masses of all blocks are. -/
theorem blockSums_eq_iff (hm : m.IsCanonical) :
    blockSums m p s = blockSums m p t ↔ m.SameMasses p.block s t := by
  constructor
  · intro h b
    by_cases h0 : m.mass s {u | p.block u = b} = 0
    · by_contra hne
      rw [h0] at hne
      have hmem := (mem_blockSums hm).2 ⟨Model.total_denotes hm t {u | p.block u = b}, Ne.symm hne⟩
      rw [← h] at hmem
      exact ((mem_blockSums hm).1 hmem).2 h0
    · have hmem := (mem_blockSums hm).2 ⟨Model.total_denotes hm s {u | p.block u = b}, h0⟩
      have h1 := ((mem_blockSums hm).1 hmem).1
      rw [h] at hmem
      exact h1.2.symm.trans ((mem_blockSums hm).1 hmem).1.2
  · intro h
    refine eq_of_ascend (blockSums_ascend m p s) (blockSums_ascend m p t) fun e => ?_
    rw [mem_blockSums hm, mem_blockSums hm, h]

/-! ## Interned totals -/

/-- The totals of a list are known to a cache. -/
def Knows (c : ValueCache RationalFunction) (sums : List (ℕ × RationalFunction)) : Prop :=
  ∀ e ∈ sums, ∃ i, c.index? e.2 = some i

/-- The signature for known totals. -/
def encode (c : ValueCache RationalFunction) (sums : List (ℕ × RationalFunction)) : Signature :=
  sums.map fun e => (e.1, (c.index? e.2).getD 0)

theorem Knows.extends {c d : ValueCache RationalFunction} {sums : List (ℕ × RationalFunction)}
    (h : Knows c sums) (hcd : c.Extends d) : Knows d sums := fun e he =>
  (h e he).imp fun i hi => hcd _ i hi

/-- A later cache gives the same signature. -/
theorem encode_extends {c d : ValueCache RationalFunction} {sums : List (ℕ × RationalFunction)}
    (h : Knows c sums) (hcd : c.Extends d) : encode d sums = encode c sums := by
  refine List.map_congr_left fun e he => ?_
  obtain ⟨i, hi⟩ := h e he
  rw [hi, hcd _ i hi]

/-- Signatures are equal only for equal totals. -/
theorem encode_inj {c : ValueCache RationalFunction} {as bs : List (ℕ × RationalFunction)}
    (ha : Knows c as) (hb : Knows c bs) : encode c as = encode c bs ↔ as = bs := by
  refine ⟨fun h => ?_, congrArg _⟩
  induction as generalizing bs with
  | nil => exact (List.map_eq_nil_iff.1 h.symm).symm
  | cons a as ih =>
    cases bs with
    | nil => cases h
    | cons b bs =>
      simp only [Knows, List.forall_mem_cons] at ha hb
      obtain ⟨⟨i, hi⟩, has⟩ := ha
      obtain ⟨⟨j, hj⟩, hbs⟩ := hb
      simp only [encode, List.map_cons, List.cons.injEq, Prod.mk.injEq, hi, hj,
        Option.getD_some] at h
      obtain ⟨⟨h1, rfl⟩, h2⟩ := h
      rw [Prod.ext h1 (ValueCache.index?_inj hi hj), ih has hbs h2]

/-- The totals are inserted one after the other. -/
theorem intern_eq_insertAll (c : ValueCache RationalFunction) (sums : List (ℕ × RationalFunction)) :
    intern c sums = ((sums.map (·.1)).zip (c.insertAll (sums.map (·.2))).1,
      (c.insertAll (sums.map (·.2))).2) := by
  induction sums generalizing c with
  | nil => rfl
  | cons e sums ih =>
    simp only [intern, ih, List.map_cons, ValueCache.insertAll_cons, List.zip_cons_cons]

theorem intern_spec (c : ValueCache RationalFunction) (sums : List (ℕ × RationalFunction)) :
    c.Extends (intern c sums).2 ∧ Knows (intern c sums).2 sums ∧
      (intern c sums).1 = encode (intern c sums).2 sums := by
  obtain ⟨hext, hindexes⟩ := c.insertAll_spec (sums.map (·.2))
  rw [intern_eq_insertAll]
  refine ⟨hext, fun e he => hindexes.known e.2 (List.mem_map_of_mem he), ?_⟩
  dsimp only
  rw [hindexes.eq_map, List.map_map, List.zip_map', encode]
  rfl

theorem signature_spec (m : Model RationalFunction) (p : Partition)
    (c : ValueCache RationalFunction) (s : ℕ) :
    c.Extends (signature m p c s).2 ∧ Knows (signature m p c s).2 (blockSums m p s) ∧
      (signature m p c s).1 = encode (signature m p c s).2 (blockSums m p s) := intern_spec c _

/-- The signatures of a list of states are their encoded totals, by the cache that is left. -/
theorem signatures_spec (m : Model RationalFunction) (p : Partition)
    (c : ValueCache RationalFunction) (l : List ℕ) :
    c.Extends (signatures m p c l).2 ∧
      (∀ s ∈ l, Knows (signatures m p c l).2 (blockSums m p s)) ∧
      (signatures m p c l).1 = l.map fun s => encode (signatures m p c l).2 (blockSums m p s) := by
  induction l generalizing c with
  | nil => exact ⟨.refl c, by simp, rfl⟩
  | cons s l ih =>
    obtain ⟨hext, hknows, heq⟩ := signature_spec m p c s
    obtain ⟨hext', hknows', heq'⟩ := ih (signature m p c s).2
    refine ⟨hext.trans hext', ?_, ?_⟩
    · rw [List.forall_mem_cons]
      exact ⟨hknows.extends hext', hknows'⟩
    · simp only [signatures, List.map_cons]
      rw [heq', heq, ← encode_extends hknows hext']

end Bisim
end MarkovCheck

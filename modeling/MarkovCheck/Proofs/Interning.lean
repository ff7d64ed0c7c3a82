import Mathlib
import MarkovCheck.Numbering
import MarkovCheck.Value.Cache

/-!
# MarkovCheck.Proofs.Interning

Numbers and indices stand for the keys and values they were given to.

A numbering is dense when its numbers are those below its size, each for one key. Numbering keys
keeps this, and never changes the number of a key that is known already; the same holds of the index
of a value in a cache. So keys are compared by their numbers, whatever else was numbered before or
in between.

* `Numbering.number_spec`, `Numbering.numberAll_spec` — what numbering one key, and a list, does.
* `Numbering.numberAll_empty` — the numbers of a list of keys, starting without any.
* `Numbering.numberAll_growth` — numbers are given in the order of first occurrence.
* `Numbering.Lists.numberAll` — numbers as positions among the keys seen so far, without a table.
* `ValueCache.insert_spec` — the index of a value is found again in every later cache.
* `ValueCache.insertAll_spec`, `ValueCache.isFaithful` — the indices of a run of insertions.
-/

namespace MarkovCheck
namespace Numbering

variable {κ : Type} [BEq κ] [Hashable κ]

/-- The numbers in use are those below the size, and no two keys share one. -/
structure Dense (n : Numbering κ) : Prop where
  lt : ∀ {k i}, n.find? k = some i → i < n.size
  inj : ∀ {k l i}, n.find? k = some i → n.find? l = some i → k = l
  surj : ∀ {i}, i < n.size → ∃ k, n.find? k = some i

/-- Every key has the number in `o` that it has in `n`. -/
def Extends (n o : Numbering κ) : Prop := ∀ k i, n.find? k = some i → o.find? k = some i

theorem dense_empty [LawfulBEq κ] [LawfulHashable κ] : (empty : Numbering κ).Dense where
  lt h := by simp [find?, empty] at h
  inj h := by simp [find?, empty] at h
  surj h := by simp [size, empty] at h

variable {n : Numbering κ}

theorem number_le (hn : n.Dense) (k : κ) : (n.number k).1 ≤ n.size := by
  unfold number
  split
  · rename_i i hi
    exact (hn.lt hi).le
  · exact le_rfl

variable [LawfulBEq κ] [LawfulHashable κ]

theorem size_insert {k : κ} (h : n.find? k = none) (i : Nat) :
    (⟨n.numbers.insert k i⟩ : Numbering κ).size = n.size + 1 := by
  have : k ∉ n.numbers := by
    rw [Std.HashMap.mem_iff_isSome_getElem?]
    simpa [find?] using h
  simp [size, Std.HashMap.size_insert, this]

theorem find?_insert (n : Numbering κ) (k l : κ) (i : Nat) :
    (⟨n.numbers.insert k i⟩ : Numbering κ).find? l = if k == l then some i else n.find? l := by
  simp [find?, Std.HashMap.getElem?_insert]

theorem extends_insert {k : κ} (h : n.find? k = none) (i : Nat) :
    n.Extends ⟨n.numbers.insert k i⟩ := by
  intro l j hl
  rw [find?_insert]
  split
  · rename_i hkl
    rw [← eq_of_beq hkl, h] at hl
    cases hl
  · exact hl

theorem dense_insert (hn : n.Dense) {k : κ} (h : n.find? k = none) :
    (⟨n.numbers.insert k n.size⟩ : Numbering κ).Dense where
  lt := by
    intro l i hl
    rw [find?_insert] at hl
    rw [size_insert h]
    split at hl
    · cases hl
      omega
    · have := hn.lt hl
      omega
  inj := by
    intro l o i hl ho
    rw [find?_insert] at hl ho
    split at hl <;> split at ho
    · rename_i h1 h2
      exact (eq_of_beq h1).symm.trans (eq_of_beq h2)
    · cases hl
      exact absurd (hn.lt ho) (lt_irrefl _)
    · cases ho
      exact absurd (hn.lt hl) (lt_irrefl _)
    · exact hn.inj hl ho
  surj := by
    intro i hi
    rw [size_insert h] at hi
    rcases Nat.lt_succ_iff_lt_or_eq.1 hi with hi | rfl
    · obtain ⟨l, hl⟩ := hn.surj hi
      exact ⟨l, extends_insert h _ l i hl⟩
    · exact ⟨k, by rw [find?_insert, if_pos (beq_self_eq_true k)]⟩

/-- The next number is given to a new key only. -/
theorem size_number (hn : n.Dense) (k : κ) :
    (n.number k).2.size = max n.size ((n.number k).1 + 1) := by
  unfold number
  split
  · rename_i i hi
    exact (max_eq_left (hn.lt hi)).symm
  · rename_i h
    rw [size_insert h]
    exact (max_eq_right n.size.le_succ).symm

/-- After a key was numbered it is known by its number, and nothing else has changed. -/
theorem number_spec (hn : n.Dense) (k : κ) :
    (n.number k).2.Dense ∧ n.Extends (n.number k).2 ∧
      (n.number k).2.find? k = some (n.number k).1 ∧
      ∀ i, n.size ≤ i → i < (n.number k).2.size → i = (n.number k).1 := by
  unfold number
  split
  · rename_i i hi
    exact ⟨hn, fun _ _ h => h, hi, fun j h1 h2 => absurd h2 (not_lt.2 h1)⟩
  · rename_i h
    refine ⟨dense_insert hn h, extends_insert h _, ?_, ?_⟩
    · rw [find?_insert, if_pos (beq_self_eq_true k)]
    · intro i h1 h2
      rw [size_insert h] at h2
      omega

/-- The keys of a list are known by the numbers that they were given, and new numbers occur in the
list. -/
theorem numberAll_spec (hn : n.Dense) (ks : List κ) :
    (n.numberAll ks).2.Dense ∧ n.Extends (n.numberAll ks).2 ∧
      (∀ k ∈ ks, ∃ i, (n.numberAll ks).2.find? k = some i) ∧
      (n.numberAll ks).1 = ks.map (fun k => ((n.numberAll ks).2.find? k).getD 0) ∧
      ∀ i, n.size ≤ i → i < (n.numberAll ks).2.size → i ∈ (n.numberAll ks).1 := by
  induction ks generalizing n with
  | nil => exact ⟨hn, fun _ _ h => h, by simp, rfl, fun i h1 h2 => absurd h2 (not_lt.2 h1)⟩
  | cons k ks ih =>
    obtain ⟨hd, hext, hk, hnew⟩ := number_spec hn k
    obtain ⟨hd', hext', hknown, hmap, hnew'⟩ := ih hd
    have hk' := hext' _ _ hk
    refine ⟨hd', fun l i h => hext' l i (hext l i h), ?_, ?_, ?_⟩
    · rw [List.forall_mem_cons]
      exact ⟨⟨_, hk'⟩, hknown⟩
    · simp only [numberAll, List.map_cons]
      rw [hk', Option.getD_some, ← hmap]
    · intro i h1 h2
      simp only [numberAll, List.mem_cons]
      by_cases h : i < (n.number k).2.size
      · exact .inl (hnew i h1 h)
      · exact .inr (hnew' i (not_lt.1 h) h2)

/-- The numbers of a list of keys, when none was known before: they are dense, and equal exactly
for equal keys. -/
theorem numberAll_empty (ks : List κ) :
    ∃ number : κ → Nat, ((empty : Numbering κ).numberAll ks).1 = ks.map number ∧
      (∀ k ∈ ks, ∀ l ∈ ks, number k = number l ↔ k = l) ∧
      (∀ k ∈ ks, number k < ((empty : Numbering κ).numberAll ks).2.size) ∧
      ∀ i < ((empty : Numbering κ).numberAll ks).2.size, ∃ k ∈ ks, number k = i := by
  obtain ⟨hd, -, hknown, hmap, hnew⟩ := numberAll_spec (dense_empty (κ := κ)) ks
  refine ⟨_, hmap, ?_, ?_, ?_⟩
  · intro k hk l hl
    obtain ⟨i, hi⟩ := hknown k hk
    obtain ⟨j, hj⟩ := hknown l hl
    simp only [hi, hj, Option.getD_some]
    constructor
    · rintro rfl
      exact hd.inj hi hj
    · rintro rfl
      exact Option.some.inj (hi.symm.trans hj)
  · intro k hk
    obtain ⟨i, hi⟩ := hknown k hk
    simp only [hi, Option.getD_some]
    exact hd.lt hi
  · intro i hi
    have := hnew i (by simp [size, empty]) hi
    rw [hmap, List.mem_map] at this
    exact this

/-- A number is given only after all numbers below it. -/
theorem numberAll_growth (hn : n.Dense) {ks : List κ} {a i j : Nat}
    (hi : (n.numberAll ks).1[a]? = some i) (hj : n.size ≤ j) (hji : j < i) :
    ∃ b < a, (n.numberAll ks).1[b]? = some j := by
  induction ks generalizing n a with
  | nil => simp [numberAll] at hi
  | cons k ks ih =>
    obtain ⟨hd, -, -, hnew⟩ := number_spec hn k
    simp only [numberAll] at hi ⊢
    cases a with
    | zero =>
      have := number_le hn k
      rw [List.getElem?_cons_zero, Option.some.injEq] at hi
      omega
    | succ a =>
      rw [List.getElem?_cons_succ] at hi
      by_cases h : j < (n.number k).2.size
      · exact ⟨0, a.succ_pos, by rw [hnew j hj h, List.getElem?_cons_zero]⟩
      · obtain ⟨b, hb, hget⟩ := ih hd hi (not_lt.1 h)
        exact ⟨b + 1, by omega, by rwa [List.getElem?_cons_succ]⟩

/-! ### Positions

The table of a numbering does not compute in a proof, since hashes do not. The list of the keys in the
order of their numbers does. -/

/-- Adds a key to a list of keys unless it is known. -/
def addKey (known : List κ) (k : κ) : List κ := if known.contains k then known else known ++ [k]

/-- The positions of the keys of a list, each among the keys known by then. -/
def positions (known : List κ) : List κ → List Nat
  | [] => []
  | k :: ks => known.idxOf k :: positions (addKey known k) ks

/-- The keys with a number are those of a list, and their numbers are their positions. -/
structure Lists (n : Numbering κ) (known : List κ) : Prop where
  size : n.size = known.length
  find? : ∀ k, n.find? k = if known.contains k then some (known.idxOf k) else none

theorem lists_empty : (empty : Numbering κ).Lists [] where
  size := by simp [Numbering.size, empty]
  find? := by simp [Numbering.find?, empty]

/-- A key that is not known gets the next position. -/
theorem Lists.number {known : List κ} (h : n.Lists known) (k : κ) :
    (n.number k).1 = known.idxOf k ∧ (n.number k).2.Lists (addKey known k) := by
  by_cases hk : known.contains k = true
  · have hfind : n.find? k = some (known.idxOf k) := (h.find? k).trans (if_pos hk)
    simp only [Numbering.number, hfind, addKey, if_pos hk]
    exact ⟨trivial, h⟩
  · have hfind : n.find? k = none := (h.find? k).trans (if_neg hk)
    have hmem : k ∉ known := by simpa using hk
    simp only [Numbering.number, hfind, addKey, if_neg hk]
    refine ⟨h.size.trans (List.idxOf_eq_length hmem).symm, ?_, fun l => ?_⟩
    · rw [size_insert hfind, h.size, List.length_append, List.length_singleton]
    · rw [find?_insert, h.find?, h.size]
      by_cases hkl : k = l
      · subst hkl
        simp [List.idxOf_append, hmem]
      · by_cases hl : l ∈ known <;> simp [List.idxOf_append, hkl, hl, Ne.symm hkl]

theorem Lists.numberAll {known : List κ} (h : n.Lists known) (ks : List κ) :
    (n.numberAll ks).1 = positions known ks := by
  induction ks generalizing n known with
  | nil => rfl
  | cons k ks ih =>
    obtain ⟨hnumber, hnext⟩ := h.number k
    simp only [Numbering.numberAll, positions, hnumber, ih hnext]

end Numbering

namespace ValueCache

section Insertions

variable {V : Type} [Value V]

/-- The indices of the values of a list, inserted one after the other, and the cache that holds them. -/
def insertAll (c : ValueCache V) : List V → List Nat × ValueCache V
  | [] => ([], c)
  | v :: vs =>
    let (i, c) := c.insert v
    let (is, c) := c.insertAll vs
    (i :: is, c)

theorem insertAll_cons (c : ValueCache V) (v : V) (vs : List V) :
    c.insertAll (v :: vs) = ((c.insert v).1 :: ((c.insert v).2.insertAll vs).1,
      ((c.insert v).2.insertAll vs).2) := rfl

/-- Two runs in a row are one run. -/
theorem insertAll_append (c : ValueCache V) (vs ws : List V) :
    c.insertAll (vs ++ ws) = ((c.insertAll vs).1 ++ ((c.insertAll vs).2.insertAll ws).1,
      ((c.insertAll vs).2.insertAll ws).2) := by
  induction vs generalizing c with
  | nil => rfl
  | cons v vs ih => rw [List.cons_append, insertAll_cons, insertAll_cons, ih, List.cons_append]

theorem length_insertAll (c : ValueCache V) (vs : List V) :
    (c.insertAll vs).1.length = vs.length := by
  induction vs generalizing c with
  | nil => rfl
  | cons v vs ih => rw [insertAll_cons, List.length_cons, ih, List.length_cons]

end Insertions

variable {c d : ValueCache RationalFunction} {v w : RationalFunction} {i : Nat}

/-- Every value of `c` has the same index in `d`. -/
def Extends (c d : ValueCache RationalFunction) : Prop :=
  ∀ v i, c.index? v = some i → d.index? v = some i

theorem Extends.refl (c : ValueCache RationalFunction) : c.Extends c := fun _ _ h => h

theorem Extends.trans {e : ValueCache RationalFunction} (h : c.Extends d) (h' : d.Extends e) :
    c.Extends e := fun v i hi => h' v i (h v i hi)

/-- An index leads back to the value. -/
theorem value?_of_index? (h : c.index? v = some i) : c.value? i = some v := by
  obtain ⟨e, he, rfl⟩ := Option.map_eq_some_iff.1 h
  have hv : v = e.1 := by simpa [Value.sameKey] using List.find?_some he
  rw [hv]
  exact c.values_of_mem e (List.mem_of_find?_eq_some he)

theorem lt_of_index? (h : c.index? v = some i) : i < c.size :=
  (Array.getElem?_eq_some_iff.1 (value?_of_index? h)).1

theorem index?_inj (hv : c.index? v = some i) (hw : c.index? w = some i) : v = w := by
  have := (value?_of_index? hv).symm.trans (value?_of_index? hw)
  exact Option.some.inj this

theorem index?_push (c : ValueCache RationalFunction) (v w : RationalFunction) :
    (c.push v).index? w = if w = v then some c.size else c.index? w := by
  by_cases h : w = v
  · simp [index?, push, Value.sameKey, h]
  · simp [index?, push, Value.sameKey, h]

/-- An inserted value is known by its index, and the values before it keep theirs. -/
theorem insert_spec (c : ValueCache RationalFunction) (v : RationalFunction) :
    c.Extends (c.insert v).2 ∧ (c.insert v).2.index? v = some (c.insert v).1 := by
  unfold insert
  split
  · rename_i i hi
    exact ⟨.refl c, hi⟩
  · rename_i h
    refine ⟨fun w i hw => ?_, by rw [index?_push, if_pos rfl]⟩
    have hne : w ≠ v := fun he => by
      rw [he, h] at hw
      cases hw
    rw [index?_push, if_neg hne, hw]

/-! ## Runs of insertions -/

/-- The indices by which a cache knows the values of a list. -/
def Indexes (c : ValueCache RationalFunction) (vs : List RationalFunction) (is : List Nat) : Prop :=
  is.map some = vs.map c.index?

variable {vs : List RationalFunction} {is : List Nat}

theorem Indexes.known (h : c.Indexes vs is) : ∀ v ∈ vs, ∃ i, c.index? v = some i := by
  intro v hv
  have hmem : c.index? v ∈ is.map some := h ▸ List.mem_map_of_mem hv
  obtain ⟨i, -, hi⟩ := List.mem_map.1 hmem
  exact ⟨i, hi.symm⟩

/-- The indices are found again by looking up the values. -/
theorem Indexes.eq_map (h : c.Indexes vs is) : is = vs.map fun v => (c.index? v).getD 0 := by
  have := congrArg (List.map fun i => i.getD 0) h
  simpa only [List.map_map, Function.comp_def, Option.getD_some, List.map_id'] using this

/-- What the indices of a cache are good for: they are below its length, lead to their values, and no two values
share one. -/
structure IsFaithful (c : ValueCache RationalFunction) : Prop where
  lt : ∀ {v i}, c.index? v = some i → i < c.size
  value? : ∀ {v i}, c.index? v = some i → c.value? i = some v
  inj : ∀ {v w i}, c.index? v = some i → c.index? w = some i → v = w

theorem isFaithful (c : ValueCache RationalFunction) : c.IsFaithful := ⟨lt_of_index?, value?_of_index?, index?_inj⟩

/-- After a run the values are known by the indices that they were given, those from before included. -/
theorem insertAll_spec (c : ValueCache RationalFunction) (vs : List RationalFunction) :
    c.Extends (c.insertAll vs).2 ∧ (c.insertAll vs).2.Indexes vs (c.insertAll vs).1 := by
  induction vs generalizing c with
  | nil => exact ⟨.refl c, rfl⟩
  | cons v vs ih =>
    obtain ⟨hext, hv⟩ := c.insert_spec v
    obtain ⟨hext', hvs⟩ := ih (c.insert v).2
    refine ⟨hext.trans hext', ?_⟩
    rw [Indexes, insertAll_cons, List.map_cons, List.map_cons, hext' _ _ hv, hvs]

end ValueCache
end MarkovCheck

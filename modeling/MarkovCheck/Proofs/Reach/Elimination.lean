import Mathlib
import MarkovCheck.Proofs.Reach.LinearSystem

/-!
# MarkovCheck.Proofs.Reach.Elimination

The elimination makes a system triangular and keeps its solutions.

When a variable is substituted, only the equations listed in the index are visited. That is enough
because the index is complete for the unsolved equations: an entry that appears is noted at once, and
one that cancels out only leaves an equation too many in a list. A listed equation is *pending* until it
was visited; the others no longer refer to the variable. Every leading part of the system keeps its
solutions, so a factor `1 / (1 - c)` that is not defined leaves a leading part with a homogeneous solution
other than zero.

* `Eliminated`                        — the invariant, for the first variables and some pending equations.
* `Eliminated.substitute`, `Eliminated.eliminate?` — one equation visited, one variable eliminated.
* `solve?_some`, `solve?_eq_none_iff` — the solution, and when there is none.
* `solve?_solves_rows`                — the solution of a system of unordered rows.
-/

namespace MarkovCheck
namespace LinearSystem

variable {n lo i j k p : ℕ} {x : ℕ → Frac} {u : Frac} {e f : Equation RationalFunction}
  {es : List (Equation RationalFunction)} {t : Array (Equation RationalFunction)}

/-! ## One equation -/

theorem mem_columns_addMultiple {v : RationalFunction}
    (h : j ∈ columns (e.addMultiple v f).entries) : j ∈ columns e.entries ∨ j ∈ columns f.entries :=
  mem_columns_foldl_addEntry _ h

/-- Isolating the own variable keeps the solutions. -/
theorem isolate?_some (he : e.IsForm n lo) (h : isolate? i e = some f) :
    f.IsForm n lo ∧ (∀ j ∈ columns f.entries, j ∈ columns e.entries ∧ j ≠ i) ∧
      ∀ x u, x i = f.value x u ↔ x i = e.value x u := by
  unfold isolate? at h
  split at h
  · rename_i hnone
    cases h
    exact ⟨he, fun j hj => ⟨hj, fun hji => takeEntry_eq_none_iff.1 hnone (hji ▸ hj)⟩, fun _ _ => Iff.rfl⟩
  · rename_i c rest htake
    obtain ⟨factor, hfactor, rfl⟩ := Option.map_eq_some_iff.1 h
    obtain ⟨hc, hrest, hcolumns, hlinear⟩ := takeEntry_some he.entries htake
    obtain ⟨h0, hd⟩ := RationalFunction.quotient?_some RationalFunction.denotes_one
      (RationalFunction.sub_spec RationalFunction.denotes_one hc.denotes) hfactor
    obtain ⟨hrow, hscaled⟩ := hrest.map_mul hd
    have hconst := RationalFunction.mul_spec he.const.denotes hd
    refine ⟨⟨hrow, hconst.1⟩, fun j hj => hcolumns j ?_, fun x u => ?_⟩
    · simpa [columns] using hj
    · have hconst' : (Value.mul e.const factor).toFrac = e.const.toFrac * (1 / (1 - c.toFrac)) :=
        hconst.2
      simp only [Equation.value, hscaled, hconst', hlinear]
      rw [mul_one_div, mul_one_div, div_mul_eq_mul_div, ← add_div, eq_div_iff h0, mul_sub, mul_one,
        sub_eq_iff_eq_add', ← add_assoc, mul_comm (x i)]

/-- The own variable cannot be isolated exactly if its entry is one. -/
theorem isolate?_eq_none_iff (he : e.IsForm n lo) :
    isolate? i e = none ↔ ∃ rest, takeEntry i e.entries = some (RationalFunction.one, rest) := by
  unfold isolate?
  split
  · rename_i hnone
    rw [hnone]
    exact iff_of_false nofun nofun
  · rename_i c rest htake
    obtain ⟨hc, -⟩ := takeEntry_some he.entries htake
    have hfactor := RationalFunction.sub_spec RationalFunction.denotes_one hc.denotes
    rw [Option.map_eq_none_iff, htake]
    constructor
    · intro h
      have h0 := RationalFunction.quotient?_none RationalFunction.denotes_one hfactor h
      have hone : c = RationalFunction.one :=
        (sub_eq_zero.1 h0 ▸ hc.denotes).eq RationalFunction.denotes_one
      exact ⟨rest, by rw [hone]⟩
    · rintro ⟨rest', heq⟩
      cases heq
      by_contra hsome
      obtain ⟨factor, h⟩ := Option.ne_none_iff_exists'.1 hsome
      refine (RationalFunction.quotient?_some RationalFunction.denotes_one hfactor h).1 ?_
      rw [RationalFunction.denotes_one.2, sub_self]

/-- An own variable that cannot be isolated is left undetermined. -/
theorem isolate?_none (he : e.IsForm n i) (h : isolate? i e = none) (hx : ∀ j > i, x j = 0) :
    e.value x 0 = x i := by
  obtain ⟨rest, htake⟩ := (isolate?_eq_none_iff he).1 h
  obtain ⟨-, hrest, hcolumns, hlinear⟩ := takeEntry_some he.entries htake
  have hzero : linear rest x = 0 := linear_eq_zero fun g hg => by
    have hne := (hcolumns g.1 (List.mem_map_of_mem hg)).2
    exact hx g.1 (lt_of_le_of_ne (hrest.mem g hg).1 (Ne.symm hne))
  rw [Equation.value, hlinear, hzero, RationalFunction.denotes_one.2]
  ring

/-! ## The index -/

section Index

variable {occurrences : Array (List ℕ)} {entries : List (ℕ × RationalFunction)} {a c : ℕ}

theorem mem_modify_insert :
    a ∈ (occurrences.modify c (List.insert i))[j]?.getD [] ↔
      a ∈ occurrences[j]?.getD [] ∨ a = i ∧ j = c ∧ j < occurrences.size := by
  rw [Array.getElem?_modify]
  rcases lt_or_ge j occurrences.size with hj | hj
  · rw [Array.getElem?_eq_getElem hj]
    split
    · rename_i hc
      simp [hc, hj, or_comm]
    · rename_i hc
      simp [Ne.symm hc]
  · rw [Array.getElem?_eq_none hj]
    simp [not_lt.2 hj]

theorem size_note : (note i occurrences entries).size = occurrences.size := by
  induction entries generalizing occurrences with
  | nil => rfl
  | cons g entries ih =>
    rw [note, List.foldl_cons]
    refine ih.trans ?_
    split
    · rfl
    · exact Array.size_modify

theorem mem_note_iff :
    a ∈ (note i occurrences entries)[j]?.getD [] ↔
      a ∈ occurrences[j]?.getD [] ∨ a = i ∧ j ≠ i ∧ j < occurrences.size ∧ j ∈ columns entries := by
  induction entries generalizing occurrences with
  | nil => simp [note]
  | cons g entries ih =>
    rw [note, List.foldl_cons, columns_cons, List.mem_cons]
    refine ih.trans ?_
    split
    · rename_i hg
      rw [hg]
      grind
    · rw [mem_modify_insert, Array.size_modify]
      grind

theorem size_foldl_note (l : List (Equation RationalFunction × ℕ)) :
    (l.foldl (fun occurrences e => note e.2 occurrences e.1.entries) occurrences).size =
      occurrences.size := by
  induction l generalizing occurrences with
  | nil => rfl
  | cons e l ih => exact ih.trans size_note

theorem mem_foldl_note_iff (l : List (Equation RationalFunction × ℕ)) :
    a ∈ (l.foldl (fun occurrences e => note e.2 occurrences e.1.entries) occurrences)[j]?.getD [] ↔
      a ∈ occurrences[j]?.getD [] ∨
        j ≠ a ∧ j < occurrences.size ∧ ∃ e, (e, a) ∈ l ∧ j ∈ columns e.entries := by
  induction l generalizing occurrences with
  | nil => simp
  | cons d l ih =>
    rw [List.foldl_cons]
    refine ih.trans ?_
    rw [mem_note_iff, size_note]
    constructor
    · rintro ((h | ⟨rfl, h1, h2, h3⟩) | ⟨h1, h2, e, h3, h4⟩)
      · exact .inl h
      · exact .inr ⟨h1, h2, d.1, List.mem_cons_self .., h3⟩
      · exact .inr ⟨h1, h2, e, List.mem_cons_of_mem _ h3, h4⟩
    · rintro (h | ⟨h1, h2, e, h3, h4⟩)
      · exact .inl (.inl h)
      · rcases List.mem_cons.1 h3 with rfl | h3
        · exact .inl (.inr ⟨rfl, h1, h2, h4⟩)
        · exact .inr ⟨h1, h2, e, h3, h4⟩

/-- In the beginning the index lists exactly the other equations that refer to a variable. -/
theorem mem_occurrences_ofEquations :
    i ∈ (System.ofEquations es).occurrences[j]?.getD [] ↔
      j ≠ i ∧ j < es.length ∧ ∃ e, es[i]? = some e ∧ j ∈ columns e.entries := by
  rw [System.ofEquations, mem_foldl_note_iff, Array.size_replicate, Array.getElem?_replicate]
  have hempty : ¬ i ∈ (if j < es.length then some [] else none : Option (List ℕ)).getD [] := by
    split <;> exact List.not_mem_nil
  rw [or_iff_right hempty]
  simp only [List.mem_zipIdx_iff_getElem?]

end Index

/-! ## The invariant -/

/-- The first `k` variables are solved for. Of the later equations only pending ones may still refer to
one of them, namely to the last. -/
structure Eliminated (es : List (Equation RationalFunction)) (k : ℕ) (pending : List ℕ)
    (s : System RationalFunction) : Prop where
  size_equations : s.equations.size = es.length
  size_occurrences : s.occurrences.size = es.length
  isForm : ∀ (i : ℕ) (e : Equation RationalFunction), s.equations[i]? = some e →
    e.IsForm es.length 0
  solved : ∀ (i : ℕ) (e : Equation RationalFunction), s.equations[i]? = some e → i < k →
    ∀ j ∈ columns e.entries, i < j
  unsolved : ∀ (i : ℕ) (e : Equation RationalFunction), s.equations[i]? = some e → k ≤ i →
    ∀ j ∈ columns e.entries, k ≤ j ∨ j + 1 = k ∧ i ∈ pending
  indexed : ∀ (i : ℕ) (e : Equation RationalFunction), s.equations[i]? = some e → k ≤ i →
    ∀ j ∈ columns e.entries, k ≤ j → j ≠ i → i ∈ s.occurrences[j]?.getD []
  solves_iff : ∀ x u p, Solves x u 0 (s.equations.toList.take p) ↔ Solves x u 0 (es.take p)

variable {s s' : System RationalFunction} {pending : List ℕ}

theorem solves_take_iff :
    Solves x u 0 (t.toList.take p) ↔ ∀ j < p, ∀ e, t[j]? = some e → x j = e.value x u := by
  rw [solves_iff]
  constructor
  · intro h j hj e he
    have := h j e (by rw [List.getElem?_take_of_lt hj, Array.getElem?_toList, he])
    rwa [zero_add] at this
  · intro h j e he
    rw [List.getElem?_take] at he
    split at he
    · rename_i hj
      rw [zero_add]
      exact h j hj e (by rwa [Array.getElem?_toList] at he)
    · cases he

/-- An equation may be replaced by one that says the same wherever the equations before it hold. -/
theorem solves_take_set (he : t[i]? = some e)
    (hf : Solves x u 0 (t.toList.take i) → (x i = f.value x u ↔ x i = e.value x u)) (p : ℕ) :
    Solves x u 0 ((t.setIfInBounds i f).toList.take p) ↔ Solves x u 0 (t.toList.take p) := by
  have hself : (t.setIfInBounds i f)[i]? = some f :=
    Array.getElem?_setIfInBounds_self_of_lt (Array.getElem?_eq_some_iff.1 he).1
  have hother : ∀ j ≠ i, (t.setIfInBounds i f)[j]? = t[j]? := fun j hj =>
    Array.getElem?_setIfInBounds_ne (Ne.symm hj)
  rw [solves_take_iff] at hf ⊢
  rw [solves_take_iff]
  constructor
  · intro h j hj d hd
    rcases eq_or_ne j i with rfl | hne
    · cases he.symm.trans hd
      exact (hf fun a ha b hb => h a (ha.trans hj) b (by rwa [hother a ha.ne])).1 (h j hj f hself)
    · exact h j hj d (by rwa [hother j hne])
  · intro h j hj d hd
    rcases eq_or_ne j i with rfl | hne
    · cases hself.symm.trans hd
      exact (hf fun a ha b hb => h a (ha.trans hj) b hb).2 (h j hj e he)
    · exact h j hj d (by rwa [hother j hne] at hd)

theorem getElem?_setIfInBounds_cases {d : Equation RationalFunction}
    (h : (t.setIfInBounds i f)[j]? = some d) : (j = i ∧ d = f) ∨ j ≠ i ∧ t[j]? = some d := by
  rcases eq_or_ne j i with rfl | hne
  · rw [Array.getElem?_setIfInBounds_self] at h
    split at h
    · cases h
      exact .inl ⟨rfl, rfl⟩
    · cases h
  · exact .inr ⟨hne, by rwa [Array.getElem?_setIfInBounds_ne (Ne.symm hne)] at h⟩

theorem eliminated_ofEquations (hes : ∀ e ∈ es, e.IsForm es.length 0) :
    Eliminated es 0 [] (System.ofEquations es) where
  size_equations := List.size_toArray
  size_occurrences := by rw [System.ofEquations, size_foldl_note, Array.size_replicate]
  isForm i e he := hes e (List.mem_of_getElem? (List.getElem?_toArray ▸ he))
  solved i e _ hi := absurd hi (Nat.not_lt_zero i)
  unsolved i e _ _ j _ := .inl (Nat.zero_le j)
  indexed i e he _ j hj _ hne := by
    have he' : es[i]? = some e := List.getElem?_toArray ▸ he
    exact mem_occurrences_ofEquations.2 ⟨hne,
      ((hes e (List.mem_of_getElem? he')).entries.mem_columns hj).2, e, he', hj⟩
  solves_iff _ _ _ := Iff.rfl

/-- The solved equations are triangular. -/
theorem Eliminated.isTriangular (h : Eliminated es k pending s) :
    IsTriangular es.length (s.equations.toList.take k) := by
  intro j e he
  rw [List.getElem?_take] at he
  split at he
  · rename_i hj
    rw [Array.getElem?_toList] at he
    exact (h.isForm j e he).of_le (h.solved j e he hj)
  · cases he

/-- When no equation is pending, the unsolved ones refer to unsolved variables only. -/
theorem Eliminated.le_of_mem (h : Eliminated es k [] s) (he : s.equations[i]? = some e) (hi : k ≤ i)
    (hj : j ∈ columns e.entries) : k ≤ j :=
  (h.unsolved i e he hi j hj).resolve_right fun hpending => List.not_mem_nil hpending.2

/-! ## One variable -/

/-- The equation of the next variable is solved for it; the equations listed for it become pending. -/
theorem Eliminated.isolate (h : Eliminated es k [] s) (he : s.equations[k]? = some e)
    (hf : isolate? k e = some f) :
    Eliminated es (k + 1) (s.occurrences[k]?.getD [])
      ⟨s.equations.setIfInBounds k f, s.occurrences.setIfInBounds k []⟩ := by
  obtain ⟨hform, hcolumns, hvalue⟩ := isolate?_some (h.isForm k e he) hf
  constructor
  case size_equations => exact Array.size_setIfInBounds.trans h.size_equations
  case size_occurrences => exact Array.size_setIfInBounds.trans h.size_occurrences
  case isForm =>
    intro i d hd
    rcases getElem?_setIfInBounds_cases hd with ⟨-, rfl⟩ | ⟨-, hd⟩
    · exact hform
    · exact h.isForm i d hd
  case solved =>
    intro i d hd hi j hj
    rcases getElem?_setIfInBounds_cases hd with ⟨rfl, rfl⟩ | ⟨hne, hd⟩
    · obtain ⟨hold, hne⟩ := hcolumns j hj
      exact lt_of_le_of_ne (h.le_of_mem he le_rfl hold) (Ne.symm hne)
    · exact h.solved i d hd (by omega) j hj
  case unsolved =>
    intro i d hd hi j hj
    rcases getElem?_setIfInBounds_cases hd with ⟨rfl, -⟩ | ⟨hne, hd'⟩
    · omega
    · have hkj := h.le_of_mem hd' (by omega) hj
      rcases eq_or_ne j k with rfl | hjk
      · exact .inr ⟨rfl, h.indexed i d hd' (by omega) j hj hkj hne.symm⟩
      · exact .inl (by omega)
  case indexed =>
    intro i d hd hi j hj hkj hne
    rcases getElem?_setIfInBounds_cases hd with ⟨rfl, -⟩ | ⟨-, hd⟩
    · omega
    · rw [Array.getElem?_setIfInBounds_ne (by omega)]
      exact h.indexed i d hd (by omega) j hj (by omega) hne
  case solves_iff =>
    intro x u p
    exact (solves_take_set he (fun _ => hvalue x u) p).trans (h.solves_iff x u p)

/-- An equation that no longer refers to the variable need not be visited. -/
theorem Eliminated.tail (h : Eliminated es (k + 1) (i :: pending) s)
    (hi : ∀ e, s.equations[i]? = some e → k + 1 ≤ i → k ∉ columns e.entries) :
    Eliminated es (k + 1) pending s := by
  refine { h with unsolved := fun a e he ha j hj => ?_ }
  refine (h.unsolved a e he ha j hj).imp_right fun ⟨hjk, hmem⟩ => ⟨hjk, ?_⟩
  rcases List.mem_cons.1 hmem with rfl | hmem
  · cases hjk
    exact absurd hj (hi e he ha)
  · exact hmem

/-- A pending equation is visited: afterwards it does not refer to the variable, and what it refers to
instead is noted. -/
theorem Eliminated.substitute (h : Eliminated es (k + 1) (i :: pending) s)
    (hf : s.equations[k]? = some f) :
    Eliminated es (k + 1) pending (System.substitute k f s i) ∧
      (System.substitute k f s i).equations[k]? = some f := by
  unfold System.substitute
  split
  · rename_i hik
    exact ⟨h.tail fun _ _ hki => by omega, hf⟩
  rename_i hik
  split
  · rename_i hnone
    exact ⟨h.tail fun e he => (nomatch hnone.symm.trans he), hf⟩
  rename_i e he
  split
  · rename_i hnone
    refine ⟨h.tail fun d hd _ => ?_, hf⟩
    cases he.symm.trans hd
    exact takeEntry_eq_none_iff.1 hnone
  rename_i c rest htake
  have hki : k + 1 ≤ i := by omega
  have hform := h.isForm i e he
  have hform' := h.isForm k f hf
  obtain ⟨hc, hrest, hcolumns, hlinear⟩ := takeEntry_some hform.entries htake
  obtain ⟨hnew, hvalue⟩ := Equation.addMultiple_spec (e := ⟨rest, e.const⟩) ⟨hrest, hform.const⟩ hform' hc
  have hlater : ∀ j ∈ columns f.entries, k + 1 ≤ j := h.solved k f hf (Nat.lt_succ_self k)
  refine ⟨?_, by rw [Array.getElem?_setIfInBounds_ne (by omega), hf]⟩
  constructor
  case size_equations => exact Array.size_setIfInBounds.trans h.size_equations
  case size_occurrences => exact size_note.trans h.size_occurrences
  case isForm =>
    intro a d hd
    rcases getElem?_setIfInBounds_cases hd with ⟨-, rfl⟩ | ⟨-, hd⟩
    · exact hnew
    · exact h.isForm a d hd
  case solved =>
    intro a d hd ha
    rcases getElem?_setIfInBounds_cases hd with ⟨rfl, -⟩ | ⟨-, hd⟩
    · omega
    · exact h.solved a d hd ha
  case unsolved =>
    intro a d hd ha j hj
    rcases getElem?_setIfInBounds_cases hd with ⟨rfl, rfl⟩ | ⟨hne, hd⟩
    · left
      rcases mem_columns_addMultiple hj with hj | hj
      · obtain ⟨hold, hne⟩ := hcolumns j hj
        rcases h.unsolved a e he ha j hold with hkj | ⟨hjk, -⟩
        · exact hkj
        · omega
      · exact hlater j hj
    · refine (h.unsolved a d hd ha j hj).imp_right fun ⟨hjk, hmem⟩ => ⟨hjk, ?_⟩
      exact (List.mem_cons.1 hmem).resolve_left hne
  case indexed =>
    intro a d hd ha j hj hkj hne
    rw [mem_note_iff]
    rcases getElem?_setIfInBounds_cases hd with ⟨rfl, rfl⟩ | ⟨-, hd⟩
    · rcases mem_columns_addMultiple hj with hj | hj
      · exact .inl (h.indexed a e he ha j (hcolumns j hj).1 hkj hne)
      · exact .inr ⟨rfl, hne,
          (hform'.entries.mem_columns hj).2.trans_eq h.size_occurrences.symm, hj⟩
    · exact .inl (h.indexed a d hd ha j hj hkj hne)
  case solves_iff =>
    intro x u p
    refine (solves_take_set he (fun hbefore => ?_) p).trans (h.solves_iff x u p)
    have hk : x k = f.value x u := solves_take_iff.1 hbefore k (by omega) f hf
    rw [hvalue, ← hk, Equation.value, Equation.value, hlinear]
    refine Eq.congr_right ?_
    ring

theorem Eliminated.foldl_substitute (h : Eliminated es (k + 1) pending s)
    (hf : s.equations[k]? = some f) :
    Eliminated es (k + 1) [] (pending.foldl (System.substitute k f) s) := by
  induction pending generalizing s with
  | nil => exact h
  | cons i pending ih =>
    obtain ⟨h', hf'⟩ := h.substitute hf
    exact ih h' hf'

theorem Eliminated.getElem? (h : Eliminated es k pending s) (hi : i < es.length) :
    ∃ e, s.equations[i]? = some e :=
  ⟨_, Array.getElem?_eq_getElem (hi.trans_eq h.size_equations.symm)⟩

/-- A variable is eliminated. -/
theorem Eliminated.eliminate? (h : Eliminated es k [] s) (hk : k < es.length)
    (hs : s.eliminate? k = some s') : Eliminated es (k + 1) [] s' := by
  obtain ⟨e, he⟩ := h.getElem? hk
  rw [System.eliminate?, he] at hs
  obtain ⟨f, hf, rfl⟩ := Option.map_eq_some_iff.1 hs
  exact (h.isolate he hf).foldl_substitute
    (Array.getElem?_setIfInBounds_self_of_lt (Array.getElem?_eq_some_iff.1 he).1)

/-- The entry of a variable in its own equation. -/
def System.selfCoefficient? (s : System RationalFunction) (k : ℕ) : Option RationalFunction :=
  s.equations[k]?.bind fun e => (takeEntry k e.entries).map (·.1)

/-- A variable cannot be eliminated exactly if its own coefficient is one. -/
theorem Eliminated.eliminate?_eq_none_iff (h : Eliminated es k [] s) (hk : k < es.length) :
    s.eliminate? k = none ↔ s.selfCoefficient? k = some RationalFunction.one := by
  obtain ⟨e, he⟩ := h.getElem? hk
  rw [System.eliminate?, System.selfCoefficient?, he, Option.map_eq_none_iff,
    isolate?_eq_none_iff (h.isForm k e he), Option.bind_some, Option.map_eq_some_iff]
  constructor
  · rintro ⟨rest, hrest⟩
    exact ⟨_, hrest, rfl⟩
  · rintro ⟨⟨c, rest⟩, hrest, rfl⟩
    exact ⟨rest, hrest⟩

/-- When a variable cannot be eliminated, the equations up to it have a homogeneous solution that is not
zero there, and zero at all later variables. -/
theorem Eliminated.eliminate?_none (h : Eliminated es k [] s) (hk : k < es.length)
    (hs : s.eliminate? k = none) :
    ∃ x, x k ≠ 0 ∧ (∀ j > k, x j = 0) ∧ Solves x 0 0 (es.take (k + 1)) := by
  obtain ⟨e, he⟩ := h.getElem? hk
  rw [System.eliminate?, he, Option.map_eq_none_iff] at hs
  obtain ⟨x, hx, hsol⟩ := exists_solves h.isTriangular (Pi.single k 1) 0
  rw [List.length_take, Array.length_toList, h.size_equations, min_eq_left hk.le] at hx
  have hlater : ∀ j > k, x j = 0 := fun j hj => by rw [hx j hj.le, Pi.single_eq_of_ne (by omega)]
  have hform : e.IsForm es.length k := (h.isForm k e he).of_le fun j => h.le_of_mem he le_rfl
  refine ⟨x, ?_, hlater, (h.solves_iff x 0 (k + 1)).1 (solves_take_iff.2 fun j hj d hd => ?_)⟩
  · rw [hx k le_rfl, Pi.single_eq_same]
    exact one_ne_zero
  · rcases Nat.lt_succ_iff_lt_or_eq.1 hj with hj | rfl
    · exact solves_take_iff.1 hsol j hj d hd
    · cases he.symm.trans hd
      exact (isolate?_none hform hs hlater).symm

/-- When the equations up to a variable leave only the value zero for it, its own coefficient is not
one. -/
theorem Eliminated.selfCoefficient?_ne_one (h : Eliminated es k [] s) (hk : k < es.length)
    (hzero : ∀ x, (∀ j > k, x j = 0) → Solves x 0 0 (es.take (k + 1)) → x k = 0) :
    s.selfCoefficient? k ≠ some RationalFunction.one := fun hone => by
  obtain ⟨x, hne, hlater, hsol⟩ := h.eliminate?_none hk ((h.eliminate?_eq_none_iff hk).2 hone)
  exact hne (hzero x hlater hsol)

/-! ## All variables -/

theorem eliminateBelow?_of_le {m : ℕ} (hm : m ≤ k) (h : s.eliminateBelow? k = some s') :
    ∃ s'', s.eliminateBelow? m = some s'' := by
  induction hm generalizing s' with
  | refl => exact ⟨s', h⟩
  | step _ ih =>
    obtain ⟨s'', h', -⟩ := Option.bind_eq_some_iff.1 h
    exact ih h'

theorem Eliminated.eliminateBelow? (h : Eliminated es 0 [] s) (hk : k ≤ es.length)
    (hs : s.eliminateBelow? k = some s') : Eliminated es k [] s' := by
  induction k generalizing s' with
  | zero =>
    cases hs
    exact h
  | succ k ih =>
    obtain ⟨s'', hbelow, hs⟩ := Option.bind_eq_some_iff.1 hs
    exact (ih (by omega) hbelow).eliminate? hk hs

/-- An elimination that fails does so at some variable. -/
theorem exists_eliminate?_none (h : s.eliminateBelow? k = none) :
    ∃ m < k, ∃ s', s.eliminateBelow? m = some s' ∧ s'.eliminate? m = none := by
  induction k with
  | zero => cases h
  | succ k ih =>
    rcases hs : s.eliminateBelow? k with _ | s'
    · obtain ⟨m, hm, hfail⟩ := ih hs
      exact ⟨m, hm.trans (Nat.lt_succ_self k), hfail⟩
    · rw [System.eliminateBelow?, hs] at h
      exact ⟨k, Nat.lt_succ_self k, s', hs, h⟩

variable {X : Array RationalFunction}

/-- The solution is the only one. -/
theorem solve?_some (hes : ∀ e ∈ es, e.IsForm es.length 0) (h : solve? es = some X) :
    X.size = es.length ∧ AllCanonical X ∧
      ∀ x, Solves x 1 0 es ↔ ∀ i < es.length, x i = vector X i := by
  obtain ⟨s, hs, rfl⟩ := Option.map_eq_some_iff.1 h
  have hdone := (eliminated_ofEquations hes).eliminateBelow? le_rfl hs
  have hsize : s.equations.toList.length = es.length :=
    Array.length_toList.trans hdone.size_equations
  have htake : s.equations.toList.take es.length = s.equations.toList :=
    List.take_of_length_le hsize.le
  have htri := hdone.isTriangular
  rw [htake] at htri
  obtain ⟨h1, h2, h3⟩ := backSubstitute_spec htri
  refine ⟨h1.trans hdone.size_equations, h2, fun x => ?_⟩
  have hiff := hdone.solves_iff x 1 es.length
  rw [htake, List.take_length] at hiff
  rw [← hiff]
  constructor
  · intro hx i hi
    exact htri.unique hx h3 (fun j hj hj' => absurd hj' (not_lt.2 (hsize.symm.trans_le hj))) i
      (hi.trans_eq hsize.symm)
  · intro hx
    exact h3.congr htri.isForm (by rw [zero_add, hsize]) fun j hj => (hx j hj).symm

/-- The elimination, which keeps the order of the equations, fails exactly if a leading part of the
system has a homogeneous solution other than zero. -/
theorem solve?_eq_none_iff (hes : ∀ e ∈ es, e.IsForm es.length 0) :
    solve? es = none ↔
      ∃ k ≤ es.length, ∃ x, x ≠ 0 ∧ (∀ j ≥ k, x j = 0) ∧ Solves x 0 0 (es.take k) := by
  rw [solve?, Option.map_eq_none_iff]
  constructor
  · intro h
    obtain ⟨k, hk, s, hs, hfail⟩ := exists_eliminate?_none h
    obtain ⟨x, h1, h2, h3⟩ :=
      ((eliminated_ofEquations hes).eliminateBelow? hk.le hs).eliminate?_none hk hfail
    exact ⟨k + 1, hk, x, fun h0 => h1 (congrFun h0 k), h2, h3⟩
  · rintro ⟨k, hk, x, hx, hlater, hsol⟩
    by_contra hsome
    obtain ⟨t, ht⟩ := Option.ne_none_iff_exists'.1 hsome
    -- The first `k` equations are equivalent to triangular ones, so they have no other solution.
    obtain ⟨s, hs⟩ := eliminateBelow?_of_le hk ht
    have hdone := (eliminated_ofEquations hes).eliminateBelow? hk hs
    have hlength : (s.equations.toList.take k).length = k := by
      rw [List.length_take, Array.length_toList, hdone.size_equations, min_eq_left hk]
    have hzero : Solves (0 : ℕ → Frac) 0 0 (es.take k) :=
      solves_iff.2 fun i e _ => by simp [Equation.value, linear_eq_zero]
    refine hx (funext fun j => ?_)
    rcases lt_or_ge j k with hj | hj
    · exact hdone.isTriangular.unique ((hdone.solves_iff x 0 k).2 hsol)
        ((hdone.solves_iff 0 0 k).2 hzero) (fun i hi _ => hlater i (hlength ▸ hi)) j
        (hlength.symm ▸ hj)
    · exact hlater j hj

/-- The solver finds the solution of a system of rows in any order, with several entries for a column,
as long as no variable has the coefficient one in its own equation when its turn comes. -/
theorem solve?_solves_rows (system : List (List (ℕ × RationalFunction) × RationalFunction))
    (hcolumns : ∀ e ∈ system, ∀ g ∈ e.1, g.1 < system.length)
    (hcanonical : ∀ e ∈ system, (∀ g ∈ e.1, g.2.IsCanonical) ∧ e.2.IsCanonical)
    (hself : ∀ k < system.length,
      ((System.ofEquations (system.map fun e => .ofRow e.1 e.2)).eliminateBelow? k).bind
        (fun s => s.selfCoefficient? k) ≠ some RationalFunction.one) :
    ∃ X, solve? (system.map fun e => .ofRow e.1 e.2) = some X ∧ X.size = system.length ∧
      AllCanonical X ∧
      ∀ y : ℕ → Frac, (∀ i e, system[i]? = some e → y i = linear e.1 y + e.2.toFrac) ↔
        ∀ i < system.length, y i = vector X i := by
  have hlength : (system.map fun e => Equation.ofRow e.1 e.2).length = system.length :=
    List.length_map _
  have hrow : ∀ e ∈ system, (Equation.ofRow e.1 e.2).IsForm system.length 0 ∧
      ∀ x u, (Equation.ofRow e.1 e.2).value x u = linear e.1 x + e.2.toFrac * u := fun e he =>
    Equation.ofRow_spec (fun g hg => ⟨hcolumns e he g hg, (hcanonical e he).1 g hg⟩)
      (hcanonical e he).2
  have hform : ∀ f ∈ system.map fun e => Equation.ofRow e.1 e.2,
      f.IsForm (system.map fun e => Equation.ofRow e.1 e.2).length 0 := by
    intro f hf
    obtain ⟨e, he, rfl⟩ := List.mem_map.1 hf
    rw [hlength]
    exact (hrow e he).1
  obtain ⟨X, hX⟩ : ∃ X, solve? (system.map fun e => Equation.ofRow e.1 e.2) = some X := by
    refine Option.ne_none_iff_exists'.1 fun hnone => ?_
    rw [solve?, Option.map_eq_none_iff] at hnone
    obtain ⟨k, hk, s, hs, hfail⟩ := exists_eliminate?_none hnone
    rw [hlength] at hk
    have hself' := hself k hk
    rw [hs, Option.bind_some] at hself'
    have hk' := hk.trans_eq hlength.symm
    exact hself' ((((eliminated_ofEquations hform).eliminateBelow? hk'.le hs).eliminate?_eq_none_iff
      hk').1 hfail)
  obtain ⟨hsize, hcan, hsol⟩ := solve?_some hform hX
  rw [hlength] at hsize hsol
  refine ⟨X, hX, hsize, hcan, fun y => ?_⟩
  rw [← hsol, solves_iff]
  constructor
  · intro h i f hf
    rw [List.getElem?_map, Option.map_eq_some_iff] at hf
    obtain ⟨e, he, rfl⟩ := hf
    rw [zero_add, (hrow e (List.mem_of_getElem? he)).2, mul_one, h i e he]
  · intro h i e he
    have hi := h i _ (by rw [List.getElem?_map, he, Option.map_some])
    rwa [zero_add, (hrow e (List.mem_of_getElem? he)).2, mul_one] at hi

/-- Two variables of which the first has two entries for the second, and gives it an entry of its own:
`x = p y + x / 2 + p y + 1 / 2` and `y = x / 2`. -/
def chained : List (List (ℕ × RationalFunction) × RationalFunction) :=
  [([(1, .param "p"), (0, .const (1 / 2)), (1, .param "p")], .const (1 / 2)),
    ([(0, .const (1 / 2))], .zero)]

theorem chained_isCanonical : ∀ e ∈ chained, (∀ g ∈ e.1, g.2.IsCanonical) ∧ e.2.IsCanonical := by
  have hparam := (RationalFunction.denotes_param "p").1
  have hhalf := (RationalFunction.denotes_const (1 / 2)).1
  simp only [chained, List.forall_mem_cons]
  exact ⟨⟨⟨hparam, hhalf, hparam, nofun⟩, hhalf⟩,
    ⟨⟨hhalf, nofun⟩, RationalFunction.denotes_zero.1⟩, nofun⟩

/-- Two times the parameter is not one. -/
theorem one_sub_two_param_ne_zero : 1 - 2 * (RationalFunction.param "p").toFrac ≠ 0 := by
  rw [(RationalFunction.denotes_param "p").2]
  have hne : (1 - 2 * MvPolynomial.X "p" : Mv) ≠ 0 := by
    intro h
    have := congrArg (MvPolynomial.eval fun _ => (0 : ℚ)) h
    norm_num at this
  have := toField_ne_zero hne
  rwa [map_sub, map_mul, map_one, map_ofNat] at this

/-- The homogeneous equations have only the solution zero, so no coefficient is one. -/
theorem chained_selfCoefficient? (k : ℕ) (hk : k < chained.length) :
    ((System.ofEquations (chained.map fun e => .ofRow e.1 e.2)).eliminateBelow? k).bind
      (fun s => s.selfCoefficient? k) ≠ some RationalFunction.one := by
  have hcolumns : ∀ e ∈ chained, ∀ g ∈ e.1, g.1 < chained.length := by decide
  have hrow : ∀ e ∈ chained, (Equation.ofRow e.1 e.2).IsForm chained.length 0 ∧
      ∀ x u, (Equation.ofRow e.1 e.2).value x u = linear e.1 x + e.2.toFrac * u := fun e he =>
    Equation.ofRow_spec (fun g hg => ⟨hcolumns e he g hg, (chained_isCanonical e he).1 g hg⟩)
      (chained_isCanonical e he).2
  have hforms : ∀ f ∈ chained.map fun e => Equation.ofRow e.1 e.2,
      f.IsForm (chained.map fun e => Equation.ofRow e.1 e.2).length 0 := by
    intro f hf
    obtain ⟨e, he, rfl⟩ := List.mem_map.1 hf
    rw [List.length_map]
    exact (hrow e he).1
  rw [← List.length_map (f := fun e => Equation.ofRow e.1 e.2)] at hk
  intro heq
  obtain ⟨s, hs, hone⟩ := Option.bind_eq_some_iff.1 heq
  refine ((eliminated_ofEquations hforms).eliminateBelow? hk.le hs).selfCoefficient?_ne_one hk
    (fun x hlater hsol => ?_) hone
  have hhalf : (RationalFunction.const (1 / 2)).toFrac * 2 = 1 := by
    rw [(RationalFunction.denotes_const (1 / 2)).2, ← map_ofNat toField 2, ← map_mul,
      ← map_ofNat MvPolynomial.C 2, ← map_mul]
    norm_num
  have hvalue : ∀ i ≤ k, ∀ e, chained[i]? = some e → x i = linear e.1 x := by
    intro i hi e he
    have := solves_iff.1 hsol i (Equation.ofRow e.1 e.2) (by
      rw [List.getElem?_take_of_lt (Nat.lt_succ_of_le hi), List.getElem?_map, he, Option.map_some])
    rwa [zero_add, (hrow e (List.mem_of_getElem? he)).2, mul_zero, add_zero] at this
  have hfirst := hvalue 0 (Nat.zero_le k) _ rfl
  simp only [linear_cons, linear_nil] at hfirst
  match k, hk with
  | 0, _ =>
    rw [hlater 1 Nat.one_pos] at hfirst
    linear_combination 2 * hfirst + x 0 * hhalf
  | 1, _ =>
    have hsecond := hvalue 1 le_rfl _ rfl
    simp only [linear_cons, linear_nil] at hsecond
    refine (mul_eq_zero.1 ?_).resolve_left one_sub_two_param_ne_zero
    linear_combination hfirst + hsecond + x 0 * hhalf

/-- Both variables of the example can be eliminated. -/
theorem chained_solve? : ∃ X, solve? (chained.map fun e => .ofRow e.1 e.2) = some X ∧ X.size = 2 ∧
    vector X 1 = (RationalFunction.const (1 / 2)).toFrac * vector X 0 := by
  obtain ⟨X, hX, hsize, -, hsol⟩ := solve?_solves_rows chained (by decide) chained_isCanonical
    chained_selfCoefficient?
  have hsecond := (hsol (vector X)).2 (fun _ _ => rfl) 1 _ rfl
  refine ⟨X, hX, hsize, hsecond.trans ?_⟩
  rw [linear_cons, linear_nil, RationalFunction.denotes_zero.2, add_zero, add_zero]

end LinearSystem
end MarkovCheck

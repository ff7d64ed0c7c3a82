import Mathlib
import MarkovCheck.Chain.Builder
import MarkovCheck.Proofs.Chain.Compressed
import MarkovCheck.Proofs.Chain.Mass
import MarkovCheck.Proofs.Chain.Vector

/-!
# MarkovCheck.Proofs.Chain.Builder

What a builder makes of the parts that it is given.

Transitions that arrive in ascending order, each pair of states once, are left as they are by the
merging, which drops the zeros. So the rows of the model are the lists that were added, without the
zeros. Names that are declared once keep their order, and what is added for a name goes to its entry.

* `foldl_consItem`      — items for several names.
* `rowsOf_transitionsOf_filter`, `rowsOf_transitionsOf` — the rows of given lists of transitions, with and
  without zeros.
* `mem_sortStates`, `rewardVector_eq` — initial states and rewards.
-/

namespace MarkovCheck
namespace Builder

/-! ## Entries by name -/

section Entries

variable {α ι : Type} {name : String} {entries : List (String × List α)}

theorem lookup_cons_eq_ite {κ β : Type} [DecidableEq κ] (x y : κ) (b : β) (l : List (κ × β)) :
    ((y, b) :: l).lookup x = if x = y then some b else l.lookup x := by
  rw [List.lookup_cons]
  by_cases h : x = y
  · rw [beq_iff_eq.2 h, if_pos h]
  · rw [beq_eq_false_iff_ne.2 h, if_neg h]

theorem lookup_isSome_iff {β : Type} {l : List (String × β)} :
    (l.lookup name).isSome = true ↔ name ∈ l.map (·.1) := by
  induction l with
  | nil => simp
  | cons e l ih =>
    rw [List.lookup_cons, List.map_cons, List.mem_cons]
    by_cases h : name = e.1
    · simp [h]
    · rw [beq_eq_false_iff_ne.2 h, ih, or_iff_right h]

theorem lookup_of_mem {κ β : Type} [DecidableEq κ] {l : List (κ × β)} (h : (l.map (·.1)).Nodup)
    {e : κ × β} (he : e ∈ l) : l.lookup e.1 = some e.2 := by
  induction l with
  | nil => cases he
  | cons d l ih =>
    rw [List.map_cons, List.nodup_cons] at h
    rw [lookup_cons_eq_ite]
    rcases List.mem_cons.1 he with rfl | he
    · rw [if_pos rfl]
    · have hne : e.1 ≠ d.1 := fun heq => h.1 (heq ▸ List.mem_map_of_mem he)
      rw [if_neg hne]
      exact ih h.2 he

theorem declare_of_mem (h : name ∈ entries.map (·.1)) : declare name entries = entries :=
  if_pos (lookup_isSome_iff.2 h)

theorem declare_of_notMem (h : name ∉ entries.map (·.1)) :
    declare name entries = entries ++ [(name, [])] :=
  if_neg fun h' => h (lookup_isSome_iff.1 h')

/-- Names that are declared for the first time are appended. -/
theorem foldl_declare (entries : List (String × List α)) (key : ι → String) {l : List ι}
    (h : (entries.map (·.1) ++ l.map key).Nodup) :
    l.foldl (fun es i => declare (key i) es) entries = entries ++ l.map fun i => (key i, []) := by
  induction l generalizing entries with
  | nil => simp
  | cons i l ih =>
    rw [List.map_cons] at h
    have hnot : key i ∉ entries.map (·.1) := fun hmem =>
      (List.nodup_append.1 h).2.2 _ hmem _ List.mem_cons_self rfl
    rw [List.foldl_cons, declare_of_notMem hnot, ih _ (by simpa using h)]
    simp

/-- An item goes to the entry of its name. -/
theorem consItem_middle {l : List α} {rest : List (String × List α)}
    (h : (entries.map (·.1) ++ name :: rest.map (·.1)).Nodup) (a : α) :
    consItem name a (declare name (entries ++ (name, l) :: rest)) =
      entries ++ (name, a :: l) :: rest := by
  have hleft : ∀ e ∈ entries, e.1 ≠ name := fun e he heq =>
    (List.nodup_append.1 h).2.2 _ (List.mem_map_of_mem he) _ List.mem_cons_self heq
  have hright : ∀ e ∈ rest, e.1 ≠ name := fun e he heq =>
    (List.nodup_cons.1 (List.nodup_append.1 h).2.1).1 (heq ▸ List.mem_map_of_mem he)
  rw [declare_of_mem (by simp), consItem, List.map_append, List.map_cons, if_pos rfl]
  congr 1
  · exact (List.map_congr_left fun e he => if_neg (hleft e he)).trans (List.map_id _)
  · refine congrArg _ ?_
    exact (List.map_congr_left fun e he => if_neg (hright e he)).trans (List.map_id _)

/-- Adding an item for some of the names. -/
theorem foldl_consItem (entries : List (String × List α)) (key : ι → String) (adds : ι → Bool)
    (item : ι → α) (f : ι → List α) {l : List ι} (h : (entries.map (·.1) ++ l.map key).Nodup) :
    l.foldl (fun es i => if adds i then consItem (key i) (item i) (declare (key i) es) else es)
        (entries ++ l.map fun i => (key i, f i)) =
      entries ++ l.map fun i => (key i, if adds i then item i :: f i else f i) := by
  induction l generalizing entries with
  | nil => rfl
  | cons i l ih =>
    have h' : (entries.map (·.1) ++ key i :: (l.map fun i => (key i, f i)).map (·.1)).Nodup := by
      rw [List.map_map]
      exact h
    have hstep : (if adds i then consItem (key i) (item i) (declare (key i)
        (entries ++ (key i, f i) :: l.map fun i => (key i, f i)))
        else entries ++ (key i, f i) :: l.map fun i => (key i, f i)) =
        (entries ++ [(key i, if adds i then item i :: f i else f i)]) ++
          l.map fun i => (key i, f i) := by
      split
      · rw [consItem_middle h', List.append_assoc]
        rfl
      · rw [List.append_assoc]
        rfl
    rw [List.foldl_cons, List.map_cons, hstep, ih _ (by simpa using h), List.append_assoc]
    rfl

/-! ### Looking up names -/

variable {x : String}

theorem lookup_declare (name x : String) (entries : List (String × List α)) :
    ((declare name entries).lookup x).getD [] = (entries.lookup x).getD [] := by
  by_cases h : name ∈ entries.map (·.1)
  · rw [declare_of_mem h]
  · rw [declare_of_notMem h, List.lookup_append, lookup_cons_eq_ite, List.lookup_nil]
    cases entries.lookup x with
    | some l => rfl
    | none => split <;> rfl

theorem lookup_consItem (a : α) :
    (consItem name a entries).lookup x =
      (entries.lookup x).map fun l => if x = name then a :: l else l := by
  induction entries with
  | nil => rfl
  | cons e entries ih =>
    have hhead : consItem name a (e :: entries) =
        (e.1, if e.1 = name then a :: e.2 else e.2) :: consItem name a entries := by
      rw [consItem, List.map_cons, consItem]
      split <;> rfl
    rw [hhead, lookup_cons_eq_ite, lookup_cons_eq_ite, ih]
    by_cases h : x = e.1
    · rw [if_pos h, if_pos h, Option.map_some, h]
    · rw [if_neg h, if_neg h]

/-- Declared names are there, and each of them once. -/
theorem names_foldl_declare {ι : Type} (key : ι → String) (l : List ι)
    (h : (entries.map (·.1)).Nodup) :
    ((l.foldl (fun es i => declare (key i) es) entries).map (·.1)).Nodup ∧
      ∀ y, y ∈ entries.map (·.1) ∨ y ∈ l.map key →
        y ∈ (l.foldl (fun es i => declare (key i) es) entries).map (·.1) := by
  induction l generalizing entries with
  | nil => exact ⟨h, fun y hy => hy.resolve_right List.not_mem_nil⟩
  | cons i l ih =>
    have hstep : ((declare (key i) entries).map (·.1)).Nodup ∧
        ∀ y, y ∈ entries.map (·.1) ∨ y = key i → y ∈ (declare (key i) entries).map (·.1) := by
      by_cases hi : key i ∈ entries.map (·.1)
      · rw [declare_of_mem hi]
        exact ⟨h, fun y hy => hy.elim id fun heq => heq ▸ hi⟩
      · rw [declare_of_notMem hi, List.map_append]
        refine ⟨h.append (List.nodup_singleton _) (by simpa using hi), fun y hy => ?_⟩
        exact List.mem_append.2 (hy.imp_right fun heq => List.mem_singleton.2 heq)
    obtain ⟨hnodup, hmem⟩ := ih hstep.1
    refine ⟨hnodup, fun y hy => hmem y ?_⟩
    rw [List.map_cons, List.mem_cons] at hy
    rcases hy with hy | rfl | hy
    · exact .inl (hstep.2 y (.inl hy))
    · exact .inl (hstep.2 _ (.inr rfl))
    · exact .inr hy

theorem nodup_declare (name : String) (h : (entries.map (·.1)).Nodup) :
    ((declare name entries).map (·.1)).Nodup :=
  (names_foldl_declare (fun _ : Unit => name) [()] h).1

theorem mem_declare {e : String × List α} (h : e ∈ declare name entries) :
    e ∈ entries ∨ e = (name, []) := by
  by_cases hname : name ∈ entries.map (·.1)
  · rw [declare_of_mem hname] at h
    exact .inl h
  · rw [declare_of_notMem hname] at h
    simpa using h

theorem lookup_foldl_declare {ι : Type} (key : ι → String) (l : List ι) :
    ((l.foldl (fun es i => declare (key i) es) entries).lookup x).getD [] =
      (entries.lookup x).getD [] := by
  induction l generalizing entries with
  | nil => rfl
  | cons i l ih => rw [List.foldl_cons, ih, lookup_declare]

theorem names_declare (h : name ∈ entries.map (·.1)) :
    (declare name entries).map (·.1) = entries.map (·.1) := by rw [declare_of_mem h]

theorem mem_names_declare : x ∈ (declare name entries).map (·.1) ↔ x = name ∨ x ∈ entries.map (·.1) := by
  by_cases h : name ∈ entries.map (·.1)
  · rw [declare_of_mem h]
    exact ⟨.inr, fun hx => hx.elim (fun heq => heq ▸ h) id⟩
  · rw [declare_of_notMem h, List.map_append, List.map_singleton, List.mem_append,
      List.mem_singleton, or_comm]

/-- What is listed under a name after an item has been put under another one or the same. -/
theorem lookup_consItem_declare (name x : String) (a : α) (entries : List (String × List α)) :
    ((consItem name a (declare name entries)).lookup x).getD [] =
      if x = name then a :: (entries.lookup x).getD [] else (entries.lookup x).getD [] := by
  rw [lookup_consItem, ← lookup_declare name x]
  by_cases hx : x = name
  · have hmem : x ∈ (declare name entries).map (·.1) := mem_names_declare.2 (.inl hx)
    obtain ⟨l, hl⟩ := Option.isSome_iff_exists.1 (lookup_isSome_iff.2 hmem)
    rw [hl, Option.map_some, if_pos hx, if_pos hx]
    rfl
  · simp only [if_neg hx, Option.map_id']

theorem lookup_map_snd {β : Type} (g : List α → β) (name : String) (entries : List (String × List α)) :
    (entries.map fun e => (e.1, g e.2)).lookup name = (entries.lookup name).map g := by
  induction entries with
  | nil => rfl
  | cons e entries ih =>
    rw [List.map_cons, lookup_cons_eq_ite, lookup_cons_eq_ite, ih]
    split <;> rfl

theorem names_consItem (a : α) : (consItem name a entries).map (·.1) = entries.map (·.1) := by
  rw [consItem, List.map_map]
  refine List.map_congr_left fun e _ => ?_
  rw [Function.comp_apply]
  split <;> rfl

end Entries

/-! ## Transitions -/

section Transitions

variable {V : Type}

/-- The order of transitions without their values. -/
def Before (a b : Transition V) : Prop :=
  a.source < b.source ∨ a.source = b.source ∧ a.target < b.target

theorem isLE_of_before [Value V] {a b : Transition V} (h : Before a b) :
    (transitionCmp a b).isLE = true := by
  unfold transitionCmp
  rcases h with h | ⟨h1, h2⟩
  · rw [Nat.compare_eq_lt.2 h]
    rfl
  · rw [Nat.compare_eq_eq.2 h1, Nat.compare_eq_lt.2 h2]
    rfl

theorem ofSorted_eq {ts : List (Transition V)} (h : ts.Pairwise Before) :
    Bundle.ofSorted ts = ts.map fun t => ⟨t.source, t.target, [t.value]⟩ := by
  induction ts with
  | nil => rfl
  | cons t ts ih =>
    rw [List.pairwise_cons] at h
    rw [Bundle.ofSorted, List.foldr_cons]
    change Bundle.cons t (Bundle.ofSorted ts) = _
    rw [ih h.2]
    cases ts with
    | nil => rfl
    | cons u ts =>
      rw [List.map_cons, Bundle.cons, if_neg]
      · rfl
      · have := h.1 u List.mem_cons_self
        unfold Before at this
        dsimp only
        omega

/-- The sum of one canonical function is that function. -/
theorem sum_singleton {f : RationalFunction} (hf : f.IsCanonical) : Value.sum [f] = f := by
  have := Value.sum_denotes (l := [f]) (by simpa using hf)
  rw [List.map_singleton, List.sum_singleton] at this
  exact this.eq hf.denotes

/-- Of transitions in ascending order only the zeros are dropped. -/
theorem mergeTransitions_eq_filter [Value V] {ts : List (Transition V)} (hasc : ts.Pairwise Before)
    (hsum : ∀ t ∈ ts, Value.isZero t.value = false → Value.sum [t.value] = t.value)
    (hzero : ∀ t ∈ ts, Value.isZero t.value = true → Value.isZero (Value.sum [t.value]) = true) :
    mergeTransitions ts = ts.filter (!Value.isZero ·.value) := by
  have hsort : (ts.mergeSort fun a b => (transitionCmp a b).isLE) = ts :=
    List.mergeSort_of_pairwise (hasc.imp isLE_of_before)
  rw [mergeTransitions, hsort, ofSorted_eq hasc, List.filterMap_map, ← List.filterMap_eq_filter]
  refine List.filterMap_congr fun t ht => ?_
  cases hz : Value.isZero t.value with
  | false => simp [Option.guard, hsum t ht hz, hz]
  | true => simp [Option.guard, hzero t ht hz, hz]

/-- The transitions of given rows, row by row. -/
def transitionsOf (n : ℕ) (f : ℕ → List (ℕ × V)) : List (Transition V) :=
  (List.range n).flatMap fun c => (f c).map fun e => ⟨c, e.1, e.2⟩

theorem mem_transitionsOf {n : ℕ} {f : ℕ → List (ℕ × V)} {t : Transition V} :
    t ∈ transitionsOf n f ↔ t.source < n ∧ (t.target, t.value) ∈ f t.source := by
  simp only [transitionsOf, List.mem_flatMap, List.mem_range, List.mem_map]
  constructor
  · rintro ⟨c, hc, e, he, rfl⟩
    exact ⟨hc, he⟩
  · rintro ⟨hc, he⟩
    exact ⟨_, hc, _, he, rfl⟩

theorem transitionsOf_ascend {n : ℕ} {f : ℕ → List (ℕ × V)}
    (h : ∀ c, (f c).Pairwise (·.1 < ·.1)) : (transitionsOf n f).Pairwise Before := by
  rw [transitionsOf, List.pairwise_flatMap]
  refine ⟨fun c _ => ?_, List.pairwise_lt_range.imp fun hlt => ?_⟩
  · rw [List.pairwise_map]
    exact (h c).imp fun h => .inr ⟨rfl, h⟩
  · simp only [List.mem_map]
    rintro _ ⟨e, -, rfl⟩ _ ⟨g, -, rfl⟩
    exact .inl hlt

/-- The transitions of one row are found again. -/
theorem filter_transitionsOf (n c : ℕ) (f : ℕ → List (ℕ × V)) :
    (((transitionsOf n f).filter fun t => t.source = c).map fun t => (t.target, t.value)) =
      if c < n then f c else [] := by
  have hrow : ∀ d, (((f d).map fun e => (⟨d, e.1, e.2⟩ : Transition V)).filter
      fun t => t.source = c) = if d = c then (f d).map fun e => ⟨d, e.1, e.2⟩ else [] := by
    intro d
    rw [List.filter_map]
    by_cases h : d = c <;> simp [h, Function.comp_def]
  induction n with
  | zero => simp [transitionsOf]
  | succ n ih =>
    have hsucc : transitionsOf (n + 1) f =
        transitionsOf n f ++ (f n).map fun e => ⟨n, e.1, e.2⟩ := by
      rw [transitionsOf, List.range_succ, List.flatMap_append, List.flatMap_singleton]
      rfl
    rw [hsucc, List.filter_append, List.map_append, ih, hrow]
    rcases lt_trichotomy c n with h | rfl | h
    · rw [if_pos h, if_neg h.ne', if_pos (Nat.lt_succ_of_lt h), List.map_nil, List.append_nil]
    · simp [Function.comp_def]
    · rw [if_neg h.not_gt, if_neg h.ne, if_neg (by omega)]
      rfl

theorem filter_value_transitionsOf (n : ℕ) (f : ℕ → List (ℕ × V)) (p : V → Bool) :
    (transitionsOf n f).filter (p ·.value) = transitionsOf n fun c => (f c).filter (p ·.2) := by
  simp only [transitionsOf, List.filter_flatMap, List.filter_map]
  rfl

/-- The rows are the lists that were given, without their zeros. -/
theorem rowsOf_transitionsOf_filter [Value V] {n : ℕ} {f : ℕ → List (ℕ × V)}
    (hasc : ∀ c, (f c).Pairwise (·.1 < ·.1))
    (hsum : ∀ c, ∀ e ∈ f c, Value.isZero e.2 = false → Value.sum [e.2] = e.2)
    (hzero : ∀ c, ∀ e ∈ f c, Value.isZero e.2 = true → Value.isZero (Value.sum [e.2]) = true) :
    (rowsOf n (transitionsOf n f)).size = n ∧
      ∀ c < n, (rowsOf n (transitionsOf n f))[c]? = some ((f c).filter (!Value.isZero ·.2)) := by
  have hmerge : mergeTransitions (transitionsOf n f) =
      transitionsOf n fun c => (f c).filter (!Value.isZero ·.2) := by
    rw [mergeTransitions_eq_filter (transitionsOf_ascend hasc)
      (fun t ht => hsum _ _ (mem_transitionsOf.1 ht).2) fun t ht => hzero _ _ (mem_transitionsOf.1 ht).2]
    exact filter_value_transitionsOf n f (!Value.isZero ·)
  have hsorted := (transitionsOf_ascend (n := n) fun c => (hasc c).filter (!Value.isZero ·.2)).imp
    fun h => h.elim le_of_lt fun h => h.1.le
  refine ⟨Array.size_ofFn, fun c hc => ?_⟩
  rw [rowsOf, hmerge, rows_compress hsorted hc, filter_transitionsOf, if_pos hc]

/-- The rows are the lists that were given. -/
theorem rowsOf_transitionsOf [Value V] {n : ℕ} {f : ℕ → List (ℕ × V)}
    (hasc : ∀ c, (f c).Pairwise (·.1 < ·.1)) (hsum : ∀ c, ∀ e ∈ f c, Value.sum [e.2] = e.2)
    (hz : ∀ c, ∀ e ∈ f c, Value.isZero e.2 = false) :
    (rowsOf n (transitionsOf n f)).size = n ∧
      ∀ c < n, (rowsOf n (transitionsOf n f))[c]? = some (f c) := by
  obtain ⟨hsize, hrows⟩ := rowsOf_transitionsOf_filter (n := n) hasc (fun c e he _ => hsum c e he)
    fun c e he hzero => absurd hzero (by rw [hz c e he]; exact Bool.false_ne_true)
  refine ⟨hsize, fun c hc => ?_⟩
  rw [hrows c hc, List.filter_eq_self.2 fun e he => by rw [hz c e he]; rfl]

end Transitions

/-! ## Initial states and rewards -/

theorem mem_insertState {s t : ℕ} {l : List ℕ} : t ∈ insertState s l ↔ t = s ∨ t ∈ l := by
  induction l with
  | nil => simp [insertState]
  | cons u l ih =>
    unfold insertState
    split
    · rw [List.mem_cons]
    · split
      · rename_i h
        rw [h, List.mem_cons]
        tauto
      · rw [List.mem_cons, ih, List.mem_cons]
        tauto

theorem insertState_ascend {s : ℕ} {l : List ℕ} (h : l.Pairwise (· < ·)) :
    (insertState s l).Pairwise (· < ·) := by
  induction l with
  | nil => exact List.pairwise_singleton _ _
  | cons u l ih =>
    rw [List.pairwise_cons] at h
    unfold insertState
    split
    · rename_i hlt
      rw [List.pairwise_cons, List.pairwise_cons, List.forall_mem_cons]
      exact ⟨⟨hlt, fun t ht => hlt.trans (h.1 t ht)⟩, h⟩
    · split
      · exact List.pairwise_cons.2 h
      · rw [List.pairwise_cons]
        refine ⟨fun t ht => ?_, ih h.2⟩
        rcases mem_insertState.1 ht with rfl | ht
        · omega
        · exact h.1 t ht

theorem mem_sortStates {s : ℕ} {l : List ℕ} : s ∈ sortStates l ↔ s ∈ l := by
  have hfold : ∀ k : List ℕ, s ∈ k.foldr insertState [] ↔ s ∈ k := by
    intro k
    induction k with
    | nil => rfl
    | cons t k ih => rw [List.foldr_cons, mem_insertState, ih, List.mem_cons]
  rw [sortStates, hfold, List.mem_mergeSort]

theorem sortStates_ascend (l : List ℕ) : (sortStates l).Pairwise (· < ·) := by
  unfold sortStates
  induction l.mergeSort with
  | nil => exact .nil
  | cons t k ih => exact insertState_ascend ih

section RewardVector

variable {V : Type} [Value V] {n : ℕ}

theorem rewardVector_cons (n : ℕ) (e : ℕ × V) (l : List (ℕ × V)) :
    rewardVector n (e :: l) = (rewardVector n l).setIfInBounds e.1 e.2 := rfl

theorem size_rewardVector (n : ℕ) (l : List (ℕ × V)) : (rewardVector n l).size = n := by
  induction l with
  | nil => exact Array.size_replicate
  | cons e l ih => rw [rewardVector_cons, Array.size_setIfInBounds, ih]

theorem mem_rewardVector {l : List (ℕ × V)} {f : V} (h : f ∈ rewardVector n l) :
    f = Value.zero ∨ ∃ e ∈ l, e.2 = f := by
  induction l with
  | nil => exact .inl (Array.eq_of_mem_replicate h)
  | cons e l ih =>
    rw [rewardVector_cons] at h
    rcases Array.mem_or_eq_of_mem_setIfInBounds h with h | rfl
    · rcases ih h with h | ⟨d, hd, hf⟩
      · exact .inl h
      · exact .inr ⟨d, List.mem_cons_of_mem e hd, hf⟩
    · exact .inr ⟨e, List.mem_cons_self, rfl⟩

end RewardVector

/-- The rewards are those that were set, when every state is set once. -/
theorem rewardVector_eq {V : Type} [Value V] (n : ℕ) (g : ℕ → V) :
    rewardVector n ((List.range n).map fun c => (c, g c)).reverse =
      Array.ofFn fun c : Fin n => g c := by
  have hnodup : (((List.range n).map fun c => (c, g c)).map (·.1)).Nodup := by
    rw [List.map_map]
    exact (List.map_id (List.range n)).symm ▸ List.nodup_range
  obtain ⟨hsize, h, -⟩ := foldl_setIfInBounds_spec id hnodup (Array.replicate n Value.zero)
  rw [Array.size_replicate] at hsize
  rw [rewardVector, List.foldr_reverse]
  refine Array.ext (hsize.trans Array.size_ofFn.symm) fun c h1 h2 => ?_
  have hc : c < n := h1.trans_eq hsize
  have hget := h (c, g c) (List.mem_map_of_mem (List.mem_range.2 hc)) (by simpa using hc)
  rw [Array.getElem_ofFn]
  exact Option.some_inj.1 ((Array.getElem?_eq_getElem h1).symm.trans hget)

end Builder
end MarkovCheck

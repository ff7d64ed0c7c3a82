import Mathlib
import MarkovCheck.Chain.Union
import MarkovCheck.Proofs.Chain.Labeling
import MarkovCheck.Proofs.Chain.Mass
import MarkovCheck.Proofs.Chain.Operations

/-!
# MarkovCheck.Proofs.Chain.Union

The disjoint union of two models contains both of them side by side.

The states of the left model keep their numbers, those of the right one are shifted. A state of the
union has the transitions, the labels and the rewards that it had; a label that its own model does
not have is not carried, and a reward model is kept only if both models have it.

* `Labeling.foldl_addState`, `addUnion_of_notMem`, `append_eq` — a label after some states, one label of the
  union, all labels.
* `Labeling.has_append_left`, `has_append_right` — who carries a label.
* `unionRows_eq`, `rows_disjointUnion` — the compressed rows are those of both models together.
* `row_left`, `row_right`, `expect_right` — the transitions.
* `rewardModel?_disjointUnion` — the rewards.
* `disjointUnion_wellFormed`, `disjointUnion_isCanonical`, `disjointUnion_noCancelling` — what holds
  of both models holds of the union.
* `IsUnion`, `disjointUnion_isUnion` — all parts of the union at once.
-/

namespace MarkovCheck

/-! ## Labels -/

theorem lookup_map_pair {β : Type} (g : String → β) (name : String) (names : List String) :
    (names.map fun n => (n, g n)).lookup name = if name ∈ names then some (g name) else none := by
  induction names with
  | nil => rfl
  | cons n names ih =>
    rw [List.map_cons, List.lookup_cons]
    by_cases h : name = n
    · simp [h]
    · rw [beq_eq_false_iff_ne.2 h]
      simp [h, ih]

namespace Labeling

variable {l r merged : Labeling} {name : String} {n k s : ℕ}

theorem upsert_append {base : List (String × StateSet)} (h : name ∉ base.map (·.1))
    (change : StateSet → StateSet) (fresh : StateSet) (rest : List (String × StateSet)) :
    upsert name change fresh (base ++ rest) = base ++ upsert name change fresh rest := by
  induction base with
  | nil => rfl
  | cons e base ih =>
    rw [List.map_cons, List.mem_cons, not_or] at h
    rw [List.cons_append, upsert, if_neg (Ne.symm h.1), ih h.2]
    rfl

/-- A new label is put behind the others once a state carries it, and gains the states that follow. -/
theorem foldl_addState (h : name ∉ merged.names) (states : List ℕ) :
    states.foldl (·.addState name ·) merged = ⟨merged.numStates, merged.labels ++
      if states = [] then [] else [(name, .ofList merged.numStates states)]⟩ := by
  induction states using List.reverseRecOn with
  | nil => simp
  | append_singleton states s ih =>
    rw [List.foldl_append, ih, List.foldl_cons, List.foldl_nil, addState,
      if_neg (List.append_ne_nil_of_right_ne_nil states (List.cons_ne_nil s []))]
    refine congrArg (Labeling.mk _) ?_
    rw [upsert_append h]
    refine congrArg (merged.labels ++ ·) ?_
    split
    · rename_i hnil
      rw [hnil]
      rfl
    · have hconcat : StateSet.ofList merged.numStates (states ++ [s]) =
          (StateSet.ofList merged.numStates states).insert s := List.foldl_append
      rw [hconcat]
      exact if_pos rfl

/-- A label that is not there yet is added with the states that carry it on either side. -/
theorem addUnion_of_notMem (l r : Labeling) (hsize : merged.numStates = n + k) (h : name ∉ merged.names) :
    l.addUnion r n k merged name =
      ⟨n + k, merged.labels ++ [(name, .ofList (n + k) (l.unionStates r n k name))]⟩ := by
  have hnot : merged.contains name = false := Bool.eq_false_iff.2 (mt contains_iff.1 h)
  rw [addUnion, hnot, if_neg Bool.false_ne_true, foldl_addState h, hsize]
  by_cases hnil : l.unionStates r n k name = []
  · -- No state carries it.
    rw [hnil, if_pos rfl, List.append_nil]
    have hempty : (⟨n + k, merged.labels⟩ : Labeling).contains name = false := hnot
    simp only [hempty, Bool.false_eq_true, if_false, set]
    have hfresh := upsert_append h (fun _ => .empty (n + k)) (.empty (n + k)) []
    rw [List.append_nil] at hfresh
    rw [hfresh]
    rfl
  · have hmem : name ∈ (⟨n + k, merged.labels ++
        [(name, .ofList (n + k) (l.unionStates r n k name))]⟩ : Labeling).names := by
      simp [names]
    rw [if_neg hnil]
    exact if_pos (contains_iff.2 hmem)

/-- Every label of either side has the states that carry it, those of the left side first. -/
theorem append_eq (l r : Labeling) (n k : ℕ) : l.append r n k = ⟨n + k,
    (l.names ++ r.names).eraseDups.map fun name => (name, .ofList (n + k) (l.unionStates r n k name))⟩ := by
  rw [append]
  induction l.names ++ r.names using List.reverseRecOn with
  | nil => rfl
  | append_singleton names name ih =>
    rw [List.foldl_append, List.foldl_cons, List.foldl_nil, ih]
    have hmem : name ∈ (⟨n + k, names.eraseDups.map fun name =>
        (name, .ofList (n + k) (l.unionStates r n k name))⟩ : Labeling).names ↔ name ∈ names := by
      simp [Labeling.names, Function.comp_def]
    by_cases h : name ∈ names
    · rw [eraseDups_concat_of_mem h]
      exact if_pos (contains_iff.2 (hmem.2 h))
    · rw [eraseDups_concat_of_notMem h, addUnion_of_notMem l r rfl (mt hmem.1 h), List.map_append]
      rfl

theorem names_append (l r : Labeling) (n k : ℕ) :
    (l.append r n k).names = (l.names ++ r.names).eraseDups := by
  rw [append_eq, names, List.map_map]
  exact List.map_id _

/-- The labels of the left side come first, then those only on the right one. -/
theorem names_append_of_nodup (hl : l.names.Nodup) (hr : r.names.Nodup) (n k : ℕ) :
    (l.append r n k).names = l.names ++ r.names.filter (· ∉ l.names) := by
  have hright : r.names.removeAll l.names = r.names.filter (· ∉ l.names) :=
    List.filter_congr fun name _ => by simp
  rw [names_append, List.eraseDups_append, eraseDups_of_nodup hl, hright, eraseDups_of_nodup (hr.filter _)]

/-- A label has its states on both sides, when one of the sides has it. -/
theorem states?_append (l r : Labeling) (n k : ℕ) (name : String) : (l.append r n k).states? name =
    if name ∈ l.names ∨ name ∈ r.names then some (.ofList (n + k) (l.unionStates r n k name)) else none := by
  rw [append_eq, states?, lookup_map_pair]
  exact if_congr (by rw [List.mem_eraseDups, List.mem_append]) rfl rfl

/-- Who carries a label of the union. -/
theorem has_append (l r : Labeling) (hs : s < n + k) :
    (l.append r n k).has name s = true ↔ s ∈ l.unionStates r n k name := by
  rw [has, states?_append]
  split_ifs with h
  · exact StateSet.contains_ofList_of_lt hs _
  · push Not at h
    have hnil : l.unionStates r n k name = [] := by
      simp [unionStates, has_eq_false h.1, has_eq_false h.2]
    rw [hnil]
    exact iff_of_false id List.not_mem_nil

/-- States carry the labels that they carried. -/
theorem has_append_left (l r : Labeling) (k : ℕ) (name : String) (hs : s < n) :
    (l.append r n k).has name s = l.has name s := by
  rw [Bool.eq_iff_iff, has_append l r (by omega), unionStates, List.mem_append, List.mem_filter,
    List.mem_range, or_iff_left, and_iff_right hs]
  intro h
  obtain ⟨t, -, rfl⟩ := List.mem_map.1 h
  omega

theorem has_append_right (l r : Labeling) (n : ℕ) (name : String) (hs : s < k) :
    (l.append r n k).has name (s + n) = r.has name s := by
  rw [Bool.eq_iff_iff, has_append l r (by omega), unionStates, List.mem_append, or_iff_right]
  · rw [List.mem_map_of_injective (add_left_injective n), List.mem_filter, List.mem_range, and_iff_right hs]
  · rw [List.mem_filter, List.mem_range]
    omega

end Labeling

namespace Model

variable {V : Type} {l r : Model V} {s : ℕ}

/-! ## Transitions -/

theorem compressed_reopen (m : Model V) :
    m.compressed.reopen = m.rows.toList.foldl Compressed.pushRow {} := by
  rw [compressed, Compressed.reopen_close, Array.foldl_toList]

/-- The rows of the left model are followed by the shifted ones of the right model. -/
theorem unionRows_eq (l r : Model V) : l.unionRows r =
    ((l.rows.toList ++ r.rows.toList.map (shiftRow l.numStates)).foldl Compressed.pushRow {}).close := by
  rw [unionRows, compressed_reopen, ← Array.foldl_toList, List.foldl_append, List.foldl_map]

theorem rows_disjointUnion (l r : Model V) :
    (l.disjointUnion r).rows = l.rows ++ r.rows.map (shiftRow l.numStates) := by
  have hlength : l.numStates + r.numStates =
      (l.rows.toList ++ r.rows.toList.map (shiftRow l.numStates)).length := by
    simp [numStates]
  rw [disjointUnion, unionRows_eq, hlength, (Compressed.lists_foldl_pushRow _).close_rows]
  simp

theorem numStates_disjointUnion (l r : Model V) :
    (l.disjointUnion r).numStates = l.numStates + r.numStates := by
  rw [numStates, rows_disjointUnion]
  simp [numStates]

/-- The arrays that the union is made of hold its rows. -/
theorem unionRows_stores (l r : Model V) : (l.unionRows r).Stores (l.disjointUnion r) := by
  rw [unionRows_eq]
  refine Compressed.Lists.stores ?_
  rw [rows_disjointUnion, Array.toList_append, Array.toList_map]
  exact Compressed.lists_foldl_pushRow _

theorem row_left (r : Model V) (hs : s < l.numStates) :
    (l.disjointUnion r).row s = l.row s := by
  rw [row, rows_disjointUnion, Array.getElem?_append_left hs, row]

theorem row_right (l r : Model V) (s : ℕ) :
    (l.disjointUnion r).row (s + l.numStates) = shiftRow l.numStates (r.row s) := by
  have hget : (l.disjointUnion r).rows[s + l.numStates]? = r.rows[s]?.map (shiftRow l.numStates) := by
    rw [rows_disjointUnion, numStates, Array.getElem?_append_right (Nat.le_add_left _ _),
      Nat.add_sub_cancel, Array.getElem?_map]
  rw [row, hget, row]
  cases r.rows[s]? <;> rfl

/-- Every state of the union is one of the left or of the right model. -/
theorem row_cases (l r : Model V) (s : ℕ) :
    (s < l.numStates ∧ (l.disjointUnion r).row s = l.row s) ∨
      ∃ t, s = t + l.numStates ∧ (l.disjointUnion r).row s = shiftRow l.numStates (r.row t) := by
  rcases lt_or_ge s l.numStates with hs | hs
  · exact .inl ⟨hs, row_left r hs⟩
  · refine .inr ⟨s - l.numStates, (Nat.sub_add_cancel hs).symm, ?_⟩
    rw [← row_right, Nat.sub_add_cancel hs]

theorem map_snd_shiftRow (n : ℕ) (row : List (ℕ × V)) : (shiftRow n row).map (·.2) = row.map (·.2) := by
  rw [shiftRow, List.map_map]
  rfl

theorem expect_left {l : Model RationalFunction} (r : Model RationalFunction) (hs : s < l.numStates)
    (f : ℕ → Frac) : (l.disjointUnion r).expect s f = l.expect s f := by
  rw [expect, row_left r hs, expect]

theorem expect_right (l r : Model RationalFunction) (s : ℕ) (f : ℕ → Frac) :
    (l.disjointUnion r).expect (s + l.numStates) f = r.expect s fun t => f (t + l.numStates) := by
  rw [expect, row_right, shiftRow, List.map_map, expect]
  rfl

/-! ## Rewards -/

/-- A reward model is found by its name, when no name occurs twice. -/
theorem rewardModel?_of_mem {m : Model V} (h : (m.rewards.map (·.name)).Nodup) {r : RewardModel V}
    (hr : r ∈ m.rewards) : m.rewardModel? r.name = some r := by
  unfold rewardModel?
  generalize m.rewards = l at h hr
  induction l with
  | nil => cases hr
  | cons w rest ih =>
    rw [List.map_cons, List.nodup_cons] at h
    rw [List.find?_cons]
    rcases List.mem_cons.1 hr with rfl | hr
    · rw [beq_self_eq_true]
    · have hne : w.name ≠ r.name := fun heq => h.1 (heq ▸ List.mem_map_of_mem hr)
      rw [beq_eq_false_iff_ne.2 hne]
      exact ih h.2 hr

/-- A reward model of the union is one that both models have. -/
theorem rewardModel?_disjointUnion (l r : Model V) (name : String) :
    (l.disjointUnion r).rewardModel? name = (l.rewardModel? name).bind fun a =>
      (r.rewardModel? name).map fun b => ⟨name, a.values ++ b.values⟩ := by
  rw [rewardModel?, disjointUnion, rewardModel?]
  induction l.rewards with
  | nil => rfl
  | cons a rest ih =>
    rw [List.filterMap_cons, List.find?_cons]
    by_cases h : a.name = name
    · subst h
      rw [beq_self_eq_true]
      rcases hb : r.rewardModel? a.name with _ | b
      · rw [hb] at ih
        simp only [Option.map_none, Option.bind_some, ih]
        cases rest.find? _ <;> rfl
      · simp
    · rw [beq_eq_false_iff_ne.2 h]
      rcases hb : r.rewardModel? a.name with _ | b
      · simpa using ih
      · simpa [h] using ih

/-- The reward models of the union, by name and in the order of the left model. -/
theorem rewardNames_disjointUnion (l r : Model V) :
    (l.disjointUnion r).rewards.map (·.name) =
      (l.rewards.map (·.name)).filter (· ∈ r.rewards.map (·.name)) := by
  rw [disjointUnion]
  induction l.rewards with
  | nil => rfl
  | cons a rest ih =>
    have hfound : (r.rewardModel? a.name).isSome ↔ a.name ∈ r.rewards.map (·.name) := by
      rw [rewardModel?, List.find?_isSome, List.mem_map]
      simp only [beq_iff_eq]
    rw [List.filterMap_cons, List.map_cons, List.filter_cons]
    cases hb : r.rewardModel? a.name with
    | none =>
      rw [hb] at hfound
      rw [if_neg (by simpa using hfound)]
      exact ih
    | some b =>
      rw [hb] at hfound
      rw [if_pos (by simpa using hfound)]
      exact congrArg (a.name :: ·) ih

theorem mem_rewards_disjointUnion {w : RewardModel V} (hw : w ∈ (l.disjointUnion r).rewards) :
    ∃ a ∈ l.rewards, ∃ b ∈ r.rewards, b.name = a.name ∧ w = ⟨a.name, a.values ++ b.values⟩ := by
  obtain ⟨a, ha, h⟩ := List.mem_filterMap.1 hw
  obtain ⟨b, hb, rfl⟩ := Option.map_eq_some_iff.1 h
  exact ⟨a, ha, b, List.mem_of_find?_eq_some hb, by simpa using List.find?_some hb, rfl⟩

/-- The values are those of the reward models with the same name, one after the other. -/
theorem mem_rewards_disjointUnion_iff (hr : (r.rewards.map (·.name)).Nodup) {w : RewardModel V} :
    w ∈ (l.disjointUnion r).rewards ↔
      ∃ a ∈ l.rewards, ∃ b ∈ r.rewards, b.name = a.name ∧ w = ⟨a.name, a.values ++ b.values⟩ := by
  refine ⟨mem_rewards_disjointUnion, ?_⟩
  rintro ⟨a, ha, b, hb, hname, rfl⟩
  refine List.mem_filterMap.2 ⟨a, ha, ?_⟩
  rw [← hname, rewardModel?_of_mem hr hb, hname]
  rfl

theorem value_append_left [Value V] {a b : RewardModel V} {name : String}
    (hs : s < a.values.size) :
    (⟨name, a.values ++ b.values⟩ : RewardModel V).value s = a.value s := by
  rw [RewardModel.value, Array.getElem?_append_left hs, RewardModel.value]

theorem value_append_right [Value V] (a b : RewardModel V) (name : String) (s : ℕ) :
    (⟨name, a.values ++ b.values⟩ : RewardModel V).value (s + a.values.size) =
      b.value s := by
  rw [RewardModel.value, Array.getElem?_append_right (Nat.le_add_left _ _), RewardModel.value,
    Nat.add_sub_cancel]

/-! ## The stored form -/

theorem disjointUnion_wellFormed [Value V] (hl : l.WellFormed) (hr : r.WellFormed) :
    (l.disjointUnion r).WellFormed := by
  constructor
  case targets_ascend =>
    intro s
    rcases row_cases l r s with ⟨-, hrow⟩ | ⟨t, -, hrow⟩
    · rw [hrow]
      exact hl.targets_ascend s
    · rw [hrow, shiftRow, List.pairwise_map]
      exact (hr.targets_ascend t).imp fun h => Nat.add_lt_add_right h _
  case targets_lt =>
    intro s e he
    rw [numStates_disjointUnion]
    rcases row_cases l r s with ⟨-, hrow⟩ | ⟨t, -, hrow⟩
    · rw [hrow] at he
      exact (hl.targets_lt s e he).trans_le (Nat.le_add_right _ _)
    · rw [hrow] at he
      obtain ⟨d, hd, rfl⟩ := List.mem_map.1 he
      have := hr.targets_lt t d hd
      simp only
      omega
  case values_ne_zero =>
    intro s e he
    rcases row_cases l r s with ⟨-, hrow⟩ | ⟨t, -, hrow⟩
    · rw [hrow] at he
      exact hl.values_ne_zero s e he
    · rw [hrow] at he
      obtain ⟨d, hd, rfl⟩ := List.mem_map.1 he
      exact hr.values_ne_zero t d hd
  case initial_ascend =>
    rw [disjointUnion, List.pairwise_append, List.pairwise_map]
    refine ⟨hl.initial_ascend, hr.initial_ascend.imp fun h => Nat.add_lt_add_right h _, ?_⟩
    intro s hs t ht
    obtain ⟨u, -, rfl⟩ := List.mem_map.1 ht
    exact (hl.initial_lt s hs).trans_le (Nat.le_add_left _ _)
  case initial_lt =>
    intro s hs
    rw [numStates_disjointUnion]
    rcases List.mem_append.1 hs with hs | hs
    · exact (hl.initial_lt s hs).trans_le (Nat.le_add_right _ _)
    · obtain ⟨t, ht, rfl⟩ := List.mem_map.1 hs
      have := hr.initial_lt t ht
      omega
  case initial_ne_nil =>
    rw [disjointUnion]
    exact List.append_ne_nil_of_left_ne_nil hl.initial_ne_nil _
  case labeling_size =>
    rw [numStates_disjointUnion, disjointUnion, Labeling.append_eq]
  case label_size =>
    intro d hd
    rw [disjointUnion, Labeling.append_eq] at hd
    obtain ⟨name, -, rfl⟩ := List.mem_map.1 hd
    rw [numStates_disjointUnion]
    exact StateSet.size_ofList _ _
  case label_names =>
    rw [disjointUnion, Labeling.names_append]
    exact nodup_eraseDups _
  case reward_size =>
    intro w hw
    obtain ⟨a, ha, b, hb, -, rfl⟩ := mem_rewards_disjointUnion hw
    rw [numStates_disjointUnion, Array.size_append, hl.reward_size a ha, hr.reward_size b hb]
  case reward_names =>
    rw [rewardNames_disjointUnion]
    exact hl.reward_names.filter _

/-- The states of two models side by side, in stored form. -/
structure IsUnion [Value V] (l r m : Model V) : Prop extends m.WellFormed where
  kind : m.kind = l.kind
  numStates : m.numStates = l.numStates + r.numStates
  row_left : ∀ s < l.numStates, m.row s = l.row s
  row_right : ∀ s < r.numStates, m.row (s + l.numStates) = (r.row s).map fun e => (e.1 + l.numStates, e.2)
  initial : m.initial = l.initial ++ r.initial.map (· + l.numStates)
  names : m.labeling.names = l.labeling.names ++ r.labeling.names.filter (· ∉ l.labeling.names)
  has_left : ∀ name, ∀ s < l.numStates, m.labeling.has name s = l.labeling.has name s
  has_right : ∀ name, ∀ s < r.numStates, m.labeling.has name (s + l.numStates) = r.labeling.has name s
  rewardNames : m.rewards.map (·.name) = (l.rewards.map (·.name)).filter (· ∈ r.rewards.map (·.name))
  reward : ∀ w, w ∈ m.rewards ↔ ∃ a ∈ l.rewards, ∃ b ∈ r.rewards,
    b.name = a.name ∧ w = ⟨a.name, a.values ++ b.values⟩

/-- The disjoint union has all parts of both models, and its compressed rows are those that were put
together. -/
theorem disjointUnion_isUnion [Value V] (hl : l.WellFormed) (hr : r.WellFormed) :
    (l.unionRows r).Stores (l.disjointUnion r) ∧ IsUnion l r (l.disjointUnion r) := by
  refine ⟨unionRows_stores l r, ?_⟩
  constructor
  case toWellFormed => exact disjointUnion_wellFormed hl hr
  case kind => rfl
  case numStates => exact numStates_disjointUnion l r
  case row_left => exact fun s hs => row_left r hs
  case row_right => exact fun s _ => row_right l r s
  case initial => rfl
  case names => exact Labeling.names_append_of_nodup hl.label_names hr.label_names _ _
  case has_left => exact fun name s hs => Labeling.has_append_left _ _ _ name hs
  case has_right => exact fun name s hs => Labeling.has_append_right _ _ _ name hs
  case rewardNames => exact rewardNames_disjointUnion l r
  case reward => exact fun w => mem_rewards_disjointUnion_iff hr.reward_names

/-- Two states that alternate; no state carries the second label. -/
def clock : Model RationalFunction where
  kind := .dtmc
  rows := #[[(1, .const 1)], [(0, .const 1)]]
  initial := [0, 1]
  labeling := ⟨2, [("heads", ⟨#[true, false]⟩), ("never", ⟨#[false, false]⟩)]⟩
  rewards := [⟨"ticks", #[.const 1, .const 1]⟩, ⟨"tosses", #[.const 2, .const 3]⟩]

theorem clock_wellFormed : clock.WellFormed where
  targets_ascend s := by rcases s with _ | _ | s <;> simp [clock, Model.row]
  targets_lt s := by rcases s with _ | _ | s <;> simp [clock, Model.row, Model.numStates]
  values_ne_zero s e he := by
    have hone : e.2 = .const 1 := by
      rcases s with _ | _ | s
      · exact congrArg Prod.snd (List.mem_singleton.1 he)
      · exact congrArg Prod.snd (List.mem_singleton.1 he)
      · cases he
    exact hone ▸ RationalFunction.isZero_const_eq_false one_ne_zero
  initial_ascend := by decide
  initial_lt := by decide
  initial_ne_nil := by decide
  labeling_size := rfl
  label_size := by decide
  label_names := by decide
  reward_size := by simp [clock, Model.numStates]
  reward_names := by decide

theorem coin_clock_isUnion : IsUnion coin clock (coin.disjointUnion clock) ∧
    (coin.unionRows clock).Stores (coin.disjointUnion clock) ∧
    (coin.unionRows clock).offsets = #[0, 2, 3, 4, 5, 6] ∧
    (coin.unionRows clock).targets = #[1, 2, 1, 2, 4, 3] ∧
    (coin.disjointUnion clock).initial = [0, 3, 4] ∧
    (coin.disjointUnion clock).labeling.labels =
      [("heads", ⟨#[false, true, false, true, false]⟩),
        ("never", ⟨#[false, false, false, false, false]⟩)] ∧
    (coin.disjointUnion clock).rewards.map (·.name) = ["tosses"] := by
  obtain ⟨hstores, hunion⟩ := disjointUnion_isUnion coin_wellFormed clock_wellFormed
  exact ⟨hunion, hstores, by decide, by decide, rfl, by decide, by decide⟩

theorem disjointUnion_isCanonical {l r : Model RationalFunction} (hl : l.IsCanonical) (hr : r.IsCanonical) :
    (l.disjointUnion r).IsCanonical := by
  constructor
  case row =>
    intro s e he
    rcases row_cases l r s with ⟨-, hrow⟩ | ⟨t, -, hrow⟩
    · rw [hrow] at he
      exact hl.row s e he
    · rw [hrow] at he
      obtain ⟨d, hd, rfl⟩ := List.mem_map.1 he
      exact hr.row t d hd
  case reward =>
    intro w hw v hv
    obtain ⟨a, ha, b, hb, -, rfl⟩ := mem_rewards_disjointUnion hw
    rcases Array.mem_append.1 hv with hv | hv
    · exact hl.reward a ha v hv
    · exact hr.reward b hb v hv

theorem disjointUnion_noCancelling {l r : Model RationalFunction} (hl : l.NoCancelling) (hr : r.NoCancelling) :
    (l.disjointUnion r).NoCancelling := by
  intro s hs vs hvs hne
  rcases row_cases l r s with ⟨hlt, hrow⟩ | ⟨t, rfl, hrow⟩
  · rw [hrow] at hvs
    exact hl s hlt vs hvs hne
  · rw [hrow, map_snd_shiftRow] at hvs
    rw [numStates_disjointUnion] at hs
    exact hr t (by omega) vs hvs hne

end Model
end MarkovCheck

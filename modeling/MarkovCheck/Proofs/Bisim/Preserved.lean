import Mathlib
import MarkovCheck.Bisim.Preserved
import MarkovCheck.Proofs.Chain.Mass
import MarkovCheck.Proofs.Partition.Grouping

/-!
# MarkovCheck.Proofs.Bisim.Preserved

The initial partition of a minimisation is equality of the preserved labels and rewards.

States are told apart by indices of a cache, and the cache grows while they are visited. But an index
that was given stays, and two values have one index only if they are equal. So the observations of a
state stay what they were, whatever the cache contained before and whatever comes later, and the
observations of two states are equal exactly for equal labels and rewards.

* `observe_spec`, `observe_ok`, `observe_error` — the observed labels and reward models are those of
  the given names, and all are found if the model knows the names.
* `Agree`, `Alike`    — two states carry the same labels and have the same rewards, in terms of what is
  observed and in terms of the names.
* `IsPlaced`          — what holds after some of the states.
* `labelPartition_spec`, `labelPartition_exact` — the blocks are the classes of states that agree,
  whatever the cache contained.
-/

namespace MarkovCheck
namespace Bisim

section Observe

variable {V : Type} {m : Model V}

theorem findLabels_spec {names : List String} {ls : List (String × StateSet)}
    (h : findLabels m names = .ok ls) :
    ls.map (·.1) = names ∧ ∀ l ∈ ls, m.labeling.states? l.1 = some l.2 := by
  induction names generalizing ls with
  | nil =>
    cases h
    simp
  | cons name names ih =>
    simp only [findLabels] at h
    split at h
    · cases h
    · rename_i states hstates
      split at h
      · cases h
      · rename_i rest hrest
        cases h
        obtain ⟨h1, h2⟩ := ih hrest
        rw [List.map_cons, h1, List.forall_mem_cons]
        exact ⟨rfl, hstates, h2⟩

theorem findLabels_ok {names : List String}
    (h : ∀ name ∈ names, ∃ states, m.labeling.states? name = some states) :
    ∃ ls, findLabels m names = .ok ls := by
  induction names with
  | nil => exact ⟨[], rfl⟩
  | cons name names ih =>
    rw [List.forall_mem_cons] at h
    obtain ⟨⟨states, hstates⟩, hrest⟩ := h
    obtain ⟨ls, hls⟩ := ih hrest
    exact ⟨(name, states) :: ls, by simp [findLabels, hstates, hls]⟩

theorem findRewards_spec {names : List String} {rs : List (RewardModel V)}
    (h : findRewards m names = .ok rs) :
    rs.map (·.name) = names ∧ ∀ r ∈ rs, m.rewardModel? r.name = some r := by
  induction names generalizing rs with
  | nil =>
    cases h
    simp
  | cons name names ih =>
    simp only [findRewards] at h
    split at h
    · cases h
    · rename_i r hr
      have hname : r.name = name := by simpa using List.find?_some hr
      split at h
      · cases h
      · rename_i rest hrest
        cases h
        obtain ⟨h1, h2⟩ := ih hrest
        rw [List.map_cons, h1, List.forall_mem_cons, hname]
        exact ⟨rfl, hr, h2⟩

theorem findRewards_ok {names : List String}
    (h : ∀ name ∈ names, ∃ r, m.rewardModel? name = some r) :
    ∃ rs, findRewards m names = .ok rs := by
  induction names with
  | nil => exact ⟨[], rfl⟩
  | cons name names ih =>
    rw [List.forall_mem_cons] at h
    obtain ⟨⟨r, hr⟩, hrest⟩ := h
    obtain ⟨rs, hrs⟩ := ih hrest
    exact ⟨r :: rs, by simp [findRewards, hr, hrs]⟩

theorem findLabels_eq_ok {ls : List (String × StateSet)}
    (h : ∀ l ∈ ls, m.labeling.states? l.1 = some l.2) :
    findLabels m (ls.map (·.1)) = .ok ls := by
  induction ls with
  | nil => rfl
  | cons l ls ih =>
    rw [List.forall_mem_cons] at h
    simp [findLabels, h.1, ih h.2]

theorem findRewards_eq_ok {rs : List (RewardModel V)}
    (h : ∀ r ∈ rs, m.rewardModel? r.name = some r) :
    findRewards m (rs.map (·.name)) = .ok rs := by
  induction rs with
  | nil => rfl
  | cons r rs ih =>
    rw [List.forall_mem_cons] at h
    simp [findRewards, h.1, ih h.2]

/-- What is observed has the preserved names, in order, and is what the model has by these names. -/
theorem observe_spec {p : Preserved} {o : Observed V} (h : observe m p = .ok o) :
    (o.labels.map (·.1) = p.labels ∧ ∀ l ∈ o.labels, m.labeling.states? l.1 = some l.2) ∧
      o.rewards.map (·.name) = p.rewards ∧ ∀ r ∈ o.rewards, m.rewardModel? r.name = some r := by
  unfold observe at h
  split at h
  · cases h
  · rename_i labels hlabels
    split at h
    · cases h
    · rename_i rewards hrewards
      cases h
      exact ⟨findLabels_spec hlabels, findRewards_spec hrewards⟩

theorem observe_ok {p : Preserved}
    (hl : ∀ name ∈ p.labels, ∃ states, m.labeling.states? name = some states)
    (hr : ∀ name ∈ p.rewards, ∃ r, m.rewardModel? name = some r) :
    ∃ o, observe m p = .ok o := by
  obtain ⟨ls, hls⟩ := findLabels_ok hl
  obtain ⟨rs, hrs⟩ := findRewards_ok hr
  exact ⟨⟨ls, rs⟩, by simp [observe, hls, hrs]⟩

/-- What the model has by the names of some labels and reward models is what is observed. -/
theorem observe_eq_ok {o : Observed V} (hl : ∀ l ∈ o.labels, m.labeling.states? l.1 = some l.2)
    (hr : ∀ r ∈ o.rewards, m.rewardModel? r.name = some r) :
    observe m ⟨o.labels.map (·.1), o.rewards.map (·.name)⟩ = .ok o := by
  simp only [observe, findLabels_eq_ok hl, findRewards_eq_ok hr]

theorem findLabels_error {names : List String} {e : ReductionError}
    (h : findLabels m names = .error e) : ∃ name ∈ names, e = .unknownLabel name := by
  induction names with
  | nil => cases h
  | cons name names ih =>
    simp only [findLabels] at h
    split at h
    · cases h
      exact ⟨name, List.mem_cons_self, rfl⟩
    · split at h
      · rename_i hrest
        cases h
        obtain ⟨other, hother, he⟩ := ih hrest
        exact ⟨other, List.mem_cons_of_mem name hother, he⟩
      · cases h

theorem findRewards_error {names : List String} {e : ReductionError}
    (h : findRewards m names = .error e) : ∃ name ∈ names, e = .unknownRewardModel name := by
  induction names with
  | nil => cases h
  | cons name names ih =>
    simp only [findRewards] at h
    split at h
    · cases h
      exact ⟨name, List.mem_cons_self, rfl⟩
    · split at h
      · rename_i hrest
        cases h
        obtain ⟨other, hother, he⟩ := ih hrest
        exact ⟨other, List.mem_cons_of_mem name hother, he⟩
      · cases h

/-- When something preserved is not found, the error names it. -/
theorem observe_error {p : Preserved} {e : ReductionError} (h : observe m p = .error e) :
    (∃ name ∈ p.labels, e = .unknownLabel name) ∨
      ∃ name ∈ p.rewards, e = .unknownRewardModel name := by
  unfold observe at h
  split at h
  · rename_i hlabels
    cases h
    exact .inl (findLabels_error hlabels)
  · split at h
    · rename_i hrewards
      cases h
      exact .inr (findRewards_error hrewards)
    · cases h

end Observe

/-! ## Observations -/

/-- Two states carry the same observed labels and have the same observed rewards. -/
def Agree (o : Observed RationalFunction) (s t : ℕ) : Prop :=
  (∀ l ∈ o.labels, l.2.contains s = l.2.contains t) ∧ ∀ r ∈ o.rewards, r.value s = r.value t

/-- The rewards of a state are known to a cache. -/
def KnowsRewards (c : ValueCache RationalFunction) (rewards : List (RewardModel RationalFunction))
    (s : ℕ) : Prop := ∀ r ∈ rewards, ∃ i, c.index? (r.value s) = some i

theorem KnowsRewards.extends {c d : ValueCache RationalFunction}
    {rewards : List (RewardModel RationalFunction)} {s : ℕ} (h : KnowsRewards c rewards s)
    (hcd : c.Extends d) : KnowsRewards d rewards s := fun r hr =>
  (h r hr).imp fun i hi => hcd _ i hi

/-- The observations of a state whose rewards are known. -/
def encodeState (c : ValueCache RationalFunction) (o : Observed RationalFunction) (s : ℕ) :
    Observations :=
  (o.labels.map fun l => l.2.contains s, o.rewards.map fun r => (c.index? (r.value s)).getD 0)

theorem encodeState_extends {c d : ValueCache RationalFunction} {o : Observed RationalFunction}
    {s : ℕ} (h : KnowsRewards c o.rewards s) (hcd : c.Extends d) :
    encodeState d o s = encodeState c o s := by
  refine Prod.ext rfl (List.map_congr_left fun r hr => ?_)
  obtain ⟨i, hi⟩ := h r hr
  rw [hi, hcd _ i hi]

/-- Observations are equal exactly for states that agree. -/
theorem encodeState_inj {c : ValueCache RationalFunction} {o : Observed RationalFunction} {s t : ℕ}
    (hs : KnowsRewards c o.rewards s) (ht : KnowsRewards c o.rewards t) :
    encodeState c o s = encodeState c o t ↔ Agree o s t := by
  simp only [encodeState, Prod.mk.injEq, List.map_inj_left, Agree]
  refine and_congr_right fun _ => forall₂_congr fun r hr => ?_
  obtain ⟨i, hi⟩ := hs r hr
  obtain ⟨j, hj⟩ := ht r hr
  rw [hi, hj, Option.getD_some, Option.getD_some]
  constructor
  · rintro rfl
    exact ValueCache.index?_inj hi hj
  · intro h
    rw [h, hj] at hi
    exact (Option.some.inj hi).symm

/-- The rewards of a state are inserted one after the other. -/
theorem rewardIndices_eq_insertAll (c : ValueCache RationalFunction) (s : ℕ)
    (rewards : List (RewardModel RationalFunction)) :
    rewardIndices c s rewards = c.insertAll (rewards.map fun r => r.value s) := by
  induction rewards generalizing c with
  | nil => rfl
  | cons r rewards ih => simp only [rewardIndices, ih, List.map_cons, ValueCache.insertAll_cons]

theorem rewardIndices_spec (c : ValueCache RationalFunction) (s : ℕ)
    (rewards : List (RewardModel RationalFunction)) :
    c.Extends (rewardIndices c s rewards).2 ∧
      KnowsRewards (rewardIndices c s rewards).2 rewards s ∧
      (rewardIndices c s rewards).1 =
        rewards.map fun r => ((rewardIndices c s rewards).2.index? (r.value s)).getD 0 := by
  obtain ⟨hext, hindexes⟩ := c.insertAll_spec (rewards.map fun r => r.value s)
  rw [rewardIndices_eq_insertAll]
  refine ⟨hext, fun r hr => hindexes.known _ (List.mem_map_of_mem hr), ?_⟩
  rw [hindexes.eq_map, List.map_map]
  rfl

/-! ## Preserved names -/

section Names

variable {m : Model RationalFunction} {o : Observed RationalFunction} {preserved : Preserved}

/-- The model has all preserved labels and reward models. -/
structure Covers (m : Model RationalFunction) (preserved : Preserved) : Prop where
  labels : ∀ name ∈ preserved.labels, ∃ states, m.labeling.states? name = some states
  rewards : ∀ name ∈ preserved.rewards, ∃ r, m.rewardModel? name = some r

theorem observe_ok_iff : (∃ o, observe m preserved = .ok o) ↔ Covers m preserved := by
  constructor
  · rintro ⟨o, ho⟩
    obtain ⟨⟨hnames, hlabels⟩, hrnames, hrewards⟩ := observe_spec ho
    constructor
    case labels =>
      rw [← hnames, List.forall_mem_map]
      exact fun l hl => ⟨l.2, hlabels l hl⟩
    case rewards =>
      rw [← hrnames, List.forall_mem_map]
      exact fun w hw => ⟨w, hrewards w hw⟩
  · exact fun h => observe_ok h.labels h.rewards

/-- A state of one model and a state of another one carry the same preserved labels and have the same
preserved rewards. No state carries a label that its model does not have. -/
structure Alike (preserved : Preserved) (m : Model RationalFunction) (s : ℕ)
    (m' : Model RationalFunction) (t : ℕ) : Prop where
  labels : ∀ name ∈ preserved.labels, m.labeling.has name s = m'.labeling.has name t
  rewards : ∀ name ∈ preserved.rewards,
    (m.rewardModel? name).map (·.value s) = (m'.rewardModel? name).map (·.value t)

/-- To agree on what is observed is to be alike. -/
theorem agree_iff_alike (ho : observe m preserved = .ok o) {s t : ℕ} :
    Agree o s t ↔ Alike preserved m s m t := by
  obtain ⟨⟨hnames, hlabels⟩, hrnames, hrewards⟩ := observe_spec ho
  have hhas : ∀ l ∈ o.labels, ∀ u, m.labeling.has l.1 u = l.2.contains u := fun l hl u => by
    rw [Labeling.has, hlabels l hl]
  have hl : (∀ l ∈ o.labels, l.2.contains s = l.2.contains t) ↔
      ∀ name ∈ preserved.labels, m.labeling.has name s = m.labeling.has name t := by
    rw [← hnames, List.forall_mem_map]
    exact forall₂_congr fun l hl => by rw [hhas l hl, hhas l hl]
  have hr : (∀ w ∈ o.rewards, w.value s = w.value t) ↔ ∀ name ∈ preserved.rewards,
      (m.rewardModel? name).map (·.value s) = (m.rewardModel? name).map (·.value t) := by
    rw [← hrnames, List.forall_mem_map]
    exact forall₂_congr fun w hw => by
      rw [hrewards w hw, Option.map_some, Option.map_some, Option.some_inj]
  exact ⟨fun h => ⟨hl.1 h.1, hr.1 h.2⟩, fun h => ⟨hl.2 h.labels, hr.2 h.rewards⟩⟩

end Names

/-! ## The initial partition -/

/-- The first `k` of `n` states are in the blocks of their observations, and the cache knows their
rewards. -/
structure IsPlaced (o : Observed RationalFunction) (n k : ℕ)
    (w : Grouping Observations × ValueCache RationalFunction) : Prop where
  knows : ∀ s < k, KnowsRewards w.2 o.rewards s
  groups : w.1.Groups n k (encodeState w.2 o)

/-- One more state: the cache grows, which changes no observation that has been made before. -/
theorem IsPlaced.placeState {o : Observed RationalFunction} {n k : ℕ}
    {w : Grouping Observations × ValueCache RationalFunction} (h : IsPlaced o n k w) (hk : k < n) :
    IsPlaced o n (k + 1) (placeState o w k) := by
  obtain ⟨hext, hknows, heq⟩ := rewardIndices_spec w.2 k o.rewards
  have hobs : (observations o w.2 k).1 = encodeState (observations o w.2 k).2 o k := Prod.ext rfl heq
  have hgroups := h.groups.congr fun s hs => encodeState_extends (h.knows s hs) hext
  constructor
  case knows =>
    intro s hs
    rcases Nat.lt_succ_iff_lt_or_eq.1 hs with hs | rfl
    · exact (h.knows s hs).extends hext
    · exact hknows
  case groups =>
    change (w.1.put k (observations o w.2 k).1).Groups n (k + 1) _
    rw [hobs]
    exact hgroups.put hk

theorem foldl_placeState_isPlaced (o : Observed RationalFunction) (c : ValueCache RationalFunction)
    {n k : ℕ} (hk : k ≤ n) :
    IsPlaced o n k ((List.range k).foldl (placeState o) (.start n, c)) := by
  induction k with
  | zero => exact ⟨fun s hs => absurd hs s.not_lt_zero, Grouping.start_groups n _⟩
  | succ k ih =>
    rw [List.range_succ, List.foldl_append]
    exact (ih (Nat.le_of_succ_le hk)).placeState hk

/-- The initial partition exists when everything preserved is found; its blocks are the classes of
states that agree, in the order of their smallest states. -/
theorem labelPartition_spec {m : Model RationalFunction} (hn : 0 < m.numStates) {p : Preserved}
    {o : Observed RationalFunction} (ho : observe m p = .ok o) (c : ValueCache RationalFunction) :
    ∃ q d, labelPartition m p c = .ok (q, d) ∧ q.IsOrdered m.numStates ∧
      ∀ s < m.numStates, ∀ t < m.numStates, q.block s = q.block t ↔ Agree o s t := by
  have hplaced := foldl_placeState_isPlaced o c m.numStates.le_refl
  set w := (List.range m.numStates).foldl (placeState o) (.start m.numStates, c) with hw
  refine ⟨w.1.partition, w.2, ?_, hplaced.groups.isOrdered hn, fun s hs t ht => ?_⟩
  · simp only [labelPartition, ho, hw]
  rw [hplaced.groups.block_eq_iff hs ht, encodeState_inj (hplaced.knows s hs) (hplaced.knows t ht)]

theorem foldl_placeState_cache {o : Observed RationalFunction} (h : o.rewards = []) (l : List ℕ)
    (w : Grouping Observations × ValueCache RationalFunction) :
    (l.foldl (placeState o) w).2 = w.2 := by
  induction l generalizing w with
  | nil => rfl
  | cons s l ih => rw [List.foldl_cons, ih, placeState, observations, h, rewardIndices]

/-- Without rewards the cache stays as it is, and the classes and their order give the partition. -/
theorem labelPartition_eq {m : Model RationalFunction} (hn : 0 < m.numStates) {p : Preserved}
    {o : Observed RationalFunction} (ho : observe m p = .ok o) (hrewards : o.rewards = [])
    {q : Partition} (hq : q.IsOrdered m.numStates)
    (h : ∀ s < m.numStates, ∀ t < m.numStates, q.block s = q.block t ↔ Agree o s t)
    (c : ValueCache RationalFunction) : labelPartition m p c = .ok (q, c) := by
  obtain ⟨r, d, hr, hordered, hagree⟩ := labelPartition_spec hn ho c
  obtain rfl : r = q := hordered.ext hq fun s hs t ht => (hagree s hs t ht).trans (h s hs t ht).symm
  obtain rfl : d = c := by
    simp only [labelPartition, ho] at hr
    exact (congrArg Prod.snd (Except.ok.inj hr)).symm.trans (foldl_placeState_cache hrewards _ _)
  exact hr

/-- The initial partition does not exist exactly if the model does not have something preserved. When
it exists, whatever the cache contained, two states are in one block exactly if they carry the same
preserved labels and have the same preserved rewards; no block is empty, the blocks are numbered in the
order of their smallest states, and their number is the number of blocks. Every model that a builder
finishes has a state. -/
theorem labelPartition_exact {m : Model RationalFunction} (hn : 0 < m.numStates)
    (preserved : Preserved) (c : ValueCache RationalFunction) :
    ((∃ e, labelPartition m preserved c = .error e) ↔ ¬ Covers m preserved) ∧
      ∀ q d, labelPartition m preserved c = .ok (q, d) →
        (∀ s < m.numStates, ∀ t < m.numStates,
          q.block s = q.block t ↔ Alike preserved m s m t) ∧
        q.IsOrdered m.numStates ∧ q.numBlocks = ((Finset.range m.numStates).image q.block).card := by
  rw [← observe_ok_iff]
  rcases ho : observe m preserved with e | o
  · have herror : labelPartition m preserved c = .error e := by simp only [labelPartition, ho]
    rw [herror]
    refine ⟨⟨fun _ h => ?_, fun _ => ⟨e, rfl⟩⟩, fun q d h => ?_⟩
    · obtain ⟨o, ho'⟩ := h
      cases ho'
    · cases h
  · obtain ⟨q, d, hq, hordered, hagree⟩ := labelPartition_spec hn ho c
    rw [hq]
    refine ⟨⟨fun h => ?_, fun h => absurd ⟨o, rfl⟩ h⟩, fun q' d' h => ?_⟩
    · obtain ⟨e, he⟩ := h
      cases he
    · cases h
      refine ⟨fun s hs t ht => ?_, hordered, ?_⟩
      · rw [hagree s hs t ht, agree_iff_alike ho]
      · rw [hordered.image_block, Finset.card_range]

/-- The tosses still to come tell the first state of a coin from the two others, also if the cache
knows other values before. -/
theorem coin_labelPartition_exact :
    let c : ValueCache RationalFunction := (ValueCache.empty.insertAll [.const 2, .const 0]).2
    0 < coin.numStates ∧ ∃ q d, labelPartition coin ⟨[], ["tosses"]⟩ c = .ok (q, d) ∧
      q.block 0 ≠ q.block 1 ∧ q.block 1 = q.block 2 := by
  intro c
  have hn : 0 < coin.numStates := by decide
  obtain ⟨herror, hok⟩ := labelPartition_exact hn ⟨[], ["tosses"]⟩ c
  have hcovers : Covers coin ⟨[], ["tosses"]⟩ := ⟨by simp, by simp [coin, Model.rewardModel?]⟩
  rcases h : labelPartition coin ⟨[], ["tosses"]⟩ c with e | ⟨q, d⟩
  · exact absurd hcovers (herror.1 ⟨e, h⟩)
  · obtain ⟨hblock, -, -⟩ := hok q d h
    refine ⟨hn, q, d, rfl, fun heq => ?_, ?_⟩
    · have hreward := ((hblock 0 (by decide) 1 (by decide)).1 heq).rewards "tosses" (by simp)
      simp only [coin, Model.rewardModel?, RewardModel.value] at hreward
      revert hreward
      decide
    · refine (hblock 1 (by decide) 2 (by decide)).2 ⟨by simp, ?_⟩
      simp [coin, Model.rewardModel?, RewardModel.value]

end Bisim
end MarkovCheck

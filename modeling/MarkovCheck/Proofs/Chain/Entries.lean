import Mathlib
import MarkovCheck.Proofs.Chain.Builder
import MarkovCheck.Proofs.Chain.StateSet

/-!
# MarkovCheck.Proofs.Chain.Entries

The labels and rewards that a builder has been given, and those of the finished model.

* `Carries`        — the labels that a state has been given.
* `states?_finish` — the labels of a finished model.
* `rewardOf`       — the reward that has been set last for a state.
* `finish_rewards` — the rewards of a finished model.
-/

namespace MarkovCheck
namespace Builder

/-! ## Labels -/

section Labels

variable {V : Type} {b : Builder V} {name x : String} {i j : ℕ}

/-- The names of the labels. -/
def labelNames (b : Builder V) : List String := b.labels.map (·.1)

/-- The state has been given a label of that name. -/
def Carries (b : Builder V) (i : ℕ) (name : String) : Prop := i ∈ (b.labels.lookup name).getD []

theorem mem_labelNames_addLabel : x ∈ (b.addLabel name).labelNames ↔ x = name ∨ x ∈ b.labelNames :=
  mem_names_declare

theorem carries_addLabel : (b.addLabel name).Carries j x ↔ b.Carries j x := by
  rw [Carries, addLabel, lookup_declare, Carries]

theorem labelNames_addStateLabel (h : name ∈ b.labelNames) :
    (b.addStateLabel i name).labelNames = b.labelNames := by
  rw [labelNames, addStateLabel, names_consItem, names_declare h, labelNames]

theorem carries_addStateLabel :
    (b.addStateLabel i name).Carries j x ↔ b.Carries j x ∨ x = name ∧ j = i := by
  rw [Carries, addStateLabel, lookup_consItem_declare, Carries]
  by_cases hx : x = name
  · rw [if_pos hx, List.mem_cons, or_comm, and_iff_right hx]
  · rw [if_neg hx, or_iff_left fun h => hx h.1]

theorem foldl_addLabel_spec {ι : Type} (key : ι → String) (l : List ι) (b : Builder V) :
    (∀ x, x ∈ (l.foldl (fun b a => b.addLabel (key a)) b).labelNames ↔
      x ∈ b.labelNames ∨ x ∈ l.map key) ∧
        ∀ j x, (l.foldl (fun b a => b.addLabel (key a)) b).Carries j x ↔ b.Carries j x := by
  induction l generalizing b with
  | nil => simp
  | cons a l ih =>
    obtain ⟨hnames, hcarries⟩ := ih (b.addLabel (key a))
    refine ⟨fun x => ?_, fun j x => (hcarries j x).trans carries_addLabel⟩
    rw [List.foldl_cons, hnames, mem_labelNames_addLabel, List.map_cons, List.mem_cons]
    tauto

theorem foldl_addStateLabel_spec (l : List ℕ) (h : name ∈ b.labelNames) :
    (l.foldl (fun b i => b.addStateLabel i name) b).labelNames = b.labelNames ∧
      ∀ j x, (l.foldl (fun b i => b.addStateLabel i name) b).Carries j x ↔
        b.Carries j x ∨ x = name ∧ j ∈ l := by
  induction l generalizing b with
  | nil => simp
  | cons i l ih =>
    have hkept := labelNames_addStateLabel (i := i) h
    obtain ⟨hnames, hcarries⟩ := ih (hkept ▸ h)
    refine ⟨hnames.trans hkept, fun j x => ?_⟩
    rw [List.foldl_cons, hcarries, carries_addStateLabel, List.mem_cons]
    tauto

theorem foldl_addRewardModel_labels {ι : Type} (key : ι → String) (l : List ι) (b : Builder V) :
    (l.foldl (fun b a => b.addRewardModel (key a)) b).labels = b.labels := by
  induction l generalizing b with
  | nil => rfl
  | cons a l ih => exact ih _

variable [Value V]

/-- The labels of the finished model. -/
theorem states?_finish {m : Model V} {k : ModelKind} (h : b.finish k = .ok m) :
    (∀ name, (m.labeling.states? name).isSome = true ↔ name ∈ b.labelNames) ∧
      ∀ name T, m.labeling.states? name = some T → T.bits.size = b.numStates ∧
        ∀ i < b.numStates, T.contains i = true ↔ b.Carries i name := by
  have hstates : ∀ name, m.labeling.states? name =
      (b.labels.lookup name).map (StateSet.ofList b.numStates) := fun name => by
    unfold finish at h
    split at h
    · cases h
    · cases h
      exact lookup_map_snd _ name b.labels
  constructor
  · intro name
    rw [hstates, Option.isSome_map, lookup_isSome_iff, labelNames]
  · intro name T hT
    rw [hstates, Option.map_eq_some_iff] at hT
    obtain ⟨l, hl, rfl⟩ := hT
    refine ⟨StateSet.size_ofList _ _, fun i hi => ?_⟩
    rw [StateSet.contains_ofList_of_lt hi, Carries, hl, Option.getD_some]

end Labels

/-! ## Rewards -/

section Rewards

variable {V : Type} [Value V] {b b' : Builder V} {name x : String} {i j : ℕ} {f : V}

/-- The names of the reward models. -/
def rewardNames (b : Builder V) : List String := b.rewards.map (·.1)

/-- The reward of a state that has been set last under a name, zero if there is none. -/
def rewardOf (b : Builder V) (name : String) (i : ℕ) : V :=
  (((b.rewards.lookup name).getD []).lookup i).getD Value.zero

theorem rewardOf_addStateReward (b : Builder V) (name x : String) (i j : ℕ) (f : V) :
    (b.addStateReward name i f).rewardOf x j = if x = name ∧ j = i then f else b.rewardOf x j := by
  unfold rewardOf addStateReward
  dsimp only
  rw [lookup_consItem_declare]
  by_cases hx : x = name
  · rw [if_pos hx, lookup_cons_eq_ite]
    by_cases hj : j = i
    · rw [if_pos hj, if_pos ⟨hx, hj⟩, Option.getD_some]
    · rw [if_neg hj, if_neg fun h => hj h.2]
  · rw [if_neg hx, if_neg fun h => hx h.1]

omit [Value V] in
theorem rewardNames_addStateReward (h : name ∈ b.rewardNames) :
    (b.addStateReward name i f).rewardNames = b.rewardNames := by
  rw [rewardNames, addStateReward, names_consItem, names_declare h, rewardNames]

theorem getD_rewardVector {n : ℕ} (hi : i < n) (l : List (ℕ × V)) :
    (rewardVector n l)[i]?.getD Value.zero = (l.lookup i).getD Value.zero := by
  induction l with
  | nil =>
    rw [rewardVector, List.foldr_nil, Array.getElem?_replicate, if_pos hi]
    exact Option.getD_some
  | cons e l ih =>
    rw [rewardVector_cons, lookup_cons_eq_ite]
    by_cases h : i = e.1
    · have hlt : e.1 < (rewardVector n l).size := by rwa [size_rewardVector, ← h]
      rw [if_pos h, h, Array.getElem?_setIfInBounds_self_of_lt hlt, Option.getD_some]
    · rw [if_neg h, Array.getElem?_setIfInBounds_ne (Ne.symm h), ih]

/-- The reward models of the finished model. -/
theorem finish_rewards {m : Model V} {k : ModelKind} (h : b.finish k = .ok m) :
    m.rewards.map (·.name) = b.rewardNames ∧
      (b.rewardNames.Nodup → ∀ r ∈ m.rewards, ∀ i < b.numStates, r.value i = b.rewardOf r.name i) := by
  unfold finish at h
  split at h
  · cases h
  · cases h
    refine ⟨by rw [List.map_map]; rfl, fun hnames r hr i hi => ?_⟩
    obtain ⟨e, he, rfl⟩ := List.mem_map.1 hr
    rw [rewardOf, lookup_of_mem hnames he, Option.getD_some]
    exact getD_rewardVector hi e.2

end Rewards

end Builder
end MarkovCheck

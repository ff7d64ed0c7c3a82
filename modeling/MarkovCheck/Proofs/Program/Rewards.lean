import Mathlib
import MarkovCheck.Proofs.Chain.Entries
import MarkovCheck.Proofs.Program.Annotations

/-!
# MarkovCheck.Proofs.Program.Rewards

The rewards of a built model.

In every state the rewards of all structures are added one after the other, but only those that are not
zero. So when several structures have one name, the reward under that name is the last one that is not
zero, which need not be the one of the last structure.

* `rewardAt`, `rewardUnder` — the reward of a valuation in a structure, and under a name.
* `addAnnotations_rewards`  — the rewards that are added to numbered valuations.
* `rewards_spec`            — the rewards of a built model.
-/

namespace MarkovCheck

/-! ## Rewards of a program -/

section Program

open Builder

variable {V : Type} [Value V] {c : Context V} {s : List ℤ} {i : ℕ} {b b' : Builder V}
  {labels : List LabelDecl} {rewards : List RewardDecl}

/-- The reward of a valuation in a structure. -/
def Context.rewardAt (c : Context V) (s : List ℤ) (r : RewardDecl) : V :=
  match Program.rewardValues (c.env s) r.items with
  | .ok vs => Value.sumCanonical vs
  | .error _ => Value.zero

/-- Puts the reward in a structure in place of one under the same name, unless it is zero. -/
def Context.overwrite (c : Context V) (s : List ℤ) (name : String) (f : V) (r : RewardDecl) : V :=
  if r.name = name ∧ Value.isZero (c.rewardAt s r) = false then c.rewardAt s r else f

/-- The reward of a valuation under a name: the last one of a structure with that name that is not
zero. -/
def Context.rewardUnder (c : Context V) (s : List ℤ) (rewards : List RewardDecl) (name : String) : V :=
  rewards.foldl (c.overwrite s name) Value.zero

namespace Program

/-- One structure is added, or nothing is when its reward is zero. -/
theorem addReward_spec {r : RewardDecl} (hname : r.name ∈ b.rewardNames)
    (hb : b' = if Value.isZero (c.rewardAt s r) then b
      else b.addStateReward r.name i (c.rewardAt s r)) :
    b'.rewardNames = b.rewardNames ∧ ∀ name j, b'.rewardOf name j =
      if j = i then c.overwrite s name (b.rewardOf name j) r else b.rewardOf name j := by
  cases hz : Value.isZero (c.rewardAt s r) with
  | true =>
    rw [hz, if_pos rfl] at hb
    refine ⟨congrArg rewardNames hb, fun name j => ?_⟩
    have hskip : c.overwrite s name (b.rewardOf name j) r = b.rewardOf name j :=
      if_neg fun hset => Bool.false_ne_true (hset.2.symm.trans hz)
    rw [hb, hskip, ite_self]
  | false =>
    rw [hz, if_neg Bool.false_ne_true] at hb
    refine ⟨hb ▸ rewardNames_addStateReward hname, fun name j => ?_⟩
    rw [hb, rewardOf_addStateReward, Context.overwrite, hz]
    by_cases hj : j = i <;> by_cases hname : name = r.name <;>
      simp [hj, hname, eq_comm]

theorem addRewards_ok (hnames : ∀ r ∈ rewards, r.name ∈ b.rewardNames)
    (h : addRewards (c.env s) i b rewards = .ok b') :
    b'.rewardNames = b.rewardNames ∧
      (∀ r ∈ rewards, ∃ vs, rewardValues (c.env s) r.items = .ok vs) ∧
        ∀ name j, b'.rewardOf name j =
          if j = i then rewards.foldl (c.overwrite s name) (b.rewardOf name j)
          else b.rewardOf name j := by
  induction rewards generalizing b with
  | nil =>
    cases h
    exact ⟨rfl, fun r hr => absurd hr List.not_mem_nil, fun name j => (ite_self _).symm⟩
  | cons r rewards ih =>
    rw [List.forall_mem_cons] at hnames
    simp only [addRewards] at h
    split at h
    · cases h
    · rename_i vs hvs
      have hat : Value.sumCanonical vs = c.rewardAt s r := by rw [Context.rewardAt, hvs]
      rw [hat] at h
      obtain ⟨b₁, hb₁⟩ : ∃ b₁, b₁ = if Value.isZero (c.rewardAt s r) then b
          else b.addStateReward r.name i (c.rewardAt s r) := ⟨_, rfl⟩
      obtain ⟨hnames₁, hof₁⟩ := addReward_spec hnames.1 hb₁
      rw [← hb₁] at h
      obtain ⟨hnames', hok, hof⟩ := ih (fun r' hr' => hnames₁ ▸ hnames.2 r' hr') h
      refine ⟨hnames'.trans hnames₁, List.forall_mem_cons.2 ⟨⟨vs, hvs⟩, hok⟩, fun name j => ?_⟩
      rw [hof, hof₁, List.foldl_cons]
      split <;> rfl

theorem addRewards_labels {env : Env V} (h : addRewards env i b rewards = .ok b') :
    b'.labels = b.labels := by
  induction rewards generalizing b with
  | nil =>
    cases h
    rfl
  | cons r rewards ih =>
    simp only [addRewards] at h
    split at h
    · cases h
    · rw [ih h]
      split <;> rfl

omit [Value V] in
theorem addLabels_rewards {env : Env V} (h : addLabels env i b labels = .ok b') :
    b'.rewards = b.rewards := by
  induction labels generalizing b with
  | nil =>
    cases h
    rfl
  | cons l labels ih =>
    simp only [addLabels] at h
    split at h
    · cases h
    · rw [ih h]
      split <;> rfl

/-- Numbered valuations get the rewards under all names. -/
theorem addAnnotations_rewards {l : List (List ℤ × ℕ)}
    (hnames : ∀ r ∈ rewards, r.name ∈ b.rewardNames) (hl : (l.map (·.2)).Nodup)
    (h : addAnnotations c labels rewards b l = .ok b') :
    b'.rewardNames = b.rewardNames ∧
      (∀ e ∈ l, ∀ r ∈ rewards, ∃ vs, rewardValues (c.env e.1) r.items = .ok vs) ∧
        (∀ e ∈ l, ∀ name, b'.rewardOf name e.2 =
          rewards.foldl (c.overwrite e.1 name) (b.rewardOf name e.2)) ∧
          ∀ j, j ∉ l.map (·.2) → ∀ name, b'.rewardOf name j = b.rewardOf name j := by
  induction l generalizing b with
  | nil =>
    cases h
    exact ⟨rfl, fun e he => absurd he List.not_mem_nil, fun e he => absurd he List.not_mem_nil,
      fun _ _ _ => rfl⟩
  | cons e l ih =>
    rw [List.map_cons, List.nodup_cons] at hl
    simp only [addAnnotations] at h
    split at h
    · cases h
    · rename_i b₁ hb₁
      split at h
      · cases h
      · rename_i b₂ hb₂
        have hkept := addLabels_rewards hb₁
        have hkeptNames : b₁.rewardNames = b.rewardNames := by
          rw [rewardNames, hkept, rewardNames]
        have hkeptOf : ∀ name j, b₁.rewardOf name j = b.rewardOf name j := fun name j => by
          rw [rewardOf, hkept, rewardOf]
        obtain ⟨hnames₂, hok₂, hof₂⟩ := addRewards_ok (hkeptNames ▸ hnames) hb₂
        obtain ⟨hnames', hok, hof, hother⟩ :=
          ih (fun r hr => by rw [hnames₂, hkeptNames]; exact hnames r hr) hl.2 h
        refine ⟨hnames'.trans (hnames₂.trans hkeptNames), List.forall_mem_cons.2 ⟨hok₂, hok⟩,
          List.forall_mem_cons.2 ⟨fun name => ?_, fun d hd name => ?_⟩, fun j hj name => ?_⟩
        · -- The valuations that follow have other numbers.
          rw [hother e.2 hl.1, hof₂, if_pos rfl, hkeptOf]
        · have hne : d.2 ≠ e.2 := fun heq => hl.1 (heq ▸ List.mem_map_of_mem hd)
          rw [hof d hd, hof₂, if_neg hne, hkeptOf]
        · rw [List.map_cons, List.mem_cons, not_or] at hj
          rw [hother j hj.2, hof₂, if_neg hj.1, hkeptOf]

/-! ## Declared names -/

omit [Value V] in
theorem declareNames_rewards (x : Exploration V) (n : ℕ) (labels : List LabelDecl)
    (rewards : List RewardDecl) : (declareNames x n labels rewards).rewards =
      rewards.foldl (fun es r => declare r.name es) x.builder.rewards := by
  have hmodel : ∀ b : Builder V, (rewards.foldl (fun b r => b.addRewardModel r.name) b).rewards =
      rewards.foldl (fun es r => declare r.name es) b.rewards := fun b => by
    induction rewards generalizing b with
    | nil => rfl
    | cons r rewards ih => exact ih _
  have hlabel : ∀ b : Builder V, (labels.foldl (fun b l => b.addLabel l.name) b).rewards =
      b.rewards := fun b => by
    induction labels generalizing b with
    | nil => rfl
    | cons l labels ih => exact ih _
  have hstate : ∀ (name : String) (l : List ℕ) (b : Builder V),
      (l.foldl (fun b s => b.addStateLabel s name) b).rewards = b.rewards := fun name l b => by
    induction l generalizing b with
    | nil => rfl
    | cons s l ih => exact ih _
  unfold declareNames
  dsimp only
  rw [hmodel, hlabel, hstate]
  exact congrArg (rewards.foldl fun es r => declare r.name es)
    (hstate initLabel (List.range n) (x.builder.addLabel initLabel))

/-- A built model has one reward model for every name, with the rewards under it. -/
theorem rewards_spec {x : Exploration V} {n : ℕ} {m : Model V} {k : ModelKind}
    (hbare : x.builder.rewards = [])
    (h : addAnnotations c labels rewards (declareNames x n labels rewards) x.states.toList.zipIdx =
      .ok b) (hsize : b.numStates = x.states.size) (hm : b.finish k = .ok m) :
    m.rewards.map (·.name) = (rewards.foldl (fun es r => declare r.name es)
        ([] : List (String × List (ℕ × V)))).map (·.1) ∧
      (∀ s ∈ x.states.toList, ∀ r ∈ rewards, ∃ vs, rewardValues (c.env s) r.items = .ok vs) ∧
        ∀ r ∈ m.rewards, ∀ i s, x.states[i]? = some s → r.value i = c.rewardUnder s rewards r.name := by
  have hrewards := declareNames_rewards x n labels rewards
  rw [hbare] at hrewards
  obtain ⟨hnodup, hmem⟩ := names_foldl_declare (fun r : RewardDecl => r.name) rewards
    (show (([] : List (String × List (ℕ × V))).map (·.1)).Nodup from List.nodup_nil)
  rw [← hrewards] at hnodup hmem
  have hindices : (x.states.toList.zipIdx.map (·.2)).Nodup := by
    rw [List.zipIdx_map_snd]
    exact List.nodup_range'
  obtain ⟨hnames, hok, hof, -⟩ := addAnnotations_rewards
    (fun r hr => hmem _ (.inr (List.mem_map_of_mem hr))) hindices h
  obtain ⟨hmodels, hvalue⟩ := finish_rewards hm
  rw [hnames] at hmodels hvalue
  refine ⟨by rw [hmodels, rewardNames, hrewards], fun s hs => ?_, fun r hr i s hi => ?_⟩
  · obtain ⟨i, hi⟩ := List.mem_iff_getElem?.1 hs
    exact hok (s, i) (List.mk_mem_zipIdx_iff_getElem?.2 hi)
  · have hi' : x.states.toList[i]? = some s := by rwa [Array.getElem?_toList]
    have hlt : i < b.numStates := by
      rw [hsize]
      exact (Array.getElem?_eq_some_iff.1 hi).1
    have hzero : (declareNames x n labels rewards).rewardOf r.name i = Value.zero := by
      rw [rewardOf, hrewards, lookup_foldl_declare]
      rfl
    rw [hvalue hnodup r hr i hlt, hof (s, i) (List.mk_mem_zipIdx_iff_getElem?.2 hi'), hzero,
      Context.rewardUnder]

end Program

/-- When no other structure has its name, the reward under the name of a structure is the reward in
it. -/
theorem Context.rewardUnder_eq {r : RewardDecl} (hr : r ∈ rewards)
    (hnames : ∀ r' ∈ rewards, r'.name = r.name → r' = r) :
    c.rewardUnder s rewards r.name =
      if Value.isZero (c.rewardAt s r) then Value.zero else c.rewardAt s r := by
  have hfold : ∀ (l : List RewardDecl), (∀ r' ∈ l, r'.name = r.name → r' = r) → ∀ f,
      l.foldl (c.overwrite s r.name) f =
        if r ∈ l ∧ Value.isZero (c.rewardAt s r) = false then c.rewardAt s r else f := by
    intro l
    induction l with
    | nil => exact fun _ f => (if_neg fun h => List.not_mem_nil h.1).symm
    | cons r' l ih =>
      intro hl f
      rw [List.forall_mem_cons] at hl
      rw [List.foldl_cons, ih hl.2, overwrite]
      by_cases hname : r'.name = r.name
      · obtain rfl := hl.1 hname
        cases Value.isZero (c.rewardAt s r') <;> simp
      · have hne : r ≠ r' := fun heq => hname (heq ▸ rfl)
        simp [hname, hne]
  rw [rewardUnder, hfold rewards hnames]
  cases Value.isZero (c.rewardAt s r) <;> simp [hr]

/-- Nothing is under a name that no structure has. -/
theorem Context.rewardUnder_of_notMem {name : String} (hnames : ∀ r ∈ rewards, r.name ≠ name) :
    c.rewardUnder s rewards name = Value.zero := by
  unfold rewardUnder
  induction rewards with
  | nil => rfl
  | cons r rewards ih =>
    rw [List.forall_mem_cons] at hnames
    rw [List.foldl_cons, overwrite, if_neg fun h => hnames.1 h.1]
    exact ih hnames.2

end Program
end MarkovCheck

import Mathlib
import MarkovCheck.Program.Build

/-!
# MarkovCheck.Proofs.Program.Annotations

Labels and rewards change neither states nor transitions, and the search adds none.

They are added to states that exist, so the number of states stays, and everything else that makes the
transitions of a model is not touched.

* `SameChain` — two builders have the same states and transitions.
* `sameChain_declareNames`, `sameChain_addAnnotations` — adding labels and rewards.
* `addAnnotations_isOk` — when they can be added.
* `explore_isBare`    — a search without labels and rewards.
-/

namespace MarkovCheck

namespace Builder

variable {V : Type} {b b₁ b₂ : Builder V}

/-! ## Labels and rewards -/

/-- The states and transitions of two builders are the same. -/
structure SameChain (b b' : Builder V) : Prop where
  transitions : b'.transitions = b.transitions
  initial : b'.initial = b.initial
  numStates : b'.numStates = b.numStates

theorem SameChain.refl (b : Builder V) : SameChain b b := ⟨rfl, rfl, rfl⟩

theorem SameChain.trans (h : SameChain b b₁) (h' : SameChain b₁ b₂) : SameChain b b₂ :=
  ⟨h'.transitions.trans h.transitions, h'.initial.trans h.initial, h'.numStates.trans h.numStates⟩

theorem SameChain.addLabel (h : SameChain b b₁) (name : String) : SameChain b (b₁.addLabel name) :=
  h.trans ⟨rfl, rfl, rfl⟩

theorem SameChain.addRewardModel (h : SameChain b b₁) (name : String) :
    SameChain b (b₁.addRewardModel name) := h.trans ⟨rfl, rfl, rfl⟩

/-- Nothing new becomes a state when a label is added to a state. -/
theorem SameChain.addStateLabel (h : SameChain b b₁) {s : ℕ} (hs : s < b.numStates)
    (name : String) : SameChain b (b₁.addStateLabel s name) :=
  h.trans ⟨rfl, rfl, max_eq_left (hs.trans_eq h.numStates.symm)⟩

theorem SameChain.addStateReward (h : SameChain b b₁) {s : ℕ} (hs : s < b.numStates)
    (name : String) (v : V) : SameChain b (b₁.addStateReward name s v) :=
  h.trans ⟨rfl, rfl, max_eq_left (hs.trans_eq h.numStates.symm)⟩

theorem SameChain.foldl {α : Type} (h : SameChain b b₁) {f : Builder V → α → Builder V} (l : List α)
    (hf : ∀ a ∈ l, ∀ {b'}, SameChain b b' → SameChain b (f b' a)) : SameChain b (l.foldl f b₁) := by
  induction l generalizing b₁ with
  | nil => exact h
  | cons a l ih =>
    rw [List.forall_mem_cons] at hf
    exact ih (hf.1 h) hf.2

end Builder

namespace Program

open Builder (SameChain)

section Annotations

variable {V : Type} {b b' : Builder V} {s : ℕ} {c : Context V}

theorem sameChain_addLabels {env : Env V} {labels : List LabelDecl} (hs : s < b.numStates)
    (h : addLabels env s b labels = .ok b') : SameChain b b' := by
  induction labels generalizing b with
  | nil =>
    cases h
    exact .refl _
  | cons l labels ih =>
    simp only [addLabels] at h
    split at h
    · cases h
    · rename_i holds _
      have hstep : SameChain b (if holds then b.addStateLabel s l.name else b) := by
        split
        · exact (SameChain.refl b).addStateLabel hs l.name
        · exact .refl b
      exact hstep.trans (ih (hs.trans_eq hstep.numStates.symm) h)

variable [Value V]

theorem sameChain_addRewards {env : Env V} {rewards : List RewardDecl} (hs : s < b.numStates)
    (h : addRewards env s b rewards = .ok b') : SameChain b b' := by
  induction rewards generalizing b with
  | nil =>
    cases h
    exact .refl _
  | cons r rewards ih =>
    simp only [addRewards] at h
    split at h
    · cases h
    · rename_i vs _
      have hstep : SameChain b (if Value.isZero (Value.sumCanonical vs) then b
          else b.addStateReward r.name s (Value.sumCanonical vs)) := by
        split
        · exact .refl b
        · exact (SameChain.refl b).addStateReward hs r.name _
      exact hstep.trans (ih (hs.trans_eq hstep.numStates.symm) h)

theorem sameChain_addAnnotations {labels : List LabelDecl} {rewards : List RewardDecl}
    {states : List (List ℤ × ℕ)} (hs : ∀ e ∈ states, e.2 < b.numStates)
    (h : addAnnotations c labels rewards b states = .ok b') : SameChain b b' := by
  induction states generalizing b with
  | nil =>
    cases h
    exact .refl _
  | cons e states ih =>
    rw [List.forall_mem_cons] at hs
    simp only [addAnnotations] at h
    split at h
    · cases h
    · rename_i b₁ hb₁
      split at h
      · cases h
      · rename_i b₂ hb₂
        have hlabels := sameChain_addLabels hs.1 hb₁
        have hrewards := sameChain_addRewards (hs.1.trans_eq hlabels.numStates.symm) hb₂
        have hboth := hlabels.trans hrewards
        exact hboth.trans (ih (fun e he => (hs.2 e he).trans_eq hboth.numStates.symm) h)

/-- Labels and rewards are added when they have values. -/
theorem addAnnotations_isOk {labels : List LabelDecl} {rewards : List RewardDecl}
    {states : List (List ℤ × ℕ)} (b : Builder V)
    (hlabels : ∀ e ∈ states, ∀ l ∈ labels, ∃ holds, l.expression.evalBool (c.env e.1) = .ok holds)
    (hrewards : ∀ e ∈ states, ∀ r ∈ rewards, ∃ vs, rewardValues (c.env e.1) r.items = .ok vs) :
    ∃ b', addAnnotations c labels rewards b states = .ok b' := by
  have hlabel : ∀ {env : Env V} {labels : List LabelDecl} (s : ℕ) (b : Builder V),
      (∀ l ∈ labels, ∃ holds, l.expression.evalBool env = .ok holds) →
        ∃ b', addLabels env s b labels = .ok b' := by
    intro env labels s b h
    induction labels generalizing b with
    | nil => exact ⟨b, rfl⟩
    | cons l labels ih =>
      rw [List.forall_mem_cons] at h
      obtain ⟨holds, hholds⟩ := h.1
      simp only [addLabels, hholds]
      exact ih _ h.2
  have hreward : ∀ {env : Env V} {rewards : List RewardDecl} (s : ℕ) (b : Builder V),
      (∀ r ∈ rewards, ∃ vs, rewardValues env r.items = .ok vs) →
        ∃ b', addRewards env s b rewards = .ok b' := by
    intro env rewards s b h
    induction rewards generalizing b with
    | nil => exact ⟨b, rfl⟩
    | cons r rewards ih =>
      rw [List.forall_mem_cons] at h
      obtain ⟨vs, hvs⟩ := h.1
      simp only [addRewards, hvs]
      exact ih _ h.2
  induction states generalizing b with
  | nil => exact ⟨b, rfl⟩
  | cons e states ih =>
    rw [List.forall_mem_cons] at hlabels hrewards
    obtain ⟨b₁, hb₁⟩ := hlabel e.2 b hlabels.1
    obtain ⟨b₂, hb₂⟩ := hreward e.2 b₁ hrewards.1
    simp only [addAnnotations, hb₁, hb₂]
    exact ih b₂ hlabels.2 hrewards.2

omit [Value V] in
theorem sameChain_declareNames {x : Exploration V} {numInitial : ℕ}
    (hinitial : numInitial ≤ x.builder.numStates)
    (hdeadlocks : ∀ s ∈ x.deadlocks, s < x.builder.numStates) (labels : List LabelDecl)
    (rewards : List RewardDecl) : SameChain x.builder (declareNames x numInitial labels rewards) := by
  have hinit := ((SameChain.refl x.builder).addLabel initLabel).foldl (List.range numInitial)
    fun s hs _ h => h.addStateLabel ((List.mem_range.1 hs).trans_le hinitial) initLabel
  have hdead := (hinit.addLabel deadlockLabel).foldl x.deadlocks.toList
    fun s hs _ h => h.addStateLabel (hdeadlocks s (Array.mem_toList_iff.1 hs)) deadlockLabel
  exact (hdead.foldl labels fun l _ _ h => h.addLabel l.name).foldl rewards
    fun r _ _ h => h.addRewardModel r.name

end Annotations

end Program

/-! ## Searches -/

namespace Exploration

variable {V : Type} {x y : Exploration V}

/-- Neither labels nor rewards have been added. -/
structure IsBare (x : Exploration V) : Prop where
  labels : x.builder.labels = []
  rewards : x.builder.rewards = []

theorem IsBare.discover (h : x.IsBare) (t : List ℤ) : (x.discover t).2.IsBare := by
  unfold Exploration.discover
  split <;> exact ⟨h.labels, h.rewards⟩

theorem IsBare.addInitial (h : x.IsBare) (t : List ℤ) : (x.addInitial t).IsBare :=
  ⟨(h.discover t).labels, (h.discover t).rewards⟩

theorem IsBare.foldl {α : Type} (h : x.IsBare) {f : Exploration V → α → Exploration V}
    (hf : ∀ {x} a, x.IsBare → (f x a).IsBare) (l : List α) : (l.foldl f x).IsBare := by
  induction l generalizing x with
  | nil => exact h
  | cons a l ih => exact ih (hf a h)

variable [Value V] {c : Context V} {dynamics : Dynamics} {fix : Bool} {s fuel : ℕ}

theorem IsBare.addTransitions (h : x.IsBare) (s : ℕ) (scale : Option V) (d : Distribution V) :
    (Exploration.addTransitions s scale x d).IsBare :=
  h.foldl (fun e hx => ⟨(hx.discover e.1).labels, (hx.discover e.1).rewards⟩) d

theorem IsBare.expand (h : x.IsBare) {state : List ℤ} (hy : x.expand c dynamics fix s state = .ok y) :
    y.IsBare := by
  unfold Exploration.expand at hy
  split at hy
  · cases hy
  · split at hy
    · cases hy
      exact ⟨h.labels, h.rewards⟩
    · cases hy
  · cases hy
    exact h.foldl (fun d hx => hx.addTransitions s _ d) _

theorem IsBare.run (h : x.IsBare) (hy : Exploration.run c dynamics fix fuel s x = .ok y) : y.IsBare := by
  induction fuel generalizing s x with
  | zero =>
    cases hy
    exact h
  | succ fuel ih =>
    simp only [Exploration.run] at hy
    split at hy
    · cases hy
      exact h
    · split at hy
      · cases hy
      · rename_i z hz
        exact ih (h.expand hz) hy

end Exploration

/-- The search adds neither labels nor rewards. -/
theorem Program.explore_isBare {V : Type} [Value V] {p : Program} {o : BuildOptions} {c : Context V}
    {initial : List (List ℤ)} {x : Exploration V} (h : p.explore o c initial = .ok x) : x.IsBare :=
  (Exploration.IsBare.foldl ⟨rfl, rfl⟩ (fun t hx => hx.addInitial t) initial).run h

end MarkovCheck

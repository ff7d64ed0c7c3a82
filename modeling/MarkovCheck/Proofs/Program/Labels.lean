import Mathlib
import MarkovCheck.Proofs.Chain.Entries
import MarkovCheck.Proofs.Program.Build
import MarkovCheck.Proofs.Program.Rewards

/-!
# MarkovCheck.Proofs.Program.Labels

The labels of a built model.

A built model knows the two reserved labels and the selected ones. A selected label names the states
whose valuations satisfy its expression, or one of the expressions when several labels have its name.

* `addAnnotations_carries` — the labels that numbered valuations are given.
* `IsBuild.labels_spec`    — the labels of a built model.
* `IsBuild.states?_label`  — the states of a label.
-/

namespace MarkovCheck

namespace Program

open Builder

variable {V : Type} [Value V] {c : Context V} {s : List ℤ} {i n : ℕ} {b b' : Builder V}
  {x : Exploration V} {labels : List LabelDecl} {rewards : List RewardDecl}

/-! ## Numbered valuations -/

omit [Value V] in
/-- A state is given the labels whose expressions hold. -/
theorem addLabels_ok (hnames : ∀ l ∈ labels, l.name ∈ b.labelNames)
    (h : addLabels (c.env s) i b labels = .ok b') :
    b'.labelNames = b.labelNames ∧
      (∀ l ∈ labels, ∃ q, l.expression.evalBool (c.env s) = .ok q) ∧
        ∀ j name, b'.Carries j name ↔ b.Carries j name ∨
          j = i ∧ ∃ l ∈ labels, l.name = name ∧ c.holds s l.expression = true := by
  induction labels generalizing b with
  | nil =>
    cases h
    simp
  | cons l labels ih =>
    rw [List.forall_mem_cons] at hnames
    simp only [addLabels] at h
    split at h
    · cases h
    · rename_i holds hholds
      have hat : c.holds s l.expression = holds := by rw [Context.holds, hholds]
      -- What the first label does, whether it holds or not.
      obtain ⟨b₁, hb₁⟩ : ∃ b₁, b₁ = if holds then b.addStateLabel i l.name else b := ⟨_, rfl⟩
      have hnames₁ : b₁.labelNames = b.labelNames := by
        rw [hb₁]
        split
        · exact labelNames_addStateLabel hnames.1
        · rfl
      have hcarries₁ : ∀ j name, b₁.Carries j name ↔
          b.Carries j name ∨ j = i ∧ l.name = name ∧ c.holds s l.expression = true := fun j name => by
        rw [hb₁, hat]
        split
        · rename_i htrue
          rw [carries_addStateLabel, and_comm, and_iff_left htrue, eq_comm (a := name)]
        · rename_i hfalse
          rw [or_iff_left fun h => hfalse h.2.2]
      rw [← hb₁] at h
      obtain ⟨hnames', hok, hcarries⟩ := ih (fun l hl => hnames₁ ▸ hnames.2 l hl) h
      refine ⟨hnames'.trans hnames₁, List.forall_mem_cons.2 ⟨⟨holds, hholds⟩, hok⟩, fun j name => ?_⟩
      rw [hcarries, hcarries₁, List.exists_mem_cons_iff, and_or_left, or_assoc]

/-- Numbered valuations are given the labels whose expressions hold there. -/
theorem addAnnotations_carries {l : List (List ℤ × ℕ)} (hnames : ∀ d ∈ labels, d.name ∈ b.labelNames)
    (h : addAnnotations c labels rewards b l = .ok b') :
    b'.labelNames = b.labelNames ∧
      (∀ e ∈ l, ∀ d ∈ labels, ∃ q, d.expression.evalBool (c.env e.1) = .ok q) ∧
        ∀ j name, b'.Carries j name ↔ b.Carries j name ∨
          ∃ e ∈ l, j = e.2 ∧ ∃ d ∈ labels, d.name = name ∧ c.holds e.1 d.expression = true := by
  induction l generalizing b with
  | nil =>
    cases h
    simp
  | cons e l ih =>
    simp only [addAnnotations] at h
    split at h
    · cases h
    · rename_i b₁ hb₁
      split at h
      · cases h
      · rename_i b₂ hb₂
        obtain ⟨hnames₁, hok₁, hcarries₁⟩ := addLabels_ok hnames hb₁
        have hkept := addRewards_labels hb₂
        have hnames₂ : b₂.labelNames = b.labelNames := by rw [labelNames, hkept, ← hnames₁, labelNames]
        have hcarries₂ : ∀ j name, b₂.Carries j name ↔ b₁.Carries j name := fun j name => by
          rw [Carries, hkept, Carries]
        obtain ⟨hnames', hok, hcarries⟩ := ih (fun d hd => hnames₂ ▸ hnames d hd) h
        refine ⟨hnames'.trans hnames₂, List.forall_mem_cons.2 ⟨hok₁, hok⟩, fun j name => ?_⟩
        rw [hcarries, hcarries₂, hcarries₁, List.exists_mem_cons_iff, or_assoc]

/-! ## Built models -/

omit [Value V] in
/-- The reserved labels are there with the initial states and the deadlocks, the others without a
state. -/
theorem declareNames_carries (hbare : x.builder.labels = []) (n : ℕ) (labels : List LabelDecl)
    (rewards : List RewardDecl) :
    (∀ name, name ∈ (declareNames x n labels rewards).labelNames ↔
      name = initLabel ∨ name = deadlockLabel ∨ name ∈ labels.map (·.name)) ∧
        ∀ j name, (declareNames x n labels rewards).Carries j name ↔
          name = initLabel ∧ j < n ∨ name = deadlockLabel ∧ j ∈ x.deadlocks.toList := by
  unfold declareNames
  dsimp only
  -- One builder after the other, from the bare one on.
  have hinitName : initLabel ∈ (x.builder.addLabel initLabel).labelNames :=
    mem_labelNames_addLabel.2 (.inl rfl)
  have hinit := foldl_addStateLabel_spec (List.range n) hinitName
  set b₁ := (List.range n).foldl (fun b s => b.addStateLabel s initLabel) (x.builder.addLabel initLabel)
  have hdeadName : deadlockLabel ∈ (b₁.addLabel deadlockLabel).labelNames :=
    mem_labelNames_addLabel.2 (.inl rfl)
  have hdead := foldl_addStateLabel_spec x.deadlocks.toList hdeadName
  set b₂ := x.deadlocks.toList.foldl (fun b s => b.addStateLabel s deadlockLabel)
    (b₁.addLabel deadlockLabel)
  have hdeclared := foldl_addLabel_spec (fun l : LabelDecl => l.name) labels b₂
  set b₃ := labels.foldl (fun b l => b.addLabel l.name) b₂
  have hkept := foldl_addRewardModel_labels (fun r : RewardDecl => r.name) rewards b₃
  have hnone : ∀ name, name ∉ x.builder.labelNames := fun name => by simp [labelNames, hbare]
  have hcarriesNone : ∀ j name, ¬ x.builder.Carries j name := fun j name => by simp [Carries, hbare]
  constructor
  · intro name
    rw [labelNames, hkept, ← labelNames, hdeclared.1, hdead.1, mem_labelNames_addLabel, hinit.1,
      mem_labelNames_addLabel, or_iff_left (hnone name)]
    tauto
  · intro j name
    rw [Carries, hkept, ← Carries, hdeclared.2, hdead.2, carries_addLabel, hinit.2, carries_addLabel,
      or_iff_right (hcarriesNone j name), List.mem_range]

/-- The expressions of the selected labels have values at all valuations. The model knows these labels
and the reserved ones, and they name the states that they should. -/
theorem IsBuild.labels_spec {p : Program} {o : BuildOptions} {c : Context RationalFunction}
    {initial : List (List ℤ)} {x : Exploration RationalFunction} {b : Builder RationalFunction}
    {m : Model RationalFunction} (h : p.IsBuild o c initial x labels rewards b m) :
    (∀ s ∈ x.found, ∀ l ∈ labels, ∃ q, l.expression.evalBool (c.env s) = .ok q) ∧
      (∀ name, (m.labeling.states? name).isSome = true ↔
        name = initLabel ∨ name = deadlockLabel ∨ name ∈ labels.map (·.name)) ∧
          ∀ name T, m.labeling.states? name = some T → ∀ i s, x.found[i]? = some s →
            (T.contains i = true ↔
              (name = initLabel ∧ i < initial.length ∨
                name = deadlockLabel ∧ i ∈ x.deadlocks.toList) ∨
                  ∃ l ∈ labels, l.name = name ∧ c.holds s l.expression = true) := by
  obtain ⟨hdeclared, hreserved⟩ :=
    declareNames_carries (explore_isBare h.explore).labels initial.length labels rewards
  obtain ⟨hnames, hok, hcarries⟩ := addAnnotations_carries
    (fun l hl => (hdeclared l.name).2 (.inr (.inr (List.mem_map_of_mem hl)))) h.annotations
  obtain ⟨hknown, hstates⟩ := states?_finish h.finish
  refine ⟨fun s hs => ?_, fun name => ?_, fun name T hT i s hi => ?_⟩
  · obtain ⟨i, hi⟩ := List.mem_iff_getElem?.1 hs
    exact hok (s, i) (List.mk_mem_zipIdx_iff_getElem?.2 hi)
  · rw [hknown, hnames, hdeclared]
  · have hlt : i < b.numStates := h.numStates ▸ (List.getElem?_eq_some_iff.1 hi).1
    rw [(hstates name T hT).2 i hlt, hcarries, hreserved]
    refine or_congr_right ⟨?_, fun hl => ⟨(s, i), List.mk_mem_zipIdx_iff_getElem?.2 hi, rfl, hl⟩⟩
    rintro ⟨e, he, rfl, hl⟩
    obtain rfl : e.1 = s := Option.some_inj.1 ((List.mem_zipIdx_iff_getElem?.1 he).symm.trans hi)
    exact hl

/-- The selected labels are labels of the program, and none of them is reserved. -/
theorem selectLabels_ok {p : Program} {o : BuildOptions} (h : p.selectLabels o = .ok labels) :
    ∀ l ∈ labels, l ∈ p.labels ∧ isReserved l.name = false := by
  unfold selectLabels at h
  split at h
  · cases h
  · rename_i hnone
    have hreserved : ∀ l ∈ p.labels, isReserved l.name = false := fun l hl =>
      Bool.eq_false_iff.2 (List.find?_eq_none.1 hnone l hl)
    split at h
    · cases h
      exact fun l hl => ⟨hl, hreserved l hl⟩
    · intro l hl
      obtain ⟨name, hname⟩ := selectAll_find h l hl
      have hmem := List.mem_of_find?_eq_some hname
      exact ⟨hmem, hreserved l hmem⟩

/-- A label names the states whose valuations satisfy its expression if no other one has its name. -/
theorem IsBuild.states?_label {p : Program} {o : BuildOptions} {c : Context RationalFunction}
    {initial : List (List ℤ)} {x : Exploration RationalFunction} {b : Builder RationalFunction}
    {m : Model RationalFunction} (h : p.IsBuild o c initial x labels rewards b m) {l : LabelDecl}
    (hl : l ∈ labels) (hunique : ∀ l' ∈ labels, l'.name = l.name → l' = l) :
    ∃ T, m.labeling.states? l.name = some T ∧
      ∀ i s, x.found[i]? = some s → T.contains i = c.holds s l.expression := by
  obtain ⟨-, hknown, hstates⟩ := h.labels_spec
  obtain ⟨T, hT⟩ := Option.isSome_iff_exists.1
    ((hknown l.name).2 (.inr (.inr (List.mem_map_of_mem hl))))
  refine ⟨T, hT, fun i s hi => ?_⟩
  have hfree := (selectLabels_ok h.selectLabels l hl).2
  rw [isReserved, Bool.or_eq_false_iff, beq_eq_false_iff_ne, beq_eq_false_iff_ne] at hfree
  rw [Bool.eq_iff_iff, hstates l.name T hT i s hi]
  constructor
  · rintro ((⟨hinit, -⟩ | ⟨hdead, -⟩) | ⟨l', hl', hname, hholds⟩)
    · exact (hfree.1 hinit).elim
    · exact (hfree.2 hdead).elim
    · rwa [hunique l' hl' hname] at hholds
  · exact fun hholds => .inr ⟨l, hl, rfl, hholds⟩

end Program
end MarkovCheck

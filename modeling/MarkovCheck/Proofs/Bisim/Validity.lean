import Mathlib
import MarkovCheck.Bisim.Validity
import MarkovCheck.Proofs.Bisim.Consistent

/-!
# MarkovCheck.Proofs.Bisim.Validity

What the test for the result of a refinement decides.

The test looks at the partition alone: the states of a block agree on the initial block and on the
masses of all blocks, and no two blocks do. So it accepts exactly the partitions that one more step of
the refinement does not change. The coarsest bisimulation is one of them, but not the only one. When
the choice of the blocks of some states is based on itself, as on a cycle, the test accepts finer
partitions too. Where it is not, the accepted partition is the coarsest bisimulation.

* `collectProfiles_spec` — the table of the first profiles, and when it exists.
* `isValidRefinement_iff` — the test accepts the fixed points of a refinement step.
* `PairsDescend` — no choice of blocks is based on itself.
* `isValidRefinement_exact` — how far the test decides whether a partition is the coarsest one.
-/

namespace MarkovCheck
namespace Bisim

variable {m : Model RationalFunction} {p p₀ : Partition}

/-! ## The table of profiles -/

/-- Two profiles agree on what the states of a block have in common. -/
def Profile.Matches (q r : Profile) : Prop := q.initial = r.initial ∧ q.signature = r.signature

/-- The profile recorded for a block in the end: the one in the table, or the first one of the list. -/
def recorded (table : Array (Option Profile)) (l : List Profile) (b : ℕ) : Option Profile :=
  table[b]?.join.or (l.find? fun q => q.block = b)

theorem recorded_cons_of_some {table : Array (Option Profile)} {q r : Profile} {l : List Profile}
    (h : table[q.block]?.join = some r) (b : ℕ) : recorded table (q :: l) b = recorded table l b := by
  unfold recorded
  by_cases hb : q.block = b
  · subst hb
    simp [h]
  · simp [hb]

theorem recorded_cons_of_none {table : Array (Option Profile)} {q : Profile} {l : List Profile}
    (h : table[q.block]?.join = none) (hq : q.block < table.size) (b : ℕ) :
    recorded table (q :: l) b = recorded (table.setIfInBounds q.block (some q)) l b := by
  unfold recorded
  by_cases hb : q.block = b
  · subst hb
    rw [h, Option.none_or, Array.getElem?_setIfInBounds_self_of_lt hq]
    simp
  · simp [hb]

/-- The table is filled exactly when every profile matches the one recorded for its block. -/
theorem collectProfiles_spec {table : Array (Option Profile)} {l : List Profile}
    (hl : ∀ q ∈ l, q.block < table.size) :
    ((collectProfiles table l).isSome ↔
      ∀ q ∈ l, ∀ r, recorded table l q.block = some r → q.Matches r) ∧
    ∀ full, collectProfiles table l = some full →
      full.size = table.size ∧ ∀ b, full[b]?.join = recorded table l b := by
  induction l generalizing table with
  | nil =>
    constructor
    · simp [collectProfiles]
    · rintro full hfull
      cases hfull
      exact ⟨rfl, fun b => (Option.or_none).symm⟩
  | cons q l ih =>
    rw [List.forall_mem_cons] at hl
    obtain ⟨hq, hl⟩ := hl
    simp only [collectProfiles, List.forall_mem_cons]
    cases hcase : table[q.block]?.join with
    | none =>
      have hrec := recorded_cons_of_none (l := l) hcase hq
      have hl' : ∀ r ∈ l, r.block < (table.setIfInBounds q.block (some q)).size := by simpa using hl
      obtain ⟨hsome, hfull⟩ := ih hl'
      simp only [hrec]
      refine ⟨?_, by simpa using hfull⟩
      rw [hsome, iff_and_self]
      intro _ r hr
      have hself : recorded (table.setIfInBounds q.block (some q)) l q.block = some q := by
        simp [recorded, hq]
      cases hself.symm.trans hr
      exact ⟨rfl, rfl⟩
    | some r =>
      have hrec := recorded_cons_of_some (l := l) hcase
      have hself : recorded table l q.block = some r := by simp [recorded, hcase]
      obtain ⟨hsome, hfull⟩ := ih hl
      simp only [hrec, hself, Option.some.injEq, forall_eq']
      by_cases hm : q.initial = r.initial ∧ q.signature = r.signature
      · rw [if_pos hm]
        exact ⟨hsome.trans (and_iff_right hm).symm, hfull⟩
      · rw [if_neg hm]
        refine ⟨iff_of_false Bool.false_ne_true fun h => hm h.1, ?_⟩
        intro full hfull
        cases hfull

theorem allDistinct_iff {l : List Profile} :
    allDistinct l = true ↔ l.Pairwise fun q r => ¬ q.Matches r := by
  induction l with
  | nil => simp [allDistinct]
  | cons q l ih => simp [allDistinct, ih, Profile.Matches]

theorem allDistinct_map_range {n : ℕ} {f : ℕ → Profile} :
    allDistinct ((List.range n).map f) = true ↔
      ∀ b < n, ∀ c < n, (f b).Matches (f c) → b = c := by
  rw [allDistinct_iff, List.pairwise_map, List.pairwise_iff_getElem]
  simp only [List.length_range, List.getElem_range]
  constructor
  · intro h b hb c hc hbc
    by_contra hne
    rcases Nat.lt_or_gt_of_ne hne with hlt | hlt
    · exact h b c hb hc hlt hbc
    · exact h c b hc hb hlt ⟨hbc.1.symm, hbc.2.symm⟩
  · intro h b c hb hc hlt hbc
    have := h b hb c hc hbc
    omega

theorem mapM_id_map_some {α : Type} (l : List α) : (l.map some).mapM id = some l := by
  induction l with
  | nil => rfl
  | cons a l ih => simp [ih]

/-! ## Fixed points of a refinement step -/

/-- The profile of a state by the indices that a cache gives to the totals. -/
def profileOf (m : Model RationalFunction) (p₀ p : Partition) (d : ValueCache RationalFunction)
    (s : ℕ) : Profile := ⟨p.block s, p₀.block s, encode d (blockSums m p s)⟩

/-- Profiles match when the states share their initial block and have equal masses on all blocks. -/
theorem profiles_spec (hc : m.IsCanonical) (p₀ p : Partition) :
    ∃ d, profiles m p₀ p .empty = (List.range m.numStates).map (profileOf m p₀ p d) ∧
      ∀ s < m.numStates, ∀ t < m.numStates, (profileOf m p₀ p d s).Matches (profileOf m p₀ p d t) ↔
        p₀.block s = p₀.block t ∧ m.SameMasses p.block s t := by
  obtain ⟨-, hknows, hsigs⟩ := signatures_spec m p .empty (List.range m.numStates)
  refine ⟨(signatures m p .empty (List.range m.numStates)).2, ?_, ?_⟩
  · simp only [profiles, hsigs, List.zip, List.zipWith_map_right, List.zipWith_self, List.map_map]
    rfl
  · intro s hs t ht
    rw [Profile.Matches, profileOf, profileOf, encode_inj (hknows s (List.mem_range.2 hs))
      (hknows t (List.mem_range.2 ht)), blockSums_eq_iff hc]

/-- The profile recorded for a block is that of one of its states. -/
theorem exists_recorded (hp : p.IsDense m.numStates) (p₀ : Partition) (d : ValueCache RationalFunction)
    {b : ℕ} (hb : b < p.numBlocks) : ∃ s < m.numStates, p.block s = b ∧
      recorded (Array.replicate p.numBlocks none)
        ((List.range m.numStates).map (profileOf m p₀ p d)) b = some (profileOf m p₀ p d s) := by
  have hnone : (Array.replicate p.numBlocks (none : Option Profile))[b]?.join = none := by
    simp [hb]
  rw [recorded, hnone, Option.none_or, List.find?_map]
  cases hfind : (List.range m.numStates).find? fun s => p.block s = b with
  | none =>
    obtain ⟨s, hs, hsb⟩ := hp.surj b hb
    have := List.find?_eq_none.1 hfind s (List.mem_range.2 hs)
    simp [hsb] at this
  | some s =>
    refine ⟨s, List.mem_range.1 (List.mem_of_find?_eq_some hfind), ?_, ?_⟩
    · simpa using List.find?_some hfind
    · exact congrArg (Option.map (profileOf m p₀ p d)) hfind

/-- The test compares the states with one state of their block, and these with each other. -/
theorem isValidRefinement_spec (hc : m.IsCanonical) (hp : p.IsDense m.numStates) (p₀ : Partition) :
    ∃ rep : ℕ → ℕ, (∀ b < p.numBlocks, rep b < m.numStates ∧ p.block (rep b) = b) ∧
      (isValidRefinement m p₀ p = true ↔
        (∀ s < m.numStates, p₀.block s = p₀.block (rep (p.block s)) ∧
          m.SameMasses p.block s (rep (p.block s))) ∧
        ∀ b < p.numBlocks, ∀ c < p.numBlocks, p₀.block (rep b) = p₀.block (rep c) ∧
          m.SameMasses p.block (rep b) (rep c) → b = c) := by
  obtain ⟨d, hprofiles, hmatch⟩ := profiles_spec hc p₀ p
  have hbound : ∀ q ∈ (List.range m.numStates).map (profileOf m p₀ p d),
      q.block < (Array.replicate p.numBlocks (none : Option Profile)).size := by
    simp only [List.forall_mem_map, List.mem_range, Array.size_replicate]
    exact hp.lt
  obtain ⟨hsome, hfull⟩ := collectProfiles_spec hbound
  choose! rep hrep using fun b (hb : b < p.numBlocks) => exists_recorded hp p₀ d hb
  refine ⟨rep, fun b hb => ⟨(hrep b hb).1, (hrep b hb).2.1⟩, ?_⟩
  have hconsistent : (collectProfiles (Array.replicate p.numBlocks none)
      ((List.range m.numStates).map (profileOf m p₀ p d))).isSome = true ↔
      ∀ s < m.numStates, p₀.block s = p₀.block (rep (p.block s)) ∧
        m.SameMasses p.block s (rep (p.block s)) := by
    rw [hsome]
    simp only [List.forall_mem_map, List.mem_range]
    refine forall₂_congr fun s hs => ?_
    obtain ⟨hlt, -, hrec⟩ := hrep _ (hp.lt s hs)
    have hrec : recorded _ _ (profileOf m p₀ p d s).block = _ := hrec
    rw [hrec, ← hmatch s hs _ hlt]
    simp
  have hdistinct : ∀ full, collectProfiles (Array.replicate p.numBlocks none)
      ((List.range m.numStates).map (profileOf m p₀ p d)) = some full →
      full.toList = ((List.range p.numBlocks).map fun b => profileOf m p₀ p d (rep b)).map some := by
    intro full hcollect
    obtain ⟨hsize, hentry⟩ := hfull full hcollect
    rw [Array.size_replicate] at hsize
    refine List.ext_getElem (by simp [hsize]) fun b hb _ => ?_
    have hb : b < full.size := by simpa using hb
    have := hentry b
    rw [(hrep b (hsize ▸ hb)).2.2, Array.getElem?_eq_getElem hb] at this
    simpa using this
  rw [← hconsistent, isValidRefinement, hprofiles]
  rcases hcollect : collectProfiles (Array.replicate p.numBlocks none)
    ((List.range m.numStates).map (profileOf m p₀ p d)) with _ | full
  · simp
  · simp only [Option.isSome_some, true_and, hdistinct full hcollect, mapM_id_map_some]
    rw [allDistinct_map_range]
    refine forall₂_congr fun b hb => forall₂_congr fun c hc => ?_
    rw [hmatch _ (hrep b hb).1 _ (hrep c hc).1]

/-- The test accepts a partition exactly when one more step of the refinement, by the initial blocks
and the masses of all blocks, does not change it. -/
theorem isValidRefinement_iff (hc : m.IsCanonical) (hp : p.IsDense m.numStates) :
    isValidRefinement m p₀ p = true ↔ ∀ s < m.numStates, ∀ t < m.numStates,
      p.block s = p.block t ↔ p₀.block s = p₀.block t ∧ m.SameMasses p.block s t := by
  obtain ⟨rep, hrep, hiff⟩ := isValidRefinement_spec hc hp p₀
  rw [hiff]
  constructor
  · rintro ⟨hself, hdistinct⟩ s hs t ht
    obtain ⟨hs₀, hsm⟩ := hself s hs
    obtain ⟨ht₀, htm⟩ := hself t ht
    constructor
    · intro hst
      rw [← hst] at ht₀ htm
      exact ⟨hs₀.trans ht₀.symm, fun b => (hsm b).trans (htm b).symm⟩
    · rintro ⟨h₀, hmass⟩
      refine hdistinct _ (hp.lt s hs) _ (hp.lt t ht) ⟨?_, fun b => ?_⟩
      · exact hs₀.symm.trans (h₀.trans ht₀)
      · exact (hsm b).symm.trans ((hmass b).trans (htm b))
  · intro h
    refine ⟨fun s hs => ?_, fun b hb c hc hbc => ?_⟩
    · obtain ⟨hlt, hblock⟩ := hrep _ (hp.lt s hs)
      exact (h s hs _ hlt).1 hblock.symm
    · obtain ⟨hblt, hbb⟩ := hrep b hb
      obtain ⟨hclt, hcb⟩ := hrep c hc
      have := (h _ hblt _ hclt).2 hbc
      rwa [hbb, hcb] at this

/-- An accepted partition is a bisimulation inside the initial one. -/
theorem isBisimulation_of_isValidRefinement (hc : m.IsCanonical) (hp : p.IsDense m.numStates)
    (h : isValidRefinement m p₀ p = true) : IsBisimulation m p₀ (Setoid.ker p.block) := by
  have hiff := (isValidRefinement_iff hc hp).1 h
  refine isBisimulation_of_isStable hc ?_ ?_
  · intro s hs t ht hst
    exact ((hiff s hs t ht).1 hst).2
  · intro s hs t ht hst
    exact ((hiff s hs t ht).1 hst).1

/-- The coarsest partition is accepted: states of one initial block with equal masses on its blocks
are related by a bisimulation, which is contained in it. -/
theorem IsCoarsest.isValidRefinement (hw : m.WellFormed) (hc : m.IsCanonical)
    (hp : p.IsDense m.numStates) (h : IsCoarsest m p₀ p) : isValidRefinement m p₀ p = true := by
  have hstable := h.isStable hw hc
  rw [isValidRefinement_iff hc hp]
  intro s hs t ht
  constructor
  · intro hst
    exact ⟨h.isBisimulation.contained s hs t ht hst, hstable s hs t ht hst⟩
  · rintro ⟨h₀, hmass⟩
    let r : Setoid ℕ := Setoid.ker fun u => (p₀.block u, fun b => m.mass u {v | p.block v = b})
    have hr : ∀ u v, p₀.block u = p₀.block v → m.SameMasses p.block u v → r u v :=
      fun u v h₀ hmass => Prod.ext h₀ (funext hmass)
    refine h.respects r ⟨?_, ?_⟩ s hs t ht (hr s t h₀ hmass)
    · intro u hu v hv huv
      exact congrArg Prod.fst huv
    · intro u hu v hv huv w
      have huv : m.SameMasses p.block u v := congrFun (congrArg Prod.snd huv)
      rw [Model.total_eq_iff hc]
      -- Stability makes every class of the relation a union of blocks.
      refine Model.mass_eq_of_masses hw huv fun x hx y hy hxy hwx => r.trans hwx ?_
      exact hr x y (h.isBisimulation.contained x hx y hy hxy) (hstable x hx y hy hxy)

/-! ## Where the test is exact -/

/-- The targets of the transitions of two states. -/
def targetsOf (m : Model RationalFunction) (s t : ℕ) : List ℕ := (m.row s ++ m.row t).map (·.1)

/-- Whether two states share a block is never based on itself: from pairs of different states of one
initial block to such pairs among their targets, a rank descends. -/
def PairsDescend (m : Model RationalFunction) (p₀ : Partition) : Prop :=
  ∃ rank : ℕ → ℕ → ℕ, ∀ s < m.numStates, ∀ t < m.numStates, s ≠ t → p₀.block s = p₀.block t →
    ∀ u ∈ targetsOf m s t, ∀ v ∈ targetsOf m s t, u ≠ v → p₀.block u = p₀.block v →
      rank u v < rank s t

/-- When related targets of two states share their block, related states have equal masses on all
blocks. -/
theorem IsBisimulation.sameMasses_of_targets (hw : m.WellFormed) (hc : m.IsCanonical) {r : Setoid ℕ}
    (hr : IsBisimulation m p₀ r) {s t : ℕ} (hs : s < m.numStates) (ht : t < m.numStates)
    (hst : r s t) (h : ∀ u ∈ targetsOf m s t, ∀ v ∈ targetsOf m s t, r u v → p.block u = p.block v) :
    m.SameMasses p.block s t := by
  intro b
  let A : Set ℕ := {u | ∃ w ∈ targetsOf m s t, p.block w = b ∧ r u w}
  have hA : ∀ u ∈ targetsOf m s t, u ∈ A ↔ p.block u = b := by
    intro u hu
    constructor
    · rintro ⟨w, hw, hb, huw⟩
      exact (h u hu w hw huw).trans hb
    · intro hb
      exact ⟨u, hu, hb, r.refl u⟩
  have hs' : m.mass s A = m.mass s {u | p.block u = b} := Model.mass_congr fun e he =>
    hA e.1 (List.mem_map_of_mem (List.mem_append_left _ he))
  have ht' : m.mass t A = m.mass t {u | p.block u = b} := Model.mass_congr fun e he =>
    hA e.1 (List.mem_map_of_mem (List.mem_append_right _ he))
  rw [← hs', ← ht']
  refine hr.mass_eq hw hc hs ht hst ?_
  rintro u - v - huv ⟨w, hw, hb, huw⟩
  exact ⟨w, hw, hb, r.trans (r.symm huv) huw⟩

/-- Where pairs descend, an accepted partition separates no bisimilar states. -/
theorem PairsDescend.respects (hw : m.WellFormed) (hc : m.IsCanonical) (hp : p.IsDense m.numStates)
    (hd : PairsDescend m p₀) (h : isValidRefinement m p₀ p = true) : Respects m p₀ p := by
  obtain ⟨rank, hrank⟩ := hd
  intro r hr s hs t ht hst
  induction hk : rank s t using Nat.strong_induction_on generalizing s t with
  | _ k ih =>
    subst hk
    have hlt : ∀ u ∈ targetsOf m s t, u < m.numStates := by
      intro u hu
      obtain ⟨e, he, rfl⟩ := List.mem_map.1 hu
      rcases List.mem_append.1 he with he | he
      · exact hw.targets_lt s e he
      · exact hw.targets_lt t e he
    by_cases hne : s = t
    · rw [hne]
    · have h₀ := hr.contained s hs t ht hst
      refine ((isValidRefinement_iff hc hp).1 h s hs t ht).2 ⟨h₀, ?_⟩
      refine hr.sameMasses_of_targets hw hc hs ht hst fun u hu v hv huv => ?_
      by_cases huv' : u = v
      · rw [huv']
      · have hless := hrank s hs t ht hne h₀ u hu v hv huv'
          (hr.contained u (hlt u hu) v (hlt v hv) huv)
        exact ih _ hless u (hlt u hu) v (hlt v hv) huv rfl

/-- The test accepts a partition exactly when a step of the refinement does not change it. So an
accepted partition is stable and refines the initial one, and the coarsest such partition is
accepted. Where pairs descend, no other one is. -/
theorem isValidRefinement_exact (hw : m.WellFormed) (hc : m.IsCanonical)
    (hp : p.IsDense m.numStates) (p₀ : Partition) :
    (isValidRefinement m p₀ p = true ↔ ∀ s < m.numStates, ∀ t < m.numStates,
      p.block s = p.block t ↔ p₀.block s = p₀.block t ∧
        ∀ b, m.total s {u | p.block u = b} = m.total t {u | p.block u = b}) ∧
    (isValidRefinement m p₀ p = true → IsBisimulation m p₀ (Setoid.ker p.block)) ∧
    (IsCoarsest m p₀ p → isValidRefinement m p₀ p = true) ∧
    (PairsDescend m p₀ → (isValidRefinement m p₀ p = true ↔ IsCoarsest m p₀ p)) := by
  have hbis : isValidRefinement m p₀ p = true → IsBisimulation m p₀ (Setoid.ker p.block) :=
    isBisimulation_of_isValidRefinement hc hp
  have hcoarsest : IsCoarsest m p₀ p → isValidRefinement m p₀ p = true :=
    fun h => h.isValidRefinement hw hc hp
  refine ⟨?_, hbis, hcoarsest, fun hd => ⟨fun h => ⟨hbis h, hd.respects hw hc hp h⟩, hcoarsest⟩⟩
  simp only [Model.total_eq_iff hc]
  exact isValidRefinement_iff hc hp

/-- When the sides of a coin may share a block with the coin or not, but not with each other, the test
accepts exactly the coarsest partitions. -/
theorem coin_isValidRefinement_exact :
    (⟨#[0, 1, 2], 3⟩ : Partition).IsDense coin.numStates ∧ PairsDescend coin ⟨#[0, 0, 1], 2⟩ ∧
      (isValidRefinement coin ⟨#[0, 0, 1], 2⟩ ⟨#[0, 1, 2], 3⟩ = true ↔
        IsCoarsest coin ⟨#[0, 0, 1], 2⟩ ⟨#[0, 1, 2], 3⟩) := by
  have hp : (⟨#[0, 1, 2], 3⟩ : Partition).IsDense coin.numStates := ⟨rfl, by decide, by decide⟩
  have hd : PairsDescend coin ⟨#[0, 0, 1], 2⟩ := by
    have htarget : ∀ s, ∀ e ∈ coin.row s, e.1 = 1 ∨ e.1 = 2 := by
      intro s
      rcases s with _ | _ | _ | s <;> simp [coin, Model.row]
    have hside : ∀ s t, ∀ u ∈ targetsOf coin s t, u = 1 ∨ u = 2 := by
      intro s t u hu
      obtain ⟨e, he, rfl⟩ := List.mem_map.1 hu
      rcases List.mem_append.1 he with he | he
      · exact htarget s e he
      · exact htarget t e he
    refine ⟨fun _ _ => 0, fun s _ t _ _ _ u hu v hv huv h₀ => ?_⟩
    rcases hside s t u hu with rfl | rfl <;> rcases hside s t v hv with rfl | rfl
    · exact absurd rfl huv
    · exact absurd h₀ (by decide)
    · exact absurd h₀ (by decide)
    · exact absurd rfl huv
  obtain ⟨-, -, -, hexact⟩ :=
    isValidRefinement_exact coin_wellFormed coin_isCanonical hp ⟨#[0, 0, 1], 2⟩
  exact ⟨hp, hd, hexact hd⟩

/-! ## Where it is not -/

/-- Two states that alternate. -/
def alternation : Model RationalFunction where
  kind := .dtmc
  rows := #[[(1, .const 1)], [(0, .const 1)]]
  initial := [0]
  labeling := ⟨2, []⟩
  rewards := []

theorem alternation_isCanonical : alternation.IsCanonical where
  row s e he := by
    have hone : (RationalFunction.const 1).IsCanonical := (RationalFunction.denotes_const 1).1
    rcases s with _ | _ | s
    · obtain rfl := List.mem_singleton.1 he
      exact hone
    · obtain rfl := List.mem_singleton.1 he
      exact hone
    · cases he
  reward r hr := nomatch hr

theorem alternation_mass {A : Set ℕ} :
    alternation.mass 0 A = A.indicator 1 1 ∧ alternation.mass 1 A = A.indicator 1 0 := by
  have hone : (RationalFunction.const 1).toFrac = 1 := by
    rw [(RationalFunction.denotes_const 1).2, map_one, map_one]
  constructor <;> simp [Model.mass, Model.expect, Model.row, alternation, hone]

/-- The alternating states are bisimilar, but the test accepts the partition that separates them: that
they move to different blocks is why they are in different blocks. -/
theorem alternation_accepted :
    isValidRefinement alternation ⟨#[0, 0], 1⟩ ⟨#[0, 1], 2⟩ = true ∧
      ¬ IsCoarsest alternation ⟨#[0, 0], 1⟩ ⟨#[0, 1], 2⟩ := by
  constructor
  · have hp : (⟨#[0, 1], 2⟩ : Partition).IsDense alternation.numStates :=
      ⟨rfl, by decide, by decide⟩
    rw [isValidRefinement_iff alternation_isCanonical hp]
    have hne : ¬ alternation.SameMasses (⟨#[0, 1], 2⟩ : Partition).block 0 1 := by
      intro h
      have := h 0
      rw [alternation_mass.1, alternation_mass.2] at this
      simp [Partition.block] at this
    intro s hs t ht
    have hs : s < 2 := hs
    have ht : t < 2 := ht
    interval_cases s <;> interval_cases t
    · simp [Model.SameMasses]
    · simp [Partition.block, hne]
    · simpa [Partition.block] using fun h => hne fun b => (h b).symm
    · simp [Model.SameMasses]
  · intro h
    have hbis : IsBisimulation alternation ⟨#[0, 0], 1⟩ ⊤ := by
      have hone : ∀ s < 2, ∀ t < 2,
          (⟨#[0, 0], 1⟩ : Partition).block s = (⟨#[0, 0], 1⟩ : Partition).block t := by decide
      constructor
      · exact fun s hs t ht _ => hone s hs t ht
      · intro s hs t ht _ u
        have hall : {v | (⊤ : Setoid ℕ) u v} = Set.univ := Set.eq_univ_of_forall fun _ => trivial
        have hs : s < 2 := hs
        have ht : t < 2 := ht
        rw [Model.total_eq_iff alternation_isCanonical, hall]
        interval_cases s <;> interval_cases t <;> simp [alternation_mass]
    have := h.respects ⊤ hbis 0 (by decide) 1 (by decide) trivial
    exact absurd this (by decide)

end Bisim
end MarkovCheck

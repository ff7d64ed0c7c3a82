import Mathlib
import MarkovCheck.Proofs.Bisim.Compare

/-!
# MarkovCheck.Proofs.Bisim.Exactness

The quotient by a partition is built exactly if the partition is a bisimulation.

Nothing is assumed of the partition: it may have empty blocks, and blocks numbered in any way. Every
state is compared with the smallest state of its block only. That is enough, since it is an
equivalence to have equal totals into all blocks and to agree on what is preserved. States are
compared in ascending order, so what is reported is the smallest state that differs.

* `Congruent`, `Differs` — that two states fit into one block, and why they do not.
* `disagreement?_differs`, `inconsistency?_eq_some` — what is reported about a pair, and in all.
* `IsQuotientBy`        — what a quotient has to do with the model and the partition.
* `quotient_isOk_iff`   — when there is a quotient.
* `quotient_exact`      — when there is one, what it is, and what is reported when there is none.
-/

namespace MarkovCheck

/-- The state of the quotient that a state is mapped to. -/
def Quotient.classOf {V : Type} (q : Quotient V) (s : ℕ) : ℕ := q.stateMap[s]?.getD 0

namespace Bisim

variable {m : Model RationalFunction} {o : Observed RationalFunction} {p : Partition}
  {preserved : Preserved} {s t u : ℕ}

/-! ## States that fit into one block -/

/-- Two states have equal totals into every block, and agree on what is preserved. -/
structure Congruent (m : Model RationalFunction) (p : Partition) (preserved : Preserved) (s t : ℕ) :
    Prop where
  total_eq : ∀ b, m.total s {u | p.block u = b} = m.total t {u | p.block u = b}
  alike : Alike preserved m s m t

theorem Congruent.symm (h : Congruent m p preserved s t) : Congruent m p preserved t s :=
  ⟨fun b => (h.total_eq b).symm, h.alike.symm⟩

theorem Congruent.trans (h : Congruent m p preserved s t) (h' : Congruent m p preserved t u) :
    Congruent m p preserved s u :=
  ⟨fun b => (h.total_eq b).trans (h'.total_eq b), h.alike.trans h'.alike⟩

/-- Two states differ on what a text tells. -/
inductive Differs (m : Model RationalFunction) (p : Partition) (preserved : Preserved) (s t : ℕ) :
    String → Prop where
  | totals {b : ℕ} (h : m.total s {u | p.block u = b} ≠ m.total t {u | p.block u = b}) :
    Differs m p preserved s t "the probabilities into the blocks"
  | label {name : String} (hname : name ∈ preserved.labels)
    (h : m.labeling.has name s ≠ m.labeling.has name t) :
    Differs m p preserved s t ("label \"" ++ name ++ "\"")
  | reward {name : String} (hname : name ∈ preserved.rewards)
    (h : (m.rewardModel? name).map (·.value s) ≠ (m.rewardModel? name).map (·.value t)) :
    Differs m p preserved s t ("reward model \"" ++ name ++ "\"")

theorem Differs.not_congruent {reason : String} (h : Differs m p preserved s t reason) :
    ¬ Congruent m p preserved s t := fun hm => by
  cases h with
  | totals h => exact h (hm.total_eq _)
  | label hname h => exact h (hm.alike.labels _ hname)
  | reward hname h => exact h (hm.alike.rewards _ hname)

/-! ## Comparing two states -/

section Compare

variable {sums : ℕ → List (ℕ × RationalFunction)} {reason : String}

theorem agree_of_disagreement? (h : disagreement? o sums s t = none) :
    sums s = sums t ∧ Agree o s t := by
  unfold disagreement? at h
  split at h
  · cases h
  · rename_i hsums
    split at h
    · cases h
    · rename_i hlabels
      rw [Option.map_eq_none_iff, List.find?_eq_none] at h
      rw [List.find?_eq_none] at hlabels
      refine ⟨sameSums_iff.1 (by simpa using hsums), fun l hl => ?_, fun w hw => ?_⟩
      · simpa using hlabels l hl
      · exact numEq_iff.1 (by simpa using h w hw)

theorem disagreement?_eq_some (h : disagreement? o sums s t = some reason) :
    sums s ≠ sums t ∧ reason = "the probabilities into the blocks" ∨
      (∃ l ∈ o.labels, l.2.contains s ≠ l.2.contains t ∧ reason = "label \"" ++ l.1 ++ "\"") ∨
      ∃ w ∈ o.rewards, w.value s ≠ w.value t ∧ reason = "reward model \"" ++ w.name ++ "\"" := by
  unfold disagreement? at h
  split at h
  · rename_i hsums
    cases h
    refine .inl ⟨fun heq => ?_, rfl⟩
    rw [sameSums_iff.2 heq] at hsums
    cases hsums
  · split at h
    · rename_i l hl
      cases h
      have hdiff := List.find?_some hl
      exact .inr (.inl ⟨l, List.mem_of_find?_eq_some hl, by simpa using hdiff, rfl⟩)
    · obtain ⟨w, hw, rfl⟩ := Option.map_eq_some_iff.1 h
      have hdiff := List.find?_some hw
      refine .inr (.inr ⟨w, List.mem_of_find?_eq_some hw, fun heq => ?_, rfl⟩)
      rw [numEq_iff.2 heq] at hdiff
      cases hdiff

end Compare

section Pair

variable (hw : m.WellFormed) (hc : m.IsCanonical) (hsize : p.size = m.numStates) (hp : p.IsBounded)
  (ho : observe m preserved = .ok o)
include hw hc hsize hp

theorem blockSums_canonical_eq_iff :
    blockSums m p.canonical s = blockSums m p.canonical t ↔
      ∀ b, m.total s {u | p.block u = b} = m.total t {u | p.block u = b} := by
  rw [blockSums_eq_iff hc, sameMasses_canonical_iff hw hsize hp]
  exact forall_congr' fun b => (Model.total_eq_iff hc).symm

include ho

theorem congruent_iff : Congruent m p preserved s t ↔
    blockSums m p.canonical s = blockSums m p.canonical t ∧ Agree o s t := by
  rw [blockSums_canonical_eq_iff hw hc hsize hp, agree_iff_alike ho]
  exact ⟨fun h => ⟨h.total_eq, h.alike⟩, fun h => ⟨h.1, h.2⟩⟩

/-- A disagreement between two states is reported exactly if they are not congruent. -/
theorem disagreement?_eq_none_iff :
    disagreement? o (blockSums m p.canonical) s t = none ↔ Congruent m p preserved s t := by
  rw [congruent_iff hw hc hsize hp ho]
  exact ⟨agree_of_disagreement?, fun h => disagreement?_eq_none h.1 h.2⟩

/-- What is reported is something that the states differ on. -/
theorem disagreement?_differs {reason : String}
    (h : disagreement? o (blockSums m p.canonical) s t = some reason) :
    Differs m p preserved s t reason := by
  obtain ⟨⟨hnames, hlabels⟩, hrnames, hrewards⟩ := observe_spec ho
  rcases disagreement?_eq_some h with ⟨hsums, rfl⟩ | ⟨l, hl, hdiff, rfl⟩ | ⟨w, hw', hdiff, rfl⟩
  · rw [ne_eq, blockSums_canonical_eq_iff hw hc hsize hp, not_forall] at hsums
    obtain ⟨b, hb⟩ := hsums
    exact .totals hb
  · refine .label (hnames ▸ List.mem_map_of_mem hl) ?_
    rwa [Labeling.has, Labeling.has, hlabels l hl]
  · refine .reward (hrnames ▸ List.mem_map_of_mem hw') ?_
    rwa [hrewards w hw', Option.map_some, Option.map_some, ne_eq, Option.some_inj]

end Pair

/-! ## Comparing all states -/

/-- Every state is compared with the representative of its block, which agrees with itself. -/
theorem inconsistency?_eq (o : Observed RationalFunction) (p : Partition)
    (sums : ℕ → List (ℕ × RationalFunction)) : inconsistency? o p sums =
      (List.range p.size).findSome? fun s => (disagreement? o sums s (repOf p (p.block s))).map
        fun reason => .inconsistentBlock (p.block s) s (repOf p (p.block s)) reason := by
  refine congrArg (fun f => (List.range p.size).findSome? f) (funext fun s => ?_)
  change (if s = repOf p (p.block s) then none else _) = _
  split
  · rename_i hs
    rw [← hs, disagreement?_eq_none rfl ⟨fun _ _ => rfl, fun _ _ => rfl⟩, Option.map_none]
  · rfl

theorem inconsistency?_eq_none_iff {sums : ℕ → List (ℕ × RationalFunction)} :
    inconsistency? o p sums = none ↔
      ∀ s < p.size, disagreement? o sums s (repOf p (p.block s)) = none := by
  rw [inconsistency?_eq, List.findSome?_eq_none_iff]
  simp only [List.mem_range, Option.map_eq_none_iff]

/-- The first state that disagrees is reported. -/
theorem inconsistency?_eq_some {sums : ℕ → List (ℕ × RationalFunction)} {e : ReductionError}
    (h : inconsistency? o p sums = some e) : ∃ s < p.size, ∃ reason,
      e = .inconsistentBlock (p.block s) s (repOf p (p.block s)) reason ∧
      disagreement? o sums s (repOf p (p.block s)) = some reason ∧
      ∀ t < s, disagreement? o sums t (repOf p (p.block t)) = none := by
  rw [inconsistency?_eq, List.findSome?_eq_some_iff] at h
  obtain ⟨before, s, after, hrange, hs, hbefore⟩ := h
  obtain ⟨reason, hreason, rfl⟩ := Option.map_eq_some_iff.1 hs
  have hlt : s < p.size := List.mem_range.1 (hrange ▸ by simp)
  have hasc : (before ++ s :: after).Pairwise (· < ·) := hrange ▸ List.pairwise_lt_range
  refine ⟨s, hlt, reason, rfl, hreason, fun t ht => ?_⟩
  have hmem : t ∈ before ++ s :: after := hrange ▸ List.mem_range.2 (ht.trans hlt)
  rw [List.pairwise_append, List.pairwise_cons] at hasc
  rcases List.mem_append.1 hmem with hmem | hmem
  · exact Option.map_eq_none_iff.1 (hbefore t hmem)
  · rcases List.mem_cons.1 hmem with rfl | hmem
    · exact absurd ht (lt_irrefl t)
    · exact absurd ht (hasc.2.1.1 t hmem).not_gt

/-! ## The quotient by a partition -/

/-- The states of the quotient are the blocks that are not empty, by their smallest states. A block
moves and carries what its states do, and is initial if one of them is. -/
structure IsQuotientBy (m : Model RationalFunction) (p : Partition) (preserved : Preserved)
    (q : Quotient RationalFunction) : Prop where
  wellFormed : q.model.WellFormed
  kind : q.model.kind = m.kind
  size : q.stateMap.size = m.numStates
  lt : ∀ s < m.numStates, q.classOf s < q.model.numStates
  surj : ∀ c < q.model.numStates, ∃ s < m.numStates, q.classOf s = c
  classOf_eq_iff : ∀ s < m.numStates, ∀ t < m.numStates,
    q.classOf s = q.classOf t ↔ p.block s = p.block t
  order : ∀ c d r r', IsLeast {s | s < m.numStates ∧ q.classOf s = c} r →
    IsLeast {s | s < m.numStates ∧ q.classOf s = d} r' → (c < d ↔ r < r')
  row : ∀ s < m.numStates, ∀ c v, (c, v) ∈ q.model.row (q.classOf s) ↔
    v = m.total s {u | q.classOf u = c} ∧ v.isZero = false
  label_names : q.model.labeling.names = preserved.labels
  label : ∀ s < m.numStates, ∀ name, q.model.labeling.has name (q.classOf s) = true ↔
    name ∈ preserved.labels ∧ m.labeling.has name s = true
  reward_names : q.model.rewards.map (·.name) = preserved.rewards
  reward : ∀ s < m.numStates, ∀ name ∈ preserved.rewards,
    (q.model.rewardModel? name).map (·.value (q.classOf s)) =
      (m.rewardModel? name).map (·.value s)
  mem_initial : ∀ c, c ∈ q.model.initial ↔ ∃ s ∈ m.initial, q.classOf s = c

theorem states?_eq_none {l : Labeling} {name : String} (h : name ∉ l.names) :
    l.states? name = none := by
  refine List.lookup_eq_none_iff.2 fun e he => bne_iff_ne.2 ?_
  rintro rfl
  exact h (List.mem_map_of_mem he)

/-- A quotient carries a label where its states do, as far as it has the label. -/
theorem IsQuotient.has_iff {Q : Model RationalFunction} {c : ℕ → ℕ} (h : IsQuotient m Q o c)
    (ho : observe m preserved = .ok o) (hnames : Q.labeling.names = preserved.labels)
    (hs : s < m.numStates) {name : String} : Q.labeling.has name (c s) = true ↔
      name ∈ preserved.labels ∧ m.labeling.has name s = true := by
  by_cases hname : name ∈ preserved.labels
  · rw [← (h.alike ho hs).labels name hname, and_iff_right hname]
  · rw [Labeling.has, states?_eq_none (hnames ▸ hname)]
    simp [hname]

/-- The transitions of a quotient are the totals other than zero. -/
theorem IsQuotient.mem_row_iff {Q : Model RationalFunction} {c : ℕ → ℕ} (h : IsQuotient m Q o c)
    (hc : m.IsCanonical) (hs : s < m.numStates) {b : ℕ} {v : RationalFunction} :
    (b, v) ∈ Q.row (c s) ↔ v = m.total s {u | c u = b} ∧ v.isZero = false := by
  have htotal := Model.total_denotes hc s {u | c u = b}
  rw [h.row s hs b v]
  constructor
  · rintro ⟨hv, h0⟩
    obtain rfl := hv.eq htotal
    exact ⟨rfl, (RationalFunction.isZero_eq_false_iff hv.1).2 (hv.2 ▸ h0)⟩
  · rintro ⟨rfl, h0⟩
    exact ⟨htotal, htotal.2 ▸ (RationalFunction.isZero_eq_false_iff htotal.1).1 h0⟩

section Quotient

variable (hw : m.WellFormed) (hc : m.IsCanonical) (hsize : p.size = m.numStates) (hp : p.IsBounded)
  (ho : observe m preserved = .ok o)

/-- Nothing but an inconsistent block can go wrong once everything preserved is found. -/
theorem quotient_cases (hw : m.WellFormed) (ho : observe m preserved = .ok o) :
    (∃ e, inconsistency? o p.canonical (blockSums m p.canonical) = some e ∧
      quotient m p preserved = .error e) ∨
    inconsistency? o p.canonical (blockSums m p.canonical) = none ∧
      ∃ q, quotient m p preserved = .ok q := by
  obtain ⟨q, hq⟩ := quotientBuilder_finish hw o p.canonical (blockSums m p.canonical)
  unfold quotient
  simp only [ho, blockSums_table]
  cases inconsistency? o p.canonical (blockSums m p.canonical) with
  | some e => exact .inl ⟨e, rfl, rfl⟩
  | none => exact .inr ⟨rfl, ⟨q, p.canonical.blocks⟩, by rw [hq]⟩

/-- The smallest state of a block is that of the block in canonical form. -/
theorem repOf_canonical_isLeast (hsize : p.size = m.numStates) (hp : p.IsBounded)
    (hs : s < m.numStates) :
    IsLeast {t | t < m.numStates ∧ p.block t = p.block s}
      (repOf p.canonical (p.canonical.block s)) := by
  have hdense : p.canonical.IsDense m.numStates := hsize ▸ Partition.canonical_isDense hp
  have hset : {t | t < m.numStates ∧ p.block t = p.block s} =
      {t | t < m.numStates ∧ p.canonical.block t = p.canonical.block s} :=
    Set.ext fun t => and_congr_right fun ht => (hp.canonical_iff hsize ht hs).symm
  rw [hset]
  exact repOf_isLeast hdense (hdense.lt s hs)

include hw hc hsize hp

/-- There is a quotient exactly if the states of every block are congruent. -/
theorem quotient_isOk_iff (ho : observe m preserved = .ok o) :
    (∃ q, quotient m p preserved = .ok q) ↔ ∀ s < m.numStates, ∀ t < m.numStates,
      p.block s = p.block t → Congruent m p preserved s t := by
  have hcsize : p.canonical.size = m.numStates := (Partition.canonical_size hp).trans hsize
  have hnone : inconsistency? o p.canonical (blockSums m p.canonical) = none ↔
      ∀ s < m.numStates, Congruent m p preserved s (repOf p.canonical (p.canonical.block s)) := by
    rw [inconsistency?_eq_none_iff, hcsize]
    exact forall₂_congr fun s _ => disagreement?_eq_none_iff hw hc hsize hp ho
  have hok : (∃ q, quotient m p preserved = .ok q) ↔
      inconsistency? o p.canonical (blockSums m p.canonical) = none := by
    rcases quotient_cases (p := p) hw ho with ⟨e, he, herror⟩ | ⟨he, q, hq⟩
    · simp [he, herror]
    · simp [he, hq]
  rw [hok, hnone]
  constructor
  · intro h s hs t ht hst
    have hblock := (hp.canonical_iff hsize hs ht).2 hst
    exact (h s hs).trans (hblock ▸ (h t ht).symm)
  · intro h s hs
    obtain ⟨⟨hlt, hblock⟩, -⟩ := repOf_canonical_isLeast hsize hp hs
    exact h s hs _ hlt hblock.symm

theorem isQuotientBy_of_congruent (ho : observe m preserved = .ok o)
    (hlabels : preserved.labels.Nodup) (hrewards : preserved.rewards.Nodup)
    (h : ∀ s < m.numStates, ∀ t < m.numStates, p.block s = p.block t →
      Congruent m p preserved s t) :
    ∃ q, quotient m p preserved = .ok q ∧ IsQuotientBy m p preserved q := by
  have hdense : p.canonical.IsDense m.numStates := hsize ▸ Partition.canonical_isDense hp
  have hcongruent : ∀ s < m.numStates, ∀ t < m.numStates,
      p.canonical.block s = p.canonical.block t →
        blockSums m p.canonical s = blockSums m p.canonical t ∧ Agree o s t :=
    fun s hs t ht hst => (congruent_iff hw hc hsize hp ho).1
      (h s hs t ht ((hp.canonical_iff hsize hs ht).1 hst))
  -- The canonical form is its own canonical form, so the quotient by it is the same.
  have hcc := Partition.canonical_canonical hp
  obtain ⟨q, hq, hmodel, hquot, hmap⟩ := quotient_spec hw hc hdense
    (fun s hs t ht hst => (blockSums_eq_iff hc).1 (hcongruent s hs t ht hst).1) ho hlabels hrewards
    fun s hs t ht hst => (hcongruent s hs t ht hst).2
  rw [quotient_congr hcc] at hq
  rw [hcc] at hmodel hquot hmap
  have hclass : q.classOf = p.canonical.block := by
    funext s
    rw [Quotient.classOf, hmap, Partition.block]
  obtain ⟨⟨hnames, -⟩, hrnames, -⟩ := observe_spec ho
  have hlabelNames : q.model.labeling.names = preserved.labels := by
    rw [hmodel, Labeling.names, quotientModel, List.map_map]
    exact hnames
  refine ⟨q, hq, ?_⟩
  constructor
  case wellFormed => exact hquot.wellFormed
  case kind => rw [hmodel, quotientModel]
  case size =>
    rw [hmap]
    exact hdense.size
  case lt => exact hclass ▸ hquot.lt
  case surj => exact hclass ▸ hquot.surj
  case classOf_eq_iff => exact hclass ▸ fun s hs t ht => hp.canonical_iff hsize hs ht
  case order => exact fun c d r r' hr hr' =>
    Partition.lt_iff_of_growth (hclass ▸ hquot.growth) hr hr'
  case row => exact hclass ▸ fun s hs c v => hquot.mem_row_iff hc hs
  case label_names => exact hlabelNames
  case label => exact hclass ▸ fun s hs name => hquot.has_iff ho hlabelNames hs
  case reward_names =>
    rw [hmodel, quotientModel, List.map_map]
    exact hrnames
  case reward => exact hclass ▸ fun s hs name hname => ((hquot.alike ho hs).rewards name hname).symm
  case mem_initial =>
    intro c
    rw [hmodel, hclass, quotientModel, Builder.mem_sortStates, List.mem_map]

/-- For every partition of the states of a model, and everything the model has to be preserved: there
is a quotient exactly if any two states of a block have equal totals into every block, and agree on
the preserved labels and rewards. It is the quotient by the partition. Otherwise the smallest state
that differs from the smallest state of its block is reported, with something they differ on. -/
theorem quotient_exact (hcovers : Covers m preserved) (hlabels : preserved.labels.Nodup)
    (hrewards : preserved.rewards.Nodup) :
    ((∃ q, quotient m p preserved = .ok q) ↔ ∀ s < m.numStates, ∀ t < m.numStates,
      p.block s = p.block t → Congruent m p preserved s t) ∧
    (∀ q, quotient m p preserved = .ok q → IsQuotientBy m p preserved q) ∧
    ∀ e, quotient m p preserved = .error e → ∃ s r reason,
      e = .inconsistentBlock (p.canonical.block s) s r reason ∧
      IsLeast {u | u < m.numStates ∧ p.block u = p.block s} r ∧
      IsLeast {t | t < m.numStates ∧ ∃ r, IsLeast {u | u < m.numStates ∧ p.block u = p.block t} r ∧
        ¬ Congruent m p preserved t r} s ∧
      Differs m p preserved s r reason := by
  obtain ⟨o, ho⟩ := observe_ok_iff.2 hcovers
  have hok := quotient_isOk_iff hw hc hsize hp ho
  refine ⟨hok, fun q hq => ?_, fun e he => ?_⟩
  · obtain ⟨q', hq', hquot⟩ :=
      isQuotientBy_of_congruent hw hc hsize hp ho hlabels hrewards (hok.1 ⟨q, hq⟩)
    cases hq.symm.trans hq'
    exact hquot
  · rcases quotient_cases (p := p) hw ho with ⟨e', hinc, herror⟩ | ⟨-, q, hq⟩
    · cases he.symm.trans herror
      obtain ⟨s, hs, reason, rfl, hreason, hbefore⟩ := inconsistency?_eq_some hinc
      rw [Partition.canonical_size hp, hsize] at hs
      have hdiff := disagreement?_differs hw hc hsize hp ho hreason
      have hrep := repOf_canonical_isLeast hsize hp hs
      refine ⟨s, _, reason, rfl, hrep, ⟨⟨hs, _, hrep, hdiff.not_congruent⟩, ?_⟩, hdiff⟩
      rintro t ⟨ht, r, hr, hnot⟩
      by_contra hlt
      obtain rfl := hr.unique (repOf_canonical_isLeast hsize hp ht)
      exact hnot ((disagreement?_eq_none_iff hw hc hsize hp ho).1 (hbefore t (not_le.1 hlt)))
    · cases he.symm.trans hq

end Quotient

/-- The outcomes of a toss in one block, and three empty blocks. -/
def outcomes : Partition := ⟨#[3, 1, 1], 5⟩

/-- The outcomes are congruent as long as heads are not preserved: then the quotient tosses a coin
with one side. Otherwise tails differ from heads. -/
theorem coin_quotient_exact :
    (∃ q, quotient coin outcomes ⟨[], ["tosses"]⟩ = .ok q ∧
      IsQuotientBy coin outcomes ⟨[], ["tosses"]⟩ q ∧ q.stateMap = #[0, 1, 1] ∧
      q.model.row 0 = [(1, .const 1)] ∧ Congruent coin outcomes ⟨[], ["tosses"]⟩ 1 2) ∧
    ∃ reason, quotient coin outcomes ⟨["heads"], []⟩ = .error (.inconsistentBlock 1 2 1 reason) ∧
      Differs coin outcomes ⟨["heads"], []⟩ 2 1 reason := by
  have hbounded : outcomes.IsBounded := by
    unfold Partition.IsBounded
    decide
  constructor
  · have hq : quotient coin outcomes ⟨[], ["tosses"]⟩ =
        .ok ⟨⟨.dtmc, #[[(1, .const 1)], [(1, .const 1)]], [0], ⟨2, []⟩,
          [⟨"tosses", #[.const 1, .const 0]⟩]⟩, #[0, 1, 1]⟩ := by cbv
    have hcovers : Covers coin ⟨[], ["tosses"]⟩ := ⟨by simp, by simp [coin, Model.rewardModel?]⟩
    obtain ⟨hok, hquot, -⟩ := quotient_exact coin_wellFormed coin_isCanonical rfl hbounded hcovers
      (by decide) (by decide)
    exact ⟨_, hq, hquot _ hq, rfl, rfl, hok.1 ⟨_, hq⟩ 1 (by decide) 2 (by decide) rfl⟩
  · have he : quotient coin outcomes ⟨["heads"], []⟩ =
        .error (.inconsistentBlock 1 2 1 "label \"heads\"") := by cbv
    have hcovers : Covers coin ⟨["heads"], []⟩ := ⟨by simp [coin, Labeling.states?], by simp⟩
    obtain ⟨-, -, herror⟩ := quotient_exact coin_wellFormed coin_isCanonical rfl hbounded hcovers
      (by decide) (by decide)
    obtain ⟨s, r, reason, heq, -, -, hdiff⟩ := herror _ he
    obtain ⟨-, rfl, rfl, -⟩ := ReductionError.inconsistentBlock.inj heq
    exact ⟨reason, he.trans (congrArg _ heq), hdiff⟩

end Bisim
end MarkovCheck

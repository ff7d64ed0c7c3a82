import Mathlib
import MarkovCheck.Proofs.Bisim.Idempotent
import MarkovCheck.Proofs.Bisim.Joint
import MarkovCheck.Proofs.Chain.Union

/-!
# MarkovCheck.Proofs.Bisim.Compare

Comparing two models decides whether they are bisimilar.

The comparison minimises the disjoint union. Its states are those of the two models side by side, and
placing a state in the union and finding its origin are maps that keep observations and masses. So the
bisimulations of the union are those between the models, and the classes of the minimised union are
those of the largest one. Bisimilarity is an equivalence for reasons that do not involve the union,
and a model is related to its quotient by the map to the classes.

* `isMorphism_place`, `isMorphism_origin` — the union is the two models side by side.
* `reduce_classes`  — the classes of a minimised model are those of the largest bisimulation.
* `compare_spec`    — the comparison and bisimilarity.
* `AreBisimilar.refl`, `AreBisimilar.symm`, `AreBisimilar.trans` — bisimilarity is an equivalence.
* `IsQuotient.areBisimilar`, `IsQuotient.noCancelling` — a model and its quotient.
* `compare_decides` — all of it, in terms of answers.
-/

namespace MarkovCheck
namespace Bisim

variable {m l r s Q : Model RationalFunction} {o : Observed RationalFunction}
  {preserved : Preserved}

/-! ## The union side by side -/

/-- A family of one model. -/
def single (m : Model RationalFunction) : Unit → Model RationalFunction := fun _ => m

/-- The number of a state of one of two models in their union. -/
def place (l : Model RationalFunction) (x : Fin 2 × ℕ) : Unit × ℕ :=
  ((), if x.1 = 0 then x.2 else x.2 + l.numStates)

/-- The model and the state that a state of the union comes from. -/
def origin (l : Model RationalFunction) (y : Unit × ℕ) : Fin 2 × ℕ :=
  if y.2 < l.numStates then (0, y.2) else (1, y.2 - l.numStates)

theorem alike_left (hl : l.WellFormed) (h : Covers (l.disjointUnion r) preserved) {s : ℕ}
    (hs : s < l.numStates) : Alike preserved l s (l.disjointUnion r) s := by
  constructor
  case labels => exact fun name _ => (Labeling.has_append_left _ _ _ name hs).symm
  case rewards =>
    intro name hname
    obtain ⟨w, hw⟩ := h.rewards name hname
    rw [Model.rewardModel?_disjointUnion] at hw ⊢
    obtain ⟨a, ha, hab⟩ := Option.bind_eq_some_iff.1 hw
    obtain ⟨b, hb, -⟩ := Option.map_eq_some_iff.1 hab
    have hsize := hl.reward_size a (List.mem_of_find?_eq_some ha)
    rw [ha, hb]
    exact congrArg some (Model.value_append_left (hs.trans_eq hsize.symm)).symm

theorem alike_right (hl : l.WellFormed) (h : Covers (l.disjointUnion r) preserved) {s : ℕ}
    (hs : s < r.numStates) : Alike preserved r s (l.disjointUnion r) (s + l.numStates) := by
  constructor
  case labels => exact fun name _ => (Labeling.has_append_right _ _ _ name hs).symm
  case rewards =>
    intro name hname
    obtain ⟨w, hw⟩ := h.rewards name hname
    rw [Model.rewardModel?_disjointUnion] at hw ⊢
    obtain ⟨a, ha, hab⟩ := Option.bind_eq_some_iff.1 hw
    obtain ⟨b, hb, -⟩ := Option.map_eq_some_iff.1 hab
    rw [ha, hb, ← hl.reward_size a (List.mem_of_find?_eq_some ha)]
    exact congrArg some (Model.value_append_right a b name s).symm

/-- Placing states in the union keeps observations and masses. -/
theorem isMorphism_place (hl : l.WellFormed) (h : Covers (l.disjointUnion r) preserved) :
    IsMorphism preserved ![l, r] (single (l.disjointUnion r)) (place l) := by
  constructor
  case isState =>
    rintro ⟨i, s⟩ hx
    rw [IsState, single, Model.numStates_disjointUnion]
    fin_cases i
    · exact Nat.lt_add_right _ hx
    · have hx : s < r.numStates := hx
      change s + l.numStates < l.numStates + r.numStates
      omega
  case alike =>
    rintro ⟨i, s⟩ hx
    fin_cases i
    · exact alike_left hl h hx
    · exact alike_right hl h hx
  case mass_eq =>
    rintro ⟨i, s⟩ hx A
    fin_cases i
    · exact Model.expect_left r hx _
    · exact Model.expect_right l r s _

theorem origin_place {x : Fin 2 × ℕ} (hx : IsState ![l, r] x) : origin l (place l x) = x := by
  obtain ⟨i, s⟩ := x
  fin_cases i
  · exact if_pos hx
  · refine (if_neg (Nat.not_lt.2 (Nat.le_add_left _ _))).trans ?_
    exact Prod.ext rfl (Nat.add_sub_cancel s l.numStates)

theorem place_origin (l : Model RationalFunction) (y : Unit × ℕ) : place l (origin l y) = y := by
  obtain ⟨⟨⟩, s⟩ := y
  by_cases hs : s < l.numStates
  · simp [place, origin, hs]
  · simp [place, origin, hs, Nat.sub_add_cancel (Nat.not_lt.1 hs)]

/-- Finding the origin of states of the union keeps observations and masses. -/
theorem isMorphism_origin (hl : l.WellFormed) (hr : r.WellFormed)
    (h : Covers (l.disjointUnion r) preserved) :
    IsMorphism preserved (single (l.disjointUnion r)) ![l, r] (origin l) := by
  refine (isMorphism_place hl h).inverse (Fin.forall_fin_two.2 ⟨hl, hr⟩) ?_
    (fun y _ => place_origin l y) fun x hx => origin_place hx
  rintro ⟨⟨⟩, s⟩ hs
  rw [IsState, single, Model.numStates_disjointUnion] at hs
  by_cases hlt : s < l.numStates
  · have horigin : origin l ((), s) = (0, s) := if_pos hlt
    rw [horigin]
    exact hlt
  · have horigin : origin l ((), s) = (1, s - l.numStates) := if_neg hlt
    rw [horigin]
    change s - l.numStates < r.numStates
    omega

/-! ## The classes of a minimised model -/

/-- The classes of a minimised model are those of a bisimulation, and where no values cancel, of the
largest one. -/
theorem reduce_classes (hw : m.WellFormed) (hc : m.IsCanonical) (h : Covers m preserved)
    (a : Algorithm) : ∃ q, ∃ c : ℕ → ℕ, reduce m preserved .strong a = .ok q ∧
      (∀ s < m.numStates, q.stateMap[s]?.getD 0 = c s) ∧
      IsJointBisimulation (single m) preserved (Setoid.ker fun y => c y.2) ∧
      ((a = .worklist → m.NoCancelling) → ∀ R, IsJointBisimulation (single m) preserved R →
        ∀ s < m.numStates, ∀ t < m.numStates, R ((), s) ((), t) → c s = c t) := by
  obtain ⟨o, ho⟩ := observe_ok_iff.2 h
  obtain ⟨p, cache, hlabel, hd, hstable, hagree, hcoarsest⟩ := exists_run a hw hc ho
  obtain ⟨q, hq⟩ := quotientBuilder_finish hw o (a.run m p cache).canonical
    (blockSums m (a.run m p cache).canonical)
  have hiff : ∀ s < m.numStates, ∀ t < m.numStates, (a.run m p cache).canonical.block s =
      (a.run m p cache).canonical.block t ↔ (a.run m p cache).block s = (a.run m p cache).block t :=
    fun s hs t ht => Partition.canonical_block_eq_iff hd.isBounded (hs.trans_eq hd.size.symm)
      (ht.trans_eq hd.size.symm)
  refine ⟨⟨q, (a.run m p cache).canonical.blocks⟩, (a.run m p cache).canonical.block, ?_,
    fun _ _ => rfl, ⟨?_, ?_⟩, ?_⟩
  · simp only [reduce, hlabel]
    exact quotient_eq_of_finish hw hc hd hstable ho hagree hq
  · intro x y hx hy hxy
    exact (agree_iff_alike ho).1 (hagree x.2 hx y.2 hy ((hiff x.2 hx y.2 hy).1 hxy))
  · intro x y hx hy hxy z
    have hclass : {u | Setoid.ker (fun y : Unit × ℕ => (a.run m p cache).canonical.block y.2)
        z ((), u)} = {u | (a.run m p cache).canonical.block u =
          (a.run m p cache).canonical.block z.2} := by
      ext u
      exact eq_comm
    rw [hclass]
    exact (Model.total_eq_iff hc).2 (isStable_canonical hw hd hstable x.2 hx y.2 hy hxy _)
  · intro ha R hR s hs t ht hst
    refine (hiff s hs t ht).2 (hcoarsest ha (R.comap fun s => ((), s)) ?_ ?_ s hs t ht hst)
    · exact fun s hs t ht hst => (agree_iff_alike ho).2
        (hR.alike ((), s) ((), t) hs ht hst)
    · intro s hs t ht hst u
      exact (Model.total_eq_iff hc).1 (hR.total_eq ((), s) ((), t) hs ht hst ((), u))

/-! ## Bisimilar models -/

/-- There is a bisimulation between two models that relates every initial state of each of them to
one of the other. -/
def AreBisimilar (l r : Model RationalFunction) (preserved : Preserved) : Prop :=
  ∃ R : Setoid (Fin 2 × ℕ), IsJointBisimulation ![l, r] preserved R ∧
    (∀ s ∈ l.initial, ∃ t ∈ r.initial, R (0, s) (1, t)) ∧
    ∀ t ∈ r.initial, ∃ s ∈ l.initial, R (0, s) (1, t)

/-- A model that can be compared exactly: its values are stored in canonical form, and no values of a
state cancel. -/
structure IsComparable (m : Model RationalFunction) : Prop where
  wellFormed : m.WellFormed
  canonical : m.IsCanonical
  noCancelling : m.NoCancelling

theorem IsComparable.disjointUnion (hl : IsComparable l) (hr : IsComparable r) :
    IsComparable (l.disjointUnion r) where
  wellFormed := Model.disjointUnion_wellFormed hl.wellFormed hr.wellFormed
  canonical := Model.disjointUnion_isCanonical hl.canonical hr.canonical
  noCancelling := Model.disjointUnion_noCancelling hl.noCancelling hr.noCancelling

/-- What the union has: labels of one of the models, and reward models of both. -/
theorem covers_disjointUnion : Covers (l.disjointUnion r) preserved ↔
    (∀ name ∈ preserved.labels, name ∈ l.labeling.names ∨ name ∈ r.labeling.names) ∧
      ∀ name ∈ preserved.rewards, (∃ a, l.rewardModel? name = some a) ∧
        ∃ b, r.rewardModel? name = some b := by
  have hlabel : ∀ name, (∃ S, (l.disjointUnion r).labeling.states? name = some S) ↔
      name ∈ l.labeling.names ∨ name ∈ r.labeling.names := by
    intro name
    have := Labeling.states?_append l.labeling r.labeling l.numStates r.numStates name
    rw [Model.disjointUnion, this]
    split_ifs with h <;> simp [h]
  have hreward : ∀ name, (∃ w, (l.disjointUnion r).rewardModel? name = some w) ↔
      (∃ a, l.rewardModel? name = some a) ∧ ∃ b, r.rewardModel? name = some b := by
    intro name
    rw [Model.rewardModel?_disjointUnion]
    cases l.rewardModel? name <;> cases r.rewardModel? name <;> simp
  constructor
  · exact fun h => ⟨fun name hn => (hlabel name).1 (h.labels name hn),
      fun name hn => (hreward name).1 (h.rewards name hn)⟩
  · exact fun h => ⟨fun name hn => (hlabel name).2 (h.1 name hn),
      fun name hn => (hreward name).2 (h.2 name hn)⟩

/-- Two models can be compared when the union has what is preserved. -/
theorem covers_of_compare {b : Bool} (h : compare l r preserved = .ok b) :
    Covers (l.disjointUnion r) preserved := by
  unfold compare at h
  split at h
  · cases h
  · rename_i q hq
    exact covers_of_reduce hq

/-- The classes of two lists of states are the same when every state of each list has one of the other
in its class. -/
theorem sortStates_map_eq_iff {c d : ℕ → ℕ} {as bs : List ℕ} :
    Builder.sortStates (as.map c) = Builder.sortStates (bs.map d) ↔
      (∀ s ∈ as, ∃ t ∈ bs, c s = d t) ∧ ∀ t ∈ bs, ∃ s ∈ as, c s = d t := by
  have hmem : Builder.sortStates (as.map c) = Builder.sortStates (bs.map d) ↔
      ∀ b, b ∈ as.map c ↔ b ∈ bs.map d := by
    refine ⟨fun h b => ?_, fun h => ?_⟩
    · rw [← Builder.mem_sortStates, h, Builder.mem_sortStates]
    · refine eq_of_ascend (f := id) (Builder.sortStates_ascend _) (Builder.sortStates_ascend _) ?_
      exact fun b => by rw [Builder.mem_sortStates, h b, Builder.mem_sortStates]
  simp only [hmem, List.mem_map]
  constructor
  · intro h
    refine ⟨fun s hs => ?_, fun t ht => (h (d t)).2 ⟨t, ht, rfl⟩⟩
    obtain ⟨t, ht, heq⟩ := (h (c s)).1 ⟨s, hs, rfl⟩
    exact ⟨t, ht, heq.symm⟩
  · rintro ⟨h1, h2⟩ b
    constructor
    · rintro ⟨s, hs, rfl⟩
      obtain ⟨t, ht, heq⟩ := h1 s hs
      exact ⟨t, ht, heq.symm⟩
    · rintro ⟨t, ht, rfl⟩
      exact h2 t ht

/-- Comparing two models decides whether they are bisimilar. -/
theorem compare_spec (hl : IsComparable l) (hr : IsComparable r)
    (h : Covers (l.disjointUnion r) preserved) :
    ∃ b, compare l r preserved = .ok b ∧ (b = true ↔ AreBisimilar l r preserved) := by
  have hu := hl.disjointUnion hr
  have hcs : ∀ i, (![l, r] i).IsCanonical := Fin.forall_fin_two.2 ⟨hl.canonical, hr.canonical⟩
  have hcu : ∀ i, (single (l.disjointUnion r) i).IsCanonical := fun _ => hu.canonical
  obtain ⟨q, c, hq, hmap, hbis, hlargest⟩ := reduce_classes hu.wellFormed hu.canonical h .worklist
  have hlt : ∀ s ∈ l.initial, s < (l.disjointUnion r).numStates := fun s hs =>
    hu.wellFormed.initial_lt s (List.mem_append_left _ hs)
  have hlt' : ∀ t ∈ r.initial, t + l.numStates < (l.disjointUnion r).numStates := fun t ht =>
    hu.wellFormed.initial_lt _ (List.mem_append_right _ (List.mem_map_of_mem ht))
  refine ⟨_, by simp only [compare, hq]; rfl, ?_⟩
  have hleft : l.initial.map (fun s => q.stateMap[s]?.getD 0) = l.initial.map c :=
    List.map_congr_left fun s hs => hmap s (hlt s hs)
  have hright : (r.initial.map (· + l.numStates)).map (fun s => q.stateMap[s]?.getD 0) =
      r.initial.map fun t => c (t + l.numStates) := by
    rw [List.map_map]
    exact List.map_congr_left fun t ht => hmap _ (hlt' t ht)
  rw [beq_iff_eq, classesOf, classesOf, hleft, hright, sortStates_map_eq_iff]
  constructor
  · intro hinit
    exact ⟨_, hbis.comap hcs hcu (isMorphism_place hl.wellFormed h), hinit⟩
  · rintro ⟨R, hR, h1, h2⟩
    have hback := hR.comap hcu hcs (isMorphism_origin hl.wellFormed hr.wellFormed h)
    -- The largest bisimulation of the union contains the given one.
    have hclass : ∀ s ∈ l.initial, ∀ t ∈ r.initial, R (0, s) (1, t) → c s = c (t + l.numStates) := by
      intro s hs t ht hst
      refine hlargest (fun _ => hu.noCancelling) _ hback s (hlt s hs) _ (hlt' t ht) ?_
      have hs' : origin l ((), s) = (0, s) := if_pos (hl.wellFormed.initial_lt s hs)
      have ht' : origin l ((), t + l.numStates) = (1, t) :=
        origin_place (r := r) (x := (1, t)) (hr.wellFormed.initial_lt t ht)
      rwa [Setoid.comap_rel, hs', ht']
    constructor
    · intro s hs
      obtain ⟨t, ht, hst⟩ := h1 s hs
      exact ⟨t, ht, hclass s hs t ht hst⟩
    · intro t ht
      obtain ⟨s, hs, hst⟩ := h2 t ht
      exact ⟨s, hs, hclass s hs t ht hst⟩

/-! ## Bisimilarity is an equivalence -/

theorem forall_pair_isCanonical (hl : l.IsCanonical) (hr : r.IsCanonical) :
    ∀ i, (![l, r] i).IsCanonical := Fin.forall_fin_two.2 ⟨hl, hr⟩

theorem AreBisimilar.refl (hl : l.IsCanonical) (preserved : Preserved) :
    AreBisimilar l l preserved := by
  have hf : IsMorphism preserved ![l, l] (single l) fun x => ((), x.2) :=
    isMorphism_reindex (σ := fun _ => ()) (Fin.forall_fin_two.2 ⟨rfl, rfl⟩)
  refine ⟨_, (isJointBisimulation_bot (single l) preserved).comap
    (forall_pair_isCanonical hl hl) (fun _ => hl) hf, ?_, ?_⟩
  · exact fun s hs => ⟨s, hs, rfl⟩
  · exact fun t ht => ⟨t, ht, rfl⟩

theorem AreBisimilar.symm (hl : l.IsCanonical) (hr : r.IsCanonical)
    (h : AreBisimilar l r preserved) : AreBisimilar r l preserved := by
  obtain ⟨R, hR, h1, h2⟩ := h
  have hf : IsMorphism preserved ![r, l] ![l, r] fun x => (![1, 0] x.1, x.2) :=
    isMorphism_reindex (Fin.forall_fin_two.2 ⟨rfl, rfl⟩)
  refine ⟨_, hR.comap (forall_pair_isCanonical hr hl) (forall_pair_isCanonical hl hr) hf, ?_, ?_⟩
  · intro t ht
    obtain ⟨s, hs, hst⟩ := h2 t ht
    exact ⟨s, hs, R.symm hst⟩
  · intro s hs
    obtain ⟨t, ht, hst⟩ := h1 s hs
    exact ⟨t, ht, R.symm hst⟩

/-- Two bisimulations that share a model are placed side by side in the family of all three models,
and what they generate there is restricted to the other two. -/
theorem AreBisimilar.trans (hl : IsComparable l) (hr : IsComparable r) (hs : IsComparable s)
    (h : AreBisimilar l r preserved) (h' : AreBisimilar r s preserved) :
    AreBisimilar l s preserved := by
  obtain ⟨R, hR, h1, h2⟩ := h
  obtain ⟨R', hR', h1', h2'⟩ := h'
  have hf : IsMorphism preserved ![l, r] ![l, r, s] fun x => (![0, 1] x.1, x.2) :=
    isMorphism_reindex (Fin.forall_fin_two.2 ⟨rfl, rfl⟩)
  have hf' : IsMorphism preserved ![r, s] ![l, r, s] fun x => (![1, 2] x.1, x.2) :=
    isMorphism_reindex (Fin.forall_fin_two.2 ⟨rfl, rfl⟩)
  have hf'' : IsMorphism preserved ![l, s] ![l, r, s] fun x => (![0, 2] x.1, x.2) :=
    isMorphism_reindex (Fin.forall_fin_two.2 ⟨rfl, rfl⟩)
  have hc : ∀ i, (![l, r, s] i).IsCanonical :=
    Fin.forall_fin_succ.2 ⟨hl.canonical, forall_pair_isCanonical hr.canonical hs.canonical⟩
  -- Pairs of both, among the states of all three models.
  let G : Fin 3 × ℕ → Fin 3 × ℕ → Prop := fun u v =>
    (∃ x y, IsState ![l, r] x ∧ IsState ![l, r] y ∧ R x y ∧
      u = (![0, 1] x.1, x.2) ∧ v = (![0, 1] y.1, y.2)) ∨
    ∃ x y, IsState ![r, s] x ∧ IsState ![r, s] y ∧ R' x y ∧
      u = (![1, 2] x.1, x.2) ∧ v = (![1, 2] y.1, y.2)
  have hG : IsJointBisimulation ![l, r, s] preserved (Relation.EqvGen.setoid G) := by
    refine isJointBisimulation_eqvGen hc fun u v huv => ?_
    rcases huv with ⟨x, y, hx, hy, hxy, rfl, rfl⟩ | ⟨x, y, hx, hy, hxy, rfl, rfl⟩
    · obtain ⟨halike, hmass⟩ := hf.generates (Fin.forall_fin_two.2 ⟨hl.wellFormed, hr.wellFormed⟩)
        (forall_pair_isCanonical hl.canonical hr.canonical) hR hx hy hxy
      exact ⟨halike, fun A hA => hmass A fun u v hu hv huv =>
        hA _ _ (.inl ⟨u, v, hu, hv, huv, rfl, rfl⟩)⟩
    · obtain ⟨halike, hmass⟩ := hf'.generates (Fin.forall_fin_two.2 ⟨hr.wellFormed, hs.wellFormed⟩)
        (forall_pair_isCanonical hr.canonical hs.canonical) hR' hx hy hxy
      exact ⟨halike, fun A hA => hmass A fun u v hu hv huv =>
        hA _ _ (.inr ⟨u, v, hu, hv, huv, rfl, rfl⟩)⟩
  -- A state of the model in the middle links the others.
  have hchain : ∀ x ∈ l.initial, ∀ y ∈ r.initial, ∀ z ∈ s.initial, R (0, x) (1, y) →
      R' (0, y) (1, z) → Relation.EqvGen G (0, x) (2, z) := by
    intro x hx y hy z hz hxy hyz
    have hx := hl.wellFormed.initial_lt x hx
    have hy := hr.wellFormed.initial_lt y hy
    have hz := hs.wellFormed.initial_lt z hz
    exact .trans _ (1, y) _ (.rel _ _ (.inl ⟨(0, x), (1, y), hx, hy, hxy, rfl, rfl⟩))
      (.rel _ _ (.inr ⟨(0, y), (1, z), hy, hz, hyz, rfl, rfl⟩))
  refine ⟨_, hG.comap (forall_pair_isCanonical hl.canonical hs.canonical) hc hf'', ?_, ?_⟩
  · intro x hx
    obtain ⟨y, hy, hxy⟩ := h1 x hx
    obtain ⟨z, hz, hyz⟩ := h1' y hy
    exact ⟨z, hz, hchain x hx y hy z hz hxy hyz⟩
  · intro z hz
    obtain ⟨y, hy, hyz⟩ := h2' z hz
    obtain ⟨x, hx, hxy⟩ := h2 y hy
    exact ⟨x, hx, hchain x hx y hy z hz hxy hyz⟩

/-! ## A model and its quotient -/

/-- A state and its class are alike. -/
theorem IsQuotient.alike {c : ℕ → ℕ} (h : IsQuotient m Q o c) (ho : observe m preserved = .ok o)
    {s : ℕ} (hs : s < m.numStates) : Alike preserved m s Q (c s) := by
  obtain ⟨⟨hnames, hlabels⟩, hrnames, hrewards⟩ := observe_spec ho
  constructor
  case labels =>
    rw [← hnames, List.forall_mem_map]
    intro d hd
    obtain ⟨S, hS, hcontains⟩ := h.labels d hd
    rw [Labeling.has, hlabels d hd, Labeling.has, hS]
    exact (hcontains s hs).symm
  case rewards =>
    rw [← hrnames, List.forall_mem_map]
    intro w hw
    obtain ⟨f, hf, hvalues⟩ := h.rewards
    obtain ⟨hname, hvalue⟩ := hvalues w hw
    have hmem : f w ∈ Q.rewards := hf ▸ List.mem_map_of_mem hw
    rw [hrewards w hw, ← hname, Model.rewardModel?_of_mem h.wellFormed.reward_names hmem]
    exact congrArg some (hvalue s hs).symm

/-- The quotient has what is observed. -/
theorem IsQuotient.covers {c : ℕ → ℕ} (h : IsQuotient m Q o c) (ho : observe m preserved = .ok o) :
    Covers Q preserved := by
  obtain ⟨⟨hnames, -⟩, hrnames, -⟩ := observe_spec ho
  constructor
  case labels =>
    rw [← hnames, List.forall_mem_map]
    intro d hd
    obtain ⟨S, hS, -⟩ := h.labels d hd
    exact ⟨S, hS⟩
  case rewards =>
    rw [← hrnames, List.forall_mem_map]
    intro w hw
    obtain ⟨f, hf, hvalues⟩ := h.rewards
    have hmem : f w ∈ Q.rewards := hf ▸ List.mem_map_of_mem hw
    rw [← (hvalues w hw).1]
    exact ⟨f w, Model.rewardModel?_of_mem h.wellFormed.reward_names hmem⟩

/-- The values of a quotient are masses, which do not cancel when values do not. -/
theorem IsQuotient.noCancelling {c : ℕ → ℕ} (h : IsQuotient m Q o c) (hc : m.IsCanonical)
    (hpos : m.NoCancelling) : Q.NoCancelling := by
  refine Model.noCancelling_of_mass h.wellFormed h.canonical fun b hb A hA => ?_
  obtain ⟨s, hs, rfl⟩ := h.surj b hb
  obtain ⟨e, he, heA⟩ := hA
  have hne := ((h.row s hs e.1 e.2).1 he).2
  obtain ⟨d, hd, hde⟩ := (hpos.mass_ne_zero_iff hc hs).1 hne
  have hde : c d.1 = e.1 := hde
  rw [h.mass_eq hc hs, hpos.mass_ne_zero_iff hc hs]
  refine ⟨d, hd, ?_⟩
  rwa [Set.mem_ofPred_eq, hde]

/-- A model is bisimilar to its quotient: the classes are a map to it. -/
theorem IsQuotient.areBisimilar {c : ℕ → ℕ} (h : IsQuotient m Q o c) (hc : m.IsCanonical)
    (ho : observe m preserved = .ok o)
    (hinitial : ∀ b, b ∈ Q.initial ↔ ∃ s ∈ m.initial, c s = b) : AreBisimilar m Q preserved := by
  have hf : IsMorphism preserved ![m, Q] (single Q)
      fun x => ((), if x.1 = 0 then c x.2 else x.2) := by
    constructor
    case isState =>
      rintro ⟨i, s⟩ hx
      fin_cases i
      · exact h.lt s hx
      · exact hx
    case alike =>
      rintro ⟨i, s⟩ hx
      fin_cases i
      · exact h.alike ho hx
      · exact .refl preserved Q s
    case mass_eq =>
      rintro ⟨i, s⟩ hx A
      fin_cases i
      · exact h.mass_eq hc hx _
      · rfl
  refine ⟨_, (isJointBisimulation_bot (single Q) preserved).comap
    (forall_pair_isCanonical hc h.canonical) (fun _ => h.canonical) hf, ?_, ?_⟩
  · exact fun s hs => ⟨c s, (hinitial _).2 ⟨s, hs, rfl⟩, rfl⟩
  · intro b hb
    obtain ⟨s, hs, rfl⟩ := (hinitial b).1 hb
    exact ⟨s, hs, rfl⟩

/-- What minimisation returns can be compared with the model, and is bisimilar to it. -/
theorem reduce_areBisimilar (hm : IsComparable m) (hlabels : preserved.labels.Nodup)
    (hrewards : preserved.rewards.Nodup) {a : Algorithm} {q : Quotient RationalFunction}
    (hq : reduce m preserved .strong a = .ok q) :
    IsComparable q.model ∧ Covers m preserved ∧ Covers q.model preserved ∧
      AreBisimilar m q.model preserved := by
  have hcovers := covers_of_reduce hq
  obtain ⟨o, ho⟩ := observe_ok_iff.2 hcovers
  obtain ⟨q', c, hq', hquot, hinitial, -⟩ :=
    reduce_spec a hm.wellFormed hm.canonical hlabels hrewards ho
  obtain rfl : q' = q := Except.ok.inj (hq'.symm.trans hq)
  exact ⟨⟨hquot.wellFormed, hquot.canonical, hquot.noCancelling hm.canonical hm.noCancelling⟩, hcovers,
    hquot.covers ho, hquot.areBisimilar hm.canonical ho hinitial⟩

/-! ## Answers -/

/-- Comparing two models in which no values cancel decides bisimilarity, whenever there is an answer.
So the answers are reflexive, symmetric and transitive, and a model is found bisimilar to what
minimisation makes of it. -/
theorem compare_decides (preserved : Preserved) :
    (∀ l r, IsComparable l → IsComparable r → ∀ b, compare l r preserved = .ok b →
      (b = true ↔ AreBisimilar l r preserved)) ∧
    (∀ l, IsComparable l → ∀ b, compare l l preserved = .ok b → b = true) ∧
    (∀ l r, IsComparable l → IsComparable r → ∀ b, compare l r preserved = .ok b →
      compare r l preserved = .ok b) ∧
    (∀ l r s, IsComparable l → IsComparable r → IsComparable s →
      compare l r preserved = .ok true → compare r s preserved = .ok true →
        ∀ b, compare l s preserved = .ok b → b = true) ∧
    ∀ m, IsComparable m → preserved.labels.Nodup → preserved.rewards.Nodup →
      ∀ a q, reduce m preserved .strong a = .ok q → compare m q.model preserved = .ok true := by
  have hdecides : ∀ l r, IsComparable l → IsComparable r → ∀ b, compare l r preserved = .ok b →
      (b = true ↔ AreBisimilar l r preserved) := by
    intro l r hl hr b hb
    obtain ⟨b', hb', hiff⟩ := compare_spec hl hr (covers_of_compare hb)
    cases hb.symm.trans hb'
    exact hiff
  refine ⟨hdecides, ?_, ?_, ?_, ?_⟩
  · exact fun l hl b hb => (hdecides l l hl hl b hb).2 (.refl hl.canonical preserved)
  · intro l r hl hr b hb
    have hcovers : Covers (r.disjointUnion l) preserved := by
      obtain ⟨h1, h2⟩ := covers_disjointUnion.1 (covers_of_compare hb)
      exact covers_disjointUnion.2 ⟨fun name hn => (h1 name hn).symm, fun name hn => (h2 name hn).symm⟩
    obtain ⟨b', hb', hiff⟩ := compare_spec hr hl hcovers
    have hsymm : AreBisimilar r l preserved ↔ AreBisimilar l r preserved :=
      ⟨.symm hr.canonical hl.canonical, .symm hl.canonical hr.canonical⟩
    rw [hb', Bool.eq_iff_iff.2 (hiff.trans (hsymm.trans (hdecides l r hl hr b hb).symm))]
  · intro l r s hl hr hs h1 h2 b hb
    exact (hdecides l s hl hs b hb).2 (.trans hl hr hs ((hdecides l r hl hr _ h1).1 rfl)
      ((hdecides r s hr hs _ h2).1 rfl))
  · intro m hm hlabels hrewards a q hq
    obtain ⟨hQ, h1, h2, hbis⟩ := reduce_areBisimilar hm hlabels hrewards hq
    have hcovers : Covers (m.disjointUnion q.model) preserved := by
      refine covers_disjointUnion.2 ⟨fun name hn => .inl ?_, fun name hn =>
        ⟨h1.rewards name hn, h2.rewards name hn⟩⟩
      obtain ⟨S, hS⟩ := h1.labels name hn
      exact Labeling.contains_iff.1 (Option.isSome_iff_exists.2 ⟨S, hS⟩)
    obtain ⟨b, hb, hiff⟩ := compare_spec hm hQ hcovers
    rw [hb, hiff.2 hbis]

/-- A coin compares equal to itself and to its quotient. -/
theorem coin_compare_decides :
    compare coin coin ⟨["heads"], ["tosses"]⟩ = .ok true ∧
      ∃ q, reduce coin ⟨["heads"], ["tosses"]⟩ .strong .worklist = .ok q ∧
        compare coin q.model ⟨["heads"], ["tosses"]⟩ = .ok true := by
  have hcoin : IsComparable coin := ⟨coin_wellFormed, coin_isCanonical, coin_noCancelling⟩
  have hcovers : Covers coin ⟨["heads"], ["tosses"]⟩ :=
    ⟨by simp [coin, Labeling.states?], by simp [coin, Model.rewardModel?]⟩
  obtain ⟨-, hrefl, -, -, hquotient⟩ := compare_decides ⟨["heads"], ["tosses"]⟩
  constructor
  · have hunion : Covers (coin.disjointUnion coin) ⟨["heads"], ["tosses"]⟩ :=
      covers_disjointUnion.2 ⟨by simp [coin, Labeling.names], by simp [coin, Model.rewardModel?]⟩
    obtain ⟨b, hb, -⟩ := compare_spec hcoin hcoin hunion
    rw [hb, hrefl coin hcoin b hb]
  · obtain ⟨q, hq⟩ := reduce_ok .worklist coin_wellFormed coin_isCanonical hcovers
    exact ⟨q, hq, hquotient coin hcoin (by decide) (by decide) _ q hq⟩

end Bisim
end MarkovCheck

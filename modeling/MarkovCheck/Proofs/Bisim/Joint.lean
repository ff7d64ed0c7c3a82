import Mathlib
import MarkovCheck.Proofs.Bisim.Consistent

/-!
# MarkovCheck.Proofs.Bisim.Joint

Bisimulations between the states of several models.

The models of a family stand side by side: a state of them is an index and a state of the model at
this index, and it keeps its transitions. A bisimulation is an equivalence of these states. Maps
between families that keep observations and masses, such as placing a model in a larger family or
mapping states to their classes, carry bisimulations back along them; carried forward, a bisimulation
generates one. This is what the algebra of bisimilarity needs, and no algorithm is mentioned.

* `IsJointBisimulation` — the relation.
* `IsJointBisimulation.mass_eq` — related states have equal masses on unions of classes.
* `isJointBisimulation_eqvGen` — bisimulation up to equivalence.
* `IsMorphism`, `IsJointBisimulation.comap`, `IsMorphism.generates` — maps between families.
-/

namespace MarkovCheck
namespace Bisim

variable {ι κ : Type*} {M : ι → Model RationalFunction} {N : κ → Model RationalFunction}
  {preserved : Preserved}

/-! ## Alike states -/

section Alike

variable {m m' m'' : Model RationalFunction} {s t u : ℕ}

theorem Alike.refl (preserved : Preserved) (m : Model RationalFunction) (s : ℕ) :
    Alike preserved m s m s := ⟨fun _ _ => rfl, fun _ _ => rfl⟩

theorem Alike.symm (h : Alike preserved m s m' t) : Alike preserved m' t m s :=
  ⟨fun name hn => (h.labels name hn).symm, fun name hn => (h.rewards name hn).symm⟩

theorem Alike.trans (h : Alike preserved m s m' t) (h' : Alike preserved m' t m'' u) :
    Alike preserved m s m'' u :=
  ⟨fun name hn => (h.labels name hn).trans (h'.labels name hn),
    fun name hn => (h.rewards name hn).trans (h'.rewards name hn)⟩

end Alike

/-! ## The relation -/

/-- A state of one of the models. -/
def IsState (M : ι → Model RationalFunction) (x : ι × ℕ) : Prop := x.2 < (M x.1).numStates

/-- An equivalence of the states of several models whose related states carry the same preserved
labels, have the same preserved rewards, and have equal total values into every class. -/
structure IsJointBisimulation (M : ι → Model RationalFunction) (preserved : Preserved)
    (r : Setoid (ι × ℕ)) : Prop where
  alike : ∀ x y, IsState M x → IsState M y → r x y → Alike preserved (M x.1) x.2 (M y.1) y.2
  total_eq : ∀ x y, IsState M x → IsState M y → r x y → ∀ z,
    (M x.1).total x.2 {u | r z (x.1, u)} = (M y.1).total y.2 {u | r z (y.1, u)}

/-- The mass of a set of states of several models, at a state of one of them. -/
noncomputable def jointMass (M : ι → Model RationalFunction) (x : ι × ℕ) (A : Set (ι × ℕ)) : Frac :=
  (M x.1).mass x.2 {u | (x.1, u) ∈ A}

theorem jointMass_congr (hw : ∀ i, (M i).WellFormed) {x : ι × ℕ} {A B : Set (ι × ℕ)}
    (h : ∀ y, IsState M y → (y ∈ A ↔ y ∈ B)) : jointMass M x A = jointMass M x B :=
  Model.mass_congr fun e he => h (x.1, e.1) ((hw x.1).targets_lt x.2 e he)

/-- Related states have equal masses on every set of states that is a union of classes. -/
theorem IsJointBisimulation.mass_eq (hw : ∀ i, (M i).WellFormed) (hc : ∀ i, (M i).IsCanonical)
    {r : Setoid (ι × ℕ)} (h : IsJointBisimulation M preserved r) {x y : ι × ℕ} (hx : IsState M x)
    (hy : IsState M y) (hxy : r x y) {A : Set (ι × ℕ)}
    (hA : ∀ u v, IsState M u → IsState M v → r u v → u ∈ A → v ∈ A) :
    jointMass M x A = jointMass M y A := by
  classical
  have hclass : ∀ u v, Quot.mk r v = Quot.mk r u ↔ r u v := fun u v =>
    (Quot.eq.trans r.iseqv.eqvGen_iff).trans ⟨r.symm, r.symm⟩
  -- The colour of a state is its class, and the set is determined by the colours in it.
  let g : Quot r → Frac := fun b => if ∃ u, IsState M u ∧ u ∈ A ∧ Quot.mk r u = b then 1 else 0
  have hg : ∀ z : ι × ℕ, ∀ e ∈ (M z.1).row z.2,
      Set.indicator {u | (z.1, u) ∈ A} 1 e.1 = g (Quot.mk r (z.1, e.1)) := by
    intro z e he
    have hstate : IsState M (z.1, e.1) := (hw z.1).targets_lt z.2 e he
    have hiff : (∃ u, IsState M u ∧ u ∈ A ∧ Quot.mk r u = Quot.mk r (z.1, e.1)) ↔
        (z.1, e.1) ∈ A := by
      constructor
      · rintro ⟨u, hu, huA, hur⟩
        exact hA u _ hu hstate (r.symm ((hclass _ _).1 hur)) huA
      · exact fun hmem => ⟨_, hstate, hmem, rfl⟩
    simp only [g, hiff, Set.indicator_apply, Set.mem_ofPred_eq, Pi.one_apply]
  refine Model.expect_eq_of_colours (c := fun u => Quot.mk r (x.1, u))
    (d := fun u => Quot.mk r (y.1, u)) (Quot.ind fun z => ?_) (hg x) (hg y)
  have hset : ∀ i, {u | Quot.mk r (i, u) = Quot.mk r z} = {u | r z (i, u)} := by
    intro i
    ext u
    exact hclass z (i, u)
  rw [hset, hset]
  exact (Model.total_eq_total_iff (hc x.1) (hc y.1)).1 (h.total_eq x y hx hy hxy z)

/-- Bisimulation up to equivalence: a relation generates a bisimulation when related states are alike
and have equal masses on every set that does not separate related states. -/
theorem isJointBisimulation_eqvGen (hc : ∀ i, (M i).IsCanonical) {G : ι × ℕ → ι × ℕ → Prop}
    (h : ∀ x y, G x y → Alike preserved (M x.1) x.2 (M y.1) y.2 ∧
      ∀ A : Set (ι × ℕ), (∀ u v, G u v → (u ∈ A ↔ v ∈ A)) → jointMass M x A = jointMass M y A) :
    IsJointBisimulation M preserved (Relation.EqvGen.setoid G) := by
  have hgen : ∀ x y, Relation.EqvGen G x y → Alike preserved (M x.1) x.2 (M y.1) y.2 ∧
      ∀ A : Set (ι × ℕ), (∀ u v, G u v → (u ∈ A ↔ v ∈ A)) →
        jointMass M x A = jointMass M y A := by
    intro x y hxy
    induction hxy with
    | rel x y hxy => exact h x y hxy
    | refl x => exact ⟨.refl preserved _ _, fun _ _ => rfl⟩
    | symm x y _ ih => exact ⟨ih.1.symm, fun A hA => (ih.2 A hA).symm⟩
    | trans x y z _ _ ih ih' =>
      exact ⟨ih.1.trans ih'.1, fun A hA => (ih.2 A hA).trans (ih'.2 A hA)⟩
  refine ⟨fun x y _ _ hxy => (hgen x y hxy).1, fun x y _ _ hxy z => ?_⟩
  rw [Model.total_eq_total_iff (hc x.1) (hc y.1)]
  refine (hgen x y hxy).2 {u | Relation.EqvGen G z u} fun u v huv => ?_
  exact ⟨fun hzu => hzu.trans _ _ _ (.rel _ _ huv),
    fun hzv => hzv.trans _ _ _ (.symm _ _ (.rel _ _ huv))⟩

/-- Equality is a bisimulation. -/
theorem isJointBisimulation_bot (M : ι → Model RationalFunction) (preserved : Preserved) :
    IsJointBisimulation M preserved ⊥ := by
  constructor
  case alike =>
    rintro x y - - (rfl : x = y)
    exact .refl preserved _ _
  case total_eq =>
    rintro x y - - (rfl : x = y) z
    rfl

/-! ## Maps between families -/

/-- A map of states to alike states with the same masses. -/
structure IsMorphism (preserved : Preserved) (M : ι → Model RationalFunction)
    (N : κ → Model RationalFunction) (f : ι × ℕ → κ × ℕ) : Prop where
  isState : ∀ x, IsState M x → IsState N (f x)
  alike : ∀ x, IsState M x → Alike preserved (M x.1) x.2 (N (f x).1) (f x).2
  mass_eq : ∀ x, IsState M x → ∀ A, jointMass N (f x) A = jointMass M x (Set.preimage f A)

/-- Bisimulations are carried back. -/
theorem IsJointBisimulation.comap (hc : ∀ i, (M i).IsCanonical) (hc' : ∀ i, (N i).IsCanonical)
    {f : ι × ℕ → κ × ℕ} (hf : IsMorphism preserved M N f) {r : Setoid (κ × ℕ)}
    (h : IsJointBisimulation N preserved r) : IsJointBisimulation M preserved (r.comap f) := by
  constructor
  case alike =>
    intro x y hx hy hxy
    have := h.alike _ _ (hf.isState x hx) (hf.isState y hy) hxy
    exact ((hf.alike x hx).trans this).trans (hf.alike y hy).symm
  case total_eq =>
    intro x y hx hy hxy z
    have := h.total_eq _ _ (hf.isState x hx) (hf.isState y hy) hxy (f z)
    rw [Model.total_eq_total_iff (hc' _) (hc' _)] at this
    rw [Model.total_eq_total_iff (hc _) (hc _)]
    exact ((hf.mass_eq x hx {u | r (f z) u}).symm.trans this).trans (hf.mass_eq y hy _)

/-- What a bisimulation that is carried forward contributes to a generated one. -/
theorem IsMorphism.generates (hw : ∀ i, (M i).WellFormed) (hc : ∀ i, (M i).IsCanonical)
    {f : ι × ℕ → κ × ℕ} (hf : IsMorphism preserved M N f) {r : Setoid (ι × ℕ)}
    (h : IsJointBisimulation M preserved r) {x y : ι × ℕ} (hx : IsState M x) (hy : IsState M y)
    (hxy : r x y) : Alike preserved (N (f x).1) (f x).2 (N (f y).1) (f y).2 ∧
      ∀ A : Set (κ × ℕ), (∀ u v, IsState M u → IsState M v → r u v → (f u ∈ A ↔ f v ∈ A)) →
        jointMass N (f x) A = jointMass N (f y) A := by
  refine ⟨((hf.alike x hx).symm.trans (h.alike x y hx hy hxy)).trans (hf.alike y hy), ?_⟩
  intro A hA
  rw [hf.mass_eq x hx, hf.mass_eq y hy]
  exact h.mass_eq hw hc hx hy hxy fun u v hu hv huv => (hA u v hu hv huv).1

/-- Models may be placed in a larger family. -/
theorem isMorphism_reindex {σ : ι → κ} (h : ∀ i, N (σ i) = M i) :
    IsMorphism preserved M N fun x => (σ x.1, x.2) := by
  obtain rfl : M = N ∘ σ := funext fun i => (h i).symm
  exact ⟨fun _ hx => hx, fun _ _ => .refl preserved _ _, fun _ _ _ => rfl⟩

/-- The inverse of a map that keeps observations and masses keeps them, too. -/
theorem IsMorphism.inverse (hw : ∀ i, (M i).WellFormed) {f : ι × ℕ → κ × ℕ}
    (hf : IsMorphism preserved M N f) {g : κ × ℕ → ι × ℕ} (hg : ∀ y, IsState N y → IsState M (g y))
    (hfg : ∀ y, IsState N y → f (g y) = y) (hgf : ∀ x, IsState M x → g (f x) = x) :
    IsMorphism preserved N M g := by
  constructor
  case isState => exact hg
  case alike =>
    intro y hy
    have := (hf.alike (g y) (hg y hy)).symm
    rwa [hfg y hy] at this
  case mass_eq =>
    intro y hy A
    have := hf.mass_eq (g y) (hg y hy) (Set.preimage g A)
    rw [hfg y hy] at this
    rw [this]
    refine jointMass_congr hw fun x hx => ?_
    rw [Set.mem_preimage, Set.mem_preimage, hgf x hx]

end Bisim
end MarkovCheck

import Mathlib
import MarkovCheck.Proofs.Chain.Mass
import MarkovCheck.Proofs.Partition.Basic

/-!
# MarkovCheck.Proofs.Bisim.Bisimulation

Bisimulations of a chain, and what it means for a partition to be the coarsest one.

A bisimulation inside a partition is an equivalence of the states that is contained in it and whose
related states have equal total values into every class. The masses of related states then agree on
every set that is a union of classes, in particular on the blocks of a coarser partition. So a
refinement that only separates states by the masses of blocks never separates bisimilar states.

* `IsBisimulation`, `Bisimilar` — the relations, and their union.
* `IsStable`     — states of one block have equal masses on every block.
* `IsCoarsest`   — a partition is the largest bisimulation inside another one.
-/

namespace MarkovCheck
namespace Bisim

/-- An equivalence of the states of a model, contained in a partition, whose related states have
equal total values into every class. -/
structure IsBisimulation (m : Model RationalFunction) (p : Partition) (r : Setoid ℕ) : Prop where
  contained : ∀ s < m.numStates, ∀ t < m.numStates, r s t → p.block s = p.block t
  total_eq : ∀ s < m.numStates, ∀ t < m.numStates, r s t →
    ∀ u, m.total s {v | r u v} = m.total t {v | r u v}

/-- Two states are related by a bisimulation inside a partition. -/
def Bisimilar (m : Model RationalFunction) (p : Partition) (s t : ℕ) : Prop :=
  ∃ r : Setoid ℕ, IsBisimulation m p r ∧ r s t

/-- States of one block have equal masses on every block. -/
def IsStable (m : Model RationalFunction) (p : Partition) : Prop :=
  ∀ s < m.numStates, ∀ t < m.numStates, p.block s = p.block t → m.SameMasses p.block s t

/-- Bisimilar states share a block. -/
def Respects (m : Model RationalFunction) (p q : Partition) : Prop :=
  ∀ r, IsBisimulation m p r → ∀ s < m.numStates, ∀ t < m.numStates, r s t → q.block s = q.block t

/-- `q` is the coarsest partition that refines `p` and whose states of one block have equal total
values into every block. -/
structure IsCoarsest (m : Model RationalFunction) (p q : Partition) : Prop where
  isBisimulation : IsBisimulation m p (Setoid.ker q.block)
  respects : Respects m p q

section

variable {m : Model RationalFunction} {p q : Partition} {r : Setoid ℕ} {s t : ℕ}

/-- Related states have equal masses on every set of states that is a union of classes. -/
theorem IsBisimulation.mass_eq (hw : m.WellFormed) (hc : m.IsCanonical)
    (hr : IsBisimulation m p r) (hs : s < m.numStates) (ht : t < m.numStates) (hst : r s t)
    {A : Set ℕ}
    (hA : ∀ u < m.numStates, ∀ v < m.numStates, r u v → u ∈ A → v ∈ A) :
    m.mass s A = m.mass t A := by
  have hclass : ∀ u v, Quot.mk r v = Quot.mk r u ↔ r v u := fun u v =>
    Quot.eq.trans r.iseqv.eqvGen_iff
  refine Model.mass_eq_of_masses hw (c := Quot.mk r) (Quot.ind fun u => ?_) ?_
  · have hset : {v | Quot.mk r v = Quot.mk r u} = {v | r u v} := by
      ext v
      rw [Set.mem_ofPred_eq, hclass]
      exact ⟨r.symm, r.symm⟩
    rw [hset]
    exact (Model.total_eq_iff hc).1 (hr.total_eq s hs t ht hst u)
  · intro u hu v hv huv
    exact hA u hu v hv ((hclass v u).1 huv)

/-- Related states have equal masses on the blocks of a partition that contains the bisimulation. -/
theorem IsBisimulation.sameMasses (hw : m.WellFormed) (hc : m.IsCanonical)
    (hr : IsBisimulation m p r) (hs : s < m.numStates) (ht : t < m.numStates) (hst : r s t)
    (hq : ∀ u < m.numStates, ∀ v < m.numStates, r u v → q.block u = q.block v) :
    m.SameMasses q.block s t := fun _ =>
  hr.mass_eq hw hc hs ht hst fun u hu v hv huv h => (hq u hu v hv huv).symm.trans h

/-- A stable partition is a bisimulation inside every coarser one. -/
theorem isBisimulation_of_isStable (hc : m.IsCanonical) (hq : IsStable m q)
    (h : q.Refines p m.numStates) : IsBisimulation m p (Setoid.ker q.block) where
  contained := h
  total_eq s hs t ht hst u := by
    have hclass : {v | Setoid.ker q.block u v} = {v | q.block v = q.block u} := by
      ext v
      exact eq_comm
    rw [hclass, Model.total_eq_iff hc]
    exact hq s hs t ht hst _

theorem isCoarsest_of_isStable (hc : m.IsCanonical) (hq : IsStable m q)
    (h : q.Refines p m.numStates) (hr : Respects m p q) : IsCoarsest m p q :=
  ⟨isBisimulation_of_isStable hc hq h, hr⟩

/-- The blocks of the coarsest partition are the classes of bisimilar states. -/
theorem IsCoarsest.block_eq_iff (h : IsCoarsest m p q) (hs : s < m.numStates)
    (ht : t < m.numStates) : q.block s = q.block t ↔ Bisimilar m p s t := by
  constructor
  · intro hst
    exact ⟨_, h.isBisimulation, hst⟩
  · rintro ⟨r, hr, hst⟩
    exact h.respects r hr s hs t ht hst

end
end Bisim
end MarkovCheck

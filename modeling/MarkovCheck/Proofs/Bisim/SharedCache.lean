import Mathlib
import MarkovCheck.Proofs.Bisim.Signature
import MarkovCheck.Proofs.Chain.Evaluated

/-!
# MarkovCheck.Proofs.Bisim.SharedCache

Signatures that are computed with one cache, while other values are inserted into it.

Computing a signature is a run of insertions, one for each total into a block. So two signatures and whatever is
inserted before, between and after them are a single run, after which all values are known by the indices that
they were given. As no two values share an index, equal signatures stand for equal totals, although the cache
has grown from one to the other.

* `signature_eq_insertAll` — a signature as a run of insertions.
* `signature_eq_iff`       — signatures with other insertions in between.
* `signatures_interned`    — the comparison of the signatures, and the indices of the whole run.
-/

namespace MarkovCheck
namespace Bisim

variable {m : Model RationalFunction} {p : Partition} {s t : ℕ}

/-- The totals into the blocks, in the order in which they are interned. -/
def blockTotals (m : Model RationalFunction) (p : Partition) (s : ℕ) : List RationalFunction :=
  (blockSums m p s).map (·.2)

/-- A signature inserts the totals of its state, and nothing else. -/
theorem signature_eq_insertAll (m : Model RationalFunction) (p : Partition)
    (c : ValueCache RationalFunction) (s : ℕ) :
    (signature m p c s).1.map (·.2) = (c.insertAll (blockTotals m p s)).1 ∧
      (signature m p c s).2 = (c.insertAll (blockTotals m p s)).2 := by
  rw [signature, intern_eq_insertAll]
  refine ⟨List.map_snd_zip ?_, rfl⟩
  simp [ValueCache.length_insertAll]

/-- Signatures compare like the masses of the blocks, also when the cache has grown in between. -/
theorem signature_eq_iff (hm : m.IsCanonical) {c d : ValueCache RationalFunction}
    (h : (signature m p c s).2.Extends d) :
    (signature m p c s).1 = (signature m p d t).1 ↔ m.SameMasses p.block s t := by
  obtain ⟨-, hs, hes⟩ := signature_spec m p c s
  obtain ⟨hext, ht, het⟩ := signature_spec m p d t
  have hlater := h.trans hext
  rw [hes, het, ← encode_extends hs hlater, encode_inj (hs.extends hlater) ht, blockSums_eq_iff hm]

/-- Two signatures that are computed with one cache, whatever it holds and whatever is inserted before, between
and after, are equal exactly if the two states have the same mass in every block. At the end all values are
known by the indices that they were given, those of the signatures included, and so are the values that were
known before. An index is below the length of the cache, leads to its value, and belongs to no other value. -/
theorem signatures_interned (hm : m.IsCanonical) (p : Partition) (s t : ℕ)
    (c : ValueCache RationalFunction) (before between after : List RationalFunction) :
    let start := c.insertAll before
    let first := signature m p start.2 s
    let middle := first.2.insertAll between
    let second := signature m p middle.2 t
    let last := second.2.insertAll after
    (first.1 = second.1 ↔ m.SameMasses p.block s t) ∧ c.Extends last.2 ∧ last.2.IsFaithful ∧
      last.2.Indexes (before ++ blockTotals m p s ++ between ++ blockTotals m p t ++ after)
        (start.1 ++ first.1.map (·.2) ++ middle.1 ++ second.1.map (·.2) ++ last.1) := by
  intro start first middle second last
  have hrun : c.insertAll (before ++ blockTotals m p s ++ between ++ blockTotals m p t ++ after) =
      (start.1 ++ first.1.map (·.2) ++ middle.1 ++ second.1.map (·.2) ++ last.1, last.2) := by
    simp only [ValueCache.insertAll_append, ← signature_eq_insertAll]
    rfl
  obtain ⟨hext, hindexes⟩ := c.insertAll_spec
    (before ++ blockTotals m p s ++ between ++ blockTotals m p t ++ after)
  rw [hrun] at hext hindexes
  exact ⟨signature_eq_iff hm (ValueCache.insertAll_spec first.2 between).1, hext, last.2.isFaithful, hindexes⟩

/-- The two sides of a coin with a parameter have the mass of one sure move, unless they are told apart. A cache
that gets another value before and the parameter once more in between gives it the same index again. -/
theorem biasedCoin_signatures_interned :
    biasedCoin.IsCanonical ∧
      biasedCoin.SameMasses (⟨#[0, 1, 1], 2⟩ : Partition).block 0 1 ∧
      ¬ biasedCoin.SameMasses (⟨#[0, 1, 2], 3⟩ : Partition).block 0 1 ∧
      ∃ c : ValueCache RationalFunction, c.IsFaithful ∧
        c.Indexes [.const 2, .param "p", RationalFunction.one.sub (.param "p"), .param "p", .const 1]
          [0, 1, 2, 1, 3] := by
  have hc := biasedCoin_isCanonical
  obtain ⟨hsame, -⟩ := signatures_interned hc ⟨#[0, 1, 1], 2⟩ 0 1 .empty [.const 2] [.param "p"] []
  obtain ⟨hother, -, hfaithful, hindexes⟩ :=
    signatures_interned hc ⟨#[0, 1, 2], 3⟩ 0 1 .empty [.const 2] [.param "p"] []
  refine ⟨hc, hsame.1 (by cbv), mt hother.2 (by cbv; decide), _, hfaithful, ?_⟩
  convert hindexes using 1
  · cbv
  · cbv

end Bisim
end MarkovCheck

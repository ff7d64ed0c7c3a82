import Mathlib
import MarkovCheck.Double.Rounding
import MarkovCheck.Value.Basic

/-!
# MarkovCheck.Proofs.Double.Bits

The sign and the magnitude of a double as parts of its bits, and the total order.

The sign is the highest bit, and the magnitude is the number that the other bits denote. Both together
are the double, so the key of the total order tells all doubles apart.

* `toNat_magnitude`, `isNegative_iff` — the parts.
* `orderKey_injective`                — the key of the total order.
-/

namespace MarkovCheck
namespace Double

open Std (LawfulEqCmp ReflCmp TransCmp)

variable {d e : Double}

/-! ## Sign and magnitude -/

theorem toNat_magnitude (d : Double) : d.magnitude.toNat = d.bits.toNat % 2 ^ 63 := by
  rw [magnitude, UInt64.toNat_and, show (~~~signBit).toNat = 2 ^ 63 - 1 from by decide,
    Nat.and_two_pow_sub_one_eq_mod]

theorem isNegative_iff : d.isNegative = true ↔ 2 ^ 63 ≤ d.bits.toNat := by
  have hlt : d.bits.toNat < 2 ^ 64 := UInt64.toNat_lt _
  have hand : (d.bits &&& signBit).toNat = 2 ^ 63 * (d.bits.toNat / 2 ^ 63 % 2) := by
    rw [UInt64.toNat_and, show signBit.toNat = 2 ^ 63 from by decide, Nat.and_two_pow,
      Nat.toNat_testBit, Nat.mul_comm]
  rw [isNegative, bne_iff_ne, ne_eq, ← UInt64.toNat_inj, hand, show (0 : UInt64).toNat = 0 from rfl]
  omega

/-- The sign and the magnitude are all of a double. -/
theorem ext_of_magnitude (hsign : d.isNegative = e.isNegative) (h : d.magnitude = e.magnitude) :
    d = e := by
  have hd := toNat_magnitude d
  have he := toNat_magnitude e
  have hdlt : d.bits.toNat < 2 ^ 64 := UInt64.toNat_lt _
  have helt : e.bits.toNat < 2 ^ 64 := UInt64.toNat_lt _
  rw [Bool.eq_iff_iff, isNegative_iff, isNegative_iff] at hsign
  rw [h] at hd
  obtain ⟨b⟩ := d
  obtain ⟨c⟩ := e
  refine congrArg Double.mk (UInt64.toNat_inj.1 ?_)
  dsimp only at *
  omega

theorem magnitude_abs (d : Double) : d.abs.magnitude = d.magnitude := by
  rw [← UInt64.toNat_inj, toNat_magnitude, abs, toNat_magnitude, Nat.mod_mod]

theorem isNegative_abs (d : Double) : d.abs.isNegative = false := by
  rw [Bool.eq_false_iff, ne_eq, isNegative_iff, abs, toNat_magnitude]
  exact (Nat.mod_lt _ (Nat.two_pow_pos 63)).not_ge

theorem abs_of_nonneg (hsign : d.isNegative = false) : d.abs = d :=
  ext_of_magnitude ((isNegative_abs d).trans hsign.symm) (magnitude_abs d)

/-! ## The total order -/

theorem orderKey_injective : Function.Injective orderKey := by
  intro d e h
  unfold orderKey at h
  cases hd : d.isNegative <;> cases he : e.isNegative <;> rw [hd, he] at h
  case true.true | false.false =>
    exact ext_of_magnitude (hd.trans he.symm) (UInt64.toNat_inj.1 (by simpa using h))
  all_goals
    simp only [Bool.false_eq_true, if_true, if_false] at h
    omega

instance : TransCmp (Value.cmp (V := Double)) := inferInstanceAs (TransCmp (compareOn orderKey))

instance : LawfulEqCmp (Value.cmp (V := Double)) where
  compare_self {d} := (ReflCmp.compare_self : compare d.orderKey d.orderKey = .eq)
  eq_of_compare h := orderKey_injective (Std.compare_eq_iff_eq.1 h)

end Double
end MarkovCheck

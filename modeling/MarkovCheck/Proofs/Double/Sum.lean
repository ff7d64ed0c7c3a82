import Mathlib
import MarkovCheck.Proofs.Double.Bits

/-!
# MarkovCheck.Proofs.Double.Sum

A single double is its own sum, up to the sign of a zero.

Arithmetic unpacks the bits of a double into sign, exponent and mantissa, and packs those of the
result. Only NaN loses bits on the way, since all of them are unpacked to the same datum. So what an
addition passes on comes out as it went in, and adding to zero passes on everything but a zero.

* `pack_unpack` — packing what was unpacked.
* `sum_singleton_number`, `isZero_sum_singleton` — the sum of one double.
-/

namespace MarkovCheck
namespace Double

open Float.Model (Format UnpackedFloat)
open Float.Model.UnpackedFloat (Sign packComponents unpackExponent unpackMantissa unpackSign)

variable {b : BitVec Format.binary64.numBits} {d : Double}

/-! ## Packing -/

theorem toNat_unpackMantissa (b : BitVec Format.binary64.numBits) :
    (unpackMantissa b).toNat = b.toNat % 2 ^ 52 := by
  simp [unpackMantissa]

theorem toNat_unpackExponent (b : BitVec Format.binary64.numBits) :
    (unpackExponent b).toNat = b.toNat / 2 ^ 52 % 2 ^ 11 := by
  simp [unpackExponent, Nat.shiftRight_eq_div_pow]

/-- The parts of the bits are all of them. -/
theorem packComponents_unpack (b : BitVec Format.binary64.numBits) :
    packComponents Format.binary64 (Sign.ofBitVec (unpackSign b)) (unpackExponent b)
      (unpackMantissa b) = b := by
  have hsign : ∀ s : BitVec 1, (Sign.ofBitVec s).toBitVec = s := by decide
  rw [packComponents, hsign]
  ext i hi
  simp only [BitVec.getElem_append, unpackSign, unpackExponent, unpackMantissa]
  split
  · simp [BitVec.getLsbD_eq_getElem hi]
  · split
    · have hindex : 52 + (i - 52) = i := by omega
      simp [hindex, BitVec.getLsbD_eq_getElem hi]
    · have hindex : 63 + (i - 52 - 11) = i := by omega
      simp [hindex, BitVec.getLsbD_eq_getElem hi]

/-- A subnormal number has fewer than 53 bits. -/
theorem pack_subnormal {s : Sign} {m : BitVec 52} {e : ℤ} (he : e = -1074) (h : 0 < m.toNat) :
    UnpackedFloat.pack Format.binary64 (.finite s m.toNat e h) =
      packComponents Format.binary64 s 0 m := by
  have hlog : m.toNat.log2 < 52 := (Nat.log2_lt h.ne').2 m.isLt
  have hexponent : ¬ 2 ^ Format.binary64.exponentBits ≤
      (e + Format.binary64.exponentBias + Format.binary64.mantissaBitsWithoutImplicit).toNat + 1 := by
    rw [he]
    decide
  have hbits : ¬ m.toNat.log2 + 1 = Format.binary64.mantissaBits := by
    change ¬ m.toNat.log2 + 1 = 53
    omega
  rw [UnpackedFloat.pack]
  dsimp only
  rw [if_neg hexponent, if_neg hbits, BitVec.ofNat_toNat, BitVec.setWidth_eq]
  rfl

/-- A normal number has 53 bits, the first of which is left out. -/
theorem pack_normal {s : Sign} {m : BitVec 52} {x : BitVec 11} {e : ℤ} (he : e = x.toNat - 1075)
    (hx : x.toNat + 1 < 2 ^ 11) (h : 0 < (1#1 ++ m).toNat) :
    UnpackedFloat.pack Format.binary64 (.finite s (1#1 ++ m).toNat e h) =
      packComponents Format.binary64 s x m := by
  have hm : m.toNat < 2 ^ 52 := m.isLt
  have hvalue : (1#1 ++ m).toNat = 2 ^ 52 + m.toNat := by
    rw [BitVec.toNat_append, ← Nat.shiftLeft_add_eq_or_of_lt m.isLt]
    rfl
  have hlog : (1#1 ++ m).toNat.log2 + 1 = Format.binary64.mantissaBits := by
    have hlow : 52 ≤ (1#1 ++ m).toNat.log2 := (Nat.le_log2 h.ne').2 (by omega)
    have hhigh : (1#1 ++ m).toNat.log2 < 53 := (Nat.log2_lt h.ne').2 (by omega)
    change _ = 53
    omega
  have hbiased : (e + Format.binary64.exponentBias +
      Format.binary64.mantissaBitsWithoutImplicit).toNat = x.toNat := by
    change (e + 1023 + 52).toNat = _
    omega
  have hexponent : ¬ 2 ^ Format.binary64.exponentBits ≤ x.toNat + 1 := by
    change ¬ 2 ^ 11 ≤ _
    omega
  have hmantissa : BitVec.ofNat 52 (1#1 ++ m).toNat = m := by
    refine BitVec.eq_of_toNat_eq ?_
    rw [BitVec.toNat_ofNat, hvalue]
    omega
  rw [UnpackedFloat.pack]
  dsimp only
  rw [hbiased, if_neg hexponent, if_pos hlog]
  exact congrArg₂ (packComponents Format.binary64 s) (BitVec.ofNat_toNat _ _) hmantissa

/-- Packing gives back the bits that were unpacked, unless they were those of a NaN. -/
theorem pack_unpack (h : UnpackedFloat.unpack Format.binary64 b ≠ .notANumber) :
    UnpackedFloat.pack Format.binary64 (UnpackedFloat.unpack Format.binary64 b) = b := by
  have hparts := packComponents_unpack b
  unfold UnpackedFloat.unpack at h ⊢
  dsimp only at h ⊢
  split
  case isTrue he =>
    rw [if_pos he] at h
    split
    case isTrue hz =>
      rw [he, hz] at hparts
      exact hparts
    case isFalse hz =>
      rw [if_neg hz] at h
      exact absurd rfl h
  case isFalse he =>
    split
    case isTrue he0 =>
      split
      case isTrue hz =>
        rw [he0, hz] at hparts
        exact hparts
      case isFalse hz =>
        have hx : ((unpackExponent b).toNat : ℤ) - (Format.binary64.exponentBias + 52) + 1 = -1074 := by
          rw [he0]
          rfl
        rw [he0] at hparts
        exact (pack_subnormal hx _).trans hparts
    case isFalse he0 =>
      have hx : (unpackExponent b).toNat + 1 < 2 ^ 11 := by
        have hne : (unpackExponent b).toNat ≠ 2047 := fun heq =>
          he (BitVec.eq_of_toNat_eq (heq.trans (by decide)))
        have := (unpackExponent b).isLt
        change _ < 2 ^ 11 at this
        omega
      exact (pack_normal rfl hx _).trans hparts

/-! ## Adding to zero -/

theorem unpack_eq_notANumber_iff :
    UnpackedFloat.unpack Format.binary64 d.bits.toBitVec = .notANumber ↔ d.isNaN = true := by
  have hlt : d.bits.toBitVec.toNat < 2 ^ 64 := d.bits.toBitVec.isLt
  have hnan : d.isNaN = true ↔ 2047 * 2 ^ 52 < d.bits.toBitVec.toNat % 2 ^ 63 := by
    rw [isNaN, decide_eq_true_iff, UInt64.lt_iff_toNat_lt, toNat_magnitude]
    rfl
  have hexponent : @unpackExponent Format.binary64 d.bits.toBitVec = -1#_ ↔
      d.bits.toBitVec.toNat / 2 ^ 52 % 2 ^ 11 = 2047 := by
    rw [← BitVec.toNat_inj, toNat_unpackExponent]
    rfl
  have hmantissa : @unpackMantissa Format.binary64 d.bits.toBitVec = 0#_ ↔
      d.bits.toBitVec.toNat % 2 ^ 52 = 0 := by
    rw [← BitVec.toNat_inj, toNat_unpackMantissa]
    rfl
  rw [hnan]
  unfold UnpackedFloat.unpack
  dsimp only
  split
  case isTrue he =>
    rw [hexponent] at he
    split
    case isTrue hz =>
      rw [hmantissa] at hz
      exact iff_of_false nofun (by omega)
    case isFalse hz =>
      rw [hmantissa] at hz
      exact iff_of_true rfl (by omega)
  case isFalse he =>
    rw [hexponent] at he
    refine iff_of_false (fun h => ?_) (by omega)
    split at h
    · split at h <;> cases h
    · cases h

theorem add_zero_unpack (hz : d.isZero = false) :
    UnpackedFloat.add Format.binary64 (.zero .positive)
      (UnpackedFloat.unpack Format.binary64 d.bits.toBitVec) =
        UnpackedFloat.unpack Format.binary64 d.bits.toBitVec := by
  cases hd : UnpackedFloat.unpack Format.binary64 d.bits.toBitVec with
  | zero s =>
    -- A zero is packed to one of two patterns.
    have hpack := pack_unpack (b := d.bits.toBitVec) (by rw [hd]; exact nofun)
    have hbits : d.bits = UInt64.ofBitVec (UnpackedFloat.packedZero Format.binary64 s) := by
      rw [hd] at hpack
      exact congrArg UInt64.ofBitVec hpack.symm
    obtain ⟨bits⟩ := d
    cases hbits
    cases s <;> exact absurd hz (by decide)
  | _ => rfl

/-- The sum of one number is that number, also of an infinite one. -/
theorem sum_singleton_number (hnan : d.isNaN = false) (hz : d.isZero = false) :
    Value.sum [d] = d := by
  have hunpack : UnpackedFloat.unpack Format.binary64 d.bits.toBitVec ≠ .notANumber := fun h => by
    rw [unpack_eq_notANumber_iff, hnan] at h
    cases h
  have hmodel : (Float.ofBits d.bits).toModel.unpack =
      UnpackedFloat.unpack Format.binary64 d.bits.toBitVec :=
    congrArg (UnpackedFloat.unpack Format.binary64) (pack_unpack hunpack)
  have hbits : (Float.ofBits d.bits).toBits = d.bits :=
    congrArg UInt64.ofBitVec (pack_unpack hunpack)
  have hadd : Float.ofBits zero.bits + Float.ofBits d.bits = Float.ofBits d.bits := by
    change Float.ofModel (Float.Model.pack (UnpackedFloat.add Format.binary64 (.zero .positive)
      (Float.ofBits d.bits).toModel.unpack)) = _
    rw [hmodel, add_zero_unpack hz]
    rfl
  have hnumber : (Float.ofBits d.bits).isNaN = false := by
    change (Float.ofBits d.bits).toModel.unpack.isNaN = false
    rw [hmodel]
    cases hd : UnpackedFloat.unpack Format.binary64 d.bits.toBitVec with
    | notANumber => exact absurd hd hunpack
    | _ => rfl
  change arithmetic (· + ·) zero d = d
  unfold arithmetic
  dsimp only
  rw [if_neg (by decide), hnan, hadd, hnumber, hbits]
  rfl

/-- The sum of one zero is a zero, also of the negative one. -/
theorem isZero_sum_singleton (hz : d.isZero = true) : (Value.sum [d]).isZero = true := by
  have hmagnitude : d.magnitude = 0 := beq_iff_eq.1 hz
  cases hsign : d.isNegative with
  | false =>
    rw [ext_of_magnitude (e := zero) hsign hmagnitude]
    decide
  | true =>
    rw [ext_of_magnitude (e := zero.neg) hsign hmagnitude]
    decide

end Double
end MarkovCheck

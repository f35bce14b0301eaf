import Xeibe.Lib.Level
import Xeibe.Reproject.Doubles

/-!
# Doubles that are numbers

Every double but NaN has a place in one order, the infinities at its ends: it
compares as its value in units does.  NaN compares with nothing.
-/

namespace Xeibe.Geom.F64

open Xeibe.Lib
open Float.Model Float.Model.UnpackedFloat

theorem unpack_toFloat (a : F64) :
    a.toFloat.toModel.unpack = UnpackedFloat.unpack .binary64 a.bits.toBitVec :=
  Binary64.unpack_pack_of_canonical (Binary64.canonical_unpack a.bits.toBitVec)

/-- NaN has all bits of the exponent, and one of the mantissa. -/
theorem unpack_eq_notANumber_iff (b : BitVec 64) :
    UnpackedFloat.unpack .binary64 b = .notANumber ↔
      @unpackExponent .binary64 b = -1#11 ∧ @unpackMantissa .binary64 b ≠ 0#52 := by
  rw [UnpackedFloat.unpack]
  simp only
  split
  · rename_i hones
    split
    · rename_i hzero
      exact ⟨nofun, fun h => absurd hzero h.2⟩
    · rename_i hzero
      exact ⟨fun _ => ⟨hones, hzero⟩, fun _ => rfl⟩
  · rename_i hones
    constructor
    · intro h
      split at h
      · split at h <;> cases h
      · cases h
    · exact fun h => absurd h.1 hones

theorem isNan_iff (a : F64) : a.isNan = true ↔ a.toFloat.toModel.unpack = .notANumber := by
  have hand : (a.bits &&& 0x7fffffffffffffff).toNat = a.bits.toNat % 2 ^ 63 := by
    rw [UInt64.toNat_and]
    exact Nat.and_two_pow_sub_one_eq_mod _ 63
  have hinf : (0x7ff0000000000000 : UInt64).toNat = 2047 * 2 ^ 52 := by decide
  have hexp : (@unpackExponent .binary64 a.bits.toBitVec).toNat =
      a.bits.toNat / 2 ^ 52 % 2 ^ 11 := by
    simp only [unpackExponent, BitVec.extractLsb, BitVec.toNat_cast, BitVec.extractLsb'_toNat,
      Nat.shiftRight_eq_div_pow]
    rfl
  have hmantissa : (@unpackMantissa .binary64 a.bits.toBitVec).toNat = a.bits.toNat % 2 ^ 52 := by
    simp only [unpackMantissa, BitVec.extractLsb, BitVec.toNat_cast, BitVec.extractLsb'_toNat,
      Nat.shiftRight_zero]
    rfl
  have hones : (-1#11 : BitVec 11).toNat = 2047 := by decide
  have hnone : (0#52 : BitVec 52).toNat = 0 := by decide
  rw [unpack_toFloat, unpack_eq_notANumber_iff, ne_eq, ← BitVec.toNat_inj, ← BitVec.toNat_inj]
  rw [hexp, hmantissa]
  unfold isNan
  rw [decide_eq_true_iff, gt_iff_lt, UInt64.lt_iff_toNat_lt, hand, hinf]
  constructor
  · intro h
    constructor
    · exact (by omega : a.bits.toNat / 2 ^ 52 % 2 ^ 11 = 2047).trans hones.symm
    · intro hzero
      rw [hnone] at hzero
      omega
  · rintro ⟨h, hne⟩
    rw [hones] at h
    rw [hnone] at hne
    omega

theorem unpack_ne {a : F64} (h : a.isNan = false) : a.toFloat.toModel.unpack ≠ .notANumber := by
  intro hnan
  rw [(isNan_iff a).2 hnan] at h
  cases h

/-! ## One order -/

theorem lt_iff_units {a b : F64} (ha : a.isNan = false) (hb : b.isNan = false) :
    a < b ↔ a.units < b.units :=
  Binary64.lt_iff_of_ne (unpack_ne ha) (unpack_ne hb)

theorem le_iff_units {a b : F64} (ha : a.isNan = false) (hb : b.isNan = false) :
    a ≤ b ↔ a.units ≤ b.units :=
  Binary64.le_iff_of_ne (unpack_ne ha) (unpack_ne hb)

theorem eq_iff_units {a b : F64} (ha : a.isNan = false) (hb : b.isNan = false) :
    a.eq b = true ↔ a.units = b.units :=
  Binary64.beq_iff_of_ne (unpack_ne ha) (unpack_ne hb)

@[simp] theorem isNan_zero : zero.isNan = false := by decide

@[simp] theorem units_zero : zero.units = 0 := rfl

theorem isNan_of_lt {a b : F64} (h : a < b) : a.isNan = false ∧ b.isNan = false := by
  obtain ⟨ha, hb⟩ := Binary64.ne_notANumber_of_lt h
  exact ⟨Bool.eq_false_iff.2 (mt (isNan_iff a).1 ha), Bool.eq_false_iff.2 (mt (isNan_iff b).1 hb)⟩

theorem isNan_of_le {a b : F64} (h : a ≤ b) : a.isNan = false ∧ b.isNan = false := by
  obtain ⟨ha, hb⟩ := Binary64.ne_notANumber_of_le h
  exact ⟨Bool.eq_false_iff.2 (mt (isNan_iff a).1 ha), Bool.eq_false_iff.2 (mt (isNan_iff b).1 hb)⟩

theorem isNan_of_eq {a b : F64} (h : a.eq b = true) : a.isNan = false ∧ b.isNan = false := by
  have hmodel : UnpackedFloat.beq a.toFloat.toModel.unpack b.toFloat.toModel.unpack = true := h
  constructor
  · refine Bool.eq_false_iff.2 fun hnan => ?_
    rw [(isNan_iff a).1 hnan] at hmodel
    cases hmodel
  · refine Bool.eq_false_iff.2 fun hnan => ?_
    rw [(isNan_iff b).1 hnan] at hmodel
    cases ha : a.toFloat.toModel.unpack <;> rw [ha] at hmodel <;> cases hmodel

theorem eq_units {a b : F64} (h : a.eq b = true) :
    a.isNan = false ∧ b.isNan = false ∧ a.units = b.units := by
  obtain ⟨ha, hb⟩ := isNan_of_eq h
  exact ⟨ha, hb, (eq_iff_units ha hb).1 h⟩

end Xeibe.Geom.F64

import Xeibe.Lib.Magnitude
import Xeibe.Reproject.Numbers
import Xeibe.Reproject.Select.Search.Extent

/-!
# The next double

`nextUp` and `nextDown` are the nearest doubles on either side: nothing lies between.
-/

namespace Xeibe.Geom.F64

open Xeibe.Lib
open Float.Model Float.Model.UnpackedFloat

theorem isNan_iff_bits (a : F64) : a.isNan = true ↔ 2047 * 2 ^ 52 < a.bits.toNat % 2 ^ 63 := by
  have hand : (a.bits &&& 0x7fffffffffffffff).toNat = a.bits.toNat % 2 ^ 63 := by
    rw [UInt64.toNat_and]
    exact Nat.and_two_pow_sub_one_eq_mod _ 63
  have hinf : (0x7ff0000000000000 : UInt64).toNat = 2047 * 2 ^ 52 := by decide
  unfold isNan
  rw [decide_eq_true_iff, gt_iff_lt, UInt64.lt_iff_toNat_lt, hand, hinf]

theorem units_of_lt {a : F64} (ha : a.isNan = false) (h : a.bits.toNat < 2 ^ 63) :
    a.units = Binary64.magnitude a.bits.toNat := by
  have hunits := Binary64.units_unpack (unpack_toFloat a ▸ unpack_ne ha)
  have hmod : a.bits.toBitVec.toNat % 2 ^ 63 = a.bits.toNat := Nat.mod_eq_of_lt h
  rw [Binary64.sign_of_lt h, ← unpack_toFloat, hmod] at hunits
  exact hunits

theorem units_of_le {a : F64} (ha : a.isNan = false) (h : 2 ^ 63 ≤ a.bits.toNat) :
    a.units = -(Binary64.magnitude (a.bits.toNat - 2 ^ 63) : Int) := by
  have hlt : a.bits.toNat < 2 ^ 64 := a.bits.toNat_lt
  have hunits := Binary64.units_unpack (unpack_toFloat a ▸ unpack_ne ha)
  have hmod : a.bits.toBitVec.toNat % 2 ^ 63 = a.bits.toNat - 2 ^ 63 := by
    show a.bits.toNat % 2 ^ 63 = a.bits.toNat - 2 ^ 63
    omega
  rw [Binary64.sign_of_le h, ← unpack_toFloat, hmod] at hunits
  exact hunits

theorem unpack_neg (a : F64) :
    (-a).toFloat.toModel.unpack = UnpackedFloat.neg a.toFloat.toModel.unpack := by
  show (ofFloat (-a.toFloat)).toFloat.toModel.unpack = _
  rw [toFloat_ofFloat, Binary64.unpack_neg]

@[simp] theorem isNan_neg (a : F64) : (-a).isNan = a.isNan := by
  rw [Bool.eq_iff_iff, isNan_iff, isNan_iff, unpack_neg]
  cases a.toFloat.toModel.unpack <;> simp [UnpackedFloat.neg]

@[simp] theorem units_neg (a : F64) : (-a).units = -a.units := by
  show Binary64.units (-a).toFloat.toModel.unpack = _
  rw [unpack_neg]
  exact Binary64.units_neg

/-- `y` is the nearest number above `x`. -/
structure Next (x y : F64) : Prop where
  isNan : y.isNan = false
  above : x.units < y.units
  nearest : ∀ z : F64, z.isNan = false → x.units < z.units → y.units ≤ z.units

theorem next_of_bits {x y : F64} (hx : x.isNan = false) (hxlt : x.bits.toNat < 2047 * 2 ^ 52)
    (hy : y.bits.toNat = x.bits.toNat + 1) : Next x y := by
  have hynan : y.isNan = false := by
    rw [Bool.eq_false_iff, ne_eq, isNan_iff_bits]
    omega
  have hxunits := units_of_lt hx (by omega)
  have hyunits := units_of_lt hynan (by omega)
  refine ⟨hynan, ?_, fun z hz hlt => ?_⟩
  · rw [hxunits, hyunits, hy]
    exact_mod_cast Binary64.magnitude_lt_succ _
  · rcases Nat.lt_or_ge z.bits.toNat (2 ^ 63) with hpos | hneg
    · rw [hxunits, units_of_lt hz hpos] at hlt
      rw [hyunits, units_of_lt hz hpos, hy]
      have hbits : x.bits.toNat < z.bits.toNat :=
        Binary64.magnitude_strictMono.lt_iff_lt.1 (by exact_mod_cast hlt)
      exact_mod_cast Binary64.magnitude_strictMono.monotone hbits
    · rw [hxunits, units_of_le hz hneg] at hlt
      omega

theorem next_of_bits_neg {x y : F64} (hx : x.isNan = false) (hxlt : 2 ^ 63 < x.bits.toNat)
    (hy : y.bits.toNat + 1 = x.bits.toNat) : Next x y := by
  have hxbits := mt (isNan_iff_bits x).2 (Bool.eq_false_iff.1 hx)
  have hxmax := x.bits.toNat_lt
  have hynan : y.isNan = false := by
    rw [Bool.eq_false_iff, ne_eq, isNan_iff_bits]
    omega
  have hxunits := units_of_le hx (by omega)
  have hyunits := units_of_le hynan (by omega)
  have hsub : x.bits.toNat - 2 ^ 63 = y.bits.toNat - 2 ^ 63 + 1 := by omega
  refine ⟨hynan, ?_, fun z hz hlt => ?_⟩
  · have hlt := Binary64.magnitude_lt_succ (y.bits.toNat - 2 ^ 63)
    rw [hxunits, hyunits, hsub]
    omega
  · rcases Nat.lt_or_ge z.bits.toNat (2 ^ 63) with hpos | hneg
    · rw [hyunits, units_of_lt hz hpos]
      omega
    · rw [hxunits, units_of_le hz hneg, hsub] at hlt
      rw [hyunits, units_of_le hz hneg]
      have hbits : z.bits.toNat - 2 ^ 63 < y.bits.toNat - 2 ^ 63 + 1 := by
        rw [← Binary64.magnitude_strictMono.lt_iff_lt]
        omega
      have hle := Binary64.magnitude_strictMono.monotone (Nat.le_of_lt_succ hbits)
      omega

theorem next_zero {x : F64} (h : x.units = 0) : Next x ⟨1⟩ := by
  have hnan : (⟨1⟩ : F64).isNan = false := by decide
  have hunits : (⟨1⟩ : F64).units = 1 := units_of_lt hnan (by decide)
  refine ⟨hnan, by rw [h, hunits]; decide, fun z hz hlt => ?_⟩
  rw [hunits]
  omega

theorem nextUp_spec {x : F64} (hx : x.isFinite = true) : Next x x.nextUp := by
  have hnan := isNan_of_isFinite hx
  have hbits : x.bits.toNat % 2 ^ 63 < 2047 * 2 ^ 52 := Binary64.bits_lt_of_isFinite hx
  have hmax := x.bits.toNat_lt
  have hinfinity : x.eq infinity = false := by
    have htop : infinity.units = Binary64.top := by rfl
    have hlt := (Binary64.units_lt_of_isFinite (Binary64.canonical x.toFloat) hx).2
    have hne : x.units ≠ infinity.units := by
      rw [htop]
      exact Int.ne_of_lt hlt
    rw [Bool.eq_false_iff, ne_eq, eq_iff_units hnan (by decide)]
    exact hne
  unfold nextUp
  rw [hnan, hinfinity, Bool.or_false, if_neg Bool.false_ne_true]
  split
  · rename_i hzero
    exact next_zero ((eq_iff_units hnan isNan_zero).1 hzero)
  · rename_i hzero
    rw [eq_iff_units hnan isNan_zero, units_zero] at hzero
    split
    · rename_i hpos
      rw [lt_iff_units isNan_zero hnan, units_zero] at hpos
      have hlt : x.bits.toNat < 2 ^ 63 := by
        by_contra hge
        rw [units_of_le hnan (by omega)] at hpos
        omega
      refine next_of_bits hnan (by omega) ?_
      show (x.bits + 1).toNat = x.bits.toNat + 1
      rw [UInt64.toNat_add]
      show (x.bits.toNat + 1) % 2 ^ 64 = _
      omega
    · rename_i hpos
      rw [lt_iff_units isNan_zero hnan, units_zero] at hpos
      have hlt : 2 ^ 63 < x.bits.toNat := by
        by_contra hge
        rcases Nat.lt_or_eq_of_le (Nat.le_of_not_lt hge) with hlt | heq
        · rw [units_of_lt hnan hlt] at hzero hpos
          omega
        · rw [units_of_le hnan (by omega), heq, Nat.sub_self] at hzero
          exact hzero rfl
      refine next_of_bits_neg hnan hlt ?_
      show (x.bits - 1).toNat + 1 = x.bits.toNat
      have hone : (1 : UInt64) ≤ x.bits := by
        rw [UInt64.le_iff_toNat_le]
        show 1 ≤ x.bits.toNat
        omega
      rw [UInt64.toNat_sub_of_le _ _ hone]
      show x.bits.toNat - 1 + 1 = _
      omega

theorem isFinite_neg (x : F64) : (-x).isFinite = x.isFinite := by
  show (-x).toFloat.toModel.unpack.isFinite = x.toFloat.toModel.unpack.isFinite
  rw [unpack_neg]
  cases x.toFloat.toModel.unpack <;> rfl

/-- `y` is the nearest number below `x`. -/
structure Previous (x y : F64) : Prop where
  isNan : y.isNan = false
  below : y.units < x.units
  nearest : ∀ z : F64, z.isNan = false → z.units < x.units → z.units ≤ y.units

theorem nextDown_spec {x : F64} (hx : x.isFinite = true) : Previous x x.nextDown := by
  obtain ⟨hnan, habove, hnearest⟩ := nextUp_spec (x := -x) ((isFinite_neg x).trans hx)
  rw [units_neg] at habove hnearest
  unfold nextDown
  refine ⟨(isNan_neg _).trans hnan, ?_, fun z hz hlt => ?_⟩
  · rw [units_neg]
    omega
  · have hle := hnearest (-z) ((isNan_neg z).trans hz) (by rw [units_neg]; omega)
    rw [units_neg] at hle ⊢
    omega

end Xeibe.Geom.F64

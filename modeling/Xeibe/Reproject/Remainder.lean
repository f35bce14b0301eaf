import Mathlib.Data.Nat.Bitwise
import Xeibe.Lib.Exact
import Xeibe.Reproject.Numbers

/-!
# The remainder of doubles

`%` as the standard library documents it: of the sign of the dividend, and exact.
-/

namespace Xeibe.Geom.F64

open Xeibe.Lib

open Xeibe.Lib

/-- A double that is a whole number of the smallest ones. -/
def ofUnits (n : Int) : F64 :=
  ofFloat (Float.ofModel (Float.Model.pack
    (Float.Model.UnpackedFloat.normalize .binary64 n (-1074) .positive)))

/-- `a % b`: exact, with the sign of `a`. -/
def rem (a b : F64) : F64 :=
  if a.isNan || b.isNan || !a.isFinite || b.eq zero then nan
  else if !b.isFinite then a
  else
    let n := a.units.tmod b.units
    if n = 0 then ⟨a.bits &&& 0x8000000000000000⟩ else ofUnits n

theorem is_ofUnits {v : Int} {k : Nat} (hk : k ≤ 2045) (h : Binary64.Fits k v) :
    Binary64.Is (ofUnits v).toFloat v := by
  have hrounds := Binary64.rounds_normalize v 0
  rw [Int.pow_zero, Int.mul_one] at hrounds
  unfold ofUnits
  rw [toFloat_ofFloat]
  exact h.is hk hrounds

theorem is_signOnly (a : F64) : Binary64.Is (⟨a.bits &&& 0x8000000000000000⟩ : F64).toFloat 0 := by
  have hbit : (a.bits &&& 0x8000000000000000).toNat = (a.bits.toNat.testBit 63).toNat * 2 ^ 63 := by
    rw [UInt64.toNat_and]
    exact Nat.and_two_pow a.bits.toNat 63
  have hcases : a.bits &&& 0x8000000000000000 = 0 ∨
      a.bits &&& 0x8000000000000000 = 0x8000000000000000 := by
    rw [← UInt64.toNat_inj, ← UInt64.toNat_inj, hbit]
    cases a.bits.toNat.testBit 63
    · exact .inl rfl
    · exact .inr rfl
  rcases hcases with h | h
  · rw [h]
    exact ⟨by decide +kernel, by decide +kernel⟩
  · rw [h]
    exact ⟨by decide +kernel, by decide +kernel⟩

theorem is_rem {a b : F64} (ha : a.isFinite = true) (hb : b.isFinite = true)
    (hne : b.units ≠ 0) : Binary64.Is (a.rem b).toFloat (a.units.tmod b.units) := by
  have hzero : b.eq zero = false := by
    refine Bool.eq_false_iff.2 fun heq => hne ?_
    exact ((eq_iff_units (isNan_of_isFinite hb) isNan_zero).1 heq).trans units_zero
  obtain ⟨k, hk, hfits⟩ := Binary64.fits_units (Binary64.canonical a.toFloat) ha
  obtain ⟨l, -, hfits'⟩ := Binary64.fits_units (Binary64.canonical b.toFloat) hb
  have hmod := hfits.tmod hfits' hne
  unfold rem
  rw [ha, hb, isNan_of_isFinite ha, isNan_of_isFinite hb, hzero]
  simp only [Bool.or_false, Bool.not_true, Bool.false_eq_true, if_false]
  split
  · rename_i hnone
    rw [hnone]
    exact is_signOnly a
  · exact is_ofUnits ((Nat.min_le_left k l).trans hk) hmod

end Xeibe.Geom.F64

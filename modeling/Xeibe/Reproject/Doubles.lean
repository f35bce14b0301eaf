import Xeibe.Lib.Binary64
import Xeibe.Reproject.Transform

/-!
# The doubles of a conversion, in order

The order facts of binary64 arithmetic, for doubles kept as bits: the smaller
and the larger one of two, and steps from a bound.
-/

namespace Xeibe.Geom.F64

open Xeibe.Lib
open Float.Model (UnpackedFloat)

/-! ## Bits and doubles -/

@[simp] theorem toFloat_ofFloat (f : Float) : (ofFloat f).toFloat = f := Binary64.ofBits_toBits f

theorem toFloat_add (a b : F64) : (a + b).toFloat = a.toFloat + b.toFloat := toFloat_ofFloat _

theorem toFloat_sub (a b : F64) : (a - b).toFloat = a.toFloat - b.toFloat := toFloat_ofFloat _

theorem toFloat_mul (a b : F64) : (a * b).toFloat = a.toFloat * b.toFloat := toFloat_ofFloat _

theorem toFloat_ofUsize (i : Nat) : (ofUsize i).toFloat = Binary64.natural i := toFloat_ofFloat _

theorem isNan_of_isFinite {a : F64} (h : a.isFinite = true) : a.isNan = false := by
  have hbits : a.bits.toNat % 2 ^ 63 < 2047 * 2 ^ 52 := Binary64.bits_lt_of_isFinite h
  have hand : (a.bits &&& 0x7fffffffffffffff).toNat = a.bits.toNat % 2 ^ 63 := by
    rw [UInt64.toNat_and]
    exact Nat.and_two_pow_sub_one_eq_mod _ 63
  unfold isNan
  rw [decide_eq_false_iff_not]
  intro hlt
  have hnat := UInt64.lt_iff_toNat_lt.1 hlt
  rw [hand] at hnat
  have hinf : (0x7ff0000000000000 : UInt64).toNat = 2047 * 2 ^ 52 := by decide
  omega

/-! ## Order -/

/-- A finite double in units of the smallest one. -/
def units (a : F64) : Int := Binary64.unitsOf a.toFloat

theorem le_iff {a b : F64} (ha : a.isFinite = true) (hb : b.isFinite = true) :
    a ≤ b ↔ a.units ≤ b.units :=
  Binary64.le_iff ha hb

theorem lt_iff {a b : F64} (ha : a.isFinite = true) (hb : b.isFinite = true) :
    a < b ↔ a.units < b.units :=
  Binary64.lt_iff ha hb

theorem isFinite_of_between {a x b : F64} (ha : a.isFinite = true) (hb : b.isFinite = true)
    (hax : a ≤ x) (hxb : x ≤ b) : x.isFinite = true :=
  Binary64.isFinite_of_between ha hb hax hxb

/-! ## The outermost of many -/

/-! ## Steps from a bound -/

end Xeibe.Geom.F64

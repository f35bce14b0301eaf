import Mathlib.Data.Int.GCD
import Xeibe.Lib.Binary64

/-!
# Exact results

A whole number of units that has at most 53 significant bits is a double, so a sum or a
difference that is one needs no rounding.  The remainder of a division never does.
-/

namespace Xeibe.Lib.Binary64

open Float.Model Float.Model.UnpackedFloat

/-- `v` units are a multiple of `2 ^ k`, and have 53 bits or fewer above it. -/
structure Fits (k : Nat) (v : Int) : Prop where
  dvd : (2 : Int) ^ k ∣ v
  natAbs_lt : v.natAbs < 2 ^ (53 + k)

theorem roundNat_of_dvd {n k : Nat} (hdvd : 2 ^ k ∣ n) (hlt : n < 2 ^ (53 + k)) :
    roundNat n = n := by
  obtain ⟨m, rfl⟩ := hdvd
  rw [Nat.pow_add, Nat.mul_comm (2 ^ 53)] at hlt
  have hm : m < 2 ^ 53 := Nat.lt_of_mul_lt_mul_left hlt
  rw [Nat.mul_comm, roundNat_of_lt hm]

theorem Fits.lt_top {k : Nat} {v : Int} (h : Fits k v) (hk : k ≤ 2045) : v.natAbs < top := by
  have hpow : ∀ n, k ≤ n → 2 ^ (53 + k) ≤ 2 ^ 53 * 2 ^ n := by
    intro n hn
    rw [Nat.pow_add]
    exact Nat.mul_le_mul_left _ (Nat.pow_le_pow_right (by omega) hn)
  exact h.natAbs_lt.trans_le (hpow 2045 hk)

theorem Fits.roundInt_eq {k : Nat} {v : Int} (h : Fits k v) (hk : k ≤ 2045) : roundInt v = v := by
  have hnat : roundNat v.natAbs = v.natAbs := by
    apply roundNat_of_dvd _ h.natAbs_lt
    have hdvd := Int.natAbs_dvd_natAbs.2 h.dvd
    rwa [Int.natAbs_pow] at hdvd
  rw [roundInt, hnat, Nat.min_eq_left (h.lt_top hk).le]
  split <;> omega

theorem natAbs_apply (sign : Sign) (n : Nat) : (sign.apply (n : Int)).natAbs = n := by
  cases sign with
  | positive => exact Int.natAbs_natCast n
  | negative => exact (Int.natAbs_neg n).trans (Int.natAbs_natCast n)

theorem dvd_apply (sign : Sign) {d n : Nat} (h : d ∣ n) : (d : Int) ∣ sign.apply (n : Int) := by
  rw [Int.natCast_dvd, natAbs_apply]
  exact h

theorem fits_units {u : UnpackedFloat} (hu : Canonical u) (hfin : u.isFinite) :
    ∃ k, k ≤ 2045 ∧ Fits k (units u) := by
  cases hu with
  | notANumber => cases hfin
  | infinity sign => cases hfin
  | zero sign => exact ⟨0, by omega, ⟨Int.dvd_zero _, by simp [units]⟩⟩
  | finite sign m k h hm hk hmax =>
    refine ⟨k, hmax, ?_, ?_⟩
    · rw [units_finite]
      have hdvd := dvd_apply sign (Nat.dvd_mul_left (2 ^ k) m)
      push_cast at hdvd ⊢
      exact hdvd
    · rw [units_finite, natAbs_apply, Nat.pow_add]
      exact Nat.mul_lt_mul_of_pos_right hm (Nat.two_pow_pos k)

theorem dvd_units {u : UnpackedFloat} (hu : Canonical u) (hfin : u.isFinite) {k : Nat}
    (h : 2 ^ (52 + k) ≤ (units u).natAbs) : (2 : Int) ^ k ∣ units u := by
  obtain ⟨l, -, hdvd, hlt⟩ := fits_units hu hfin
  have hkl : k ≤ l := by
    have hpow := (Nat.pow_lt_pow_iff_right (by omega)).1 (h.trans_lt hlt)
    omega
  exact (pow_dvd_pow 2 hkl).trans hdvd

/-! ## Sums and differences -/

/-- A double that is the number `v`, with nothing lost. -/
structure Is (f : Float) (v : Int) : Prop where
  isFinite : f.isFinite
  units : unitsOf f = v

theorem Fits.is {k : Nat} {v : Int} (h : Fits k v) (hk : k ≤ 2045) {f : Float}
    (hf : f.toModel.unpack ≠ .notANumber ∧ unitsOf f = roundInt v) : Is f v := by
  have hunits := hf.2.trans (h.roundInt_eq hk)
  have htop := h.lt_top hk
  refine ⟨isFinite_of_lt (canonical f) hf.1 ?_ ?_, hunits⟩
  · show -(top : Int) < unitsOf f
    omega
  · show unitsOf f < (top : Int)
    omega

theorem is_add {a b : Float} (ha : a.isFinite) (hb : b.isFinite) {k : Nat} (hk : k ≤ 2045)
    (h : Fits k (unitsOf a + unitsOf b)) : Is (a + b) (unitsOf a + unitsOf b) :=
  h.is hk (unitsOf_add ha hb)

theorem is_sub {a b : Float} (ha : a.isFinite) (hb : b.isFinite) {k : Nat} (hk : k ≤ 2045)
    (h : Fits k (unitsOf a - unitsOf b)) : Is (a - b) (unitsOf a - unitsOf b) :=
  h.is hk (unitsOf_sub ha hb)

/-! ## Remainders -/

theorem Fits.tmod {k l : Nat} {v w : Int} (hv : Fits k v) (hw : Fits l w) (hne : w ≠ 0) :
    Fits (min k l) (v.tmod w) := by
  have hrem : v.tmod w = v - w * v.tdiv w := Int.tmod_def v w
  constructor
  · rw [hrem]
    exact Int.dvd_sub ((pow_dvd_pow 2 (Nat.min_le_left k l)).trans hv.dvd)
      (Dvd.dvd.mul_right ((pow_dvd_pow 2 (Nat.min_le_right k l)).trans hw.dvd) _)
  · rw [Int.natAbs_tmod]
    rcases Nat.le_total k l with hkl | hlk
    · rw [Nat.min_eq_left hkl]
      exact (Nat.mod_le _ _).trans_lt hv.natAbs_lt
    · rw [Nat.min_eq_right hlk]
      exact (Nat.mod_lt _ (Int.natAbs_pos.2 hne)).trans hw.natAbs_lt

end Xeibe.Lib.Binary64

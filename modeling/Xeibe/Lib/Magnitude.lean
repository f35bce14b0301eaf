import Xeibe.Lib.Binary64

/-!
# Doubles by their bits

Without the sign, the bits of a double count upwards with its value: the next larger
one has the next larger bits.
-/

namespace Xeibe.Lib.Binary64

open Float.Model Float.Model.UnpackedFloat

/-- The value in units of a double without its sign, by its bits. -/
def magnitude (n : Nat) : Nat :=
  if n / 2 ^ 52 = 0 then n % 2 ^ 52 else (2 ^ 52 + n % 2 ^ 52) * 2 ^ (n / 2 ^ 52 - 1)

@[simp] theorem magnitude_zero : magnitude 0 = 0 := rfl

/-- The gap to the next double is one unit of the last place. -/
theorem magnitude_succ (n : Nat) : magnitude (n + 1) = magnitude n + 2 ^ (n / 2 ^ 52 - 1) := by
  unfold magnitude
  have hr : n % 2 ^ 52 < 2 ^ 52 := Nat.mod_lt _ (Nat.two_pow_pos 52)
  by_cases hcarry : n % 2 ^ 52 + 1 = 2 ^ 52
  · -- the mantissa overflows into the exponent
    have hq : (n + 1) / 2 ^ 52 = n / 2 ^ 52 + 1 := by omega
    have hm : (n + 1) % 2 ^ 52 = 0 := by omega
    rw [hq, hm, if_neg (Nat.succ_ne_zero _), Nat.add_zero, Nat.add_sub_cancel]
    split
    · rename_i hzero
      rw [hzero, pow_zero, Nat.mul_one]
      exact hcarry.symm
    · rename_i hzero
      obtain ⟨k, hk⟩ := Nat.exists_eq_succ_of_ne_zero hzero
      have hdouble : 2 ^ 52 + n % 2 ^ 52 + 1 = 2 ^ 52 * 2 := by omega
      rw [hk, Nat.succ_sub_one, ← Nat.succ_mul, Nat.succ_eq_add_one, Nat.succ_eq_add_one, hdouble,
        Nat.mul_assoc, ← Nat.pow_succ']
  · have hq : (n + 1) / 2 ^ 52 = n / 2 ^ 52 := by omega
    have hm : (n + 1) % 2 ^ 52 = n % 2 ^ 52 + 1 := by omega
    rw [hq, hm]
    split
    · rename_i hzero
      rw [hzero, Nat.zero_sub, pow_zero]
    · rw [← Nat.add_assoc, Nat.succ_mul]

theorem magnitude_lt_succ (n : Nat) : magnitude n < magnitude (n + 1) := by
  rw [magnitude_succ]
  exact Nat.lt_add_of_pos_right (Nat.two_pow_pos _)

theorem two_pow_mul_gap_le {n : Nat} (h : 2 ^ 52 ≤ n) :
    2 ^ 52 * 2 ^ (n / 2 ^ 52 - 1) ≤ magnitude n := by
  have hexp : n / 2 ^ 52 ≠ 0 := by omega
  rw [magnitude, if_neg hexp]
  exact Nat.mul_le_mul_right _ (Nat.le_add_right _ _)

theorem magnitude_strictMono : StrictMono magnitude := strictMono_nat_of_lt_succ magnitude_lt_succ

theorem toNat_unpackExponent (b : BitVec 64) :
    (@unpackExponent .binary64 b).toNat = b.toNat / 2 ^ 52 % 2 ^ 11 := by
  simp only [unpackExponent, BitVec.extractLsb, BitVec.toNat_cast, BitVec.extractLsb'_toNat,
    Nat.shiftRight_eq_div_pow]

theorem toNat_unpackMantissa (b : BitVec 64) :
    (@unpackMantissa .binary64 b).toNat = b.toNat % 2 ^ 52 := by
  simp only [unpackMantissa, BitVec.extractLsb, BitVec.toNat_cast, BitVec.extractLsb'_toNat,
    Nat.shiftRight_zero]

theorem toNat_unpackSign (b : BitVec 64) :
    (@unpackSign .binary64 b).toNat = b.toNat / 2 ^ 63 % 2 := by
  simp only [unpackSign, BitVec.extractLsb, BitVec.toNat_cast, BitVec.extractLsb'_toNat,
    Nat.shiftRight_eq_div_pow]

theorem sign_of_lt {b : BitVec 64} (h : b.toNat < 2 ^ 63) :
    Sign.ofBitVec (@unpackSign .binary64 b) = .positive := by
  have hzero : @unpackSign .binary64 b = 0#1 := by
    apply BitVec.eq_of_toNat_eq
    rw [toNat_unpackSign, BitVec.toNat_ofNat]
    omega
  rw [hzero, Sign.ofBitVec, if_pos rfl]

theorem sign_of_le {b : BitVec 64} (h : 2 ^ 63 ≤ b.toNat) :
    Sign.ofBitVec (@unpackSign .binary64 b) = .negative := by
  have hlt : b.toNat < 2 ^ 64 := b.isLt
  have hone : (@unpackSign .binary64 b).toNat = 1 := by
    rw [toNat_unpackSign]
    omega
  rw [Sign.ofBitVec, if_neg]
  intro hzero
  rw [hzero] at hone
  cases hone

/-- A double that is a number, by its bits. -/
theorem units_unpack {b : BitVec 64} (h : UnpackedFloat.unpack .binary64 b ≠ .notANumber) :
    units (UnpackedFloat.unpack .binary64 b) =
      (Sign.ofBitVec (@unpackSign .binary64 b)).apply (magnitude (b.toNat % 2 ^ 63) : Nat) := by
  have hq : b.toNat % 2 ^ 63 / 2 ^ 52 = (@unpackExponent .binary64 b).toNat := by
    rw [toNat_unpackExponent]
    omega
  have hm : b.toNat % 2 ^ 63 % 2 ^ 52 = (@unpackMantissa .binary64 b).toNat := by
    rw [toNat_unpackMantissa]
    omega
  have hbias : (Format.binary64.exponentBias : Int) = 1023 := by decide
  have hlow : (@unpackMantissa .binary64 b).toNat < 2 ^ 52 := BitVec.isLt _
  rw [magnitude, hq, hm]
  rw [UnpackedFloat.unpack] at h ⊢
  simp only at h ⊢
  split
  · rename_i hone
    split
    · rename_i hzero
      have hexp : (-1#11 : BitVec 11).toNat = 2047 := by decide
      have htop : top = 2 ^ 52 * 2 ^ (2047 - 1) := by decide +kernel
      rw [hone, hzero, units, hexp, htop, if_neg (by decide), BitVec.toNat_ofNat, Nat.zero_mod,
        Nat.add_zero]
    · rename_i hnonzero
      rw [if_pos hone, if_neg hnonzero] at h
      exact absurd rfl h
  · split
    · rename_i hzero
      rw [hzero]
      split
      · rename_i hmantissa
        rw [hmantissa, units]
        cases Sign.ofBitVec (@unpackSign .binary64 b) <;> rfl
      · rw [units, hbias]
        show Sign.apply _ (((@unpackMantissa .binary64 b).toNat * 2 ^ 0 : Nat) : Int) = _
        rw [pow_zero, Nat.mul_one]
        rfl
    · rename_i hzero
      have hexp : (@unpackExponent .binary64 b).toNat ≠ 0 := by
        intro heq
        exact hzero (BitVec.eq_of_toNat_eq heq)
      have hmantissa : (1#1 ++ @unpackMantissa .binary64 b).toNat =
          2 ^ 52 + (@unpackMantissa .binary64 b).toNat := by
        rw [BitVec.toNat_append, ← Nat.shiftLeft_add_eq_or_of_lt hlow, Nat.shiftLeft_eq]
        rfl
      have hplace : ((@unpackExponent .binary64 b).toNat - ((1023 : Int) + 52) + 1074).toNat =
          (@unpackExponent .binary64 b).toNat - 1 := by omega
      rw [if_neg hexp, units, hmantissa, hbias]
      show Sign.apply _ (((2 ^ 52 + (@unpackMantissa .binary64 b).toNat) *
        2 ^ ((@unpackExponent .binary64 b).toNat - ((1023 : Int) + 52) + 1074).toNat : Nat) : Int) = _
      rw [hplace]

theorem units_neg {u : UnpackedFloat} : units (UnpackedFloat.neg u) = -units u := by
  cases u with
  | notANumber => rfl
  | infinity sign => exact apply_neg sign _
  | zero sign => rfl
  | finite sign m e h => exact apply_neg sign _

theorem Canonical.neg {u : UnpackedFloat} (h : Canonical u) : Canonical (UnpackedFloat.neg u) := by
  cases h with
  | notANumber => exact .notANumber
  | infinity sign => exact .infinity _
  | zero sign => exact .zero _
  | finite sign m k h hm hk hmax => exact .finite _ m k h hm hk hmax

theorem unpack_neg (f : Float) : (-f).toModel.unpack = UnpackedFloat.neg f.toModel.unpack :=
  unpack_pack_of_canonical (canonical f).neg

end Xeibe.Lib.Binary64

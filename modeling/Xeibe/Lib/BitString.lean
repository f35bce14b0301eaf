import Mathlib.Data.List.Basic
import Mathlib.Data.Nat.Bitwise

/-!
# Numbers and bytes as strings of bits

The low bits of a number, most significant first, and bytes as the bits they
hold.  A string of bits is packed into bytes from the front, with the last byte
filled up.
-/

namespace Xeibe.Lib

/-- The low `width` bits of a number, most significant first. -/
def toBits : Nat → Nat → List Bool
  | 0, _ => []
  | width + 1, n => n.testBit width :: toBits width n

/-- The number that bits stand for, most significant first. -/
def ofBits : List Bool → Nat
  | [] => 0
  | bit :: bits => bit.toNat * 2 ^ bits.length + ofBits bits

/-- The bits of bytes, one byte after the other. -/
def unpack (bytes : List UInt8) : List Bool := bytes.flatMap fun b => toBits 8 b.toNat

/-- One byte of at most eight bits. -/
def packByte (bits : List Bool) : UInt8 :=
  UInt8.ofNat (ofBits (bits ++ List.replicate (8 - bits.length) false))

/-- Bits in bytes, the last one filled up with zeros. -/
def pack : List Bool → List UInt8
  | a :: b :: c :: d :: e :: f :: g :: h :: bits => packByte [a, b, c, d, e, f, g, h] :: pack bits
  | [] => []
  | bits => [packByte bits]

/-! ## Bits of numbers -/

@[simp] theorem length_toBits (width n : Nat) : (toBits width n).length = width := by
  induction width with
  | zero => rfl
  | succ width ih => rw [toBits, List.length_cons, ih]

theorem toBits_congr {width a b : Nat} (h : ∀ i < width, a.testBit i = b.testBit i) :
    toBits width a = toBits width b := by
  induction width with
  | zero => rfl
  | succ width ih =>
    rw [toBits, toBits, h width (Nat.lt_succ_self _), ih fun i hi => h i (Nat.lt_succ_of_lt hi)]

theorem toBits_append (width₁ width₂ a : Nat) {b : Nat} (hb : b < 2 ^ width₂) :
    toBits width₁ a ++ toBits width₂ b = toBits (width₁ + width₂) (2 ^ width₂ * a + b) := by
  have hbit := Nat.testBit_two_pow_mul_add a hb
  induction width₁ with
  | zero =>
    rw [toBits, List.nil_append, Nat.zero_add]
    refine toBits_congr fun i hi => ?_
    rw [hbit, if_pos hi]
  | succ width₁ ih =>
    rw [toBits, List.cons_append, ih, Nat.succ_add, toBits, hbit, if_neg (by omega),
      Nat.add_sub_cancel]

theorem toBits_injective {width a b : Nat} (ha : a < 2 ^ width) (hb : b < 2 ^ width)
    (h : toBits width a = toBits width b) : a = b := by
  have hbits : ∀ i < width, a.testBit i = b.testBit i := by
    clear ha hb
    induction width with
    | zero => intro i hi; omega
    | succ width ih =>
      rw [toBits, toBits, List.cons.injEq] at h
      intro i hi
      rcases Nat.lt_succ_iff_lt_or_eq.1 hi with hi | rfl
      · exact ih h.2 i hi
      · exact h.1
  refine Nat.eq_of_testBit_eq fun i => ?_
  rcases Nat.lt_or_ge i width with hi | hi
  · exact hbits i hi
  · have hpow : 2 ^ width ≤ 2 ^ i := Nat.pow_le_pow_right (by decide) hi
    rw [Nat.testBit_lt_two_pow (by omega), Nat.testBit_lt_two_pow (by omega)]

theorem toBits_split {width n : Nat} (k : Nat) (hk : k ≤ width) :
    toBits width n = toBits (width - k) (n / 2 ^ k) ++ toBits k (n % 2 ^ k) := by
  rw [toBits_append _ _ _ (Nat.mod_lt _ (Nat.two_pow_pos k)), Nat.sub_add_cancel hk,
    Nat.div_add_mod]

/-! ## Bits in bytes -/

theorem ofBits_lt (bits : List Bool) : ofBits bits < 2 ^ bits.length := by
  induction bits with
  | nil => decide
  | cons bit bits ih =>
    have hbit := Bool.toNat_le bit
    have hmul : bit.toNat * 2 ^ bits.length ≤ 1 * 2 ^ bits.length := Nat.mul_le_mul_right _ hbit
    rw [ofBits, List.length_cons, Nat.pow_succ]
    omega

theorem toBits_ofBits (bits : List Bool) : toBits bits.length (ofBits bits) = bits := by
  induction bits with
  | nil => rfl
  | cons bit bits ih =>
    have hone : toBits 1 bit.toNat = [bit] := by cases bit <;> decide
    rw [List.length_cons, ofBits, Nat.mul_comm, Nat.add_comm bits.length,
      ← toBits_append 1 _ _ (ofBits_lt bits), hone, ih, List.singleton_append]

theorem toBits_packByte {bits : List Bool} (h : bits.length ≤ 8) :
    toBits 8 (packByte bits).toNat = bits ++ List.replicate (8 - bits.length) false := by
  have hlength : (bits ++ List.replicate (8 - bits.length) false).length = 8 := by
    rw [List.length_append, List.length_replicate]
    omega
  have hlt := ofBits_lt (bits ++ List.replicate (8 - bits.length) false)
  have hbits := toBits_ofBits (bits ++ List.replicate (8 - bits.length) false)
  rw [hlength] at hlt hbits
  rw [packByte, UInt8.toNat_ofNat', Nat.mod_eq_of_lt hlt, hbits]

/-- What was packed is read first, and only fill after it. -/
theorem unpack_pack (bits : List Bool) : ∃ fill, unpack (pack bits) = bits ++ fill := by
  induction bits using pack.induct with
  | case1 a b c d e f g h bits ih =>
    obtain ⟨fill, hfill⟩ := ih
    refine ⟨fill, ?_⟩
    rw [pack, unpack, List.flatMap_cons, toBits_packByte (by simp)]
    rw [unpack] at hfill
    rw [hfill]
    rfl
  | case2 => exact ⟨[], rfl⟩
  | case3 bits hlong hne =>
    refine ⟨List.replicate (8 - bits.length) false, ?_⟩
    have hshort : bits.length ≤ 8 := by
      rcases bits with _ | ⟨a, _ | ⟨b, _ | ⟨c, _ | ⟨d, _ | ⟨e, _ | ⟨f, _ | ⟨g, _ | ⟨h, bits⟩⟩⟩⟩⟩⟩⟩⟩
      case cons.cons.cons.cons.cons.cons.cons.cons => exact (hlong _ _ _ _ _ _ _ _ _ rfl).elim
      all_goals simp
    rw [pack.eq_3 bits hlong hne, unpack, List.flatMap_singleton, toBits_packByte hshort]

end Xeibe.Lib

import Xeibe.Reproject.Select.Search.NextDouble

/-!
# Doubles within a tolerance

The difference of two doubles either way round, and the comparisons made of it: they
don't depend on which of the two comes first.
-/

namespace Xeibe.Lib.Binary64

open Float.Model Float.Model.UnpackedFloat

theorem roundInt_neg (v : Int) : roundInt (-v) = -roundInt v := by
  unfold roundInt
  rw [Int.natAbs_neg]
  rcases Int.lt_trichotomy v 0 with hneg | hzero | hpos
  · rw [if_pos hneg, if_neg (by omega), Int.neg_neg]
  · subst hzero
    have h := roundInt_zero
    rw [roundInt, if_neg (by omega)] at h
    rw [Int.neg_zero, if_neg (by omega), h]
    rfl
  · rw [if_neg (show ¬v < 0 by omega), if_pos (by omega)]

/-- Two results that are each other's negation. -/
def Opposite (u w : UnpackedFloat) : Prop :=
  (u = .notANumber ↔ w = .notANumber) ∧ units w = -units u

theorem Opposite.symm {u w : UnpackedFloat} (h : Opposite u w) : Opposite w u := by
  refine ⟨h.1.symm, ?_⟩
  have hunits := h.2
  omega

theorem opposite_infinity {s t : Sign} (h : t = -s) :
    Opposite (UnpackedFloat.unpack .binary64 (UnpackedFloat.pack .binary64 (.infinity s)))
      (UnpackedFloat.unpack .binary64 (UnpackedFloat.pack .binary64 (.infinity t))) := by
  subst h
  rw [unpack_pack_infinity, unpack_pack_infinity]
  refine ⟨⟨nofun, nofun⟩, ?_⟩
  exact apply_neg s top

theorem opposite_notANumber {u w : UnpackedFloat} (hu : u = .notANumber) (hw : w = .notANumber) :
    Opposite (UnpackedFloat.unpack .binary64 (UnpackedFloat.pack .binary64 u))
      (UnpackedFloat.unpack .binary64 (UnpackedFloat.pack .binary64 w)) := by
  rw [hu, hw, unpack_pack_notANumber]
  exact ⟨Iff.rfl, rfl⟩

theorem opposite_of_rounds {u w : UnpackedFloat} {v : Int} (hu : Rounds u v) (hw : Rounds w (-v)) :
    Opposite (UnpackedFloat.unpack .binary64 (UnpackedFloat.pack .binary64 u))
      (UnpackedFloat.unpack .binary64 (UnpackedFloat.pack .binary64 w)) := by
  refine ⟨⟨fun h => absurd h hu.1, fun h => absurd h hw.1⟩, ?_⟩
  rw [hu.2, hw.2, roundInt_neg]

/-- Subtracted the other way round. -/
theorem opposite_sub {a b : UnpackedFloat} (ha : Canonical a) (hb : Canonical b) :
    Opposite (UnpackedFloat.unpack .binary64 (UnpackedFloat.pack .binary64 (sub .binary64 a b)))
      (UnpackedFloat.unpack .binary64 (UnpackedFloat.pack .binary64 (sub .binary64 b a))) := by
  by_cases hfin : a.isFinite ∧ b.isFinite
  · have hswap : units b - units a = -(units a - units b) := by omega
    have h := rounds_sub hb ha hfin.2 hfin.1
    rw [hswap] at h
    exact opposite_of_rounds (rounds_sub ha hb hfin.1 hfin.2) h
  · cases a with
    | notANumber =>
      exact opposite_notANumber (by cases b <;> rfl) (by cases b <;> rfl)
    | infinity s =>
      cases b with
      | notANumber => exact opposite_notANumber rfl rfl
      | infinity t =>
        cases s <;> cases t
        · exact opposite_notANumber rfl rfl
        · exact opposite_infinity rfl
        · exact opposite_infinity rfl
        · exact opposite_notANumber rfl rfl
      | zero t => exact opposite_infinity rfl
      | finite t m e h => exact opposite_infinity rfl
    | zero s =>
      cases b with
      | notANumber => exact opposite_notANumber rfl rfl
      | infinity t => exact (opposite_infinity rfl).symm
      | zero t => exact absurd ⟨rfl, rfl⟩ hfin
      | finite t m e h => exact absurd ⟨rfl, rfl⟩ hfin
    | finite s m e h =>
      cases b with
      | notANumber => exact opposite_notANumber rfl rfl
      | infinity t => exact (opposite_infinity rfl).symm
      | zero t => exact absurd ⟨rfl, rfl⟩ hfin
      | finite t m' e' h' => exact absurd ⟨rfl, rfl⟩ hfin

end Xeibe.Lib.Binary64

namespace Xeibe.Geom.F64

open Xeibe.Lib
open Float.Model (UnpackedFloat)

theorem toNat_abs (a : F64) : a.abs.bits.toNat = a.bits.toNat % 2 ^ 63 := by
  show (a.bits &&& 0x7fffffffffffffff).toNat = _
  rw [UInt64.toNat_and]
  exact Nat.and_two_pow_sub_one_eq_mod _ 63

@[simp] theorem isNan_abs (a : F64) : a.abs.isNan = a.isNan := by
  rw [Bool.eq_iff_iff, isNan_iff_bits, isNan_iff_bits, toNat_abs, Nat.mod_mod]

theorem units_abs {a : F64} (ha : a.isNan = false) : a.abs.units = a.units.natAbs := by
  have habs := units_of_lt ((isNan_abs a).trans ha)
    (by rw [toNat_abs]; exact Nat.mod_lt _ (Nat.two_pow_pos 63))
  rw [habs, toNat_abs]
  rcases Nat.lt_or_ge a.bits.toNat (2 ^ 63) with hlt | hge
  · rw [units_of_lt ha hlt, Nat.mod_eq_of_lt hlt, Int.natAbs_natCast]
  · have hbits : a.bits.toNat < 2 ^ 64 := a.bits.toNat_lt
    have hmod : a.bits.toNat % 2 ^ 63 = a.bits.toNat - 2 ^ 63 := by omega
    rw [units_of_le ha hge, hmod, Int.natAbs_neg, Int.natAbs_natCast]

/-- The difference either way round. -/
theorem sub_swap (a b : F64) :
    (b - a).isNan = (a - b).isNan ∧ (b - a).units = -(a - b).units := by
  have h := Binary64.opposite_sub (Binary64.canonical a.toFloat) (Binary64.canonical b.toFloat)
  have hsub : (a - b).toFloat.toModel.unpack =
      UnpackedFloat.unpack .binary64 (UnpackedFloat.pack .binary64
        (UnpackedFloat.sub .binary64 a.toFloat.toModel.unpack b.toFloat.toModel.unpack)) := by
    rw [toFloat_sub]
    rfl
  have hswap : (b - a).toFloat.toModel.unpack =
      UnpackedFloat.unpack .binary64 (UnpackedFloat.pack .binary64
        (UnpackedFloat.sub .binary64 b.toFloat.toModel.unpack a.toFloat.toModel.unpack)) := by
    rw [toFloat_sub]
    rfl
  rw [← hsub, ← hswap] at h
  refine ⟨?_, h.2⟩
  rw [Bool.eq_iff_iff, isNan_iff, isNan_iff]
  exact h.1.symm

theorem abs_sub_le_comm (a b t : F64) : (a - b).abs ≤ t ↔ (b - a).abs ≤ t := by
  obtain ⟨hnan, hunits⟩ := sub_swap a b
  cases hab : (a - b).isNan with
  | true =>
    rw [hab] at hnan
    constructor
    · intro h
      have hcontra := (isNan_of_le h).1
      rw [isNan_abs, hab] at hcontra
      cases hcontra
    · intro h
      have hcontra := (isNan_of_le h).1
      rw [isNan_abs, hnan] at hcontra
      cases hcontra
  | false =>
    rw [hab] at hnan
    cases ht : t.isNan with
    | true =>
      constructor
      · intro h
        have hcontra := (isNan_of_le h).2
        rw [ht] at hcontra
        cases hcontra
      · intro h
        have hcontra := (isNan_of_le h).2
        rw [ht] at hcontra
        cases hcontra
    | false =>
      rw [le_iff_units ((isNan_abs _).trans hab) ht, le_iff_units ((isNan_abs _).trans hnan) ht,
        units_abs hab, units_abs hnan, hunits, Int.natAbs_neg]

theorem beq_comm (a b : F64) : a.eq b = b.eq a := by
  have hswap : ∀ a b : F64, a.eq b = true → b.eq a = true := by
    intro a b h
    obtain ⟨ha, hb, hunits⟩ := eq_units h
    exact (eq_iff_units hb ha).2 hunits.symm
  rw [Bool.eq_iff_iff]
  exact ⟨hswap a b, hswap b a⟩

theorem beq_self {a : F64} (ha : a.isNan = false) : a.eq a = true := (eq_iff_units ha ha).2 rfl

theorem abs_ext {a b : F64} (ha : a.isNan = false) (hb : b.isNan = false)
    (h : a.abs.units = b.abs.units) : a.abs = b.abs := by
  have hlt : ∀ a : F64, a.abs.bits.toNat < 2 ^ 63 := by
    intro a
    rw [toNat_abs]
    exact Nat.mod_lt _ (Nat.two_pow_pos 63)
  rw [units_of_lt ((isNan_abs a).trans ha) (hlt a),
    units_of_lt ((isNan_abs b).trans hb) (hlt b)] at h
  have hbits : a.abs.bits = b.abs.bits := by
    apply UInt64.toNat_inj.1
    exact Binary64.magnitude_strictMono.injective (Int.ofNat.inj h)
  exact congrArg F64.mk hbits

theorem max_abs_comm {a b : F64} (ha : a.isNan = false) (hb : b.isNan = false) :
    a.abs.max b.abs = b.abs.max a.abs := by
  have ha' := (isNan_abs a).trans ha
  have hb' := (isNan_abs b).trans hb
  unfold F64.max
  rw [ha', hb']
  simp only [Bool.false_eq_true, if_false]
  have hab := lt_iff_units ha' hb'
  have hba := lt_iff_units hb' ha'
  rcases Int.lt_trichotomy a.abs.units b.abs.units with hlt | heq | hgt
  · rw [if_pos (hab.2 hlt), if_neg (mt hba.1 (by omega))]
  · rw [if_neg (mt hab.1 (by omega)), if_neg (mt hba.1 (by omega))]
    exact abs_ext ha hb heq
  · rw [if_neg (mt hab.1 (by omega)), if_pos (hba.2 hgt)]

theorem isNan_sub_left {a : F64} (ha : a.isNan = true) (b : F64) : (a - b).isNan = true := by
  rw [isNan_iff, toFloat_sub]
  show UnpackedFloat.unpack .binary64 (UnpackedFloat.pack .binary64
    (UnpackedFloat.sub .binary64 a.toFloat.toModel.unpack b.toFloat.toModel.unpack)) = _
  rw [(isNan_iff a).1 ha]
  have hsub : UnpackedFloat.sub .binary64 .notANumber b.toFloat.toModel.unpack = .notANumber := by
    cases b.toFloat.toModel.unpack <;> rfl
  rw [hsub, Binary64.unpack_pack_notANumber]

/-- Equal, or no further apart than a fraction of the larger one. -/
def within (tolerance a b : F64) : Bool :=
  a.eq b || decide ((a - b).abs ≤ tolerance * a.abs.max b.abs)

theorem within_comm (tolerance a b : F64) : within tolerance a b = within tolerance b a := by
  unfold within
  rw [beq_comm a b]
  cases hab : (a - b).isNan with
  | true =>
    -- Nothing is within anything of NaN.
    have hba := (sub_swap a b).1.trans hab
    have hfar : ∀ (x : F64), x.isNan = true → ∀ t : F64, decide (x.abs ≤ t) = false := by
      intro x hx t
      refine decide_eq_false fun hle => ?_
      have hcontra := (isNan_of_le hle).1
      rw [isNan_abs, hx] at hcontra
      cases hcontra
    rw [hfar _ hab, hfar _ hba]
  | false =>
    have ha : a.isNan = false := by
      cases ha : a.isNan with
      | false => rfl
      | true =>
        rw [isNan_sub_left ha] at hab
        cases hab
    have hb : b.isNan = false := by
      cases hb : b.isNan with
      | false => rfl
      | true =>
        rw [← (sub_swap a b).1, isNan_sub_left hb] at hab
        cases hab
    rw [max_abs_comm ha hb, decide_eq_decide.2 (abs_sub_le_comm a b _)]

theorem within_self {a : F64} (ha : a.isNan = false) (tolerance : F64) :
    within tolerance a a = true := by
  rw [within, beq_self ha, Bool.true_or]

theorem not_within_of_isNan {a : F64} (ha : a.isNan = true) (b tolerance : F64) :
    within tolerance a b = false := by
  unfold within
  rw [Bool.or_eq_false_iff]
  constructor
  · rw [Bool.eq_false_iff]
    intro heq
    rw [(isNan_of_eq heq).1] at ha
    cases ha
  · refine decide_eq_false fun hle => ?_
    have hnan := (isNan_of_le hle).1
    rw [isNan_abs, isNan_sub_left ha] at hnan
    cases hnan

end Xeibe.Geom.F64

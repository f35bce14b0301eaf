import Mathlib

/-!
# Sums, differences and multiples of doubles

Order facts about binary64 arithmetic, from the logical model of `Float`.

Every finite double is a whole number of units of `2^-1074`; an infinity counts
as the first power of two beyond the finite ones.  In units, comparison is
comparison of integers, and a sum, a difference and a multiple are the exact
integer, rounded.  Rounding is monotone and leaves doubles alone, so the
operations are monotone.
-/

namespace Xeibe.Lib.Binary64

open Float.Model Float.Model.UnpackedFloat

/-! ## Rounding a mantissa -/

/-- `n / 2 ^ s`, to the nearest whole number, to the even one of two. -/
def nearest (n s : Nat) : Nat :=
  n / 2 ^ s + if 2 ^ s < 2 * (n % 2 ^ s) ∨ (2 ^ s = 2 * (n % 2 ^ s) ∧ n / 2 ^ s % 2 = 1)
    then 1 else 0

theorem le_nearest (n s : Nat) : n / 2 ^ s ≤ nearest n s := Nat.le_add_right _ _

theorem nearest_le (n s : Nat) : nearest n s ≤ n / 2 ^ s + 1 := by
  unfold nearest
  split <;> omega

theorem nearest_mono {m n : Nat} (s : Nat) (h : m ≤ n) : nearest m s ≤ nearest n s := by
  have hq : m / 2 ^ s ≤ n / 2 ^ s := Nat.div_le_div_right h
  rcases Nat.lt_or_eq_of_le hq with hlt | heq
  · calc nearest m s ≤ m / 2 ^ s + 1 := nearest_le m s
      _ ≤ n / 2 ^ s := hlt
      _ ≤ nearest n s := le_nearest n s
  · have hm := Nat.div_add_mod m (2 ^ s)
    have hn := Nat.div_add_mod n (2 ^ s)
    have hr : m % 2 ^ s ≤ n % 2 ^ s := by
      rw [heq] at hm
      omega
    unfold nearest
    rw [heq]
    split_ifs <;> omega

theorem nearest_scale (n s j : Nat) : nearest (n * 2 ^ j) (s + j) = nearest n s := by
  have hpos : 0 < 2 ^ j := Nat.two_pow_pos j
  have hpow : 2 ^ (s + j) = 2 ^ s * 2 ^ j := Nat.pow_add 2 s j
  have hdiv : n * 2 ^ j / 2 ^ (s + j) = n / 2 ^ s := by
    rw [hpow, Nat.mul_div_mul_right _ _ hpos]
  have hmod : n * 2 ^ j % 2 ^ (s + j) = n % 2 ^ s * 2 ^ j := by
    rw [hpow, Nat.mul_mod_mul_right]
  have hlt : 2 ^ (s + j) < 2 * (n * 2 ^ j % 2 ^ (s + j)) ↔ 2 ^ s < 2 * (n % 2 ^ s) := by
    rw [hmod, hpow, ← Nat.mul_assoc]
    exact Nat.mul_lt_mul_right hpos
  have heq : 2 ^ (s + j) = 2 * (n * 2 ^ j % 2 ^ (s + j)) ↔ 2 ^ s = 2 * (n % 2 ^ s) := by
    rw [hmod, hpow, ← Nat.mul_assoc]
    exact Nat.mul_left_inj (Nat.pos_iff_ne_zero.1 hpos)
  unfold nearest
  simp only [hdiv, hlt, heq]

/-- What `s` shifts to the right make of an exact mantissa. -/
theorem repeat_shiftRightOne (n s : Nat) :
    Nat.repeat ExtendedMantissa.shiftRightOne s ⟨n, false, false⟩ =
      ⟨n / 2 ^ s, decide (2 ^ s ≤ 2 * (n % 2 ^ s)), decide (2 * (n % 2 ^ s) % 2 ^ s ≠ 0)⟩ := by
  induction s with
  | zero => simp [Nat.repeat, Nat.mod_one]
  | succ s ih =>
    have hpos : 0 < 2 ^ s := Nat.two_pow_pos s
    have hr : n % 2 ^ s < 2 ^ s := Nat.mod_lt _ hpos
    have hsplit : n % 2 ^ (s + 1) = n % 2 ^ s + 2 ^ s * (n / 2 ^ s % 2) := by
      rw [Nat.pow_succ, Nat.mod_mul]
    have hpow : 2 ^ (s + 1) = 2 * 2 ^ s := by
      rw [Nat.pow_succ, Nat.mul_comm]
    have hsticky : 2 * (n % 2 ^ (s + 1)) % 2 ^ (s + 1) = 2 * (n % 2 ^ s) := by
      rw [hsplit, Nat.mul_add, ← Nat.mul_assoc, ← hpow, Nat.add_mul_mod_self_left,
        Nat.mod_eq_of_lt (by omega)]
    have hbit : n / 2 ^ s % 2 = 0 ∨ n / 2 ^ s % 2 = 1 := by omega
    rw [Nat.repeat, ih, ExtendedMantissa.shiftRightOne]
    simp only [ExtendedMantissa.mk.injEq]
    refine ⟨?_, ?_, ?_⟩
    · rw [Nat.div_div_eq_div_mul, ← Nat.pow_succ]
    · rw [hsplit, hpow]
      rcases hbit with h | h
      · rw [h]
        simp
        omega
      · rw [h]
        simp
    · rw [hsticky]
      by_cases hzero : n % 2 ^ s = 0
      · simp [hzero]
      · by_cases hhalf : 2 ^ s ≤ 2 * (n % 2 ^ s)
        · simp [hhalf, hzero]
        · rw [Nat.mod_eq_of_lt (a := 2 * (n % 2 ^ s)) (b := 2 ^ s) (by omega)]
          simp [hhalf]

/-- Shifting rounds to the nearest. -/
theorem roundedMantissa_shift (n s : Nat) :
    (Nat.repeat ExtendedMantissa.shiftRightOne s ⟨n, false, false⟩).roundedMantissa =
      nearest n s := by
  have hpos : 0 < 2 ^ s := Nat.two_pow_pos s
  have hr : n % 2 ^ s < 2 ^ s := Nat.mod_lt _ hpos
  rw [repeat_shiftRightOne]
  unfold nearest
  by_cases hround : 2 ^ s ≤ 2 * (n % 2 ^ s)
  · have hmod : 2 * (n % 2 ^ s) % 2 ^ s = 2 * (n % 2 ^ s) - 2 ^ s := by
      rw [Nat.mod_eq_sub_mod hround, Nat.mod_eq_of_lt (by omega)]
    by_cases hhalf : 2 ^ s = 2 * (n % 2 ^ s)
    · have hsticky : 2 * (n % 2 ^ s) % 2 ^ s = 0 := by omega
      simp only [hround, hsticky, ExtendedMantissa.roundedMantissa, ExtendedMantissa.accuracy,
        Accuracy.roundToNearestEven, decide_true, decide_false, ne_eq, not_true_eq_false]
      split_ifs <;> omega
    · have hsticky : 2 * (n % 2 ^ s) % 2 ^ s ≠ 0 := by omega
      simp only [hround, hsticky, ExtendedMantissa.roundedMantissa, ExtendedMantissa.accuracy,
        Accuracy.roundToNearestEven, decide_true, ne_eq, not_false_eq_true]
      split_ifs <;> omega
  · have hnone : ¬ (2 ^ s < 2 * (n % 2 ^ s) ∨ (2 ^ s = 2 * (n % 2 ^ s) ∧ n / 2 ^ s % 2 = 1)) := by
      omega
    rw [if_neg hnone, Nat.add_zero]
    by_cases hsticky : 2 * (n % 2 ^ s) % 2 ^ s = 0
    · simp only [hround, hsticky, ExtendedMantissa.roundedMantissa, ExtendedMantissa.accuracy,
        Accuracy.roundToNearestEven, decide_false, ne_eq, not_true_eq_false]
    · simp only [hround, hsticky, ExtendedMantissa.roundedMantissa, ExtendedMantissa.accuracy,
        Accuracy.roundToNearestEven, decide_false, ne_eq, not_false_eq_true, decide_true]

/-! ## Rounding to 53 bits -/

/-- The last place of a whole number of units. -/
def place (n : Nat) : Nat := n.log2 - 52

/-- A whole number of units, rounded to 53 bits. -/
def roundNat (n : Nat) : Nat := nearest n (place n) * 2 ^ place n

theorem lt_two_pow_place (n : Nat) : n < 2 ^ (place n + 53) :=
  Nat.lt_of_lt_of_le Nat.lt_log2_self (Nat.pow_le_pow_right (by omega) (by unfold place; omega))

theorem two_pow_place_le {n : Nat} (h : 0 < place n) : 2 ^ (place n + 52) ≤ n := by
  have hlog : place n + 52 = n.log2 := by
    unfold place at h ⊢
    omega
  have hn : n ≠ 0 := by
    rintro rfl
    simp [place] at h
  rw [hlog]
  exact Nat.log2_self_le hn

theorem place_mono {m n : Nat} (h : m ≤ n) : place m ≤ place n := by
  unfold place
  rcases Nat.eq_zero_or_pos m with rfl | hm
  · simp
  · have hlog : m.log2 ≤ n.log2 :=
      (Nat.le_log2 (by omega)).2 (Nat.le_trans (Nat.log2_self_le (by omega)) h)
    omega

theorem nearest_place_le (n : Nat) : nearest n (place n) ≤ 2 ^ 53 := by
  have hdiv : n / 2 ^ place n < 2 ^ 53 := by
    apply Nat.div_lt_of_lt_mul
    rw [← Nat.pow_add]
    exact lt_two_pow_place n
  have hup := nearest_le n (place n)
  omega

theorem carry_place (k : Nat) : 2 ^ 53 * 2 ^ k = 2 ^ 52 * 2 ^ (k + 1) := by
  rw [Nat.pow_succ]
  omega

theorem roundNat_mono {m n : Nat} (h : m ≤ n) : roundNat m ≤ roundNat n := by
  rcases Nat.lt_or_eq_of_le (place_mono h) with hlt | heq
  · have hlow : 2 ^ 52 ≤ nearest n (place n) := by
      apply Nat.le_trans _ (le_nearest n (place n))
      rw [Nat.le_div_iff_mul_le (Nat.two_pow_pos _), ← Nat.pow_add, Nat.add_comm]
      exact two_pow_place_le (by omega)
    calc roundNat m ≤ 2 ^ 53 * 2 ^ place m := Nat.mul_le_mul_right _ (nearest_place_le m)
      _ = 2 ^ 52 * 2 ^ (place m + 1) := carry_place _
      _ ≤ 2 ^ 52 * 2 ^ place n :=
        Nat.mul_le_mul_left _ (Nat.pow_le_pow_right (by omega) hlt)
      _ ≤ roundNat n := Nat.mul_le_mul_right _ hlow
  · unfold roundNat
    rw [heq]
    exact Nat.mul_le_mul_right _ (nearest_mono _ h)

theorem log2_mul_two_pow {m : Nat} (hm : 0 < m) (k : Nat) : (m * 2 ^ k).log2 = m.log2 + k := by
  have hlow : 2 ^ (m.log2 + k) ≤ m * 2 ^ k := by
    rw [Nat.pow_add]
    exact Nat.mul_le_mul_right _ (Nat.log2_self_le (by omega))
  have hhigh : m * 2 ^ k < 2 ^ (m.log2 + k + 1) := by
    rw [Nat.add_right_comm, Nat.pow_add]
    exact Nat.mul_lt_mul_of_pos_right Nat.lt_log2_self (Nat.two_pow_pos k)
  have hne : m * 2 ^ k ≠ 0 := by
    have hpos := Nat.mul_pos hm (Nat.two_pow_pos k)
    omega
  exact (Nat.log2_eq_iff hne).2 ⟨hlow, hhigh⟩

/-- What has 53 bits already stays as it is. -/
theorem roundNat_of_lt {m : Nat} (h : m < 2 ^ 53) (k : Nat) :
    roundNat (m * 2 ^ k) = m * 2 ^ k := by
  rcases Nat.eq_zero_or_pos m with rfl | hm
  · simp [roundNat, nearest]
  have hlog : m.log2 < 53 := (Nat.log2_lt (by omega)).2 h
  have hplace : place (m * 2 ^ k) ≤ k := by
    unfold place
    rw [log2_mul_two_pow hm]
    omega
  have hdvd : 2 ^ place (m * 2 ^ k) ∣ m * 2 ^ k :=
    Nat.dvd_trans (Nat.pow_dvd_pow 2 hplace) (Nat.dvd_mul_left _ _)
  have hmod : m * 2 ^ k % 2 ^ place (m * 2 ^ k) = 0 := Nat.mod_eq_zero_of_dvd hdvd
  have hpos : 0 < 2 ^ place (m * 2 ^ k) := Nat.two_pow_pos _
  have hnear : nearest (m * 2 ^ k) (place (m * 2 ^ k)) =
      m * 2 ^ k / 2 ^ place (m * 2 ^ k) := by
    unfold nearest
    rw [hmod, if_neg (by omega), Nat.add_zero]
  rw [roundNat, hnear, Nat.div_mul_cancel hdvd]

/-! ## The values that the operations make -/

/-- The first power of two that is no double, in units. -/
def top : Nat := 2 ^ 53 * 2 ^ 2045

/-- A double or, if it is too large, what is packed to an infinity: `n` units,
in canonical form. -/
inductive Holds (sign : Sign) : UnpackedFloat → Nat → Prop where
  | zero : Holds sign (.zero sign) 0
  | finite (m : Nat) (k : Nat) (h : 0 < m) (hm : m < 2 ^ 53) (hk : 2 ^ 52 ≤ m ∨ k = 0) :
    Holds sign (.finite sign m (k - 1074) h) (m * 2 ^ k)

theorem targetExponent_eq (m : Nat) (e : Int) :
    Format.binary64.targetExponent (totalExponent m e) = max (m.log2 + e - 52) (-1074) := by
  have hbits : Format.binary64.mantissaBits = 53 := by decide
  have hmin : Format.binary64.minExponent = -1074 := by decide
  simp only [Format.targetExponent, totalExponent, hbits, hmin]
  omega

/-- A shifted mantissa with its exponent and sign. -/
def signed (sign : Sign) (p : ExtendedMantissa × Int) : UnpackedFloat :=
  if h : p.1.mantissa = 0 then .zero sign
  else .finite sign p.1.mantissa p.2 (Nat.pos_of_ne_zero h)

theorem roundWithAccuracy_eq (sign : Sign) (m : Nat) (e : Int) (accuracy : Accuracy) :
    roundWithAccuracy .binary64 sign m e accuracy =
      signed sign (shiftToTargetExponent .binary64
        (shiftToTargetExponent .binary64 m e accuracy).1.roundedMantissa
        (shiftToTargetExponent .binary64 m e accuracy).2 .exact) := rfl

/-- Rounding makes the double nearest to `n` units, from any mantissa that is
fine enough. -/
theorem holds_roundWithAccuracy (sign : Sign) {m n a b : Nat} {e : Int} (hm : 0 < m)
    (hvalue : m * 2 ^ a = n * 2 ^ b) (he : e + 1074 + b = a)
    (hfine : e ≤ max (m.log2 + e - 52) (-1074)) :
    Holds sign (roundWithAccuracy .binary64 sign m e .exact) (roundNat n) := by
  have hn : 0 < n := by
    rcases Nat.eq_zero_or_pos n with rfl | hn
    · have hpos := Nat.mul_pos hm (Nat.two_pow_pos a)
      omega
    · exact hn
  have hlog : m.log2 + a = n.log2 + b := by
    rw [← log2_mul_two_pow hm, hvalue, log2_mul_two_pow hn]
  have hplace : max (m.log2 + e - 52) (-1074) + 1074 = (place n : Int) := by
    unfold place
    omega
  -- The shift to the last place of `n`.
  obtain ⟨s, hs⟩ : ∃ s : Nat, (s : Int) = max (m.log2 + e - 52) (-1074) - e :=
    ⟨(max (m.log2 + e - 52) (-1074) - e).toNat, by omega⟩
  have hshift : s + a = place n + b := by omega
  have hnear : nearest m s = nearest n (place n) := by
    rw [← nearest_scale m s a, hvalue, hshift, nearest_scale]
  have hfirst : shiftToTargetExponent .binary64 m e .exact =
      (Nat.repeat ExtendedMantissa.shiftRightOne s ⟨m, false, false⟩, (place n : Int) - 1074) := by
    rw [shiftToTargetExponent, shiftToExponent, targetExponent_eq, ← hs, Int.toNat_natCast]
    refine Prod.ext rfl ?_
    show e + s = place n - 1074
    omega
  obtain ⟨r, hr⟩ : ∃ r, nearest n (place n) = r := ⟨_, rfl⟩
  have hround : (Nat.repeat ExtendedMantissa.shiftRightOne s ⟨m, false, false⟩).roundedMantissa =
      r := by
    rw [roundedMantissa_shift, hnear, hr]
  rw [roundWithAccuracy_eq, hfirst, hround]
  have hrle : r ≤ 2 ^ 53 := hr ▸ nearest_place_le n
  have hvaluer : roundNat n = r * 2 ^ place n := by
    rw [roundNat, hr]
  rw [hvaluer]
  rcases Nat.lt_or_eq_of_le hrle with hlt | heq
  · -- No carry: the second shift does nothing.
    have hsecond : shiftToTargetExponent .binary64 r ((place n : Int) - 1074) .exact =
        (⟨r, false, false⟩, (place n : Int) - 1074) := by
      have hlogr : r.log2 ≤ 52 := by
        rcases Nat.eq_zero_or_pos r with rfl | hpos
        · simp
        · exact Nat.le_of_lt_succ ((Nat.log2_lt (by omega)).2 hlt)
      have hnone : (max ((r.log2 : Int) + (place n - 1074) - 52) (-1074) -
          ((place n : Int) - 1074)).toNat = 0 := by omega
      rw [shiftToTargetExponent, shiftToExponent, targetExponent_eq, hnone]
      simp [ExtendedMantissa.ofMantissaAndAccuracy, HShiftRight.hShiftRight, Nat.repeat]
    rw [hsecond, signed]
    by_cases hzero : r = 0
    · subst hzero
      rw [dif_pos rfl, Nat.zero_mul]
      exact Holds.zero
    · rw [dif_neg hzero]
      refine Holds.finite r (place n) (Nat.pos_of_ne_zero hzero) hlt ?_
      rcases Nat.eq_zero_or_pos (place n) with hp | hp
      · exact Or.inr hp
      · left
        rw [← hr]
        apply Nat.le_trans _ (le_nearest n (place n))
        rw [Nat.le_div_iff_mul_le (Nat.two_pow_pos _), ← Nat.pow_add, Nat.add_comm]
        exact two_pow_place_le hp
  · -- The carry made 2 ^ 53: one more place.
    have hsecond : shiftToTargetExponent .binary64 r ((place n : Int) - 1074) .exact =
        (⟨2 ^ 52, false, false⟩, ((place n + 1 : Nat) : Int) - 1074) := by
      have hlogr : r.log2 = 53 := by
        rw [heq]
        exact Nat.log2_two_pow
      have hone : (max ((r.log2 : Int) + (place n - 1074) - 52) (-1074) -
          ((place n : Int) - 1074)).toNat = 1 := by
        rw [hlogr]
        omega
      rw [shiftToTargetExponent, shiftToExponent, targetExponent_eq, hone, heq]
      refine Prod.ext ?_ ?_
      · simp [ExtendedMantissa.ofMantissaAndAccuracy, HShiftRight.hShiftRight, Nat.repeat,
          ExtendedMantissa.shiftRightOne]
      · push_cast
        ring
    rw [hsecond, signed, dif_neg (by simp)]
    rw [heq, carry_place]
    exact Holds.finite (2 ^ 52) (place n + 1) (by omega) (by omega) (Or.inl (Nat.le_refl _))

/-! ## Packing and unpacking -/

/-- The unpacked forms of the doubles. -/
inductive Canonical : UnpackedFloat → Prop where
  | notANumber : Canonical .notANumber
  | infinity (sign : Sign) : Canonical (.infinity sign)
  | zero (sign : Sign) : Canonical (.zero sign)
  | finite (sign : Sign) (m k : Nat) (h : 0 < m) (hm : m < 2 ^ 53) (hk : 2 ^ 52 ≤ m ∨ k = 0)
    (hmax : k ≤ 2045) : Canonical (.finite sign m (k - 1074) h)

/-- The value in units, an infinity as the first power of two beyond. -/
def units : UnpackedFloat → Int
  | .notANumber => 0
  | .infinity sign => sign.apply top
  | .zero _ => 0
  | .finite sign m e _ => sign.apply (m * 2 ^ (e + 1074).toNat : Nat)

theorem units_finite (sign : Sign) (m k : Nat) (h : 0 < m) :
    units (.finite sign m (k - 1074) h) = sign.apply (m * 2 ^ k : Nat) := by
  have hk : ((k : Int) - 1074 + 1074).toNat = k := by omega
  rw [units, hk]

theorem unpackSign_packComponents {spec : Format} (sign : Sign)
    (e : BitVec spec.exponentBits) (m : BitVec spec.mantissaBitsWithoutImplicit) :
    Sign.ofBitVec (unpackSign (packComponents spec sign e m)) = sign := by
  have hbit : unpackSign (packComponents spec sign e m) = sign.toBitVec := by
    ext i hi
    have hi : i = 0 := by omega
    subst hi
    simp [unpackSign, packComponents, BitVec.getLsbD_append, BitVec.getElem_append]
  rw [hbit]
  cases sign <;> rfl

theorem unpack_pack_infinity (sign : Sign) :
    UnpackedFloat.unpack .binary64 (UnpackedFloat.pack .binary64 (.infinity sign)) = .infinity sign := by
  cases sign <;> rfl

theorem unpack_pack_zero (sign : Sign) :
    UnpackedFloat.unpack .binary64 (UnpackedFloat.pack .binary64 (.zero sign)) = .zero sign := by
  cases sign <;> rfl

theorem unpack_pack_notANumber :
    UnpackedFloat.unpack .binary64 (UnpackedFloat.pack .binary64 .notANumber) = .notANumber := rfl

theorem biasedExponent_eq (k : Nat) :
    ((k : Int) - 1074 + Format.binary64.exponentBias + (52 : Nat)).toNat = k + 1 := by
  have hbias : (Format.binary64.exponentBias : Int) = 1023 := by decide
  omega

theorem log2_eq_52 {m : Nat} (hlow : 2 ^ 52 ≤ m) (hm : m < 2 ^ 53) : m.log2 = 52 :=
  (Nat.log2_eq_iff (by omega)).2 ⟨hlow, hm⟩

theorem pack_normal (sign : Sign) {m k : Nat} (h : 0 < m) (hlow : 2 ^ 52 ≤ m) (hm : m < 2 ^ 53)
    (hmax : k ≤ 2045) :
    UnpackedFloat.pack .binary64 (.finite sign m (k - 1074) h) =
      packComponents .binary64 sign (BitVec.ofNat 11 (k + 1)) (BitVec.ofNat 52 m) := by
  have hexp : ¬ 2 ^ 11 ≤ k + 1 + 1 := by omega
  have hlog : m.log2 + 1 = Format.binary64.mantissaBits := by
    rw [log2_eq_52 hlow hm]
    rfl
  rw [UnpackedFloat.pack]
  simp only [biasedExponent_eq, if_neg hexp, if_pos hlog]

theorem pack_subnormal (sign : Sign) {m : Nat} (h : 0 < m) (hm : m < 2 ^ 52) :
    UnpackedFloat.pack .binary64 (.finite sign m ((0 : Nat) - 1074) h) =
      packComponents .binary64 sign 0#11 (BitVec.ofNat 52 m) := by
  have hexp : ¬ 2 ^ 11 ≤ 0 + 1 + 1 := by omega
  have hlog : ¬ m.log2 + 1 = Format.binary64.mantissaBits := by
    have hlt : m.log2 < 52 := (Nat.log2_lt (by omega)).2 hm
    show ¬ m.log2 + 1 = 53
    omega
  rw [UnpackedFloat.pack]
  simp only [biasedExponent_eq, if_neg hexp, if_neg hlog]

/-- A canonical finite double is packed and unpacked to itself. -/
theorem unpack_pack_finite (sign : Sign) {m k : Nat} (h : 0 < m) (hm : m < 2 ^ 53)
    (hk : 2 ^ 52 ≤ m ∨ k = 0) (hmax : k ≤ 2045) :
    UnpackedFloat.unpack .binary64 (UnpackedFloat.pack .binary64 (.finite sign m (k - 1074) h)) =
      .finite sign m (k - 1074) h := by
  have hbias : (Format.binary64.exponentBias : Int) = 1023 := by decide
  by_cases hlow : 2 ^ 52 ≤ m
  · have hone : BitVec.ofNat 11 (k + 1) ≠ -1#11 := by
      intro heq
      have hnat := congrArg BitVec.toNat heq
      simp at hnat
      omega
    have hzero : BitVec.ofNat 11 (k + 1) ≠ 0#11 := by
      intro heq
      have hnat := congrArg BitVec.toNat heq
      simp at hnat
      omega
    have hmantissa : (1#1 ++ BitVec.ofNat 52 m).toNat = m := by
      rw [BitVec.toNat_append, ← Nat.shiftLeft_add_eq_or_of_lt (BitVec.ofNat 52 m).isLt,
        BitVec.toNat_ofNat, BitVec.toNat_ofNat, Nat.shiftLeft_eq]
      omega
    rw [pack_normal sign h hlow hm hmax, UnpackedFloat.unpack]
    simp only [unpackMantissa_packComponents, unpackExponent_packComponents,
      unpackSign_packComponents]
    rw [if_neg hone, if_neg hzero]
    simp only [hmantissa, BitVec.toNat_ofNat, hbias]
    congr 1
    show ((k + 1) % 2 ^ 11 : Nat) - ((1023 : Int) + 52) = k - 1074
    omega
  · have hk : k = 0 := hk.resolve_left hlow
    subst hk
    have hmantissa : (BitVec.ofNat 52 m).toNat = m := by
      rw [BitVec.toNat_ofNat]
      omega
    have hne : BitVec.ofNat 52 m ≠ 0#52 := by
      intro heq
      have hnat := congrArg BitVec.toNat heq
      rw [hmantissa] at hnat
      simp at hnat
      omega
    rw [pack_subnormal sign h (by omega), UnpackedFloat.unpack]
    simp only [unpackMantissa_packComponents, unpackExponent_packComponents,
      unpackSign_packComponents]
    rw [if_neg (by decide)]
    simp only [hne, hmantissa, hbias, ↓reduceIte, ↓reduceDIte]
    rfl

theorem unpack_pack_large (sign : Sign) {m k : Nat} (h : 0 < m) (hmax : 2045 < k) :
    UnpackedFloat.unpack .binary64 (UnpackedFloat.pack .binary64 (.finite sign m (k - 1074) h)) = .infinity sign := by
  have hexp : 2 ^ 11 ≤ k + 1 + 1 := by omega
  have hpack : UnpackedFloat.pack .binary64 (.finite sign m (k - 1074) h) =
      UnpackedFloat.pack .binary64 (.infinity sign) := by
    rw [UnpackedFloat.pack, UnpackedFloat.pack]
    simp only [biasedExponent_eq, if_pos hexp]
  rw [hpack, unpack_pack_infinity]

theorem unpack_pack_of_canonical {u : UnpackedFloat} (h : Canonical u) :
    UnpackedFloat.unpack .binary64 (UnpackedFloat.pack .binary64 u) = u := by
  cases h with
  | notANumber => exact unpack_pack_notANumber
  | infinity sign => exact unpack_pack_infinity sign
  | zero sign => exact unpack_pack_zero sign
  | finite sign m k h hm hk hmax => exact unpack_pack_finite sign h hm hk hmax

/-- Unpacking gives a canonical form. -/
theorem canonical_unpack (b : BitVec Format.binary64.numBits) : Canonical (UnpackedFloat.unpack .binary64 b) := by
  have hbias : (Format.binary64.exponentBias : Int) = 1023 := by decide
  rw [UnpackedFloat.unpack]
  simp only
  have hm : (unpackMantissa b).toNat < 2 ^ 52 := BitVec.isLt _
  have he : (unpackExponent b).toNat < 2 ^ 11 := BitVec.isLt _
  split
  · split
    · exact Canonical.infinity _
    · exact Canonical.notANumber
  · rename_i hone
    have hne : (unpackExponent b).toNat ≠ 2047 := by
      intro heq
      exact hone (BitVec.eq_of_toNat_eq heq)
    split
    · rename_i hzero
      split
      · exact Canonical.zero _
      · rename_i hmantissa
        have hexp : (unpackExponent b).toNat = 0 := by
          rw [hzero]
          rfl
        have hpos : 0 < (unpackMantissa b).toNat := by
          rcases Nat.eq_zero_or_pos (unpackMantissa b).toNat with h | h
          · exact absurd (BitVec.eq_of_toNat_eq h) hmantissa
          · exact h
        have hcanonical := Canonical.finite (Sign.ofBitVec (unpackSign b))
          (unpackMantissa b).toNat 0 hpos (by omega) (Or.inr rfl) (by omega)
        convert hcanonical using 2
        rw [hexp, hbias]
        rfl
    · rename_i hzero
      have hexp : (unpackExponent b).toNat ≠ 0 := by
        intro heq
        exact hzero (BitVec.eq_of_toNat_eq heq)
      have hmantissa : (1#1 ++ unpackMantissa b).toNat =
          2 ^ 52 + (unpackMantissa b).toNat := by
        rw [BitVec.toNat_append, ← Nat.shiftLeft_add_eq_or_of_lt hm, Nat.shiftLeft_eq]
        rfl
      have hcanonical := Canonical.finite (Sign.ofBitVec (unpackSign b))
        (1#1 ++ unpackMantissa b).toNat
        ((unpackExponent b).toNat - 1)
        (by
          rw [hmantissa]
          omega)
        (by
          rw [hmantissa]
          show 2 ^ 52 + (unpackMantissa b).toNat < 2 ^ 53
          omega)
        (by omega) (by omega)
      convert hcanonical using 2
      rw [hbias]
      show ((unpackExponent b).toNat : Int) - (1023 + 52) = _
      omega

theorem packComponents_unpack (b : BitVec Format.binary64.numBits) :
    packComponents .binary64 (Sign.ofBitVec (unpackSign b))
      (unpackExponent b) (unpackMantissa b) = b := by
  have hsign : ∀ v : BitVec 1, (Sign.ofBitVec v).toBitVec = v := by decide
  simp only [packComponents, hsign, unpackSign, unpackExponent, unpackMantissa, BitVec.extractLsb]
  ext i hi
  grind

/-- Valid bits are unpacked and packed to themselves. -/
theorem pack_unpack {b : BitVec Format.binary64.numBits} (hb : Format.binary64.Valid b) :
    UnpackedFloat.pack .binary64 (UnpackedFloat.unpack .binary64 b) = b := by
  have hbias : (Format.binary64.exponentBias : Int) = 1023 := by decide
  have hparts := packComponents_unpack b
  have hm : (unpackMantissa b).toNat < 2 ^ 52 := BitVec.isLt _
  have he : (unpackExponent b).toNat < 2 ^ 11 := BitVec.isLt _
  have hvalid := hb.eq_packedNaN
  rw [UnpackedFloat.unpack]
  simp only
  split
  · rename_i hone
    split
    · rename_i hmantissa
      rw [hone, hmantissa] at hparts
      exact hparts
    · rename_i hmantissa
      exact (hvalid hone hmantissa).symm
  · rename_i hone
    have hne : (unpackExponent b).toNat ≠ 2047 := fun heq => hone (BitVec.eq_of_toNat_eq heq)
    split
    · rename_i hzero
      split
      · rename_i hmantissa
        rw [hzero, hmantissa] at hparts
        exact hparts
      · rename_i hmantissa
        have hpos : 0 < (unpackMantissa b).toNat := by
          rcases Nat.eq_zero_or_pos (unpackMantissa b).toNat with h | h
          · exact absurd (BitVec.eq_of_toNat_eq h) hmantissa
          · exact h
        have hpack := pack_subnormal (Sign.ofBitVec (unpackSign b)) hpos hm
        rw [hzero] at hparts
        rw [BitVec.ofNat_toNat, BitVec.setWidth_eq, hparts] at hpack
        convert hpack using 3
        rw [hzero, hbias]
        rfl
    · rename_i hzero
      have hexp : (unpackExponent b).toNat ≠ 0 := fun heq => hzero (BitVec.eq_of_toNat_eq heq)
      have hmantissa : (1#1 ++ unpackMantissa b).toNat = 2 ^ 52 + (unpackMantissa b).toNat := by
        rw [BitVec.toNat_append, ← Nat.shiftLeft_add_eq_or_of_lt hm, Nat.shiftLeft_eq]
        rfl
      have hpack := pack_normal (Sign.ofBitVec (unpackSign b)) (m := (1#1 ++ unpackMantissa b).toNat) (k := (unpackExponent b).toNat - 1)
        (by omega) (by omega) (by omega) (by omega)
      have hlow : BitVec.ofNat 52 (1#1 ++ unpackMantissa b).toNat = unpackMantissa b := by
        apply BitVec.eq_of_toNat_eq
        rw [BitVec.toNat_ofNat, hmantissa]
        omega
      have hhigh : BitVec.ofNat 11 ((unpackExponent b).toNat - 1 + 1) = unpackExponent b := by
        apply BitVec.eq_of_toNat_eq
        rw [BitVec.toNat_ofNat]
        omega
      rw [hlow, hhigh, hparts] at hpack
      convert hpack using 3
      rw [hbias]
      show ((unpackExponent b).toNat : Int) - (1023 + 52) = _
      omega

theorem ofBits_toBits (f : Float) : Float.ofBits f.toBits = f := by
  obtain ⟨bits, hbits⟩ := f
  have hpack := pack_unpack hbits
  show Float.ofModel (Float.Model.pack (UnpackedFloat.unpack .binary64 bits.toBitVec)) = _
  simp only [Float.Model.pack, hpack]

/-! ## Order -/

theorem lt_of_place_lt {m₁ k₁ m₂ k₂ : Nat} (hm : m₁ < 2 ^ 53) (hk : 2 ^ 52 ≤ m₂ ∨ k₂ = 0)
    (h : k₁ < k₂) : m₁ * 2 ^ k₁ < m₂ * 2 ^ k₂ := by
  have hm₂ : 2 ^ 52 ≤ m₂ := hk.resolve_right (by omega)
  calc m₁ * 2 ^ k₁ < 2 ^ 53 * 2 ^ k₁ := Nat.mul_lt_mul_of_pos_right hm (Nat.two_pow_pos k₁)
    _ = 2 ^ 52 * 2 ^ (k₁ + 1) := carry_place k₁
    _ ≤ 2 ^ 52 * 2 ^ k₂ := Nat.mul_le_mul_left _ (Nat.pow_le_pow_right (by omega) h)
    _ ≤ m₂ * 2 ^ k₂ := Nat.mul_le_mul_right _ hm₂

theorem lt_top {m k : Nat} (hm : m < 2 ^ 53) (hmax : k ≤ 2045) : m * 2 ^ k < top :=
  calc m * 2 ^ k < 2 ^ 53 * 2 ^ k := Nat.mul_lt_mul_of_pos_right hm (Nat.two_pow_pos k)
    _ ≤ top := Nat.mul_le_mul_left _ (Nat.pow_le_pow_right (by omega) hmax)

theorem top_le {m k : Nat} (hm : 2 ^ 52 ≤ m) (hmax : 2045 < k) : top ≤ m * 2 ^ k :=
  calc top = 2 ^ 52 * 2 ^ (2045 + 1) := carry_place 2045
    _ ≤ m * 2 ^ k := Nat.mul_le_mul hm (Nat.pow_le_pow_right (by omega) hmax)

theorem top_pos : 0 < top := Nat.mul_pos (Nat.two_pow_pos _) (Nat.two_pow_pos _)

/-- `o` is how `x` and `y` compare. -/
def Orders (o : Ordering) (x y : Int) : Prop :=
  o = .lt ∧ x < y ∨ o = .eq ∧ x = y ∨ o = .gt ∧ y < x

theorem Orders.lt {x y : Int} (h : x < y) : Orders .lt x y := Or.inl ⟨rfl, h⟩

theorem Orders.eq {x y : Int} (h : x = y) : Orders .eq x y := Or.inr (Or.inl ⟨rfl, h⟩)

theorem Orders.gt {x y : Int} (h : y < x) : Orders .gt x y := Or.inr (Or.inr ⟨rfl, h⟩)

theorem Orders.swap {o : Ordering} {x y : Int} (h : Orders o x y) : Orders o.swap (-x) (-y) := by
  rcases h with ⟨rfl, h⟩ | ⟨rfl, h⟩ | ⟨rfl, h⟩
  · exact Orders.gt (by omega)
  · exact Orders.eq (by omega)
  · exact Orders.lt (by omega)

theorem orders_finite {m₁ k₁ m₂ k₂ : Nat} (hm₁ : m₁ < 2 ^ 53) (hk₁ : 2 ^ 52 ≤ m₁ ∨ k₁ = 0)
    (hm₂ : m₂ < 2 ^ 53) (hk₂ : 2 ^ 52 ≤ m₂ ∨ k₂ = 0) :
    Orders ((compare ((k₁ : Int) - 1074) (k₂ - 1074)).then (compare m₁ m₂))
      (m₁ * 2 ^ k₁ : Nat) (m₂ * 2 ^ k₂ : Nat) := by
  rcases Nat.lt_trichotomy k₁ k₂ with hlt | heq | hgt
  · have hcompare : compare ((k₁ : Int) - 1074) (k₂ - 1074) = .lt :=
      Int.compare_eq_lt.2 (by omega)
    rw [hcompare]
    exact Orders.lt (Int.ofNat_lt.2 (lt_of_place_lt hm₁ hk₂ hlt))
  · subst heq
    have hcompare : compare ((k₁ : Int) - 1074) (k₁ - 1074) = .eq :=
      Int.compare_eq_eq.2 rfl
    rw [hcompare]
    rcases Nat.lt_trichotomy m₁ m₂ with hlt | heq | hgt
    · rw [Nat.compare_eq_lt.2 hlt]
      exact Orders.lt (Int.ofNat_lt.2 (Nat.mul_lt_mul_of_pos_right hlt (Nat.two_pow_pos k₁)))
    · rw [Nat.compare_eq_eq.2 heq, heq]
      exact Orders.eq rfl
    · rw [Nat.compare_eq_gt.2 hgt]
      exact Orders.gt (Int.ofNat_lt.2 (Nat.mul_lt_mul_of_pos_right hgt (Nat.two_pow_pos k₁)))
  · have hcompare : compare ((k₁ : Int) - 1074) (k₂ - 1074) = .gt :=
      Int.compare_eq_gt.2 (by omega)
    rw [hcompare]
    exact Orders.gt (Int.ofNat_lt.2 (lt_of_place_lt hm₂ hk₁ hgt))

/-- Doubles compare as their values. -/
theorem orders_compare {a b : UnpackedFloat} (ha : Canonical a) (hb : Canonical b)
    (hna : a ≠ .notANumber) (hnb : b ≠ .notANumber) :
    ∃ o, UnpackedFloat.compare a b = some o ∧ Orders o (units a) (units b) := by
  have htop := top_pos
  cases ha with
  | notANumber => exact absurd rfl hna
  | infinity s₁ =>
    cases hb with
    | notANumber => exact absurd rfl hnb
    | infinity s₂ =>
      simp only [units]
      cases s₁ <;> cases s₂
      · exact ⟨.eq, rfl, Orders.eq rfl⟩
      · exact ⟨.lt, rfl, Orders.lt (by simp only [Sign.apply]; omega)⟩
      · exact ⟨.gt, rfl, Orders.gt (by simp only [Sign.apply]; omega)⟩
      · exact ⟨.eq, rfl, Orders.eq rfl⟩
    | zero s₂ =>
      simp only [units]
      cases s₁
      · exact ⟨.lt, rfl, Orders.lt (by simp only [Sign.apply]; omega)⟩
      · exact ⟨.gt, rfl, Orders.gt (by simp only [Sign.apply]; omega)⟩
    | finite s₂ m₂ k₂ h₂ hm₂ hk₂ hmax₂ =>
      have hlt := lt_top hm₂ hmax₂
      rw [units_finite]
      generalize m₂ * 2 ^ k₂ = n at hlt
      simp only [units]
      cases s₁
      · exact ⟨.lt, rfl, Orders.lt (by cases s₂ <;> simp only [Sign.apply] <;> omega)⟩
      · exact ⟨.gt, rfl, Orders.gt (by cases s₂ <;> simp only [Sign.apply] <;> omega)⟩
  | zero s₁ =>
    cases hb with
    | notANumber => exact absurd rfl hnb
    | infinity s₂ =>
      simp only [units]
      cases s₂
      · exact ⟨.gt, rfl, Orders.gt (by simp only [Sign.apply]; omega)⟩
      · exact ⟨.lt, rfl, Orders.lt (by simp only [Sign.apply]; omega)⟩
    | zero s₂ => exact ⟨.eq, rfl, Orders.eq rfl⟩
    | finite s₂ m₂ k₂ h₂ hm₂ hk₂ hmax₂ =>
      have hpos := Nat.mul_pos h₂ (Nat.two_pow_pos k₂)
      rw [units_finite]
      generalize m₂ * 2 ^ k₂ = n at hpos
      simp only [units]
      cases s₂
      · exact ⟨.gt, rfl, Orders.gt (by simp only [Sign.apply]; omega)⟩
      · exact ⟨.lt, rfl, Orders.lt (by simp only [Sign.apply]; omega)⟩
  | finite s₁ m₁ k₁ h₁ hm₁ hk₁ hmax₁ =>
    have hpos₁ := Nat.mul_pos h₁ (Nat.two_pow_pos k₁)
    have hlt₁ := lt_top hm₁ hmax₁
    cases hb with
    | notANumber => exact absurd rfl hnb
    | infinity s₂ =>
      rw [units_finite]
      generalize m₁ * 2 ^ k₁ = n at hlt₁
      simp only [units]
      cases s₂
      · exact ⟨.gt, by cases s₁ <;> rfl,
          Orders.gt (by cases s₁ <;> simp only [Sign.apply] <;> omega)⟩
      · exact ⟨.lt, by cases s₁ <;> rfl,
          Orders.lt (by cases s₁ <;> simp only [Sign.apply] <;> omega)⟩
    | zero s₂ =>
      rw [units_finite]
      generalize m₁ * 2 ^ k₁ = n at hpos₁
      simp only [units]
      cases s₁
      · exact ⟨.lt, rfl, Orders.lt (by simp only [Sign.apply]; omega)⟩
      · exact ⟨.gt, rfl, Orders.gt (by simp only [Sign.apply]; omega)⟩
    | finite s₂ m₂ k₂ h₂ hm₂ hk₂ hmax₂ =>
      have hpos₂ := Nat.mul_pos h₂ (Nat.two_pow_pos k₂)
      have horder := orders_finite hm₁ hk₁ hm₂ hk₂
      rw [units_finite, units_finite]
      cases s₁ <;> cases s₂
      · exact ⟨_, rfl, horder.swap⟩
      · exact ⟨.lt, rfl, Orders.lt (by simp only [Sign.apply]; omega)⟩
      · exact ⟨.gt, rfl, Orders.gt (by simp only [Sign.apply]; omega)⟩
      · exact ⟨_, rfl, horder⟩

/-! ## Rounding an exact result -/

/-- A whole number of units, as a double: rounded, or an infinity. -/
def roundInt (v : Int) : Int :=
  if v < 0 then -(min (roundNat v.natAbs) top : Nat) else (min (roundNat v.natAbs) top : Nat)

theorem roundInt_of_nonneg {v : Int} (h : 0 ≤ v) :
    roundInt v = (min (roundNat v.natAbs) top : Nat) := if_neg (by omega)

theorem roundInt_nonneg {v : Int} (h : 0 ≤ v) : 0 ≤ roundInt v := by
  rw [roundInt_of_nonneg h]
  omega

theorem roundInt_nonpos {v : Int} (h : v < 0) : roundInt v ≤ 0 := by
  rw [roundInt, if_pos h]
  omega

theorem roundInt_mono {v w : Int} (h : v ≤ w) : roundInt v ≤ roundInt w := by
  by_cases hw : w < 0
  · have hv : v < 0 := by omega
    have hround := roundNat_mono (m := w.natAbs) (n := v.natAbs) (by omega)
    rw [roundInt, roundInt, if_pos hv, if_pos hw]
    omega
  · by_cases hv : v < 0
    · have hlow := roundInt_nonpos hv
      have hhigh := roundInt_nonneg (v := w) (by omega)
      omega
    · have hround := roundNat_mono (m := v.natAbs) (n := w.natAbs) (by omega)
      rw [roundInt, roundInt, if_neg hv, if_neg hw]
      omega

theorem roundInt_zero : roundInt 0 = 0 := by
  rw [roundInt_of_nonneg (Int.le_refl 0)]
  simp [roundNat, nearest]

theorem roundInt_apply (sign : Sign) (n : Nat) :
    roundInt (sign.apply n) = sign.apply (min (roundNat n) top : Nat) := by
  have hpos : roundInt n = (min (roundNat n) top : Nat) := by
    rw [roundInt_of_nonneg (by omega), Int.natAbs_natCast]
  cases sign with
  | positive => exact hpos
  | negative =>
    rcases Nat.eq_zero_or_pos n with rfl | hn
    · have hzero : ((min (roundNat 0) top : Nat) : Int) = 0 := by
        rw [← hpos]
        exact roundInt_zero
      simp only [Sign.apply, hzero]
      exact roundInt_zero
    · show roundInt (-(n : Int)) = -((min (roundNat n) top : Nat) : Int)
      rw [roundInt, if_pos (by omega), Int.natAbs_neg, Int.natAbs_natCast]

theorem roundInt_units {u : UnpackedFloat} (h : Canonical u) : roundInt (units u) = units u := by
  cases h with
  | notANumber => exact roundInt_zero
  | infinity sign =>
    have hround : roundNat top = top := by
      have htop : top = 2 ^ 52 * 2 ^ (2045 + 1) := carry_place 2045
      have hplaces : ∀ k, roundNat (2 ^ 52 * 2 ^ k) = 2 ^ 52 * 2 ^ k := roundNat_of_lt (by omega)
      rw [htop, hplaces]
    rw [units, roundInt_apply, hround, Nat.min_self]
  | zero sign => exact roundInt_zero
  | finite sign m k h hm hk hmax =>
    rw [units_finite, roundInt_apply, roundNat_of_lt hm, Nat.min_eq_left (by
      have hlt := lt_top hm hmax
      omega)]

/-- What packing makes of a rounded result. -/
theorem unpack_pack_of_holds {sign : Sign} {u : UnpackedFloat} {n : Nat} (h : Holds sign u n) :
    UnpackedFloat.unpack .binary64 (UnpackedFloat.pack .binary64 u) ≠ .notANumber ∧
      units (UnpackedFloat.unpack .binary64 (UnpackedFloat.pack .binary64 u)) =
        sign.apply (min n top : Nat) := by
  cases h with
  | zero =>
    rw [unpack_pack_zero]
    refine ⟨nofun, ?_⟩
    cases sign <;> simp [units, Sign.apply]
  | finite m k h hm hk =>
    by_cases hmax : k ≤ 2045
    · have hlt := lt_top hm hmax
      rw [unpack_pack_finite sign h hm hk hmax, units_finite, Nat.min_eq_left (by omega)]
      exact ⟨nofun, rfl⟩
    · have hle := top_le (hk.resolve_right (by omega)) (k := k) (by omega)
      rw [unpack_pack_large sign h (by omega), Nat.min_eq_right hle]
      exact ⟨nofun, rfl⟩

/-! ## Exact results, rounded -/

/-- A result that is packed is the exact value `v`, rounded. -/
def Rounds (u : UnpackedFloat) (v : Int) : Prop :=
  UnpackedFloat.unpack .binary64 (UnpackedFloat.pack .binary64 u) ≠ .notANumber ∧
    units (UnpackedFloat.unpack .binary64 (UnpackedFloat.pack .binary64 u)) = roundInt v

theorem rounds_of_holds {sign : Sign} {u : UnpackedFloat} {n : Nat}
    (h : Holds sign u (roundNat n)) : Rounds u (sign.apply n) := by
  obtain ⟨hnan, hunits⟩ := unpack_pack_of_holds h
  exact ⟨hnan, by rw [hunits, roundInt_apply]⟩

theorem rounds_of_canonical {u : UnpackedFloat} (h : Canonical u) (hnan : u ≠ .notANumber) :
    Rounds u (units u) := by
  rw [Rounds, unpack_pack_of_canonical h, roundInt_units h]
  exact ⟨hnan, rfl⟩

theorem holds_round (sign : Sign) {m : Nat} (hm : 0 < m) (k : Nat) :
    Holds sign (UnpackedFloat.round .binary64 sign m (k - 1074)) (roundNat (m * 2 ^ k)) := by
  obtain ⟨s, hs⟩ : ∃ s : Nat,
      s = ((k : Int) - 1074 - max ((m.log2 : Int) + (k - 1074) - 52) (-1074)).toNat :=
    ⟨_, rfl⟩
  have hround : UnpackedFloat.round .binary64 sign m (k - 1074) =
      roundWithAccuracy .binary64 sign (m * 2 ^ s) ((k : Int) - 1074 - s) .exact := by
    simp only [UnpackedFloat.round, decreaseExponent, targetExponent_eq, ← hs, Nat.shiftLeft_eq]
  rw [hround]
  have hpos : 0 < m * 2 ^ s := Nat.mul_pos hm (Nat.two_pow_pos s)
  have hvalue : m * 2 ^ s * 2 ^ k = m * 2 ^ k * 2 ^ s := Nat.mul_right_comm _ _ _
  refine holds_roundWithAccuracy sign hpos hvalue (by omega) ?_
  rw [log2_mul_two_pow hm]
  omega

theorem rounds_normalize (z : Int) (k : Nat) :
    Rounds (UnpackedFloat.normalize .binary64 z (k - 1074) .positive) (z * 2 ^ k) := by
  rcases Int.lt_trichotomy z 0 with hneg | hzero | hpos
  · have hcompare : compare z 0 = .lt := Int.compare_eq_lt.2 hneg
    have hvalue : z * 2 ^ k = Sign.negative.apply ((-z).toNat * 2 ^ k : Nat) := by
      show z * 2 ^ k = -(((-z).toNat * 2 ^ k : Nat) : Int)
      push_cast
      rw [Int.toNat_of_nonneg (by omega)]
      ring
    rw [UnpackedFloat.normalize, hcompare, hvalue]
    exact rounds_of_holds (holds_round .negative (by omega) k)
  · subst hzero
    rw [Int.zero_mul]
    exact rounds_of_canonical (Canonical.zero .positive) nofun
  · have hcompare : compare z 0 = .gt := Int.compare_eq_gt.2 hpos
    have hvalue : z * 2 ^ k = Sign.positive.apply (z.toNat * 2 ^ k : Nat) := by
      show z * 2 ^ k = ((z.toNat * 2 ^ k : Nat) : Int)
      push_cast
      rw [Int.toNat_of_nonneg (by omega)]
    rw [UnpackedFloat.normalize, hcompare, hvalue]
    exact rounds_of_holds (holds_round .positive (by omega) k)

theorem apply_mul (sign : Sign) (n : Int) (c : Int) : sign.apply n * c = sign.apply (n * c) := by
  cases sign with
  | negative => exact Int.neg_mul n c
  | positive => rfl

theorem apply_neg (sign : Sign) (n : Int) : (-sign).apply n = -sign.apply n := by
  cases sign with
  | negative => exact (Int.neg_neg n).symm
  | positive => rfl

theorem apply_decrease (sign : Sign) (m : Nat) {k l : Nat} (h : l ≤ k) :
    sign.apply (m <<< ((k : Int) - 1074 - (l - 1074)).toNat : Nat) * 2 ^ l =
      sign.apply (m * 2 ^ k : Nat) := by
  have hshift : ((k : Int) - 1074 - (l - 1074)).toNat = k - l := by omega
  have hpow : m * 2 ^ k = m * 2 ^ (k - l) * 2 ^ l := by
    rw [Nat.mul_assoc, ← Nat.pow_add, Nat.sub_add_cancel h]
  rw [apply_mul, hshift, Nat.shiftLeft_eq, hpow]
  push_cast
  rfl

theorem min_exponent (k l : Nat) : min ((k : Int) - 1074) (l - 1074) = (min k l : Nat) - 1074 := by
  omega

theorem rounds_add {a b : UnpackedFloat} (ha : Canonical a) (hb : Canonical b)
    (hfa : a.isFinite) (hfb : b.isFinite) :
    Rounds (UnpackedFloat.add .binary64 a b) (units a + units b) := by
  cases ha with
  | notANumber => cases hfa
  | infinity sign => cases hfa
  | zero s₁ =>
    cases hb with
    | notANumber => cases hfb
    | infinity sign => cases hfb
    | zero s₂ =>
      cases s₁ <;> cases s₂
      · exact rounds_of_canonical (Canonical.zero .negative) nofun
      · exact rounds_of_canonical (Canonical.zero .positive) nofun
      · exact rounds_of_canonical (Canonical.zero .positive) nofun
      · exact rounds_of_canonical (Canonical.zero .positive) nofun
    | finite s₂ m₂ k₂ h₂ hm₂ hk₂ hmax₂ =>
      rw [units, Int.zero_add]
      exact rounds_of_canonical (Canonical.finite s₂ m₂ k₂ h₂ hm₂ hk₂ hmax₂) nofun
  | finite s₁ m₁ k₁ h₁ hm₁ hk₁ hmax₁ =>
    cases hb with
    | notANumber => cases hfb
    | infinity sign => cases hfb
    | zero s₂ =>
      rw [show units (.zero s₂) = 0 from rfl, Int.add_zero]
      exact rounds_of_canonical (Canonical.finite s₁ m₁ k₁ h₁ hm₁ hk₁ hmax₁) nofun
    | finite s₂ m₂ k₂ h₂ hm₂ hk₂ hmax₂ =>
      rw [units_finite, units_finite, ← apply_decrease s₁ m₁ (Nat.min_le_left k₁ k₂),
        ← apply_decrease s₂ m₂ (Nat.min_le_right k₁ k₂), ← Int.add_mul]
      simp only [UnpackedFloat.add, decreaseExponent, min_exponent]
      exact rounds_normalize _ _

theorem rounds_sub {a b : UnpackedFloat} (ha : Canonical a) (hb : Canonical b)
    (hfa : a.isFinite) (hfb : b.isFinite) :
    Rounds (UnpackedFloat.sub .binary64 a b) (units a - units b) := by
  cases ha with
  | notANumber => cases hfa
  | infinity sign => cases hfa
  | zero s₁ =>
    cases hb with
    | notANumber => cases hfb
    | infinity sign => cases hfb
    | zero s₂ =>
      cases s₁ <;> cases s₂
      · exact rounds_of_canonical (Canonical.zero .positive) nofun
      · exact rounds_of_canonical (Canonical.zero .negative) nofun
      · exact rounds_of_canonical (Canonical.zero .positive) nofun
      · exact rounds_of_canonical (Canonical.zero .positive) nofun
    | finite s₂ m₂ k₂ h₂ hm₂ hk₂ hmax₂ =>
      have h := rounds_of_canonical (Canonical.finite (-s₂) m₂ k₂ h₂ hm₂ hk₂ hmax₂) nofun
      rw [units_finite, apply_neg] at h
      rw [units_finite, units, Int.zero_sub]
      exact h
  | finite s₁ m₁ k₁ h₁ hm₁ hk₁ hmax₁ =>
    cases hb with
    | notANumber => cases hfb
    | infinity sign => cases hfb
    | zero s₂ =>
      rw [show units (.zero s₂) = 0 from rfl, Int.sub_zero]
      exact rounds_of_canonical (Canonical.finite s₁ m₁ k₁ h₁ hm₁ hk₁ hmax₁) nofun
    | finite s₂ m₂ k₂ h₂ hm₂ hk₂ hmax₂ =>
      rw [units_finite, units_finite, ← apply_decrease s₁ m₁ (Nat.min_le_left k₁ k₂),
        ← apply_decrease s₂ m₂ (Nat.min_le_right k₁ k₂), ← Int.sub_mul]
      simp only [UnpackedFloat.sub, decreaseExponent, min_exponent]
      exact rounds_normalize _ _

/-- One, in units. -/
def one : Nat := 2 ^ 1074

theorem le_one : 2 ^ 53 ≤ one := Nat.pow_le_pow_right (by omega) (by omega)

theorem mul_one_lt_top {i : Nat} (hlt : i < 2 ^ 53) : i * one < top :=
  lt_top hlt (by omega)

/-- The double of a whole number is the number. -/
theorem unpack_natural {i : Nat} (hi : 0 < i) (hlt : i < 2 ^ 53) :
    ∃ m k h, UnpackedFloat.unpack .binary64
        (UnpackedFloat.pack .binary64 (UnpackedFloat.normalize .binary64 i 0 .positive)) =
          .finite .positive m ((k : Nat) - 1074) h ∧
      m * 2 ^ k = i * one ∧ m < 2 ^ 53 ∧ 2 ^ 52 ≤ m ∧ k ≤ 2045 := by
  have hcompare : compare (i : Int) 0 = .gt := Int.compare_eq_gt.2 (by omega)
  have hexact : roundNat (i * one) = i * one := roundNat_of_lt hlt 1074
  have hround := holds_round .positive hi 1074
  have hzero : ((1074 : Nat) : Int) - 1074 = 0 := by omega
  rw [show i * 2 ^ 1074 = i * one from rfl, hexact, hzero] at hround
  rw [UnpackedFloat.normalize, hcompare]
  simp only [Int.toNat_natCast]
  generalize hu : UnpackedFloat.round .binary64 .positive i 0 = u at hround
  generalize hn : i * one = n at hround
  have hone := le_one
  have htop := mul_one_lt_top hlt
  have hlarge : one ≤ i * one := Nat.le_mul_of_pos_left _ hi
  cases hround with
  | zero => omega
  | finite m k h hm hk =>
    have hmax : k ≤ 2045 := by
      by_contra hgt
      have hle := top_le (hk.resolve_right (by omega)) (k := k) (by omega)
      omega
    have hlow : 2 ^ 52 ≤ m := by
      rcases hk with hlow | rfl
      · exact hlow
      · rw [Nat.pow_zero, Nat.mul_one] at hn
        omega
    exact ⟨m, k, h, unpack_pack_finite .positive h hm hk hmax, rfl, hm, hlow, hmax⟩

/-! ## Doubles -/

/-- A double's value in units. -/
def unitsOf (f : Float) : Int := units f.toModel.unpack

theorem canonical (f : Float) : Canonical f.toModel.unpack := canonical_unpack _

theorem isFinite_of_lt {u : UnpackedFloat} (h : Canonical u) (hnan : u ≠ .notANumber)
    (hlow : -(top : Int) < units u) (hhigh : units u < top) : u.isFinite := by
  cases h with
  | notANumber => exact absurd rfl hnan
  | infinity sign =>
    cases sign <;> simp only [units, Sign.apply] at hlow hhigh <;> omega
  | zero sign => rfl
  | finite sign m k h hm hk hmax => rfl

theorem units_lt_of_isFinite {u : UnpackedFloat} (h : Canonical u) (hfin : u.isFinite) :
    -(top : Int) < units u ∧ units u < top := by
  have htop := top_pos
  cases h with
  | notANumber => cases hfin
  | infinity sign => cases hfin
  | zero sign =>
    simp only [units]
    omega
  | finite sign m k h hm hk hmax =>
    have hlt := lt_top hm hmax
    rw [units_finite]
    generalize m * 2 ^ k = n at hlt
    cases sign <;> simp only [Sign.apply] <;> omega

theorem ne_notANumber_of_isFinite {u : UnpackedFloat} (h : u.isFinite) : u ≠ .notANumber := by
  rintro rfl
  cases h

theorem le_iff_of_ne {a b : Float} (ha : a.toModel.unpack ≠ .notANumber)
    (hb : b.toModel.unpack ≠ .notANumber) : a ≤ b ↔ unitsOf a ≤ unitsOf b := by
  obtain ⟨o, ho, horder⟩ := orders_compare (canonical a) (canonical b) ha hb
  have hmodel : a ≤ b ↔ UnpackedFloat.le a.toModel.unpack b.toModel.unpack = true :=
    decide_eq_true_iff
  have hle : a ≤ b ↔ o.isLE := by
    rw [hmodel, UnpackedFloat.le, ho]
    rfl
  rw [hle]
  unfold unitsOf
  rcases horder with ⟨rfl, h⟩ | ⟨rfl, h⟩ | ⟨rfl, h⟩ <;> simp [Ordering.isLE] <;> omega

theorem le_iff {a b : Float} (ha : a.isFinite) (hb : b.isFinite) :
    a ≤ b ↔ unitsOf a ≤ unitsOf b :=
  le_iff_of_ne (ne_notANumber_of_isFinite ha) (ne_notANumber_of_isFinite hb)

theorem beq_iff_of_ne {a b : Float} (ha : a.toModel.unpack ≠ .notANumber)
    (hb : b.toModel.unpack ≠ .notANumber) : (a == b) = true ↔ unitsOf a = unitsOf b := by
  obtain ⟨o, ho, horder⟩ := orders_compare (canonical a) (canonical b) ha hb
  have hmodel : (a == b) = UnpackedFloat.beq a.toModel.unpack b.toModel.unpack := rfl
  rw [hmodel, UnpackedFloat.beq, ho]
  unfold unitsOf
  rcases horder with ⟨rfl, h⟩ | ⟨rfl, h⟩ | ⟨rfl, h⟩ <;> simp <;> omega

theorem lt_iff_of_ne {a b : Float} (ha : a.toModel.unpack ≠ .notANumber)
    (hb : b.toModel.unpack ≠ .notANumber) : a < b ↔ unitsOf a < unitsOf b := by
  obtain ⟨o, ho, horder⟩ := orders_compare (canonical a) (canonical b) ha hb
  have hmodel : a < b ↔ UnpackedFloat.lt a.toModel.unpack b.toModel.unpack = true :=
    decide_eq_true_iff
  have hlt : a < b ↔ o = .lt := by
    rw [hmodel, UnpackedFloat.lt, ho]
    simp
  rw [hlt]
  unfold unitsOf
  rcases horder with ⟨rfl, h⟩ | ⟨rfl, h⟩ | ⟨rfl, h⟩ <;> simp <;> omega

theorem lt_iff {a b : Float} (ha : a.isFinite) (hb : b.isFinite) :
    a < b ↔ unitsOf a < unitsOf b :=
  lt_iff_of_ne (ne_notANumber_of_isFinite ha) (ne_notANumber_of_isFinite hb)

theorem ne_notANumber_of_le {a b : Float} (h : a ≤ b) :
    a.toModel.unpack ≠ .notANumber ∧ b.toModel.unpack ≠ .notANumber := by
  have hmodel : UnpackedFloat.le a.toModel.unpack b.toModel.unpack = true := of_decide_eq_true h
  constructor
  · intro hnan
    rw [hnan] at hmodel
    cases hmodel
  · intro hnan
    rw [hnan] at hmodel
    cases ha : a.toModel.unpack <;> rw [ha] at hmodel <;> cases hmodel

theorem isFinite_of_between {a x b : Float} (ha : a.isFinite) (hb : b.isFinite) (hax : a ≤ x)
    (hxb : x ≤ b) : x.isFinite := by
  obtain ⟨hna, hnx⟩ := ne_notANumber_of_le hax
  obtain ⟨-, hnb⟩ := ne_notANumber_of_le hxb
  have hlow := (le_iff_of_ne hna hnx).1 hax
  have hhigh := (le_iff_of_ne hnx hnb).1 hxb
  have ha := units_lt_of_isFinite (canonical a) ha
  have hb := units_lt_of_isFinite (canonical b) hb
  unfold unitsOf at hlow hhigh
  exact isFinite_of_lt (canonical x) hnx (by omega) (by omega)

/-- The double of a whole number. -/
def natural (i : Nat) : Float := (UInt64.ofNat i).toFloat

theorem natural_unpack {i : Nat} (hi : i < 2 ^ 53) :
    (natural i).toModel.unpack = UnpackedFloat.unpack .binary64
      (UnpackedFloat.pack .binary64 (UnpackedFloat.normalize .binary64 i 0 .positive)) := by
  have hnat : (UInt64.ofNat i).toNat = i := by
    rw [UInt64.toNat_ofNat']
    omega
  show UnpackedFloat.unpack .binary64 (UnpackedFloat.pack .binary64
    (UnpackedFloat.normalize .binary64 ((UInt64.ofNat i).toNat : Int) 0 .positive)) = _
  rw [hnat]

theorem unitsOf_add {a b : Float} (ha : a.isFinite) (hb : b.isFinite) :
    (a + b).toModel.unpack ≠ .notANumber ∧ unitsOf (a + b) = roundInt (unitsOf a + unitsOf b) :=
  rounds_add (canonical a) (canonical b) ha hb

theorem unitsOf_sub {a b : Float} (ha : a.isFinite) (hb : b.isFinite) :
    (a - b).toModel.unpack ≠ .notANumber ∧ unitsOf (a - b) = roundInt (unitsOf a - unitsOf b) :=
  rounds_sub (canonical a) (canonical b) ha hb

/-! ## Only finite doubles have finite results -/

/-- A finite double's exponent bits are not all set. -/
theorem bits_lt_of_isFinite {bits : UInt64} (h : (Float.ofBits bits).isFinite) :
    bits.toNat % 2 ^ 63 < 2047 * 2 ^ 52 := by
  have hunpack : (UnpackedFloat.unpack .binary64 bits.toBitVec).isFinite := by
    have hcanonical := canonical_unpack bits.toBitVec
    have hpack := unpack_pack_of_canonical hcanonical
    have hmodel : (UnpackedFloat.unpack .binary64 (UnpackedFloat.pack .binary64
        (UnpackedFloat.unpack .binary64 bits.toBitVec))).isFinite := h
    rwa [hpack] at hmodel
  have hexp : @unpackExponent .binary64 bits.toBitVec ≠ BitVec.allOnes 11 := by
    intro hones
    rw [UnpackedFloat.unpack] at hunpack
    simp only at hunpack
    split at hunpack
    · split at hunpack <;> cases hunpack
    · rename_i hone
      exact hone (hones.trans (by rfl))
  have hexpNat : (@unpackExponent .binary64 bits.toBitVec).toNat =
      bits.toNat / 2 ^ 52 % 2 ^ 11 := by
    simp only [unpackExponent, BitVec.extractLsb, BitVec.toNat_cast, BitVec.extractLsb'_toNat,
      Nat.shiftRight_eq_div_pow]
    rfl
  have hne : bits.toNat / 2 ^ 52 % 2 ^ 11 ≠ 2047 := by
    rw [← hexpNat]
    intro heq
    exact hexp (BitVec.eq_of_toNat_eq heq)
  omega

/-! ## Steps -/

end Xeibe.Lib.Binary64

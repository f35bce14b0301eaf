import Xeibe.Reproject.Wkt.Tokens

/-!
# Numbers that are read back

A double that the digits written are enough for is read back as itself.
-/

namespace Xeibe.Reproject.Wkt

open Xeibe.Geom (F64)
open Xeibe.Lib Numerals Printf Binary64 Rounded
open Number (value readsBack shortest exact)

variable {n p : ℕ} {q : ℚ} {v : F64}

/-! ## The nearest double -/

/-- A place that leaves 53 bits, or the least one. -/
theorem nearestBits_eq {x : ℚ} {e m : ℕ} (hx : q * 2 ^ 1074 = x) (hlow : 2 ^ 52 * 2 ^ e ≤ x ∨ e = 0)
    (hhigh : x < 2 ^ 53 * 2 ^ e) (hm : Rounded.nearest (x / 2 ^ e) = m)
    (htop : e * 2 ^ 52 + m ≤ 2047 * 2 ^ 52) : nearestBits q = e * 2 ^ 52 + m := by
  have hexponent : Nat.log 2 ⌊x⌋₊ - 52 = e := by
    have hlt : ⌊x⌋₊ < 2 ^ (53 + e) := by
      by_cases hpos : 0 ≤ x
      · rw [pow_add]
        exact (Nat.floor_lt hpos).2 (by exact_mod_cast hhigh)
      · rw [Nat.floor_of_nonpos (not_le.1 hpos).le]
        exact Nat.two_pow_pos _
    rcases hlow with hlow | rfl
    · have hge : 2 ^ (52 + e) ≤ ⌊x⌋₊ := by
        rw [pow_add]
        exact Nat.le_floor (by exact_mod_cast hlow)
      rw [Nat.log_eq_of_pow_le_of_lt_pow hge (by rwa [show 52 + e + 1 = 53 + e by omega])]
      omega
    · have hlog := Nat.log_lt_of_lt_pow' (by omega) hlt
      omega
  rw [nearestBits]
  simp only [hx, hexponent, hm]
  omega

theorem readsBack_bounds (h : readsBack n q = true) :
    ((value (n - 1) + value n) / 2 ≤ q ∧ q ≤ (value n + value (n + 1)) / 2) ∧
      (n % 2 = 1 → (value (n - 1) + value n) / 2 < q ∧ q < (value n + value (n + 1)) / 2) := by
  rw [readsBack] at h
  split at h
  · rename_i heven
    exact ⟨by simpa using h, fun hodd => by omega⟩
  · have hlt : (value (n - 1) + value n) / 2 < q ∧ q < (value n + value (n + 1)) / 2 := by
      simpa using h
    exact ⟨⟨hlt.1.le, hlt.2.le⟩, fun _ => hlt⟩

theorem nearest_place {x : ℚ} {e m : ℕ} (hm : 1 ≤ m) (hlow : (m - 1 / 2) * 2 ^ e ≤ x)
    (hhigh : x ≤ (m + 1 / 2) * 2 ^ e)
    (hstrict : m % 2 = 1 → (m - 1 / 2) * 2 ^ e < x ∧ x < (m + 1 / 2) * 2 ^ e) :
    Rounded.nearest (x / 2 ^ e) = m := by
  have hpos : (0 : ℚ) < 2 ^ e := by positivity
  have hone : (1 : ℚ) ≤ m := by exact_mod_cast hm
  have hle : (m : ℚ) - 1 / 2 ≤ x / 2 ^ e := (le_div_iff₀ hpos).2 hlow
  have hge : x / 2 ^ e ≤ m + 1 / 2 := (div_le_iff₀ hpos).2 hhigh
  refine nearest_eq_of_le (by linarith) (abs_le.2 ⟨by linarith, by linarith⟩) fun hhalf => ?_
  by_contra hodd
  obtain ⟨hlt, hgt⟩ := hstrict (by omega)
  have hlt' : (m : ℚ) - 1 / 2 < x / 2 ^ e := (lt_div_iff₀ hpos).2 hlt
  have hgt' : x / 2 ^ e < m + 1 / 2 := (div_lt_iff₀ hpos).2 hgt
  have hless : |x / 2 ^ e - m| < 1 / 2 := abs_lt.2 ⟨by linarith, by linarith⟩
  exact hless.ne hhalf

/-- What is read as a double is within half of the gaps around it, in units. -/
theorem units_bounds {x : ℚ} {e m g : ℕ} (hm : 2 ^ 52 ≤ m) (hm' : m < 2 ^ 53)
    (hg : (e * 2 ^ 52 + m - 1) / 2 ^ 52 - 1 = g) (hx : q * 2 ^ 1074 = x)
    (h : readsBack (e * 2 ^ 52 + m) q = true) :
    (m * 2 ^ e - 2 ^ g / 2 ≤ x ∧ x ≤ (m + 1 / 2) * 2 ^ e) ∧
      (m % 2 = 1 → m * 2 ^ e - 2 ^ g / 2 < x ∧ x < (m + 1 / 2) * 2 ^ e) := by
  have hgap : (e * 2 ^ 52 + m) / 2 ^ 52 - 1 = e := by omega
  have hmod : 2 ^ 52 + (e * 2 ^ 52 + m) % 2 ^ 52 = m := by omega
  have hvalue : value (e * 2 ^ 52 + m) * 2 ^ 1074 = m * 2 ^ e := by
    rw [value, div_mul_cancel₀ _ (by positivity), magnitude, if_neg (by omega), hgap, hmod]
    push_cast
    rfl
  have hup : value (e * 2 ^ 52 + m + 1) * 2 ^ 1074 = (m + 1) * 2 ^ e := by
    rw [Number.value_succ, hgap, add_mul, hvalue, div_mul_cancel₀ _ (by positivity)]
    ring
  have hdown : value (e * 2 ^ 52 + m - 1) * 2 ^ 1074 = m * 2 ^ e - 2 ^ g := by
    have hsucc := Number.value_succ (e * 2 ^ 52 + m - 1)
    rw [Nat.sub_add_cancel (by omega), hg] at hsucc
    rw [← hvalue, hsucc, add_mul, div_mul_cancel₀ _ (by positivity), add_sub_cancel_right]
  obtain ⟨⟨hlow, hhigh⟩, hstrict⟩ := readsBack_bounds h
  have hunits : (0 : ℚ) < 2 ^ 1074 := by positivity
  have hhalves : ∀ a b u : ℚ, (a + b) / 2 * u = (a * u + b * u) / 2 := fun a b u => by ring
  have hbelow : (value (e * 2 ^ 52 + m - 1) + value (e * 2 ^ 52 + m)) / 2 * 2 ^ 1074 =
      m * 2 ^ e - 2 ^ g / 2 := by
    rw [hhalves, hdown, hvalue]
    ring
  have habove : (value (e * 2 ^ 52 + m) + value (e * 2 ^ 52 + m + 1)) / 2 * 2 ^ 1074 =
      (m + 1 / 2) * 2 ^ e := by
    rw [hhalves, hvalue, hup]
    ring
  rw [← hbelow, ← habove, ← hx]
  refine ⟨⟨mul_le_mul_of_nonneg_right hlow hunits.le, mul_le_mul_of_nonneg_right hhigh hunits.le⟩,
    fun hodd => ?_⟩
  obtain ⟨hlow, hhigh⟩ := hstrict (by omega)
  exact ⟨mul_lt_mul_of_pos_right hlow hunits, mul_lt_mul_of_pos_right hhigh hunits⟩

/-- Below the least double of its exponent the places are half as wide. -/
theorem nearestBits_below {x : ℚ} {e : ℕ} (hx : q * 2 ^ 1074 = x) (hbig : x < 2 ^ 52 * 2 ^ e)
    (hlow : (2 ^ 52 : ℕ) * 2 ^ e - 2 ^ ((e * 2 ^ 52 + 2 ^ 52 - 1) / 2 ^ 52 - 1) / 2 ≤ x)
    (htop : e * 2 ^ 52 + 2 ^ 52 < 2047 * 2 ^ 52) : nearestBits q = e * 2 ^ 52 + 2 ^ 52 := by
  cases e with
  | zero =>
    refine nearestBits_eq hx (Or.inr rfl) (by linarith) (nearest_place (by omega) ?_ ?_ ?_)
      htop.le
    · push_cast at hlow ⊢
      norm_num at hlow ⊢
      linarith
    · push_cast
      linarith
    · intro hodd
      omega
  | succ f =>
    have hbits : (f + 1) * 2 ^ 52 + 2 ^ 52 = f * 2 ^ 52 + 2 ^ 53 := by omega
    have hhalf : ((f + 1) * 2 ^ 52 + 2 ^ 52 - 1) / 2 ^ 52 - 1 = f := by omega
    have hdouble : (2 : ℚ) ^ (f + 1) = 2 * 2 ^ f := pow_succ' 2 f
    have hpos : (0 : ℚ) < 2 ^ f := by positivity
    rw [hhalf, hdouble, Nat.cast_pow, Nat.cast_ofNat] at hlow
    rw [hdouble] at hbig
    rw [hbits]
    refine nearestBits_eq hx (Or.inl (by linarith)) (by linarith)
      (nearest_place (by omega) ?_ ?_ ?_) (by omega)
    · push_cast
      linarith
    · push_cast
      linarith
    · intro hodd
      omega

/-- What is read as a normal double has its bits. -/
theorem nearestBits_of_readsBack (hn : 2 ^ 52 ≤ n) (htop : n < 2047 * 2 ^ 52)
    (h : readsBack n q = true) : nearestBits q = n := by
  obtain ⟨e, m, hm, hm', rfl⟩ : ∃ e m, 2 ^ 52 ≤ m ∧ m < 2 ^ 53 ∧ n = e * 2 ^ 52 + m :=
    ⟨n / 2 ^ 52 - 1, 2 ^ 52 + n % 2 ^ 52, by omega, by omega, by omega⟩
  obtain ⟨x, hx⟩ : ∃ x, q * 2 ^ 1074 = x := ⟨_, rfl⟩
  obtain ⟨⟨hlow, hhigh⟩, hstrict⟩ := units_bounds hm hm' rfl hx h
  have hpow : (0 : ℚ) < 2 ^ e := by positivity
  have hm53 : (m : ℚ) + 1 ≤ 2 ^ 53 := by exact_mod_cast (by omega : m + 1 ≤ 2 ^ 53)
  have hbelow : x < 2 ^ 53 * 2 ^ e :=
    hhigh.trans_lt (mul_lt_mul_of_pos_right (by linarith) hpow)
  have hwide : 2 ^ 52 < m → (e * 2 ^ 52 + m - 1) / 2 ^ 52 - 1 = e := fun hlt => by omega
  by_cases hbig : 2 ^ 52 * 2 ^ e ≤ x
  · refine nearestBits_eq hx (Or.inl hbig) hbelow (nearest_place (by omega) ?_ hhigh ?_) htop.le
    · rcases hm.eq_or_lt with rfl | hlt
      · push_cast
        linarith
      · rw [hwide hlt] at hlow
        linarith
    · intro hodd
      obtain ⟨hlow, hhigh⟩ := hstrict hodd
      rw [hwide (by omega)] at hlow
      exact ⟨by linarith, hhigh⟩
  · rw [not_le] at hbig
    have hm52 : m = 2 ^ 52 := by
      by_contra hne
      rw [hwide (by omega)] at hlow
      have hle : (2 : ℚ) ^ 52 + 1 ≤ m := by exact_mod_cast (by omega : 2 ^ 52 + 1 ≤ m)
      have hmul := mul_le_mul_of_nonneg_right hle hpow.le
      linarith
    subst hm52
    exact nearestBits_below hx hbig hlow htop

/-! ## Few digits -/

/-- The digits that are written are enough. -/
def Short (v : F64) : Prop := v.isNormal = true ∧ (shortest v).1.length ≤ precision v

theorem precision_le (v : F64) : 1 ≤ precision v ∧ precision v ≤ 15 := by
  rw [precision]
  split <;> decide

/-- Zeros at the end of the digits do not count. -/
theorem number_of_digits {k d c : ℕ} {x : ℤ} (hd : d < 10 ^ p)
    (h : digitsOf k c = stripZeros (digitsOf p d)) (hc : c < 10 ^ k) :
    Rounded.number p (d, x) = Rounded.number k (c, x) := by
  have hlen : k ≤ p := by
    have hle := length_stripZeros_le (digitsOf p d)
    rwa [← h, length_digitsOf, length_digitsOf] at hle
  have hpad := stripZeros_pad (digitsOf p d)
  rw [← h, length_digitsOf, length_digitsOf, ← digitsOf_zero] at hpad
  have hnumber := congrArg digitsNumber hpad
  rw [digitsNumber_append, length_digitsOf, digitsNumber_digitsOf, digitsNumber_digitsOf,
    digitsNumber_digitsOf, Nat.mod_eq_of_lt hc, Nat.mod_eq_of_lt hd, Nat.zero_mod] at hnumber
  obtain ⟨m, rfl⟩ := Nat.exists_eq_add_of_le hlen
  rw [Nat.add_sub_cancel_left] at hnumber
  rw [Rounded.number, Rounded.number, ← hnumber, Nat.add_zero, Nat.cast_mul, Nat.cast_pow,
    Nat.cast_ofNat, mul_assoc, pow_mul_step, step]
  congr 2
  push_cast
  ring

theorem readsBack_of_short (hv : v.isFinite = true) (h : Short v) :
    readsBack v.abs.bits.toNat (styleG (precision v) v.absolute).value = true := by
  obtain ⟨hnormal, hlen⟩ := h
  obtain ⟨hp, hp'⟩ := precision_le v
  have hexact := Number.shortest_eq hp' hlen hnormal
  obtain ⟨k, s, hk, hs, -, heq⟩ := Number.shortest_cases (hlen.trans_lt (by omega))
  have hn : 2 ^ 52 ≤ v.abs.bits.toNat := by
    have hexponent : v.abs.bits.toNat / 2 ^ 52 ≠ 0 ∧ v.abs.bits.toNat / 2 ^ 52 ≠ 2047 := by
      simpa [F64.isNormal] using hnormal
    omega
  have hpos : 0 < v.absolute := by
    rw [Number.absolute_eq (F64.isNan_of_isFinite hv)]
    exact Number.value_pos (by omega)
  obtain ⟨-, hlt⟩ := Number.shortestAt_bounds hk (by omega) hs
  obtain ⟨-, hbound⟩ := scientific_bounds hp hpos
  rw [heq, exact, Prod.mk.injEq] at hexact
  have hnumber := number_of_digits (x := s.2) hbound hexact.1 hlt
  rw [value_styleG hp hpos, show scientific (precision v) v.absolute =
    ((scientific (precision v) v.absolute).1, s.2) from Prod.ext rfl hexact.2.symm, hnumber]
  exact Number.readsBack_of_shortestAt hk (by omega) hs

/-! ## Reading a written number -/

/-- What a number is after it was written and read. -/
def reread (v : F64) : F64 := (parseF64 (number v)).getD v

/-- A number that writing does not change. -/
def Kept (v : F64) : Prop := v = F64.zero ∨ Short v

theorem parseF64_number (hv : v.isFinite = true) : parseF64 (number v) = some (reread v) := by
  obtain ⟨negative, n, hn⟩ := exists_numeral hv
  rw [reread, hn, parseF64_convert]
  rfl

theorem bits_eq (v : F64) :
    v.bits = UInt64.ofNat (v.abs.bits.toNat + if v.isSignNegative then 2 ^ 63 else 0) := by
  have hlt := v.bits.toNat_lt
  apply UInt64.toNat.inj
  rw [UInt64.toNat_ofNat', F64.toNat_abs, F64.isSignNegative]
  by_cases hsign : 2 ^ 63 ≤ v.bits.toNat
  · rw [if_pos (decide_eq_true hsign)]
    omega
  · rw [if_neg (by simpa using hsign)]
    omega

theorem reread_eq (hv : v.isFinite = true) (h : Kept v) : reread v = v := by
  rcases h with rfl | h
  · decide +kernel
  · have hnan := F64.isNan_of_isFinite hv
    have hexponent : v.abs.bits.toNat / 2 ^ 52 ≠ 0 ∧ v.abs.bits.toNat / 2 ^ 52 ≠ 2047 := by
      simpa [F64.isNormal] using h.1
    have hzero : v.eq F64.zero = false := by
      rw [Bool.eq_false_iff, ne_eq, F64.eq_iff_units hnan F64.isNan_zero, F64.units_zero]
      intro hunits
      have habsolute := Number.absolute_eq hnan
      rw [F64.absolute, hunits, Int.natAbs_zero, Nat.cast_zero, zero_div] at habsolute
      exact (Number.value_pos (by omega)).ne habsolute
    obtain ⟨n, hn, hvalue⟩ := exists_number hv hzero
    have hbits : v.abs.bits.toNat < 2047 * 2 ^ 52 := by
      rw [F64.toNat_abs]
      exact Binary64.bits_lt_of_isFinite hv
    rw [reread, hn, parseF64_convert, Option.getD_some, hvalue,
      nearestBits_of_readsBack (by omega) hbits (readsBack_of_short hv h)]
    exact congrArg F64.mk (bits_eq v).symm

end Xeibe.Reproject.Wkt

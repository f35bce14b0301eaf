import Mathlib.Algebra.Order.Field.Power
import Mathlib.Data.List.DropRight
import Xeibe.Lib.Decimal
import Xeibe.Lib.Numeral
import Xeibe.Lib.Rounded

/-!
# The number conversions of `printf`

What `%e`, `%f` and `%g` write of a number that is not negative, as a numeral.  `%g`
takes the style by the exponent that `%e` has, and drops the zeros that end the
decimals.
-/

namespace Xeibe.Lib.Printf

open Numerals Rounded

/-! ## Digits -/

/-- The last `n` digits of a number. -/
def digitsOf : ℕ → ℕ → List UInt8
  | 0, _ => []
  | n + 1, d => digitsOf n (d / 10) ++ [Decimal.digit (Fin.ofNat 10 d)]

/-- A number's own digits, and zeros before them where they are fewer than `width`. -/
def padded (width d : ℕ) : List UInt8 := digitsOf (max width (Nat.log 10 d + 1)) d

/-- Digits without the zeros at their end. -/
def stripZeros (digits : List UInt8) : List UInt8 := digits.rdropWhile (· = 0x30)

@[simp] theorem length_digitsOf (n d : ℕ) : (digitsOf n d).length = n := by
  induction n generalizing d with
  | zero => rfl
  | succ n ih => simp [digitsOf, ih]

theorem isDigit_digitsOf {n d : ℕ} : ∀ b ∈ digitsOf n d, isDigit b = true := by
  induction n generalizing d with
  | zero => simp [digitsOf]
  | succ n ih =>
    intro b hb
    rcases List.mem_append.1 hb with hb | hb
    · exact ih b hb
    · obtain rfl := List.mem_singleton.1 hb
      generalize Fin.ofNat 10 d = digit
      revert digit
      decide

theorem digitsNumber_append (a b : List UInt8) :
    digitsNumber (a ++ b) = digitsNumber a * 10 ^ b.length + digitsNumber b := by
  induction b using List.reverseRecOn with
  | nil => simp [digitsNumber]
  | append_singleton b c ih =>
    have hconcat : ∀ l, digitsNumber (l ++ [c]) = digitsNumber l * 10 + (c.toNat - 48) := by
      simp [digitsNumber]
    rw [← List.append_assoc, hconcat, hconcat, ih, List.length_append, List.length_singleton,
      pow_succ]
    ring

theorem digitsNumber_digitsOf (n d : ℕ) : digitsNumber (digitsOf n d) = d % 10 ^ n := by
  induction n generalizing d with
  | zero => rw [pow_zero, Nat.mod_one]; rfl
  | succ n ih =>
    have hdigit : digitsNumber [Decimal.digit (Fin.ofNat 10 d)] = d % 10 := by
      simp [digitsNumber]
    rw [digitsOf, digitsNumber_append, ih, hdigit, List.length_singleton, pow_one, pow_succ',
      Nat.mod_mul]
    omega

theorem digitsOf_add (m n d : ℕ) :
    digitsOf (m + n) d = digitsOf m (d / 10 ^ n) ++ digitsOf n (d % 10 ^ n) := by
  induction n generalizing d with
  | zero => simp [digitsOf]
  | succ n ih =>
    have hhigh : d / 10 ^ (n + 1) = d / 10 / 10 ^ n := by rw [pow_succ', Nat.div_div_eq_div_mul]
    have hlow : d % 10 ^ (n + 1) / 10 = d / 10 % 10 ^ n := by
      rw [pow_succ', Nat.mod_mul_right_div_self]
    have hlast : Fin.ofNat 10 (d % 10 ^ (n + 1)) = Fin.ofNat 10 d := by
      apply Fin.ext
      rw [pow_succ']
      exact Nat.mod_mul_right_mod d 10 (10 ^ n)
    rw [← Nat.add_assoc, digitsOf, ih, digitsOf, hhigh, hlow, hlast, List.append_assoc]

theorem digitsOf_zero (n : ℕ) : digitsOf n 0 = List.replicate n 0x30 := by
  induction n with
  | zero => rfl
  | succ n ih =>
    rw [digitsOf, Nat.zero_div, ih, List.replicate_succ']
    rfl

theorem padded_one {n d : ℕ} (hlow : 10 ^ n ≤ d) (hhigh : d < 10 ^ (n + 1)) :
    padded 1 d = digitsOf (n + 1) d := by
  rw [padded, Nat.log_eq_of_pow_le_of_lt_pow hlow hhigh, max_eq_right (by omega)]

/-! ## Zeros at the end -/

theorem stripZeros_append_of_nil {a b : List UInt8} (hb : stripZeros b = []) :
    stripZeros (a ++ b) = stripZeros a := by
  induction b using List.reverseRecOn with
  | nil => rw [List.append_nil]
  | append_singleton b c ih =>
    rw [stripZeros] at hb ⊢
    by_cases hc : c = 0x30
    · rw [List.rdropWhile_concat_pos _ _ _ (by simpa using hc)] at hb
      rw [← List.append_assoc, List.rdropWhile_concat_pos _ _ _ (by simpa using hc)]
      exact ih hb
    · rw [List.rdropWhile_concat_neg _ _ _ (by simpa using hc)] at hb
      simp at hb

theorem stripZeros_append_of_ne_nil {a b : List UInt8} (hb : stripZeros b ≠ []) :
    stripZeros (a ++ b) = a ++ stripZeros b := by
  induction b using List.reverseRecOn with
  | nil => exact absurd rfl hb
  | append_singleton b c ih =>
    rw [stripZeros] at hb ⊢
    rw [stripZeros]
    by_cases hc : c = 0x30
    · rw [List.rdropWhile_concat_pos _ _ _ (by simpa using hc)] at hb ⊢
      rw [← List.append_assoc, List.rdropWhile_concat_pos _ _ _ (by simpa using hc)]
      exact ih hb
    · rw [List.rdropWhile_concat_neg _ _ _ (by simpa using hc), ← List.append_assoc,
        List.rdropWhile_concat_neg _ _ _ (by simpa using hc)]

theorem length_stripZeros_le (digits : List UInt8) :
    (stripZeros digits).length ≤ digits.length := by
  rw [stripZeros]
  exact (List.rdropWhile_prefix _ digits).length_le

/-- What is dropped is zeros. -/
theorem stripZeros_pad (digits : List UInt8) :
    stripZeros digits ++ List.replicate (digits.length - (stripZeros digits).length) 0x30 =
      digits := by
  induction digits using List.reverseRecOn with
  | nil => rfl
  | append_singleton digits c ih =>
    by_cases hc : c = 0x30
    · have hle := length_stripZeros_le digits
      have hstrip : stripZeros (digits ++ [c]) = stripZeros digits := by
        rw [stripZeros, List.rdropWhile_concat_pos _ _ _ (by simpa using hc), stripZeros]
      have hcount : (digits ++ [c]).length - (stripZeros digits).length =
          digits.length - (stripZeros digits).length + 1 := by
        rw [List.length_append, List.length_singleton]
        omega
      rw [hstrip, hcount, List.replicate_succ', ← List.append_assoc, ih, hc]
    · rw [stripZeros, List.rdropWhile_concat_neg _ _ _ (by simpa using hc), Nat.sub_self,
        List.replicate_zero, List.append_nil]

theorem stripZeros_digitsOf {n d : ℕ} (hn : 1 ≤ n) (hd : ¬ 10 ∣ d) :
    stripZeros (digitsOf n d) = digitsOf n d := by
  obtain ⟨m, rfl⟩ := Nat.exists_eq_add_of_le' hn
  have hlast : Decimal.digit (Fin.ofNat 10 d) ≠ 0x30 := by
    intro hzero
    have htoNat := congrArg UInt8.toNat hzero
    rw [Decimal.toNat_digit, Fin.val_ofNat] at htoNat
    have hthirty : (0x30 : UInt8).toNat = 48 := rfl
    omega
  rw [digitsOf, stripZeros, List.rdropWhile_concat_neg _ _ _ (by simpa using hlast)]

theorem stripZeros_eq_nil_iff {n d : ℕ} (hd : d < 10 ^ n) :
    stripZeros (digitsOf n d) = [] ↔ d = 0 := by
  constructor
  · intro h
    have hpad := stripZeros_pad (digitsOf n d)
    rw [h, List.nil_append, ← digitsOf_zero] at hpad
    have hnumber := congrArg digitsNumber hpad
    rw [digitsNumber_digitsOf, digitsNumber_digitsOf, Nat.mod_eq_of_lt hd, Nat.zero_mod] at hnumber
    exact hnumber.symm
  · rintro rfl
    rw [digitsOf_zero, stripZeros, List.rdropWhile_eq_nil_iff]
    simp

/-! ## Numerals -/

/-- Decimals as a numeral has them. -/
def decimals : List UInt8 → Option (List UInt8)
  | [] => none
  | b :: rest => some (b :: rest)

theorem decimals_all {digits : List UInt8} (h : ∀ b ∈ digits, isDigit b = true) :
    ∀ f ∈ decimals digits, ∀ b ∈ f, isDigit b = true := by
  cases digits with
  | nil => nofun
  | cons b rest =>
    intro f hf
    obtain rfl := Option.some.inj hf
    exact h

@[simp] theorem getD_decimals (digits : List UInt8) : (decimals digits).getD [] = digits := by
  cases digits <;> rfl

theorem padded_ne_nil {width d : ℕ} : padded width d ≠ [] := by
  rw [← List.length_pos_iff, padded, length_digitsOf]
  omega

theorem digitsNumber_padded (width d : ℕ) : digitsNumber (padded width d) = d := by
  rw [padded, digitsNumber_digitsOf]
  apply Nat.mod_eq_of_lt
  calc d < 10 ^ (Nat.log 10 d + 1) := Nat.lt_pow_succ_log_self (by omega) d
    _ ≤ 10 ^ max width (Nat.log 10 d + 1) := Nat.pow_le_pow_right (by omega) (Nat.le_max_right _ _)

/-- An exponent has a sign, and two digits or more. -/
def exponent (x : ℤ) : Exponent where
  letter := 0x65
  isLetter := Or.inl rfl
  sign := some (x < 0)
  digits := padded 2 x.natAbs
  digits_ne := padded_ne_nil
  digits_all := isDigit_digitsOf

theorem value_exponent (x : ℤ) : (exponent x).value = x := by
  rw [Exponent.value, exponent, digitsNumber_padded]
  by_cases hx : x < 0
  · rw [if_pos (by simpa using hx)]
    omega
  · rw [if_neg (by simpa using hx)]
    omega

/-- A number, `n` decimals of it cut off. -/
def numeral (n d : ℕ) (exponent : Option Exponent) : Numeral where
  whole := padded 1 (d / 10 ^ n)
  whole_all := isDigit_digitsOf
  fraction := decimals (digitsOf n (d % 10 ^ n))
  fraction_all := decimals_all isDigit_digitsOf
  some_digit := Or.inl padded_ne_nil
  exponent := exponent

/-- A numeral without the zeros that end its decimals. -/
def trimmed (n : Numeral) (h : n.whole ≠ []) : Numeral where
  whole := n.whole
  whole_all := n.whole_all
  fraction := decimals (stripZeros (n.fraction.getD []))
  fraction_all := decimals_all fun b hb => by
    have hmem := (List.rdropWhile_prefix (· = 0x30) (n.fraction.getD [])).subset hb
    cases hfraction : n.fraction with
    | none =>
      rw [hfraction] at hmem
      cases hmem
    | some f =>
      rw [hfraction] at hmem
      exact n.fraction_all f hfraction b hmem
  some_digit := Or.inl h
  exponent := n.exponent

theorem scaled_append_replicate (whole fraction : List UInt8) (e : ℤ) (k : ℕ) :
    Numeral.scaled whole (fraction ++ List.replicate k 0x30) e =
      Numeral.scaled whole fraction e := by
  have hzeros : digitsNumber (List.replicate k 0x30) = 0 := by
    rw [← digitsOf_zero, digitsNumber_digitsOf, Nat.zero_mod]
  rw [Numeral.scaled, Numeral.scaled, ← List.append_assoc, digitsNumber_append, hzeros,
    Nat.add_zero, List.length_append, List.length_replicate, Nat.cast_mul, Nat.cast_pow,
    Nat.cast_ofNat, mul_assoc, ← zpow_natCast, ← zpow_add₀ (by norm_num)]
  congr 2
  push_cast
  ring

theorem value_trimmed (n : Numeral) (h : n.whole ≠ []) : (trimmed n h).value = n.value := by
  have hpad := stripZeros_pad (n.fraction.getD [])
  rw [Numeral.value, Numeral.value]
  conv_rhs => rw [← hpad]
  rw [scaled_append_replicate]
  simp [trimmed]

theorem value_numeral (n d : ℕ) (e : Option Exponent) :
    (numeral n d e).value = d * 10 ^ ((e.map Exponent.value).getD 0 - n) := by
  have hdigits : digitsNumber (padded 1 (d / 10 ^ n) ++ digitsOf n (d % 10 ^ n)) = d := by
    rw [digitsNumber_append, digitsNumber_padded, digitsNumber_digitsOf, length_digitsOf,
      Nat.mod_mod, Nat.div_add_mod']
  rw [Numeral.value, Numeral.scaled]
  simp only [numeral, getD_decimals, hdigits, length_digitsOf]

/-! ## Conversions -/

/-- `%.{n}e` -/
def styleE (n : ℕ) (v : ℚ) : Numeral :=
  numeral n (scientific (n + 1) v).1 (some (exponent (scientific (n + 1) v).2))

/-- `%.{n}f` -/
def styleF (n : ℕ) (v : ℚ) : Numeral := numeral n (nearest (v * 10 ^ n)) none

theorem whole_styleE (n : ℕ) (v : ℚ) : (styleE n v).whole ≠ [] := padded_ne_nil

theorem whole_styleF (n : ℕ) (v : ℚ) : (styleF n v).whole ≠ [] := padded_ne_nil

/-- `%.{p}g`, for a precision of 1 or more. -/
def styleG (p : ℕ) (v : ℚ) : Numeral :=
  let x := (scientific p v).2
  if x < -4 ∨ p ≤ x then trimmed (styleE (p - 1) v) (whole_styleE _ _)
  else trimmed (styleF (p - 1 - x).toNat v) (whole_styleF _ _)

/-- A numeral's text, with a minus before it where the number is negative. -/
def convert (negative : Bool) (n : Numeral) : List UInt8 :=
  (if negative then [0x2d] else []) ++ n.text

variable {p : ℕ} {v : ℚ}

theorem nearest_mul_pow (hp : 1 ≤ p) (hv : 0 < v) (hx : (scientific p v).2 < p) :
    nearest (v * 10 ^ (p - 1 - (scientific p v).2).toNat) = (scientific p v).1 := by
  rw [← nearest_div_step hp hv, step, div_eq_mul_inv, ← zpow_neg, ← zpow_natCast]
  congr 3
  omega

theorem value_styleG (hp : 1 ≤ p) (hv : 0 < v) :
    (styleG p v).value = number p (scientific p v) := by
  rw [styleG]
  split
  · rw [value_trimmed, styleE, value_numeral, Nat.sub_add_cancel hp, number, step]
    simp only [Option.map_some, Option.getD_some, value_exponent]
    congr 2
    omega
  · rename_i h
    rw [value_trimmed, styleF, value_numeral, nearest_mul_pow hp hv (by omega), number, step]
    simp only [Option.map_none, Option.getD_none]
    congr 2
    omega

end Xeibe.Lib.Printf

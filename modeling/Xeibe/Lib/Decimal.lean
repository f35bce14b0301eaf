import Mathlib.Data.Nat.Basic
import Mathlib.Data.Fin.Basic
import Mathlib.Data.List.Induction
import Mathlib.Tactic.Ring

/-!
# Decimal digits

Numbers written with decimal digits, the first of the highest place, as the bytes
of a text and as what they stand for.
-/

namespace Xeibe.Lib.Decimal

instance ten_ne_zero : NeZero 10 := ⟨by decide⟩

/-- The character of a digit. -/
def digit (d : Fin 10) : UInt8 := UInt8.ofNat (48 + d)

/-- The number that digits stand for. -/
def value (digits : List (Fin 10)) : Nat := digits.foldl (fun n d => n * 10 + d.val) 0

/-- Two digits, for a number below a hundred. -/
def two (n : Nat) : List UInt8 := [digit (Fin.ofNat 10 (n / 10)), digit (Fin.ofNat 10 (n % 10))]

@[simp] theorem toNat_digit (d : Fin 10) : (digit d).toNat = 48 + d := by
  have hd := d.isLt
  simp only [digit, UInt8.toNat_ofNat']
  omega

@[simp] theorem value_nil : value [] = 0 := rfl

theorem value_concat (digits : List (Fin 10)) (d : Fin 10) :
    value (digits ++ [d]) = value digits * 10 + d := by
  simp [value]

theorem value_append (high low : List (Fin 10)) :
    value (high ++ low) = value high * 10 ^ low.length + value low := by
  induction low using List.reverseRecOn with
  | nil => simp
  | append_singleton low d ih =>
    rw [← List.append_assoc, value_concat, value_concat, ih, List.length_append,
      List.length_singleton, pow_succ]
    ring

theorem value_lt (digits : List (Fin 10)) : value digits < 10 ^ digits.length := by
  induction digits using List.reverseRecOn with
  | nil => simp
  | append_singleton digits d ih =>
    have hd := d.isLt
    rw [value_concat, List.length_append, List.length_singleton, pow_succ]
    omega

theorem value_zeros {digits : List (Fin 10)} (h : ∀ d ∈ digits, d = 0) : value digits = 0 := by
  induction digits using List.reverseRecOn with
  | nil => rfl
  | append_singleton digits d ih =>
    have hd : d = 0 := h d (by simp)
    have hrest : value digits = 0 := ih fun e he => h e (by simp [he])
    simp [value_concat, hd, hrest]

end Xeibe.Lib.Decimal

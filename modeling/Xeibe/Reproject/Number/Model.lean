import Xeibe.Lib.Printf
import Xeibe.Reproject.Equivalent.Close

/-!
# Numbers as PROJ writes them

`number.rs`: `%.15g` of a double, or `%.14g`, laid out here from the digits that
Rust's `{:e}` writes.  Text and digits are ASCII bytes.
-/

namespace Xeibe.Geom.F64

/-- `f64::is_sign_negative`. -/
def isSignNegative (v : F64) : Bool := 2 ^ 63 ≤ v.bits.toNat

/-- `f64::is_normal`: not zero, subnormal, infinite or NaN. -/
def isNormal (v : F64) : Bool :=
  let exponent := v.abs.bits.toNat / 2 ^ 52
  exponent ≠ 0 && exponent ≠ 2047

/-- A double's value without its sign. -/
def absolute (v : F64) : ℚ := v.units.natAbs / 2 ^ 1074

end Xeibe.Geom.F64

namespace Xeibe.Reproject.Number

open Xeibe.Geom (F64)
open Xeibe.Lib Binary64 Numerals Rounded Printf

abbrev Bytes := List UInt8

/-! ## The digits of a double -/

/-- The double with these bits, which have no sign. -/
def value (n : ℕ) : ℚ := magnitude n / 2 ^ 1074

/-- What is read as the double: all up to halfway to its neighbours, and halfway too where
its last bit is 0. -/
def readsBack (n : ℕ) (q : ℚ) : Bool :=
  let low := (value (n - 1) + value n) / 2
  let high := (value n + value (n + 1)) / 2
  if n % 2 = 0 then low ≤ q && q ≤ high else low < q && q < high

/-- A double in steps of the last of `k` digits, rounded down. -/
def below (n k : ℕ) : ℕ := ⌊value n / step k (Int.log 10 (value n))⌋₊

/-- The nearer one of the two decimals of `k` digits around a double, of those that are
read back as it. -/
def shortestAt (n k : ℕ) : Option (ℕ × ℤ) :=
  let x := Int.log 10 (value n)
  let down := readsBack n (below n k * step k x)
  let up := readsBack n ((below n k + 1 : ℕ) * step k x)
  if up && (!down || 1 / 2 ≤ value n / step k x - below n k) then
    some (carried k (below n k + 1) x)
  else if down then some (below n k, x)
  else none

/-- The digits of `{:.*e}` with `precision - 1` decimals, and its exponent. -/
def exact (v : F64) (precision : ℕ) : Bytes × ℤ :=
  let s := scientific precision v.absolute
  (digitsOf precision s.1, s.2)

/-- The digits of `{:e}`, the fewest that are read back (17 always are), and its
exponent. -/
def shortest (v : F64) : Bytes × ℤ :=
  let n := v.abs.bits.toNat
  let k := ((List.range' 1 17).find? fun k => (shortestAt n k).isSome).getD 17
  let s := (shortestAt n k).getD (scientific 17 v.absolute)
  (digitsOf k s.1, s.2)

/-- Digits and an exponent as `{:e}` writes them. -/
def lowerExp (negative : Bool) (s : Bytes × ℤ) : Bytes :=
  let point : Bytes := if 1 < s.1.length then 0x2e :: s.1.drop 1 else []
  let minus : Bytes := if s.2 < 0 then [0x2d] else []
  (if negative then [0x2d] else []) ++ s.1.take 1 ++ point ++
    0x65 :: (minus ++ padded 1 s.2.natAbs)

/-- `str::parse::<i32>` of a number that was written without a plus. -/
def parseInt : Bytes → ℤ
  | [] => 0
  | b :: rest => if b = 0x2d then -digitsNumber rest else digitsNumber (b :: rest)

/-- `Buf::digits`: the significant digits and the exponent of what was written. -/
def bufDigits (s : Bytes) : Bytes × ℤ :=
  let e := s.idxOf 0x65
  ((s.take e).filter isDigit, parseInt (s.drop (e + 1)))

/-! ## `%g` -/

/-- How many digits are left without the zeros at the end. -/
def kept (digits : Bytes) : ℕ :=
  match digits.reverse.findIdx? (· ≠ 0x30) with
  | some i => digits.length - i
  | none => 1

/-- `%g`'s layout of the significant digits `digits` times 10 to `exp`: positional
from 1e-4 to below 10 to the precision, else with an exponent. -/
def place (out : Bytes) (negative : Bool) (digits : Bytes) (exp : ℤ) (precision : ℕ) : Bytes :=
  let out := if negative then out ++ [0x2d] else out
  if exp < -4 ∨ precision ≤ exp then
    let out := out ++ digits.take 1
    let out := if 1 < digits.length then out ++ [0x2e] ++ digits.drop 1 else out
    out ++ [0x65] ++ [if exp < 0 then 0x2d else 0x2b] ++ padded 2 exp.natAbs
  else if exp < 0 then
    out ++ [0x30, 0x2e] ++ List.replicate (-exp - 1).toNat 0x30 ++ digits
  else
    let whole := exp.toNat + 1
    if digits.length ≤ whole then out ++ digits ++ List.replicate (whole - digits.length) 0x30
    else out ++ digits.take whole ++ [0x2e] ++ digits.drop whole

/-- Where the shortest digits are enough. -/
def fast (v : F64) (digits : Bytes) (precision : ℕ) : Bool :=
  precision ≤ 15 && digits.length ≤ precision && v.isNormal

/-- C's `%.{precision}g`. -/
def writeG (out : Bytes) (v : F64) (precision : ℕ) : Bytes :=
  if v.eq F64.zero then out ++ if v.isSignNegative then [0x2d, 0x30] else [0x30]
  else if !v.isFinite then
    out ++ if v.isNan then [0x6e, 0x61, 0x6e]
      else if F64.zero < v then [0x69, 0x6e, 0x66] else [0x2d, 0x69, 0x6e, 0x66]
  else
    let (digits, exp) := bufDigits (lowerExp v.isSignNegative (shortest v))
    if fast v digits precision then place out (v < F64.zero) digits exp precision
    else
      let (digits, exp) := bufDigits (lowerExp v.isSignNegative (exact v precision))
      place out (v < F64.zero) (digits.take (kept digits)) exp precision

/-- `9999999999`. -/
def nines : Bytes := List.replicate 10 0x39

/-- PROJ's `internal::toString(double)`, onto `out`. -/
def write (out : Bytes) (v : F64) : Bytes :=
  let start := out.length
  let out := writeG out v 15
  if nines <:+: out.drop start then writeG (out.take start) v 14 else out

end Xeibe.Reproject.Number

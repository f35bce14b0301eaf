import Mathlib.Data.Rat.Defs
import Xeibe.Lib.Numeral
import Xeibe.Lib.Utf8

/-!
# Angles in a PROJ string

`strtod_prefix` and `dmstor` of `tokens.rs`, in exact arithmetic: what is `f64`
there is a rational number here.  The source's index into the bytes is the bytes
that are left.
-/

namespace Xeibe.Reproject.Angles

open Xeibe.Lib Numerals

abbrev Bytes := List UInt8

/-! ## Numbers -/

/-- A written sign, and whether it is a minus, with what follows. -/
def takeSign : Bytes → Option Bool × Bytes
  | [] => (none, [])
  | b :: rest =>
    if b = 0x2b then (some false, rest) else if b = 0x2d then (some true, rest)
    else (none, b :: rest)

/-- What follows a point, where there is one. -/
def takePoint : Bytes → Option Bytes
  | [] => none
  | b :: rest => if b = 0x2e then some rest else none

/-- The exponent at the end of a number. -/
def parseExponent : Bytes → Option Int
  | [] => some 0
  | b :: rest =>
    if b = 0x65 ∨ b = 0x45 then
      let (sign, digits) := takeSign rest
      if digits.isEmpty || !digits.all isDigit then none
      else
        let value : Int := digitsNumber digits
        some (if sign = some true then -value else value)
    else none

/-- `str::parse::<f64>` of a text that starts with a digit or a point. -/
def parseNumber (text : Bytes) : Option ℚ :=
  let whole := text.takeWhile isDigit
  let rest := text.dropWhile isDigit
  let (frac, rest) : Bytes × Bytes := match takePoint rest with
    | some rest => (rest.takeWhile isDigit, rest.dropWhile isDigit)
    | none => ([], rest)
  if whole.isEmpty && frac.isEmpty then none
  else (parseExponent rest).map (Numeral.scaled whole frac)

/-- What is left after the exponent, where there is one. -/
def skipExponent : Bytes → Bytes
  | [] => []
  | b :: exponent =>
    if b = 0x65 ∨ b = 0x45 then
      let unsigned := (takeSign exponent).2
      let rest := unsigned.dropWhile isDigit
      if rest.length < unsigned.length then rest else b :: exponent
    else b :: exponent

/-- The longest prefix of `s` that `strtod` reads as a number (no sign, as
`dmstor` strips it first), and its length. -/
def strtodPrefix (s : Bytes) : Option (ℚ × Nat) :=
  let rest := s.dropWhile isDigit
  let whole := rest.length < s.length
  let (rest, frac) : Bytes × Bool := match takePoint rest with
    | some fraction =>
      let rest := fraction.dropWhile isDigit
      (rest, rest.length < fraction.length)
    | none => (rest, false)
  if !whole && !frac then none
  else
    let i := s.length - (skipExponent rest).length
    (parseNumber (s.take i)).map fun v => (v, i)

/-! ## Angles -/

/-- PROJ's degree, minute and second in radians, as written in `dmstor.cpp`. -/
def VM : Nat → ℚ
  | 0 => 0.017453292519943296
  | 1 => 0.0002908882086657216
  | _ => 0.0000048481368110953599

/-- `NnEeSsWw`. -/
def SYM : Bytes := [0x4e, 0x6e, 0x45, 0x65, 0x53, 0x73, 0x57, 0x77]

/-- `char::is_ascii_whitespace`. -/
def isSpaceChar (c : Char) : Bool := c = ' ' || c = '\t' || c = '\n' || c = '\x0c' || c = '\r'

/-- Printable characters, and the bytes of `°`. -/
def isCopied (b : UInt8) : Bool := (0x21 ≤ b && b ≤ 0x7e) || b = 0xc2 || b = 0xb0

/-- What follows a number: a unit and the bytes of its mark, `r`, or neither. -/
inductive Unit where
  | mark (unit adv : Nat)
  | radians
  | other
deriving DecidableEq

def unitAt : Bytes → Unit
  | [] => .other
  | c :: rest =>
    if c = 0x44 ∨ c = 0x64 ∨ c = 0xb0 then .mark 0 1
    else if c = 0x27 then .mark 1 1
    else if c = 0x22 then .mark 2 1
    else if c = 0xc2 ∧ rest.head? = some 0xb0 then .mark 0 2
    else if c = 0x72 ∨ c = 0x52 then .radians
    else .other

/-- The loop over the numbers: what is left, the angle so far, and the unit that
a number without a mark has. -/
def readUnits (work : Bytes) (v : ℚ) (nl : Nat) : Option (Bytes × ℚ) :=
  if _hnl : 3 ≤ nl then some (work, v)
  else
    if !(work.head?.any fun b => isDigit b || b = 0x2e) then some (work, v)
    else
      match strtodPrefix work with
      | none => none
      | some (tv, n) =>
        let rest := work.drop n
        match unitAt rest with
        | .radians => if nl ≠ 0 then none else readUnits (rest.drop 1) tv 5
        | .other => readUnits rest (v + tv * VM nl) 5
        | .mark unit adv =>
          if _hunit : unit < nl then none
          else readUnits (rest.drop adv) (v + tv * VM unit) (unit + 1)
termination_by 3 - nl

/-- A hemisphere letter decides the sign. -/
def takeHemisphere (negative : Bool) : Bytes → Bool × Bytes
  | [] => (negative, [])
  | c :: rest =>
    match SYM.idxOf? c with
    | some i => (decide (4 ≤ i), rest)
    | none => (negative, c :: rest)

/-- `dmstor`: an angle, in degrees, minutes and seconds (`49d30'15"N`), in
radians or as a plain number of degrees, converted to radians; `none` unless all
of `s` is read. -/
def dmstor (s : List Char) : Option ℚ := do
  let bytes := Utf8.encode (s.dropWhile isSpaceChar)
  -- Printable characters (and the bytes of °) only.
  let len := min (bytes.takeWhile isCopied).length 63
  let work := bytes.take len
  let (sign, rest) := takeSign work
  let (rest, v) ← readUnits rest 0 0
  let (negative, rest) := takeHemisphere (sign = some true) rest
  let v := if negative then -v else v
  -- The caller requires the whole string to have been read.
  if rest = [] ∧ len = bytes.length then some v else none

end Xeibe.Reproject.Angles

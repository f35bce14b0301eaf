import Xeibe.Core.Names
import Xeibe.Lib.Checked

/-!
# Texts as typed values

`xeibe-arrow/src/value.rs`: the text of a value, parsed as a type of a column.  A
text that does not fit its type is a failure here (`None` in the source).  What
would panic does: an index out of range, a slice that does not start at a
character, and arithmetic outside its word, which wraps in a build without
overflow checks.

Floating-point numbers are a parameter.
-/

namespace Xeibe.Arrow

open Lib

abbrev Parse (α : Type) := Checked Unit α

namespace Parse

variable {α : Type}

/-- `None`. -/
def none : Parse α := Checked.fail ()

/-- `?` on an `Option`. -/
def ofOption : Option α → Parse α
  | some a => .ok a
  | .none => none

/-- The result of an operation on signed words. -/
def signed (bits : Nat) (x : Int) : Parse Int :=
  if -2 ^ (bits - 1) ≤ x ∧ x < 2 ^ (bits - 1) then .ok x else Checked.panic

/-- The result of an operation on unsigned words. -/
def unsigned (bits : Nat) (x : Nat) : Parse Nat :=
  if x < 2 ^ bits then .ok x else Checked.panic

/-- The result of a `checked_` operation in 64 bits. -/
def checked (x : Int) : Parse Int :=
  if -2 ^ 63 ≤ x ∧ x < 2 ^ 63 then .ok x else none

end Parse

/-! ## Texts -/

def isAsciiDigit (b : UInt8) : Bool := 0x30 ≤ b && b ≤ 0x39

/-- `str::is_char_boundary`. -/
def isCharBoundary (text : Bytes) (i : Nat) : Bool :=
  match text[i]? with
  | some b => i == 0 || b < 0x80 || 0xc0 ≤ b
  | none => i == text.length

/-- `&text[i..]`. -/
def sliceFrom (text : Bytes) (i : Nat) : Parse Bytes :=
  if isCharBoundary text i then .ok (text.drop i) else Checked.panic

/-- `&text[..i]`. -/
def sliceTo (text : Bytes) (i : Nat) : Parse Bytes :=
  if isCharBoundary text i then .ok (text.take i) else Checked.panic

/-- `strip_prefix` with one character. -/
def stripChar (c : UInt8) : Bytes → Option Bytes
  | [] => none
  | b :: rest => if b = c then some rest else none

/-- How many digits a text starts with. -/
def countDigits (text : Bytes) : Nat := (text.takeWhile isAsciiDigit).length

/-- The number that digits stand for. -/
def digitsValue (digits : Bytes) : Nat :=
  digits.foldl (fun value b => value * 10 + (b.toNat - 48)) 0

/-- `str::parse::<u64>`. -/
def parseU64 (text : Bytes) : Option Nat :=
  let digits := (stripChar 0x2b text).getD text
  if digits.isEmpty || !digits.all isAsciiDigit then none
  else if digitsValue digits < 2 ^ 64 then some (digitsValue digits)
  else none

/-- `str::parse::<i64>`. -/
def parseI64 (text : Bytes) : Option Int :=
  let (sign, digits) :=
    match stripChar 0x2d text with
    | some digits => (-1, digits)
    | none => (1, (stripChar 0x2b text).getD text)
  if digits.isEmpty || !digits.all isAsciiDigit then none
  else
    let value : Int := sign * digitsValue digits
    if -2 ^ 63 ≤ value ∧ value < 2 ^ 63 then some value else none

/-! ## Types -/

inductive TimeUnit where
  | second
  | millisecond
  | microsecond
  | nanosecond
  deriving DecidableEq

/-- Arrow's types, as far as text is parsed into them. -/
inductive DataType where
  | utf8
  | largeUtf8
  | utf8View
  | boolean
  | int8
  | int16
  | int32
  | int64
  | uint8
  | uint16
  | uint32
  | uint64
  | float16
  | float32
  | float64
  | date32
  | date64
  | timestamp (unit : TimeUnit) (tz : Option Bytes)
  | time32 (unit : TimeUnit)
  | time64 (unit : TimeUnit)
  | other
  deriving DecidableEq

/-- A parsed value, in the physical form of its column type. -/
inductive Scalar (F : Type) where
  | bool (value : Bool)
  /-- Signed integers, and timestamps, `date64` and `time64` in their unit. -/
  | int (value : Int)
  | uint (value : Nat)
  | float (value : F)
  /-- `date32` days, `time32` values. -/
  | int32 (value : Int)
  | str (value : Bytes)
  deriving DecidableEq

/-- `f64`: its special values and `str::parse`. -/
structure Floats (F : Type) where
  infinity : F
  negInfinity : F
  nan : F
  parse : Bytes → Option F

/-! ## Numbers -/

def intIn (text : Bytes) (min max : Int) : Parse Int := do
  let digits := (stripChar 0x2b text).getD text
  let value ← Parse.ofOption (parseI64 digits)
  if min ≤ value ∧ value ≤ max then .ok value else Parse.none

def uintIn (text : Bytes) (max : Nat) : Parse Nat := do
  let digits := (stripChar 0x2b text).getD text
  let value ← Parse.ofOption (parseU64 digits)
  if value ≤ max then .ok value else Parse.none

def isAsciiAlphabetic (b : UInt8) : Bool :=
  (0x41 ≤ b && b ≤ 0x5a) || (0x61 ≤ b && b ≤ 0x7a)

/-- `xs:double`: decimal or exponent notation, `INF`, `-INF`, `NaN`. -/
def parseFloat {F : Type} (floats : Floats F) (text : Bytes) : Parse F :=
  if text = utf8 "INF" ∨ text = utf8 "+INF" then .ok floats.infinity
  else if text = utf8 "-INF" then .ok floats.negInfinity
  else if text = utf8 "NaN" then .ok floats.nan
  -- Rust also takes `inf`, `infinity` and `nan` in any case; XML doesn't.
  else if text.any fun b => isAsciiAlphabetic b && b != 0x65 && b != 0x45 then Parse.none
  else Parse.ofOption (floats.parse text)

/-! ## Dates and times -/

def twoDigits (text : Bytes) : Parse Nat :=
  match text with
  | a :: b :: _ =>
    if isAsciiDigit a && isAsciiDigit b then do
      let tens ← Parse.unsigned 8 ((a.toNat - 48) * 10)
      Parse.unsigned 8 (tens + (b.toNat - 48))
    else Parse.none
  | _ => Parse.none

/-- Days since 1970-01-01 of a proleptic Gregorian date. -/
def daysFromCivil (year : Int) (month day : Nat) : Parse Int := do
  let year ← (if month ≤ 2 then Parse.signed 64 (year - 1) else .ok year)
  let era := year / 400
  let eraYears ← Parse.signed 64 (era * 400)
  let yearOfEra ← Parse.signed 64 (year - eraYears)
  let month : Int := month
  let fromMarch := if 2 < month then month - 3 else month + 9
  let dayOfYear := (153 * fromMarch + 2) / 5 + day - 1
  let dayOfEra ←
    Parse.signed 64 (yearOfEra * 365 + yearOfEra / 4 - yearOfEra / 100 + dayOfYear)
  let eraDays ← Parse.signed 64 (era * 146097)
  Parse.signed 64 (eraDays + dayOfEra - 719468)

/-- The sign of a year, and what follows it. -/
def yearSign (text : Bytes) : Bool × Bytes :=
  match stripChar 0x2d text with
  | some rest => (true, rest)
  | none => (false, text)

def daysInMonth (year : Int) (month : Nat) : Option Nat :=
  let leap := (year.tmod 4 = 0 ∧ year.tmod 100 ≠ 0) ∨ year.tmod 400 = 0
  if month ∈ [1, 3, 5, 7, 8, 10, 12] then some 31
  else if month ∈ [4, 6, 9, 11] then some 30
  else if month = 2 ∧ leap then some 29
  else if month = 2 then some 28
  else none

/-- `[-]YYYY-MM-DD` as days since 1970-01-01, and what follows. -/
def parseDate (text : Bytes) : Parse (Int × Bytes) := do
  let (negative, unsigned) := yearSign text
  let yearLen := countDigits unsigned
  if ¬ (4 ≤ yearLen ∧ yearLen ≤ 9) then Parse.none
  else
    let digits ← sliceTo unsigned yearLen
    let year ← Parse.ofOption (parseI64 digits)
    let year ← (if negative then Parse.signed 64 (-year) else .ok year)
    let rest ← sliceFrom unsigned yearLen
    let rest ← Parse.ofOption (stripChar 0x2d rest)
    let month ← twoDigits rest
    let rest ← sliceFrom rest 2
    let rest ← Parse.ofOption (stripChar 0x2d rest)
    let day ← twoDigits rest
    let most ← Parse.ofOption (daysInMonth year month)
    if day = 0 ∨ most < day then Parse.none
    else
      let days ← daysFromCivil year month day
      let rest ← sliceFrom rest 2
      .ok (days, rest)

/-- `hh:mm:ss[.f+]` as seconds of the day, fraction digits, and what follows. -/
def parseTime (text : Bytes) : Parse (Int × Bytes × Bytes) := do
  let hour ← twoDigits text
  let rest ← sliceFrom text 2
  let rest ← Parse.ofOption (stripChar 0x3a rest)
  let minute ← twoDigits rest
  let rest ← sliceFrom rest 2
  let rest ← Parse.ofOption (stripChar 0x3a rest)
  let second ← twoDigits rest
  if 23 < hour ∨ 59 < minute ∨ 60 < second then Parse.none
  else
    let seconds ← Parse.unsigned 32 (hour * 3600 + minute * 60 + min second 59)
    let rest ← sliceFrom rest 2
    match stripChar 0x2e rest with
    | some fraction =>
      let len := countDigits fraction
      if len = 0 then Parse.none
      else
        let digits ← sliceTo fraction len
        let rest ← sliceFrom fraction len
        .ok (seconds, digits, rest)
    | none => .ok (seconds, [], rest)

def zoneSign (b : UInt8) : Option Int :=
  if b = 0x2b then some 1 else if b = 0x2d then some (-1) else none

/-- Empty (no time zone), `Z`, or `±hh:mm`, as an offset in minutes. -/
def parseTz (text : Bytes) : Parse (Option Int) :=
  if text = [] then .ok none
  else if text = [0x5a] then .ok (some 0)
  else do
    let first ← Checked.index text 0
    let sign ← Parse.ofOption (zoneSign first)
    let rest ← sliceFrom text 1
    if rest.length ≠ 5 then Parse.none
    else
      let colon ← Checked.index rest 2
      if colon ≠ 0x3a then Parse.none
      else
        let hours ← twoDigits rest
        let rest ← sliceFrom rest 3
        let minutes ← twoDigits rest
        if 14 < hours ∨ 59 < minutes then Parse.none
        else
          let hourMinutes ← Parse.signed 16 (hours * 60)
          let offset ← Parse.signed 16 (hourMinutes + minutes)
          let offset ← Parse.signed 16 (sign * offset)
          .ok (some offset)

def unitsPerSecond : TimeUnit → Int × Nat
  | .second => (1, 0)
  | .millisecond => (1000, 3)
  | .microsecond => (1000000, 6)
  | .nanosecond => (1000000000, 9)

/-- `value *= 10`, so many times. -/
def timesTen : Nat → Int → Parse Int
  | 0, value => .ok value
  | n + 1, value => do
    let value ← Parse.signed 64 (value * 10)
    timesTen n value

/-- Fraction digits as a count of `unit`s; nothing if digits beyond the unit's
precision are not zero. -/
def fractionUnits (fraction : Bytes) (unit : TimeUnit) : Parse Int := do
  let (_, digits) := unitsPerSecond unit
  let kept ← sliceTo fraction (min fraction.length digits)
  let dropped ← sliceFrom fraction (min fraction.length digits)
  if dropped.any fun b => b != 0x30 then Parse.none
  else
    let value ← (if kept.isEmpty then .ok 0 else Parse.ofOption (parseI64 kept))
    timesTen (digits - kept.length) value

/-- `xs:dateTime` as a count of `unit`s since the epoch.  A column with a time zone
takes only values with one, a column without one only values without one. -/
def parseTimestamp (text : Bytes) (unit : TimeUnit) (withTz : Bool) : Parse Int := do
  let (days, rest) ← parseDate text
  let time ← Parse.ofOption (stripChar 0x54 rest)
  let (seconds, fraction, rest) ← parseTime time
  let tz ← parseTz rest
  if tz.isSome ≠ withTz then Parse.none
  else
    let offsetSeconds ← Parse.signed 64 (tz.getD 0 * 60)
    let (perSecond, _) := unitsPerSecond unit
    let daySeconds ← Parse.signed 64 (days * 86400)
    let localSeconds ← Parse.signed 64 (daySeconds + seconds)
    let utcSeconds ← Parse.signed 64 (localSeconds - offsetSeconds)
    let whole ← Parse.checked (utcSeconds * perSecond)
    let fraction ← fractionUnits fraction unit
    Parse.checked (whole + fraction)

/-- `xs:time` as a count of `unit`s since midnight, and the time zone. -/
def parseTimeOfDay (text : Bytes) (unit : TimeUnit) : Parse (Int × Option Int) := do
  let (seconds, fraction, rest) ← parseTime text
  let tz ← parseTz rest
  let (perSecond, _) := unitsPerSecond unit
  let whole ← Parse.signed 64 (seconds * perSecond)
  let fraction ← fractionUnits fraction unit
  let value ← Parse.signed 64 (whole + fraction)
  .ok (value, tz)

/-- `i32::try_from(value).ok()?`. -/
def toI32 (value : Int) : Parse Int :=
  if -2 ^ 31 ≤ value ∧ value < 2 ^ 31 then .ok value else Parse.none

/-- Parse a text, already trimmed, as a value of a type. -/
def parseScalar {F : Type} (floats : Floats F) (dataType : DataType) (text : Bytes) :
    Parse (Scalar F) :=
  match dataType with
  | .utf8 | .largeUtf8 | .utf8View => .ok (.str text)
  | .boolean =>
    if text = utf8 "true" ∨ text = utf8 "1" then .ok (.bool true)
    else if text = utf8 "false" ∨ text = utf8 "0" then .ok (.bool false)
    else Parse.none
  | .int8 => .int <$> intIn text (-2 ^ 7) (2 ^ 7 - 1)
  | .int16 => .int <$> intIn text (-2 ^ 15) (2 ^ 15 - 1)
  | .int32 => .int <$> intIn text (-2 ^ 31) (2 ^ 31 - 1)
  | .int64 => .int <$> intIn text (-2 ^ 63) (2 ^ 63 - 1)
  | .uint8 => .uint <$> uintIn text (2 ^ 8 - 1)
  | .uint16 => .uint <$> uintIn text (2 ^ 16 - 1)
  | .uint32 => .uint <$> uintIn text (2 ^ 32 - 1)
  | .uint64 => .uint <$> uintIn text (2 ^ 64 - 1)
  | .float16 | .float32 | .float64 => .float <$> parseFloat floats text
  | .date32 => do
    let (days, rest) ← parseDate text
    let _ ← parseTz rest
    .int32 <$> toI32 days
  | .date64 => do
    let (days, rest) ← parseDate text
    let _ ← parseTz rest
    .int <$> Parse.checked (days * 86400000)
  | .timestamp unit tz => .int <$> parseTimestamp text unit tz.isSome
  | .time32 unit => do
    let (value, _) ← parseTimeOfDay text unit
    .int32 <$> toI32 value
  | .time64 unit => do
    let (value, _) ← parseTimeOfDay text unit
    .ok (.int value)
  | .other => Parse.none

end Xeibe.Arrow

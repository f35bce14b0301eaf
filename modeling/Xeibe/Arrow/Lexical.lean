import Mathlib.Data.Rat.Defs
import Xeibe.Arrow.Value
import Xeibe.Lib.Calendar
import Xeibe.Lib.Decimal

/-!
# Dates and times as XML Schema writes them

The values of `xs:date` and `xs:dateTime`, each with its text and with what it
counts: days, or the rational number of seconds of its instant.
-/

namespace Xeibe.Arrow

open Lib Lib.Decimal

/-! ## Lexical forms -/

/-- A year as written: no sign but a minus, and no leading zero in more than four
digits. -/
structure Year where
  negative : Bool
  digits : List (Fin 10)
  four_le : 4 ≤ digits.length
  leading : 4 < digits.length → digits.head? ≠ some 0

/-- The year before 1 is 0. -/
def Year.number (y : Year) : Int := if y.negative then -value y.digits else value y.digits

def Year.text (y : Year) : Bytes := (if y.negative then [0x2d] else []) ++ y.digits.map digit

structure Day where
  year : Year
  date : Calendar.Date
  year_eq : date.year = year.number

def Day.text (d : Day) : Bytes :=
  d.year.text ++ 0x2d :: (two d.date.month ++ 0x2d :: two d.date.day)

inductive Zone where
  | utc
  | offset (negative : Bool) (hours minutes : Nat)
      (valid : hours ≤ 13 ∧ minutes ≤ 59 ∨ hours = 14 ∧ minutes = 0)

def Zone.text : Zone → Bytes
  | .utc => [0x5a]
  | .offset negative hours minutes _ =>
    (if negative then 0x2d else 0x2b) :: (two hours ++ 0x3a :: two minutes)

/-- How far local time is ahead. -/
def Zone.minutes : Zone → Int
  | .utc => 0
  | .offset negative hours minutes _ => (if negative then -1 else 1) * (hours * 60 + minutes)

/-- `.` and at least one digit, or nothing. -/
def fractionText (fraction : List (Fin 10)) : Bytes :=
  if fraction = [] then [] else 0x2e :: fraction.map digit

inductive Clock where
  | time (hour minute second : Nat) (fraction : List (Fin 10))
      (valid : hour ≤ 23 ∧ minute ≤ 59 ∧ second ≤ 59)
  /-- `24:00:00`, the first instant of the next day. -/
  | endOfDay (fraction : List (Fin 10)) (valid : ∀ d ∈ fraction, d = 0)

def clockText (hour minute second : Nat) (fraction : List (Fin 10)) : Bytes :=
  two hour ++ 0x3a :: (two minute ++ 0x3a :: (two second ++ fractionText fraction))

def Clock.text : Clock → Bytes
  | .time hour minute second fraction _ => clockText hour minute second fraction
  | .endOfDay fraction _ => clockText 24 0 0 fraction

def fractionOf (digits : List (Fin 10)) : ℚ := value digits / 10 ^ digits.length

/-- Seconds since midnight. -/
def Clock.seconds : Clock → ℚ
  | .time hour minute second fraction _ =>
    hour * 3600 + minute * 60 + second + fractionOf fraction
  | .endOfDay _ _ => 86400

/-- What `xs:date` and `xs:dateTime` allow. -/
inductive Lexical where
  | date (day : Day) (zone : Option Zone)
  | dateTime (day : Day) (clock : Clock) (zone : Option Zone)

def zoneText : Option Zone → Bytes
  | none => []
  | some zone => zone.text

def Lexical.text : Lexical → Bytes
  | .date day zone => day.text ++ zoneText zone
  | .dateTime day clock zone => day.text ++ 0x54 :: (clock.text ++ zoneText zone)

/-! ## What a value counts -/

/-- Seconds since 1970-01-01T00:00:00, in UTC if the value has a time zone. -/
def instant (day : Day) (clock : Clock) (zone : Option Zone) : ℚ :=
  86400 * day.date.number + clock.seconds - 60 * (zone.map Zone.minutes).getD 0

/-- The types of days and times. -/
inductive Temporal where
  | date32
  | date64
  | timestamp (unit : TimeUnit) (tz : Option Bytes)
  | time32 (unit : TimeUnit)
  | time64 (unit : TimeUnit)

def Temporal.dataType : Temporal → DataType
  | .date32 => .date32
  | .date64 => .date64
  | .timestamp unit tz => .timestamp unit tz
  | .time32 unit => .time32 unit
  | .time64 unit => .time64 unit

/-- The count that a type stores: days of a date, whose time zone the column keeps;
milliseconds of its midnight; units of an instant. -/
def Exact {F : Type} : Temporal → Lexical → Scalar F → Prop
  | .date32, .date day _, scalar => scalar = .int32 day.date.number
  | .date64, .date day _, scalar => scalar = .int (day.date.number * 86400000)
  | .timestamp unit _, .dateTime day clock zone, scalar =>
    ∃ count : Int, scalar = .int count ∧
      (count : ℚ) = (unitsPerSecond unit).1 * instant day clock zone
  | _, _, _ => False

end Xeibe.Arrow

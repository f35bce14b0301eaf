import Xeibe.Arrow.Value

/-!
# Value statistics

`value.rs` of `xeibe-schema`: every type a text can be parsed as, at three levels
of losslessness, intersected over the values of a column.  A text is its bytes.

Reading and printing doubles is a parameter.
-/

namespace Xeibe.Schema.Values

open Lib Arrow

/-! ## Types -/

/-- Types a value can be parsed as.  `string` is always set. -/
abbrev TypeSet := BitVec 7

namespace TypeSet

def bool : TypeSet := 1

def int : TypeSet := 2

def float : TypeSet := 4

def date : TypeSet := 8

def datetime : TypeSet := 16

def time : TypeSet := 32

def string : TypeSet := 64

/-- `all()`. -/
def all : TypeSet := 127

def contains (set other : TypeSet) : Bool := set &&& other = other

def isEmpty (set : TypeSet) : Bool := set = 0

/-- `-`. -/
def difference (set other : TypeSet) : TypeSet := set &&& ~~~other

end TypeSet

/-- Candidate types of one text value at each losslessness level. -/
structure Candidates where
  exactText : TypeSet
  exactValue : TypeSet
  lossy : TypeSet
  deriving DecidableEq

structure FloatShape where
  maxSignificantDigits : Nat
  /-- Largest number of fractional digits seen. -/
  maxScale : Nat
  deriving DecidableEq

/-- Everything one value tells the statistics. -/
structure Analysis where
  candidates : Candidates
  /-- The value as an integer, if it parses as one at all. -/
  int : Option Int
  /-- Significant digits and scale, if it parses as a number. -/
  float : Option FloatShape
  /-- Time-zone offset (minutes, `none` = no time zone) and fraction digits. -/
  temporal : Option (Option Int × Nat)
  deriving DecidableEq

/-! ## Numbers -/

/-- `f64`: `str::parse`, `is_finite`, and how it is printed. -/
structure Doubles (F : Type) where
  parse : Bytes → Option F
  isFinite : F → Bool
  /-- `{}`. -/
  display : F → Bytes
  /-- `{:e}`. -/
  displayExp : F → Bytes

/-- `str::parse::<i32>`. -/
def parseI32 (text : Bytes) : Option Int :=
  (parseI64 text).filter fun value => decide (-2 ^ 31 ≤ value ∧ value < 2 ^ 31)

/-- `split_once`, with one character. -/
def splitOnce (c : UInt8) (text : Bytes) : Option (Bytes × Bytes) :=
  if c ∈ text then some (text.takeWhile (· ≠ c), (text.dropWhile (· ≠ c)).drop 1) else none

/-- A number in `xs:decimal` / `xs:double` lexical form, split into parts. -/
structure Number where
  negative : Bool
  intDigits : Bytes
  fracDigits : Bytes
  exponent : Int
  hasExponent : Bool
  hasPoint : Bool

/-- A decimal number normalized as `±digits × 10^exponent`, without leading or
trailing zeros in `digits`.  Zero has empty digits and no sign. -/
structure Decimal where
  negative : Bool
  digits : Bytes
  exponent : Int
  deriving DecidableEq

def Decimal.new (negative : Bool) (digits : Bytes) (exponent : Int) : Decimal :=
  let digits := digits.dropWhile (· = 0x30)
  let trimmed := (digits.reverse.dropWhile (· = 0x30)).reverse
  let exponent := exponent + (digits.length - trimmed.length : Nat)
  if trimmed.isEmpty then ⟨false, [], 0⟩ else ⟨negative, trimmed, exponent⟩

/-- The shortest decimal that round-trips to `value` (Rust's `{:e}`). -/
def Decimal.ofF64 {F : Type} (doubles : Doubles F) (value : F) : Decimal :=
  let text := doubles.displayExp value
  let (mantissa, exponent) := (splitOnce 0x65 text).getD (text, utf8 "0")
  let (negative, mantissa) := match stripChar 0x2d mantissa with
    | some rest => (true, rest)
    | none => (false, mantissa)
  let (int, frac) := (splitOnce 0x2e mantissa).getD (mantissa, [])
  Decimal.new negative (int ++ frac) ((parseI64 exponent).getD 0 - frac.length)

namespace Number

def parse (value : Bytes) : Option Number := do
  let (negative, rest) ← match value with
    | [] => none
    | 0x2d :: rest => some (true, rest)
    | 0x2b :: rest => some (false, rest)
    | _ => some (false, value)
  let isE := fun (b : UInt8) => b = 0x65 || b = 0x45
  let (mantissa, exponent) := match rest.findIdx? isE with
    | some i => (rest.take i, some (rest.drop (i + 1)))
    | none => (rest, none)
  let (intDigits, fracDigits, hasPoint) := match splitOnce 0x2e mantissa with
    | some (int, frac) => (int, frac, true)
    | none => (mantissa, [], false)
  if intDigits.isEmpty && fracDigits.isEmpty || !intDigits.all isAsciiDigit ||
      !fracDigits.all isAsciiDigit then none
  else
    let exponentValue ← match exponent with
      | some e =>
        let unsigned := ((stripChar 0x2b e).or (stripChar 0x2d e)).getD e
        if unsigned.isEmpty || !unsigned.all isAsciiDigit then none else parseI32 e
      | none => some 0
    some ⟨negative, intDigits, fracDigits, exponentValue, exponent.isSome, hasPoint⟩

def isInteger (number : Number) : Bool := !number.hasExponent && !number.hasPoint

/-- Digits after the first non-zero one, as written (trailing zeros count). -/
def significantDigits (number : Number) : Nat :=
  let all := number.intDigits.length + number.fracDigits.length
  let leading := ((number.intDigits ++ number.fracDigits).takeWhile (· = 0x30)).length
  min (all - leading) 255

/-- Fractional digits of the value as written, after the exponent. -/
def scale (number : Number) : Nat :=
  min (number.fracDigits.length - number.exponent).toNat 255

def decimal (number : Number) : Decimal :=
  Decimal.new number.negative (number.intDigits ++ number.fracDigits)
    (number.exponent - number.fracDigits.length)

end Number

/-! ## Dates and times -/

inductive TemporalKind where
  | date
  | dateTime
  | time
  deriving DecidableEq

/-- `xs:date`, `xs:dateTime` or `xs:time`, validated. -/
structure Temporal where
  kind : TemporalKind
  /-- Offset in minutes; `none` = no time zone. -/
  tz : Option Int
  fractionDigits : Nat
  fractionTrailingZero : Bool

def twoDigits : Bytes → Option Nat
  | a :: b :: _ =>
    if isAsciiDigit a && isAsciiDigit b then some ((a.toNat - 48) * 10 + (b.toNat - 48)) else none
  | _ => none

/-- `[-]YYYY-MM-DD`; returns what follows. -/
def parseDate (value : Bytes) : Option Bytes := do
  let unsigned := (stripChar 0x2d value).getD value
  let yearLen := countDigits unsigned
  -- More than four digits only without a leading zero (XML Schema 1.0).
  if yearLen < 4 || (4 < yearLen && unsigned.head? = some 0x30) || 9 < yearLen then none
  else
    let year ← parseI64 (unsigned.take yearLen)
    let rest ← stripChar 0x2d (unsigned.drop yearLen)
    let month ← twoDigits rest
    let rest ← stripChar 0x2d (rest.drop 2)
    let day ← twoDigits rest
    let leap := (year % 4 = 0 ∧ year % 100 ≠ 0) ∨ year % 400 = 0
    let days ← if month ∈ [1, 3, 5, 7, 8, 10, 12] then some 31
      else if month ∈ [4, 6, 9, 11] then some 30
      else if month = 2 ∧ leap then some 29
      else if month = 2 then some 28
      else none
    if day = 0 ∨ days < day then none else some (rest.drop 2)

/-- `hh:mm:ss[.f+]`; returns the fraction digits and what follows. -/
def parseTime (value : Bytes) : Option (Bytes × Bytes) := do
  let hour ← twoDigits value
  let rest ← stripChar 0x3a (value.drop 2)
  let minute ← twoDigits rest
  let rest ← stripChar 0x3a (rest.drop 2)
  let second ← twoDigits rest
  if 23 < hour ∨ 59 < minute ∨ 59 < second then none
  else
    let rest := rest.drop 2
    match stripChar 0x2e rest with
    | some fraction =>
      let len := countDigits fraction
      if len = 0 then none else some (fraction.take len, fraction.drop len)
    | none => some ([], rest)

/-- Empty (no time zone), `Z`, or `±hh:mm`.  `none` if malformed. -/
def parseTz (value : Bytes) : Option (Option Int) := do
  if value.isEmpty then some none
  else if value = utf8 "Z" then some (some 0)
  else
    let (sign, rest) ← match value with
      | 0x2b :: rest => some ((1 : Int), rest)
      | 0x2d :: rest => some (-1, rest)
      | _ => none
    if rest.length ≠ 5 ∨ rest.getD 2 0 ≠ 0x3a then none
    else
      let hours ← twoDigits rest
      let minutes ← twoDigits (rest.drop 3)
      if 14 < hours ∨ 59 < minutes then none else some (some (sign * (hours * 60 + minutes)))

namespace Temporal

/-- `Temporal::with`. -/
def withFraction (kind : TemporalKind) (tz : Option Int) (fraction : Bytes) : Temporal :=
  ⟨kind, tz, min fraction.length 255, fraction.getLast? = some 0x30⟩

def parse (value : Bytes) : Option Temporal := do
  -- A date starts with a (possibly negative) year of 4+ digits and `-`; a time with `hh:`.
  if value[2]? = some 0x3a then
    let (fraction, rest) ← parseTime value
    let tz ← parseTz rest
    some (withFraction .time tz fraction)
  else
    let rest ← parseDate value
    match stripChar 0x54 rest with
    | some time =>
      let (fraction, rest) ← parseTime time
      let tz ← parseTz rest
      some (withFraction .dateTime tz fraction)
    | none =>
      let tz ← parseTz rest
      some (withFraction .date tz [])

end Temporal

/-! ## One value -/

/-- `to_ascii_lowercase` of one byte. -/
def asciiLower (b : UInt8) : UInt8 := if 0x41 ≤ b ∧ b ≤ 0x5a then b + 32 else b

/-- Fractional-second digits a value may have and still be exact at the
default timestamp unit (microseconds). -/
def EXACT_FRACTION_DIGITS : Nat := 6

namespace Analysis

/-- `c.lossy |= ...`. -/
def addLossy (analysis : Analysis) (set : TypeSet) : Analysis :=
  { analysis with
    candidates := { analysis.candidates with lossy := analysis.candidates.lossy ||| set } }

/-- `c.exact_value |= ...`. -/
def addExactValue (analysis : Analysis) (set : TypeSet) : Analysis :=
  { analysis with
    candidates :=
      { analysis.candidates with exactValue := analysis.candidates.exactValue ||| set } }

/-- `c.exact_text |= ...`. -/
def addExactText (analysis : Analysis) (set : TypeSet) : Analysis :=
  { analysis with
    candidates := { analysis.candidates with exactText := analysis.candidates.exactText ||| set } }

end Analysis

/-- `0012`, `-012`: an identifier, never a number (but `0` and `0.5` are fine). -/
def Number.identifier (number : Number) : Bool :=
  1 < number.intDigits.length && number.intDigits.head? = some 0x30

/-- The first half of `analyze_number`: whole numbers. -/
def analyzeInt (value : Bytes) (number : Number) (analysis : Analysis) : Analysis :=
  if !number.isInteger then analysis
  else
    match parseI64 (value.dropWhile (· = 0x2b)) with
    | none => analysis
    | some int =>
      let analysis := { analysis with int := some int }.addLossy .int
      if number.identifier then analysis
      else
        let analysis := analysis.addExactValue .int
        if utf8 (toString int) = value then analysis.addExactText .int else analysis

/-- The second half: doubles. -/
def analyzeFloat {F : Type} (doubles : Doubles F) (value : Bytes) (number : Number)
    (analysis : Analysis) : Analysis :=
  match doubles.parse value with
  | none => analysis
  | some float =>
    if !doubles.isFinite float then analysis
    else
      let analysis := { analysis.addLossy .float with
        float := some ⟨number.significantDigits, number.scale⟩ }
      if !number.identifier && number.decimal = Decimal.ofF64 doubles float then
        let analysis := analysis.addExactValue .float
        if doubles.display float = value then analysis.addExactText .float else analysis
      else analysis

def analyzeNumber {F : Type} (doubles : Doubles F) (value : Bytes) (number : Number)
    (analysis : Analysis) : Analysis :=
  analyzeFloat doubles value number (analyzeInt value number analysis)

def analyzeTemporal (temporal : Temporal) (analysis : Analysis) : Analysis :=
  let exactFraction := temporal.fractionDigits ≤ EXACT_FRACTION_DIGITS
  let trailingZero := temporal.fractionTrailingZero
  let analysis := { analysis with temporal := some (temporal.tz, temporal.fractionDigits) }
  match temporal.kind with
  | .date =>
    let analysis := (analysis.addLossy (.date ||| .datetime)).addExactValue .date
    -- A Date32 has nowhere to keep the time zone, so it can't print it back.
    if temporal.tz.isNone then analysis.addExactText .date else analysis
  | .dateTime =>
    let analysis := analysis.addLossy .datetime
    if exactFraction then
      let analysis := analysis.addExactValue .datetime
      if !trailingZero then analysis.addExactText .datetime else analysis
    else analysis
  | .time =>
    let analysis := analysis.addLossy .time
    if exactFraction then
      let analysis := analysis.addExactValue .time
      if temporal.tz.isNone && !trailingZero then analysis.addExactText .time else analysis
    else analysis

/-- The first part of `analyze`: `true` and `false`. -/
def analyzeBool (value : Bytes) (analysis : Analysis) : Analysis :=
  let lower := value.map asciiLower
  if value = utf8 "true" ∨ value = utf8 "false" then
    ((analysis.addExactText .bool).addExactValue .bool).addLossy .bool
  else if value = utf8 "1" ∨ value = utf8 "0" then analysis.addLossy .bool
  else if lower = utf8 "true" ∨ lower = utf8 "false" then analysis.addLossy .bool
  else analysis

/-- Everything one value tells the statistics. -/
def analyze {F : Type} (doubles : Doubles F) (value : Bytes) : Analysis :=
  let analysis := analyzeBool value ⟨⟨.string, .string, .string⟩, none, none, none⟩
  match Number.parse value with
  | some number => analyzeNumber doubles value number analysis
  | none =>
    match Temporal.parse value with
    | some temporal => analyzeTemporal temporal analysis
    | none => analysis

/-- Classify a single value (leading-zero rule, f64 round-trip, temporal forms). -/
def classify {F : Type} (doubles : Doubles F) (value : Bytes) : Candidates :=
  (analyze doubles value).candidates

/-! ## Shapes -/

def FloatShape.merge (a b : FloatShape) : FloatShape :=
  ⟨max a.maxSignificantDigits b.maxSignificantDigits, max a.maxScale b.maxScale⟩

inductive TzShape where
  | absent
  /-- Offset in minutes, the same for every value. -/
  | fixed (offset : Int)
  /-- Different offsets (e.g. summer/winter time). -/
  | mixed
  /-- Some values with a time zone, some without: text. -/
  | inconsistent
  deriving DecidableEq

def TzShape.merge : TzShape → TzShape → TzShape
  | .inconsistent, _ => .inconsistent
  | _, .inconsistent => .inconsistent
  | .absent, .absent => .absent
  | .absent, _ => .inconsistent
  | _, .absent => .inconsistent
  | .fixed a, .fixed b => if a = b then .fixed a else .mixed
  | _, _ => .mixed

structure TemporalShape where
  tz : TzShape
  maxFractionDigits : Nat
  deriving DecidableEq

def TemporalShape.merge (a b : TemporalShape) : TemporalShape :=
  ⟨a.tz.merge b.tz, max a.maxFractionDigits b.maxFractionDigits⟩

/-! ## Distinct values -/

/-- Values longer than this are not kept in a `BoundedSet`: they are text, not
codes, and would make the set's memory depend on the data. -/
def MAX_DISTINCT_VALUE_LEN : Nat := 1024

/-- Up to `capacity` distinct values; cleared once it overflows. -/
structure BoundedSet where
  values : List Bytes
  overflowed : Bool
  capacity : Nat
  deriving DecidableEq

namespace BoundedSet

local instance lawful : LawfulBEq Bytes := inferInstance

def overflow (set : BoundedSet) : BoundedSet := { set with overflowed := true, values := [] }

def insert (set : BoundedSet) (value : Bytes) : BoundedSet :=
  if set.overflowed ∨ value ∈ set.values then set
  else if set.capacity ≤ set.values.length ∨ MAX_DISTINCT_VALUE_LEN < value.length then set.overflow
  else { set with values := set.values ++ [value] }

def merge (set other : BoundedSet) : BoundedSet :=
  let set := { set with capacity := max set.capacity other.capacity }
  let set := if other.overflowed then set.overflow else set
  other.values.foldl insert set

end BoundedSet

/-! ## Statistics -/

structure ValueStats where
  count : Nat
  /-- ∩ over values: parses and prints back identically. -/
  exactText : TypeSet
  /-- ∩ over values: the value survives a round trip through the Arrow type. -/
  exactValue : TypeSet
  /-- ∩ over values: parses at all. -/
  lossy : TypeSet
  intRange : Option (Int × Int)
  floatShape : Option FloatShape
  temporal : Option TemporalShape
  maxLen : Nat
  distinct : BoundedSet
  deriving DecidableEq

/-- `chars().count()`: the bytes that start a character. -/
def charCount (value : Bytes) : Nat := value.countP fun b => b < 0x80 || 0xc0 ≤ b

/-- What a value's temporal form adds. -/
def temporalShape : Option Int × Nat → TemporalShape
  | (some offset, fraction) => ⟨.fixed offset, fraction⟩
  | (none, fraction) => ⟨.absent, fraction⟩

/-- The range of two ranges. -/
def spanned (a b : Int × Int) : Int × Int := (min a.1 b.1, max a.2 b.2)

namespace ValueStats

/-- Empty statistics keeping up to `distinctValues` distinct values. -/
def withCapacity (distinctValues : Nat) : ValueStats :=
  ⟨0, .all, .all, .all, none, none, none, 0, ⟨[], false, distinctValues⟩⟩

/-- Update with one value.  Skips parsing once only `string` remains. -/
def observe {F : Type} (doubles : Doubles F) (stats : ValueStats) (value : Bytes) : ValueStats :=
  let len := min (charCount value) (2 ^ 32 - 1)
  let stats := { stats with
    count := stats.count + 1
    maxLen := max stats.maxLen len
    distinct := stats.distinct.insert value }
  if stats.exactText ||| stats.exactValue ||| stats.lossy = .string then stats
  else
    let analysis := analyze doubles value
    { stats with
      exactText := stats.exactText &&& analysis.candidates.exactText
      exactValue := stats.exactValue &&& analysis.candidates.exactValue
      lossy := stats.lossy &&& analysis.candidates.lossy
      intRange := match analysis.int with
        | some int => some (match stats.intRange with
          | some (lo, hi) => (min lo int, max hi int)
          | none => (int, int))
        | none => stats.intRange
      floatShape := match analysis.float with
        | some shape => some ((stats.floatShape.getD ⟨0, 0⟩).merge shape)
        | none => stats.floatShape
      temporal := match analysis.temporal with
        | some temporal => some (match stats.temporal with
          | some current => current.merge (temporalShape temporal)
          | none => temporalShape temporal)
        | none => stats.temporal }

def merge (a b : ValueStats) : ValueStats where
  count := a.count + b.count
  exactText := a.exactText &&& b.exactText
  exactValue := a.exactValue &&& b.exactValue
  lossy := a.lossy &&& b.lossy
  intRange := match a.intRange, b.intRange with
    | some a, some b => some (spanned a b)
    | a, b => a.or b
  floatShape := match a.floatShape, b.floatShape with
    | some a, some b => some (a.merge b)
    | a, b => a.or b
  temporal := match a.temporal, b.temporal with
    | some a, some b => some (a.merge b)
    | a, b => a.or b
  maxLen := max a.maxLen b.maxLen
  distinct := a.distinct.merge b.distinct

/-- The statistics of values observed one after the other. -/
def observed {F : Type} (doubles : Doubles F) (capacity : Nat) (values : List Bytes) : ValueStats :=
  values.foldl (observe doubles) (withCapacity capacity)

end ValueStats

end Xeibe.Schema.Values

import Xeibe.Schema.Values.Model

/-!
# The type of a column

`Builder::scalar` of `rules.rs`: the column type that the statistics of a
column's values stand for, what its metadata keeps, and the reasons that are
reported with it.
-/

namespace Xeibe.Schema.Values

open Lib Arrow

/-! ## Options -/

inductive Lossless where
  | text
  | value
  | lossy
  deriving DecidableEq

inductive IntWidth where
  | int64
  | smallest
  deriving DecidableEq

inductive AllNull where
  | utf8View
  | null
  deriving DecidableEq

structure TypeOptions where
  lossless : Lossless
  /-- `string` only: every column is text. -/
  enabled : TypeSet
  integers : IntWidth
  /-- `timestamps.unit`. -/
  unit : TimeUnit
  allNull : AllNull
  stringView : Bool

/-- Arrow's types, as far as text becomes one of them. -/
inductive ColumnType where
  | null
  | boolean
  | int8
  | int16
  | int32
  | int64
  | float64
  | date32
  | time32 (unit : TimeUnit)
  | time64 (unit : TimeUnit)
  | timestamp (unit : TimeUnit) (tz : Option String)
  | utf8
  | utf8View
  deriving DecidableEq

structure Scalar where
  dataType : ColumnType
  metadata : List (String × String)
  reasons : List String

/-! ## Texts -/

def maxScaleKey : String := "gml:max_scale"

def tzOffsetKey : String := "gml:tz_offset"

def NEVER_A_VALUE : String := "always empty: no value to pick a type from"

def unitDigits : TimeUnit → Nat
  | .second => 0
  | .millisecond => 3
  | .microsecond => 6
  | .nanosecond => 9

def unitName : TimeUnit → String
  | .second => "seconds"
  | .millisecond => "milliseconds"
  | .microsecond => "microseconds"
  | .nanosecond => "nanoseconds"

/-- `{:02}`. -/
def twoPlaces (n : Nat) : String := if n < 10 then "0" ++ toString n else toString n

/-- `+02:00`, `-05:30`, `+00:00`. -/
def formatOffset (minutes : Int) : String :=
  let sign := if minutes < 0 then "-" else "+"
  sign ++ twoPlaces (minutes.natAbs / 60) ++ ":" ++ twoPlaces (minutes.natAbs % 60)

/-- `2,684`. -/
def thousands (count : Nat) : String :=
  let digits := (toString count).toList
  String.ofList (digits.zipIdx.flatMap fun (digit, i) =>
    if 0 < i ∧ (digits.length - i) % 3 = 0 then [',', digit] else [digit])

/-- `1 value`, `2 values`. -/
def plural (count : Nat) (noun : String) : String :=
  if count = 1 then "1 " ++ noun
  else if noun.toList.getLast? = some 'y' then
    thousands count ++ " " ++ String.ofList noun.toList.dropLast ++ "ies"
  else thousands count ++ " " ++ noun ++ "s"

/-- What the values of `set`'s first type (in the order types are tried) are. -/
def kindOf (set : TypeSet) : String :=
  (([(.bool, "true or false"), (.int, "whole numbers"), (.float, "numbers"), (.date, "dates"),
      (.datetime, "dates with a time"), (.time, "times of day")] : List (TypeSet × String)).find?
    fun entry => set.contains entry.1).elim "text" (·.2)

/-- The first reason of a scalar column: how many values, and what every one
of them could be. -/
def valuesReason (count : Nat) (set : TypeSet) : String :=
  if set = .string then plural count "value" ++ " of text"
  else plural count "value" ++ ", all " ++ kindOf set

/-! ## The rule -/

/-- The type set for one losslessness level. -/
def ValueStats.types (stats : ValueStats) : Lossless → TypeSet
  | .text => stats.exactText
  | .value => stats.exactValue
  | .lossy => stats.lossy

/-- The part of the rules that picks a type. -/
structure Rules (F : Type) where
  types : TypeOptions
  /-- `min_typed_values` of a sample, where only part of the data was seen. -/
  sampled : Option Nat
  doubles : Doubles F
  /-- `{:?}`. -/
  debug : Bytes → String

namespace Rules

variable {F : Type} (rules : Rules F)

def string : ColumnType := if rules.types.stringView then .utf8View else .utf8

def allNull : ColumnType :=
  match rules.types.allNull with
  | .utf8View => rules.string
  | .null => .null

def intType (stats : ValueStats) : ColumnType :=
  if rules.types.integers = .int64 ∨ rules.sampled.isSome then .int64
  else
    let (lo, hi) := stats.intRange.getD (-2 ^ 63, 2 ^ 63 - 1)
    if -2 ^ 7 ≤ lo ∧ hi ≤ 2 ^ 7 - 1 then .int8
    else if -2 ^ 15 ≤ lo ∧ hi ≤ 2 ^ 15 - 1 then .int16
    else if -2 ^ 31 ≤ lo ∧ hi ≤ 2 ^ 31 - 1 then .int32
    else .int64

end Rules

namespace Scalar

def because (scalar : Scalar) (reason : String) : Scalar :=
  { scalar with reasons := scalar.reasons ++ [reason] }

def keep (scalar : Scalar) (key value : String) : Scalar :=
  { scalar with metadata := scalar.metadata ++ [(key, value)] }

end Scalar

namespace Rules

variable {F : Type} (rules : Rules F)

def fractionFits (temporal : TemporalShape) : Bool :=
  temporal.maxFractionDigits ≤ unitDigits rules.types.unit

def isLossy : Bool := rules.types.lossless = .lossy

/-- `DATE` and `TIME`. -/
def dateOrTime (temporal : TemporalShape) (isTime : Bool) (scalar : Scalar) :
    Scalar × Option ColumnType :=
  let unit := rules.types.unit
  let dataType : ColumnType :=
    if !isTime then .date32
    else if unit = .second ∨ unit = .millisecond then .time32 unit
    else .time64 unit
  if isTime && !rules.fractionFits temporal && !rules.isLossy then
    (scalar.because ("some times have more decimals of a second than the column's unit (" ++
      unitName unit ++ ") holds: text"), none)
  else
    match temporal.tz with
    | .absent => (scalar, some dataType)
    | .fixed offset =>
      let offset := formatOffset offset
      ((scalar.because ("all in the time zone " ++ offset ++
        ", which the column's metadata keeps (" ++ tzOffsetKey ++ ")")).keep tzOffsetKey offset,
        some dataType)
    | .mixed =>
      if rules.isLossy then (scalar, some dataType)
      else (scalar.because ("the values are in different time zones, " ++
        "which one column of this type can't hold: text"), none)
    | .inconsistent =>
      if rules.isLossy then (scalar, some dataType)
      else (scalar.because "some values have a time zone and some don't: text", none)

def dateTime (temporal : TemporalShape) (scalar : Scalar) : Scalar × Option ColumnType :=
  let unit := rules.types.unit
  if !rules.fractionFits temporal && !rules.isLossy then
    (scalar.because ("some values have more decimals of a second than the column's unit (" ++
      unitName unit ++ ") holds: text"), none)
  else
    match temporal.tz with
    | .absent => (scalar, some (.timestamp unit none))
    | .fixed offset =>
      let offset := formatOffset offset
      ((scalar.because ("all in the time zone " ++ offset ++
        ": stored as UTC, and the column's metadata keeps the offset (" ++ tzOffsetKey ++
          ")")).keep tzOffsetKey offset,
        some (.timestamp unit (some "UTC")))
    | .mixed =>
      (scalar.because ("the values are in different time zones: stored as UTC, " ++
        "without their offsets"), some (.timestamp unit (some "UTC")))
    | .inconsistent =>
      (scalar.because "some values have a time zone and some don't: text", none)

/-- What a column of a candidate type would be, where it can hold the values. -/
def chosen (stats : ValueStats) (candidate : TypeSet) (scalar : Scalar) :
    Scalar × Option ColumnType :=
  let temporal := stats.temporal.getD ⟨.absent, 0⟩
  if candidate = .bool then (scalar, some .boolean)
  else if candidate = .int then (scalar, some (rules.intType stats))
  else if candidate = .float then
    (match stats.floatShape with
      | some shape => scalar.keep maxScaleKey (toString shape.maxScale)
      | none => scalar, some .float64)
  else if candidate = .date then rules.dateOrTime temporal false scalar
  else if candidate = .time then rules.dateOrTime temporal true scalar
  else if candidate = .datetime then rules.dateTime temporal scalar
  else (scalar, none)

/-- The candidate types in turn, up to the first that holds the values. -/
def firstType (stats : ValueStats) (set : TypeSet) :
    List TypeSet → Scalar → Scalar × Option ColumnType
  | [], scalar => (scalar, none)
  | candidate :: rest, scalar =>
    if !set.contains candidate then firstType stats set rest scalar
    else
      match rules.chosen stats candidate scalar with
      | (scalar, some dataType) => (scalar, some dataType)
      | (scalar, none) => firstType stats set rest scalar

/-- Why the values are text, where they look like another type. -/
def textReason (stats : ValueStats) : String :=
  -- A value that fits the types every value fits only with a loss.
  let exact (value : Bytes) : TypeSet :=
    let candidates := classify rules.doubles value
    match rules.types.lossless with
    | .text => candidates.exactText
    | .value => candidates.exactValue
    | .lossy => candidates.lossy
  let wanted := (stats.types .lossy).difference .string
  let leadingZero (value : Bytes) : Bool :=
    1 < value.length && value.head? = some 0x30 && !(utf8 "0.").isPrefixOf value
  let how := match stats.distinct.values.find? fun value => (exact value &&& wanted).isEmpty with
    | some value =>
      if leadingZero value then ": " ++ rules.debug value ++ " would lose its leading zero"
      else ", like " ++ rules.debug value
    | none => ""
  "they look like " ++ kindOf wanted ++ ", but some would change if stored as such" ++ how

/-- The types that are tried, fewer of them for a small sample. -/
def candidates (stats : ValueStats) : Scalar × TypeSet :=
  let scalar : Scalar := ⟨rules.string, [], []⟩
  let set := (stats.types rules.types.lossless &&& rules.types.enabled) ||| .string
  match rules.sampled with
  | some minTypedValues =>
    if stats.count < minTypedValues ∧ set ≠ .string then
      (scalar.because ("only " ++ toString stats.count ++
        " values in the sample, fewer than the " ++ toString minTypedValues ++
        " it takes to pick a type: text"), .string)
    else (scalar, set)
  | none => (scalar, set)

/-- The end of `scalar`: the type that was found, or text. -/
def finish (stats : ValueStats) (set : TypeSet) (found : Scalar × Option ColumnType) : Scalar :=
  let scalar := { found.1 with reasons := valuesReason stats.count set :: found.1.reasons }
  match found.2 with
  | some dataType => { scalar with dataType := dataType }
  | none =>
    if set = .string ∧ stats.types .lossy ≠ .string then scalar.because (rules.textReason stats)
    else scalar

def scalar (stats : Option ValueStats) : Scalar :=
  match stats.filter fun stats => 0 < stats.count with
  | none => (⟨rules.allNull, [], []⟩ : Scalar).because NEVER_A_VALUE
  | some stats =>
    let (scalar, set) := rules.candidates stats
    rules.finish stats set
      (rules.firstType stats set [.bool, .int, .float, .date, .datetime, .time] scalar)

end Rules

end Xeibe.Schema.Values

import Xeibe.Arrow.Feature

/-!
# The row of a feature

`RowState` of `feature.rs`: the values put so far, the occurrences of the anchors, and
the first errors; and `commit`, which gives the row to the builders or leaves them as
they are.

The builders of a layer's columns are the list of the rows appended to them; whether
they take a row is a parameter.
-/

namespace Xeibe.Arrow

open Lib

/-! ## Reports -/

/-- Its kind depends on the message alone. -/
structure Warning where
  location : Option Location
  message : Bytes
  deriving DecidableEq

/-- An error of a feature. -/
inductive FeatureError where
  | feature (location : Location) (message : Text)
  | missingValue (location : Location) (column : Bytes)
  deriving DecidableEq

/-- The report of a read, as far as its features go.  `rows` is the entry of the layer
in `features_per_layer`. -/
structure ReadReport where
  rows : Nat := 0
  skipped : List (Location × FeatureError) := []
  warnings : List Warning := []
  deriving DecidableEq

/-- Warnings kept in a report. -/
def MAX_WARNINGS : Nat := 1000

def ReadReport.warn (report : ReadReport) (warning : Warning) : ReadReport :=
  if report.warnings.length < MAX_WARNINGS then
    { report with warnings := report.warnings ++ [warning] }
  else report

/-! ## The state -/

/-- The row being read. -/
structure RowState (F G E : Type) where
  row : List (Value F G E)
  /-- Occurrences of each anchor so far, in 32 bits. -/
  counts : List Nat
  /-- The first value that doesn't fit its column. -/
  error : Option Text := none
  geometryError : Option Text := none
  /-- `srs_name` and `srs_dimension`. -/
  inherited : ParseContext
  /-- The feature's `boundedBy` was read. -/
  bounded : Bool := false
  location : Location
  warnings : List Warning := []

/-- `Vec::resize`. -/
def resize {α : Type} (n : Nat) (fill : α) (xs : List α) : List α :=
  xs.take n ++ List.replicate (n - xs.length) fill

namespace RowState

variable {F G E P : Type}

/-- The state before a feature. -/
def new (routes : RouteTree P) (inherited : ParseContext) (location : Location) :
    RowState F G E where
  row := List.replicate routes.columns.length .null
  counts := List.replicate routes.anchors 0
  inherited
  location

def fail (state : RowState F G E) (message : Text) : RowState F G E :=
  { state with error := state.error.or (some message) }

def failGeometry (state : RowState F G E) (message : Text) : RowState F G E :=
  { state with geometryError := state.geometryError.or (some message) }

/-- The feature's (first) `boundedBy` hands `inherited` down. -/
def boundedBy (state : RowState F G E) (inherited : ParseContext) : RowState F G E :=
  if state.bounded then state else { state with bounded := true, inherited }

def count (state : RowState F G E) (anchor : Nat) : RowState F G E :=
  { state with counts := state.counts.modify anchor fun n => (n + 1) % 2 ^ 32 }

def warn (state : RowState F G E) (message : Bytes) : RowState F G E :=
  { state with warnings := state.warnings ++ [⟨some state.location, message⟩] }

/-- The items of a list column so far. -/
def items : Value F G E → List (Value F G E)
  | .list items => items
  | _ => []

def isNull : Value F G E → Bool
  | .null => true
  | _ => false

/-- Put a value into its column: a scalar column takes one value per feature, a list
column one per occurrence of its anchor. -/
def put (columns : List (ColumnPlan P)) (state : RowState F G E) (column : Nat)
    (value : Value F G E) : RowState F G E :=
  match columns[column]?, state.row[column]? with
  | some plan, some slot =>
    if plan.list then
      -- The anchor is on the value's path, so it has occurred at least once.
      let count := max (state.counts.getD plan.anchor 0) 1
      if count ≤ (items slot).length then
        state.fail [.text "column ", .str plan.name,
          .text ": a second value within one occurrence of the list's anchor"]
      else
        let items := resize (count - 1) .null (items slot) ++ [value]
        { state with row := state.row.set column (.list items) }
    else if isNull slot then { state with row := state.row.set column value }
    else
      state.fail [.text "column ", .str plan.name,
        .text ": a second value, but the column holds one per feature"]
  | _, _ => state

/-- What the reader does to the row. -/
def ops (columns : List (ColumnPlan P)) : RowOps F G E (RowState F G E) where
  inherited := RowState.inherited
  boundedBy inherited state := state.boundedBy inherited
  count anchor state := state.count anchor
  put column value state := state.put columns column value
  fail message state := state.fail message
  failGeometry message state := state.failGeometry message
  warn message state := state.warn message

/-! ## Commit -/

/-- A list column at the end of the feature: one entry per occurrence of the anchor,
null if it never occurred. -/
def padded (count : Nat) (value : Value F G E) : Value F G E :=
  match value with
  | .list items => .list (resize (max count items.length) .null items)
  | .null => if 0 < count then .list (List.replicate count .null) else .null
  | value => value

/-- The row with its lists padded. -/
def aligned (columns : List (ColumnPlan P)) (state : RowState F G E) : List (Value F G E) :=
  columns.zipWith (fun column value =>
    if column.list then padded (state.counts.getD column.anchor 0) value else value) state.row

/-- A value is missing where the column has to have one. -/
def isMissing (column : ColumnPlan P) : Value F G E → Bool
  | .null => !column.nullable
  | .list items => !column.itemNullable && items.any isNull
  | _ => false

end RowState

/-! ## Builders -/

/-- The builders of a layer's columns. -/
structure Builders (F G E A : Type) where
  /-- Why they don't take a row after others, if so. -/
  refuses : List (List (Value F G E)) → List (Value F G E) → Option A
  /-- Why rows make no batch, if so. -/
  unfinished : List (List (Value F G E)) → Option A

inductive FeatureOutcome where
  | row
  /-- Skipped (recorded in the report). -/
  | skipped
  deriving DecidableEq

/-- Errors that end the reading of a chunk. -/
inductive Error (ε A : Type) where
  /-- The reader's. -/
  | core (error : ε)
  | feature (error : FeatureError)
  | other (error : A)

section

variable {F G E P ε A : Type} (builders : Builders F G E A) (plan : FeaturePlan P)

/-- `commit`: what becomes of a feature that was read to its end. -/
def commit (state : RowState F G E) (out : List (List (Value F G E))) (report : ReadReport) :
    Except (Error ε A) (FeatureOutcome × List (List (Value F G E)) × ReadReport) :=
  let report := state.warnings.foldl ReadReport.warn report
  let skip := fun error : FeatureError =>
    .ok (.skipped, out, { report with skipped := report.skipped ++ [(state.location, error)] })
  let failed := fun error : FeatureError =>
    match plan.onFeatureError with
    | .skip => skip error
    | .error | .nullGeometry => .error (.feature error)
  match state.error with
  -- `NullGeometry` only helps with geometry errors.
  | some message => failed (.feature state.location message)
  | none =>
    match state.geometryError, plan.onFeatureError with
    | some message, .error => .error (.feature (.feature state.location message))
    | some message, .skip => skip (.feature state.location message)
    -- The geometry was never put, so it is null.
    | _, _ =>
      let row := state.aligned plan.routes.columns
      match (plan.routes.columns.zip row).find? fun (column, value) =>
          RowState.isMissing column value with
      | some (column, _) => failed (.missingValue state.location column.name)
      | none =>
        match builders.refuses out row with
        | some error => .error (.other error)
        | none => .ok (.row, out ++ [row], report)

variable (floats : Floats F) (geo : Geometries ε A G E P)

/-- `read_feature`: consumes the feature and appends one row, unless the feature is
skipped. -/
def readFeature (inherited : ParseContext) (tag : StartTag) (body : Body ε) (close : Bytes)
    (location : Location) (out : List (List (Value F G E))) (report : ReadReport) :
    Except (Error ε A) (FeatureOutcome × List (List (Value F G E)) × ReadReport) :=
  let ops := RowState.ops plan.routes.columns
  let state : RowState F G E := .new plan.routes inherited location
  match element floats geo plan ops tag body close state with
  | .error (.core error) => .error (.core error)
  | .error (.other error) => .error (.other error)
  | .ok state => commit builders plan state out report

end

end Xeibe.Arrow

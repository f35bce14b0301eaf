import Xeibe.Reproject.Select.Choice

/-!
# Transforms and their operations

A transform and its plan: a conversion on one datum, candidate operations
chosen among for each coordinate, one of them forced, or the route through a
Bound CRS's hub.  The operations of a transform are listed, named, counted and
forced here.
-/

namespace Xeibe.Reproject.Select

open Xeibe.Geom (F64)

/-! ## Plans -/

/-- A Bound CRS's transformation, between its base CRS's internal coordinates
and the hub's. -/
structure Leg where
  base : Crs
  method : Method
  name : String

mutual

inductive Plan where
  /-- Both CRSs on one datum. -/
  | conversion
  /-- Between datums: candidate operations, chosen for each coordinate. -/
  | operations (candidates : Candidates)
  /-- One operation forced with `via`. -/
  | via (code : Nat) (candidates : Candidates)
  /-- One candidate of the selection, forced with `withOperationIndex`. -/
  | only (candidates : Candidates)
  /-- Through the hub of a Bound CRS: its transformation, a transform from
  there on, and the one back from the target's hub; with the operations' names. -/
  | bound (first : Option Leg) (middle : Transform) (last : Option Leg) (names : List String)

structure Transform where
  src : Crs
  dst : Crs
  order : AxisOrder
  grids : Grids
  selection : Selection
  plan : Plan

end

/-- `prefix` off the front of a text, where it starts with it. -/
def stripPrefix (front text : String) : Option String :=
  if front.toList <+: text.toList then
    some (String.ofList (text.toList.drop front.toList.length))
  else
    none

/-- `suffix` off the end of a text, where it ends with it. -/
def stripSuffix (back text : String) : Option String :=
  if back.toList <:+ text.toList then
    some (String.ofList (text.toList.take (text.toList.length - back.toList.length)))
  else
    none

/-! ## Legs -/

namespace Leg

section Build

variable (backend : Backend)

/-- The bound transformation, landing on `hub` instead of the bound CRS's own,
under `name`. -/
def landing (base : Crs) (bound : Bound) (hub : Crs) (name : String) : Except SetupError Leg := do
  let via ←
    if base.isGeocentric then
      .ok base
    else
      match backend.geographicOf base with
      | some geographic => .ok geographic
      | none => .error (.unsupported base.label "a bound CRS without a geodetic datum")
  match backend.build bound via hub with
  | .ok method => .ok ⟨base, method, name⟩
  | .error e => .error (.unsupported base.label ("its bound transformation: " ++ e))

/-- The leg of a Bound CRS, where a CRS is one. -/
def ofBound (crs : Crs) : Except SetupError (Option Leg) :=
  match crs.bound with
  | some bound => do .ok (some (← landing backend crs.withoutBound bound bound.hub bound.name))
  | none => .ok none

end Build

section Run

variable (arithmetic : Arithmetic)

/-- With `flow`, the height that the transformation produces goes on. -/
def toHub (leg : Leg) (internal : Triple) (flow : Bool) : Except CoordinateError Triple := do
  let via ←
    if leg.base.isGeocentric then .ok internal else toGeographic arithmetic leg.base internal
  if flow then leg.method.forward3d via else leg.method.forward via

def backFromHub (leg : Leg) (hub : Triple) (flow : Bool) : Except CoordinateError Triple := do
  let via ← if flow then leg.method.inverse3d hub else leg.method.inverse hub
  if leg.base.isGeocentric then .ok via else fromGeographic arithmetic leg.base via

/-- The internal coordinates at the hub, of a transform that starts with a leg
or without one. -/
def atHub (first : Option Leg) (internal : Triple) (flow : Bool) :
    Except CoordinateError Triple :=
  match first with
  | some leg => leg.toHub arithmetic internal flow
  | none => .ok internal

end Run

/-- The operations' names joined as a concatenated operation is named: the
legs' around the one between. -/
def join (first : Option Leg) (middle : Option String) (last : Option Leg) : String :=
  let names := [first.map (·.name), middle, last.map fun l => "Inverse of " ++ l.name]
  " + ".intercalate (names.filterMap id)

end Leg

/-! ## Converting -/

def Plan.isConversion : Plan → Bool
  | .conversion => true
  | _ => false

/-- The height that the first leg produces goes on into the second, between
which there is nothing. -/
def flows (first : Option Leg) (middle : Plan) (last : Option Leg) : Bool :=
  middle.isConversion &&
    match first, last with
    | some a, some b => a.method.keepsHeight && b.method.keepsHeight
    | _, _ => false

section Run

variable (arithmetic : Arithmetic)

mutual

def Plan.run (src dst : Crs) : Plan → Triple → Except CoordinateError Triple
  | .conversion, internal => onOneDatum arithmetic src dst internal
  | .operations candidates, internal => candidates.run arithmetic src dst internal
  | .via _ candidates, internal => candidates.run arithmetic src dst internal
  | .only candidates, internal => candidates.run arithmetic src dst internal
  | .bound first middle last _, internal => do
    let flow := flows first middle.plan last
    let hub ← Leg.atHub arithmetic first internal flow
    let other ← Transform.run middle hub
    match last with
    | some leg => leg.backFromHub arithmetic other flow
    | none => .ok other

/-- Internal coordinates of the source CRS to the target's. -/
def Transform.run : Transform → Triple → Except CoordinateError Triple
  | ⟨src, dst, _, _, _, plan⟩, internal => Plan.run src dst plan internal

end

namespace Transform

/-- The transform as the loops over coordinates see it. -/
def conversion (t : Transform) : Reproject.Transform where
  source := t.src.frame
  target := t.dst.frame
  order := t.order
  run := t.run arithmetic
  reverse := none

/-- Convert one coordinate. -/
def convert (t : Transform) (c : Coord) : Except CoordinateError Coord :=
  (t.conversion arithmetic).convert c

/-- The internal coordinates of a coordinate, if it can be placed. -/
def internal (t : Transform) (c : Coord) : Except CoordinateError Triple :=
  toInternal t.src.axes t.order ⟨c.x, c.y, c.z.getD F64.zero⟩

end Transform

/-! ## The operations of a transform -/

mutual

/-- The candidates between datums, if any: for a Bound CRS those after the hub. -/
def Plan.candidates : Plan → Option Candidates
  | .conversion => none
  | .operations candidates => some candidates
  | .via _ candidates => some candidates
  | .only candidates => some candidates
  | .bound _ middle _ _ => Transform.candidates middle

def Transform.candidates : Transform → Option Candidates
  | ⟨_, _, _, _, _, plan⟩ => plan.candidates

end

mutual

/-- Index of the operation that internal coordinates go through. -/
def Plan.indexFor (src dst : Crs) : Plan → Triple → Option Nat
  | .conversion, _ => none
  | .operations candidates, internal => candidates.usedIndex arithmetic src dst internal
  | .via _ candidates, internal => candidates.usedIndex arithmetic src dst internal
  | .only candidates, internal => candidates.usedIndex arithmetic src dst internal
  | .bound first middle _ _, internal => do
    Transform.indexFor middle (← (Leg.atHub arithmetic first internal false).toOption)

def Transform.indexFor : Transform → Triple → Option Nat
  | ⟨src, dst, _, _, _, plan⟩, internal => Plan.indexFor src dst plan internal

end

mutual

/-- How the operation for internal coordinates is chosen. -/
def Plan.explainInternal (src dst : Crs) : Plan → Triple → Option Explanation
  | .conversion, _ => none
  | .operations candidates, internal => some (candidates.explain arithmetic src dst internal)
  | .via _ candidates, internal => some (candidates.explain arithmetic src dst internal)
  | .only candidates, internal => some (candidates.explain arithmetic src dst internal)
  | .bound first middle _ _, internal => do
    Transform.explainInternal middle (← (Leg.atHub arithmetic first internal false).toOption)

def Transform.explainInternal : Transform → Triple → Option Explanation
  | ⟨src, dst, _, _, _, plan⟩, internal => Plan.explainInternal src dst plan internal

end

namespace Transform

/-- Names of the candidate operations, best first. -/
def operations (t : Transform) : List String :=
  match t.plan with
  | .conversion => []
  | .operations candidates => candidates.names
  | .via _ candidates => candidates.names
  | .only candidates => candidates.names
  | .bound _ _ _ names => names

/-- The name of the operation one coordinate goes through. -/
def operationFor (t : Transform) (c : Coord) : Option String := do
  let internal ← (t.internal c).toOption
  match t.plan with
  | .conversion => none
  | .operations candidates => candidates.used arithmetic t.src t.dst internal
  | .via _ candidates => candidates.used arithmetic t.src t.dst internal
  | .only candidates => candidates.used arithmetic t.src t.dst internal
  | .bound _ middle _ names =>
    let index ← if middle.candidates.isSome then t.indexFor arithmetic internal else some 0
    names[index]?

/-- The operations this transform chooses among, best first. -/
def operationInfo (t : Transform) : List OperationInfo :=
  (t.candidates.map Candidates.info).getD []

/-- The index in `operationInfo` of the operation one coordinate goes
through. -/
def operationIndexFor (t : Transform) (c : Coord) : Option Nat := do
  t.indexFor arithmetic (← (t.internal c).toOption)

/-- How the operation for one coordinate is chosen. -/
def explainPoint (t : Transform) (c : Coord) : Option Explanation := do
  t.explainInternal arithmetic (← (t.internal c).toOption)

end Transform

end Run

/-! ## Making transforms -/

section Make

variable (backend : Backend)

mutual

/-- The plan through operation `index` only. -/
def Plan.withOperationIndex (src dst : Crs) : Plan → Nat → Option (Except SetupError Plan)
  | .conversion, _ => none
  | .operations candidates, index =>
    (candidates.only backend index src dst).map fun only => only.map Plan.only
  | .via _ candidates, index =>
    (candidates.only backend index src dst).map fun only => only.map Plan.only
  | .only candidates, index =>
    (candidates.only backend index src dst).map fun only => only.map Plan.only
  | .bound first middle last names, index => do
    match ← Transform.withOperationIndex middle index with
    | .error e => some (.error e)
    | .ok middle => do
      let name ← names[index]?
      some (.ok (.bound first middle last [name]))

/-- The transformation through operation `index` of `operationInfo` only, for
every coordinate. -/
def Transform.withOperationIndex : Transform → Nat → Option (Except SetupError Transform)
  | ⟨src, dst, order, grids, selection, plan⟩, index =>
    (Plan.withOperationIndex src dst plan index).map fun only =>
      only.map fun plan => ⟨src, dst, order, grids, selection, plan⟩

end

namespace Transform

/-- A Bound CRS and one that isn't: its transformation, its base, the other
CRS, and whether the Bound CRS is the source. -/
def boundSide (src dst : Crs) : Option (Bound × Crs × Crs × Bool) :=
  match src.bound, dst.bound with
  | some b, none => some (b, src.withoutBound, dst, true)
  | none, some b => some (b, dst.withoutBound, src, false)
  | _, _ => none

/-- The Clarke 1866 ellipsoid, of NAD27 and its kin. -/
def onClarke1866 (d : Datum) : Bool :=
  d.semiMajor.eq ⟨0x415854b79999999a⟩ &&
    decide ((d.semiMinor - ⟨0x41583f99f3333333⟩).abs < ⟨0x3f1a36e2eb1c432d⟩)

/-- The special case of a Bound CRS on the Clarke 1866 ellipsoid to a CRS on
NAD83: the bound transformation lands on NAD83 directly. -/
def nad27ToNad83 (src dst : Crs) : Except SetupError (Option Plan) :=
  match boundSide src dst with
  | none => .ok none
  | some (bound, base, other, forward) =>
    let clarke1866 := (base.datum.map onClarke1866).getD false
    let hubWgs84 := (bound.hub.datum.map fun d => d.key == "EPSG:6326").getD false
    let nad83 := (other.datum.map fun d => d.key == "EPSG:6269").getD false
    if clarke1866 && hubWgs84 && nad83 then
      match backend.geographicOf other with
      | none => .ok none
      | some landing => do
        let targetName :=
          if other.isGeographic then other.name
          else (other.code.bind backend.baseName).getD "NAD83"
        let baseName :=
          ((stripPrefix "Transformation from " bound.name).bind (stripSuffix " to WGS84")).getD
            base.name
        let name := "Transformation from " ++ baseName ++ " to " ++ targetName
        let leg ← Leg.landing backend base bound landing name
        let (source, target) := if forward then (landing, other) else (other, landing)
        let middle : Transform :=
          ⟨source, target, .eastFirst, .none, .unlimited, .conversion⟩
        if forward then
          .ok (some (.bound (some leg) middle none [name]))
        else
          .ok (some (.bound none middle (some leg) ["Inverse of " ++ name]))
    else
      .ok none

/-- What a transform does not start from or end at. -/
def checkUnbound (src dst : Crs) : Except SetupError Unit := do
  for crs in [src, dst] do
    if crs.horizontal.bound.isSome then
      throw (.unsupported crs.label "a compound CRS whose horizontal part is a bound CRS")
  for crs in [src, dst] do
    if crs.isVertical then
      throw (.unsupported crs.label
        "a vertical CRS on its own (a compound CRS gives its heights a position)")

/-- The plan between two CRSs neither of which is bound. -/
def unboundPlan (src dst : Crs) (grids : Grids) (selection : Selection) :
    Except SetupError Plan :=
  if backend.sameDatums src dst then
    .ok .conversion
  else
    match backend.crsRef src, backend.crsRef dst with
    | some sc, some dc =>
      match Candidates.new backend src dst (backend.createOperations sc dc grids selection) with
      | .ok candidates => .ok (.operations candidates)
      | .error (.noTransformation s d) =>
        .error ((backend.unknownDatum src dst).getD (.noTransformation s d))
      | .error e => .error e
    | _, _ =>
      .error ((backend.unknownDatum src dst).getD (.noTransformation src.label dst.label))

/-- The bound transformation isn't used between CRSs on one datum, unless both
are bound, with different transformations. -/
def ignoresBound (src dst : Crs) : Bool :=
  backend.sameDatums src.withoutBound dst.withoutBound &&
    match src.bound, dst.bound with
    | some a, some b => backend.sameBound a b
    | _, _ => true

/-- Where the transform between the hubs starts or ends. -/
def hubOf (crs : Crs) : Crs :=
  match crs.bound with
  | some bound => bound.hub
  | none => crs.withoutBound

theorem sizeOf_hubOf (crs : Crs) :
    sizeOf (hubOf crs) ≤ sizeOf crs ∧ (crs.bound.isSome → sizeOf (hubOf crs) < sizeOf crs) := by
  cases crs with
  | mk name code kind axes longitudeTurn bound =>
    cases bound with
    | none => simp [hubOf, Crs.withoutBound]
    | some bound =>
      cases bound with
      | mk hub boundName method params =>
        simp only [hubOf, Crs.mk.sizeOf_spec, Option.some.sizeOf_spec, Bound.mk.sizeOf_spec]
        omega

/-- The conversion or transformation from `src` to `dst`. -/
def withSelection (src dst : Crs) (order : AxisOrder) (grids : Grids) (selection : Selection) :
    Except SetupError Transform :=
  if _hbound : src.bound.isSome ∨ dst.bound.isSome then do
    let plan ← (if ignoresBound backend src dst then .ok .conversion else do
      match ← nad27ToNad83 backend src dst with
      | some plan => .ok plan
      | none => do
        let first ← Leg.ofBound backend src
        let last ← Leg.ofBound backend dst
        let middle ← withSelection (hubOf src) (hubOf dst) order grids selection
        let names := middle.operations.map fun m => Leg.join first (some m) last
        .ok (.bound first middle last
          (if names.isEmpty then [Leg.join first none last] else names)))
    .ok ⟨src, dst, order, grids, selection, plan⟩
  else do
    checkUnbound src dst
    let plan ← unboundPlan backend src dst grids selection
    .ok ⟨src, dst, order, grids, selection, plan⟩
termination_by sizeOf src + sizeOf dst
decreasing_by
  have hsrc := sizeOf_hubOf src
  have hdst := sizeOf_hubOf dst
  rcases _hbound with h | h
  · have := hsrc.2 h
    omega
  · have := hdst.2 h
    omega

/-- A forced operation does not start from or end at a Bound CRS. -/
def checkForced (src dst : Crs) : Except SetupError Unit := do
  for crs in [src, dst] do
    if crs.horizontal.bound.isSome then
      throw (.unsupported crs.label "a forced operation from or to a bound CRS")

/-- The transformation through one EPSG coordinate operation. -/
def via (src dst : Crs) (operation : Nat) (order : AxisOrder) : Except SetupError Transform := do
  checkForced src dst
  match backend.crsRef src, backend.crsRef dst with
  | some sc, some dc => do
    let c ← backend.forced src dst sc dc operation
    let candidates ← Candidates.one backend c src dst
    .ok ⟨src, dst, order, .projData, .unlimited, .via operation candidates⟩
  | _, _ => .error (.noTransformation src.label dst.label)

/-- The conversion the other way. -/
def inverse (t : Transform) : Except SetupError Transform :=
  match t.plan with
  | .conversion => .ok ⟨t.dst, t.src, t.order, t.grids, t.selection, .conversion⟩
  | .operations _ => withSelection backend t.dst t.src t.order t.grids t.selection
  | .bound _ _ _ _ => withSelection backend t.dst t.src t.order t.grids t.selection
  | .via code _ => via backend t.dst t.src code t.order
  | .only candidates => do
    let candidates ← candidates.inverseOfFirst backend t.dst t.src
    .ok ⟨t.dst, t.src, t.order, t.grids, t.selection, .only candidates⟩

/-- The transforms that there are: set up between two CRSs, forced, or made
from another one. -/
inductive Reachable : Transform → Prop where
  | withSelection {src dst : Crs} {order : AxisOrder} {grids : Grids} {selection : Selection}
      {t : Transform} (h : withSelection backend src dst order grids selection = .ok t) :
      Reachable t
  | via {src dst : Crs} {operation : Nat} {order : AxisOrder} {t : Transform}
      (h : via backend src dst operation order = .ok t) : Reachable t
  | withOperationIndex {t only : Transform} {index : Nat} (ht : Reachable t)
      (h : t.withOperationIndex backend index = some (.ok only)) : Reachable only
  | inverse {t other : Transform} (ht : Reachable t) (h : t.inverse backend = .ok other) :
      Reachable other

end Transform

end Make

end Xeibe.Reproject.Select

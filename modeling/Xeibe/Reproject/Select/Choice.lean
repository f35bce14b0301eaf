import Mathlib.Data.List.Infix
import Xeibe.Lib.Runs
import Xeibe.Reproject.Bounds
import Xeibe.Reproject.Select.Crs

/-!
# Choosing among candidate operations

The candidates for one source and target CRS, prepared: each with its area of
use converted into the source CRS, one across the antimeridian twice.  Every
coordinate goes through the most accurate candidate whose area contains it.

`choose` is written once and tells a recorder how the choice is made: nothing
when a coordinate is converted, everything for `explain`.
-/

namespace Xeibe.Reproject.Select

open Xeibe.Geom (F64)
open Xeibe.Lib

/-! ## Candidates -/

/-- A CRS in the search. -/
inductive CrsRef where
  | epsg (code : Nat)
  /-- A geographic 2D CRS promoted to 3D without an EPSG 3D twin. -/
  | promoted (code : Nat)
  | compound (horizontal vertical : Nat)
deriving DecidableEq, Repr

/-- A geographic bounding box in degrees: west may exceed east across the
antimeridian. -/
structure Extent where
  name : Option String
  west : F64
  south : F64
  east : F64
  north : F64
deriving DecidableEq, Repr

/-- The whole world. -/
def world : Extent where
  name := some "World"
  west := -F64.ofUsize 180
  south := -F64.ofUsize 90
  east := F64.ofUsize 180
  north := F64.ofUsize 90

mutual

/-- What a single step does. -/
inductive SingleKind where
  | registry (code : Nat) (inverse : Bool)
  | projection (crs : Nat) (inverse : Bool)
  | sameDatum
  | ensembleMember
  | verticalConversion
  | ballparkVertical
  /-- One operation built from others. -/
  | composite (parts : List Single) (saveHorizontal : Bool)

/-- One step of a candidate, between two CRSs. -/
structure Single where
  kind : SingleKind
  src : CrsRef
  dst : CrsRef
  name : String
  /-- -1 when unknown. -/
  accuracy : F64

end

/-- A candidate operation from the source to the target CRS. -/
structure Candidate where
  name : String
  steps : List Single
  /-- The registry operation this candidate is, with its direction. -/
  registry : Option (Nat × Bool)
  /-- -1 when unknown. -/
  accuracy : F64
  extent : Option Extent
  /-- A step's method is time-dependent. -/
  requiresTime : Bool

/-- What the selection reads of an operation of the registry. -/
structure Operation where
  method : Nat
  scope : Option String
  gridNames : List String

/-! ## What the selection calls -/

/-- The errors of setting a transform up. -/
inductive SetupError where
  | unsupported (crs what : String)
  | noTransformation (src dst : String)
  | unknownDatum (crs datum : String)
deriving DecidableEq, Repr

/-- Which grids the selection may use. -/
inductive Grids where
  | projData
  | none
  | localFiles (names : List String)
deriving DecidableEq, Repr

/-- Options of the search for operations between datums. -/
structure Selection where
  areaOfInterest : Option (F64 × F64 × F64 × F64)
  accuracy : Option F64
deriving DecidableEq, Repr

/-- The default selection: no limits. -/
def Selection.unlimited : Selection := ⟨none, none⟩

/-- The parts of the crate that the selection calls: the registry, the search
with its filter, the setting up of steps, and the comparisons of CRSs.  The
candidates are whatever the search answers. -/
structure Backend where
  arithmetic : Arithmetic
  operations : Nat → Option Operation
  createOperations : CrsRef → CrsRef → Grids → Selection → List Candidate
  isExportable : Candidate → Bool
  executable : Candidate → Crs → Crs → Except SetupError (List Exec)
  inverse : Candidate → Candidate
  /-- One registry operation as a candidate, where it joins two CRSs' datums. -/
  forced : Crs → Crs → CrsRef → CrsRef → Nat → Except SetupError Candidate
  /-- The CRS as the selection knows it. -/
  crsRef : Crs → Option CrsRef
  /-- Whether two CRSs differ only by a conversion. -/
  sameDatums : Crs → Crs → Bool
  /-- The datum of one of two CRSs that nothing locates. -/
  unknownDatum : Crs → Crs → Option SetupError
  /-- The geographic 3D CRS on a CRS's geodetic datum. -/
  geographicOf : Crs → Option Crs
  /-- The name of the base CRS in an EPSG CRS's definition. -/
  baseName : Nat → Option String
  sameBound : Bound → Bound → Bool
  /-- A bound transformation between a geodetic CRS and a hub. -/
  build : Bound → Crs → Crs → Except String Method

/-- Codes from here on are not EPSG's: PROJ's own operations. -/
def projCodes : Nat := 0x40000000

/-! ## Descriptions -/

/-- What a step of an operation is. -/
inductive StepKind where
  | epsg (code : Nat) (inverse : Bool)
  | ensembleIdentity (method : Nat) (inverse : Bool)
  | projection (crs : Nat) (inverse : Bool)
  | sameDatum
  | ensembleMember
  | verticalConversion
  | ballparkVertical
deriving DecidableEq, Repr

/-- One step of an operation. -/
structure OperationStep where
  name : String
  kind : StepKind
  source : CrsRef
  target : CrsRef
  accuracy : Option F64
deriving DecidableEq, Repr

/-- One of the operations a transform chooses among. -/
structure OperationInfo where
  name : String
  code : Option (Nat × Bool)
  steps : List (Nat × Bool)
  accuracy : Option F64
  area : Option (F64 × F64 × F64 × F64)
  areaName : Option String
  grids : List String
  timeDependent : Bool
  scope : Option String
  chain : List OperationStep
deriving DecidableEq, Repr

/-- An accuracy, where it is known. -/
def knownAccuracy (accuracy : F64) : Option F64 :=
  if F64.zero ≤ accuracy then some accuracy else none

mutual

/-- The operations a step runs, inside combined operations too. -/
def Single.leaves : Single → List Single
  | ⟨.composite parts _, _, _, _, _⟩ => leavesOf parts
  | ⟨.registry code inverse, src, dst, name, accuracy⟩ =>
    [⟨.registry code inverse, src, dst, name, accuracy⟩]
  | ⟨.projection crs inverse, src, dst, name, accuracy⟩ =>
    [⟨.projection crs inverse, src, dst, name, accuracy⟩]
  | ⟨.sameDatum, src, dst, name, accuracy⟩ => [⟨.sameDatum, src, dst, name, accuracy⟩]
  | ⟨.ensembleMember, src, dst, name, accuracy⟩ => [⟨.ensembleMember, src, dst, name, accuracy⟩]
  | ⟨.verticalConversion, src, dst, name, accuracy⟩ =>
    [⟨.verticalConversion, src, dst, name, accuracy⟩]
  | ⟨.ballparkVertical, src, dst, name, accuracy⟩ =>
    [⟨.ballparkVertical, src, dst, name, accuracy⟩]

def leavesOf : List Single → List Single
  | [] => []
  | step :: steps => step.leaves ++ leavesOf steps

end

section Descriptions

variable (backend : Backend)

/-- What a leaf of a candidate's steps is in the chain. -/
def stepKind : SingleKind → Option StepKind
  | .registry code inverse =>
    if projCodes ≤ code then
      -- A step names an operation that the registry has.
      some (.ensembleIdentity (((backend.operations code).map (·.method)).getD 0) inverse)
    else
      some (.epsg code inverse)
  | .projection crs inverse => some (.projection crs inverse)
  | .sameDatum => some .sameDatum
  | .ensembleMember => some .ensembleMember
  | .verticalConversion => some .verticalConversion
  | .ballparkVertical => some .ballparkVertical
  | .composite _ _ => none

/-- Every step it runs, in order, combined ones as their parts. -/
def chain (steps : List Single) : List OperationStep :=
  (leavesOf steps).filterMap fun s => do
    let kind ← stepKind backend s.kind
    pure ⟨s.name, kind, s.src, s.dst, knownAccuracy s.accuracy⟩

/-- The EPSG transformations it runs, in order. -/
def transformations (steps : List Single) : List (Nat × Bool) :=
  (leavesOf steps).filterMap fun s =>
    match s.kind with
    | .registry code inverse => if code < projCodes then some (code, inverse) else none
    | _ => none

/-- The grid files the steps read, each once. -/
def gridNames (steps : List Exec) : List String :=
  let files := steps.flatMap fun step =>
    match step with
    | .apply method _ _ _ _ => method.gridFiles
    | _ => []
  files.foldl (fun grids f => if grids.contains f then grids else grids ++ [f]) []

def OperationInfo.of (c : Candidate) (steps : List Exec) : OperationInfo where
  name := c.name
  code := c.registry.filter fun r => decide (r.1 < projCodes)
  steps := transformations c.steps
  accuracy := knownAccuracy c.accuracy
  area := c.extent.map fun e => (e.west, e.south, e.east, e.north)
  areaName := c.extent.bind (·.name)
  grids := gridNames steps
  timeDependent := c.requiresTime
  scope := do (← backend.operations (← c.registry).1).scope
  chain := Select.chain backend c.steps

/-- Uses a grid: any operation with a grid file. -/
def Candidate.hasGrids (c : Candidate) : Bool :=
  (leavesOf c.steps).any fun s =>
    match s.kind with
    | .registry code _ => !((backend.operations code).map (·.gridNames.isEmpty)).getD true
    | _ => false

end Descriptions

/-! ## Preparing them -/

/-- A candidate ready to run, with what the choice for each point needs. -/
structure Prepared where
  name : String
  /-- Which candidate this is, counted from the best. -/
  index : Nat
  candidate : Candidate
  info : OperationInfo
  steps : List Exec
  /-- The area of use in the source CRS's internal coordinates, or in degrees
  for a geocentric source. -/
  bbox : Bounds
  accuracy : F64
  pseudoArea : F64
  offshore : Bool
  unknownAreaName : Bool
  priority : Bool
  hasGrids : Bool
  /-- Used for every coordinate, whatever its area. -/
  everywhere : Bool

/-- The operations that are preferred among equals. -/
def priorityNames : List String :=
  ["NAD83 to NAD83(HARN) (47)",
    "NAD83 to NAD83(HARN) (48)",
    "NAD83 to NAD83(HARN) (49)",
    "NAD83 to NAD83(HARN) (50)",
    "GDA94 to WGS 84 (1)",
    "GDA2020 to WGS 84 (2)"]

/-- `contains` of strings. -/
def containsText (text part : String) : Bool := decide (part.toList <:+: text.toList)

def isPriority (name : String) : Bool := priorityNames.any (containsText name)

/-- The box that no coordinate is outside of. -/
def unbounded : Bounds := ⟨-F64.largest, -F64.largest, F64.largest, F64.largest⟩

/-- The points along the edges of an area, 21 to each, in degrees. -/
def edgePoints (west south east north : F64) : List (F64 × F64) :=
  let steps := F64.ofUsize 20
  let stepLon := (east - west) / steps
  let stepLat := (north - south) / steps
  (List.range 21).flatMap fun j =>
    let x := west + F64.ofUsize j * stepLon
    let y := south + F64.ofUsize j * stepLat
    [(x, south), (x, north), (west, y), (east, y)]

/-- The box with one more point in it. -/
def growBounds (out : Bounds) (x y : F64) : Bounds :=
  ⟨out.xmin.min x, out.ymin.min y, out.xmax.max x, out.ymax.max y⟩

section Prepare

variable (backend : Backend)

/-- An area in degrees, converted into the internal coordinates of a CRS: the
smallest and largest of the points along its edges that convert.  The whole
world stays unbounded. -/
def reprojectBbox (crs : Crs) (west south east north : F64) : Bounds :=
  if west.eq world.west && east.eq world.east && south.eq world.south && north.eq world.north then
    unbounded
  else
    let pm := (crs.datum.map (·.primeMeridian)).getD F64.zero
    (edgePoints west south east north).foldl (fun out at_ =>
        match fromGeographic backend.arithmetic crs ⟨at_.1.toRadians - pm, at_.2.toRadians, F64.zero⟩ with
        | .ok p => if p.x.isFinite && p.y.isFinite then growBounds out p.x p.y else out
        | .error _ => out)
      ⟨F64.largest, F64.largest, -F64.largest, -F64.largest⟩

/-- The sides of the antimeridian an area is on. -/
def Extent.sides (extent : Extent) : List (F64 × F64) :=
  if extent.west ≤ extent.east then
    [(extent.west, extent.east)]
  else
    [(extent.west, F64.ofUsize 180), (-F64.ofUsize 180, extent.east)]

/-- The box of one side of an area, as the choice compares coordinates with
it. -/
def sideBox (src : Crs) (extent : Extent) (side : F64 × F64) : Bounds :=
  if src.isGeocentric then
    ⟨side.1, extent.south, side.2, extent.north⟩
  else
    reprojectBbox backend src side.1 extent.south side.2 extent.north

/-- A box with something in it. -/
def Bounds.usable (bbox : Bounds) : Bool := !decide (bbox.xmax < bbox.xmin)

/-- Candidate `index`, on one side of the antimeridian. -/
def prepareSide (src : Crs) (index : Nat) (c : Candidate) (steps : List Exec)
    (side : F64 × F64) : Prepared :=
  let extent := c.extent.getD world
  let areaName := extent.name.getD ""
  let w := side.1.toRadians
  let e := side.2.toRadians
  let e := if e < w then e + F64.ofUsize 2 * F64.pi else e
  { name := c.name
    index := index
    candidate := c
    info := OperationInfo.of backend c steps
    steps := steps
    bbox := sideBox backend src extent side
    accuracy := c.accuracy
    pseudoArea := (e - w) * (backend.arithmetic.sin extent.north.toRadians -
      backend.arithmetic.sin extent.south.toRadians)
    offshore := containsText areaName "- offshore"
    unknownAreaName := areaName.isEmpty || areaName == "unknown"
    priority := isPriority c.name
    hasGrids := c.hasGrids backend
    everywhere := false }

/-- The sides of a candidate's area that convert into the source CRS. -/
def usableSides (src : Crs) (c : Candidate) : List (F64 × F64) :=
  let extent := c.extent.getD world
  extent.sides.filter fun side => Bounds.usable (sideBox backend src extent side)

/-- A candidate for every coordinate, whatever its area. -/
def Prepared.forAll (c : Candidate) (steps : List Exec) : Prepared where
  name := c.name
  index := 0
  candidate := c
  info := OperationInfo.of backend c steps
  steps := steps
  bbox := unbounded
  accuracy := c.accuracy
  pseudoArea := F64.zero
  offshore := false
  unknownAreaName := false
  priority := false
  hasGrids := c.hasGrids backend
  everywhere := true

/-- The candidates whose steps can be written out and set up, in order. -/
def usableCandidates (src dst : Crs) (sorted : List Candidate) : List (Candidate × List Exec) :=
  sorted.filterMap fun c =>
    if backend.isExportable c then
      match backend.executable c src dst with
      | .ok steps => some (c, steps)
      | .error _ => none
    else
      none

/-- The candidates numbered as they come, and prepared. -/
def prepareAll (src : Crs) (usable : List (Candidate × List Exec)) : List Prepared :=
  usable.zipIdx.flatMap fun u =>
    (usableSides backend src u.1.1).map (prepareSide backend src u.2 u.1.1 u.1.2)

end Prepare

/-- The candidates for one source and target CRS: never none. -/
structure Candidates where
  list : List Prepared
  list_ne : list ≠ []
  srcGeographic : Bool
  srcGeocentric : Bool
  /-- One candidate only, which applies to every coordinate. -/
  single : Bool

namespace Candidates

section New

variable (backend : Backend)

/-- The candidates from `src` to `dst` that the search answers with, prepared.
A single operation whose area doesn't convert into the source CRS still
serves. -/
def new (src dst : Crs) (sorted : List Candidate) : Except SetupError Candidates :=
  let usable := usableCandidates backend src dst sorted
  let prepared := prepareAll backend src usable
  let list :=
    match prepared, usable with
    | [], [(c, steps)] => [Prepared.forAll backend c steps]
    | _, _ => prepared
  if h : list = [] then
    .error (.noTransformation src.label dst.label)
  else
    .ok {
      list := list
      list_ne := h
      srcGeographic := src.isGeographic
      srcGeocentric := src.isGeocentric
      single := decide (usable.length = 1) || decide (list.length = 1) }

/-- One candidate, run for every coordinate whatever its area. -/
def one (c : Candidate) (src dst : Crs) : Except SetupError Candidates := do
  let steps ← backend.executable c src dst
  .ok {
    list := [Prepared.forAll backend c steps]
    list_ne := by simp
    srcGeographic := src.isGeographic
    srcGeocentric := src.isGeocentric
    single := true }

/-- Candidate `index` only, for every coordinate. -/
def only (cs : Candidates) (index : Nat) (src dst : Crs) : Option (Except SetupError Candidates) := do
  let p ← cs.list.find? fun p => p.index == index
  some (one backend p.candidate src dst)

/-- The first candidate the other way, for every coordinate. -/
def inverseOfFirst (cs : Candidates) (src dst : Crs) : Except SetupError Candidates :=
  one backend (backend.inverse (cs.list.head cs.list_ne).candidate) src dst

end New

/-- Names of the candidates, best first. -/
def names (cs : Candidates) : List String := cs.list.map (·.name)

/-- The candidates' descriptions, best first, each once. -/
def info (cs : Candidates) : List OperationInfo :=
  (Runs.heads Prepared.index none cs.list).map (·.info)

end Candidates

/-! ## The recorder -/

/-- Why a candidate whose area contains the point wasn't used. -/
inductive PassReason where
  | lessAccurate
  | unknownAccuracy
  | largerArea
  | unknownAreaName
  | offshore
  | priority
  | earlier
deriving DecidableEq, Repr

/-- What the choice tells about itself, by place among the prepared
candidates. -/
class Recorder (ρ : Type) where
  detailed : Bool
  inside : ρ → Nat → Bool → ρ
  passed : ρ → Nat → Nat → PassReason → ρ
  tried : ρ → Nat → Option CoordinateError → ρ
  fallback : ρ → Nat → ρ
  round : ρ → ρ

/-- Converting: nothing kept. -/
instance : Recorder Unit where
  detailed := false
  inside told _ _ := told
  passed told _ _ _ := told
  tried told _ _ := told
  fallback told _ := told
  round told := told

/-- The recorder of `explain`, by prepared candidate. -/
structure Explain where
  inside : List (Option Bool)
  passed : List (Option (Nat × PassReason))
  tried : List (Option (Option CoordinateError))
  fallback : Option Nat
  rounds : Nat

def Explain.new (candidates : Nat) : Explain where
  inside := List.replicate candidates none
  passed := List.replicate candidates none
  tried := List.replicate candidates none
  fallback := none
  rounds := 0

instance : Recorder Explain where
  detailed := true
  inside told candidate inside := { told with inside := told.inside.set candidate (some inside) }
  passed told candidate by_ reason :=
    { told with passed := told.passed.set candidate (some (by_, reason)) }
  tried told candidate error := { told with tried := told.tried.set candidate (some error) }
  fallback told candidate := { told with fallback := some candidate }
  round told := { told with rounds := told.rounds + 1 }

/-! ## The choice -/

section Choice

variable (arithmetic : Arithmetic)

def normalizeLongitude (x : F64) : F64 :=
  let turn := F64.ofUsize 2 * F64.pi
  if F64.pi < x then
    let x := x - turn
    if F64.pi < x then arithmetic.rem (x + F64.pi) turn - F64.pi else x
  else if x < -F64.pi then
    let x := x + turn
    if x < -F64.pi then arithmetic.rem (x + F64.pi) turn - F64.pi else x
  else
    x

/-- Why `alt`, whose area contains the point, doesn't displace `cur`, the best
so far: the rule of `suggest` read backwards. -/
def passReason (alt cur : Prepared) (bestAccuracy : F64) : PassReason :=
  if alt.accuracy.eq bestAccuracy then
    if cur.priority then .priority
    else if alt.unknownAreaName && !cur.unknownAreaName then .unknownAreaName
    else if cur.pseudoArea ≤ alt.pseudoArea then .largerArea
    else if alt.offshore then .offshore
    else .earlier
  else if F64.zero ≤ alt.accuracy ∧ alt.accuracy < bestAccuracy then .offshore
  else if alt.accuracy < F64.zero then .unknownAccuracy
  else if bestAccuracy < F64.zero then .earlier
  else .lessAccurate

/-- Whether `alt` displaces `cur`, the best so far. -/
def displaces (alt cur : Prepared) (bestAccuracy : F64) : Bool :=
  ((decide (F64.zero ≤ alt.accuracy) && decide (alt.accuracy < bestAccuracy)) ||
      (alt.accuracy.eq bestAccuracy && decide (alt.pseudoArea < cur.pseudoArea) &&
        !(alt.unknownAreaName && !cur.unknownAreaName) && !cur.priority)) &&
    !alt.offshore

namespace Candidates

/-- Whether a prepared candidate's area contains a point. -/
def contains (cs : Candidates) (alt : Prepared) (point : F64 × F64) : Bool :=
  let within := fun x : F64 => decide (alt.bbox.xmin ≤ x) && decide (x ≤ alt.bbox.xmax)
  let inLatitude := decide (alt.bbox.ymin ≤ point.2) && decide (point.2 ≤ alt.bbox.ymax)
  (within point.1 && inLatitude) ||
    (cs.srcGeographic && inLatitude && within (normalizeLongitude arithmetic point.1))

variable {ρ : Type} [Recorder ρ]

/-- The best so far, by place, with its accuracy. -/
structure Best where
  place : Nat
  alt : Prepared
  accuracy : F64

/-- One candidate more, at place `i`. -/
def suggestStep (i : Nat) (alt : Prepared) : Option Best → ρ → Option Best × ρ
  | none, told => (some ⟨i, alt, alt.accuracy⟩, told)
  | some best, told =>
    let replace := displaces alt best.alt best.accuracy
    let told' :=
      if Recorder.detailed ρ then
        if replace then
          -- The one displaced is passed over for this one.
          let reason := if alt.accuracy < best.accuracy then .lessAccurate else .largerArea
          Recorder.passed told best.place i reason
        else
          Recorder.passed told i best.place (passReason alt best.alt best.accuracy)
      else
        told
    (if replace then some ⟨i, alt, alt.accuracy⟩ else some best, told')

/-- The rest of the candidates, from place `i` on. -/
def suggestFrom (cs : Candidates) (point : F64 × F64) (excluded : List Nat) :
    Nat → List Prepared → Option Best → ρ → Option Best × ρ
  | _, [], best, told => (best, told)
  | i, alt :: alts, best, told =>
    if excluded.contains i || !cs.contains arithmetic alt point then
      suggestFrom cs point excluded (i + 1) alts best told
    else
      let (best, told) := suggestStep i alt best told
      suggestFrom cs point excluded (i + 1) alts best told

/-- The place of the best candidate whose area contains the point, telling
`told` why each other one isn't it. -/
def suggest (cs : Candidates) (point : F64 × F64) (excluded : List Nat) (told : ρ) :
    Option (Nat × Prepared) × ρ :=
  let (best, told) := cs.suggestFrom arithmetic point excluded 0 cs.list none told
  (best.map fun best => (best.place, best.alt), told)

/-- The point the choice looks at: internal coordinates, or degrees on the
ellipsoid for a geocentric source. -/
def choicePoint (cs : Candidates) (src : Crs) (internal : Triple) :
    Except CoordinateError (F64 × F64) :=
  if cs.srcGeocentric then do
    let geographic ← toGeographic arithmetic src internal
    .ok (geographic.x.toDegrees, geographic.y.toDegrees)
  else
    .ok (internal.x, internal.y)

/-- Tell `told` which areas contain the point, from place `i` on. -/
def tellInside (cs : Candidates) (point : F64 × F64) : Nat → List Prepared → ρ → ρ
  | _, [], told => told
  | i, alt :: alts, told =>
    tellInside cs point (i + 1) alts (Recorder.inside told i (cs.contains arithmetic alt point))

/-- An error that ends the choice: a grid that isn't loaded or can't be read. -/
def endsChoice (e : CoordinateError) : Bool := e = .gridNotLoaded || e = .invalidGrid

/-- The error of a result, if it is one. -/
def errOf {α : Type} : Except CoordinateError α → Option CoordinateError
  | .ok _ => none
  | .error e => some e

/-- No candidate covers the point: the first one that uses no grid, whatever
its area. -/
def fallBack (cs : Candidates) (src dst : Crs) (internal : Triple) (lastError : CoordinateError)
    (told : ρ) : Except CoordinateError (Triple × Nat) × ρ :=
  match cs.list.zipIdx.find? fun p => !p.1.hasGrids with
  | some (p, i) =>
    let told := Recorder.fallback told i
    let result := run arithmetic p.steps src dst internal
    (result.map fun out => (out, i), Recorder.tried told i (errOf result))
  | none => (.error lastError, told)

/-- At most so many candidates more, past those tried and excluded. -/
def rounds (cs : Candidates) (src dst : Crs) (internal : Triple) (point : F64 × F64) :
    Nat → List Nat → CoordinateError → ρ → Except CoordinateError (Triple × Nat) × ρ
  | 0, _, lastError, told => cs.fallBack arithmetic src dst internal lastError told
  | left + 1, excluded, lastError, told =>
    let told := Recorder.round told
    match cs.suggest arithmetic point excluded told with
    | (none, told) => cs.fallBack arithmetic src dst internal lastError told
    | (some (best, p), told) =>
      let result := run arithmetic p.steps src dst internal
      let told := Recorder.tried told best (errOf result)
      match result with
      | .ok out => (.ok (out, best), told)
      | .error e =>
        if endsChoice e then
          (.error e, told)
        else
          rounds cs src dst internal point left (excluded ++ [best]) e told

/-- Run the best candidate for this coordinate, telling `told` how the choice is
made: the target's internal coordinates and the place of the candidate used. -/
def choose (cs : Candidates) (src dst : Crs) (internal : Triple) (told : ρ) :
    Except CoordinateError (Triple × Nat) × ρ :=
  if cs.single then
    let first := cs.list.head cs.list_ne
    let told :=
      match Recorder.detailed ρ, cs.choicePoint arithmetic src internal with
      | true, .ok point => Recorder.inside told 0 (cs.contains arithmetic first point)
      | _, _ => told
    let result := run arithmetic first.steps src dst internal
    (result.map fun out => (out, 0), Recorder.tried told 0 (errOf result))
  else
    match cs.choicePoint arithmetic src internal with
    | .error e => (.error e, told)
    | .ok point =>
      let told := if Recorder.detailed ρ then cs.tellInside arithmetic point 0 cs.list told else told
      cs.rounds arithmetic src dst internal point 3 [] .outsideDomain told

/-- The target's internal coordinates, and the place of the candidate used. -/
def runWith (cs : Candidates) (src dst : Crs) (internal : Triple) :
    Except CoordinateError (Triple × Nat) :=
  (cs.choose arithmetic src dst internal ()).1

def run (cs : Candidates) (src dst : Crs) (internal : Triple) : Except CoordinateError Triple :=
  (cs.runWith arithmetic src dst internal).map (·.1)

/-- The candidate a coordinate goes through. -/
def usedPrepared (cs : Candidates) (src dst : Crs) (internal : Triple) : Option Prepared :=
  match cs.runWith arithmetic src dst internal with
  | .ok (_, i) => cs.list[i]?
  | .error _ => none

/-- Name of the candidate a coordinate goes through. -/
def used (cs : Candidates) (src dst : Crs) (internal : Triple) : Option String :=
  (cs.usedPrepared arithmetic src dst internal).map (·.name)

/-- Index of the candidate a coordinate goes through. -/
def usedIndex (cs : Candidates) (src dst : Crs) (internal : Triple) : Option Nat :=
  (cs.usedPrepared arithmetic src dst internal).map (·.index)

end Candidates

end Choice

/-! ## Explaining it -/

/-- What became of one candidate operation for one coordinate. -/
inductive Outcome where
  | chosen
  | fallback
  | only
  | passed (by_ : Nat) (reason : PassReason)
  | outside
  | failed (error : CoordinateError)
  | notReached
deriving DecidableEq, Repr

/-- Which of two prepared parts of one operation says more. -/
def Outcome.weight : Outcome → Nat
  | .chosen => 5
  | .fallback => 5
  | .only => 5
  | .failed _ => 4
  | .passed _ _ => 3
  | .notReached => 2
  | .outside => 1

/-- One candidate operation, for one coordinate. -/
structure Explained where
  inside : Option Bool
  outcome : Outcome
deriving DecidableEq, Repr

/-- How the operation for one coordinate was chosen. -/
structure Explanation where
  used : Option Nat
  error : Option CoordinateError
  candidates : List Explained
deriving DecidableEq, Repr

namespace Candidates

/-- What became of the prepared candidate at place `i`. -/
def outcomeOf (cs : Candidates) (told : Explain) (used : Option Nat) (i : Nat) : Outcome :=
  if used = some i then
    if cs.single then .only
    else if told.fallback = some i then .fallback
    else .chosen
  else
    match told.tried.getD i none with
    | some (some error) => .failed error
    | _ =>
      if told.inside.getD i none = some false then
        .outside
      else
        match told.passed.getD i none with
        | some (by_, reason) =>
          -- Passed over for one that failed in the last of the rounds: the
          -- choice stopped before this one.
          if told.rounds = 3 ∧ ((told.tried.getD by_ none).bind id).isSome then
            .notReached
          else
            .passed ((cs.list[by_]?.map (·.index)).getD 0) reason
        | none => .notReached

/-- Two prepared parts of one operation as one. -/
def mergeExplained (other explained : Explained) : Explained where
  inside :=
    match other.inside, explained.inside with
    | some a, some b => some (a || b)
    | a, b => a.or b
  outcome :=
    if other.outcome.weight < explained.outcome.weight then explained.outcome else other.outcome

/-- What is said of each operation, with the prepared candidate `p` at place
`i`. -/
def explainOne (cs : Candidates) (told : Explain) (used : Option Nat)
    (candidates : List (Option Explained)) (p : Prepared) (i : Nat) : List (Option Explained) :=
  let explained : Explained :=
    { inside := if p.everywhere then none else told.inside.getD i none
      outcome := cs.outcomeOf told used i }
  let slot :=
    match candidates.getD p.index none with
    | some other => mergeExplained other explained
    | none => explained
  candidates.set p.index (some slot)

/-- How the operation for one coordinate is chosen, by operation of `info`. -/
def explain (arithmetic : Arithmetic) (cs : Candidates) (src dst : Crs) (internal : Triple) :
    Explanation :=
  let (result, told) := cs.choose arithmetic src dst internal (Explain.new cs.list.length)
  let used := (result.toOption).map (·.2)
  let operations := (cs.list.getLast cs.list_ne).index + 1
  let candidates := cs.list.zipIdx.foldl
    (fun candidates p => cs.explainOne told used candidates p.1 p.2)
    (List.replicate operations none)
  { used := used.bind fun i => cs.list[i]?.map (·.index)
    error := errOf result
    candidates := candidates.map fun c => c.getD ⟨none, .notReached⟩ }

end Candidates

end Xeibe.Reproject.Select

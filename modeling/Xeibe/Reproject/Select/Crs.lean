import Xeibe.Reproject.Transform

/-!
# CRSs and the steps of an operation

The internal coordinates of a CRS and the geographic ones on its datum, and
`run`: the steps of an operation one after the other, with the heights and the
horizontal positions that are kept past some of them.

Projections, methods and the trigonometry of the ellipsoid are fields and
parameters: whatever they are, the model calls them as the source does.
-/

namespace Xeibe.Reproject.Select

open Xeibe.Geom (F64)

/-! ## CRSs -/

/-- A map projection of longitude and latitude. -/
structure Projection where
  forward : F64 → F64 → Except CoordinateError (F64 × F64)
  inverse : F64 → F64 → Except CoordinateError (F64 × F64)

/-- A geodetic datum. -/
structure Datum where
  key : String
  name : String
  semiMajor : F64
  semiMinor : F64
  primeMeridian : F64

mutual

inductive Kind where
  | geographic (datum : Datum)
  | geocentric (datum : Datum)
  | projected (datum : Datum) (projection : Projection)
  | vertical (datum : String)
  | compound (horizontal vertical : Crs)
  | engineering (datum : String)

structure Crs where
  name : String
  code : Option Nat
  kind : Kind
  axes : Axes
  /-- A full turn in the unit of the longitude axis, for a geographic CRS. -/
  longitudeTurn : Option F64
  /-- A Bound CRS's transformation to its hub: the CRS itself is the base. -/
  bound : Option Bound

/-- The transformation from a base CRS to a hub, by its name and EPSG method
and parameters. -/
structure Bound where
  hub : Crs
  name : String
  method : Nat
  params : List (Nat × F64)

end

namespace Crs

def label (crs : Crs) : String :=
  match crs.code with
  | some code => "EPSG:" ++ toString code
  | none => crs.name

def dimension (crs : Crs) : Nat := crs.axes.dimension

def withoutBound (crs : Crs) : Crs := { crs with bound := none }

/-- The horizontal part of a compound CRS, or the CRS itself. -/
def horizontal (crs : Crs) : Crs :=
  match crs.kind with
  | .compound horizontal _ => horizontal
  | _ => crs

def datum : Crs → Option Datum
  | ⟨_, _, .geographic datum, _, _, _⟩ => some datum
  | ⟨_, _, .geocentric datum, _, _, _⟩ => some datum
  | ⟨_, _, .projected datum _, _, _, _⟩ => some datum
  | ⟨_, _, .compound horizontal _, _, _, _⟩ => datum horizontal
  | ⟨_, _, .vertical _, _, _, _⟩ => none
  | ⟨_, _, .engineering _, _, _, _⟩ => none

def isGeographic (crs : Crs) : Bool :=
  match crs.kind with
  | .geographic _ => true
  | _ => false

def isGeocentric (crs : Crs) : Bool :=
  match crs.kind with
  | .geocentric _ => true
  | _ => false

def isVertical (crs : Crs) : Bool :=
  match crs.kind with
  | .vertical _ => true
  | _ => false

def isEngineering (crs : Crs) : Bool :=
  match crs.kind with
  | .engineering _ => true
  | _ => false

/-- What the conversion of a coordinate reads of a CRS. -/
def frame (crs : Crs) : Reproject.Crs :=
  { label := crs.label, axes := crs.axes, longitudeTurn := crs.longitudeTurn }

end Crs

/-! ## Geographic coordinates -/

/-- The platform's arithmetic, and the formulas of the ellipsoid that are made
of it. -/
structure Arithmetic where
  sin : F64 → F64
  floor : F64 → F64
  /-- `%`. -/
  rem : F64 → F64 → F64
  geodetic : Triple → Datum → Triple
  cartesian : Triple → Datum → Triple

section Geographic

variable (arithmetic : Arithmetic)

/-- `LAT_LIMIT`: half a turn of latitude plus PROJ's tolerance. -/
def latLimit : F64 := ⟨0x3ff921fb54443eb0⟩

/-- Reject latitudes beyond the poles and longitudes beyond ±10 radians; clamp
latitudes that overshoot by rounding. -/
def checkGeographic (v : Triple) : Except CoordinateError Triple :=
  if latLimit < v.y.abs ∨ F64.ofUsize 10 < v.x.abs then
    .error .invalidGeographic
  else
    .ok { v with y := v.y.clamp (-F64.fracPi2) F64.fracPi2 }

def adjlon (lon : F64) : F64 :=
  -- A slight overshoot is let be, against sign switching at the date line.
  if lon.abs < ⟨0x400921fb544435e4⟩ then
    lon
  else
    let turn := F64.ofUsize 2 * F64.pi
    let lon := lon + F64.pi
    lon - turn * arithmetic.floor (lon / turn) - F64.pi

/-- A CRS's internal coordinates to geographic ones on its datum. -/
def toGeographic : Crs → Triple → Except CoordinateError Triple
  | ⟨_, _, .geographic _, _, _, _⟩, internal => checkGeographic internal
  | ⟨_, _, .projected _ projection, _, _, _⟩, internal => do
    let (lon, lat) ← projection.inverse internal.x internal.y
    if lon.isFinite && lat.isFinite then
      .ok ⟨adjlon arithmetic lon, lat, internal.z⟩
    else
      .error .outsideDomain
  | ⟨_, _, .geocentric datum, _, _, _⟩, internal => .ok (arithmetic.geodetic internal datum)
  | ⟨_, _, .compound horizontal _, _, _, _⟩, internal => toGeographic horizontal internal
  | ⟨_, _, .vertical _, _, _, _⟩, internal => .ok internal
  | ⟨_, _, .engineering _, _, _, _⟩, _ => .error .outsideDomain

/-- The reverse of `toGeographic`. -/
def fromGeographic : Crs → Triple → Except CoordinateError Triple
  | ⟨_, _, .geographic _, _, _, _⟩, geographic => .ok geographic
  | ⟨_, _, .projected _ projection, _, _, _⟩, geographic => do
    let v ← checkGeographic geographic
    let (e, n) ← projection.forward v.x v.y
    if e.isFinite && n.isFinite then
      .ok ⟨e, n, v.z⟩
    else
      .error .outsideDomain
  | ⟨_, _, .geocentric datum, _, _, _⟩, geographic => do
    let v ← checkGeographic geographic
    .ok (arithmetic.cartesian v datum)
  | ⟨_, _, .compound horizontal _, _, _, _⟩, geographic => fromGeographic horizontal geographic
  | ⟨_, _, .vertical _, _, _, _⟩, geographic => .ok geographic
  | ⟨_, _, .engineering _, _, _, _⟩, _ => .error .outsideDomain

/-- Internal coordinates of one CRS to another on the same datum: through
geographic coordinates, or in the plane of a local grid. -/
def onOneDatum (src dst : Crs) (internal : Triple) : Except CoordinateError Triple :=
  if src.isEngineering then
    .ok internal
  else do
    fromGeographic arithmetic dst (← toGeographic arithmetic src internal)

end Geographic

/-! ## Running the steps -/

/-- An operation between two CRSs, set up. -/
structure Method where
  forward : Triple → Except CoordinateError Triple
  inverse : Triple → Except CoordinateError Triple
  forward3d : Triple → Except CoordinateError Triple
  inverse3d : Triple → Except CoordinateError Triple
  /-- The height comes back as it went in. -/
  keepsHeight : Bool
  isIdentity : Bool
  gridFiles : List String

/-- What a step does to the height. -/
inductive Height where
  | kept
  | changed
  /-- A datum shift that models the ellipsoidal height. -/
  | ellipsoidal
deriving DecidableEq

/-- One step of a runnable pipeline. -/
inductive Exec where
  | convert (target : Crs)
  | saveHorizontal
  | restoreHorizontal
  | apply (method : Method) (source target : Crs) (inverse : Bool) (height : Height)

/-- Whether the height is kept, run on `input`'s coordinates with the height
now ellipsoidal or not. -/
def Height.keeps (height : Height) (input : Crs) (ellipsoidal : Bool) : Bool :=
  match height with
  | .kept => true
  | .changed => false
  | .ellipsoidal => input.horizontal.isGeographic && !ellipsoidal

/-- Whether the next operation is one that keeps the height: past conversions
between geographic CRSs, which add no step. -/
def nextKeepsHeight (ellipsoidal : Bool) : List Exec → Bool
  | [] => false
  | .convert target :: rest => target.isGeographic && nextKeepsHeight ellipsoidal rest
  | .apply _ source target inverse height :: _ =>
    height.keeps (if inverse then target else source) ellipsoidal
  | .saveHorizontal :: _ => false
  | .restoreHorizontal :: _ => false

/-- What `run` goes on with from step to step. -/
structure Running where
  cur : Crs
  c : Triple
  /-- The height saved while a run of operations that keep it is under way. -/
  saved : Option F64
  /-- Horizontal positions put aside, with their CRS. -/
  horizontal : List ((F64 × F64) × Crs)
  ellipsoidal : Bool

section Run

variable (arithmetic : Arithmetic)

/-- One operation, with `rest` the steps after it. -/
def Running.apply (r : Running) (rest : List Exec) (method : Method) (source target : Crs)
    (inverse : Bool) (height : Height) : Except CoordinateError Running := do
  let input := if inverse then target else source
  let output := if inverse then source else target
  let keepsHeight := height.keeps input r.ellipsoidal
  let c ← if input.isVertical then .ok r.c else onOneDatum arithmetic r.cur input r.c
  let saved := if keepsHeight then some (r.saved.getD c.z) else r.saved
  let c ← if inverse then method.inverse3d c else method.forward3d c
  let put := keepsHeight && !nextKeepsHeight r.ellipsoidal rest
  let c := if put then { c with z := saved.getD c.z } else c
  let saved := if put then none else saved
  if c.allFinite then
    .ok { r with
      cur := if output.isVertical then r.cur else output
      c := c
      saved := saved
      ellipsoidal :=
        if output.isVertical then false else if input.isVertical then true else r.ellipsoidal }
  else
    .error .outsideDomain

/-- One step, with `rest` the steps after it. -/
def Running.step (r : Running) (rest : List Exec) : Exec → Except CoordinateError Running
  | .saveHorizontal => .ok { r with horizontal := ((r.c.x, r.c.y), r.cur) :: r.horizontal }
  | .restoreHorizontal =>
    match r.horizontal with
    | [] => .ok r
    | (xy, crs) :: horizontal => do
      -- The height went on through the CRSs since: it is carried back first.
      let back ← onOneDatum arithmetic r.cur crs r.c
      .ok { r with c := ⟨xy.1, xy.2, back.z⟩, cur := crs, horizontal := horizontal }
  | .convert target =>
    if target.isVertical then
      .ok r
    else do
      .ok { r with c := ← onOneDatum arithmetic r.cur target r.c, cur := target }
  | .apply method source target inverse height =>
    r.apply arithmetic rest method source target inverse height

def Running.steps (r : Running) : List Exec → Except CoordinateError Running
  | [] => .ok r
  | step :: rest => do (← r.step arithmetic rest step).steps rest

/-- The steps of an operation, from the source's internal coordinates to the
target's. -/
def run (steps : List Exec) (src dst : Crs) (internal : Triple) :
    Except CoordinateError Triple :=
  if steps.isEmpty then
    onOneDatum arithmetic src dst internal
  else do
    let ellipsoidal := decide (src.dimension = 3) && (src.isGeographic || src.isGeocentric)
    let r ← (Running.mk src internal none [] ellipsoidal).steps arithmetic steps
    onOneDatum arithmetic r.cur dst r.c

end Run

end Xeibe.Reproject.Select

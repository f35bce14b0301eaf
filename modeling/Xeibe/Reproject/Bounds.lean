import Xeibe.Reproject.Transform

/-!
# Bounding boxes, converted by densifying their edges

`convert_bounds`: the points it converts, the handling of the antimeridian and
the poles for geographic output, and the outermost values it takes.
-/

namespace Xeibe.Reproject

open Xeibe.Geom (F64)

/-- `[min_x, min_y, max_x, max_y]`. -/
structure Bounds where
  xmin : F64
  ymin : F64
  xmax : F64
  ymax : F64
deriving DecidableEq, Repr

namespace Transform

/-! ## The conversion as `convert_bounds` sees it -/

/-- A full turn in the input's and the output's angular unit, for each side
that is geographic. -/
def turns (t : Transform) : Option F64 × Option F64 :=
  (t.source.longitudeTurn, t.target.longitudeTurn)

/-- Whether a CRS's coordinates come longitude first in the transform's order. -/
def lonFirst (order : AxisOrder) (crs : Crs) : Bool :=
  order = .eastFirst || !crs.axes.firstIsNorthing

/-- Whether the input and the output come longitude first. -/
def longitudeFirst (t : Transform) : Bool × Bool :=
  (lonFirst t.order t.source, lonFirst t.order t.target)

/-- One point, or `none` when it fails. -/
def point (t : Transform) (x y : F64) : StateM (List (F64 × F64)) (Option (F64 × F64)) := do
  let out ← (t.ask ⟨x, y, none⟩).run
  match out with
  | .ok c => pure (some (c.x, c.y))
  | .error _ => pure none

end Transform

/-! ## The points of a densified box -/

/-- The steps along the edges: how many on each, and how long in x and y. -/
structure Steps where
  sidePts : Nat
  deltaX : F64
  deltaY : F64
deriving DecidableEq, Repr

/-- The steps of a box, or the message for a box whose latitudes are the wrong
way round.  A geographic source box may cross the antimeridian. -/
def Bounds.steps (inputTurn : Option F64) (inputLonFirst : Bool) (b : Bounds) (densify : Nat) :
    Except String Steps := do
  let degreeInput := inputTurn.isSome
  let inputLonLatOrder := degreeInput && inputLonFirst
  let sidePts := densify + 1
  let turnIn := inputTurn.getD (F64.ofUsize 360)
  let deltaX ←
    if degreeInput && b.xmax < b.xmin then
      if !inputLonLatOrder then
        throw "latitude max < latitude min"
      else
        pure ((b.xmax - b.xmin + turnIn) / F64.ofUsize sidePts)
    else
      pure ((b.xmax - b.xmin) / F64.ofUsize sidePts)
  let deltaY ←
    if degreeInput && b.ymax < b.ymin then
      if inputLonLatOrder then
        throw "latitude max < latitude min"
      else
        pure ((b.ymax - b.ymin + turnIn) / F64.ofUsize sidePts)
    else
      pure ((b.ymax - b.ymin) / F64.ofUsize sidePts)
  pure { sidePts, deltaX, deltaY }

/-- The densified box as a linear ring: the antimeridian logic needs it. -/
def Bounds.ring (b : Bounds) (s : Steps) : List (F64 × F64) :=
  let side := (List.range s.sidePts).map F64.ofUsize
  side.map (fun f => (b.xmin, b.ymax - f * s.deltaY)) ++
    side.map (fun f => (b.xmin + f * s.deltaX, b.ymin)) ++
    side.map (fun f => (b.xmax, b.ymin + f * s.deltaY)) ++
    side.map (fun f => (b.xmax - f * s.deltaX, b.ymax))

/-- Points inside the box, for extremes that are not on its edges. -/
def Bounds.inside (b : Bounds) (s : Steps) : List (F64 × F64) :=
  (List.range' 1 (s.sidePts - 1 - 1)).flatMap fun j =>
    (List.range s.sidePts).map fun i =>
      (b.xmin + F64.ofUsize i * s.deltaX, b.ymin + F64.ofUsize j * s.deltaY)

/-! ## The outermost values -/

/-- Smallest value; failed points are +inf and never win. -/
def simpleMin (data : List F64) : F64 := data.foldl F64.min F64.infinity

/-- Largest value, skipping failed points. -/
def simpleMax (data : List F64) : F64 :=
  (data.filter (· ≠ F64.infinity)).foldl F64.max F64.negInfinity

/-- Index of the nearest earlier point that converted, wrapping around. -/
def previousIndex (i : Nat) (data : List F64) : Nat :=
  let n := data.length
  let rec back : Nat → Nat → Nat
    | 0, prev => prev
    | left + 1, prev =>
      if data.getD prev F64.zero = F64.infinity ∧ prev ≠ i then
        back left ((prev + n - 1) % n)
      else
        prev
  back n ((i + n - 1) % n)

/-- What the search for an outermost longitude keeps: the outermost value of
the side it may have crossed to, of all values, the crossings so far, and
whether it is on that side. -/
structure Meridian where
  sideValue : F64
  value : F64
  crossed : Nat
  onSide : Bool
deriving DecidableEq, Repr

/-- The jump from the point before: `some true` from 180 to -180, `some false`
from -180 to 180, `none` where neighbours are near. -/
def crossing (threshold : F64) (i : Nat) (data : List F64) (value : F64) : Option Bool :=
  let delta := data.getD (previousIndex i data) F64.zero - value
  if threshold ≤ delta ∧ delta ≠ F64.infinity then some true
  else if delta ≤ -threshold ∧ delta ≠ F64.infinity then some false
  else none

/-- The first crossing decides what the side starts with: the value it is at
where it goes `enter`s the side, the outermost value so far where it leaves. -/
def Meridian.cross (m : Meridian) (enter : Bool) (value : F64) : Option Bool → Meridian
  | none => m
  | some way =>
    let first := if way = enter then value else m.value
    ⟨if m.crossed = 0 then first else m.sideValue, m.value, m.crossed + 1, way = enter⟩

/-- The outermost values with one more, `further` saying which of two is. -/
def Meridian.take (m : Meridian) (further : F64 → F64 → Bool) (value : F64) : Meridian :=
  ⟨if m.onSide && further value m.sideValue then value else m.sideValue,
    if further value m.value then value else m.value, m.crossed, m.onSide⟩

/-- The outermost longitude of a ring that may cross the antimeridian.  A jump
of more than `threshold` between neighbours is a crossing; two crossings mean
that it is on the side that `enter` goes to, four that the ring spans every
longitude. -/
def antimeridianOutermost (enter : Bool) (further : F64 → F64 → Bool) (worst all : F64)
    (data : List F64) (threshold : F64) : F64 :=
  let step (m : Meridian) (entry : F64 × Nat) : Meridian :=
    if entry.1 = F64.infinity then m
    else (m.cross enter entry.1 (crossing threshold entry.2 data entry.1)).take further entry.1
  let last := data.zipIdx.foldl step ⟨worst, worst, 0, false⟩
  if last.crossed = 2 then last.sideValue
  else if last.crossed = 4 then all
  else last.value

/-- Minimum longitude of a ring that may cross the antimeridian: on the
positive side after two crossings. -/
def antimeridianMin (data : List F64) (threshold half : F64) : F64 :=
  antimeridianOutermost false (fun a b => a < b) F64.infinity (-half) data threshold

/-- Maximum longitude of a ring that may cross the antimeridian; see
`antimeridianMin`. -/
def antimeridianMax (data : List F64) (threshold half : F64) : F64 :=
  antimeridianOutermost true (fun a b => b < a) F64.negInfinity half data threshold

/-! ## The conversion -/

namespace Transform

/-- Whether a pole of the target, the north one at `lat`, lies in the box. -/
def contains (t : Transform) (b : Bounds) (outputLonLatOrder : Bool) (lat : F64) : Bool :=
  let (px, py) := if outputLonLatOrder then (F64.zero, lat) else (lat, F64.zero)
  match t.reverse with
  | none => false
  | some reverse =>
    match reverse px py with
    | some (x, y) => b.xmin < x && x < b.xmax && y < b.ymax && b.ymin < y
    | none => false

/-- Convert each position; those that fail, or come out infinite, are `none`. -/
def points (t : Transform) (positions : List (F64 × F64)) :
    StateM (List (F64 × F64)) (List (Option (F64 × F64))) :=
  positions.mapM fun p => do
    let out ← t.point p.1 p.2
    pure (out.filter fun c => c.1.isFinite && c.2.isFinite)

/-- The box of the converted ring. -/
def ringBounds (outputTurn : Option F64) (outputLonLatOrder northPole southPole : Bool)
    (ring : List (F64 × F64)) : Bounds × Bool :=
  let degreeOutput := outputTurn.isSome
  let turnOut := outputTurn.getD (F64.ofUsize 360)
  -- Longitude first for the antimeridian logic.
  let ring := if degreeOutput && !outputLonLatOrder then ring.map Prod.swap else ring
  let xs := ring.map (·.1)
  let ys := ring.map (·.2)
  let half := turnOut / F64.ofUsize 2
  let quarter := turnOut / F64.ofUsize 4
  let (out, crossedAntimeridian) : Bounds × Bool :=
    if !degreeOutput then
      (⟨simpleMin xs, simpleMin ys, simpleMax xs, simpleMax ys⟩, false)
    else if northPole then
      (⟨-half, simpleMin ys, half, quarter⟩, false)
    else if southPole then
      (⟨-half, -quarter, half, simpleMax ys⟩, false)
    else
      let threshold := turnOut * F64.ofUsize 200 / F64.ofUsize 360
      let lo := antimeridianMin xs threshold half
      let hi := antimeridianMax xs threshold half
      (⟨lo, simpleMin ys, hi, simpleMax ys⟩, hi < lo)
  -- Back to the CRS's axis order.
  if degreeOutput && !outputLonLatOrder then
    (⟨out.ymin, out.xmin, out.ymax, out.xmax⟩, crossedAntimeridian)
  else
    (out, crossedAntimeridian)

/-- A box that reaches out to a converted point inside. -/
def widen (out : Bounds) : Option (F64 × F64) → Bounds
  | some (x, y) =>
    ⟨out.xmin.min x, out.ymin.min y, out.xmax.max x, out.ymax.max y⟩
  | none => out

/-- Convert a bounding box by converting `densify` extra points along each edge
(and, unless the result crosses the antimeridian, a grid inside) and taking the
outermost values.  Points that fail to convert are skipped; the box is an error
only when none converts. -/
def convertBounds (t : Transform) (b : Bounds) (densify : Nat) : Asking Error Bounds := do
  let (inputTurn, outputTurn) := t.turns
  let degreeOutput := outputTurn.isSome
  let invalid (message : String) : Error := .projjson t.source.label message
  if degreeOutput && densify < 2 then
    throw (invalid "densify must be at least 2 when the output is geographic")
  let (inputLonFirst, outputLonFirst) := t.longitudeFirst
  let outputLonLatOrder := degreeOutput && outputLonFirst
  let quarter := outputTurn.getD (F64.ofUsize 360) / F64.ofUsize 4
  let northPole := degreeOutput && t.contains b outputLonLatOrder quarter
  let southPole := degreeOutput && t.contains b outputLonLatOrder (-quarter)
  let steps ← (b.steps inputTurn inputLonFirst densify).mapError invalid
  let ring ← t.points (b.ring steps)
  if ring.all Option.isNone then
    throw (invalid "no point of the bounding box could be converted")
  let (out, crossedAntimeridian) := ringBounds outputTurn outputLonLatOrder northPole southPole
    (ring.map (·.getD (F64.infinity, F64.infinity)))
  if crossedAntimeridian then
    pure out
  else do
    let inside ← t.points (b.inside steps)
    pure (inside.foldl widen out)

end Transform

end Xeibe.Reproject

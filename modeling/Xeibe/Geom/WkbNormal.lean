import Xeibe.Geom.Wkb

/-!
# What WKB keeps of a geometry

The format has one dimension for the whole geometry, whole positions only, no
mark for an empty point but NaN ordinates, and a list of rings for a polygon.
`normalised` is the geometry with no more than that: positions padded with NaN
or truncated to the dimension, an ordinate that completes no position dropped,
a point of NaNs empty, the first ring the exterior and no computed marks.

`counts` lists every number the format gives 32 bits.
-/

namespace Xeibe.Geom

/-- A position padded with NaN or truncated to `dim`. -/
def fit (dim : Dim) (position : List F64) : List F64 :=
  (List.range dim.size).map fun k => position.getD k F64.nan

@[simp] theorem fit_length (dim : Dim) (position : List F64) :
    (fit dim position).length = dim.size := by
  simp [fit]

theorem fit_of_length {dim : Dim} {position : List F64} (h : position.length = dim.size) :
    fit dim position = position := by
  apply List.ext_getElem (by rw [fit_length, h])
  intro k hk hk'
  simp [fit, hk']

/-! ## The geometry that is kept -/

def Coords.normalised (dim : Dim) (coords : Coords) : Coords :=
  { dim := some dim, values := (coords.positions.map (fit dim)).flatten }

def Point.normalised (dim : Dim) (point : Point) : Point :=
  let values := fit dim (point.coord.getD [])
  { coord := if values.all F64.isNan then none else some values }

def LineString.normalised (dim : Dim) (line : LineString) : LineString :=
  { coords := line.coords.normalised dim }

def CircularString.normalised (dim : Dim) (arc : CircularString) : CircularString :=
  { coords := arc.coords.normalised dim, computed := [] }

def CurvePart.normalised (dim : Dim) : CurvePart → CurvePart
  | .linear line => .linear (line.normalised dim)
  | .circular arc => .circular (arc.normalised dim)

def CompoundCurve.normalised (dim : Dim) (curve : CompoundCurve) : CompoundCurve :=
  { parts := curve.parts.map (·.normalised dim) }

def Curve.normalised (dim : Dim) : Curve → Curve
  | .linear line => .linear (line.normalised dim)
  | .circular arc => .circular (arc.normalised dim)
  | .compound curve => .compound (curve.normalised dim)

def Polygon.normalised (dim : Dim) (polygon : Polygon) : Polygon :=
  let rings := polygon.rings.map (·.normalised dim)
  { exterior := rings.head?, interiors := rings.tail }

def CurvePolygon.normalised (dim : Dim) (polygon : CurvePolygon) : CurvePolygon :=
  let rings := polygon.rings.map (·.normalised dim)
  { exterior := rings.head?, interiors := rings.tail }

def Surface.normalised (dim : Dim) : Surface → Surface
  | .polygon surface => .polygon (surface.normalised dim)
  | .curvePolygon surface => .curvePolygon (surface.normalised dim)

namespace Geometry

mutual

def normalised (dim : Dim) : Geometry → Geometry
  | .point position => .point (position.normalised dim)
  | .lineString line => .lineString (line.normalised dim)
  | .polygon surface => .polygon (surface.normalised dim)
  | .multiPoint points => .multiPoint (points.map (·.normalised dim))
  | .multiLineString lines => .multiLineString (lines.map (·.normalised dim))
  | .multiPolygon polygons => .multiPolygon (polygons.map (·.normalised dim))
  | .geometryCollection members => .geometryCollection (normalisedMembers dim members)
  | .circularString arc => .circularString (arc.normalised dim)
  | .compoundCurve curve => .compoundCurve (curve.normalised dim)
  | .curvePolygon surface => .curvePolygon (surface.normalised dim)
  | .multiCurve curves => .multiCurve (curves.map (·.normalised dim))
  | .multiSurface surfaces => .multiSurface (surfaces.map (·.normalised dim))

/-- The members of a collection. -/
def normalisedMembers (dim : Dim) : List Geometry → List Geometry
  | [] => []
  | member :: rest => normalised dim member :: normalisedMembers dim rest

end

theorem normalisedMembers_eq_map (dim : Dim) (members : List Geometry) :
    normalisedMembers dim members = members.map (normalised dim) := by
  induction members with
  | nil => rfl
  | cons member rest ih => rw [normalisedMembers, ih, List.map_cons]

end Geometry

/-! ## Normalising twice -/

/-! ## Counts -/

def LineString.counts (line : LineString) : List Nat := [line.coords.len]

def CircularString.counts (arc : CircularString) : List Nat := [arc.coords.len]

def CurvePart.counts (part : CurvePart) : List Nat := [part.coords.len]

def CompoundCurve.counts (curve : CompoundCurve) : List Nat :=
  curve.parts.length :: curve.parts.flatMap CurvePart.counts

def Curve.counts : Curve → List Nat
  | .linear line => line.counts
  | .circular arc => arc.counts
  | .compound curve => curve.counts

def Polygon.counts (polygon : Polygon) : List Nat :=
  polygon.rings.length :: polygon.rings.flatMap LineString.counts

def CurvePolygon.counts (polygon : CurvePolygon) : List Nat :=
  polygon.rings.length :: polygon.rings.flatMap Curve.counts

def Surface.counts : Surface → List Nat
  | .polygon surface => surface.counts
  | .curvePolygon surface => surface.counts

namespace Geometry

mutual

/-- The number of positions, rings, parts and members, at every level. -/
def counts : Geometry → List Nat
  | .point _ => []
  | .lineString line => line.counts
  | .polygon surface => surface.counts
  | .multiPoint points => [points.length]
  | .multiLineString lines => lines.length :: lines.flatMap LineString.counts
  | .multiPolygon polygons => polygons.length :: polygons.flatMap Polygon.counts
  | .geometryCollection members => members.length :: countsOfMembers members
  | .circularString arc => arc.counts
  | .compoundCurve curve => curve.counts
  | .curvePolygon surface => surface.counts
  | .multiCurve curves => curves.length :: curves.flatMap Curve.counts
  | .multiSurface surfaces => surfaces.length :: surfaces.flatMap Surface.counts

/-- The counts in the members of a collection. -/
def countsOfMembers : List Geometry → List Nat
  | [] => []
  | member :: rest => counts member ++ countsOfMembers rest

end

theorem countsOfMembers_eq_flatMap (members : List Geometry) :
    countsOfMembers members = members.flatMap counts := by
  induction members with
  | nil => rfl
  | cons member rest ih => rw [countsOfMembers, ih, List.flatMap_cons]

end Geometry

end Xeibe.Geom

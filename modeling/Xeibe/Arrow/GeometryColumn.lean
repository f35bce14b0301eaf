import Xeibe.Geom.Simplify

/-!
# What a geometry column takes

`GeometrySpec::prepare` brings a parsed geometry into its column's form: simple
types for every column but WKB, and the dimension of the column.  The builders of
native columns then look at it through `geo-traits`, which has no curve types.
-/

namespace Xeibe.Arrow

open Geom
open Geom.Geometry (Run)

/-! ## Visiting the coordinates -/

section

variable (onCoords : Coords → Coords) (onPoint : Point → Point)

def visitLine (line : LineString) : LineString := ⟨onCoords line.coords⟩

def visitArc (arc : CircularString) : CircularString :=
  { arc with coords := onCoords arc.coords }

def visitPart : CurvePart → CurvePart
  | .linear line => .linear (visitLine onCoords line)
  | .circular arc => .circular (visitArc onCoords arc)

def visitCompound (curve : CompoundCurve) : CompoundCurve :=
  ⟨curve.parts.map (visitPart onCoords)⟩

def visitCurve : Curve → Curve
  | .linear line => .linear (visitLine onCoords line)
  | .circular arc => .circular (visitArc onCoords arc)
  | .compound curve => .compound (visitCompound onCoords curve)

def visitPolygon (polygon : Polygon) : Polygon where
  exterior := polygon.exterior.map (visitLine onCoords)
  interiors := polygon.interiors.map (visitLine onCoords)

def visitCurvePolygon (polygon : CurvePolygon) : CurvePolygon where
  exterior := polygon.exterior.map (visitCurve onCoords)
  interiors := polygon.interiors.map (visitCurve onCoords)

def visitSurface : Surface → Surface
  | .polygon surface => .polygon (visitPolygon onCoords surface)
  | .curvePolygon surface => .curvePolygon (visitCurvePolygon onCoords surface)

mutual

/-- `on_coords` at every coordinate sequence, `on_point` at every point. -/
def visitCoords : Geometry → Geometry
  | .point position => .point (onPoint position)
  | .lineString line => .lineString (visitLine onCoords line)
  | .polygon surface => .polygon (visitPolygon onCoords surface)
  | .multiPoint points => .multiPoint (points.map onPoint)
  | .multiLineString lines => .multiLineString (lines.map (visitLine onCoords))
  | .multiPolygon polygons => .multiPolygon (polygons.map (visitPolygon onCoords))
  | .geometryCollection members => .geometryCollection (visitAll members)
  | .circularString arc => .circularString (visitArc onCoords arc)
  | .compoundCurve curve => .compoundCurve (visitCompound onCoords curve)
  | .curvePolygon surface => .curvePolygon (visitCurvePolygon onCoords surface)
  | .multiCurve curves => .multiCurve (curves.map (visitCurve onCoords))
  | .multiSurface surfaces => .multiSurface (surfaces.map (visitSurface onCoords))

def visitAll : List Geometry → List Geometry
  | [] => []
  | member :: rest => visitCoords member :: visitAll rest

end

theorem visitAll_eq_map (members : List Geometry) :
    visitAll onCoords onPoint members = members.map (visitCoords onCoords onPoint) := by
  induction members with
  | nil => rfl
  | cons member rest ih => rw [visitAll, ih, List.map_cons]

theorem isCurveType_visitCoords (geometry : Geometry) :
    (visitCoords onCoords onPoint geometry).isCurveType = geometry.isCurveType := by
  cases geometry <;> rfl

theorem members_visitCoords (geometry : Geometry) :
    (visitCoords onCoords onPoint geometry).members =
      geometry.members.map (visitCoords onCoords onPoint) := by
  cases geometry with
  | geometryCollection members => exact visitAll_eq_map onCoords onPoint members
  | _ => rfl

theorem curveFree_visitCoords (geometry : Geometry) :
    (visitCoords onCoords onPoint geometry).CurveFree ↔ geometry.CurveFree := by
  induction geometry using Geometry.memberInduction with
  | step geometry ih =>
    rw [Geometry.curveFree_iff, isCurveType_visitCoords, members_visitCoords, List.forall_mem_map,
      @Geometry.curveFree_iff geometry]
    exact and_congr_right fun _ => forall₂_congr ih

end

/-- A sequence in another dimension: Z dropped, or NaN for it. -/
def forceCoords (dim : Dim) (coords : Coords) : Coords :=
  match coords.dim with
  | none => coords
  | some source =>
    if source = dim then
      coords
    else
      ⟨some dim, ((chunksExact source.size coords.values).map (resize dim.size)).flatten⟩

def forcePoint (dim : Dim) (point : Point) : Point := ⟨point.coord.map (resize dim.size)⟩

/-- Drop Z, or add a NaN Z to 2D positions. -/
def forceDim (geometry : Geometry) (dim : Dim) : Geometry :=
  visitCoords (forceCoords dim) (forcePoint dim) geometry

/-! ## The column -/

/-- What a geometry column holds. -/
inductive GeometryKind where
  | point
  | lineString
  | polygon
  | multiPoint
  | multiLineString
  | multiPolygon
  /-- Any simple-feature geometry. -/
  | mixed
  /-- Anything, curves included. -/
  | wkb
deriving DecidableEq, Repr

structure GeometrySpec where
  kind : GeometryKind
  /-- `none`: each geometry keeps its own dimension. -/
  dim : Option Dim
deriving DecidableEq, Repr

namespace GeometrySpec

def acceptsKind (spec : GeometrySpec) (geometry : Geometry) : Bool :=
  match spec.kind, geometry with
  | .wkb, _ | .mixed, _ => true
  | .point, .point _ => true
  | .lineString, .lineString _ => true
  | .polygon, .polygon _ => true
  | .multiPoint, .point _ | .multiPoint, .multiPoint _ => true
  | .multiLineString, .lineString _ | .multiLineString, .multiLineString _ => true
  | .multiPolygon, .polygon _ | .multiPolygon, .multiPolygon _ => true
  | _, _ => false

/-- The second half of `prepare`: the column's dimension. -/
def prepareDim (spec : GeometrySpec) (geometry : Geometry) : Except Geometry Geometry :=
  match spec.dim with
  | some .xy =>
    if geometry.dim.any (· ≠ .xy) then .error geometry else .ok (forceDim geometry .xy)
  | some .xyz => .ok (forceDim geometry .xyz)
  | none => .ok geometry

/-- Bring a parsed geometry into the column's form; an error gives it back. -/
def prepare (spec : GeometrySpec) (geometry : Geometry) : Except Geometry Geometry :=
  if spec.kind = .wkb then
    spec.prepareDim geometry
  else
    let geometry := geometry.simplifyTypes
    if !geometry.isSimple || !spec.acceptsKind geometry then
      .error geometry
    else
      spec.prepareDim geometry

theorem curveFree_of_prepareDim {spec : GeometrySpec} {geometry prepared : Geometry}
    (h : spec.prepareDim geometry = .ok prepared) (hfree : geometry.CurveFree) :
    prepared.CurveFree := by
  unfold prepareDim at h
  split at h
  · split at h
    · cases h
    · cases h
      exact (curveFree_visitCoords _ _ geometry).mpr hfree
  · cases h
    exact (curveFree_visitCoords _ _ geometry).mpr hfree
  · cases h
    exact hfree

theorem viewable_of_prepare {spec : GeometrySpec} {geometry prepared : Geometry}
    (hkind : spec.kind ≠ .wkb) (h : spec.prepare geometry = .ok prepared) :
    prepared.Viewable := by
  rw [prepare, if_neg hkind] at h
  dsimp only at h
  split at h
  · cases h
  · rename_i hok
    have hsimple : geometry.simplifyTypes.isSimple = true := by
      by_contra hcurves
      exact hok (by simp [Bool.eq_false_iff.mpr hcurves])
    rw [Geometry.isSimple_iff, Geometry.simplifyTypes_simplifyTypes] at hsimple
    exact Geometry.viewable_iff.mpr (curveFree_of_prepareDim h hsimple)

end GeometrySpec

/-! ## Simplification as a whole -/

/-- What is asked of `simplify_types` at a geometry. -/
structure SoundlySimplified (geometry : Geometry) : Prop where
  idempotent : geometry.simplifyTypes.simplifyTypes = geometry.simplifyTypes
  positions : geometry.simplifyTypes.stored = geometry.sharedOnce
  dimension : geometry.simplifyTypes.dim = geometry.dim
  simple : geometry.isSimple = true ↔ geometry.simplifyTypes.CurveFree
  viewable : ∀ (spec : GeometrySpec) prepared, spec.kind ≠ .wkb →
    spec.prepare geometry = .ok prepared → prepared.Viewable

/-- Simplification is sound where a geometry has a Z exactly if one of its runs leads
with one. -/
theorem simplify_types_sound_iff {geometry : Geometry} (h : geometry.Flat) :
    SoundlySimplified geometry ↔
      (geometry.dim = some .xyz ↔ ∃ run ∈ geometry.runs, run.leadsWithZ = true) := by
  constructor
  · intro hsound
    exact (Geometry.dim_simplifyTypes_iff h).mp hsound.dimension
  · intro hleads
    exact
      { idempotent := Geometry.simplifyTypes_simplifyTypes geometry
        positions := Geometry.stored_simplifyTypes h
        dimension := (Geometry.dim_simplifyTypes_iff h).mpr hleads
        simple := Geometry.isSimple_iff geometry
        viewable := fun _ _ hkind hprepared =>
          GeometrySpec.viewable_of_prepare hkind hprepared }

def mixedCurve : Geometry :=
  .compoundCurve ⟨[.linear ⟨⟨some .xy, [⟨0⟩, ⟨0⟩, ⟨1⟩, ⟨1⟩]⟩⟩,
    .linear ⟨⟨some .xyz, [⟨1⟩, ⟨1⟩, ⟨5⟩, ⟨2⟩, ⟨2⟩, ⟨5⟩]⟩⟩]⟩

def spatialCurve : Geometry :=
  .compoundCurve ⟨[.linear ⟨⟨some .xyz, [⟨0⟩, ⟨0⟩, ⟨5⟩, ⟨1⟩, ⟨1⟩, ⟨5⟩]⟩⟩,
    .linear ⟨⟨some .xy, [⟨1⟩, ⟨1⟩, ⟨2⟩, ⟨2⟩]⟩⟩]⟩

theorem Coords.flat_of_dim {dim : Dim} {values : List F64} (h : values.length % dim.size = 0) :
    (Coords.mk (some dim) values).Flat :=
  ⟨nofun, h⟩

theorem mixedCurve_flat : mixedCurve.Flat := by
  intro run hrun
  obtain rfl := List.mem_singleton.mp hrun
  intro part hpart
  rcases List.mem_pair.mp hpart with rfl | rfl <;> exact Coords.flat_of_dim rfl

theorem spatialCurve_flat : spatialCurve.Flat := by
  intro run hrun
  obtain rfl := List.mem_singleton.mp hrun
  intro part hpart
  rcases List.mem_pair.mp hpart with rfl | rfl <;> exact Coords.flat_of_dim rfl

/-- A 3D line behind a 2D one loses its Z. -/
theorem mixed_parts_lose_z : mixedCurve.Flat ∧ ¬ SoundlySimplified mixedCurve := by
  refine ⟨mixedCurve_flat, fun hsound => ?_⟩
  have hdim : mixedCurve.simplifyTypes.dim = mixedCurve.dim := hsound.dimension
  revert hdim
  decide

theorem simplify_types_sound_iff_spatialCurve : SoundlySimplified spatialCurve :=
  (simplify_types_sound_iff spatialCurve_flat).mpr
    ⟨fun _ => ⟨_, List.mem_singleton_self _, by decide⟩, fun _ => by decide⟩

end Xeibe.Arrow

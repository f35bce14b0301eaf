import Mathlib.Logic.Relation
import Xeibe.Geom.Joined

/-!
# Simple types

`Geometry::simplify_types` and what a native column is handed
(`GeometrySpec::prepare`).  A geometry is seen as its runs: the sequences that
become one sequence when its curve types are converted.
-/

namespace Xeibe.Geom

def CurvePart.isLinear : CurvePart → Bool
  | .linear _ => true
  | .circular _ => false

namespace CompoundCurve

def isLinear (curve : CompoundCurve) : Bool := curve.parts.all CurvePart.isLinear

def intoLinear (curve : CompoundCurve) : Option LineString :=
  if !curve.isLinear then none else some ⟨Coords.join (curve.parts.map CurvePart.coords)⟩

end CompoundCurve

/-- `LineString::default()`. -/
def LineString.empty : LineString := ⟨⟨none, []⟩⟩

/-- `Polygon::default()`. -/
def Polygon.empty : Polygon := ⟨none, []⟩

namespace Curve

def isLinear : Curve → Bool
  | .linear _ => true
  | .circular _ => false
  | .compound curve => curve.isLinear

/-- The curve as one line string, if it has no arcs. -/
def intoLinear : Curve → Option LineString
  | .linear line => some line
  | .circular _ => none
  | .compound curve => curve.intoLinear

end Curve

namespace CurvePolygon

def isLinear (polygon : CurvePolygon) : Bool := polygon.rings.all Curve.isLinear

/-- The polygon with linear rings, if no ring has an arc. -/
def intoLinear (polygon : CurvePolygon) : Except CurvePolygon Polygon :=
  if !polygon.isLinear then
    .error polygon
  else
    let ring := fun (curve : Curve) => curve.intoLinear.getD .empty
    .ok { exterior := polygon.exterior.map ring, interiors := polygon.interiors.map ring }

end CurvePolygon

namespace Surface

def isLinear : Surface → Bool
  | .polygon _ => true
  | .curvePolygon surface => surface.isLinear

def intoLinear : Surface → Except Surface Polygon
  | .polygon surface => .ok surface
  | .curvePolygon surface => surface.intoLinear.mapError .curvePolygon

end Surface

namespace Geometry

mutual

/-- No curve parts anywhere.  A curve-free curve type counts as simple. -/
def isSimple : Geometry → Bool
  | .point _ | .lineString _ | .polygon _ => true
  | .multiPoint _ | .multiLineString _ | .multiPolygon _ => true
  | .geometryCollection members => allSimple members
  | .circularString _ => false
  | .compoundCurve curve => curve.isLinear
  | .curvePolygon surface => surface.isLinear
  | .multiCurve curves => curves.all Curve.isLinear
  | .multiSurface surfaces => surfaces.all Surface.isLinear

def allSimple : List Geometry → Bool
  | [] => true
  | member :: rest => isSimple member && allSimple rest

end

mutual

/-- Curve-free curve types become their simple equivalents. -/
def simplifyTypes : Geometry → Geometry
  | .compoundCurve curve =>
    if curve.isLinear then .lineString (curve.intoLinear.getD .empty) else .compoundCurve curve
  | .curvePolygon surface =>
    match surface.intoLinear with
    | .ok surface => .polygon surface
    | .error surface => .curvePolygon surface
  | .multiCurve curves =>
    if curves.all Curve.isLinear then
      .multiLineString (curves.map fun curve => curve.intoLinear.getD .empty)
    else
      .multiCurve curves
  | .multiSurface surfaces =>
    if surfaces.all Surface.isLinear then
      .multiPolygon (surfaces.map fun surface => surface.intoLinear.toOption.getD .empty)
    else
      .multiSurface surfaces
  | .geometryCollection members => .geometryCollection (simplifyAll members)
  | other => other

def simplifyAll : List Geometry → List Geometry
  | [] => []
  | member :: rest => simplifyTypes member :: simplifyAll rest

end

theorem allSimple_iff (members : List Geometry) :
    allSimple members = true ↔ ∀ member ∈ members, member.isSimple = true := by
  induction members with
  | nil => simp [allSimple]
  | cons member rest ih => simp [allSimple, ih]

theorem simplifyAll_eq_map (members : List Geometry) :
    simplifyAll members = members.map simplifyTypes := by
  induction members with
  | nil => rfl
  | cons member rest ih => rw [simplifyAll, ih, List.map_cons]

/-! ## The view of the simple types -/

/-- The kinds that `geo_traits::GeometryType` has for the model. -/
inductive GeometryType where
  | point (point : Point)
  | lineString (line : LineString)
  | polygon (polygon : Polygon)
  | multiPoint (points : List Point)
  | multiLineString (lines : List LineString)
  | multiPolygon (polygons : List Polygon)
  | geometryCollection (members : List Geometry)

/-- `none`: the code panics. -/
def geometryAsType : Geometry → Option GeometryType
  | .point g => some (.point g)
  | .lineString g => some (.lineString g)
  | .polygon g => some (.polygon g)
  | .multiPoint g => some (.multiPoint g)
  | .multiLineString g => some (.multiLineString g)
  | .multiPolygon g => some (.multiPolygon g)
  | .geometryCollection g => some (.geometryCollection g)
  | _ => none

/-- A kind that only ISO WKB has. -/
def isCurveType : Geometry → Bool
  | .circularString _ | .compoundCurve _ | .curvePolygon _ => true
  | .multiCurve _ | .multiSurface _ => true
  | _ => false

/-- `part` is the geometry or a member of it, at any depth. -/
def Within (geometry part : Geometry) : Prop :=
  Relation.ReflTransGen (fun g member => member ∈ g.members) geometry part

theorem within_iff {geometry part : Geometry} :
    Within geometry part ↔ part = geometry ∨ ∃ member ∈ geometry.members, Within member part := by
  rw [Within, Relation.ReflTransGen.cases_head_iff, eq_comm]
  rfl

/-- No curve type at any depth. -/
def CurveFree (geometry : Geometry) : Prop :=
  ∀ part, Within geometry part → part.isCurveType = false

/-- The view can be taken of the geometry and of what a walk through it finds. -/
def Viewable (geometry : Geometry) : Prop :=
  ∀ part, Within geometry part → part.geometryAsType.isSome = true

theorem geometryAsType_isSome (geometry : Geometry) :
    geometry.geometryAsType.isSome = !geometry.isCurveType := by
  cases geometry <;> rfl

theorem viewable_iff {geometry : Geometry} : geometry.Viewable ↔ geometry.CurveFree := by
  simp [Viewable, CurveFree, geometryAsType_isSome]

theorem curveFree_iff {geometry : Geometry} : geometry.CurveFree ↔
    geometry.isCurveType = false ∧ ∀ member ∈ geometry.members, member.CurveFree := by
  constructor
  · intro h
    exact ⟨h _ .refl, fun member hmember part hpart =>
      h part (within_iff.mpr (.inr ⟨member, hmember, hpart⟩))⟩
  · rintro ⟨hself, hmembers⟩ part hpart
    rcases within_iff.mp hpart with rfl | ⟨member, hmember, hpart⟩
    · exact hself
    · exact hmembers member hmember part hpart

/-! ## Where nothing is left to convert -/

theorem simplifyTypes_members (geometry : Geometry) :
    geometry.simplifyTypes.members = geometry.members.map simplifyTypes := by
  cases geometry with
  | geometryCollection members =>
    rw [simplifyTypes]
    exact simplifyAll_eq_map members
  | curvePolygon surface =>
    rw [simplifyTypes]
    split <;> rfl
  | compoundCurve | multiCurve | multiSurface =>
    rw [simplifyTypes]
    split <;> rfl
  | _ => rfl

/-- The types at the top are what `is_simple` looks at. -/
theorem isCurveType_simplifyTypes (geometry : Geometry) (h : geometry.members = []) :
    geometry.simplifyTypes.isCurveType = !geometry.isSimple := by
  cases geometry with
  | geometryCollection members =>
    have hempty : members = [] := h
    rw [hempty]
    rfl
  | curvePolygon surface =>
    rw [simplifyTypes, isSimple, CurvePolygon.intoLinear]
    cases surface.isLinear <;> rfl
  | compoundCurve curve =>
    rw [simplifyTypes, isSimple]
    cases curve.isLinear <;> rfl
  | multiCurve curves =>
    rw [simplifyTypes, isSimple]
    cases curves.all Curve.isLinear <;> rfl
  | multiSurface surfaces =>
    rw [simplifyTypes, isSimple]
    cases surfaces.all Surface.isLinear <;> rfl
  | _ => rfl

theorem isSimple_iff (geometry : Geometry) :
    geometry.isSimple = true ↔ geometry.simplifyTypes.CurveFree := by
  induction geometry using memberInduction with
  | step geometry ih =>
    rw [curveFree_iff, simplifyTypes_members]
    cases geometry with
    | geometryCollection members =>
      have hmembers : (∀ member ∈ members, member.isSimple = true) ↔
          ∀ member ∈ members.map simplifyTypes, member.CurveFree := by
        rw [List.forall_mem_map]
        exact forall₂_congr ih
      rw [isSimple, allSimple_iff, hmembers]
      exact ⟨fun h => ⟨rfl, h⟩, And.right⟩
    | _ =>
      rw [isCurveType_simplifyTypes _ rfl]
      simp [members]

theorem simplifyTypes_simplifyTypes (geometry : Geometry) :
    geometry.simplifyTypes.simplifyTypes = geometry.simplifyTypes := by
  induction geometry using memberInduction with
  | step geometry ih =>
    cases geometry with
    | geometryCollection members =>
      rw [simplifyTypes, simplifyTypes, simplifyAll_eq_map, simplifyAll_eq_map, List.map_map]
      exact congrArg geometryCollection (List.map_congr_left ih)
    | compoundCurve curve =>
      rw [simplifyTypes]
      split
      · rfl
      · rename_i h
        rw [simplifyTypes, if_neg h]
    | curvePolygon surface =>
      cases h : surface.isLinear <;> simp [simplifyTypes, CurvePolygon.intoLinear, h]
    | multiCurve curves =>
      rw [simplifyTypes]
      split
      · rfl
      · rename_i h
        rw [simplifyTypes, if_neg h]
    | multiSurface surfaces =>
      rw [simplifyTypes]
      split
      · rfl
      · rename_i h
        rw [simplifyTypes, if_neg h]
    | _ => rfl

/-! ## Runs -/

/-- A point, or the sequences that become one. -/
inductive Run where
  | point (point : Point)
  | sequence (parts : List Coords)
deriving Repr

namespace Run

/-- One sequence by itself. -/
def line (line : LineString) : Run := .sequence [line.coords]

/-- The parts taken together. -/
def joined : Run → Run
  | .point position => .point position
  | .sequence parts => .sequence [Coords.join parts]

def dim : Run → Option Dim
  | .point position => position.dim
  | .sequence parts => maxDim (parts.map Coords.nonEmptyDim)

/-- The planar positions of each sequence as it is stored. -/
def stored : Run → List (List (List F64))
  | .point position => [position.coord.toList.map xy]
  | .sequence parts => parts.map Coords.xys

/-- The planar positions in order, what two parts share once. -/
def sharedOnce : Run → List (List F64)
  | .point position => position.coord.toList.map xy
  | .sequence parts => Coords.joinedXys parts

/-- There is an ordinate, and the first part of a known dimension is 3D. -/
def leadsWithZ : Run → Bool
  | .point position => position.dim == some .xyz
  | .sequence parts =>
    parts.findSome? Coords.dim == some .xyz && !parts.all Coords.isEmpty

def Flat : Run → Prop
  | .point _ => True
  | .sequence parts => ∀ part ∈ parts, part.Flat

end Run

end Geometry

/-- The curve as one run. -/
def Curve.run : Curve → Geometry.Run
  | .linear line => .sequence [line.coords]
  | .circular arc => .sequence [arc.coords]
  | .compound curve => .sequence (curve.parts.map CurvePart.coords)

def CompoundCurve.runs (curve : CompoundCurve) : List Geometry.Run :=
  curve.parts.map fun part => .sequence [part.coords]

/-- The parts of the curve as runs of their own. -/
def Curve.runs : Curve → List Geometry.Run
  | .linear line => [.sequence [line.coords]]
  | .circular arc => [.sequence [arc.coords]]
  | .compound curve => curve.runs

def Polygon.runs (polygon : Polygon) : List Geometry.Run := polygon.rings.map Geometry.Run.line

def CurvePolygon.runs (polygon : CurvePolygon) (together : Bool) : List Geometry.Run :=
  if together then polygon.rings.map Curve.run else polygon.rings.flatMap Curve.runs

def Surface.runs (together : Bool) : Surface → List Geometry.Run
  | .polygon surface => surface.runs
  | .curvePolygon surface => surface.runs together

namespace Geometry

mutual

/-- The runs of a geometry, in order: the parts of a compound curve belong together
where it stands in a geometry without arcs, otherwise each is a run. -/
def runs : Geometry → List Run
  | .point position => [.point position]
  | .lineString line => [.line line]
  | .polygon surface => surface.runs
  | .multiPoint points => points.map .point
  | .multiLineString lines => lines.map .line
  | .multiPolygon polygons => polygons.flatMap Polygon.runs
  | .geometryCollection members => allRuns members
  | .circularString arc => [.sequence [arc.coords]]
  | .compoundCurve curve => if curve.isLinear then [Curve.run (.compound curve)] else curve.runs
  | .curvePolygon surface => surface.runs surface.isLinear
  | .multiCurve curves =>
    if curves.all Curve.isLinear then curves.map Curve.run else curves.flatMap Curve.runs
  | .multiSurface surfaces => surfaces.flatMap (Surface.runs (surfaces.all Surface.isLinear))

def allRuns : List Geometry → List Run
  | [] => []
  | member :: rest => runs member ++ allRuns rest

end

theorem allRuns_eq_flatMap (members : List Geometry) : allRuns members = members.flatMap runs := by
  induction members with
  | nil => rfl
  | cons member rest ih => rw [allRuns, ih, List.flatMap_cons]

/-! ### What simplification makes of a run -/

namespace Run

@[simp] theorem joined_sequence (part : Coords) :
    joined (.sequence [part]) = .sequence [part] := by
  rw [joined, Coords.join_singleton]

theorem joined_line (line : LineString) : (Run.line line).joined = Run.line line :=
  joined_sequence line.coords

theorem map_joined {runs : List Run} (h : ∀ run ∈ runs, run.joined = run) :
    runs.map joined = runs :=
  (List.map_congr_left h).trans (List.map_id _)

theorem map_joined_lines (lines : List LineString) :
    (lines.map Run.line).map joined = lines.map Run.line :=
  map_joined <| List.forall_mem_map.mpr fun line _ => joined_line line

end Run

end Geometry

open Geometry (Run)

theorem CompoundCurve.joined_of_mem_runs {curve : CompoundCurve} {run : Run}
    (h : run ∈ curve.runs) : run.joined = run := by
  obtain ⟨part, _, rfl⟩ := List.mem_map.mp h
  exact Run.joined_sequence part.coords

theorem Curve.joined_of_mem_runs {curve : Curve} {run : Run} (h : run ∈ curve.runs) :
    run.joined = run := by
  cases curve with
  | compound curve => exact curve.joined_of_mem_runs h
  | linear | circular =>
    obtain rfl := List.mem_singleton.mp h
    exact Run.joined_sequence _

theorem Polygon.joined_of_mem_runs {polygon : Polygon} {run : Run} (h : run ∈ polygon.runs) :
    run.joined = run := by
  obtain ⟨ring, _, rfl⟩ := List.mem_map.mp h
  exact Run.joined_line ring

theorem CurvePolygon.joined_of_mem_runs {polygon : CurvePolygon} {run : Run}
    (h : run ∈ polygon.runs false) : run.joined = run := by
  obtain ⟨ring, _, hrun⟩ := List.mem_flatMap.mp h
  exact ring.joined_of_mem_runs hrun

theorem Surface.joined_of_mem_runs {surface : Surface} {run : Run}
    (h : run ∈ surface.runs false) : run.joined = run := by
  cases surface with
  | polygon surface => exact surface.joined_of_mem_runs h
  | curvePolygon surface => exact surface.joined_of_mem_runs h

theorem Curve.line_intoLinear {curve : Curve} (h : curve.isLinear = true) :
    Run.line (curve.intoLinear.getD .empty) = curve.run.joined := by
  cases curve with
  | linear line => exact (Run.joined_line line).symm
  | circular arc => cases h
  | compound curve =>
    have hlinear : curve.isLinear = true := h
    simp [intoLinear, CompoundCurve.intoLinear, hlinear, Run.line, run, Run.joined]

theorem Curve.lines_intoLinear {curves : List Curve} (h : ∀ curve ∈ curves, curve.isLinear = true) :
    (curves.map fun curve => Run.line (curve.intoLinear.getD .empty)) =
      (curves.map Curve.run).map Run.joined := by
  rw [List.map_map]
  exact List.map_congr_left fun curve hcurve => Curve.line_intoLinear (h curve hcurve)

theorem CurvePolygon.intoLinear_of_isLinear {polygon : CurvePolygon}
    (h : polygon.isLinear = true) : ∃ simple, polygon.intoLinear = .ok simple ∧
      simple.runs = (polygon.runs true).map Run.joined := by
  refine ⟨_, by rw [intoLinear, h]; rfl, ?_⟩
  have hrings := Curve.lines_intoLinear (List.all_eq_true.mp h)
  rw [runs, if_pos rfl, ← hrings, Polygon.runs, Polygon.rings, rings]
  cases polygon.exterior <;> simp

theorem Surface.intoLinear_of_isLinear {surface : Surface} (h : surface.isLinear = true) :
    (surface.intoLinear.toOption.getD .empty).runs = (surface.runs true).map Run.joined := by
  cases surface with
  | polygon surface =>
    exact (Run.map_joined fun _ => surface.joined_of_mem_runs).symm
  | curvePolygon surface =>
    obtain ⟨simple, hsimple, hruns⟩ := surface.intoLinear_of_isLinear h
    rw [intoLinear, hsimple]
    exact hruns

namespace Geometry

theorem runs_simplifyTypes (geometry : Geometry) :
    geometry.simplifyTypes.runs = geometry.runs.map Run.joined := by
  induction geometry using memberInduction with
  | step geometry ih =>
    cases geometry with
    | point | multiPoint points =>
      simp [simplifyTypes, runs, Run.joined]
    | lineString line => simp [simplifyTypes, runs, Run.joined_line]
    | polygon surface =>
      exact (Run.map_joined fun _ => surface.joined_of_mem_runs).symm
    | multiLineString lines => exact (Run.map_joined_lines lines).symm
    | multiPolygon polygons =>
      refine (Run.map_joined fun run hrun => ?_).symm
      obtain ⟨surface, _, hrun⟩ := List.mem_flatMap.mp hrun
      exact surface.joined_of_mem_runs hrun
    | geometryCollection members =>
      rw [simplifyTypes, runs, runs, simplifyAll_eq_map, allRuns_eq_flatMap, allRuns_eq_flatMap,
        List.flatMap_map, List.map_flatMap]
      exact List.flatMap_congr ih
    | circularString arc => simp [simplifyTypes, runs]
    | compoundCurve curve =>
      rw [simplifyTypes, runs]
      split
      · rename_i h
        exact congrArg List.singleton (@Curve.line_intoLinear (.compound curve) h)
      · rename_i h
        rw [runs, if_neg h, Run.map_joined fun _ => curve.joined_of_mem_runs]
    | curvePolygon surface =>
      cases h : surface.isLinear with
      | false =>
        rw [simplifyTypes, CurvePolygon.intoLinear, h, runs, h]
        show runs (.curvePolygon surface) = _
        rw [runs, h, Run.map_joined fun _ => surface.joined_of_mem_runs]
      | true =>
        obtain ⟨simple, hsimple, hruns⟩ := surface.intoLinear_of_isLinear h
        rw [simplifyTypes, hsimple]
        show simple.runs = (surface.runs surface.isLinear).map Run.joined
        rw [h, hruns]
    | multiCurve curves =>
      rw [simplifyTypes, runs]
      split
      · rename_i h
        rw [← Curve.lines_intoLinear (List.all_eq_true.mp h), runs, List.map_map]
        rfl
      · rename_i h
        rw [runs, if_neg h, Run.map_joined]
        intro run hrun
        obtain ⟨curve, _, hrun⟩ := List.mem_flatMap.mp hrun
        exact curve.joined_of_mem_runs hrun
    | multiSurface surfaces =>
      rw [simplifyTypes, runs]
      split
      · rename_i h
        rw [runs, h, List.flatMap_map, List.map_flatMap]
        exact List.flatMap_congr fun surface hsurface =>
          Surface.intoLinear_of_isLinear (List.all_eq_true.mp h surface hsurface)
      · rename_i h
        rw [runs, Bool.eq_false_iff.mpr h, Run.map_joined]
        intro run hrun
        obtain ⟨surface, _, hrun⟩ := List.mem_flatMap.mp hrun
        exact surface.joined_of_mem_runs hrun

/-! ### The dimension -/

end Geometry

theorem maxDim_eq_none {dims : List (Option Dim)} :
    maxDim dims = none ↔ ∀ dim ∈ dims, dim = none := by
  induction dims with
  | nil => simp [maxDim]
  | cons dim rest ih =>
    rcases dim with _ | _ | _ <;> simp [maxDim, ih]

theorem maxDim_eq_xyz {dims : List (Option Dim)} :
    maxDim dims = some .xyz ↔ some .xyz ∈ dims := by
  induction dims with
  | nil => simp [maxDim]
  | cons dim rest ih =>
    rcases dim with _ | _ | _
    · simp [maxDim, ih]
    · rw [List.mem_cons, ← ih]
      rcases h : maxDim rest with _ | _ | _ <;> simp [maxDim, h]
    · simp [maxDim]

theorem dim_ext {a b : Option Dim} (hnone : a = none ↔ b = none)
    (hxyz : a = some .xyz ↔ b = some .xyz) : a = b := by
  rcases a with _ | _ | _ <;> rcases b with _ | _ | _ <;> simp_all

theorem maxDim_singleton (dim : Option Dim) : maxDim [dim] = dim := by
  rcases dim with _ | _ | _ <;> rfl

theorem maxDim_flatMap {α : Type} (f : α → List (Option Dim)) (values : List α) :
    maxDim (values.flatMap f) = maxDim (values.map fun value => maxDim (f value)) := by
  refine dim_ext ?_ ?_
  · rw [maxDim_eq_none, maxDim_eq_none, List.forall_mem_flatMap, List.forall_mem_map]
    exact forall₂_congr fun _ _ => maxDim_eq_none.symm
  · simp only [maxDim_eq_xyz, List.mem_flatMap, List.mem_map]

namespace Geometry

theorem Run.dim_sequence (part : Coords) : (Run.sequence [part]).dim = part.nonEmptyDim :=
  maxDim_singleton _

theorem Run.dim_line (line : LineString) : (Run.line line).dim = line.coords.nonEmptyDim :=
  Run.dim_sequence line.coords

end Geometry

theorem CompoundCurve.dim_runs (curve : CompoundCurve) :
    maxDim (curve.runs.map Run.dim) = curve.dim := by
  rw [runs, List.map_map, dim]
  exact congrArg maxDim (List.map_congr_left fun part _ => Run.dim_sequence part.coords)

theorem Curve.dim_runs (curve : Curve) : maxDim (curve.runs.map Run.dim) = curve.dim := by
  cases curve with
  | compound curve => exact curve.dim_runs
  | linear | circular => exact (maxDim_singleton _).trans (Run.dim_sequence _)

theorem Curve.dim_run (curve : Curve) : curve.run.dim = curve.dim := by
  cases curve with
  | compound curve => simp [run, Run.dim, dim, CompoundCurve.dim, Function.comp_def]
  | linear | circular => exact Run.dim_sequence _

theorem Polygon.dim_runs (polygon : Polygon) : maxDim (polygon.runs.map Run.dim) = polygon.dim := by
  rw [runs, List.map_map, dim]
  exact congrArg maxDim (List.map_congr_left fun ring _ => Run.dim_line ring)

theorem Curve.dim_runs_of_list (curves : List Curve) (together : Bool) :
    maxDim ((if together then curves.map Curve.run else curves.flatMap Curve.runs).map Run.dim) =
      maxDim (curves.map Curve.dim) := by
  cases together with
  | true =>
    rw [if_pos rfl, List.map_map]
    exact congrArg maxDim (List.map_congr_left fun curve _ => curve.dim_run)
  | false =>
    rw [if_neg Bool.false_ne_true, List.map_flatMap, maxDim_flatMap]
    exact congrArg maxDim (List.map_congr_left fun curve _ => curve.dim_runs)

theorem Surface.dim_runs (surface : Surface) (together : Bool) :
    maxDim ((surface.runs together).map Run.dim) = surface.dim := by
  cases surface with
  | polygon surface => exact surface.dim_runs
  | curvePolygon surface => exact Curve.dim_runs_of_list surface.rings together

namespace Geometry

/-- The dimension is that of the runs. -/
theorem dim_runs (geometry : Geometry) :
    maxDim (geometry.runs.map Run.dim) = geometry.dim := by
  induction geometry using memberInduction with
  | step geometry ih =>
    cases geometry with
    | point position => exact maxDim_singleton _
    | multiPoint points => simp [runs, dim, Function.comp_def, Run.dim]
    | lineString line => exact (maxDim_singleton _).trans (Run.dim_line line)
    | circularString arc => exact (maxDim_singleton _).trans (Run.dim_sequence arc.coords)
    | polygon surface => exact surface.dim_runs
    | multiLineString lines =>
      rw [runs, dim, List.map_map]
      exact congrArg maxDim (List.map_congr_left fun line _ => Run.dim_line line)
    | multiPolygon polygons =>
      rw [runs, dim, List.map_flatMap, maxDim_flatMap]
      exact congrArg maxDim (List.map_congr_left fun surface _ => surface.dim_runs)
    | geometryCollection members =>
      rw [runs, dim, allRuns_eq_flatMap, dims_eq_map, List.map_flatMap, maxDim_flatMap]
      exact congrArg maxDim (List.map_congr_left ih)
    | compoundCurve curve =>
      rw [runs, dim]
      split
      · exact (maxDim_singleton _).trans (Curve.dim_run _)
      · exact curve.dim_runs
    | curvePolygon surface => exact Curve.dim_runs_of_list surface.rings surface.isLinear
    | multiCurve curves => exact Curve.dim_runs_of_list curves _
    | multiSurface surfaces =>
      rw [runs, dim, List.map_flatMap, maxDim_flatMap]
      exact congrArg maxDim (List.map_congr_left fun surface _ => surface.dim_runs _)

end Geometry

theorem Coords.Flat.nonEmptyDim_eq_none {coords : Coords} (h : coords.Flat) :
    coords.nonEmptyDim = none ↔ coords.isEmpty = true := by
  cases hdim : coords.dim with
  | none => simp [nonEmptyDim, isEmpty, hdim, h.known hdim]
  | some dim => simp [nonEmptyDim, hdim]

namespace Geometry

namespace Run

variable {run : Run}

theorem dim_joined_eq_none (h : run.Flat) : run.joined.dim = none ↔ run.dim = none := by
  cases run with
  | point position => rfl
  | sequence parts =>
    have hparts : (∀ part ∈ parts, part.nonEmptyDim = none) ↔ ∀ part ∈ parts, part.isEmpty = true :=
      forall₂_congr fun part hpart => (h part hpart).nonEmptyDim_eq_none
    rw [joined, dim_sequence, (Coords.flat_join h).nonEmptyDim_eq_none, Coords.isEmpty_join h,
      List.all_eq_true, dim, maxDim_eq_none, List.forall_mem_map, hparts]

theorem dim_joined_eq_xyz (h : run.Flat) :
    run.joined.dim = some .xyz ↔ run.leadsWithZ = true := by
  cases run with
  | point position => simp [joined, dim, leadsWithZ]
  | sequence parts =>
    rw [joined, dim_sequence, Coords.nonEmptyDim, Coords.join_dim h, Coords.isEmpty_join h]
    simp [leadsWithZ, Option.filter_eq_some_iff]

end Run

/-- The sequences are flat. -/
def Flat (geometry : Geometry) : Prop := ∀ run ∈ geometry.runs, run.Flat

/-- The planar positions of every sequence, in order. -/
def stored (geometry : Geometry) : List (List (List F64)) := geometry.runs.flatMap Run.stored

/-- The planar positions of every run, in order, what two parts of it share once. -/
def sharedOnce (geometry : Geometry) : List (List (List F64)) := geometry.runs.map Run.sharedOnce

theorem stored_simplifyTypes {geometry : Geometry} (h : geometry.Flat) :
    geometry.simplifyTypes.stored = geometry.sharedOnce := by
  rw [stored, runs_simplifyTypes, List.flatMap_map, sharedOnce, List.map_eq_flatMap]
  refine List.flatMap_congr fun run hrun => ?_
  cases run with
  | point position => rfl
  | sequence parts => exact congrArg List.singleton (Coords.xys_join (h _ hrun))

theorem dim_simplifyTypes_iff {geometry : Geometry} (h : geometry.Flat) :
    geometry.simplifyTypes.dim = geometry.dim ↔
      (geometry.dim = some .xyz ↔ ∃ run ∈ geometry.runs, run.leadsWithZ = true) := by
  have hnone : geometry.simplifyTypes.dim = none ↔ geometry.dim = none := by
    rw [← dim_runs, ← dim_runs, runs_simplifyTypes, maxDim_eq_none, maxDim_eq_none, List.map_map,
      List.forall_mem_map, List.forall_mem_map]
    exact forall₂_congr fun run hrun => Run.dim_joined_eq_none (h run hrun)
  have hxyz : geometry.simplifyTypes.dim = some .xyz ↔
      ∃ run ∈ geometry.runs, run.leadsWithZ = true := by
    rw [← dim_runs, runs_simplifyTypes, maxDim_eq_xyz, List.map_map, List.mem_map]
    exact exists_congr fun run => and_congr_right fun hrun => Run.dim_joined_eq_xyz (h run hrun)
  rw [← hxyz]
  constructor
  · intro heq
    rw [heq]
  · intro hiff
    exact dim_ext hnone hiff.symm

end Geometry

end Xeibe.Geom

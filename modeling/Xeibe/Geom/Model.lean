import Mathlib.Data.List.Basic
import Mathlib.Data.List.Induction
import Mathlib.Tactic.Cases

/-!
# The geometry model

Every geometry that is read from GML and written to a column, with its curves.
Coordinates are flat and interleaved; a part keeps the dimension it was read
in, and `Geometry.dim` is the largest of them.

An ordinate is kept as the bits of its `f64`: nothing here computes with it,
and two NaNs with different bits are different values to a format that stores
them.
-/

namespace Xeibe.Geom

/-- An IEEE 754 double, as its bits. -/
structure F64 where
  bits : UInt64
deriving DecidableEq, Repr, Inhabited

namespace F64

/-- `f64::NAN`. -/
def nan : F64 := ⟨0x7ff8000000000000⟩

/-- All exponent bits set, and a fraction. -/
def isNan (value : F64) : Bool :=
  value.bits &&& 0x7fffffffffffffff > 0x7ff0000000000000

end F64

inductive Dim where
  | xy
  | xyz
deriving DecidableEq, Repr

namespace Dim

def size : Dim → Nat
  | .xy => 2
  | .xyz => 3

theorem size_pos (dim : Dim) : 0 < dim.size := by
  cases dim <;> decide

/-- The dimension of a position with `n` ordinates (`none` unless 2 or 3). -/
def fromSize : Nat → Option Dim
  | 2 => some .xy
  | 3 => some .xyz
  | _ => none

end Dim

/-- The larger of the known dimensions (mixed 2D and 3D counts as 3D). -/
def maxDim : List (Option Dim) → Option Dim
  | [] => none
  | none :: rest => maxDim rest
  | some .xyz :: _ => some .xyz
  | some .xy :: rest => some ((maxDim rest).getD .xy)

/-- `chunks_exact`: the whole pieces of `size` elements, an incomplete last
one left out. -/
def chunksExact {α : Type} (size : Nat) (values : List α) : List (List α) :=
  (List.range (values.length / size)).map fun i => (values.drop (i * size)).take size

theorem chunksExact_flatten {α : Type} (size : Nat) (values : List α) :
    (chunksExact size values).flatten = values.take (values.length / size * size) := by
  unfold chunksExact
  induction values.length / size with
  | zero => simp
  | succ n ih =>
    have hlast : values.take (n * size) ++ (values.drop (n * size)).take size =
        values.take ((n + 1) * size) := by
      rw [Nat.succ_mul, List.take_add]
    simp [List.range_succ, ih, hlast]

theorem length_of_mem_chunksExact {α : Type} {size : Nat} {values chunk : List α}
    (h : chunk ∈ chunksExact size values) : chunk.length = size := by
  obtain ⟨i, hi, rfl⟩ := List.mem_map.1 h
  have hi : i < values.length / size := List.mem_range.1 hi
  have hend : (i + 1) * size ≤ values.length :=
    Nat.le_trans (Nat.mul_le_mul_right size hi) (Nat.div_mul_le_self _ _)
  rw [Nat.succ_mul] at hend
  simp only [List.length_take, List.length_drop]
  omega

/-- The pieces a list is put together from, when they are all of one size. -/
theorem chunksExact_of_flatten {α : Type} {size : Nat} (hsize : 0 < size) {chunks : List (List α)}
    (h : ∀ chunk ∈ chunks, chunk.length = size) : chunksExact size chunks.flatten = chunks := by
  have hlength : chunks.flatten.length = chunks.length * size := by
    rw [List.length_flatten, List.map_congr_left h, List.map_const', List.sum_replicate_nat]
  unfold chunksExact
  rw [hlength, Nat.mul_div_cancel _ hsize]
  clear hlength
  induction chunks with
  | nil => rfl
  | cons chunk rest ih =>
    have hchunk : chunk.length = size := h chunk (by simp)
    have hrest := ih fun piece hpiece => h piece (List.mem_cons_of_mem _ hpiece)
    rw [List.length_cons, List.range_succ_eq_map, List.map_cons, List.map_map]
    congr 1
    · simp [← hchunk]
    · calc _ = (List.range rest.length).map fun i => (rest.flatten.drop (i * size)).take size := by
            refine List.map_congr_left fun i _ => ?_
            have hdrop : (i + 1) * size = chunk.length + i * size := by
              rw [hchunk, Nat.succ_mul, Nat.add_comm]
            show ((chunk ++ rest.flatten).drop ((i + 1) * size)).take size = _
            rw [hdrop, List.drop_length_add_append]
        _ = rest := hrest

/-! ## Coordinates -/

/-- A flat, interleaved coordinate sequence. -/
structure Coords where
  dim : Option Dim
  values : List F64
deriving DecidableEq, Repr

namespace Coords

/-- Ordinates per position (2 while the dimension is still unknown). -/
def size (coords : Coords) : Nat := (coords.dim.map Dim.size).getD 2

/-- Number of positions. -/
def len (coords : Coords) : Nat := coords.values.length / coords.size

def isEmpty (coords : Coords) : Bool := coords.values.isEmpty

/-- The positions, an incomplete last one left out. -/
def positions (coords : Coords) : List (List F64) := chunksExact coords.size coords.values

/-- The dimension, if there is an ordinate. -/
def nonEmptyDim (coords : Coords) : Option Dim := coords.dim.filter fun _ => !coords.isEmpty

theorem size_pos (coords : Coords) : 0 < coords.size := by
  unfold size
  cases coords.dim with
  | none => decide
  | some dim => exact dim.size_pos

@[simp] theorem positions_length (coords : Coords) : coords.positions.length = coords.len := by
  simp [positions, chunksExact, len]

end Coords

/-! ## Parts -/

structure Point where
  /-- `none` for an empty point. -/
  coord : Option (List F64)
deriving DecidableEq, Repr

def Point.dim (point : Point) : Option Dim :=
  point.coord.map fun c => if c.length ≥ 3 then .xyz else .xy

structure LineString where
  coords : Coords
deriving DecidableEq, Repr

/-- Three-point circular arcs: `2n + 1` control points. -/
structure CircularString where
  coords : Coords
  /-- Positions computed rather than read. -/
  computed : List Nat
deriving DecidableEq, Repr

inductive CurvePart where
  | linear (line : LineString)
  | circular (arc : CircularString)
deriving DecidableEq, Repr

def CurvePart.coords : CurvePart → Coords
  | .linear line => line.coords
  | .circular arc => arc.coords

/-- Each part starts where the previous one ends. -/
structure CompoundCurve where
  parts : List CurvePart
deriving DecidableEq, Repr

def CompoundCurve.dim (curve : CompoundCurve) : Option Dim :=
  maxDim (curve.parts.map fun part => part.coords.nonEmptyDim)

inductive Curve where
  | linear (line : LineString)
  | circular (arc : CircularString)
  | compound (compound : CompoundCurve)
deriving DecidableEq, Repr

def Curve.dim : Curve → Option Dim
  | .linear line => line.coords.nonEmptyDim
  | .circular arc => arc.coords.nonEmptyDim
  | .compound curve => curve.dim

/-- Linear polygon. -/
structure Polygon where
  exterior : Option LineString
  interiors : List LineString
deriving DecidableEq, Repr

/-- Exterior first, then the interiors. -/
def Polygon.rings (polygon : Polygon) : List LineString :=
  polygon.exterior.toList ++ polygon.interiors

def Polygon.dim (polygon : Polygon) : Option Dim :=
  maxDim (polygon.rings.map fun ring => ring.coords.nonEmptyDim)

structure CurvePolygon where
  exterior : Option Curve
  interiors : List Curve
deriving DecidableEq, Repr

/-- Exterior first, then the interiors. -/
def CurvePolygon.rings (polygon : CurvePolygon) : List Curve :=
  polygon.exterior.toList ++ polygon.interiors

def CurvePolygon.dim (polygon : CurvePolygon) : Option Dim :=
  maxDim (polygon.rings.map Curve.dim)

inductive Surface where
  | polygon (polygon : Polygon)
  | curvePolygon (polygon : CurvePolygon)
deriving DecidableEq, Repr

def Surface.dim : Surface → Option Dim
  | .polygon surface => surface.dim
  | .curvePolygon surface => surface.dim

/-! ## Geometries -/

/-- A parsed geometry in output axis order. -/
inductive Geometry where
  | point (point : Point)
  | lineString (line : LineString)
  | polygon (polygon : Polygon)
  | multiPoint (points : List Point)
  | multiLineString (lines : List LineString)
  | multiPolygon (polygons : List Polygon)
  | geometryCollection (members : List Geometry)
  -- Curve types: only representable as ISO WKB.
  | circularString (arc : CircularString)
  | compoundCurve (curve : CompoundCurve)
  | curvePolygon (polygon : CurvePolygon)
  | multiCurve (curves : List Curve)
  | multiSurface (surfaces : List Surface)
deriving Repr

namespace Geometry

/-- The members of a collection. -/
def members : Geometry → List Geometry
  | .geometryCollection members => members
  | _ => []

theorem memberInduction {P : Geometry → Prop}
    (step : ∀ geometry, (∀ member ∈ geometry.members, P member) → P geometry)
    (geometry : Geometry) : P geometry :=
  @Geometry.rec P (fun members => ∀ member ∈ members, P member)
    (fun _ => step _ nofun) (fun _ => step _ nofun) (fun _ => step _ nofun)
    (fun _ => step _ nofun) (fun _ => step _ nofun) (fun _ => step _ nofun)
    (fun _ ih => step _ ih)
    (fun _ => step _ nofun) (fun _ => step _ nofun) (fun _ => step _ nofun)
    (fun _ => step _ nofun) (fun _ => step _ nofun)
    nofun
    (fun _ _ hhead htail member hmember => by
      rcases List.mem_cons.1 hmember with rfl | hmember
      · exact hhead
      · exact htail member hmember)
    geometry

mutual

/-- Dimension of the coordinates; `none` for an empty geometry.  Parts of
different dimensions give `xyz`. -/
def dim : Geometry → Option Dim
  | .point position => position.dim
  | .lineString line => line.coords.nonEmptyDim
  | .polygon surface => surface.dim
  | .multiPoint points => maxDim (points.map Point.dim)
  | .multiLineString lines => maxDim (lines.map fun line => line.coords.nonEmptyDim)
  | .multiPolygon polygons => maxDim (polygons.map Polygon.dim)
  | .geometryCollection members => maxDim (dims members)
  | .circularString arc => arc.coords.nonEmptyDim
  | .compoundCurve curve => curve.dim
  | .curvePolygon surface => surface.dim
  | .multiCurve curves => maxDim (curves.map Curve.dim)
  | .multiSurface surfaces => maxDim (surfaces.map Surface.dim)

/-- The dimension of each. -/
def dims : List Geometry → List (Option Dim)
  | [] => []
  | member :: rest => dim member :: dims rest

end

theorem dims_eq_map (members : List Geometry) : dims members = members.map dim := by
  induction members with
  | nil => rfl
  | cons member rest ih => rw [dims, ih, List.map_cons]

end Geometry

end Xeibe.Geom

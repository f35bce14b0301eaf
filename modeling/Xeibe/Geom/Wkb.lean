import Mathlib.Data.UInt
import Xeibe.Geom.Model
import Xeibe.Lib.Cursor

/-!
# ISO WKB

The writer, the sizer that mirrors it and the reader, curve types included.

Type codes are ISO: `base + 1000` for Z.  The whole geometry is written in one
dimension, the largest of its parts; 2D positions inside a 3D geometry get a
NaN Z.  An empty point is written with NaN ordinates.

The writer is a function to the bytes it appends; `none` is the panic of a
count that does not fit 32 bits.
-/

namespace Xeibe.Geom.Wkb

open Xeibe.Lib

abbrev Bytes := List UInt8

inductive Endianness where
  | little
  | big
deriving DecidableEq, Repr

/-! ## ISO base type codes -/

def POINT : UInt32 := 1
def LINE_STRING : UInt32 := 2
def POLYGON : UInt32 := 3
def MULTI_POINT : UInt32 := 4
def MULTI_LINE_STRING : UInt32 := 5
def MULTI_POLYGON : UInt32 := 6
def GEOMETRY_COLLECTION : UInt32 := 7
def CIRCULAR_STRING : UInt32 := 8
def COMPOUND_CURVE : UInt32 := 9
def CURVE_POLYGON : UInt32 := 10
def MULTI_CURVE : UInt32 := 11
def MULTI_SURFACE : UInt32 := 12

/-- Byte order and type code. -/
def HEADER : Nat := 1 + 4

def COUNT : Nat := 4

/-! ## Writer -/

structure Writer where
  endianness : Endianness
  dim : Dim

namespace Writer

/-- A number in the byte order of the writer. -/
def ordered (w : Writer) (bytes : Bytes) : Bytes :=
  match w.endianness with
  | .little => bytes
  | .big => bytes.reverse

def u32 (w : Writer) (value : UInt32) : Bytes := w.ordered (littleEndian 4 value.toNat)

def f64 (w : Writer) (value : F64) : Bytes := w.ordered (littleEndian 8 value.bits.toNat)

/-- `expect("WKB counts are 32-bit")`. -/
def count (w : Writer) (n : Nat) : Option Bytes :=
  if n < 2 ^ 32 then some (w.u32 (UInt32.ofNat n)) else none

/-- The byte order mark. -/
def order (w : Writer) : UInt8 :=
  match w.endianness with
  | .little => 1
  | .big => 0

/-- The type code of a base. -/
def code (w : Writer) (base : UInt32) : UInt32 :=
  match w.dim with
  | .xy => base
  | .xyz => base + 1000

def header (w : Writer) (base : UInt32) : Bytes := w.order :: w.u32 (w.code base)

/-- One position, padded with NaN or truncated to our dimension. -/
def position (w : Writer) (values : List F64) : Bytes :=
  (List.range w.dim.size).flatMap fun k => w.f64 (values.getD k F64.nan)

def coords (w : Writer) (coords : Coords) : Option Bytes := do
  let count ← w.count coords.len
  if coords.size = w.dim.size then
    let whole := coords.len * coords.size
    some (count ++ (coords.values.take whole).flatMap w.f64)
  else
    some (count ++ coords.positions.flatMap w.position)

/-- What `item` writes for each, one after the other. -/
def each {α : Type} (item : α → Option Bytes) : List α → Option Bytes
  | [] => some []
  | first :: rest => do
    let bytes ← item first
    let others ← each item rest
    some (bytes ++ others)

/-- A count and the items. -/
def counted {α : Type} (w : Writer) (item : α → Option Bytes) (items : List α) :
    Option Bytes := do
  let count ← w.count items.length
  let bytes ← each item items
  some (count ++ bytes)

/-- A header, a count and the items. -/
def many {α : Type} (w : Writer) (base : UInt32) (item : α → Option Bytes) (items : List α) :
    Option Bytes := do
  let bytes ← w.counted item items
  some (w.header base ++ bytes)

def point (w : Writer) (point : Point) : Bytes :=
  w.header POINT ++
    match point.coord with
    | some values => w.position values
    | none => w.position []

def lineString (w : Writer) (line : LineString) : Option Bytes := do
  let bytes ← w.coords line.coords
  some (w.header LINE_STRING ++ bytes)

def circularString (w : Writer) (arc : CircularString) : Option Bytes := do
  let bytes ← w.coords arc.coords
  some (w.header CIRCULAR_STRING ++ bytes)

def polygon (w : Writer) (polygon : Polygon) : Option Bytes :=
  w.many POLYGON (fun ring => w.coords ring.coords) polygon.rings

def curvePart (w : Writer) : CurvePart → Option Bytes
  | .linear line => w.lineString line
  | .circular arc => w.circularString arc

def compoundCurve (w : Writer) (curve : CompoundCurve) : Option Bytes :=
  w.many COMPOUND_CURVE w.curvePart curve.parts

def curve (w : Writer) : Curve → Option Bytes
  | .linear line => w.lineString line
  | .circular arc => w.circularString arc
  | .compound compound => w.compoundCurve compound

def curvePolygon (w : Writer) (polygon : CurvePolygon) : Option Bytes :=
  w.many CURVE_POLYGON w.curve polygon.rings

def surface (w : Writer) : Surface → Option Bytes
  | .polygon polygon => w.polygon polygon
  | .curvePolygon polygon => w.curvePolygon polygon

mutual

def geometry (w : Writer) : Geometry → Option Bytes
  | .point p => some (w.point p)
  | .lineString line => w.lineString line
  | .polygon p => w.polygon p
  | .multiPoint points => w.many MULTI_POINT (fun p => some (w.point p)) points
  | .multiLineString lines => w.many MULTI_LINE_STRING w.lineString lines
  | .multiPolygon polygons => w.many MULTI_POLYGON w.polygon polygons
  | .geometryCollection members => do
    let count ← w.count members.length
    let bytes ← w.geometries members
    some (w.header GEOMETRY_COLLECTION ++ (count ++ bytes))
  | .circularString arc => w.circularString arc
  | .compoundCurve c => w.compoundCurve c
  | .curvePolygon p => w.curvePolygon p
  | .multiCurve curves => w.many MULTI_CURVE w.curve curves
  | .multiSurface surfaces => w.many MULTI_SURFACE w.surface surfaces

/-- The members of a collection. -/
def geometries (w : Writer) : List Geometry → Option Bytes
  | [] => some []
  | member :: rest => do
    let bytes ← w.geometry member
    let others ← w.geometries rest
    some (bytes ++ others)

end

theorem geometries_eq_each (w : Writer) (members : List Geometry) :
    w.geometries members = each w.geometry members := by
  induction members with
  | nil => rfl
  | cons member rest ih => rw [geometries, ih, each]

theorem geometry_collection (w : Writer) (members : List Geometry) :
    w.geometry (.geometryCollection members) = w.many GEOMETRY_COLLECTION w.geometry members := by
  rw [geometry, geometries_eq_each, many, counted]
  cases w.count members.length with
  | none => rfl
  | some count => cases each w.geometry members <;> rfl

end Writer

def writeWkb (geometry : Geometry) (endianness : Endianness) : Option Bytes :=
  Writer.geometry { endianness, dim := geometry.dim.getD .xy } geometry

/-! ## Sizer -/

/-- Mirrors the writer, counting bytes instead of writing them. -/
structure Sizer where
  /-- Bytes per position. -/
  position : Nat

namespace Sizer

def coords (s : Sizer) (coords : Coords) : Nat := COUNT + coords.len * s.position

def lineString (s : Sizer) (line : LineString) : Nat := HEADER + s.coords line.coords

def polygon (s : Sizer) (polygon : Polygon) : Nat :=
  HEADER + COUNT + (polygon.rings.map fun ring => s.coords ring.coords).sum

def compoundCurve (s : Sizer) (curve : CompoundCurve) : Nat :=
  HEADER + COUNT + (curve.parts.map fun part => HEADER + s.coords part.coords).sum

def curve (s : Sizer) : Curve → Nat
  | .linear line => s.lineString line
  | .circular arc => HEADER + s.coords arc.coords
  | .compound compound => s.compoundCurve compound

def curvePolygon (s : Sizer) (polygon : CurvePolygon) : Nat :=
  HEADER + COUNT + (polygon.rings.map s.curve).sum

def surface (s : Sizer) : Surface → Nat
  | .polygon polygon => s.polygon polygon
  | .curvePolygon polygon => s.curvePolygon polygon

mutual

def geometry (s : Sizer) : Geometry → Nat
  | .point _ => HEADER + s.position
  | .lineString line => s.lineString line
  | .polygon p => s.polygon p
  | .multiPoint points => HEADER + COUNT + points.length * (HEADER + s.position)
  | .multiLineString lines => HEADER + COUNT + (lines.map s.lineString).sum
  | .multiPolygon polygons => HEADER + COUNT + (polygons.map s.polygon).sum
  | .geometryCollection members => HEADER + COUNT + s.geometries members
  | .circularString arc => HEADER + s.coords arc.coords
  | .compoundCurve c => s.compoundCurve c
  | .curvePolygon p => s.curvePolygon p
  | .multiCurve curves => HEADER + COUNT + (curves.map s.curve).sum
  | .multiSurface surfaces => HEADER + COUNT + (surfaces.map s.surface).sum

/-- The members of a collection. -/
def geometries (s : Sizer) : List Geometry → Nat
  | [] => 0
  | member :: rest => s.geometry member + s.geometries rest

end

theorem geometries_eq_sum (s : Sizer) (members : List Geometry) :
    s.geometries members = (members.map s.geometry).sum := by
  induction members with
  | nil => rfl
  | cons member rest ih => rw [geometries, ih, List.map_cons, List.sum_cons]

end Sizer

def wkbSize (geometry : Geometry) : Nat :=
  Sizer.geometry { position := 8 * (geometry.dim.getD .xy).size } geometry

/-! ## Reader -/

/-- EWKB flags in the type code. -/
def EWKB_Z : UInt32 := 0x80000000
def EWKB_M : UInt32 := 0x40000000
def EWKB_SRID : UInt32 := 0x20000000

/-- `usize::MAX`. -/
def usizeMax : Nat := 2 ^ 64 - 1

/-- One geometry's header: its byte order, base type and ordinates. -/
structure Header where
  little : Bool
  base : UInt32
  /-- Ordinates per position as written (2 to 4). -/
  size : Nat
  dim : Dim
deriving DecidableEq, Repr

/-- A read of the geometry's bytes; the error is the message. -/
abbrev Reader (α : Type) := Parser UInt8 String α

namespace Reader

def take (n : Nat) : Reader Bytes := do
  let r ← get
  if r.pos + n ≤ r.input.length then
    set ({ r with pos := r.pos + n } : Cursor UInt8)
    pure (r.left.take n)
  else
    throw s!"truncated at byte {r.pos}"

def u32 (little : Bool) : Reader UInt32 := do
  let bytes ← take 4
  pure (UInt32.ofNat (ofLittleEndian (if little then bytes else bytes.reverse)))

def f64 (little : Bool) : Reader F64 := do
  let bytes ← take 8
  pure ⟨UInt64.ofNat (ofLittleEndian (if little then bytes else bytes.reverse))⟩

/-- A count of items at least `minBytes` long each, checked against the bytes
left so that a corrupt count can't allocate. -/
def count (little : Bool) (minBytes : Nat) : Reader Nat := do
  let n ← u32 little
  let r ← get
  -- saturating_mul
  if min (n.toNat * minBytes) usizeMax > r.left.length then
    throw s!"count {n} at byte {r.pos - 4} exceeds the data"
  pure n.toNat

/-- What a type code says, beside its base: whether there are Z and M
ordinates.  `none` where the thousands are above 3 or the base is no type. -/
def parseCode (code : UInt32) : Option (UInt32 × Bool × Bool) :=
  let z := code &&& EWKB_Z != 0
  let m := code &&& EWKB_M != 0
  let iso := code &&& ~~~(EWKB_Z ||| EWKB_M ||| EWKB_SRID)
  let base := iso % 1000
  let ordinates :=
    match (iso / 1000).toNat with
    | 0 => some (z, m)
    | 1 => some (true, m)
    | 2 => some (z, true)
    | 3 => some (true, true)
    | _ => none
  if POINT ≤ base ∧ base ≤ MULTI_SURFACE then ordinates.map fun zm => (base, zm) else none

/-- Whether the byte order is little endian. -/
def byteOrder : Reader Bool := do
  let order ← take 1
  let r ← get
  match order with
  | [0] => pure false
  | [1] => pure true
  | other => throw s!"byte order {other.headD 0} at byte {r.pos - 1}"

/-- The header whose type code is read; an SRID is skipped. -/
def headerBody (little : Bool) (code : UInt32) : Reader Header := do
  if code &&& EWKB_SRID != 0 then
    let _ ← u32 little
  match parseCode code with
  | none => throw s!"geometry type {code}"
  | some (base, z, m) =>
    pure {
      little
      base
      size := 2 + z.toNat + m.toNat
      dim := if z then .xyz else .xy }

def header : Reader Header := do
  let little ← byteOrder
  let code ← u32 little
  headerBody little code

/-- A header whose type must be one of `bases`. -/
def headerOf (bases : List UInt32) (within : String) : Reader Header := do
  let r ← get
  let header ← header
  if bases.contains header.base then
    pure header
  else
    throw s!"geometry type {header.base} in a {within} at byte {r.pos}"

/-- The ordinates as written, without those the model has no place for. -/
def position (header : Header) : Reader (List F64) := do
  let values ← (f64 header.little).times header.size
  pure (values.take header.dim.size)

def coords (header : Header) : Reader Coords := do
  let n ← count header.little (header.size * 8)
  let positions ← (position header).times n
  pure { dim := some header.dim, values := positions.flatten }

def point (header : Header) : Reader Point := do
  let position ← position header
  pure { coord := if position.all F64.isNan then none else some position }

def lineString (header : Header) : Reader LineString := do
  let coords ← coords header
  pure { coords }

def circularString (header : Header) : Reader CircularString := do
  let coords ← coords header
  pure { coords, computed := [] }

/-- A count and the items. -/
def many {α : Type} (little : Bool) (minBytes : Nat) (item : Reader α) : Reader (List α) := do
  let n ← count little minBytes
  item.times n

/-- The first ring is the exterior. -/
def polygon (header : Header) : Reader Polygon := do
  let rings ← many header.little COUNT (lineString header)
  pure { exterior := rings.head?, interiors := rings.tail }

def curvePart : Reader CurvePart := do
  let header ← headerOf [LINE_STRING, CIRCULAR_STRING] "CompoundCurve"
  if header.base = LINE_STRING then
    let line ← lineString header
    pure (.linear line)
  else
    let arc ← circularString header
    pure (.circular arc)

def compoundCurve (header : Header) : Reader CompoundCurve := do
  let parts ← many header.little HEADER curvePart
  pure { parts }

/-- A LineString, CircularString or CompoundCurve. -/
def curve (within : String) : Reader Curve := do
  let header ← headerOf [LINE_STRING, CIRCULAR_STRING, COMPOUND_CURVE] within
  if header.base = LINE_STRING then
    let line ← lineString header
    pure (.linear line)
  else if header.base = CIRCULAR_STRING then
    let arc ← circularString header
    pure (.circular arc)
  else
    let compound ← compoundCurve header
    pure (.compound compound)

def curvePolygon (header : Header) : Reader CurvePolygon := do
  let rings ← many header.little HEADER (curve "CurvePolygon")
  pure { exterior := rings.head?, interiors := rings.tail }

/-- A member of a MultiPoint, MultiLineString or MultiPolygon. -/
def member {α : Type} (base : UInt32) (within : String) (body : Header → Reader α) : Reader α := do
  let header ← headerOf [base] within
  body header

def surface : Reader Surface := do
  let header ← headerOf [POLYGON, CURVE_POLYGON] "MultiSurface"
  if header.base = POLYGON then
    let polygon ← polygon header
    pure (.polygon polygon)
  else
    let polygon ← curvePolygon header
    pure (.curvePolygon polygon)

/-- What follows the header, the members of a collection read by `geometry`. -/
def body (geometry : Reader Geometry) (header : Header) : Reader Geometry :=
  let little := header.little
  if header.base = POINT then .point <$> point header
  else if header.base = LINE_STRING then .lineString <$> lineString header
  else if header.base = POLYGON then .polygon <$> polygon header
  else if header.base = MULTI_POINT then
    .multiPoint <$> many little HEADER (member POINT "MultiPoint" point)
  else if header.base = MULTI_LINE_STRING then
    .multiLineString <$> many little HEADER (member LINE_STRING "MultiLineString" lineString)
  else if header.base = MULTI_POLYGON then
    .multiPolygon <$> many little HEADER (member POLYGON "MultiPolygon" polygon)
  else if header.base = GEOMETRY_COLLECTION then
    .geometryCollection <$> many little HEADER geometry
  else if header.base = CIRCULAR_STRING then .circularString <$> circularString header
  else if header.base = COMPOUND_CURVE then .compoundCurve <$> compoundCurve header
  else if header.base = CURVE_POLYGON then .curvePolygon <$> curvePolygon header
  else if header.base = MULTI_CURVE then
    .multiCurve <$> many little HEADER (curve "MultiCurve")
  else .multiSurface <$> many little HEADER surface

/-- `depth` bounds how deep collections nest, which the bytes bound too: every
geometry takes some of them. -/
def geometry : Nat → Reader Geometry
  | 0 => throw "nested deeper than the data"
  | depth + 1 => do
    let header ← header
    body (geometry depth) header

end Reader

/-- Read one WKB geometry, which must take all the bytes. -/
def readWkb (bytes : Bytes) : Except String Geometry := do
  let (geometry, reader) ← Reader.geometry (bytes.length + 1) ⟨bytes, 0⟩
  if reader.pos ≠ bytes.length then
    throw s!"{bytes.length - reader.pos} bytes after the geometry"
  pure geometry

end Xeibe.Geom.Wkb

import Xeibe.Reproject.Grid.Set
import Xeibe.Reproject.Remainder

/-!
# Grid files in memory, and interpolation in them

A grid file is filled piece by piece: each piece is merged with what is there,
the directories are parsed once they are complete, and the blocks whose bytes
are complete are decoded.  Interpolation reads the nodes around a point.
-/

namespace Xeibe.Geom.F64

open Xeibe.Lib

/-- `floor() as i64`: the integer below, in 64 bits, 0 for NaN. -/
def floorWord (t : F64) : Int :=
  if t.isNan then 0
  else
    let floor := Binary64.unitsOf t.toFloat / (Binary64.one : Int)
    Max.max (-(2 : Int) ^ 63) (Min.min floor ((2 : Int) ^ 63 - 1))

/-- `i as f64`. -/
def ofInt (i : Int) : F64 := ofFloat (Float.ofInt i)

end Xeibe.Geom.F64

namespace Xeibe.Reproject.Grid

open Xeibe.Geom (F64)
open Xeibe.Lib
open Xeibe.Lib.Checked

/-! ## Files -/

/-- One grid file: what is loaded of it, and its images once their directories
are read. -/
structure GridFile where
  loaded : Ranges
  images : Option (Except String (List Image))

namespace GridFile

def new : GridFile := ⟨.empty, none⟩

section Insert

variable (libraries : Libraries)

/-- Decode the blocks whose bytes are complete, up to one that is invalid. -/
def decodeBlocks (ranges : Ranges) : Image → List Nat → Reading (Image × Option String)
  | image, [] => .ok (image, none)
  | image, block :: blocks =>
    match image.decode libraries block ranges with
    | .ok image => decodeBlocks ranges image blocks
    | .error (.error (.need _ _)) => decodeBlocks ranges image blocks
    | .error (.error (.invalid e)) => .ok (image, some e)
    | .error .panic => panic

def decodeImages (ranges : Ranges) : List Image → Reading (List Image × Option String)
  | [] => .ok ([], none)
  | image :: images => do
    match ← decodeBlocks libraries ranges image (List.range image.blockCount) with
    | (image, some e) => .ok (image :: images, some e)
    | (image, none) => do
      let (images, e) ← decodeImages ranges images
      .ok (image :: images, e)

/-- The images of a file that were read before, or can be read now. -/
def parsed (file : GridFile) (loaded : Ranges) : Reading (Except String (List Image)) :=
  match file.images with
  | some images => .ok images
  | none =>
    match parse libraries loaded with
    | .ok images => .ok (.ok images)
    | .error (.error (.invalid e)) => .ok (.error e)
    | .error stop => .error stop

/-- Add bytes read from `offset`; parse the directories, and decode the blocks
whose bytes are now complete. -/
def insert (file : GridFile) (offset : Nat) (data : Bytes) :
    Reading (GridFile × Option String) := do
  let loaded ← file.loaded.insert offset data
  match file.parsed libraries loaded with
  | .ok (.ok images) => do
    let (images, e) ← decodeImages libraries loaded images
    .ok (⟨loaded, some (.ok images)⟩, e)
  | .ok (.error e) =>
    .ok (⟨loaded, some (.error e)⟩, if file.images.isNone then some e else none)
  | .error (.error _) => .ok (⟨loaded, none⟩, none)
  | .error .panic => panic

end Insert

end GridFile

/-! ## Interpolation -/

/-- `10.0 * REL_TOLERANCE`. -/
def tolerance : F64 := F64.ofUsize 10 * tenToMinus5

/-- `index + 1` in 64 bits. -/
def increment (index : Int) : Checked NotLoaded Int :=
  if index + 1 < 2 ^ 63 then .ok (index + 1) else panic

/-- `index as usize`. -/
def asUsize (index : Int) : Nat := (index % 2 ^ 64).toNat

/-- Cell index and fraction along one axis, with a tolerance at the edges;
`none` when outside. -/
def cell (t : F64) (size : Nat) : Checked NotLoaded (Option (Nat × F64)) :=
  let index := t.floorWord
  let frac := t - F64.ofInt index
  if index < 0 then
    if index = -1 ∧ F64.ofUsize 1 - tolerance < frac then
      .ok (some (0, F64.zero))
    else
      .ok none
  else do
    let next ← increment index
    if (size : Int) ≤ next then
      if next = size ∧ frac < tolerance then
        .ok (some (asUsize (index - 1), F64.ofUsize 1))
      else
        .ok none
    else
      .ok (some (asUsize index, frac))

/-- Bilinear weights. -/
structure Weights where
  m00 : F64
  m10 : F64
  m01 : F64
  m11 : F64

def weights (fx fy : F64) : Weights :=
  let gx := F64.ofUsize 1 - fx
  let gy := F64.ofUsize 1 - fy
  ⟨gx * gy, fx * gy, gx * fy, fx * fy⟩

/-- Longitude and latitude shifts in radians, rounded to single precision. -/
def hValue (image : Image) (info : HInfo) (x y : Nat) : Checked NotLoaded (Float32 × Float32) := do
  let lat ← image.value info.lat x y
  let lon ← image.value info.lon x y
  let lat := (lat.toFloat * info.toRadians.toFloat).toFloat32
  let lon := (lon.toFloat * info.toRadians.toFloat).toFloat32
  .ok (if info.positiveEast then lon else -lon, lat)

/-- The weighted sum of four values. -/
def Weights.sum (m : Weights) (f00 f10 f01 f11 : Float32) : F64 :=
  m.m00 * F64.ofFloat f00.toFloat + m.m10 * F64.ofFloat f10.toFloat +
    m.m01 * F64.ofFloat f01.toFloat + m.m11 * F64.ofFloat f11.toFloat

/-- The shift at `t`, relative to the grid's south-west node. -/
def hInterpolate (t : F64 × F64) (image : Image) (info : HInfo) :
    Checked NotLoaded (Option (F64 × F64)) := do
  match ← cell (t.1 / image.extent.resX) image.width with
  | none => .ok none
  | some (ix, fx) =>
    match ← cell (t.2 / image.extent.resY) image.height with
    | none => .ok none
    | some (iy, fy) => do
      let ix2 ← add ix 1
      let iy2 ← add iy 1
      let f00 ← hValue image info ix iy
      let f10 ← hValue image info ix2 iy
      let f01 ← hValue image info ix iy2
      let f11 ← hValue image info ix2 iy2
      let m := weights fx fy
      .ok (some (m.sum f00.1 f10.1 f01.1 f11.1, m.sum f00.2 f10.2 f01.2 f11.2))

/-- The grid goes all the way around. -/
def ExtentAndRes.fullWorldLongitude (e : ExtentAndRes) : Bool :=
  e.isGeographic && decide (F64.ofUsize 2 * F64.pi - tenToMinus10 ≤ e.east - e.west + e.resX)

/-- The column coordinate of a longitude in a grid. -/
def gridX (image : Image) (lon : F64) : F64 :=
  let e := image.extent
  let width := F64.ofUsize image.width
  let x := (lon - e.west) * e.invResX
  let wrapped := ((x + width).rem width + width).rem width
  let turn := F64.ofUsize 2 * F64.pi
  if lon < e.west then
    if e.fullWorldLongitude then wrapped else (lon + turn - e.west) * e.invResX
  else if e.east < lon then
    if e.fullWorldLongitude then wrapped else (lon - turn - e.west) * e.invResX
  else
    x

/-- The mean of the values that are not nodata, by weight: all four, or some. -/
def vMean (image : Image) (values : List (Float32 × F64)) : Option F64 :=
  let valid := values.filter fun v => !image.isNodata v.1
  let value := valid.foldl (fun sum v => sum + F64.ofFloat v.1.toFloat * v.2) F64.zero
  let total := valid.foldl (fun sum v => sum + v.2) F64.zero
  match valid.length with
  | 0 => none
  | 4 => some value
  | _ => some (value / total)

/-- The vertical shift at a longitude and latitude in the grid that contains
them, over the valid nodes around. -/
def vgridValue (image : Image) (sample : Nat) (lon lat : F64) :
    Checked NotLoaded (Option F64) :=
  if lon.isNan || lat.isNan || !image.extent.isGeographic then
    .ok none
  else do
    let x := gridX image lon
    let y := (lat - image.extent.south) * image.extent.invResY
    let ix := x.floorWord
    let iy := y.floorWord
    if ix < 0 ∨ (image.width : Int) ≤ ix ∨ iy < 0 ∨ (image.height : Int) ≤ iy then
      .ok none
    else do
      let fx := x - F64.ofInt ix
      let fy := y - F64.ofInt iy
      let ix := asUsize ix
      let iy := asUsize iy
      let next ← add ix 1
      let lastColumn ← sub image.width 1
      let lastRow ← sub image.height 1
      let ix2 :=
        if image.width ≤ next then
          if image.extent.fullWorldLongitude then 0 else lastColumn
        else
          next
      let iy2 := min (← add iy 1) lastRow
      let v00 ← image.value sample ix iy
      let v10 ← image.value sample ix2 iy
      let v01 ← image.value sample ix iy2
      let v11 ← image.value sample ix2 iy2
      let xy := fx * fy
      .ok (vMean image [(v00, F64.ofUsize 1 - fx - fy + xy), (v10, fx - xy), (v01, fy - xy),
        (v11, xy)])

end Xeibe.Reproject.Grid

import Xeibe.Geom.Model
import Xeibe.Reproject.Grid.Lzw
import Xeibe.Reproject.Transform

/-!
# GeoTIFF grids

Grid files as they are loaded: byte ranges of one file, the directories read
from them as far as they are there, and the blocks of the images decoded.
Everything the source indexes, slices, adds and multiplies by what the file says
is checked here, on a platform of 64 bits.
-/

namespace Xeibe.Reproject.Grid

open Xeibe.Geom (F64 chunksExact)
open Xeibe.Lib
open Xeibe.Lib.Checked

abbrev Bytes := List UInt8

abbrev Text := List Char

/-- Why a file can't be read (yet). -/
inductive TiffError where
  /-- These bytes are needed first. -/
  | need (offset length : Nat)
  | invalid (message : String)
deriving DecidableEq, Repr

abbrev Reading (α : Type) := Checked TiffError α

def invalid {α : Type} (message : String) : Reading α := fail (.invalid message)

/-- What is taken from libraries: DEFLATE, lossy UTF-8, and numbers as text with
space around them.  Every character of a text is of at least one byte. -/
structure Libraries where
  inflate : Bytes → Except String Bytes
  lossy : Bytes → Text
  lossy_le : ∀ b, (lossy b).length ≤ b.length
  parseDouble : Text → Option F64

/-! ## Loaded ranges -/

/-- The loaded byte ranges of one file, by where they start. -/
structure Ranges where
  chunks : List (Nat × Bytes)
deriving DecidableEq, Repr

namespace Ranges

def empty : Ranges := ⟨[]⟩

/-- The last chunk that overlaps or touches `start..stop`. -/
def touching (chunks : List (Nat × Bytes)) (start stop : Nat) : Option (Nat × Bytes) :=
  (chunks.filter fun c => c.1 ≤ stop).reverse.find? fun c => start ≤ c.1 + c.2.length

/-- New bytes over a chunk that they overlap or touch. -/
def merge (start : Nat) (bytes : Bytes) (chunk : Nat × Bytes) : Reading (Nat × Bytes) := do
  let newStart := min start chunk.1
  let newEnd := max (start + bytes.length) (chunk.1 + chunk.2.length)
  let merged := List.replicate (newEnd - newStart) 0
  let merged ← overwrite merged (chunk.1 - newStart) chunk.2
  let merged ← overwrite merged (start - newStart) bytes
  .ok (newStart, merged)

/-- A chunk in its place. -/
def place (chunks : List (Nat × Bytes)) (chunk : Nat × Bytes) : List (Nat × Bytes) :=
  chunks.takeWhile (fun c => c.1 < chunk.1) ++ chunk :: chunks.dropWhile (fun c => c.1 < chunk.1)

/-- Merge with every chunk that overlaps or touches: one less each time. -/
def insertLoop : Nat → List (Nat × Bytes) → Nat → Bytes → Reading Ranges
  | 0, _, _, _ => panic
  | fuel + 1, chunks, start, bytes => do
    let stop ← add start bytes.length
    match touching chunks start stop with
    | none => .ok ⟨place chunks (start, bytes)⟩
    | some chunk => do
      let (start, bytes) ← merge start bytes chunk
      insertLoop fuel (chunks.filter fun c => c.1 ≠ chunk.1) start bytes

def insert (r : Ranges) (offset : Nat) (data : Bytes) : Reading Ranges :=
  if data.isEmpty then .ok r else insertLoop (r.chunks.length + 1) r.chunks offset data

/-- The bytes at `offset..offset + length`, if loaded. -/
def get (r : Ranges) (offset length : Nat) : Reading Bytes :=
  match (r.chunks.filter fun c => c.1 ≤ offset).getLast? with
  | none => fail (.need offset length)
  | some (s, c) => do
    let stop ← add offset length
    if stop ≤ s + c.length then
      Checked.slice c (offset - s) (offset - s + length)
    else
      fail (.need offset length)

end Ranges

/-! ## Words of the file -/

inductive ByteOrder where
  | little
  | big
deriving DecidableEq, Repr

/-- Bytes, least significant first, as a number. -/
def littleWord (bytes : Bytes) : Nat := bytes.foldr (fun b n => b.toNat + 256 * n) 0

namespace ByteOrder

def word : ByteOrder → Bytes → Nat
  | little, bytes => littleWord bytes
  | big, bytes => littleWord bytes.reverse

/-- The low `size` bytes of a number. -/
def bytes (order : ByteOrder) (size value : Nat) : Bytes :=
  let low := (List.range size).map fun k => UInt8.ofNat (value / 256 ^ k)
  match order with
  | little => low
  | big => low.reverse

end ByteOrder

inductive DataType where
  | int16
  | uint16
  | int32
  | uint32
  | float32
  | float64
deriving DecidableEq, Repr

def DataType.size : DataType → Nat
  | .int16 => 2
  | .uint16 => 2
  | .int32 => 4
  | .uint32 => 4
  | .float32 => 4
  | .float64 => 8

/-- A number of `bits` bits as a signed one. -/
def signed (bits n : Nat) : Int := if n < 2 ^ (bits - 1) then n else n - 2 ^ bits

/-- One value of the file, as a double. -/
def DataType.read (dataType : DataType) (order : ByteOrder) (v : Bytes) : Float :=
  let n := order.word v
  match dataType with
  | .int16 => Float.ofInt (signed 16 n)
  | .uint16 => Float.ofInt n
  | .int32 => Float.ofInt (signed 32 n)
  | .uint32 => Float.ofInt n
  | .float32 => (Float32.ofBits (UInt32.ofNat n)).toFloat
  | .float64 => Float.ofBits (UInt64.ofNat n)

inductive Compression where
  | none
  | lzw
  | deflate
deriving DecidableEq, Repr

/-! ## Images -/

/-- A grid's extent and resolution, in radians for a geographic grid.  West and
south are the first node's centre. -/
structure ExtentAndRes where
  isGeographic : Bool
  west : F64
  south : F64
  east : F64
  north : F64
  resX : F64
  resY : F64
  invResX : F64
  invResY : F64

/-- One image of the file: a grid or subgrid. -/
structure Image where
  width : Nat
  height : Nat
  extent : ExtentAndRes
  samples : Nat
  subfileType : Nat
  /-- Metadata items by sample (or -1) and name. -/
  metadata : List ((Int × Text) × Text)
  bottomUp : Bool
  separatePlanes : Bool
  dataType : DataType
  order : ByteOrder
  compression : Compression
  predictor : Nat
  blockWidth : Nat
  blockHeight : Nat
  blocksPerRow : Nat
  /-- Blocks in one plane. -/
  blocks : Nat
  offsets : List Nat
  counts : List Nat
  nodata : Option Float32
  /-- Offset and scale of each sample, when the metadata gives one. -/
  offsetScale : List (F64 × F64)
  decoded : List (Option (List Float32))

/-- The value at a node couldn't be read: its block isn't loaded. -/
inductive NotLoaded where
  | notLoaded
deriving DecidableEq, Repr

namespace Image

/-- The row of the file that row `y` from the south is. -/
def fileRow {ε : Type} (image : Image) (y : Nat) : Checked ε Nat :=
  if image.bottomUp then .ok y else do sub (← sub image.height 1) y

/-- The block that holds column `x` and row `row` of the file, of a sample. -/
def blockAt (image : Image) (sample x row : Nat) : Checked NotLoaded Nat := do
  let blockX ← quot x image.blockWidth
  let blockY ← quot row image.blockHeight
  let block ← add (← mul blockY image.blocksPerRow) blockX
  if image.separatePlanes then add block (← mul sample image.blocks) else .ok block

/-- Where in the block it is. -/
def placeAt (image : Image) (sample x row : Nat) : Checked NotLoaded Nat := do
  let xOff ← rest x image.blockWidth
  let yOff ← rest row image.blockHeight
  let place ← add xOff (← mul yOff image.blockWidth)
  if image.separatePlanes then .ok place else do add (← mul place image.samples) sample

/-- The value of `sample` at column `x` and row `y` counted from the south. -/
def value (image : Image) (sample x y : Nat) : Checked NotLoaded Float32 := do
  let row ← image.fileRow y
  let block ← image.blockAt sample x row
  match ← index image.decoded block with
  | none => fail .notLoaded
  | some data => do index data (← image.placeAt sample x row)

/-- Planes that the samples are in. -/
def planes (image : Image) : Nat := if image.separatePlanes then image.samples else 1

/-- The blocks holding columns `x0..=x1` and rows `y0..=y1` (from the south) of
every sample. -/
def blocksFor (image : Image) (x0 y0 x1 y1 : Nat) : Checked NotLoaded (List Nat) := do
  let a ← image.fileRow y0
  let b ← image.fileRow y1
  let firstRow ← quot (min a b) image.blockHeight
  let lastRow ← quot (max a b) image.blockHeight
  let firstColumn ← quot x0 image.blockWidth
  let lastColumn ← quot x1 image.blockWidth
  let places := (List.range image.planes).flatMap fun plane =>
    (List.range' firstRow (lastRow + 1 - firstRow)).flatMap fun row =>
      (List.range' firstColumn (lastColumn + 1 - firstColumn)).map fun column =>
        (plane, row, column)
  places.mapM fun p => do
    add (← add (← mul p.1 image.blocks) (← mul p.2.1 image.blocksPerRow)) p.2.2

def blockCount (image : Image) : Nat := image.decoded.length

/-- Where the block's bytes are in the file. -/
def blockRange (image : Image) (block : Nat) : Reading (Nat × Nat) := do
  .ok (← index image.offsets block, ← index image.counts block)

/-- Samples that a pixel of a block has. -/
def perPixel (image : Image) : Nat := if image.separatePlanes then 1 else image.samples

end Image

/-! ## Decoding blocks -/

/-- Value `i` of a row of values of `size` bytes. -/
def rowWord (order : ByteOrder) (size : Nat) (row : Bytes) (i : Nat) : Reading Nat := do
  let start ← mul i size
  let stop ← mul (i + 1) size
  .ok (order.word (← Checked.slice row start stop))

/-- Undo horizontal differencing on one row, in the file's byte order. -/
def horizontalPredictor (row : Bytes) (size stride : Nat) (order : ByteOrder) : Reading Bytes :=
  let n := row.length / size
  (List.range' stride (n - stride)).foldlM (fun row i => do
      let here ← rowWord order size row i
      let before ← rowWord order size row (← sub i stride)
      let start ← mul i size
      overwrite row start (order.bytes size ((here + before) % 2 ^ (8 * size))))
    row

/-- Undo the byte differencing of the floating-point predictor. -/
def undifference (row : Bytes) (stride : Nat) : Reading Bytes :=
  (List.range' stride (row.length - stride)).foldlM (fun row i => do
      let here ← index row i
      let before ← index row (← sub i stride)
      store row i (here + before))
    row

/-- Undo the floating-point predictor on one row: byte differencing, then byte
planes, most significant first, back into values in the file's byte order. -/
def floatingPointPredictor (row : Bytes) (size stride : Nat) (order : ByteOrder) :
    Reading Bytes := do
  let planes ← undifference row stride
  let count := row.length / size
  let places := (List.range count).flatMap fun i => (List.range size).map fun b => (i, b)
  places.foldlM (fun row p => do
      let byte ← index planes (← add (← mul p.2 count) p.1)
      let within ← (if order = .big then .ok p.2 else do sub (← sub size 1) p.2)
      store row (← add (← mul p.1 size) within) byte)
    planes

namespace Image

/-- The offset and scale apply unless the value is nodata, and the result is in
single precision. -/
def readValue (image : Image) (v : Bytes) (sample : Nat) : Reading Float32 := do
  let raw := image.dataType.read image.order (← Checked.slice v 0 image.dataType.size)
  let isNodata := (image.nodata.map fun n => raw.toFloat32 == n).getD false
  match image.offsetScale[sample]? with
  | some (offset, scale) =>
    if isNodata then .ok raw.toFloat32
    else .ok (raw * scale.toFloat + offset.toFloat).toFloat32
  | none => .ok raw.toFloat32

/-- Nodata, or not a number. -/
def isNodata (image : Image) (v : Float32) : Bool :=
  (image.nodata.map fun n => v == n).getD false || v.isNaN

def unpredict (image : Image) (row : Bytes) : Reading Bytes :=
  match image.predictor with
  | 1 => .ok row
  | 2 => horizontalPredictor row image.dataType.size image.perPixel image.order
  | 3 => floatingPointPredictor row image.dataType.size image.perPixel image.order
  | p => invalid s!"predictor {p}"

def decodeRow (image : Image) (plane : Nat) (row : Bytes) : Reading (List Float32) := do
  let row ← image.unpredict row
  (chunksExact image.dataType.size row).zipIdx.mapM fun v => do
    let sample ← (if image.separatePlanes then .ok plane else rest v.2 image.samples)
    image.readValue v.1 sample

section Decode

variable (libraries : Libraries)

def decompress (image : Image) (raw : Bytes) : Reading Bytes :=
  match image.compression with
  | .none => .ok raw
  | .deflate =>
    match libraries.inflate raw with
    | .ok out => .ok out
    | .error e => invalid ("DEFLATE: " ++ e)
  | .lzw => (Lzw.decode raw).mapError .invalid

def decodeBlock (image : Image) (block : Nat) (raw : Bytes) : Reading (List Float32) := do
  let bytes ← image.decompress libraries raw
  let rowValues ← mul image.blockWidth image.perPixel
  let rowBytes ← mul rowValues image.dataType.size
  let rows ← quot bytes.length rowBytes
  if rows = 0 then
    invalid "block shorter than one row"
  else do
    let plane ← (if image.separatePlanes then quot block image.blocks else .ok 0)
    let rows ← (chunksExact rowBytes (bytes.take (rows * rowBytes))).mapM (image.decodeRow plane)
    .ok rows.flatten

/-- Decode the block from the file's loaded bytes, if they are there. -/
def decode (image : Image) (block : Nat) (ranges : Ranges) : Reading Image := do
  match ← index image.decoded block with
  | some _ => .ok image
  | none => do
    let (offset, count) ← image.blockRange block
    if count = 0 then
      invalid "empty block"
    else do
      let raw ← ranges.get offset count
      let values ← image.decodeBlock libraries block raw
      .ok { image with decoded := image.decoded.set block (some values) }

end Decode

end Image

/-! ## Tags -/

structure Reader where
  ranges : Ranges
  order : ByteOrder

/-- One directory entry. -/
structure Entry where
  fieldType : Nat
  count : Nat
  /-- Where the values are: inline in the entry or elsewhere. -/
  place : Nat
deriving DecidableEq, Repr

def typeSize (fieldType : Nat) : Option Nat :=
  if fieldType ∈ [1, 2, 6, 7] then some 1
  else if fieldType ∈ [3, 8] then some 2
  else if fieldType ∈ [4, 9, 11] then some 4
  else if fieldType ∈ [5, 10, 12] then some 8
  else none

namespace Reader

def bytes (r : Reader) (offset length : Nat) : Reading Bytes := r.ranges.get offset length

/-- A number of `size` bytes. -/
def word (r : Reader) (size offset : Nat) : Reading Nat := do
  let b ← r.bytes offset size
  .ok (r.order.word (← Checked.slice b 0 size))

def u16 (r : Reader) (offset : Nat) : Reading Nat := r.word 2 offset

def u32 (r : Reader) (offset : Nat) : Reading Nat := r.word 4 offset

def entry (r : Reader) (place : Nat) : Reading (Nat × Entry) := do
  let tag ← r.u16 place
  let fieldType ← r.u16 (← add place 2)
  let count ← r.u32 (← add place 4)
  let size ← mul ((typeSize fieldType).getD 1) count
  let values ← (if size ≤ 4 then add place 8 else do r.u32 (← add place 8))
  .ok (tag, ⟨fieldType, count, values⟩)

/-- The values as unsigned integers (BYTE, SHORT, LONG). -/
def uints (r : Reader) (e : Entry) : Reading (List Nat) :=
  match typeSize e.fieldType with
  | none => invalid "tag type"
  | some size => do
    let b ← r.bytes e.place (← mul size e.count)
    .ok ((chunksExact size b).map fun c => if size ≤ 4 then r.order.word c else 0)

def uint (r : Reader) (e : Entry) : Reading Nat := do
  match ← r.uints e with
  | [] => invalid "empty tag"
  | n :: _ => .ok n

def doubles (r : Reader) (e : Entry) : Reading (List F64) :=
  if e.fieldType ≠ 12 then
    invalid "expected DOUBLE values"
  else do
    let b ← r.bytes e.place (← mul 8 e.count)
    .ok ((chunksExact 8 b).map fun c => ⟨UInt64.ofNat (r.order.word c)⟩)

def ascii (libraries : Libraries) (r : Reader) (e : Entry) : Reading Text := do
  let b ← r.bytes e.place e.count
  .ok (libraries.lossy (b.takeWhile (· ≠ 0)))

end Reader

/-- Tags and their entries, the last one of a tag first. -/
abbrev Tags := List (Nat × Entry)

namespace Tags

def get (tags : Tags) (tag : Nat) : Option Entry := (tags.find? fun t => t.1 == tag).map (·.2)

def imageWidth : Nat := 256
def imageLength : Nat := 257
def bitsPerSample : Nat := 258
def compression : Nat := 259
def photometric : Nat := 262
def stripOffsets : Nat := 273
def samplesPerPixel : Nat := 277
def rowsPerStrip : Nat := 278
def stripByteCounts : Nat := 279
def planarConfig : Nat := 284
def predictor : Nat := 317
def tileWidth : Nat := 322
def tileLength : Nat := 323
def tileOffsets : Nat := 324
def tileByteCounts : Nat := 325
def sampleFormat : Nat := 339
def newSubfileType : Nat := 254
def modelPixelScale : Nat := 33550
def modelTiepoint : Nat := 33922
def modelTransformation : Nat := 34264
def geoKeyDirectory : Nat := 34735
def gdalMetadata : Nat := 42112
def gdalNodata : Nat := 42113

end Tags

section Directory

variable (r : Reader) (tags : Tags)

def uintOr (tag default : Nat) : Reading Nat :=
  match tags.get tag with
  | some e => r.uint e
  | none => .ok default

/-- The number of a tag that has to be there. -/
def required (tag : Nat) (message : String) : Reading Nat :=
  match tags.get tag with
  | some e => r.uint e
  | none => invalid message

/-! ## The layout of an image -/

/-- What the tags say of an image's size, values and blocks. -/
structure Layout where
  width : Nat
  height : Nat
  samples : Nat
  planar : Nat
  dataType : DataType
  compression : Compression
  predictor : Nat
  subfileType : Nat
  blockWidth : Nat
  blockHeight : Nat
  offsets : List Nat
  counts : List Nat
deriving DecidableEq

def dataTypeOf (format bits : Nat) : Reading DataType :=
  match format, bits with
  | 2, 16 => .ok .int16
  | 1, 16 => .ok .uint16
  | 2, 32 => .ok .int32
  | 1, 32 => .ok .uint32
  | 3, 32 => .ok .float32
  | 3, 64 => .ok .float64
  | _, _ => invalid "unsupported SampleFormat and BitsPerSample"

def compressionOf (code : Nat) : Reading Compression :=
  if code = 1 then .ok .none
  else if code = 5 then .ok .lzw
  else if code = 8 ∨ code = 32946 then .ok .deflate
  else invalid s!"compression {code}"

/-- The size of the blocks, and where they are. -/
structure BlockTable where
  width : Nat
  height : Nat
  offsets : List Nat
  counts : List Nat

def tiles : Reading BlockTable :=
  match tags.get Tags.tileWidth, tags.get Tags.tileLength, tags.get Tags.tileOffsets,
    tags.get Tags.tileByteCounts with
  | some w, some h, some o, some c => do
    let width ← r.uint w
    let height ← r.uint h
    let offsets ← r.uints o
    let counts ← r.uints c
    .ok ⟨width, height, offsets, counts⟩
  | _, _, _, _ => invalid "incomplete tile tags"

def strips (width height : Nat) : Reading BlockTable :=
  match tags.get Tags.stripOffsets, tags.get Tags.stripByteCounts with
  | some o, some c => do
    let rows ← uintOr r tags Tags.rowsPerStrip height
    let offsets ← r.uints o
    let counts ← r.uints c
    .ok ⟨width, min rows height, offsets, counts⟩
  | _, _ => invalid "incomplete strip tags"

def maxImageSide : Nat := 2 ^ 31 - 1

def layout : Reading Layout := do
  let width ← uintOr r tags Tags.imageWidth 0
  let height ← uintOr r tags Tags.imageLength 0
  if width = 0 ∨ height = 0 ∨ maxImageSide < width ∨ maxImageSide < height then
    invalid "invalid image size"
  else do
    let samples ← required r tags Tags.samplesPerPixel "missing SamplesPerPixel"
    if samples = 0 then
      invalid "invalid SamplesPerPixel"
    else do
      let bits ← required r tags Tags.bitsPerSample "missing BitsPerSample"
      let planar ← required r tags Tags.planarConfig "missing PlanarConfig"
      let format ← required r tags Tags.sampleFormat "missing SampleFormat"
      let dataType ← dataTypeOf format bits
      let photometric ← uintOr r tags Tags.photometric 1
      if photometric ≠ 1 then
        invalid "unsupported Photometric"
      else do
        let compression ← compressionOf (← uintOr r tags Tags.compression 1)
        let predictor ← uintOr r tags Tags.predictor 1
        let subfileType ← uintOr r tags Tags.newSubfileType 0
        let table ← (if (tags.get Tags.tileWidth).isSome then tiles r tags
          else strips r tags width height)
        if table.width = 0 ∨ table.height = 0 then
          invalid "invalid block size"
        else
          .ok ⟨width, height, samples, planar, dataType, compression, predictor % 2 ^ 16,
            subfileType % 2 ^ 32, table.width, table.height, table.offsets, table.counts⟩

namespace Layout

def separatePlanes (l : Layout) : Bool := decide (1 < l.samples) && decide (l.planar = 2)

/-- `div_ceil`. -/
def divCeil (a b : Nat) : Nat := if a % b = 0 then a / b else a / b + 1

def blocksPerRow (l : Layout) : Nat := divCeil l.width l.blockWidth

def maxBlockBytes : Nat := 64 * 1024 * 2014

/-- Counts the blocks: in one plane, and in all. -/
def countBlocks (l : Layout) : Reading (Nat × Nat) := do
  let pixels ← mul l.blockWidth l.blockHeight
  let pixelBytes ← mul pixels l.dataType.size
  let bytes ← mul pixelBytes l.samples
  if maxBlockBytes < bytes then
    invalid "unsupported block size"
  else do
    let blocks ← mul l.blocksPerRow (divCeil l.height l.blockHeight)
    let total ← (if l.separatePlanes then mul blocks l.samples else .ok blocks)
    if l.offsets.length < total ∨ l.counts.length < total then
      invalid "missing block offsets"
    else
      .ok (blocks, total)

end Layout

/-! ## Georeferencing -/

/-- The model type (geographic or not) and whether pixels are areas. -/
structure GeoKeys where
  geographic : Bool
  pixelIsArea : Bool

def GeoKeys.add (keys : GeoKeys) (k : List Nat) : Reading GeoKeys := do
  let key ← index k 0
  let value ← index k 3
  if key = 1024 then
    if value = 1 then .ok { keys with geographic := false }
    else if value = 2 then .ok keys
    else invalid "unsupported GTModelTypeGeoKey"
  else if key = 1025 then
    .ok { keys with pixelIsArea := value = 1 }
  else
    .ok keys

def geoKeys : Reading GeoKeys :=
  match tags.get Tags.geoKeyDirectory with
  | none => .ok ⟨true, false⟩
  | some e => do
    let keys ← r.uints e
    if keys.length < 4 ∨ keys.length % 4 ≠ 0 then
      invalid "wrong number of values in GeoKeys"
    else do
      let version ← index keys 0
      if version ≠ 1 then
        invalid "unsupported GeoTIFF major version"
      else do
        let rest ← Checked.slice keys 4 keys.length
        (chunksExact 4 rest).foldlM GeoKeys.add ⟨true, false⟩

/-- The first node's west and north, and the resolutions. -/
structure Placement where
  west : F64
  north : F64
  hRes : F64
  vRes : F64

def matrixPlacement (m : List F64) : Reading Placement := do
  let m1 ← index m 1
  let m4 ← index m 4
  if !m1.eq F64.zero || !m4.eq F64.zero then
    invalid "rotational terms in GeoTransformationMatrix"
  else do
    let west ← index m 3
    let hRes ← index m 0
    let north ← index m 7
    let m5 ← index m 5
    .ok ⟨west, north, hRes, -m5⟩

def scalePlacement : Reading Placement :=
  match tags.get Tags.modelPixelScale with
  | none => invalid "no GeoPixelScale"
  | some scale => do
    let scale ← r.doubles scale
    if scale.length ≠ 3 then
      invalid "wrong number of values in GeoPixelScale"
    else do
      let hRes ← index scale 0
      let vRes ← index scale 1
      match tags.get Tags.modelTiepoint with
      | none => invalid "no GeoTiePoints"
      | some tie => do
        let tie ← r.doubles tie
        if tie.length ≠ 6 then
          invalid "wrong number of values in GeoTiePoints"
        else do
          let tie0 ← index tie 0
          let tie1 ← index tie 1
          let tie3 ← index tie 3
          let tie4 ← index tie 4
          .ok ⟨tie3 - tie0 * hRes, tie4 + tie1 * vRes, hRes, vRes⟩

def placement : Reading Placement :=
  match tags.get Tags.modelTransformation with
  | none => scalePlacement r tags
  | some e => do
    let m ← r.doubles e
    if m.length = 16 then matrixPlacement m else scalePlacement r tags

/-- `0.5`. -/
def half : F64 := ⟨0x3fe0000000000000⟩

/-- `1e-5`. -/
def tenToMinus5 : F64 := ⟨0x3ee4f8b588e368f1⟩

/-- `1e-10`. -/
def tenToMinus10 : F64 := ⟨0x3ddb7cdfd9d7bdbb⟩

def ExtentAndRes.isPlausible (e : ExtentAndRes) : Bool :=
  let fourPi := F64.ofUsize 4 * F64.pi
  let latitudes := F64.pi + tenToMinus5
  (!e.isGeographic ||
      (decide (e.west.abs ≤ fourPi) && decide (e.east.abs ≤ fourPi) &&
        decide (e.north.abs ≤ latitudes) && decide (e.south.abs ≤ latitudes))) &&
    decide (e.west < e.east) && decide (e.south < e.north) &&
    decide (tenToMinus10 < e.resX) && decide (tenToMinus10 < e.resY)

/-- The extent of a grid of `width` by `height` nodes. -/
def Placement.extent (p : Placement) (keys : GeoKeys) (width height : Nat) : ExtentAndRes :=
  let west := if keys.pixelIsArea then p.west + half * p.hRes else p.west
  let north := if keys.pixelIsArea then p.north - half * p.vRes else p.north
  let factor := if keys.geographic then F64.pi / F64.ofUsize 180 else F64.ofUsize 1
  let resX := p.hRes * factor
  let resY := p.vRes.abs * factor
  let top := north * factor
  let bottom := (north - p.vRes * F64.ofUsize (height - 1)) * factor
  let upsideDown := decide (p.vRes < F64.zero)
  { isGeographic := keys.geographic
    west := west * factor
    south := if upsideDown then top else bottom
    east := (west + p.hRes * F64.ofUsize (width - 1)) * factor
    north := if upsideDown then bottom else top
    resX := resX
    resY := resY
    invResX := F64.ofUsize 1 / resX
    invResY := F64.ofUsize 1 / resY }

end Directory

/-! ## Metadata -/

/-- Where `part` first is in a text. -/
def findText (part : Text) : Text → Option Nat
  | [] => if part.isEmpty then some 0 else none
  | c :: text => if part.isPrefixOf (c :: text) then some 0 else (findText part text).map (· + 1)

/-- One item of GDAL's metadata: its sample (-1 when none), name, role and
text. -/
structure MetadataItem where
  sample : Int
  name : Text
  role : Option Text
  value : Text
deriving DecidableEq, Repr

/-- The value of an attribute of a tag. -/
def attr (tag : Text) (name : String) : Reading (Option Text) :=
  let key := name.toList ++ ['=', '"']
  match findText key tag with
  | none => .ok none
  | some i => do
    let start ← add i key.length
    let after ← Checked.slice tag start tag.length
    match findText ['"'] after with
    | none => .ok none
    | some j => do .ok (some (← Checked.slice tag start (← add start j)))

/-- The number that leading digits are, 0 where there are none or too many. -/
def leadingNumber (text : Text) : Int :=
  let digits := text.takeWhile (·.isDigit)
  let n := digits.foldl (fun n c => 10 * n + (c.toNat - '0'.toNat)) 0
  if n < 2 ^ 31 then n else 0

def metadataItems : Nat → Text → Reading (List MetadataItem)
  | 0, _ => panic
  | fuel + 1, text =>
    match findText "<Item ".toList text with
    | none => .ok []
    | some start => do
      let item ← Checked.slice text start text.length
      match findText ['>'] item with
      | none => .ok []
      | some endTag => do
        let after ← Checked.slice item endTag item.length
        match findText ['<'] after with
        | none => .ok []
        | some i => do
          let endValue ← add i endTag
          let tag ← Checked.slice item 0 endTag
          let value ← Checked.slice item (← add endTag 1) endValue
          match ← attr tag "name" with
          | none => .ok []
          | some name => do
            let sample ← attr tag "sample"
            let role ← attr tag "role"
            let rest ← Checked.slice item (← add endValue 1) item.length
            let others ← metadataItems fuel rest
            .ok (⟨(sample.map leadingNumber).getD (-1), name, role, value⟩ :: others)

/-- The offset or the scale of a sample, where an item gives one. -/
def addOffsetScale (libraries : Libraries) (samples : Nat) (offsetScale : List (F64 × F64))
    (item : MetadataItem) : List (F64 × F64) :=
  match item.role, libraries.parseDouble item.value with
  | some role, some v =>
    if 0 ≤ item.sample ∧ item.sample ≤ samples ∧
        (role = "offset".toList ∨ role = "scale".toList) then
      let table :=
        if offsetScale.isEmpty then List.replicate samples (F64.zero, F64.ofUsize 1)
        else offsetScale
      table.modify item.sample.toNat fun slot =>
        if role = "offset".toList then (v, slot.2) else (slot.1, v)
    else
      offsetScale
  | _, _ => offsetScale

section Parse

variable (libraries : Libraries) (r : Reader) (tags : Tags)

def gdalMetadata : Reading (List MetadataItem) :=
  match tags.get Tags.gdalMetadata with
  | none => .ok []
  | some e => do
    let text ← r.ascii libraries e
    metadataItems (text.length + 1) text

def gdalNodata : Reading (Option Float32) :=
  match tags.get Tags.gdalNodata with
  | none => .ok none
  | some e => do
    .ok ((libraries.parseDouble (← r.ascii libraries e)).map fun v => v.toFloat.toFloat32)

/-! ## Parsing -/

def image : Reading Image := do
  let l ← layout r tags
  let (blocks, total) ← l.countBlocks
  let keys ← geoKeys r tags
  let p ← placement r tags
  let extent := p.extent keys l.width l.height
  if !extent.isPlausible then
    invalid "inconsistent georeferencing"
  else do
    let items ← gdalMetadata libraries r tags
    let nodata ← gdalNodata libraries r tags
    .ok {
      width := l.width
      height := l.height
      extent := extent
      samples := l.samples
      subfileType := l.subfileType
      metadata := items.reverse.map fun item => ((item.sample, item.name), item.value)
      bottomUp := decide (p.vRes < F64.zero)
      separatePlanes := l.separatePlanes
      dataType := l.dataType
      order := r.order
      compression := l.compression
      predictor := l.predictor
      blockWidth := l.blockWidth
      blockHeight := l.blockHeight
      blocksPerRow := l.blocksPerRow
      blocks := blocks
      offsets := l.offsets
      counts := l.counts
      nodata := nodata
      offsetScale := items.foldl (addOffsetScale libraries l.samples) []
      decoded := List.replicate total none }

end Parse

/-- The tags of a directory of `count` entries, at `place`. -/
def directory (r : Reader) (place : Nat) : Reading Tags := do
  let count ← r.u16 place
  let size ← mul 12 count
  -- The whole directory and the next offset at once.
  let _ ← r.bytes place (← add (← add 2 size) 4)
  (List.range count).foldlM (fun tags i => do
      let entry ← r.entry (← add (← add place 2) (← mul 12 i))
      .ok (entry :: tags))
    []

/-- Where the directory after the one at `place` is, or 0. -/
def nextDirectory (r : Reader) (place : Nat) : Reading Nat := do
  let count ← r.u16 place
  r.u32 (← add (← add place 2) (← mul 12 count))

def maxImages : Nat := 10000

/-- The images from the directory at `next` on; `left` more may be read. -/
def readImages (libraries : Libraries) (r : Reader) : Nat → Nat → Reading (List Image)
  | left, next =>
    if next = 0 then
      .ok []
    else do
      let tags ← directory r next
      let image ← image libraries r tags
      let next ← nextDirectory r next
      match left with
      | 0 => invalid "too many images"
      | left + 1 => do .ok (image :: (← readImages libraries r left next))

def byteOrder (head : Bytes) : Reading ByteOrder := do
  let magic ← Checked.slice head 0 4
  if magic = [73, 73, 42, 0] then .ok .little
  else if magic = [77, 77, 0, 42] then .ok .big
  else if magic = [73, 73, 43, 0] ∨ magic = [77, 77, 0, 43] then invalid "BigTIFF grids"
  else invalid "not a TIFF file"

/-- Read every image of the file, as far as the loaded bytes allow. -/
def parse (libraries : Libraries) (ranges : Ranges) : Reading (List Image) := do
  let head ← ranges.get 0 8
  let order ← byteOrder head
  let next ← (Reader.mk ranges order).u32 4
  let images ← readImages libraries ⟨ranges, order⟩ maxImages next
  if images.isEmpty then invalid "no image" else .ok images

end Xeibe.Reproject.Grid

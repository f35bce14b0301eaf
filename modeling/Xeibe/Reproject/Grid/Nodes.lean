import Xeibe.Reproject.Grid.Parse
import Xeibe.Reproject.Grid.Shift

/-!
# Reading the nodes of a grid

The sizes of an accepted image make every index of decoding and reading one
into what it indexes.  A decoded block may still have fewer rows than the nodes
read from it need: what a block that is not short leaves is that none has.
-/

namespace Xeibe.Reproject.Grid

open Xeibe.Geom (F64 chunksExact length_of_mem_chunksExact)
open Xeibe.Lib
open Xeibe.Lib.Checked

namespace Image

/-- Rows of the image that are in a block. -/
def rowsOf (image : Image) (block : Nat) : Nat :=
  min image.blockHeight
    (image.height - block % image.blocks / image.blocksPerRow * image.blockHeight)

/-- Every decoded block has all of its rows. -/
def Whole (image : Image) : Prop :=
  ∀ (block : Nat) (data : List Float32), image.decoded[block]? = some (some data) →
    image.rowsOf block * (image.blockWidth * image.perPixel) ≤ data.length

theorem Fresh.whole {image : Image} (h : image.Fresh) : image.Whole :=
  fun block data hdata => absurd hdata (h block data)

/-! ## The place of a node -/

section Place

variable {image : Image}

theorem fileRow_total {ε : Type} {y : Nat} (hy : y < image.height) :
    Total (image.fileRow y : Checked ε Nat) (· < image.height) := by
  unfold fileRow
  split
  · exact ⟨y, rfl, hy⟩
  · refine Total.bind (Total.sub (by omega)) fun last hlast => ?_
    exact Total.mono (Total.sub (by omega)) fun row hrow => by omega

variable (made : image.Made)
include made

theorem blocksPerRow_pos : 0 < image.blocksPerRow := by
  have hwidth : 0 < image.width := Nat.lt_of_lt_of_le Nat.two_pos made.width.1
  rw [made.perRow]
  exact Nat.zero_lt_of_lt (Layout.div_lt_divCeil made.blockWidth hwidth)

theorem blocks_pos : 0 < image.blocks := by
  have hheight : 0 < image.height := Nat.lt_of_lt_of_le Nat.two_pos made.height.1
  rw [made.perPlane]
  exact Nat.mul_pos (blocksPerRow_pos made)
    (Nat.zero_lt_of_lt (Layout.div_lt_divCeil made.blockHeight hheight))

theorem inPlane_lt {x row : Nat} (hx : x < image.width) (hrow : row < image.height) :
    row / image.blockHeight * image.blocksPerRow + x / image.blockWidth < image.blocks := by
  have hcolumn : x / image.blockWidth < image.blocksPerRow := by
    rw [made.perRow]
    exact Layout.div_lt_divCeil made.blockWidth hx
  have hline : row / image.blockHeight + 1 ≤ Layout.divCeil image.height image.blockHeight :=
    Layout.div_lt_divCeil made.blockHeight hrow
  calc row / image.blockHeight * image.blocksPerRow + x / image.blockWidth
      < (row / image.blockHeight + 1) * image.blocksPerRow := by
        rw [Nat.succ_mul]
        omega
    _ ≤ Layout.divCeil image.height image.blockHeight * image.blocksPerRow :=
        Nat.mul_le_mul_right _ hline
    _ = image.blocks := by rw [made.perPlane, Nat.mul_comm]

theorem plane_lt {plane inner : Nat} (hplane : plane < image.planes)
    (hinner : inner < image.blocks) :
    plane * image.blocks + inner < image.decoded.length := by
  rw [made.decoded]
  calc plane * image.blocks + inner < (plane + 1) * image.blocks := by
        rw [Nat.succ_mul]
        omega
    _ ≤ image.planes * image.blocks := Nat.mul_le_mul_right _ hplane
    _ = image.blocks * image.planes := Nat.mul_comm _ _

/-- The block of a node is one of the image's, and its rows are those around the
node's. -/
theorem blockAt_total {sample x row : Nat} (hsample : sample < image.samples)
    (hx : x < image.width) (hrow : row < image.height) :
    Total (image.blockAt sample x row) fun block =>
      block < image.decoded.length ∧
        block % image.blocks / image.blocksPerRow = row / image.blockHeight := by
  have hpos := blocksPerRow_pos made
  have hfits := made.fits
  have hinner := inPlane_lt made hx hrow
  have hcolumn : x / image.blockWidth < image.blocksPerRow := by
    rw [made.perRow]
    exact Layout.div_lt_divCeil made.blockWidth hx
  have hline : (row / image.blockHeight * image.blocksPerRow + x / image.blockWidth) /
      image.blocksPerRow = row / image.blockHeight := by
    rw [Nat.mul_comm, Nat.mul_add_div hpos, Nat.div_eq_of_lt hcolumn, Nat.add_zero]
  have hone : 0 < image.planes := by
    unfold planes
    split
    · exact made.samples
    · exact Nat.one_pos
  have hfirst := plane_lt made hone hinner
  unfold blockAt
  refine Total.bind (Total.quot (Nat.ne_of_gt made.blockWidth)) fun blockX hblockX => ?_
  refine Total.bind (Total.quot (Nat.ne_of_gt made.blockHeight)) fun blockY hblockY => ?_
  rw [← hblockX, ← hblockY] at hinner hfirst hline
  rw [← hblockY]
  refine Total.bind (Total.mul (by omega)) fun line hl => ?_
  subst hl
  refine Total.bind (Total.add (by omega)) fun inner hi => ?_
  subst hi
  split
  · rename_i hseparate
    have hplane : sample < image.planes := by
      rw [planes, if_pos hseparate]
      exact hsample
    have hblock := plane_lt made hplane hinner
    refine Total.bind (Total.mul (by omega)) fun before hbefore => ?_
    subst hbefore
    refine Total.mono (Total.add (by omega)) fun block hblock' => ?_
    subst hblock'
    rw [Nat.add_mul_mod_self_right, Nat.mod_eq_of_lt hinner]
    exact ⟨by omega, hline⟩
  · refine Total.pure ⟨by omega, ?_⟩
    rw [Nat.mod_eq_of_lt hinner]
    exact hline

theorem block_le_maxBlockBytes :
    image.blockWidth * image.blockHeight * image.samples ≤ Layout.maxBlockBytes := by
  have hsize := Layout.dataType_size_pos image.dataType
  calc image.blockWidth * image.blockHeight * image.samples
      ≤ image.blockWidth * image.blockHeight * image.dataType.size * image.samples :=
        Nat.mul_le_mul_right _ (Nat.le_mul_of_pos_right _ hsize)
    _ ≤ Layout.maxBlockBytes := made.bytes

/-- A node's place is among the rows of its block. -/
theorem placeAt_total {sample x row block : Nat} (hsample : sample < image.samples)
    (hrow : row < image.height)
    (hblock : block % image.blocks / image.blocksPerRow = row / image.blockHeight) :
    Total (image.placeAt sample x row) fun place =>
      place < image.rowsOf block * (image.blockWidth * image.perPixel) := by
  have hmax := block_le_maxBlockBytes made
  have hbound : Layout.maxBlockBytes < 2 ^ 64 := by decide
  have hx := Nat.mod_lt x made.blockWidth
  have hy := Nat.mod_lt row made.blockHeight
  have hrows : row % image.blockHeight < image.rowsOf block := by
    have hmod := Nat.div_add_mod' row image.blockHeight
    rw [rowsOf, hblock]
    omega
  have hrowsOf : image.rowsOf block ≤ image.blockHeight := Nat.min_le_left _ _
  have hplace : x % image.blockWidth + row % image.blockHeight * image.blockWidth <
      image.rowsOf block * image.blockWidth := by
    calc x % image.blockWidth + row % image.blockHeight * image.blockWidth
        < (row % image.blockHeight + 1) * image.blockWidth := by
          rw [Nat.succ_mul]
          omega
      _ ≤ image.rowsOf block * image.blockWidth := Nat.mul_le_mul_right _ hrows
  have hblockPixels : image.rowsOf block * image.blockWidth ≤
      image.blockWidth * image.blockHeight := by
    rw [Nat.mul_comm]
    exact Nat.mul_le_mul_left _ hrowsOf
  have hblockSamples : image.rowsOf block * image.blockWidth * image.samples ≤
      image.blockWidth * image.blockHeight * image.samples :=
    Nat.mul_le_mul_right _ hblockPixels
  have hpixels : image.blockWidth * image.blockHeight ≤
      image.blockWidth * image.blockHeight * image.samples :=
    Nat.le_mul_of_pos_right _ made.samples
  unfold placeAt perPixel
  refine Total.bind (Total.rest (Nat.ne_of_gt made.blockWidth)) fun xOff hxOff => ?_
  refine Total.bind (Total.rest (Nat.ne_of_gt made.blockHeight)) fun yOff hyOff => ?_
  rw [← hxOff] at hplace
  rw [← hyOff] at hplace
  refine Total.bind (Total.mul (by omega)) fun line hl => ?_
  subst hl
  refine Total.bind (Total.add (by omega)) fun place hp => ?_
  subst hp
  split
  · rw [Nat.mul_one]
    exact Total.pure hplace
  · rw [← Nat.mul_assoc]
    have hlast : (xOff + yOff * image.blockWidth) * image.samples + sample <
        image.rowsOf block * image.blockWidth * image.samples := by
      calc (xOff + yOff * image.blockWidth) * image.samples + sample
          < (xOff + yOff * image.blockWidth + 1) * image.samples := by
            rw [Nat.succ_mul]
            omega
        _ ≤ image.rowsOf block * image.blockWidth * image.samples :=
            Nat.mul_le_mul_right _ hplace
    refine Total.bind (Total.mul (by omega)) fun first hfirst => ?_
    subst hfirst
    exact Total.mono (Total.add (by omega)) fun place hp => by omega

/-! ## Values -/

/-- The block that a node's value is in. -/
theorem value_spec (hwhole : image.Whole) {sample x y : Nat} (hsample : sample < image.samples)
    (hx : x < image.width) (hy : y < image.height) :
    ∃ block < image.blockCount,
      (image.decoded[block]? = some none ∧ image.value sample x y = fail .notLoaded) ∨
        ∃ data v, image.decoded[block]? = some (some data) ∧ image.value sample x y = .ok v := by
  obtain ⟨row, hrow, hlt⟩ := fileRow_total (ε := NotLoaded) hy
  obtain ⟨block, hblock, hin, hline⟩ := blockAt_total made hsample hx hlt
  obtain ⟨decoded, hindex, hdecoded⟩ := Total.index (ε := NotLoaded) hin
  obtain ⟨place, hplace, hrows⟩ := placeAt_total made (x := x) hsample hlt hline
  refine ⟨block, hin, ?_⟩
  unfold value
  rw [hrow]
  show _ ∧ (image.blockAt sample x row >>= _) = _ ∨ ∃ data v, _ ∧
    (image.blockAt sample x row >>= _) = _
  rw [hblock]
  show _ ∧ (index image.decoded block >>= _) = _ ∨ ∃ data v, _ ∧
    (index image.decoded block >>= _) = _
  rw [hindex]
  cases decoded with
  | none => exact Or.inl ⟨hdecoded, rfl⟩
  | some data =>
    have hlength := hwhole block data hdecoded
    obtain ⟨v, hv, -⟩ := Total.index (ε := NotLoaded) (Nat.lt_of_lt_of_le hrows hlength)
    refine Or.inr ⟨data, v, hdecoded, ?_⟩
    show (image.placeAt sample x row >>= _) = _
    rw [hplace]
    exact hv

theorem value_sound (hwhole : image.Whole) {sample x y : Nat} (hsample : sample < image.samples)
    (hx : x < image.width) (hy : y < image.height) :
    Sound (image.value sample x y) fun _ => True := by
  obtain ⟨block, -, ⟨-, h⟩ | ⟨data, v, -, h⟩⟩ := value_spec made hwhole hsample hx hy
  · rw [h]
    exact Sound.fail
  · rw [h]
    trivial

/-! ## The blocks of an area -/

theorem blocksFor_total {x0 y0 x1 y1 : Nat} (hy0 : y0 < image.height) (hx1 : x1 < image.width)
    (hy1 : y1 < image.height) :
    Total (image.blocksFor x0 y0 x1 y1) fun blocks => ∀ b ∈ blocks, b < image.blockCount := by
  have hfits := made.fits
  unfold blocksFor
  refine Total.bind (fileRow_total hy0) fun a ha => ?_
  refine Total.bind (fileRow_total hy1) fun b hb => ?_
  refine Total.bind (Total.quot (Nat.ne_of_gt made.blockHeight)) fun firstRow _ => ?_
  refine Total.bind (Total.quot (Nat.ne_of_gt made.blockHeight)) fun lastRow hlastRow => ?_
  refine Total.bind (Total.quot (Nat.ne_of_gt made.blockWidth)) fun firstColumn _ => ?_
  refine Total.bind (Total.quot (Nat.ne_of_gt made.blockWidth)) fun lastColumn hlastColumn => ?_
  extract_lets places
  refine Total.mapM fun p hp => ?_
  obtain ⟨plane, row, column⟩ := p
  simp only [places, List.mem_flatMap, List.mem_map, List.mem_range, List.mem_range'_1,
    Prod.mk.injEq] at hp
  obtain ⟨plane', hplane, row', hrow, column', hcolumn, rfl, rfl, rfl⟩ := hp
  have hblock : row' * image.blocksPerRow + column' < image.blocks := by
    have hlast := inPlane_lt made hx1 (show max a b < image.height by omega)
    have hline : row' * image.blocksPerRow ≤ max a b / image.blockHeight * image.blocksPerRow :=
      Nat.mul_le_mul_right _ (by omega)
    rw [hlastColumn] at hcolumn
    omega
  have htotal := plane_lt made hplane hblock
  show Total (do add (← add (← mul plane' image.blocks) (← mul row' image.blocksPerRow)) column') _
  refine Total.bind (Total.mul (by omega)) fun before hbefore => ?_
  subst hbefore
  refine Total.bind (Total.mul (by omega)) fun line hline => ?_
  subst hline
  refine Total.bind (Total.add (by omega)) fun start hstart => ?_
  subst hstart
  refine Total.mono (Total.add (by omega)) fun block hb => ?_
  show block < image.decoded.length
  omega

theorem blockRange_total {block : Nat} (hblock : block < image.blockCount) :
    Total (image.blockRange block) fun _ => True := by
  unfold blockRange
  have hoffsets := made.offsets
  have hcounts := made.counts
  have hlt : block < image.decoded.length := hblock
  refine Total.bind (Total.index (by omega)) fun offset _ => ?_
  refine Total.bind (Total.index (by omega)) fun count _ => ?_
  exact ⟨_, rfl, trivial⟩

end Place

end Image

/-! ## Predictors -/

theorem succ_mul_le {n size i : Nat} (hi : i < n / size) :
    (i + 1) * size ≤ n := by
  calc (i + 1) * size ≤ n / size * size := Nat.mul_le_mul_right _ hi
    _ ≤ n := Nat.div_mul_le_self n size

theorem rowWord_sound {order : ByteOrder} {size i : Nat} {row : Bytes}
    (hrow : row.length < 2 ^ 64) (hi : i < row.length / size) :
    Sound (rowWord order size row i) fun _ => True := by
  have hlast := succ_mul_le hi
  have hstep : (i + 1) * size = i * size + size := Nat.succ_mul i size
  unfold rowWord
  refine Sound.bind (Sound.mul (by omega)) fun start hstart => ?_
  refine Sound.bind (Sound.mul (by omega)) fun stop hstop => ?_
  refine Sound.bind (Sound.slice (by omega) (by omega)) fun _ _ => ?_
  trivial

theorem ByteOrder.length_bytes (order : ByteOrder) (size value : Nat) :
    (order.bytes size value).length = size := by
  cases order <;> simp [ByteOrder.bytes]

theorem horizontalPredictor_sound {row : Bytes} {size stride : Nat} {order : ByteOrder}
    (hrow : row.length < 2 ^ 64) :
    Sound (horizontalPredictor row size stride order) fun out => out.length = row.length := by
  unfold horizontalPredictor
  refine Sound.foldlM rfl fun out i hi hout => ?_
  obtain ⟨hstride, hlt⟩ := List.mem_range'_1.1 hi
  have hin : i < out.length / size := by
    rw [hout]
    omega
  have hlast := succ_mul_le hin
  have hstep : (i + 1) * size = i * size + size := Nat.succ_mul i size
  refine Sound.bind (rowWord_sound (by omega) hin) fun here _ => ?_
  refine Sound.bind (Sound.sub hstride) fun j hj => ?_
  refine Sound.bind (rowWord_sound (by omega) (by omega)) fun before _ => ?_
  refine Sound.bind (Sound.mul (by omega)) fun start hstart => ?_
  refine Sound.mono (Sound.overwrite ?_) fun next hnext => hnext.trans hout
  rw [ByteOrder.length_bytes]
  omega

theorem undifference_sound (row : Bytes) (stride : Nat) :
    Sound (undifference row stride) fun out => out.length = row.length := by
  unfold undifference
  refine Sound.foldlM rfl fun out i hi hout => ?_
  obtain ⟨hstride, hlt⟩ := List.mem_range'_1.1 hi
  refine Sound.bind (Sound.index (by omega)) fun here _ => ?_
  refine Sound.bind (Sound.sub hstride) fun j hj => ?_
  refine Sound.bind (Sound.index (by omega)) fun before _ => ?_
  exact Sound.mono (Sound.store (by omega)) fun next hnext => hnext.2.trans hout

theorem floatingPointPredictor_sound {row : Bytes} {size stride : Nat} {order : ByteOrder}
    (hrow : row.length < 2 ^ 64) :
    Sound (floatingPointPredictor row size stride order) fun out => out.length = row.length := by
  unfold floatingPointPredictor
  refine Sound.bind (undifference_sound row stride) fun planes hplanes => ?_
  extract_lets count places
  have hcount : count * size ≤ row.length := Nat.div_mul_le_self row.length size
  have hplaces : ∀ p ∈ places, p.1 < count ∧ p.2 < size := by
    intro p hp
    simp only [places, List.mem_flatMap, List.mem_map, List.mem_range] at hp
    obtain ⟨i, hi, b, hb, rfl⟩ := hp
    exact ⟨hi, hb⟩
  clear_value places count
  refine Sound.mono (Sound.foldlM (I := fun out : Bytes => out.length = planes.length) rfl
    fun out p hp hout => ?_) fun out hout => hout.trans hplanes
  obtain ⟨i, b⟩ := p
  obtain ⟨hi, hb⟩ : i < count ∧ b < size := hplaces _ hp
  dsimp only
  have hplane : (b + 1) * count ≤ count * size := by
    rw [Nat.mul_comm count]
    exact Nat.mul_le_mul_right _ hb
  have hvalue : (i + 1) * size ≤ count * size := Nat.mul_le_mul_right _ hi
  rw [Nat.succ_mul] at hplane hvalue
  refine Sound.bind (Sound.mul (by omega)) fun first hfirst => ?_
  subst hfirst
  refine Sound.bind (Sound.add (by omega)) fun place hplace => ?_
  refine Sound.bind (Sound.index (by omega)) fun byte _ => ?_
  have hwithin : Sound (if order = .big then .ok b else do sub (← sub size 1) b : Reading Nat)
      (· < size) := by
    split
    · exact hb
    · refine Sound.bind (Sound.sub (by omega)) fun last hlast => ?_
      exact Sound.mono (Sound.sub (by omega)) fun within hw => by omega
  refine Sound.bind hwithin fun within hw => ?_
  refine Sound.bind (Sound.mul (by omega)) fun start hstart => ?_
  subst hstart
  refine Sound.bind (Sound.add (by omega)) fun target htarget => ?_
  exact Sound.mono (Sound.store (by omega)) fun next hnext => hnext.2.trans hout

/-! ## Decoding -/

namespace Image

variable {image : Image}

theorem readValue_sound {v : Bytes} {sample : Nat} (hv : v.length = image.dataType.size) :
    Sound (image.readValue v sample) fun _ => True := by
  unfold readValue
  refine Sound.bind (Sound.slice (Nat.zero_le _) (Nat.le_of_eq hv.symm)) fun value _ => ?_
  extract_lets raw isNodata
  split
  · split <;> trivial
  · trivial

/-- The predictor is one that decoding knows. -/
def Predicts (image : Image) : Prop :=
  image.predictor = 1 ∨ image.predictor = 2 ∨ image.predictor = 3

theorem unpredict_sound {row : Bytes} (hrow : row.length < 2 ^ 64) :
    Sound (image.unpredict row) fun out => out.length = row.length ∧ image.Predicts := by
  unfold unpredict
  split
  · rename_i h
    exact ⟨rfl, Or.inl h⟩
  · rename_i h
    exact Sound.mono (horizontalPredictor_sound hrow) fun out hout => ⟨hout, Or.inr (Or.inl h)⟩
  · rename_i h
    exact Sound.mono (floatingPointPredictor_sound hrow) fun out hout =>
      ⟨hout, Or.inr (Or.inr h)⟩
  · exact Sound.fail

theorem length_chunksExact {α : Type} (size : Nat) (values : List α) :
    (chunksExact size values).length = values.length / size := by
  simp [chunksExact]

theorem decodeRow_sound (hsamples : 0 < image.samples) {plane : Nat} {row : Bytes}
    (hrow : row.length < 2 ^ 64) :
    Sound (image.decodeRow plane row) fun values =>
      values.length = row.length / image.dataType.size ∧ image.Predicts := by
  unfold decodeRow
  refine Sound.bind (unpredict_sound hrow) fun out hout => ?_
  have hvalues : Sound ((chunksExact image.dataType.size out).zipIdx.mapM fun v => do
      let sample ← (if image.separatePlanes then .ok plane else rest v.2 image.samples)
      image.readValue v.1 sample)
      fun values => values.length = (chunksExact image.dataType.size out).zipIdx.length ∧
        ∀ v ∈ values, True := by
    refine Sound.mapM fun v hv => ?_
    have hmem := List.mem_of_getElem? (List.mem_zipIdx_iff_getElem?.1 hv)
    have hsample : Sound (if image.separatePlanes then .ok plane else rest v.2 image.samples :
        Reading Nat) fun _ => True := by
      split
      · trivial
      · exact Sound.mono (Sound.rest (Nat.ne_of_gt hsamples)) fun _ _ => trivial
    refine Sound.bind hsample fun sample _ => ?_
    exact readValue_sound (length_of_mem_chunksExact hmem)
  refine Sound.mono hvalues fun values hlength => ⟨?_, hout.2⟩
  rw [hlength.1, List.length_zipIdx, length_chunksExact, hout.1]

theorem decompress_sound {libraries : Libraries} {raw : Bytes} :
    Sound (image.decompress libraries raw) fun _ => True := by
  unfold decompress
  split
  · trivial
  · split <;> trivial
  · exact (Lzw.decode_sound raw).mapError

/-- Values in a row of a block. -/
def rowValues (image : Image) : Nat := image.blockWidth * image.perPixel

/-- Bytes of a row of a block. -/
def rowBytes (image : Image) : Nat := image.rowValues * image.dataType.size

theorem perPixel_le (hsamples : 0 < image.samples) : image.perPixel ≤ image.samples := by
  unfold perPixel
  split
  · exact hsamples
  · exact Nat.le_refl _

theorem perPixel_pos (hsamples : 0 < image.samples) : 0 < image.perPixel := by
  unfold perPixel
  split
  · exact Nat.one_pos
  · exact hsamples

theorem rowBytes_pos (made : image.Made) : 0 < image.rowBytes :=
  Nat.mul_pos (Nat.mul_pos made.blockWidth (perPixel_pos made.samples))
    (Layout.dataType_size_pos _)

theorem rowBytes_le (made : image.Made) : image.rowBytes ≤ Layout.maxBlockBytes := by
  have hsamples := perPixel_le made.samples
  calc image.rowBytes = image.blockWidth * image.dataType.size * image.perPixel := by
        rw [rowBytes, rowValues, Nat.mul_right_comm]
    _ ≤ image.blockWidth * image.blockHeight * image.dataType.size * image.samples := by
        apply Nat.mul_le_mul _ hsamples
        exact Nat.mul_le_mul_right _ (Nat.le_mul_of_pos_right _ made.blockHeight)
    _ ≤ Layout.maxBlockBytes := made.bytes

theorem length_flatten_of_forall {rows : List (List Float32)} {n : Nat}
    (h : ∀ row ∈ rows, row.length = n) : rows.flatten.length = rows.length * n := by
  rw [List.length_flatten, List.map_congr_left h, List.map_const', List.sum_replicate_nat]

/-- What a block decodes to: the values of all whole rows of its bytes. -/
theorem decodeBlock_sound (made : image.Made) {libraries : Libraries} {block : Nat} {raw : Bytes} :
    Sound (image.decodeBlock libraries block raw) fun values =>
      ∃ bytes, image.decompress libraries raw = .ok bytes ∧ bytes.length / image.rowBytes ≠ 0 ∧
        image.Predicts ∧ values.length = bytes.length / image.rowBytes * image.rowValues := by
  have hpos := rowBytes_pos made
  have hmax := rowBytes_le made
  have hbound : Layout.maxBlockBytes < 2 ^ 64 := by decide
  have hvalues : image.rowValues ≤ image.rowBytes :=
    Nat.le_mul_of_pos_right _ (Layout.dataType_size_pos _)
  unfold decodeBlock
  refine Sound.bind (Sound.of_eq decompress_sound) fun bytes hbytes => ?_
  refine Sound.bind (Sound.mul (by show image.rowValues < _; omega)) fun n hn => ?_
  subst hn
  refine Sound.bind (Sound.mul (by show image.rowBytes < _; omega)) fun m hm => ?_
  replace hm : m = image.rowBytes := hm
  subst hm
  refine Sound.bind (Sound.quot (Nat.ne_of_gt hpos)) fun rows hrows => ?_
  split
  · exact Sound.fail
  rename_i hzero
  have hplane : Sound (if image.separatePlanes then quot block image.blocks else .ok 0 :
      Reading Nat) fun _ => True := by
    split
    · exact Sound.mono (Sound.quot (Nat.ne_of_gt (blocks_pos made))) fun _ _ => trivial
    · trivial
  refine Sound.bind hplane fun plane _ => ?_
  have htake : (bytes.take (rows * image.rowBytes)).length / image.rowBytes = rows := by
    have hle : rows * image.rowBytes ≤ bytes.length := by
      rw [hrows]
      exact Nat.div_mul_le_self _ _
    rw [List.length_take, Nat.min_eq_left hle, Nat.mul_div_cancel _ hpos]
  have hrow : ∀ row ∈ chunksExact image.rowBytes (bytes.take (rows * image.rowBytes)),
      Sound (image.decodeRow plane row) fun values =>
        values.length = image.rowValues ∧ image.Predicts := by
    intro row hmem
    have hlength := length_of_mem_chunksExact hmem
    refine Sound.mono (decodeRow_sound made.samples (by omega)) fun values h => ⟨?_, h.2⟩
    rw [h.1, hlength, rowBytes, Nat.mul_div_cancel _ (Layout.dataType_size_pos _)]
  refine Sound.bind (Sound.mapM hrow) fun decoded hdecoded => ?_
  have hcount : decoded.length = rows := by
    rw [hdecoded.1, length_chunksExact, htake]
  obtain ⟨first, hfirst⟩ := List.exists_mem_of_length_pos (l := decoded) (by omega)
  refine ⟨bytes, hbytes.1, by rw [← hrows]; exact hzero, (hdecoded.2 first hfirst).2, ?_⟩
  rw [length_flatten_of_forall fun row hr => (hdecoded.2 row hr).1, hcount, hrows]

end Image

/-! ## Cells -/

/-- The cell after the one that a coordinate falls in is counted in 64 bits. -/
def CellFits (t : F64) : Prop := t.floorWord ≠ 2 ^ 63 - 1

theorem floorWord_bounds (t : F64) : -2 ^ 63 ≤ t.floorWord ∧ t.floorWord ≤ 2 ^ 63 - 1 := by
  unfold F64.floorWord
  split
  · decide
  · simp only
    omega

theorem cell_panic {t : F64} {size : Nat} (h : ¬ CellFits t) : cell t size = panic := by
  have hlast : t.floorWord = 2 ^ 63 - 1 := not_not.1 h
  have hpos : ¬ t.floorWord < 0 := by omega
  have hnext : increment t.floorWord = panic := by
    unfold increment
    rw [if_neg (by omega)]
  unfold cell
  simp only [if_neg hpos, hnext]
  rfl

/-- A cell has its upper edge inside the grid, also where it was snapped to. -/
theorem cell_total {t : F64} {size : Nat} (hsize : 2 ≤ size) (hfits : CellFits t) :
    Total (cell t size) fun c => ∀ i frac, c = some (i, frac) → i + 1 < size := by
  obtain ⟨-, hhigh⟩ := floorWord_bounds t
  have hword : ∀ i : Int, 0 ≤ i → i < 2 ^ 63 → (asUsize i : Int) = i := by
    intro i hlow hlt
    unfold asUsize
    omega
  unfold cell
  extract_lets index frac
  have hfits : index ≠ 2 ^ 63 - 1 := hfits
  split
  · split
    · refine Total.pure fun i f h => ?_
      cases h
      omega
    · exact Total.pure nofun
  · rename_i hpos
    have hnext : increment index = .ok (index + 1) := by
      unfold increment
      rw [if_pos (by omega)]
    refine Total.bind ⟨_, hnext, rfl⟩ fun next hn => ?_
    replace hn : index + 1 = next := hn
    split
    · split
      · refine Total.pure fun i f h => ?_
        cases h
        have hasUsize := hword (index - 1) (by omega) (by omega)
        omega
      · exact Total.pure nofun
    · refine Total.pure fun i f h => ?_
      cases h
      have hasUsize := hword index (by omega) (by omega)
      omega

/-! ## Interpolation -/

section Interpolate

variable {image : Image} (made : image.Made) (hwhole : image.Whole)
include made hwhole

theorem hValue_sound {info : HInfo} (hlat : info.lat < image.samples)
    (hlon : info.lon < image.samples) {x y : Nat} (hx : x < image.width) (hy : y < image.height) :
    Sound (hValue image info x y) fun _ => True := by
  unfold hValue
  refine Sound.bind (Image.value_sound made hwhole hlat hx hy) fun lat _ => ?_
  refine Sound.bind (Image.value_sound made hwhole hlon hx hy) fun lon _ => ?_
  trivial

theorem hInterpolate_sound {t : F64 × F64} {info : HInfo} (hlat : info.lat < image.samples)
    (hlon : info.lon < image.samples) (hx : CellFits (t.1 / image.extent.resX))
    (hy : cell (t.1 / image.extent.resX) image.width = .ok none ∨
      CellFits (t.2 / image.extent.resY)) :
    Sound (hInterpolate t image info) fun _ => True := by
  have hwidth := made.width.2
  have hheight := made.height.2
  have hside : maxImageSide < 2 ^ 64 := by decide
  unfold hInterpolate
  obtain ⟨column, hcolumn, hinX⟩ := cell_total made.width.1 hx
  rw [hcolumn]
  obtain _ | ⟨ix, fx⟩ := column
  · trivial
  have hright := hinX ix fx rfl
  have hy : CellFits (t.2 / image.extent.resY) := by
    rcases hy with hnone | hy
    · rw [hcolumn] at hnone
      cases hnone
    · exact hy
  obtain ⟨row, hrow, hinY⟩ := cell_total made.height.1 hy
  dsimp only [bind, Except.bind]
  rw [hrow]
  obtain _ | ⟨iy, fy⟩ := row
  · trivial
  have htop := hinY iy fy rfl
  refine Sound.bind (Sound.add (by omega)) fun ix2 hix2 => ?_
  refine Sound.bind (Sound.add (by omega)) fun iy2 hiy2 => ?_
  subst hix2 hiy2
  refine Sound.bind (hValue_sound made hwhole hlat hlon (by omega) (by omega)) fun f00 _ => ?_
  refine Sound.bind (hValue_sound made hwhole hlat hlon hright (by omega)) fun f10 _ => ?_
  refine Sound.bind (hValue_sound made hwhole hlat hlon (by omega) htop) fun f01 _ => ?_
  refine Sound.bind (hValue_sound made hwhole hlat hlon hright htop) fun f11 _ => ?_
  trivial

/-- Interpolating in a whole image stops exactly at a point whose cell is too
far away to be counted. -/
theorem hInterpolate_iff {t : F64 × F64} {info : HInfo} (hlat : info.lat < image.samples)
    (hlon : info.lon < image.samples) :
    hInterpolate t image info ≠ panic ↔
      CellFits (t.1 / image.extent.resX) ∧
        (cell (t.1 / image.extent.resX) image.width = .ok none ∨
          CellFits (t.2 / image.extent.resY)) := by
  constructor
  · intro h
    by_contra hnot
    apply h
    unfold hInterpolate
    by_cases hx : CellFits (t.1 / image.extent.resX)
    · obtain ⟨column, hcolumn, -⟩ := cell_total made.width.1 hx
      rw [hcolumn] at hnot ⊢
      cases column with
      | none => exact absurd ⟨hx, Or.inl rfl⟩ hnot
      | some c =>
        have hy : ¬ CellFits (t.2 / image.extent.resY) := fun hy => hnot ⟨hx, Or.inr hy⟩
        show (cell (t.2 / image.extent.resY) image.height >>= _) = panic
        rw [cell_panic hy]
        rfl
    · rw [cell_panic hx]
      rfl
  · rintro ⟨hx, hy⟩
    exact (hInterpolate_sound made hwhole hlat hlon hx hy).ne_panic

theorem vgridValue_sound {sample : Nat} (hsample : sample < image.samples) (lon lat : F64) :
    Sound (vgridValue image sample lon lat) fun _ => True := by
  have hwidth := made.width
  have hheight := made.height
  have hside : maxImageSide < 2 ^ 63 := by decide
  unfold vgridValue
  split
  · trivial
  extract_lets x y ix iy fx fy column row xy
  split
  · trivial
  rename_i hinside
  have hcolumn : column < image.width := by
    show asUsize ix < image.width
    unfold asUsize
    omega
  have hrow : row < image.height := by
    show asUsize iy < image.height
    unfold asUsize
    omega
  refine Sound.bind (Sound.add (by omega)) fun next hnext => ?_
  refine Sound.bind (Sound.sub (by omega)) fun lastColumn hlastColumn => ?_
  refine Sound.bind (Sound.sub (by omega)) fun lastRow hlastRow => ?_
  extract_lets column2
  have hcolumn2 : column2 < image.width := by
    show (if image.width ≤ next then _ else _) < image.width
    split
    · split <;> omega
    · omega
  refine Sound.bind (Sound.add (by omega)) fun nextRow _ => ?_
  have hrow2 : min nextRow lastRow < image.height := by omega
  refine Sound.bind (Image.value_sound made hwhole hsample hcolumn hrow) fun v00 _ => ?_
  refine Sound.bind (Image.value_sound made hwhole hsample hcolumn2 hrow) fun v10 _ => ?_
  refine Sound.bind (Image.value_sound made hwhole hsample hcolumn hrow2) fun v01 _ => ?_
  refine Sound.bind (Image.value_sound made hwhole hsample hcolumn2 hrow2) fun v11 _ => ?_
  trivial

end Interpolate

end Xeibe.Reproject.Grid

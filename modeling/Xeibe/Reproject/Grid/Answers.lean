import Xeibe.Reproject.Grid.Runs

/-!
# Grid files answer

What a file of a run gives: pieces are taken or refused, every node of a decoded
block has a value, and interpolation stops at no point whose cells are counted in
64 bits.  A block that is accepted short of its rows is what the conditions of a
run leave out: reading one of the nodes it lacks stops the program.
-/

namespace Xeibe.Reproject.Grid

open Xeibe.Geom (F64)
open Xeibe.Lib
open Xeibe.Lib.Checked

/-- Every question about an image's nodes and blocks has an answer. -/
structure Image.Answers (image : Image) : Prop where
  /-- A node has a value, or its block is not loaded yet. -/
  node : ∀ sample x y, sample < image.samples → x < image.width → y < image.height →
    ∃ block < image.blockCount,
      (image.decoded[block]? = some none ∧ image.value sample x y = fail .notLoaded) ∨
        ∃ data v, image.decoded[block]? = some (some data) ∧ image.value sample x y = .ok v
  /-- The blocks of an area are blocks of the image. -/
  area : ∀ x0 y0 x1 y1, x0 < image.width → y0 < image.height → x1 < image.width →
    y1 < image.height →
      ∃ blocks, image.blocksFor x0 y0 x1 y1 = .ok blocks ∧ ∀ b ∈ blocks, b < image.blockCount
  /-- A block has a place in the file. -/
  place : ∀ block < image.blockCount, ∃ place, image.blockRange block = .ok place

theorem GridFile.Readable.answers {image : Image} (h : GridFile.Readable image) :
    image.Answers := by
  obtain ⟨made, whole⟩ := h
  refine ⟨fun sample x y hsample hx hy => ?_, fun x0 y0 x1 y1 _ hy0 hx1 hy1 => ?_,
    fun block hblock => ?_⟩
  · exact Image.value_spec made whole hsample hx hy
  · exact Image.blocksFor_total made hy0 hx1 hy1
  · obtain ⟨place, hplace, -⟩ := Image.blockRange_total made hblock
    exact ⟨place, hplace⟩

/-- In every run of pieces that meet the conditions, the next such piece is
taken or refused with an error, every question about the images has an answer,
and interpolation gives one at every point whose cells are counted in 64 bits. -/
theorem grids_answer {libraries : Libraries} {file : GridFile}
    (run : GridFile.Run libraries file) :
    (∀ offset data, file.Meets libraries offset data →
      file.insert libraries offset data ≠ panic) ∧
    ∀ images, file.images = some (.ok images) →
      (∀ image ∈ images, image.Answers) ∧
      (∀ nodes, horizontal images = .ok nodes → ∀ node ∈ nodes,
        ∃ image, images[node.image]? = some image ∧ ∀ t,
          (hInterpolate t image node.info ≠ panic ↔
            CellFits (t.1 / image.extent.resX) ∧
              (cell (t.1 / image.extent.resX) image.width = .ok none ∨
                CellFits (t.2 / image.extent.resY)))) ∧
      ∀ nodes, vertical images = .ok nodes → ∀ node ∈ nodes,
        ∃ image, images[node.image]? = some image ∧ ∀ lon lat,
          vgridValue image node.info.sample lon lat ≠ panic := by
  have sane := run.sane
  refine ⟨fun offset data hmeets => (GridFile.insert_sound sane hmeets).ne_panic,
    fun images himages => ?_⟩
  have hreadable := sane.images images himages
  refine ⟨fun image hi => (hreadable image hi).answers, fun nodes hnodes node hnode => ?_,
    fun nodes hnodes node hnode => ?_⟩
  · obtain ⟨image, himage, hlat, hlon⟩ := horizontal_samples hnodes node hnode
    obtain ⟨made, whole⟩ := hreadable image (List.mem_of_getElem? himage)
    exact ⟨image, himage, fun t => hInterpolate_iff made whole hlat hlon⟩
  · obtain ⟨image, himage, hsample⟩ := vertical_samples hnodes node hnode
    obtain ⟨made, whole⟩ := hreadable image (List.mem_of_getElem? himage)
    exact ⟨image, himage, fun lon lat => (vgridValue_sound made whole hsample lon lat).ne_panic⟩

/-! ## A small file -/

/-- One entry of a little-endian directory. -/
def entryBytes (tag fieldType value count : Nat) : Bytes :=
  ByteOrder.little.bytes 2 tag ++ ByteOrder.little.bytes 2 fieldType ++
    ByteOrder.little.bytes 4 count ++ ByteOrder.little.bytes 4 value

/-- A file of one image of two by two single-precision values, in one strip of
`count` bytes. -/
def smallFile (count : Nat) : Bytes :=
  [73, 73, 42, 0] ++ ByteOrder.little.bytes 4 8 ++ ByteOrder.little.bytes 2 11 ++
    entryBytes Tags.imageWidth 3 2 1 ++ entryBytes Tags.imageLength 3 2 1 ++
    entryBytes Tags.bitsPerSample 3 32 1 ++ entryBytes Tags.samplesPerPixel 3 1 1 ++
    entryBytes Tags.planarConfig 3 1 1 ++ entryBytes Tags.sampleFormat 3 3 1 ++
    entryBytes Tags.stripOffsets 4 218 1 ++ entryBytes Tags.rowsPerStrip 3 2 1 ++
    entryBytes Tags.stripByteCounts 4 count 1 ++
    entryBytes Tags.modelPixelScale 12 146 3 ++ entryBytes Tags.modelTiepoint 12 170 6 ++
    ByteOrder.little.bytes 4 0 ++
    [0x3ff0000000000000, 0x3ff0000000000000, 0,
      0, 0, 0, 0x4024000000000000, 0x4034000000000000, 0].flatMap (ByteOrder.little.bytes 8) ++
    [0x3f800000, 0x40000000, 0x40400000, 0x40800000].flatMap (ByteOrder.little.bytes 4)

/-- Libraries for files without compressed blocks, texts of ASCII and no numbers
in them. -/
def plainLibraries : Libraries where
  inflate := fun _ => .error "corrupt deflate stream"
  lossy := fun b => b.map fun c => Char.ofNat c.toNat
  lossy_le := fun b => by simp
  parseDouble := fun _ => none

/-- Some file with one image has a first block with `rows` values per sample
decoded, and `check` holds of the image. -/
def smallCheck (count : Nat) (check : Image → Bool) : Bool :=
  match GridFile.new.insert plainLibraries 0 (smallFile count) with
  | .ok (⟨_, some (.ok [image])⟩, none) => check image
  | _ => false

/-- A strip of one row, where the image has two, is accepted: reading a node of
the row that it lacks stops the program. -/
theorem not_grids_answer :
    ¬ ∀ (libraries : Libraries) (offset : Nat) (data : Bytes) (file : GridFile)
      (e : Option String) (images : List Image) (image : Image),
      offset + data.length < 2 ^ 64 →
      GridFile.new.insert libraries offset data = .ok (file, e) →
      file.images = some (.ok images) → image ∈ images →
      ∀ sample x y, sample < image.samples → x < image.width → y < image.height →
        image.value sample x y ≠ panic := by
  intro h
  have hcheck : smallCheck 8 (fun image => decide (0 < image.samples ∧ 0 < image.width ∧
      0 < image.height ∧ image.value 0 0 0 = panic)) = true := by decide +kernel
  unfold smallCheck at hcheck
  split at hcheck
  · rename_i loaded image hinsert
    obtain ⟨hsamples, hwidth, hheight, hpanic⟩ := of_decide_eq_true hcheck
    exact h plainLibraries 0 (smallFile 8) _ none [image] image (by decide +kernel) hinsert rfl
      (by simp) 0 0 0 hsamples hwidth hheight hpanic
  · cases hcheck

/-- A directory that is the last one has the only sizes that matter. -/
theorem sizesFit_last {libraries : Libraries} {r : Reader} {left next : Nat} {tags : Tags}
    {l : Layout} (hdirectory : directory r next = .ok tags) (hlast : nextDirectory r next = .ok 0)
    (hlayout : layout r tags = .ok l) (hfits : l.Fits) : SizesFit libraries r left next := by
  intro place tags' l' hreads hplace hl
  cases hreads with
  | here _ =>
    rw [hdirectory] at hplace
    cases hplace
    rw [hlayout] at hl
    cases hl
    exact hfits
  | next _ _ _ hnext hrest =>
    rw [hlast] at hnext
    cases hnext
    cases hrest with
    | here h => exact absurd rfl h
    | next h => exact absurd rfl h

/-- The small file with both its rows, loaded. -/
def smallRanges : Ranges := ⟨[(0, smallFile 16)]⟩

def smallReader : Reader := ⟨smallRanges, .little⟩

theorem smallRanges_sizesFit : smallRanges.SizesFit plainLibraries := by
  intro head order next hhead horder hnext
  have hget : smallRanges.get 0 8 = .ok [73, 73, 42, 0, 8, 0, 0, 0] := by decide +kernel
  rw [hget] at hhead
  cases hhead
  have hlittle : byteOrder [73, 73, 42, 0, 8, 0, 0, 0] = .ok .little := by decide +kernel
  rw [hlittle] at horder
  cases horder
  have hfirst : smallReader.u32 4 = .ok 8 := by decide +kernel
  rw [show (Reader.mk smallRanges .little) = smallReader from rfl, hfirst] at hnext
  cases hnext
  have hlayout : (directory smallReader 8 >>= layout smallReader) =
      .ok ⟨2, 2, 1, 1, .float32, .none, 1, 0, 2, 2, [218], [16]⟩ := by decide +kernel
  obtain ⟨tags, htags, hlayout⟩ := bind_eq_ok.1 hlayout
  exact sizesFit_last htags (by decide +kernel) hlayout (by unfold Layout.Fits; decide +kernel)

def smallParsed (check : Image → Bool) : Bool :=
  match GridFile.new.parsed plainLibraries smallRanges with
  | .ok (.ok [image]) => check image
  | _ => false

theorem smallFile_meets : GridFile.new.Meets plainLibraries 0 (smallFile 16) := by
  refine ⟨by decide +kernel, fun loaded hloaded => ?_⟩
  have hinsert : GridFile.new.loaded.insert 0 (smallFile 16) = .ok smallRanges := by
    decide +kernel
  rw [hinsert] at hloaded
  cases hloaded
  refine ⟨fun _ => smallRanges_sizesFit, fun images himages => ?_⟩
  have hcheck : smallParsed (fun image => decide (image.decoded = [none] ∧
      image.offsets = [218] ∧ image.counts = [16] ∧ image.compression = .none ∧
      image.rowBytes = 8 ∧ image.blockHeight = 2)) = true := by decide +kernel
  unfold smallParsed at hcheck
  rw [himages] at hcheck
  split at hcheck
  · rename_i image hone
    cases hone
    obtain ⟨hdecoded, hoffsets, hcounts, hcompression, hrowBytes, hblockHeight⟩ :=
      of_decide_eq_true hcheck
    have hrange : List.range image.blockCount = [0] := by
      rw [Image.blockCount, hdecoded]
      rfl
    refine ⟨?_, fun _ => trivial⟩
    rw [hrange]
    refine ⟨fun _ hshort => ?_, fun _ => trivial⟩
    obtain ⟨raw, bytes, ⟨offset, count, hoffset, hcount, -, hraw⟩, hbytes, -, -, hless⟩ := hshort
    rw [hoffsets] at hoffset
    rw [hcounts] at hcount
    cases hoffset
    cases hcount
    rw [Image.decompress, hcompression] at hbytes
    cases hbytes
    have hlength := (Ranges.get_sound (r := smallRanges) (by decide)).of_ok hraw
    rw [hlength, hrowBytes] at hless
    have hrows : image.rowsOf 0 ≤ 2 := hblockHeight ▸ Nat.min_le_left _ _
    omega
  · cases hcheck

/-- The small file with both its rows answers. -/
theorem grids_answer_smallFile :
    ∃ file images, GridFile.Run plainLibraries file ∧ file.images = some (.ok images) ∧
      images ≠ [] ∧ ∀ image ∈ images, image.Answers := by
  have hcheck : smallCheck 16 (fun _ => true) = true := by decide +kernel
  unfold smallCheck at hcheck
  split at hcheck
  · rename_i loaded image hinsert
    have run : GridFile.Run plainLibraries ⟨loaded, some (.ok [image])⟩ :=
      GridFile.Run.insert GridFile.Run.new smallFile_meets hinsert
    exact ⟨_, [image], run, rfl, by simp, ((grids_answer run).2 [image] rfl).1⟩
  · cases hcheck

end Xeibe.Reproject.Grid

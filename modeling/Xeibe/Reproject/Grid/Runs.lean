import Xeibe.Reproject.Grid.Nodes

/-!
# Runs of a grid file

A grid file is filled by any pieces, in any order.  While the sizes of its
images fit a word and no block is decoded short of its rows, nothing stops: each
piece is taken or refused with an error, and every node of a decoded block has a
value.
-/

namespace Xeibe.Reproject.Grid

open Xeibe.Geom (F64 chunksExact)
open Xeibe.Lib
open Xeibe.Lib.Checked

namespace Image

/-! ## Blocks that are short or refused -/

/-- The block is not decoded. -/
def Open (image : Image) (block : Nat) : Prop := image.decoded[block]? = some none

section Blocks

variable (libraries : Libraries) (ranges : Ranges) (image : Image) (block : Nat)

/-- The bytes of the block are loaded: `raw`. -/
def Loaded (raw : Bytes) : Prop :=
  ∃ offset count, image.offsets[block]? = some offset ∧ image.counts[block]? = some count ∧
    count ≠ 0 ∧ ranges.get offset count = .ok raw

/-- The block is loaded and decompresses to some rows, but not to all of its
rows of the image. -/
def Short : Prop :=
  ∃ raw bytes, image.Loaded ranges block raw ∧ image.decompress libraries raw = .ok bytes ∧
    bytes.length / image.rowBytes ≠ 0 ∧ image.Predicts ∧
    bytes.length / image.rowBytes < image.rowsOf block

/-- The block can't be decoded: it is empty, its bytes don't decompress to a row,
or its predictor isn't known. -/
def Refused : Prop :=
  image.counts[block]? = some 0 ∨
    ∃ raw, image.Loaded ranges block raw ∧ ∀ bytes, image.decompress libraries raw = .ok bytes →
      bytes.length / image.rowBytes = 0 ∨ ¬ image.Predicts

end Blocks

/-- No block is short, of those that are decoded up to the first refused one. -/
def BlocksWhole (libraries : Libraries) (ranges : Ranges) (image : Image) : List Nat → Prop
  | [] => True
  | block :: blocks =>
    (image.Open block → ¬ image.Short libraries ranges block) ∧
      ((image.Open block → ¬ image.Refused libraries ranges block) →
        BlocksWhole libraries ranges image blocks)

variable {libraries : Libraries} {ranges : Ranges} {image : Image}

/-! ## One block decoded -/

/-- The image with a block's values. -/
def withBlock (image : Image) (block : Nat) (values : List Float32) : Image :=
  { image with decoded := image.decoded.set block (some values) }

theorem Made.withBlock (made : image.Made) (block : Nat) (values : List Float32) :
    (image.withBlock block values).Made := by
  have hlength : (image.decoded.set block (some values)).length = image.decoded.length :=
    List.length_set
  exact ⟨made.width, made.height, made.samples, made.blockWidth, made.blockHeight, made.bytes,
    made.perRow, made.perPlane, hlength.trans made.decoded, hlength.trans_lt made.fits,
    hlength.trans_le made.offsets, hlength.trans_le made.counts, made.places⟩

theorem Whole.withBlock (hwhole : image.Whole) {block : Nat} {values : List Float32}
    (hvalues : image.rowsOf block * image.rowValues ≤ values.length) :
    (image.withBlock block values).Whole := by
  intro b data hdata
  have hget : (image.decoded.set block (some values))[b]? = some (some data) := hdata
  by_cases hb : block = b
  · subst hb
    rw [List.getElem?_set_self'] at hget
    obtain ⟨old, -, hold⟩ := Option.map_eq_some_iff.1 hget
    cases hold
    exact hvalues
  · rw [List.getElem?_set_ne hb] at hget
    exact hwhole b data hget

theorem open_withBlock {block b : Nat} {values : List Float32} (h : block ≠ b) :
    (image.withBlock block values).Open b ↔ image.Open b := by
  unfold Open withBlock
  rw [List.getElem?_set_ne h]

theorem blocksWhole_withBlock {block : Nat} {values : List Float32} {blocks : List Nat}
    (hnot : block ∉ blocks) (h : image.BlocksWhole libraries ranges blocks) :
    (image.withBlock block values).BlocksWhole libraries ranges blocks := by
  induction blocks with
  | nil => trivial
  | cons b blocks ih =>
    obtain ⟨hshort, hrest⟩ := h
    simp only [List.mem_cons, not_or] at hnot
    have hopen : (image.withBlock block values).Open b ↔ image.Open b := open_withBlock hnot.1
    refine ⟨fun ho => hshort (hopen.1 ho), fun hrefused => ih hnot.2 (hrest fun ho => ?_)⟩
    exact hrefused (hopen.2 ho)

/-- A block that is decoded has the values of the rows that its bytes
decompress to. -/
theorem decode_sound (made : image.Made) {block : Nat} (hblock : block < image.blockCount) :
    Sound (image.decode libraries block ranges) fun next =>
      next = image ∧ ¬ image.Open block ∨
        ∃ raw bytes values, image.Open block ∧ image.Loaded ranges block raw ∧
          image.decompress libraries raw = .ok bytes ∧ bytes.length / image.rowBytes ≠ 0 ∧
          image.Predicts ∧ values.length = bytes.length / image.rowBytes * image.rowValues ∧
          next = image.withBlock block values := by
  have hlt : block < image.decoded.length := hblock
  have hoffsets := made.offsets
  have hcounts := made.counts
  unfold decode
  refine Sound.bind (Sound.index hlt) fun old hold => ?_
  split
  · refine Or.inl ⟨rfl, fun hopen => ?_⟩
    rw [hopen] at hold
    cases hold
  · unfold blockRange
    obtain ⟨offset, hoffset, hoffset?⟩ :=
      Total.index (ε := TiffError) (show block < image.offsets.length by omega)
    obtain ⟨count, hcount, hcount?⟩ :=
      Total.index (ε := TiffError) (show block < image.counts.length by omega)
    rw [hoffset, hcount]
    show Sound (if count = 0 then _ else _) _
    split
    · exact Sound.fail
    rename_i hzero
    have hfits : offset + count < 2 ^ 64 := by
      have ho := made.places.1 offset (List.mem_of_getElem? hoffset?)
      have hc := made.places.2 count (List.mem_of_getElem? hcount?)
      omega
    refine Sound.bind (Sound.of_eq (Ranges.get_sound hfits)) fun raw hraw => ?_
    refine Sound.bind (decodeBlock_sound made) fun values hvalues => ?_
    obtain ⟨bytes, hbytes, hrows, hpredicts, hlength⟩ := hvalues
    exact Or.inr ⟨raw, bytes, values, hold, ⟨offset, count, hoffset?, hcount?, hzero, hraw.1⟩,
      hbytes, hrows, hpredicts, hlength, rfl⟩

/-- What doesn't decompress is refused with an error. -/
theorem decompress_invalid {raw : Bytes} (h : ∀ bytes, image.decompress libraries raw ≠ .ok bytes) :
    ∃ e, image.decompress libraries raw = invalid e := by
  unfold decompress at h ⊢
  cases hcompression : image.compression with
  | none =>
    simp only [hcompression] at h
    exact absurd rfl (h raw)
  | deflate =>
    simp only [hcompression] at h ⊢
    cases hinflate : libraries.inflate raw with
    | ok out =>
      simp only [hinflate] at h
      exact absurd rfl (h out)
    | error e => exact ⟨_, rfl⟩
  | lzw =>
    simp only [hcompression] at h ⊢
    have hsound := Lzw.decode_sound raw
    match hdecode : Lzw.decode raw with
    | .ok out =>
      rw [hdecode] at h
      exact absurd rfl (h out)
    | .error (.error e) => exact ⟨e, rfl⟩
    | .error .panic =>
      rw [hdecode] at hsound
      exact hsound.elim

theorem unpredict_invalid (h : ¬ image.Predicts) (row : Bytes) :
    ∃ e, image.unpredict row = invalid e := by
  unfold unpredict
  split
  · rename_i h1
    exact absurd (Or.inl h1) h
  · rename_i h2
    exact absurd (Or.inr (Or.inl h2)) h
  · rename_i h3
    exact absurd (Or.inr (Or.inr h3)) h
  · exact ⟨_, rfl⟩

theorem decodeBlock_invalid (made : image.Made) {block : Nat} {raw : Bytes}
    (h : ∀ bytes, image.decompress libraries raw = .ok bytes →
      bytes.length / image.rowBytes = 0 ∨ ¬ image.Predicts) :
    ∃ e, image.decodeBlock libraries block raw = invalid e := by
  have hpos := rowBytes_pos made
  have hmax := rowBytes_le made
  have hbound : Layout.maxBlockBytes < 2 ^ 64 := by decide
  have hvalues : image.rowValues ≤ image.rowBytes :=
    Nat.le_mul_of_pos_right _ (Layout.dataType_size_pos _)
  unfold decodeBlock
  by_cases hok : ∃ bytes, image.decompress libraries raw = .ok bytes
  · obtain ⟨bytes, hbytes⟩ := hok
    have hmulValues : (mul image.blockWidth image.perPixel : Reading Nat) = .ok image.rowValues :=
      if_pos (show image.rowValues < 2 ^ 64 by omega)
    have hmulBytes : (mul image.rowValues image.dataType.size : Reading Nat) =
        .ok image.rowBytes := if_pos (show image.rowBytes < 2 ^ 64 by omega)
    have hquot : (quot bytes.length image.rowBytes : Reading Nat) =
        .ok (bytes.length / image.rowBytes) := if_neg (Nat.ne_of_gt hpos)
    rw [hbytes]
    show ∃ e, (mul image.blockWidth image.perPixel >>= _) = _
    rw [hmulValues]
    show ∃ e, (mul image.rowValues image.dataType.size >>= _) = _
    rw [hmulBytes]
    show ∃ e, (quot bytes.length image.rowBytes >>= _) = _
    rw [hquot]
    show ∃ e, (if bytes.length / image.rowBytes = 0 then _ else _) = _
    split
    · exact ⟨_, rfl⟩
    rename_i hrows
    have hpredicts := (h bytes hbytes).resolve_left hrows
    have hplane : ∃ plane, (if image.separatePlanes then quot block image.blocks else .ok 0 :
        Reading Nat) = .ok plane := by
      split
      · exact ⟨_, if_neg (Nat.ne_of_gt (blocks_pos made))⟩
      · exact ⟨0, rfl⟩
    obtain ⟨plane, hplane⟩ := hplane
    rw [hplane]
    -- There is a first row, and it isn't decoded.
    have hlength : 0 < (chunksExact image.rowBytes
        (bytes.take (bytes.length / image.rowBytes * image.rowBytes))).length := by
      have hle := Nat.div_mul_le_self bytes.length image.rowBytes
      rw [length_chunksExact, List.length_take, Nat.min_eq_left hle, Nat.mul_div_cancel _ hpos]
      exact Nat.pos_of_ne_zero hrows
    obtain ⟨row, rows, hcons⟩ := List.exists_cons_of_length_pos hlength
    obtain ⟨e, he⟩ := unpredict_invalid hpredicts row
    refine ⟨e, ?_⟩
    show (List.mapM (image.decodeRow plane) _ >>= _) = _
    rw [hcons, List.mapM_cons, decodeRow, he]
    rfl
  · obtain ⟨e, he⟩ := decompress_invalid fun bytes hbytes => hok ⟨bytes, hbytes⟩
    rw [he]
    exact ⟨e, rfl⟩

theorem decode_refused (made : image.Made) {block : Nat} (hopen : image.Open block)
    (hrefused : image.Refused libraries ranges block) :
    ∃ e, image.decode libraries block ranges = invalid e := by
  have hlt := (List.getElem?_eq_some_iff.1 hopen).1
  have hoffsets := made.offsets
  have hindex : (index image.decoded block : Reading (Option (List Float32))) = .ok none := by
    unfold index
    rw [hopen]
  unfold decode blockRange
  rw [hindex]
  show ∃ e, (index image.offsets block >>= _ >>= _) = _
  rcases hrefused with hcount | ⟨raw, ⟨offset, count, hoffset, hcount, hzero, hraw⟩, hbad⟩
  · obtain ⟨offset, hoffset, -⟩ :=
      Total.index (ε := TiffError) (show block < image.offsets.length by omega)
    have hindexCount : (index image.counts block : Reading Nat) = .ok 0 := by
      unfold index
      rw [hcount]
    rw [hoffset]
    show ∃ e, (index image.counts block >>= _ >>= _) = _
    rw [hindexCount]
    exact ⟨_, rfl⟩
  · have hindexOffset : (index image.offsets block : Reading Nat) = .ok offset := by
      unfold index
      rw [hoffset]
    have hindexCount : (index image.counts block : Reading Nat) = .ok count := by
      unfold index
      rw [hcount]
    obtain ⟨e, he⟩ : ∃ e, image.decodeBlock libraries block raw = invalid e :=
      decodeBlock_invalid made hbad
    refine ⟨e, ?_⟩
    rw [hindexOffset]
    show (index image.counts block >>= _ >>= _) = _
    rw [hindexCount]
    show (if count = 0 then _ else _) = _
    rw [if_neg hzero, hraw]
    show (image.decodeBlock libraries block raw >>= _) = _
    rw [he]
    rfl

end Image

/-! ## All blocks of the images -/

/-- No block is short, of those that are decoded in the images up to the first
refused one. -/
def ImagesWhole (libraries : Libraries) (ranges : Ranges) : List Image → Prop
  | [] => True
  | image :: images =>
    image.BlocksWhole libraries ranges (List.range image.blockCount) ∧
      ((∀ block, image.Open block → ¬ image.Refused libraries ranges block) →
        ImagesWhole libraries ranges images)

namespace GridFile

variable {libraries : Libraries} {ranges : Ranges}

/-- An image whose nodes can be read. -/
def Readable (image : Image) : Prop := image.Made ∧ image.Whole

theorem decodeBlocks_sound {image : Image} (readable : Readable image) {blocks : List Nat}
    (hin : ∀ b ∈ blocks, b < image.blockCount) (hnodup : blocks.Nodup)
    (hwhole : image.BlocksWhole libraries ranges blocks) :
    Sound (decodeBlocks libraries ranges image blocks) fun result =>
      Readable result.1 ∧ (result.2 = none →
        ∀ b ∈ blocks, image.Open b → ¬ image.Refused libraries ranges b) := by
  induction blocks generalizing image with
  | nil => exact ⟨readable, fun _ => nofun⟩
  | cons block blocks ih =>
    obtain ⟨made, whole⟩ := readable
    obtain ⟨hshort, hrest⟩ := hwhole
    obtain ⟨hnot, hnodup⟩ := List.nodup_cons.1 hnodup
    have hblock := hin block (by simp)
    have hin : ∀ b ∈ blocks, b < image.blockCount := fun b hb => hin b (by simp [hb])
    have hdecode := @Image.decode_sound libraries ranges image made block hblock
    -- A block that was taken, or is not loaded yet, is not refused.
    have hkept : (∀ e, image.decode libraries block ranges ≠ invalid e) →
        image.Open block → ¬ image.Refused libraries ranges block := by
      intro hnever hopen hrefused
      obtain ⟨e, he⟩ := Image.decode_refused made hopen hrefused
      exact hnever e he
    -- The blocks after one that leaves the image as it is.
    have hsame : (∀ e, image.decode libraries block ranges ≠ invalid e) →
        Sound (decodeBlocks libraries ranges image blocks) fun result =>
          Readable result.1 ∧ (result.2 = none →
            ∀ b ∈ block :: blocks, image.Open b → ¬ image.Refused libraries ranges b) := by
      intro hnever
      refine Sound.mono (ih ⟨made, whole⟩ hin hnodup (hrest (hkept hnever))) fun result h => ?_
      refine ⟨h.1, fun hnone b hb => ?_⟩
      rcases List.mem_cons.1 hb with rfl | hb
      · exact hkept hnever
      · exact h.2 hnone b hb
    unfold decodeBlocks
    cases hresult : image.decode libraries block ranges with
    | ok next =>
      have hnever : ∀ e, image.decode libraries block ranges ≠ invalid e := by
        intro e he
        rw [he] at hresult
        cases hresult
      rcases hdecode.of_ok hresult with ⟨rfl, -⟩ | ⟨raw, bytes, values, hopen, hloaded, hbytes,
        hrows, hpredicts, hlength, rfl⟩
      · exact hsame hnever
      · have hall : image.rowsOf block ≤ bytes.length / image.rowBytes := by
          by_contra hless
          exact hshort hopen ⟨raw, bytes, hloaded, hbytes, hrows, hpredicts, by omega⟩
        have hvalues : image.rowsOf block * image.rowValues ≤ values.length := by
          rw [hlength]
          exact Nat.mul_le_mul_right _ hall
        have hcount : (image.withBlock block values).blockCount = image.blockCount :=
          List.length_set
        refine Sound.mono (ih ⟨made.withBlock block values, whole.withBlock hvalues⟩
          (fun b hb => hcount ▸ hin b hb) hnodup
          (Image.blocksWhole_withBlock hnot (hrest (hkept hnever)))) fun result h => ?_
        refine ⟨h.1, fun hnone b hb ho => ?_⟩
        rcases List.mem_cons.1 hb with rfl | hb
        · exact hkept hnever ho
        · have hne : block ≠ b := by
            rintro rfl
            exact hnot hb
          exact h.2 hnone b hb ((Image.open_withBlock hne).2 ho)
    | error stop =>
      match stop with
      | .panic =>
        rw [hresult] at hdecode
        exact hdecode.elim
      | .error (.need offset length) =>
        apply hsame
        intro e he
        rw [he] at hresult
        cases hresult
      | .error (.invalid e) => exact ⟨⟨made, whole⟩, nofun⟩

theorem decodeImages_sound {images : List Image} (readable : ∀ image ∈ images, Readable image)
    (hwhole : ImagesWhole libraries ranges images) :
    Sound (decodeImages libraries ranges images) fun result =>
      ∀ image ∈ result.1, Readable image := by
  induction images with
  | nil =>
    show ∀ image ∈ [], Readable image
    simp
  | cons image images ih =>
    obtain ⟨hblocks, hrest⟩ := hwhole
    have hothers : ∀ i ∈ images, Readable i := fun i hi => readable i (by simp [hi])
    unfold decodeImages
    refine Sound.bind (decodeBlocks_sound (readable image (by simp))
      (fun b hb => List.mem_range.1 hb) List.nodup_range hblocks) fun result hresult => ?_
    obtain ⟨next, e⟩ := result
    obtain ⟨hnext, hnone⟩ := hresult
    cases e with
    | some e =>
      show ∀ i ∈ next :: images, Readable i
      intro i hi
      rcases List.mem_cons.1 hi with rfl | hi
      · exact hnext
      · exact hothers i hi
    | none =>
      have hrest := hrest fun block hopen =>
        hnone rfl block (List.mem_range.2 (List.getElem?_eq_some_iff.1 hopen).1) hopen
      refine Sound.bind (ih hothers hrest) fun rest hr => ?_
      show ∀ i ∈ next :: rest.1, Readable i
      intro i hi
      rcases List.mem_cons.1 hi with rfl | hi
      · exact hnext
      · exact hr i hi

/-! ## One piece -/

/-- A file whose images can be read. -/
structure Sane (file : GridFile) : Prop where
  loaded : file.loaded.Fits
  images : ∀ images, file.images = some (.ok images) → ∀ image ∈ images, Readable image

theorem sane_new : new.Sane := ⟨Ranges.fits_empty, nofun⟩

/-- What a piece has to meet: it ends where a word can say, and with it loaded
the sizes of the images fit a word and no block is decoded short. -/
def Meets (libraries : Libraries) (file : GridFile) (offset : Nat) (data : Bytes) : Prop :=
  offset + data.length < 2 ^ 64 ∧
    ∀ loaded, file.loaded.insert offset data = .ok loaded →
      (file.images = none → loaded.SizesFit libraries) ∧
        ∀ images, file.parsed libraries loaded = .ok (.ok images) →
          ImagesWhole libraries loaded images

/-- The images after a piece: those from before, or those that parsing gives. -/
theorem parsed_sound {file : GridFile} (sane : file.Sane) {loaded : Ranges}
    (hfits : file.images = none → loaded.SizesFit libraries) :
    Sound (file.parsed libraries loaded) fun parsed =>
      ∀ images, parsed = .ok images → ∀ image ∈ images, Readable image := by
  unfold parsed
  cases himages : file.images with
  | some old =>
    rintro images rfl
    exact sane.images images himages
  | none =>
    have hparse := parse_sound (hfits himages)
    simp only
    cases hresult : parse libraries loaded with
    | ok images =>
      intro images' h
      cases h
      exact fun image hi => ⟨(hparse.of_ok hresult image hi).1,
        (hparse.of_ok hresult image hi).2.whole⟩
    | error stop =>
      match stop with
      | .error (.invalid e) => exact nofun
      | .error (.need offset length) => trivial
      | .panic =>
        rw [hresult] at hparse
        exact hparse.elim

theorem insert_sound {file : GridFile} (sane : file.Sane) {offset : Nat} {data : Bytes}
    (hmeets : file.Meets libraries offset data) :
    Sound (file.insert libraries offset data) fun result => result.1.Sane := by
  obtain ⟨hdata, hmeets⟩ := hmeets
  unfold insert
  refine Sound.bind (Sound.of_eq (Ranges.insert_sound sane.loaded hdata)) fun loaded hloaded => ?_
  obtain ⟨heq, hfits⟩ := hloaded
  obtain ⟨hsizes, hwhole⟩ := hmeets loaded heq
  have hparsed := parsed_sound sane hsizes
  cases hresult : file.parsed libraries loaded with
  | ok parsed =>
    cases parsed with
    | ok images =>
      have hreadable := hparsed.of_ok hresult images rfl
      refine Sound.bind (decodeImages_sound hreadable (hwhole images hresult)) fun result hr => ?_
      refine ⟨hfits, fun images' h => ?_⟩
      cases h
      exact hr
    | error e => exact ⟨hfits, nofun⟩
  | error stop =>
    match stop with
    | .error e => exact ⟨hfits, nofun⟩
    | .panic =>
      rw [hresult] at hparsed
      exact hparsed.elim

/-! ## Runs -/

/-- The files that pieces which meet the conditions lead to. -/
inductive Run (libraries : Libraries) : GridFile → Prop
  | new : Run libraries new
  | insert {file next : GridFile} {offset : Nat} {data : Bytes} {e : Option String} :
    Run libraries file → file.Meets libraries offset data →
    file.insert libraries offset data = .ok (next, e) → Run libraries next

theorem Run.sane {file : GridFile} (run : Run libraries file) : file.Sane := by
  induction run with
  | new => exact sane_new
  | insert _ hmeets hinsert ih => exact (insert_sound ih hmeets).of_ok hinsert

end GridFile

end Xeibe.Reproject.Grid

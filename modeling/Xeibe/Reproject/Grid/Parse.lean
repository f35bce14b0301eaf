import Xeibe.Lib.Level
import Xeibe.Reproject.Doubles
import Xeibe.Reproject.Grid.Tiff

/-!
# Reading the directories of a grid file

Whatever bytes are loaded, reading words, entries and tags stays inside them.
The sizes of an image are products of what its tags say: parsing never stops
where these fit a word, and an image that it accepts has the sizes that the
reading of its nodes relies on.
-/

namespace Xeibe.Reproject.Grid

open Xeibe.Geom (F64 chunksExact length_of_mem_chunksExact)
open Xeibe.Lib
open Xeibe.Lib.Checked

/-! ## Loaded ranges -/

namespace Ranges

/-- Every chunk ends where a word can say. -/
def Fits (r : Ranges) : Prop := ∀ c ∈ r.chunks, c.1 + c.2.length < 2 ^ 64

theorem fits_empty : empty.Fits := by simp [Fits, empty]

theorem touching_spec {chunks : List (Nat × Bytes)} {start stop : Nat} {c : Nat × Bytes}
    (h : touching chunks start stop = some c) : c ∈ chunks ∧ c.1 ≤ stop := by
  have hmem := List.mem_of_find?_eq_some h
  simp only [List.mem_reverse, List.mem_filter, decide_eq_true_eq] at hmem
  exact hmem

theorem merge_sound {start : Nat} {bytes : Bytes} {chunk : Nat × Bytes}
    (hbytes : start + bytes.length < 2 ^ 64) (hchunk : chunk.1 + chunk.2.length < 2 ^ 64) :
    Sound (merge start bytes chunk) fun m => m.1 + m.2.length < 2 ^ 64 := by
  unfold merge
  refine Sound.bind (Sound.overwrite ?_) fun merged hmerged => ?_
  · simp only [List.length_replicate]
    omega
  refine Sound.bind (Sound.overwrite ?_) fun both hboth => ?_
  · simp only [hmerged, List.length_replicate]
    omega
  · show min start chunk.1 + both.length < 2 ^ 64
    simp only [hboth, hmerged, List.length_replicate]
    omega

theorem mem_place {chunks : List (Nat × Bytes)} {chunk c : Nat × Bytes}
    (h : c ∈ place chunks chunk) : c = chunk ∨ c ∈ chunks := by
  simp only [place, List.mem_append, List.mem_cons] at h
  rcases h with h | h | h
  · exact Or.inr ((List.takeWhile_sublist _).mem h)
  · exact Or.inl h
  · exact Or.inr ((List.dropWhile_sublist _).mem h)

/-- Each merge takes one chunk away, so the loop ends. -/
theorem insertLoop_sound {fuel : Nat} {chunks : List (Nat × Bytes)} {start : Nat} {bytes : Bytes}
    (hfuel : chunks.length < fuel) (hchunks : ∀ c ∈ chunks, c.1 + c.2.length < 2 ^ 64)
    (hbytes : start + bytes.length < 2 ^ 64) :
    Sound (insertLoop fuel chunks start bytes) Fits := by
  induction fuel generalizing chunks start bytes with
  | zero => omega
  | succ fuel ih =>
    unfold insertLoop
    refine Sound.bind (Sound.add hbytes) fun stop _ => ?_
    split
    · intro c hc
      rcases mem_place hc with rfl | hc
      · exact hbytes
      · exact hchunks c hc
    · rename_i chunk htouching
      obtain ⟨hmem, -⟩ := touching_spec htouching
      refine Sound.bind (merge_sound hbytes (hchunks chunk hmem)) fun m hm => ?_
      apply ih
      · have hless : (chunks.filter fun c => c.1 ≠ chunk.1).length < chunks.length :=
          List.length_filter_lt_length_iff_exists.2 ⟨chunk, hmem, by simp⟩
        omega
      · exact fun c hc => hchunks c (List.mem_of_mem_filter hc)
      · exact hm

theorem insert_sound {r : Ranges} (hr : r.Fits) {offset : Nat} {data : Bytes}
    (hdata : offset + data.length < 2 ^ 64) : Sound (r.insert offset data) Fits := by
  unfold insert
  split
  · exact hr
  · exact insertLoop_sound (Nat.lt_succ_self _) hr hdata

theorem get_sound {r : Ranges} {offset length : Nat} (h : offset + length < 2 ^ 64) :
    Sound (r.get offset length) fun b => b.length = length := by
  unfold get
  split
  · exact Sound.fail
  · rename_i s c hlast
    have hmem := List.mem_of_getLast? hlast
    simp only [List.mem_filter, decide_eq_true_eq] at hmem
    refine Sound.bind (Sound.add h) fun stop hstop => ?_
    split
    · refine Sound.mono (Sound.slice (by omega) (by omega)) fun b hb => ?_
      rw [hb.1]
      omega
    · exact Sound.fail

end Ranges

/-! ## Words -/

theorem littleWord_lt (bytes : Bytes) : littleWord bytes < 256 ^ bytes.length := by
  induction bytes with
  | nil => simp [littleWord]
  | cons b bytes ih =>
    have hb := b.toNat_lt
    have hcons : littleWord (b :: bytes) = b.toNat + 256 * littleWord bytes := rfl
    rw [hcons, List.length_cons, Nat.pow_succ]
    omega

theorem ByteOrder.word_lt (order : ByteOrder) (bytes : Bytes) :
    order.word bytes < 256 ^ bytes.length := by
  cases order with
  | little => exact littleWord_lt bytes
  | big =>
    have h := littleWord_lt bytes.reverse
    rwa [List.length_reverse] at h

namespace Reader

variable {r : Reader}

theorem word_sound {size offset : Nat} (h : offset + size < 2 ^ 64) :
    Sound (r.word size offset) (· < 256 ^ size) := by
  unfold word bytes
  refine Sound.bind (Ranges.get_sound h) fun b hb => ?_
  refine Sound.bind (Sound.slice (Nat.zero_le _) (Nat.le_of_eq hb.symm)) fun c hc => ?_
  have hword := r.order.word_lt c
  rw [hc.1] at hword
  exact hword

theorem u16_sound {offset : Nat} (h : offset + 2 < 2 ^ 64) : Sound (r.u16 offset) (· < 2 ^ 16) :=
  word_sound h

theorem u32_sound {offset : Nat} (h : offset + 4 < 2 ^ 64) : Sound (r.u32 offset) (· < 2 ^ 32) :=
  word_sound h

end Reader

/-! ## Entries -/

/-- The values of an entry are at places that a word can say. -/
def Entry.Fits (e : Entry) : Prop := e.count < 2 ^ 32 ∧ e.place + 8 * e.count < 2 ^ 64

theorem typeSize_le {fieldType size : Nat} (h : typeSize fieldType = some size) :
    0 < size ∧ size ≤ 8 := by
  unfold typeSize at h
  split_ifs at h <;> simp at h <;> omega

namespace Reader

variable {r : Reader}

theorem entry_sound {place : Nat} (h : place < 2 ^ 34) :
    Sound (r.entry place) fun t => t.2.Fits := by
  unfold entry
  refine Sound.bind (u16_sound (by omega)) fun tag _ => ?_
  refine Sound.bind (Sound.add (by omega)) fun a ha => ?_
  refine Sound.bind (u16_sound (by omega)) fun fieldType _ => ?_
  refine Sound.bind (Sound.add (by omega)) fun b hb => ?_
  refine Sound.bind (u32_sound (by omega)) fun count hcount => ?_
  have hsize : (typeSize fieldType).getD 1 ≤ 8 := by
    cases htype : typeSize fieldType with
    | none => simp
    | some size => exact (typeSize_le htype).2
  have hproduct : (typeSize fieldType).getD 1 * count ≤ 8 * count := Nat.mul_le_mul_right _ hsize
  refine Sound.bind (Sound.mul (by omega)) fun size _ => ?_
  have hvalues : Sound (if size ≤ 4 then add place 8 else do r.u32 (← add place 8) : Reading Nat)
      (· < 2 ^ 35) := by
    split
    · exact Sound.mono (Sound.add (by omega)) fun n hn => by omega
    · refine Sound.bind (Sound.add (by omega)) fun c hc => ?_
      exact Sound.mono (u32_sound (by omega)) fun n hn => by omega
  refine Sound.bind hvalues fun values hvalues => ?_
  exact ⟨hcount, by show values + 8 * count < 2 ^ 64; omega⟩

/-- Bytes, shorts and longs are below `2 ^ 32`. -/
theorem uints_sound {e : Entry} (he : e.Fits) :
    Sound (r.uints e) fun ns => ∀ n ∈ ns, n < 2 ^ 32 := by
  unfold uints bytes
  obtain ⟨hcount, hplace⟩ := he
  split
  · exact Sound.fail
  · rename_i size htype
    obtain ⟨hpos, hsize⟩ := typeSize_le htype
    have hproduct : size * e.count ≤ 8 * e.count := Nat.mul_le_mul_right _ hsize
    refine Sound.bind (Sound.mul (by omega)) fun length hlength => ?_
    refine Sound.bind (Ranges.get_sound (by omega)) fun b _ => ?_
    show ∀ n ∈ (chunksExact size b).map _, n < 2 ^ 32
    intro n hn
    obtain ⟨c, hc, rfl⟩ := List.mem_map.1 hn
    split
    · rename_i hle
      have hword := r.order.word_lt c
      rw [length_of_mem_chunksExact hc] at hword
      calc r.order.word c < 256 ^ size := hword
        _ ≤ 256 ^ 4 := Nat.pow_le_pow_right (by omega) hle
        _ = 2 ^ 32 := by decide
    · decide

theorem uint_sound {e : Entry} (he : e.Fits) : Sound (r.uint e) (· < 2 ^ 32) := by
  unfold uint
  refine Sound.bind (uints_sound he) fun ns hns => ?_
  cases ns with
  | nil => exact Sound.fail
  | cons n ns => exact hns n (by simp)

theorem doubles_sound {e : Entry} (he : e.Fits) : Sound (r.doubles e) fun _ => True := by
  unfold doubles bytes
  obtain ⟨-, hplace⟩ := he
  split
  · exact Sound.fail
  · refine Sound.bind (Sound.mul (by omega)) fun length hlength => ?_
    refine Sound.bind (Ranges.get_sound (by omega)) fun b _ => ?_
    trivial

theorem ascii_sound {libraries : Libraries} {e : Entry} (he : e.Fits) :
    Sound (r.ascii libraries e) fun text => text.length < 2 ^ 32 := by
  unfold ascii bytes
  obtain ⟨hcount, hplace⟩ := he
  refine Sound.bind (Ranges.get_sound (by omega)) fun b hb => ?_
  show (libraries.lossy _).length < 2 ^ 32
  have hlossy := libraries.lossy_le (b.takeWhile (· ≠ 0))
  have hwhile : (b.takeWhile (· ≠ 0)).length ≤ b.length := (List.takeWhile_sublist _).length_le
  omega

end Reader

/-! ## Tags -/

/-- The values of every tag are at places that a word can say. -/
def Tags.Fits (tags : Tags) : Prop := ∀ t ∈ tags, t.2.Fits

theorem Tags.Fits.get {tags : Tags} (h : tags.Fits) {tag : Nat} {e : Entry}
    (he : tags.get tag = some e) : e.Fits := by
  unfold Tags.get at he
  obtain ⟨t, ht, rfl⟩ := Option.map_eq_some_iff.1 he
  exact h t (List.mem_of_find?_eq_some ht)

theorem directory_sound {r : Reader} {place : Nat} (h : place < 2 ^ 32) :
    Sound (directory r place) Tags.Fits := by
  unfold directory Reader.bytes
  refine Sound.bind (Reader.u16_sound (by omega)) fun count hcount => ?_
  refine Sound.bind (Sound.mul (by omega)) fun size hsize => ?_
  refine Sound.bind (Sound.add (by omega)) fun a ha => ?_
  refine Sound.bind (Sound.add (by omega)) fun b hb => ?_
  refine Sound.bind (Ranges.get_sound (by omega)) fun _ _ => ?_
  refine Sound.foldlM (by simp [Tags.Fits]) fun tags i hi htags => ?_
  have hlt := List.mem_range.1 hi
  refine Sound.bind (Sound.add (by omega)) fun c hc => ?_
  refine Sound.bind (Sound.mul (by omega)) fun d hd => ?_
  refine Sound.bind (Sound.add (by omega)) fun e he => ?_
  refine Sound.bind (Reader.entry_sound (by omega)) fun entry hentry => ?_
  intro t ht
  rcases List.mem_cons.1 ht with rfl | ht
  · exact hentry
  · exact htags t ht

theorem nextDirectory_sound {r : Reader} {place : Nat} (h : place < 2 ^ 32) :
    Sound (nextDirectory r place) (· < 2 ^ 32) := by
  unfold nextDirectory
  refine Sound.bind (Reader.u16_sound (by omega)) fun count hcount => ?_
  refine Sound.bind (Sound.add (by omega)) fun a ha => ?_
  refine Sound.bind (Sound.mul (by omega)) fun b hb => ?_
  refine Sound.bind (Sound.add (by omega)) fun c hc => ?_
  exact Reader.u32_sound (by omega)

/-! ## Layouts -/

/-- Where the blocks are is in 32 bits. -/
def BlockTable.Fits (t : BlockTable) : Prop :=
  (∀ o ∈ t.offsets, o < 2 ^ 32) ∧ ∀ c ∈ t.counts, c < 2 ^ 32

section Tags

variable {r : Reader} {tags : Tags} (htags : tags.Fits)
include htags

theorem uintOr_sound {tag default : Nat} (hdefault : default < 2 ^ 32) :
    Sound (uintOr r tags tag default) (· < 2 ^ 32) := by
  unfold uintOr
  split
  · rename_i e he
    exact Reader.uint_sound (htags.get he)
  · exact hdefault

theorem required_sound {tag : Nat} {message : String} :
    Sound (required r tags tag message) (· < 2 ^ 32) := by
  unfold required
  split
  · rename_i e he
    exact Reader.uint_sound (htags.get he)
  · exact Sound.fail

theorem tiles_sound : Sound (tiles r tags) BlockTable.Fits := by
  unfold tiles
  split
  · rename_i w h o c hw hh ho hc
    refine Sound.bind (Reader.uint_sound (htags.get hw)) fun width _ => ?_
    refine Sound.bind (Reader.uint_sound (htags.get hh)) fun height _ => ?_
    refine Sound.bind (Reader.uints_sound (htags.get ho)) fun offsets hoffsets => ?_
    refine Sound.bind (Reader.uints_sound (htags.get hc)) fun counts hcounts => ?_
    exact ⟨hoffsets, hcounts⟩
  · exact Sound.fail

theorem strips_sound {width height : Nat} (h : height < 2 ^ 32) :
    Sound (strips r tags width height) BlockTable.Fits := by
  unfold strips
  split
  · rename_i o c ho hc
    refine Sound.bind (uintOr_sound htags h) fun rows _ => ?_
    refine Sound.bind (Reader.uints_sound (htags.get ho)) fun offsets hoffsets => ?_
    refine Sound.bind (Reader.uints_sound (htags.get hc)) fun counts hcounts => ?_
    exact ⟨hoffsets, hcounts⟩
  · exact Sound.fail

end Tags

theorem dataTypeOf_sound (format bits : Nat) : Sound (dataTypeOf format bits) fun _ => True := by
  unfold dataTypeOf
  split <;> trivial

theorem compressionOf_sound (code : Nat) : Sound (compressionOf code) fun _ => True := by
  unfold compressionOf
  split_ifs <;> trivial

namespace Layout

/-- The sizes that the checks of the tags leave. -/
structure Valid (l : Layout) : Prop where
  width : 0 < l.width ∧ l.width ≤ maxImageSide
  height : 0 < l.height ∧ l.height ≤ maxImageSide
  samples : 0 < l.samples
  blockWidth : 0 < l.blockWidth
  blockHeight : 0 < l.blockHeight
  places : (∀ o ∈ l.offsets, o < 2 ^ 32) ∧ ∀ c ∈ l.counts, c < 2 ^ 32

/-- The bytes of a block, and the blocks of all planes, are counted without
leaving 64 bits. -/
def Fits (l : Layout) : Prop :=
  l.blockWidth * l.blockHeight * l.dataType.size * l.samples < 2 ^ 64 ∧
    (l.blockWidth * l.blockHeight * l.dataType.size * l.samples ≤ maxBlockBytes →
      l.separatePlanes = true →
        l.blocksPerRow * divCeil l.height l.blockHeight * l.samples < 2 ^ 64)

end Layout

theorem layout_sound {r : Reader} {tags : Tags} (htags : tags.Fits) :
    Sound (layout r tags) Layout.Valid := by
  unfold layout
  refine Sound.bind (uintOr_sound htags (by omega)) fun width hwidth => ?_
  refine Sound.bind (uintOr_sound htags (by omega)) fun height hheight => ?_
  split
  · exact Sound.fail
  rename_i hsize
  refine Sound.bind (required_sound htags) fun samples _ => ?_
  split
  · exact Sound.fail
  rename_i hsamples
  refine Sound.bind (required_sound htags) fun bits _ => ?_
  refine Sound.bind (required_sound htags) fun planar _ => ?_
  refine Sound.bind (required_sound htags) fun format _ => ?_
  refine Sound.bind (dataTypeOf_sound format bits) fun dataType _ => ?_
  refine Sound.bind (uintOr_sound htags (by omega)) fun photometric _ => ?_
  split
  · exact Sound.fail
  refine Sound.bind (uintOr_sound htags (by omega)) fun code _ => ?_
  refine Sound.bind (compressionOf_sound code) fun compression _ => ?_
  refine Sound.bind (uintOr_sound htags (by omega)) fun predictor _ => ?_
  refine Sound.bind (uintOr_sound htags (by omega)) fun subfileType _ => ?_
  have htable : Sound (if (tags.get Tags.tileWidth).isSome then tiles r tags
      else strips r tags width height) BlockTable.Fits := by
    split
    · exact tiles_sound htags
    · exact strips_sound htags hheight
  refine Sound.bind htable fun table hplaces => ?_
  split
  · exact Sound.fail
  · rename_i hblock
    have hwide : 0 < width ∧ width ≤ maxImageSide := by omega
    have hhigh : 0 < height ∧ height ≤ maxImageSide := by omega
    exact ⟨hwide, hhigh, Nat.pos_of_ne_zero hsamples, Nat.pos_of_ne_zero fun h => hblock (Or.inl h),
      Nat.pos_of_ne_zero fun h => hblock (Or.inr h), hplaces⟩

namespace Layout

theorem divCeil_le {a b : Nat} (hb : 0 < b) : divCeil a b ≤ a := by
  unfold divCeil
  have hdiv := Nat.div_le_self a b
  split
  · exact hdiv
  · rename_i hrest
    have hmod := Nat.div_add_mod a b
    have hproduct : a / b ≤ b * (a / b) := Nat.le_mul_of_pos_left _ hb
    omega

theorem div_lt_divCeil {a b i : Nat} (hb : 0 < b) (hi : i < a) : i / b < divCeil a b := by
  have hle : i / b ≤ a / b := Nat.div_le_div_right (Nat.le_of_lt hi)
  unfold divCeil
  split
  · rename_i hrest
    have hexact : a = a / b * b := by
      have hmod := Nat.div_add_mod' a b
      omega
    apply (Nat.div_lt_iff_lt_mul hb).2
    omega
  · omega

/-- What counting gives: the sizes that decoding and reading rely on. -/
structure Counted (l : Layout) (blocks total : Nat) : Prop where
  bytes : l.blockWidth * l.blockHeight * l.dataType.size * l.samples ≤ maxBlockBytes
  perPlane : blocks = l.blocksPerRow * divCeil l.height l.blockHeight
  allPlanes : total = blocks * if l.separatePlanes then l.samples else 1
  fits : total < 2 ^ 64
  offsets : total ≤ l.offsets.length
  counts : total ≤ l.counts.length

theorem dataType_size_pos (dataType : DataType) : 0 < dataType.size := by
  cases dataType <;> decide

theorem countBlocks_sound {l : Layout} (hvalid : l.Valid) (hfits : l.Fits) :
    Sound l.countBlocks fun n => l.Counted n.1 n.2 := by
  obtain ⟨hbytes, hplanes⟩ := hfits
  have hpixelBytes : l.blockWidth * l.blockHeight * l.dataType.size ≤
      l.blockWidth * l.blockHeight * l.dataType.size * l.samples :=
    Nat.le_mul_of_pos_right _ hvalid.samples
  have hpixels : l.blockWidth * l.blockHeight ≤ l.blockWidth * l.blockHeight * l.dataType.size :=
    Nat.le_mul_of_pos_right _ (dataType_size_pos _)
  have hrow : l.blocksPerRow ≤ 2 ^ 31 - 1 :=
    Nat.le_trans (divCeil_le hvalid.blockWidth) hvalid.width.2
  have hcolumn : divCeil l.height l.blockHeight ≤ 2 ^ 31 - 1 :=
    Nat.le_trans (divCeil_le hvalid.blockHeight) hvalid.height.2
  have hblocks : l.blocksPerRow * divCeil l.height l.blockHeight ≤
      (2 ^ 31 - 1) * (2 ^ 31 - 1) := Nat.mul_le_mul hrow hcolumn
  unfold countBlocks
  refine Sound.bind (Sound.mul (by omega)) fun pixels hp => ?_
  refine Sound.bind (Sound.mul (by rw [hp]; omega)) fun pixelBytes hpb => ?_
  refine Sound.bind (Sound.mul (by rw [hpb, hp]; exact hbytes)) fun bytes hb => ?_
  rw [hpb, hp] at hb
  split
  · exact Sound.fail
  rename_i hmax
  have hmost : l.blockWidth * l.blockHeight * l.dataType.size * l.samples ≤ maxBlockBytes := by
    omega
  refine Sound.bind (Sound.mul (by omega)) fun blocks hblocks => ?_
  have htotal : Sound (if l.separatePlanes then mul blocks l.samples else .ok blocks : Reading Nat)
      fun total => total = (blocks * if l.separatePlanes then l.samples else 1) ∧
        total < 2 ^ 64 := by
    split
    · rename_i hseparate
      have hfit := hplanes hmost hseparate
      rw [← hblocks] at hfit
      exact Sound.mono (Sound.mul hfit) fun total ht => ⟨ht, by omega⟩
    · exact ⟨(Nat.mul_one _).symm, by show blocks < 2 ^ 64; omega⟩
  refine Sound.bind htotal fun total ht => ?_
  split
  · exact Sound.fail
  · rename_i hlengths
    exact ⟨hmost, hblocks, ht.1, ht.2, by show total ≤ _; omega, by show total ≤ _; omega⟩

end Layout

/-! ## Georeferencing -/

section Georeferencing

variable {r : Reader} {tags : Tags} (htags : tags.Fits)

theorem GeoKeys.add_sound (keys : GeoKeys) {k : List Nat} (hk : k.length = 4) :
    Sound (keys.add k) fun _ => True := by
  unfold GeoKeys.add
  refine Sound.bind (Sound.index (by omega)) fun key _ => ?_
  refine Sound.bind (Sound.index (by omega)) fun value _ => ?_
  split_ifs <;> trivial

include htags

theorem geoKeys_sound : Sound (geoKeys r tags) fun _ => True := by
  unfold geoKeys
  split
  · trivial
  · rename_i e he
    refine Sound.bind (Reader.uints_sound (htags.get he)) fun keys _ => ?_
    split
    · exact Sound.fail
    · refine Sound.bind (Sound.index (by omega)) fun version _ => ?_
      split
      · exact Sound.fail
      · refine Sound.bind (Sound.slice (by omega) (Nat.le_refl _)) fun rest _ => ?_
        refine Sound.foldlM trivial fun keys k hk _ => ?_
        exact GeoKeys.add_sound keys (length_of_mem_chunksExact hk)

omit htags in
theorem matrixPlacement_sound {m : List F64} (hm : m.length = 16) :
    Sound (matrixPlacement m) fun _ => True := by
  unfold matrixPlacement
  refine Sound.bind (Sound.index (by omega)) fun m1 _ => ?_
  refine Sound.bind (Sound.index (by omega)) fun m4 _ => ?_
  split
  · exact Sound.fail
  · refine Sound.bind (Sound.index (by omega)) fun west _ => ?_
    refine Sound.bind (Sound.index (by omega)) fun hRes _ => ?_
    refine Sound.bind (Sound.index (by omega)) fun north _ => ?_
    refine Sound.bind (Sound.index (by omega)) fun m5 _ => ?_
    trivial

theorem scalePlacement_sound : Sound (scalePlacement r tags) fun _ => True := by
  unfold scalePlacement
  split
  · exact Sound.fail
  rename_i s hs
  refine Sound.bind (Reader.doubles_sound (htags.get hs)) fun scale _ => ?_
  split
  · exact Sound.fail
  refine Sound.bind (Sound.index (by omega)) fun hRes _ => ?_
  refine Sound.bind (Sound.index (by omega)) fun vRes _ => ?_
  split
  · exact Sound.fail
  rename_i t ht
  refine Sound.bind (Reader.doubles_sound (htags.get ht)) fun tie _ => ?_
  split
  · exact Sound.fail
  refine Sound.bind (Sound.index (by omega)) fun tie0 _ => ?_
  refine Sound.bind (Sound.index (by omega)) fun tie1 _ => ?_
  refine Sound.bind (Sound.index (by omega)) fun tie3 _ => ?_
  refine Sound.bind (Sound.index (by omega)) fun tie4 _ => ?_
  trivial

theorem placement_sound : Sound (placement r tags) fun _ => True := by
  unfold placement
  split
  · exact scalePlacement_sound htags
  · rename_i e he
    refine Sound.bind (Reader.doubles_sound (htags.get he)) fun m _ => ?_
    split
    · rename_i hm
      exact matrixPlacement_sound hm
    · exact scalePlacement_sound htags

end Georeferencing

/-- A grid of one column or one row is as wide or as high as a step of zero, so
its extent is refused. -/
theorem plausible_sizes {p : Placement} {keys : GeoKeys} {width height : Nat}
    (h : (p.extent keys width height).isPlausible = true) : width ≠ 1 ∧ height ≠ 1 := by
  simp only [ExtentAndRes.isPlausible, Bool.and_eq_true, decide_eq_true_eq] at h
  obtain ⟨⟨⟨⟨-, hwest⟩, hsouth⟩, -⟩, -⟩ := h
  constructor
  · rintro rfl
    apply (Binary64.Same.mul (Binary64.same_add _ p.hRes.toFloat) _).not_lt
    have hlt : (p.extent keys 1 height).west.toFloat < (p.extent keys 1 height).east.toFloat :=
      hwest
    simpa only [Placement.extent, F64.toFloat_mul, F64.toFloat_add, F64.toFloat_ofUsize] using hlt
  · rintro rfl
    have hlevel (x f : Float) :
        Binary64.Level (x * f) ((x - p.vRes.toFloat * Binary64.natural 0) * f) :=
      (Binary64.same_sub x p.vRes.toFloat).mul f
    have hlt : (p.extent keys width 1).south.toFloat < (p.extent keys width 1).north.toFloat :=
      hsouth
    simp only [Placement.extent] at hlt
    split at hlt
    · apply (hlevel _ _).not_lt
      simpa only [F64.toFloat_mul, F64.toFloat_sub, F64.toFloat_ofUsize] using hlt
    · apply (hlevel _ _).symm.not_lt
      simpa only [F64.toFloat_mul, F64.toFloat_sub, F64.toFloat_ofUsize] using hlt

/-! ## Metadata -/

/-- What is found is there. -/
theorem findText_spec {part text : Text} {i : Nat} (h : findText part text = some i) :
    part <+: text.drop i ∧ i ≤ text.length := by
  induction text generalizing i with
  | nil =>
    unfold findText at h
    split at h
    · rename_i hempty
      cases h
      rw [List.isEmpty_iff.1 hempty]
      exact ⟨List.nil_prefix, Nat.le_refl _⟩
    · cases h
  | cons c text ih =>
    unfold findText at h
    split at h
    · rename_i hstarts
      cases h
      exact ⟨List.isPrefixOf_iff_prefix.1 hstarts, Nat.zero_le _⟩
    · obtain ⟨j, hj, rfl⟩ := Option.map_eq_some_iff.1 h
      obtain ⟨hpart, hle⟩ := ih hj
      exact ⟨by simpa using hpart, by simp only [List.length_cons]; omega⟩

theorem findText_le {part text : Text} {i : Nat} (h : findText part text = some i) :
    i + part.length ≤ text.length := by
  obtain ⟨hstarts, hle⟩ := findText_spec h
  have hlength := hstarts.length_le
  rw [List.length_drop] at hlength
  omega

theorem attr_sound {tag : Text} {name : String} (htag : tag.length < 2 ^ 32) :
    Sound (attr tag name) fun _ => True := by
  unfold attr
  extract_lets key
  split
  · trivial
  · rename_i i hi
    have hstart := findText_le hi
    refine Sound.bind (Sound.add (by omega)) fun start hs => ?_
    refine Sound.bind (Sound.slice (by omega) (Nat.le_refl _)) fun after hafter => ?_
    split
    · trivial
    · rename_i j hj
      have hstop := findText_le hj
      simp only [List.length_singleton] at hstop
      refine Sound.bind (Sound.add (by omega)) fun stop hs' => ?_
      refine Sound.bind (Sound.slice (by omega) (by omega)) fun value _ => ?_
      trivial

/-- Each item makes the text after it shorter, so the loop ends. -/
theorem metadataItems_sound {fuel : Nat} {text : Text} (hfuel : text.length < fuel)
    (htext : text.length < 2 ^ 32) : Sound (metadataItems fuel text) fun _ => True := by
  induction fuel generalizing text with
  | zero => omega
  | succ fuel ih =>
    unfold metadataItems
    split
    · trivial
    rename_i start hstart
    have hle := (findText_spec hstart).2
    refine Sound.bind (Sound.slice hle (Nat.le_refl _)) fun item hitem => ?_
    split
    · trivial
    rename_i endTag hend
    have htag := findText_le hend
    simp only [List.length_singleton] at htag
    refine Sound.bind (Sound.slice_eq (by omega) (Nat.le_refl _)) fun after hafter => ?_
    split
    · trivial
    rename_i i hi
    have hopen := findText_le hi
    rw [hafter, List.take_length] at hi hopen
    simp only [List.length_singleton, List.length_drop] at hopen
    -- The text after the tag begins with the tag's end, so the value ends later.
    have hpos : 0 < i := by
      rcases Nat.eq_zero_or_pos i with rfl | hpos
      · have hgreater := (findText_spec hend).1
        have hless := (findText_spec hi).1
        rw [List.drop_zero] at hless
        obtain ⟨u, hu⟩ := hgreater
        obtain ⟨v, hv⟩ := hless
        rw [← hu] at hv
        simp at hv
      · exact hpos
    refine Sound.bind (Sound.add (by omega)) fun endValue hvalue => ?_
    refine Sound.bind (Sound.slice (by omega) (by omega)) fun tag htagLength => ?_
    refine Sound.bind (Sound.add (by omega)) fun afterTag hafterTag => ?_
    refine Sound.bind (Sound.slice (by omega) (by omega)) fun value _ => ?_
    refine Sound.bind (attr_sound (by omega)) fun name _ => ?_
    split
    · trivial
    refine Sound.bind (attr_sound (by omega)) fun sample _ => ?_
    refine Sound.bind (attr_sound (by omega)) fun role _ => ?_
    refine Sound.bind (Sound.add (by omega)) fun afterValue hafterValue => ?_
    refine Sound.bind (Sound.slice (by omega) (Nat.le_refl _)) fun others hothers => ?_
    refine Sound.bind (ih (by omega) (by omega)) fun items _ => ?_
    trivial

section Metadata

variable {libraries : Libraries} {r : Reader} {tags : Tags} (htags : tags.Fits)
include htags

theorem gdalMetadata_sound : Sound (gdalMetadata libraries r tags) fun _ => True := by
  unfold gdalMetadata
  split
  · trivial
  · rename_i e he
    refine Sound.bind (Reader.ascii_sound (htags.get he)) fun text htext => ?_
    exact metadataItems_sound (Nat.lt_succ_self _) htext

theorem gdalNodata_sound : Sound (gdalNodata libraries r tags) fun _ => True := by
  unfold gdalNodata
  split
  · trivial
  · rename_i e he
    refine Sound.bind (Reader.ascii_sound (htags.get he)) fun text _ => ?_
    trivial

end Metadata

/-! ## Images -/

/-- The sizes of an image that parsing accepts. -/
structure Image.Made (image : Image) : Prop where
  width : 2 ≤ image.width ∧ image.width ≤ maxImageSide
  height : 2 ≤ image.height ∧ image.height ≤ maxImageSide
  samples : 0 < image.samples
  blockWidth : 0 < image.blockWidth
  blockHeight : 0 < image.blockHeight
  bytes : image.blockWidth * image.blockHeight * image.dataType.size * image.samples ≤
    Layout.maxBlockBytes
  perRow : image.blocksPerRow = Layout.divCeil image.width image.blockWidth
  perPlane : image.blocks = image.blocksPerRow * Layout.divCeil image.height image.blockHeight
  decoded : image.decoded.length = image.blocks * image.planes
  fits : image.decoded.length < 2 ^ 64
  offsets : image.decoded.length ≤ image.offsets.length
  counts : image.decoded.length ≤ image.counts.length
  places : (∀ o ∈ image.offsets, o < 2 ^ 32) ∧ ∀ c ∈ image.counts, c < 2 ^ 32

/-- Nothing of the image is decoded. -/
def Image.Fresh (image : Image) : Prop :=
  ∀ (block : Nat) (data : List Float32), image.decoded[block]? ≠ some (some data)

theorem image_sound {libraries : Libraries} {r : Reader} {tags : Tags} (htags : tags.Fits)
    (hfits : ∀ l, layout r tags = .ok l → l.Fits) :
    Sound (image libraries r tags) fun image => image.Made ∧ image.Fresh := by
  unfold image
  refine Sound.bind (Sound.of_eq (layout_sound htags)) fun l hl => ?_
  obtain ⟨heq, hvalid⟩ := hl
  refine Sound.bind (Layout.countBlocks_sound hvalid (hfits l heq)) fun n hcounted => ?_
  obtain ⟨blocks, total⟩ := n
  refine Sound.bind (geoKeys_sound htags) fun keys _ => ?_
  refine Sound.bind (placement_sound htags) fun p _ => ?_
  extract_lets extent
  split
  · exact Sound.fail
  rename_i hextent
  refine Sound.bind (gdalMetadata_sound htags) fun items _ => ?_
  refine Sound.bind (gdalNodata_sound htags) fun nodata _ => ?_
  have hsizes : l.width ≠ 1 ∧ l.height ≠ 1 := plausible_sizes (by simpa using hextent)
  have hlength : (List.replicate total (none : Option (List Float32))).length = total :=
    List.length_replicate
  refine ⟨⟨⟨?_, hvalid.width.2⟩, ⟨?_, hvalid.height.2⟩, hvalid.samples, hvalid.blockWidth,
    hvalid.blockHeight, hcounted.bytes, rfl, hcounted.perPlane, ?_, ?_, ?_, ?_, hvalid.places⟩, ?_⟩
  · have hpos := hvalid.width.1
    show 2 ≤ l.width
    omega
  · have hpos := hvalid.height.1
    show 2 ≤ l.height
    omega
  · exact hlength.trans hcounted.allPlanes
  · exact hlength.trans_lt hcounted.fits
  · exact hlength.trans_le hcounted.offsets
  · exact hlength.trans_le hcounted.counts
  · intro block data hdata
    have hmem := List.mem_of_getElem? hdata
    exact absurd (List.eq_of_mem_replicate hmem) (by simp)

/-! ## Files -/

/-- The directories that parsing comes to from one at `next`, when `left` more
images may be read. -/
inductive Reads (libraries : Libraries) (r : Reader) : Nat → Nat → Nat → Prop
  | here {left place : Nat} : place ≠ 0 → Reads libraries r left place place
  | next {left place place' last : Nat} {tags : Tags} {parsed : Image} :
    place ≠ 0 → directory r place = .ok tags → image libraries r tags = .ok parsed →
    nextDirectory r place = .ok place' → Reads libraries r left place' last →
    Reads libraries r (left + 1) place last

/-- The sizes of every image that is read from the directory at `next` on fit. -/
def SizesFit (libraries : Libraries) (r : Reader) (left next : Nat) : Prop :=
  ∀ place tags l, Reads libraries r left next place → directory r place = .ok tags →
    layout r tags = .ok l → l.Fits

theorem readImages_sound {libraries : Libraries} {r : Reader} {left next : Nat}
    (hnext : next < 2 ^ 32) (hfits : SizesFit libraries r left next) :
    Sound (readImages libraries r left next) fun images =>
      ∀ image ∈ images, image.Made ∧ image.Fresh := by
  induction left generalizing next with
  | zero =>
    unfold readImages
    split
    · simp [Sound]
    rename_i hzero
    refine Sound.bind (Sound.of_eq (directory_sound hnext)) fun tags htags => ?_
    obtain ⟨heq, htags⟩ := htags
    refine Sound.bind (image_sound htags fun l hl => hfits _ _ l (Reads.here hzero) heq hl)
      fun image _ => ?_
    refine Sound.bind (nextDirectory_sound hnext) fun next _ => ?_
    exact Sound.fail
  | succ left ih =>
    unfold readImages
    split
    · simp [Sound]
    rename_i hzero
    refine Sound.bind (Sound.of_eq (directory_sound hnext)) fun tags htags => ?_
    obtain ⟨heq, htags⟩ := htags
    refine Sound.bind (Sound.of_eq (image_sound htags fun l hl =>
      hfits _ _ l (Reads.here hzero) heq hl)) fun image himage => ?_
    refine Sound.bind (Sound.of_eq (nextDirectory_sound hnext)) fun next' hnext' => ?_
    refine Sound.bind (ih hnext'.2 fun place tags' l hreads => hfits place tags' l
      (Reads.next hzero heq himage.1 hnext'.1 hreads)) fun images himages => ?_
    show ∀ i ∈ image :: images, i.Made ∧ i.Fresh
    intro i hi
    rcases List.mem_cons.1 hi with rfl | hi
    · exact himage.2
    · exact himages i hi

theorem byteOrder_sound {head : Bytes} (h : head.length = 8) :
    Sound (byteOrder head) fun _ => True := by
  unfold byteOrder
  refine Sound.bind (Sound.slice (by omega) (by omega)) fun magic _ => ?_
  split_ifs <;> trivial

/-- The sizes of every image that parsing the loaded bytes comes to fit. -/
def Ranges.SizesFit (libraries : Libraries) (ranges : Ranges) : Prop :=
  ∀ head order next, ranges.get 0 8 = .ok head → byteOrder head = .ok order →
    (Reader.mk ranges order).u32 4 = .ok next →
      Grid.SizesFit libraries ⟨ranges, order⟩ maxImages next

theorem parse_sound {libraries : Libraries} {ranges : Ranges}
    (hfits : ranges.SizesFit libraries) :
    Sound (parse libraries ranges) fun images => ∀ image ∈ images, image.Made ∧ image.Fresh := by
  unfold parse
  refine Sound.bind (Sound.of_eq (Ranges.get_sound (by omega))) fun head hhead => ?_
  refine Sound.bind (Sound.of_eq (byteOrder_sound hhead.2)) fun order horder => ?_
  refine Sound.bind (Sound.of_eq (Reader.u32_sound (by omega))) fun next hnext => ?_
  refine Sound.bind (readImages_sound hnext.2 (hfits head order next hhead.1 horder.1 hnext.1))
    fun images himages => ?_
  split
  · exact Sound.fail
  · exact himages

end Xeibe.Reproject.Grid

import Xeibe.Reproject.Grid.Tiff

/-!
# The grids of a file

Which images of a file are grids of a horizontal or a vertical shift, and which
of their samples hold it.  How the grids nest is left out: a lookup gives one of
them.
-/

namespace Xeibe.Reproject.Grid

open Xeibe.Geom (F64)
open Xeibe.Lib

/-- A metadata item of an image (sample -1) or of a sample, empty when there is
none. -/
def Image.item (image : Image) (name : String) (sample : Int) : Text :=
  (image.metadata.lookup (sample, name.toList)).getD []

/-- `FILETYPE_PAGE`. -/
def page : Nat := 2

/-- One grid: an image of the file, and what the method needs to read it. -/
structure Node (P : Type) where
  image : Nat
  info : P

/-- An image that isn't a grid is passed over, unless it is the first one. -/
def passOver {P : Type} (ifd : Nat) (info : P) (message : String) :
    Except String (P × Bool) :=
  if ifd = 0 then .error message else .ok (info, false)

/-- The grids among the images from `ifd` on: `one` says how an image is read,
after the ones before it, and whether it is a grid. -/
def nodesFrom {P : Type} (one : Nat → Image → P → Except String (P × Bool)) :
    Nat → P → List Image → Except String (List (Node P))
  | _, _, [] => .ok []
  | ifd, info, image :: images => do
    let (info, isGrid) ← one ifd image info
    let nodes ← nodesFrom one (ifd + 1) info images
    .ok (if isGrid then ⟨ifd, info⟩ :: nodes else nodes)

/-! ## Horizontal shifts -/

/-- How a horizontal-shift grid's samples are read. -/
structure HInfo where
  lat : Nat
  lon : Nat
  /-- From the grid's unit to radians. -/
  toRadians : F64
  positiveEast : Bool

/-- What the descriptions of the samples say. -/
structure Described where
  info : HInfo
  any : Bool
  foundLat : Bool
  foundLon : Bool

def describe (image : Image) (info : HInfo) : Described :=
  (List.range image.samples).foldl (fun d (i : Nat) =>
      let desc := image.item "DESCRIPTION" i
      let d := if desc.isEmpty then d else { d with any := true }
      if desc = "latitude_offset".toList then
        { d with info := { d.info with lat := i }, foundLat := true }
      else if desc = "longitude_offset".toList then
        { d with info := { d.info with lon := i }, foundLon := true }
      else
        d)
    ⟨info, false, false, false⟩

/-- Which direction the longitude offsets count as positive. -/
def readPositive (image : Image) (info : HInfo) : Except String HInfo :=
  let value := image.item "positive_value" info.lon
  if value.isEmpty then .ok info
  else if value = "west".toList then .ok { info with positiveEast := false }
  else if value = "east".toList then .ok { info with positiveEast := true }
  else .error "unsupported positive_value"

/-- `(PI / 180.0) / 3600.0`. -/
def arcSecond : F64 := F64.pi / F64.ofUsize 180 / F64.ofUsize 3600

def readUnit (image : Image) (info : HInfo) : Except String HInfo :=
  let lat := image.item "UNITTYPE" info.lat
  let lon := image.item "UNITTYPE" info.lon
  if lat ≠ lon then .error "different units for longitude and latitude offsets"
  else if lat.isEmpty then .ok info
  else if lat = "arc-second".toList ∨ lat = "arc-seconds per year".toList then
    .ok { info with toRadians := arcSecond }
  else if lat = "radian".toList then .ok { info with toRadians := F64.ofUsize 1 }
  else if lat = "degree".toList then .ok { info with toRadians := F64.pi / F64.ofUsize 180 }
  else .error "unsupported unit"

def horizontalImage (ifd : Nat) (image : Image) (info : HInfo) : Except String (HInfo × Bool) :=
  if image.subfileType ≠ 0 ∧ image.subfileType ≠ page then
    passOver ifd info "invalid subfileType"
  else if image.samples < 2 then
    passOver ifd info "at least 2 samples per pixel needed"
  else
    let d := describe image info
    if d.any && !d.foundLat && !d.foundLon then
      passOver ifd d.info "IFD 0 has channel descriptions, but no offsets"
    else if d.foundLat ≠ d.foundLon then
      .error "only one of latitude_offset and longitude_offset"
    else if image.samples ≤ d.info.lat ∨ image.samples ≤ d.info.lon then
      .error "invalid sample index"
    else do
      let info ← (if d.foundLon then readPositive image d.info else .ok d.info)
      let info ← readUnit image info
      .ok (info, true)

/-- The sample indices, unit and sign carry over from one image to the next
unless an image redefines them. -/
def horizontal (images : List Image) : Except String (List (Node HInfo)) :=
  nodesFrom horizontalImage 0 ⟨0, 1, arcSecond, true⟩ images

/-! ## Vertical shifts -/

/-- The sample of a vertical grid that holds the shift. -/
structure VInfo where
  sample : Nat

def isVertical (desc : Text) : Bool :=
  desc = "geoid_undulation".toList || desc = "vertical_offset".toList ||
    desc = "hydroid_height".toList || desc = "ellipsoidal_height_offset".toList

/-- The last sample that is described as a vertical shift, and whether any
sample is described. -/
def describeVertical (image : Image) : Option Nat × Bool :=
  (List.range image.samples).foldl (fun d (i : Nat) =>
      let desc := image.item "DESCRIPTION" i
      (if isVertical desc then some i else d.1, d.2 || !desc.isEmpty))
    (none, false)

def verticalImage (ifd : Nat) (image : Image) (info : VInfo) : Except String (VInfo × Bool) :=
  if image.subfileType ≠ 0 ∧ image.subfileType ≠ page then
    passOver ifd info "invalid subfileType"
  else
    match describeVertical image with
    | (none, true) => passOver ifd info "IFD 0 has channel descriptions, but no vertical shift"
    | (found, _) =>
      let sample := found.getD info.sample
      if image.samples ≤ sample then .error "invalid sample index" else .ok (⟨sample⟩, true)

/-- The sample carries over from one image to the next unless an image names its
own. -/
def vertical (images : List Image) : Except String (List (Node VInfo)) :=
  nodesFrom verticalImage 0 ⟨0⟩ images

/-! ## The samples are the image's -/

theorem passOver_not_grid {P : Type} {ifd : Nat} {info info' : P} {message : String}
    (h : passOver ifd info message = .ok (info', true)) : False := by
  unfold passOver at h
  split at h <;> cases h

theorem readPositive_samples {image : Image} {info info' : HInfo}
    (h : readPositive image info = .ok info') : info'.lat = info.lat ∧ info'.lon = info.lon := by
  unfold readPositive at h
  extract_lets value at h
  split_ifs at h <;> cases h <;> exact ⟨rfl, rfl⟩

theorem readUnit_samples {image : Image} {info info' : HInfo}
    (h : readUnit image info = .ok info') : info'.lat = info.lat ∧ info'.lon = info.lon := by
  unfold readUnit at h
  extract_lets lat lon at h
  split_ifs at h <;> cases h <;> exact ⟨rfl, rfl⟩

theorem horizontalImage_samples {ifd : Nat} {image : Image} {info info' : HInfo}
    (h : horizontalImage ifd image info = .ok (info', true)) :
    info'.lat < image.samples ∧ info'.lon < image.samples := by
  unfold horizontalImage at h
  split at h
  · exact (passOver_not_grid h).elim
  split at h
  · exact (passOver_not_grid h).elim
  extract_lets d at h
  split at h
  · exact (passOver_not_grid h).elim
  split at h
  · cases h
  split at h
  · cases h
  rename_i hsamples
  have hpositive : ∀ i, (if d.foundLon then readPositive image d.info else .ok d.info) = .ok i →
      i.lat = d.info.lat ∧ i.lon = d.info.lon := by
    intro i hi
    split at hi
    · exact readPositive_samples hi
    · cases hi
      exact ⟨rfl, rfl⟩
  obtain ⟨read, hread, h⟩ := bind_eq_ok.1 h
  obtain ⟨unit, hunit, h⟩ := bind_eq_ok.1 h
  obtain ⟨hlat, hlon⟩ := hpositive read hread
  obtain ⟨hlat', hlon'⟩ := readUnit_samples hunit
  cases h
  omega

theorem verticalImage_samples {ifd : Nat} {image : Image} {info info' : VInfo}
    (h : verticalImage ifd image info = .ok (info', true)) : info'.sample < image.samples := by
  unfold verticalImage at h
  split at h
  · exact (passOver_not_grid h).elim
  split at h
  · exact (passOver_not_grid h).elim
  · extract_lets sample at h
    split at h
    · cases h
    · rename_i hsample
      cases h
      show sample < image.samples
      omega

/-- What holds of each image that is a grid holds of every grid of the file. -/
theorem nodesFrom_spec {P : Type} {one : Nat → Image → P → Except String (P × Bool)}
    {Q : Image → P → Prop}
    (hone : ∀ ifd image info info', one ifd image info = .ok (info', true) → Q image info')
    {ifd : Nat} {info : P} {images : List Image} {nodes : List (Node P)}
    (h : nodesFrom one ifd info images = .ok nodes) :
    ∀ node ∈ nodes, ifd ≤ node.image ∧
      ∃ image, images[node.image - ifd]? = some image ∧ Q image node.info := by
  induction images generalizing ifd info nodes with
  | nil =>
    cases h
    simp
  | cons image images ih =>
    unfold nodesFrom at h
    obtain ⟨⟨info', isGrid⟩, hfirst, h⟩ := bind_eq_ok.1 h
    obtain ⟨others, hrest, h⟩ := bind_eq_ok.1 h
    have hothers : ∀ node ∈ others, ifd ≤ node.image ∧
        ∃ i, (image :: images)[node.image - ifd]? = some i ∧ Q i node.info := by
      intro node hnode
      obtain ⟨hle, i, hi, hq⟩ := ih hrest node hnode
      have hindex : node.image - ifd = node.image - (ifd + 1) + 1 := by omega
      rw [hindex]
      exact ⟨by omega, i, by simpa using hi, hq⟩
    cases h
    intro node hnode
    cases isGrid with
    | false => exact hothers node (by simpa using hnode)
    | true =>
      rcases List.mem_cons.1 (by simpa using hnode) with rfl | hnode
      · exact ⟨Nat.le_refl _, image, by simp, hone ifd image info info' hfirst⟩
      · exact hothers node hnode

theorem horizontal_samples {images : List Image} {nodes : List (Node HInfo)}
    (h : horizontal images = .ok nodes) : ∀ node ∈ nodes,
      ∃ image, images[node.image]? = some image ∧
        node.info.lat < image.samples ∧ node.info.lon < image.samples := by
  intro node hnode
  have hone : ∀ ifd image (info info' : HInfo), horizontalImage ifd image info = .ok (info', true) →
      (fun image info => info.lat < image.samples ∧ info.lon < image.samples) image info' :=
    fun _ _ _ _ => horizontalImage_samples
  exact (nodesFrom_spec hone h node hnode).2

theorem vertical_samples {images : List Image} {nodes : List (Node VInfo)}
    (h : vertical images = .ok nodes) : ∀ node ∈ nodes,
      ∃ image, images[node.image]? = some image ∧ node.info.sample < image.samples := by
  intro node hnode
  have hone : ∀ ifd image (info info' : VInfo), verticalImage ifd image info = .ok (info', true) →
      (fun image info => info.sample < image.samples) image info' :=
    fun _ _ _ _ => verticalImage_samples
  exact (nodesFrom_spec hone h node hnode).2

end Xeibe.Reproject.Grid

import Xeibe.Lib.Forest
import Xeibe.Lib.Keyed
import Xeibe.Reproject.Grid.Shift

/-!
# How the grids of a file nest

Top-level grids with subgrids, placed one image after the other: by the names of the
grid and of its parent where they say, else by extent.  A recorded name is the path
to a grid in lists that keep growing, so every step is one `Forest.pushAt`.
-/

namespace Xeibe.Reproject.Grid

open Xeibe.Geom (F64)
open Xeibe.Lib

/-! ## Extents -/

/-- `REL_TOLERANCE_HGRIDSHIFT`: 1e-5. -/
def relTolerance : F64 := ⟨0x3ee4f8b588e368f1⟩

namespace ExtentAndRes

def contains (e other : ExtentAndRes) : Bool :=
  decide (e.west ≤ other.west) && decide (other.east ≤ e.east) &&
    decide (e.south ≤ other.south) && decide (other.north ≤ e.north)

/-- The tolerance horizontal-shift lookups allow around a grid. -/
def epsilon (e : ExtentAndRes) : F64 := (e.resX + e.resY) * relTolerance

end ExtentAndRes

/-- `isPointInExtent`. -/
def pointInExtent (x y : F64) (extent : ExtentAndRes) (eps : F64) : Bool :=
  if !(decide (extent.south ≤ y + eps) && decide (y - eps ≤ extent.north)) then false
  else if extent.fullWorldLongitude then true
  else
    let turn := F64.ofUsize 2 * F64.pi
    let x :=
      if !extent.isGeographic then x
      else if x + eps < extent.west then x + turn
      else if extent.east < x - eps then x - turn
      else x
    decide (extent.west ≤ x + eps) && decide (x - eps ≤ extent.east)

/-! ## Placing a grid -/

section

variable {P : Type} (images : List Image)

/-- What indexing past the images would be: no node does. -/
def nowhere : ExtentAndRes :=
  ⟨false, F64.zero, F64.zero, F64.zero, F64.zero, F64.zero, F64.zero, F64.zero, F64.zero⟩

def extentOf (node : Node P) : ExtentAndRes := (images[node.image]?.map (·.extent)).getD nowhere

/-- A metadata item of a grid's image. -/
def itemOf (image : Nat) (name : String) : Text :=
  (images[image]?.map fun i => i.item name (-1)).getD []

/-- The grids of a file, and the paths to those that have a name. -/
structure Hierarchy (P : Type) where
  top : List (Rose (Node P))
  names : List (Text × List Nat)

/-- No grids yet. -/
def Hierarchy.empty : Hierarchy P := ⟨[], []⟩

/-- `insertGrid`: into the first child that contains it, recursively, else as a new
child. -/
def insertGrid (sub : Node P) (grid : Rose (Node P)) : Rose (Node P) × List Nat :=
  Forest.insertTree (fun n => (extentOf images n).contains (extentOf images sub)) sub grid

/-- Where the names place a grid: below its parent when that contains it, else at the
top when it names none. -/
def placeByName (h : Hierarchy P) (node : Node P) (gridName parentName : Text) :
    Option (List (Rose (Node P)) × List Nat) :=
  if !parentName.isEmpty then do
    let parent ← h.names.lookup parentName
    let t ← Forest.treeAt h.top parent
    if (extentOf images t.label).contains (extentOf images node) then
      some (Forest.pushAt node parent h.top, parent ++ [t.children.length])
    else
      none
  else if !gridName.isEmpty then
    some (h.top ++ [.leaf node], [h.top.length])
  else
    none

/-- Where the extents place a grid: in the first top-level grid of the same type that
contains it. -/
def placeByExtent (typeOf : Node P → Text) (node : Node P) (top : List (Rose (Node P))) :
    Option (List (Rose (Node P)) × List Nat) := do
  let type := typeOf node
  let i ← top.findIdx? fun t => (type.isEmpty || typeOf t.label = type) &&
    (extentOf images t.label).contains (extentOf images node)
  let t ← top[i]?
  let (grid, path) := insertGrid images node t
  some (top.set i grid, i :: path)

/-- `insertIntoHierarchy`. -/
def insertIntoHierarchy (typeOf : Node P → Text) (h : Hierarchy P) (node : Node P)
    (gridName parentName : Text) : Hierarchy P :=
  let (top, path) :=
    match placeByName images h node gridName parentName with
    | some placed => placed
    | none =>
      (placeByExtent images typeOf node h.top).getD (h.top ++ [.leaf node], [h.top.length])
  ⟨top, if gridName.isEmpty then h.names else Keyed.put gridName path h.names⟩

/-! ## The images of a file -/

/-- How the images of a file are read: what carries over from one to the next, and
which of them are grids.  The first grid is known to those after it. -/
structure Opener (S P : Type) where
  start : S
  one : List Image → Nat → Image → S → Option (Node P) → Except String (S × Option P)
  typeOf : List Image → Node P → Text

variable {S : Type} (o : Opener S P)

/-- A grid placed by what its image says. -/
def Opener.place (h : Hierarchy P) (node : Node P) : Hierarchy P :=
  insertIntoHierarchy images (o.typeOf images) h node (itemOf images node.image "grid_name")
    (itemOf images node.image "parent_grid_name")

/-- The images from `ifd` on, one after the other. -/
def Opener.openFrom : Nat → S → Hierarchy P → List Image → Except String (Hierarchy P)
  | _, _, h, [] => .ok h
  | ifd, s, h, image :: rest => do
    let (s, info) ← o.one images ifd image s (h.top.head?.map Rose.label)
    match info with
    | none => openFrom (ifd + 1) s h rest
    | some info => openFrom (ifd + 1) s (o.place images h ⟨ifd, info⟩) rest

/-- The grids of a file. -/
def Opener.openAll : Except String (Hierarchy P) :=
  o.openFrom images 0 o.start .empty images

/-- `GTiffHGridShiftSet::open`. -/
def horizontalOpener : Opener HInfo HInfo where
  start := ⟨0, 1, arcSecond, true⟩
  one _ ifd image info _ := do
    let (info, isGrid) ← horizontalImage ifd image info
    .ok (info, if isGrid then some info else none)
  typeOf images node := itemOf images node.image "TYPE"

/-- `GTiffVGridShiftSet::open`. -/
def verticalOpener : Opener VInfo VInfo where
  start := ⟨0⟩
  one _ ifd image info _ := do
    let (info, isGrid) ← verticalImage ifd image info
    .ok (info, if isGrid then some info else none)
  typeOf images node := itemOf images node.image "TYPE"

/-- A generic grid reads its metadata, when an image lacks it, from the file's first
grid. -/
structure GInfo where
  first : Option Nat

/-- `GTiffGenericGrid::metadataItem`, of an image. -/
def genericMetadata (node : Node GInfo) (name : String) : Text :=
  let own := itemOf images node.image name
  if own.isEmpty then (node.info.first.map fun first => itemOf images first name).getD [] else own

/-- `GTiffGenericGridShiftSet::open`. -/
def genericOpener : Opener Unit GInfo where
  start := ()
  one images ifd image _ first :=
    if image.subfileType ≠ 0 ∧ image.subfileType ≠ page then
      if ifd = 0 then .error "invalid subfileType" else .ok ((), none)
    else
      let lacks := fun node : Node GInfo =>
        (image.item "TYPE" (-1)).isEmpty && !(genericMetadata images node "TYPE").isEmpty
      .ok ((), some ⟨(first.filter lacks).map (·.image)⟩)
  typeOf images node := genericMetadata images node "TYPE"

/-! ## The grid of a point -/

/-- Whether a grid contains a point, within the tolerance of the lookup. -/
def covers (tolerant : Bool) (x y : F64) (node : Node P) : Bool :=
  let extent := extentOf images node
  pointInExtent x y extent (if tolerant then extent.epsilon else F64.zero)

/-- `gridAt` below a grid: the deepest subgrid containing the point. -/
def gridAt (tolerant : Bool) (x y : F64) (grid : Rose (Node P)) : Rose (Node P) :=
  Forest.descend (covers images tolerant x y) grid

/-- In the first top-level grid that is looked at and contains the point. -/
def lookAt (looked : Node P → Bool) (tolerant : Bool) (x y : F64) (top : List (Rose (Node P))) :
    Option (Rose (Node P)) :=
  (top.find? fun grid => looked grid.label && covers images tolerant x y grid.label).map
    (gridAt images tolerant x y)

/-- `HorizontalShiftGridSet::gridAt`. -/
def horizontalGridAt (top : List (Rose (Node HInfo))) (lon lat : F64) : Option (Rose (Node HInfo)) :=
  lookAt images (fun _ => true) true lon lat top

/-- `VerticalShiftGridSet::gridAt`. -/
def verticalGridAt (top : List (Rose (Node VInfo))) (lon lat : F64) : Option (Rose (Node VInfo)) :=
  lookAt images (fun _ => true) false lon lat top

/-- `GenericShiftGridSet::gridAt(x, y)`. -/
def genericGridAt (top : List (Rose (Node GInfo))) (x y : F64) : Option (Rose (Node GInfo)) :=
  lookAt images (fun _ => true) false x y top

/-- `GenericShiftGridSet::gridAt(type, x, y)`. -/
def genericGridAtType (top : List (Rose (Node GInfo))) (type : Text) (x y : F64) :
    Option (Rose (Node GInfo)) :=
  lookAt images (fun node => genericMetadata images node "TYPE" = type) false x y top

end

end Xeibe.Reproject.Grid

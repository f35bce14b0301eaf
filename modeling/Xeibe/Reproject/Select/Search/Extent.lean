import Mathlib.Algebra.Ring.Int.Defs
import Xeibe.Reproject.Select.Choice

/-!
# Areas of use

The geographic bounding boxes in degrees that the search compares: containment,
meeting and intersection with the rules for the antimeridian, and the area on a
sphere.  The name rides along: an intersection keeps it when it returns one of
the two boxes unchanged.
-/

namespace Xeibe.Geom.F64

/-- `f64::total_cmp`'s order of the bits: the negative ones turned around. -/
def totalKey (value : F64) : Int :=
  if value.bits < 0x8000000000000000 then
    value.bits.toNat
  else
    -((value.bits.toNat : Int) - 2 ^ 63) - 1

/-- `f64::total_cmp`. -/
def totalCmp (a b : F64) : Ordering := compare a.totalKey b.totalKey

/-- The next double up. -/
def nextUp (x : F64) : F64 :=
  if x.isNan || x.eq infinity then x
  else if x.eq zero then ⟨1⟩
  else if zero < x then ⟨x.bits + 1⟩
  else ⟨x.bits - 1⟩

/-- The next double down. -/
def nextDown (x : F64) : F64 := -nextUp (-x)

end Xeibe.Geom.F64

namespace Xeibe.Reproject.Select.Extent

open Xeibe.Geom (F64)

/-- A box reduced to a line or a point is widened by one ulp. -/
def new (name : Option String) (west south east north : F64) : Extent where
  name := name
  west := if west.eq east && decide (-F64.ofUsize 180 < west) then west.nextDown else west
  south := if south.eq north && decide (-F64.ofUsize 90 < south) then south.nextDown else south
  east := if west.eq east && decide (east < F64.ofUsize 180) then east.nextUp else east
  north := if south.eq north && decide (north < F64.ofUsize 90) then north.nextUp else north

/-- All longitudes. -/
def isAround (e : Extent) : Bool := e.west.eq (-F64.ofUsize 180) && e.east.eq (F64.ofUsize 180)

def isWorld (e : Extent) : Bool :=
  e.west.eq (-F64.ofUsize 180) && e.south.eq (-F64.ofUsize 90) && e.east.eq (F64.ofUsize 180) &&
    e.north.eq (F64.ofUsize 90)

/-- Proportional to the area on a sphere, with the platform's sine. -/
def pseudoArea (sin : F64 → F64) (extent : Extent) : F64 :=
  let e := if extent.east < extent.west then extent.east + F64.ofUsize 360 else extent.east
  (e - extent.west) * (sin extent.north.toRadians - sin extent.south.toRadians)

/-- `Option`'s area: nothing has none. -/
def pseudoAreaOf (sin : F64 → F64) (extent : Option Extent) : F64 :=
  (extent.map (pseudoArea sin)).getD F64.zero

def contains (a b : Extent) : Bool :=
  if !(decide (a.south ≤ b.south) && decide (b.north ≤ a.north)) then false
  else if a.isAround then !b.west.eq b.east
  else if b.isAround then false
  else if a.west < a.east then
    decide (b.west < b.east) && decide (a.west ≤ b.west) && decide (b.east ≤ a.east)
  else if b.west < b.east then decide (a.west ≤ b.west) || decide (b.east ≤ a.east)
  else decide (a.west ≤ b.west) && decide (b.east ≤ a.east)

def bbox (west south east north : F64) : Extent := ⟨none, west, south, east, north⟩

/-- One of the boxes that a box across the antimeridian is made of, as far as
its eastern edge. -/
def eastOf (b : Extent) : Extent := bbox b.west b.south (F64.ofUsize 180) b.north

/-- And from its western edge. -/
def westOf (b : Extent) : Extent := bbox (-F64.ofUsize 180) b.south b.east b.north

/-- `intersects`, `depth` calls deep at most.  Three are enough for boxes whose
edges are numbers: one to turn the two around, one to cut the second at the
antimeridian. -/
def intersectsAt : Nat → Extent → Extent → Bool
  | 0, _, _ => false
  | depth + 1, a, b =>
    if a.north < b.south ∨ b.north < a.south then false
    else if a.isAround && decide (b.east < b.west) then true
    else if b.isAround && decide (a.east < a.west) then true
    else if a.west ≤ a.east then
      if b.west ≤ b.east then decide (a.west.max b.west < a.east.min b.east)
      else if F64.ofUsize 180 < b.west ∨ b.east < -F64.ofUsize 180 then false
      else intersectsAt depth a b.eastOf || intersectsAt depth a b.westOf
    else if b.west ≤ b.east then intersectsAt depth b a
    else true

def intersects (a b : Extent) : Bool := intersectsAt 3 a b

/-- The wider of what the two parts of a box across the antimeridian give. -/
def wider : Option Extent → Option Extent → Option Extent
  | none, x => x
  | x, none => x
  | some i, some j => if j.east - j.west < i.east - i.west then some i else some j

/-- `box_intersection`, as deep as `intersectsAt`. -/
def boxIntersectionAt : Nat → Extent → Extent → Option Extent
  | 0, _, _ => none
  | depth + 1, a, b =>
    let south := a.south.max b.south
    let north := a.north.min b.north
    if a.north < b.south ∨ b.north < a.south then none
    else if a.isAround && decide (b.east < b.west) then some (bbox b.west south b.east north)
    else if b.isAround && decide (a.east < a.west) then some (bbox a.west south a.east north)
    else if a.west ≤ a.east then
      if b.west ≤ b.east then
        let west := a.west.max b.west
        let east := a.east.min b.east
        if west < east then some (bbox west south east north) else none
      else if F64.ofUsize 180 < b.west ∨ b.east < -F64.ofUsize 180 then none
      else wider (boxIntersectionAt depth a b.eastOf) (boxIntersectionAt depth a b.westOf)
    else if b.west ≤ b.east then boxIntersectionAt depth b a
    else some (bbox (a.west.max b.west) south (a.east.min b.east) north)

/-- One of the two unchanged, name included, when it lies in the other; else
the box intersection without a name. -/
def intersection (a b : Extent) : Option Extent :=
  if a.contains b then some b
  else if b.contains a then some a
  else (boxIntersectionAt 3 a b).map fun x => new none x.west x.south x.east x.north

end Xeibe.Reproject.Select.Extent

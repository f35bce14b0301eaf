import Xeibe.Geom.Model

/-!
# Converting coordinates

`Transform::convert` and the loops over buffers of coordinates that call it.
What a transform does between the internal coordinates of its two CRSs (its
plan), and the units and directions of their axes, are fields of the model;
the checks, the axis order and the height around them are as in the source.

Every call of `convert` is noted: the positions a transform is asked for are
the state of the loops.  Nothing else reads them.
-/

namespace Xeibe.Geom.F64

/-! ## Arithmetic on doubles -/

def toFloat (value : F64) : Float := Float.ofBits value.bits

def ofFloat (value : Float) : F64 := ⟨value.toBits⟩

/-- `i as f64`. -/
def ofUsize (i : Nat) : F64 := ofFloat (UInt64.ofNat i).toFloat

def isFinite (value : F64) : Bool := value.toFloat.isFinite

instance : Add F64 := ⟨fun a b => ofFloat (a.toFloat + b.toFloat)⟩
instance : Sub F64 := ⟨fun a b => ofFloat (a.toFloat - b.toFloat)⟩
instance : Mul F64 := ⟨fun a b => ofFloat (a.toFloat * b.toFloat)⟩
instance : Div F64 := ⟨fun a b => ofFloat (a.toFloat / b.toFloat)⟩
instance : Neg F64 := ⟨fun a => ofFloat (-a.toFloat)⟩
instance : LT F64 := ⟨fun a b => a.toFloat < b.toFloat⟩
instance : LE F64 := ⟨fun a b => a.toFloat ≤ b.toFloat⟩

instance (a b : F64) : Decidable (a < b) := inferInstanceAs (Decidable (a.toFloat < b.toFloat))
instance (a b : F64) : Decidable (a ≤ b) := inferInstanceAs (Decidable (a.toFloat ≤ b.toFloat))

/-- `f64::INFINITY`. -/
def infinity : F64 := ⟨0x7ff0000000000000⟩

/-- `f64::NEG_INFINITY`. -/
def negInfinity : F64 := ⟨0xfff0000000000000⟩

def zero : F64 := ⟨0⟩

/-- `f64::min`: the other one where one is NaN. -/
def min (a b : F64) : F64 :=
  if a.isNan then b else if b.isNan then a else if b < a then b else a

/-- `f64::max`: the other one where one is NaN. -/
def max (a b : F64) : F64 :=
  if a.isNan then b else if b.isNan then a else if a < b then b else a

/-- `f64::consts::PI`. -/
def pi : F64 := ⟨0x400921fb54442d18⟩

/-- `f64::consts::FRAC_PI_2`. -/
def fracPi2 : F64 := ⟨0x3ff921fb54442d18⟩

/-- `f64::MAX`. -/
def largest : F64 := ⟨0x7fefffffffffffff⟩

/-- `to_radians`: times `PI / 180.0`. -/
def toRadians (value : F64) : F64 := value * (pi / ofUsize 180)

/-- `to_degrees`: times `180.0 / PI`. -/
def toDegrees (value : F64) : F64 := value * (ofUsize 180 / pi)

/-- `f64::abs`: the sign bit off. -/
def abs (value : F64) : F64 := ⟨value.bits &&& 0x7fffffffffffffff⟩

/-- `==`, by value. -/
def eq (a b : F64) : Bool := a.toFloat == b.toFloat

/-- `f64::clamp`. -/
def clamp (value low high : F64) : F64 :=
  let value := if value < low then low else value
  if high < value then high else value

end Xeibe.Geom.F64

namespace Xeibe.Reproject

open Xeibe.Geom (F64)

/-! ## Errors -/

/-- Why one coordinate could not be converted. -/
inductive CoordinateError where
  | notFinite
  | invalidGeographic
  | outsideDomain
  | noConvergence
  | outsideGrid
  | gridNotLoaded
  | invalidGrid
deriving DecidableEq, Repr

/-- The errors that a conversion makes. -/
inductive Error where
  | projjson (crs message : String)
  | coordinate (index : Nat) (x y : F64) (reason : CoordinateError)
deriving DecidableEq, Repr

/-! ## CRSs and transforms -/

/-- The order coordinates are given and returned in. -/
inductive AxisOrder where
  | eastFirst
  | authority
deriving DecidableEq, Repr

/-- `[f64; 3]`. -/
structure Triple where
  x : F64
  y : F64
  z : F64
deriving DecidableEq, Repr

namespace Triple

/-- `swap(0, 1)`. -/
def swap (v : Triple) : Triple := { v with x := v.y, y := v.x }

def allFinite (v : Triple) : Bool := v.x.isFinite && v.y.isFinite && v.z.isFinite

end Triple

/-- A CRS's axes: what the order of coordinates depends on, and the change of
units and directions. -/
structure Axes where
  dimension : Nat
  firstIsNorthing : Bool
  toInternal : Triple → Triple
  toCrs : Triple → Triple

structure Crs where
  label : String
  axes : Axes
  /-- A full turn in the unit of the longitude axis, for a geographic CRS. -/
  longitudeTurn : Option F64

structure Transform where
  source : Crs
  target : Crs
  order : AxisOrder
  /-- Internal coordinates of the source CRS to the target's. -/
  run : Triple → Except CoordinateError Triple
  /-- One point the other way, where there is an inverse. -/
  reverse : Option (F64 → F64 → Option (F64 × F64))

/-- One coordinate: `z` is the third value when the data has one. -/
structure Coord where
  x : F64
  y : F64
  z : Option F64
deriving DecidableEq, Repr

/-- From the caller's order and units to the internal order in radians and
metres. -/
def toInternal (axes : Axes) (order : AxisOrder) (v : Triple) : Except CoordinateError Triple :=
  if v.allFinite then
    let v := if order = .eastFirst ∧ axes.firstIsNorthing then v.swap else v
    .ok (axes.toInternal v)
  else
    .error .notFinite

/-- The reverse of `toInternal`. -/
def fromInternal (axes : Axes) (order : AxisOrder) (v : Triple) : Triple :=
  let out := axes.toCrs v
  if order = .eastFirst ∧ axes.firstIsNorthing then out.swap else out

namespace Transform

/-- Convert one coordinate.  One with a NaN in x or y (GeoArrow's empty point)
comes back unchanged. -/
def convert (t : Transform) (c : Coord) : Except CoordinateError Coord :=
  if c.x.isNan || c.y.isNan then
    .ok c
  else do
    let internal ← toInternal t.source.axes t.order ⟨c.x, c.y, c.z.getD F64.zero⟩
    let out ← t.run internal
    let v := fromInternal t.target.axes t.order out
    -- A 2D target has no height of its own: hand back what came in.
    pure ⟨v.x, v.y, c.z.map fun z => if t.target.axes.dimension = 3 then v.z else z⟩

/-! ## Buffers of coordinates -/

/-- A computation that asks a transform for positions. -/
abbrev Asking (ε α : Type) := ExceptT ε (StateM (List (F64 × F64))) α

/-- `convert`, noted. -/
def ask (t : Transform) (c : Coord) : Asking CoordinateError Coord := do
  modify fun asked => asked ++ [(c.x, c.y)]
  t.convert c

end Transform

end Xeibe.Reproject

import Xeibe.Lib.Text
import Xeibe.Reproject.Equivalent.Close
import Xeibe.Reproject.Equivalent.Name
import Xeibe.Reproject.Remainder

/-!
# Equivalent CRSs

A CRS read from PROJJSON, and when two of them define the same coordinates: the same
kind of CRS, on the same datum, with the same projection method and parameters, and the
same axes in the same units.  `matchesWith` leaves out what `Relax` says.

What the comparison doesn't read (names and codes of CRSs, flags of methods, what the
axes are inverted to) is left out.
-/

namespace Xeibe.Reproject.Equivalent

open Xeibe.Geom (F64)
open Xeibe.Lib.Text

/-! ## Tolerances -/

def one : F64 := ⟨0x3ff0000000000000⟩

/-- PROJ's relative tolerance for measures (1e-10). -/
def close (a b : F64) : Bool := F64.within ⟨0x3ddb7cdfd9d7bdbb⟩ a b

/-- PROJ's relative tolerance for parameters (2e-10). -/
def closeParameter (a b : F64) : Bool := F64.within ⟨0x3deb7cdfd9d7bdbb⟩ a b

/-- Prime meridians within 1e-8 relative, PROJ's tolerance for them. -/
def sameMeridian (a b : F64) : Bool := F64.within ⟨0x3e45798ee2308c3a⟩ a b

/-- Components of directions, within 1e-12. -/
def near (a b : F64) : Bool := decide ((a - b).abs ≤ ⟨0x3d719799812dea11⟩)

/-! ## Datums -/

structure Ellipsoid where
  a : F64
  b : F64
  /-- First eccentricity squared. -/
  es : F64
  e : F64

/-- The datum a CRS is on. -/
structure Datum where
  /-- `EPSG:6258`, or the name when there is no id. -/
  key : String
  name : String
  ellipsoid : Ellipsoid
  /-- As given, none when the ellipsoid is given by its semi-minor axis or radius. -/
  inverseFlattening : Option F64
  /-- Radians east of Greenwich. -/
  primeMeridian : F64

/-- The datum of a vertical or of an engineering CRS. -/
structure NamedDatum where
  key : String
  name : String

/-- What equivalence leaves out, for identification. -/
structure Relax where
  /-- The two horizontal axes in either order. -/
  axisOrder : Bool
  /-- The horizontal axes by unit only, not by direction or order. -/
  axisDirections : Bool
  /-- Geodetic datums by ellipsoid and prime meridian only. -/
  datumIdentity : Bool

/-- Nothing left out. -/
def Relax.default : Relax := ⟨false, false, false⟩

/-- The traditional names of three ensembles. -/
def traditional (name : String) : String :=
  let trimmed := String.ofList (trim name.toList)
  if trimmed = "World Geodetic System 1984 ensemble" then "World Geodetic System 1984"
  else if trimmed = "European Terrestrial Reference System 1989 ensemble" then
    "European Terrestrial Reference System 1989"
  else if trimmed = "Greenland Reference 1996 ensemble" then "Greenland 1996"
  else trimmed

/-- Two datums by key, or by name as PROJ compares names. -/
def sameKey (keyA nameA keyB nameB : String) : Bool :=
  keyA == keyB || equivalentNames (traditional nameA) (traditional nameB)

/-- Two ellipsoids as PROJ compares them: the inverse flattenings where both are given by
one, else the semi-minor axes. -/
def sameEllipsoid (x : Ellipsoid) (rfX : Option F64) (y : Ellipsoid) (rfY : Option F64) : Bool :=
  close x.a y.a &&
    match rfX, rfY with
    | some p, some q => close p q
    | _, _ => close x.b y.b

def Datum.same (self other : Datum) (relax : Relax) : Bool :=
  (relax.datumIdentity || sameKey self.key self.name other.key other.name) &&
    sameEllipsoid self.ellipsoid self.inverseFlattening other.ellipsoid other.inverseFlattening &&
    sameMeridian self.primeMeridian other.primeMeridian

/-! ## Axes -/

structure Axis where
  /-- Where a horizontal axis points, in the plane of east and north. -/
  along : F64 × F64
  /-- +1 or -1 (down) for the third axis, zero otherwise. -/
  vertical : F64
  /-- Size of the unit in radians or metres. -/
  factor : F64

def Axis.same (self other : Axis) : Bool :=
  near self.along.1 other.along.1 && near self.along.2 other.along.2 &&
    near self.vertical other.vertical && close self.factor other.factor

def Axis.isHorizontal (axis : Axis) : Bool := axis.vertical.eq F64.zero

/-- The axes one after the other. -/
def pairwise (test : Axis → Axis → Bool) (self other : List Axis) : Bool :=
  (self.zip other).all fun p => test p.1 p.2

/-- Two axes by unit only, but for a vertical one. -/
def Axis.sameUnit (self other : Axis) : Bool :=
  close self.factor other.factor && (self.isHorizontal == other.isHorizontal) &&
    (self.isHorizontal || self.same other)

/-- The same axes, in the same order or as `relax` allows. -/
def sameAxes (relax : Relax) (self other : List Axis) : Bool :=
  if self.length ≠ other.length then
    false
  else if relax.axisDirections then
    pairwise Axis.sameUnit self other
  else if pairwise Axis.same self other then
    true
  else
    match self, other with
    | a₀ :: a₁ :: as, b₀ :: b₁ :: bs =>
      relax.axisOrder && (a₀.same b₁ && a₁.same b₀ && pairwise Axis.same as bs)
    | _, _ => false

/-- The first axes' units alike. -/
def sameHorizontalUnit (self other : List Axis) : Bool :=
  match self, other with
  | x :: _, y :: _ => close x.factor y.factor
  | _, _ => false

/-! ## Parameters -/

/-- Conversion parameters by EPSG code, or by PROJ key for a projection PROJ has no CRS
method for. -/
structure Params where
  values : List (Nat × F64)
  keys : List (String × F64)

namespace Params

def get (params : Params) (code : Nat) : Option F64 := params.values.lookup code

/-- A PROJ key's value. -/
def key (params : Params) (k : String) : Option F64 := params.keys.lookup k

end Params

/-- Scale factors, whose neutral value is 1. -/
def isScale (code : Nat) : Bool := [8805, 8815, 8819, 1038].contains code

def lat1stParallel : Nat := 8823

def lat2ndParallel : Nat := 8824

/-- The other standard parallel. -/
def swapped (code : Nat) : Option Nat :=
  if code = lat1stParallel then some lat2ndParallel
  else if code = lat2ndParallel then some lat1stParallel
  else none

/-- An azimuth or skew angle 360° from another is the same. -/
def sameTurn (code : Nat) (a b : F64) : Bool :=
  let turn := F64.ofUsize 360
  [8813, 8814].contains code &&
    (let a := (a.toDegrees + turn).rem turn
     let b := (b.toDegrees + turn).rem turn
     decide ((a - b).abs ≤ ⟨0x3ddb7cdfd9d7bdbb⟩ * a.abs))

/-- Two values of one parameter. -/
def sameValue (code : Nat) (value v : F64) : Bool :=
  closeParameter value v || sameTurn code value v

namespace Params

/-- The standard parallels are close when swapped. -/
def closeSwapped (self other : Params) (code : Nat) (value : F64) : Bool :=
  (swapped code).any fun twin =>
    (other.get twin).any (closeParameter value) &&
      (self.get twin).any fun mine => (other.get code).any (closeParameter mine)

/-- One parameter of `self` in `other`: with the same value, or left out where it is the
neutral one. -/
def covers (self other : Params) (method : Option Nat) (parameter : Nat × F64) : Bool :=
  match other.get parameter.1 with
  | some v =>
    sameValue parameter.1 parameter.2 v ||
      (method == some 9802 && self.closeSwapped other parameter.1 parameter.2)
  | none => parameter.2.eq (if isScale parameter.1 then one else F64.zero)

def coveredBy (self other : Params) (method : Option Nat) : Bool :=
  self.values.all (self.covers other method)

/-- The PROJ keys of one in the other. -/
def keysIn (self other : Params) : Bool :=
  self.keys.all fun k => (other.key k.1).any (closeParameter k.2)

/-- The same parameters, in any order: one that only one side has must be neutral, and for
Lambert Conic Conformal (2SP) the two standard parallels may be swapped. -/
def same (self other : Params) (method : Option Nat) : Bool :=
  self.coveredBy other method && other.coveredBy self method && self.keysIn other &&
    other.keysIn self

end Params

/-! ## Other formulations of one projection -/

/-- The platform's elementary functions. -/
structure Elementary where
  sin : F64 → F64
  cos : F64 → F64
  asin : F64 → F64
  acos : F64 → F64
  atanh : F64 → F64
  exp : F64 → F64
  ln : F64 → F64
  sqrt : F64 → F64
  powf : F64 → F64 → F64
  floor : F64 → F64

section Formulations

variable (fn : Elementary)

def msfn (sinphi cosphi es : F64) : F64 := cosphi / fn.sqrt (one - es * sinphi * sinphi)

/-- exp(−ψ), ψ the isometric latitude. -/
def tsfn (phi sinphi e : F64) : F64 :=
  let cosphi := fn.cos phi
  fn.exp (e * fn.atanh (e * sinphi)) *
    (if F64.zero < sinphi then cosphi / (one + sinphi) else (one - sinphi) / cosphi)

/-- A Lambert Conic Conformal (2SP)'s parameters as those of the 1SP that projects alike. -/
def twoSpAsOneSp (params : Params) (ellipsoid : Ellipsoid) : Option Params := do
  let phiF ← params.get 8821
  let phi₁ ← params.get lat1stParallel
  let phi₂ ← params.get lat2ndParallel
  if [phiF, phi₁, phi₂].any fun p => decide (F64.fracPi2 ≤ p.abs) then
    none
  else
    let eps10 : F64 := ⟨0x3ddb7cdfd9d7bdbb⟩
    let m := fun phi => msfn fn (fn.sin phi) (fn.cos phi) ellipsoid.es
    let t := fun phi => tsfn fn phi (fn.sin phi) ellipsoid.e
    let nDenom := fn.ln (t phi₁) - fn.ln (t phi₂)
    let n := if nDenom.abs < eps10 then fn.sin phi₁ else (fn.ln (m phi₁) - fn.ln (m phi₂)) / nDenom
    if n.abs < eps10 then
      none
    else
      let f := m phi₁ / (n * fn.powf (t phi₁) n)
      let phi₀ := fn.asin n
      let k₀ := f / (m phi₀ / (n * fn.powf (t phi₀) n))
      let correction := ellipsoid.a * f * (fn.powf (t phiF) n - fn.powf (t phi₀) n)
      -- PROJ rounds the latitude to a thousandth of a degree when that close.
      let degrees := phi₀.toDegrees
      let thousand := F64.ofUsize 1000
      let thousandths := fn.floor (degrees * thousand + ⟨0x3fe0000000000000⟩)
      let degrees :=
        if (degrees * thousand - thousandths).abs < ⟨0x3e45798ee2308c3a⟩ then thousandths / thousand
        else degrees
      let longitude ← params.get 8822
      let easting ← params.get 8826
      let northing ← params.get 8827
      let moved := if ⟨0x3e45798ee2308c3a⟩ < correction.abs then correction else F64.zero
      some {
        values := [(8801, degrees.toRadians), (8802, longitude), (8805, k₀), (8806, easting),
          (8807, northing + moved)]
        keys := [] }

/-- A Mercator (variant A)'s parameters as those of the variant B that projects alike. -/
def variantAAsB (params : Params) (ellipsoid : Ellipsoid) : Option Params :=
  if !((params.get 8801).getD F64.zero).eq F64.zero then
    none
  else do
    let k₀ ← params.get 8805
    if F64.zero < k₀ ∧ k₀ ≤ one + ⟨0x3ddb7cdfd9d7bdbb⟩ then
      let es := ellipsoid.es
      let phi₁ :=
        if one ≤ k₀ then F64.zero
        else fn.acos (fn.sqrt ((one - es) / (one / (k₀ * k₀) - es)))
      let longitude ← params.get 8802
      let easting ← params.get 8806
      let northing ← params.get 8807
      some {
        values := [(lat1stParallel, phi₁), (8802, longitude), (8806, easting), (8807, northing)]
        keys := [] }
    else
      none

/-! ## Conversions -/

/-- A projection method's code, with Krovak's north-orientated variants as Krovak. -/
def orientedAlike (method : Nat) : Nat :=
  if method = 1041 then 9819 else if method = 1043 then 1042 else method

/-- A map projection: its method with its EPSG code, and its parameters. -/
structure Conversion where
  method : String
  methodCode : Option Nat
  params : Params

/-- The same method, by name or by code. -/
def sameMethod (relax : Relax) (a b : Conversion) : Bool :=
  eqIgnoreAsciiCase a.method.toList b.method.toList ||
    match a.methodCode, b.methodCode with
    | some x, some y =>
      if relax.axisDirections then orientedAlike x == orientedAlike y else x == y
    | _, _ => false

/-- PROJ's other formulations of one projection: Lambert Conic Conformal (2SP) as the 1SP
it equals, and Mercator (variant A) as variant B. -/
def sameFormulation (a b : Conversion) (datumA datumB : Datum) : Bool :=
  let lcc := fun (c : Conversion) (d : Datum) => twoSpAsOneSp fn c.params d.ellipsoid
  let merc := fun (c : Conversion) (d : Datum) => variantAAsB fn c.params d.ellipsoid
  match a.methodCode, b.methodCode with
  | some 9802, some 9802 =>
    (lcc a datumA).any fun x => (lcc b datumB).any fun y => x.same y (some 9801)
  | some 9801, some 9802 => (lcc b datumB).any fun y => a.params.same y (some 9801)
  | some 9802, some 9801 => (lcc a datumA).any fun x => x.same b.params (some 9801)
  | some 9804, some 9805 => (merc a datumA).any fun x => x.same b.params (some 9805)
  | some 9805, some 9804 => (merc b datumB).any fun y => a.params.same y (some 9805)
  | _, _ => false

def sameProjection (relax : Relax) (a b : Conversion) (datumA datumB : Datum) : Bool :=
  (sameMethod relax a b && a.params.same b.params a.methodCode) ||
    sameFormulation fn a b datumA datumB

end Formulations

/-! ## CRSs -/

/-- A parameter of an operation, in SI units, or a grid file. -/
inductive ParamValue where
  | number (value : F64)
  | file (name : String)
  | missing

/-- A transformation without a code. -/
structure Operation where
  method : Nat
  params : List (Nat × ParamValue)

/-- The number, of a parameter that has this code. -/
def numberOf (code : Nat) : Nat × ParamValue → Option F64
  | (code', .number n) => if code' = code then some n else none
  | (_, .file _) => none
  | (_, .missing) => none

/-- A number parameter by EPSG code. -/
def Operation.param (operation : Operation) (code : Nat) : Option F64 :=
  operation.params.findSome? (numberOf code)

/-- The method and the parameters of two bound CRSs' transformations. -/
def Operation.same (a b : Operation) : Bool :=
  a.method == b.method && a.params.length == b.params.length &&
    a.params.all fun p =>
      match p.2 with
      | .number x => (b.param p.1).any (closeParameter x)
      | _ => false

mutual

inductive Kind where
  | geographic (datum : Datum)
  | geocentric (datum : Datum)
  | projected (datum : Datum) (conversion : Conversion)
  | vertical (datum : NamedDatum)
  | compound (horizontal vertical : Crs)
  | engineering (datum : NamedDatum)

/-- A CRS, with the transformation to its hub that a bound CRS carries. -/
structure Crs where
  kind : Kind
  axes : List Axis
  bound : Bound

inductive Bound where
  | unbound
  | to (hub : Crs) (operation : Operation)

end

section Matches

variable (fn : Elementary)

mutual

/-- Equivalence, leaving out what `relax` says.  The axis relaxations apply to the
horizontal axes; the vertical part of a compound CRS and vertical and engineering datums
are always compared in full. -/
def Crs.matchesWith : Crs → Relax → Crs → Bool
  | ⟨kind, axes, bound⟩, relax, other =>
    bound.same other.bound && kind.matchesWith relax axes other.kind other.axes

def Bound.same : Bound → Bound → Bool
  | .unbound, .unbound => true
  | .to hub operation, .to hub' operation' =>
    hub.matchesWith Relax.default hub' && operation.same operation'
  | _, _ => false

/-- Two kinds of CRSs, with the axes. -/
def Kind.matchesWith : Kind → Relax → List Axis → Kind → List Axis → Bool
  | .geographic a, relax, axes, .geographic b, axes' => a.same b relax && sameAxes relax axes axes'
  | .geocentric a, relax, axes, .geocentric b, axes' => a.same b relax && sameAxes relax axes axes'
  | .projected a c, relax, axes, .projected b d, axes' =>
    a.same b relax && sameProjection fn relax c d a b &&
      (if relax.axisDirections then sameHorizontalUnit axes axes' else sameAxes relax axes axes')
  | .vertical a, relax, axes, .vertical b, axes' =>
    sameKey a.key a.name b.key b.name && sameAxes relax axes axes'
  | .engineering a, relax, axes, .engineering b, axes' =>
    sameKey a.key a.name b.key b.name && sameAxes relax axes axes'
  | .compound h v, relax, _, .compound h' v', _ =>
    h.matchesWith relax h' && v.matchesWith Relax.default v'
  | _, _, _, _, _ => false

end

end Matches

end Xeibe.Reproject.Equivalent

import Mathlib.Data.List.Sort
import Xeibe.Reproject.Select.Search.Extent
import Xeibe.Reproject.Select.Transform

/-!
# The registry and the CRSs of the search

EPSG's coordinate operations, CRSs and datums as the registry keeps them once
they are read, PROJ's null operations among them, and what the search looks up
about a CRS: its kind, name, datum, base CRS and area of use.

What is read of the operations' own mathematics and of the catalogue of grid
files is a parameter, `Catalogue`.
-/

namespace Xeibe.Reproject.Select

/-- The EPSG code with the horizontal facts: the CRS's own, or a compound CRS's
horizontal part's. -/
def CrsRef.code : CrsRef → Nat
  | .epsg code => code
  | .promoted code => code
  | .compound code _ => code

end Xeibe.Reproject.Select

namespace Xeibe.Reproject.Select.Search

open Xeibe.Geom (F64)

/-! ## Operations -/

/-- The table PROJ imports an operation into. -/
inductive Table where
  | helmert
  | grid
  | other
  | concatenated
  | conversion
deriving DecidableEq, Repr

/-- A parameter value in SI units, or a grid file name. -/
inductive ParamValue where
  | number (value : F64)
  | file (name : String)
  | missing
deriving DecidableEq, Repr

structure Operation where
  code : Nat
  name : String
  table : Table
  method : Nat
  src : Option Nat
  dst : Option Nat
  accuracy : Option F64
  /-- EPSG's variant number, 0 when it has none. -/
  variant : Nat
  deprecated : Bool
  /-- EPSG's remarks say "Replaced by". -/
  replaced : Bool
  /-- The operations this one emulates with another method. -/
  emulates : List Nat
  /-- The area covering all its usages' areas. -/
  area : Option Extent
  params : List (Nat × ParamValue)
  /-- Steps of a concatenated operation, in order, directions not given. -/
  steps : List Nat
  /-- Operations that supersede this one: code, whether between the same CRSs,
  and table. -/
  supersededBy : List (Nat × Bool × Table)

namespace Operation

/-- A numeric parameter by EPSG code. -/
def param (op : Operation) (code : Nat) : Option F64 :=
  op.params.findSome? fun (c, v) =>
    match v with
    | .number n => if c = code then some n else none
    | _ => none

/-- A file parameter by EPSG code. -/
def file (op : Operation) (code : Nat) : Option String :=
  op.params.findSome? fun (c, v) =>
    match v with
    | .file f => if c = code then some f else none
    | _ => none

/-- The parameter with the grid PROJ reads, for the methods where an operation
has more than one file. -/
def fileParameter (method : Nat) : Option Nat :=
  if method ∈ [9614, 9615] then some 8656
  else if method ∈ [9613, 1074, 1075] then some 8657
  else if method = 1087 then some 8727
  else none

/-- The file parameters, in order. -/
def files (op : Operation) : List String :=
  op.params.filterMap fun (_, v) =>
    match v with
    | .file f => some f
    | _ => none

/-- Every grid file the operation reads. -/
def gridNames (op : Operation) : List String :=
  match fileParameter op.method with
  | some code => (op.file code).toList
  | none => op.files

/-- The grid file PROJ reads for this operation. -/
def gridName (op : Operation) : Option String :=
  match fileParameter op.method with
  | some code => op.file code
  | none => op.files.head?

/-- Both ends, where they are named. -/
def ends (op : Operation) : List Nat := op.src.toList ++ op.dst.toList

end Operation

/-- Time-dependent methods: rates applied from a reference epoch. -/
def isTimeDependent (method : Nat) : Bool :=
  (decide (1053 ≤ method) && decide (method ≤ 1058)) || method = 1143

/-- "Geographic3D to GravityRelatedHeight" methods PROJ runs from a grid. -/
def geoidGridMethods : List Nat :=
  [1025, 1030, 1045, 1047, 1048, 1050, 1059, 1060, 1072, 1073, 1081, 1082, 1099, 1106, 1117, 1123,
    1134, 9661, 9662, 9663, 9664, 9665,
    1083, 1088, 1089, 1090, 1091, 1092, 1093, 1094, 1095, 1096, 1097, 1098, 1100, 1103, 1105, 1109,
    1110, 1115, 1118, 1122, 1124, 1127, 1128, 1135, 9635]

/-- Whether a vertical offset grid's value is added, for the methods that are one. -/
def offsetGridAdds (method : Nat) : Option Bool :=
  if method ∈ [1112, 1126] then some false
  else if method ∈ [1071, 1080, 1084, 1085, 1129, 1101, 9658] then some true
  else none

/-- Methods with `xyzgridshift` in PROJ's pipeline. -/
def xyzgridshiftMethods : List Nat := [1087, 1142]

/-! ## CRSs and datums -/

inductive GeodeticKind where
  | geographic2d
  | geographic3d
  | geocentric
deriving DecidableEq, Repr

structure GeodeticCrs where
  code : Nat
  name : String
  kind : GeodeticKind
  datum : Nat
  deprecated : Bool

structure VerticalCrs where
  code : Nat
  name : String
  datum : Nat
  deprecated : Bool

structure Datum where
  code : Nat
  /-- The frame reference epoch, else the publication date. -/
  publicationDate : Option String
  ellipsoid : Nat
  /-- Members, for a datum ensemble. -/
  members : Option (List Nat)
  dynamic : Bool
  /-- For a datum ensemble: how far apart its members may be, in metres. -/
  ensembleAccuracy : Option F64
  /-- EPSG's publication date. -/
  published : Option String

/-- What a CRS's definition says beyond the tables of the registry. -/
inductive RecordKind where
  | geodetic
  | vertical
  /-- The codes of the two components, where the definition has two with codes. -/
  | compound (parts : Option (Nat × Nat))
  /-- The base CRS's code, and the deriving conversion's name and code. -/
  | projected (base : Option Nat) (conversion : String) (code : Option Nat)
  | engineering
  | other

/-- A CRS of `xeibe_crs`. -/
structure Record where
  code : Nat
  name : String
  /-- The first axis is the northing or the latitude. -/
  northFirst : Bool
  kind : RecordKind

/-- The registry.  A code is one operation and one CRS; the steps of an operation are operations;
the base of a projected CRS is a geodetic one; a compound CRS is made of a
vertical one and one that is not compound; no ensemble is a member of itself. -/
structure Registry where
  /-- EPSG's operations in the order they are read, then PROJ's. -/
  ops : List Operation
  geodetic : List GeodeticCrs
  vertical : List VerticalCrs
  datums : List Datum
  /-- Each CRS's area of use. -/
  crsExtent : List (Nat × Extent)
  records : List Record
  ops_nodup : (ops.map (·.code)).Nodup
  codes_nodup : (vertical.map (·.code) ++ geodetic.map (·.code)).Nodup
  steps_known : ∀ op ∈ ops, ∀ step ∈ op.steps, step ∈ ops.map (·.code)
  base_geodetic : ∀ record ∈ records, ∀ base name code,
    record.kind = .projected (some base) name code → base ∈ geodetic.map (·.code)
  parts_simple : ∀ record ∈ records, ∀ h v, record.kind = .compound (some (h, v)) →
    v ∈ vertical.map (·.code) ∧ ∀ part ∈ records, part.code = h → ∀ parts, part.kind ≠ .compound parts
  members_ne : ∀ datum ∈ datums, ∀ members ∈ datum.members, datum.code ∉ members

namespace Registry

theorem steps_known_nil : ∀ op ∈ ([] : List Operation), ∀ step ∈ op.steps,
    step ∈ ([] : List Operation).map (·.code) := by
  simp

theorem parts_simple_nil : ∀ record ∈ ([] : List Record), ∀ h v,
    record.kind = .compound (some (h, v)) → v ∈ ([] : List VerticalCrs).map (·.code) ∧
      ∀ part ∈ ([] : List Record), part.code = h → ∀ parts, part.kind ≠ .compound parts := by
  simp

theorem members_ne_nil : ∀ datum ∈ ([] : List Datum), ∀ members ∈ datum.members,
    datum.code ∉ members := by
  simp

variable (r : Registry)

def op (code : Nat) : Option Operation := r.ops.find? (·.code = code)

/-- Operations with this CRS as source or target, by code. -/
def byCrs (crs : Nat) : List Nat :=
  (r.ops.filter fun op => op.src = some crs || op.dst = some crs).map (·.code)

def geodeticCrs (code : Nat) : Option GeodeticCrs := r.geodetic.find? (·.code = code)

def verticalCrs (code : Nat) : Option VerticalCrs := r.vertical.find? (·.code = code)

def datumOf (code : Nat) : Option Datum := r.datums.find? (·.code = code)

def record (code : Nat) : Option Record := r.records.find? (·.code = code)

/-- Live geodetic CRSs on a datum, by code. -/
def crsByDatum (datum : Nat) : List Nat :=
  ((r.geodetic.filter fun g => !g.deprecated && g.datum = datum).map (·.code)).insertionSort (· ≤ ·)

def extentOf (code : Nat) : Option Extent := (r.crsExtent.find? (·.1 = code)).map (·.2)

end Registry

/-! ## Facts about CRSs -/

inductive CrsKind where
  | geographic2d
  | geographic3d
  | geocentric
  | projected
  | vertical
  | compound
  /-- A local grid: only EPSG's operations reach it. -/
  | engineering
  /-- Derived and other CRSs: not handled. -/
  | other
deriving DecidableEq, Repr

namespace CrsKind

def isGeodetic : CrsKind → Bool
  | .geographic2d | .geographic3d | .geocentric => true
  | _ => false

def isGeographic : CrsKind → Bool
  | .geographic2d | .geographic3d => true
  | _ => false

def ofGeodetic : GeodeticKind → CrsKind
  | .geographic2d => .geographic2d
  | .geographic3d => .geographic3d
  | .geocentric => .geocentric

@[simp] theorem isGeodetic_ofGeodetic (kind : GeodeticKind) :
    (ofGeodetic kind).isGeodetic = true := by
  cases kind with
  | geographic2d => rfl
  | geographic3d => rfl
  | geocentric => rfl

end CrsKind

structure CrsFacts where
  name : String
  kind : CrsKind
  /-- Datum of a geodetic CRS, or of a projected CRS's base. -/
  datum : Option Nat
  /-- Base geographic CRS of a projected CRS. -/
  base : Option Nat
  /-- Name and EPSG code of a projected CRS's deriving conversion. -/
  conversion : Option (String × Option Nat)
  extent : Option Extent
  /-- Datum of a vertical CRS, or of a compound CRS's vertical part. -/
  verticalDatum : Option Nat
  /-- A compound CRS's horizontal and vertical CRSs. -/
  components : Option (Nat × Nat)

namespace Registry

variable (r : Registry)

/-- The facts about a CRS of the tables of the registry; `promoted` for the 3D
twin of a geographic 2D one. -/
def tableFacts (code : Nat) (promoted : Bool) : Option CrsFacts :=
  match r.verticalCrs code with
  | some v => some ⟨v.name, .vertical, none, none, none, r.extentOf code, some v.datum, none⟩
  | none =>
    match r.geodeticCrs code with
    | some g =>
      some ⟨g.name, if promoted then .geographic3d else .ofGeodetic g.kind, some g.datum, none,
        none, r.extentOf code, none, none⟩
    | none => none

/-- The facts about a CRS that only its definition has, one that is not
compound. -/
def recordFacts (code : Nat) (record : Record) : Option CrsFacts :=
  match record.kind with
  | .compound _ => none
  | .projected base conversion conversionCode =>
    some ⟨record.name, .projected, (base.bind r.geodeticCrs).map (·.datum), base,
      some (conversion, conversionCode), r.extentOf code, none, none⟩
  | .engineering =>
    some ⟨record.name, .engineering, none, none, none, r.extentOf code, none, none⟩
  | _ => some ⟨record.name, .other, none, none, none, r.extentOf code, none, none⟩

/-- The facts about a CRS that is not compound. -/
def simpleFacts (code : Nat) (promoted : Bool) : Option CrsFacts :=
  match r.tableFacts code promoted with
  | some facts => some facts
  | none => (r.record code).bind (r.recordFacts code)

/-- A compound CRS from its parts' facts. -/
def compound (h v : Nat) (name : Option String) (extent : Option Extent) : Option CrsFacts := do
  let hf ← r.simpleFacts h false
  let vf ← r.simpleFacts v false
  pure ⟨name.getD (hf.name ++ " + " ++ vf.name), .compound, hf.datum, none, none, extent,
    vf.verticalDatum, some (h, v)⟩

/-- The parts of a compound CRS by its definition. -/
def recordParts (code : Nat) : Option (Record × Option (Nat × Nat)) := do
  let record ← r.record code
  match record.kind with
  | .compound parts => pure (record, parts)
  | _ => none

/-- The facts about a CRS with a code. -/
def codeFacts (code : Nat) (promoted : Bool) : Option CrsFacts :=
  match r.tableFacts code promoted with
  | some facts => some facts
  | none =>
    match r.recordParts code with
    | some (_, none) => none
    | some (record, some (h, v)) => r.compound h v (some record.name) (r.extentOf code)
    | none => r.simpleFacts code promoted

def lookUp : CrsRef → Option CrsFacts
  | .epsg code => r.codeFacts code false
  | .promoted code => r.codeFacts code true
  | .compound h v => r.compound h v none none

def kind (crs : CrsRef) : CrsKind := ((r.lookUp crs).map (·.kind)).getD .other

def name (crs : CrsRef) : String := ((r.lookUp crs).map (·.name)).getD ""

def datum (crs : CrsRef) : Option Nat := (r.lookUp crs).bind (·.datum)

def extent (crs : CrsRef) : Option Extent := (r.lookUp crs).bind (·.extent)

def verticalDatum (crs : CrsRef) : Option Nat := (r.lookUp crs).bind (·.verticalDatum)

def base (crs : CrsRef) : Option CrsRef := ((r.lookUp crs).bind (·.base)).map .epsg

/-- A compound CRS's horizontal and vertical CRSs. -/
def components (crs : CrsRef) : Option (CrsRef × CrsRef) :=
  ((r.lookUp crs).bind (·.components)).map fun (h, v) => (.epsg h, .epsg v)

/-- A compound CRS's vertical CRS. -/
def verticalOf (crs : CrsRef) : Option CrsRef := (r.components crs).map (·.2)

/-- `promoteTo3D` for a geographic 2D CRS: the registered geographic 3D CRS of
the same name and datum, else a synthetic twin.  Other CRSs are returned
unchanged. -/
def promoteTo3d (crs : CrsRef) : CrsRef :=
  match crs with
  | .epsg code =>
    if r.kind crs = .geographic2d then
      let twins := r.geodetic.filter fun g =>
        g.kind = .geographic3d && g.name = r.name crs && some g.datum = r.datum crs
      let sorted := twins.insertionSort fun a b =>
        a.deprecated < b.deprecated ∨ a.deprecated = b.deprecated ∧ a.code ≤ b.code
      match sorted with
      | g :: _ => .epsg g.code
      | [] => .promoted code
    else crs
  | _ => crs

/-! ## Datums -/

/-- When one datum is an ensemble and the other one of its members: the
ensemble's accuracy. -/
def ensembleMember (a b : Nat) : Option F64 :=
  let memberOf (ensemble member : Nat) : Option F64 := do
    let d ← r.datumOf ensemble
    let members ← d.members
    if member ∈ members then d.ensembleAccuracy else none
  (memberOf a b).or (memberOf b a)

/-- `isSameGeodeticDatum`. -/
def sameDatum (a b : CrsRef) : Bool :=
  match r.datum a, r.datum b with
  | some da, some db => decide (da = db)
  | _, _ => false

def publicationDate (crs : CrsRef) : Option String :=
  ((r.datum crs).bind r.datumOf).bind (·.publicationDate)

def ellipsoid (crs : CrsRef) : Option Nat := ((r.datum crs).bind r.datumOf).map (·.ellipsoid)

end Registry

/-! ## What the search calls -/

/-- A file of PROJ's catalogue, and whether it goes the other way. -/
structure GridEntry where
  file : String
  inverse : Bool

/-- The platform's sine and the texts of doubles, whether the operations' own
modules can run an operation, the catalogue of grid files and the prime
meridians of CRSs. -/
structure Catalogue where
  sin : F64 → F64
  /-- `{}`. -/
  display : F64 → String
  /-- `{:e}`. -/
  scientific : F64 → String
  /-- `operation::is_exportable`. -/
  runs : Operation → Bool
  /-- `grid::lookup`, by the grid's and the operation's name. -/
  lookup : String → String → Option GridEntry
  /-- Whether PROJ publishes the grid. -/
  onCdn : String → String → Bool
  /-- `Crs::from_epsg` and its datum's prime meridian, 0 without a datum. -/
  primeMeridian : Nat → Option F64

namespace Catalogue

/-- `Grids::has`: whether a grid EPSG names in an operation can be used. -/
def has (catalogue : Catalogue) (grids : Grids) (name opName : String) : Bool :=
  match grids with
  | .projData => catalogue.onCdn name opName
  | .none => false
  | .localFiles files => (catalogue.lookup name opName).any fun e => files.contains e.file

end Catalogue

end Xeibe.Reproject.Select.Search

import Xeibe.Geom.Crs
import Xeibe.Reproject.Transform

/-!
# Axis order

How the order of the axes is decided for one key: by the mode, the srsName and
the evidence that a scan gathers.  What the built-in tables know of an EPSG code and
how a text is quoted in a message are parameters.
-/

namespace Xeibe.Geom

open Xeibe.Lib.Text

/-! ## Facts about CRSs -/

inductive FirstAxis where
  | eastOrLon
  | northOrLat
  | other
deriving DecidableEq, Repr

/-- The smallest and the largest values, in the order of the axes as written. -/
structure BBox where
  minFirst : F64
  minSecond : F64
  maxFirst : F64
  maxSecond : F64
deriving DecidableEq, Repr

structure CrsInfo where
  firstAxis : FirstAxis
  geographic : Bool
  /-- In authority axis order. -/
  areaOfUse : Option BBox

/-- What a caller adds to the built-in table: authority, code, facts. -/
structure CrsTable where
  user : List (Text × Text × CrsInfo)

def CrsTable.builtin : CrsTable := ⟨[]⟩

/-- The later of a caller's entries win, and win over the built-in ones. -/
def CrsTable.get (record : Nat → Option CrsInfo) (table : CrsTable) (authority code : Text) :
    Option CrsInfo :=
  match table.user.reverse.find? fun e => eqIgnoreAsciiCase e.1 authority && e.2.1 == code with
  | some (_, _, info) => some info
  | none =>
    if eqIgnoreAsciiCase authority "EPSG".toList then (parseUnsigned 32 code).bind record
    else none

/-! ## Options, keys and evidence -/

inductive Dialect where
  | gml2
  | gml3
deriving DecidableEq, Repr

inductive AxisOrderMode where
  /-- Never swap. -/
  | xy
  | yx
  /-- The CRS's axis order decides, for every form. -/
  | crs
  /-- Short and legacy forms are x/y, the others follow the CRS. -/
  | crsHeuristic
  | gmlVersion (gml2 gml3 : AxisOrderMode)
  /-- By the evidence. -/
  | auto

structure AxisOrderOptions where
  mode : AxisOrderMode
  /-- srsName as written → mode. -/
  overrides : List (Text × AxisOrderMode)
  crsTable : Option CrsTable

structure AxisKey where
  source : Nat
  /-- As written. -/
  srsName : Option Text
  dialect : Dialect
deriving DecidableEq

/-- Evidence gathered by a scan or a read sample for one key. -/
structure AxisEvidence where
  /-- Bounding box of sampled first positions, in as-written order. -/
  sampledBbox : Option BBox
  samples : UInt64
  /-- Distinct `axisLabels` values seen. -/
  axisLabels : List Text
  /-- Envelopes in as-written order. -/
  envelopeBbox : Option BBox

/-- Context outside the data itself. -/
structure AxisContext where
  fmeProduced : Bool
  producer : Option Text
  wfsVersion : Option Text
  requestedSrs : Option SrsName
  /-- In x/y order. -/
  requestedBbox : Option BBox

structure AxisDecision where
  swap : Bool
  /-- Which rule or evidence decided, in words. -/
  reason : String
  /-- Evidence that contradicted the decision, in words. -/
  conflicts : List String

/-! ## Gathering evidence -/

def unionBbox : Option BBox → Option BBox → Option BBox
  | some a, some b =>
    some
      { minFirst := a.minFirst.min b.minFirst
        minSecond := a.minSecond.min b.minSecond
        maxFirst := a.maxFirst.max b.maxFirst
        maxSecond := a.maxSecond.max b.maxSecond }
  | a, none => a
  | none, b => b

namespace AxisEvidence

/-- `AxisEvidence::default`. -/
def empty : AxisEvidence := ⟨none, 0, [], none⟩

/-- The labels of both, each once, in first-seen order. -/
def mergeLabels (seen labels : List Text) : List Text :=
  labels.foldl (fun seen label => if label ∈ seen then seen else seen ++ [label]) seen

/-- Boxes are united, counts added, labels kept as a set. -/
def merge (a other : AxisEvidence) : AxisEvidence where
  sampledBbox := unionBbox a.sampledBbox other.sampledBbox
  samples := a.samples + other.samples
  axisLabels := mergeLabels a.axisLabels other.axisLabels
  envelopeBbox := unionBbox a.envelopeBbox other.envelopeBbox

end AxisEvidence

/-! ## Labels and ranges -/

/-- `char::to_lowercase` of the letters that the labels are made of.  Of the other
letters none becomes one of those. -/
def toLowercase (c : Char) : Char :=
  if c = 'Φ' then 'φ' else if c = 'Λ' then 'λ' else c.toLower

/-- The first label, in lower case. -/
def firstLabel (labels : Text) : Option String :=
  ((labels.splitOnP fun c => isWhitespace c || c == ',').find? (· ≠ [])).map fun label =>
    String.ofList (label.map toLowercase)

/-- Map `axisLabels` to a first-axis direction: the first label decides. -/
def firstAxisFromLabels (labels : Text) : Option FirstAxis :=
  (firstLabel labels).bind fun first =>
    if first ∈ ["lat", "latitude", "φ", "phi", "n", "north", "northing", "y"] then
      some .northOrLat
    else if first ∈ ["long", "lon", "lng", "longitude", "λ", "lambda", "e", "east", "easting",
        "x"] then
      some .eastOrLon
    else if first ∈ ["w", "west", "westing", "s", "south", "southing"] then some .other
    else none

def BBox.intersects (a b : BBox) : Bool :=
  decide (a.minFirst ≤ b.maxFirst) && decide (b.minFirst ≤ a.maxFirst) &&
    decide (a.minSecond ≤ b.maxSecond) && decide (b.minSecond ≤ a.maxSecond)

def BBox.swapped (b : BBox) : BBox := ⟨b.minSecond, b.minFirst, b.maxSecond, b.maxFirst⟩

/-- A tenth. -/
def slack : F64 := ⟨0x3fb999999999999a⟩

/-- In the range, with a little slack.  `hi < lo` is an area crossing the
antimeridian. -/
def inRange (lo hi v : F64) : Bool :=
  if lo ≤ hi then decide (lo - slack ≤ v) && decide (v ≤ hi + slack)
  else decide (lo - slack ≤ v) || decide (v ≤ hi + slack)

/-- `[a, b]` lies in `[lo, hi]`. -/
def within (a b lo hi : F64) : Bool := inRange lo hi a && inRange lo hi b

/-- Whether a range of the first axis and one of the second lie in an area. -/
def BBox.fits (area : BBox) (minFirst maxFirst minSecond maxSecond : F64) : Bool :=
  within minFirst maxFirst area.minFirst area.maxFirst &&
    within minSecond maxSecond area.minSecond area.maxSecond

/-! ## Deciding -/

def isYx : String := "so the file is y/x and the coordinates are swapped"
def isXy : String := "so the file is x/y"

/-- When nothing says which order the file has. -/
def assumedXy : String := "so the file is taken to be x/y"

def fileIs (swap : Bool) : String := if swap then isYx else isXy

/-- One piece of evidence's answer. -/
structure Vote where
  swap : Bool
  reason : String

/-- Everything one decision needs. -/
structure Decider where
  key : AxisKey
  srs : Option SrsName
  evidence : AxisEvidence
  context : AxisContext
  table : CrsTable

/-- A text in a message. -/
def shown (text : Text) : String := String.ofList text

section

variable (record : Nat → Option CrsInfo) (quoted : Text → String)

namespace Decider

variable (d : Decider)

/-- The facts about a CRS's horizontal component, with its authority and code. -/
def horizontalInfo (crs : CrsRef) : Option (Text × Text × Option CrsInfo) :=
  match crs.horizontal with
  | .code authority c => some (authority, c, d.table.get record authority c)
  | _ => none

/-- `x/y` or `y/x`, with the first axis named when the CRS is known. -/
def order (swap : Bool) : String :=
  let order := if swap then "y/x" else "x/y"
  let geographic := (d.srs.bind (·.crs)).bind fun crs =>
    if crs.isLonLatByDefinition then some true
    else (d.horizontalInfo record crs).bind fun (_, _, info) => info.map (·.geographic)
  match geographic, swap with
  | none, _ => order
  | some true, false => order ++ " (longitude first)"
  | some true, true => order ++ " (latitude first)"
  | some false, false => order ++ " (easting first)"
  | some false, true => order ++ " (northing first)"

/-- What the order of a known CRS's axes says. -/
def axesVote (authority c : Text) (info : CrsInfo) : Vote :=
  let (north, east) :=
    if info.geographic then ("latitude", "longitude") else ("northing", "easting")
  let name := shown authority ++ ":" ++ shown c
  match info.firstAxis with
  | .northOrLat => ⟨true, name ++ " puts " ++ north ++ " first, " ++ isYx⟩
  | .eastOrLon => ⟨false, name ++ " puts " ++ east ++ " first, " ++ isXy⟩
  | .other =>
    ⟨false, name ++ "'s axes aren't an easting and a northing (or longitude and latitude) in " ++
      "either order, which a swap can't fix, so the coordinates are left in the file's order"⟩

/-- The CRS's own axis order, or why it is unknown. -/
def authorityOrder : Except String Vote :=
  match d.srs with
  | none => .error "there is no srsName"
  | some srs =>
    match srs.crs with
    | none => .error ("the srsName " ++ quoted srs.raw ++ " isn't one xeibe knows")
    | some crs =>
      if crs.isLonLatByDefinition then
        .ok ⟨false, shown crs.authorityCode ++ " puts longitude first by definition, " ++ isXy⟩
      else
        match d.horizontalInfo record crs with
        | none => .error ("the srsName " ++ quoted srs.raw ++ " names no known horizontal CRS")
        | some (authority, c, none) =>
          .error (shown authority ++ ":" ++ shown c ++ " isn't in xeibe's CRS table")
        | some (authority, c, some info) => .ok (axesVote authority c info)

def followsCrs (form : String) : Except String Vote := do
  let vote ← d.authorityOrder record quoted
  pure ⟨vote.swap, "a " ++ form ++ " srsName follows its CRS, and " ++ vote.reason⟩

/-- A short or legacy form means the file is x/y. -/
def asWritten (form : String) (srs : SrsName) : Except String Vote :=
  .ok ⟨false, "a " ++ form ++ " srsName like " ++ quoted srs.raw ++ " means the file is " ++
    d.order record false ++ ", whatever axis order its CRS has"⟩

/-- GDAL's rule: short and legacy forms as written, URN and URI forms in authority
order. -/
def heuristic : Except String Vote :=
  match d.srs with
  | none => .error "there is no srsName"
  | some srs =>
    match srs.form with
    | .short => d.asWritten record quoted "short" srs
    | .legacyUrl => d.asWritten record quoted "legacy URL" srs
    | .unknown => .error ("the srsName " ++ quoted srs.raw ++ " isn't one xeibe knows")
    | .httpUri | .httpUriKvp | .compoundUri => d.followsCrs record quoted "URI"
    | _ => d.followsCrs record quoted "URN"

/-! ### Votes -/

/-- The labels that name one of the two directions, with it. -/
def directions : List (Text × FirstAxis) :=
  d.evidence.axisLabels.filterMap fun labels =>
    ((firstAxisFromLabels labels).filter (· ≠ .other)).map fun axis => (labels, axis)

/-- What the labels say, and what is to be reported where they disagree. -/
def labelsVote : Option Vote × List String :=
  match d.directions with
  | [] => (none, [])
  | (labels, first) :: rest =>
    if rest.any fun (_, axis) => axis ≠ first then
      (none, ["the geometries' axisLabels disagree: " ++
        String.intercalate ", " (d.evidence.axisLabels.map quoted)])
    else
      let swap := decide (first = .northOrLat)
      let which := if swap then "latitude or northing" else "longitude or easting"
      (some ⟨swap, "the geometry's axisLabels " ++ quoted labels ++ " put " ++ which ++
        " first, " ++ fileIs swap⟩, [])

/-- The one reading of the box that fits the area of use. -/
def fittingSwap (info : CrsInfo) (area bbox : BBox) : Option Bool :=
  let asWritten := area.fits bbox.minFirst bbox.maxFirst bbox.minSecond bbox.maxSecond
  let swapped := area.fits bbox.minSecond bbox.maxSecond bbox.minFirst bbox.maxFirst
  let northFirst := decide (info.firstAxis = .northOrLat)
  match asWritten, swapped with
  | true, false => some northFirst
  | false, true => some !northFirst
  | _, _ => none

/-- Decisive only if exactly one reading fits the CRS's area of use. -/
def rangeVote : Option Vote := do
  if d.evidence.samples = 0 then none
  let bbox ← d.evidence.sampledBbox
  let crs ← (← d.srs).crs
  if crs.isLonLatByDefinition then none
  let (authority, c, info) ← d.horizontalInfo record crs
  let info ← info
  let swap ← fittingSwap info (← info.areaOfUse) bbox
  pure ⟨swap, "the coordinates fall inside the area where " ++ shown authority ++ ":" ++ shown c ++
    " is used only if the file is " ++ d.order record swap ++
    (if swap then ", so they are swapped" else "")⟩

/-- The producers that write a short srsName in the CRS's axis order. -/
def quirkyProducer : Option String :=
  let producer := d.context.producer.getD []
  let wfs11 := d.context.wfsVersion.any fun v => startsWith v "1.1".toList
  if d.context.fmeProduced then some "FME"
  else if wfs11 && contains producer "mapserver.gis.umn.edu".toList then some "MapServer's WFS 1.1"
  else if wfs11 && contains (producer.map Char.toLower) "/wfsserver".toList then
    some "ArcGIS Server's WFS 1.1"
  else none

def quirkVote : Option Vote := do
  let srs ← d.srs
  if srs.form ≠ .short then none
  let producer ← d.quirkyProducer
  let vote ← (d.authorityOrder record quoted).toOption
  pure ⟨vote.swap, "the file comes from " ++ producer ++ ", which writes a short srsName like " ++
    quoted srs.raw ++ " in its CRS's axis order, and " ++ vote.reason⟩

/-- The answers of a WFS follow the CRS. -/
def authorityVote (what : String) : Option Vote := do
  let vote ← (d.authorityOrder record quoted).toOption
  pure ⟨vote.swap, what ++ " follow the CRS's axis order, and " ++ vote.reason⟩

/-- The form that a WFS 1.1 answers in: its own, or the one asked for where its own
says nothing. -/
def answeredForm : Option SrsNameForm :=
  match d.srs.map SrsName.form with
  | none | some .short | some .unknown => (d.context.requestedSrs.or d.srs).map SrsName.form
  | some form => some form

def wfsVote : Option Vote := do
  let version ← d.context.wfsVersion
  if startsWith version "1.0".toList then
    pure ⟨false, "WFS 1.0 responses are always x/y"⟩
  else if d.srs.map (·.form) = some .legacyUrl then
    pure ⟨false, "WFS 1.1 and 2.0 responses with a legacy URL srsName are x/y " ++
      "(GeoServer writes that form exactly when its coordinates are)"⟩
  else if startsWith version "1.1".toList then
    match ← d.answeredForm with
    | .short | .legacyUrl => pure ⟨false, "WFS 1.1 responses with a short srsName are x/y"⟩
    | .unknown => none
    | _ => d.authorityVote record quoted "WFS 1.1 responses with a URN srsName"
  else if startsWith version "2".toList then
    d.authorityVote record quoted "WFS 2.0 responses"
  else none

/-- GML 2 geometry is x/y. -/
def dialectVote : Option Vote :=
  if d.key.dialect = .gml2 then
    some ⟨false, "GML 2 geometry is always x/y (it predates CRS axis order)"⟩
  else none

/-- The fallback, which always answers. -/
def fallbackVote (alone : Bool) : Vote :=
  match d.heuristic record quoted, alone with
  | .ok vote, true =>
    ⟨vote.swap, "nothing in the file settles the order, so GDAL's rule applies: " ++ vote.reason⟩
  | .ok vote, false => ⟨vote.swap, "GDAL's rule: " ++ vote.reason⟩
  | .error why, true =>
    ⟨false, "nothing in the file settles the order, and " ++ why ++ ", " ++ assumedXy⟩
  | .error why, false => ⟨false, why ++ ", " ++ assumedXy⟩

/-- Supporting evidence only: envelopes that disagree with the decision. -/
def envelopeWarnings (swap : Bool) : List String :=
  match d.evidence.sampledBbox with
  | none => []
  | some sampled =>
    let otherOrder := d.evidence.envelopeBbox.any fun envelope =>
      !sampled.intersects envelope && sampled.swapped.intersects envelope
    let outside := d.context.requestedBbox.any fun requested =>
      let output := if swap then sampled.swapped else sampled
      let other := if swap then sampled else sampled.swapped
      !output.intersects requested && other.intersects requested
    (if otherOrder then
      ["the boundedBy envelope is written in the other axis order than the geometries"]
    else []) ++
      if outside then
        ["read this way, the geometries fall outside the requested BBOX, but inside it the other " ++
          "way"]
      else []

/-- The votes before the fallback, in the order of their weight. -/
def votes : List Vote :=
  (d.labelsVote quoted).1.toList ++ (d.rangeVote record).toList ++
    (d.quirkVote record quoted).toList ++ d.dialectVote.toList ++ (d.wfsVote record quoted).toList

def auto : AxisDecision :=
  let votes := d.votes record quoted
  let fallback := d.fallbackVote record quoted votes.isEmpty
  let chosen := votes.headD fallback
  { swap := chosen.swap
    reason := chosen.reason
    conflicts :=
      (d.labelsVote quoted).2 ++
        (((votes ++ [fallback]).tail.filter (·.swap ≠ chosen.swap)).map (·.reason)) ++
        d.envelopeWarnings chosen.swap }

def apply : AxisOrderMode → AxisDecision
  | .xy => ⟨false, "axis mode XY: the file is always taken to be x/y", []⟩
  | .yx =>
    ⟨true, "axis mode YX: the file is always taken to be y/x, and the coordinates are swapped", []⟩
  | .crs =>
    match d.authorityOrder record quoted with
    | .ok vote => ⟨vote.swap, "axis mode Crs follows the CRS: " ++ vote.reason, []⟩
    | .error why =>
      ⟨false, "axis mode Crs follows the CRS, but " ++ why ++ ", " ++ assumedXy, []⟩
  | .crsHeuristic =>
    match d.heuristic record quoted with
    | .ok vote => ⟨vote.swap, "axis mode CrsHeuristic (GDAL's rule): " ++ vote.reason, []⟩
    | .error why =>
      ⟨false, "axis mode CrsHeuristic (GDAL's rule), but " ++ why ++ ", " ++ assumedXy, []⟩
  | .gmlVersion gml2 gml3 =>
    let (name, decision) :=
      match d.key.dialect with
      | .gml2 => ("GML 2", apply gml2)
      | .gml3 => ("GML 3", apply gml3)
    { decision with
      reason := "axis mode GmlVersion, for " ++ name ++ " geometry: " ++ decision.reason }
  | .auto => d.auto record quoted

end Decider

/-- The override for an srsName as written.  Surrounding white space is ignored on
both sides, nothing else. -/
def overrideFor (overrides : List (Text × AxisOrderMode)) (srs : Text) : Option AxisOrderMode :=
  let srs := trim srs
  ((overrides.find? (·.1 == srs)).or (overrides.find? fun e => trim e.1 == srs)).map (·.2)

variable (epsgAlias : Text → Option UInt32)

/-- Decide the axis order for one key.  An override for the key's srsName wins over
the mode. -/
def decideAxis (key : AxisKey) (evidence : AxisEvidence) (context : AxisContext)
    (options : AxisOrderOptions) : AxisDecision :=
  let decider : Decider :=
    { key := key
      srs := key.srsName.map (SrsName.parse epsgAlias)
      evidence := evidence
      context := context
      table := options.crsTable.getD .builtin }
  let overridden := key.srsName.bind fun srs =>
    (overrideFor options.overrides srs).map fun mode => (srs, mode)
  match overridden with
  | some (srs, mode) =>
    let decision := decider.apply record quoted mode
    { decision with reason := "override for " ++ quoted srs ++ ", " ++ decision.reason }
  | none => decider.apply record quoted options.mode

end

end Xeibe.Geom

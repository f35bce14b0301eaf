import Xeibe.Lib.Text

/-!
# srsNames

Which CRS an srsName names and in which form it was written, and the
`authority:code` a CRS is written as.  EPSG's aliases are a parameter: the
code of the CRS that a name is an alias of.
-/

namespace Xeibe.Geom

open Xeibe.Lib.Text

/-- A name or a code. -/
abbrev Text := List Char

/-- How an srsName was written. -/
inductive SrsNameForm where
  | short
  | legacyUrl
  | ogcUrn
  | experimentalUrn
  | wfs11Urn
  | httpUri
  | httpUriKvp
  | compoundUrn
  | compoundUri
  | advUrn
  | unknown
deriving DecidableEq, Repr

/-- A CRS identified by authority and code. -/
inductive CrsRef where
  | code (authority code : Text)
  /-- Horizontal and vertical components, in order. -/
  | compound (parts : List CrsRef)
  /-- A compound CRS's part that names no CRS we know, as written. -/
  | unresolved (name : Text)
deriving Repr

namespace CrsRef

def epsg (c : Text) : CrsRef := .code "EPSG".toList c

mutual

/-- `EPSG:2180`, or PROJ's spelling of a compound CRS, `EPSG:4269+5713`. -/
def authorityCode : CrsRef → Text
  | .code authority c => authority ++ ':' :: c
  | .unresolved name => name
  | .compound parts => writeParts [] none parts

/-- The parts of a compound CRS after `out`, the authority left out where it is the
one written last. -/
def writeParts (out : Text) (previousAuthority : Option Text) : List CrsRef → Text
  | [] => out
  | part :: rest =>
    let out := if out.isEmpty then out else out ++ ['+']
    match part with
    | .code authority c =>
      if previousAuthority = some authority then
        writeParts (out ++ c) previousAuthority rest
      else
        writeParts (out ++ (authority ++ ':' :: c)) (some authority) rest
    | .compound parts => writeParts (out ++ writeParts [] none parts) previousAuthority rest
    | .unresolved name => writeParts (out ++ name) previousAuthority rest

end

/-- The codes of longitude and latitude by definition. -/
def lonLatCodes : List Text := ["CRS84".toList, "CRS83".toList, "CRS27".toList, "CRS84h".toList]

/-- The horizontal component: the CRS itself, or a compound's first part. -/
def horizontal : CrsRef → CrsRef
  | .compound [] => .compound []
  | .compound (part :: _) => part.horizontal
  | crs => crs

/-- Longitude and latitude regardless of authority rules; of a compound CRS the
first component decides. -/
def isLonLatByDefinition : CrsRef → Bool
  | .code authority c =>
    eqIgnoreAsciiCase authority "OGC".toList && lonLatCodes.any (eqIgnoreAsciiCase c)
  | .compound [] => false
  | .compound (part :: _) => part.isLonLatByDefinition
  | .unresolved _ => false

def isUnresolved : CrsRef → Bool
  | .unresolved _ => true
  | _ => false

end CrsRef

/-- A parsed srsName, keeping the original text. -/
structure SrsName where
  raw : Text
  form : SrsNameForm
  crs : Option CrsRef

/-! ## Codes and names -/

/-- An EPSG code is a positive integer; leading zeros are dropped. -/
def epsgCode (code : Text) : Option Text := (parseDigits 64 (trim code)).map decimal

def codeRef (authority code : Text) : Option CrsRef :=
  let authority := toAsciiUppercase (trim authority)
  let code := trim code
  if authority.isEmpty || code.isEmpty then none
  else if authority = "EPSG".toList then (epsgCode code).map .epsg
  else some (.code authority code)

/-- The part of an OGC URN after `crs:`: `AUTH:[VERSION]:CODE` or `AUTH:CODE`. -/
def ogcUrnCode (rest : Text) : Option CrsRef :=
  (Lib.Text.splitOnce ':' rest).bind fun (authority, tail) => codeRef authority (lastPiece ':' tail)

/-- Names seen in real data that EPSG's aliases lack, or spell otherwise. -/
def names : List (Text × Text × Text) :=
  [("ETRS89_UTM31", "EPSG", "25831"), ("ETRS89_UTM32", "EPSG", "25832"),
    ("ETRS89_UTM33", "EPSG", "25833"), ("ETRS89_Lat-Lon", "EPSG", "4258"),
    ("DE_DHDN_3GK2", "EPSG", "31466"), ("DE_DHDN_3GK3", "EPSG", "31467"),
    ("DE_DHDN_3GK4", "EPSG", "31468"), ("DE_DHDN_3GK5", "EPSG", "31469"),
    ("DE_DHHN92_NH", "EPSG", "5783"), ("DE_DHHN2016_NH", "EPSG", "7837"),
    ("PL-KRON86-NH", "EPSG", "9650"), ("osgb:BNG", "EPSG", "27700"), ("CRS:84", "OGC", "CRS84"),
    ("OGC:CRS84", "OGC", "CRS84"), ("CRS:83", "OGC", "CRS83"), ("CRS:27", "OGC", "CRS27")].map
    fun (name, authority, code) => (name.toList, authority.toList, code.toList)

/-- The CRS of these parts: one part is itself, several a compound.  Without a part
that names a known CRS there is none. -/
def compound (parts : List CrsRef) : Option CrsRef :=
  if parts.all CrsRef.isUnresolved then none
  else
    match parts with
    | [single] => some single
    | _ => some (.compound parts)

/-- All of them, where all are there. -/
def collect {α : Type} : List (Option α) → Option (List α)
  | [] => some []
  | none :: _ => none
  | some a :: rest => (collect rest).map (a :: ·)

section

variable (epsgAlias : Text → Option UInt32)

/-- A CRS given by name: ours first, then EPSG's aliases.  Case is ignored. -/
def named (name : Text) : Option CrsRef :=
  let name := trim name
  match names.find? fun known => eqIgnoreAsciiCase known.1 name with
  | some (_, authority, code) => some (.code authority code)
  | none => (epsgAlias name).map fun code => .epsg (decimal code.toNat)

/-! ## Forms -/

section

-- How a part of a compound CRS is read.
variable (part : Text → Option CrsRef)

/-- `2180`, or PROJ's compound spelling `25832+7837`. -/
def epsgCodes (codes : Text) : Option CrsRef :=
  match (codes.splitOn '+').map trim with
  | [] => none
  | first :: rest =>
    (epsgCode first).bind fun first =>
      (collect (rest.map fun code => ((epsgCode code).map CrsRef.epsg).or (part code))).bind
        fun rest => compound (.epsg first :: rest)

/-- A pair of a query of compound parts. -/
def queryPart (pair : Text) : Option (Nat × CrsRef) := do
  let (key, value) ← Lib.Text.splitOnce '=' pair
  let key ← parseUnsigned 32 (trim key)
  let crs ← part value
  pure (key, crs)

/-- `1=<uri>&2=<uri>`, in key order. -/
def queryParts (query : Text) : Option (List CrsRef) :=
  (collect ((query.splitOn '&').map (queryPart part))).map fun parts =>
    (parts.mergeSort fun a b => a.1 ≤ b.1).map (·.2)

/-- The authority and the code of a query, so far. -/
def queryCode : List Text → Option Text → Option Text → Option (Option Text × Option Text)
  | [], authority, code => some (authority, code)
  | pair :: rest, authority, code => do
    let (key, value) ← Lib.Text.splitOnce '=' pair
    if eqIgnoreAsciiCase key "authority".toList then queryCode rest (some value) code
    else if eqIgnoreAsciiCase key "code".toList then queryCode rest authority (some value)
    else queryCode rest authority code

/-- GeoServer's legacy URLs for CRS84, by the code after the `#`. -/
def legacyCode (code : Text) : Option CrsRef :=
  let code := if startsWith code "CRS".toList then code.drop 3 else code
  (["84".toList, "83".toList, "27".toList].find? (· == code)).map fun code =>
    .code "OGC".toList ("CRS".toList ++ code)

/-- A text without the characters of a kind at its end. -/
def trimEnd (p : Char → Bool) (s : Text) : Text := (s.reverse.dropWhile p).reverse

/-- `www.opengis.net/…` after `http://` or `https://`. -/
def parseHttp (rest : Text) : Option (SrsNameForm × Option CrsRef) := do
  let rest ← stripPrefixCi rest "www.opengis.net/".toList
  match stripPrefixCi rest "gml/srs/epsg.xml#".toList with
  | some code => pure (.legacyUrl, some (.epsg (← epsgCode code)))
  | none =>
  match (stripPrefixCi rest "gml/srs/crs.xml#".toList).or
      (stripPrefixCi rest "gml/srs/ogc.xml#".toList) with
  | some code => pure (.legacyUrl, some (← legacyCode code))
  | none =>
  match stripPrefixCi rest "def/crs-compound?".toList with
  | some query => pure (.compoundUri, compound (← queryParts part query))
  | none =>
  match stripPrefixCi rest "def/crs?".toList with
  | some query =>
    let (authority, code) ← queryCode (query.splitOn '&') none none
    pure (.httpUriKvp, some (← codeRef (← authority) (← code)))
  | none =>
  match stripPrefixCi rest "def/crs/".toList with
  | some path =>
    -- `AUTH/VERSION/CODE`, maybe with a trailing slash.
    match (trimEnd (· == '/') path).splitOn '/' with
    | [authority, _, code] => pure (.httpUri, some (← codeRef authority code))
    | _ => none
  | none => none

/-- A part of a compound URN, with or without `crs:` in front. -/
def urnPart (text : Text) : Option CrsRef :=
  part ((stripPrefixCi (trim text) "crs:".toList).getD (trim text))

/-- The short forms: a bare code, a name, `EPSG:2180`. -/
def parseShort (s : Text) : Option (SrsNameForm × Option CrsRef) :=
  if s.all Char.isDigit then (epsgCode s).map fun code => (.short, some (.epsg code))
  else
    match named epsgAlias s with
    | some crs => some (.short, some crs)
    | none => do
      let (authority, code) ← Lib.Text.splitOnce ':' s
      -- `EPSG::2180` is tolerated.
      let code := code.dropWhile (· == ':')
      if eqIgnoreAsciiCase authority "EPSG".toList then
        pure (.short, some (← epsgCodes part code))
      else none

/-- `parse_form`. -/
def parseFormWith (s : Text) : Option (SrsNameForm × Option CrsRef) :=
  if s.isEmpty then none
  else
    match stripPrefixCi s "urn:ogc:def:crs,".toList with
    | some rest => do
      pure (.compoundUrn, compound (← collect ((rest.splitOn ',').map (urnPart part))))
    | none =>
    match stripPrefixCi s "urn:ogc:def:crs:".toList with
    | some rest => do pure (.ogcUrn, some (← ogcUrnCode rest))
    | none =>
    match stripPrefixCi s "urn:x-ogc:def:crs:".toList with
    | some rest => do pure (.experimentalUrn, some (← ogcUrnCode rest))
    | none =>
    match stripPrefixCi s "urn:adv:crs:".toList with
    -- A `*` joins a horizontal and a vertical CRS.
    | some rest => do pure (.advUrn, compound (← collect ((rest.splitOn '*').map part)))
    | none =>
    match stripPrefixCi s "urn:epsg:".toList with
    | some rest => do pure (.wfs11Urn, some (.epsg (← epsgCode (lastPiece ':' rest))))
    | none =>
    match (stripPrefixCi s "http://".toList).or (stripPrefixCi s "https://".toList) with
    | some rest => parseHttp part rest
    | none => parseShort epsgAlias part s

end

/-- One part of a compound CRS: an srsName of its own, `AUTH:[VERSION]:CODE` or a
name, else unresolved.  An empty part is malformed. -/
def partWith (form : Text → Option (SrsNameForm × Option CrsRef)) (text : Text) : Option CrsRef :=
  let text := trim text
  if text.isEmpty then none
  else some ((((form text).bind (·.2)).or (ogcUrnCode text)).getD (.unresolved text))

/-- `parse_form` as deep as `fuel`; a part is shorter than the whole. -/
def parseFormAt : Nat → Text → Option (SrsNameForm × Option CrsRef)
  | 0, _ => none
  | fuel + 1, s => parseFormWith epsgAlias (partWith (parseFormAt fuel)) s

def parseForm (s : Text) : Option (SrsNameForm × Option CrsRef) :=
  parseFormAt epsgAlias (s.length + 1) s

def part (text : Text) : Option CrsRef := partWith (parseForm epsgAlias) text

/-- Recognise the form and the CRS of an srsName. -/
def SrsName.parse (raw : Text) : SrsName :=
  match parseForm epsgAlias (trim raw) with
  | some (form, some crs) => ⟨raw, form, some crs⟩
  | _ => ⟨raw, .unknown, none⟩

end

end Xeibe.Geom

import Xeibe.Arrow.Value
import Xeibe.Core.Decode
import Xeibe.Core.Reader.Events
import Xeibe.Schema.Scan
import Xeibe.Wfs.Model

/-!
# Inspecting a page

`xeibe-wfs/src/response.rs`: the root's attributes give the counts and links,
and the members are walked without parsing the features in them.  A page that
breaks off is not complete rather than an error; whether an error in the walk is
a break is read off the last tag of the page (`endsWithEndTag`).

The two walks call each other; every call and every turn reads an event, so
`fuel` above the number of events never runs out.  What `xml::parse` makes of an
exception report is a parameter: it is not asked for any other document.
Locations are left out, and counters do not wrap.
-/

namespace Xeibe.Wfs.Inspect

open Schema (trim)
open Arrow (parseU64)

structure ResponseInfo where
  /-- `numberMatched` (2.0); `none` for "unknown". -/
  numberMatched : Option Nat
  /-- `numberReturned` (2.0) or `numberOfFeatures` (1.1). -/
  numberReturned : Option Nat
  next : Option Bytes
  previous : Option Bytes
  timeStamp : Option Bytes
  /-- Inner collections (multi-query responses). -/
  nestedCollections : Nat
  /-- Members with an `xlink:href`. -/
  referencedMembers : Nat
  truncated : Bool
  /-- The closing collection element is there. -/
  complete : Bool
  /-- Features counted in the members, nested collections included. -/
  features : Nat
  /-- The id of each counted feature that has one, in document order. -/
  featureIds : List Bytes
  deriving DecidableEq, Repr

namespace ResponseInfo

def default : ResponseInfo :=
  ⟨none, none, none, none, none, 0, 0, false, false, 0, []⟩

/-- Features in this response: the server's count, else the counted members. -/
def returned (info : ResponseInfo) : Nat := info.numberReturned.getD info.features

/-- The response as the pager sees it. -/
def paged (text : Bytes → String) (info : ResponseInfo) : Wfs.ResponseInfo where
  numberMatched := info.numberMatched
  numberReturned := info.numberReturned
  next := info.next.map text
  truncated := info.truncated
  complete := info.complete
  features := info.features
  featureIds := info.featureIds.map text

/-- An attribute of the root. -/
def readAttribute (info : ResponseInfo) (attr : QName × Bytes) : ResponseInfo :=
  let value := trim attr.2
  if attr.1.ns.isSome then info
  else if attr.1.localName = utf8 "numberMatched" then
    { info with numberMatched := parseU64 value }
  else if attr.1.localName = utf8 "numberReturned" ∨
      attr.1.localName = utf8 "numberOfFeatures" then
    { info with numberReturned := parseU64 value }
  else if attr.1.localName = utf8 "next" ∧ !value.isEmpty then { info with next := some value }
  else if attr.1.localName = utf8 "previous" ∧ !value.isEmpty then
    { info with previous := some value }
  else if attr.1.localName = utf8 "timeStamp" then { info with timeStamp := some value }
  else info

/-- A member that references its feature. -/
def noteMember (info : ResponseInfo) (attrs : List (QName × Bytes)) : ResponseInfo :=
  if attrs.any fun attr => attr.1 == ⟨some ns.XLINK, utf8 "href"⟩ then
    { info with referencedMembers := info.referencedMembers + 1 }
  else info

/-- A feature, with its id if it has one. -/
def countFeature (info : ResponseInfo) (id : Option Bytes) : ResponseInfo :=
  { info with features := info.features + 1, featureIds := info.featureIds ++ id.toList }

end ResponseInfo

inductive Response where
  | features (info : ResponseInfo)
  | exception (report : ExceptionReport)

inductive InspectError where
  | decode (error : DecodeError)
  | reader (error : ReadError)
  /-- An empty WFS response. -/
  | noFeatures
  deriving DecidableEq, Repr

/-! ## Names -/

def isWfs (name : QName) : Bool := name.ns == some ns.WFS || name.ns == some ns.WFS_20

/-- `wfs:FeatureCollection` (1.x, 2.0) or `gml:FeatureCollection`. -/
def isCollection (name : QName) : Bool :=
  name.localName == utf8 "FeatureCollection" && (isWfs name || name.isGml)

/-- `wfs:member` (2.0), `gml:featureMember` or `gml:featureMembers` (1.x). -/
def isMember (name : QName) : Bool :=
  (isWfs name && name.localName == utf8 "member") || name.isGmlNamed (utf8 "featureMember") ||
    name.isGmlNamed (utf8 "featureMembers")

/-- An attribute that is a feature's id: `gml:id`, or `fid` of GML 2. -/
def isId (name : QName) : Bool :=
  (name.isGml && name.localName == utf8 "id") || (name.ns.isNone && name.localName == utf8 "fid")

/-- The id among the attributes of a feature. -/
def featureId (attrs : List (QName × Bytes)) : Option Bytes :=
  (attrs.find? fun attr => isId attr.1).map Prod.snd

/-! ## The walk -/

mutual

/-- The children of a collection, up to and including its end tag. -/
@[grind =]
def walkCollection (q : QuickXml) :
    Nat → EventReader → ResponseInfo → ResponseInfo × Except ReadError EventReader
  | 0, _, info => (info, .error .unexpectedEnd)
  | fuel + 1, reader, info =>
    match reader.nextEvent q with
    | .error e => (info, .error e)
    | .ok (.element (.start name attrs), reader) =>
      if isWfs name && name.localName == utf8 "truncatedResponse" then
        let info := { info with truncated := true }
        match reader.skipElement with
        | .error e => (info, .error e)
        | .ok reader => walkCollection q fuel reader info
      else if isMember name then
        match walkMember q fuel reader (info.noteMember attrs) with
        | (info, .error e) => (info, .error e)
        | (info, .ok reader) => walkCollection q fuel reader info
      else
        -- `boundedBy`, `additionalObjects` and others.
        match reader.skipElement with
        | .error e => (info, .error e)
        | .ok reader => walkCollection q fuel reader info
    | .ok (.element (.endTag _), reader) => (info, .ok reader)
    | .ok (.text, reader) => walkCollection q fuel reader info
    | .ok (.eof, _) => (info, .error .unexpectedEnd)

/-- The content of a member element: features, or nested collections. -/
@[grind =]
def walkMember (q : QuickXml) :
    Nat → EventReader → ResponseInfo → ResponseInfo × Except ReadError EventReader
  | 0, _, info => (info, .error .unexpectedEnd)
  | fuel + 1, reader, info =>
    match reader.nextEvent q with
    | .error e => (info, .error e)
    | .ok (.element (.start name attrs), reader) =>
      if isCollection name then
        let info := { info with nestedCollections := info.nestedCollections + 1 }
        match walkCollection q fuel reader info with
        | (info, .error e) => (info, .error e)
        | (info, .ok reader) => walkMember q fuel reader info
      else
        let info := info.countFeature (featureId attrs)
        match reader.skipElement with
        | .error e => (info, .error e)
        | .ok reader => walkMember q fuel reader info
    | .ok (.element (.endTag _), reader) => (info, .ok reader)
    | .ok (.text, reader) => walkMember q fuel reader info
    | .ok (.eof, _) => (info, .error .unexpectedEnd)

end

/-- `true` if the last tag of the page closes an element named `localName` (any
prefix): the document ends, so an error in it is not a cut-off. -/
def endsWithEndTag (page localName : Bytes) : Bool :=
  let page := trimAsciiEnd page
  -- The last `</`, found from the end.
  match Lib.indexOf (utf8 "/<") page.reverse with
  | none => false
  | some i =>
    match page.reverse.take i with
    | 0x3e :: tag =>
      let tag := trimAsciiEnd tag.reverse
      (tag.splitOn 0x3a).getLast?.getD tag == localName
    | _ => false

/-! ## The page -/

/-- The code outside: the decoders, quick-xml, and what `xml::parse` makes of an
exception report. -/
structure Outside where
  decoders : Decoders
  quickXml : QuickXml
  report : Bytes → Option ExceptionReport

namespace Outside

variable (outside : Outside)

/-- The document as UTF-8: decompressed and transcoded when needed. -/
def utf8 (bytes : Bytes) : Except DecodeError Bytes :=
  if detectCompression bytes = .none ∧ detectEncoding outside.decoders.forLabel bytes = .utf8 ∧
      !utf8Mark.isPrefixOf bytes then .ok bytes
  else outside.decoders.decodedReader bytes

/-- The namespace and local name of the root, from the events up to it. -/
def rootNameOf : List Event → Option (Option Bytes × Bytes)
  | [] => none
  | .tag (.start tag) :: _ =>
    (Resolver.default.push tag.written).map fun resolver =>
      (match resolver.resolve tag.name.bytes true with
        | .bound uri => some uri
        | .unbound | .unknown _ => none, (splitName tag.name.bytes).2)
  | .tag .endTag :: _ => none
  -- Only markup may come before the root.
  | .text bytes :: events => if (trimAscii bytes).isEmpty then rootNameOf events else none
  | .cdata _ :: events => rootNameOf events
  | .reference _ :: events => rootNameOf events
  | .docType :: events => rootNameOf events
  | .other :: events => rootNameOf events

def isReport (localName : Bytes) : Bool :=
  localName == Xeibe.utf8 "ExceptionReport" || localName == Xeibe.utf8 "ServiceExceptionReport"

/-- `ExceptionReport::parse`: `none` unless the root is an exception report. -/
def exceptionReport (bytes : Bytes) : Option ExceptionReport := do
  let xml ← (outside.utf8 bytes).toOption
  let (_, root) ← rootNameOf (outside.quickXml.events xml).1
  if isReport root then outside.report xml else none

/-- The root, with its attributes. -/
def readRoot : Nat → EventReader →
    Except InspectError ((QName × List (QName × Bytes)) × EventReader)
  | 0, _ => .error .noFeatures
  | fuel + 1, reader =>
    match reader.nextEvent outside.quickXml with
    | .error e => .error (.reader e)
    | .ok (.element (.start name attrs), reader) => .ok ((name, attrs), reader)
    | .ok (.eof, _) => .error .noFeatures
    | .ok (.element (.endTag _), reader) => readRoot fuel reader
    | .ok (.text, reader) => readRoot fuel reader

/-- What follows the root's start tag. -/
def walkRoot (root : QName) (reader : EventReader) (info : ResponseInfo) :
    ResponseInfo × Except ReadError EventReader :=
  if isCollection root then walkCollection outside.quickXml (reader.events.length + 1) reader info
  -- A bare feature as the document (`GetFeatureById`).
  else ({ info with features := 1 }, reader.skipElement)

/-- Inspect a fetched page (start and end of the document). -/
def inspect (bytes : Bytes) : Except InspectError Response :=
  match outside.exceptionReport bytes with
  | some report => .ok (.exception report)
  | none => do
    let page ← (outside.utf8 bytes).mapError .decode
    let reader := EventReader.new outside.quickXml page
    let ((root, attrs), reader) ← outside.readRoot (reader.events.length + 1) reader
    let info := attrs.foldl ResponseInfo.readAttribute .default
    match outside.walkRoot root reader info with
    | (info, .ok _) => .ok (.features { info with complete := true })
    | (info, .error error) =>
      if endsWithEndTag page root.localName then .error (.reader error)
      else .ok (.features { info with complete := false })

end Outside

end Xeibe.Wfs.Inspect

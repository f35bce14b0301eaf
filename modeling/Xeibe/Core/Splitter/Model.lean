import Mathlib.Algebra.Ring.Nat
import Xeibe.Core.Names
import Xeibe.Lib.Search

/-!
# The feature splitter

`xeibe-core/src/splitter.rs`, function by function.  The splitter is a byte
scanner over a window of the input: `buf` holds the bytes read and not yet
dropped, `buf[pos..]` is unread, and `buf[0]` is at stream offset `base`.
`fill` reads more, after `compact` has dropped what is no longer needed.

The reader is the script of what its `read` calls return, in order; at the
end of the script `read` returns `Ok(0)`.  `memchr` and `memmem` are `indexOf`.

Left out: the scratch buffers `tag` and `block`, and the capacity hints.
They are allocations that are reused, and no result depends on them.

`quick_xml::escape::unescape` is not part of the repository.  It is the
parameter `quickXml` (`none` where it fails), and nothing is assumed of it.
-/

namespace Xeibe

open Lib (indexOf)

/-! ## Options -/

/-- Which elements wrap features. -/
inductive MemberRule where
  | onePerElement (name : QName)
  | manyPerElement (name : QName)
  deriving DecidableEq, Repr

namespace MemberRule

def element : MemberRule → QName
  | onePerElement name | manyPerElement name => name

def builtin : List MemberRule :=
  [ onePerElement ⟨some ns.GML_32, utf8 "featureMember"⟩,
    onePerElement ⟨some ns.GML, utf8 "featureMember"⟩,
    manyPerElement ⟨some ns.GML_32, utf8 "featureMembers"⟩,
    manyPerElement ⟨some ns.GML, utf8 "featureMembers"⟩,
    onePerElement ⟨some ns.WFS_20, utf8 "member"⟩ ]

end MemberRule

structure SplitterOptions where
  /-- Chunks are cut at the next feature boundary. -/
  targetChunkBytes : Nat
  memberRules : List MemberRule
  /-- Treat a document whose root is a feature as a single-feature dataset. -/
  allowSingleFeatureRoot : Bool
  /-- Only these feature types enter chunks. -/
  layers : Option (List QName)
  deriving Repr

/-- 2 MB chunks, the built-in member rules, no single-feature root, every
layer. -/
def SplitterOptions.default : SplitterOptions where
  targetChunkBytes := 2 <<< 20
  memberRules := MemberRule.builtin
  allowSingleFeatureRoot := false
  layers := none

/-- The layer filter: exact names, or local names for entries without a
namespace. -/
def layerWanted (layers : List QName) (name : QName) : Bool :=
  layers.any fun layer =>
    layer == name || (layer.ns.isNone && layer.localName == name.localName)

/-- Whether the layer filter keeps a feature. -/
def wantedIn (options : SplitterOptions) (name : QName) : Bool :=
  match options.layers with
  | some layers => layerWanted layers name
  | none => true

/-! ## Results -/

/-- A position in the input. -/
structure Location where
  source : Nat
  byteOffset : Nat
  featureSeq : Option Nat
  gmlId : Option Bytes
  deriving DecidableEq, Repr

/-- A piece of an error message: fixed text, an interpolated `str`, or bytes
shown with `String::from_utf8_lossy`. -/
inductive Piece where
  | text (s : String)
  | str (s : Bytes)
  | lossy (bytes : Bytes)
  deriving DecidableEq, Repr

abbrev Message := List Piece

/-- The errors the splitter raises.  `noFeatures` holds the source id that
the source's text shows. -/
inductive Error where
  | io (error : String)
  | xml (location : Location) (message : Message)
  | dtdNotSupported (location : Location)
  | noFeatures (source : Nat)
  deriving DecidableEq, Repr

/-- A shared value.  `id` is the allocation: `Arc::ptr_eq` compares it. -/
structure Arc (α : Type) where
  id : Nat
  val : α
  deriving DecidableEq, Repr

def Arc.ptrEq {α : Type} (a b : Arc α) : Bool := a.id == b.id

/-- Information about the document root. -/
structure DocumentHeader where
  root : QName
  namespaces : NamespaceContext
  schemaLocation : Option Bytes
  wfsAttributes : List (QName × Bytes)
  fmeProduced : Bool
  deriving DecidableEq, Repr

/-- Unprefixed root attributes kept in `DocumentHeader.wfsAttributes`. -/
def WFS_ATTRIBUTES : List Bytes :=
  [ utf8 "numberMatched", utf8 "numberReturned", utf8 "numberOfFeatures", utf8 "next",
    utf8 "previous", utf8 "timeStamp" ]

/-- Where a feature of a chunk starts. -/
structure FeatureOffset where
  inChunk : Nat
  inStream : Nat
  deriving DecidableEq, Repr

/-- One element as written. -/
structure RawElement where
  source : Nat
  byteOffset : Nat
  bytes : Bytes
  namespaces : Arc NamespaceContext
  deriving DecidableEq, Repr

/-- A self-contained run of whole features. -/
structure FeatureChunk where
  source : Nat
  seq : Nat
  byteOffset : Nat
  bytes : Bytes
  namespaces : Arc NamespaceContext
  firstFeatureSeq : Nat
  features : Nat
  featureOffsets : List FeatureOffset
  collectionBoundedBy : Option (Arc RawElement)
  deriving DecidableEq, Repr

/-! ## State -/

/-- What one call of the reader's `read` returns. -/
inductive Read where
  | bytes (block : Bytes)
  | interrupted
  | failed (error : String)
  deriving DecidableEq, Repr

inductive Mode where
  /-- Before the root element. -/
  | prolog
  /-- Inside the root, outside any feature. -/
  | outside
  /-- Inside a feature that started at stream offset `start`, or inside a
  collection's `boundedBy`.  `depth` counts the open elements named like it,
  itself included. -/
  | feature (depth : Nat) (emit : Bool) (start : Nat) (boundedBy : Bool)
  /-- After the root element. -/
  | epilog
  deriving DecidableEq, Repr

/-- An open element outside features. -/
structure Frame where
  /-- The name as written, to check the end tag. -/
  rawName : Bytes
  /-- Children of this element are features. -/
  members : Bool
  /-- For member elements: a child element was seen. -/
  hasChild : Bool
  /-- Length of `bindings` before this element's declarations. -/
  bindingsBefore : Nat
  /-- The element's `boundedBy`, for the features inside it. -/
  boundedBy : Option (Arc RawElement)
  deriving DecidableEq, Repr

inductive Kind where
  | start (nameEnd : Nat) (empty : Bool)
  | endTag
  /-- Comment, CDATA, processing instruction or XML declaration. -/
  | other
  deriving DecidableEq, Repr

/-- One piece of markup; indices into `buf`, valid until the next read. -/
structure Markup where
  kind : Kind
  start : Nat
  /-- Just after the closing `>` (`end` in the source). -/
  stop : Nat
  deriving DecidableEq, Repr

/-- `FeatureSplitter`.  `stack` has the innermost element first, `bindings`
the innermost declaration last; `allocated` counts the `Arc`s made so far. -/
structure Splitter where
  reader : List Read
  source : Nat
  options : SplitterOptions
  header : Option DocumentHeader
  nextSeq : Nat
  buf : Bytes
  pos : Nat
  base : Nat
  eof : Bool
  mode : Mode
  stack : List Frame
  bindings : List (Option Bytes × Bytes)
  bindingsGeneration : Nat
  context : Arc NamespaceContext
  contextGeneration : Nat
  sawContainer : Bool
  rootCandidate : Option Nat
  rootFeature : Bool
  referencedMembers : Nat
  chunk : Bytes
  chunkContext : Arc NamespaceContext
  chunkOffset : Nat
  chunkFirstFeature : Nat
  chunkFeatures : List FeatureOffset
  chunkBoundedBy : Option (Arc RawElement)
  featuresEmitted : Nat
  ready : List FeatureChunk
  finished : Bool
  featureName : Bytes
  names : List (Bytes × Option QName)
  namesGeneration : Nat
  allocated : Nat

/-! ## Names and attributes -/

/-- The `boundedBy` of a collection: GML's, or WFS's own. -/
def isBoundedBy (name : QName) : Bool :=
  name.localName == utf8 "boundedBy" &&
    (name.ns == some ns.GML || name.ns == some ns.GML_32 || name.ns == some ns.WFS ||
      name.ns == some ns.WFS_20)

/-- Collection elements, which are containers even inside a member. -/
def isCollection (name : QName) : Bool :=
  if name.ns == some ns.GML || name.ns == some ns.GML_32 then
    name.localName == utf8 "FeatureCollection"
  else if name.ns == some ns.WFS || name.ns == some ns.WFS_20 then
    name.localName == utf8 "FeatureCollection" ||
      name.localName == utf8 "SimpleFeatureCollection" ||
      name.localName == utf8 "additionalObjects"
  else false

/-- The attribute loop of `parse_attributes`.  Each turn reads one
`key="value"`; `fuel` bounds the turns and the length of the text suffices,
since a turn takes at least the `=`. -/
def parseAttributesLoop : Nat → Bytes → Except Message (List (Bytes × Bytes))
  | 0, _ => .ok []
  | fuel + 1, text =>
    let text := text.dropWhile isAsciiWhitespace
    if text.isEmpty then .ok []
    else
      let isKey := fun b : UInt8 => b != 0x3d && !isAsciiWhitespace b
      let key := text.takeWhile isKey
      match (text.dropWhile isKey).dropWhile isAsciiWhitespace with
      | 0x3d :: text =>
        match text.dropWhile isAsciiWhitespace with
        | [] => .error [.text "attribute `", .str key, .text "` has an unquoted value"]
        | quote :: text =>
          if quote = 0x22 ∨ quote = 0x27 then
            let value := text.takeWhile (· != quote)
            match text.dropWhile (· != quote) with
            | [] => .error [.text "attribute `", .str key, .text "` has an unterminated value"]
            | _ :: text => (parseAttributesLoop fuel text).map ((key, value) :: ·)
          else .error [.text "attribute `", .str key, .text "` has an unquoted value"]
      | _ => .error [.text "attribute `", .str key, .text "` has no value"]

/-- `name="value"` pairs of a start tag, after the element name.  Values are
returned as written. -/
def parseAttributes (text : Bytes) : Except Message (List (Bytes × Bytes)) :=
  parseAttributesLoop (text.length + 1) text

/-- Expand entity and character references in an attribute value; an invalid
reference leaves the value as written. -/
def unescape (quickXml : Bytes → Option Bytes) (value : Bytes) : Bytes :=
  (quickXml value).getD value

/-- The declaration an attribute makes, if it is `xmlns` or `xmlns:…`. -/
def declaration (quickXml : Bytes → Option Bytes) (attr : Bytes × Bytes) :
    Option (Option Bytes × Bytes) :=
  if attr.1 = utf8 "xmlns" then some (none, unescape quickXml attr.2)
  else (stripPrefix (utf8 "xmlns:") attr.1).map fun pre => (some pre, unescape quickXml attr.2)

/-- `resolve` on the declarations of the open elements, innermost last. -/
def resolveIn (bindings : List (Option Bytes × Bytes)) (raw : Bytes) (element : Bool) :
    Option QName :=
  let (pre, localName) := match splitOnce 0x3a raw with
    | some (pre, localName) => (some pre, localName)
    | none => (none, raw)
  if pre = some (utf8 "xml") then some ⟨some ns.XML, localName⟩
  else if pre.isNone && !element then some ⟨none, localName⟩
  else
    let unbound := if pre.isNone then some ⟨none, localName⟩ else none
    match bindings.reverse.find? (fun binding => binding.1 = pre) with
    -- `xmlns=""` undeclares the default namespace; `xmlns:p=""` is invalid.
    | some (_, uri) => if uri.isEmpty then unbound else some ⟨some uri, localName⟩
    | none => unbound

namespace Splitter

def new (reader : List Read) (source : Nat) (options : SplitterOptions) : Splitter :=
  let context : Arc NamespaceContext := ⟨0, NamespaceContext.new⟩
  { reader, source, options, header := none, nextSeq := 0, buf := [], pos := 0, base := 0,
    eof := false, mode := .prolog, stack := [], bindings := [], bindingsGeneration := 0,
    context, contextGeneration := 0, sawContainer := false, rootCandidate := none,
    rootFeature := false, referencedMembers := 0, chunk := [], chunkContext := context,
    chunkOffset := 0, chunkFirstFeature := 0, chunkFeatures := [], chunkBoundedBy := none,
    featuresEmitted := 0, ready := [], finished := false, featureName := [], names := [],
    namesGeneration := 0, allocated := 1 }

/-! ## Byte scanning -/

/-- `self.pos = pos`. -/
def moveTo (s : Splitter) (pos : Nat) : Splitter := { s with pos }

def location (s : Splitter) (index : Nat) : Location :=
  { source := s.source, byteOffset := s.base + index, featureSeq := none, gmlId := none }

def error (s : Splitter) (index : Nat) (message : Message) : Error :=
  .xml (s.location index) message

/-- How many bytes of the window are no longer needed: the consumed ones, but
not the feature being copied nor a root that may still be a single feature. -/
def consumed (s : Splitter) : Nat :=
  let keep := match s.mode with
    | .feature _ true start _ => min s.pos (start - s.base)
    | _ => s.pos
  match s.rootCandidate with
  | some start => min keep (start - s.base)
  | none => keep

/-- Drop consumed bytes. -/
def compact (s : Splitter) : Splitter :=
  let keep := s.consumed
  if keep = 0 then s
  else { s with buf := s.buf.drop keep, pos := s.pos - keep, base := s.base + keep }

/-- Call `read` until it is not interrupted. -/
def readBlock : List Read → Except Error (Bytes × List Read)
  | [] => .ok ([], [])
  | .bytes block :: reader => .ok (block, reader)
  | .interrupted :: reader => readBlock reader
  | .failed error :: _ => .error (.io error)

/-- Read more input, first dropping what is no longer needed.  `false` at the
end of input. -/
def fill (s : Splitter) : Except Error (Bool × Splitter) :=
  if s.eof then .ok (false, s)
  else
    let s := s.compact
    (readBlock s.reader).map fun (block, reader) =>
      (!block.isEmpty,
        { s with reader, buf := s.buf ++ block, eof := block.isEmpty })

/-- A scan that looks at the buffered bytes and reads more until it has what
it looks for.  `look` answers with the result, or with what the scan
remembers across the read.  Every read shortens the script, so `fuel` above
its length never runs out. -/
def scan {α β : Type} (look : Splitter → β → α ⊕ β) (atEof : Splitter → Error) :
    Nat → Splitter → β → Except Error (α × Splitter)
  | 0, s, _ => .error (atEof s)
  | fuel + 1, s, resume =>
    match look s resume with
    | .inl found => .ok (found, s)
    | .inr resume => do
      let (more, s) ← s.fill
      if more then scan look atEof fuel s resume else .error (atEof s)

/-- Make sure `buf[pos..pos + n]` is available. -/
def need (s : Splitter) (n : Nat) : Except Error Splitter := do
  let look := fun (s : Splitter) (_ : Unit) =>
    if s.buf.length - s.pos < n then Sum.inr () else Sum.inl ()
  let atEof := fun s : Splitter => s.error s.pos [.text "unexpected end of input in markup"]
  let (_, s) ← scan look atEof (s.reader.length + 1) s ()
  .ok s

/-- Offset from `pos` of the first `pattern` at or after `pos + from`. -/
def find (s : Splitter) (start : Nat) (pattern : Bytes) : Except Error (Nat × Splitter) :=
  let look := fun (s : Splitter) (start : Nat) =>
    match indexOf pattern (s.buf.drop (s.pos + start)) with
    | some i => Sum.inl (start + i)
    -- A pattern that straddles the read starts in the last bytes.
    | none => Sum.inr (max ((s.buf.length - s.pos) - (pattern.length - 1)) start)
  let atEof := fun s : Splitter => s.error s.pos [.text "unexpected end of input in markup"]
  scan look atEof (s.reader.length + 1) s start

/-- A byte that ends the name of a start tag. -/
def isNameEnd (b : UInt8) : Bool := isAsciiWhitespace b || b == 0x2f || b == 0x3e

/-- From a byte at index `i` on, the closing `>` outside quotes; or where the
bytes end and the quote open there.  The source jumps with `memchr`. -/
def scanQuotes : Bytes → Nat → Option UInt8 → Nat ⊕ (Nat × Option UInt8)
  | [], i, quote => .inr (i, quote)
  | b :: rest, i, none =>
    if b = 0x3e then .inl i
    else if b = 0x22 ∨ b = 0x27 then scanQuotes rest (i + 1) (some b)
    else scanQuotes rest (i + 1) none
  | b :: rest, i, some quote =>
    if b = quote then scanQuotes rest (i + 1) none else scanQuotes rest (i + 1) (some quote)

/-- Offsets from `pos` of the closing `>` of a start tag and of the end of its
name.  A `>` inside a quoted attribute value does not close the tag. -/
def scanStartTag (s : Splitter) : Except Error ((Nat × Nat) × Splitter) := do
  let atEof := fun s : Splitter =>
    s.error s.pos [.text "unexpected end of input in a start tag"]
  let lookName := fun (s : Splitter) (i : Nat) =>
    let tag := s.buf.drop s.pos
    match (tag.drop i).findIdx? isNameEnd with
    | some j => Sum.inl (i + j)
    | none => Sum.inr tag.length
  let (nameEnd, s) ← scan lookName atEof (s.reader.length + 1) s 1
  -- Past the name, jump from quote to quote to the closing `>`.
  let lookClose := fun (s : Splitter) (state : Nat × Option UInt8) =>
    scanQuotes ((s.buf.drop s.pos).drop state.1) state.1 state.2
  let (close, s) ← scan lookClose atEof (s.reader.length + 1) s (nameEnd, none)
  .ok ((close, nameEnd), s)

/-- `buf[index]`. -/
def byte (s : Splitter) (index : Nat) : UInt8 := s.buf.getD index 0

/-- The kind and the length of the markup at `pos`, where a `<` is. -/
def markupAt (s : Splitter) : Except Error ((Kind × Nat) × Splitter) := do
  -- From here on `pos` stays at the `<`, so reads keep the markup.
  let s ← s.need 2
  if s.byte (s.pos + 1) = 0x2f then
    let (i, s) ← s.find 2 (utf8 ">")
    .ok ((.endTag, i + 1), s)
  else if s.byte (s.pos + 1) = 0x3f then
    let (i, s) ← s.find 2 (utf8 "?>")
    .ok ((.other, i + 2), s)
  else if s.byte (s.pos + 1) = 0x21 then
    let s ← s.need 4
    if slice s.buf (s.pos + 2) (s.pos + 4) = utf8 "--" then
      let (i, s) ← s.find 4 (utf8 "-->")
      .ok ((.other, i + 3), s)
    else
      let s ← s.need 9
      let head := slice s.buf s.pos (s.pos + 9)
      if head = utf8 "<![CDATA[" then
        let (i, s) ← s.find 9 (utf8 "]]>")
        .ok ((.other, i + 3), s)
      else if head = utf8 "<!DOCTYPE" then .error (.dtdNotSupported (s.location s.pos))
      else .error (s.error s.pos [.text "unsupported markup declaration"])
  else
    let ((close, nameEnd), s) ← s.scanStartTag
    let empty := s.byte (s.pos + close - 1) == 0x2f
    .ok ((.start (s.pos + nameEnd) empty, close + 1), s)

/-- The loop of `next_markup` to the next `<`; `false` at the end of input. -/
def seekMarkup : Nat → Splitter → Except Error (Bool × Splitter)
  | 0, s => .ok (false, s)
  | fuel + 1, s =>
    match indexOf (utf8 "<") (s.buf.drop s.pos) with
    | some i => .ok (true, s.moveTo (s.pos + i))
    | none => do
      let (more, s) ← (s.moveTo s.buf.length).fill
      if more then seekMarkup fuel s else .ok (false, s)

/-- The next piece of markup, skipping text.  `none` at the end of input. -/
def nextMarkup (s : Splitter) : Except Error (Option Markup × Splitter) := do
  let (found, s) ← seekMarkup (s.reader.length + 1) s
  if found then
    let ((kind, len), s) ← s.markupAt
    let start := s.pos
    .ok (some { kind, start, stop := start + len }, s.moveTo (start + len))
  else .ok (none, s)

/-- Whether the tag at `pos` is named like the feature; `nameAt` is 2 for an
end tag. -/
def namedLikeFeature (s : Splitter) (nameAt : Nat) : Bool :=
  let at' := s.pos + nameAt
  let nameLen := s.featureName.length
  -- The byte after the name rules out most tags before comparing names.
  let after := s.byte (at' + nameLen)
  (isAsciiWhitespace after || after == 0x3e || (nameAt == 1 && after == 0x2f)) &&
    slice s.buf at' (at' + nameLen) == s.featureName

/-- The bytes of a read script. -/
def scriptBytes (reader : List Read) : Nat :=
  (reader.map fun
    | .bytes block => block.length
    | _ => 0).sum

/-- Bounds the turns of `nextFeatureMarkup`: a turn passes a `<` or reads. -/
def turns (s : Splitter) : Nat :=
  (s.buf.length - s.pos) + scriptBytes s.reader + s.reader.length + 1

/-- Inside a feature, the next markup that can end it or hide a `<`: a tag
named like the feature, a comment, CDATA or a processing instruction.  Any
other tag is passed over at its `<`, without looking for its end. -/
def nextFeatureMarkupLoop : Nat → Splitter → Except Error (Option Markup × Splitter)
  | 0, s => .ok (none, s)
  | fuel + 1, s =>
    match indexOf (utf8 "<") (s.buf.drop s.pos) with
    | none => do
      let (more, s) ← (s.moveTo s.buf.length).fill
      if more then nextFeatureMarkupLoop fuel s else .ok (none, s)
    | some i => do
      let s ← (s.moveTo (s.pos + i)).need 2
      if s.byte (s.pos + 1) = 0x21 ∨ s.byte (s.pos + 1) = 0x3f then s.nextMarkup
      else
        let nameAt := if s.byte (s.pos + 1) = 0x2f then 2 else 1
        let s ← s.need (nameAt + s.featureName.length + 1)
        if s.namedLikeFeature nameAt then s.nextMarkup
        else nextFeatureMarkupLoop fuel (s.moveTo (s.pos + 1))

def nextFeatureMarkup (s : Splitter) : Except Error (Option Markup × Splitter) :=
  nextFeatureMarkupLoop s.turns s

/-! ## Chunks -/

def flushChunk (s : Splitter) : Splitter :=
  if s.chunk.isEmpty then s
  else
    { s with
      chunk := []
      chunkFeatures := []
      ready := s.ready ++
        [{ source := s.source, seq := s.nextSeq, byteOffset := s.chunkOffset, bytes := s.chunk,
           namespaces := s.chunkContext, firstFeatureSeq := s.chunkFirstFeature,
           features := s.featuresEmitted - s.chunkFirstFeature,
           featureOffsets := s.chunkFeatures, collectionBoundedBy := s.chunkBoundedBy }]
      nextSeq := s.nextSeq + 1 }

/-- The namespace context of the open elements, shared while it is
unchanged. -/
def currentContext (s : Splitter) : Arc NamespaceContext × Splitter :=
  if s.contextGeneration = s.bindingsGeneration then (s.context, s)
  else
    let context := s.bindings.foldl (fun c (b : Option Bytes × Bytes) => c.declare b.1 b.2)
      NamespaceContext.new
    let s := { s with contextGeneration := s.bindingsGeneration }
    if s.context.val = context then (s.context, s)
    else
      let context : Arc NamespaceContext := ⟨s.allocated, context⟩
      (context, { s with context, allocated := s.allocated + 1 })

/-- The `boundedBy` of the innermost open collection that has one. -/
def collectionBoundedBy (s : Splitter) : Option (Arc RawElement) :=
  s.stack.findSome? Frame.boundedBy

/-- Two optional elements are the same allocation, or both missing. -/
def sameBounds : Option (Arc RawElement) → Option (Arc RawElement) → Bool
  | some a, some b => a.ptrEq b
  | none, none => true
  | _, _ => false

/-- A chunk holds features of one context and one `boundedBy` only. -/
def flushForeign (s : Splitter) (context : Arc NamespaceContext) : Splitter :=
  if !s.chunk.isEmpty &&
      (!context.ptrEq s.chunkContext || !sameBounds s.collectionBoundedBy s.chunkBoundedBy)
  then s.flushChunk else s

/-- An empty chunk takes the context, the bounds and the offset of the feature
that enters it first. -/
def openChunk (s : Splitter) (context : Arc NamespaceContext) (start : Nat) : Splitter :=
  if s.chunk.isEmpty then
    { s with
      chunkBoundedBy := s.collectionBoundedBy
      chunkContext := context
      chunkOffset := start
      chunkFirstFeature := s.featuresEmitted }
  else s

/-- A feature that enters a chunk starts at stream offset `start`. -/
def beginFeature (s : Splitter) (start : Nat) : Splitter :=
  let (context, s) := s.currentContext
  (s.flushForeign context).openChunk context start

/-- A feature that the layer filter drops enters no chunk. -/
def beginWanted (s : Splitter) (emit : Bool) (start : Nat) : Splitter :=
  if emit then s.beginFeature start else s

/-- The bytes of a feature that started at stream offset `start` enter the
chunk. -/
def copyFeature (s : Splitter) (start : Nat) (bytes : Bytes) : Splitter :=
  { s with
    chunkFeatures := s.chunkFeatures ++ [⟨s.chunk.length, start⟩]
    chunk := s.chunk ++ bytes
    featuresEmitted := s.featuresEmitted + 1 }

/-- A chunk that has grown to the target size is cut. -/
def flushFull (s : Splitter) : Splitter :=
  if s.chunk.length ≥ s.options.targetChunkBytes then s.flushChunk else s

/-- A feature ends at `stop` (an index into `buf`). -/
def endFeature (s : Splitter) (emit : Bool) (start stop : Nat) : Splitter :=
  if emit then (s.copyFeature start (slice s.buf (start - s.base) stop)).flushFull else s

/-- Change the innermost open element. -/
def modifyTop (f : Frame → Frame) : List Frame → List Frame
  | [] => []
  | frame :: stack => f frame :: stack

/-- A collection's `boundedBy` that started at stream offset `start` ended at
`stop` (an index into `buf`). -/
def endBoundedBy (s : Splitter) (start stop : Nat) : Splitter :=
  let bytes := slice s.buf (start - s.base) stop
  let (namespaces, s) := s.currentContext
  let element : RawElement := { source := s.source, byteOffset := start, bytes, namespaces }
  { s with
    stack := modifyTop (fun frame => { frame with boundedBy := some ⟨s.allocated, element⟩ })
      s.stack
    allocated := s.allocated + 1 }

/-! ## Tags outside features -/

def resolve (s : Splitter) (raw : Bytes) (element : Bool) : Option QName :=
  resolveIn s.bindings raw element

/-- The remembered names hold for one state of the bindings. -/
def refreshNames (s : Splitter) : Splitter :=
  if s.namesGeneration = s.bindingsGeneration then s
  else { s with names := [], namesGeneration := s.bindingsGeneration }

/-- `resolve` for an element name, remembered while the bindings stay the
same. -/
def resolveElement (s : Splitter) (raw : Bytes) : Option QName × Splitter :=
  let s := s.refreshNames
  match s.names.lookup raw with
  | some name => (name, s)
  | none => (s.resolve raw true, { s with names := (raw, s.resolve raw true) :: s.names })

/-- Drop the declarations after the first `n`. -/
def truncateBindings (s : Splitter) (n : Nat) : Splitter :=
  { s with bindings := s.bindings.take n, bindingsGeneration := s.bindingsGeneration + 1 }

/-- An attribute key of a namespace declaration, as the header reads it. -/
def isDeclarationKey (key : Bytes) : Bool :=
  (utf8 "xmlns").isPrefixOf key && (key.length == 5 || key.getD 5 0 == 0x3a)

def readHeader (quickXml : Bytes → Option Bytes) (s : Splitter) (root : QName)
    (attributes : List (Bytes × Bytes)) (bindingsBefore : Nat) : Splitter :=
  let namespaces := (s.bindings.drop bindingsBefore).foldl
    (fun c (b : Option Bytes × Bytes) => c.declare b.1 b.2) NamespaceContext.new
  let kept := attributes.filter fun attr => !isDeclarationKey attr.1
  let isSchemaLocation := fun attr : Bytes × Bytes =>
    (splitOnce 0x3a attr.1).isSome &&
      s.resolve attr.1 false == some ⟨some ns.XSI, utf8 "schemaLocation"⟩
  let isWfs := fun attr : Bytes × Bytes =>
    (splitOnce 0x3a attr.1).isNone && WFS_ATTRIBUTES.contains attr.1
  { s with
    header := some
      { root
        namespaces
        -- A later `xsi:schemaLocation` replaces an earlier one.
        schemaLocation := (kept.filter isSchemaLocation).getLast?.map fun attr =>
          unescape quickXml attr.2
        wfsAttributes := (kept.filter isWfs).map fun attr =>
          (⟨none, attr.1⟩, unescape quickXml attr.2)
        fmeProduced := namespaces.declaresUri ns.FME } }

/-- Whether the layer filter keeps the root as a feature. -/
def rootWanted (s : Splitter) : Bool :=
  match s.options.layers, s.header.map DocumentHeader.root with
  | some layers, some root => layerWanted layers root
  | _, _ => true

/-- `self.mode = mode`. -/
def setMode (s : Splitter) (mode : Mode) : Splitter := { s with mode }

/-- The root candidate turns out to be the feature. -/
def takeRoot (s : Splitter) : Splitter :=
  { s with rootCandidate := none, rootFeature := true }

/-- The root element ended at `stop`; a root that is still a candidate is the
one feature of the document. -/
def endRoot (s : Splitter) (stop : Nat) : Splitter :=
  match s.rootCandidate with
  | none => s.setMode .epilog
  | some start =>
    let s := (s.setMode .epilog).takeRoot
    (s.beginWanted s.rootWanted start).endFeature s.rootWanted start stop

/-- `self.stack = stack`. -/
def setStack (s : Splitter) (stack : List Frame) : Splitter := { s with stack }

/-- The innermost open element has a child. -/
def markChild (s : Splitter) : Splitter :=
  { s with stack := modifyTop (fun frame => { frame with hasChild := true }) s.stack }

/-- Inside a feature, or a collection's `boundedBy`, named `rawName`. -/
def enterFeature (s : Splitter) (rawName : Bytes) (emit : Bool) (start : Nat)
    (boundedBy : Bool) : Splitter :=
  { s with featureName := rawName, mode := .feature 1 emit start boundedBy }

/-- The start tag of a feature, whose element is a child of a member
element. -/
def startFeature (s : Splitter) (markup : Markup) (rawName : Bytes) (name : QName)
    (empty : Bool) : Splitter :=
  let start := s.base + markup.start
  let emit := wantedIn s.options name
  let s := s.markChild.beginWanted emit start
  if empty then s.endFeature emit start markup.stop
  else s.enterFeature rawName emit start false

/-- What an element outside features says of the root: a container ends its
candidacy, and the root may become the candidate. -/
def noteContainer (s : Splitter) (markup : Markup) (container isRoot : Bool) : Splitter :=
  if container then { s with sawContainer := true, rootCandidate := none }
  else if isRoot && s.options.allowSingleFeatureRoot then
    { s with rootCandidate := some (s.base + markup.start) }
  else s

/-- A member element without a child: its feature is elsewhere. -/
def countReferenced (s : Splitter) (referenced : Bool) : Splitter :=
  if referenced then { s with referencedMembers := s.referencedMembers + 1 } else s

/-- Forget the declarations of an element that made some. -/
def undeclare (s : Splitter) (declared : Bool) (bindingsBefore : Nat) : Splitter :=
  if declared then s.truncateBindings bindingsBefore else s

/-- The start tag of an element outside features that is neither a feature nor
a `boundedBy`. -/
def startContainer (s : Splitter) (markup : Markup) (rawName : Bytes) (name : QName)
    (empty declared isRoot : Bool) (bindingsBefore : Nat) : Splitter :=
  let members := s.options.memberRules.any fun rule => rule.element == name
  let s := (s.noteContainer markup (members || isCollection name) isRoot).markChild
  if empty then
    let s := (s.undeclare declared bindingsBefore).countReferenced members
    if isRoot then s.endRoot markup.stop else s
  else
    s.setStack ({ rawName, members, hasChild := false, bindingsBefore, boundedBy := none } ::
      s.stack)

/-- The declarations of a start tag come into scope. -/
def declare (s : Splitter) (declarations : List (Option Bytes × Bytes)) : Splitter :=
  if declarations.isEmpty then s
  else
    { s with
      bindings := s.bindings ++ declarations
      bindingsGeneration := s.bindingsGeneration + 1 }

/-- A start tag whose name is resolved: the root's header is read, and the
element is a feature, a `boundedBy` or a container. -/
def startNamed (quickXml : Bytes → Option Bytes) (s : Splitter) (markup : Markup)
    (rawName : Bytes) (attributes : List (Bytes × Bytes)) (name : QName) (empty declared : Bool)
    (bindingsBefore : Nat) : Splitter :=
  let isRoot := s.mode == .prolog
  let s := if isRoot then
    (s.readHeader quickXml name attributes bindingsBefore).setMode .outside else s
  let parentHasMembers := (s.stack.head?.map Frame.members).getD false
  if parentHasMembers && !isCollection name then
    -- A feature.  Its own declarations travel in its bytes.
    (s.undeclare declared bindingsBefore).startFeature markup rawName name empty
  else if !isRoot && isBoundedBy name then
    -- The envelope of the collection this element is in, copied for the
    -- features it bounds.  Its declarations travel in its bytes.
    let s := s.undeclare declared bindingsBefore
    if empty then s else s.enterFeature rawName true (s.base + markup.start) true
  else s.startContainer markup rawName name empty declared isRoot bindingsBefore

def startTag (quickXml : Bytes → Option Bytes) (s : Splitter) (markup : Markup) (tag : Bytes)
    (nameLen : Nat) (empty : Bool) : Except Error Splitter := do
  if !isUtf8 tag then
    throw (s.error markup.start [.text "invalid UTF-8 in a start tag"])
  let rawName := tag.take nameLen
  let attributes ← (parseAttributes (tag.drop nameLen)).mapError (s.error markup.start)
  let bindingsBefore := s.bindings.length
  let declarations := attributes.filterMap (declaration quickXml)
  let declared := !declarations.isEmpty
  let (name, s) := (s.declare declarations).resolveElement rawName
  match name with
  | none =>
    throw (s.error markup.start
      [.text "undeclared namespace prefix in <", .str rawName, .text ">"])
  | some name =>
    return s.startNamed quickXml markup rawName attributes name empty declared bindingsBefore

/-- A start tag outside features: the root, a container or a feature. -/
def startOutside (quickXml : Bytes → Option Bytes) (s : Splitter) (markup : Markup)
    (nameEnd : Nat) (empty : Bool) : Except Error Splitter :=
  let tagEnd := if empty then markup.stop - 2 else markup.stop - 1
  let tag := slice s.buf (markup.start + 1) tagEnd
  s.startTag quickXml markup tag (nameEnd - markup.start - 1) empty

/-- The container `frame` has ended at `stop` and is no longer open. -/
def endContainer (s : Splitter) (frame : Frame) (stop : Nat) : Splitter :=
  let s := (s.countReferenced (frame.members && !frame.hasChild)).undeclare
    (frame.bindingsBefore < s.bindings.length) frame.bindingsBefore
  if s.stack.isEmpty then s.endRoot stop else s

/-- An end tag named `name`, which must be the innermost open element's. -/
def endNamed (s : Splitter) (markup : Markup) (name : Bytes) : Except Error Splitter :=
  match s.stack with
  | [] => .error (s.error markup.start [.text "end tag without a start tag"])
  | frame :: stack =>
    if frame.rawName = name then .ok ((s.setStack stack).endContainer frame markup.stop)
    else
      .error (s.error markup.start
        [.text "end tag </", .lossy name, .text "> does not match <", .lossy frame.rawName,
          .text ">"])

/-- An end tag outside features. -/
def endOutside (s : Splitter) (markup : Markup) : Except Error Splitter :=
  s.endNamed markup (trimAscii (slice s.buf (markup.start + 2) (markup.stop - 1)))

/-! ## Steps -/

/-- `self.finished = true`. -/
def setFinished (s : Splitter) : Splitter := { s with finished := true }

/-- End of input: check the document is complete and flush the last chunk. -/
def finish (s : Splitter) : Except Error Splitter :=
  let s := s.setFinished
  if s.mode ≠ .epilog ∧ s.mode ≠ .prolog then
    .error (s.error s.buf.length [.text "unexpected end of input"])
  else
    let s := s.flushChunk
    if !s.sawContainer && !s.rootFeature then .error (.noFeatures s.source) else .ok s

/-- What `step` does with the markup it has read. -/
def onMarkup (quickXml : Bytes → Option Bytes) (s : Splitter) (markup : Markup) :
    Except Error Splitter :=
  match s.mode with
  | .feature depth emit start boundedBy =>
    match markup.kind with
    | .start _ false => .ok (s.setMode (.feature (depth + 1) emit start boundedBy))
    | .endTag =>
      if depth = 1 then
        let s := s.setMode .outside
        .ok (if boundedBy then s.endBoundedBy start markup.stop
          else s.endFeature emit start markup.stop)
      else .ok (s.setMode (.feature (depth - 1) emit start boundedBy))
    | _ => .ok s
  | .prolog | .outside =>
    match markup.kind with
    | .start nameEnd empty => s.startOutside quickXml markup nameEnd empty
    | .endTag => s.endOutside markup
    | .other => .ok s
  | .epilog =>
    if markup.kind = .other then .ok s
    else .error (s.error markup.start [.text "content after the root element"])

/-- The markup a step reads: inside a feature, only what can end it. -/
def stepMarkup (s : Splitter) : Except Error (Option Markup × Splitter) :=
  match s.mode with
  | .feature .. => s.nextFeatureMarkup
  | _ => s.nextMarkup

/-- Process one piece of markup, or the end of the input. -/
def step (quickXml : Bytes → Option Bytes) (s : Splitter) : Except Error Splitter := do
  let (markup, s) ← s.stepMarkup
  match markup with
  | none => s.finish
  | some markup => s.onMarkup quickXml markup

/-! ## The iterator -/

/-- How a run of the iterator ends: with `None`, with an error, or (never, see
`chunks_terminates`) with the bound on its turns used up. -/
inductive Outcome where
  | ended
  | failed (error : Error)
  | outOfTurns
  deriving DecidableEq, Repr

/-- The splitter after `ready.pop_front()` until nothing is ready. -/
def drain (s : Splitter) : Splitter := { s with ready := [] }

/-- `Iterator::next` called until it returns `None` or an error: the chunks it
returns, and how it ends.  One turn returns what is ready and makes the step
that follows. -/
def chunksLoop (quickXml : Bytes → Option Bytes) :
    Nat → Splitter → List FeatureChunk × Outcome
  | 0, _ => ([], .outOfTurns)
  | fuel + 1, s =>
    if s.finished then (s.ready, .ended)
    else match s.drain.step quickXml with
      | .error error => (s.ready, .failed error)
      | .ok next =>
        let (chunks, outcome) := chunksLoop quickXml fuel next
        (s.ready ++ chunks, outcome)

/-- The unread bytes: of the window, and of the script. -/
def unread (s : Splitter) : Nat := (s.buf.length - s.pos) + scriptBytes s.reader

/-- All chunks of a source, and how the iteration ends.  A step takes at least
a byte or is the last, which bounds the turns. -/
def chunks (quickXml : Bytes → Option Bytes) (s : Splitter) : List FeatureChunk × Outcome :=
  chunksLoop quickXml (s.unread + 2) s

end Splitter

end Xeibe

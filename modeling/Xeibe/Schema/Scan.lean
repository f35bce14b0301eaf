import Xeibe.Schema.Node

/-!
# Scanning a chunk

`TreeBuilder` of `scan.rs`: the walk over the events of a chunk's features that
builds a partial observation.  The events come as a body: what a reader that
stands in an element's content, or at the start of a chunk, reads up to the
element's end tag, or up to the end of the chunk.

Left out: the hints for the GML version, which no node depends on.
-/

namespace Xeibe.Schema

open Lib

/-! ## Texts -/

/-- The UTF-8 encodings of the characters `char::is_whitespace` holds for. -/
def WHITE_SPACE : List Bytes :=
  [[0x09], [0x0a], [0x0b], [0x0c], [0x0d], [0x20], [0xc2, 0x85], [0xc2, 0xa0],
    [0xe1, 0x9a, 0x80], [0xe2, 0x80, 0x80], [0xe2, 0x80, 0x81], [0xe2, 0x80, 0x82],
    [0xe2, 0x80, 0x83], [0xe2, 0x80, 0x84], [0xe2, 0x80, 0x85], [0xe2, 0x80, 0x86],
    [0xe2, 0x80, 0x87], [0xe2, 0x80, 0x88], [0xe2, 0x80, 0x89], [0xe2, 0x80, 0x8a],
    [0xe2, 0x80, 0xa8], [0xe2, 0x80, 0xa9], [0xe2, 0x80, 0xaf], [0xe2, 0x81, 0x9f],
    [0xe3, 0x80, 0x80]]

/-- Strip up to `n` of the patterns from the front. -/
def trimFrom (patterns : List Bytes) : Nat → Bytes → Bytes
  | 0, s => s
  | n + 1, s =>
    match patterns.findSome? fun pattern => stripPrefix pattern s with
    | some rest => trimFrom patterns n rest
    | none => s

/-- `str::trim`. -/
def trim (s : Bytes) : Bytes :=
  let s := trimFrom WHITE_SPACE s.length s
  (trimFrom (WHITE_SPACE.map List.reverse) s.length s.reverse).reverse

/-! ## Events -/

/-- A start tag, and the reader's location after it. -/
structure StartTag where
  name : QName
  /-- `(prefix, uri)`. -/
  declarations : List (Option Bytes × Bytes)
  attrs : List (QName × Bytes)
  location : Location
  deriving DecidableEq

/-- What follows up to an end tag.  `unreadable` is what `next_event` fails at and
`skip_element` passes over (an entity that is not defined), as a tag whose name
has no namespace; at `broken` both fail. -/
inductive Body (ε : Type) where
  | done
  | text (s : Bytes) (rest : Body ε)
  | unreadable (error : ε) (rest : Body ε)
  | broken (error : ε)
  | element (tag : Except ε StartTag) (content rest : Body ε)

namespace Body

variable {ε : Type}

/-- `skip_element`. -/
def skip : Body ε → Except ε Unit
  | done => .ok ()
  | text _ rest => rest.skip
  | unreadable _ rest => rest.skip
  | broken error => .error error
  | element _ content rest => do
    content.skip
    rest.skip

/-- The positions the reader reports, in the order of the tags. -/
def offsets : Body ε → List Nat
  | done => []
  | text _ rest => rest.offsets
  | unreadable _ rest => rest.offsets
  | broken _ => []
  | element (.error _) content rest => content.offsets ++ rest.offsets
  | element (.ok tag) content rest =>
    tag.location.byteOffset :: (content.offsets ++ rest.offsets)

end Body

/-- The features of a chunk.  The reader moves on from tag to tag. -/
structure Features (ε : Type) where
  source : Nat
  /-- The sequence number of the first feature. -/
  firstFeatureSeq : Nat
  namespaces : NamespaceContext
  body : Body ε
  ascending : body.offsets.Pairwise (· ≤ ·)

/-! ## The parts that read values and geometries -/

/-- `ValueStats`, `GeometryStats`, the sniffing of a geometry (`GeometrySniff`) and
the reading of a collection's `boundedBy`. -/
structure Statistics (V G B S ε : Type) where
  /-- `ValueStats::with_capacity`. -/
  withCapacity : Nat → V
  /-- `ValueStats::observe`. -/
  observe : V → Bytes → V
  /-- `GeometryStats::default()`. -/
  geometryDefault : G
  /-- `GeometryStats::observe`. -/
  observeGeometry : G → Nat → S → G
  /-- `GeometryStats::observe_parts`. -/
  observeParts : G → Nat → List S → G
  isGml33Geometry : QName → Bool
  /-- `sniff_geometry_in` of an element, with the srsName and srsDimension it
  inherits. -/
  sniff : StartTag → Body ε → Option Bytes → Option Nat → Except ε S
  isEnvelope : S → Bool
  srsName : S → Option Bytes
  srsDimension : S → Option Nat
  /-- The box of the first position, if that has two ordinates. -/
  firstPosition : S → Option B

structure Limits where
  maxDepth : Nat
  maxChildren : Nat
  distinctValues : Nat
  deriving DecidableEq

/-- What a collection hands down to its features, and its envelope. -/
structure Inherited (B : Type) where
  extent : Option B := none
  srsName : Option Bytes := none
  srsDimension : Option Nat := none

def GEOMETRY_ELEMENTS : List Bytes :=
  ["Point", "LineString", "LinearRing", "Polygon", "Curve", "OrientableCurve",
    "CompositeCurve", "Ring", "Surface", "OrientableSurface", "CompositeSurface",
    "PolygonPatch", "Triangle", "Rectangle", "PolyhedralSurface", "TriangulatedSurface",
    "Tin", "MultiPoint", "MultiLineString", "MultiCurve", "MultiPolygon", "MultiSurface",
    "MultiGeometry", "MultiSolid", "Solid", "CompositeSolid", "GeometricComplex",
    "Envelope", "Box", "Grid", "RectifiedGrid"].map utf8

/-- GML's array properties, which hold several geometries. -/
def isArrayProperty (name : QName) : Bool :=
  ["pointArrayProperty", "curveArrayProperty", "surfaceArrayProperty",
    "solidArrayProperty"].any fun localName => name.isGmlNamed (utf8 localName)

/-- `gml:id` in either GML namespace. -/
def isGmlId (name : QName) : Bool := name.isGmlNamed (utf8 "id")

/-! ## The walk -/

/-- The feature being walked. -/
structure FeatureState (B : Type) where
  seq : Nat := 0
  gmlId : Option Bytes := none
  srsName : Option Bytes := none
  srsDimension : Option Nat := none
  /-- The feature's `boundedBy` was read. -/
  bounded : Bool := false
  extent : Option B := none

/-- Everything the walk needs besides the node it is in. -/
structure WalkState (B : Type) where
  limits : Limits
  source : Nat
  feature : FeatureState B := {}
  /-- Namespaces declared inside features: `(uri, prefix)`. -/
  prefixes : List (Bytes × Bytes) := []

/-- One open element: counters for its children and what its content was. -/
structure Frame (S : Type) where
  /-- `(child index, count in this instance, location of the second one)`. -/
  childCounts : List (Nat × Nat × Option Location) := []
  hadText : Bool := false
  hadChildren : Bool := false
  text : Bytes := []
  geometries : List S := []

/-- What an element's start tag said. -/
structure Instance where
  href : Bool := false
  gmlId : Option Bytes := none
  /-- A GML array property. -/
  array : Bool := false
  /-- The feature's `gml:boundedBy`. -/
  boundedBy : Bool := false

section

variable {V G B S ε : Type} (stats : Statistics V G B S ε)

def isGeometryElement (name : QName) : Bool :=
  (name.isGml && GEOMETRY_ELEMENTS.contains name.localName) || stats.isGml33Geometry name

/-! ### Start tags -/

/-- `WalkState::attribute`. -/
def addAttribute (limits : Limits) (node : NodeFacts V G) (name : QName) (value : Bytes) :
    NodeFacts V G :=
  if (node.attributes.lookup name).isSome then
    { node with
      attributes :=
        Keyed.update name (fun known => stats.observe known (trim value)) node.attributes }
  else if node.attributes.length < limits.maxChildren then
    { node with
      attributes := node.attributes ++
        [(name, stats.observe (stats.withCapacity limits.distinctValues) (trim value))] }
  else { node with truncated := true }

/-- The attributes of a start tag so far. -/
structure Started (V G : Type) where
  node : NodeFacts V G
  inst : Instance := {}
  nil : Bool := false
  nilReason : Option Bytes := none

def startAttribute (limits : Limits) (s : Started V G) (attr : QName × Bytes) : Started V G :=
  let (name, value) := attr
  if name.ns = some ns.XSI then
    if name.localName = utf8 "nil" then
      { s with nil := trim value == utf8 "true" || trim value == utf8 "1" }
    else s
  else if name.ns = some ns.XLINK ∧ name.localName = utf8 "href" then
    { s with
      inst := { s.inst with href := true }
      node := addAttribute stats limits s.node name value }
  else if isGmlId name then
    { s with
      inst := { s.inst with gmlId := some value }
      node := addAttribute stats limits { s.node with hasGmlId := s.node.hasGmlId + 1 } name value }
  else if name = ⟨none, utf8 "nilReason"⟩ then { s with nilReason := some value }
  else { s with node := addAttribute stats limits s.node name value }

/-- Record the attributes of a start tag in its node. -/
def startFacts (limits : Limits) (node : NodeFacts V G) (tag : StartTag) :
    NodeFacts V G × Instance :=
  let s := tag.attrs.foldl (startAttribute stats limits) { node }
  let node := s.node
  match s.nil, s.nilReason with
  | true, none => ({ node with nil := { node.nil with count := node.nil.count + 1 } }, s.inst)
  | true, some reason =>
    let nil := { node.nil with count := node.nil.count + 1 }
    ({ node with nil := nil.addReason (trim reason) }, s.inst)
  | false, some reason => (addAttribute stats limits node ⟨none, utf8 "nilReason"⟩ reason, s.inst)
  | false, none => (node, s.inst)

namespace WalkState

/-- Namespaces declared by a start tag. -/
def declare (w : WalkState B) (declaration : Option Bytes × Bytes) : WalkState B :=
  match declaration with
  | (none, _) => w
  | (some pre, uri) =>
    if w.prefixes.length < MAX_PREFIXES ∧ (w.prefixes.lookup uri).isNone then
      { w with prefixes := w.prefixes ++ [(uri, pre)] }
    else w

def start (w : WalkState B) (node : ElementNode V G) (tag : StartTag) :
    WalkState B × ElementNode V G × Instance :=
  let (facts, inst) := startFacts stats w.limits node.facts tag
  (tag.declarations.foldl declare w, node.mapFacts fun _ => facts, inst)

/-- `start`, at the place where the node is first seen if it was not seen before. -/
def enter (w : WalkState B) (node : ElementNode V G) (tag : StartTag) :
    WalkState B × ElementNode V G × Instance :=
  let (w, node, inst) := w.start stats node tag
  (w,
    node.mapFacts fun facts =>
      { facts with
        firstSeen := facts.firstSeen.or (some (toLex (w.source, tag.location.byteOffset))) },
    inst)

/-- A location with the current feature's sequence number and `gml:id`. -/
def evidence (w : WalkState B) (location : Location) : Location :=
  { location with featureSeq := some w.feature.seq, gmlId := w.feature.gmlId }

/-- A geometry element inside a property.  An envelope of the feature's `boundedBy`
hands its srsName and srsDimension down. -/
def geometry [Merge B] (w : WalkState B) (tag : StartTag) (content : Body ε)
    (featureBounds : Bool) : Except ε (WalkState B × S) := do
  let sniff ← stats.sniff tag content w.feature.srsName w.feature.srsDimension
  if stats.isEnvelope sniff then
    if featureBounds && !w.feature.bounded then
      let srsDimension := (stats.srsDimension sniff).or w.feature.srsDimension
      .ok ({ w with
        feature := { w.feature with
          bounded := true
          srsName := stats.srsName sniff
          srsDimension } }, sniff)
    else .ok (w, sniff)
  else
    match stats.firstPosition sniff with
    | some point =>
      .ok ({ w with
        feature := { w.feature with
          extent := mergeOption w.feature.extent (some point) } }, sniff)
    | none => .ok (w, sniff)

end WalkState

/-! ### Content -/

namespace Frame

/-- A text event. -/
def addText (frame : Frame S) (text : Bytes) : Frame S :=
  if (trim text).isEmpty then frame
  else
    { frame with
      hadText := true
      text := if frame.hadChildren then frame.text else frame.text ++ text }

/-- Another instance of the child at an index. -/
def count (frame : Frame S) (index : Nat) (evidence : Location) : Frame S :=
  { frame with
    childCounts :=
      if frame.childCounts.any (·.1 == index) then
        frame.childCounts.map fun (i, count, second) =>
          if i = index then (i, count + 1, second.or (some evidence)) else (i, count, second)
      else frame.childCounts ++ [(index, 1, none)] }

end Frame

/-- The children an instance had, counted when it ends. -/
def closeChildren (children : List (QName × ElementNode V G))
    (childCounts : List (Nat × Nat × Option Location)) : List (QName × ElementNode V G) :=
  childCounts.foldl (fun children (index, count, second) =>
    children.modify index fun (name, child) =>
      (name, child.mapFacts fun facts =>
        { facts with
          parentsWith := facts.parentsWith + 1
          maxOccurs := max facts.maxOccurs count
          firstMulti :=
            if 1 < count ∧ facts.firstMulti.isNone then second else facts.firstMulti }))
    children

/-- What an element's end tag adds to its node's own facts. -/
def closeFacts (w : WalkState B) (facts : NodeFacts V G) (frame : Frame S) (inst : Instance) :
    NodeFacts V G :=
  let hasContent := frame.hadText || frame.hadChildren
  { facts with
    geometry :=
      if frame.geometries.isEmpty then facts.geometry
      else
        let known := facts.geometry.getD stats.geometryDefault
        if inst.array then some (stats.observeParts known w.source frame.geometries)
        else some (frame.geometries.foldl (fun known sniff =>
          stats.observeGeometry known w.source sniff) known)
    singleChild :=
      match frame.hadText, frame.childCounts with
      | false, [(_, 1, _)] => facts.singleChild + 1
      | _, _ => facts.singleChild
    mixed := facts.mixed || (frame.hadText && frame.hadChildren)
    text :=
      if frame.hadText && !frame.hadChildren then
        some (stats.observe (facts.text.getD (stats.withCapacity w.limits.distinctValues))
          (trim frame.text))
      else facts.text
    hrefAndContent := facts.hrefAndContent + if inst.href && hasContent then 1 else 0
    byReference := facts.byReference + if inst.href && !hasContent then 1 else 0
    empty := facts.empty + if !inst.href && !hasContent then 1 else 0 }

/-- The end of an element. -/
def close (w : WalkState B) (node : ElementNode V G) (frame : Frame S) (inst : Instance) :
    ElementNode V G :=
  .mk (closeFacts stats w node.facts frame inst) (closeChildren node.children frame.childCounts)

/-- Depth or width limit hit. -/
def ElementNode.truncate (node : ElementNode V G) : ElementNode V G :=
  node.mapFacts fun facts => { facts with truncated := true }

/-- A child goes to its place, a new one to the end. -/
def ElementNode.setChild (node : ElementNode V G) (name : QName) (child : ElementNode V G) :
    ElementNode V G :=
  .mk node.facts (Keyed.put name child node.children)

/-- The child a start tag opens: one more instance, with the tag's attributes, seen
here if not before. -/
def openChild (w : WalkState B) (node : ElementNode V G) (tag : StartTag) :
    WalkState B × ElementNode V G × Instance :=
  let child := (node.children.lookup tag.name).getD (.new none)
  let child := child.mapFacts fun facts => { facts with instances := facts.instances + 1 }
  let (w, child, inst) := w.enter stats child tag
  (w, child,
    { inst with
      array := isArrayProperty tag.name
      boundedBy := tag.name.isGmlNamed (utf8 "boundedBy") })

variable [Merge B]

/-- The loop of `WalkState::content`: an element's content, up to its end tag.
`depth` is the element's depth (feature = 0). -/
def content (w : WalkState B) (node : ElementNode V G) (frame : Frame S) (depth : Nat)
    (inst : Instance) : Body ε → Except ε (WalkState B × ElementNode V G × Frame S)
  | .done => .ok (w, node, frame)
  | .text s rest => content w node (frame.addText s) depth inst rest
  | .unreadable error _ => .error error
  | .broken error => .error error
  | .element (.error error) _ _ => .error error
  | .element (.ok tag) inner rest =>
    let frame := { frame with hadChildren := true }
    if 1 ≤ depth ∧ isGeometryElement stats tag.name then do
      let (w, sniff) ← w.geometry stats tag inner (depth == 1 && inst.boundedBy)
      content w node { frame with geometries := frame.geometries ++ [sniff] } depth inst rest
    else
      let known := node.children.findIdx? fun e => e.1 == tag.name
      if w.limits.maxDepth ≤ depth ∨
          (known = none ∧ w.limits.maxChildren ≤ node.children.length) then do
        inner.skip
        content w node.truncate frame depth inst rest
      else do
        let frame := frame.count (known.getD node.children.length) (w.evidence tag.location)
        let (w, child, childInst) := openChild stats w node tag
        let (w, child, childFrame) ← content w child {} (depth + 1) childInst inner
        content w (node.setChild tag.name (close stats w child childFrame childInst)) frame depth
          inst rest

/-! ### Features -/

/-- What a scan has so far. -/
structure Builder (V G B : Type) where
  observation : DatasetObservation V G B
  walk : WalkState B

/-- A layer's node, with a feature's start tag in it. -/
def openFeature (w : WalkState B) (layer : LayerObservation V G B) (tag : StartTag) :
    WalkState B × LayerObservation V G B × Instance :=
  let root := layer.root.mapFacts fun facts =>
    { facts with
      instances := facts.instances + 1
      parentsWith := facts.parentsWith + 1 }
  let (w, root, inst) := w.enter stats root tag
  (w, { layer with featureCount := layer.featureCount + 1, root }, inst)

def DatasetObservation.setLayer (self : DatasetObservation V G B) (name : QName)
    (layer : LayerObservation V G B) : DatasetObservation V G B :=
  { self with layers := Keyed.put name layer self.layers }

/-- One feature of a layer. -/
def scanFeature (inherited : Inherited B) (seq : Nat) (builder : Builder V G B) (tag : StartTag)
    (inner : Body ε) : Except ε (Builder V G B) := do
  let layer := (builder.observation.layers.lookup tag.name).getD
    { featureCount := 0, root := .new none, extent := none }
  let (w, layer, inst) := openFeature stats builder.walk layer tag
  let w := { w with
    feature := {
      seq
      gmlId := inst.gmlId
      srsName := inherited.srsName
      srsDimension := inherited.srsDimension } }
  let (w, root, frame) ← content stats w layer.root {} 0 inst inner
  let layer := { layer with
    root := close stats w root frame inst
    extent := mergeOption layer.extent w.feature.extent }
  .ok {
    observation := builder.observation.setLayer tag.name layer
    walk := { w with feature := { w.feature with extent := none } } }

/-- The features of a chunk, numbered from `seq` on.  `budget`: features still to
scan.  Also whether the budget ran out before the chunk did. -/
def scanFeatures (layers : Option (List QName)) (inherited : Inherited B) (seq : Nat)
    (builder : Builder V G B) (budget : Option Nat) :
    Body ε → Except ε (Builder V G B × Option Nat × Bool)
  | .done => .ok (builder, budget, false)
  | .text _ rest => scanFeatures layers inherited seq builder budget rest
  | .unreadable error _ => .error error
  | .broken error => .error error
  | .element (.error error) _ _ => .error error
  | .element (.ok tag) inner rest =>
    if layers.any fun layers => !layers.contains tag.name then do
      inner.skip
      scanFeatures layers inherited seq builder budget rest
    else if budget = some 0 then .ok (builder, budget, true)
    else do
      let builder ← scanFeature stats inherited seq builder tag inner
      scanFeatures layers inherited (seq + 1) builder (budget.map (· - 1)) rest

/-- `note_prefixes`. -/
def notePrefixes (observation : DatasetObservation V G B) (namespaces : NamespaceContext) :
    DatasetObservation V G B :=
  namespaces.bindings.foldl (fun observation (pre, uri) =>
    match pre with
    | some pre => observation.notePrefix uri pre
    | none => observation) observation

/-- `TreeBuilder::finish`. -/
def Builder.finish (builder : Builder V G B) : DatasetObservation V G B :=
  builder.walk.prefixes.foldl (fun observation (uri, pre) => observation.notePrefix uri pre)
    builder.observation

/-- `Scanner::scan_chunk_inner`.  `boundedBy` is what the collection's `boundedBy`
reads as. -/
def scanChunk (limits : Limits) (layers : Option (List QName)) (features : Features ε)
    (boundedBy : Except ε (Inherited B)) (budget : Option Nat) :
    Except ε (DatasetObservation V G B × Option Nat × Bool) := do
  let observation := notePrefixes {} features.namespaces
  let inherited ← boundedBy
  let builder : Builder V G B := {
    observation := { observation with extent := inherited.extent }
    walk := { limits, source := features.source } }
  let (builder, budget, stopped) ←
    scanFeatures stats layers inherited features.firstFeatureSeq builder budget features.body
  .ok (builder.finish, budget, stopped)

end

end Xeibe.Schema

import Xeibe.Arrow.Row

/-!
# Reading a chunk

`process_chunk` of `xeibe-arrow/src/pipeline.rs`: the features of a chunk that the
layer selector accepts, read into batches, with the location column if it is asked
for.  The reader reports positions in the chunk's bytes; `streamOffset`, of
`xeibe-core/src/chunk.rs`, takes them to the decoded stream.

What a collection's `boundedBy` hands down is a parameter, as are the geometries.
-/

namespace Xeibe

/-- `stream_offset`: a position in a chunk's bytes as an offset in the decoded stream,
from the feature it falls in. -/
def streamOffset (offsets : List FeatureOffset) (base position : Nat) : Nat :=
  match (offsets.takeWhile fun offset => offset.inChunk ≤ position).getLast? with
  | none => base + position
  | some feature => feature.inStream + (position - feature.inChunk)

def FeatureChunk.streamOffset (chunk : FeatureChunk) (position : Nat) : Nat :=
  Xeibe.streamOffset chunk.featureOffsets chunk.byteOffset position

/-- `resolve_prefix`. -/
def NamespaceContext.resolvePrefix (context : NamespaceContext) (pre : Option Bytes) :
    Option Bytes :=
  match context.bindings.find? fun binding => binding.1 == pre with
  | some (_, uri) => if uri.isEmpty && pre.isNone then none else some uri
  | none => none

namespace Arrow

/-- The layer a read asks for. -/
inductive LayerSelector where
  | exact (name : QName)
  /-- The prefix is resolved for each chunk. -/
  | prefixed (pre localName : Bytes)
  | localName (localName : Bytes)
  deriving DecidableEq

def LayerSelector.accepts (selector : LayerSelector) (name : QName)
    (namespaces : NamespaceContext) : Bool :=
  match selector with
  | .exact wanted => wanted == name
  | .localName wanted => name.localName == wanted
  | .prefixed pre wanted =>
    name.localName == wanted &&
      match namespaces.resolvePrefix (some pre) with
      | some uri => name.ns == some uri
      | none => true

/-- An error of the reader, at a position in the chunk's bytes. -/
structure Fault where
  position : Nat
  message : Text
  deriving DecidableEq

/-- What a worker needs to read chunks of one layer. -/
structure ReadPlan (P : Type) extends FeaturePlan P where
  selector : LayerSelector
  /-- Add the location column. -/
  location : Bool
  batchSize : Nat

/-- The rows of a batch, and the entries of its location column: source, start and end.
-/
structure Batch (F G E : Type) where
  rows : List (List (Value F G E))
  locations : List (Nat × Nat × Nat)

/-- What is read of a chunk so far. -/
structure Progress (F G E : Type) where
  builder : List (List (Value F G E)) := []
  locations : List (Nat × Nat × Nat) := []
  report : ReadReport := {}
  batches : List (Batch F G E) := []
  index : Nat := 0
  rows : Nat := 0

section

variable {F G E P A : Type} (floats : Floats F) (geo : Geometries Fault A G E P)
  (builders : Builders F G E A) (plan : ReadPlan P)

/-- `plan.finish`: the rows built so far as a batch. -/
def finish (p : Progress F G E) : Except (Error Fault A) (Progress F G E) :=
  match builders.unfinished p.builder with
  | some error => .error (.other error)
  | none =>
    .ok { p with
      batches := p.batches ++ [⟨p.builder, p.locations⟩]
      builder := []
      locations := [] }

/-- The location of a feature that starts at `position`, when its start tag was read.
-/
def featureLocation (chunk : FeatureChunk) (index position : Nat) (tag : StartTag)
    (written : Bytes) : Location where
  source := chunk.source
  byteOffset := chunk.streamOffset (position + written.length)
  featureSeq := some (chunk.firstFeatureSeq + index)
  gmlId := (tag.attrs.find? fun attr => attr.1.isGmlNamed (utf8 "id")).map Prod.snd

/-- A feature the selector accepts, which starts at `position`. -/
def readAccepted (chunk : FeatureChunk) (inherited : ParseContext) (position : Nat)
    (tag : StartTag) (written : Bytes) (content : Body Fault) (close : Bytes)
    (p : Progress F G E) : Except (Error Fault A) (Progress F G E) := do
  let start := chunk.streamOffset position
  let location := featureLocation chunk p.index position tag written
  let (outcome, builder, report) ←
    readFeature builders plan.toFeaturePlan floats geo inherited tag content close location
      p.builder p.report
  let p := { p with index := p.index + 1, builder, report }
  let p :=
    if outcome = .row then
      -- A feature is as long in the chunk as in the stream.
      let stop := start + (written.length + content.render.length + close.length)
      { p with
        rows := p.rows + 1
        locations :=
          if plan.location then p.locations ++ [(chunk.source, start, stop)] else p.locations }
    else p
  if plan.batchSize ≤ p.builder.length then finish builders p else .ok p

/-- The loop of `process_chunk` from `position` on. -/
def readFeatures (chunk : FeatureChunk) (inherited : ParseContext) :
    Nat → Body Fault → Progress F G E → Except (Error Fault A) (Progress F G E)
  | _, .done, p => .ok p
  | position, .text written _ rest, p =>
    readFeatures chunk inherited (position + written.length) rest p
  | _, .unreadable _ error _, _ => .error (.core error)
  | _, .element (.error error) _ _ _ _, _ => .error (.core error)
  | position, .element (.ok tag) written content close rest, p => do
    let stop := position + (written.length + content.render.length + close.length)
    if plan.selector.accepts tag.name chunk.namespaces.val then
      let p ← readAccepted floats geo builders plan chunk inherited position tag written content
        close p
      readFeatures chunk inherited stop rest p
    else readFeatures chunk inherited stop rest p

/-- What the collection around a chunk's features hands down to them. -/
def inheritedBy (collectionBoundedBy : RawElement → Except A ParseContext)
    (chunk : FeatureChunk) : Except (Error Fault A) ParseContext :=
  match chunk.collectionBoundedBy with
  | some raw =>
    if plan.hasGeometry then (collectionBoundedBy raw.val).mapError Error.other else .ok {}
  | none => .ok {}

/-- `process_chunk`: `body` is what the reader reads of the chunk's bytes,
`collectionBoundedBy` reads the `boundedBy` of a collection. -/
def processChunk (collectionBoundedBy : RawElement → Except A ParseContext)
    (chunk : FeatureChunk) (body : Body Fault) :
    Except (Error Fault A) (List (Batch F G E) × ReadReport) := do
  let inherited ← inheritedBy plan collectionBoundedBy chunk
  let p ← readFeatures floats geo builders plan chunk inherited 0 body {}
  let p ← (if p.builder.isEmpty then .ok p else finish builders p)
  .ok (p.batches, { p.report with rows := p.report.rows + p.rows })

end

end Arrow

end Xeibe

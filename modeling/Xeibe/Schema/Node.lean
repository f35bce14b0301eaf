import Xeibe.Core.Splitter.Model
import Xeibe.Lib.Keyed
import Mathlib.Data.Prod.Lex
import Mathlib.Data.Finset.Basic

/-!
# What a scan observes

`node.rs` and `observation.rs` of `xeibe-schema`: the tree of a layer's
elements, one node for every path, the observation of a dataset, and how two of
them merge.  The statistics of values and geometries and the bounding boxes are
parameters with a `Merge`.

Left out: a node's `name_shape`, which is read off its name.
-/

namespace Xeibe.Schema

open Lib

class Merge (α : Type) where
  /-- `self.merge(other)`. -/
  merge : α → α → α

/-- `merge_option`, and `union_bbox` for a bounding box. -/
def mergeOption {α : Type} [Merge α] : Option α → Option α → Option α
  | some a, some b => some (Merge.merge a b)
  | some a, none => some a
  | none, b => b

/-- `(source, byte_offset)`. -/
abbrev Position := Nat ×ₗ Nat

/-- The sort key of a `first_seen`: one that was never seen sorts last. -/
def seenKey : Option Position → Nat ×ₗ Position
  | none => toLex (1, toLex (0, 0))
  | some position => toLex (0, position)

/-- `a < b`, where `None` is less than every position. -/
def seenBefore : Option Position → Option Position → Bool
  | _, none => false
  | none, some _ => true
  | some a, some b => decide (a < b)

/-- The earlier of two `first_seen`. -/
def earlierSeen : Option Position → Option Position → Option Position
  | some a, some b => some (min a b)
  | some a, none => some a
  | none, b => b

/-- The location earlier in the input: by source, then byte offset. -/
def earliest : Option Location → Option Location → Option Location
  | some a, some b =>
    let position (l : Location) : Position := toLex (l.source, l.byteOffset)
    if position b < position a then some b else some a
  | some a, none => some a
  | none, b => b

/-! ## Nodes -/

def MAX_NIL_REASONS : Nat := 16

structure NilStats where
  count : Nat := 0
  /-- Distinct `nilReason` values. -/
  reasons : List Bytes := []
  deriving DecidableEq

namespace NilStats

def addReason (self : NilStats) (reason : Bytes) : NilStats :=
  if self.reasons.length < MAX_NIL_REASONS ∧ reason ∉ self.reasons then
    { self with reasons := self.reasons ++ [reason] }
  else self

def merge (self other : NilStats) : NilStats :=
  other.reasons.foldl addReason { self with count := self.count + other.count }

end NilStats

/-- What a node records besides its children. -/
structure NodeFacts (V G : Type) where
  instances : Nat := 0
  /-- Parent instances that contained it at least once. -/
  parentsWith : Nat := 0
  maxOccurs : Nat := 0
  /-- Where `maxOccurs` first exceeded 1. -/
  firstMulti : Option Location := none
  text : Option V := none
  mixed : Bool := false
  singleChild : Nat := 0
  empty : Nat := 0
  nil : NilStats := {}
  attributes : List (QName × V) := []
  firstSeen : Option Position := none
  geometry : Option G := none
  byReference : Nat := 0
  hrefAndContent : Nat := 0
  hasGmlId : Nat := 0
  /-- Depth or width limit hit. -/
  truncated : Bool := false

/-- An element path in a layer's tree. -/
inductive ElementNode (V G : Type) where
  | mk (facts : NodeFacts V G) (children : List (QName × ElementNode V G))

namespace ElementNode

variable {V G : Type}

def facts : ElementNode V G → NodeFacts V G
  | mk facts _ => facts

def children : ElementNode V G → List (QName × ElementNode V G)
  | mk _ children => children

@[simp] theorem facts_mk (facts : NodeFacts V G) (children : List (QName × ElementNode V G)) :
    (mk facts children).facts = facts := rfl

@[simp] theorem children_mk (facts : NodeFacts V G) (children : List (QName × ElementNode V G)) :
    (mk facts children).children = children := rfl

/-- A node for an element seen for the first time at `firstSeen`. -/
def new (firstSeen : Option Position) : ElementNode V G := mk { firstSeen } []

def mapFacts (f : NodeFacts V G → NodeFacts V G) (node : ElementNode V G) : ElementNode V G :=
  mk (f node.facts) node.children

@[simp] theorem facts_mapFacts (f : NodeFacts V G → NodeFacts V G) (node : ElementNode V G) :
    (node.mapFacts f).facts = f node.facts := rfl

@[simp] theorem children_mapFacts (f : NodeFacts V G → NodeFacts V G) (node : ElementNode V G) :
    (node.mapFacts f).children = node.children := rfl

/-- The children by the first position of each. -/
def sortChildren (children : List (QName × ElementNode V G)) : List (QName × ElementNode V G) :=
  children.insertionSort fun a b => seenKey a.2.facts.firstSeen ≤ seenKey b.2.facts.firstSeen

theorem induct {P : ElementNode V G → Prop}
    (mk : ∀ facts children, (∀ e ∈ children, P e.2) → P (mk facts children)) :
    ∀ node, P node :=
  ElementNode.rec (motive_2 := fun children => ∀ e ∈ children, P e.2)
    (motive_3 := fun e => P e.2) (fun facts children ih => mk facts children ih)
    (fun _ he => absurd he List.not_mem_nil)
    (fun _ _ hhead htail _ he => (List.mem_cons.1 he).elim (fun h => h ▸ hhead) (htail _))
    (fun _ _ h => h)

end ElementNode

namespace NodeFacts

variable {V G : Type} [Merge V] [Merge G]

/-- `ElementNode::merge`, without the children. -/
def merge (self other : NodeFacts V G) : NodeFacts V G where
  instances := self.instances + other.instances
  parentsWith := self.parentsWith + other.parentsWith
  maxOccurs := max self.maxOccurs other.maxOccurs
  firstMulti := earliest self.firstMulti other.firstMulti
  text := mergeOption self.text other.text
  mixed := self.mixed || other.mixed
  singleChild := self.singleChild + other.singleChild
  empty := self.empty + other.empty
  nil := self.nil.merge other.nil
  attributes := Keyed.mergeWith Merge.merge self.attributes other.attributes
  firstSeen := earlierSeen self.firstSeen other.firstSeen
  geometry := mergeOption self.geometry other.geometry
  byReference := self.byReference + other.byReference
  hrefAndContent := self.hrefAndContent + other.hrefAndContent
  hasGmlId := self.hasGmlId + other.hasGmlId
  truncated := self.truncated || other.truncated

end NodeFacts

namespace ElementNode

variable {V G : Type} [Merge V] [Merge G]

mutual

/-- The children are sorted again where one was inserted, or where the other
node was seen before this one. -/
def merge (self : ElementNode V G) : ElementNode V G → ElementNode V G
  | mk other otherChildren =>
    let (children, reorder) := mergeChildren self.children false otherChildren
    mk (self.facts.merge other)
      (if reorder || seenBefore other.firstSeen self.facts.firstSeen then sortChildren children
        else children)

/-- The loop over the other node's children. -/
def mergeChildren (children : List (QName × ElementNode V G)) (reorder : Bool) :
    List (QName × ElementNode V G) → List (QName × ElementNode V G) × Bool
  | [] => (children, reorder)
  | (name, child) :: rest =>
    if (children.lookup name).isSome then
      mergeChildren (Keyed.update name (fun existing => existing.merge child) children) reorder rest
    else mergeChildren (children ++ [(name, child)]) true rest

end

instance : Merge (ElementNode V G) := ⟨merge⟩

end ElementNode

/-! ## Observations -/

inductive GmlVersion where
  | V2
  | V3_0
  | V3_1
  | V3_2
  | V3_3
  deriving DecidableEq

structure SourceContext (B : Type) where
  fmeProduced : Bool := false
  producer : Option Bytes := none
  wfsVersion : Option Bytes := none
  requestedSrs : Option Bytes := none
  requestedBbox : Option B := none

structure LayerObservation (V G B : Type) where
  featureCount : Nat
  /-- The feature element itself. -/
  root : ElementNode V G
  extent : Option B

structure DatasetObservation (V G B : Type) where
  gmlVersions : Finset GmlVersion := ∅
  layers : List (QName × LayerObservation V G B) := []
  sampled : Bool := false
  sourceContext : List (SourceContext B) := []
  /-- Namespace URI and the prefix it was first declared with. -/
  prefixes : List (Bytes × Bytes) := []
  extent : Option B := none
  skippedSources : List Bytes := []

def MAX_PREFIXES : Nat := 256

section

variable {V G B : Type}

/-- Remember the prefix of a namespace URI, if it has none yet. -/
def DatasetObservation.notePrefix (self : DatasetObservation V G B) (uri pre : Bytes) :
    DatasetObservation V G B :=
  if self.prefixes.length < MAX_PREFIXES ∧ (self.prefixes.lookup uri).isNone then
    { self with prefixes := self.prefixes ++ [(uri, pre)] }
  else self

/-- The layers by the first feature of each. -/
def sortLayers (layers : List (QName × LayerObservation V G B)) :
    List (QName × LayerObservation V G B) :=
  layers.insertionSort fun a b =>
    seenKey a.2.root.facts.firstSeen ≤ seenKey b.2.root.facts.firstSeen

variable [Merge V] [Merge G] [Merge B]

def LayerObservation.merge (self other : LayerObservation V G B) : LayerObservation V G B where
  featureCount := self.featureCount + other.featureCount
  root := self.root.merge other.root
  extent := mergeOption self.extent other.extent

/-- The layers are sorted again where one was inserted. -/
def DatasetObservation.merge (self other : DatasetObservation V G B) :
    DatasetObservation V G B :=
  let (layers, reorder) :=
    Keyed.mergeNoting LayerObservation.merge false self.layers other.layers
  let merged : DatasetObservation V G B := {
    gmlVersions := self.gmlVersions ∪ other.gmlVersions
    layers := if reorder then sortLayers layers else layers
    sampled := self.sampled || other.sampled
    sourceContext := self.sourceContext ++ other.sourceContext
    prefixes := self.prefixes
    extent := mergeOption self.extent other.extent
    skippedSources := self.skippedSources ++ other.skippedSources }
  other.prefixes.foldl (fun merged (uri, pre) => merged.notePrefix uri pre) merged

end

/-! ## What a merge does -/

section

variable {V G B : Type} [Merge V] [Merge G] [Merge B]

namespace ElementNode

variable (a b : ElementNode V G)

theorem mergeChildren_eq (children : List (QName × ElementNode V G)) (reorder : Bool)
    (other : List (QName × ElementNode V G)) :
    mergeChildren children reorder other = Keyed.mergeNoting merge reorder children other := by
  induction other generalizing children reorder with
  | nil => rw [mergeChildren, Keyed.mergeNoting]
  | cons e rest ih =>
    obtain ⟨name, child⟩ := e
    rw [mergeChildren, Keyed.mergeNoting, ih, ih]

end ElementNode

end

end Xeibe.Schema

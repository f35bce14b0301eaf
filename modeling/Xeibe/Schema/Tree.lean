import Xeibe.Schema.Scan

/-!
# Counting on the tree

A feature as a tree of elements, and the facts that `ElementNode` keeps for the
rules that make lists and collapse type wrappers: how often a child repeats, and
whether an element holds exactly one.  Here they are counted on the elements
themselves, one instance of a parent after the other.
-/

namespace Xeibe.Schema

open Lib

/-! ## Values -/

/-- `ValueStats`: the number of values, and what is known of them. -/
structure ValueStats (R : Type) where
  count : Nat
  rest : R

instance {R : Type} [Merge R] : Merge (ValueStats R) where
  merge a b := ⟨a.count + b.count, Merge.merge a.rest b.rest⟩

variable {R G B S ε : Type}

/-- The statistics of values with their number. -/
def Statistics.counted (stats : Statistics R G B S ε) : Statistics (ValueStats R) G B S ε where
  withCapacity n := ⟨0, stats.withCapacity n⟩
  observe known value := ⟨known.count + 1, stats.observe known.rest value⟩
  geometryDefault := stats.geometryDefault
  observeGeometry := stats.observeGeometry
  observeParts := stats.observeParts
  isGml33Geometry := stats.isGml33Geometry
  sniff := stats.sniff
  isEnvelope := stats.isEnvelope
  srsName := stats.srsName
  srsDimension := stats.srsDimension
  firstPosition := stats.firstPosition

/-! ## What a node says -/

inductive NameShape where
  /-- Object/type element. -/
  | upperCamel
  /-- Property element. -/
  | lowerCamel
  | other
deriving DecidableEq

/-- Attributes that describe the encoding rather than the data. -/
def isLinkOrNilAttribute (name : QName) : Bool :=
  name.ns = some ns.XLINK || name.ns = some ns.XSI || name.localName = utf8 "nilReason"

namespace ElementNode

def textCount (node : ElementNode (ValueStats R) G) : Nat :=
  node.facts.text.elim 0 ValueStats.count

/-- The attributes that carry data. -/
def dataAttributes (node : ElementNode (ValueStats R) G) : List (QName × ValueStats R) :=
  node.facts.attributes.filter fun attr => !isLinkOrNilAttribute attr.1

/-- `is_type_wrapper`.  `shape` is `NameShape::of` a local name. -/
def isTypeWrapper (shape : Bytes → NameShape) (node : ElementNode (ValueStats R) G) : Bool :=
  if node.children.isEmpty || node.facts.geometry.isSome || node.facts.truncated ||
      node.facts.mixed || 0 < node.textCount || !node.dataAttributes.isEmpty then
    false
  else
    let withContent := node.facts.instances - (node.facts.empty + node.facts.byReference)
    node.facts.singleChild == withContent && node.children.all fun (name, child) =>
      shape name.localName == .upperCamel && child.facts.maxOccurs == 1 &&
        child.facts.attributes.all fun attr => isGmlId attr.1

end ElementNode

/-! ## Elements -/

/-- A start tag and what follows up to the end tag. -/
abbrev Element (ε : Type) := StartTag × Body ε

namespace Body

/-- The child elements, in order. -/
def elements : Body ε → List (Element ε)
  | .done => []
  | .text _ rest => rest.elements
  | .unreadable _ rest => rest.elements
  | .broken _ => []
  | .element (.error _) _ rest => rest.elements
  | .element (.ok tag) inner rest => (tag, inner) :: rest.elements

/-- There is a text besides white space. -/
def hasText : Body ε → Bool
  | .done => false
  | .text s rest => !(trim s).isEmpty || rest.hasText
  | .unreadable _ rest => rest.hasText
  | .broken _ => false
  | .element _ _ rest => rest.hasText

end Body

namespace StartTag

/-- `xsi:nil`. -/
def isNil (tag : StartTag) : Bool :=
  tag.attrs.foldl (fun nil (name, value) =>
    if name = ⟨some ns.XSI, utf8 "nil"⟩ then
      trim value == utf8 "true" || trim value == utf8 "1"
    else nil) false

/-- The attributes that say something of the element: not those of XML Schema, nor the
reason of a nil. -/
def facts (tag : StartTag) : List QName :=
  (tag.attrs.map Prod.fst).filter fun name =>
    name.ns ≠ some ns.XSI ∧ ¬ (name = ⟨none, utf8 "nilReason"⟩ ∧ tag.isNil = true)

end StartTag

/-- How many of the elements have the name. -/
def occurrences (name : QName) (elements : List (Element ε)) : Nat :=
  elements.countP fun e => e.1.name = name

/-- The most children of a name that one of the elements has. -/
def mostOccurrences (name : QName) (elements : List (Element ε)) : Nat :=
  (elements.map fun e => occurrences name e.2.elements).foldr max 0

/-- The children of a name that the elements have. -/
def childrenNamed (name : QName) (elements : List (Element ε)) : List (Element ε) :=
  elements.flatMap fun e => e.2.elements.filter fun child => child.1.name = name

/-- The elements at a path below those. -/
def elementsAt : List (Element ε) → List QName → List (Element ε)
  | elements, [] => elements
  | elements, name :: path => elementsAt (childrenNamed name elements) path

/-- The content is one child element and no text. -/
def Body.isSingleChild (body : Body ε) : Bool := !body.hasText && body.elements.length == 1

def Body.isEmpty (body : Body ε) : Bool := !body.hasText && body.elements.isEmpty

/-- What a type wrapper is on the tree: an element that has content holds exactly one
child, an object with no attribute but its `gml:id`; there is no text and no attribute
that carries data. -/
structure TypeWrapper (shape : Bytes → NameShape) (elements : List (Element ε)) : Prop where
  used : ∃ e ∈ elements, e.2.elements ≠ []
  single : ∀ e ∈ elements, e.2.isEmpty = false → e.2.isSingleChild = true
  plain : ∀ e ∈ elements, ∀ name ∈ e.1.facts, isLinkOrNilAttribute name = true
  object : ∀ e ∈ elements, ∀ child ∈ e.2.elements, shape child.1.name.localName = .upperCamel ∧
    ∀ name ∈ child.1.facts, isGmlId name = true

/-- `depth` is that of the elements (feature = 0): below a feature's properties no geometry
element is a child of its own. -/
def isInside (stats : Statistics R G B S ε) (depth : Nat) (name : QName) : Bool :=
  1 ≤ depth && isGeometryElement stats name

section

variable (name : QName) (elements more : List (Element ε))

@[simp] theorem occurrences_nil : occurrences name ([] : List (Element ε)) = 0 := rfl

theorem occurrences_append :
    occurrences name (elements ++ more) = occurrences name elements + occurrences name more :=
  List.countP_append

theorem foldr_max_append (xs ys : List Nat) :
    (xs ++ ys).foldr max 0 = max (xs.foldr max 0) (ys.foldr max 0) := by
  induction xs with
  | nil => simp
  | cons x xs ih => rw [List.cons_append, List.foldr_cons, ih, List.foldr_cons, Nat.max_assoc]

theorem mostOccurrences_append : mostOccurrences name (elements ++ more) =
    max (mostOccurrences name elements) (mostOccurrences name more) := by
  rw [mostOccurrences, List.map_append, foldr_max_append]
  rfl

theorem mostOccurrences_singleton (e : Element ε) :
    mostOccurrences name [e] = occurrences name e.2.elements :=
  Nat.max_zero _

theorem childrenNamed_append :
    childrenNamed name (elements ++ more) =
      childrenNamed name elements ++ childrenNamed name more :=
  List.flatMap_append ..

theorem childrenNamed_singleton (e : Element ε) :
    childrenNamed name [e] = e.2.elements.filter fun child => child.1.name = name :=
  List.flatMap_singleton ..

variable {name elements}

theorem occurrences_eq_zero (h : ∀ e ∈ elements, e.1.name ≠ name) :
    occurrences name elements = 0 :=
  List.countP_eq_zero.2 fun e he => by simpa using h e he

theorem mostOccurrences_eq_zero (h : ∀ e ∈ elements, ∀ child ∈ e.2.elements, child.1.name ≠ name) :
    mostOccurrences name elements = 0 := by
  induction elements with
  | nil => rfl
  | cons e rest ih =>
    rw [← List.singleton_append, mostOccurrences_append, mostOccurrences_singleton,
      occurrences_eq_zero (h e List.mem_cons_self),
      ih fun e he => h e (List.mem_cons_of_mem _ he)]
    rfl

theorem childrenNamed_eq_nil (h : ∀ e ∈ elements, ∀ child ∈ e.2.elements, child.1.name ≠ name) :
    childrenNamed name elements = [] :=
  List.flatMap_eq_nil_iff.2 fun e he =>
    List.filter_eq_nil_iff.2 fun child hchild => by simpa using h e he child hchild

end

end Xeibe.Schema

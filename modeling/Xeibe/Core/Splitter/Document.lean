import Mathlib.Data.List.Infix
import Xeibe.Core.Splitter.Model

/-!
# Documents and the features in them

What the splitter is for, stated without it.  A `Document` is a well-formed
XML document without a DTD, as a tree that keeps its layout: `render` gives
its bytes.  The pieces carry their well-formedness as fields, so that an
ill-formed document cannot be built.  They ask for less than XML does (a
name may hold any byte that does not end it), which only adds documents.

`Document.features` is the walk over the tree: the children of member
elements that are not collections are features, and the walk does not enter
them.  `closed` are the elements outside features it does not enter either;
the splitter's own are the `boundedBy` of collections (`isBoundedBy`).
-/

namespace Xeibe

/-! ## Layout -/

/-- Whitespace between the parts of a tag. -/
structure Space where
  bytes : Bytes
  blank : bytes.all isAsciiWhitespace = true

/-- A byte of a name: none that ends a name or begins other markup. -/
def isNameByte (b : UInt8) : Bool :=
  !isAsciiWhitespace b && b != 0x2f && b != 0x3e && b != 0x3c && b != 0x3d && b != 0x22 &&
    b != 0x27 && b != 0x21 && b != 0x3f

/-- The name of an element or an attribute, as written. -/
structure Name where
  bytes : Bytes
  nonempty : bytes ≠ []
  valid : bytes.all isNameByte = true

/-- An attribute: whitespace, the key, `=`, and a quoted value without a raw
`<`. -/
structure Attr where
  before : Space
  separated : before.bytes ≠ []
  key : Name
  beforeEq : Space
  afterEq : Space
  quote : UInt8
  isQuote : quote = 0x22 ∨ quote = 0x27
  value : Bytes
  unquoted : quote ∉ value
  noTag : 0x3c ∉ value

namespace Attr

def render (a : Attr) : Bytes :=
  a.before.bytes ++ (a.key.bytes ++ (a.beforeEq.bytes ++ (0x3d :: (a.afterEq.bytes ++
    (a.quote :: (a.value ++ [a.quote]))))))

/-- Key and value, as written. -/
def pair (a : Attr) : Bytes × Bytes := (a.key.bytes, a.value)

end Attr

/-- The inside of a start tag. -/
structure Tag where
  name : Name
  attrs : List Attr
  space : Space

namespace Tag

/-- What follows the name. -/
def rest (tag : Tag) : Bytes := tag.attrs.flatMap Attr.render ++ tag.space.bytes

/-- `<name attributes>` -/
def renderStart (tag : Tag) : Bytes := 0x3c :: (tag.name.bytes ++ (tag.rest ++ [0x3e]))

/-- `<name attributes/>` -/
def renderEmpty (tag : Tag) : Bytes := 0x3c :: (tag.name.bytes ++ (tag.rest ++ [0x2f, 0x3e]))

/-- `</name space>` -/
def renderEnd (tag : Tag) (space : Space) : Bytes :=
  0x3c :: 0x2f :: (tag.name.bytes ++ (space.bytes ++ [0x3e]))

/-- The namespace declarations the tag makes. -/
def declarations (quickXml : Bytes → Option Bytes) (tag : Tag) : List (Option Bytes × Bytes) :=
  (tag.attrs.map Attr.pair).filterMap (declaration quickXml)

end Tag

/-- What stands beside elements: text, comments, CDATA sections, processing
instructions.  The XML declaration and a byte order mark are such. -/
inductive Aside where
  | text (bytes : Bytes) (noTag : 0x3c ∉ bytes)
  | comment (body : Bytes) (closed : ¬ utf8 "-->" <:+: body)
  | cdata (body : Bytes) (closed : ¬ utf8 "]]>" <:+: body)
  | pi (body : Bytes) (closed : ¬ utf8 "?>" <:+: body)

def Aside.render : Aside → Bytes
  | .text bytes _ => bytes
  | .comment body _ => utf8 "<!--" ++ (body ++ utf8 "-->")
  | .cdata body _ => utf8 "<![CDATA[" ++ (body ++ utf8 "]]>")
  | .pi body _ => utf8 "<?" ++ (body ++ utf8 "?>")

/-- The content of an element: its first piece, and the rest of it. -/
inductive Content where
  | nil
  | aside (a : Aside) (rest : Content)
  /-- `<tag/>` -/
  | empty (tag : Tag) (rest : Content)
  /-- `<tag>children</name space>` -/
  | element (tag : Tag) (children : Content) (space : Space) (rest : Content)

def Content.render : Content → Bytes
  | .nil => []
  | .aside a rest => a.render ++ rest.render
  | .empty tag rest => tag.renderEmpty ++ rest.render
  | .element tag children space rest =>
    tag.renderStart ++ (children.render ++ (tag.renderEnd space ++ rest.render))

/-- The root element: `none` for `<tag/>`. -/
structure Root where
  tag : Tag
  content : Option (Content × Space)

def Root.render (root : Root) : Bytes :=
  match root.content with
  | none => root.tag.renderEmpty
  | some (children, space) =>
    root.tag.renderStart ++ (children.render ++ root.tag.renderEnd space)

structure Document where
  before : List Aside
  root : Root
  after : List Aside

def Document.render (doc : Document) : Bytes :=
  doc.before.flatMap Aside.render ++ (doc.root.render ++ doc.after.flatMap Aside.render)

/-! ## The walk -/

/-- A feature of a document: where it starts, and its bytes from its `<` to the
`>` of its end tag. -/
structure Feature where
  offset : Nat
  bytes : Bytes
  deriving DecidableEq, Repr

/-- What the walk finds: an element that holds features (a member element or a
collection), or a feature. -/
inductive Found where
  | container
  | feature (f : Feature)
  deriving DecidableEq, Repr

/-- The feature, unless it is an element that holds features. -/
def Found.feature? : Found → Option Feature
  | .container => none
  | .feature f => some f

section

variable (quickXml : Bytes → Option Bytes) (options : SplitterOptions) (closed : QName → Bool)

/-- An element named by a member rule. -/
def isMember (name : QName) : Bool := options.memberRules.any fun rule => rule.element == name

/-- A feature, if the layer filter keeps it. -/
def foundFeature (name : QName) (offset : Nat) (bytes : Bytes) : List Found :=
  if wantedIn options name then [.feature ⟨offset, bytes⟩] else []

/-- An element outside features that the walk enters. -/
def foundContainer (name : QName) : List Found :=
  if isMember options name || isCollection name then [.container] else []

/-- What an element of a content is or holds: `members` says that its parent is
a member element, `inside` is what its content holds when it is entered. -/
def foundElement (name : Option QName) (members : Bool) (offset : Nat) (bytes : Bytes)
    (inside : QName → List Found) : List Found :=
  match name with
  | none => []
  | some name =>
    if members && !isCollection name then foundFeature options name offset bytes
    else if closed name then []
    else foundContainer options name ++ inside name

/-- The walk over a content that starts at `offset`, in the scope of
declarations `scope`, the innermost last. -/
def Content.walk : List (Option Bytes × Bytes) → Bool → Nat → Content → List Found
  | _, _, _, .nil => []
  | scope, members, offset, .aside a rest =>
    rest.walk scope members (offset + a.render.length)
  | scope, members, offset, .empty tag rest =>
    let name := resolveIn (scope ++ tag.declarations quickXml) tag.name.bytes true
    foundElement options closed name members offset tag.renderEmpty (fun _ => []) ++
      rest.walk scope members (offset + tag.renderEmpty.length)
  | scope, members, offset, .element tag children space rest =>
    let inner := scope ++ tag.declarations quickXml
    let name := resolveIn inner tag.name.bytes true
    let bytes := tag.renderStart ++ (children.render ++ tag.renderEnd space)
    foundElement options closed name members offset bytes (fun name =>
        children.walk inner (isMember options name) (offset + tag.renderStart.length)) ++
      rest.walk scope members (offset + bytes.length)

namespace Document

/-- Where the root starts. -/
def rootOffset (doc : Document) : Nat := (doc.before.flatMap Aside.render).length

/-- The root's name. -/
def rootName (doc : Document) : Option QName :=
  resolveIn (doc.root.tag.declarations quickXml) doc.root.tag.name.bytes true

/-- What the walk finds from the root on.  The root is entered whatever it
is. -/
def found (doc : Document) : List Found :=
  match doc.rootName quickXml with
  | none => []
  | some name =>
    foundContainer options name ++
      match doc.root.content with
      | none => []
      | some (children, _) =>
        children.walk quickXml options closed (doc.root.tag.declarations quickXml)
          (isMember options name) (doc.rootOffset + doc.root.tag.renderStart.length)

/-- The features of a document: those the walk finds, or the root itself when
that is allowed and nothing in the document holds features. -/
def features (doc : Document) : List Feature :=
  if options.allowSingleFeatureRoot ∧ .container ∉ doc.found quickXml options closed then
    match doc.rootName quickXml with
    | none => []
    | some name => if wantedIn options name then [⟨doc.rootOffset, doc.root.render⟩] else []
  else (doc.found quickXml options closed).filterMap Found.feature?

end Document

end

/-! ## What chunks say of features -/

/-- Where the features of a chunk start in its buffer, from `inChunk` on, and
where they start in the stream. -/
def offsetsFrom : Nat → List Feature → List FeatureOffset
  | _, [] => []
  | inChunk, f :: rest => ⟨inChunk, f.offset⟩ :: offsetsFrom (inChunk + f.bytes.length) rest

/-- A chunk holds exactly the features `part`, after `before` features in the
chunks before it. -/
structure Describes (before : Nat) (part : List Feature) (chunk : FeatureChunk) : Prop where
  bytes : chunk.bytes = part.flatMap Feature.bytes
  offsets : chunk.featureOffsets = offsetsFrom 0 part
  count : chunk.features = part.length
  first : chunk.firstFeatureSeq = before
  start : part.head?.map Feature.offset = some chunk.byteOffset

/-- The chunks hold the features, each once and in order; `before` features
came in earlier chunks. -/
inductive Cover : Nat → List Feature → List FeatureChunk → Prop where
  | nil (before : Nat) : Cover before [] []
  | cons {before : Nat} {part rest : List Feature} {chunk : FeatureChunk}
      {chunks : List FeatureChunk} (here : Describes before part chunk)
      (there : Cover (before + part.length) rest chunks) :
      Cover before (part ++ rest) (chunk :: chunks)

end Xeibe

import Xeibe.Core.Splitter.Document

/-!
# The reader of a chunk

`xeibe-core/src/reader.rs`: `GmlReader` on top of quick-xml's `NsReader`, as
far as names go.  quick-xml is not part of the repository.  Its events are the
tags in their order, `<a/>` as a start and an end; its resolver binds every
declaration of a tag to the attribute value as written, the innermost counts,
and binding `xml` or `xmlns` against the rules is an error.

Left out: text, which does not touch the resolver (an event read ahead while
text is merged is returned before another is read), positions, and the cache of
names, which shares allocations.
-/

namespace Xeibe

def ns.XMLNS : Bytes := utf8 "http://www.w3.org/2000/xmlns/"

/-! ## quick-xml's resolver -/

/-- `NamespaceResolver`: the bindings, the innermost last, and for every open
element how many there were before it, the innermost first. -/
structure Resolver where
  bindings : List (Option Bytes × Bytes)
  levels : List Nat

/-- `ResolveResult`. -/
inductive ResolveResult where
  | unbound
  | bound (ns : Bytes)
  | unknown (pre : Bytes)
  deriving DecidableEq, Repr

/-- The prefix and the local name of a name as written. -/
def splitName (raw : Bytes) : Option Bytes × Bytes :=
  match splitOnce 0x3a raw with
  | some (pre, localName) => (some pre, localName)
  | none => (none, raw)

/-- The declaration breaks the rules for `xml` and `xmlns`. -/
def misuses (declaration : Option Bytes × Bytes) : Bool :=
  match declaration.1 with
  | none => false
  | some pre =>
    if pre = utf8 "xml" then declaration.2 != ns.XML
    else pre == utf8 "xmlns" || declaration.2 == ns.XML || declaration.2 == ns.XMLNS

namespace Resolver

def default : Resolver where
  bindings := [(some (utf8 "xml"), ns.XML), (some (utf8 "xmlns"), ns.XMLNS)]
  levels := []

/-- `xml` keeps the binding it has. -/
def add (r : Resolver) (declaration : Option Bytes × Bytes) : Option Resolver :=
  if misuses declaration then none
  else if declaration.1 = some (utf8 "xml") then some r
  else some { r with bindings := r.bindings ++ [declaration] }

/-- The declarations of a start tag come into scope. -/
def push (r : Resolver) (declarations : List (Option Bytes × Bytes)) : Option Resolver :=
  declarations.foldlM add { r with levels := r.bindings.length :: r.levels }

/-- Those of the innermost open element go out of scope. -/
def pop (r : Resolver) : Resolver :=
  match r.levels with
  | [] => r
  | level :: levels => { bindings := r.bindings.take level, levels }

/-- A name without a prefix takes the default namespace if it is an element's. -/
def resolve (r : Resolver) (raw : Bytes) (element : Bool) : ResolveResult :=
  let pre := (splitName raw).1
  if pre.isNone && !element then .unbound
  else
    let missing : ResolveResult := match pre with
      | none => .unbound
      | some pre => .unknown pre
    match r.bindings.reverse.find? (fun binding => binding.1 = pre) with
    | some (_, uri) => if uri.isEmpty then missing else .bound uri
    | none => missing

end Resolver

/-! ## Events -/

/-- What quick-xml reads. -/
inductive RawEvent where
  | start (tag : Tag)
  | endTag

def Content.events : Content → List RawEvent
  | .nil => []
  | .aside _ rest => rest.events
  | .empty tag rest => .start tag :: .endTag :: rest.events
  | .element tag children _ rest => .start tag :: (children.events ++ .endTag :: rest.events)

/-- The events of an element. -/
def Root.events (element : Root) : List RawEvent :=
  match element.content with
  | none => [.start element.tag, .endTag]
  | some (children, _) => .start element.tag :: (children.events ++ [.endTag])

/-- What `next_event` returns: an element's name, and its attributes with their
names. -/
inductive XmlEvent where
  | start (name : QName) (attrs : List (QName × Bytes))
  | endTag (name : QName)
  deriving DecidableEq, Repr

inductive ReaderError where
  /-- quick-xml's, for a declaration that misuses `xml` or `xmlns`. -/
  | namespaceMisuse
  | undeclaredPrefix (pre raw : Bytes)
  /-- quick-xml's, for an end tag without a start tag. -/
  | unmatchedEnd
  deriving DecidableEq, Repr

/-! ## The reader -/

/-- The declarations of a tag, as written. -/
def Tag.written (tag : Tag) : List (Option Bytes × Bytes) := tag.declarations some

/-- The attributes that are no declarations, as written. -/
def Tag.attributes (tag : Tag) : List (Bytes × Bytes) :=
  (tag.attrs.map Attr.pair).filter fun attr => !Splitter.isDeclarationKey attr.1

structure GmlReader where
  resolver : Resolver
  /-- The element that ended last goes out of scope with the next read. -/
  pendingPop : Bool
  /-- Names of the open elements, so an end tag needs no lookup. -/
  opened : List QName

namespace GmlReader

/-- A declaration of the context that misuses `xml` or `xmlns` is ignored. -/
def new (context : NamespaceContext) : GmlReader where
  resolver := context.bindings.foldl (fun r b => (r.add b).getD r) Resolver.default
  pendingPop := false
  opened := []

def forChunk (chunk : FeatureChunk) : GmlReader := new chunk.namespaces.val

def popPending (r : GmlReader) : GmlReader :=
  if r.pendingPop then { r with resolver := r.resolver.pop, pendingPop := false } else r

def resolveElement (resolver : Resolver) (raw : Bytes) : Except ReaderError QName :=
  match resolver.resolve raw true with
  | .unbound => .ok ⟨none, (splitName raw).2⟩
  | .bound uri => .ok ⟨some uri, (splitName raw).2⟩
  | .unknown pre => .error (.undeclaredPrefix pre raw)

/-- An attribute with an undeclared prefix is skipped. -/
def resolveAttribute (resolver : Resolver) (raw : Bytes) : Option QName :=
  match resolver.resolve raw false with
  | .unbound => some ⟨none, (splitName raw).2⟩
  | .bound uri => some ⟨some uri, (splitName raw).2⟩
  | .unknown _ => none

/-- `Attributes::iter`. -/
def attributes (quickXml : Bytes → Option Bytes) (resolver : Resolver) (tag : Tag) :
    List (QName × Bytes) :=
  tag.attributes.filterMap fun attr =>
    (resolveAttribute resolver attr.1).map fun name => (name, unescape quickXml attr.2)

def nextEvent (quickXml : Bytes → Option Bytes) (r : GmlReader) :
    RawEvent → Except ReaderError (XmlEvent × GmlReader)
  | .start tag =>
    let r := r.popPending
    match r.resolver.push tag.written with
    | none => .error .namespaceMisuse
    | some resolver => do
      let name ← resolveElement resolver tag.name.bytes
      .ok (.start name (attributes quickXml resolver tag),
        { r with resolver, opened := name :: r.opened })
  | .endTag =>
    let r := r.popPending
    match r.opened with
    | [] => .error .unmatchedEnd
    | name :: opened => .ok (.endTag name, { r with pendingPop := true, opened })

/-- `next_event` until an error. -/
def read (quickXml : Bytes → Option Bytes) (r : GmlReader) :
    List RawEvent → Except ReaderError (List XmlEvent × GmlReader)
  | [] => .ok ([], r)
  | event :: events => do
    let (event, r) ← r.nextEvent quickXml event
    let (events, r) ← r.read quickXml events
    .ok (event :: events, r)

end GmlReader

end Xeibe

import Xeibe.Core.Reader.Scope

/-!
# The reader of a whole input

`GmlReader` on everything quick-xml reads: tags, text, references, and the end
of the input or the error at which it stops.  quick-xml is the parameter
`QuickXml`, and `QuickXml.Reads` what it does with a document and with a first
part of it: the tags before the break are read, and no more.

Left out: the text itself, which no walk over events looks at.  It is not merged
here, so what follows it is read with the next call.
-/

namespace Xeibe

/-- An event of quick-xml, empty elements expanded. -/
inductive Event where
  | tag (event : RawEvent)
  | text (bytes : Bytes)
  | cdata (bytes : Bytes)
  /-- `&name;` -/
  | reference (name : Bytes)
  | docType
  /-- Comment, processing instruction or XML declaration. -/
  | other

/-- How quick-xml's events end. -/
inductive EventsEnd where
  | eof
  | failed (message : String)
  deriving DecidableEq, Repr

structure QuickXml where
  /-- All events of an input. -/
  events : Bytes → List Event × EventsEnd
  /-- `escape::unescape`. -/
  unescape : Bytes → Option Bytes
  /-- `resolve_char_ref`: `none` where it is no character reference. -/
  charRef : Bytes → Except String (Option Bytes)

/-! ## The reader -/

inductive ReadError where
  /-- quick-xml's. -/
  | syntaxError (message : String)
  | names (error : ReaderError)
  | dtdNotSupported
  | badReference (message : String)
  | undefinedEntity (name : Bytes)
  | unexpectedEndInElement
  | unexpectedEnd
  deriving DecidableEq, Repr

/-- What `next_event` returns. -/
inductive NextEvent where
  | element (event : XmlEvent)
  | text
  | eof
  deriving DecidableEq, Repr

/-- The reader, and the events it has yet to read. -/
structure EventReader where
  names : GmlReader
  events : List Event
  ending : EventsEnd

namespace GmlReader

/-- quick-xml's part of a start tag: its declarations come into scope. -/
def enter (r : GmlReader) (tag : Tag) : Except ReaderError GmlReader :=
  let r := r.popPending
  match r.resolver.push tag.written with
  | none => .error .namespaceMisuse
  | some resolver => .ok { r with resolver }

/-- quick-xml's part of an end tag: the scope ends with the next read. -/
def leave (r : GmlReader) : GmlReader := { r.popPending with pendingPop := true }

end GmlReader

namespace EventReader

def new (q : QuickXml) (input : Bytes) : EventReader where
  names := GmlReader.new NamespaceContext.new
  events := (q.events input).1
  ending := (q.events input).2

/-- The five predefined entities. -/
def PREDEFINED : List Bytes := [utf8 "amp", utf8 "lt", utf8 "gt", utf8 "quot", utf8 "apos"]

/-- Character references and the predefined entities; anything else is an
error. -/
def expandReference (q : QuickXml) (name : Bytes) : Except ReadError Unit :=
  match q.charRef name with
  | .ok (some _) => .ok ()
  | .error message => .error (.badReference message)
  | .ok none => if PREDEFINED.contains name then .ok () else .error (.undefinedEntity name)

/-- `next_event`, from the events that are left. -/
def next (q : QuickXml) (names : GmlReader) (ending : EventsEnd) :
    List Event → Except ReadError (NextEvent × EventReader)
  | [] =>
    match ending with
    | .eof => .ok (.eof, ⟨names, [], ending⟩)
    | .failed message => .error (.syntaxError message)
  | .tag event :: events =>
    match names.nextEvent q.unescape event with
    | .error e => .error (.names e)
    | .ok (event, names) => .ok (.element event, ⟨names, events, ending⟩)
  | .text _ :: events => .ok (.text, ⟨names, events, ending⟩)
  | .cdata _ :: events => .ok (.text, ⟨names, events, ending⟩)
  | .reference name :: events => do
    expandReference q name
    .ok (.text, ⟨names, events, ending⟩)
  | .docType :: _ => .error .dtdNotSupported
  | .other :: events => next q names ending events

def nextEvent (q : QuickXml) (r : EventReader) : Except ReadError (NextEvent × EventReader) :=
  next q r.names r.ending r.events

/-- `skip_element`, with `depth` elements open in the current one. -/
def skip (ending : EventsEnd) : Nat → GmlReader → List Event → Except ReadError EventReader
  | _, _, [] =>
    match ending with
    | .eof => .error .unexpectedEndInElement
    | .failed message => .error (.syntaxError message)
  | depth, names, .tag (.start tag) :: events =>
    match names.enter tag with
    | .error e => .error (.names e)
    | .ok names => skip ending (depth + 1) names events
  | 0, names, .tag .endTag :: events =>
    .ok ⟨{ names.leave with opened := names.opened.tail }, events, ending⟩
  | depth + 1, names, .tag .endTag :: events => skip ending depth names.leave events
  | _, _, .docType :: _ => .error .dtdNotSupported
  | depth, names, .text _ :: events => skip ending depth names events
  | depth, names, .cdata _ :: events => skip ending depth names events
  | depth, names, .reference _ :: events => skip ending depth names events
  | depth, names, .other :: events => skip ending depth names events

/-- Skip the current element and its subtree without resolving names. -/
def skipElement (r : EventReader) : Except ReadError EventReader :=
  skip r.ending 0 r.names r.events

end EventReader

/-! ## The events of a document -/

/-- The text up to the next reference, if there is any. -/
def textEvent (bytes : Bytes) : List Event := if bytes.isEmpty then [] else [.text bytes]

/-- Text and the references in it. -/
def textEvents (bytes : Bytes) : List Event :=
  match bytes.splitOn 0x26 with
  | [] => []
  | first :: pieces => textEvent first ++ pieces.flatMap fun piece =>
    match splitOnce 0x3b piece with
    | some (name, text) => .reference name :: textEvent text
    | none => []

def Aside.events : Aside → List Event
  | .text bytes _ => textEvents bytes
  | .comment .. => [.other]
  | .cdata body _ => [.cdata body]
  | .pi .. => [.other]

/-- The events of a content that starts at `offset`, each with where it has been
read to its end. -/
def Content.placedEvents : Nat → Content → List (Event × Nat)
  | _, .nil => []
  | offset, .aside a rest =>
    let stop := offset + a.render.length
    a.events.map (·, stop) ++ rest.placedEvents stop
  | offset, .empty tag rest =>
    let stop := offset + tag.renderEmpty.length
    (.tag (.start tag), stop) :: (.tag .endTag, stop) :: rest.placedEvents stop
  | offset, .element tag children space rest =>
    let inside := offset + tag.renderStart.length
    let stop := inside + children.render.length + (tag.renderEnd space).length
    (.tag (.start tag), inside) ::
      (children.placedEvents inside ++ (.tag .endTag, stop) :: rest.placedEvents stop)

/-- The events of asides that start at `offset`. -/
def asideEvents : Nat → List Aside → List (Event × Nat)
  | _, [] => []
  | offset, a :: rest =>
    a.events.map (·, offset + a.render.length) ++ asideEvents (offset + a.render.length) rest

def Root.placedEvents (offset : Nat) (root : Root) : List (Event × Nat) :=
  let stop := offset + root.render.length
  match root.content with
  | none => [(.tag (.start root.tag), stop), (.tag .endTag, stop)]
  | some (children, _) =>
    let inside := offset + root.tag.renderStart.length
    (.tag (.start root.tag), inside) :: (children.placedEvents inside ++ [(.tag .endTag, stop)])

namespace Document

/-- The events of a document, each with where it ends. -/
def placedEvents (doc : Document) : List (Event × Nat) :=
  asideEvents 0 doc.before ++
    (doc.root.placedEvents doc.rootOffset ++
      asideEvents (doc.rootOffset + doc.root.render.length) doc.after)

def events (doc : Document) : List Event := doc.placedEvents.map Prod.fst

/-- The events that end in the first `n` bytes. -/
def eventsWithin (doc : Document) (n : Nat) : List Event :=
  (doc.placedEvents.takeWhile fun e => e.2 ≤ n).map Prod.fst

end Document

/-- Text, a CDATA section or a reference. -/
def Event.isText : Event → Bool
  | .text _ | .cdata _ | .reference _ => true
  | .tag _ | .docType | .other => false

theorem textEvents_isText (bytes : Bytes) : ∀ e ∈ textEvents bytes, e.isText = true := by
  have htext : ∀ bytes, ∀ e ∈ textEvent bytes, e.isText = true := by
    intro bytes e he
    unfold textEvent at he
    split at he
    · cases he
    · rw [List.mem_singleton] at he
      rw [he]
      rfl
  intro e he
  unfold textEvents at he
  split at he
  · cases he
  · rw [List.mem_append, List.mem_flatMap] at he
    rcases he with he | ⟨piece, -, he⟩
    · exact htext _ e he
    · split at he
      · rw [List.mem_cons] at he
        rcases he with he | he
        · rw [he]
          rfl
        · exact htext _ e he
      · cases he

theorem Aside.events_isText (a : Aside) : ∀ e ∈ a.events, e.isText = true ∨ e = .other := by
  cases a with
  | text bytes => exact fun e he => .inl (textEvents_isText bytes e he)
  | comment body => exact fun e he => .inr (List.mem_singleton.1 he)
  | cdata body => exact fun e he => .inl (by rw [List.mem_singleton.1 he]; rfl)
  | pi body => exact fun e he => .inr (List.mem_singleton.1 he)

/-- What quick-xml reads of a document: its events, and of a first part those
that end in it, with what there is of a text that goes on. -/
structure QuickXml.Reads (q : QuickXml) (doc : Document) : Prop where
  whole : q.events doc.render = (doc.events, .eof)
  cutOff : ∀ n < doc.render.length, ∃ text ending, (∀ e ∈ text, e.isText = true) ∧
    q.events (doc.render.take n) = (doc.eventsWithin n ++ text, ending)

end Xeibe

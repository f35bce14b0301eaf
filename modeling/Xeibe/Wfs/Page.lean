import Xeibe.Wfs.Inspected

/-!
# Well-formed pages

A `Page` is a well-formed response.  Inspecting it gives what the walk over its
tree makes of the root's attributes, and it is complete
(`inspect_collection`, `inspect_bare`).  The root is read, and what follows is
walked, in any part of the page that holds the root's start tag (`inspect_root`).
-/

namespace Xeibe.Wfs.Inspect

/-- A well-formed response: a document in UTF-8, with or without a byte order
mark, that keeps to the rules of namespaces and references and is no exception
report. -/
structure Page (outside : Outside) where
  doc : Document
  marked : Bool
  root : QName
  attrs : List (QName × Bytes)
  named : doc.root.tag.startIn outside.quickXml.unescape doc.root.tag.written = some (root, attrs)
  noReport : Outside.isReport root.localName = false
  declared : ∀ t ∈ doc.root.tags, t.Declared outside.quickXml.unescape
  before : ∀ a ∈ doc.before, Defined outside.quickXml a
  inside : ∀ children space, doc.root.content = some (children, space) →
    ∀ a ∈ asides children, Defined outside.quickXml a
  /-- The mark is not part of the document. -/
  unmarked : utf8Mark.isPrefixOf doc.render = false
  encoding : marked = false → detectCompression doc.render = .none ∧
    detectEncoding outside.decoders.forLabel doc.render = .utf8
  reads : outside.quickXml.Reads doc

theorem utf8_marked (outside : Outside) (text : Bytes) :
    outside.utf8 (utf8Mark ++ text) = .ok text := by
  have hmark : ∀ more, utf8Mark.isPrefixOf (utf8Mark ++ more) = true :=
    fun more => List.isPrefixOf_iff_prefix.2 (List.prefix_append _ _)
  have hcompression : detectCompression (utf8Mark ++ text) = .none := by
    have hzip : utf8 "PK" = [0x50, 0x4b] := by decide
    simp [detectCompression, utf8Mark, hzip]
  have hstart : (utf8Mark ++ text).take DECLARATION_LEN =
      utf8Mark ++ text.take (DECLARATION_LEN - utf8Mark.length) := by
    rw [List.take_append]
    rfl
  unfold Outside.utf8 Decoders.decodedReader Decoders.decompressed
  rw [if_neg (by simp [hmark]), hcompression]
  simp only [bind, Except.bind, hstart, sniffEncoding, forBom, hmark, if_true, Except.mapError,
    Option.getD_some, List.drop_left]

/-! ## The root -/

/-- The content of the root: none for `<tag/>`. -/
def childrenOf (root : Root) : Content :=
  match root.content with
  | none => .nil
  | some (children, _) => children

theorem root_events (root : Root) (offset : Nat) :
    ∃ inside, (root.placedEvents offset).map Prod.fst = .tag (.start root.tag) ::
      (((childrenOf root).placedEvents inside).map Prod.fst ++ [.tag .endTag]) := by
  unfold Root.placedEvents childrenOf
  cases root.content with
  | none => exact ⟨0, rfl⟩
  | some content =>
    refine ⟨offset + root.tag.renderStart.length, ?_⟩
    dsimp only
    rw [List.map_cons, List.map_append]
    rfl

theorem root_tags (root : Root) :
    root.tags = ⟨root.tag.written, root.tag⟩ :: (childrenOf root).tags root.tag.written := by
  unfold Root.tags childrenOf
  cases root.content with
  | none => rfl
  | some content => rfl

theorem new_inScope : (GmlReader.new NamespaceContext.new).InScope [] := by
  have hbindings := new_bindings NamespaceContext.new
  unfold GmlReader.InScope
  rw [GmlReader.popPending_of_not rfl, hbindings]
  exact (List.append_nil _).symm

section

variable {outside : Outside} {names : GmlReader} {ending : EventsEnd} {events : List Event}

/-- What is before the root is passed over. -/
theorem readRoot_beside {first : List Event} (hfirst : ∀ e ∈ first, e.isText = true ∨ e = .other)
    (hdefined : ∀ name, Event.reference name ∈ first →
      EventReader.expandReference outside.quickXml name = .ok ()) :
    ∀ fuel, (first ++ events).length < fuel → ∃ fuel', 0 < fuel' ∧
      outside.readRoot fuel ⟨names, first ++ events, ending⟩ =
        outside.readRoot fuel' ⟨names, events, ending⟩ := by
  induction first with
  | nil => exact fun fuel hfuel => ⟨fuel, by omega, rfl⟩
  | cons event first ih =>
    intro fuel hfuel
    rw [List.forall_mem_cons] at hfirst
    rw [List.cons_append, List.length_cons] at hfuel
    obtain ⟨n, rfl⟩ : ∃ n, fuel = n + 1 := ⟨fuel - 1, by omega⟩
    have hrest := ih hfirst.2 fun name hname => hdefined name (List.mem_cons_of_mem _ hname)
    cases event with
    | tag event => exact absurd hfirst.1 (by simp [Event.isText])
    | docType => exact absurd hfirst.1 (by simp [Event.isText])
    | text bytes => exact hrest n (by omega)
    | cdata bytes => exact hrest n (by omega)
    | reference name =>
      obtain ⟨fuel', hpos, hread⟩ := hrest n (by omega)
      refine ⟨fuel', hpos, ?_⟩
      rw [← hread, List.cons_append, Outside.readRoot]
      unfold EventReader.nextEvent EventReader.next
      rw [hdefined name List.mem_cons_self]
      rfl
    | other => exact hrest (n + 1) (by omega)

/-- The root is named like its tag, if it has a name. -/
theorem rootNameOf_beside {first : List Event} {tag : Tag} {name : Option Bytes × Bytes}
    (hfirst : ∀ e ∈ first, e.isText = true ∨ e = .other)
    (h : Outside.rootNameOf (first ++ .tag (.start tag) :: events) = some name) :
    name.2 = (splitName tag.name.bytes).2 := by
  induction first with
  | nil =>
    rw [List.nil_append, Outside.rootNameOf] at h
    obtain ⟨resolver, -, hname⟩ := Option.map_eq_some_iff.1 h
    rw [← hname]
  | cons event first ih =>
    rw [List.forall_mem_cons] at hfirst
    rw [List.cons_append] at h
    cases event with
    | tag event => exact absurd hfirst.1 (by simp [Event.isText])
    | docType => exact absurd hfirst.1 (by simp [Event.isText])
    | text bytes =>
      rw [Outside.rootNameOf] at h
      split at h
      · exact ih hfirst.2 h
      · cases h
    | cdata bytes => exact ih hfirst.2 h
    | reference name => exact ih hfirst.2 h
    | other => exact ih hfirst.2 h

end

/-! ## Inspecting -/

theorem localName_resolveIn {scope : List (Option Bytes × Bytes)} {raw : Bytes} {element : Bool}
    {name : QName} (h : resolveIn scope raw element = some name) :
    name.localName = (splitName raw).2 := by
  rw [resolveIn_eq] at h
  split at h
  · rw [← Option.some.inj h]
  split at h
  · rw [← Option.some.inj h]
  · unfold named at h
    split at h
    · split at h
      · rw [← Option.some.inj h]
      · cases h
    · rw [← Option.some.inj h]

namespace Page

variable {outside : Outside} (page : Page outside)

def mark : Bytes := if page.marked then utf8Mark else []

def bytes : Bytes := page.mark ++ page.doc.render

theorem root_splitName : (splitName page.doc.root.tag.name.bytes).2 = page.root.localName := by
  have hnamed := page.named
  unfold Tag.startIn at hnamed
  simp only [bind, Option.bind_eq_some_iff, Option.some.injEq, Prod.mk.injEq] at hnamed
  obtain ⟨name, hname, -, -, hroot, -⟩ := hnamed
  rw [← localName_resolveIn hname, hroot]

/-- What the counts start from. -/
def attributes : ResponseInfo := page.attrs.foldl ResponseInfo.readAttribute .default

/-- The events up to the root's start tag. -/
def prolog : List Event := page.doc.before.flatMap Aside.events

theorem prolog_isText : ∀ e ∈ page.prolog, e.isText = true ∨ e = .other := by
  intro e he
  obtain ⟨a, -, hevent⟩ := List.mem_flatMap.1 he
  exact a.events_isText e hevent

theorem prolog_defined (name : Bytes) (h : Event.reference name ∈ page.prolog) :
    EventReader.expandReference outside.quickXml name = .ok () := by
  obtain ⟨a, ha, hevent⟩ := List.mem_flatMap.1 h
  exact page.before a ha name hevent

section

variable {bytes text : Bytes} {events : List Event} {ending : EventsEnd}

theorem exceptionReport_eq_none (hutf8 : outside.utf8 bytes = .ok text)
    (hevents : outside.quickXml.events text =
      (page.prolog ++ .tag (.start page.doc.root.tag) :: events, ending)) :
    outside.exceptionReport bytes = none := by
  unfold Outside.exceptionReport
  rw [hutf8]
  simp only [Except.toOption, bind, Option.bind_some, hevents]
  cases hroot : Outside.rootNameOf (page.prolog ++ .tag (.start page.doc.root.tag) :: events) with
  | none => rfl
  | some name =>
    have hname := rootNameOf_beside page.prolog_isText hroot
    rw [Option.bind_some, hname, page.root_splitName, page.noReport]
    rfl

/-- The root is read, and its content walked. -/
theorem inspect_root (hutf8 : outside.utf8 bytes = .ok text)
    (hevents : outside.quickXml.events text =
      (page.prolog ++ .tag (.start page.doc.root.tag) :: events, ending)) :
    ∃ within : GmlReader, within.InScope page.doc.root.tag.written ∧
      within.opened = [page.root] ∧
      outside.inspect bytes =
        match outside.walkRoot page.root ⟨within, events, ending⟩ page.attributes with
        | (info, .ok _) => .ok (.features { info with complete := true })
        | (info, .error error) =>
          if endsWithEndTag text page.root.localName then .error (.reader error)
          else .ok (.features { info with complete := false }) := by
  have hrules := (page.declared _ (root_tags page.doc.root ▸ List.mem_cons_self)).rules
  obtain ⟨within, hread, hin, hopened⟩ :=
    @GmlReader.nextEvent_start_declared _ page.doc.root.tag [] outside.quickXml.unescape page.root
      page.attrs new_inScope hrules page.named
  refine ⟨within, hin.scope, hopened, ?_⟩
  obtain ⟨fuel, hpos, hroot⟩ := @readRoot_beside outside (GmlReader.new NamespaceContext.new) ending
    (.tag (.start page.doc.root.tag) :: events) page.prolog page.prolog_isText page.prolog_defined
    ((page.prolog ++ .tag (.start page.doc.root.tag) :: events).length + 1) (Nat.lt_succ_self _)
  obtain ⟨n, rfl⟩ : ∃ n, fuel = n + 1 := ⟨fuel - 1, by omega⟩
  have hstart : outside.readRoot (n + 1) ⟨GmlReader.new NamespaceContext.new,
      .tag (.start page.doc.root.tag) :: events, ending⟩ =
      .ok ((page.root, page.attrs), ⟨within, events, ending⟩) := by
    rw [Outside.readRoot]
    unfold EventReader.nextEvent EventReader.next
    rw [hread]
  unfold Outside.inspect
  have hreport := page.exceptionReport_eq_none hutf8 hevents
  simp only [hreport, hutf8, Except.mapError, bind, Except.bind, EventReader.new, hevents, hroot,
    hstart, attributes] <;> rfl

end

/-! ### The whole page -/

theorem utf8_bytes : outside.utf8 page.bytes = .ok page.doc.render := by
  unfold bytes mark
  cases hmarked : page.marked with
  | true => exact utf8_marked outside page.doc.render
  | false =>
    obtain ⟨hcompression, hencoding⟩ := page.encoding hmarked
    unfold Outside.utf8
    simp [hcompression, hencoding, page.unmarked]

/-- The events after the root. -/
def epilog : List Event :=
  (asideEvents (page.doc.rootOffset + page.doc.root.render.length) page.doc.after).map Prod.fst

/-- What follows the root's start tag. -/
def rest (inside : Nat) : List Event :=
  ((childrenOf page.doc.root).placedEvents inside).map Prod.fst ++ .tag .endTag :: page.epilog

theorem render_events : ∃ inside, outside.quickXml.events page.doc.render =
    (page.prolog ++ .tag (.start page.doc.root.tag) :: page.rest inside, .eof) := by
  obtain ⟨inside, hroot⟩ := root_events page.doc.root page.doc.rootOffset
  refine ⟨inside, ?_⟩
  rw [page.reads.whole]
  unfold Document.events Document.placedEvents
  rw [List.map_append, List.map_append, asideEvents_events, hroot, List.cons_append,
    List.append_assoc]
  rfl

theorem declared_inside : ∀ t ∈ (childrenOf page.doc.root).tags page.doc.root.tag.written,
    t.Declared outside.quickXml.unescape :=
  fun t ht => page.declared t (root_tags page.doc.root ▸ List.mem_cons_of_mem _ ht)

theorem defined_inside : ∀ a ∈ asides (childrenOf page.doc.root), Defined outside.quickXml a := by
  unfold childrenOf
  cases hcontent : page.doc.root.content with
  | none => exact fun a ha => nomatch ha
  | some content => exact page.inside content.1 content.2 hcontent

/-- What the walk over the tree of the page makes of its attributes. -/
def info : ResponseInfo :=
  inspected outside.quickXml.unescape false page.doc.root.tag.written (childrenOf page.doc.root)
    page.attributes

theorem inspect_collection (hcollection : isCollection page.root = true) :
    outside.inspect page.bytes = .ok (.features { page.info with complete := true }) := by
  obtain ⟨inside, hevents⟩ := page.render_events
  obtain ⟨within, hscope, hopened, hinspect⟩ := page.inspect_root page.utf8_bytes hevents
  obtain ⟨done, hsame, hwalk⟩ := @walk_content outside.quickXml .eof (childrenOf page.doc.root) false
    within inside page.doc.root.tag.written page.attributes (.tag .endTag :: page.epilog) hscope
    page.declared_inside page.defined_inside
  obtain ⟨after, hend, -, -⟩ := @walks_endTag outside.quickXml false done .eof page.epilog page.info
    page.root [] (hsame.opened.trans hopened)
  have hwalked : outside.walkRoot page.root ⟨within, page.rest inside, .eof⟩ page.attributes =
      (page.info, .ok ⟨after, page.epilog, .eof⟩) := by
    unfold Outside.walkRoot
    rw [if_pos hcollection]
    exact (hwalk page.info _ hend).walked _ (Nat.lt_add_right _ (Nat.lt_succ_self _))
  rw [hinspect, hwalked]

theorem inspect_bare (hcollection : isCollection page.root = false) :
    outside.inspect page.bytes =
      .ok (.features { page.attributes with features := 1, complete := true }) := by
  obtain ⟨inside, hevents⟩ := page.render_events
  obtain ⟨within, hscope, hopened, hinspect⟩ := page.inspect_root page.utf8_bytes hevents
  obtain ⟨done, -, hskip⟩ := @skip_content (childrenOf page.doc.root) 0 within inside _ .eof
    (.tag .endTag :: page.epilog) hscope fun t ht => (page.declared_inside t ht).rules
  have hskipped : outside.walkRoot page.root ⟨within, page.rest inside, .eof⟩ page.attributes =
      ({ page.attributes with features := 1 },
        .ok ⟨{ done.leave with opened := done.opened.tail }, page.epilog, .eof⟩) := by
    unfold Outside.walkRoot EventReader.skipElement
    rw [hcollection, if_neg Bool.false_ne_true]
    exact congrArg _ hskip
  rw [hinspect, hskipped]

end Page

end Xeibe.Wfs.Inspect

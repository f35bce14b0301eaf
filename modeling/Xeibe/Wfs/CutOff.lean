import Xeibe.Core.Splitter.Correct
import Xeibe.Wfs.Page

/-!
# A page that breaks off

Of a part of a page that ends inside the root the walk fails, since no part of
the root's content closes the root.  The part is then taken for a malformed
document, and not for one that breaks off, exactly where its last tag closes an
element named like the root (`Page.inspect_cut`).
-/

namespace Xeibe.Wfs.Inspect

open Lib (level)

/-- An XML declaration ends before the root does begin. -/
theorem declaration_closed {asides : List Aside} {tail : Bytes} {b : UInt8} {more : Bytes}
    (htail : tail = 0x3c :: b :: more) (hb : b ≠ 0x3f)
    (h : utf8 "<?xml" <+: asides.flatMap Aside.render ++ tail) :
    utf8 "?>" <:+: (asides.flatMap Aside.render).drop (utf8 "<?xml").length := by
  have hxml : utf8 "<?xml" = [0x3c, 0x3f, 0x78, 0x6d, 0x6c] := by decide
  have hclose : utf8 "?>" = [0x3f, 0x3e] := by decide
  rw [hxml] at h ⊢
  induction asides with
  | nil =>
    rw [List.flatMap_nil, List.nil_append, htail, List.cons_prefix_cons, List.cons_prefix_cons] at h
    exact absurd h.2.1.symm hb
  | cons a asides ih =>
    rw [List.flatMap_cons] at h ⊢
    cases a with
    | text bytes noTag =>
      cases bytes with
      | nil => exact ih h
      | cons c bytes =>
        have hc : Aside.render (.text (c :: bytes) noTag) = c :: bytes := rfl
        rw [hc, List.cons_append, List.cons_append, List.cons_prefix_cons] at h
        exact absurd (h.1 ▸ List.mem_cons_self) noTag
    | comment body closed =>
      have hopen : Aside.render (.comment body closed) =
          0x3c :: 0x21 :: (utf8 "--" ++ (body ++ utf8 "-->")) := rfl
      rw [hopen, List.cons_append, List.cons_append, List.cons_append, List.cons_append,
        List.cons_prefix_cons, List.cons_prefix_cons] at h
      exact absurd h.2.1 (by decide)
    | cdata body closed =>
      have hopen : Aside.render (.cdata body closed) =
          0x3c :: 0x21 :: (utf8 "[CDATA[" ++ (body ++ utf8 "]]>")) := rfl
      rw [hopen, List.cons_append, List.cons_append, List.cons_append, List.cons_append,
        List.cons_prefix_cons, List.cons_prefix_cons] at h
      exact absurd h.2.1 (by decide)
    | pi body closed =>
      have hopen : Aside.render (.pi body closed) = 0x3c :: 0x3f :: (body ++ utf8 "?>") := rfl
      rw [hopen] at h ⊢
      rw [hclose] at h ⊢
      -- The target is `xml` or begins with it, so the end comes after it.
      match body with
      | x :: m :: l :: body =>
        refine ⟨body, asides.flatMap Aside.render, ?_⟩
        simp
      | [] => simp [List.cons_prefix_cons] at h
      | [x] => simp [List.cons_prefix_cons] at h
      | [x, m] => simp [List.cons_prefix_cons] at h

theorem splitName_length (raw : Bytes) : (splitName raw).2.length ≤ raw.length := by
  have hsplit : ∀ (s before after : Bytes), splitOnce 0x3a s = some (before, after) →
      after.length ≤ s.length := by
    intro s
    induction s with
    | nil =>
      intro before after h
      cases h
    | cons b s ih =>
      intro before after h
      rw [splitOnce] at h
      split at h
      · rw [Option.some.injEq, Prod.mk.injEq] at h
        rw [← h.2, List.length_cons]
        omega
      · obtain ⟨⟨before', after'⟩, hrest, hpair⟩ := Option.map_eq_some_iff.1 h
        rw [Prod.mk.injEq] at hpair
        have hle := ih before' after' hrest
        rw [← hpair.2, List.length_cons]
        omega
  unfold splitName
  cases hraw : splitOnce 0x3a raw with
  | none => exact Nat.le_refl _
  | some parts => exact hsplit raw parts.1 parts.2 hraw

theorem localName_of_collection {name : QName} (h : isCollection name = true) :
    name.localName = utf8 "FeatureCollection" := by
  unfold isCollection at h
  rw [Bool.and_eq_true] at h
  exact eq_of_beq h.1

namespace Page

variable {outside : Outside} (page : Page outside)

/-- Where the root's start tag ends. -/
def startEnd : Nat :=
  page.mark.length + page.doc.rootOffset +
    match page.doc.root.content with
    | none => page.doc.root.render.length
    | some _ => page.doc.root.tag.renderStart.length

/-- Where the root's end tag ends. -/
def rootEnd : Nat := page.mark.length + page.doc.rootOffset + page.doc.root.render.length

/-- The text of the first `n` bytes. -/
def textOf (n : Nat) : Bytes := page.doc.render.take (n - page.mark.length)

/-- The root begins with a byte of its name. -/
theorem render_root (root : Root) : ∃ b more, root.render = 0x3c :: b :: more ∧ b ≠ 0x3f := by
  cases hname : root.tag.name.bytes with
  | nil => exact absurd hname root.tag.name.nonempty
  | cons b name =>
    have hbyte : isNameByte b = true := by
      have hvalid := root.tag.name.valid
      rw [hname, List.all_cons, Bool.and_eq_true] at hvalid
      exact hvalid.1
    have hb : b ≠ 0x3f := by
      rintro rfl
      cases hbyte
    unfold Root.render Tag.renderEmpty Tag.renderStart
    rw [hname]
    cases root.content with
    | none => exact ⟨b, _, rfl, hb⟩
    | some content => exact ⟨b, _, rfl, hb⟩

theorem startEnd_le (hcollection : isCollection page.root = true) :
    page.mark.length + page.doc.rootOffset + (utf8 "<?xml").length ≤ page.startEnd := by
  have hname := splitName_length page.doc.root.tag.name.bytes
  have hlong : (utf8 "<?xml").length ≤ (utf8 "FeatureCollection").length := by decide
  rw [page.root_splitName, localName_of_collection hcollection] at hname
  unfold startEnd
  cases hcontent : page.doc.root.content with
  | none =>
    unfold Root.render Tag.renderEmpty
    simp only [hcontent, List.length_cons, List.length_append]
    omega
  | some content =>
    unfold Tag.renderStart
    simp only [List.length_cons, List.length_append]
    omega

/-- A part that holds the root's start tag is decoded as the whole is. -/
theorem utf8_take {n : Nat} (hcollection : isCollection page.root = true)
    (hn : page.startEnd ≤ n) :
    outside.utf8 (page.bytes.take n) = .ok (page.textOf n) := by
  have hlong := page.startEnd_le hcollection
  have hmark : page.mark.length ≤ n := by omega
  unfold bytes textOf
  rw [List.take_append, List.take_of_length_le hmark]
  generalize hm : n - page.mark.length = m
  have hm' : page.doc.rootOffset + (utf8 "<?xml").length ≤ m := by omega
  clear hm
  unfold mark
  cases hmarked : page.marked with
  | true => exact utf8_marked outside _
  | false =>
    obtain ⟨hcompression, hencoding⟩ := page.encoding hmarked
    have hdeclared : (utf8 "<?xml").isPrefixOf (page.doc.render.take m) = true →
        utf8 "?>" <:+: (page.doc.render.take m).drop (utf8 "<?xml").length := by
      intro hxml
      obtain ⟨b, more, hroot, hb⟩ := render_root page.doc.root
      have hbefore := @declaration_closed page.doc.before
        (page.doc.root.render ++ page.doc.after.flatMap Aside.render) b _
        (by rw [hroot]; rfl) hb
        ((List.isPrefixOf_iff_prefix.1 hxml).trans (List.take_prefix m page.doc.render))
      have hoffset : (page.doc.before.flatMap Aside.render).length = page.doc.rootOffset := rfl
      have hlen := hbefore.length_le
      have hpos : 0 < (utf8 "?>").length := by decide
      rw [List.length_drop] at hlen
      unfold Document.render
      rw [List.take_append, List.take_of_length_le (by omega), List.drop_append_of_le_length
        (by omega)]
      exact hbefore.trans (List.prefix_append _ _).isInfix
    have hunmarked : utf8Mark.isPrefixOf (page.doc.render.take m) = false := by
      rw [Bool.eq_false_iff]
      intro htake
      have hwhole := isPrefixOf_take htake
      rw [page.unmarked] at hwhole
      cases hwhole
    unfold Outside.utf8
    simp [detectCompression_take hcompression, detectEncoding_take hencoding hdeclared (by omega),
      hunmarked]

/-- Of a part that ends inside the root the walk fails; what that means is read off
the last tag. -/
theorem inspect_cut {n : Nat} (hcollection : isCollection page.root = true)
    (hstart : page.startEnd ≤ n) (hend : n < page.rootEnd) :
    ∃ (info : ResponseInfo) (error : ReadError), outside.inspect (page.bytes.take n) =
      if endsWithEndTag (page.textOf n) (utf8 "FeatureCollection") then .error (.reader error)
      else .ok (.features { info with complete := false }) := by
  cases hcontent : page.doc.root.content with
  | none =>
    -- Between the two there is nothing.
    unfold startEnd at hstart
    unfold rootEnd at hend
    rw [hcontent] at hstart
    dsimp only at hstart
    omega
  | some content =>
    obtain ⟨children, space⟩ := content
    have hmark := page.startEnd_le hcollection
    have hin : page.doc.rootOffset + page.doc.root.tag.renderStart.length ≤
        n - page.mark.length := by
      unfold startEnd at hstart
      rw [hcontent] at hstart
      dsimp only at hstart
      omega
    have hout : n - page.mark.length < page.doc.rootOffset + page.doc.root.render.length := by
      unfold rootEnd at hend
      omega
    obtain ⟨first, hfirst, hwithin⟩ := page.doc.eventsWithin_root hcontent hin hout
    have hshort : n - page.mark.length < page.doc.render.length := by
      have hrender : page.doc.render.length = page.doc.rootOffset +
          (page.doc.root.render.length + (page.doc.after.flatMap Aside.render).length) := by
        unfold Document.render
        rw [List.length_append, List.length_append]
        rfl
      omega
    obtain ⟨text, ending, htext, hread⟩ := page.reads.cutOff _ hshort
    have hevents : outside.quickXml.events (page.textOf n) =
        (page.prolog ++ .tag (.start page.doc.root.tag) :: (first ++ text), ending) := by
      unfold textOf
      rw [hread, hwithin, List.append_assoc]
      rfl
    obtain ⟨within, -, -, hinspect⟩ := page.inspect_root (page.utf8_take hcollection hstart) hevents
    -- No part of the root's content closes the root.
    have hinside : (⟨within, first ++ text, ending⟩ : EventReader).Inside := fun used hused =>
      (children.nested _).level_nonneg hfirst
        (fun e he => Event.step_of_isText (.inl (htext e he))) hused
    have hroot : outside.walkRoot page.root ⟨within, first ++ text, ending⟩ page.attributes =
        walk outside.quickXml false ((first ++ text).length + 1) ⟨within, first ++ text, ending⟩
          page.attributes := by
      unfold Outside.walkRoot
      rw [if_pos hcollection]
      rfl
    rw [hinspect, localName_of_collection hcollection, hroot]
    cases hwalk : walk outside.quickXml false ((first ++ text).length + 1)
        ⟨within, first ++ text, ending⟩ page.attributes with
    | mk info outcome =>
      cases outcome with
      | ok reader => exact absurd (walk_moves hwalk) hinside.not_moves
      | error error => exact ⟨info, error, rfl⟩

end Page

/-- A response is complete.  A part of it that ends inside the root is taken for
one that breaks off exactly where its last tag does not close an element named like
the root. -/
theorem inspect_cutOff (outside : Outside) (page : Page outside)
    (hcollection : isCollection page.root = true) :
    (∀ n, page.startEnd ≤ n → n < page.rootEnd →
      ((∃ info, outside.inspect (page.bytes.take n) = .ok (.features info) ∧
          info.complete = false) ↔
        endsWithEndTag (page.textOf n) (utf8 "FeatureCollection") = false)) ∧
      ∃ info, outside.inspect page.bytes = .ok (.features info) ∧ info.complete = true := by
  refine ⟨fun n hstart hend => ?_, _, page.inspect_collection hcollection, rfl⟩
  obtain ⟨info, error, hinspect⟩ := page.inspect_cut hcollection hstart hend
  rw [hinspect]
  cases endsWithEndTag (page.textOf n) (utf8 "FeatureCollection") with
  | true =>
    rw [if_pos rfl]
    constructor
    · rintro ⟨info, h, -⟩
      cases h
    · exact fun h => nomatch h
  | false =>
    rw [if_neg Bool.false_ne_true]
    exact ⟨fun _ => rfl, fun _ => ⟨_, rfl, rfl⟩⟩

/-! ## A nested collection -/

/-- A reader of the parts of one document. -/
def partsOf (doc : Document) : QuickXml where
  events bytes :=
    (if bytes.length < doc.render.length then doc.eventsWithin bytes.length else doc.events, .eof)
  unescape := some
  charRef _ := .ok none

theorem partsOf_reads (doc : Document) : (partsOf doc).Reads doc where
  whole := by
    show (if doc.render.length < doc.render.length then _ else doc.events, EventsEnd.eof) = _
    rw [if_neg (Nat.lt_irrefl _)]
  cutOff n hn := by
    have hlen : (doc.render.take n).length = n := List.length_take_of_le (Nat.le_of_lt hn)
    refine ⟨[], .eof, nofun, ?_⟩
    show (if (doc.render.take n).length < doc.render.length then
      doc.eventsWithin (doc.render.take n).length else doc.events, EventsEnd.eof) = _
    rw [hlen, if_pos hn, List.append_nil]

/-- Nothing is compressed, and no label is known. -/
def plainDecoders : Decoders where
  forLabel _ := none
  gunzip := .ok
  unzstd := .ok
  transcode _ bytes := bytes

def outsideOf (doc : Document) : Outside := ⟨plainDecoders, partsOf doc, fun _ => none⟩

instance (quickXml : Bytes → Option Bytes) (t : ScopedTag) : Decidable (t.Declared quickXml) :=
  decidable_of_iff (t.written.any misuses = false ∧
    (t.tag.startIn quickXml t.written).isSome = true)
    ⟨fun h => ⟨h.1, h.2⟩, fun h => ⟨h.rules, h.named⟩⟩

/-- `<featureMember><FeatureCollection></FeatureCollection></featureMember>` -/
def memberOfCollection : Content :=
  .element Splitter.memberTag
    (.element (Splitter.plainTag (utf8 "FeatureCollection") Splitter.isName_collection) .nil
      Splitter.noSpace .nil)
    Splitter.noSpace .nil

theorem noReport_collection : Outside.isReport (utf8 "FeatureCollection") = false := by decide

/-- A collection whose one member is a collection. -/
def nestedPage : Page (outsideOf (Splitter.gmlCollection memberOfCollection)) where
  doc := Splitter.gmlCollection memberOfCollection
  marked := false
  root := ⟨some ns.GML, utf8 "FeatureCollection"⟩
  attrs := []
  named := by decide +kernel
  noReport := noReport_collection
  declared := by decide +kernel
  before := nofun
  inside := by
    rintro children space hcontent
    cases hcontent
    exact nofun
  unmarked := by decide
  encoding := by decide +kernel
  reads := partsOf_reads _

/-- Cut off after the member's start tag, it breaks off. -/
theorem inspect_cutOff_nested :
    (nestedPage.startEnd ≤ 69 ∧ 69 < nestedPage.rootEnd ∧
      ∃ info, (outsideOf nestedPage.doc).inspect (nestedPage.bytes.take 69) =
        .ok (.features info) ∧ info.complete = false) ∧
      ∃ info, (outsideOf nestedPage.doc).inspect nestedPage.bytes = .ok (.features info) ∧
        info.complete = true := by
  have hcut := inspect_cutOff (outsideOf nestedPage.doc) nestedPage (by decide)
  have hstart : nestedPage.startEnd ≤ 69 := by decide +kernel
  have hend : 69 < nestedPage.rootEnd := by decide +kernel
  exact ⟨⟨hstart, hend, (hcut.1 69 hstart hend).2 (by decide +kernel)⟩, hcut.2⟩

/-- A page that breaks off after an inner collection is an error. -/
theorem not_cutOff_nested :
    ¬ ∀ (outside : Outside) (page : Page outside), isCollection page.root = true →
      (∀ n, page.startEnd ≤ n → n < page.rootEnd →
        ∃ info, outside.inspect (page.bytes.take n) = .ok (.features info) ∧
          info.complete = false) ∧
      ∃ info, outside.inspect page.bytes = .ok (.features info) ∧ info.complete = true := by
  intro h
  have hstart : nestedPage.startEnd ≤ 108 := by decide +kernel
  have hend : 108 < nestedPage.rootEnd := by decide +kernel
  obtain ⟨info, hinspect, -⟩ := (h _ nestedPage (by decide)).1 108 hstart hend
  obtain ⟨_, _, hcut⟩ := nestedPage.inspect_cut (by decide) hstart hend
  have hlast : endsWithEndTag (nestedPage.textOf 108) (utf8 "FeatureCollection") = true := by
    decide +kernel
  rw [hlast, if_pos rfl] at hcut
  exact nomatch hinspect.symm.trans hcut

end Xeibe.Wfs.Inspect

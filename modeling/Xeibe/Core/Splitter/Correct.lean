import Xeibe.Core.Splitter.Outside

/-!
# The splitter finds the features

A run over a document.  Its chunks are chunks of the document's marks
(`chunks_made`), also where it stops with an error; where it ends without one
they hold the features of the document's walk (`Document.features`), each once,
in order and byte for byte.
-/

namespace Xeibe

open Lib

namespace Splitter

section

variable {quickXml : Bytes → Option Bytes} {outcome : Outcome} {s : Splitter}
  {all rest : List Mark} {input tail : Bytes} {options : SplitterOptions} {source off : Nat}
  {total : List FeatureChunk}

/-- Before and after the root there is nothing to find. -/
theorem outside_asides {cs : List FeatureChunk} : ∀ (asides : List Aside) {off : Nat}
    {s : Splitter}, Reading input options source s →
    s.mode = .prolog ∨ s.mode = .outside ∨ s.mode = .epilog →
    Stands off (asides.flatMap Aside.render ++ tail) s → Ends quickXml outcome s cs →
    ∃ p, Ends quickXml outcome (s.moveTo p) cs ∧
      Stands (off + (asides.flatMap Aside.render).length) tail (s.moveTo p) := by
  intro asides
  induction asides with
  | nil =>
    intro off s hs hmode hstand hends
    exact ⟨s.pos, hends, hstand⟩
  | cons a asides ih =>
    intro off s hs hmode hstand hends
    rw [List.flatMap_cons, List.append_assoc] at hstand
    rw [List.flatMap_cons, List.length_append, ← Nat.add_assoc]
    by_cases ha : IsMarkup a
    · have hs' : Reading input options source (s.moveTo (off + a.render.length)) :=
        { hs with cache := hs.cache }
      exact ih (s := s.moveTo (off + a.render.length)) hs' hmode hstand.after
        (outside_aside hs hmode ha hstand hends)
    · cases a with
      | text bytes noTag => exact ih hs hmode (hstand.pass noTag) hends
      | comment body closed => exact absurd trivial ha
      | cdata body closed => exact absurd trivial ha
      | pi body closed => exact absurd trivial ha

/-- What a root that is still a candidate adds. -/
def rootMarks (options : SplitterOptions) (name : QName) (l : Located) (cand : Option Nat) :
    List Mark :=
  if cand.isSome then wantedMark (wantedIn options name) l else []

/-- The root has ended, at `off`. -/
theorem outside_endRoot {cs out : List FeatureChunk} {name : QName} {l : Located}
    (hs : Reading input options source s)
    (hheader : s.header.map DocumentHeader.root = some name)
    (hcand : ∀ start ∈ s.rootCandidate, start = l.placed.offset)
    (hbytes : slice s.buf l.placed.offset off = l.placed.element.render)
    (hstack : s.stack = []) (hbindings : s.bindings = l.placed.scope) (hbox : l.box = none)
    (hstand : Stands off tail s)
    (hemits : Emits all out (rootMarks options name l s.rootCandidate ++ rest) s)
    (htotal : total = out ++ cs) (hends : Ends quickXml outcome (s.endRoot off) cs) :
    ∃ s', Reading input options source s' ∧ s'.mode = .epilog ∧ Stands off tail s' ∧
      Running all quickXml outcome total rest s' := by
  unfold endRoot at hends
  cases hstart : s.rootCandidate with
  | none =>
    rw [hstart] at hends hemits
    refine ⟨s.setMode .epilog, { hs with cache := hs.cache }, rfl, hstand.same rfl rfl, out, cs,
      htotal, hends, hemits.same ?_⟩
    exact ⟨rfl, rfl, rfl, rfl, rfl, rfl, rfl, rfl, rfl, rfl, rfl, fun _ => id⟩
  | some start =>
    rw [hstart] at hends
    have hoffset := hcand start hstart
    have hu : ∃ u, (s.setMode .epilog).takeRoot = u ∧ Reading input options source u ∧
        u.mode = .epilog ∧ u.rootWanted = wantedIn options name ∧ SameChunk s u ∧
        u.buf = s.buf ∧ u.pos = s.pos ∧ u.bindings = s.bindings ∧ u.stack = s.stack := by
      refine ⟨_, rfl, { hs with cache := hs.cache }, rfl, ?_,
        ⟨rfl, rfl, rfl, rfl, rfl, rfl, rfl, rfl, rfl, rfl, rfl, fun _ => id⟩, rfl, rfl, rfl, rfl⟩
      have hheader' : (s.setMode .epilog).takeRoot.header.map DocumentHeader.root = some name :=
        hheader
      have hoptions : (s.setMode .epilog).takeRoot.options = options := hs.options_eq
      unfold rootWanted wantedIn
      rw [hheader', hoptions]
      cases options.layers <;> rfl
    obtain ⟨u, hu, hread, hmode, hwanted, hsame, hbuf, hpos, hscope, hnone⟩ := hu
    dsimp only at hends
    rw [hu, hwanted, hoffset] at hends
    obtain ⟨hsteady, huntouched⟩ := beginWanted_same u (wantedIn options name) l.placed.offset
    have hmarks : rootMarks options name l s.rootCandidate =
        wantedMark (wantedIn options name) l := by
      rw [hstart]
      rfl
    rw [hmarks] at hemits
    obtain ⟨hbegun, hopened⟩ := (hemits.same hsame).beginWanted hread.cache.2
      (hscope.trans hbindings) (by
        unfold collectionBoundedBy
        rw [hnone, hstack, hbox]
        rfl)
    have hslice : slice (u.beginWanted (wantedIn options name) l.placed.offset).buf
        (l.placed.offset - (u.beginWanted (wantedIn options name) l.placed.offset).base) off =
        l.placed.element.render := by
      rw [huntouched.buf, huntouched.base, hread.base, hbuf]
      exact hbytes
    have hended := hbegun.endFeature hopened hslice
    have hall := huntouched.trans
      (endFeature_untouched _ (wantedIn options name) l.placed.offset off)
    have hall' := hsteady.trans (endFeature_steady _ (wantedIn options name) l.placed.offset off)
    generalize (u.beginWanted (wantedIn options name) l.placed.offset).endFeature
      (wantedIn options name) l.placed.offset off = v at *
    refine ⟨v.drain, ⟨hall.buf.trans hread.buf, hall.base.trans hread.base,
      hall.eof.trans hread.eof, hall'.finished.trans hread.running, rfl,
      hall'.options.trans hread.options_eq, hall'.source.trans hread.source_eq, ?_⟩,
      hall.mode.trans hmode, ?_, Running.drain ⟨out, cs, htotal, hends, hended⟩⟩
    · exact hread.cache.steady ⟨hall'.source, hall'.options, hall'.header, hall'.stack,
        hall'.bindings, hall'.bindingsGeneration, hall'.names, hall'.namesGeneration,
        hall'.finished, hall'.contexts⟩
    · exact hstand.same (hall.buf.trans hbuf) (hall.pos.trans hpos)

/-- At the end of the input the last chunk is flushed, and the chunks hold
what has been emitted. -/
theorem cover_of_end (hs : Reading input options source s) (hmode : s.mode = .epilog)
    (hstand : Stands off [] s) (hrun : Running all quickXml outcome total [] s) :
    Stopped all options.targetChunkBytes outcome total ∨
      (Cover 0 (Mark.features all) total ∧
        ∀ chunk ∈ total, Made all options.targetChunkBytes chunk) := by
  obtain ⟨out, cs, htotal, hends, hemits⟩ := hrun
  rcases hends.next hs.running hs.ready with
    ⟨e, -, hfailed⟩ | ⟨next, hstep, hturns, fuel, hfuel⟩
  · exact .inl (hemits.stopped hs htotal ⟨e, hfailed⟩)
  right
  unfold step stepMarkup at hstep
  rw [hmode] at hstep
  dsimp only at hstep
  rw [nextMarkup_none hs.eof hstand] at hstep
  simp only [bind, Except.bind] at hstep
  have hfinished := finish_finished hstep
  have hnext : next = (s.moveTo s.buf.length).setFinished.flushChunk := by
    unfold finish at hstep
    dsimp only at hstep
    split at hstep
    · cases hstep
    · split at hstep
      · cases hstep
      · exact (Except.ok.inj hstep).symm
  have hsame : SameChunk s (s.moveTo s.buf.length).setFinished :=
    ⟨rfl, rfl, rfl, rfl, rfl, rfl, rfl, rfl, rfl, rfl, rfl, fun _ => id⟩
  have hflushed := (hemits.same hsame).finish
  rw [← hnext, hsame.options, hs.options_eq] at hflushed
  cases fuel with
  | zero => exact absurd (congrArg Prod.snd hfuel).symm hturns
  | succ fuel =>
    rw [chunksLoop, if_pos hfinished] at hfuel
    rw [htotal, ← (Prod.mk.inj hfuel).1]
    exact hflushed

/-- The root candidate when the document has been read. -/
def rootCand (options : SplitterOptions) (start : Nat) : Option Nat :=
  if options.allowSingleFeatureRoot then some start else none

theorem noteContainer_steady (s : Splitter) (markup : Markup) (container isRoot : Bool) :
    Steady s (s.noteContainer markup container isRoot) := by
  unfold noteContainer
  split
  · exact ⟨rfl, rfl, rfl, rfl, rfl, rfl, rfl, rfl, rfl, id⟩
  · split
    · exact ⟨rfl, rfl, rfl, rfl, rfl, rfl, rfl, rfl, rfl, id⟩
    · exact .refl s

theorem noteContainer_root (s : Splitter) (markup : Markup) (name : QName)
    (hoptions : s.options = options) (hcand : s.rootCandidate = none) :
    (s.noteContainer markup (isMember options name || isCollection name) true).rootCandidate =
      candAfter (rootCand options (s.base + markup.start)) (foundContainer options name) := by
  unfold noteContainer candAfter foundContainer rootCand
  cases isMember options name || isCollection name with
  | true => simp
  | false =>
    rw [hoptions]
    cases options.allowSingleFeatureRoot <;> simp [hcand]

/-- The root as a feature. -/
def rootLocated (doc : Document) : Located := ⟨⟨doc.rootOffset, [], doc.root⟩, none⟩

theorem rootMarks_eq (doc : Document) {name : QName} (hname : doc.rootName quickXml = some name) :
    rootMarks options name (rootLocated doc)
        (candAfter (rootCand options doc.rootOffset) (doc.found quickXml options isBoundedBy)) =
      doc.marksRoot quickXml options := by
  unfold rootMarks candAfter rootCand Document.marksRoot Document.placedRoot wantedMark rootLocated
  rw [hname]
  dsimp only
  generalize wantedIn options name = wanted
  by_cases hcontainer : Found.container ∈ doc.found quickXml options isBoundedBy
  · simp [hcontainer]
  · cases options.allowSingleFeatureRoot <;> cases wanted <;> simp [hcontainer]

/-- The start tag of the root: the header is read, and the root is open. -/
theorem outside_rootStart (doc : Document) {cs : List FeatureChunk} {s : Splitter} (empty : Bool)
    (hs : Reading input options source s) (hmode : s.mode = .prolog) (hstack : s.stack = [])
    (hbindings : s.bindings = []) (hcand : s.rootCandidate = none)
    (hstand : Stands off (renderOpen doc.root.tag empty ++ tail) s) (hemits : Emits all [] rest s)
    (hoff : off = doc.rootOffset) (hends : Ends quickXml outcome s cs) :
    (∃ e, outcome = .failed e ∧ cs = []) ∨
    ∃ name u, doc.rootName quickXml = some name ∧ Reading input options source u ∧
      u.mode = .outside ∧ u.header.map DocumentHeader.root = some name ∧ u.stack = [] ∧
      u.bindings = doc.root.tag.declarations quickXml ∧
      u.rootCandidate = candAfter (rootCand options doc.rootOffset)
        (foundContainer options name) ∧
      Emits all [] rest u ∧ u.buf = s.buf ∧ u.pos = off + (renderOpen doc.root.tag empty).length ∧
      Ends quickXml outcome
        (if empty = true then
          (((u.undeclare (!(doc.root.tag.declarations quickXml).isEmpty) 0).countReferenced
            (isMember options name)).endRoot (off + (renderOpen doc.root.tag empty).length))
        else u.setStack [Frame.mk doc.root.tag.name.bytes (isMember options name) false 0 none])
        cs := by
  rcases outside_startTag hs (.inl hmode) hstand hends with
    hfailed | ⟨name, noted, hname, hcache, hends'⟩
  · exact .inl hfailed
  right
  rw [hbindings] at hname hcache hends'
  rw [List.nil_append] at hname hcache hends'
  generalize hu : s.atTag (off + (renderOpen doc.root.tag empty).length)
    (doc.root.tag.declarations quickXml) noted = u at *
  have hprolog : (u.mode == Mode.prolog) = true := by
    rw [← hu]
    simp [atTag, hmode]
  have hnostack : u.stack = [] := by
    rw [← hu]
    exact hstack
  unfold startNamed at hends'
  rw [hprolog] at hends'
  have hread : Reading input options source u := by
    have hcacheU := hcache
    rw [← hu] at hcacheU ⊢
    exact { hs with cache := hcacheU }
  have hcandU : u.rootCandidate = none := by
    rw [← hu]
    exact hcand
  have hbindingsU : u.bindings = doc.root.tag.declarations quickXml := by
    rw [← hu]
    rfl
  have hemitsU : Emits all [] rest u := by
    rw [← hu]
    exact hemits.same ⟨rfl, rfl, rfl, rfl, rfl, rfl, rfl, rfl, rfl, rfl, rfl, fun _ => id⟩
  have hwindow : u.buf = s.buf ∧ u.pos = off + (renderOpen doc.root.tag empty).length := by
    rw [← hu]
    exact ⟨rfl, rfl⟩
  -- The root, its header read.
  have hw : Reading input options source ((u.readHeader quickXml name
      (doc.root.tag.attrs.map Attr.pair) 0).setMode .outside) :=
    { hread with cache := hread.cache }
  have hheader : ((u.readHeader quickXml name (doc.root.tag.attrs.map Attr.pair) 0).setMode
      .outside).header.map DocumentHeader.root = some name := rfl
  have hwstack : ((u.readHeader quickXml name (doc.root.tag.attrs.map Attr.pair) 0).setMode
      .outside).stack = [] := hnostack
  have hwcand : ((u.readHeader quickXml name (doc.root.tag.attrs.map Attr.pair) 0).setMode
      .outside).rootCandidate = none := hcandU
  have hwbindings : ((u.readHeader quickXml name (doc.root.tag.attrs.map Attr.pair) 0).setMode
      .outside).bindings = doc.root.tag.declarations quickXml := hbindingsU
  have hwmode : ((u.readHeader quickXml name (doc.root.tag.attrs.map Attr.pair) 0).setMode
      .outside).mode = .outside := rfl
  have hwemits : Emits all [] rest ((u.readHeader quickXml name (doc.root.tag.attrs.map Attr.pair)
      0).setMode .outside) := hemitsU.same ⟨rfl, rfl, rfl, rfl, rfl, rfl, rfl, rfl, rfl, rfl, rfl, fun _ => id⟩
  have hwwindow : ((u.readHeader quickXml name (doc.root.tag.attrs.map Attr.pair) 0).setMode
      .outside).buf = s.buf ∧ ((u.readHeader quickXml name (doc.root.tag.attrs.map Attr.pair)
        0).setMode .outside).pos = off + (renderOpen doc.root.tag empty).length := hwindow
  generalize (u.readHeader quickXml name (doc.root.tag.attrs.map Attr.pair) 0).setMode .outside =
    w at *
  simp only [if_true, List.length_nil, hwstack, List.head?_nil, Option.map_none,
    Option.getD_none, Bool.false_and, Bool.not_true, Bool.false_eq_true, if_false] at hends'
  have hsteady := noteContainer_steady w (openMarkup off doc.root.tag empty)
    (isMember options name || isCollection name) true
  have hremoded := w.noteContainer_remoded (openMarkup off doc.root.tag empty)
    (isMember options name || isCollection name) true
  have hsame := noteContainer_sameChunk w (openMarkup off doc.root.tag empty)
    (isMember options name || isCollection name) true
  have hvmode := w.noteContainer_mode (openMarkup off doc.root.tag empty)
    (isMember options name || isCollection name) true
  have hvcand := noteContainer_root w (openMarkup off doc.root.tag empty) name hw.options_eq
    hwcand
  have hstartOff : w.base + (openMarkup off doc.root.tag empty).start = doc.rootOffset := by
    rw [hw.base, Nat.zero_add]
    exact hoff
  rw [hstartOff] at hvcand
  unfold startContainer at hends'
  rw [hw.options_eq] at hends'
  have hends'' : Ends quickXml outcome
      (if empty = true then
        ((((w.noteContainer (openMarkup off doc.root.tag empty)
          (isMember options name || isCollection name) true).markChild.undeclare
            (!(doc.root.tag.declarations quickXml).isEmpty) 0).countReferenced
              (isMember options name)).endRoot (off + (renderOpen doc.root.tag empty).length))
      else (w.noteContainer (openMarkup off doc.root.tag empty)
          (isMember options name || isCollection name) true).markChild.setStack
        (Frame.mk doc.root.tag.name.bytes (isMember options name) false 0 none ::
          (w.noteContainer (openMarkup off doc.root.tag empty)
            (isMember options name || isCollection name) true).markChild.stack)) cs := hends'
  generalize w.noteContainer (openMarkup off doc.root.tag empty)
    (isMember options name || isCollection name) true = v at *
  have hvstack : v.markChild.stack = [] := by
    unfold markChild
    rw [hsteady.stack, hwstack]
    rfl
  rw [hvstack] at hends''
  have hcacheV : CacheOk v := hw.cache.steady hsteady
  refine ⟨name, v.markChild, hname, ?_, hvmode.trans hwmode, ?_, hvstack,
    hsteady.bindings.trans hwbindings, hvcand, ?_, hremoded.buf.trans hwwindow.1,
    hremoded.pos.trans hwwindow.2, hends''⟩
  · exact ⟨hremoded.buf.trans hw.buf, hremoded.base.trans hw.base, hremoded.eof.trans hw.eof,
      hsteady.finished.trans hw.running, hsame.ready.trans hw.ready,
      hsteady.options.trans hw.options_eq, hsteady.source.trans hw.source_eq, hcacheV⟩
  · have : v.markChild.header = v.header := rfl
    rw [this, hsteady.header]
    exact hheader
  · exact (hwemits.same hsame).same (markChild_sameChunk v)

theorem Reading.undeclare (h : Reading input options source s) (declared : Bool) (n : Nat) :
    Reading input options source (s.undeclare declared n) := by
  have hcache := h.cache.undeclare declared n
  unfold Splitter.undeclare at *
  split
  · rename_i hdeclared
    rw [if_pos hdeclared] at hcache
    exact { h with cache := hcache }
  · exact h

theorem Reading.countReferenced (h : Reading input options source s) (referenced : Bool) :
    Reading input options source (s.countReferenced referenced) := by
  unfold Splitter.countReferenced
  split
  · exact { h with cache := h.cache }
  · exact h

theorem undeclare_root {s : Splitter} {declared : Bool}
    (h : declared = true ∨ s.bindings = []) : (s.undeclare declared 0).bindings = [] := by
  unfold undeclare truncateBindings
  split
  · rfl
  · rename_i hdeclared
    exact h.resolve_left hdeclared

theorem countReferenced_bindings (s : Splitter) (referenced : Bool) :
    (s.countReferenced referenced).bindings = s.bindings := by
  unfold countReferenced
  split <;> rfl

theorem undeclare_header (s : Splitter) (declared : Bool) (n : Nat) :
    (s.undeclare declared n).header = s.header ∧ (s.undeclare declared n).stack = s.stack := by
  unfold undeclare
  split <;> exact ⟨rfl, rfl⟩

theorem countReferenced_header (s : Splitter) (referenced : Bool) :
    (s.countReferenced referenced).header = s.header ∧
      (s.countReferenced referenced).stack = s.stack := by
  unfold countReferenced
  split <;> exact ⟨rfl, rfl⟩

/-- The root, from its start tag to its end. -/
theorem outside_root (doc : Document) {cs : List FeatureChunk} {s : Splitter}
    (hs : Reading input options source s) (hmode : s.mode = .prolog) (hstack : s.stack = [])
    (hbindings : s.bindings = []) (hcand : s.rootCandidate = none)
    (hstand : Stands off (doc.root.render ++ tail) s)
    (hemits : Emits (doc.marks quickXml options source) [] (doc.marks quickXml options source) s)
    (hoff : off = doc.rootOffset) (hends : Ends quickXml outcome s cs) :
    Stopped (doc.marks quickXml options source) options.targetChunkBytes outcome cs ∨
    ∃ s', Reading input options source s' ∧ s'.mode = .epilog ∧
      Stands (off + doc.root.render.length) tail s' ∧
      Running (doc.marks quickXml options source) quickXml outcome cs [] s' := by
  have hbytes : slice s.buf off (off + doc.root.render.length) = doc.root.render :=
    slice_piece hstand
  have hdistinct : (Mark.boxes (doc.marks quickXml options source)).Nodup := doc.marks_boxes_nodup
  have hcandOffset : ∀ (found : List Found),
      ∀ start ∈ candAfter (rootCand options doc.rootOffset) found,
        start = (rootLocated doc).placed.offset := by
    intro found start hstart
    unfold candAfter rootCand at hstart
    split at hstart
    · cases hstart
    · split at hstart
      · cases hstart
        rfl
      · cases hstart
  cases hcontent : doc.root.content with
  | none =>
    have hrender : doc.root.render = doc.root.tag.renderEmpty := by
      unfold Root.render
      rw [hcontent]
    have hmarks : doc.marks quickXml options source = doc.marksRoot quickXml options := by
      have hinside : doc.marksInside quickXml options source = [] := by
        unfold Document.marksInside
        rw [hcontent]
        cases doc.rootName quickXml <;> rfl
      unfold Document.marks
      rw [hinside]
      rfl
    rw [hrender] at hstand hbytes ⊢
    rcases outside_rootStart doc true hs hmode hstack hbindings hcand hstand hemits hoff hends with
      hfailed | ⟨name, u, hname, hread, -, hheader, hnone, hbindingsU, hcandU, hemitsU, hbuf, hpos,
        hends'⟩
    · exact .inl (hemits.stopped hs (List.nil_append cs).symm hfailed)
    right
    have hfound : doc.found quickXml options isBoundedBy = foundContainer options name := by
      unfold Document.found
      rw [hname, hcontent]
      exact List.append_nil _
    rw [if_pos rfl] at hends'
    have hstandU : Stands (off + doc.root.tag.renderEmpty.length) tail u :=
      Stands.same (s := s.moveTo (off + doc.root.tag.renderEmpty.length)) hstand.after hbuf hpos
    have huntouched := (undeclare_untouched u (!(doc.root.tag.declarations quickXml).isEmpty)
      0).trans (countReferenced_untouched _ (isMember options name))
    have hsame := (undeclare_sameChunk u (!(doc.root.tag.declarations quickXml).isEmpty)
      0).trans (countReferenced_sameChunk _ (isMember options name))
    have hclosed := (hread.undeclare (!(doc.root.tag.declarations quickXml).isEmpty)
      0).countReferenced (isMember options name)
    have hkept := countReferenced_header (u.undeclare
      (!(doc.root.tag.declarations quickXml).isEmpty) 0) (isMember options name)
    have hkept' := undeclare_header u (!(doc.root.tag.declarations quickXml).isEmpty) 0
    have hdeclared : (!(doc.root.tag.declarations quickXml).isEmpty) = true ∨ u.bindings = [] := by
      rw [hbindingsU]
      cases doc.root.tag.declarations quickXml with
      | nil => exact .inr rfl
      | cons d ds => exact .inl rfl
    rw [← hfound] at hcandU
    refine outside_endRoot (l := rootLocated doc) hclosed
      (by rw [hkept.1, hkept'.1]; exact hheader)
      (by rw [huntouched.root, hcandU]; exact hcandOffset _)
      (by rw [huntouched.buf, hbuf, rootLocated, ← hoff]; exact hbytes.trans hrender.symm)
      (by rw [hkept.2, hkept'.2]; exact hnone)
      (by rw [countReferenced_bindings]; exact undeclare_root hdeclared) rfl
      (hstandU.same huntouched.buf huntouched.pos) ?_ (List.nil_append _).symm hends'
    rw [huntouched.root, hcandU, rootMarks_eq doc hname, List.append_nil, ← hmarks]
    exact hemitsU.same hsame
  | some content =>
    obtain ⟨children, space⟩ := content
    have hrender : doc.root.render = doc.root.tag.renderStart ++
        (children.render ++ doc.root.tag.renderEnd space) := by
      unfold Root.render
      rw [hcontent]
    rw [hrender, List.append_assoc, List.append_assoc] at hstand
    rcases outside_rootStart doc false hs hmode hstack hbindings hcand hstand hemits hoff hends with
      hfailed | ⟨name, u, hname, hread, hmodeU, hheader, hnone, hbindingsU, hcandU, hemitsU, hbuf,
        hpos, hends'⟩
    · exact .inl (hemits.stopped hs (List.nil_append cs).symm hfailed)
    have hlen : off + doc.root.tag.renderStart.length + children.render.length +
        (doc.root.tag.renderEnd space).length = off + doc.root.render.length := by
      rw [hrender]
      simp only [List.length_append]
      omega
    rw [if_neg Bool.false_ne_true] at hends'
    generalize hopened : Frame.mk doc.root.tag.name.bytes (isMember options name) false 0 none =
      opened at hends'
    have hmembers : opened.members = isMember options name := by rw [← hopened]
    have hopenedBox : opened.boundedBy = none := by rw [← hopened]
    have hstandU : Stands (off + doc.root.tag.renderStart.length)
        (children.render ++ (doc.root.tag.renderEnd space ++ tail)) (u.setStack [opened]) :=
      Stands.same (s := s.moveTo (off + doc.root.tag.renderStart.length)) hstand.after hbuf hpos
    have hinside : doc.marksInside quickXml options source =
        children.marks quickXml options source (doc.root.tag.declarations quickXml)
          opened.members (off + doc.root.tag.renderStart.length) none none := by
      unfold Document.marksInside
      rw [hname, hcontent, hmembers, hoff]
    have hemitsOpen : Emits (doc.marks quickXml options source) [] (children.marks quickXml options
        source (doc.root.tag.declarations quickXml) opened.members
          (off + doc.root.tag.renderStart.length) none none ++ doc.marksRoot quickXml options)
        (u.setStack [opened]) := by
      rw [← hinside]
      exact hemitsU.same (u.setStack_sameChunk fun a ha => by simp [hopenedBox] at ha)
    -- The content of the root.
    rcases outside_content hdistinct
      (σ := ⟨u.header, doc.root.tag.declarations quickXml, opened, none, [], u.rootCandidate⟩)
      (s := u.setStack [opened]) children
      { hread with
        cache := hread.cache
        mode_eq := hmodeU
        header_eq := rfl
        bindings_eq := hbindingsU
        stack_eq := ⟨opened, rfl, ⟨rfl, rfl, rfl⟩, by rw [hopenedBox]; rfl⟩
        cand_eq := rfl }
      hstandU ⟨[], cs, rfl, hends', hemitsOpen⟩ with
      hstopped | ⟨t, hopen, hstandT, out, cs', hcs, hendsT, hemitsT⟩
    · exact .inl hstopped
    obtain ⟨frame, hstackT, hframe, -⟩ : ∃ frame, t.stack = frame :: [] ∧
        SameFrame opened frame ∧ boxOf frame.boundedBy = _ := hopen.stack_eq
    rcases outside_endTag hopen.toReading hopen.mode_eq hstackT hstandT hendsT with
      hfailed | hclose
    · exact .inl (hemitsT.stopped hopen.toReading hcs hfailed)
    right
    have hafter := hstandT.after
    rw [hlen] at hclose hafter
    have hfound : doc.found quickXml options isBoundedBy = foundContainer options name ++
        children.walk quickXml options isBoundedBy (doc.root.tag.declarations quickXml)
          opened.members (off + doc.root.tag.renderStart.length) := by
      unfold Document.found
      rw [hname, hcontent, hmembers, hoff]
    -- Its end tag.
    generalize hv : (t.moveTo (off + doc.root.render.length)).setStack [] = v at hclose
    have hreadV : Reading input options source v := by
      rw [← hv]
      exact { hopen.toReading with cache := hopen.cache }
    have hheaderV : v.header.map DocumentHeader.root = some name := by
      rw [← hv]
      exact (congrArg (Option.map DocumentHeader.root) hopen.header_eq).trans hheader
    have hcandV : v.rootCandidate = candAfter (rootCand options doc.rootOffset)
        (doc.found quickXml options isBoundedBy) := by
      have hcand' : v.rootCandidate = candAfter u.rootCandidate (children.walk quickXml options
          isBoundedBy (doc.root.tag.declarations quickXml) opened.members
            (off + doc.root.tag.renderStart.length)) := by
        rw [← hv]
        exact hopen.cand_eq
      rw [hcand', hcandU, hfound]
      unfold candAfter
      by_cases hcontainer : Found.container ∈ foundContainer options name <;> simp [hcontainer]
    have hemitsV : Emits (doc.marks quickXml options source) out (doc.marksRoot quickXml options)
        v := by
      rw [← hv]
      refine hemitsT.same ((moveTo_sameChunk t (off + doc.root.render.length)).trans ?_)
      exact (t.moveTo _).setStack_sameChunk nofun
    have hstandV : Stands (off + doc.root.render.length) tail v := by
      rw [← hv]
      exact hafter
    have hbufV : v.buf = s.buf := hreadV.buf.trans hs.buf.symm
    have hstackV : v.stack = [] := by
      rw [← hv]
      rfl
    unfold endContainer at hclose
    dsimp only at hclose
    generalize hdeclared : decide (frame.bindingsBefore < v.bindings.length) = declared at hclose
    generalize hreferenced : (frame.members && !frame.hasChild) = referenced at hclose
    have hheader' := (undeclare_header (v.countReferenced referenced) declared
      frame.bindingsBefore).1.trans (countReferenced_header v referenced).1
    have hstack' := (undeclare_header (v.countReferenced referenced) declared
      frame.bindingsBefore).2.trans (countReferenced_header v referenced).2
    rw [if_pos (by rw [hstack', hstackV]; rfl)] at hclose
    have huntouched := (countReferenced_untouched v referenced).trans
      (undeclare_untouched _ declared frame.bindingsBefore)
    have hsame := (countReferenced_sameChunk v referenced).trans
      (undeclare_sameChunk _ declared frame.bindingsBefore)
    have hclosed := (hreadV.countReferenced referenced).undeclare declared frame.bindingsBefore
    have hscope : ((v.countReferenced referenced).undeclare declared
        frame.bindingsBefore).bindings = [] := by
      have hbefore : frame.bindingsBefore = 0 := by
        rw [hframe.bindingsBefore]
        show opened.bindingsBefore = 0
        rw [← hopened]
      rw [hbefore] at hdeclared ⊢
      refine undeclare_root ?_
      rw [countReferenced_bindings, ← hdeclared]
      cases v.bindings with
      | nil => exact .inr rfl
      | cons b bs => exact .inl (by simp)
    refine outside_endRoot (l := rootLocated doc) hclosed (by rw [hheader']; exact hheaderV)
      (by rw [huntouched.root, hcandV]; exact hcandOffset _)
      (by rw [huntouched.buf, hbufV, rootLocated, ← hoff]; exact hbytes)
      (hstack'.trans hstackV) hscope rfl (hstandV.same huntouched.buf huntouched.pos) ?_
      hcs hclose
    rw [huntouched.root, hcandV, rootMarks_eq doc hname, List.append_nil]
    exact hemitsV.same hsame

theorem reading_ofInput (input : Bytes) (source : Nat) (options : SplitterOptions) :
    Reading input options source (ofInput input source options) :=
  ⟨rfl, rfl, rfl, rfl, rfl, rfl, rfl, ⟨Nat.le_refl _, fun _ _ _ hlookup => nomatch hlookup⟩,
    Nat.le_refl _, fun _ => rfl, Nat.zero_lt_one, Nat.zero_lt_one, fun _ => rfl⟩

/-- The chunks of a run over a document are of its marks, and where the run ends
without an error they hold all its features. -/
theorem chunks_emit (doc : Document) {reader : List Read} (h : Delivers reader doc.render)
    (source : Nat) {chunks : List FeatureChunk}
    (hrun : (new reader source options).chunks quickXml = (chunks, outcome)) :
    (∀ chunk ∈ chunks, Made (doc.marks quickXml options source) options.targetChunkBytes chunk) ∧
      (outcome = .ended → Cover 0 (doc.features quickXml options isBoundedBy) chunks) := by
  have hturns : outcome ≠ .outOfTurns := by
    have hterminates := chunks_terminates h quickXml source options
    rw [hrun] at hterminates
    exact hterminates
  rw [chunks_delivers h] at hrun
  have hread := reading_ofInput doc.render source options
  have hstand : Stands 0 (doc.before.flatMap Aside.render ++ (doc.root.render ++
      doc.after.flatMap Aside.render)) (ofInput doc.render source options) :=
    ⟨[], List.not_mem_nil, rfl, rfl⟩
  have hemits : Emits (doc.marks quickXml options source) [] (doc.marks quickXml options source)
      (ofInput doc.render source options) :=
    ⟨[], rfl, .empty rfl rfl rfl (.nil 0), ⟨nofun, nofun, nofun⟩, nofun⟩
  have hends : Ends quickXml outcome (ofInput doc.render source options) chunks :=
    ⟨hturns, _, hrun⟩
  have hstopped : Stopped (doc.marks quickXml options source) options.targetChunkBytes outcome
      chunks → (∀ chunk ∈ chunks, Made (doc.marks quickXml options source)
        options.targetChunkBytes chunk) ∧
      (outcome = .ended → Cover 0 (doc.features quickXml options isBoundedBy) chunks) := by
    intro hstopped
    obtain ⟨e, hfailed⟩ := hstopped.failed
    exact ⟨hstopped.made, fun hended => by rw [hfailed] at hended; cases hended⟩
  -- What stands before the root, the root, and what stands after it.
  obtain ⟨p, hends₁, hstand₁⟩ := outside_asides doc.before hread (.inl rfl) hstand hends
  rw [Nat.zero_add] at hstand₁
  have hread₁ : Reading doc.render options source
      ((ofInput doc.render source options).moveTo p) :=
    { hread with cache := hread.cache }
  rcases outside_root doc hread₁ rfl rfl rfl rfl hstand₁
      (hemits.same (moveTo_sameChunk _ _)) rfl hends₁ with
    hfailed | ⟨s, hs, hmode, hstand₂, out, cs, htotal, hends₂, hemits₂⟩
  · exact hstopped hfailed
  rw [← List.append_nil (doc.after.flatMap Aside.render)] at hstand₂
  obtain ⟨q, hends₃, hstand₃⟩ := outside_asides doc.after hs (.inr (.inr hmode)) hstand₂ hends₂
  have hs₃ : Reading doc.render options source (s.moveTo q) := { hs with cache := hs.cache }
  rcases cover_of_end hs₃ hmode hstand₃
      ⟨out, cs, htotal, hends₃, hemits₂.same (moveTo_sameChunk _ _)⟩ with
    hfailed | ⟨hcover, hmade⟩
  · exact hstopped hfailed
  rw [doc.marks_features] at hcover
  exact ⟨hmade, fun _ => hcover⟩

/-- A run over a document that ends without an error covers the features that
the walk finds when it does not enter the `boundedBy` of collections: each
once, in order, byte for byte, with its offsets. -/
theorem chunks_cover_features (doc : Document) {reader : List Read}
    (h : Delivers reader doc.render) (quickXml : Bytes → Option Bytes) (source : Nat)
    (options : SplitterOptions) {chunks : List FeatureChunk}
    (hended : (new reader source options).chunks quickXml = (chunks, .ended)) :
    Cover 0 (doc.features quickXml options isBoundedBy) chunks :=
  (chunks_emit doc h source hended).2 rfl

def noSpace : Space := ⟨[], rfl⟩

/-- A tag without attributes. -/
def plainTag (name : Bytes) (h : name ≠ [] ∧ name.all isNameByte = true) : Tag :=
  ⟨⟨name, h.1, h.2⟩, [], noSpace⟩

/-- A tag whose one attribute is `key` with `value`. -/
def declaringTag (name key value : Bytes) (hname : name ≠ [] ∧ name.all isNameByte = true)
    (hkey : key ≠ [] ∧ key.all isNameByte = true) (hvalue : 0x22 ∉ value ∧ 0x3c ∉ value) : Tag where
  name := ⟨name, hname.1, hname.2⟩
  attrs :=
    [ { before := ⟨[0x20], by decide⟩
        separated := by decide
        key := ⟨key, hkey.1, hkey.2⟩
        beforeEq := noSpace
        afterEq := noSpace
        quote := 0x22
        isQuote := .inl rfl
        value := value
        unquoted := hvalue.1
        noTag := hvalue.2 } ]
  space := noSpace

theorem isName_collection :
    utf8 "FeatureCollection" ≠ [] ∧ (utf8 "FeatureCollection").all isNameByte = true := by
  decide

/-- A collection, its namespace the default one, with `content`. -/
def collectionIn (uri : Bytes) (h : 0x22 ∉ uri ∧ 0x3c ∉ uri) (content : Content) : Document where
  before := []
  root :=
    { tag := declaringTag (utf8 "FeatureCollection") (utf8 "xmlns") uri isName_collection
        (by decide) h
      content := some (content, noSpace) }
  after := []

/-- A collection of GML 3.1. -/
def gmlCollection (content : Content) : Document := collectionIn ns.GML (by decide) content

def memberTag : Tag := plainTag (utf8 "featureMember") (by decide)

def tagF : Tag := plainTag (utf8 "F") (by decide)

def boundedByTag : Tag := plainTag (utf8 "boundedBy") (by decide)

/-- `<featureMember><F/></featureMember>` -/
def memberOfF : Content := .element memberTag (.empty tagF .nil) noSpace .nil

/-- A collection of one feature. -/
theorem chunks_cover_features_one :
    ∃ chunks, Cover 0 ((gmlCollection memberOfF).features some .default isBoundedBy) chunks ∧
      chunks.map FeatureChunk.bytes = [utf8 "<F/>"] := by
  have hread : Delivers [.bytes (gmlCollection memberOfF).render]
      (gmlCollection memberOfF).render := by
    have : Delivers _ ((gmlCollection memberOfF).render ++ []) := .bytes (by decide) .done
    rwa [List.append_nil] at this
  have hrun : ((new [.bytes (gmlCollection memberOfF).render] 0 .default).chunks some).2 = .ended ∧
      ((new [.bytes (gmlCollection memberOfF).render] 0 .default).chunks some).1.map
        FeatureChunk.bytes = [utf8 "<F/>"] := by
    decide +kernel
  exact ⟨_, chunks_cover_features (gmlCollection memberOfF) hread some 0 .default
    (Prod.ext rfl hrun.1), hrun.2⟩

/-- The walk that enters every element finds a feature inside the `boundedBy`
of a collection, and the splitter, at its end without an error, has not. -/
theorem not_cover_inside_boundedBy :
    ∃ doc : Document,
      (new [.bytes doc.render] 0 .default).chunks some = ([], .ended) ∧
      ¬ Cover 0 (doc.features some .default fun _ => false) [] := by
  refine ⟨gmlCollection (.element boundedByTag memberOfF noSpace .nil), by decide +kernel, ?_⟩
  intro hcover
  have hnone : (gmlCollection (.element boundedByTag memberOfF noSpace .nil)).features some .default
      (fun _ => false) = [] := by
    generalize Document.features _ _ _ _ = fs at hcover
    cases hcover
    rfl
  revert hnone
  decide +kernel

end

end Splitter

end Xeibe

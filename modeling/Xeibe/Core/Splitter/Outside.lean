import Xeibe.Core.Splitter.Emission
import Xeibe.Core.Splitter.InFeature

/-!
# Outside features

A run over a content of a document, outside features.  `Outside σ s` says where
the splitter stands: the declarations in scope, the open elements with their
boxes, and the root candidate of the place `σ`.  `Running total rest s` says
that the run makes the chunks `total`, and that of the marks of the document
those of `rest` are still to come.

`outside_content` takes the splitter from the start of a content to its end, by
induction on the content, and the marks of the content from `rest`; inside a
feature `feature_content` does that.  The run may also stop on the way, at a
start tag that the splitter cannot read: `Stopped` says what holds then.
-/

namespace Xeibe

open Lib

namespace Splitter

section

variable {quickXml : Bytes → Option Bytes} {outcome : Outcome} {s s' : Splitter}
  {all rest : List Mark}

/-! ## The remembered names -/

/-- A remembered name is the one the declarations in scope give. -/
def NamesOk (s : Splitter) : Prop :=
  s.namesGeneration ≤ s.bindingsGeneration ∧
    (s.namesGeneration = s.bindingsGeneration → ∀ raw name, s.names.lookup raw = some name →
      name = resolveIn s.bindings raw true)

/-- What is remembered of the declarations in scope is right. -/
def CacheOk (s : Splitter) : Prop := NamesOk s ∧ ContextOk s

theorem CacheOk.steady (h : CacheOk s) (hs : Steady s s') : CacheOk s' := by
  refine ⟨?_, hs.contexts h.2⟩
  unfold NamesOk
  rw [hs.namesGeneration, hs.bindingsGeneration, hs.names, hs.bindings]
  exact h.1

theorem CacheOk.declare (h : CacheOk s) (declarations : List (Option Bytes × Bytes)) :
    CacheOk (s.declare declarations) := by
  have hle := h.1.1
  have hcontext := h.2.generation
  unfold Splitter.declare
  split
  · exact h
  · refine ⟨⟨Nat.le_succ_of_le hle, fun hsame => ?_⟩, Nat.le_succ_of_le hcontext,
      fun hsame => ?_, h.2.context_allocated, h.2.chunk_allocated, h.2.shared⟩
    · dsimp only at hsame
      omega
    · dsimp only at hsame
      omega

theorem CacheOk.undeclare (h : CacheOk s) (declared : Bool) (n : Nat) :
    CacheOk (s.undeclare declared n) := by
  have hle := h.1.1
  have hcontext := h.2.generation
  unfold Splitter.undeclare truncateBindings
  split
  · refine ⟨⟨Nat.le_succ_of_le hle, fun hsame => ?_⟩, Nat.le_succ_of_le hcontext,
      fun hsame => ?_, h.2.context_allocated, h.2.chunk_allocated, h.2.shared⟩
    · dsimp only at hsame
      omega
    · dsimp only at hsame
      omega
  · exact h

/-- A resolved name is remembered, and nothing else changes. -/
theorem resolveElement_spec (h : CacheOk s) (raw : Bytes) :
    (s.resolveElement raw).1 = resolveIn s.bindings raw true ∧
      CacheOk (s.resolveElement raw).2 ∧
      ∃ names generation, (s.resolveElement raw).2 =
        { s with names := names, namesGeneration := generation } := by
  have hrefresh : NamesOk s.refreshNames ∧
      s.refreshNames.namesGeneration = s.bindingsGeneration ∧
      ∃ names generation, s.refreshNames =
        { s with names := names, namesGeneration := generation } := by
    unfold refreshNames
    split
    · rename_i hsame
      exact ⟨h.1, hsame, s.names, s.namesGeneration, rfl⟩
    · exact ⟨⟨Nat.le_refl _, fun _ raw name hlookup => nomatch hlookup⟩, rfl, [], _, rfl⟩
  obtain ⟨hcache, hgeneration, names, generation, hrefreshed⟩ := hrefresh
  have hbindings : s.refreshNames.bindings = s.bindings := by rw [hrefreshed]
  have hbindingsGeneration : s.refreshNames.bindingsGeneration = s.bindingsGeneration := by
    rw [hrefreshed]
  have hcontext : ContextOk s.refreshNames := by
    rw [hrefreshed]
    exact h.2
  unfold resolveElement
  dsimp only
  split
  · rename_i name hlookup
    refine ⟨?_, ⟨hcache, hcontext⟩, names, generation, hrefreshed⟩
    rw [← hbindings]
    exact hcache.2 (hgeneration.trans hbindingsGeneration.symm) raw name hlookup
  · refine ⟨by rw [resolve, hbindings],
      ⟨⟨hcache.1, fun hsame raw' name hlookup => ?_⟩, hcontext⟩, ?_⟩
    · dsimp only at hlookup ⊢
      rw [List.lookup_cons] at hlookup
      split at hlookup
      · rename_i hraw
        rw [eq_of_beq hraw]
        exact (Option.some.inj hlookup).symm
      · exact hcache.2 hsame raw' name hlookup
    · exact ⟨(raw, s.refreshNames.resolve raw true) :: s.refreshNames.names, generation, by
        rw [hrefreshed]⟩

/-! ## Runs over a document -/

/-- The run from `s` makes the chunks `total`, with those returned before; of
the marks `all` those of `rest` are still to come. -/
def Running (all : List Mark) (quickXml : Bytes → Option Bytes) (outcome : Outcome)
    (total : List FeatureChunk) (rest : List Mark) (s : Splitter) : Prop :=
  ∃ out cs, total = out ++ cs ∧ Ends quickXml outcome s cs ∧ Emits all out rest s

theorem Running.drain {total : List FeatureChunk} (h : Running all quickXml outcome total rest s) :
    Running all quickXml outcome total rest s.drain := by
  obtain ⟨out, cs, htotal, hends, hemits⟩ := h
  obtain ⟨more, hmore, hends'⟩ := hends.drain
  exact ⟨out ++ s.ready, more, by rw [htotal, hmore, List.append_assoc], hends', hemits.drain⟩

/-- The run has stopped with an error; its chunks are of the marks `all`. -/
structure Stopped (all : List Mark) (target : Nat) (outcome : Outcome)
    (total : List FeatureChunk) : Prop where
  failed : ∃ e, outcome = .failed e
  made : ∀ chunk ∈ total, Made all target chunk

/-- Between steps outside features: what every place has in common. -/
structure Reading (input : Bytes) (options : SplitterOptions) (source : Nat) (s : Splitter) :
    Prop where
  buf : s.buf = input
  base : s.base = 0
  eof : s.eof = true
  running : s.finished = false
  ready : s.ready = []
  options_eq : s.options = options
  source_eq : s.source = source
  cache : CacheOk s

theorem Emits.stopped {input : Bytes} {options : SplitterOptions} {source : Nat}
    {out total cs : List FeatureChunk} (h : Emits all out rest s)
    (hs : Reading input options source s) (htotal : total = out ++ cs)
    (hfailed : ∃ e, outcome = .failed e ∧ cs = []) :
    Stopped all options.targetChunkBytes outcome total := by
  obtain ⟨e, houtcome, rfl⟩ := hfailed
  obtain ⟨seen, hall, hcurrent, hboxes, hmade⟩ := h
  refine ⟨⟨e, houtcome⟩, ?_⟩
  rw [htotal, List.append_nil, ← hs.options_eq]
  rw [hs.ready, List.append_nil] at hmade
  exact hmade

/-- A place in a document, outside features: the header, the declarations in
scope, the innermost open element with its box, those around it, and the root
candidate. -/
structure Place where
  header : Option DocumentHeader
  scope : List (Option Bytes × Bytes)
  frame : Frame
  own : Option Box
  below : List Frame
  cand : Option Nat

/-- The box of the elements around the innermost open one. -/
def Place.outer (σ : Place) : Option Box := boxOf (σ.below.findSome? Frame.boundedBy)

/-- What of an open element does not change while it is open. -/
structure SameFrame (a b : Frame) : Prop where
  rawName : b.rawName = a.rawName
  members : b.members = a.members
  bindingsBefore : b.bindingsBefore = a.bindingsBefore

structure Outside (input : Bytes) (options : SplitterOptions) (source : Nat) (σ : Place)
    (s : Splitter) : Prop extends Reading input options source s where
  mode_eq : s.mode = .outside
  header_eq : s.header = σ.header
  bindings_eq : s.bindings = σ.scope
  stack_eq : ∃ frame, s.stack = frame :: σ.below ∧ SameFrame σ.frame frame ∧
    boxOf frame.boundedBy = σ.own
  cand_eq : s.rootCandidate = σ.cand

/-- The start tag of an element, self-closing or not. -/
def renderOpen (tag : Tag) (empty : Bool) : Bytes :=
  if empty then tag.renderEmpty else tag.renderStart

/-- What the splitter remembers of names, with the generations. -/
structure Noted where
  bindingsGeneration : Nat
  names : List (Bytes × Option QName)
  namesGeneration : Nat

/-- The splitter that has read a tag up to `pos`, with the declarations
`scope` in scope. -/
def atTag (s : Splitter) (pos : Nat) (scope : List (Option Bytes × Bytes)) (noted : Noted) :
    Splitter :=
  { s with
    pos
    bindings := scope
    bindingsGeneration := noted.bindingsGeneration
    names := noted.names
    namesGeneration := noted.namesGeneration }

/-- The markup of a start tag at `off`. -/
def openMarkup (off : Nat) (tag : Tag) (empty : Bool) : Markup :=
  { kind := .start (off + (1 + tag.name.bytes.length)) empty, start := off,
    stop := off + (renderOpen tag empty).length }

/-- What stands in a start tag between the brackets. -/
theorem slice_renderOpen (tag : Tag) (empty : Bool) (tail : Bytes) :
    slice (renderOpen tag empty ++ tail) 1
        (if empty = true then (renderOpen tag empty).length - 2
          else (renderOpen tag empty).length - 1) = tag.name.bytes ++ tag.rest := by
  have hslice : ∀ close : Bytes, slice (0x3c :: (tag.name.bytes ++ (tag.rest ++ close)) ++ tail) 1
      ((0x3c :: (tag.name.bytes ++ (tag.rest ++ close)) : Bytes).length - close.length) =
      tag.name.bytes ++ tag.rest := by
    intro close
    have hlen : (0x3c :: (tag.name.bytes ++ (tag.rest ++ close)) : Bytes).length - close.length =
        1 + (tag.name.bytes ++ tag.rest).length := by
      simp only [List.length_cons, List.length_append]
      omega
    have hbytes : 0x3c :: (tag.name.bytes ++ (tag.rest ++ close)) ++ tail =
        [0x3c] ++ ((tag.name.bytes ++ tag.rest) ++ (close ++ tail)) := by simp
    rw [hlen, hbytes]
    have := slice_append_right [0x3c] ((tag.name.bytes ++ tag.rest) ++ (close ++ tail)) 0
      (tag.name.bytes ++ tag.rest).length
    rw [List.length_singleton, Nat.add_zero] at this
    rw [this, slice_append_left (Nat.le_refl _)]
    simp [slice]
  cases empty with
  | true => exact hslice [0x2f, 0x3e]
  | false => exact hslice [0x3e]

theorem nextMarkup_open (heof : s.eof = true) {off : Nat} {tag : Tag} {empty : Bool}
    {tail : Bytes} (hstand : Stands off (renderOpen tag empty ++ tail) s) :
    s.nextMarkup =
      .ok (some
        { kind := .start (off + (1 + tag.name.bytes.length)) empty, start := off,
          stop := off + (renderOpen tag empty).length },
        s.moveTo (off + (renderOpen tag empty).length)) := by
  cases empty with
  | true =>
    exact nextMarkup_at heof hstand
      (markupAt_empty (s := s.moveTo off) heof tag tail hstand.moveTo)
  | false =>
    exact nextMarkup_at heof hstand
      (markupAt_start (s := s.moveTo off) heof tag tail hstand.moveTo)

/-- A start tag outside features: it is the markup of the next step, and its
attributes and its name are those of the tag; or the splitter cannot read it. -/
theorem outside_startTag {input tail : Bytes} {options : SplitterOptions} {source off : Nat} {tag : Tag}
    {empty : Bool} {cs : List FeatureChunk} (hs : Reading input options source s)
    (hmode : s.mode = .prolog ∨ s.mode = .outside)
    (hstand : Stands off (renderOpen tag empty ++ tail) s) (hends : Ends quickXml outcome s cs) :
    (∃ e, outcome = .failed e ∧ cs = []) ∨ ∃ name noted, resolveIn (s.bindings ++ tag.declarations quickXml) tag.name.bytes true =
        some name ∧
      CacheOk (s.atTag (off + (renderOpen tag empty).length)
        (s.bindings ++ tag.declarations quickXml) noted) ∧
      Ends quickXml outcome ((s.atTag (off + (renderOpen tag empty).length)
        (s.bindings ++ tag.declarations quickXml) noted).startNamed quickXml
        (openMarkup off tag empty) tag.name.bytes (tag.attrs.map Attr.pair) name empty
        (!(tag.declarations quickXml).isEmpty) s.bindings.length) cs := by
  rcases hends.next hs.running hs.ready with ⟨e, -, hfailed⟩ | ⟨next, hstep, hends'⟩
  · exact .inl ⟨e, hfailed⟩
  right
  have hmarkup := nextMarkup_open hs.eof hstand
  have hstep' : (s.moveTo (off + (renderOpen tag empty).length)).startOutside quickXml
      { kind := .start (off + (1 + tag.name.bytes.length)) empty, start := off,
        stop := off + (renderOpen tag empty).length } (off + (1 + tag.name.bytes.length)) empty =
      .ok next := by
    rw [← hstep]
    unfold step stepMarkup
    rcases hmode with h | h
    all_goals
      have hmode' : (s.moveTo (off + (renderOpen tag empty).length)).mode = _ := h
      rw [h]
      dsimp only
      rw [hmarkup]
      simp only [bind, Except.bind, onMarkup, hmode']
  have hinner : slice (s.moveTo (off + (renderOpen tag empty).length)).buf (off + 1)
      (if empty = true then off + (renderOpen tag empty).length - 2
        else off + (renderOpen tag empty).length - 1) = tag.name.bytes ++ tag.rest := by
    rw [← slice_renderOpen tag empty tail]
    have hslice := slice_at (s := s.moveTo off) hstand.moveTo 1
      (if empty = true then (renderOpen tag empty).length - 2
        else (renderOpen tag empty).length - 1)
    rw [← hslice]
    have hle : 2 ≤ (renderOpen tag empty).length := by
      cases empty <;> simp [renderOpen, Tag.renderEmpty, Tag.renderStart] <;> omega
    have hstop : (if empty = true then off + (renderOpen tag empty).length - 2
        else off + (renderOpen tag empty).length - 1) = (s.moveTo off).pos +
        (if empty = true then (renderOpen tag empty).length - 2
          else (renderOpen tag empty).length - 1) := by
      rw [moveTo_pos]
      split <;> omega
    rw [hstop]
    rfl
  unfold startOutside at hstep'
  have hnameLen : off + (1 + tag.name.bytes.length) - off - 1 = tag.name.bytes.length := by omega
  dsimp only at hstep'
  rw [hinner, hnameLen] at hstep'
  obtain ⟨attributes, name, hattributes, hname, hnext⟩ := startTag_ok hstep'
  rw [List.drop_left, parseAttributes_rest] at hattributes
  rw [← Except.ok.inj hattributes, List.take_left] at hname hnext
  have hcache : CacheOk ((s.moveTo (off + (renderOpen tag empty).length)).declare
      ((tag.attrs.map Attr.pair).filterMap (declaration quickXml))) :=
    CacheOk.declare (s := s.moveTo (off + (renderOpen tag empty).length)) hs.cache _
  obtain ⟨hresolved, hcache', names, generation, hu⟩ := resolveElement_spec hcache tag.name.bytes
  have hdeclare : ∃ generation, (s.moveTo (off + (renderOpen tag empty).length)).declare
      ((tag.attrs.map Attr.pair).filterMap (declaration quickXml)) =
      { s with
        pos := off + (renderOpen tag empty).length
        bindings := s.bindings ++ tag.declarations quickXml
        bindingsGeneration := generation } := by
    unfold Splitter.declare Tag.declarations
    split
    · rename_i hnil
      rw [List.isEmpty_iff.1 hnil, List.append_nil]
      exact ⟨s.bindingsGeneration, rfl⟩
    · exact ⟨s.bindingsGeneration + 1, rfl⟩
  obtain ⟨bindingsGeneration, hdeclared⟩ := hdeclare
  rw [hdeclared] at hu hresolved hname
  refine ⟨name, ⟨bindingsGeneration, names, generation⟩, ?_, ?_, ?_⟩
  · rw [← hname, hresolved]
  · rw [hdeclared, hu] at hcache'
    exact hcache'
  · rw [hnext, hdeclared, hu] at hends'
    exact hends'

/-! ## Places are kept -/

variable {input tail : Bytes} {options : SplitterOptions} {source : Nat} {σ : Place} {off : Nat}
  {total : List FeatureChunk}

theorem Outside.atTag (h : Outside input options source σ s) (pos : Nat)
    {scope : List (Option Bytes × Bytes)} {noted : Noted}
    (hcache : CacheOk (s.atTag pos scope noted)) :
    Outside input options source { σ with scope := scope } (s.atTag pos scope noted) where
  buf := h.buf
  base := h.base
  eof := h.eof
  running := h.running
  ready := h.ready
  options_eq := h.options_eq
  source_eq := h.source_eq
  cache := hcache
  mode_eq := h.mode_eq
  header_eq := h.header_eq
  bindings_eq := rfl
  stack_eq := h.stack_eq
  cand_eq := h.cand_eq

/-- What a chunk function leaves alone is the place, once what it made ready
is taken. -/
theorem Outside.steady (h : Outside input options source σ s) (hsteady : Steady s s')
    (hwindow : Untouched s s') : Outside input options source σ s'.drain where
  buf := hwindow.buf.trans h.buf
  base := hwindow.base.trans h.base
  eof := hwindow.eof.trans h.eof
  running := hsteady.finished.trans h.running
  ready := rfl
  options_eq := hsteady.options.trans h.options_eq
  source_eq := hsteady.source.trans h.source_eq
  cache := h.cache.steady
    ⟨hsteady.source, hsteady.options, hsteady.header, hsteady.stack, hsteady.bindings,
      hsteady.bindingsGeneration, hsteady.names, hsteady.namesGeneration, hsteady.finished,
      hsteady.contexts⟩
  mode_eq := hwindow.mode.trans h.mode_eq
  header_eq := hsteady.header.trans h.header_eq
  bindings_eq := hsteady.bindings.trans h.bindings_eq
  stack_eq := by
    obtain ⟨frame, hstack, hframe⟩ := h.stack_eq
    exact ⟨frame, hsteady.stack.trans hstack, hframe⟩
  cand_eq := hwindow.root.trans h.cand_eq

theorem Outside.moveTo (h : Outside input options source σ s) (p : Nat) :
    Outside input options source σ (s.moveTo p) :=
  { h with }

theorem Outside.modifyTop (h : Outside input options source σ s) {f : Frame → Frame}
    {own : Option Box} (hf : ∀ frame, SameFrame frame (f frame) ∧
      (boxOf frame.boundedBy = σ.own → boxOf (f frame).boundedBy = own)) :
    Outside input options source { σ with own }
      { s with stack := Splitter.modifyTop f s.stack } :=
  { h with
    cache := h.cache
    stack_eq := by
      obtain ⟨frame, hstack, hframe, hown⟩ := h.stack_eq
      obtain ⟨hsame, hbox⟩ := hf frame
      refine ⟨f frame, by rw [hstack]; rfl, ?_, hbox hown⟩
      exact ⟨hsame.rawName.trans hframe.rawName, hsame.members.trans hframe.members,
        hsame.bindingsBefore.trans hframe.bindingsBefore⟩ }

theorem Outside.markChild (h : Outside input options source σ s) :
    Outside input options source σ s.markChild :=
  h.modifyTop fun _ => ⟨⟨rfl, rfl, rfl⟩, id⟩

theorem boxOf_findSome (frame : Frame) (below : List Frame) :
    boxOf ((frame :: below).findSome? Frame.boundedBy) =
      (boxOf frame.boundedBy).or (boxOf (below.findSome? Frame.boundedBy)) := by
  rw [List.findSome?_cons]
  cases frame.boundedBy <;> rfl

theorem Outside.box (h : Outside input options source σ s) :
    boxOf s.collectionBoundedBy = σ.own.or σ.outer := by
  obtain ⟨frame, hstack, -, hown⟩ := h.stack_eq
  unfold collectionBoundedBy
  rw [hstack, boxOf_findSome, hown]
  rfl

theorem slice_piece {piece : Bytes} (hstand : Stands off (piece ++ tail) s) :
    slice s.buf off (off + piece.length) = piece := by
  have := slice_at (s := s.moveTo off) hstand.moveTo 0 piece.length
  rw [slice_append_left (Nat.le_refl _)] at this
  rw [moveTo_buf, moveTo_pos, Nat.add_zero] at this
  rw [this]
  simp [slice]

theorem Stands.same (h : Stands off tail s) (hbuf : s'.buf = s.buf) (hpos : s'.pos = s.pos) :
    Stands off tail s' := by
  unfold Stands
  rw [hbuf, hpos]
  exact h

/-! ## A feature -/

theorem Outside.within (h : Outside input options source σ s) (hsteady : Steady s s')
    (hwindow : Untouched s s') (name : Name) (emit : Bool) (start : Nat) (boundedBy : Bool) :
    Within name (.feature 1 emit start boundedBy)
      (s'.enterFeature name.bytes emit start boundedBy).drain :=
  ⟨hwindow.eof.trans h.eof, hsteady.finished.trans h.running, rfl, rfl, rfl⟩

theorem beginWanted_same (s : Splitter) (emit : Bool) (start : Nat) :
    Steady s (s.beginWanted emit start) ∧ Untouched s (s.beginWanted emit start) :=
  ⟨beginWanted_steady s emit start, beginWanted_untouched s emit start⟩

theorem markChild_sameChunk (s : Splitter) : SameChunk s s.markChild := by
  refine ⟨rfl, rfl, rfl, rfl, rfl, rfl, rfl, rfl, rfl, rfl, rfl, fun a ha => ?_⟩
  unfold held markChild modifyTop at *
  cases hstack : s.stack with
  | nil => simpa [hstack] using ha
  | cons frame stack => simpa [hstack] using ha

/-- The feature at a place, whose element is `element`. -/
def Place.here (σ : Place) (offset : Nat) (element : Root) : Located :=
  ⟨⟨offset, σ.scope, element⟩, σ.own.or σ.outer⟩

theorem Outside.beginWanted {out : List FeatureChunk} {element : Root} {emit : Bool}
    (hs : Outside input options source σ s)
    (hemits : Emits all out (wantedMark emit (σ.here off element) ++ rest) s) :
    Emits all out (wantedMark emit (σ.here off element) ++ rest)
        (s.markChild.beginWanted emit off) ∧
      (emit = true → Opened (σ.here off element) (s.markChild.beginWanted emit off)) :=
  (hemits.same s.markChild_sameChunk).beginWanted (l := σ.here off element) hs.markChild.cache.2
    hs.markChild.bindings_eq hs.markChild.box.symm

/-- A self-closing feature. -/
theorem outside_feature_empty {tag : Tag} {cs out : List FeatureChunk}
    (hs : Outside input options source σ s)
    (hstand : Stands (off + tag.renderEmpty.length) tail s)
    (hbytes : slice s.buf off (off + tag.renderEmpty.length) = tag.renderEmpty) (name : QName)
    (hemits : Emits all out
      (wantedMark (wantedIn options name) (σ.here off ⟨tag, none⟩) ++ rest) s)
    (htotal : total = out ++ cs)
    (hends : Ends quickXml outcome
      (s.startFeature (openMarkup off tag true) tag.name.bytes name true) cs) :
    ∃ s', Outside input options source σ s' ∧
      Stands (off + tag.renderEmpty.length) tail s' ∧
      Running all quickXml outcome total rest s' := by
  have hmark := hs.markChild
  obtain ⟨hsteady, huntouched⟩ := beginWanted_same s.markChild (wantedIn options name) off
  obtain ⟨hbegun, hopened⟩ := hs.beginWanted hemits
  have hslice : slice (s.markChild.beginWanted (wantedIn options name) off).buf
      (off - (s.markChild.beginWanted (wantedIn options name) off).base)
      (off + tag.renderEmpty.length) = tag.renderEmpty := by
    have hbase : s.markChild.base = 0 := hs.base
    rw [huntouched.buf, huntouched.base, hbase]
    exact hbytes
  have hended := hbegun.endFeature hopened hslice
  have hstart : s.startFeature (openMarkup off tag true) tag.name.bytes name true =
      (s.markChild.beginWanted (wantedIn options name) off).endFeature
        (wantedIn options name) off (off + tag.renderEmpty.length) := by
    unfold startFeature openMarkup
    dsimp only
    rw [hs.base, Nat.zero_add, hs.options_eq]
    rfl
  rw [hstart] at hends
  have hboth := huntouched.trans (endFeature_untouched _ (wantedIn options name) off
    (off + tag.renderEmpty.length))
  refine ⟨_, hmark.steady (hsteady.trans (endFeature_steady _ _ _ _)) hboth,
    hstand.same hboth.buf hboth.pos, Running.drain ⟨out, cs, htotal, hends, hended⟩⟩

/-- A feature with content. -/
theorem outside_feature {tag : Tag} {children : Content} {space : Space}
    {cs out : List FeatureChunk} (hs : Outside input options source σ s)
    (hstand : Stands (off + tag.renderStart.length)
      (children.render ++ (tag.renderEnd space ++ tail)) s)
    (hbytes : slice s.buf off (off + (tag.renderStart ++ (children.render ++
      tag.renderEnd space)).length) = tag.renderStart ++ (children.render ++ tag.renderEnd space))
    (name : QName)
    (hemits : Emits all out (wantedMark (wantedIn options name)
      (σ.here off ⟨tag, some (children, space)⟩) ++ rest) s)
    (htotal : total = out ++ cs)
    (hends : Ends quickXml outcome
      (s.startFeature (openMarkup off tag false) tag.name.bytes name false) cs) :
    ∃ s', Outside input options source σ s' ∧
      Stands (off + (tag.renderStart ++ (children.render ++ tag.renderEnd space)).length) tail s' ∧
      Running all quickXml outcome total rest s' := by
  have hmark := hs.markChild
  obtain ⟨hsteady, huntouched⟩ := beginWanted_same s.markChild (wantedIn options name) off
  obtain ⟨hbegun, hopened⟩ := hs.beginWanted hemits
  have hwithin := hmark.within hsteady huntouched tag.name (wantedIn options name) off false
  have hstart : s.startFeature (openMarkup off tag false) tag.name.bytes name false =
      (s.markChild.beginWanted (wantedIn options name) off).enterFeature
        tag.name.bytes (wantedIn options name) off false := by
    unfold startFeature openMarkup
    dsimp only
    rw [hs.base, Nat.zero_add, hs.options_eq]
    rfl
  rw [hstart] at hends
  generalize s.markChild.beginWanted (wantedIn options name) off = u at *
  obtain ⟨more, hmore, hends'⟩ := hends.drain
  have hstand' : Stands (off + tag.renderStart.length)
      (children.render ++ (tag.renderEnd space ++ tail))
      (u.enterFeature tag.name.bytes (wantedIn options name) off false).drain :=
    hstand.same huntouched.buf huntouched.pos
  obtain ⟨p, hstand₂, hends₂⟩ := feature_whole hwithin hstand' hends'
  rw [if_neg Bool.false_ne_true] at hends₂
  have hlen : off + tag.renderStart.length + children.render.length +
      (tag.renderEnd space).length =
      off + (tag.renderStart ++ (children.render ++ tag.renderEnd space)).length := by
    simp only [List.length_append]
    omega
  rw [hlen] at hstand₂ hends₂
  -- The splitter after the feature: outside again, and what is ready is taken.
  generalize hv : ((u.enterFeature tag.name.bytes (wantedIn options name) off
    false).drain.moveTo p).setMode .outside = v at *
  have hvbuf : v.buf = s.buf := by rw [← hv]; exact huntouched.buf
  have hvbase : v.base = 0 := by rw [← hv]; exact huntouched.base.trans hs.base
  have houtside : Outside input options source σ v := by
    have := (hmark.steady hsteady huntouched).moveTo p
    rw [← hv]
    exact { this with mode_eq := rfl, cache := this.cache }
  have hsame : SameChunk u.drain v := by
    rw [← hv]
    exact ⟨rfl, rfl, rfl, rfl, rfl, rfl, rfl, rfl, rfl, rfl, rfl, fun _ => id⟩
  have hopenedV : wantedIn options name = true →
      Opened (σ.here off ⟨tag, some (children, space)⟩) v := by
    intro hwanted
    have hdrained : Opened (σ.here off ⟨tag, some (children, space)⟩) u.drain :=
      ⟨(hopened hwanted).first, (hopened hwanted).context, (hopened hwanted).box,
        (hopened hwanted).shared⟩
    exact hdrained.same hsame
  have hslice : slice v.buf (off - v.base)
      (off + (tag.renderStart ++ (children.render ++ tag.renderEnd space)).length) =
      tag.renderStart ++ (children.render ++ tag.renderEnd space) := by
    rw [hvbuf, hvbase]
    exact hbytes
  have hended := (hbegun.drain.same hsame).endFeature hopenedV hslice
  have hboth := endFeature_untouched v (wantedIn options name) off (off +
    (tag.renderStart ++ (children.render ++ tag.renderEnd space)).length)
  refine ⟨_, houtside.steady (endFeature_steady v (wantedIn options name) off (off +
      (tag.renderStart ++ (children.render ++ tag.renderEnd space)).length)) hboth, ?_, ?_⟩
  · refine Stands.same (s := v) ?_ hboth.buf hboth.pos
    rw [← hv]
    exact hstand₂
  · refine Running.drain ⟨out ++ u.ready, more, ?_, hends₂, hended⟩
    rw [htotal, hmore, List.append_assoc]
    rfl

/-! ## The `boundedBy` of a collection -/

/-- A `boundedBy` is copied for the features it bounds. -/
theorem outside_boundedBy {tag : Tag} {children : Content} {space : Space} {box : Box}
    {cs out : List FeatureChunk} (hs : Outside input options source σ s)
    (hdistinct : (Mark.boxes all).Nodup)
    (hstand : Stands (off + tag.renderStart.length)
      (children.render ++ (tag.renderEnd space ++ tail)) s)
    (hbytes : slice s.buf off (off + (tag.renderStart ++ (children.render ++
      tag.renderEnd space)).length) = tag.renderStart ++ (children.render ++ tag.renderEnd space))
    (hbox : box = ⟨source, off, tag.renderStart ++ (children.render ++ tag.renderEnd space),
      flatten σ.scope⟩)
    (hemits : Emits all out (.bounded box :: rest) s) (htotal : total = out ++ cs)
    (hends : Ends quickXml outcome (s.enterFeature tag.name.bytes true off true) cs) :
    ∃ s', Outside input options source { σ with own := some box } s' ∧
      Stands (off + (tag.renderStart ++ (children.render ++ tag.renderEnd space)).length) tail s' ∧
      Running all quickXml outcome total rest s' := by
  have hwithin : Within tag.name (.feature 1 true off true)
      (s.enterFeature tag.name.bytes true off true) :=
    ⟨hs.eof, hs.running, hs.ready, rfl, rfl⟩
  have hstand' : Stands (off + tag.renderStart.length)
      (children.render ++ (tag.renderEnd space ++ tail))
      (s.enterFeature tag.name.bytes true off true) := hstand.same rfl rfl
  obtain ⟨p, hstand₂, hends₂⟩ := feature_whole hwithin hstand' hends
  rw [if_pos rfl] at hends₂
  have hlen : off + tag.renderStart.length + children.render.length +
      (tag.renderEnd space).length =
      off + (tag.renderStart ++ (children.render ++ tag.renderEnd space)).length := by
    simp only [List.length_append]
    omega
  rw [hlen] at hstand₂ hends₂
  generalize hv : ((s.enterFeature tag.name.bytes true off true).moveTo p).setMode .outside = v
    at *
  have houtside : Outside input options source σ v := by
    have := hs.moveTo p
    rw [← hv]
    exact { this with mode_eq := rfl, cache := this.cache }
  have hemitsV : Emits all out (.bounded box :: rest) v := by
    rw [← hv]
    exact hemits.same ⟨rfl, rfl, rfl, rfl, rfl, rfl, rfl, rfl, rfl, rfl, rfl, fun _ => id⟩
  have hvbuf : v.buf = s.buf := by
    rw [← hv]
    rfl
  have hsliceV : slice v.buf (off - v.base) (off + (tag.renderStart ++ (children.render ++
      tag.renderEnd space)).length) =
      tag.renderStart ++ (children.render ++ tag.renderEnd space) := by
    rw [hvbuf, houtside.base]
    exact hbytes
  have hcontext := houtside.steady v.currentContext_steady v.currentContext_untouched
  obtain ⟨-, -, hval⟩ := houtside.cache.2.currentContext
  generalize hstop : off + (tag.renderStart ++ (children.render ++ tag.renderEnd space)).length =
    stop at *
  have hended : Emits _ _ _ (v.endBoundedBy off stop) :=
    hemitsV.endBoundedBy houtside.cache.2 hdistinct (by rw [hbox, houtside.source_eq, hsliceV, houtside.bindings_eq])
  have hbounded : ∃ element, boxOf (some element) = some box ∧ (v.endBoundedBy off stop).drain =
      { v.currentContext.2.drain with
        stack := Splitter.modifyTop (fun frame => { frame with boundedBy := some element })
          v.currentContext.2.drain.stack
        allocated := v.currentContext.2.drain.allocated + 1 } := by
    refine ⟨_, ?_, rfl⟩
    have hsource : v.currentContext.2.source = source :=
      v.currentContext_steady.source.trans houtside.source_eq
    rw [hbox, ← houtside.bindings_eq, ← hval, ← hsliceV, ← hsource]
    rfl
  obtain ⟨element, helement, hbounded⟩ := hbounded
  refine ⟨(v.endBoundedBy off stop).drain, ?_, ?_, Running.drain ⟨out, cs, htotal, hends₂, hended⟩⟩
  · rw [hbounded]
    have hf (frame : Frame) :
        SameFrame frame { frame with boundedBy := some element } ∧
          (boxOf frame.boundedBy = σ.own → boxOf (some element) = some box) :=
      ⟨⟨rfl, rfl, rfl⟩, fun _ => helement⟩
    have := hcontext.modifyTop hf
    have hcontext := this.cache.2
    exact { this with
      cache := ⟨this.cache.1, hcontext.generation, hcontext.current,
        Nat.lt_succ_of_lt hcontext.context_allocated,
        Nat.lt_succ_of_lt hcontext.chunk_allocated, hcontext.shared⟩ }
  · have huntouched := endBoundedBy_untouched v off stop
    refine Stands.same (s := v) ?_ huntouched.buf huntouched.pos
    rw [← hv]
    exact hstand₂

/-! ## Containers -/

/-- The root candidate after an element that may hold features. -/
def candAfter (cand : Option Nat) (found : List Found) : Option Nat :=
  if .container ∈ found then none else cand

/-- The place after what the walk has found, with the box there. -/
def Place.after (σ : Place) (found : List Found) (own : Option Box) : Place :=
  { σ with cand := candAfter σ.cand found, own }

theorem Place.after_append (σ : Place) (a b : List Found) (own own' : Option Box) :
    σ.after (a ++ b) own' = (σ.after a own).after b own' := by
  unfold after candAfter
  by_cases ha : Found.container ∈ a <;> simp [ha]

theorem Place.after_nil (σ : Place) (own : Option Box) : σ.after [] own = { σ with own } := by
  simp [after, candAfter]

theorem Place.after_feature (σ : Place) (name : QName) (bytes : Bytes) :
    σ.after (foundFeature options name off bytes) σ.own = σ := by
  unfold after candAfter foundFeature
  split <;> simp

theorem Outside.noteContainer (h : Outside input options source σ s) (markup : Markup)
    (name : QName) :
    Outside input options source (σ.after (foundContainer options name) σ.own)
      (s.noteContainer markup (isMember options name || isCollection name) false) := by
  unfold Splitter.noteContainer Place.after candAfter foundContainer
  cases hcontainer : isMember options name || isCollection name with
  | true =>
    exact { h with cand_eq := by simp, cache := h.cache }
  | false =>
    exact { h with cand_eq := by simp [h.cand_eq], cache := h.cache }

theorem Outside.undeclare {declarations : List (Option Bytes × Bytes)}
    (h : Outside input options source { σ with scope := σ.scope ++ declarations } s) :
    Outside input options source σ (s.undeclare (!declarations.isEmpty) σ.scope.length) := by
  have hcache := h.cache.undeclare (!declarations.isEmpty) σ.scope.length
  have hbindings := h.bindings_eq
  unfold Splitter.undeclare at *
  cases declarations with
  | nil =>
    rw [List.append_nil] at hbindings
    exact { h with bindings_eq := hbindings, cache := hcache }
  | cons d ds =>
    refine { h with bindings_eq := ?_, cache := hcache }
    rw [List.isEmpty_cons, Bool.not_false, if_pos rfl, truncateBindings, hbindings]
    exact List.take_left

theorem undeclare_sameChunk (s : Splitter) (declared : Bool) (n : Nat) :
    SameChunk s (s.undeclare declared n) := by
  unfold undeclare
  split
  · exact ⟨rfl, rfl, rfl, rfl, rfl, rfl, rfl, rfl, rfl, rfl, rfl, fun _ => id⟩
  · exact .refl s

theorem countReferenced_sameChunk (s : Splitter) (referenced : Bool) :
    SameChunk s (s.countReferenced referenced) := by
  unfold countReferenced
  split
  · exact ⟨rfl, rfl, rfl, rfl, rfl, rfl, rfl, rfl, rfl, rfl, rfl, fun _ => id⟩
  · exact .refl s

theorem noteContainer_sameChunk (s : Splitter) (markup : Markup) (container isRoot : Bool) :
    SameChunk s (s.noteContainer markup container isRoot) := by
  unfold noteContainer
  split
  · exact ⟨rfl, rfl, rfl, rfl, rfl, rfl, rfl, rfl, rfl, rfl, rfl, fun _ => id⟩
  · split
    · exact ⟨rfl, rfl, rfl, rfl, rfl, rfl, rfl, rfl, rfl, rfl, rfl, fun _ => id⟩
    · exact .refl s

theorem setStack_sameChunk (s : Splitter) {stack : List Frame}
    (h : ∀ a ∈ stack.filterMap Frame.boundedBy, a ∈ s.stack.filterMap Frame.boundedBy) :
    SameChunk s (s.setStack stack) := by
  refine ⟨rfl, rfl, rfl, rfl, rfl, rfl, rfl, rfl, rfl, rfl, rfl, fun a ha => ?_⟩
  rcases List.mem_append.1 ha with ha | ha
  · exact List.mem_append_left _ (h a ha)
  · exact List.mem_append_right _ ha

theorem moveTo_sameChunk (s : Splitter) (p : Nat) : SameChunk s (s.moveTo p) :=
  ⟨rfl, rfl, rfl, rfl, rfl, rfl, rfl, rfl, rfl, rfl, rfl, fun _ => id⟩

theorem Outside.countReferenced (h : Outside input options source σ s) (referenced : Bool) :
    Outside input options source σ (s.countReferenced referenced) := by
  unfold Splitter.countReferenced
  split
  · exact { h with cache := h.cache }
  · exact h

/-- An end tag outside features closes the innermost open element. -/
theorem outside_endTag {tag : Tag} {space : Space} {frame : Frame} {below : List Frame}
    {cs : List FeatureChunk} (hs : Reading input options source s) (hmode : s.mode = .outside)
    (hstack : s.stack = frame :: below)
    (hstand : Stands off (tag.renderEnd space ++ tail) s) (hends : Ends quickXml outcome s cs) :
    (∃ e, outcome = .failed e ∧ cs = []) ∨
      Ends quickXml outcome (((s.moveTo (off + (tag.renderEnd space).length)).setStack
        below).endContainer frame (off + (tag.renderEnd space).length)) cs := by
  rcases hends.next hs.running hs.ready with ⟨e, -, hfailed⟩ | ⟨next, hstep, hends'⟩
  · exact .inl ⟨e, hfailed⟩
  right
  have hmarkup := nextMarkup_at hs.eof hstand
    (markupAt_end (s := s.moveTo off) hs.eof tag space tail hstand.moveTo)
  have hmode' : (s.moveTo (off + (tag.renderEnd space).length)).mode = .outside := hmode
  have hstack' : (s.moveTo (off + (tag.renderEnd space).length)).stack = frame :: below := hstack
  unfold step stepMarkup at hstep
  rw [hmode] at hstep
  dsimp only at hstep
  rw [hmarkup] at hstep
  simp only [bind, Except.bind, onMarkup, hmode', endOutside, endNamed, hstack'] at hstep
  split at hstep
  · rw [← Except.ok.inj hstep] at hends'
    exact hends'
  · cases hstep

/-- A self-closing element that is no feature. -/
theorem outside_container_empty {tag : Tag} {cs out : List FeatureChunk}
    {declarations : List (Option Bytes × Bytes)}
    (hs : Outside input options source { σ with scope := σ.scope ++ declarations } s)
    (hstand : Stands off tail s) (hemits : Emits all out rest s) (htotal : total = out ++ cs)
    (markup : Markup) (name : QName)
    (hends : Ends quickXml outcome (s.startContainer markup tag.name.bytes name true
      (!declarations.isEmpty) false σ.scope.length) cs) :
    ∃ s', Outside input options source (σ.after (foundContainer options name) σ.own) s' ∧
      Stands off tail s' ∧ Running all quickXml outcome total rest s' := by
  have hnote := (hs.noteContainer markup name).markChild
  have hclosed := (Outside.undeclare
    (σ := σ.after (foundContainer options name) σ.own) hnote).countReferenced
      (isMember options name)
  unfold startContainer at hends
  rw [hs.options_eq, if_pos rfl, if_neg Bool.false_ne_true] at hends
  have hsame : SameChunk s (((s.noteContainer markup (isMember options name || isCollection name)
      false).markChild.undeclare (!declarations.isEmpty) σ.scope.length).countReferenced
      (isMember options name)) :=
    (((noteContainer_sameChunk _ _ _ _).trans (markChild_sameChunk _)).trans
      (undeclare_sameChunk _ _ _)).trans (countReferenced_sameChunk _ _)
  refine ⟨_, hclosed, ?_, out, cs, htotal, hends, hemits.same hsame⟩
  have hremoded := ((s.noteContainer_remoded markup (isMember options name || isCollection name)
    false).trans (markChild_untouched _).remoded).trans
      ((undeclare_untouched _ (!declarations.isEmpty) σ.scope.length).trans
        (countReferenced_untouched _ (isMember options name))).remoded
  exact hstand.same hremoded.buf hremoded.pos

/-- An element that is no feature, with content: `inside` is what the splitter
does with the content. -/
theorem outside_container {tag : Tag} {children : Content} {space : Space}
    {cs out : List FeatureChunk} {declarations : List (Option Bytes × Bytes)} {name : QName}
    {found : List Found} {own : Option Box} {marks : List Mark}
    (inside : ∀ {τ : Place} {t : Splitter}, τ.scope = σ.scope ++ declarations →
      τ.frame.members = isMember options name → τ.own = none → τ.outer = σ.own.or σ.outer →
      Outside input options source τ t →
      Stands (off + tag.renderStart.length)
        (children.render ++ (tag.renderEnd space ++ tail)) t →
      Running all quickXml outcome total (marks ++ rest) t →
      Stopped all options.targetChunkBytes outcome total ∨
      ∃ t', Outside input options source (τ.after found own) t' ∧
        Stands (off + tag.renderStart.length + children.render.length)
          (tag.renderEnd space ++ tail) t' ∧
        Running all quickXml outcome total rest t')
    (hs : Outside input options source { σ with scope := σ.scope ++ declarations } s)
    (hstand : Stands (off + tag.renderStart.length)
      (children.render ++ (tag.renderEnd space ++ tail)) s)
    (hemits : Emits all out (marks ++ rest) s) (htotal : total = out ++ cs) (markup : Markup)
    (hends : Ends quickXml outcome (s.startContainer markup tag.name.bytes name false
      (!declarations.isEmpty) false σ.scope.length) cs) :
    Stopped all options.targetChunkBytes outcome total ∨
    ∃ s', Outside input options source
        (σ.after (foundContainer options name ++ found) σ.own) s' ∧
      Stands (off + (tag.renderStart ++ (children.render ++ tag.renderEnd space)).length) tail s' ∧
      Running all quickXml outcome total rest s' := by
  have hnote := (hs.noteContainer markup name).markChild
  unfold startContainer at hends
  rw [hs.options_eq, if_neg Bool.false_ne_true] at hends
  have hremoded := (s.noteContainer_remoded markup (isMember options name || isCollection name)
    false).trans (markChild_untouched _).remoded
  have hsame : SameChunk s (s.noteContainer markup (isMember options name || isCollection name)
      false).markChild :=
    (noteContainer_sameChunk _ _ _ _).trans (markChild_sameChunk _)
  generalize hopened : Frame.mk tag.name.bytes (isMember options name) false σ.scope.length none =
    opened
  have hends' : Ends quickXml outcome
      ((s.noteContainer markup (isMember options name || isCollection name) false).markChild.setStack
        (opened :: (s.noteContainer markup (isMember options name || isCollection name)
          false).markChild.stack)) cs := by
    rw [← hopened]
    exact hends
  have hmembers : opened.members = isMember options name := by rw [← hopened]
  have hbefore : opened.bindingsBefore = σ.scope.length := by rw [← hopened]
  have hnone : opened.boundedBy = none := by rw [← hopened]
  generalize (s.noteContainer markup (isMember options name || isCollection name)
    false).markChild = v at *
  obtain ⟨above, hstackV, hsameV, hownV⟩ := hnote.stack_eq
  have hpush : SameChunk v (v.setStack (opened :: v.stack)) :=
    v.setStack_sameChunk fun a ha => by simpa [hnone] using ha
  -- The element is open, and its content is walked.
  rcases inside
    (τ := ⟨σ.header, σ.scope ++ declarations, opened, none, v.stack,
      candAfter σ.cand (foundContainer options name)⟩)
    (t := v.setStack (opened :: v.stack)) rfl hmembers rfl
    (by
      unfold Place.outer
      rw [hstackV, boxOf_findSome, hownV]
      rfl)
    { hnote with
      stack_eq := ⟨opened, rfl, ⟨rfl, rfl, rfl⟩, by rw [hnone]; rfl⟩
      cache := hnote.cache }
    (hstand.same hremoded.buf hremoded.pos)
    ⟨out, cs, htotal, hends', hemits.same (hsame.trans hpush)⟩ with
    hstopped | ⟨t, hopen, hstand₂, out₂, cs₂, htotal₂, hends₂, hemits₂⟩
  · exact .inl hstopped
  obtain ⟨frame, hstack, hframe, -⟩ : ∃ frame, t.stack = frame :: v.stack ∧
      SameFrame opened frame ∧ boxOf frame.boundedBy = own := hopen.stack_eq
  rcases outside_endTag hopen.toReading hopen.mode_eq hstack hstand₂ hends₂ with hfailed | hclose
  · exact .inl (hemits₂.stopped hopen.toReading htotal₂ hfailed)
  right
  have hlen : off + tag.renderStart.length + children.render.length +
      (tag.renderEnd space).length =
      off + (tag.renderStart ++ (children.render ++ tag.renderEnd space)).length := by
    simp only [List.length_append]
    omega
  have hafter := hstand₂.after
  rw [hlen] at hclose hafter
  generalize off + (tag.renderStart ++ (children.render ++ tag.renderEnd space)).length = stop
    at *
  have hpopped : Outside input options source
      { σ.after (foundContainer options name ++ found) σ.own with
        scope := σ.scope ++ declarations }
      ((t.moveTo stop).setStack v.stack) :=
    { hopen.moveTo stop with
      stack_eq := ⟨above, hstackV, hsameV, hownV⟩
      cache := hopen.cache
      cand_eq := by
        rw [Place.after_append σ _ _ σ.own]
        exact hopen.cand_eq }
  have hclosed : Outside input options source
      (σ.after (foundContainer options name ++ found) σ.own)
      ((((t.moveTo stop).setStack v.stack).countReferenced
        (frame.members && !frame.hasChild)).undeclare (!declarations.isEmpty) σ.scope.length) :=
    Outside.undeclare (σ := σ.after (foundContainer options name ++ found) σ.own)
      (hpopped.countReferenced (frame.members && !frame.hasChild))
  have hopenedBefore : frame.bindingsBefore = σ.scope.length :=
    hframe.bindingsBefore.trans hbefore
  have hdeclared : decide (frame.bindingsBefore <
      ((t.moveTo stop).setStack v.stack).bindings.length) = !declarations.isEmpty := by
    have hbindings : ((t.moveTo stop).setStack v.stack).bindings = σ.scope ++ declarations :=
      hopen.bindings_eq
    rw [hbindings, hopenedBefore, List.length_append]
    cases declarations <;> simp
  unfold endContainer at hclose
  dsimp only at hclose
  rw [hdeclared, hopenedBefore] at hclose
  have hnonempty : ((((t.moveTo stop).setStack v.stack).countReferenced
      (frame.members && !frame.hasChild)).undeclare (!declarations.isEmpty)
        σ.scope.length).stack.isEmpty = false := by
    obtain ⟨frame', hstack', -⟩ := hclosed.stack_eq
    rw [hstack']
    rfl
  rw [if_neg (by rw [hnonempty]; exact Bool.false_ne_true)] at hclose
  refine ⟨_, hclosed, ?_, out₂, cs₂, htotal₂, hclose, hemits₂.same ?_⟩
  · have huntouched := (countReferenced_untouched ((t.moveTo stop).setStack v.stack)
      (frame.members && !frame.hasChild)).trans
        (undeclare_untouched _ (!declarations.isEmpty) σ.scope.length)
    exact Stands.same (s := (t.moveTo stop).setStack v.stack) (hafter.same rfl rfl)
      huntouched.buf huntouched.pos
  · have hpop : SameChunk (t.moveTo stop) ((t.moveTo stop).setStack v.stack) := by
      refine (t.moveTo stop).setStack_sameChunk fun a ha => ?_
      have hstack' : (t.moveTo stop).stack = frame :: v.stack := hstack
      obtain ⟨other, hother, hbox⟩ := List.mem_filterMap.1 ha
      rw [hstack']
      exact List.mem_filterMap.2 ⟨other, List.mem_cons_of_mem _ hother, hbox⟩
    exact (((moveTo_sameChunk t stop).trans hpop).trans (countReferenced_sameChunk _ _)).trans
      (undeclare_sameChunk _ _ _)

/-! ## A content -/

/-- Outside features, markup that is not an element is passed. -/
theorem outside_aside {a : Aside} {cs : List FeatureChunk} (hs : Reading input options source s)
    (hmode : s.mode = .prolog ∨ s.mode = .outside ∨ s.mode = .epilog) (ha : IsMarkup a)
    (hstand : Stands off (a.render ++ tail) s) (hends : Ends quickXml outcome s cs) :
    Ends quickXml outcome (s.moveTo (off + a.render.length)) cs := by
  obtain ⟨more, hmore⟩ : ∃ more, a.render ++ tail = 0x3c :: more := by
    cases a with
    | text bytes noTag => exact ha.elim
    | comment body closed => exact ⟨_, rfl⟩
    | cdata body closed => exact ⟨_, rfl⟩
    | pi body closed => exact ⟨_, rfl⟩
  have hmarkup := markupAt_aside (s := s.moveTo off) hs.eof a ha tail hstand.moveTo
  rw [hmore] at hstand
  have hnext := nextMarkup_at hs.eof hstand hmarkup
  refine hends.of_step hs.running hs.ready ?_
  unfold step stepMarkup
  rcases hmode with h | h | h
  all_goals
    have hmode' : (s.moveTo (off + a.render.length)).mode = _ := h
    rw [h]
    dsimp only
    rw [hnext]
    simp only [bind, Except.bind, onMarkup, hmode', if_true]

/-- A start tag outside features, at a place: the tag's name, and the splitter
once its declarations are in scope. -/
theorem Outside.startTag {tag : Tag} (empty : Bool) {cs : List FeatureChunk}
    (hs : Outside input options source σ s) (hstand : Stands off (renderOpen tag empty ++ tail) s)
    (hends : Ends quickXml outcome s cs) :
    (∃ e, outcome = .failed e ∧ cs = []) ∨
    ∃ name u, resolveIn (σ.scope ++ tag.declarations quickXml) tag.name.bytes true = some name ∧
      Outside input options source { σ with scope := σ.scope ++ tag.declarations quickXml } u ∧
      SameChunk s u ∧ u.buf = s.buf ∧ u.pos = off + (renderOpen tag empty).length ∧
      Ends quickXml outcome
        (if σ.frame.members = true ∧ isCollection name = false then
          (u.undeclare (!(tag.declarations quickXml).isEmpty) σ.scope.length).startFeature
            (openMarkup off tag empty) tag.name.bytes name empty
        else if isBoundedBy name = true then
          if empty = true then
            u.undeclare (!(tag.declarations quickXml).isEmpty) σ.scope.length
          else
            (u.undeclare (!(tag.declarations quickXml).isEmpty) σ.scope.length).enterFeature
              tag.name.bytes true off true
        else
          u.startContainer (openMarkup off tag empty) tag.name.bytes name empty
            (!(tag.declarations quickXml).isEmpty) false σ.scope.length) cs := by
  rcases outside_startTag hs.toReading (.inr hs.mode_eq) hstand hends with
    hfailed | ⟨name, noted, hname, hcache, hends'⟩
  · exact .inl hfailed
  right
  rw [hs.bindings_eq] at hname hcache hends'
  refine ⟨name, s.atTag (off + (renderOpen tag empty).length)
    (σ.scope ++ tag.declarations quickXml) noted, hname, hs.atTag _ hcache,
    ⟨rfl, rfl, rfl, rfl, rfl, rfl, rfl, rfl, rfl, rfl, rfl, fun _ => id⟩, rfl, rfl, ?_⟩
  have hout := hs.atTag (off + (renderOpen tag empty).length) hcache
  generalize s.atTag (off + (renderOpen tag empty).length)
    (σ.scope ++ tag.declarations quickXml) noted = u at *
  obtain ⟨frame, hstack, hframe, -⟩ := hout.stack_eq
  have hroot : (u.mode == Mode.prolog) = false := by
    rw [hout.mode_eq]
    rfl
  have hbase : (u.undeclare (!(tag.declarations quickXml).isEmpty) σ.scope.length).base = 0 :=
    (undeclare_untouched _ _ _).base.trans hout.base
  unfold startNamed at hends'
  rw [hroot] at hends'
  simp only [Bool.false_eq_true, if_false, hstack, List.head?_cons, Option.map_some,
    Option.getD_some, hframe.members, Bool.not_false, Bool.true_and, Bool.and_eq_true,
    Bool.not_eq_true', hbase, Nat.zero_add] at hends'
  exact hends'

theorem found_closed {name : QName} {members : Bool} {bytes : Bytes}
    {inside : QName → List Found} (hfeature : ¬ (members = true ∧ isCollection name = false))
    (hclosed : isBoundedBy name = true) :
    foundElement options isBoundedBy (some name) members off bytes inside = [] := by
  unfold foundElement
  dsimp only
  rw [if_neg (by simpa using hfeature), if_pos hclosed]

theorem found_feature {name : QName} {members : Bool} {bytes : Bytes}
    {inside : QName → List Found} (hfeature : members = true ∧ isCollection name = false) :
    foundElement options isBoundedBy (some name) members off bytes inside =
      foundFeature options name off bytes := by
  unfold foundElement
  dsimp only
  rw [if_pos (by simpa using hfeature)]

theorem found_container {name : QName} {members : Bool} {bytes : Bytes}
    {inside : QName → List Found} (hfeature : ¬ (members = true ∧ isCollection name = false))
    (hopen : ¬ isBoundedBy name = true) :
    foundElement options isBoundedBy (some name) members off bytes inside =
      foundContainer options name ++ inside name := by
  unfold foundElement
  dsimp only
  rw [if_neg (by simpa using hfeature), if_neg hopen]

theorem marked_feature {name : QName} {members : Bool} {l : Located} {box : Option Box}
    {inside : QName → List Mark} (hfeature : members = true ∧ isCollection name = false) :
    markedElement options (some name) members l box inside =
      wantedMark (wantedIn options name) l := by
  unfold markedElement
  dsimp only
  rw [if_pos (by simpa using hfeature)]

theorem marked_closed {name : QName} {members : Bool} {l : Located} {box : Option Box}
    {inside : QName → List Mark} (hfeature : ¬ (members = true ∧ isCollection name = false))
    (hclosed : isBoundedBy name = true) :
    markedElement options (some name) members l box inside = box.toList.map Mark.bounded := by
  unfold markedElement
  dsimp only
  rw [if_neg (by simpa using hfeature), if_pos hclosed]

theorem marked_container {name : QName} {members : Bool} {l : Located} {box : Option Box}
    {inside : QName → List Mark} (hfeature : ¬ (members = true ∧ isCollection name = false))
    (hopen : ¬ isBoundedBy name = true) :
    markedElement options (some name) members l box inside = inside name := by
  unfold markedElement
  dsimp only
  rw [if_neg (by simpa using hfeature), if_neg hopen]

theorem boxAfter_eq {name : QName} {members : Bool} {box own : Option Box} :
    boxAfter (some name) members box own =
      if ¬ (members = true ∧ isCollection name = false) ∧ isBoundedBy name = true then
        box.or own
      else own := by
  unfold boxAfter
  by_cases hfeature : members = true ∧ isCollection name = false
  · simp [hfeature]
  · by_cases hclosed : isBoundedBy name = true <;> simp [hfeature, hclosed]

/-- An element without content. -/
theorem outside_empty {tag : Tag} (hs : Outside input options source σ s)
    (hstand : Stands off (tag.renderEmpty ++ tail) s)
    (hrun : Running all quickXml outcome total
      (markedElement options (resolveIn (σ.scope ++ tag.declarations quickXml) tag.name.bytes true)
        σ.frame.members (σ.here off ⟨tag, none⟩) none (fun _ => []) ++ rest) s) :
    Stopped all options.targetChunkBytes outcome total ∨
    ∃ s', Outside input options source
        (σ.after (foundElement options isBoundedBy
          (resolveIn (σ.scope ++ tag.declarations quickXml) tag.name.bytes true) σ.frame.members
          off tag.renderEmpty fun _ => []) σ.own) s' ∧
      Stands (off + tag.renderEmpty.length) tail s' ∧
      Running all quickXml outcome total rest s' := by
  obtain ⟨out, cs, htotal, hends, hemits⟩ := hrun
  have hbytes : slice s.buf off (off + tag.renderEmpty.length) = tag.renderEmpty :=
    slice_piece hstand
  rcases hs.startTag true hstand hends with
    hfailed | ⟨name, u, hname, hout, hsame, hbuf, hpos, hends'⟩
  · exact .inl (hemits.stopped hs.toReading htotal hfailed)
  right
  have hstandU : Stands (off + tag.renderEmpty.length) tail u :=
    Stands.same (s := s.moveTo (off + tag.renderEmpty.length)) hstand.after hbuf hpos
  rw [hname] at hemits ⊢
  have huntouched := undeclare_untouched u (!(tag.declarations quickXml).isEmpty) σ.scope.length
  have hemitsU := (hemits.same hsame).same
    (undeclare_sameChunk u (!(tag.declarations quickXml).isEmpty) σ.scope.length)
  by_cases hfeature : σ.frame.members = true ∧ isCollection name = false
  · rw [if_pos hfeature] at hends'
    rw [found_feature hfeature, Place.after_feature]
    rw [marked_feature hfeature] at hemitsU
    exact outside_feature_empty hout.undeclare
      (hstandU.same huntouched.buf huntouched.pos)
      (by rw [huntouched.buf, hbuf]; exact hbytes) name hemitsU htotal hends'
  · rw [if_neg hfeature] at hends'
    by_cases hclosed : isBoundedBy name = true
    · rw [if_pos hclosed, if_pos rfl] at hends'
      rw [found_closed hfeature hclosed]
      rw [marked_closed hfeature hclosed] at hemitsU
      exact ⟨_, hout.undeclare, hstandU.same huntouched.buf huntouched.pos, out, cs, htotal,
        hends', hemitsU⟩
    · rw [if_neg hclosed] at hends'
      rw [found_container hfeature hclosed, List.append_nil]
      rw [marked_container hfeature hclosed] at hemits
      exact outside_container_empty hout hstandU (hemits.same hsame) htotal _ name hends'

/-- An element with content; `inside` is what the splitter does with the
content of an element that the walk enters. -/
theorem outside_element {tag : Tag} {children : Content} {space : Space} {found : QName → List Found}
    {marks : QName → List Mark} {box : Box} {own : QName → Option Box}
    (inside : ∀ {name : QName} {τ : Place} {t : Splitter},
      τ.scope = σ.scope ++ tag.declarations quickXml → τ.frame.members = isMember options name →
      τ.own = none → τ.outer = σ.own.or σ.outer → Outside input options source τ t →
      Stands (off + tag.renderStart.length)
        (children.render ++ (tag.renderEnd space ++ tail)) t →
      Running all quickXml outcome total (marks name ++ rest) t →
      Stopped all options.targetChunkBytes outcome total ∨
      ∃ t', Outside input options source (τ.after (found name) (own name)) t' ∧
        Stands (off + tag.renderStart.length + children.render.length)
          (tag.renderEnd space ++ tail) t' ∧
        Running all quickXml outcome total rest t')
    (hs : Outside input options source σ s) (hdistinct : (Mark.boxes all).Nodup)
    (hbox : box = ⟨source, off, tag.renderStart ++ (children.render ++ tag.renderEnd space),
      flatten σ.scope⟩)
    (hstand : Stands off
      (tag.renderStart ++ (children.render ++ (tag.renderEnd space ++ tail))) s)
    (hrun : Running all quickXml outcome total
      (markedElement options (resolveIn (σ.scope ++ tag.declarations quickXml) tag.name.bytes true)
        σ.frame.members (σ.here off ⟨tag, some (children, space)⟩) (some box) marks ++ rest) s) :
    Stopped all options.targetChunkBytes outcome total ∨
    ∃ s', Outside input options source
        (σ.after (foundElement options isBoundedBy
          (resolveIn (σ.scope ++ tag.declarations quickXml) tag.name.bytes true) σ.frame.members
          off (tag.renderStart ++ (children.render ++ tag.renderEnd space)) found)
          (boxAfter (resolveIn (σ.scope ++ tag.declarations quickXml) tag.name.bytes true)
            σ.frame.members (some box) σ.own)) s' ∧
      Stands (off + (tag.renderStart ++ (children.render ++ tag.renderEnd space)).length) tail s' ∧
      Running all quickXml outcome total rest s' := by
  obtain ⟨out, cs, htotal, hends, hemits⟩ := hrun
  have hbytes : slice s.buf off (off + (tag.renderStart ++ (children.render ++
      tag.renderEnd space)).length) =
      tag.renderStart ++ (children.render ++ tag.renderEnd space) := by
    refine slice_piece (show Stands off (_ ++ tail) s from ?_)
    rw [List.append_assoc, List.append_assoc]
    exact hstand
  rcases hs.startTag false hstand hends with
    hfailed | ⟨name, u, hname, hout, hsame, hbuf, hpos, hends'⟩
  · exact .inl (hemits.stopped hs.toReading htotal hfailed)
  have hstandU : Stands (off + tag.renderStart.length)
      (children.render ++ (tag.renderEnd space ++ tail)) u :=
    Stands.same (s := s.moveTo (off + tag.renderStart.length)) hstand.after hbuf hpos
  rw [hname] at hemits ⊢
  have huntouched := undeclare_untouched u (!(tag.declarations quickXml).isEmpty) σ.scope.length
  have hemitsU := (hemits.same hsame).same
    (undeclare_sameChunk u (!(tag.declarations quickXml).isEmpty) σ.scope.length)
  have hbytesU : slice (u.undeclare (!(tag.declarations quickXml).isEmpty) σ.scope.length).buf off
      (off + (tag.renderStart ++ (children.render ++ tag.renderEnd space)).length) =
      tag.renderStart ++ (children.render ++ tag.renderEnd space) := by
    rw [huntouched.buf, hbuf]
    exact hbytes
  rw [boxAfter_eq]
  by_cases hfeature : σ.frame.members = true ∧ isCollection name = false
  · rw [if_pos hfeature] at hends'
    rw [found_feature hfeature, if_neg (fun h => h.1 hfeature), Place.after_feature]
    rw [marked_feature hfeature] at hemitsU
    exact .inr (outside_feature hout.undeclare (hstandU.same huntouched.buf huntouched.pos)
      hbytesU name hemitsU htotal hends')
  · rw [if_neg hfeature] at hends'
    by_cases hclosed : isBoundedBy name = true
    · rw [if_pos hclosed, if_neg Bool.false_ne_true] at hends'
      rw [found_closed hfeature hclosed, if_pos ⟨hfeature, hclosed⟩, Place.after_nil]
      rw [marked_closed hfeature hclosed] at hemitsU
      exact .inr (outside_boundedBy hout.undeclare hdistinct
        (hstandU.same huntouched.buf huntouched.pos) hbytesU hbox hemitsU htotal hends')
    · rw [if_neg hclosed] at hends'
      rw [found_container hfeature hclosed, if_neg (fun h => hclosed h.2)]
      rw [marked_container hfeature hclosed] at hemits
      exact outside_container inside hout hstandU (hemits.same hsame) htotal _ hends'

/-- From the start of a content to its end, outside features. -/
theorem outside_content (hdistinct : (Mark.boxes all).Nodup) (c : Content) :
    ∀ {σ : Place} {off : Nat} {tail : Bytes} {s : Splitter} {rest : List Mark},
    Outside input options source σ s → Stands off (c.render ++ tail) s →
    Running all quickXml outcome total
      (c.marks quickXml options source σ.scope σ.frame.members off σ.own σ.outer ++ rest) s →
    Stopped all options.targetChunkBytes outcome total ∨
    ∃ s', Outside input options source
        (σ.after (c.walk quickXml options isBoundedBy σ.scope σ.frame.members off)
          (c.ownBox quickXml source σ.scope σ.frame.members off σ.own)) s' ∧
      Stands (off + c.render.length) tail s' ∧ Running all quickXml outcome total rest s' := by
  induction c with
  | nil =>
    intro σ off tail s rest hs hstand hrun
    refine .inr ⟨s, ?_, hstand, hrun⟩
    rw [Content.walk, Place.after_nil]
    exact hs
  | aside a more ih =>
    intro σ off tail s rest hs hstand hrun
    rw [Content.render, List.append_assoc] at hstand
    rw [Content.render, List.length_append, ← Nat.add_assoc, Content.walk]
    by_cases ha : IsMarkup a
    · obtain ⟨out, cs, htotal, hends, hemits⟩ := hrun
      exact ih (hs.moveTo (off + a.render.length)) hstand.after ⟨out, cs, htotal,
        outside_aside hs.toReading (.inr (.inl hs.mode_eq)) ha hstand hends,
        hemits.same (moveTo_sameChunk _ _)⟩
    · cases a with
      | text bytes noTag => exact ih hs (hstand.pass noTag) hrun
      | comment body closed => exact absurd trivial ha
      | cdata body closed => exact absurd trivial ha
      | pi body closed => exact absurd trivial ha
  | empty tag more ih =>
    intro σ off tail s rest hs hstand hrun
    rw [Content.render, List.append_assoc] at hstand
    rw [Content.render, List.length_append, ← Nat.add_assoc, Content.walk]
    rw [Content.marks, List.append_assoc] at hrun
    rcases outside_empty hs hstand hrun with hstopped | ⟨s₁, hs₁, hstand₁, hrun₁⟩
    · exact .inl hstopped
    rcases ih hs₁ hstand₁ hrun₁ with hstopped | ⟨s₂, hs₂, hstand₂, hrun₂⟩
    · exact .inl hstopped
    refine .inr ⟨s₂, ?_, hstand₂, hrun₂⟩
    rw [Place.after_append σ _ _ σ.own]
    exact hs₂
  | element tag children space more ihc ihr =>
    intro σ off tail s rest hs hstand hrun
    rw [Content.render, List.append_assoc, List.append_assoc, List.append_assoc] at hstand
    have hlen : off + (Content.element tag children space more).render.length =
        off + (tag.renderStart ++ (children.render ++ tag.renderEnd space)).length +
          more.render.length := by
      simp only [Content.render, List.length_append]
      omega
    rw [hlen, Content.walk]
    rw [Content.marks, List.append_assoc] at hrun
    rcases outside_element
      (fun hscope hmembers hown houter hs hstand hrun => by
        rw [← hscope, ← hmembers, ← houter, ← hown] at hrun
        have := ihc hs hstand hrun
        rw [hscope, hmembers, hown] at this
        exact this) hs hdistinct rfl hstand hrun with hstopped | ⟨s₁, hs₁, hstand₁, hrun₁⟩
    · exact .inl hstopped
    rcases ihr hs₁ hstand₁ hrun₁ with hstopped | ⟨s₂, hs₂, hstand₂, hrun₂⟩
    · exact .inl hstopped
    refine .inr ⟨s₂, ?_, hstand₂, hrun₂⟩
    rw [Place.after_append]
    exact hs₂

end

end Splitter

end Xeibe

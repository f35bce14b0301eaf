import Xeibe.Core.Splitter.Window

/-!
# The reads do not matter

What a step does with its markup commutes with `whole`: the tags, the chunks
and the errors are those of the splitter that has the whole input in its
window.  A function that leaves the window alone is `Untouched`; the ones
that change the mode keep the offsets of `keeps` in the window.

`step_agrees` joins this to the scanning, `chunksLoop_agrees` carries it over a
run, and `chunks_delivers` states it for two readers of one input.
-/

namespace Xeibe

namespace Splitter

section

variable {input : Bytes} {s s' : Splitter}

/-! ## The window stays as it is -/

/-- The second splitter has the window, the mode and the root candidate of
the first. -/
structure Untouched (s s' : Splitter) : Prop where
  reader : s'.reader = s.reader
  buf : s'.buf = s.buf
  pos : s'.pos = s.pos
  base : s'.base = s.base
  eof : s'.eof = s.eof
  mode : s'.mode = s.mode
  root : s'.rootCandidate = s.rootCandidate

theorem Untouched.refl (s : Splitter) : Untouched s s := ⟨rfl, rfl, rfl, rfl, rfl, rfl, rfl⟩

theorem Untouched.trans {s'' : Splitter} (h : Untouched s s') (h' : Untouched s' s'') :
    Untouched s s'' :=
  ⟨h'.reader.trans h.reader, h'.buf.trans h.buf, h'.pos.trans h.pos, h'.base.trans h.base,
    h'.eof.trans h.eof, h'.mode.trans h.mode, h'.root.trans h.root⟩

/-- A window is kept when the offsets that are needed stay in it. -/
theorem Window.rekeep (hs : Window input s) (hreader : s'.reader = s.reader)
    (hbuf : s'.buf = s.buf) (hpos : s'.pos = s.pos) (hbase : s'.base = s.base)
    (heof : s'.eof = s.eof)
    (hkept : ∀ start ∈ s'.keeps, s.base ≤ start ∧ start ≤ s.base + s.pos)
    (hbounds : ∀ depth emit start, s'.mode = .feature depth emit start true → emit = true) :
    Window input s' where
  shows := by
    rw [hreader, hbuf, hbase, heof]
    exact hs.shows
  pos_le := by
    rw [hbuf, hpos]
    exact hs.pos_le
  kept := by
    rw [hbase, hpos]
    exact hkept
  bounds := hbounds

theorem Window.untouched (hs : Window input s) (h : Untouched s s') : Window input s' :=
  hs.rekeep h.reader h.buf h.pos h.base h.eof
    (by
      have hkeeps : s'.keeps = s.keeps := by simp only [keeps, h.mode, h.root]
      rw [hkeeps]
      exact hs.kept)
    (by
      rw [h.mode]
      exact hs.bounds)

/-! ## Chunks -/

theorem flushChunk_untouched (s : Splitter) : Untouched s s.flushChunk := by
  unfold flushChunk
  split
  · exact .refl s
  · exact ⟨rfl, rfl, rfl, rfl, rfl, rfl, rfl⟩

theorem whole_flushChunk (s : Splitter) (input : Bytes) :
    s.flushChunk.whole input = (s.whole input).flushChunk := by
  unfold flushChunk
  by_cases h : s.chunk.isEmpty = true
  · simp [whole, h]
  · simp [whole, h]

theorem currentContext_untouched (s : Splitter) : Untouched s s.currentContext.2 := by
  unfold currentContext
  split
  · exact .refl s
  · dsimp only
    split <;> exact ⟨rfl, rfl, rfl, rfl, rfl, rfl, rfl⟩

theorem whole_currentContext (s : Splitter) (input : Bytes) :
    (s.whole input).currentContext =
      (s.currentContext.1, s.currentContext.2.whole input) := by
  unfold currentContext
  by_cases hgen : s.contextGeneration = s.bindingsGeneration
  · have hgen' : (s.whole input).contextGeneration = (s.whole input).bindingsGeneration := hgen
    rw [if_pos hgen, if_pos hgen']
    rfl
  · have hgen' : (s.whole input).contextGeneration ≠ (s.whole input).bindingsGeneration := hgen
    rw [if_neg hgen, if_neg hgen']
    dsimp only [whole_bindings, whole_context]
    split <;> rfl

theorem flushForeign_untouched (s : Splitter) (context : Arc NamespaceContext) :
    Untouched s (s.flushForeign context) := by
  unfold flushForeign
  split
  · exact s.flushChunk_untouched
  · exact .refl s

theorem whole_flushForeign (s : Splitter) (input : Bytes) (context : Arc NamespaceContext) :
    (s.flushForeign context).whole input = (s.whole input).flushForeign context := by
  have hbounds : (s.whole input).collectionBoundedBy = s.collectionBoundedBy := rfl
  unfold flushForeign
  rw [hbounds, apply_ite (whole input), whole_flushChunk]
  rfl

theorem openChunk_untouched (s : Splitter) (context : Arc NamespaceContext) (start : Nat) :
    Untouched s (s.openChunk context start) := by
  unfold openChunk
  split
  · exact ⟨rfl, rfl, rfl, rfl, rfl, rfl, rfl⟩
  · exact .refl s

theorem whole_openChunk (s : Splitter) (input : Bytes) (context : Arc NamespaceContext)
    (start : Nat) :
    (s.openChunk context start).whole input = (s.whole input).openChunk context start := by
  unfold openChunk
  rw [apply_ite (whole input)]
  rfl

theorem beginFeature_untouched (s : Splitter) (start : Nat) :
    Untouched s (s.beginFeature start) :=
  (s.currentContext_untouched.trans (flushForeign_untouched _ _)).trans (openChunk_untouched _ _ _)

theorem whole_beginFeature (s : Splitter) (input : Bytes) (start : Nat) :
    (s.beginFeature start).whole input = (s.whole input).beginFeature start := by
  unfold beginFeature
  rw [whole_currentContext]
  dsimp only
  rw [whole_openChunk, whole_flushForeign]

theorem beginWanted_untouched (s : Splitter) (emit : Bool) (start : Nat) :
    Untouched s (s.beginWanted emit start) := by
  unfold beginWanted
  split
  · exact s.beginFeature_untouched start
  · exact .refl s

theorem whole_beginWanted (s : Splitter) (input : Bytes) (emit : Bool) (start : Nat) :
    (s.beginWanted emit start).whole input = (s.whole input).beginWanted emit start := by
  unfold beginWanted
  rw [apply_ite (whole input), whole_beginFeature]

theorem flushFull_untouched (s : Splitter) : Untouched s s.flushFull := by
  unfold flushFull
  split
  · exact s.flushChunk_untouched
  · exact .refl s

theorem whole_flushFull (s : Splitter) (input : Bytes) :
    s.flushFull.whole input = (s.whole input).flushFull := by
  unfold flushFull
  rw [apply_ite (whole input), whole_flushChunk]
  rfl

theorem copyFeature_untouched (s : Splitter) (start : Nat) (bytes : Bytes) :
    Untouched s (s.copyFeature start bytes) := ⟨rfl, rfl, rfl, rfl, rfl, rfl, rfl⟩

theorem endFeature_untouched (s : Splitter) (emit : Bool) (start stop : Nat) :
    Untouched s (s.endFeature emit start stop) := by
  unfold endFeature
  split
  · exact (copyFeature_untouched _ _ _).trans (flushFull_untouched _)
  · exact .refl s

theorem Window.copy_eq (hs : Window input s) {start stop : Nat} (hstart : s.base ≤ start)
    (hstop : stop ≤ s.buf.length) :
    slice s.buf (start - s.base) stop = slice input (start - 0) (s.base + stop) := by
  rw [hs.slice_eq hstop, Nat.add_sub_cancel' hstart, Nat.sub_zero]

theorem Window.whole_endFeature (hs : Window input s) {emit : Bool} {start stop : Nat}
    (hstart : emit = true → s.base ≤ start) (hstop : stop ≤ s.buf.length) :
    (s.endFeature emit start stop).whole input =
      (s.whole input).endFeature emit start (s.base + stop) := by
  unfold endFeature
  cases emit with
  | false => rfl
  | true =>
    rw [if_pos rfl, if_pos rfl, whole_flushFull, hs.copy_eq (hstart rfl) hstop]
    rfl

theorem endBoundedBy_untouched (s : Splitter) (start stop : Nat) :
    Untouched s (s.endBoundedBy start stop) := by
  have hcontext := s.currentContext_untouched
  unfold endBoundedBy
  exact hcontext.trans ⟨rfl, rfl, rfl, rfl, rfl, rfl, rfl⟩

theorem Window.whole_endBoundedBy (hs : Window input s) {start stop : Nat}
    (hstart : s.base ≤ start) (hstop : stop ≤ s.buf.length) :
    (s.endBoundedBy start stop).whole input =
      (s.whole input).endBoundedBy start (s.base + stop) := by
  have hcopy := hs.copy_eq hstart hstop
  unfold endBoundedBy
  rw [whole_currentContext]
  simp only [whole_buf, whole_base]
  rw [← hcopy]
  rfl

/-! ## Tags -/

theorem refreshNames_untouched (s : Splitter) : Untouched s s.refreshNames := by
  unfold refreshNames
  split
  · exact .refl s
  · exact ⟨rfl, rfl, rfl, rfl, rfl, rfl, rfl⟩

theorem whole_refreshNames (s : Splitter) (input : Bytes) :
    s.refreshNames.whole input = (s.whole input).refreshNames := by
  unfold refreshNames
  rw [apply_ite (whole input)]
  rfl

theorem resolveElement_untouched (s : Splitter) (raw : Bytes) :
    Untouched s (s.resolveElement raw).2 := by
  refine s.refreshNames_untouched.trans ?_
  unfold resolveElement
  dsimp only
  split
  · exact .refl _
  · exact ⟨rfl, rfl, rfl, rfl, rfl, rfl, rfl⟩

theorem whole_resolveElement (s : Splitter) (input : Bytes) (raw : Bytes) :
    (s.whole input).resolveElement raw =
      ((s.resolveElement raw).1, (s.resolveElement raw).2.whole input) := by
  unfold resolveElement
  rw [← whole_refreshNames]
  dsimp only [whole_names]
  split <;> rfl

/-- The mode and the root candidate change, the window does not. -/
structure Remoded (s s' : Splitter) : Prop where
  reader : s'.reader = s.reader
  buf : s'.buf = s.buf
  pos : s'.pos = s.pos
  base : s'.base = s.base
  eof : s'.eof = s.eof

theorem Untouched.remoded (h : Untouched s s') : Remoded s s' :=
  ⟨h.reader, h.buf, h.pos, h.base, h.eof⟩

theorem Remoded.trans {s'' : Splitter} (h : Remoded s s') (h' : Remoded s' s'') :
    Remoded s s'' :=
  ⟨h'.reader.trans h.reader, h'.buf.trans h.buf, h'.pos.trans h.pos, h'.base.trans h.base,
    h'.eof.trans h.eof⟩

theorem Window.remoded (hs : Window input s) (h : Remoded s s')
    (hkept : ∀ start ∈ s'.keeps, s.base ≤ start ∧ start ≤ s.base + s.pos)
    (hbounds : ∀ depth emit start, s'.mode = .feature depth emit start true → emit = true) :
    Window input s' :=
  hs.rekeep h.reader h.buf h.pos h.base h.eof hkept hbounds

/-- Where the markup that was read last stands in the window. -/
structure MarkupIn (s : Splitter) (markup : Markup) : Prop where
  start_lt : markup.start < markup.stop
  stop_le : markup.stop ≤ s.buf.length
  start_le : markup.start ≤ s.pos

theorem MarkupIn.remoded {markup : Markup} (h : MarkupIn s markup) (hs : Remoded s s') :
    MarkupIn s' markup :=
  ⟨h.start_lt, by rw [hs.buf]; exact h.stop_le, by rw [hs.pos]; exact h.start_le⟩

theorem keeps_of_outside (hmode : s.mode = .outside ∨ s.mode = .epilog) {start : Nat} :
    start ∈ s.keeps ↔ s.rootCandidate = some start := by
  rcases hmode with h | h <;> simp [keeps, h]

theorem Window.endRoot (hs : Window input s) {stop : Nat} (hstop : stop ≤ s.buf.length) :
    (s.endRoot stop).whole input = (s.whole input).endRoot (s.base + stop) ∧
      Window input (s.endRoot stop) := by
  have hkeep : ∀ start ∈ s.rootCandidate, s.base ≤ start ∧ start ≤ s.base + s.pos :=
    fun start hstart => hs.kept start (List.mem_append_right _ (Option.mem_toList.2 hstart))
  unfold Splitter.endRoot
  rw [whole_rootCandidate]
  cases hroot : s.rootCandidate with
  | none =>
    refine ⟨rfl, hs.remoded ⟨rfl, rfl, rfl, rfl, rfl⟩ (fun start hstart => ?_) nofun⟩
    exact hkeep start ((keeps_of_outside (s := s.setMode .epilog) (.inr rfl)).1 hstart)
  | some start =>
    have hw : Window input (s.setMode .epilog).takeRoot :=
      hs.remoded ⟨rfl, rfl, rfl, rfl, rfl⟩ (fun start hstart => nomatch hstart) nofun
    generalize hu : (s.setMode .epilog).takeRoot = u at hw
    have hbase : u.base = s.base := by rw [← hu]; rfl
    have hbuf : u.buf = s.buf := by rw [← hu]; rfl
    have hwhole : ((s.whole input).setMode .epilog).takeRoot = u.whole input := by rw [← hu]; rfl
    have hbegin := beginWanted_untouched u u.rootWanted start
    have hwbegin := hw.untouched hbegin
    dsimp only
    refine ⟨?_, hwbegin.untouched (endFeature_untouched _ _ _ _)⟩
    rw [hwbegin.whole_endFeature (fun _ => by rw [hbegin.base, hbase]; exact (hkeep _ hroot).1)
      (by rw [hbegin.buf, hbuf]; exact hstop), hbegin.base, hbase, whole_beginWanted, hwhole]
    rfl

/-! ## Start tags -/

theorem markChild_untouched (s : Splitter) : Untouched s s.markChild :=
  ⟨rfl, rfl, rfl, rfl, rfl, rfl, rfl⟩

theorem declare_untouched (s : Splitter) (declarations : List (Option Bytes × Bytes)) :
    Untouched s (s.declare declarations) := by
  unfold declare
  split
  · exact .refl s
  · exact ⟨rfl, rfl, rfl, rfl, rfl, rfl, rfl⟩

theorem whole_declare (s : Splitter) (input : Bytes)
    (declarations : List (Option Bytes × Bytes)) :
    (s.declare declarations).whole input = (s.whole input).declare declarations := by
  unfold declare
  rw [apply_ite (whole input)]
  rfl

theorem undeclare_untouched (s : Splitter) (declared : Bool) (n : Nat) :
    Untouched s (s.undeclare declared n) := by
  unfold undeclare
  split
  · exact ⟨rfl, rfl, rfl, rfl, rfl, rfl, rfl⟩
  · exact .refl s

theorem whole_undeclare (s : Splitter) (input : Bytes) (declared : Bool) (n : Nat) :
    (s.undeclare declared n).whole input = (s.whole input).undeclare declared n := by
  unfold undeclare
  rw [apply_ite (whole input)]
  rfl

theorem countReferenced_untouched (s : Splitter) (referenced : Bool) :
    Untouched s (s.countReferenced referenced) := by
  unfold countReferenced
  split
  · exact ⟨rfl, rfl, rfl, rfl, rfl, rfl, rfl⟩
  · exact .refl s

theorem whole_countReferenced (s : Splitter) (input : Bytes) (referenced : Bool) :
    (s.countReferenced referenced).whole input = (s.whole input).countReferenced referenced := by
  unfold countReferenced
  rw [apply_ite (whole input)]
  rfl

theorem noteContainer_remoded (s : Splitter) (markup : Markup) (container isRoot : Bool) :
    Remoded s (s.noteContainer markup container isRoot) := by
  unfold noteContainer
  split
  · exact ⟨rfl, rfl, rfl, rfl, rfl⟩
  · split
    · exact ⟨rfl, rfl, rfl, rfl, rfl⟩
    · exact (Untouched.refl s).remoded

theorem whole_noteContainer (s : Splitter) (input : Bytes) (markup : Markup)
    (container isRoot : Bool) :
    (s.noteContainer markup container isRoot).whole input =
      (s.whole input).noteContainer (shiftMarkup s.base markup) container isRoot := by
  unfold noteContainer
  rw [apply_ite (whole input), apply_ite (whole input)]
  simp only [shiftMarkup, whole_base, Nat.zero_add]
  rfl

theorem noteContainer_mode (s : Splitter) (markup : Markup) (container isRoot : Bool) :
    (s.noteContainer markup container isRoot).mode = s.mode := by
  unfold noteContainer
  split
  · rfl
  · split <;> rfl

/-- The root that becomes the candidate starts in the window. -/
theorem Window.noteContainer (hs : Window input s) {markup : Markup} (hm : MarkupIn s markup)
    (hmode : s.mode = .outside) (container isRoot : Bool) :
    Window input (s.noteContainer markup container isRoot) := by
  have hmode' := s.noteContainer_mode markup container isRoot
  rw [hmode] at hmode'
  refine hs.remoded (s.noteContainer_remoded markup container isRoot) (fun start hstart => ?_)
    (by rw [hmode']; exact nofun)
  rw [keeps_of_outside (.inl hmode')] at hstart
  unfold Splitter.noteContainer at hstart
  split at hstart
  · cases hstart
  · split at hstart
    · cases hstart
      have := hm.start_le
      omega
    · exact hs.kept start ((keeps_of_outside (.inl hmode)).2 hstart)

theorem Window.enterFeature (hs : Window input s) {markup : Markup} (hm : MarkupIn s markup)
    (rawName : Bytes) (emit boundedBy : Bool)
    (hemit : boundedBy = true → emit = true) :
    Window input (s.enterFeature rawName emit (s.base + markup.start) boundedBy) := by
  refine hs.remoded ⟨rfl, rfl, rfl, rfl, rfl⟩ (fun start hstart => ?_) ?_
  · rcases List.mem_append.1 hstart with h | h
    · have hstart' : start = s.base + markup.start := by
        cases emit with
        | true => exact List.mem_singleton.1 h
        | false => cases h
      have := hm.start_le
      omega
    · exact hs.kept start (List.mem_append_right _ h)
  · rintro depth emit' start' ⟨⟩
    exact hemit rfl

theorem Window.startFeature (hs : Window input s) {markup : Markup} (hm : MarkupIn s markup)
    (rawName : Bytes) (name : QName) (empty : Bool) :
    (s.startFeature markup rawName name empty).whole input =
        (s.whole input).startFeature (shiftMarkup s.base markup) rawName name empty ∧
      Window input (s.startFeature markup rawName name empty) := by
  unfold Splitter.startFeature
  have hbegin := s.markChild_untouched.trans
    (beginWanted_untouched _ (wantedIn s.options name) (s.base + markup.start))
  have hw := hs.untouched hbegin
  have hwhole : ((s.whole input).markChild.beginWanted (wantedIn (s.whole input).options name)
      ((s.whole input).base + (shiftMarkup s.base markup).start)) =
      (s.markChild.beginWanted (wantedIn s.options name) (s.base + markup.start)).whole input := by
    rw [whole_beginWanted, whole_base, Nat.zero_add]
    rfl
  dsimp only
  rw [hwhole]
  cases empty with
  | true =>
    rw [if_pos rfl, if_pos rfl]
    refine ⟨?_, hw.untouched (endFeature_untouched _ _ _ _)⟩
    rw [hw.whole_endFeature (fun _ => by rw [hbegin.base]; exact Nat.le_add_right _ _)
      (by rw [hbegin.buf]; exact hm.stop_le), hbegin.base, whole_base, Nat.zero_add]
    rfl
  | false =>
    rw [if_neg Bool.false_ne_true, if_neg Bool.false_ne_true]
    have henter := hw.enterFeature (hm.remoded hbegin.remoded) rawName
      (wantedIn s.options name) false nofun
    rw [hbegin.base] at henter
    refine ⟨?_, henter⟩
    rw [whole_base, Nat.zero_add]
    rfl

theorem Window.startContainer (hs : Window input s) {markup : Markup} (hm : MarkupIn s markup)
    (hmode : s.mode = .outside) (rawName : Bytes) (name : QName) (empty declared isRoot : Bool)
    (n : Nat) :
    (s.startContainer markup rawName name empty declared isRoot n).whole input =
        (s.whole input).startContainer (shiftMarkup s.base markup) rawName name empty declared
          isRoot n ∧
      Window input (s.startContainer markup rawName name empty declared isRoot n) := by
  unfold Splitter.startContainer
  rw [whole_options]
  generalize s.options.memberRules.any (fun rule => rule.element == name) = members
  have hnote := hs.noteContainer hm hmode (members || isCollection name) isRoot
  have hremoded := s.noteContainer_remoded markup (members || isCollection name) isRoot
  have hwhole := s.whole_noteContainer input markup (members || isCollection name) isRoot
  dsimp only
  rw [← hwhole]
  generalize s.noteContainer markup (members || isCollection name) isRoot = u at *
  have hmark := u.markChild_untouched
  have hwmark := hnote.untouched hmark
  cases empty with
  | false => exact ⟨rfl, hwmark.untouched ⟨rfl, rfl, rfl, rfl, rfl, rfl, rfl⟩⟩
  | true =>
    have hforget := (undeclare_untouched u.markChild declared n).trans
      (countReferenced_untouched _ members)
    have hwforget := hwmark.untouched hforget
    have hwhole' : ((u.whole input).markChild.undeclare declared n).countReferenced members =
        ((u.markChild.undeclare declared n).countReferenced members).whole input := by
      rw [whole_countReferenced, whole_undeclare]
      rfl
    rw [if_pos rfl, if_pos rfl, hwhole']
    cases isRoot with
    | false => exact ⟨rfl, hwforget⟩
    | true =>
      have hall := hmark.trans hforget
      have := hwforget.endRoot (show markup.stop ≤ _ by
        rw [hall.buf, hremoded.buf]
        exact hm.stop_le)
      rw [hall.base, hremoded.base] at this
      exact this

theorem Window.readRoot (hs : Window input s) (quickXml : Bytes → Option Bytes) (name : QName)
    (attributes : List (Bytes × Bytes)) (n : Nat) :
    Window input (if s.mode == .prolog then
      (s.readHeader quickXml name attributes n).setMode .outside else s) := by
  split
  · refine hs.remoded ⟨rfl, rfl, rfl, rfl, rfl⟩ (fun start hstart => ?_) nofun
    refine hs.kept start (List.mem_append_right _ ?_)
    have := (keeps_of_outside (s := (s.readHeader quickXml name attributes n).setMode .outside)
      (.inl rfl)).1 hstart
    exact Option.mem_toList.2 this
  · exact hs

theorem Window.startNamed (hs : Window input s) {markup : Markup} (hm : MarkupIn s markup)
    (hmode : s.mode = .prolog ∨ s.mode = .outside) (quickXml : Bytes → Option Bytes)
    (rawName : Bytes) (attributes : List (Bytes × Bytes)) (name : QName) (empty declared : Bool)
    (n : Nat) :
    (s.startNamed quickXml markup rawName attributes name empty declared n).whole input =
        (s.whole input).startNamed quickXml (shiftMarkup s.base markup) rawName attributes name
          empty declared n ∧
      Window input (s.startNamed quickXml markup rawName attributes name empty declared n) := by
  have hw := hs.readRoot quickXml name attributes n
  have hroot : Remoded s (if s.mode == .prolog then
      (s.readHeader quickXml name attributes n).setMode .outside else s) := by
    split
    · exact ⟨rfl, rfl, rfl, rfl, rfl⟩
    · exact (Untouched.refl s).remoded
  have hout : (if s.mode == .prolog then
      (s.readHeader quickXml name attributes n).setMode .outside else s).mode = .outside := by
    rcases hmode with h | h <;> simp [h, setMode]
  have hwhole : (if (s.whole input).mode == .prolog then
      ((s.whole input).readHeader quickXml name attributes n).setMode .outside
      else s.whole input) = (if s.mode == .prolog then
      (s.readHeader quickXml name attributes n).setMode .outside else s).whole input := by
    rw [apply_ite (whole input)]
    rfl
  unfold Splitter.startNamed
  dsimp only
  rw [hwhole, whole_mode]
  generalize (s.mode == Mode.prolog) = isRoot at *
  generalize (if isRoot = true then
      (s.readHeader quickXml name attributes n).setMode .outside else s) = u at *
  have hmu := hm.remoded hroot
  have hforget := undeclare_untouched u declared n
  have hwforget := hw.untouched hforget
  rw [whole_stack, ← hroot.base]
  split
  · have := hwforget.startFeature (hmu.remoded hforget.remoded) rawName name empty
    rwa [whole_undeclare, hforget.base] at this
  · split
    · cases empty with
      | true => exact ⟨whole_undeclare u input declared n, hwforget⟩
      | false =>
        refine ⟨?_, hwforget.enterFeature (hmu.remoded hforget.remoded) rawName true true fun _ => rfl⟩
        rw [if_neg Bool.false_ne_true, if_neg Bool.false_ne_true, ← whole_undeclare, whole_base,
          Nat.zero_add, hforget.base]
        rfl
    · exact hw.startContainer hmu hout rawName name empty declared isRoot n

theorem Window.startTag (hs : Window input s) {markup : Markup} (hm : MarkupIn s markup)
    (hmode : s.mode = .prolog ∨ s.mode = .outside) (quickXml : Bytes → Option Bytes)
    (tag : Bytes) (nameLen : Nat) (empty : Bool) :
    AgreesState input (fun _ => True) (s.startTag quickXml markup tag nameLen empty)
      ((s.whole input).startTag quickXml (shiftMarkup s.base markup) tag nameLen empty) := by
  have herror : (s.whole input).error (shiftMarkup s.base markup).start = s.error markup.start :=
    funext fun message => error_whole s input markup.start message
  unfold Splitter.startTag
  rw [herror]
  cases isUtf8 tag with
  | false => exact .error _
  | true =>
    cases parseAttributes (tag.drop nameLen) with
    | error message => exact .error _
    | ok attributes =>
      have hdeclare := (declare_untouched s (attributes.filterMap (declaration quickXml))).trans
        (resolveElement_untouched _ (tag.take nameLen))
      have hw := hs.untouched hdeclare
      simp only [bind, Except.bind, Except.mapError, Bool.not_true, Bool.false_eq_true, if_false,
        pure, Except.pure]
      rw [← whole_declare, whole_resolveElement]
      generalize (s.declare (attributes.filterMap (declaration quickXml))).resolveElement
        (tag.take nameLen) = r at *
      obtain ⟨name, u⟩ := r
      cases name with
      | none =>
        have herror' : (u.whole input).error (shiftMarkup s.base markup).start =
            u.error markup.start := by
          rw [← hdeclare.base]
          exact funext fun message => error_whole u input markup.start message
        dsimp only
        rw [herror']
        exact .error _
      | some name =>
        have hmode' : u.mode = .prolog ∨ u.mode = .outside := by
          rw [hdeclare.mode]
          exact hmode
        obtain ⟨hnamed, hwnamed⟩ := hw.startNamed (hm.remoded hdeclare.remoded) hmode' quickXml
          (tag.take nameLen) attributes name empty
          (!(attributes.filterMap (declaration quickXml)).isEmpty) s.bindings.length
        rw [hdeclare.base] at hnamed
        dsimp only [whole_bindings]
        rw [← hnamed]
        exact .ok hwnamed trivial

theorem Window.inner_eq (hs : Window input s) {markup : Markup} (hm : MarkupIn s markup)
    (m k : Nat) :
    slice s.buf (markup.start + m) (markup.stop - k) =
      slice input (s.base + markup.start + m) (s.base + markup.stop - k) := by
  have hlt := hm.start_lt
  have hle := hm.stop_le
  rw [hs.slice_eq (by omega)]
  have hstart : s.base + (markup.start + m) = s.base + markup.start + m := by omega
  have hlen : s.base + (markup.stop - k) - (s.base + markup.start + m) =
      s.base + markup.stop - k - (s.base + markup.start + m) := by omega
  rw [hstart, slice, slice, hlen]

theorem Window.startOutside (hs : Window input s) {markup : Markup} (hm : MarkupIn s markup)
    (hmode : s.mode = .prolog ∨ s.mode = .outside) (quickXml : Bytes → Option Bytes)
    (nameEnd : Nat) (empty : Bool) :
    AgreesState input (fun _ => True) (s.startOutside quickXml markup nameEnd empty)
      ((s.whole input).startOutside quickXml (shiftMarkup s.base markup) (s.base + nameEnd)
        empty) := by
  have htag : slice s.buf (markup.start + 1)
        (if empty = true then markup.stop - 2 else markup.stop - 1) =
      slice input (s.base + markup.start + 1)
        (if empty = true then s.base + markup.stop - 2 else s.base + markup.stop - 1) := by
    split
    · exact hs.inner_eq hm 1 2
    · exact hs.inner_eq hm 1 1
  have hname : s.base + nameEnd - (s.base + markup.start) - 1 = nameEnd - markup.start - 1 := by
    omega
  unfold Splitter.startOutside
  simp only [whole_buf, shiftMarkup]
  rw [← htag, hname]
  exact hs.startTag hm hmode quickXml _ _ empty

/-! ## End tags and the end of the input -/

theorem Window.endContainer (hs : Window input s) (frame : Frame) {stop : Nat}
    (hstop : stop ≤ s.buf.length) :
    (s.endContainer frame stop).whole input =
        (s.whole input).endContainer frame (s.base + stop) ∧
      Window input (s.endContainer frame stop) := by
  have hforget := (countReferenced_untouched s (frame.members && !frame.hasChild)).trans
    (undeclare_untouched _ (frame.bindingsBefore < s.bindings.length) frame.bindingsBefore)
  have hw := hs.untouched hforget
  have hwhole : ((s.whole input).countReferenced (frame.members && !frame.hasChild)).undeclare
      (frame.bindingsBefore < (s.whole input).bindings.length) frame.bindingsBefore =
      ((s.countReferenced (frame.members && !frame.hasChild)).undeclare
        (frame.bindingsBefore < s.bindings.length) frame.bindingsBefore).whole input := by
    rw [whole_undeclare, whole_countReferenced]
    rfl
  unfold Splitter.endContainer
  rw [hwhole]
  generalize (s.countReferenced (frame.members && !frame.hasChild)).undeclare
    (frame.bindingsBefore < s.bindings.length) frame.bindingsBefore = u at *
  dsimp only
  by_cases hempty : u.stack.isEmpty = true
  · have hempty' : (u.whole input).stack.isEmpty = true := hempty
    rw [if_pos hempty, if_pos hempty', ← hforget.base]
    refine hw.endRoot ?_
    rw [hforget.buf]
    exact hstop
  · have hempty' : ¬ (u.whole input).stack.isEmpty = true := hempty
    rw [if_neg hempty, if_neg hempty']
    exact ⟨rfl, hw⟩

theorem Window.endOutside (hs : Window input s) {markup : Markup} (hm : MarkupIn s markup) :
    AgreesState input (fun _ => True) (s.endOutside markup)
      ((s.whole input).endOutside (shiftMarkup s.base markup)) := by
  have hname : slice (s.whole input).buf ((shiftMarkup s.base markup).start + 2)
      ((shiftMarkup s.base markup).stop - 1) = slice s.buf (markup.start + 2) (markup.stop - 1) :=
    (hs.inner_eq hm 2 1).symm
  have herror : (s.whole input).error (shiftMarkup s.base markup).start = s.error markup.start :=
    funext fun message => error_whole s input markup.start message
  unfold Splitter.endOutside
  rw [hname]
  generalize trimAscii (slice s.buf (markup.start + 2) (markup.stop - 1)) = name
  unfold endNamed
  rw [whole_stack, herror]
  cases s.stack with
  | nil => exact .error _
  | cons frame stack =>
    have hpop : Untouched s (s.setStack stack) := ⟨rfl, rfl, rfl, rfl, rfl, rfl, rfl⟩
    obtain ⟨hclosed, hwclosed⟩ :=
      (hs.untouched hpop).endContainer frame hm.stop_le
    dsimp only
    split
    · have hwhole : ((s.whole input).setStack stack).endContainer frame
          (shiftMarkup s.base markup).stop =
          ((s.setStack stack).endContainer frame markup.stop).whole input := hclosed.symm
      rw [hwhole]
      exact .ok hwclosed trivial
    · exact .error _

theorem Window.finish (hs : Window input s) (hend : s.base + s.buf.length = input.length) :
    AgreesState input (fun _ => True) s.finish (s.whole input).finish := by
  have herror : (s.whole input).setFinished.error (s.whole input).setFinished.buf.length =
      s.setFinished.error s.setFinished.buf.length := by
    have : (s.whole input).setFinished.buf.length = s.base + s.buf.length := hend.symm
    rw [this]
    exact funext fun message => error_whole s.setFinished input s.buf.length message
  have hfinished : Untouched s s.setFinished := ⟨rfl, rfl, rfl, rfl, rfl, rfl, rfl⟩
  have hw := hs.untouched (hfinished.trans (flushChunk_untouched _))
  have hwhole : (s.whole input).setFinished.flushChunk = s.setFinished.flushChunk.whole input := by
    rw [whole_flushChunk]
    rfl
  unfold Splitter.finish
  dsimp only
  rw [herror, hwhole]
  by_cases hopen : s.mode ≠ .epilog ∧ s.mode ≠ .prolog
  · have hopen' : (s.whole input).setFinished.mode ≠ .epilog ∧
        (s.whole input).setFinished.mode ≠ .prolog := hopen
    have hopen'' : s.setFinished.mode ≠ .epilog ∧ s.setFinished.mode ≠ .prolog := hopen
    rw [if_pos hopen', if_pos hopen'']
    exact .error _
  · have hopen' : ¬ ((s.whole input).setFinished.mode ≠ .epilog ∧
        (s.whole input).setFinished.mode ≠ .prolog) := hopen
    have hopen'' : ¬ (s.setFinished.mode ≠ .epilog ∧ s.setFinished.mode ≠ .prolog) := hopen
    rw [if_neg hopen', if_neg hopen'']
    generalize s.setFinished.flushChunk = u at *
    by_cases hnone : (!u.sawContainer && !u.rootFeature) = true
    · have hnone' : (!(u.whole input).sawContainer && !(u.whole input).rootFeature) = true := hnone
      rw [if_pos hnone, if_pos hnone']
      exact .error _
    · have hnone' : ¬ (!(u.whole input).sawContainer && !(u.whole input).rootFeature) = true :=
        hnone
      rw [if_neg hnone, if_neg hnone']
      exact .ok hw trivial

/-! ## Steps -/

theorem Window.setDepth (hs : Window input s) {depth depth' : Nat} {emit boundedBy : Bool}
    {start : Nat} (hmode : s.mode = .feature depth emit start boundedBy) :
    Window input (s.setMode (.feature depth' emit start boundedBy)) := by
  refine hs.remoded ⟨rfl, rfl, rfl, rfl, rfl⟩ (fun kept hkept => hs.kept kept ?_) ?_
  · have hkeeps : (s.setMode (.feature depth' emit start boundedBy)).keeps = s.keeps := by
      simp only [keeps, setMode, hmode]
      cases emit <;> rfl
    rwa [hkeeps] at hkept
  · rintro _ _ _ ⟨⟩
    exact hs.bounds _ _ _ hmode

theorem Window.onMarkup (hs : Window input s) {markup : Markup} (hm : MarkupIn s markup)
    (quickXml : Bytes → Option Bytes) :
    AgreesState input (fun _ => True) (s.onMarkup quickXml markup)
      ((s.whole input).onMarkup quickXml (shiftMarkup s.base markup)) := by
  have herror : (s.whole input).error (shiftMarkup s.base markup).start = s.error markup.start :=
    funext fun message => error_whole s input markup.start message
  unfold Splitter.onMarkup
  rw [herror, whole_mode]
  obtain ⟨kind, start, stop⟩ := markup
  cases hmode : s.mode with
  | feature depth emit first boundedBy =>
    cases kind with
    | start nameEnd empty =>
      cases empty with
      | false => exact .ok (hs.setDepth hmode) trivial
      | true => exact .ok hs trivial
    | endTag =>
      dsimp only [shiftMarkup, shiftKind]
      split
      · have hw : Window input (s.setMode .outside) := by
          refine hs.remoded ⟨rfl, rfl, rfl, rfl, rfl⟩ (fun kept hkept => hs.kept kept ?_) nofun
          exact List.mem_append_right _ hkept
        have hkept : emit = true → s.base ≤ first := by
          rintro rfl
          refine (hs.kept first (List.mem_append_left _ ?_)).1
          rw [hmode]
          exact List.mem_singleton_self _
        cases boundedBy with
        | true =>
          have hbounds := hw.whole_endBoundedBy (hkept (hs.bounds _ _ _ hmode)) hm.stop_le
          rw [if_pos rfl, if_pos rfl]
          have : AgreesState input (fun _ => True) _ _ :=
            .ok (hw.untouched (endBoundedBy_untouched _ first stop)) trivial
          rw [hbounds] at this
          exact this
        | false =>
          have hfeature := hw.whole_endFeature hkept hm.stop_le
          rw [if_neg Bool.false_ne_true, if_neg Bool.false_ne_true]
          have : AgreesState input (fun _ => True) _ _ :=
            .ok (hw.untouched (endFeature_untouched _ emit first stop)) trivial
          rw [hfeature] at this
          exact this
      · exact .ok (hs.setDepth hmode) trivial
    | other => exact .ok hs trivial
  | prolog =>
    cases kind with
    | start nameEnd empty => exact hs.startOutside hm (.inl hmode) quickXml nameEnd empty
    | endTag => exact hs.endOutside hm
    | other => exact .ok hs trivial
  | outside =>
    cases kind with
    | start nameEnd empty => exact hs.startOutside hm (.inr hmode) quickXml nameEnd empty
    | endTag => exact hs.endOutside hm
    | other => exact .ok hs trivial
  | epilog =>
    cases kind with
    | other => exact .ok hs trivial
    | start nameEnd empty => exact .error _
    | endTag => exact .error _

theorem stepMarkup_agrees (hs : Window input s) :
    Agrees input (SameMarkup input) s.stepMarkup (s.whole input).stepMarkup := by
  unfold stepMarkup
  rw [whole_mode]
  cases s.mode with
  | feature depth emit start boundedBy => exact nextFeatureMarkup_agrees hs
  | prolog => exact nextMarkup_agrees hs
  | outside => exact nextMarkup_agrees hs
  | epilog => exact nextMarkup_agrees hs

theorem step_agrees (hs : Window input s) (quickXml : Bytes → Option Bytes) :
    AgreesState input (fun _ => True) (s.step quickXml) ((s.whole input).step quickXml) := by
  unfold Splitter.step
  refine (stepMarkup_agrees hs).bindState fun s found found' hs hsame => ?_
  obtain ⟨rfl, hin, hend⟩ := hsame
  cases found with
  | none => exact hs.finish (hend rfl)
  | some markup =>
    obtain ⟨hlt, hstop⟩ := hin markup rfl
    have := hs.pos_le
    exact hs.onMarkup ⟨hlt, by omega, by omega⟩ quickXml

/-! ## Runs -/

theorem drain_untouched (s : Splitter) : Untouched s s.drain :=
  ⟨rfl, rfl, rfl, rfl, rfl, rfl, rfl⟩

theorem chunksLoop_agrees (quickXml : Bytes → Option Bytes) : ∀ (fuel : Nat) (s : Splitter),
    Window input s → chunksLoop quickXml fuel s = chunksLoop quickXml fuel (s.whole input) := by
  intro fuel
  induction fuel with
  | zero => intro s _; rfl
  | succ fuel ih =>
    intro s hs
    have hwhole : (s.whole input).drain = s.drain.whole input := rfl
    rw [chunksLoop, chunksLoop, whole_ready, hwhole]
    by_cases hfinished : s.finished = true
    · have hfinished' : (s.whole input).finished = true := hfinished
      rw [if_pos hfinished, if_pos hfinished']
    · have hfinished' : ¬ (s.whole input).finished = true := hfinished
      rw [if_neg hfinished, if_neg hfinished']
      have hstep := step_agrees (hs.untouched s.drain_untouched) quickXml
      generalize s.drain.step quickXml = r at *
      generalize (s.drain.whole input).step quickXml = w at *
      cases hstep with
      | ok window _ =>
        dsimp only
        rw [ih _ window]
      | error e => rfl

theorem Window.unread_eq (hs : Window input s) :
    s.unread = input.length - (s.base + s.pos) := by
  have := hs.turns_eq
  unfold turns at this
  unfold unread
  omega

theorem chunks_whole (hs : Window input s) (quickXml : Bytes → Option Bytes) :
    s.chunks quickXml = (s.whole input).chunks quickXml := by
  unfold chunks
  rw [hs.unread_eq, hs.toWhole.unread_eq, whole_base, whole_pos, Nat.zero_add]
  exact chunksLoop_agrees quickXml _ s hs

theorem new_window {reader : List Read} (h : Delivers reader input) (source : Nat)
    (options : SplitterOptions) : Window input (new reader source options) where
  shows := ⟨[], input, rfl, rfl, h, nofun⟩
  pos_le := Nat.le_refl _
  kept := nofun
  bounds := nofun

/-- The splitter that has read the whole input in one go. -/
def ofInput (input : Bytes) (source : Nat) (options : SplitterOptions) : Splitter :=
  { new [] source options with buf := input, eof := true }

theorem chunks_delivers {reader : List Read} (h : Delivers reader input)
    (quickXml : Bytes → Option Bytes) (source : Nat) (options : SplitterOptions) :
    (new reader source options).chunks quickXml =
      (ofInput input source options).chunks quickXml :=
  chunks_whole (new_window h source options) quickXml

end

end Splitter

end Xeibe

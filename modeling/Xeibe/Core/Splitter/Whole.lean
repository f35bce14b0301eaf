import Xeibe.Core.Splitter.ReadSize

/-!
# The splitter that has read its input

At the end of the input a scan has nothing to resume after: it answers at
once, and leaves the splitter as it is.  The first half gives each scanning
function by what it finds in the bytes from `pos` on.

The second half is what a step does to the window (`step_remoded`) and that a
run ends (`chunks_terminates`): a step passes markup, or is the last.
-/

namespace Xeibe

open Lib

namespace Splitter

section

variable {input : Bytes} {s s' : Splitter} {α β : Type}

/-! ## Scans at the end of the input -/

theorem fill_eof (h : s.eof = true) : s.fill = .ok (false, s) := by
  rw [fill, if_pos h]

theorem scan_eof (h : s.eof = true) (look : Splitter → β → α ⊕ β) (atEof : Splitter → Error)
    (fuel : Nat) (b : β) :
    scan look atEof (fuel + 1) s b =
      match look s b with
      | .inl a => .ok (a, s)
      | .inr _ => .error (atEof s) := by
  rw [scan]
  cases look s b with
  | inl a => rfl
  | inr b' =>
    rw [fill_eof h]
    rfl

theorem need_eof (h : s.eof = true) (n : Nat) :
    s.need n =
      if s.buf.length - s.pos < n then
        .error (s.error s.pos [.text "unexpected end of input in markup"])
      else .ok s := by
  unfold need
  dsimp only
  rw [scan_eof h]
  by_cases hn : s.buf.length - s.pos < n
  · simp only [if_pos hn]
    rfl
  · simp only [if_neg hn]
    rfl

theorem need_ok (h : s.eof = true) {n : Nat} (hneed : s.need n = .ok s') : s' = s := by
  rw [need_eof h] at hneed
  split at hneed
  · cases hneed
  · exact (Except.ok.inj hneed).symm

theorem find_eof (h : s.eof = true) (start : Nat) (pattern : Bytes) :
    s.find start pattern =
      match indexOf pattern (s.buf.drop (s.pos + start)) with
      | some i => .ok (start + i, s)
      | none => .error (s.error s.pos [.text "unexpected end of input in markup"]) := by
  unfold find
  rw [scan_eof h]
  cases indexOf pattern (s.buf.drop (s.pos + start)) with
  | some i => rfl
  | none => rfl

theorem scanStartTag_eof (h : s.eof = true) :
    s.scanStartTag =
      match ((s.buf.drop s.pos).drop 1).findIdx? isNameEnd with
      | none => .error (s.error s.pos [.text "unexpected end of input in a start tag"])
      | some j =>
        match scanQuotes ((s.buf.drop s.pos).drop (1 + j)) (1 + j) none with
        | .inr _ => .error (s.error s.pos [.text "unexpected end of input in a start tag"])
        | .inl close => .ok ((close, 1 + j), s) := by
  unfold scanStartTag
  dsimp only
  rw [scan_eof h]
  cases ((s.buf.drop s.pos).drop 1).findIdx? isNameEnd with
  | none => rfl
  | some j =>
    dsimp only [bind, Except.bind]
    rw [scan_eof h]
    cases scanQuotes ((s.buf.drop s.pos).drop (1 + j)) (1 + j) none with
    | inl close => rfl
    | inr state => rfl

theorem seekMarkup_eof (h : s.eof = true) (fuel : Nat) :
    seekMarkup (fuel + 1) s =
      match indexOf (utf8 "<") (s.buf.drop s.pos) with
      | some i => .ok (true, s.moveTo (s.pos + i))
      | none => .ok (false, s.moveTo s.buf.length) := by
  rw [seekMarkup]
  cases indexOf (utf8 "<") (s.buf.drop s.pos) with
  | some i => rfl
  | none =>
    have heof : (s.moveTo s.buf.length).eof = true := h
    dsimp only
    rw [fill_eof heof]
    rfl

/-! ## What a scan leaves as it is -/

theorem scan_same (h : s.eof = true) {look : Splitter → β → α ⊕ β} {atEof : Splitter → Error}
    {fuel : Nat} {b : β} {a : α} (hscan : scan look atEof fuel s b = .ok (a, s')) : s' = s := by
  refine scan_preserves (fun t => t = s) (fun t t' more ht hfill => ?_) fuel s s' b a rfl hscan
  rw [ht, fill_eof h] at hfill
  cases hfill
  rfl

/-- The only state a result can come with. -/
def Keeps (s : Splitter) (r : Except Error (α × Splitter)) : Prop :=
  ∀ a s', r = .ok (a, s') → s' = s

theorem Keeps.bind {r : Except Error (α × Splitter)}
    {f : α × Splitter → Except Error (β × Splitter)} (h : Keeps s r)
    (hf : ∀ a, Keeps s (f (a, s))) : Keeps s (r >>= f) := by
  intro b s' hb
  cases r with
  | error e => cases hb
  | ok p =>
    obtain ⟨a, t⟩ := p
    have ht := h a t rfl
    subst ht
    exact hf a b s' hb

theorem Keeps.ok (a : α) : Keeps s (.ok (a, s)) := by
  rintro b s' ⟨⟩
  rfl

theorem Keeps.error (e : Error) : Keeps s (.error e : Except Error (α × Splitter)) := by
  intro a s' h
  cases h

theorem need_keeps (h : s.eof = true) (n : Nat) {f : Splitter → Except Error (α × Splitter)}
    (hf : Keeps s (f s)) : Keeps s (s.need n >>= f) := by
  rw [need_eof h]
  split
  · exact .error _
  · exact hf

theorem find_keeps (h : s.eof = true) (start : Nat) (pattern : Bytes) :
    Keeps s (s.find start pattern) := fun _ _ hfind => scan_same h hfind

theorem markupAt_keeps (h : s.eof = true) : Keeps s s.markupAt := by
  unfold markupAt
  refine need_keeps h 2 ?_
  split
  · exact (find_keeps h _ _).bind fun i => .ok _
  · split
    · exact (find_keeps h _ _).bind fun i => .ok _
    · split
      · refine need_keeps h 4 ?_
        split
        · exact (find_keeps h _ _).bind fun i => .ok _
        · refine need_keeps h 9 ?_
          dsimp only
          split
          · exact (find_keeps h _ _).bind fun i => .ok _
          · split
            · exact .error _
            · exact .error _
      · have hscan : Keeps s s.scanStartTag := by
          unfold scanStartTag
          exact Keeps.bind (fun _ _ => scan_same h) fun nameEnd =>
            Keeps.bind (fun _ _ => scan_same h) fun close => .ok _
        exact hscan.bind fun a => .ok _

/-! ## Markup -/

/-- Where the next markup stands: not before `pos`, and up to where the
splitter goes. -/
structure Passes (s : Splitter) (markup : Markup) (s' : Splitter) : Prop where
  moved : s' = s.moveTo markup.stop
  le_start : s.pos ≤ markup.start
  start_lt : markup.start < markup.stop
  stop_le : markup.stop ≤ s.buf.length

theorem nextMarkup_passes (hs : Window input s) (heof : s.eof = true) {markup : Markup}
    (h : s.nextMarkup = .ok (some markup, s')) : Passes s markup s' := by
  unfold nextMarkup at h
  rw [seekMarkup_eof heof] at h
  cases hi : indexOf (utf8 "<") (s.buf.drop s.pos) with
  | none =>
    rw [hi] at h
    cases h
  | some i =>
    rw [hi] at h
    simp only [bind, Except.bind, if_true] at h
    have hlt := (hs.indexOf_eq hi).2
    have hmoved := hs.moveTo (Nat.le_add_right s.pos i) (Nat.le_of_lt hlt)
    have hagrees := markupAt_agrees hmoved
    have hkeeps := markupAt_keeps (s := s.moveTo (s.pos + i)) heof
    cases hm : (s.moveTo (s.pos + i)).markupAt with
    | error e =>
      rw [hm] at h
      cases h
    | ok r =>
      obtain ⟨⟨kind, len⟩, t⟩ := r
      have ht := hkeeps _ _ hm
      subst ht
      rw [hm] at h hagrees
      cases h
      generalize hw : ((s.moveTo (s.pos + i)).whole input).markupAt = w at hagrees
      cases hagrees with
      | ok window related =>
        obtain ⟨-, hpos, hle⟩ := related
        simp only [moveTo_pos, moveTo_buf] at hpos hle
        exact ⟨rfl, Nat.le_add_right _ _, by simp only [moveTo_pos]; omega,
          by simp only [moveTo_pos]; omega⟩

theorem nextFeatureMarkupLoop_passes : ∀ (fuel : Nat) (s : Splitter), Window input s →
    s.eof = true → ∀ {markup : Markup} {s' : Splitter},
    nextFeatureMarkupLoop fuel s = .ok (some markup, s') → Passes s markup s' := by
  intro fuel
  induction fuel with
  | zero =>
    intro s _ _ markup s' h
    cases h
  | succ fuel ih =>
    intro s hs heof markup s' h
    rw [nextFeatureMarkupLoop] at h
    cases hi : indexOf (utf8 "<") (s.buf.drop s.pos) with
    | none =>
      have heof' : (s.moveTo s.buf.length).eof = true := heof
      rw [hi] at h
      simp only [fill_eof heof', bind, Except.bind] at h
      cases h
    | some i =>
      have hlt := (hs.indexOf_eq hi).2
      have hle := Nat.le_add_right s.pos i
      have hmoved := hs.moveTo hle (Nat.le_of_lt hlt)
      have heof' : (s.moveTo (s.pos + i)).eof = true := heof
      -- Markup further on in the input.
      have hfrom : ∀ p, s.pos ≤ p → Passes (s.moveTo p) markup s' → Passes s markup s' := by
        intro p hp hpass
        exact ⟨hpass.moved, Nat.le_trans hp hpass.le_start, hpass.start_lt, hpass.stop_le⟩
      simp only [hi, bind, Except.bind] at h
      cases hneed : (s.moveTo (s.pos + i)).need 2 with
      | error e =>
        rw [hneed] at h
        cases h
      | ok t =>
        have ht := need_ok heof' hneed
        subst ht
        rw [hneed] at h
        dsimp only at h
        split at h
        · exact hfrom _ hle (nextMarkup_passes hmoved heof' h)
        · generalize (if (s.moveTo (s.pos + i)).byte ((s.moveTo (s.pos + i)).pos + 1) = 47
            then 2 else 1) = nameAt at h
          cases hname : (s.moveTo (s.pos + i)).need
              (nameAt + (s.moveTo (s.pos + i)).featureName.length + 1) with
          | error e =>
            rw [hname] at h
            cases h
          | ok t =>
            have ht := need_ok heof' hname
            subst ht
            rw [hname] at h
            dsimp only at h
            split at h
            · exact hfrom _ hle (nextMarkup_passes hmoved heof' h)
            · have hnext := hs.moveTo (Nat.le_succ_of_le hle) hlt
              exact hfrom _ (Nat.le_succ_of_le hle) (ih _ hnext heof h)

theorem stepMarkup_passes (hs : Window input s) (heof : s.eof = true) {markup : Markup}
    (h : s.stepMarkup = .ok (some markup, s')) : Passes s markup s' := by
  unfold stepMarkup at h
  split at h
  · exact nextFeatureMarkupLoop_passes _ s hs heof h
  · exact nextMarkup_passes hs heof h

/-! ## What a step does to the window -/

theorem endRoot_remoded (s : Splitter) (stop : Nat) : Remoded s (s.endRoot stop) := by
  unfold endRoot
  split
  · exact ⟨rfl, rfl, rfl, rfl, rfl⟩
  · have htaken : Remoded s (s.setMode .epilog).takeRoot := ⟨rfl, rfl, rfl, rfl, rfl⟩
    exact htaken.trans ((beginWanted_untouched _ _ _).trans (endFeature_untouched _ _ _ _)).remoded

theorem startFeature_remoded (s : Splitter) (markup : Markup) (rawName : Bytes) (name : QName)
    (empty : Bool) : Remoded s (s.startFeature markup rawName name empty) := by
  have hbegin := s.markChild_untouched.trans
    (beginWanted_untouched _ (wantedIn s.options name) (s.base + markup.start))
  unfold startFeature
  dsimp only
  split
  · exact (hbegin.trans (endFeature_untouched _ _ _ _)).remoded
  · exact hbegin.remoded.trans ⟨rfl, rfl, rfl, rfl, rfl⟩

theorem startContainer_remoded (s : Splitter) (markup : Markup) (rawName : Bytes) (name : QName)
    (empty declared isRoot : Bool) (n : Nat) :
    Remoded s (s.startContainer markup rawName name empty declared isRoot n) := by
  unfold startContainer
  dsimp only
  generalize s.options.memberRules.any (fun rule => rule.element == name) = members
  have hnote := (s.noteContainer_remoded markup (members || isCollection name) isRoot).trans
    (markChild_untouched _).remoded
  split
  · have hforget := hnote.trans
      ((undeclare_untouched _ declared n).trans (countReferenced_untouched _ members)).remoded
    split
    · exact hforget.trans (endRoot_remoded _ _)
    · exact hforget
  · exact hnote.trans ⟨rfl, rfl, rfl, rfl, rfl⟩

theorem startNamed_remoded (quickXml : Bytes → Option Bytes) (s : Splitter) (markup : Markup)
    (rawName : Bytes) (attributes : List (Bytes × Bytes)) (name : QName) (empty declared : Bool)
    (n : Nat) :
    Remoded s (s.startNamed quickXml markup rawName attributes name empty declared n) := by
  have hroot : Remoded s (if s.mode == .prolog then
      (s.readHeader quickXml name attributes n).setMode .outside else s) := by
    split
    · exact ⟨rfl, rfl, rfl, rfl, rfl⟩
    · exact (Untouched.refl s).remoded
  unfold startNamed
  dsimp only
  generalize (if s.mode == .prolog then
    (s.readHeader quickXml name attributes n).setMode .outside else s) = u at *
  have hforget := hroot.trans (undeclare_untouched u declared n).remoded
  split
  · exact hforget.trans (startFeature_remoded _ _ _ _ _)
  · split
    · split
      · exact hforget
      · exact hforget.trans ⟨rfl, rfl, rfl, rfl, rfl⟩
    · exact hroot.trans (startContainer_remoded _ _ _ _ _ _ _ _)

/-- What a start tag does, when it is no error. -/
theorem startTag_ok {quickXml : Bytes → Option Bytes} {markup : Markup} {tag : Bytes}
    {nameLen : Nat} {empty : Bool} (h : s.startTag quickXml markup tag nameLen empty = .ok s') :
    ∃ attributes name, parseAttributes (tag.drop nameLen) = .ok attributes ∧
      ((s.declare (attributes.filterMap (declaration quickXml))).resolveElement
        (tag.take nameLen)).1 = some name ∧
      s' = ((s.declare (attributes.filterMap (declaration quickXml))).resolveElement
        (tag.take nameLen)).2.startNamed quickXml markup (tag.take nameLen) attributes name empty
          (!(attributes.filterMap (declaration quickXml)).isEmpty) s.bindings.length := by
  unfold startTag at h
  simp only [bind, Except.bind, pure, Except.pure, throw, throwThe, MonadExceptOf.throw] at h
  by_cases hutf8 : isUtf8 tag = true
  · rw [hutf8, Bool.not_true, if_neg Bool.false_ne_true] at h
    cases hattributes : parseAttributes (tag.drop nameLen) with
    | error message =>
      rw [hattributes] at h
      cases h
    | ok attributes =>
      rw [hattributes] at h
      simp only [Except.mapError] at h
      refine ⟨attributes, ?_⟩
      generalize (s.declare (attributes.filterMap (declaration quickXml))).resolveElement
        (tag.take nameLen) = r at *
      obtain ⟨name, u⟩ := r
      cases name with
      | none => cases h
      | some name => exact ⟨name, rfl, rfl, (Except.ok.inj h).symm⟩
  · rw [if_pos (by simpa using hutf8)] at h
    cases h

theorem endContainer_remoded (s : Splitter) (frame : Frame) (stop : Nat) :
    Remoded s (s.endContainer frame stop) := by
  have hforget := ((countReferenced_untouched s (frame.members && !frame.hasChild)).trans
    (undeclare_untouched _ (frame.bindingsBefore < s.bindings.length)
      frame.bindingsBefore)).remoded
  unfold endContainer
  dsimp only
  split
  · exact hforget.trans (endRoot_remoded _ _)
  · exact hforget

theorem onMarkup_remoded {quickXml : Bytes → Option Bytes} {markup : Markup}
    (h : s.onMarkup quickXml markup = .ok s') : Remoded s s' := by
  have hsame := (Untouched.refl s).remoded
  have hmode : ∀ mode, Remoded s (s.setMode mode) := fun _ => ⟨rfl, rfl, rfl, rfl, rfl⟩
  have houtside : ∀ nameEnd empty, s.startOutside quickXml markup nameEnd empty = .ok s' →
      Remoded s s' := by
    intro nameEnd empty hstart
    obtain ⟨attributes, name, -, -, rfl⟩ := startTag_ok hstart
    exact ((declare_untouched s _).trans (resolveElement_untouched _ _)).remoded.trans
      (startNamed_remoded _ _ _ _ _ _ _ _ _)
  have hend : s.endOutside markup = .ok s' → Remoded s s' := by
    intro hended
    unfold endOutside endNamed at hended
    split at hended
    · cases hended
    · rename_i frame stack _
      split at hended
      · cases hended
        have hpop : Remoded s (s.setStack stack) := ⟨rfl, rfl, rfl, rfl, rfl⟩
        exact hpop.trans (endContainer_remoded _ _ _)
      · cases hended
  unfold onMarkup at h
  split at h
  · split at h
    · cases h
      exact hmode _
    · split at h
      · cases h
        split
        · exact (hmode _).trans (endBoundedBy_untouched _ _ _).remoded
        · exact (hmode _).trans (endFeature_untouched _ _ _ _).remoded
      · cases h
        exact hmode _
    · cases h
      exact hsame
  · split at h
    · exact houtside _ _ h
    · exact hend h
    · cases h
      exact hsame
  · split at h
    · exact houtside _ _ h
    · exact hend h
    · cases h
      exact hsame
  · split at h
    · cases h
      exact hsame
    · cases h

/-! ## A run ends -/

theorem finish_finished (h : s.finish = .ok s') : s'.finished = true := by
  have hfinished : ∀ t : Splitter, t.flushChunk.finished = t.finished := by
    intro t
    unfold flushChunk
    split <;> rfl
  unfold finish at h
  dsimp only at h
  split at h
  · cases h
  · split at h
    · cases h
    · cases h
      exact hfinished _

/-- A step passes markup, or is the last. -/
theorem step_progress (hs : Window input s) (heof : s.eof = true)
    {quickXml : Bytes → Option Bytes} (h : s.step quickXml = .ok s') :
    s'.finished = true ∨
      s'.eof = true ∧ s'.buf = s.buf ∧ s'.reader = s.reader ∧ s.pos < s'.pos ∧
        s'.pos ≤ s'.buf.length := by
  unfold step at h
  cases hmarkup : s.stepMarkup with
  | error e =>
    rw [hmarkup] at h
    cases h
  | ok r =>
    obtain ⟨markup, t⟩ := r
    rw [hmarkup] at h
    cases markup with
    | none => exact .inl (finish_finished h)
    | some markup =>
      obtain ⟨rfl, hle, hlt, hstop⟩ := stepMarkup_passes hs heof hmarkup
      have hremoded := onMarkup_remoded h
      refine .inr ⟨hremoded.eof.trans heof, hremoded.buf, hremoded.reader, ?_, ?_⟩
      · rw [hremoded.pos, moveTo_pos]
        omega
      · rw [hremoded.pos, hremoded.buf]
        exact hstop

theorem chunksLoop_terminates (quickXml : Bytes → Option Bytes) : ∀ (fuel : Nat) (s : Splitter),
    Window input s → s.eof = true → s.unread + 2 ≤ fuel ∨ (s.finished = true ∧ 1 ≤ fuel) →
    (chunksLoop quickXml fuel s).2 ≠ .outOfTurns := by
  intro fuel
  induction fuel with
  | zero => intro s _ _ hfuel; omega
  | succ fuel ih =>
    intro s hs heof hfuel
    rw [chunksLoop]
    split
    · intro h
      cases h
    · rename_i hrunning
      have hunread : s.unread + 2 ≤ fuel + 1 := by
        rcases hfuel with h | ⟨h, -⟩
        · exact h
        · exact absurd h hrunning
      have hdrained := hs.untouched s.drain_untouched
      cases hstep : s.drain.step quickXml with
      | error e =>
        intro h
        cases h
      | ok t =>
        have hw : Window input t := by
          have hagrees := step_agrees hdrained quickXml
          rw [hstep] at hagrees
          generalize (s.drain.whole input).step quickXml = w at hagrees
          cases hagrees with
          | ok window _ => exact window
        rcases step_progress hdrained heof hstep with hfinished | ⟨heof', hbuf, hreader, hlt, hle⟩
        · cases fuel with
          | zero => omega
          | succ fuel =>
            dsimp only
            rw [chunksLoop, if_pos hfinished]
            intro h
            cases h
        · refine ih t hw heof' (.inl ?_)
          have hbuf' : s.drain.buf = s.buf := rfl
          have hreader' : s.drain.reader = s.reader := rfl
          have hpos' : s.drain.pos = s.pos := rfl
          unfold unread at hunread ⊢
          rw [hbuf] at hle ⊢
          rw [hreader, hreader']
          rw [hbuf'] at hle ⊢
          rw [hpos'] at hlt
          omega

theorem chunks_terminates {reader : List Read} (h : Delivers reader input)
    (quickXml : Bytes → Option Bytes) (source : Nat) (options : SplitterOptions) :
    ((new reader source options).chunks quickXml).2 ≠ .outOfTurns := by
  rw [chunks_delivers h]
  unfold chunks
  exact chunksLoop_terminates quickXml _ _ (new_window h source options).toWhole rfl
    (.inl (Nat.le_refl _))

/-- However a reader delivers an input, in reads of any sizes and interrupted
anywhere, the splitter makes the same chunks of it, and comes to the same end,
the same error at the same offset included. -/
theorem chunks_readSize_independent {reader₁ reader₂ : List Read}
    (h₁ : Delivers reader₁ input) (h₂ : Delivers reader₂ input)
    (quickXml : Bytes → Option Bytes) (source : Nat) (options : SplitterOptions) :
    (new reader₁ source options).chunks quickXml = (new reader₂ source options).chunks quickXml ∧
      ((new reader₁ source options).chunks quickXml).2 ≠ .outOfTurns :=
  ⟨by rw [chunks_delivers h₁, chunks_delivers h₂], chunks_terminates h₁ quickXml source options⟩

/-- `<a><!--x--></a>` in one read, and cut inside the comment's end with an
interrupted read between. -/
theorem chunks_readSize_independent_comment :
    (new [.bytes (utf8 "<a><!--x--"), .interrupted, .bytes (utf8 "></a>")] 0 .default).chunks some =
        (new [.bytes (utf8 "<a><!--x--></a>")] 0 .default).chunks some ∧
      ((new [.bytes (utf8 "<a><!--x--"), .interrupted, .bytes (utf8 "></a>")] 0
        .default).chunks some).2 ≠ .outOfTurns :=
  have hcut : Delivers [.bytes (utf8 "<a><!--x--"), .interrupted, .bytes (utf8 "></a>")]
      (utf8 "<a><!--x--></a>") := .bytes (by decide) (.interrupted (.bytes (by decide) .done))
  have hone : Delivers [.bytes (utf8 "<a><!--x--></a>")] (utf8 "<a><!--x--></a>") :=
    .bytes (by decide) .done
  chunks_readSize_independent hcut hone some 0 .default

end

end Splitter

end Xeibe

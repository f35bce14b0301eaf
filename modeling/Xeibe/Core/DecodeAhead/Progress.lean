import Xeibe.Core.DecodeAhead.Transparent

/-!
# A read can always be answered

A call of `block` comes to an end (`Finishes`), since the interruptions of a
stream do.  So the thread that holds the decoder can let go of it, and the
reader can go on to its answer from wherever it is: no state is a deadlock.

The main result puts this together with what the answers are.
-/

namespace Xeibe.DecodeAhead

open Xeibe.Lib Xeibe.Lib.ReadStream

variable {σ ε : Type} {read : σ → Nat → Outcome UInt8 ε × σ}

/-! ## The decoder -/

variable (read) in
/-- A call of `block` ends after some steps. -/
inductive Finishes : AheadDecoder σ ε → Decoding ε → Prop where
  | finished (decoder : AheadDecoder σ ε) (result : Option (Block ε)) :
      Finishes decoder (.finished result)
  | advance {decoder : AheadDecoder σ ε} {d : Decoding ε}
      (h : Finishes (decoder.advance read d).2 (decoder.advance read d).1) : Finishes decoder d

theorem finishes_reading {reader : σ} {bytes : Bytes} {ending : Ending ε}
    (h : Delivers read reader bytes ending) (decoder : AheadDecoder σ ε) (block : Bytes)
    (hreader : decoder.reader = reader) : Finishes read decoder (.reading block) := by
  induction h generalizing decoder block with
  | intro heof hdata hnext hinterrupted hfailed ihnext ihinterrupted =>
    apply Finishes.advance
    rw [AheadDecoder.advance]
    by_cases hblock : block.length < AHEAD_BLOCK
    · rw [if_pos hblock]
      have hn : 0 < AHEAD_BLOCK - block.length := by omega
      unfold AheadDecoder.readOn
      generalize hread : read decoder.reader (AHEAD_BLOCK - block.length) = answer
      obtain ⟨outcome, reader'⟩ := answer
      rw [hreader] at hread
      cases outcome with
      | data xs =>
        cases xs with
        | nil => exact .finished _ _
        | cons x xs => exact ihnext _ _ _ _ hn hread _ _ rfl
      | interrupted => exact ihinterrupted _ _ hn hread _ _ rfl
      | failed e =>
        dsimp only
        split
        · exact .finished _ _
        · unfold AheadDecoder.nonEmpty
          exact .finished _ _
    · rw [if_neg hblock]
      exact .finished _ _

/-- What still gives a content ends. -/
theorem finishes_of_content {decoder : AheadDecoder σ ε} {d : Decoding ε} {bytes : Bytes}
    {ending : Ending ε} (h : d.Content read decoder bytes ending) : Finishes read decoder d := by
  cases d with
  | starting =>
    apply Finishes.advance
    rw [AheadDecoder.advance]
    cases herror : decoder.error with
    | some e => exact .finished _ _
    | none =>
      by_cases hdone : decoder.done = true
      · dsimp only
        rw [if_pos hdone]
        exact .finished _ _
      · simp only [Decoding.Content, AheadDecoder.Content, herror, if_neg hdone] at h
        dsimp only
        rw [if_neg hdone]
        exact finishes_reading h decoder [] rfl
  | reading block =>
    obtain ⟨-, -, rest, -, hdelivers⟩ := h
    exact finishes_reading hdelivers decoder block rfl
  | finished result => exact .finished _ _

theorem Content.prepend_after {block : Block ε} {after : Content ε} {bytes : Bytes}
    {ending : Ending ε} (h : after.prepend block bytes ending) :
    ∃ bytes ending, after bytes ending := by
  cases block with
  | ok block =>
    obtain ⟨-, rest, -, hrest⟩ := h
    exact ⟨rest, ending, hrest⟩
  | error e => exact ⟨[], .eof, h.2.2⟩

theorem Content.returned_after {result : Option (Block ε)} {after : Content ε} {bytes : Bytes}
    {ending : Ending ε} (h : after.returned result bytes ending) :
    ∃ bytes ending, after bytes ending := by
  cases result with
  | some block => exact prepend_after h
  | none => exact ⟨[], .eof, h.2.2⟩

theorem Content.prependAll_after {blocks : List (Block ε)} {after : Content ε} {bytes : Bytes}
    {ending : Ending ε} (h : after.prependAll blocks bytes ending) :
    ∃ bytes ending, after bytes ending := by
  induction blocks generalizing bytes ending with
  | nil => exact ⟨bytes, ending, h⟩
  | cons block rest ih =>
    obtain ⟨bytes, ending, h⟩ := prepend_after h
    exact ih h

namespace Ahead

variable {s t : Ahead σ ε} {start : Rest UInt8 ε} {i : Nat}

/-! ## The decoder is let go of -/

variable (read) in
/-- The decoder can be free, with the reader where it is. -/
def Freeable (s : Ahead σ ε) : Prop :=
  ∃ events t, run (Ahead.step read) s events = some t ∧ t.lock = none ∧ t.reader = s.reader ∧
    t.log = s.log

theorem Freeable.of_step {event : Event} (hstep : s.step read event = some t)
    (hreader : t.reader = s.reader) (hlog : t.log = s.log) (h : t.Freeable read) :
    s.Freeable read := by
  obtain ⟨events, u, hrun, hfree, hreader', hlog'⟩ := h
  refine ⟨event :: events, u, ?_, hfree, hreader'.trans hreader, hlog'.trans hlog⟩
  rw [run, hstep]
  exact hrun

theorem step_helper {phase : Helper ε} (hi : s.helpers[i]? = some phase) :
    s.step read (.helper i) = some (s.helperStep read i phase) := by
  rw [Ahead.step, hi, Option.map_some]

theorem freeable_releasing (hi : s.helpers[i]? = some .releasing) : s.Freeable read :=
  Freeable.of_step (step_helper hi) rfl rfl ⟨[], _, rfl, rfl, rfl, rfl⟩

theorem freeable_decoding {d : Decoding ε} {decoder : AheadDecoder σ ε}
    (h : Finishes read decoder d) (hdecoder : s.decoder = decoder)
    (hi : s.helpers[i]? = some (.decoding d)) : s.Freeable read := by
  induction h generalizing s with
  | finished decoder result =>
    cases result with
    | some block =>
      exact Freeable.of_step (step_helper hi) rfl rfl (freeable_releasing (getElem?_setHelper hi))
    | none =>
      exact Freeable.of_step (step_helper hi) rfl rfl (freeable_releasing (getElem?_setHelper hi))
  | @advance decoder d h ih =>
    subst hdecoder
    cases d with
    | finished result =>
      cases result with
      | some block =>
        exact Freeable.of_step (step_helper hi) rfl rfl (freeable_releasing (getElem?_setHelper hi))
      | none =>
        exact Freeable.of_step (step_helper hi) rfl rfl (freeable_releasing (getElem?_setHelper hi))
    | starting => exact Freeable.of_step (step_helper hi) rfl rfl (ih rfl (getElem?_setHelper hi))
    | reading block =>
      exact Freeable.of_step (step_helper hi) rfl rfl (ih rfl (getElem?_setHelper hi))

theorem Sound.tail (hs : s.Sound read start) : ∃ bytes ending, s.Tail read bytes ending := by
  obtain ⟨rest, -, bytes, -, hafter⟩ := hs.content
  have hqueue : ∃ bytes ending, (s.Tail read).prependAll s.blocks bytes ending := by
    cases hreader : s.reader with
    | releasing n result =>
      rw [hreader] at hafter
      exact Content.returned_after hafter
    | taking n result =>
      rw [hreader] at hafter
      exact Content.returned_after hafter
    | _ =>
      rw [hreader] at hafter
      exact ⟨_, _, hafter⟩
  obtain ⟨bytes, ending, hqueue⟩ := hqueue
  exact Content.prependAll_after hqueue

theorem Sound.freeable (hs : s.Sound read start) (hlock : s.lock = some (.helper i)) :
    s.Freeable read := by
  obtain ⟨phase, hi⟩ : ∃ phase, s.helpers[i]? = some phase :=
    ⟨_, List.getElem?_eq_getElem (hs.locked.there i hlock)⟩
  have hholds := (hs.locked.helper i phase hi).2 hlock
  cases phase with
  | idle => cases hholds
  | trying => cases hholds
  | decoding d =>
    obtain ⟨bytes, ending, htail⟩ := hs.tail
    rw [tail_of_helper hlock hi] at htail
    exact freeable_decoding (finishes_of_content htail) rfl hi
  | releasing => exact freeable_releasing hi

/-! ## The reader answers -/

variable (read) in
/-- The call of `read` can be answered. -/
def Answerable (s : Ahead σ ε) : Prop :=
  ∃ events t, run (Ahead.step read) s events = some t ∧ t.reader = .idle ∧
    ∃ answer, t.log = s.log ++ [answer]

theorem Answerable.of_run {events : List Event} (hrun : run (Ahead.step read) s events = some t)
    (hlog : t.log = s.log) (h : t.Answerable read) : s.Answerable read := by
  obtain ⟨events', u, hrun', hidle, answer, hanswer⟩ := h
  refine ⟨events ++ events', u, ?_, hidle, answer, by rw [hanswer, hlog]⟩
  rw [run_append, hrun]
  exact hrun'

theorem Answerable.of_step (hstep : s.readerStep read s.reader = some t) (hlog : t.log = s.log)
    (h : t.Answerable read) : s.Answerable read := by
  have hrun : run (Ahead.step read) s [.reader] = some t := by
    rw [run, Ahead.step, hstep]
    rfl
  exact h.of_run hrun hlog

theorem answerable_of_answer {n : Nat} {answer : Except ε Bytes}
    (hstep : s.readerStep read s.reader = some (t.answer n answer)) (hlog : t.log = s.log) :
    s.Answerable read := by
  refine ⟨[.reader], t.answer n answer, ?_, rfl, (n, answer), ?_⟩
  · rw [run, Ahead.step, hstep]
    rfl
  · rw [Ahead.answer, hlog]

theorem answerable_reading {n : Nat} (hreader : s.reader = .reading n) (hn : 0 < n)
    (hcurrent : s.current ≠ []) : s.Answerable read := by
  have hlength : (s.current.take n).length > 0 := by
    rw [List.length_take]
    exact Nat.lt_min.2 ⟨hn, List.length_pos_iff.2 hcurrent⟩
  have hstep : s.readerStep read s.reader =
      some (answer { s with current := s.current.drop n } n (.ok (s.current.take n))) := by
    rw [hreader, readerStep]
    exact if_pos (.inl hlength)
  exact answerable_of_answer hstep rfl

theorem answerable_taking {n : Nat} {result : Option (Block ε)} (hs : s.Sound read start)
    (hreader : s.reader = .taking n result) : s.Answerable read := by
  cases result with
  | none => exact answerable_of_answer (by rw [hreader]; rfl) rfl
  | some block =>
    cases block with
    | error e => exact answerable_of_answer (by rw [hreader]; rfl) rfl
    | ok block =>
      have hwants := hs.wants
      rw [hreader] at hwants
      obtain ⟨rest, -, bytes, -, hafter⟩ := hs.content
      rw [hreader] at hafter
      obtain ⟨hblock, -⟩ := hafter
      refine Answerable.of_step (t := { s with current := block, reader := .reading n })
        (by rw [hreader]; rfl) rfl ?_
      exact answerable_reading rfl hwants.1 hblock

theorem answerable_releasing {n : Nat} {result : Option (Block ε)} (hs : s.Sound read start)
    (hreader : s.reader = .releasing n result) : s.Answerable read := by
  have hstep : s.readerStep read s.reader =
      some { s with lock := none, reader := .taking n result } := by rw [hreader]; rfl
  exact Answerable.of_step hstep rfl (answerable_taking (hs.readerStep hstep) rfl)

theorem answerable_finished {n : Nat} {result : Option (Block ε)} (hs : s.Sound read start)
    (hreader : s.reader = .decoding n (.finished result)) : s.Answerable read := by
  have hstep : s.readerStep read s.reader = some { s with reader := .releasing n result } := by
    rw [hreader]
    rfl
  exact Answerable.of_step hstep rfl (answerable_releasing (hs.readerStep hstep) rfl)

theorem answerable_decoding {n : Nat} {d : Decoding ε} {decoder : AheadDecoder σ ε}
    (h : Finishes read decoder d) (hdecoder : s.decoder = decoder) (hs : s.Sound read start)
    (hreader : s.reader = .decoding n d) : s.Answerable read := by
  induction h generalizing s with
  | finished decoder result => exact answerable_finished hs hreader
  | @advance decoder d h ih =>
    subst hdecoder
    have hadvance (hstep : s.readerStep read s.reader = some { s with
        decoder := (s.decoder.advance read d).2
        reader := .decoding n (s.decoder.advance read d).1 }) : s.Answerable read :=
      Answerable.of_step hstep rfl (ih rfl (hs.readerStep hstep) rfl)
    cases d with
    | finished result => exact answerable_finished hs hreader
    | starting => exact hadvance (by rw [hreader]; rfl)
    | reading block => exact hadvance (by rw [hreader]; rfl)

theorem answerable_poppingLocked {n : Nat} (hs : s.Sound read start)
    (hreader : s.reader = .poppingLocked n) : s.Answerable read := by
  cases hblocks : s.blocks with
  | cons block rest =>
    have hstep : s.readerStep read s.reader =
        some { s with blocks := rest, reader := .releasing n (some block) } := by
      rw [hreader, readerStep, hblocks]
    exact Answerable.of_step hstep rfl (answerable_releasing (hs.readerStep hstep) rfl)
  | nil =>
    have hstep : s.readerStep read s.reader = some { s with reader := .decoding n .starting } := by
      rw [hreader, readerStep, hblocks]
    have hs' := hs.readerStep hstep
    obtain ⟨bytes, ending, htail⟩ := hs'.tail
    rw [tail_of_reader (hs'.locked.reader.1 rfl)] at htail
    have hfinishes : Finishes read s.decoder .starting := finishes_of_content htail
    exact Answerable.of_step hstep rfl (answerable_decoding hfinishes rfl hs' rfl)

theorem answerable_locking_free {n : Nat} (hs : s.Sound read start)
    (hreader : s.reader = .locking n) (hfree : s.lock = none) : s.Answerable read := by
  have hstep : s.readerStep read s.reader =
      some { s with lock := some .reader, reader := .poppingLocked n } := by
    rw [hreader, readerStep, if_pos hfree]
  exact Answerable.of_step hstep rfl (answerable_poppingLocked (hs.readerStep hstep) rfl)

theorem answerable_locking {n : Nat} (hs : s.Sound read start) (hreader : s.reader = .locking n) :
    s.Answerable read := by
  cases hlock : s.lock with
  | none => exact answerable_locking_free hs hreader hlock
  | some thread =>
    cases thread with
    | reader =>
      have hholds := hs.locked.reader.2 hlock
      rw [hreader] at hholds
      cases hholds
    | helper i =>
      obtain ⟨events, t, hrun, hfree, hreader', hlog⟩ := hs.freeable hlock
      have ht : t.Sound read start := run_invariant (fun _ _ _ _ hs => hs.step) hs hrun
      exact (answerable_locking_free ht (hreader'.trans hreader) hfree).of_run hrun hlog

theorem answerable_popping {n : Nat} (hs : s.Sound read start) (hreader : s.reader = .popping n) :
    s.Answerable read := by
  cases hblocks : s.blocks with
  | cons block rest =>
    have hstep : s.readerStep read s.reader =
        some { s with blocks := rest, reader := .taking n (some block) } := by
      rw [hreader, readerStep, hblocks]
    exact Answerable.of_step hstep rfl (answerable_taking (hs.readerStep hstep) rfl)
  | nil =>
    have hstep : s.readerStep read s.reader = some { s with reader := .locking n } := by
      rw [hreader, readerStep, hblocks]
    exact Answerable.of_step hstep rfl (answerable_locking (hs.readerStep hstep) rfl)

/-- A call of `read` can always be answered. -/
theorem Sound.answerable (hs : s.Sound read start) (hcalled : s.reader ≠ .idle) :
    s.Answerable read := by
  cases hreader : s.reader with
  | idle => exact absurd hreader hcalled
  | reading n =>
    by_cases h : (s.current.take n).length > 0 ∨ n = 0
    · have hstep : s.readerStep read s.reader =
          some (answer { s with current := s.current.drop n } n (.ok (s.current.take n))) := by
        rw [hreader, Ahead.readerStep]
        exact if_pos h
      exact answerable_of_answer hstep rfl
    · have hstep : s.readerStep read s.reader =
          some { s with current := s.current.drop n, reader := .popping n } := by
        rw [hreader, Ahead.readerStep]
        exact if_neg h
      exact Answerable.of_step hstep rfl (answerable_popping (hs.readerStep hstep) rfl)
  | popping n => exact answerable_popping hs hreader
  | locking n => exact answerable_locking hs hreader
  | poppingLocked n => exact answerable_poppingLocked hs hreader
  | decoding n d =>
    obtain ⟨bytes, ending, htail⟩ := hs.tail
    rw [tail_of_reader (hs.locked.reader.1 (by rw [hreader]; rfl)), hreader] at htail
    exact answerable_decoding (finishes_of_content htail) rfl hs hreader
  | releasing n result => exact answerable_releasing hs hreader
  | taking n result => exact answerable_taking hs hreader

/-! ## Transparency -/

/-- Whatever the helpers do and whatever buffers the reader reads into: what it
has received is a part of what the plain decoder gives, the end or error that
it is told comes after all of it, and a read that is under way can be
answered.  More reads than there are bytes come to the end. -/
theorem read_ahead_transparent {reader : σ} {bytes : Bytes} {ending : Ending ε} {helpers : Nat}
    {events : List Event} (h : Delivers read reader bytes ending)
    (hrun : run (Ahead.step read) (new reader helpers) events = some s) {plain : Log UInt8 ε}
    (hplain : PlainReads read reader plain) {outcome : Bytes × Ending ε}
    (houtcome : plain.outcome = some outcome) :
    s.log.received <+: outcome.1 ∧
      (∀ ahead, s.log.outcome = some ahead → ahead = outcome) ∧
      (outcome.1.length < s.log.countP (fun (n, _) => 0 < n) → s.log.outcome = some outcome) ∧
      (s.reader ≠ .idle → s.Answerable read) := by
  have hsound : s.Sound read ⟨bytes, ending⟩ :=
    run_invariant (fun _ _ _ _ hs => hs.step) (Sound.new helpers h) hrun
  obtain ⟨rest, htranscript, -⟩ := hsound.content
  obtain ⟨rest', hplain⟩ := hplain.transcript h
  obtain ⟨bytes', ending'⟩ := outcome
  cases hplain.outcome houtcome
  have hahead : ∀ ahead, s.log.outcome = some ahead → ahead = (bytes, ending) := by
    rintro ⟨bytes', ending'⟩ hahead
    cases htranscript.outcome hahead
    rfl
  refine ⟨⟨rest.bytes, htranscript.received⟩, hahead, fun hreads => ?_, hsound.answerable⟩
  obtain ⟨ahead, hsome⟩ := Option.isSome_iff_exists.1 (htranscript.outcome_isSome hreads)
  rw [hsome, hahead ahead hsome]

/-- The helper queues the block before the reader is called. -/
def helpedEvents : List Event :=
  List.replicate 7 (.helper 0) ++ [.call 2] ++ List.replicate 4 .reader

theorem read_ahead_transparent_helped :
    ∃ s : Ahead Bytes Empty, run (Ahead.step readList) (new [1, 2, 3] 1) helpedEvents = some s ∧
      (s.log.received <+: [1, 2, 3] ∧
        (∀ ahead, s.log.outcome = some ahead → ahead = ([1, 2, 3], .eof)) ∧
        (3 < s.log.countP (fun (n, _) => 0 < n) → s.log.outcome = some ([1, 2, 3], .eof)) ∧
        (s.reader ≠ .idle → s.Answerable readList)) := by
  have hdelivers : Delivers (readList : Bytes → Nat → Outcome UInt8 Empty × Bytes) [1, 2, 3]
      [1, 2, 3] .eof := delivers_readList [1, 2, 3]
  have hplain : PlainReads (readList : Bytes → Nat → Outcome UInt8 Empty × Bytes) [1, 2, 3]
      [(4, .ok [1, 2, 3]), (4, .ok [])] :=
    .data (by decide) rfl (.eof (by decide) rfl)
  have hrun : ∃ s : Ahead Bytes Empty,
      run (Ahead.step readList) (new [1, 2, 3] 1) helpedEvents = some s := ⟨_, rfl⟩
  obtain ⟨s, hrun⟩ := hrun
  exact ⟨s, hrun, read_ahead_transparent hdelivers hrun hplain rfl⟩

end Ahead

end Xeibe.DecodeAhead

import Xeibe.Core.DecodeAhead.Model

/-!
# Reading ahead is transparent

What the reader has not received is, in this order: the rest of its block, the
block that `next_block` gives it, the queued blocks, what the thread that holds
the decoder has read of a block, and what the decoder still gives.  `Content`
puts this together and `Sound` says that it is what the stream has left after
the answers so far.  Only the thread that holds the decoder may read it or add
to the queue, so every step keeps the order.
-/

namespace Xeibe.DecodeAhead

open Xeibe.Lib Xeibe.Lib.ReadStream

variable {σ ε : Type} {read : σ → Nat → Outcome UInt8 ε × σ}

/-! ## What is to come -/

/-- The bytes and the ending that something still gives. -/
abbrev Content (ε : Type) := Bytes → Ending ε → Prop

/-- A block in front of what comes after it. -/
def Content.prepend (block : Block ε) (after : Content ε) : Content ε := fun bytes ending =>
  match block with
  | .ok block => block ≠ [] ∧ ∃ rest, bytes = block ++ rest ∧ after rest ending
  | .error e => bytes = [] ∧ ending = .error e ∧ after [] .eof

/-- What `block` has returned, in front of what comes after it. -/
def Content.returned (result : Option (Block ε)) (after : Content ε) : Content ε :=
  match result with
  | some block => after.prepend block
  | none => fun bytes ending => bytes = [] ∧ ending = .eof ∧ after [] .eof

/-- Blocks in front of what comes after them. -/
def Content.prependAll (blocks : List (Block ε)) (after : Content ε) : Content ε :=
  blocks.foldr (fun block content => content.prepend block) after

section Content

variable {after after' : Content ε} {bytes : Bytes} {ending : Ending ε}

theorem Content.prepend_mono {block : Block ε} (h : ∀ bytes ending, after bytes ending → after' bytes ending)
    (hb : after.prepend block bytes ending) : after'.prepend block bytes ending := by
  cases block with
  | ok block =>
    obtain ⟨hne, rest, heq, hrest⟩ := hb
    exact ⟨hne, rest, heq, h _ _ hrest⟩
  | error e =>
    obtain ⟨hbytes, hending, hrest⟩ := hb
    exact ⟨hbytes, hending, h _ _ hrest⟩

theorem Content.prependAll_mono {blocks : List (Block ε)}
    (h : ∀ bytes ending, after bytes ending → after' bytes ending)
    (hb : after.prependAll blocks bytes ending) : after'.prependAll blocks bytes ending := by
  induction blocks generalizing bytes ending with
  | nil => exact h _ _ hb
  | cons block rest ih => exact prepend_mono (fun _ _ => ih) hb

theorem Content.prependAll_append (blocks : List (Block ε)) (block : Block ε) :
    after.prependAll (blocks ++ [block]) = (after.prepend block).prependAll blocks := by
  simp [prependAll]

theorem Content.returned_mono {result : Option (Block ε)}
    (h : ∀ bytes ending, after bytes ending → after' bytes ending)
    (hb : after.returned result bytes ending) : after'.returned result bytes ending := by
  cases result with
  | some block => exact prepend_mono h hb
  | none =>
    obtain ⟨hbytes, hending, hrest⟩ := hb
    exact ⟨hbytes, hending, h _ _ hrest⟩

end Content

variable (read) in
/-- What the decoder still gives when nobody is in `block`. -/
def AheadDecoder.Content (decoder : AheadDecoder σ ε) : Content ε := fun bytes ending =>
  match decoder.error with
  | some e => decoder.done = true ∧ bytes = [] ∧ ending = .error e
  | none =>
    if decoder.done then bytes = [] ∧ ending = .eof else Delivers read decoder.reader bytes ending

variable (read) in
/-- What the decoder still gives, with what `block` has read. -/
def Decoding.Content (decoder : AheadDecoder σ ε) : Decoding ε → Content ε
  | .starting => decoder.Content read
  | .reading block => fun bytes ending =>
    decoder.error = none ∧ decoder.done = false ∧
      ∃ rest, bytes = block ++ rest ∧ Delivers read decoder.reader rest ending
  | .finished result => (decoder.Content read).returned result

theorem content_nonEmpty {decoder : AheadDecoder σ ε} {block rest : Bytes} {ending : Ending ε}
    (h : decoder.Content read rest ending) (hrest : block = [] → rest = [] ∧ ending = .eof) :
    (Decoding.finished (AheadDecoder.nonEmpty block)).Content read decoder (block ++ rest)
      ending := by
  unfold AheadDecoder.nonEmpty
  split
  · rename_i hlength
    exact ⟨List.ne_nil_of_length_pos hlength, rest, rfl, h⟩
  · rename_i hlength
    have hblock : block = [] := List.eq_nil_of_length_eq_zero (by omega)
    obtain ⟨rfl, rfl⟩ := hrest hblock
    subst hblock
    exact ⟨rfl, rfl, h⟩

theorem content_readOn {decoder : AheadDecoder σ ε} {block bytes : Bytes} {ending : Ending ε}
    (hblock : block.length < AHEAD_BLOCK)
    (h : (Decoding.reading block).Content read decoder bytes ending) :
    (decoder.readOn read block).1.Content read (decoder.readOn read block).2 bytes ending := by
  obtain ⟨herror, hdone, rest, rfl, hdelivers⟩ := h
  have hn : 0 < AHEAD_BLOCK - block.length := by omega
  obtain ⟨heof, hdata, hnext, hinterrupted, hfailed⟩ := hdelivers
  unfold AheadDecoder.readOn
  generalize hread : read decoder.reader (AHEAD_BLOCK - block.length) = answer
  obtain ⟨outcome, reader⟩ := answer
  cases outcome with
  | data xs =>
    cases xs with
    | nil =>
      obtain ⟨rfl, rfl⟩ := heof _ _ hn hread
      refine content_nonEmpty ?_ fun _ => ⟨rfl, rfl⟩
      simp [AheadDecoder.Content, herror]
    | cons x xs =>
      obtain ⟨-, others, rfl⟩ := hdata _ _ _ _ hn hread
      have hreader := hnext _ _ _ _ hn hread
      rw [List.drop_left] at hreader
      exact ⟨herror, hdone, others, (List.append_assoc _ _ _).symm, hreader⟩
  | interrupted => exact ⟨herror, hdone, rest, rfl, hinterrupted _ _ hn hread⟩
  | failed e =>
    obtain ⟨rfl, rfl⟩ := hfailed _ _ _ hn hread
    dsimp only
    split
    · rename_i hlength
      rw [List.eq_nil_of_length_eq_zero hlength]
      refine ⟨rfl, rfl, ?_⟩
      simp [AheadDecoder.Content, herror]
    · rename_i hlength
      refine content_nonEmpty ?_ fun hnil => absurd (congrArg List.length hnil) hlength
      simp [AheadDecoder.Content]

/-- A step of `block` changes nothing of what is to come. -/
theorem content_advance {decoder : AheadDecoder σ ε} {d : Decoding ε} {bytes : Bytes}
    {ending : Ending ε} (h : d.Content read decoder bytes ending) :
    (decoder.advance read d).1.Content read (decoder.advance read d).2 bytes ending := by
  cases d with
  | starting =>
    unfold AheadDecoder.advance
    cases herror : decoder.error with
    | some e =>
      simp only [Decoding.Content, AheadDecoder.Content, herror] at h
      obtain ⟨hdone, rfl, rfl⟩ := h
      refine ⟨rfl, rfl, ?_⟩
      simp [AheadDecoder.Content, hdone]
    | none =>
      by_cases hdone : decoder.done = true
      · simp only [Decoding.Content, AheadDecoder.Content, herror, if_pos hdone] at h
        obtain ⟨rfl, rfl⟩ := h
        rw [if_pos hdone]
        refine ⟨rfl, rfl, ?_⟩
        simp [AheadDecoder.Content, herror, hdone]
      · simp only [Decoding.Content, AheadDecoder.Content, herror, if_neg hdone] at h
        rw [if_neg hdone]
        exact ⟨herror, by simpa using hdone, bytes, rfl, h⟩
  | reading block =>
    rw [AheadDecoder.advance]
    by_cases hblock : block.length < AHEAD_BLOCK
    · rw [if_pos hblock]
      exact content_readOn hblock h
    · rw [if_neg hblock]
      obtain ⟨herror, hdone, rest, rfl, hdelivers⟩ := h
      refine content_nonEmpty ?_ fun hnil => absurd ?_ hblock
      · simpa [AheadDecoder.Content, herror, hdone] using hdelivers
      · rw [hnil]
        decide
  | finished result => exact h

/-! ## The state -/

def Helper.holds : Helper ε → Bool
  | .decoding _ | .releasing => true
  | _ => false

def Reader.holds : Reader ε → Bool
  | .poppingLocked _ | .decoding .. | .releasing .. => true
  | _ => false

variable (read) in
/-- What comes after the queued blocks when a helper holds the decoder. -/
def Helper.Tail (decoder : AheadDecoder σ ε) : Helper ε → Content ε
  | .decoding d => d.Content read decoder
  | _ => decoder.Content read

variable (read) in
/-- What comes after the queued blocks when the reader holds the decoder. -/
def Reader.Tail (decoder : AheadDecoder σ ε) : Reader ε → Content ε
  | .decoding _ d => d.Content read decoder
  | _ => decoder.Content read

/-- What `next_block` is about to return, in front of what comes after it. -/
def Reader.Content (after : Content ε) : Reader ε → Content ε
  | .releasing _ result | .taking _ result => after.returned result
  | _ => after

/-- The reader has found its block used up, with room in the buffer. -/
def Reader.Wants : Reader ε → Bytes → Prop
  | .idle, _ | .reading _, _ => True
  | .popping n, current | .locking n, current | .poppingLocked n, current
  | .decoding n _, current | .releasing n _, current | .taking n _, current =>
    0 < n ∧ current = []

namespace Ahead

variable (read)

/-- What is to come after the queued blocks. -/
def Tail (s : Ahead σ ε) : Content ε :=
  match s.lock with
  | none => s.decoder.Content read
  | some .reader => s.reader.Tail read s.decoder
  | some (.helper i) =>
    match s.helpers[i]? with
    | some helper => helper.Tail read s.decoder
    | none => s.decoder.Content read

/-- What the reader has not received. -/
def Content (s : Ahead σ ε) : Content ε := fun bytes ending =>
  ∃ rest, bytes = s.current ++ rest ∧
    s.reader.Content ((s.Tail read).prependAll s.blocks) rest ending

/-- Who holds the decoder. -/
structure Locked (s : Ahead σ ε) : Prop where
  helper : ∀ i h, s.helpers[i]? = some h → (h.holds = true ↔ s.lock = some (.helper i))
  there : ∀ i, s.lock = some (.helper i) → i < s.helpers.length
  reader : s.reader.holds = true ↔ s.lock = some .reader

/-- What holds of a stream that gave `start` when it was opened. -/
structure Sound (start : Rest UInt8 ε) (s : Ahead σ ε) : Prop where
  locked : s.Locked
  wants : s.reader.Wants s.current
  /-- Nothing is queued while the reader decodes. -/
  alone : ∀ n d, s.reader = .decoding n d → s.blocks = []
  content : ∃ rest, Transcript start s.log rest ∧ s.Content read rest.bytes rest.ending

variable {read} {s t : Ahead σ ε} {start : Rest UInt8 ε} {i : Nat} {phase phase' : Helper ε}

theorem tail_of_helper (hlock : s.lock = some (.helper i)) (hi : s.helpers[i]? = some phase) :
    s.Tail read = phase.Tail read s.decoder := by
  unfold Tail
  rw [hlock]
  dsimp only
  rw [hi]

theorem tail_of_reader (hlock : s.lock = some .reader) :
    s.Tail read = s.reader.Tail read s.decoder := by
  unfold Tail
  rw [hlock]

theorem tail_of_free (hlock : s.lock = none) : s.Tail read = s.decoder.Content read := by
  unfold Tail
  rw [hlock]

/-- A helper that does not hold the decoder has no part in it. -/
theorem tail_setHelper (hlock : s.lock ≠ some (.helper i)) :
    (s.setHelper i phase').Tail read = s.Tail read := by
  have hlock' : (s.setHelper i phase').lock = s.lock := rfl
  cases hl : s.lock with
  | none => rw [tail_of_free hl, tail_of_free (hlock'.trans hl), setHelper]
  | some thread =>
    cases thread with
    | reader => rw [tail_of_reader hl, tail_of_reader (hlock'.trans hl), setHelper]
    | helper j =>
      have hne : i ≠ j := by
        rintro rfl
        exact hlock hl
      have hj : (s.setHelper i phase').helpers[j]? = s.helpers[j]? := by
        rw [setHelper, List.getElem?_set_ne hne]
      unfold Tail
      rw [hlock', hl]
      dsimp only
      rw [hj, setHelper]

/-- The locks after a step of helper `i`. -/
theorem Locked.ofHelper (hs : s.Locked) (hi : s.helpers[i]? = some phase)
    (hhelpers : t.helpers = s.helpers.set i phase') (hreader : t.reader = s.reader)
    (hown : phase'.holds = true ↔ t.lock = some (.helper i))
    (hothers : ∀ thread, thread ≠ .helper i → (t.lock = some thread ↔ s.lock = some thread)) :
    t.Locked where
  helper j h hj := by
    rw [hhelpers] at hj
    rcases (party_set hi).1 hj with ⟨rfl, rfl⟩ | ⟨hne, hj⟩
    · exact hown
    · rw [hothers (.helper j) (by simpa using hne)]
      exact hs.helper j h hj
  there j hj := by
    rw [hhelpers, List.length_set]
    by_cases hne : j = i
    · rw [hne]
      exact (List.getElem?_eq_some_iff.1 hi).1
    · exact hs.there j ((hothers (.helper j) (by simpa using hne)).1 hj)
  reader := by
    rw [hreader, hothers .reader (by simp)]
    exact hs.reader

/-- A helper's step that leaves the reader alone keeps what is sound, when it
keeps the locks and what is to come. -/
theorem Sound.ofHelper (hs : s.Sound read start) (hlocked : t.Locked) (hreader : t.reader = s.reader)
    (hcurrent : t.current = s.current) (hlog : t.log = s.log)
    (hblocks : t.blocks = s.blocks ∨ s.lock ≠ some .reader)
    (hcontent : ∀ bytes ending, (s.Tail read).prependAll s.blocks bytes ending →
      (t.Tail read).prependAll t.blocks bytes ending) : t.Sound read start where
  locked := hlocked
  wants := by
    rw [hreader, hcurrent]
    exact hs.wants
  alone n d hd := by
    rw [hreader] at hd
    have hlock : s.lock = some .reader := hs.locked.reader.1 (by rw [hd]; rfl)
    rcases hblocks with hblocks | hblocks
    · rw [hblocks]
      exact hs.alone n d hd
    · exact absurd hlock hblocks
  content := by
    obtain ⟨rest, htranscript, bytes, hbytes, hafter⟩ := hs.content
    refine ⟨rest, by rwa [hlog], bytes, by rwa [hcurrent], ?_⟩
    rw [hreader]
    cases hr : s.reader with
    | releasing n result =>
      rw [hr] at hafter
      exact Content.returned_mono hcontent hafter
    | taking n result =>
      rw [hr] at hafter
      exact Content.returned_mono hcontent hafter
    | _ =>
      rw [hr] at hafter
      exact hcontent _ _ hafter

theorem getElem?_setHelper (hi : s.helpers[i]? = some phase) :
    (s.setHelper i phase').helpers[i]? = some phase' := by
  have hlt : i < s.helpers.length := (List.getElem?_eq_some_iff.1 hi).1
  rw [setHelper, List.getElem?_set_self hlt]

theorem Sound.setHelper (hs : s.Sound read start) (hi : s.helpers[i]? = some phase)
    (hphase : phase.holds = false) (hphase' : phase'.holds = false) :
    (s.setHelper i phase').Sound read start := by
  have hlock : s.lock ≠ some (.helper i) := by
    intro h
    rw [← hs.locked.helper i phase hi, hphase] at h
    exact Bool.false_ne_true h
  have hlocked : (s.setHelper i phase').Locked := by
    refine hs.locked.ofHelper hi rfl rfl ⟨fun h => ?_, fun h => absurd h hlock⟩ fun _ _ => Iff.rfl
    rw [hphase'] at h
    exact absurd h Bool.false_ne_true
  refine hs.ofHelper hlocked rfl rfl rfl (.inl rfl) fun bytes ending h => ?_
  rw [tail_setHelper hlock]
  exact h

/-- A step of the helper that holds the decoder and keeps it. -/
theorem Sound.ofHolder (hs : s.Sound read start) (hi : s.helpers[i]? = some phase)
    (hholds : phase.holds = true) (hholds' : phase'.holds = true) (blocks : List (Block ε))
    (decoder : AheadDecoder σ ε)
    (hcontent : ∀ bytes ending, (phase.Tail read s.decoder).prependAll s.blocks bytes ending →
      (phase'.Tail read decoder).prependAll blocks bytes ending) :
    Sound read start { s.setHelper i phase' with blocks, decoder } := by
  have hlock : s.lock = some (.helper i) := (hs.locked.helper i phase hi).1 hholds
  let t : Ahead σ ε := { s.setHelper i phase' with blocks, decoder }
  have hlocked : t.Locked := hs.locked.ofHelper hi rfl rfl ⟨fun _ => hlock, fun _ => hholds'⟩
    fun _ _ => Iff.rfl
  have htail : t.Tail read = phase'.Tail read decoder :=
    tail_of_helper (s := t) hlock (getElem?_setHelper hi)
  have hreader : s.lock ≠ some .reader := by simp [hlock]
  show t.Sound read start
  refine hs.ofHelper hlocked rfl rfl rfl (.inr hreader) fun bytes ending h => ?_
  rw [htail]
  rw [tail_of_helper hlock hi] at h
  exact hcontent bytes ending h

theorem Sound.ofLock (hs : s.Sound read start) (hi : s.helpers[i]? = some phase)
    {lock : Option Thread} (hown : phase'.holds = true ↔ lock = some (.helper i))
    (hothers : ∀ thread, thread ≠ .helper i → (lock = some thread ↔ s.lock = some thread))
    (htail : Tail read { s.setHelper i phase' with lock } = s.Tail read) :
    Sound read start { s.setHelper i phase' with lock } := by
  let t : Ahead σ ε := { s.setHelper i phase' with lock }
  have hlocked : t.Locked := hs.locked.ofHelper hi rfl rfl hown hothers
  show t.Sound read start
  refine hs.ofHelper hlocked rfl rfl rfl (.inl rfl) fun bytes ending h => ?_
  rw [show t.Tail read = s.Tail read from htail]
  exact h

theorem Sound.helperStep (hs : s.Sound read start) (hi : s.helpers[i]? = some phase) :
    (s.helperStep read i phase).Sound read start := by
  cases phase with
  | idle =>
    rw [Ahead.helperStep]
    split
    · exact hs
    · exact hs.setHelper hi rfl rfl
  | trying =>
    rw [Ahead.helperStep]
    split
    · rename_i hfree
      refine hs.ofLock hi ⟨fun _ => rfl, fun _ => rfl⟩ (fun thread hthread => ?_) ?_
      · simp [hfree, hthread.symm]
      · rw [tail_of_free hfree]
        exact tail_of_helper
          (s := { s.setHelper i (.decoding .starting) with lock := some (.helper i) }) rfl
          (getElem?_setHelper hi)
    · exact hs.setHelper hi rfl rfl
  | decoding d =>
    have hadvance : Sound read start { s.setHelper i (.decoding (s.decoder.advance read d).1) with
        blocks := s.blocks, decoder := (s.decoder.advance read d).2 } :=
      hs.ofHolder hi rfl rfl _ _ fun _ _ => Content.prependAll_mono fun _ _ => content_advance
    cases d with
    | finished result =>
      cases result with
      | some block =>
        refine hs.ofHolder hi rfl rfl (s.blocks ++ [block]) s.decoder fun bytes ending h => ?_
        rw [Content.prependAll_append]
        exact h
      | none =>
        refine hs.ofHolder hi rfl rfl s.blocks s.decoder fun _ _ =>
          Content.prependAll_mono fun bytes ending => ?_
        rintro ⟨rfl, rfl, h⟩
        exact h
    | starting => exact hadvance
    | reading block => exact hadvance
  | releasing =>
    have hlock : s.lock = some (.helper i) := (hs.locked.helper i _ hi).1 rfl
    refine hs.ofLock hi ⟨nofun, nofun⟩ (fun thread hthread => ?_) ?_
    · simp [hlock, hthread.symm]
    · rw [tail_of_helper hlock hi]
      exact tail_of_free rfl

/-! ## The reader -/

theorem Locked.ofReader (hs : s.Locked) (hhelpers : t.helpers = s.helpers)
    (hown : t.reader.holds = true ↔ t.lock = some .reader)
    (hothers : ∀ i, t.lock = some (.helper i) ↔ s.lock = some (.helper i)) : t.Locked where
  helper j h hj := by
    rw [hhelpers] at hj
    rw [hothers j]
    exact hs.helper j h hj
  there j hj := by
    rw [hhelpers]
    exact hs.there j ((hothers j).1 hj)
  reader := hown

theorem Locked.sameReader (hs : s.Locked) {reader : Reader ε} {blocks : List (Block ε)}
    {current : Bytes} {decoder : AheadDecoder σ ε} {log : Log UInt8 ε}
    (hholds : reader.holds = s.reader.holds) :
    Locked { s with reader, blocks, current, decoder, log } :=
  hs.ofReader rfl (by rw [hholds]; exact hs.reader) fun _ => Iff.rfl

theorem tail_same (hs : s.Locked) {reader : Reader ε} {blocks : List (Block ε)}
    {current : Bytes} {log : Log UInt8 ε} (hholds : s.reader.holds = false) :
    Tail read { s with reader, blocks, current, log } = s.Tail read := by
  have hlock : s.lock ≠ some .reader := by
    rw [Ne, ← hs.reader, hholds]
    exact Bool.false_ne_true
  unfold Tail
  cases hl : s.lock with
  | none => rfl
  | some thread =>
    cases thread with
    | reader => exact absurd hl hlock
    | helper i => rfl

theorem Sound.call (hs : s.Sound read start) (hreader : s.reader = .idle) (n : Nat) :
    Sound read start { s with reader := .reading n } where
  locked := hs.locked.sameReader (by rw [hreader]; rfl)
  wants := trivial
  alone _ _ h := by cases h
  content := by
    obtain ⟨rest, htranscript, bytes, hbytes, hafter⟩ := hs.content
    refine ⟨rest, htranscript, bytes, hbytes, ?_⟩
    rw [hreader] at hafter
    rw [tail_same hs.locked (by rw [hreader]; rfl)]
    exact hafter

/-- The block at hand gives the answer. -/
theorem Sound.answerData (hs : s.Sound read start) {n : Nat} (hreader : s.reader = .reading n)
    (h : (s.current.take n).length > 0 ∨ n = 0) :
    Sound read start (answer { s with current := s.current.drop n } n (.ok (s.current.take n))) where
  locked := hs.locked.sameReader (by rw [hreader]; rfl)
  wants := trivial
  alone _ _ h := by cases h
  content := by
    obtain ⟨rest, htranscript, bytes, hbytes, hafter⟩ := hs.content
    rw [hreader] at hafter
    refine ⟨⟨s.current.drop n ++ bytes, rest.ending⟩, htranscript.snoc ?_, bytes, rfl, ?_⟩
    · have hrest : rest = ⟨s.current.take n ++ (s.current.drop n ++ bytes), rest.ending⟩ := by
        rw [← List.append_assoc, List.take_append_drop, ← hbytes]
      rcases h with h | rfl
      · rw [hrest]
        exact .data (List.ne_nil_of_length_pos h) (List.length_take_le n _)
      · rw [hrest]
        exact .empty _
    · rw [answer, tail_same hs.locked (by rw [hreader]; rfl)]
      exact hafter

/-- The reader goes on without an answer, and without the decoder. -/
theorem Sound.readerMove (hs : s.Sound read start) {reader : Reader ε} {blocks : List (Block ε)}
    {current : Bytes} (hholds : s.reader.holds = false) (hholds' : reader.holds = false)
    (hwants : reader.Wants current)
    (hcontent : ∀ bytes ending, s.Content read bytes ending → ∃ rest, bytes = current ++ rest ∧
      reader.Content ((s.Tail read).prependAll blocks) rest ending) :
    Sound read start { s with reader, blocks, current } where
  locked := hs.locked.sameReader (by rw [hholds, hholds'])
  wants := hwants
  alone n d h := by
    rw [show reader = .decoding n d from h] at hholds'
    cases hholds'
  content := by
    obtain ⟨rest, htranscript, hafter⟩ := hs.content
    obtain ⟨bytes, hbytes, hafter⟩ := hcontent _ _ hafter
    refine ⟨rest, htranscript, bytes, hbytes, ?_⟩
    rw [tail_same hs.locked hholds]
    exact hafter

/-- A step of the reader while it holds the decoder. -/
theorem Sound.readerHolds (hs : s.Sound read start) {reader : Reader ε} {blocks : List (Block ε)}
    {decoder : AheadDecoder σ ε} (hholds : s.reader.holds = true) (hholds' : reader.holds = true)
    (hwants : reader.Wants s.current) (halone : ∀ n d, reader = .decoding n d → blocks = [])
    (hcontent : ∀ bytes ending,
      s.reader.Content ((s.reader.Tail read s.decoder).prependAll s.blocks) bytes ending →
        reader.Content ((reader.Tail read decoder).prependAll blocks) bytes ending) :
    Sound read start { s with reader, blocks, decoder } where
  locked := hs.locked.sameReader (by rw [hholds, hholds'])
  wants := hwants
  alone := halone
  content := by
    have hlock : s.lock = some .reader := hs.locked.reader.1 hholds
    obtain ⟨rest, htranscript, bytes, hbytes, hafter⟩ := hs.content
    refine ⟨rest, htranscript, bytes, hbytes, ?_⟩
    rw [tail_of_reader (s := { s with reader, blocks, decoder }) hlock]
    rw [tail_of_reader hlock] at hafter
    exact hcontent _ _ hafter

theorem Sound.readerLock (hs : s.Sound read start) {reader : Reader ε} {lock : Option Thread}
    (hown : reader.holds = true ↔ lock = some .reader)
    (hothers : ∀ i, lock = some (.helper i) ↔ s.lock = some (.helper i))
    (hwants : reader.Wants s.current) (hdecoding : ∀ n d, reader ≠ .decoding n d)
    (htail : Tail read { s with reader, lock } = s.Tail read)
    (hcontent : ∀ after : DecodeAhead.Content ε, reader.Content after = s.reader.Content after) :
    Sound read start { s with reader, lock } where
  locked := hs.locked.ofReader rfl hown hothers
  wants := hwants
  alone n d h := absurd h (hdecoding n d)
  content := by
    obtain ⟨rest, htranscript, bytes, hbytes, hafter⟩ := hs.content
    refine ⟨rest, htranscript, bytes, hbytes, ?_⟩
    rw [htail]
    exact (congrFun (congrFun (hcontent _) _) _).mpr hafter

/-- The stream has ended, and the reader says so. -/
theorem Sound.answerEnd (hs : s.Sound read start) {n : Nat} {result : Option (Block ε)}
    (hreader : s.reader = .taking n result) {answer : Except ε Bytes}
    (hanswer : ∀ bytes ending after, DecodeAhead.Content.returned result after bytes ending →
      Answers ⟨bytes, ending⟩ n answer ⟨[], .eof⟩ ∧ after [] .eof) :
    (s.answer n answer).Sound read start where
  locked := hs.locked.sameReader (by rw [hreader]; rfl)
  wants := trivial
  alone _ _ h := by cases h
  content := by
    have hwants := hs.wants
    rw [hreader] at hwants
    obtain ⟨-, hcurrent⟩ := hwants
    obtain ⟨rest, htranscript, bytes, hbytes, hafter⟩ := hs.content
    rw [hreader] at hafter
    obtain ⟨hanswers, hafter⟩ := hanswer _ _ _ hafter
    have hrest : rest = ⟨bytes, rest.ending⟩ := by
      rw [← show rest.bytes = bytes by rw [hbytes, hcurrent, List.nil_append]]
    rw [hrest] at htranscript
    refine ⟨_, htranscript.snoc hanswers, [], ?_, ?_⟩
    · rw [Ahead.answer, hcurrent, List.nil_append]
    · rw [Ahead.answer, tail_same hs.locked (by rw [hreader]; rfl)]
      exact hafter

theorem Sound.readerStep (hs : s.Sound read start) (ht : s.readerStep read s.reader = some t) :
    t.Sound read start := by
  have hwants := hs.wants
  cases hreader : s.reader with
  | idle =>
    rw [hreader, Ahead.readerStep] at ht
    cases ht
  | reading n =>
    rw [hreader, Ahead.readerStep] at ht
    dsimp only at ht
    split at ht
    · rename_i h
      rw [← Option.some.inj ht]
      exact hs.answerData hreader h
    · rename_i h
      obtain ⟨hnil, hn⟩ := not_or.1 h
      have hn : 0 < n := Nat.pos_of_ne_zero hn
      have hcurrent : s.current = [] := by
        rw [List.length_take] at hnil
        exact List.eq_nil_of_length_eq_zero (by omega)
      rw [← Option.some.inj ht]
      refine hs.readerMove (by rw [hreader]; rfl) rfl ⟨hn, by simp [hcurrent]⟩ ?_
      rintro bytes ending ⟨rest, rfl, hafter⟩
      rw [hreader] at hafter
      exact ⟨rest, by simp [hcurrent], hafter⟩
  | popping n =>
    rw [hreader] at hwants
    rw [hreader, Ahead.readerStep] at ht
    split at ht
    · rename_i block blocks hblocks
      rw [← Option.some.inj ht]
      refine hs.readerMove (by rw [hreader]; rfl) rfl hwants ?_
      rintro bytes ending ⟨rest, rfl, hafter⟩
      rw [hreader, hblocks] at hafter
      exact ⟨rest, rfl, hafter⟩
    · rw [← Option.some.inj ht]
      refine hs.readerMove (by rw [hreader]; rfl) rfl hwants ?_
      rintro bytes ending ⟨rest, rfl, hafter⟩
      rw [hreader] at hafter
      exact ⟨rest, rfl, hafter⟩
  | locking n =>
    rw [hreader] at hwants
    rw [hreader, Ahead.readerStep] at ht
    split at ht
    · rename_i hfree
      rw [← Option.some.inj ht]
      refine hs.readerLock ⟨fun _ => rfl, fun _ => rfl⟩ (fun i => ?_) hwants nofun ?_ ?_
      · simp [hfree]
      · rw [tail_of_free hfree]
        exact tail_of_reader rfl
      · rw [hreader]
        exact fun _ => rfl
    · cases ht
  | poppingLocked n =>
    rw [hreader] at hwants
    rw [hreader, Ahead.readerStep] at ht
    split at ht
    · rename_i block blocks hblocks
      rw [← Option.some.inj ht]
      refine hs.readerHolds (by rw [hreader]; rfl) rfl hwants nofun fun bytes ending h => ?_
      rw [hreader, hblocks] at h
      exact h
    · rename_i hblocks
      rw [← Option.some.inj ht]
      refine hs.readerHolds (by rw [hreader]; rfl) rfl hwants (fun _ _ _ => hblocks)
        fun bytes ending h => ?_
      rw [hreader] at h
      exact h
  | decoding n d =>
    have hblocks := hs.alone n d hreader
    rw [hreader] at hwants
    have hadvance : Sound read start { s with
        decoder := (s.decoder.advance read d).2
        reader := .decoding n (s.decoder.advance read d).1 } := by
      refine hs.readerHolds (by rw [hreader]; rfl) rfl hwants (fun _ _ _ => hblocks)
        fun bytes ending h => ?_
      rw [hreader] at h
      exact Content.prependAll_mono (fun _ _ => content_advance) h
    cases d with
    | finished result =>
      rw [hreader, Ahead.readerStep] at ht
      rw [← Option.some.inj ht]
      refine hs.readerHolds (by rw [hreader]; rfl) rfl hwants nofun fun bytes ending h => ?_
      rw [hreader, hblocks] at h
      rw [hblocks]
      exact h
    | starting =>
      rw [hreader] at ht
      rw [← Option.some.inj ht]
      exact hadvance
    | reading block =>
      rw [hreader] at ht
      rw [← Option.some.inj ht]
      exact hadvance
  | releasing n result =>
    have hlock : s.lock = some .reader := hs.locked.reader.1 (by rw [hreader]; rfl)
    rw [hreader] at hwants
    rw [hreader, Ahead.readerStep] at ht
    rw [← Option.some.inj ht]
    refine hs.readerLock ⟨nofun, nofun⟩ (fun i => ?_) hwants nofun ?_ ?_
    · simp [hlock]
    · rw [tail_of_reader hlock, hreader]
      exact tail_of_free rfl
    · rw [hreader]
      exact fun _ => rfl
  | taking n result =>
    rw [hreader] at hwants
    rw [hreader] at ht
    cases result with
    | none =>
      rw [Ahead.readerStep] at ht
      rw [← Option.some.inj ht]
      refine hs.answerEnd hreader ?_
      rintro bytes ending after ⟨rfl, rfl, hafter⟩
      exact ⟨.eof hwants.1, hafter⟩
    | some block =>
      cases block with
      | ok block =>
        rw [Ahead.readerStep] at ht
        rw [← Option.some.inj ht]
        refine hs.readerMove (by rw [hreader]; rfl) rfl trivial ?_
        rintro bytes ending ⟨rest, rfl, hafter⟩
        rw [hreader] at hafter
        obtain ⟨-, others, rfl, hafter⟩ := hafter
        exact ⟨others, by rw [hwants.2, List.nil_append], hafter⟩
      | error e =>
        rw [Ahead.readerStep] at ht
        rw [← Option.some.inj ht]
        refine hs.answerEnd hreader ?_
        rintro bytes ending after ⟨rfl, rfl, hafter⟩
        exact ⟨.error hwants.1, hafter⟩

/-! ## Runs -/

theorem Sound.step (hs : s.Sound read start) {event : Event} (ht : s.step read event = some t) :
    t.Sound read start := by
  cases event with
  | helper i =>
    obtain ⟨phase, hi, rfl⟩ := Option.map_eq_some_iff.1 ht
    exact hs.helperStep hi
  | call n =>
    rw [Ahead.step] at ht
    split at ht
    · rename_i hreader
      rw [← Option.some.inj ht]
      exact hs.call hreader n
    · cases ht
  | reader => exact hs.readerStep ht

theorem Sound.new {reader : σ} {bytes : Bytes} {ending : Ending ε} (helpers : Nat)
    (h : Delivers read reader bytes ending) : (new reader helpers).Sound read ⟨bytes, ending⟩ where
  locked := {
    helper i phase hi := by
      have hphase : phase = .idle := List.eq_of_mem_replicate (List.mem_of_getElem? hi)
      rw [hphase]
      exact ⟨nofun, nofun⟩
    there i hi := by cases hi
    reader := ⟨nofun, nofun⟩ }
  wants := trivial
  alone _ _ h := by cases h
  content := ⟨_, .nil _, bytes, rfl, h⟩

theorem transcript_of_run {reader : σ} {bytes : Bytes} {ending : Ending ε} {helpers : Nat}
    {events : List Event} (h : Delivers read reader bytes ending)
    (hrun : run (Ahead.step read) (new reader helpers) events = some s) :
    ∃ rest, Transcript ⟨bytes, ending⟩ s.log rest := by
  have hsound : s.Sound read ⟨bytes, ending⟩ :=
    run_invariant (fun _ _ _ _ hs => hs.step) (Sound.new helpers h) hrun
  obtain ⟨rest, htranscript, -⟩ := hsound.content
  exact ⟨rest, htranscript⟩

end Ahead

end Xeibe.DecodeAhead

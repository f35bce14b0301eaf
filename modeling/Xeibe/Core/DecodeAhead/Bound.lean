import Xeibe.Core.DecodeAhead.Progress

/-!
# How long the queue can get

A helper looks for room before it tries the decoder, and others may queue a
block in between.  So each helper can be one block late: the queue may hold one
block more than there is room for with every helper but one (`queue_le`), and
it keeps to the room as long as a helper that gets the decoder still finds some
(`queue_le_of_room`).
-/

namespace Xeibe.DecodeAhead

open Xeibe.Lib Xeibe.Lib.ReadStream

variable {σ ε : Type} {read : σ → Nat → Outcome UInt8 ε × σ}

/-- Whether a helper may still queue a block: it has found room. -/
def Helper.mayQueue : Helper ε → Bool
  | .trying | .decoding _ => true
  | _ => false

namespace Ahead

variable {s t : Ahead σ ε} {i : Nat} {phase : Helper ε}

/-! ## What a step does to the queue -/

/-- What a step of helper `i` does. -/
inductive HelperDoes (s : Ahead σ ε) (i : Nat) : Helper ε → Ahead σ ε → Prop where
  | full : HelperDoes s i .idle s
  | finds (room : s.blocks.length < AHEAD_BLOCKS) : HelperDoes s i .idle (s.setHelper i .trying)
  | locks (free : s.lock = none) :
    HelperDoes s i .trying { s.setHelper i (.decoding .starting) with lock := some (.helper i) }
  | misses : HelperDoes s i .trying (s.setHelper i .idle)
  | decodes {d d' : Decoding ε} {decoder : AheadDecoder σ ε} :
    HelperDoes s i (.decoding d) { s.setHelper i (.decoding d') with decoder }
  | queues {block : Block ε} :
    HelperDoes s i (.decoding (.finished (some block)))
      { s.setHelper i .releasing with blocks := s.blocks ++ [block] }
  | ends : HelperDoes s i (.decoding (.finished none)) (s.setHelper i .releasing)
  | releases : HelperDoes s i .releasing { s.setHelper i .idle with lock := none }

theorem helperStep_does (s : Ahead σ ε) (i : Nat) (phase : Helper ε) :
    HelperDoes s i phase (s.helperStep read i phase) := by
  cases phase with
  | idle =>
    rw [helperStep]
    by_cases hfull : s.blocks.length ≥ AHEAD_BLOCKS
    · rw [if_pos hfull]
      exact .full
    · rw [if_neg hfull]
      exact .finds (Nat.lt_of_not_le hfull)
  | trying =>
    rw [helperStep]
    by_cases hfree : s.lock = none
    · rw [if_pos hfree]
      exact .locks hfree
    · rw [if_neg hfree]
      exact .misses
  | decoding d =>
    cases d with
    | finished result =>
      cases result with
      | some block => exact .queues
      | none => exact .ends
    | starting => exact .decodes
    | reading block => exact .decodes
  | releasing => exact .releases

/-- The reader only takes blocks, and the decoder while it is free. -/
theorem readerStep_spec (h : s.readerStep read s.reader = some t) :
    t.helpers = s.helpers ∧ t.blocks.length ≤ s.blocks.length ∧
      (t.lock = s.lock ∧ t.reader.holds = s.reader.holds ∨
        s.lock = none ∧ t.lock = some .reader ∧ t.reader.holds = true ∨
        s.reader.holds = true ∧ t.lock = none ∧ t.reader.holds = false) := by
  have hle := Nat.le_refl s.blocks.length
  cases hreader : s.reader with
  | idle =>
    rw [hreader] at h
    cases h
  | reading n =>
    rw [hreader, readerStep] at h
    dsimp only at h
    split at h
    · cases h
      exact ⟨rfl, hle, .inl ⟨rfl, rfl⟩⟩
    · cases h
      exact ⟨rfl, hle, .inl ⟨rfl, rfl⟩⟩
  | popping n =>
    rw [hreader, readerStep] at h
    split at h
    · rename_i block rest hblocks
      cases h
      refine ⟨rfl, ?_, .inl ⟨rfl, rfl⟩⟩
      rw [hblocks]
      exact Nat.le_succ _
    · cases h
      exact ⟨rfl, hle, .inl ⟨rfl, rfl⟩⟩
  | locking n =>
    rw [hreader, readerStep] at h
    split at h
    · rename_i hfree
      cases h
      exact ⟨rfl, hle, .inr (.inl ⟨hfree, rfl, rfl⟩)⟩
    · cases h
  | poppingLocked n =>
    rw [hreader, readerStep] at h
    split at h
    · rename_i block rest hblocks
      cases h
      refine ⟨rfl, ?_, .inl ⟨rfl, rfl⟩⟩
      rw [hblocks]
      exact Nat.le_succ _
    · cases h
      exact ⟨rfl, hle, .inl ⟨rfl, rfl⟩⟩
  | decoding n d =>
    rw [hreader] at h
    cases d with
    | finished result =>
      cases h
      exact ⟨rfl, hle, .inl ⟨rfl, rfl⟩⟩
    | starting =>
      cases h
      exact ⟨rfl, hle, .inl ⟨rfl, rfl⟩⟩
    | reading block =>
      cases h
      exact ⟨rfl, hle, .inl ⟨rfl, rfl⟩⟩
  | releasing n result =>
    rw [hreader] at h
    cases h
    exact ⟨rfl, hle, .inr (.inr ⟨rfl, rfl, rfl⟩)⟩
  | taking n result =>
    rw [hreader] at h
    rcases result with - | (error | block)
    · cases h
      exact ⟨rfl, hle, .inl ⟨rfl, rfl⟩⟩
    · cases h
      exact ⟨rfl, hle, .inl ⟨rfl, rfl⟩⟩
    · cases h
      exact ⟨rfl, hle, .inl ⟨rfl, rfl⟩⟩

/-- What a step does: a helper's, the reader's, or a call of `read`. -/
theorem step_cases {event : Event} (h : s.step read event = some t) :
    (∃ i phase, event = .helper i ∧ s.helpers[i]? = some phase ∧ HelperDoes s i phase t) ∨
      s.readerStep read s.reader = some t ∨
      ∃ n, s.reader = .idle ∧ t = { s with reader := .reading n } := by
  cases event with
  | helper i =>
    obtain ⟨phase, hi, rfl⟩ := Option.map_eq_some_iff.1 h
    exact .inl ⟨i, phase, rfl, hi, helperStep_does s i phase⟩
  | call n =>
    dsimp only [step] at h
    split at h
    · rename_i hreader
      cases h
      exact .inr (.inr ⟨n, hreader, rfl⟩)
    · cases h
  | reader => exact .inr (.inl h)

/-! ## Whatever the helpers do -/

/-- Each helper can be one block late. -/
structure Late (helpers : Nat) (s : Ahead σ ε) : Prop where
  length : s.helpers.length = helpers
  queued : s.blocks.length + s.helpers.countP Helper.mayQueue < AHEAD_BLOCKS + helpers

theorem Late.ofHelper {helpers : Nat} (h : Late helpers s) (hi : s.helpers[i]? = some phase)
    (hdoes : HelperDoes s i phase t) : Late helpers t := by
  have hlength := h.length
  have hqueued := h.queued
  have hcount : ∀ phase', (s.helpers.set i phase').countP Helper.mayQueue + phase.mayQueue.toNat =
      s.helpers.countP Helper.mayQueue + phase'.mayQueue.toNat := by
    intro phase'
    have := count_set (b := phase') hi Helper.mayQueue
    cases hp : phase.mayQueue <;> cases hp' : phase'.mayQueue <;> simp_all
  cases hdoes with
  | full => exact h
  | finds hroom =>
    refine ⟨List.length_set.trans hlength, ?_⟩
    -- This helper has not found room yet.
    have hlt : s.helpers.countP Helper.mayQueue < s.helpers.length := by
      have hsome := List.mem_of_getElem? hi
      rw [List.length_eq_countP_add_countP Helper.mayQueue]
      have : 0 < s.helpers.countP fun phase => ¬ phase.mayQueue = true :=
        List.countP_pos_iff.2 ⟨_, hsome, by simp [Helper.mayQueue]⟩
      omega
    have := hcount .trying
    show s.blocks.length + (s.helpers.set i .trying).countP _ < _
    simp only [Helper.mayQueue, Bool.toNat_true, Bool.toNat_false] at this
    omega
  | locks hfree =>
    refine ⟨List.length_set.trans hlength, ?_⟩
    have := hcount (.decoding .starting)
    show s.blocks.length + (s.helpers.set i (.decoding .starting)).countP _ < _
    simp only [Helper.mayQueue, Bool.toNat_true] at this
    omega
  | misses =>
    refine ⟨List.length_set.trans hlength, ?_⟩
    have := hcount .idle
    show s.blocks.length + (s.helpers.set i .idle).countP _ < _
    simp only [Helper.mayQueue, Bool.toNat_true, Bool.toNat_false] at this
    omega
  | @decodes d d' decoder =>
    refine ⟨List.length_set.trans hlength, ?_⟩
    have := hcount (.decoding d')
    show s.blocks.length + (s.helpers.set i (.decoding d')).countP _ < _
    simp only [Helper.mayQueue, Bool.toNat_true] at this
    omega
  | @queues block =>
    refine ⟨List.length_set.trans hlength, ?_⟩
    have := hcount .releasing
    show (s.blocks ++ [block]).length + (s.helpers.set i .releasing).countP _ < _
    rw [List.length_append, List.length_singleton]
    simp only [Helper.mayQueue, Bool.toNat_true, Bool.toNat_false] at this
    omega
  | ends =>
    refine ⟨List.length_set.trans hlength, ?_⟩
    have := hcount .releasing
    show s.blocks.length + (s.helpers.set i .releasing).countP _ < _
    simp only [Helper.mayQueue, Bool.toNat_true, Bool.toNat_false] at this
    omega
  | releases =>
    refine ⟨List.length_set.trans hlength, ?_⟩
    have := hcount .idle
    show s.blocks.length + (s.helpers.set i .idle).countP _ < _
    simp only [Helper.mayQueue, Bool.toNat_false] at this
    omega

theorem Late.step {helpers : Nat} (h : Late helpers s) {event : Event}
    (hstep : s.step read event = some t) : Late helpers t := by
  rcases step_cases hstep with ⟨i, phase, -, hi, hdoes⟩ | hreader | ⟨n, -, rfl⟩
  · exact h.ofHelper hi hdoes
  · obtain ⟨hhelpers, hblocks, -⟩ := readerStep_spec hreader
    have hqueued := h.queued
    refine ⟨hhelpers ▸ h.length, ?_⟩
    rw [hhelpers]
    omega
  · exact ⟨h.length, h.queued⟩

theorem late_new (reader : σ) (helpers : Nat) : Late helpers (new reader helpers : Ahead σ ε) := by
  refine ⟨List.length_replicate, ?_⟩
  show 0 + (List.replicate helpers (Helper.idle : Helper ε)).countP _ < _
  rw [List.countP_replicate]
  show 0 + 0 < 16 + helpers
  omega

/-- With no helper, or one, the queue keeps to its room; with more, each of the others can
put one block on top. -/
theorem queue_le {reader : σ} {helpers : Nat} {events : List Event}
    (hrun : run (Ahead.step read) (new reader helpers : Ahead σ ε) events = some s) :
    s.blocks.length < AHEAD_BLOCKS + helpers := by
  have hlate : Late helpers s :=
    run_invariant (fun _ _ _ _ h hstep => Late.step h hstep) (late_new reader helpers) hrun
  have := hlate.queued
  omega

theorem queue_le_trying :
    ∃ s : Ahead Bytes Empty, run (Ahead.step readList) (new [1, 2, 3] 2)
        (.helper 0 :: List.replicate 6 (.helper 1)) = some s ∧
      s.blocks.length < AHEAD_BLOCKS + 2 := by
  have hrun : ∃ s : Ahead Bytes Empty, run (Ahead.step readList) (new [1, 2, 3] 2)
      (.helper 0 :: List.replicate 6 (.helper 1)) = some s := ⟨_, rfl⟩
  obtain ⟨s, hrun⟩ := hrun
  exact ⟨s, hrun, queue_le hrun⟩

/-! ## While there is room -/

/-- A helper that gets the decoder still finds room in the queue. -/
def HasRoom (s : Ahead σ ε) (event : Event) : Prop :=
  ∀ i, event = .helper i → s.helpers[i]? = some .trying → s.lock = none →
    s.blocks.length < AHEAD_BLOCKS

theorem Late.hasRoom {helpers : Nat} (h : Late helpers s) (hone : helpers ≤ 1) (event : Event) :
    HasRoom s event := by
  intro i _ hi _
  have hpos : 0 < s.helpers.countP Helper.mayQueue :=
    List.countP_pos_iff.2 ⟨_, List.mem_of_getElem? hi, rfl⟩
  have := h.queued
  omega

theorem along_hasRoom (reader : σ) {helpers : Nat} (hone : helpers ≤ 1) (events : List Event) :
    Along (Ahead.step read) HasRoom (new reader helpers : Ahead σ ε) events :=
  along_of_invariant (fun _ event h => Late.hasRoom h hone event) (fun _ _ _ h => Late.step h)
    (late_new reader helpers) events

structure Bounded (s : Ahead σ ε) : Prop where
  locked : s.Locked
  queue : s.blocks.length ≤ AHEAD_BLOCKS
  room : ∀ (i : Nat) (d : Decoding ε), s.helpers[i]? = some (.decoding d) → s.blocks.length < AHEAD_BLOCKS

theorem Locked.keep (h : s.Locked) (hi : s.helpers[i]? = some phase) {phase' : Helper ε}
    (hhelpers : t.helpers = s.helpers.set i phase') (hreader : t.reader = s.reader)
    (hlock : t.lock = s.lock) (hholds : phase'.holds = phase.holds) : t.Locked := by
  refine h.ofHelper hi hhelpers hreader ?_ fun thread _ => by rw [hlock]
  rw [hholds, hlock]
  exact h.helper i phase hi

theorem Bounded.keep (h : Bounded s) (hi : s.helpers[i]? = some phase) {phase' : Helper ε}
    (hlocked : t.Locked) (hhelpers : t.helpers = s.helpers.set i phase')
    (hblocks : t.blocks = s.blocks)
    (hphase : ∀ d, phase' = .decoding d → s.blocks.length < AHEAD_BLOCKS) : Bounded t := by
  refine ⟨hlocked, hblocks ▸ h.queue, fun j d hj => ?_⟩
  rw [hblocks]
  rw [hhelpers] at hj
  rcases (party_set hi).1 hj with ⟨-, hd⟩ | ⟨-, hj⟩
  · exact hphase d hd.symm
  · exact h.room j d hj

theorem Bounded.ofHelper (h : Bounded s) (hi : s.helpers[i]? = some phase)
    (hroom : phase = .trying → s.lock = none → s.blocks.length < AHEAD_BLOCKS)
    (hdoes : HelperDoes s i phase t) : Bounded t := by
  cases hdoes with
  | full => exact h
  | finds => exact h.keep hi (h.locked.keep hi rfl rfl rfl rfl) rfl rfl nofun
  | locks hfree =>
    refine h.keep hi (h.locked.ofHelper hi rfl rfl ⟨fun _ => rfl, fun _ => rfl⟩ fun thread hne => ?_)
      rfl rfl fun d _ => hroom rfl hfree
    simp [hfree, hne.symm]
  | misses => exact h.keep hi (h.locked.keep hi rfl rfl rfl rfl) rfl rfl nofun
  | @decodes d d' decoder =>
    exact h.keep hi (h.locked.keep hi rfl rfl rfl rfl) rfl rfl fun _ _ => h.room i d hi
  | @queues block =>
    have hlt := h.room i _ hi
    have hlock : s.lock = some (.helper i) := (h.locked.helper i _ hi).1 rfl
    refine ⟨h.locked.keep hi rfl rfl rfl rfl, ?_, fun j d hj => ?_⟩
    · show (s.blocks ++ [block]).length ≤ _
      rw [List.length_append]
      exact hlt
    · -- The decoder is with this helper.
      rcases (party_set hi).1 hj with ⟨-, hd⟩ | ⟨hne, hj⟩
      · cases hd
      · have hlock' := (h.locked.helper j _ hj).1 rfl
        rw [hlock] at hlock'
        cases hlock'
        exact absurd rfl hne
  | ends => exact h.keep hi (h.locked.keep hi rfl rfl rfl rfl) rfl rfl nofun
  | releases =>
    have hlock : s.lock = some (.helper i) := (h.locked.helper i _ hi).1 rfl
    refine h.keep hi (h.locked.ofHelper hi rfl rfl ⟨nofun, nofun⟩ fun thread hne => ?_) rfl rfl nofun
    simp [hlock, hne.symm]

theorem Bounded.ofReader (h : Bounded s) (hstep : s.readerStep read s.reader = some t) :
    Bounded t := by
  obtain ⟨hhelpers, hblocks, hlock⟩ := readerStep_spec hstep
  have hreader := h.locked.reader
  refine ⟨h.locked.ofReader hhelpers ?_ fun i => ?_, Nat.le_trans hblocks h.queue, fun i d hi => ?_⟩
  · rcases hlock with ⟨hl, hr⟩ | ⟨-, hl, hr⟩ | ⟨-, hl, hr⟩
    · rw [hl, hr]
      exact hreader
    · exact ⟨fun _ => hl, fun _ => hr⟩
    · rw [hl, hr]
      exact ⟨nofun, nofun⟩
  · rcases hlock with ⟨hl, -⟩ | ⟨hfree, hl, -⟩ | ⟨hholds, hl, -⟩
    · rw [hl]
    · rw [hl, hfree]
      exact ⟨nofun, nofun⟩
    · rw [hl, hreader.1 hholds]
      exact ⟨nofun, nofun⟩
  · rw [hhelpers] at hi
    exact Nat.lt_of_le_of_lt hblocks (h.room i d hi)

theorem Bounded.step (h : Bounded s) {event : Event} (hroom : HasRoom s event)
    (hstep : s.step read event = some t) : Bounded t := by
  rcases step_cases hstep with ⟨i, phase, rfl, hi, hdoes⟩ | hreader | ⟨n, hidle, rfl⟩
  · exact h.ofHelper hi (fun hphase hfree => hroom i rfl (hphase ▸ hi) hfree) hdoes
  · exact h.ofReader hreader
  · refine ⟨h.locked.ofReader rfl ?_ fun _ => Iff.rfl, h.queue, h.room⟩
    have hlock := h.locked.reader
    rw [hidle] at hlock
    exact hlock

theorem bounded_new (reader : σ) (helpers : Nat) : Bounded (new reader helpers : Ahead σ ε) := by
  have hidle : ∀ (i : Nat) (phase : Helper ε),
      (List.replicate helpers Helper.idle)[i]? = some phase → phase = .idle :=
    fun i phase hi => List.eq_of_mem_replicate (List.mem_of_getElem? hi)
  refine ⟨⟨fun i phase hi => ?_, nofun, ⟨nofun, nofun⟩⟩, Nat.zero_le _, fun i d hi => ?_⟩
  · rw [hidle i phase hi]
    exact ⟨nofun, nofun⟩
  · cases hidle i _ hi

/-- In every run in which a helper that gets the decoder still finds room, the
queue keeps to its room. -/
theorem queue_le_of_room {reader : σ} {helpers : Nat} {events : List Event}
    (hroom : Along (Ahead.step read) HasRoom (new reader helpers : Ahead σ ε) events)
    (hrun : run (Ahead.step read) (new reader helpers : Ahead σ ε) events = some s) :
    s.blocks.length ≤ AHEAD_BLOCKS :=
  (run_invariant_along (fun _ _ _ hroom h hstep => Bounded.step h hroom hstep) hroom
    (bounded_new reader helpers) hrun).queue

/-! ## Two helpers -/

/-- A source that fills every buffer. -/
def zeros (_ : Unit) (n : Nat) : Outcome UInt8 Empty × Unit := (.data (List.replicate n 0), ())

def zeroBlock : Block Empty := .ok (List.replicate AHEAD_BLOCK 0)

theorem advance_reading (decoder : AheadDecoder Unit Empty) (hdecoder : decoder = ⟨(), false, none⟩) :
    decoder.advance zeros (.reading []) = (.reading (List.replicate AHEAD_BLOCK 0), decoder) := by
  subst hdecoder
  rfl

theorem advance_full (decoder : AheadDecoder Unit Empty) :
    decoder.advance zeros (.reading (List.replicate AHEAD_BLOCK 0)) =
      (.finished (some zeroBlock), decoder) := by
  rw [AheadDecoder.advance, List.length_replicate, if_neg (Nat.lt_irrefl _), AheadDecoder.nonEmpty,
    List.length_replicate]
  rfl

/-- With helper `i` at `phase`. -/
def withHelper (s : Ahead Unit Empty) (i : Nat) (phase : Helper Empty) (lock : Option Thread)
    (blocks : List (Block Empty)) : Ahead Unit Empty :=
  { s.setHelper i phase with lock, blocks }

@[simp] theorem setHelper_withHelper (s : Ahead Unit Empty) (phase phase' : Helper Empty)
    (lock : Option Thread) (blocks : List (Block Empty)) :
    (s.withHelper i phase lock blocks).setHelper i phase' = s.withHelper i phase' lock blocks := by
  simp only [withHelper, setHelper, List.set_set]

theorem step_decodes {s : Ahead Unit Empty} (lock : Option Thread) (blocks : List (Block Empty))
    (hi : i < s.helpers.length) {d d' : Decoding Empty} (hd : ∀ result, d ≠ .finished result)
    (hadvance : s.decoder.advance zeros d = (d', s.decoder)) :
    Ahead.step zeros (s.withHelper i (.decoding d) lock blocks) (.helper i) =
      some (s.withHelper i (.decoding d') lock blocks) := by
  have hset : (s.withHelper i (.decoding d) lock blocks).helpers[i]? = some (.decoding d) :=
    List.getElem?_set_self hi
  have hdecoder : (s.withHelper i (.decoding d) lock blocks).decoder = s.decoder := rfl
  rw [step_helper hset]
  cases d with
  | finished result => exact absurd rfl (hd result)
  | starting =>
    rw [helperStep, hdecoder, hadvance]
    · simp only [setHelper_withHelper]
      rfl
    · rintro _ ⟨⟩
    · rintro ⟨⟩
  | reading block =>
    rw [helperStep, hdecoder, hadvance]
    · simp only [setHelper_withHelper]
      rfl
    · rintro _ ⟨⟩
    · rintro ⟨⟩

/-- A helper that has found room, with the decoder free, decodes a block and
queues it. -/
theorem run_decodes {s : Ahead Unit Empty} (hi : s.helpers[i]? = some .trying) (hfree : s.lock = none)
    (hdecoder : s.decoder = ⟨(), false, none⟩) :
    run (Ahead.step zeros) s (List.replicate 6 (.helper i)) =
      some (s.withHelper i .idle none (s.blocks ++ [zeroBlock])) := by
  have hlt : i < s.helpers.length := (List.getElem?_eq_some_iff.1 hi).1
  have h1 : Ahead.step zeros s (.helper i) =
      some (s.withHelper i (.decoding .starting) (some (.helper i)) s.blocks) := by
    rw [step_helper hi, helperStep, if_pos hfree]
    rfl
  have h2 := step_decodes (some (.helper i)) s.blocks hlt (d := .starting)
    (by rintro _ ⟨⟩) (by rw [hdecoder]; rfl)
  have h3 := step_decodes (some (.helper i)) s.blocks hlt (d := .reading [])
    (by rintro _ ⟨⟩) (advance_reading _ hdecoder)
  have h4 := step_decodes (some (.helper i)) s.blocks hlt
    (d := .reading (List.replicate AHEAD_BLOCK 0)) (by rintro _ ⟨⟩) (advance_full s.decoder)
  have h5 : Ahead.step zeros (s.withHelper i (.decoding (.finished (some zeroBlock)))
      (some (.helper i)) s.blocks) (.helper i) =
        some (s.withHelper i .releasing (some (.helper i)) (s.blocks ++ [zeroBlock])) := by
    rw [step_helper (List.getElem?_set_self hlt), helperStep, setHelper_withHelper]
    rfl
  have h6 : Ahead.step zeros (s.withHelper i .releasing (some (.helper i))
      (s.blocks ++ [zeroBlock])) (.helper i) =
        some (s.withHelper i .idle none (s.blocks ++ [zeroBlock])) := by
    rw [step_helper (List.getElem?_set_self hlt), helperStep, setHelper_withHelper]
    rfl
  show run _ _ [Event.helper i, .helper i, .helper i, .helper i, .helper i, .helper i] = _
  simp only [run, h1, h2, h3, h4, h5, h6, Option.bind_some]

/-- The queue of two helpers, with `n` blocks. -/
def queueOf (first second : Helper Empty) (n : Nat) : Ahead Unit Empty :=
  { new () 2 with helpers := [first, second], blocks := List.replicate n zeroBlock }

/-- The first helper fills the queue, then both find room for the last block. -/
def lateEvents : List Event :=
  (List.replicate 15 (.helper 0 :: List.replicate 6 (.helper 0))).flatten ++ [.helper 0, .helper 1] ++
    List.replicate 6 (.helper 0) ++ List.replicate 6 (.helper 1)

theorem run_first (second : Helper Empty) (n : Nat) :
    run (Ahead.step zeros) (queueOf .trying second n) (List.replicate 6 (.helper 0)) =
      some (queueOf .idle second (n + 1)) := by
  rw [run_decodes rfl rfl rfl, queueOf, queueOf, List.replicate_succ']
  rfl

theorem run_second (first : Helper Empty) (n : Nat) :
    run (Ahead.step zeros) (queueOf first .trying n) (List.replicate 6 (.helper 1)) =
      some (queueOf first .idle (n + 1)) := by
  rw [run_decodes rfl rfl rfl, queueOf, queueOf, List.replicate_succ']
  rfl

theorem step_finds {s : Ahead Unit Empty} (hi : s.helpers[i]? = some .idle)
    (hroom : s.blocks.length < AHEAD_BLOCKS) :
    Ahead.step zeros s (.helper i) = some (s.setHelper i .trying) := by
  rw [step_helper hi, helperStep, if_neg (Nat.not_le_of_lt hroom)]

theorem run_fills (n m : Nat) (h : n + m ≤ 15) :
    run (Ahead.step zeros) (queueOf .idle .idle n)
        (List.replicate m (.helper 0 :: List.replicate 6 (.helper 0))).flatten =
      some (queueOf .idle .idle (n + m)) := by
  induction m generalizing n with
  | zero => rfl
  | succ m ih =>
    have hfinds : Ahead.step zeros (queueOf .idle .idle n) (.helper 0) =
        some (queueOf .trying .idle n) := by
      refine step_finds rfl ?_
      show (List.replicate n zeroBlock).length < 16
      rw [List.length_replicate]
      omega
    rw [List.replicate_succ, List.flatten_cons, run_append, run, hfinds, Option.bind_some, run_first,
      Option.bind_some, ih (n + 1) (by omega)]
    congr 2
    omega

/-- Two helpers that look for room before either of them has the decoder queue a
block too many. -/
theorem queue_exceeds :
    ¬ ∀ (helpers : Nat) (events : List Event) (s : Ahead Unit Empty),
      run (Ahead.step zeros) (new () helpers) events = some s → s.blocks.length ≤ AHEAD_BLOCKS := by
  intro h
  have hboth : run (Ahead.step zeros) (queueOf .idle .idle 15) [.helper 0, .helper 1] =
      some (queueOf .trying .trying 15) := by
    have hlength : ∀ first second, (queueOf first second 15).blocks.length < AHEAD_BLOCKS := by
      intro first second
      show (List.replicate 15 zeroBlock).length < 16
      rw [List.length_replicate]
      omega
    rw [run, step_finds rfl (hlength _ _), Option.bind_some, run,
      show (queueOf .idle .idle 15).setHelper 0 .trying = queueOf .trying .idle 15 from rfl,
      step_finds (i := 1) rfl (hlength .trying .idle)]
    rfl
  have hrun : run (Ahead.step zeros) (new () 2) lateEvents = some (queueOf .idle .idle 17) := by
    show run (Ahead.step zeros) (queueOf .idle .idle 0) lateEvents = _
    rw [lateEvents, run_append, run_append, run_append, run_fills 0 15 (Nat.le_refl _),
      Option.bind_some, hboth, Option.bind_some, run_first, Option.bind_some, run_second]
  have hle := h 2 lateEvents _ hrun
  rw [show (queueOf .idle .idle 17).blocks = List.replicate 17 zeroBlock from rfl,
    List.length_replicate] at hle
  exact absurd hle (by decide)

/-- One helper decodes a block. -/
theorem queue_le_of_room_one :
    ∃ s : Ahead Unit Empty, run (Ahead.step zeros) (new () 1)
        (.helper 0 :: List.replicate 6 (.helper 0)) = some s ∧ s.blocks.length ≤ AHEAD_BLOCKS := by
  have hrun : run (Ahead.step zeros) (new () 1) (.helper 0 :: List.replicate 6 (.helper 0)) =
      some { new () 1 with blocks := [zeroBlock] } := by
    have hfinds : Ahead.step zeros (new () 1) (.helper 0) =
        some ((new () 1 : Ahead Unit Empty).setHelper 0 .trying) :=
      step_finds rfl (Nat.zero_lt_succ 15)
    rw [run, hfinds, Option.bind_some, run_decodes rfl rfl rfl]
    rfl
  exact ⟨_, hrun, queue_le_of_room (along_hasRoom () (Nat.le_refl 1) _) hrun⟩

end Ahead

end Xeibe.DecodeAhead

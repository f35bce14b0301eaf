import Mathlib.Data.List.Nodup
import Xeibe.Core.Parallel.Locks
import Xeibe.Core.Parallel.Sequential

/-!
# The input as the workers share it

What holds of the streams, their list and their ends, in order or not.
`Phase.Sees` is what a worker knows of the shared state where it is.
`Guarantee i s t` is what a step of worker `i` promises the others, and it
keeps what they know (`Sees.keep`).
-/

namespace Xeibe

namespace Parallel

variable {Item Result Panic : Type}

/-- A worker whose stream has ended, and is not yet counted. -/
def Phase.isEnding : Phase Item Panic → Bool
  | .ending => true
  | _ => false

/-- Whether the consumer has cancelled the pool. -/
def Consumer.cancels : Consumer Result Panic → Bool
  | .closing _ | .gone _ => true
  | _ => false

/-- Whether the consumer has dropped the receiver. -/
def Consumer.isGone : Consumer Result Panic → Bool
  | .gone _ => true
  | _ => false

/-- A worker that is about to find out whether the input has ended. -/
def Phase.finishes : Phase Item Panic → Bool
  | .finishing | .finishingStopped | .finishingLast => true
  | _ => false

namespace Pool

section

variable {options : MapOptions} {job : Job Item Result Panic} {panics : Panic → Prop}
  {s t : Pool Item Result Panic} {i j : Nat} {phase : Phase Item Panic} {held : Held}
  {added : List (Except Panic Item)}

/-- Nothing more will be taken, or the map is dropped. -/
def Over (s : Pool Item Result Panic) : Prop :=
  s.numbersStopped = true ∨
    (s.exhausted = true ∧ s.streams.streams = [] ∧ s.openStreams = []) ∨ s.cancelled = true

/-- What a worker knows where it is. -/
def Sees (options : MapOptions) (s : Pool Item Result Panic) : Phase Item Panic → Prop
  | .listOpen true | .trying true _ _ _ => s.exhausted = true
  | .openingNext => s.openStreams.length < maxOpen options
  | .finishingStopped | .finishingLast =>
    s.exhausted = true ∧ s.started ≤ s.ended ∧ s.finished = false
  | .stopping .. => s.numbersStopped = true
  | .exhausting .. => s.numbersStopped = true ∧ s.stopped = true
  | .leaving | .leavingNotify | .ended => Over s
  | _ => True

/-- What a step of worker `i` promises the others. -/
structure Guarantee (i : Nat) (s t : Pool Item Result Panic) : Prop where
  exhausted : s.exhausted = true → t.exhausted = true
  stopped : s.stopped = true → t.stopped = true
  numbersStopped : s.numbersStopped = true → t.numbersStopped = true
  cancelled : s.cancelled = true → t.cancelled = true
  streams : s.streams.streams = [] → t.streams.streams = []
  opens : s.streams.streams = [] → s.openStreams = [] → t.openStreams = []
  list : (t.started = s.started ∧ t.ended = s.ended ∧ t.finished = s.finished ∧
    t.openStreams.length ≤ s.openStreams.length) ∨ s.listLock = some i ∨ s.listLock = none

theorem Guarantee.refl (i : Nat) (s : Pool Item Result Panic) : Guarantee i s s :=
  ⟨id, id, id, id, id, fun _ => id, .inl ⟨rfl, rfl, rfl, Nat.le_refl _⟩⟩

theorem Over.keep (h : Over s) (hg : Guarantee i s t) : Over t := by
  rcases h with h | ⟨h, hstreams, hopen⟩ | h
  · exact .inl (hg.numbersStopped h)
  · exact .inr (.inl ⟨hg.exhausted h, hg.streams hstreams, hg.opens hstreams hopen⟩)
  · exact .inr (.inr (hg.cancelled h))

/-- What a worker knows, it knows after another's step. -/
theorem Sees.keep (h : Sees options s phase) (hg : Guarantee i s t)
    (howns : Owns s j phase.held phase.numbers) (hj : j ≠ i) : Sees options t phase := by
  have hlist : phase.held = .list → t.started = s.started ∧ t.ended = s.ended ∧
      t.finished = s.finished ∧ t.openStreams.length ≤ s.openStreams.length := by
    intro hheld
    have hlock := howns.list.2 hheld
    rcases hg.list with h | h | h
    · exact h
    · rw [hlock] at h
      exact absurd (Option.some.inj h) hj
    · rw [hlock] at h
      cases h
  cases phase with
  | listOpen exhausted =>
    cases exhausted with
    | true => exact hg.exhausted h
    | false => exact trivial
  | trying exhausted open_ k left =>
    cases exhausted with
    | true => exact hg.exhausted h
    | false => exact trivial
  | openingNext => exact Nat.lt_of_le_of_lt (hlist rfl).2.2.2 h
  | finishingStopped =>
    obtain ⟨hstarted, hended, hfinished, -⟩ := hlist rfl
    exact ⟨hg.exhausted h.1, by rw [hstarted, hended]; exact h.2.1, by rw [hfinished]; exact h.2.2⟩
  | finishingLast =>
    obtain ⟨hstarted, hended, hfinished, -⟩ := hlist rfl
    exact ⟨hg.exhausted h.1, by rw [hstarted, hended]; exact h.2.1, by rw [hfinished]; exact h.2.2⟩
  | stopping held seq item => exact hg.numbersStopped h
  | exhausting held seq item => exact ⟨hg.numbersStopped h.1, hg.stopped h.2⟩
  | leaving => exact Over.keep h hg
  | leavingNotify => exact Over.keep h hg
  | ended => exact Over.keep h hg
  | _ => exact trivial

/-! ## Guarantees -/

theorem release_shared (s : Pool Item Result Panic) (held : Held) :
    (s.release held).exhausted = s.exhausted ∧ (s.release held).stopped = s.stopped ∧
      (s.release held).numbersStopped = s.numbersStopped ∧
      (s.release held).cancelled = s.cancelled ∧ (s.release held).streams = s.streams ∧
      (s.release held).openStreams = s.openStreams ∧ (s.release held).started = s.started ∧
      (s.release held).ended = s.ended ∧ (s.release held).finished = s.finished := by
  cases held <;> exact ⟨rfl, rfl, rfl, rfl, rfl, rfl, rfl, rfl, rfl⟩

theorem Guarantee.release (h : Guarantee i s t) (held : Held) (phase : Phase Item Panic) :
    Guarantee i s ((t.release held).setPhase i phase) := by
  obtain ⟨h₁, h₂, h₃, h₄, h₅, h₆, h₇, h₈, h₉⟩ := release_shared t held
  refine ⟨?_, ?_, ?_, ?_, ?_, ?_, ?_⟩
  · exact fun hs => h₁.trans (h.exhausted hs)
  · exact fun hs => h₂.trans (h.stopped hs)
  · exact fun hs => h₃.trans (h.numbersStopped hs)
  · exact fun hs => h₄.trans (h.cancelled hs)
  · exact fun hs => (congrArg Streams.streams h₅).trans (h.streams hs)
  · exact fun hs hopen => h₆.trans (h.opens hs hopen)
  · rcases h.list with hlist | hlist
    · exact .inl ⟨h₇.trans hlist.1, h₈.trans hlist.2.1, h₉.trans hlist.2.2.1,
        Nat.le_trans (Nat.le_of_eq (congrArg List.length h₆)) hlist.2.2.2⟩
    · exact .inr hlist

theorem Takes.guarantee (h : Locked s) (hi : s.workers[i]? = some phase) {item : Except Panic Item}
    {ends : Bool} {orElse : Phase Item Panic} (htakes : Takes job s phase held item ends orElse t) :
    Guarantee i s t := by
  have howns := h.owns i phase hi
  cases htakes with
  | item hk running hrest =>
    exact ⟨id, id, id, id, id, fun _ => id, .inl ⟨rfl, rfl, rfl, Nat.le_refl _⟩⟩
  | panicked hk running hrest =>
    exact ⟨id, id, id, id, id, fun _ => id, .inl ⟨rfl, rfl, rfl, Nat.le_refl _⟩⟩
  | failed hstreams =>
    refine ⟨id, id, id, id, fun hnone => ?_, fun _ => id, .inr (.inl (howns.list.2 rfl))⟩
    rw [hstreams] at hnone
    cases hnone
  | last hlast => exact ⟨id, id, id, id, id, fun _ => id, .inr (.inl (howns.list.2 rfl))⟩

theorem Does.guarantee (h : Locked s) (hi : s.workers[i]? = some phase)
    (hdoes : Does options job s i phase added t) : Guarantee i s t := by
  have howns := h.owns i phase hi
  have keeps : Guarantee i s s := .refl i s
  cases hdoes with
  | ticket => exact ⟨id, id, id, id, id, fun _ => id, .inl ⟨rfl, rfl, rfl, Nat.le_refl _⟩⟩
  | returns => exact ⟨id, id, id, id, id, fun _ => id, .inl ⟨rfl, rfl, rfl, Nat.le_refl _⟩⟩
  | sends => exact ⟨id, id, id, id, id, fun _ => id, .inl ⟨rfl, rfl, rfl, Nat.le_refl _⟩⟩
  | locksStream => exact ⟨id, id, id, id, id, fun _ => id, .inl ⟨rfl, rfl, rfl, Nat.le_refl _⟩⟩
  | leavesStream => exact keeps.release _ _
  | @closes k stream hk running hrest =>
    apply Guarantee.release
    refine ⟨id, id, id, id, id, fun _ hopen => ?_,
      .inl ⟨rfl, rfl, rfl, List.length_filter_le _ _⟩⟩
    show s.openStreams.filter _ = []
    rw [hopen]
    rfl
  | counts hfree => exact ⟨id, id, id, id, id, fun _ => id, .inr (.inr hfree)⟩
  | locksList hfree => exact ⟨id, id, id, id, id, fun _ => id, .inr (.inr hfree)⟩
  | declines hdeclines finished hfinished =>
    have hlist : phase.held = .list := by cases hdeclines <;> rfl
    apply Guarantee.release
    exact ⟨id, id, id, id, id, fun _ => id, .inr (.inl (howns.list.2 hlist))⟩
  | @opens rest streams hstreams =>
    apply Guarantee.release
    refine ⟨id, id, id, id, fun hnone => ?_, fun hnone => ?_, .inr (.inl (howns.list.2 rfl))⟩
    all_goals
      rw [hstreams] at hnone
      cases hnone
  | exhausts =>
    exact ⟨fun _ => rfl, id, id, id, id, fun _ => id, .inl ⟨rfl, rfl, rfl, Nat.le_refl _⟩⟩
  | drops htakes hstopped => exact (htakes.guarantee h hi).release _ _
  | numbers htakes hfree hrunning =>
    have hg := htakes.guarantee h hi
    apply Guarantee.release
    exact ⟨hg.exhausted, hg.stopped, hg.numbersStopped, hg.cancelled, hg.streams, hg.opens, hg.list⟩
  | ends htakes hfree hrunning =>
    have hg := htakes.guarantee h hi
    exact ⟨hg.exhausted, hg.stopped, fun _ => rfl, hg.cancelled, hg.streams, hg.opens, hg.list⟩
  | stores =>
    exact ⟨id, fun _ => rfl, id, id, id, fun _ => id, .inl ⟨rfl, rfl, rfl, Nat.le_refl _⟩⟩
  | storesExhausted =>
    apply Guarantee.release
    exact ⟨fun _ => rfl, id, id, id, id, fun _ => id, .inl ⟨rfl, rfl, rfl, Nat.le_refl _⟩⟩

/-! ## What holds of the input -/

/-- What is left of the open streams, in the order in which they were
opened. -/
def current (s : Pool Item Result Panic) : List (Except Panic Item) :=
  s.openStreams.flatMap fun k => (s.opened[k]?.map OpenStream.rest).getD []

/-- The open streams. -/
structure OpenOk (options : MapOptions) (s : Pool Item Result Panic) : Prop where
  lt : ∀ k ∈ s.openStreams, k < s.opened.length
  nodup : s.openStreams.Nodup
  le : s.openStreams.length ≤ maxOpen options
  /-- A stream that is open and done has ended the input. -/
  done_stopped : ∀ (k : Nat) (stream : OpenStream Item Panic), s.opened[k]? = some stream →
    k ∈ s.openStreams → stream.done = true → s.numbersStopped = true
  closed_done : ∀ (k : Nat) (stream : OpenStream Item Panic), s.opened[k]? = some stream →
    k ∉ s.openStreams → stream.done = true

structure Input (options : MapOptions) (s : Pool Item Result Panic) : Prop where
  locked : Locked s
  sees : ∀ (i : Nat) (phase : Phase Item Panic), s.workers[i]? = some phase →
    Sees options s phase
  opens : OpenOk options s
  count : s.started = s.ended + s.openStreams.length + s.workers.countP Phase.isEnding
  exhausted_cases : s.exhausted = true → s.numbersStopped = true ∨ s.streams.streams = []
  stopped_numbers : s.stopped = true → s.numbersStopped = true
  cancelled_eq : s.cancelled = s.consumer.cancels
  receiver_eq : s.receiver = !s.consumer.isGone
  /-- Whoever finds the end last takes the last item. -/
  finisher : s.exhausted = true → s.numbersStopped = false → s.finished = false →
    s.ended < s.started ∨ 0 < s.workers.countP Phase.finishes

theorem OpenOk.mem_open (h : OpenOk options s) {k : Nat} {stream : OpenStream Item Panic}
    (hk : s.opened[k]? = some stream) (running : stream.done = false) : k ∈ s.openStreams := by
  by_contra hopen
  rw [h.closed_done k stream hk hopen] at running
  cases running

/-- What is known of the open streams stays so when no stream is opened or
closed. -/
theorem OpenOk.keep (h : OpenOk options s) (hopen : t.openStreams = s.openStreams)
    (hlength : t.opened.length = s.opened.length)
    (hopened : ∀ (k : Nat) (stream : OpenStream Item Panic), t.opened[k]? = some stream →
      ∃ old : OpenStream Item Panic, s.opened[k]? = some old ∧
      (stream.done = old.done ∨ stream.done = true ∧ t.numbersStopped = true))
    (hstopped : s.numbersStopped = true → t.numbersStopped = true) : OpenOk options t where
  lt := by
    rw [hopen, hlength]
    exact h.lt
  nodup := by
    rw [hopen]
    exact h.nodup
  le := by
    rw [hopen]
    exact h.le
  done_stopped k stream hk hmem hdone := by
    obtain ⟨old, hold, hsame | hnew⟩ := hopened k stream hk
    · exact hstopped (h.done_stopped k old hold (hopen ▸ hmem) (hsame ▸ hdone))
    · exact hnew.2
  closed_done k stream hk hmem := by
    obtain ⟨old, hold, hsame | hnew⟩ := hopened k stream hk
    · rw [hsame]
      exact h.closed_done k old hold (hopen ▸ hmem)
    · exact hnew.1

theorem OpenOk.same (h : OpenOk options s) (hopen : t.openStreams = s.openStreams)
    (hopened : t.opened = s.opened) (hstopped : s.numbersStopped = true → t.numbersStopped = true) :
    OpenOk options t :=
  h.keep hopen (by rw [hopened]) (fun _ stream hk => ⟨stream, by rw [← hopened]; exact hk, .inl rfl⟩)
    hstopped

/-- The consumer's side stays as it is. -/
structure SameConsumer (s t : Pool Item Result Panic) : Prop where
  cancelled : t.cancelled = s.cancelled
  receiver : t.receiver = s.receiver
  consumer : t.consumer = s.consumer

theorem SameConsumer.release (h : SameConsumer s t) (held : Held) :
    SameConsumer s (t.release held) := by
  cases held <;> exact ⟨h.cancelled, h.receiver, h.consumer⟩

theorem Input.receiver_gone (h : Input options s) (hgone : s.receiver = false) :
    s.cancelled = true := by
  have hreceiver := h.receiver_eq
  rw [h.cancelled_eq]
  rw [hgone] at hreceiver
  cases hconsumer : s.consumer <;> rw [hconsumer] at hreceiver <;> first | rfl | cases hreceiver

/-- What a step must keep, for a worker that goes on from `phase` to
`phase'`. -/
theorem Input.step (h : Input options s) (hi : s.workers[i]? = some phase)
    {phase' : Phase Item Panic} (hlocked : Locked (t.setPhase i phase'))
    (hg : Guarantee i s (t.setPhase i phase')) (hworkers : t.workers = s.workers)
    (hsees : Sees options t phase') (hopens : OpenOk options t)
    (hcount : t.started + s.ended + s.openStreams.length + phase.isEnding.toNat =
      s.started + t.ended + t.openStreams.length + phase'.isEnding.toNat)
    (hexhausted : t.exhausted = true → t.numbersStopped = true ∨ t.streams.streams = [])
    (hstopped : t.stopped = true → t.numbersStopped = true)
    (hconsumer : SameConsumer s t)
    (hfinisher : t.exhausted = true → t.numbersStopped = false → t.finished = false →
      t.ended < t.started ∨ phase'.finishes = true ∨
        (s.exhausted = true ∧ s.numbersStopped = false ∧ s.finished = false ∧
          s.started + t.ended ≤ t.started + s.ended ∧ phase.finishes = false)) :
    Input options (t.setPhase i phase') where
  locked := hlocked
  sees j phase₂ hj := by
    rw [setPhase, Lib.party_set (by rw [hworkers]; exact hi)] at hj
    rcases hj with ⟨rfl, rfl⟩ | ⟨hne, hj⟩
    · cases phase₂ <;> exact hsees
    · rw [hworkers] at hj
      exact (h.sees j phase₂ hj).keep hg (h.locked.owns j phase₂ hj) hne
  opens := ⟨hopens.lt, hopens.nodup, hopens.le, hopens.done_stopped, hopens.closed_done⟩
  count := by
    have hends := Lib.count_set (b := phase') hi Phase.isEnding
    have hold := h.count
    show t.started = t.ended + t.openStreams.length + (t.workers.set i phase').countP _
    rw [hworkers]
    cases hp : phase.isEnding <;> cases hp' : phase'.isEnding <;>
      simp only [hp, hp', Bool.toNat_true, Bool.toNat_false, if_true, if_false,
        Bool.false_eq_true] at hends hcount <;> omega
  exhausted_cases := hexhausted
  stopped_numbers := hstopped
  cancelled_eq := hconsumer.cancelled.trans (h.cancelled_eq.trans (congrArg _ hconsumer.consumer.symm))
  receiver_eq := hconsumer.receiver.trans (h.receiver_eq.trans
    (congrArg (fun consumer => !consumer.isGone) hconsumer.consumer.symm))
  finisher he hn hf := by
    have hcounts := Lib.count_set (b := phase') hi Phase.finishes
    show t.ended < t.started ∨ 0 < (t.workers.set i phase').countP _
    rw [hworkers]
    rcases hfinisher he hn hf with hlt | hphase | ⟨he', hn', hf', hle, hphase⟩
    · exact .inl hlt
    · rw [hphase, if_pos rfl] at hcounts
      split at hcounts
      · rename_i hold
        have hpos : 0 < s.workers.countP Phase.finishes :=
          List.countP_pos_iff.2 ⟨phase, List.mem_of_getElem? hi, hold⟩
        omega
      · omega
    · rw [hphase] at hcounts
      rcases h.finisher he' hn' hf' with hlt | hpos
      · exact .inl (by omega)
      · right
        simp only [Bool.false_eq_true, if_false] at hcounts
        omega

/-! ## Steps keep it -/

theorem Goes.sees (h : Input options s) (hi : s.workers[i]? = some phase)
    {phase' : Phase Item Panic} (hgoes : Goes options s phase phase') :
    Sees options s phase' := by
  have hsees := h.sees i phase hi
  cases hgoes with
  | cancelled hcancelled => exact .inr (.inr hcancelled)
  | stopped hstopped => exact .inl (h.stopped_numbers hstopped)
  | reads =>
    cases hexhausted : s.exhausted with
    | true => exact hexhausted
    | false => exact trivial
  | usedUp hopen =>
    rcases h.exhausted_cases hsees with hstopped | hstreams
    · exact .inl hstopped
    · exact .inr (.inl ⟨hsees, hstreams, hopen⟩)
  | @copies exhausted k left hopen =>
    cases exhausted with
    | true => exact hsees
    | false => exact trivial
  | @triesNext exhausted open_ k k' left =>
    cases exhausted with
    | true => exact hsees
    | false => exact trivial
  | finishes hexhausted hended hfinished => exact ⟨hexhausted, hended, hfinished⟩
  | unstopped => exact hsees
  | room hroom => exact hroom
  | consumerGone hgone => exact .inr (.inr (h.receiver_gone hgone))
  | leaves => exact hsees
  | _ => exact trivial

theorem Input.goesOn (h : Input options s) (hi : s.workers[i]? = some phase)
    {phase' : Phase Item Panic} (hheld : phase'.held = phase.held)
    (hnumbers : phase'.numbers = phase.numbers) (hsees : Sees options s phase')
    (hending : phase.isEnding = false) (hending' : phase'.isEnding = false)
    (hfinishes : phase.finishes = true → phase'.finishes = true) :
    Input options (s.setPhase i phase') := by
  refine h.step hi (h.locked.goes hi hheld hnumbers)
    ⟨id, id, id, id, id, fun _ => id, .inl ⟨rfl, rfl, rfl, Nat.le_refl _⟩⟩ rfl hsees
    h.opens (by rw [hending, hending']) h.exhausted_cases h.stopped_numbers ⟨rfl, rfl, rfl⟩
    fun he hn hf => ?_
  cases hold : phase.finishes with
  | true => exact .inr (.inl (hfinishes hold))
  | false => exact .inr (.inr ⟨he, hn, hf, Nat.le_refl _, rfl⟩)

theorem Input.goes (h : Input options s) (hi : s.workers[i]? = some phase)
    {phase' : Phase Item Panic} (hgoes : Goes options s phase phase') :
    Input options (s.setPhase i phase') := by
  have hkinds : phase.isEnding = false ∧ phase'.isEnding = false ∧
      (phase.finishes = true → phase'.finishes = true) := by
    cases hgoes <;> exact ⟨rfl, rfl, by simp [Phase.finishes]⟩
  exact h.goesOn hi hgoes.locks.1 hgoes.locks.2 (hgoes.sees h hi) hkinds.1 hkinds.2.1 hkinds.2.2

theorem opened_release (s : Pool Item Result Panic) (held : Held) :
    (s.release held).opened.length = s.opened.length ∧
      ∀ (k : Nat) (stream : OpenStream Item Panic), (s.release held).opened[k]? = some stream →
        ∃ old : OpenStream Item Panic, s.opened[k]? = some old ∧ stream.done = old.done ∧
          stream.rest = old.rest := by
  cases held with
  | stream k =>
    refine ⟨List.length_modify _ _ _, fun k' stream hk' => ?_⟩
    rw [release, opened_modify] at hk'
    split at hk'
    · obtain ⟨old, hold, rfl⟩ := Option.map_eq_some_iff.1 hk'
      exact ⟨old, hold, rfl, rfl⟩
    · exact ⟨stream, hk', rfl, rfl⟩
  | list => exact ⟨rfl, fun k stream hk => ⟨stream, hk, rfl, rfl⟩⟩
  | none => exact ⟨rfl, fun k stream hk => ⟨stream, hk, rfl, rfl⟩⟩

theorem OpenOk.release (h : OpenOk options s) (held : Held) :
    OpenOk options (s.release held) := by
  obtain ⟨hlength, hopened⟩ := opened_release s held
  have hshared := release_shared s held
  refine h.keep hshared.2.2.2.2.2.1 hlength (fun k stream hk => ?_)
    (fun hs => hshared.2.2.1.trans hs)
  obtain ⟨old, hold, hdone, -⟩ := hopened k stream hk
  exact ⟨old, hold, .inl hdone⟩

theorem OpenOk.setLock (h : OpenOk options s) (k : Nat) (lock : Option Nat) :
    OpenOk options (s.modifyStream k fun stream => { stream with lock }) := by
  refine h.keep rfl (List.length_modify _ _ _) (fun k' stream hk' => ?_) id
  rw [opened_modify] at hk'
  split at hk'
  · obtain ⟨old, hold, rfl⟩ := Option.map_eq_some_iff.1 hk'
    exact ⟨old, hold, .inl rfl⟩
  · exact ⟨stream, hk', .inl rfl⟩

/-- What is taken leaves the streams as they are but for the one taken from,
which may be done once the input has ended. -/
theorem Takes.opened {item : Except Panic Item} {ends : Bool} {orElse : Phase Item Panic}
    (htakes : Takes job s phase held item ends orElse t) :
    t.openStreams = s.openStreams ∧ t.opened.length = s.opened.length ∧
      ∀ (k : Nat) (stream : OpenStream Item Panic), t.opened[k]? = some stream →
        ∃ old : OpenStream Item Panic, s.opened[k]? = some old ∧
          (stream.done = old.done ∨ stream.done = true ∧
            (ends = true ∨ s.numbersStopped = true)) := by
  cases htakes with
  | @item k stream item rest hk running hrest =>
    refine ⟨rfl, List.length_modify _ _ _, fun k' stream' hk' => ?_⟩
    rw [opened_modify] at hk'
    split at hk'
    · rename_i hsame
      rw [← hsame, hk] at hk'
      refine ⟨stream, by rw [← hsame]; exact hk, ?_⟩
      rw [← Option.some.inj hk']
      dsimp only
      cases hends : job.endsInput item && !s.numbersStopped with
      | true => exact .inr ⟨rfl, .inl (Bool.and_eq_true _ _ ▸ hends).1⟩
      | false => exact .inl running.symm
    · exact ⟨stream', hk', .inl rfl⟩
  | @panicked k stream panic rest hk running hrest =>
    refine ⟨rfl, List.length_modify _ _ _, fun k' stream' hk' => ?_⟩
    rw [opened_modify] at hk'
    split at hk'
    · obtain ⟨old, hold, rfl⟩ := Option.map_eq_some_iff.1 hk'
      exact ⟨old, hold, .inr ⟨rfl, .inl rfl⟩⟩
    · exact ⟨stream', hk', .inl rfl⟩
  | failed hstreams => exact ⟨rfl, rfl, fun k stream hk => ⟨stream, hk, .inl rfl⟩⟩
  | last hlast => exact ⟨rfl, rfl, fun k stream hk => ⟨stream, hk, .inl rfl⟩⟩

theorem Takes.shared {item : Except Panic Item} {ends : Bool} {orElse : Phase Item Panic}
    (htakes : Takes job s phase held item ends orElse t) :
    t.exhausted = s.exhausted ∧ t.stopped = s.stopped ∧ t.numbersStopped = s.numbersStopped ∧
      SameConsumer s t ∧ t.started = s.started ∧ t.ended = s.ended ∧ (s.streams.streams = [] → t.streams.streams = []) ∧
      (t.finished = s.finished ∧ phase.finishes = false ∨ t.finished = true) ∧
      phase.isEnding = false ∧ orElse = .checkStopped := by
  cases htakes with
  | item => exact ⟨rfl, rfl, rfl, ⟨rfl, rfl, rfl⟩, rfl, rfl, id, .inl ⟨rfl, rfl⟩, rfl, rfl⟩
  | panicked => exact ⟨rfl, rfl, rfl, ⟨rfl, rfl, rfl⟩, rfl, rfl, id, .inl ⟨rfl, rfl⟩, rfl, rfl⟩
  | failed hstreams =>
    refine ⟨rfl, rfl, rfl, ⟨rfl, rfl, rfl⟩, rfl, rfl, fun hnone => ?_, .inl ⟨rfl, rfl⟩, rfl, rfl⟩
    rw [hstreams] at hnone
    cases hnone
  | last => exact ⟨rfl, rfl, rfl, ⟨rfl, rfl, rfl⟩, rfl, rfl, id, .inr rfl, rfl, rfl⟩

/-- A stream that is opened is the only one added. -/
theorem OpenOk.open (h : OpenOk options s) (hroom : s.openStreams.length < maxOpen options)
    (rest : List (Except Panic Item)) (streams : Streams Item Panic) :
    OpenOk options { s with
      streams
      started := s.started + 1
      opened := s.opened ++ [OpenStream.mk rest false none]
      openStreams := s.openStreams ++ [s.opened.length] } where
  lt k hk := by
    show k < (s.opened ++ _).length
    rw [List.length_append, List.length_singleton]
    rcases List.mem_append.1 hk with hk | hk
    · have := h.lt k hk
      omega
    · rw [List.mem_singleton.1 hk]
      omega
  nodup := by
    refine List.nodup_append.2 ⟨h.nodup, List.nodup_singleton _, fun k hk k' hk' => ?_⟩
    have := h.lt k hk
    rw [List.mem_singleton.1 hk']
    omega
  le := by
    show (s.openStreams ++ _).length ≤ _
    rw [List.length_append, List.length_singleton]
    omega
  done_stopped k stream hk hmem hdone := by
    rcases List.mem_append.1 hmem with hmem | hmem
    · rw [List.getElem?_append_left (h.lt k hmem)] at hk
      exact h.done_stopped k stream hk hmem hdone
    · rw [List.mem_singleton.1 hmem, List.getElem?_concat_length] at hk
      rw [← Option.some.inj hk] at hdone
      cases hdone
  closed_done k stream hk hmem := by
    rw [List.mem_append, not_or, List.mem_singleton] at hmem
    by_cases hlt : k < s.opened.length
    · rw [List.getElem?_append_left hlt] at hk
      exact h.closed_done k stream hk hmem.1
    · have hle := (List.getElem?_eq_some_iff.1 hk).1
      rw [List.length_append, List.length_singleton] at hle
      exact absurd (by omega) hmem.2

/-- A stream that has ended is closed. -/
theorem OpenOk.close (h : OpenOk options s) (k : Nat) :
    OpenOk options { s.modifyStream k fun stream => { stream with done := true } with
      openStreams := s.openStreams.filter (· != k) } where
  lt k' hk' := by
    show k' < (s.opened.modify k _).length
    rw [List.length_modify]
    exact h.lt k' (List.mem_of_mem_filter hk')
  nodup := h.nodup.filter _
  le := Nat.le_trans (List.length_filter_le _ _) h.le
  done_stopped k' stream hk' hmem hdone := by
    obtain ⟨hmem, hne⟩ := List.mem_filter.1 hmem
    have hk'' : (s.modifyStream k fun stream => { stream with done := true }).opened[k']? =
        some stream := hk'
    rw [opened_modify, if_neg fun heq => bne_iff_ne.1 hne heq.symm] at hk''
    exact h.done_stopped k' stream hk'' hmem hdone
  closed_done k' stream hk' hmem := by
    have hk'' : (s.modifyStream k fun stream => { stream with done := true }).opened[k']? =
        some stream := hk'
    rw [opened_modify] at hk''
    split at hk''
    · obtain ⟨old, hold, rfl⟩ := Option.map_eq_some_iff.1 hk''
      rfl
    · rename_i hne
      refine h.closed_done k' stream hk'' fun hopen => hmem ?_
      exact List.mem_filter.2 ⟨hopen, bne_iff_ne.2 fun heq => hne heq.symm⟩

theorem length_filter_ne {l : List Nat} (h : l.Nodup) {k : Nat} (hk : k ∈ l) :
    (l.filter (· != k)).length + 1 = l.length := by
  rw [← h.erase_eq_filter, List.length_erase_of_mem hk]
  have := List.length_pos_of_mem hk
  omega

theorem Takes.opens {u : Pool Item Result Panic} {item : Except Panic Item} {ends : Bool}
    {orElse : Phase Item Panic} (htakes : Takes job s phase held item ends orElse t)
    (h : OpenOk options s) (hopen : u.openStreams = t.openStreams) (hopened : u.opened = t.opened)
    (hstopped : ends = true ∨ s.numbersStopped = true → u.numbersStopped = true) :
    OpenOk options u := by
  obtain ⟨hopen', hlength, hold⟩ := htakes.opened
  refine h.keep (hopen.trans hopen') (by rw [hopened, hlength]) (fun k stream hk => ?_)
    (fun hs => hstopped (.inr hs))
  rw [hopened] at hk
  obtain ⟨old, hk', hdone | ⟨hdone, hends⟩⟩ := hold k stream hk
  · exact ⟨old, hk', .inl hdone⟩
  · exact ⟨old, hk', .inr ⟨hdone, hstopped hends⟩⟩

theorem Input.does (h : Input options s) (hi : s.workers[i]? = some phase)
    (hdoes : Does options job s i phase added t) : Input options t := by
  have hlocked := h.locked.does hi hdoes
  have hg := hdoes.guarantee h.locked hi
  have hsees := h.sees i phase hi
  have keeps : s.exhausted = true → s.numbersStopped = false → s.finished = false →
      ∀ {phase' : Phase Item Panic}, phase.finishes = false →
      s.ended < s.started ∨ phase'.finishes = true ∨
        (s.exhausted = true ∧ s.numbersStopped = false ∧ s.finished = false ∧
          s.started + s.ended ≤ s.started + s.ended ∧ phase.finishes = false) :=
    fun he hn hf _ hphase => .inr (.inr ⟨he, hn, hf, Nat.le_refl _, hphase⟩)
  cases hdoes with
  | ticket =>
    exact h.step hi hlocked hg rfl trivial (h.opens.same rfl rfl id) rfl h.exhausted_cases h.stopped_numbers
      ⟨rfl, rfl, rfl⟩ fun he hn hf => keeps he hn hf rfl
  | returns =>
    exact h.step hi hlocked hg rfl hsees (h.opens.same rfl rfl id) rfl h.exhausted_cases h.stopped_numbers
      ⟨rfl, rfl, rfl⟩ fun he hn hf => keeps he hn hf rfl
  | sends =>
    exact h.step hi hlocked hg rfl trivial (h.opens.same rfl rfl id) rfl h.exhausted_cases h.stopped_numbers
      ⟨rfl, rfl, rfl⟩ fun he hn hf => keeps he hn hf rfl
  | locksStream hk hfree hfrom =>
    have hkinds : phase.isEnding = false ∧ phase.finishes = false := by
      rcases hfrom with rfl | ⟨_, _, _, rfl⟩ <;> exact ⟨rfl, rfl⟩
    exact h.step hi hlocked hg rfl trivial (h.opens.setLock _ _) (by rw [hkinds.1]; rfl)
      h.exhausted_cases h.stopped_numbers ⟨rfl, rfl, rfl⟩ fun he hn hf => keeps he hn hf hkinds.2
  | leavesStream hk hdone =>
    exact h.step hi hlocked hg rfl trivial (h.opens.release _) rfl h.exhausted_cases
      h.stopped_numbers ⟨rfl, rfl, rfl⟩ fun he hn hf => keeps he hn hf rfl
  | @closes k stream hk running hrest =>
    have hopen := h.opens.mem_open hk running
    have hlength := length_filter_ne h.opens.nodup hopen
    refine h.step hi hlocked hg rfl trivial ((h.opens.close k).release (.stream k)) ?_
      h.exhausted_cases h.stopped_numbers ⟨rfl, rfl, rfl⟩ fun he hn hf => keeps he hn hf rfl
    show s.started + s.ended + s.openStreams.length + 0 =
      s.started + s.ended + (s.openStreams.filter (· != k)).length + 1
    omega
  | counts hfree =>
    refine h.step hi hlocked hg rfl trivial (h.opens.same rfl rfl id) ?_ h.exhausted_cases h.stopped_numbers
      ⟨rfl, rfl, rfl⟩ fun _ _ _ => .inr (.inl rfl)
    show s.started + s.ended + s.openStreams.length + 1 =
      s.started + (s.ended + 1) + s.openStreams.length + 0
    omega
  | locksList hfree =>
    exact h.step hi hlocked hg rfl trivial (h.opens.same rfl rfl id) rfl h.exhausted_cases h.stopped_numbers
      ⟨rfl, rfl, rfl⟩ fun he hn hf => keeps he hn hf rfl
  | @declines phase hdeclines finished hfinished =>
    have hending : phase.isEnding = false := by cases hdeclines <;> rfl
    refine h.step hi hlocked hg rfl trivial (h.opens.same rfl rfl id) (by rw [hending]; rfl) h.exhausted_cases
      h.stopped_numbers ⟨rfl, rfl, rfl⟩ fun he hn hf => ?_
    -- Whoever declines at the end of the input has seen that it is not the one.
    have he' : s.exhausted = true := he
    have hn' : s.numbersStopped = false := hn
    have hf' : finished = false := hf
    have hunfinished : s.finished = false ∧ phase ≠ .finishingLast := by
      rw [hf'] at hfinished
      constructor
      · cases hs : s.finished with
        | false => rfl
        | true => exact absurd (hfinished.2 (.inl hs)) Bool.false_ne_true
      · intro hphase
        exact Bool.false_ne_true (hfinished.2 (.inr hphase))
    cases hdeclines with
    | unfinished hreason =>
      rcases hreason with hreason | hreason | hreason
      · rw [he'] at hreason
        cases hreason
      · exact .inl hreason
      · rw [hunfinished.1] at hreason
        cases hreason
    | stopped hstopped =>
      rw [h.stopped_numbers hstopped] at hn'
      cases hn'
    | exhausted => exact keeps he' hn' hunfinished.1 rfl
    | full => exact keeps he' hn' hunfinished.1 rfl
    | noLast => exact absurd rfl hunfinished.2
  | @opens rest streams hstreams =>
    refine h.step hi hlocked hg rfl trivial ((h.opens.open hsees rest _).release .list) ?_
      (fun he => ?_) h.stopped_numbers ⟨rfl, rfl, rfl⟩ fun he hn hf => ?_
    · show s.started + 1 + s.ended + s.openStreams.length + 0 =
        s.started + s.ended + (s.openStreams ++ [s.opened.length]).length + 0
      rw [List.length_append, List.length_singleton]
      omega
    · rcases h.exhausted_cases he with hstopped | hnone
      · exact .inl hstopped
      · rw [hstreams] at hnone
        cases hnone
    · exact .inr (.inr ⟨he, hn, hf, Nat.add_le_add_right (Nat.le_succ _) _, rfl⟩)
  | exhausts hstreams =>
    exact h.step hi hlocked hg rfl trivial (h.opens.same rfl rfl id) rfl (fun _ => .inr hstreams)
      h.stopped_numbers ⟨rfl, rfl, rfl⟩ fun _ _ _ => .inr (.inl rfl)
  | @drops phase held item ends orElse taken htakes hdropped =>
    obtain ⟨he, hs, hn, hc, hst, hen, hstreams, hfin, hending, rfl⟩ := htakes.shared
    have hopens : OpenOk options taken := htakes.opens h.opens rfl rfl fun _ => hn.trans hdropped
    have hrelease := release_shared taken held
    refine h.step hi hlocked hg ((release_workers taken held).trans htakes.locks.2.2.2.2.2) trivial
      (hopens.release held) ?_ ?_ ?_ ?_ ?_
    · rw [hrelease.2.2.2.2.2.2.1, hrelease.2.2.2.2.2.2.2.1, hrelease.2.2.2.2.2.1, hst, hen,
        htakes.opened.1, hending]
      rfl
    · exact fun _ => .inl (hrelease.2.2.1.trans (hn.trans hdropped))
    · exact fun _ => hrelease.2.2.1.trans (hn.trans hdropped)
    · exact hc.release held
    · intro _ hn' _
      rw [hrelease.2.2.1, hn, hdropped] at hn'
      cases hn'
  | @numbers phase held item orElse taken htakes hfree hrunning =>
    obtain ⟨he, hs, hn, hc, hst, hen, hstreams, hfin, hending, -⟩ := htakes.shared
    have hopens : OpenOk options { taken with next := s.next + 1 } :=
      htakes.opens h.opens rfl rfl fun hends => hn.trans (hends.resolve_left Bool.false_ne_true)
    have hrelease := release_shared { taken with next := s.next + 1 } held
    refine h.step hi hlocked hg ((release_workers _ held).trans htakes.locks.2.2.2.2.2) trivial
      (hopens.release held) ?_ ?_ ?_ ?_ ?_
    · rw [hrelease.2.2.2.2.2.2.1, hrelease.2.2.2.2.2.2.2.1, hrelease.2.2.2.2.2.1, hending]
      show taken.started + _ + _ + _ = _ + taken.ended + taken.openStreams.length + _
      rw [hst, hen, htakes.opened.1]
      rfl
    · intro hexhausted
      rw [hrelease.1] at hexhausted
      rw [hrelease.2.2.1, hrelease.2.2.2.2.1]
      rcases h.exhausted_cases (he.symm.trans hexhausted) with hstopped | hnone
      · exact .inl (hn.trans hstopped)
      · exact .inr (hstreams hnone)
    · intro hstopped
      rw [hrelease.2.1] at hstopped
      exact hrelease.2.2.1.trans (hn.trans (h.stopped_numbers (hs.symm.trans hstopped)))
    · apply SameConsumer.release
      exact ⟨hc.cancelled, hc.receiver, hc.consumer⟩
    · intro he' hn' hf'
      rw [hrelease.1] at he'
      rw [hrelease.2.2.2.2.2.2.2.2] at hf'
      rw [hrelease.2.2.2.2.2.2.1, hrelease.2.2.2.2.2.2.2.1]
      rcases hfin with ⟨hsame, hphase⟩ | hfinished
      · refine .inr (.inr ⟨he.symm.trans he', hrunning, hsame.symm.trans hf', ?_, hphase⟩)
        show s.started + taken.ended ≤ taken.started + s.ended
        omega
      · rw [hfinished] at hf'
        cases hf'
  | @ends phase held item orElse taken htakes hfree hrunning =>
    obtain ⟨he, hs, hn, hc, hst, hen, hstreams, hfin, hending, -⟩ := htakes.shared
    refine h.step hi hlocked hg htakes.locks.2.2.2.2.2 rfl (htakes.opens h.opens rfl rfl fun _ => rfl)
      ?_ (fun _ => .inl rfl) (fun _ => rfl) ?_ nofun
    · show taken.started + _ + _ + _ = _ + taken.ended + taken.openStreams.length + _
      rw [hst, hen, htakes.opened.1, hending]
      rfl
    · exact ⟨hc.cancelled, hc.receiver, hc.consumer⟩
  | stores =>
    exact h.step hi hlocked hg rfl ⟨hsees, rfl⟩ (h.opens.same rfl rfl id) rfl h.exhausted_cases (fun _ => hsees)
      ⟨rfl, rfl, rfl⟩ fun he hn hf => keeps he hn hf rfl
  | @storesExhausted held seq item =>
    have hopens : OpenOk options { s with exhausted := true, numbersLock := none } :=
      h.opens.same rfl rfl id
    have hrelease := release_shared { s with exhausted := true, numbersLock := none } held
    refine h.step hi hlocked hg (release_workers _ held) trivial (hopens.release held) ?_ ?_ ?_ ?_ ?_
    · rw [hrelease.2.2.2.2.2.2.1, hrelease.2.2.2.2.2.2.2.1, hrelease.2.2.2.2.2.1]
      rfl
    · exact fun _ => .inl (hrelease.2.2.1.trans hsees.1)
    · exact fun _ => hrelease.2.2.1.trans hsees.1
    · apply SameConsumer.release
      exact ⟨rfl, rfl, rfl⟩
    · intro _ hn' _
      have hn'' : s.numbersStopped = false := hrelease.2.2.1.symm.trans hn'
      rw [hsees.1] at hn''
      cases hn''

theorem Input.fails (h : Input options s) (hi : s.workers[i]? = some phase)
    (hcalls : phase = .helping ∨ ∃ head, phase = .helpingHeld head) {panic : Panic}
    (hfails : Fails s i panic added t) : Input options t := by
  have hlocked := h.locked.fails hi hcalls hfails
  have hkinds : phase.isEnding = false ∧ phase.finishes = false := by
    rcases hcalls with rfl | ⟨_, rfl⟩ <;> exact ⟨rfl, rfl⟩
  cases hfails with
  | drops hstopped =>
    refine h.step hi hlocked ⟨id, id, id, id, id, fun _ => id, .inl ⟨rfl, rfl, rfl, Nat.le_refl _⟩⟩
      rfl (.inl hstopped) h.opens (by rw [hkinds.1]; rfl) h.exhausted_cases h.stopped_numbers
      ⟨rfl, rfl, rfl⟩ fun _ hn _ => ?_
    rw [hstopped] at hn
    cases hn
  | ends hfree hrunning =>
    exact h.step hi hlocked ⟨id, id, fun _ => rfl, id, id, fun _ => id,
      .inl ⟨rfl, rfl, rfl, Nat.le_refl _⟩⟩ rfl rfl (h.opens.same rfl rfl fun _ => rfl)
      (by rw [hkinds.1]; rfl) (fun _ => .inl rfl) (fun _ => rfl) ⟨rfl, rfl, rfl⟩ nofun

theorem countP_wakeAll (workers : List (Phase Item Panic)) (p : Phase Item Panic → Bool)
    (hp : p .waiting = p .ticket) : (wakeAll workers).countP p = workers.countP p := by
  unfold wakeAll
  rw [List.countP_map]
  congr 1
  funext phase
  cases phase <;> first | rfl | exact hp.symm

/-- A step that leaves the input and the workers as they are. -/
theorem Input.same (h : Input options s) (hlocked : Locked t) (hworkers : t.workers = s.workers)
    (hopen : t.openStreams = s.openStreams) (hopened : t.opened = s.opened)
    (hstarted : t.started = s.started) (hended : t.ended = s.ended)
    (hstreams : t.streams = s.streams) (he : t.exhausted = s.exhausted)
    (hs : t.stopped = s.stopped) (hn : t.numbersStopped = s.numbersStopped)
    (hf : t.finished = s.finished) (hc : s.cancelled = true → t.cancelled = true)
    (hcancelled : t.cancelled = t.consumer.cancels)
    (hreceiver : t.receiver = !t.consumer.isGone) : Input options t := by
  have hg : Guarantee s.workers.length s t := ⟨fun h => he.trans h, fun h => hs.trans h,
    fun h => hn.trans h, hc, fun h => (congrArg Streams.streams hstreams).trans h,
    fun _ h => hopen.trans h, .inl ⟨hstarted, hended, hf, Nat.le_of_eq (by rw [hopen])⟩⟩
  refine ⟨hlocked, fun j phase hj => ?_, h.opens.same hopen hopened fun hs => hn.trans hs, ?_, ?_,
    ?_, hcancelled, hreceiver, ?_⟩
  · rw [hworkers] at hj
    have hlt := (List.getElem?_eq_some_iff.1 hj).1
    exact (h.sees j phase hj).keep hg (h.locked.owns j phase hj) (by omega)
  · rw [hworkers, hopen, hstarted, hended]
    exact h.count
  · rw [he, hn, hstreams]
    exact h.exhausted_cases
  · rw [hs, hn]
    exact h.stopped_numbers
  · rw [he, hn, hf, hworkers, hstarted, hended]
    exact h.finisher

theorem Input.consumes (h : Input options s) (hconsumes : ConsumerDoes options s t) :
    Input options t := by
  have hlocked := h.locked.consumes hconsumes
  have hcancelled := h.cancelled_eq
  have hreceiver := h.receiver_eq
  cases hconsumes with
  | cancels hconsumer =>
    rw [hconsumer] at hreceiver
    refine ⟨hlocked, fun j phase hj => ?_, h.opens.same rfl rfl id, ?_, h.exhausted_cases,
      h.stopped_numbers, rfl, hreceiver, ?_⟩
    · have hg : Guarantee s.workers.length s { s with cancelled := true } :=
        ⟨id, id, id, fun _ => rfl, id, fun _ => id, .inl ⟨rfl, rfl, rfl, Nat.le_refl _⟩⟩
      rcases wakeAll_get hj with hj' | ⟨hj', rfl⟩
      · have hlt := (List.getElem?_eq_some_iff.1 hj').1
        have := (h.sees j phase hj').keep hg (h.locked.owns j phase hj') (by omega)
        cases phase <;> exact this
      · exact trivial
    · show s.started = s.ended + s.openStreams.length + (wakeAll s.workers).countP _
      rw [countP_wakeAll s.workers _ rfl]
      exact h.count
    · show _ → _ → _ → _ ∨ 0 < (wakeAll s.workers).countP _
      rw [countP_wakeAll s.workers _ rfl]
      exact h.finisher
  | closes hconsumer =>
    rw [hconsumer] at hcancelled
    exact h.same hlocked rfl rfl rfl rfl rfl rfl rfl rfl rfl rfl id hcancelled rfl
  | starts hconsumer | finds hconsumer | misses hconsumer | receives hconsumer
  | receivesAny hconsumer | ends hconsumer | returns hconsumer | yields hconsumer
  | drops hconsumer =>
    rw [hconsumer] at hcancelled hreceiver
    exact h.same hlocked rfl rfl rfl rfl rfl rfl rfl rfl rfl rfl id hcancelled hreceiver

theorem input_new (input : Streams Item Panic) :
    Input options (new options input : Pool Item Result Panic) where
  locked := locked_new input
  sees i phase hi := by
    have hphase : phase = .ticket := List.eq_of_mem_replicate (List.mem_of_getElem? hi)
    rw [hphase]
    exact trivial
  opens := ⟨nofun, .nil, Nat.zero_le _, fun _ _ hk => (nomatch hk), fun _ _ hk => (nomatch hk)⟩
  count := by simp [new, Phase.isEnding, List.countP_replicate]
  exhausted_cases := nofun
  stopped_numbers := nofun
  cancelled_eq := rfl
  receiver_eq := rfl
  finisher := nofun

end

end Pool

end Parallel

end Xeibe

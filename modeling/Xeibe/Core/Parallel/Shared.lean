import Xeibe.Core.Parallel.Gathered

/-!
# Streams that share a state

What the streams of an input give may depend on a state that they share, so on
the calls made before.  Where at most one stream is open at a time the calls
come in the order of the streams, whichever workers make them: a fold of such
an input does what it would do if all that the streams give were known at the
start (`shared_run`).
-/

namespace Xeibe

namespace Parallel

open Lib (run)

/-- An input by its calls: `next_stream`, and `next` of the stream that was
opened as the `k`th.  Its `finish` is the default one. -/
structure Calls (State Item Panic : Type) where
  nextStream : State → Option (Except Panic Unit) × State
  next : Nat → State → Option (Except Panic Item) × State

section

variable {State Item Panic : Type} (calls : Calls State Item Panic)

/-- The stream opened as the `k`th gives `items`, one call after the other. -/
inductive Gives (k : Nat) : State → List (Except Panic Item) → State → Prop where
  | done {s s' : State} (h : calls.next k s = (none, s')) : Gives k s [] s'
  | item {s s' s'' : State} {x : Except Panic Item} {xs : List (Except Panic Item)}
      (h : calls.next k s = (some x, s')) (rest : Gives k s' xs s'') : Gives k s (x :: xs) s''

/-- The streams from the `k`th on, each asked until its end before the next is
opened, and the state once there are no more. -/
inductive Opens : Nat → State → List (Except Panic (List (Except Panic Item))) → State → Prop where
  | done {k : Nat} {s : State} (h : calls.nextStream s = (none, s)) : Opens k s [] s
  | stream {k : Nat} {s s' s'' final : State} {items : List (Except Panic Item)}
      {streams : List (Except Panic (List (Except Panic Item)))}
      (h : calls.nextStream s = (some (.ok ()), s')) (gives : Gives calls k s' items s'')
      (rest : Opens (k + 1) s'' streams final) : Opens k s (.ok items :: streams) final
  | panic {k : Nat} {s s' final : State} {panic : Panic}
      {streams : List (Except Panic (List (Except Panic Item)))}
      (h : calls.nextStream s = (some (.error panic), s')) (rest : Opens k s' streams final) :
      Opens k s (.error panic :: streams) final

end

/-! ## Folds -/

/-- A stream without what it has still to give. -/
def OpenStream.erase {Item Panic : Type} (stream : OpenStream Item Panic) :
    OpenStream Item Panic :=
  { stream with rest := [] }

/-- A pool without what the streams have still to give. -/
def Pool.erase {Item Result Panic : Type} (s : Pool Item Result Panic) :
    Pool Item Result Panic :=
  { s with
    streams := { s.streams with streams := [] }
    opened := s.opened.map OpenStream.erase }

def Fold.erase {Item Acc Panic : Type} (s : Fold Item Acc Panic) : Fold Item Acc Panic :=
  { s with pool := s.pool.erase }

/-- A fold of an input whose streams share a state.  Of what the streams give the
pool holds only the answer to the call that is made in a step. -/
structure SharedFold (State Item Acc Panic : Type) where
  fold : Fold Item Acc Panic
  state : State

namespace SharedFold

section

variable {State Item Acc Panic : Type} (calls : Calls State Item Panic) (options : MapOptions)
  (endsInput : Item → Bool) (init : Acc) (step : Acc → Item → Except Panic (Acc × Bool))

def new (state : State) : SharedFold State Item Acc Panic where
  fold := Fold.new options init ⟨[], none⟩
  state := state

/-- The call that a worker at `phase` makes in its next step, if it makes one. -/
def ask (s : SharedFold State Item Acc Panic) :
    Phase Item Panic → SharedFold State Item Acc Panic
  | .pulling k =>
    if s.fold.pool.opened[k]?.any fun stream => !stream.done then
      let (answer, state) := calls.next k s.state
      { fold := { s.fold with
          pool := s.fold.pool.modifyStream k fun stream => { stream with rest := answer.toList } }
        state }
    else s
  | .openingNext =>
    let (answer, state) := calls.nextStream s.state
    let streams := (answer.map fun opened => opened.map fun () => []).toList
    { fold := { s.fold with
        pool := { s.fold.pool with streams := { s.fold.pool.streams with streams } } }
      state }
  | _ => s

/-- A step that has to wait for a lock is not made, and its call neither. -/
def next (s : SharedFold State Item Acc Panic) :
    FoldEvent Panic → Option (SharedFold State Item Acc Panic)
  | .work i =>
    s.fold.pool.workers[i]?.bind fun phase =>
      let asked := s.ask calls phase
      (asked.fold.work options endsInput step i phase).map fun fold =>
        { fold := fold.erase, state := asked.state }
  | .help i answer =>
    (s.fold.next options endsInput step (.help i answer)).map fun fold => { s with fold }

end

end SharedFold

/-! ## Erasing -/

namespace Pool

section

variable {Item Result Panic : Type} {options : MapOptions} {job : Job Item Result Panic}
  {p q : Pool Item Result Panic} {i k : Nat} {phase : Phase Item Panic}

theorem opened_erase (p : Pool Item Result Panic) (k : Nat) :
    p.erase.opened[k]? = p.opened[k]?.map OpenStream.erase :=
  List.getElem?_map

theorem erase_modify (p : Pool Item Result Panic) (k : Nat)
    {f g : OpenStream Item Panic → OpenStream Item Panic}
    (h : ∀ stream, (f stream).erase = g stream.erase) :
    (p.modifyStream k f).erase = p.erase.modifyStream k g := by
  have hopened : (p.opened.modify k f).map OpenStream.erase =
      (p.opened.map OpenStream.erase).modify k g := by
    refine List.ext_getElem? fun j => ?_
    rw [List.getElem?_map, List.getElem?_modify, List.getElem?_modify, List.getElem?_map]
    cases p.opened[j]? with
    | none => rfl
    | some stream =>
      show some (if k = j then f stream else stream).erase =
        some (if k = j then g stream.erase else stream.erase)
      split
      · rw [h]
      · rfl
  unfold modifyStream erase
  rw [hopened]

theorem erase_modify_rest (p : Pool Item Result Panic) (k : Nat)
    {f : OpenStream Item Panic → OpenStream Item Panic}
    (h : ∀ stream, (f stream).erase = stream.erase := by intro _; rfl) :
    (p.modifyStream k f).erase = p.erase := by
  have hid : p.erase.modifyStream k id = p.erase := by
    unfold modifyStream
    rw [List.modify_id]
  rw [erase_modify p k (g := id) h, hid]

theorem erase_release (p : Pool Item Result Panic) (held : Held) :
    (p.release held).erase = p.erase.release held := by
  cases held with
  | stream k => exact erase_modify p k fun _ => rfl
  | list => rfl
  | none => rfl

theorem erase_erase (p : Pool Item Result Panic) : p.erase.erase = p.erase := by
  unfold erase
  rw [List.map_map]
  rfl

/-- Numbering is about none of what the streams have still to give. -/
theorem erase_number (p : Pool Item Result Panic) (i : Nat) (held : Held)
    (item : Except Panic Item) (ends : Bool) (orElse : Phase Item Panic) :
    (p.number i held item ends orElse).map erase = p.erase.number i held item ends orElse := by
  unfold number
  show Option.map erase (if p.numbersLock.isSome = true then none else
    if p.numbersStopped = true then some ((p.release held).setPhase i orElse) else _) =
    if p.numbersLock.isSome = true then none else
    if p.numbersStopped = true then some ((p.erase.release held).setPhase i orElse) else _
  split
  · rfl
  · split
    · rw [← erase_release]
      rfl
    · split
      · rfl
      · have hnext : { p.erase with next := p.next + 1 } =
            ({ p with next := p.next + 1 } : Pool Item Result Panic).erase := rfl
        show _ = some (({ p.erase with next := p.next + 1 }.release held).setPhase i _)
        rw [hnext, ← erase_release]
        rfl

theorem erase_lockStream (p : Pool Item Result Panic) (i k : Nat)
    {orElse orElse' : Option (Pool Item Result Panic)} (h : orElse.map erase = orElse') :
    (p.lockStream i k orElse).map erase = p.erase.lockStream i k orElse' := by
  unfold lockStream
  rw [opened_erase]
  cases p.opened[k]? with
  | none => rfl
  | some stream =>
    show Option.map erase (if stream.lock.isSome = true then orElse else _) =
      if stream.lock.isSome = true then orElse' else _
    split
    · exact h
    · refine congrArg some ?_
      show ((p.modifyStream k _).erase).setPhase i _ = _
      rw [erase_modify p k (g := fun stream => { stream with lock := some i }) fun _ => rfl]

theorem erase_lockList (p : Pool Item Result Panic) (i : Nat) (phase : Phase Item Panic) :
    (p.lockList i phase).map erase = p.erase.lockList i phase := by
  dsimp only [lockList, erase]
  split <;> rfl

theorem erase_finishLast (p : Pool Item Result Panic) (i : Nat) :
    (p.finishLast i).map erase = p.erase.finishLast i := by
  cases hlast : p.streams.last with
  | none =>
    have herased : p.erase.streams.last = none := hlast
    simp only [finishLast, hlast, herased]
    rfl
  | some last =>
    have herased : p.erase.streams.last = some last := hlast
    simp only [finishLast, hlast, herased]
    exact erase_number { p with finished := true } i .list last false .checkStopped

/-- `pull`, by what the stream answers. -/
def pullAnswer (job : Job Item Result Panic) (p : Pool Item Result Panic) (i k : Nat) (done : Bool)
    (answer : Option (Except Panic Item)) : Option (Pool Item Result Panic) :=
  if done then some ((p.release (.stream k)).setPhase i .checkStopped)
  else match answer with
    | some (.ok item) =>
      (p.modifyStream k fun stream =>
        { stream with done := job.endsInput item && !p.numbersStopped }).number i
        (.stream k) (.ok item) (job.endsInput item) .checkStopped
    | some (.error panic) =>
      (p.modifyStream k fun stream => { stream with done := true }).number i
        (.stream k) (.error panic) true .checkStopped
    | none =>
      some (({ p.modifyStream k fun stream => { stream with done := true } with
        openStreams := p.openStreams.filter (· != k) }.release (.stream k)).setPhase i .ending)

theorem erase_pull {stream : OpenStream Item Panic} (hk : p.opened[k]? = some stream) :
    (p.pull job i k).map erase = p.erase.pullAnswer job i k stream.done stream.rest.head? := by
  unfold pull pullAnswer
  rw [hk]
  dsimp only
  cases stream.done with
  | true =>
    rw [if_pos rfl, if_pos rfl, ← erase_release]
    rfl
  | false =>
    rw [if_neg Bool.false_ne_true, if_neg Bool.false_ne_true]
    cases stream.rest with
    | nil =>
      have hclosed : ({ p.modifyStream k fun stream => { stream with done := true } with
            openStreams := p.openStreams.filter (· != k) } : Pool Item Result Panic).erase =
          { p.erase.modifyStream k fun stream => { stream with done := true } with
            openStreams := p.openStreams.filter (· != k) } := by
        rw [← erase_modify p k (f := fun stream => { stream with done := true }) fun _ => rfl]
        rfl
      show some ((Pool.release _ (.stream k)).erase.setPhase i .ending) = _
      rw [erase_release, hclosed]
      rfl
    | cons item rest =>
      cases item with
      | ok item =>
        show Option.map erase (Pool.number _ _ _ _ _ _) = _
        rw [erase_number, erase_modify p k (g := fun stream =>
          { stream with done := job.endsInput item && !p.numbersStopped }) fun _ => rfl]
        rfl
      | error panic =>
        show Option.map erase (Pool.number _ _ _ _ _ _) = _
        rw [erase_number,
          erase_modify p k (g := fun stream => { stream with done := true }) fun _ => rfl]
        rfl

/-- `open_next`, by what `next_stream` answers. -/
def openAnswer (p : Pool Item Result Panic) (i : Nat) (answer : Option (Except Panic Unit)) :
    Option (Pool Item Result Panic) :=
  match answer with
  | none => some ({ p with exhausted := true }.setPhase i .finishing)
  | some (.ok ()) =>
    some (({ p with
      started := p.started + 1
      opened := p.opened ++ [OpenStream.mk [] false none]
      openStreams := p.openStreams ++ [p.opened.length] }.release .list).setPhase i .checkStopped)
  | some (.error panic) => p.number i .list (.error panic) true .checkStopped

/-- What the calls of `next_stream` answer first. -/
def firstStream (p : Pool Item Result Panic) : Option (Except Panic Unit) :=
  p.streams.streams.head?.map fun opened => opened.map fun _ => ()

theorem erase_openNext (p : Pool Item Result Panic) (i : Nat) :
    (p.openNext i).map erase = p.erase.openAnswer i p.firstStream := by
  unfold openNext openAnswer firstStream
  cases p.streams.streams with
  | nil => rfl
  | cons first streams =>
    cases first with
    | error panic =>
      exact erase_number { p with streams := { p.streams with streams } } i .list (.error panic) true
        .checkStopped
    | ok rest =>
      show some (erase _) = some _
      unfold erase
      dsimp only [setPhase, release, setListLock]
      rw [List.map_append, List.length_map]
      rfl

end

end Pool

/-- Whether a worker's next step may call a stream, or the streams. -/
def Phase.asks {Item Panic : Type} : Phase Item Panic → Bool
  | .pulling _ | .openingNext => true
  | _ => false

namespace Pool

section

variable {Item Result Panic : Type} {options : MapOptions} {job : Job Item Result Panic}
  {p q : Pool Item Result Panic} {i k : Nat} {phase : Phase Item Panic}

theorem erase_work (hphase : phase.asks = false) :
    (p.work options job i phase).map erase = p.erase.work options job i phase := by
  cases phase with
  | pulling k => cases hphase
  | openingNext => cases hphase
  | trying exhausted open_ k left =>
    refine erase_lockStream p i k ?_
    cases left <;> rfl
  | blocked head => exact erase_lockStream p i head rfl
  | finishingLast => exact erase_finishLast p i
  | ticket =>
    dsimp only [work, takeTicket, erase]
    repeat' split
    all_goals rfl
  | listOpen exhausted =>
    dsimp only [work, erase]
    split <;> rfl
  | ending => exact erase_lockList { p with ended := p.ended + 1 } i .finishing
  | opening => exact erase_lockList p i .openingExhausted
  | exhausting held seq item =>
    refine congrArg some ?_
    show (Pool.release _ held).erase.setPhase i _ = _
    rw [erase_release]
    rfl
  | finishing =>
    dsimp only [work, erase]
    split <;> rfl
  | finishingStopped =>
    dsimp only [work, erase]
    split <;> rfl
  | openingExhausted =>
    dsimp only [work, erase]
    split <;> rfl
  | openingRoom =>
    dsimp only [work, erase]
    split <;> rfl
  | mapping seq item =>
    dsimp only [work, erase]
    split <;> rfl
  | _ => rfl

theorem erase_help {answer : Except Panic Bool} :
    (p.help i answer phase).map erase = p.erase.help i answer phase := by
  cases phase with
  | helping =>
    cases answer with
    | ok more => cases more <;> rfl
    | error panic => exact erase_number p i .none (.error panic) true .leaving
  | helpingHeld head =>
    cases answer with
    | ok more => cases more <;> rfl
    | error panic => exact erase_number p i .none (.error panic) true .leaving
  | _ => rfl

end

/-! ## What the streams have still to give -/

section

variable {State Item Result Panic : Type} {calls : Calls State Item Panic} {options : MapOptions}
  {job : Job Item Result Panic} {final state : State} {p q : Pool Item Result Panic} {i : Nat}
  {phase : Phase Item Panic} {added : List (Except Panic Item)}

/-- From `state` on the streams give what the pool knows beforehand, up to
`final`. -/
structure Ahead (calls : Calls State Item Panic) (final state : State) (p : Pool Item Result Panic) :
    Prop where
  between : p.openStreams = [] → Opens calls p.opened.length state p.streams.streams final
  inside : ∀ k, p.openStreams = [k] → ∃ stream state', p.opened[k]? = some stream ∧
    Gives calls k state stream.rest state' ∧ Opens calls p.opened.length state' p.streams.streams final

theorem Ahead.keep (h : Ahead calls final state p) (hstreams : q.streams.streams = p.streams.streams)
    (hopen : q.openStreams = p.openStreams)
    (hrest : ∀ k : Nat, q.opened[k]?.map OpenStream.rest = p.opened[k]?.map OpenStream.rest) :
    Ahead calls final state q := by
  have hsame : SameTaken p { q with
      streams := p.streams
      numbersStopped := p.numbersStopped
      finished := p.finished } := ⟨rfl, rfl, rfl, hopen, hrest⟩
  have hlength : q.opened.length = p.opened.length := hsame.length
  constructor
  · rw [hopen, hlength, hstreams]
    exact h.between
  · intro k hk
    rw [hopen] at hk
    obtain ⟨stream, state', hget, hgives, hopens⟩ := h.inside k hk
    have hrest := hrest k
    rw [hget] at hrest
    obtain ⟨stream', hget', heq⟩ := Option.map_eq_some_iff.1 hrest
    rw [hlength, hstreams]
    exact ⟨stream', state', hget', heq ▸ hgives, hopens⟩

theorem Ahead.release (h : Ahead calls final state p) (held : Held) :
    Ahead calls final state (p.release held) := by
  have hsame := SameTaken.release (.refl p) held
  exact h.keep (congrArg Streams.streams hsame.streams) hsame.openStreams hsame.rest

/-- The state after the call that a worker at `phase` makes in its next step. -/
def after (calls : Calls State Item Panic) (state : State) (p : Pool Item Result Panic) :
    Phase Item Panic → State
  | .pulling k =>
    if p.opened[k]?.any fun stream => !stream.done then (calls.next k state).2 else state
  | .openingNext => (calls.nextStream state).2
  | _ => state

/-- At most one stream is open. -/
structure OneOpen (p : Pool Item Result Panic) : Prop where
  /-- It is the one that a worker pulls from. -/
  pulled : ∀ (k : Nat) (stream : OpenStream Item Panic), p.opened[k]? = some stream →
    stream.done = false → p.openStreams = [k]
  /-- It has ended when the next is opened. -/
  opening : ∀ i : Nat, p.workers[i]? = some .openingNext → p.openStreams = []

theorem Input.oneOpen {consumer : Consumer Result Panic}
    {delivered : List (Nat × Except Panic Result)} (h : Input options (p.view consumer delivered))
    (hone : maxOpen options = 1) : OneOpen p where
  pulled k stream hk running := by
    have hmem : k ∈ p.openStreams := h.opens.mem_open hk running
    have hle : p.openStreams.length ≤ maxOpen options := h.opens.le
    rw [hone] at hle
    obtain ⟨k', hk'⟩ :=
      List.length_eq_one_iff.1 (Nat.le_antisymm hle (List.length_pos_of_mem hmem))
    rw [hk', List.mem_singleton] at hmem
    rw [hk', hmem]
  opening i hi := by
    have hroom : p.openStreams.length < maxOpen options := h.sees i .openingNext hi
    rw [hone] at hroom
    exact List.length_eq_zero_iff.1 (by omega)

theorem after_running {k : Nat} {stream : OpenStream Item Panic}
    (hk : p.opened[k]? = some stream) (running : stream.done = false) :
    after calls state p (.pulling k) = (calls.next k state).2 := by
  have hany : (p.opened[k]?.any fun stream => !stream.done) = true := by
    rw [hk, Option.any_some, running]
    rfl
  exact if_pos hany

theorem Ahead.pulls (h : Ahead calls final state p) (hone : OneOpen p) {k : Nat} {stream : OpenStream Item Panic}
    (hk : p.opened[k]? = some stream) (running : stream.done = false) :
    ∃ state', Gives calls k state stream.rest state' ∧
      Opens calls p.opened.length state' p.streams.streams final := by
  obtain ⟨stream', state', hget, hgives, hopens⟩ :=
    h.inside k (hone.pulled k stream hk running)
  rw [hk] at hget
  cases hget
  exact ⟨state', hgives, hopens⟩

/-- A stream after its next item. -/
theorem Ahead.item (h : Ahead calls final state p) (hone : OneOpen p) {k : Nat} {stream : OpenStream Item Panic}
    (hk : p.opened[k]? = some stream) (running : stream.done = false) {x : Except Panic Item}
    {rest : List (Except Panic Item)} (hrest : stream.rest = x :: rest) (done : Bool) :
    Ahead calls final (after calls state p (.pulling k))
      (p.modifyStream k fun stream => { stream with rest, done }) := by
  obtain ⟨state', hgives, hopens⟩ := h.pulls hone hk running
  have hlength : (p.modifyStream k fun stream => { stream with rest, done }).opened.length =
      p.opened.length := List.length_modify _ _ _
  have honly := hone.pulled k stream hk running
  rw [hrest] at hgives
  rw [after_running hk running]
  cases hgives with
  | item hnext hgives =>
    rw [hnext]
    refine ⟨fun hnone => ?_, fun k' hk' => ?_⟩
    · have hnone' : p.openStreams = [] := hnone
      rw [honly] at hnone'
      cases hnone'
    · have hk'' : p.openStreams = [k'] := hk'
      rw [honly] at hk''
      cases hk''
      refine ⟨{ stream with rest, done }, state', ?_, hgives, ?_⟩
      · rw [opened_modify, if_pos rfl, hk]
        rfl
      · rw [hlength]
        exact hopens

theorem Ahead.takes {t : Pool Item Result Panic} {held : Held} {item : Except Panic Item}
    {ends : Bool} {orElse : Phase Item Panic} (h : Ahead calls final state p)
    (hone : OneOpen p) (hi : p.workers[i]? = some phase)
    (htakes : Takes job p phase held item ends orElse t) :
    Ahead calls final (after calls state p phase) t := by
  cases htakes with
  | item hk running hrest => exact h.item hone hk running hrest _
  | panicked hk running hrest => exact h.item hone hk running hrest _
  | @failed panic streams hstreams =>
    have hopens := h.between (hone.opening i hi)
    rw [hstreams] at hopens
    show Ahead calls final (calls.nextStream state).2 _
    cases hopens with
    | panic hnext hopens =>
      rw [hnext]
      refine ⟨fun _ => hopens, fun k hk => ?_⟩
      have hk' : p.openStreams = [k] := hk
      rw [hone.opening i hi] at hk'
      cases hk'
  | last => exact h.keep rfl rfl fun _ => rfl

theorem Ahead.closes (h : Ahead calls final state p) (hone : OneOpen p) {k : Nat} {stream : OpenStream Item Panic}
    (hk : p.opened[k]? = some stream) (running : stream.done = false) (hrest : stream.rest = []) :
    Ahead calls final (after calls state p (.pulling k))
      { p.modifyStream k fun stream => { stream with done := true } with
        openStreams := p.openStreams.filter (· != k) } := by
  obtain ⟨state', hgives, hopens⟩ := h.pulls hone hk running
  have hlength : (p.modifyStream k fun stream => { stream with done := true }).opened.length =
      p.opened.length := List.length_modify _ _ _
  have hnone : p.openStreams.filter (· != k) = [] := by
    rw [hone.pulled k stream hk running]
    simp
  rw [hrest] at hgives
  rw [after_running hk running]
  cases hgives with
  | done hnext =>
    rw [hnext]
    refine ⟨fun _ => ?_, fun k' hk' => ?_⟩
    · show Opens calls (p.modifyStream k _).opened.length state' _ final
      rw [hlength]
      exact hopens
    · have hk'' : p.openStreams.filter (· != k) = [k'] := hk'
      rw [hnone] at hk''
      cases hk''

/-- A new stream, of which nothing is taken yet. -/
theorem Ahead.opens (h : Ahead calls final state p) (hone : OneOpen p) (hi : p.workers[i]? = some .openingNext)
    {rest : List (Except Panic Item)}
    {streams : List (Except Panic (List (Except Panic Item)))}
    (hstreams : p.streams.streams = .ok rest :: streams) :
    Ahead calls final (after calls state p .openingNext) { p with
      streams := { p.streams with streams }
      started := p.started + 1
      opened := p.opened ++ [OpenStream.mk rest false none]
      openStreams := p.openStreams ++ [p.opened.length] } := by
  have hopens := h.between (hone.opening i hi)
  rw [hstreams] at hopens
  show Ahead calls final (calls.nextStream state).2 _
  rw [hone.opening i hi]
  cases hopens with
  | @stream _ _ _ state' _ _ _ hnext hgives hopens =>
    rw [hnext]
    refine ⟨nofun, fun k hk => ?_⟩
    cases hk
    refine ⟨⟨rest, false, none⟩, state', List.getElem?_concat_length, hgives, ?_⟩
    show Opens calls (p.opened ++ [_]).length state' streams final
    rw [List.length_append]
    exact hopens

/-- A step keeps the pool ahead of the calls. -/
theorem Ahead.does (h : Ahead calls final state p) (hone : OneOpen p) (hi : p.workers[i]? = some phase)
    (hdoes : Does options job p i phase added q) : Ahead calls final (after calls state p phase) q := by
  have phased : ∀ {state : State} {q : Pool Item Result Panic} (phase' : Phase Item Panic),
      Ahead calls final state q → Ahead calls final state (q.setPhase i phase') :=
    fun _ hq => hq.keep rfl rfl fun _ => rfl
  cases hdoes with
  | @locksStream phase k stream hk hfree hfrom =>
    have hafter : after calls state p phase = state := by
      rcases hfrom with rfl | ⟨_, _, _, rfl⟩ <;> rfl
    rw [hafter]
    exact h.keep rfl rfl fun k' => rest_modify p k k' fun _ => rfl
  | @leavesStream k stream hk hdone =>
    have hafter : after calls state p (.pulling k) = state := by
      show (if p.opened[k]?.any _ = true then _ else state) = state
      rw [hk, Option.any_some, hdone]
      rfl
    rw [hafter]
    exact phased _ (h.release (.stream k))
  | closes hk running hrest =>
    exact phased _ ((h.closes hone hk running hrest).release _)
  | @declines phase hdeclines finished hfinished =>
    have hafter : after calls state p phase = state := by
      cases hdeclines <;> rfl
    rw [hafter]
    exact h.keep rfl rfl fun _ => rfl
  | opens hstreams => exact phased _ ((h.opens hone hi hstreams).release .list)
  | exhausts hstreams =>
    have hopens := h.between (hone.opening i hi)
    rw [hstreams] at hopens
    show Ahead calls final (calls.nextStream state).2 _
    cases hopens with
    | done hnext =>
      rw [hnext]
      exact h.keep rfl rfl fun _ => rfl
  | drops htakes hstopped => exact phased _ ((h.takes hone hi htakes).release _)
  | @numbers phase held item orElse t htakes hfree hrunning =>
    have hnext : Ahead calls final (after calls state p phase) { t with next := p.next + 1 } :=
      (h.takes hone hi htakes).keep rfl rfl fun _ => rfl
    exact phased _ (hnext.release held)
  | ends htakes hfree hrunning =>
    exact (h.takes hone hi htakes).keep rfl rfl fun _ => rfl
  | @storesExhausted held seq item =>
    have hstored : Ahead calls final state { p with exhausted := true, numbersLock := none } :=
      h.keep rfl rfl fun _ => rfl
    exact phased _ (hstored.release held)
  | _ => exact h.keep rfl rfl fun _ => rfl

end

end Pool

/-! ## The fold whose input is known -/

namespace SharedFold

open Pool

section

variable {State Item Acc Panic : Type} {calls : Calls State Item Panic} {options : MapOptions}
  {endsInput : Item → Bool} {init : Acc} {step : Acc → Item → Except Panic (Acc × Bool)}
  {final : State} {s s' : SharedFold State Item Acc Panic} {p : Fold Item Acc Panic} {i : Nat}
  {phase : Phase Item Panic} {streams : List (Except Panic (List (Except Panic Item)))}

/-- The fold `p` is where `s` is, and knows what the calls will give. -/
structure Follows (calls : Calls State Item Panic) (final : State) (s : SharedFold State Item Acc Panic)
    (p : Fold Item Acc Panic) : Prop where
  fold : s.fold = p.erase
  ahead : Ahead calls final s.state p.pool

theorem erase_work (hphase : phase.asks = false) :
    (p.work options endsInput step i phase).map Fold.erase =
      p.erase.work options endsInput step i phase := by
  have hpool : ∀ {phase : Phase Item Panic}, phase.asks = false →
      ((p.pool.work options ⟨endsInput, .ok⟩ i phase).map fun pool => { p with pool }).map
        Fold.erase =
      (p.pool.erase.work options ⟨endsInput, .ok⟩ i phase).map fun pool =>
        { p.erase with pool } := by
    intro phase hphase
    rw [← Pool.erase_work hphase, Option.map_map, Option.map_map]
    rfl
  cases phase with
  | ticket => rfl
  | leaving => rfl
  | mapping seq item =>
    cases item with
    | error panic => rfl
    | ok item =>
      dsimp only [Fold.work, Fold.erase]
      cases p.accs[i]? with
      | none => rfl
      | some acc =>
        refine congrArg some ?_
        dsimp only [Fold.take]
        split <;> rfl
  | _ => exact hpool hphase

/-- Where the calls are made, a fold's step is its pool's. -/
theorem work_congr {pool pool' : Pool Item Item Panic} (hphase : phase.asks = true)
    (h : (pool.work options ⟨endsInput, .ok⟩ i phase).map Pool.erase =
      (pool'.work options ⟨endsInput, .ok⟩ i phase).map Pool.erase) :
    (Fold.work options endsInput step { p with pool } i phase).map Fold.erase =
      (Fold.work options endsInput step { p with pool := pool' } i phase).map Fold.erase := by
  have hpool : ∀ {pool : Pool Item Item Panic},
      (Fold.work options endsInput step { p with pool } i phase).map Fold.erase =
        ((pool.work options ⟨endsInput, .ok⟩ i phase).map Pool.erase).map
          fun pool => { p with pool } := by
    intro pool
    rw [Option.map_map]
    cases phase with
    | pulling k =>
      show Option.map _ (Option.map _ _) = _
      rw [Option.map_map]
      rfl
    | openingNext =>
      show Option.map _ (Option.map _ _) = _
      rw [Option.map_map]
      rfl
    | _ => cases hphase
  rw [hpool, hpool, h]

theorem pull_answered {pool : Pool Item Item Panic} {job : Job Item Item Panic} {k : Nat}
    {stream : OpenStream Item Panic} (hk : pool.opened[k]? = some stream) :
    ((pool.erase.modifyStream k fun old =>
        { old with rest := stream.rest.head?.toList }).pull job i k).map Pool.erase =
      (pool.pull job i k).map Pool.erase := by
  have hk' : (pool.erase.modifyStream k fun old =>
      { old with rest := stream.rest.head?.toList }).opened[k]? =
        some { stream with rest := stream.rest.head?.toList } := by
    rw [opened_modify, if_pos rfl, opened_erase, hk]
    rfl
  have hsame : (pool.erase.modifyStream k fun old =>
      { old with rest := stream.rest.head?.toList }).erase = pool.erase := by
    rw [erase_modify_rest, erase_erase]
  rw [erase_pull hk', erase_pull hk, hsame]
  cases stream.rest <;> rfl

/-- The call of a stream. -/
theorem asked_stream {final state : State} {k : Nat} (h : Ahead calls final state p.pool)
    (hone : OneOpen p.pool) :
    ∃ pool : Pool Item Item Panic,
      (ask calls ⟨p.erase, state⟩ (.pulling k)).fold = { p with pool } ∧
      (pool.work options ⟨endsInput, .ok⟩ i (.pulling k)).map Pool.erase =
        (p.pool.work options ⟨endsInput, .ok⟩ i (.pulling k)).map Pool.erase ∧
      (ask calls ⟨p.erase, state⟩ (.pulling k)).state = after calls state p.pool (.pulling k) := by
  have hopened := opened_erase p.pool k
  unfold ask after
  show ∃ pool : Pool Item Item Panic,
    (if p.pool.erase.opened[k]?.any _ = true then _ else _ : SharedFold State Item Acc Panic).fold =
      { p with pool } ∧ (pool.pull _ i k).map Pool.erase = (p.pool.pull _ i k).map Pool.erase ∧
    (if p.pool.erase.opened[k]?.any _ = true then _ else _ : SharedFold State Item Acc Panic).state =
      if p.pool.opened[k]?.any _ = true then _ else _
  cases hk : p.pool.opened[k]? with
  | none =>
    rw [hk] at hopened
    rw [hopened]
    refine ⟨p.pool.erase, rfl, ?_, rfl⟩
    unfold pull
    rw [hopened, hk]
    rfl
  | some stream =>
    rw [hk] at hopened
    rw [hopened]
    show ∃ pool : Pool Item Item Panic,
      (if (!stream.done) = true then _ else _ : SharedFold State Item Acc Panic).fold =
        { p with pool } ∧ (pool.pull _ i k).map Pool.erase = (p.pool.pull _ i k).map Pool.erase ∧
      (if (!stream.done) = true then _ else _ : SharedFold State Item Acc Panic).state =
        if (!stream.done) = true then _ else _
    cases hdone : stream.done with
    | true =>
      refine ⟨p.pool.erase, rfl, ?_, rfl⟩
      rw [erase_pull hk, erase_pull hopened, erase_erase]
      show pullAnswer _ _ _ _ stream.done _ = _
      rw [hdone]
      rfl
    | false =>
      obtain ⟨state', hgives, -⟩ := h.pulls hone hk hdone
      have hanswer : (calls.next k state).1 = stream.rest.head? := by
        cases hrest : stream.rest with
        | nil =>
          rw [hrest] at hgives
          cases hgives with
          | done hnext => rw [hnext]; rfl
        | cons x rest =>
          rw [hrest] at hgives
          cases hgives with
          | item hnext hgives => rw [hnext]; rfl
      refine ⟨_, rfl, ?_, rfl⟩
      rw [hanswer]
      exact pull_answered hk

/-- The call of the streams. -/
theorem asked_streams {final state : State} (h : Ahead calls final state p.pool)
    (hone : OneOpen p.pool)
    (hi : p.pool.workers[i]? = some .openingNext) :
    ∃ pool : Pool Item Item Panic,
      (ask calls ⟨p.erase, state⟩ .openingNext).fold = { p with pool } ∧
      (pool.work options ⟨endsInput, .ok⟩ i .openingNext).map Pool.erase =
        (p.pool.work options ⟨endsInput, .ok⟩ i .openingNext).map Pool.erase ∧
      (ask calls ⟨p.erase, state⟩ .openingNext).state =
        after calls state p.pool .openingNext := by
  have hopens := h.between (hone.opening i hi)
  have hanswer : (calls.nextStream state).1 = p.pool.firstStream := by
    unfold firstStream
    cases hstreams : p.pool.streams.streams with
    | nil =>
      rw [hstreams] at hopens
      cases hopens with
      | done hnext => rw [hnext]; rfl
    | cons first rest =>
      rw [hstreams] at hopens
      cases hopens with
      | stream hnext hgives hopens => rw [hnext]; rfl
      | panic hnext hopens => rw [hnext]; rfl
  refine ⟨_, rfl, ?_, rfl⟩
  rw [hanswer]
  show Option.map Pool.erase (Pool.openNext _ i) = Option.map Pool.erase (p.pool.openNext i)
  rw [erase_openNext, erase_openNext]
  have hfirst : ∀ answer : Option (Except Panic Unit), (((answer.map fun opened =>
      opened.map fun () => ([] : List (Except Panic Item))).toList).head?.map fun opened =>
        opened.map fun _ => ()) = answer := by
    intro answer
    cases answer with
    | none => rfl
    | some opened => cases opened <;> rfl
  show Pool.openAnswer { p.pool.erase with opened := p.pool.erase.erase.opened } i
    (Option.map _ (List.head? _)) = _
  rw [hfirst, erase_erase]

variable (options endsInput step) in
/-- The call gives what the pool knows. -/
theorem Follows.asked (h : Follows calls final s p) (hone : OneOpen p.pool) (hi : p.pool.workers[i]? = some phase) :
    ((s.ask calls phase).fold.work options endsInput step i phase).map Fold.erase =
        (p.work options endsInput step i phase).map Fold.erase ∧
      (s.ask calls phase).state = after calls s.state p.pool phase := by
  obtain ⟨fold, state⟩ := s
  obtain ⟨rfl, hahead⟩ := h
  by_cases hasks : phase.asks = false
  · have hask : ask calls ⟨p.erase, state⟩ phase = ⟨p.erase, state⟩ ∧
        after calls state p.pool phase = state := by
      cases phase <;> first | exact ⟨rfl, rfl⟩ | cases hasks
    rw [hask.1, ← SharedFold.erase_work hasks, Option.map_map, hask.2]
    refine ⟨?_, rfl⟩
    congr 1
    funext q
    show Fold.erase (Fold.erase q) = Fold.erase q
    unfold Fold.erase
    rw [erase_erase]
  · obtain ⟨pool, hfold, hwork, hstate⟩ : ∃ pool : Pool Item Item Panic,
        (ask calls ⟨p.erase, state⟩ phase).fold = { p with pool } ∧
        (pool.work options ⟨endsInput, .ok⟩ i phase).map Pool.erase =
          (p.pool.work options ⟨endsInput, .ok⟩ i phase).map Pool.erase ∧
        (ask calls ⟨p.erase, state⟩ phase).state = after calls state p.pool phase := by
      cases phase with
      | pulling k => exact asked_stream hahead hone
      | openingNext => exact asked_streams hahead hone hi
      | _ => exact absurd rfl hasks
    rw [hfold]
    exact ⟨work_congr (Bool.not_eq_false _ ▸ hasks) hwork, hstate⟩

theorem Ahead.take {final state : State} (h : Ahead calls final state p.pool) (acc : Acc) (item : Item) :
    Ahead calls final state (p.take step i acc item).pool := by
  unfold Fold.take
  split <;> exact h.keep rfl rfl fun _ => rfl

theorem Ahead.work {final state : State} {q : Fold Item Acc Panic} (h : Ahead calls final state p.pool)
    (hone : OneOpen p.pool) (hi : p.pool.workers[i]? = some phase)
    (hwork : p.work options endsInput step i phase = some q) :
    Ahead calls final (after calls state p.pool phase) q.pool := by
  have takes : (p.pool.work options ⟨endsInput, .ok⟩ i phase).map (fun pool => { p with pool }) =
      some q → Ahead calls final (after calls state p.pool phase) q.pool := by
    intro hstep
    obtain ⟨pool, hpool, rfl⟩ := Option.map_eq_some_iff.1 hstep
    rcases work_cases hpool with ⟨phase', hgoes, -, rfl⟩ | ⟨added, hdoes⟩
    · have hafter : after calls state p.pool phase = state := by
        cases hgoes <;> rfl
      rw [hafter]
      exact h.keep rfl rfl fun _ => rfl
    · exact h.does hone hi hdoes
  cases phase with
  | ticket =>
    cases hwork
    exact h.keep rfl rfl fun _ => rfl
  | mapping seq taken =>
    cases taken with
    | error panic =>
      cases hwork
      exact h.keep rfl rfl fun _ => rfl
    | ok item =>
      obtain ⟨acc, -, rfl⟩ := Option.map_eq_some_iff.1 hwork
      exact Ahead.take h acc item
  | leaving =>
    cases hwork
    exact h.keep rfl rfl fun _ => rfl
  | _ => exact takes hwork

/-- What the fold does whose streams are asked, the one does that knows them. -/
theorem Follows.next {e : FoldEvent Panic} (h : Follows calls final s p) (hone : OneOpen p.pool)
    (hnext : s.next calls options endsInput step e = some s') :
    ∃ p', p.next options endsInput step e = some p' ∧ Follows calls final s' p' := by
  cases e with
  | work i =>
    obtain ⟨phase, hi, hwork⟩ := Option.bind_eq_some_iff.1 hnext
    rw [h.fold] at hi
    have hi : p.pool.workers[i]? = some phase := hi
    obtain ⟨fold, hfold, rfl⟩ := Option.map_eq_some_iff.1 hwork
    obtain ⟨hasked, hstate⟩ := h.asked options endsInput step hone hi
    rw [hfold] at hasked
    obtain ⟨p', hp', herase⟩ := Option.map_eq_some_iff.1 hasked.symm
    refine ⟨p', ?_, herase.symm, ?_⟩
    · show p.pool.workers[i]?.bind _ = _
      rw [hi]
      exact hp'
    · show Ahead calls final (s.ask calls phase).state p'.pool
      rw [hstate]
      exact Ahead.work h.ahead hone hi hp'
  | help i answer =>
    obtain ⟨fold, hfold, rfl⟩ := Option.map_eq_some_iff.1 hnext
    obtain ⟨phase, hi, hhelp⟩ := Option.bind_eq_some_iff.1 hfold
    rw [h.fold] at hi hhelp
    have hi : p.pool.workers[i]? = some phase := hi
    obtain ⟨pool, hpool, rfl⟩ := Option.map_eq_some_iff.1 hhelp
    have hpool : p.pool.erase.help i answer phase = some pool := hpool
    rw [← erase_help] at hpool
    obtain ⟨pool', hpool', rfl⟩ := Option.map_eq_some_iff.1 hpool
    refine ⟨{ p with pool := pool' }, ?_, rfl, ?_⟩
    · show p.pool.workers[i]?.bind _ = _
      rw [hi]
      exact Option.map_eq_some_iff.2 ⟨pool', hpool', rfl⟩
    · show Ahead calls final s.state pool'
      rcases help_cases options hpool' with rfl | ⟨phase', hgoes, -, rfl⟩ |
        ⟨panic, added, -, -, hfails⟩
      · exact h.ahead
      · exact h.ahead.keep rfl rfl fun _ => rfl
      · cases hfails <;> exact h.ahead.keep rfl rfl fun _ => rfl

/-- Every run of a fold whose streams share a state, and of which one is open at a
time, is a run of the fold of what they give in turn. -/
theorem shared_run {state : State} {events : List (FoldEvent Panic)}
    (hone : maxOpen options = 1) (hthreads : 0 < options.threads)
    (hopens : Opens calls 0 state streams final)
    (hrun : run (SharedFold.next calls options endsInput step)
      (SharedFold.new options init state) events = some s) :
    ∃ p, run (Fold.next options endsInput step) (Fold.new options init ⟨streams, none⟩) events =
      some p ∧ Follows calls final s p := by
  have runs : ∀ (events : List (FoldEvent Panic)) (s₀ s : SharedFold State Item Acc Panic)
      (p₀ : Fold Item Acc Panic), Follows calls final s₀ p₀ →
      (∃ log parts lost, Fold.Folding options endsInput init step (fun _ => True)
        ⟨streams, none⟩ log parts lost p₀) →
      run (SharedFold.next calls options endsInput step) s₀ events = some s →
      ∃ p, run (Fold.next options endsInput step) p₀ events = some p ∧
        Follows calls final s p := by
    intro events
    induction events with
    | nil =>
      intro s₀ s p₀ hfollows _ hrun
      cases hrun
      exact ⟨p₀, rfl, hfollows⟩
    | cons e events ih =>
      rintro s₀ s p₀ hfollows ⟨log, parts, lost, hfolding⟩ hrun
      obtain ⟨t, ht, hrun⟩ := Lib.run_cons hrun
      obtain ⟨consumer, hinputs⟩ := hfolding.inputs
      obtain ⟨q, hq, hfollows⟩ := hfollows.next (Input.oneOpen hinputs hone) ht
      obtain ⟨p, hp, herase⟩ := ih t s q hfollows
        (hfolding.next (fun _ _ _ => trivial) hq) hrun
      refine ⟨p, ?_, herase⟩
      show (Fold.next options endsInput step p₀ e).bind _ = some p
      rw [hq]
      exact hp
  refine runs events _ s _ ⟨rfl, ?_⟩ ⟨[], _, [], Fold.folding_new hthreads⟩ hrun
  exact ⟨fun _ => hopens, nofun⟩

/-- Without a mark, the workers have folded all that the streams give, and the shared
state is the one after the last call. -/
theorem gathers_all {state : State} {bad : Acc → Prop} {events : List (FoldEvent Panic)}
    (hone : maxOpen options = 1) (hthreads : 0 < options.threads)
    (hmarks : Fold.Marks endsInput step bad) (hopens : Opens calls 0 state streams final)
    (hrun : run (SharedFold.next calls options endsInput step)
      (SharedFold.new options init state) events = some s)
    (hended : s.fold.ended = true) (hcalm : ¬Fold.Marked bad s.fold) :
    s.state = final ∧ ∃ parts : List (List Item), s.fold.accs.length = parts.length ∧
      (∀ (i : Nat) (acc : Acc) (part : List Item), s.fold.accs[i]? = some acc →
        parts[i]? = some part → Fold.foldItems step init part = some acc) ∧
      (parts.flatten.map Except.ok).Perm (okStreams streams).flatten := by
  obtain ⟨p, hp, hfold, hahead⟩ := shared_run hone hthreads hopens hrun
  rw [hfold] at hended hcalm ⊢
  obtain ⟨parts, hlength, hfolds, hperm, hstreams, hopen⟩ :=
    Fold.gathers_all hthreads hmarks rfl hp hended hcalm
  refine ⟨?_, parts, hlength, hfolds, hperm⟩
  have hlast := hahead.between hopen
  rw [hstreams] at hlast
  cases hlast with
  | done => rfl

end

end SharedFold

/-! ## One thread -/

section

variable {State Item Acc Panic : Type} (calls : Calls State Item Panic) (endsInput : Item → Bool)
  (step : Acc → Item → Except Panic (Acc × Bool))

/-- `fold` with one thread: the stream that is asked, if one is open, how many were
opened, the state and the accumulator; what the fold comes to, and the state
then. -/
inductive Alone : Option Nat → Nat → State → Acc → Except Panic Acc → State → Prop where
  | opens {n : Nat} {s s' t : State} {acc : Acc} {result : Except Panic Acc}
      (h : calls.nextStream s = (some (.ok ()), s')) (rest : Alone (some n) (n + 1) s' acc result t) :
      Alone none n s acc result t
  | usedUp {n : Nat} {s s' : State} {acc : Acc} (h : calls.nextStream s = (none, s')) :
      Alone none n s acc (.ok acc) s'
  | fails {n : Nat} {s s' : State} {acc : Acc} {panic : Panic}
      (h : calls.nextStream s = (some (.error panic), s')) : Alone none n s acc (.error panic) s'
  | closes {k n : Nat} {s s' t : State} {acc : Acc} {result : Except Panic Acc}
      (h : calls.next k s = (none, s')) (rest : Alone none n s' acc result t) :
      Alone (some k) n s acc result t
  | panics {k n : Nat} {s s' : State} {acc : Acc} {panic : Panic}
      (h : calls.next k s = (some (.error panic), s')) :
      Alone (some k) n s acc (.error panic) s'
  | unwinds {k n : Nat} {s s' : State} {acc : Acc} {item : Item} {panic : Panic}
      (h : calls.next k s = (some (.ok item), s')) (hstep : step acc item = .error panic) :
      Alone (some k) n s acc (.error panic) s'
  | stops {k n : Nat} {s s' : State} {acc acc' : Acc} {item : Item} {breaks : Bool}
      (h : calls.next k s = (some (.ok item), s')) (hstep : step acc item = .ok (acc', breaks))
      (hstops : breaks = true ∨ endsInput item = true) : Alone (some k) n s acc (.ok acc') s'
  | item {k n : Nat} {s s' t : State} {acc acc' : Acc} {item : Item} {result : Except Panic Acc}
      (h : calls.next k s = (some (.ok item), s')) (hstep : step acc item = .ok (acc', false))
      (hgoes : endsInput item = false) (rest : Alone (some k) n s' acc' result t) :
      Alone (some k) n s acc result t

variable {calls endsInput step} {bad : Acc → Prop} {final : State}

/-- What the stream that is asked has still to give, and the streams after it. -/
def Remains (calls : Calls State Item Panic) (final : State) :
    Option Nat → Nat → State → List (List (Except Panic Item)) → Prop
  | none, n, s, items => ∃ streams, Opens calls n s streams final ∧ items = okStreams streams
  | some k, n, s, items => ∃ first streams s', Gives calls k s first s' ∧
      Opens calls n s' streams final ∧ items = first :: okStreams streams

/-- Without a mark, all that the streams give is folded in order. -/
theorem Alone.gathers_all {current : Option Nat} {n : Nat} {s t : State} {acc acc' : Acc}
    {given : List (List (Except Panic Item))} (hmarks : Fold.Marks endsInput step bad)
    (h : Alone calls endsInput step current n s acc (.ok acc') t)
    (hremains : Remains calls final current n s given) (hcalm : ¬bad acc') :
    t = final ∧ ∃ items : List Item, Fold.foldItems step acc items = some acc' ∧
      items.map Except.ok = given.flatten := by
  generalize hresult : (Except.ok acc' : Except Panic Acc) = result at h
  induction h generalizing given with
  | @opens n s s' t acc result hnext rest ih =>
    obtain ⟨streams, hopens, rfl⟩ := hremains
    cases hopens with
    | done hdone =>
      rw [hnext] at hdone
      cases hdone
    | panic hpanic =>
      rw [hnext] at hpanic
      cases hpanic
    | @stream _ _ s₁ s₂ _ first streams hstream hgives hopens =>
      rw [hnext] at hstream
      cases hstream
      exact ih ⟨first, streams, s₂, hgives, hopens, rfl⟩ hresult
  | usedUp hnext =>
    obtain ⟨streams, hopens, rfl⟩ := hremains
    cases hopens with
    | done hdone =>
      rw [hnext] at hdone
      cases hdone
      cases hresult
      exact ⟨rfl, [], rfl, rfl⟩
    | panic hpanic =>
      rw [hnext] at hpanic
      cases hpanic
    | stream hstream =>
      rw [hnext] at hstream
      cases hstream
  | fails => cases hresult
  | @closes k n s s' t acc result hnext rest ih =>
    obtain ⟨first, streams, s₁, hgives, hopens, rfl⟩ := hremains
    cases hgives with
    | item hitem =>
      rw [hnext] at hitem
      cases hitem
    | done hdone =>
      rw [hnext] at hdone
      cases hdone
      obtain ⟨hfinal, items, hfold, hitems⟩ := ih ⟨streams, hopens, rfl⟩ hresult
      exact ⟨hfinal, items, hfold, hitems⟩
  | panics => cases hresult
  | unwinds => cases hresult
  | @stops k n s s' acc acc'' item breaks hnext hstep hstops =>
    cases hresult
    rcases hstops with rfl | hends
    · exact absurd (hmarks.breaks acc item acc' hstep) hcalm
    · exact absurd (hmarks.ends acc item acc' breaks hends hstep) hcalm
  | @item k n s s' t acc acc'' item result hnext hstep hgoes rest ih =>
    obtain ⟨first, streams, s₁, hgives, hopens, rfl⟩ := hremains
    cases hgives with
    | done hdone =>
      rw [hnext] at hdone
      cases hdone
    | @item _ s₂ _ x xs hitem hgives =>
      rw [hnext] at hitem
      cases hitem
      obtain ⟨rfl, items, hfold, hitems⟩ := ih ⟨xs, streams, s₁, hgives, hopens, rfl⟩ hresult
      refine ⟨rfl, item :: items, ?_, congrArg (Except.ok item :: ·) hitems⟩
      show ((step acc item).toOption.map Prod.fst).bind _ = _
      rw [hstep]
      exact hfold

end

end Parallel

end Xeibe

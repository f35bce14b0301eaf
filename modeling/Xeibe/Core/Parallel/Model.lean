import Xeibe.Lib.Iterator
import Xeibe.Lib.System

/-!
# Worker pools

`xeibe-core/src/parallel.rs`: an input of streams, the one-thread path
(`Sequential`), and the pool of workers of a `ParallelMap`.

A step of the pool is one access that other threads can see: a lock taken, an
atomic read or written, the condition variable, the channel.  What a thread
does to data only it can reach then (the data behind a lock it holds, calls
of the input's iterators among it) is part of the next such access, and a
lock is let go with the last access made under it.  Steps interleave in any
order.  The orderings of the atomics are `Acquire`/`Release` or guarded by a
lock, so the interleavings are all there is.

A panic is a value: `.error` of a call that may panic.  Left out: the names of
threads, and the thread that cannot be started (then there is no map).
Sequence numbers are unbounded.
-/

namespace Xeibe

namespace Parallel

open Lib (mapNext)

/-! ## Inputs -/

/-- `Streams`: what the calls of `next_stream` give in turn before its `None`,
and what `finish` gives.  A stream is what the calls of its `next` give. -/
structure Streams (Item Panic : Type) where
  streams : List (Except Panic (List (Except Panic Item)))
  last : Option (Except Panic Item)
  deriving DecidableEq

/-- The functions a map is called with: `S::ends_input` and `f`. -/
structure Job (Item Result Panic : Type) where
  endsInput : Item → Bool
  f : Item → Except Panic Result

section

variable {Item Result Panic : Type}

/-- What a worker sends for what it has taken: `f` of an item, a panic as it
is. -/
def Job.apply (job : Job Item Result Panic) (taken : Except Panic Item) : Except Panic Result :=
  taken.bind job.f

/-! ## One thread -/

/-- `Sequential`: the items of an input in order. -/
structure Sequential (Item Panic : Type) where
  streams : Streams Item Panic
  current : Option (List (Except Panic Item))
  done : Bool

namespace Sequential

def new (streams : Streams Item Panic) : Sequential Item Panic := ⟨streams, none, false⟩

/-- The loop of `next`: the current stream's next item, or the streams after
it, or the last item. -/
def nextFrom (endsInput : Item → Bool) (last : Option (Except Panic Item)) :
    List (Except Panic (List (Except Panic Item))) → Option (List (Except Panic Item)) →
    Option (Except Panic Item) × Sequential Item Panic
  | streams, some (.ok item :: rest) =>
    (some (.ok item), ⟨⟨streams, last⟩, some rest, endsInput item⟩)
  | streams, some (.error panic :: rest) =>
    (some (.error panic), ⟨⟨streams, last⟩, some rest, true⟩)
  | [], _ => (last, ⟨⟨[], last⟩, none, true⟩)
  | .ok stream :: streams, _ => nextFrom endsInput last streams (some stream)
  | .error panic :: streams, _ => (some (.error panic), ⟨⟨streams, last⟩, none, true⟩)

def next (endsInput : Item → Bool) (s : Sequential Item Panic) :
    Option (Except Panic Item) × Sequential Item Panic :=
  if s.done then (none, s) else nextFrom endsInput s.streams.last s.streams.streams s.current

end Sequential

/-- The map on the calling thread (`Inner::Inline`): each `next` takes one item
and maps it. -/
def inlineNext (job : Job Item Result Panic) (s : Sequential Item Panic) :
    Option (Except Panic Result) × Sequential Item Panic :=
  mapNext job.apply (Sequential.next job.endsInput) s

/-! ## The pool -/

/-- `MapOptions`, as far as it decides what a pool does. -/
structure MapOptions where
  threads : Nat
  inFlight : Nat
  maxOpen : Nat
  preserveOrder : Bool
  deriving DecidableEq, Repr

/-- An open stream and its lock: the worker that holds it. -/
structure OpenStream (Item Panic : Type) where
  rest : List (Except Panic Item)
  done : Bool
  lock : Option Nat
  deriving DecidableEq

/-- The lock a worker holds while it numbers what it has taken: of a stream, of
the list of streams, or none. -/
inductive Held where
  | stream (k : Nat)
  | list
  | none
  deriving DecidableEq, Repr

/-- Where a worker is, before its next step.  Streams are named by the order in
which they were opened. -/
inductive Phase (Item Panic : Type) where
  /-- About to look for a ticket. -/
  | ticket
  /-- Waiting on the condition variable. -/
  | waiting
  /-- `take`: about to call the helper. -/
  | helping
  /-- About to read `stopped`. -/
  | checkStopped
  /-- About to read `exhausted`. -/
  | checkExhausted
  /-- About to copy the list of open streams; `exhausted` is what was read. -/
  | listOpen (exhausted : Bool)
  /-- About to try the lock of stream `k`; `left` are still to be tried. -/
  | trying (exhausted : Bool) (open_ : List Nat) (k : Nat) (left : List Nat)
  /-- Every open stream is held: about to call the helper. -/
  | helpingHeld (head : Nat)
  /-- Waiting for the oldest stream. -/
  | blocked (head : Nat)
  /-- `pull`: the stream is held. -/
  | pulling (k : Nat)
  /-- The stream has ended and is let go: waiting for the list, to count it. -/
  | ending
  /-- `finish`, the list held: about to read `exhausted`. -/
  | finishing
  /-- About to read `stopped`. -/
  | finishingStopped
  /-- About to number the last item. -/
  | finishingLast
  /-- `open_next`: waiting for the list. -/
  | opening
  /-- The list held: about to read `exhausted`. -/
  | openingExhausted
  /-- About to look at how many streams are open. -/
  | openingRoom
  /-- About to take the next stream. -/
  | openingNext
  /-- `number`, its lock held: about to write `stopped`. -/
  | stopping (held : Held) (seq : Nat) (item : Except Panic Item)
  /-- About to write `exhausted`. -/
  | exhausting (held : Held) (seq : Nat) (item : Except Panic Item)
  /-- About to send the result. -/
  | mapping (seq : Nat) (item : Except Panic Item)
  /-- Nothing was taken: about to return the ticket. -/
  | leaving
  /-- The ticket is returned: about to wake a worker. -/
  | leavingNotify
  | ended
  deriving DecidableEq

/-- Where the consumer is.  `ended` says that `next` has returned `None`,
which drops the pool. -/
inductive Consumer (Result Panic : Type) where
  /-- Between two calls of `next`. -/
  | idle
  /-- About to look for the next result among the pending ones. -/
  | looking
  /-- About to receive. -/
  | receiving
  /-- About to return the result's ticket. -/
  | returning (result : Except Panic Result)
  /-- The ticket is returned: about to wake a worker. -/
  | notifying (result : Except Panic Result)
  /-- The pool is dropped: about to cancel. -/
  | dropping (ended : Bool)
  /-- About to drop the receiver. -/
  | closing (ended : Bool)
  | gone (ended : Bool)
  deriving DecidableEq

/-- What the threads of a pool share, where each of them is, and what the
consumer holds.  `output` is what `next` has returned so far. -/
structure Pool (Item Result Panic : Type) where
  -- `Shared`
  tickets : Nat
  cancelled : Bool
  -- `Input`
  streams : Streams Item Panic
  started : Nat
  ended : Nat
  finished : Bool
  listLock : Option Nat
  opened : List (OpenStream Item Panic)
  openStreams : List Nat
  exhausted : Bool
  stopped : Bool
  next : Nat
  numbersStopped : Bool
  numbersLock : Option Nat
  -- the workers and the channel
  workers : List (Phase Item Panic)
  results : List (Nat × Except Panic Result)
  receiver : Bool
  -- the consumer
  consumer : Consumer Result Panic
  pending : List (Nat × Except Panic Result)
  nextResult : Nat
  output : List (Except Panic Result)

namespace Pool

variable (options : MapOptions) (job : Job Item Result Panic)

/-- `ParallelMap::streams` with more than one thread. -/
def new (input : Streams Item Panic) : Pool Item Result Panic where
  tickets := max options.inFlight options.threads
  cancelled := false
  streams := input
  started := 0
  ended := 0
  finished := false
  listLock := none
  opened := []
  openStreams := []
  exhausted := false
  stopped := false
  next := 0
  numbersStopped := false
  numbersLock := none
  workers := List.replicate options.threads .ticket
  results := []
  receiver := true
  consumer := .idle
  pending := []
  nextResult := 0
  output := []

/-- Streams open at once: in order, one. -/
def maxOpen : Nat := if options.preserveOrder then 1 else max options.maxOpen 1

variable (s : Pool Item Result Panic) (i : Nat)

/-- Worker `i` goes on to `phase`. -/
def setPhase (phase : Phase Item Panic) : Pool Item Result Panic :=
  { s with workers := s.workers.set i phase }

def modifyStream (k : Nat) (f : OpenStream Item Panic → OpenStream Item Panic) :
    Pool Item Result Panic :=
  { s with opened := s.opened.modify k f }

def setListLock (lock : Option Nat) : Pool Item Result Panic := { s with listLock := lock }

/-- Worker `i` lets go of what it holds. -/
def release : Held → Pool Item Result Panic
  | .stream k => s.modifyStream k fun stream => { stream with lock := none }
  | .list => s.setListLock none
  | .none => s

/-! ### Tickets -/

/-- `take_ticket`, up to its wait. -/
def takeTicket : Pool Item Result Panic :=
  if s.cancelled then s.setPhase i .ended
  else if 0 < s.tickets then { s with tickets := s.tickets - 1 }.setPhase i .helping
  else s.setPhase i .waiting

/-- `return_ticket`, up to its wake-up. -/
def returnTicket : Pool Item Result Panic := { s with tickets := s.tickets + 1 }

/-- A worker that waits. -/
def isWaiting : Phase Item Panic → Bool
  | .waiting => true
  | _ => false

/-- `notify_one`: one waiting worker is woken, if there is one. -/
def notifyOne : Option Nat → Option (Pool Item Result Panic)
  | some j =>
    match s.workers[j]? with
    | some .waiting => some (s.setPhase j .ticket)
    | _ => none
  | none => if s.workers.any isWaiting then none else some s

/-! ### The input -/

/-- `number`: worker `i`, which holds `held`, has taken `item` from the input;
`ends` says that nothing is taken after it.  Without a number the item is
dropped, and the worker goes on to `orElse`. -/
def number (held : Held) (item : Except Panic Item) (ends : Bool) (orElse : Phase Item Panic) :
    Option (Pool Item Result Panic) :=
  if s.numbersLock.isSome then none
  else if s.numbersStopped then some ((s.release held).setPhase i orElse)
  else if ends then
    some ({ s with
      next := s.next + 1
      numbersStopped := true
      numbersLock := some i }.setPhase i (.stopping held s.next item))
  else some (({ s with next := s.next + 1 }.release held).setPhase i (.mapping s.next item))

/-- A panic outside a stream, in the helper: it ends the input. -/
def fail (panic : Panic) : Option (Pool Item Result Panic) :=
  s.number i .none (.error panic) true .leaving

/-- After every open stream has been tried: open another, or wait for the
oldest. -/
def allHeld (exhausted : Bool) (open_ : List Nat) : Phase Item Panic :=
  if !exhausted && open_.length < maxOpen options then .opening
  else .helpingHeld (open_.headD 0)

/-- `pull`, with the lock of stream `k`. -/
def pull (k : Nat) : Option (Pool Item Result Panic) :=
  match s.opened[k]? with
  | none => none
  | some stream =>
    if stream.done then some ((s.release (.stream k)).setPhase i .checkStopped)
    else match stream.rest with
      | .ok item :: rest =>
        -- `done` is set once the item has its number.
        (s.modifyStream k fun stream =>
          { stream with rest, done := job.endsInput item && !s.numbersStopped }).number i
          (.stream k) (.ok item) (job.endsInput item) .checkStopped
      | .error panic :: rest =>
        (s.modifyStream k fun stream => { stream with rest, done := true }).number i
          (.stream k) (.error panic) true .checkStopped
      | [] =>
        some (({ s.modifyStream k fun stream => { stream with done := true } with
          openStreams := s.openStreams.filter (· != k) }.release (.stream k)).setPhase i .ending)

/-- The last item of the input, if `finish` gives one, once every stream has
ended. -/
def finishLast : Option (Pool Item Result Panic) :=
  match s.streams.last with
  | none => some (({ s with finished := true }.release .list).setPhase i .checkStopped)
  | some last => { s with finished := true }.number i .list last false .checkStopped

/-- `open_next`, with room for another stream. -/
def openNext : Option (Pool Item Result Panic) :=
  match s.streams.streams with
  | [] => some ({ s with exhausted := true }.setPhase i .finishing)
  | .ok rest :: streams =>
    some (({ s with
      streams := { s.streams with streams }
      started := s.started + 1
      opened := s.opened ++ [OpenStream.mk rest false none]
      openStreams := s.openStreams ++ [s.opened.length] }.release .list).setPhase i .checkStopped)
  | .error panic :: streams =>
    { s with streams := { s.streams with streams } }.number i .list (.error panic) true
      .checkStopped

/-- Take the list's lock, if it is free, and go on to `phase`. -/
def lockList (phase : Phase Item Panic) : Option (Pool Item Result Panic) :=
  if s.listLock.isSome then none else some ((s.setListLock (some i)).setPhase i phase)

/-- Take the lock of stream `k`, if it is free, and pull from it; `orElse` says
what to do otherwise. -/
def lockStream (k : Nat) (orElse : Option (Pool Item Result Panic)) :
    Option (Pool Item Result Panic) :=
  match s.opened[k]? with
  | none => none
  | some stream =>
    if stream.lock.isSome then orElse
    else some ((s.modifyStream k fun stream => { stream with lock := some i }).setPhase i (.pulling k))

/-! ### Steps -/

/-- The next step of worker `i`, which is at `phase`: in `work`, and in the
functions it calls.  Calls of the helper and wake-ups are events of their
own. -/
def work : Phase Item Panic → Option (Pool Item Result Panic)
  | .ticket => some (s.takeTicket i)
  | .checkStopped => some (s.setPhase i (if s.stopped then .leaving else .checkExhausted))
  | .checkExhausted => some (s.setPhase i (.listOpen s.exhausted))
  | .listOpen exhausted =>
    match s.openStreams with
    | [] => some (s.setPhase i (if exhausted then .leaving else .opening))
    | k :: left => some (s.setPhase i (.trying exhausted (k :: left) k left))
  | .trying exhausted open_ k left =>
    s.lockStream i k (some (s.setPhase i
      (match left with
      | [] => allHeld options exhausted open_
      | k' :: left => .trying exhausted open_ k' left)))
  | .blocked head => s.lockStream i head none
  | .pulling k => s.pull job i k
  | .ending => { s with ended := s.ended + 1 }.lockList i .finishing
  | .finishing =>
    if !s.exhausted || decide (s.ended < s.started) || s.finished then
      some ((s.release .list).setPhase i .checkStopped)
    else some (s.setPhase i .finishingStopped)
  | .finishingStopped =>
    if s.stopped then some ((s.release .list).setPhase i .checkStopped)
    else some (s.setPhase i .finishingLast)
  | .finishingLast => s.finishLast i
  | .opening => s.lockList i .openingExhausted
  | .openingExhausted =>
    if s.exhausted then some ((s.release .list).setPhase i .checkStopped)
    else some (s.setPhase i .openingRoom)
  | .openingRoom =>
    if s.openStreams.length ≥ maxOpen options then
      some ((s.release .list).setPhase i .checkStopped)
    else some (s.setPhase i .openingNext)
  | .openingNext => s.openNext i
  | .stopping held seq item => some ({ s with stopped := true }.setPhase i (.exhausting held seq item))
  | .exhausting held seq item =>
    some (({ s with exhausted := true, numbersLock := none }.release held).setPhase i
      (.mapping seq item))
  | .mapping seq item =>
    if s.receiver then
      some ({ s with results := s.results ++ [(seq, job.apply item)] }.setPhase i .ticket)
    else some (s.setPhase i .ended)
  | .leaving => some (s.returnTicket.setPhase i .leavingNotify)
  | .waiting | .helping | .helpingHeld _ | .leavingNotify | .ended => none

/-- Worker `i`, at `phase`, calls the helper. -/
def help (answer : Except Panic Bool) : Phase Item Panic → Option (Pool Item Result Panic)
  | .helping =>
    match answer with
    | .ok true => some s
    | .ok false => some (s.setPhase i .checkStopped)
    | .error panic => s.fail i panic
  | .helpingHeld head =>
    match answer with
    | .ok true => some (s.setPhase i .checkStopped)
    | .ok false => some (s.setPhase i (.blocked head))
    | .error panic => s.fail i panic
  | _ => none

/-- The next step of the consumer, in `Pool::next` or in the drop of the
pool. -/
def consume : Option (Pool Item Result Panic) :=
  match s.consumer with
  | .idle => some { s with consumer := .looking }
  | .looking =>
    match if options.preserveOrder then s.pending.lookup s.nextResult else none with
    | some result =>
      some { s with
        pending := s.pending.filter (·.1 != s.nextResult)
        nextResult := s.nextResult + 1
        consumer := .returning result }
    | none => some { s with consumer := .receiving }
  | .receiving =>
    match s.results with
    | (seq, result) :: results =>
      if options.preserveOrder then
        some { s with results, pending := (seq, result) :: s.pending, consumer := .looking }
      else some { s with results, consumer := .returning result }
    | [] =>
      -- Every sender is gone.
      if s.workers.all (fun phase => match phase with | .ended => true | _ => false) then
        some { s with consumer := .dropping true }
      else none
  | .returning result => some { s.returnTicket with consumer := .notifying result }
  | .dropping ended =>
    some { s with
      cancelled := true
      workers := s.workers.map fun phase => if isWaiting phase then .ticket else phase
      consumer := .closing ended }
  | .closing ended => some { s with receiver := false, results := [], consumer := .gone ended }
  | .notifying _ | .gone _ => none

end Pool

/-- What can happen next. -/
inductive Event (Panic : Type) where
  /-- Worker `i` makes its next step. -/
  | work (i : Nat)
  /-- Worker `i` calls the helper, which answers, or panics. -/
  | help (i : Nat) (answer : Except Panic Bool)
  /-- Worker `i`, which leaves, wakes a worker. -/
  | notify (i : Nat) (woken : Option Nat)
  /-- A waiting worker wakes up without being notified. -/
  | wake (i : Nat)
  /-- The consumer makes its next step, or calls `next`. -/
  | consume
  /-- The consumer, which has returned a ticket, wakes a worker. -/
  | consumerNotify (woken : Option Nat)
  /-- The consumer drops the map. -/
  | drop
  deriving DecidableEq

def Pool.step (options : MapOptions) (job : Job Item Result Panic)
    (s : Pool Item Result Panic) : Event Panic → Option (Pool Item Result Panic)
  | .work i => s.workers[i]?.bind (s.work options job i)
  | .help i answer => s.workers[i]?.bind (s.help i answer)
  | .notify i woken =>
    match s.workers[i]? with
    | some .leavingNotify => (s.setPhase i .ended).notifyOne woken
    | _ => none
  | .wake i =>
    match s.workers[i]? with
    | some .waiting => some (s.setPhase i .ticket)
    | _ => none
  | .consume => s.consume options
  | .consumerNotify woken =>
    match s.consumer with
    | .notifying result =>
      { s with consumer := .idle, output := s.output ++ [result] }.notifyOne woken
    | _ => none
  | .drop =>
    match s.consumer with
    | .idle => some { s with consumer := .dropping false }
    | _ => none

end

end Parallel

end Xeibe

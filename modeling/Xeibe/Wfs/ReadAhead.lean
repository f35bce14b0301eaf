import Xeibe.Lib.System

/-!
# Fetching pages ahead of the read

With a concurrency of one the read calls the pager itself.  Otherwise a thread runs the pager and
hands its pages over a bounded channel, and the end of the channel is the end of the pages.
-/

namespace Xeibe.Wfs

open Xeibe.Lib

variable {Page ε : Type}

/-! ## The pager -/

/-- How the pages of a pager end, or what a read learns of it. -/
inductive Ending (ε : Type) where
  | complete
  | failed (error : ε)
  /-- The progress callback panics. -/
  | panicked
deriving DecidableEq, Repr

/-- What the calls of a pager are going to give. -/
structure Outcomes (Page ε : Type) where
  pages : List Page
  ending : Ending ε
  done : Bool

/-- What one call gives. -/
inductive Pulled (Page ε : Type) where
  | item (item : Except ε Page)
  | finished
  | panic

/-- `Pager::next`. -/
def Outcomes.next (pager : Outcomes Page ε) : Pulled Page ε × Outcomes Page ε :=
  if pager.done then (.finished, pager)
  else
    match pager.pages with
    | page :: pages => (.item (.ok page), { pager with pages })
    | [] =>
      match pager.ending with
      | .complete => (.finished, { pager with done := true })
      | .failed error => (.item (.error error), { pager with done := true })
      | .panicked => (.panic, pager)

/-- A pager that has not been called. -/
def Outcomes.new (pages : List Page) (ending : Ending ε) : Outcomes Page ε :=
  { pages, ending, done := false }

/-! ## The thread and the read -/

inductive Fetcher (Page ε : Type) where
  /-- The read calls the pager itself. -/
  | absent
  /-- About to call the pager. -/
  | fetching
  /-- In `send`. -/
  | sending (item : Except ε Page)
  /-- The loop is over, or the callback panicked: the sender is gone. -/
  | ended
  /-- The read was dropped before this was sent. -/
  | stopped (item : Except ε Page)

/-- The thread, the channel and the read. -/
structure ReadAhead (Page ε : Type) where
  pager : Outcomes Page ε
  fetcher : Fetcher Page ε
  queue : List (Except ε Page)
  -- the read
  received : List Page
  learned : Option (Ending ε)
  dropped : Bool

inductive AheadEvent where
  /-- The thread calls the pager. -/
  | fetch
  /-- The thread's `send` returns. -/
  | send
  /-- The read asks for the next page and gets an answer. -/
  | take
  /-- The read is dropped. -/
  | drop
deriving DecidableEq, Repr

namespace ReadAhead

/-- `read_ahead`. -/
def start (concurrency : Nat) (pager : Outcomes Page ε) : ReadAhead Page ε where
  pager := pager
  fetcher := if concurrency ≤ 1 then .absent else .fetching
  queue := []
  received := []
  learned := none
  dropped := false

variable (s : ReadAhead Page ε)

/-- The read gets a page or an error. -/
def receive (item : Except ε Page) : ReadAhead Page ε :=
  match item with
  | .ok page => { s with received := s.received ++ [page] }
  | .error error => { s with learned := some (.failed error) }

/-- The thread's loop: the next page. -/
def fetch : Option (ReadAhead Page ε) :=
  match s.fetcher with
  | .fetching =>
    match s.pager.next with
    | (.item item, pager) => some { s with pager, fetcher := .sending item }
    | (.finished, pager) => some { s with pager, fetcher := .ended }
    | (.panic, pager) => some { s with pager, fetcher := .ended }
  | _ => none

/-- `sender.send(page)`: there is room in `sync_channel(concurrency - 2)`, or nobody to read. -/
def send (concurrency : Nat) : Option (ReadAhead Page ε) :=
  match s.fetcher with
  | .sending item =>
    if s.dropped then some { s with fetcher := .stopped item }
    else if s.queue.length < concurrency - 2 then
      some { s with queue := s.queue ++ [item], fetcher := .fetching }
    else none
  | _ => none

/-- The read calls the pager itself. -/
def call : ReadAhead Page ε :=
  match s.pager.next with
  | (.item item, pager) => ({ s with pager } : ReadAhead Page ε).receive item
  | (.finished, pager) => { s with pager, learned := some .complete }
  | (.panic, pager) => { s with pager, learned := some .panicked }

/-- The next item of the channel.  A channel of capacity zero hands over what the thread is sending;
the end of the channel is the end of the pages. -/
def receiveNext (concurrency : Nat) : Option (ReadAhead Page ε) :=
  match s.queue, s.fetcher with
  | item :: queue, _ => some (({ s with queue } : ReadAhead Page ε).receive item)
  | [], .sending item =>
    if concurrency = 2 then some (({ s with fetcher := .fetching } : ReadAhead Page ε).receive item)
    else none
  | [], .ended => some { s with learned := some .complete }
  | [], _ => none

def take (concurrency : Nat) : Option (ReadAhead Page ε) :=
  if s.dropped ∨ s.learned.isSome then none
  else
    match s.fetcher with
    | .absent => some s.call
    | _ => s.receiveNext concurrency

def step (concurrency : Nat) (s : ReadAhead Page ε) : AheadEvent → Option (ReadAhead Page ε)
  | .fetch => s.fetch
  | .send => s.send concurrency
  | .take => s.take concurrency
  | .drop => if s.dropped then none else some { s with dropped := true }

/-! ## What the read is promised -/

/-- The read gets the pages in order and learns how they end, and what was fetched of them beyond
that is bounded. -/
structure Faithful (concurrency : Nat) (pages : List Page) (ending : Ending ε)
    (s : ReadAhead Page ε) : Prop where
  order : s.received <+: pages
  learns : ∀ learned, s.learned = some learned → s.received = pages ∧ learned = ending
  bounded : pages.length - s.pager.pages.length ≤ s.received.length + (concurrency - 1)
  /-- Nobody waits for ever. -/
  live : s.dropped = false → s.learned = none →
    ∃ event, event ≠ .drop ∧ (s.step concurrency event).isSome = true

/-- In every run, whatever the order of the steps, and no run goes on for ever. -/
def Transparent (concurrency : Nat) (pages : List Page) (ending : Ending ε) : Prop :=
  ∀ events s, run (step concurrency) (start concurrency (.new pages ending)) events = some s →
    Faithful concurrency pages ending s ∧ events.length ≤ 3 * pages.length + 6

/-! ## What a call of the pager does -/

/-- The item at the end of the pages. -/
def lastItem : Ending ε → List (Except ε Page)
  | .failed error => [.error error]
  | _ => []

end ReadAhead

namespace Outcomes

open ReadAhead

/-- What the pager is still going to give. -/
def upcoming (pager : Outcomes Page ε) : List (Except ε Page) :=
  if pager.done then [] else pager.pages.map .ok ++ lastItem pager.ending

/-- The cases of a call. -/
inductive Calls (pager : Outcomes Page ε) : Pulled Page ε → Outcomes Page ε → Prop where
  | page (page : Page) (pages : List Page) (hdone : pager.done = false)
      (hpages : pager.pages = page :: pages) : Calls pager (.item (.ok page)) { pager with pages }
  | failed (error : ε) (hdone : pager.done = false) (hpages : pager.pages = [])
      (hending : pager.ending = .failed error) :
      Calls pager (.item (.error error)) { pager with done := true }
  | complete (hdone : pager.done = false) (hpages : pager.pages = [])
      (hending : pager.ending = .complete) : Calls pager .finished { pager with done := true }
  | panicked (hdone : pager.done = false) (hpages : pager.pages = [])
      (hending : pager.ending = .panicked) : Calls pager .panic pager
  | finished (hdone : pager.done = true) : Calls pager .finished pager

theorem calls_next (pager : Outcomes Page ε) : Calls pager pager.next.1 pager.next.2 := by
  rcases pager with ⟨pages, ending, done⟩
  cases done with
  | true => exact .finished rfl
  | false =>
    cases pages with
    | cons page pages => exact .page page pages rfl rfl
    | nil =>
      cases ending with
      | complete => exact .complete rfl rfl rfl
      | failed error => exact .failed error rfl rfl rfl
      | panicked => exact .panicked rfl rfl rfl

end Outcomes

/-- The item the thread has in hand. -/
def Fetcher.held : Fetcher Page ε → List (Except ε Page)
  | .sending item | .stopped item => [item]
  | _ => []

/-- How much a fetcher still does with what it has. -/
def Fetcher.work : Fetcher Page ε → Nat
  | .sending _ => 3
  | .fetching => 1
  | _ => 0

namespace ReadAhead

open Outcomes

variable {concurrency : Nat} {pages : List Page} {ending : Ending ε} {s t : ReadAhead Page ε}

theorem pages_of_items {received pages : List Page} {rest : List (Except ε Page)}
    (h : received.map .ok ++ rest = pages.map .ok ++ lastItem ending) : received <+: pages := by
  induction received generalizing pages with
  | nil => exact List.nil_prefix
  | cons page received ih =>
    cases pages with
    | nil => cases ending <;> cases h
    | cons page' pages =>
      obtain ⟨hpage, hrest⟩ := List.cons.inj h
      cases hpage
      exact (List.prefix_cons_inj page).mpr (ih hrest)

theorem error_of_items {received pages : List Page} {error : ε} {rest : List (Except ε Page)}
    (h : received.map .ok ++ .error error :: rest = pages.map .ok ++ lastItem ending) :
    received = pages ∧ ending = .failed error := by
  induction received generalizing pages with
  | nil =>
    cases pages with
    | nil => cases ending <;> cases h; exact ⟨rfl, rfl⟩
    | cons page pages => cases h
  | cons page received ih =>
    cases pages with
    | nil => cases ending <;> cases h
    | cons page' pages =>
      obtain ⟨hpage, hrest⟩ := List.cons.inj h
      cases hpage
      obtain ⟨rfl, hending⟩ := ih hrest
      exact ⟨rfl, hending⟩

/-! ## The read calls the pager -/

/-- The state of a read without a thread. -/
structure Direct (pages : List Page) (ending : Ending ε) (s : ReadAhead Page ε) : Prop where
  fetcher : s.fetcher = .absent
  pages : s.received ++ s.pager.pages = pages
  ends : s.pager.ending = ending
  reading : s.learned = none → s.pager.done = false
  learned : ∀ learned, s.learned = some learned → s.pager.pages = [] ∧ learned = ending

theorem learned_none (h : ¬ (s.dropped = true ∨ s.learned.isSome = true)) : s.learned = none := by
  cases hl : s.learned with
  | none => rfl
  | some learned => exact absurd (Or.inr (by rw [hl]; rfl)) h

theorem Direct.ended (h : Direct pages ending s) (hpages : s.pager.pages = [])
    (hfetcher : t.fetcher = .absent) (hreceived : t.received = s.received)
    (hpager : t.pager.pages = s.pager.pages) (hends : t.pager.ending = s.pager.ending)
    (hlearned : t.learned = some ending) : Direct pages ending t := by
  refine ⟨hfetcher, ?_, hends.trans h.ends, fun hnone => ?_, fun l hl => ?_⟩
  · rw [hreceived, hpager, h.pages]
  · rw [hlearned] at hnone
    cases hnone
  · rw [hlearned] at hl
    exact ⟨hpager.trans hpages, (Option.some.inj hl).symm⟩

theorem Direct.call (h : Direct pages ending s) (hdone : s.pager.done = false)
    (hlearned : s.learned = none) : Direct pages ending s.call := by
  have hcalls := calls_next s.pager
  unfold ReadAhead.call
  rcases hnext : s.pager.next with ⟨pulled, pager⟩
  rw [hnext] at hcalls
  cases hcalls with
  | page page rest _ hpages =>
    refine ⟨h.fetcher, ?_, h.ends, fun _ => hdone, fun l hl => ?_⟩
    · show (s.received ++ [page]) ++ rest = pages
      rw [← h.pages, hpages, List.append_assoc]
      rfl
    · have hl : s.learned = some l := hl
      rw [hlearned] at hl
      cases hl
  | failed error _ hpages hending =>
    exact h.ended hpages h.fetcher rfl rfl rfl (by rw [← h.ends, hending]; rfl)
  | complete _ hpages hending =>
    exact h.ended hpages h.fetcher rfl rfl rfl (by rw [← h.ends, hending])
  | panicked _ hpages hending =>
    exact h.ended hpages h.fetcher rfl rfl rfl (by rw [← h.ends, hending])
  | finished hdone' =>
    rw [hdone] at hdone'
    cases hdone'

theorem Direct.step (h : Direct pages ending s) {event : AheadEvent}
    (hstep : step concurrency s event = some t) : Direct pages ending t := by
  cases event with
  | fetch =>
    simp only [ReadAhead.step, fetch, h.fetcher] at hstep
    cases hstep
  | send =>
    simp only [ReadAhead.step, send, h.fetcher] at hstep
    cases hstep
  | drop =>
    simp only [ReadAhead.step] at hstep
    split at hstep <;> cases hstep
    exact ⟨h.fetcher, h.pages, h.ends, h.reading, h.learned⟩
  | take =>
    simp only [ReadAhead.step, take, h.fetcher] at hstep
    split at hstep
    · cases hstep
    · rename_i hnone
      cases hstep
      exact h.call (h.reading (learned_none hnone)) (learned_none hnone)

theorem Direct.faithful (h : Direct pages ending s) : Faithful concurrency pages ending s := by
  refine ⟨⟨s.pager.pages, h.pages⟩, fun l hl => ?_, ?_, fun hdropped hlearned => ?_⟩
  · obtain ⟨hpages, rfl⟩ := h.learned l hl
    have heq := h.pages
    rw [hpages, List.append_nil] at heq
    exact ⟨heq, rfl⟩
  · rw [← h.pages, List.length_append]
    omega
  · refine ⟨.take, by decide, ?_⟩
    simp [ReadAhead.step, take, h.fetcher, hdropped, hlearned]

/-! ## A thread runs the pager -/

/-- The items the read has got. -/
def taken (s : ReadAhead Page ε) : List (Except ε Page) :=
  s.received.map .ok ++
    match s.learned with
    | some (.failed error) => [.error error]
    | _ => []

/-- The state of a read with a thread: the items are in order in the read, in the channel, in the
thread's hand and in the pager. -/
structure Threaded (concurrency : Nat) (pages : List Page) (ending : Ending ε)
    (s : ReadAhead Page ε) : Prop where
  present : s.fetcher ≠ .absent
  items : s.taken ++ (s.queue ++ (s.fetcher.held ++ s.pager.upcoming)) =
    pages.map .ok ++ lastItem ending
  ends : s.pager.ending = ending
  count : s.pager.done = true → s.pager.pages = []
  room : s.queue.length ≤ concurrency - 2
  exhausted : s.fetcher = .ended → s.pager.upcoming = []
  stopped : ∀ item, s.fetcher = .stopped item → s.dropped = true
  learned : ∀ learned, s.learned = some learned → (∃ error, learned = .failed error) ∨
    learned = .complete ∧ s.queue = [] ∧ s.fetcher = .ended

theorem taken_receive (h : s.learned = none) (item : Except ε Page) :
    (s.receive item).taken = s.taken ++ [item] := by
  cases item with
  | ok page => simp [receive, taken, h]
  | error error => simp [receive, taken, h]

namespace Threaded

theorem fetch (h : Threaded concurrency pages ending s) (hstep : s.fetch = some t) :
    Threaded concurrency pages ending t := by
  unfold ReadAhead.fetch at hstep
  split at hstep
  · rename_i hfetching
    have hitems := h.items
    rw [hfetching] at hitems
    have hlearned : ∀ l, s.learned = some l → ∃ error, l = .failed error := fun l hl => by
      rcases h.learned l hl with herror | ⟨-, -, hended⟩
      · exact herror
      · rw [hfetching] at hended
        cases hended
    have hcalls := calls_next s.pager
    rcases hnext : s.pager.next with ⟨pulled, pager⟩
    rw [hnext] at hstep hcalls
    cases hcalls with
    | page page rest hdone hpages =>
      cases hstep
      refine ⟨nofun, ?_, h.ends, ?_, h.room, nofun, nofun, fun l hl => .inl (hlearned l hl)⟩
      · rw [← hitems]
        simp [taken, upcoming, Fetcher.held, hdone, hpages]
      · show s.pager.done = true → _
        rw [hdone]
        nofun
    | failed error hdone hpages hending =>
      cases hstep
      refine ⟨nofun, ?_, h.ends, fun _ => hpages, h.room, nofun, nofun,
        fun l hl => .inl (hlearned l hl)⟩
      rw [← hitems]
      simp [taken, upcoming, Fetcher.held, hdone, hpages, hending, lastItem]
    | complete hdone hpages hending =>
      cases hstep
      refine ⟨nofun, ?_, h.ends, fun _ => hpages, h.room, fun _ => rfl, nofun,
        fun l hl => .inl (hlearned l hl)⟩
      rw [← hitems]
      simp [taken, upcoming, Fetcher.held, hdone, hpages, hending, lastItem]
    | panicked hdone hpages hending =>
      cases hstep
      have hnil : s.pager.upcoming = [] := by
        simp [upcoming, hdone, hpages, hending, lastItem]
      exact ⟨nofun, hitems, h.ends, h.count, h.room, fun _ => hnil, nofun,
        fun l hl => .inl (hlearned l hl)⟩
    | finished hdone =>
      cases hstep
      have hnil : s.pager.upcoming = [] := by simp [upcoming, hdone]
      exact ⟨nofun, hitems, h.ends, h.count, h.room, fun _ => hnil, nofun,
        fun l hl => .inl (hlearned l hl)⟩
  · cases hstep

theorem send (h : Threaded concurrency pages ending s) (hstep : s.send concurrency = some t) :
    Threaded concurrency pages ending t := by
  unfold ReadAhead.send at hstep
  split at hstep
  · rename_i item hsending
    have hitems := h.items
    rw [hsending] at hitems
    have hlearned : ∀ l, s.learned = some l → ∃ error, l = .failed error := fun l hl => by
      rcases h.learned l hl with herror | ⟨-, -, hended⟩
      · exact herror
      · rw [hsending] at hended
        cases hended
    split at hstep
    · rename_i hdropped
      cases hstep
      exact ⟨nofun, hitems, h.ends, h.count, h.room, nofun, fun _ _ => hdropped,
        fun l hl => .inl (hlearned l hl)⟩
    · split at hstep
      · rename_i hroom
        cases hstep
        refine ⟨nofun, ?_, h.ends, h.count, ?_, nofun, nofun, fun l hl => .inl (hlearned l hl)⟩
        · rw [← hitems]
          simp [taken, Fetcher.held]
        · rw [List.length_append, List.length_singleton]
          exact hroom
      · cases hstep
  · cases hstep

/-- The read takes an item. -/
theorem receive (h : Threaded concurrency pages ending s) (hnone : s.learned = none)
    {queue : List (Except ε Page)} {fetcher : Fetcher Page ε} {item : Except ε Page}
    (hpresent : fetcher ≠ .absent) (hended : fetcher = .ended → s.fetcher = .ended)
    (hstopped : ∀ item, fetcher = .stopped item → s.fetcher = .stopped item)
    (hitems : item :: (queue ++ fetcher.held) = s.queue ++ s.fetcher.held)
    (hroom : queue.length ≤ s.queue.length) :
    Threaded concurrency pages ending
      (({ s with queue, fetcher } : ReadAhead Page ε).receive item) := by
  have hrest : ∀ rest, [item] ++ (queue ++ (fetcher.held ++ rest)) =
      s.queue ++ (s.fetcher.held ++ rest) := fun rest => by
    rw [← List.append_assoc, ← List.append_assoc s.queue, ← hitems]
    simp
  have htaken := taken_receive (s := { s with queue, fetcher }) hnone item
  have hkept : (({ s with queue, fetcher } : ReadAhead Page ε).receive item).queue = queue ∧
      (({ s with queue, fetcher } : ReadAhead Page ε).receive item).fetcher = fetcher ∧
      (({ s with queue, fetcher } : ReadAhead Page ε).receive item).pager = s.pager ∧
      (({ s with queue, fetcher } : ReadAhead Page ε).receive item).dropped = s.dropped := by
    cases item <;> exact ⟨rfl, rfl, rfl, rfl⟩
  obtain ⟨hqueue, hfetcher, hpager, hdropped⟩ := hkept
  refine ⟨?_, ?_, ?_, ?_, ?_, fun hover => ?_, fun i hi => ?_, fun l hl => ?_⟩
  · rwa [hfetcher]
  · rw [htaken, hqueue, hfetcher, hpager, List.append_assoc, hrest]
    exact h.items
  · rw [hpager]
    exact h.ends
  · rw [hpager]
    exact h.count
  · rw [hqueue]
    exact Nat.le_trans hroom h.room
  · rw [hfetcher] at hover
    rw [hpager]
    exact h.exhausted (hended hover)
  · rw [hfetcher] at hi
    rw [hdropped]
    exact h.stopped i (hstopped i hi)
  · cases item with
    | ok page =>
      have hl : s.learned = some l := hl
      rw [hnone] at hl
      cases hl
    | error error => exact .inl ⟨error, (Option.some.inj hl).symm⟩

theorem take (h : Threaded concurrency pages ending s) (hstep : s.take concurrency = some t) :
    Threaded concurrency pages ending t := by
  unfold ReadAhead.take at hstep
  split at hstep
  · cases hstep
  rename_i hopen
  have hnone := learned_none hopen
  have hnext : s.receiveNext concurrency = some t := by
    cases hfetcher : s.fetcher with
    | absent => exact absurd hfetcher h.present
    | _ => rwa [hfetcher] at hstep
  unfold receiveNext at hnext
  split at hnext
  · rename_i item queue fetcher hqueue
    cases hnext
    refine h.receive hnone h.present id (fun _ => id) ?_ ?_
    · rw [hqueue]
      rfl
    · rw [hqueue]
      exact Nat.le_succ _
  · rename_i item hqueue hsending
    split at hnext
    · cases hnext
      refine h.receive hnone nofun nofun nofun ?_ (Nat.le_refl _)
      rw [hqueue, hsending]
      rfl
    · cases hnext
  · rename_i hqueue hended
    cases hnext
    refine ⟨h.present, ?_, h.ends, h.count, h.room, h.exhausted, h.stopped, fun l hl => ?_⟩
    · have hitems := h.items
      simp only [taken, hnone] at hitems
      exact hitems
    · exact .inr ⟨(Option.some.inj hl).symm, hqueue, hended⟩
  · cases hnext

theorem step (h : Threaded concurrency pages ending s) {event : AheadEvent}
    (hstep : step concurrency s event = some t) : Threaded concurrency pages ending t := by
  cases event with
  | fetch => exact h.fetch hstep
  | send => exact h.send hstep
  | take => exact h.take hstep
  | drop =>
    simp only [ReadAhead.step] at hstep
    split at hstep <;> cases hstep
    exact ⟨h.present, h.items, h.ends, h.count, h.room, h.exhausted, fun _ _ => rfl, h.learned⟩

theorem order (h : Threaded concurrency pages ending s) : s.received <+: pages := by
  have hitems := h.items
  rw [taken, List.append_assoc] at hitems
  exact pages_of_items hitems

/-- The read learns of an error with all pages before it, and else that there is nothing more. -/
theorem learns (h : Threaded concurrency pages ending s) {learned : Ending ε}
    (hl : s.learned = some learned) : s.received = pages ∧
      (learned = ending ∨ learned = .complete ∧ ending = .panicked) := by
  have hitems := h.items
  rcases h.learned learned hl with ⟨error, rfl⟩ | ⟨rfl, hqueue, hended⟩
  · simp only [taken, hl, List.append_assoc, List.singleton_append] at hitems
    obtain ⟨hreceived, hending⟩ := error_of_items hitems
    exact ⟨hreceived, .inl hending.symm⟩
  · rw [hqueue, h.exhausted hended, hended] at hitems
    simp only [taken, hl, Fetcher.held, List.append_nil] at hitems
    have hlength := congrArg List.length hitems
    rw [List.length_append, List.length_map, List.length_map] at hlength
    have hreceived := h.order.length_le
    have hnil : (lastItem ending : List (Except ε Page)) = [] :=
      List.eq_nil_of_length_eq_zero (by omega)
    refine ⟨h.order.eq_of_length (by omega), ?_⟩
    cases ending with
    | complete => exact .inl rfl
    | failed error => cases hnil
    | panicked => exact .inr ⟨rfl, rfl⟩

theorem bounded (h : Threaded concurrency pages ending s) (hc : 2 ≤ concurrency) :
    pages.length - s.pager.pages.length ≤ s.received.length + (concurrency - 1) := by
  have hlast : ∀ ending : Ending ε,
      ((lastItem ending : List (Except ε Page)).filterMap Except.toOption) = [] := fun ending => by
    cases ending <;> rfl
  have hok : ∀ pages : List Page,
      ((pages.map .ok : List (Except ε Page)).filterMap Except.toOption) = pages := fun pages => by
    rw [List.filterMap_map]
    exact List.filterMap_some
  have hpages := congrArg (List.filterMap Except.toOption) h.items
  have herrors : s.taken.filterMap Except.toOption = s.received := by
    unfold taken
    rw [List.filterMap_append, hok]
    split <;> simp [Except.toOption]
  have hupcoming : s.pager.upcoming.filterMap Except.toOption = s.pager.pages := by
    unfold upcoming
    split
    · rename_i hdone
      rw [h.count hdone]
      rfl
    · rw [List.filterMap_append, hok, hlast, List.append_nil]
  simp only [List.filterMap_append, hok, hlast, herrors, hupcoming, List.append_nil] at hpages
  have hlength := congrArg List.length hpages
  simp only [List.length_append] at hlength
  have hqueue := List.length_filterMap_le Except.toOption s.queue
  have hheld := List.length_filterMap_le Except.toOption s.fetcher.held
  have hone : s.fetcher.held.length ≤ 1 := by
    cases s.fetcher <;> simp [Fetcher.held]
  have hroom := h.room
  omega

theorem live (h : Threaded concurrency pages ending s) (hc : 2 ≤ concurrency)
    (hdropped : s.dropped = false) (hlearned : s.learned = none) :
    ∃ event, event ≠ .drop ∧ (ReadAhead.step concurrency s event).isSome = true := by
  cases hfetcher : s.fetcher with
  | absent => exact absurd hfetcher h.present
  | fetching =>
    refine ⟨.fetch, by decide, ?_⟩
    simp only [ReadAhead.step, ReadAhead.fetch, hfetcher]
    rcases s.pager.next with ⟨pulled, pager⟩
    cases pulled <;> rfl
  | stopped item =>
    rw [h.stopped item hfetcher] at hdropped
    cases hdropped
  | ended =>
    refine ⟨.take, by decide, ?_⟩
    simp only [ReadAhead.step, ReadAhead.take, hdropped, hlearned, hfetcher, receiveNext]
    cases s.queue <;> simp
  | sending item =>
    by_cases hroom : s.queue.length < concurrency - 2
    · refine ⟨.send, by decide, ?_⟩
      simp [ReadAhead.step, ReadAhead.send, hfetcher, hdropped, hroom]
    · refine ⟨.take, by decide, ?_⟩
      simp only [ReadAhead.step, ReadAhead.take, hdropped, hlearned, hfetcher, receiveNext]
      cases hqueue : s.queue with
      | cons item queue => simp
      | nil =>
        rw [hqueue, List.length_nil] at hroom
        have htwo : concurrency = 2 := by omega
        simp [htwo]

end Threaded

/-! ## Runs -/

/-- A bound on the steps to come. -/
def work (s : ReadAhead Page ε) : Nat :=
  3 * s.pager.upcoming.length + s.fetcher.work + s.queue.length +
    (if s.learned.isNone then 1 else 0) + (if s.dropped then 0 else 1)

theorem work_receive (h : s.learned = none) (item : Except ε Page) :
    (s.receive item).work ≤ s.work := by
  cases item with
  | ok page => exact Nat.le_refl _
  | error error => cases hdropped : s.dropped <;> simp [receive, work, h, hdropped]

theorem work_call (h : s.learned = none) : s.call.work < s.work := by
  have hcalls := calls_next s.pager
  unfold ReadAhead.call
  rcases hnext : s.pager.next with ⟨pulled, pager⟩
  rw [hnext] at hcalls
  cases hcalls with
  | page page rest hdone hpages =>
    simp [receive, work, upcoming, hdone, hpages]
  | failed error hdone hpages hending =>
    simp only [receive, work, upcoming, hdone, hpages, hending, lastItem, h, if_true, if_false,
      Bool.false_eq_true, Option.isNone_none, Option.isNone_some, List.map_nil, List.nil_append,
      List.length_nil, List.length_singleton]
    omega
  | complete hdone hpages hending =>
    simp [work, upcoming, hdone, hpages, hending, lastItem, h]
  | panicked hdone hpages hending =>
    simp [work, upcoming, hdone, hpages, hending, lastItem, h]
  | finished hdone => simp [work, upcoming, hdone, h]

/-- Every step leaves less to do. -/
theorem work_step {event : AheadEvent} (hstep : step concurrency s event = some t) :
    t.work < s.work := by
  cases event with
  | fetch =>
    simp only [step, fetch] at hstep
    split at hstep
    · rename_i hfetching
      have hcalls := calls_next s.pager
      rcases hnext : s.pager.next with ⟨pulled, pager⟩
      rw [hnext] at hstep hcalls
      cases hcalls with
      | page page rest hdone hpages =>
        cases hstep
        simp [work, upcoming, hdone, hpages, hfetching, Fetcher.work]
        omega
      | failed error hdone hpages hending =>
        cases hstep
        simp [work, upcoming, hdone, hpages, hending, hfetching, lastItem, Fetcher.work]
      | complete hdone hpages hending =>
        cases hstep
        simp [work, upcoming, hdone, hpages, hending, hfetching, lastItem, Fetcher.work]
      | panicked hdone hpages hending =>
        cases hstep
        simp [work, hfetching, Fetcher.work]
      | finished hdone =>
        cases hstep
        simp [work, hfetching, Fetcher.work]
    · cases hstep
  | send =>
    simp only [step, send] at hstep
    split at hstep
    · rename_i item hsending
      split at hstep
      · cases hstep
        simp [work, hsending, Fetcher.work]
      · split at hstep <;> cases hstep
        simp [work, hsending, Fetcher.work]
        omega
    · cases hstep
  | take =>
    simp only [step, take] at hstep
    split at hstep
    · cases hstep
    rename_i hopen
    have hnone := learned_none hopen
    split at hstep
    · cases hstep
      exact work_call hnone
    · unfold receiveNext at hstep
      split at hstep
      · rename_i _ _ item queue hqueue
        cases hstep
        refine Nat.lt_of_le_of_lt (work_receive (s := { s with queue }) hnone item) ?_
        simp [work, hqueue]
      · rename_i item hqueue hsending
        split at hstep <;> cases hstep
        refine Nat.lt_of_le_of_lt
          (work_receive (s := { s with fetcher := .fetching }) hnone item) ?_
        simp [work, hsending, Fetcher.work]
      · cases hstep
        simp [work, hnone]
      · cases hstep
  | drop =>
    simp only [step] at hstep
    split at hstep
    · cases hstep
    · rename_i hdropped
      cases hstep
      simp [work, hdropped]

theorem length_le_work (events : List AheadEvent) (hrun : run (step concurrency) s events = some t) :
    events.length + t.work ≤ s.work := by
  induction events generalizing s with
  | nil =>
    cases hrun
    exact Nat.le_of_eq (Nat.zero_add _)
  | cons event events ih =>
    obtain ⟨next, hstep, hrest⟩ := run_cons hrun
    have hlt := work_step hstep
    have hle := ih hrest
    rw [List.length_cons]
    omega

theorem work_start (concurrency : Nat) (pages : List Page) (ending : Ending ε) :
    (start concurrency (.new pages ending)).work ≤ 3 * pages.length + 6 := by
  have hlast : (lastItem ending : List (Except ε Page)).length ≤ 1 := by
    cases ending <;> simp [lastItem]
  have hfetcher : (start concurrency (.new pages ending)).fetcher.work ≤ 1 := by
    unfold start
    split <;> simp [Fetcher.work]
  simp only [work]
  simp only [start, Outcomes.new, upcoming] at hfetcher ⊢
  simp
  omega

theorem direct_start (hc : concurrency ≤ 1) (pages : List Page) (ending : Ending ε) :
    Direct pages ending (start concurrency (.new pages ending)) := by
  refine ⟨if_pos hc, rfl, rfl, fun _ => rfl, fun l hl => ?_⟩
  cases hl

theorem threaded_start (hc : 2 ≤ concurrency) (pages : List Page) (ending : Ending ε) :
    Threaded concurrency pages ending (start concurrency (.new pages ending)) := by
  have hfetcher : (start concurrency (Outcomes.new pages ending)).fetcher = .fetching :=
    if_neg (by omega)
  refine ⟨?_, ?_, rfl, nofun, Nat.zero_le _, fun hended => ?_, fun _ hstopped => ?_, fun l hl => ?_⟩
  · rw [hfetcher]
    nofun
  · rw [hfetcher]
    rfl
  · rw [hfetcher] at hended
    cases hended
  · rw [hfetcher] at hstopped
    cases hstopped
  · cases hl

theorem threaded_run (hc : 2 ≤ concurrency) {events : List AheadEvent}
    (hrun : run (step concurrency) (start concurrency (.new pages ending)) events = some s) :
    Threaded concurrency pages ending s :=
  run_invariant (fun _ _ _ _ h hstep => h.step hstep) (threaded_start hc pages ending) hrun

theorem dropped_receive (s : ReadAhead Page ε) (item : Except ε Page) :
    (s.receive item).dropped = s.dropped := by
  cases item <;> rfl

theorem dropped_step {event : AheadEvent} (hevent : event ≠ .drop)
    (hstep : step concurrency s event = some t) : t.dropped = s.dropped := by
  cases event with
  | fetch =>
    simp only [step, fetch] at hstep
    repeat' split at hstep
    all_goals cases hstep
    all_goals rfl
  | send =>
    simp only [step, send] at hstep
    repeat' split at hstep
    all_goals cases hstep
    all_goals rfl
  | take =>
    simp only [step, take, receiveNext, call] at hstep
    repeat' split at hstep
    all_goals cases hstep
    all_goals first | rfl | exact dropped_receive _ _
  | drop => exact absurd rfl hevent

theorem exists_learned (hc : 2 ≤ concurrency) (h : Threaded concurrency pages ending s)
    (hdropped : s.dropped = false) : ∃ events t, run (step concurrency) s events = some t ∧
      t.learned ≠ none := by
  induction hwork : s.work using Nat.strongRecOn generalizing s with
  | _ work ih =>
    cases hlearned : s.learned with
    | some learned => exact ⟨[], s, rfl, by rw [hlearned]; nofun⟩
    | none =>
      obtain ⟨event, hevent, hsome⟩ := h.live hc hdropped hlearned
      obtain ⟨next, hstep⟩ := Option.isSome_iff_exists.mp hsome
      have hkept : next.dropped = false := (dropped_step hevent hstep).trans hdropped
      obtain ⟨events, t, hrun, ht⟩ :=
        ih next.work (hwork ▸ work_step hstep) (h.step hstep) hkept rfl
      refine ⟨event :: events, t, ?_, ht⟩
      simp only [run, hstep, Option.bind_some, hrun]

/-- Reading ahead is transparent except where the progress callback panics. -/
theorem transparent_iff (concurrency : Nat) (pages : List Page) (ending : Ending ε) :
    Transparent concurrency pages ending ↔ concurrency ≤ 1 ∨ ending ≠ .panicked := by
  constructor
  · intro h
    by_cases hc : concurrency ≤ 1
    · exact .inl hc
    · right
      rintro rfl
      have hc : 2 ≤ concurrency := by omega
      obtain ⟨events, s, hrun, hlearned⟩ :=
        exists_learned hc (threaded_start hc pages (.panicked : Ending ε)) rfl
      obtain ⟨learned, hl⟩ := Option.ne_none_iff_exists'.mp hlearned
      obtain ⟨-, rfl⟩ := (h events s hrun).1.learns learned hl
      rcases (threaded_run hc hrun).learned _ hl with ⟨error, herror⟩ | ⟨hcomplete, -⟩
      · cases herror
      · cases hcomplete
  · intro hor events s hrun
    have hlength := length_le_work events hrun
    have hstart := work_start concurrency pages ending
    refine ⟨?_, by omega⟩
    by_cases hc : concurrency ≤ 1
    · have hdirect : Direct pages ending s :=
        run_invariant (fun _ _ _ _ h hstep => h.step hstep) (direct_start hc pages ending) hrun
      exact hdirect.faithful
    · have hc : 2 ≤ concurrency := by omega
      have hthreaded := threaded_run hc hrun
      refine ⟨hthreaded.order, fun l hl => ?_, hthreaded.bounded hc, hthreaded.live hc⟩
      obtain ⟨hreceived, hlearned | ⟨-, hpanicked⟩⟩ := hthreaded.learns hl
      · exact ⟨hreceived, hlearned⟩
      · rcases hor with hone | hnot
        · omega
        · exact absurd hpanicked hnot

/-- The callback panics at the second page, and the read takes the first for all there is. -/
theorem panic_looks_complete : ¬ ∀ (concurrency : Nat) (pages : List Nat) (ending : Ending Unit),
    Transparent concurrency pages ending := by
  intro h
  have hrun : run (step 2) (start 2 (.new [1] (.panicked : Ending Unit)))
      [.fetch, .take, .fetch, .take] = some {
        pager := .new [] .panicked
        fetcher := .ended
        queue := []
        received := [1]
        learned := some .complete
        dropped := false } := rfl
  obtain ⟨-, hlearned⟩ := (h 2 [1] .panicked _ _ hrun).1.learns .complete rfl
  cases hlearned

end ReadAhead

end Xeibe.Wfs

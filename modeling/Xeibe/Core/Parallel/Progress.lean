import Xeibe.Core.Parallel.Ordered

/-!
# The pool is never stuck

A worker takes a ticket before it takes an item, and the consumer returns it
with the item's result, so the tickets are conserved (`Tickets.conserved`).
A worker that waits has been notified when there is a ticket for it
(`Tickets.awake`).  So not every worker can wait while the consumer does: the
tickets they wait for belong to results the consumer holds, and the next of
them is among those (`InOrder.not_stuck`).
-/

namespace Xeibe

namespace Parallel

open Lib (run Yields)

variable {Item Result Panic : Type}

/-- Whether a worker holds a ticket. -/
def Phase.holdsTicket : Phase Item Panic → Bool
  | .ticket | .waiting | .leavingNotify | .ended => false
  | _ => true

/-- Whether a worker is about to look for a ticket, or to wake one that will. -/
def Phase.isAwake : Phase Item Panic → Bool
  | .ticket | .leavingNotify => true
  | _ => false

/-- Whether the consumer holds the ticket of a result. -/
def Consumer.holdsTicket : Consumer Result Panic → Bool
  | .returning _ => true
  | _ => false

def Consumer.notifies : Consumer Result Panic → Bool
  | .notifying _ => true
  | _ => false

/-- The streams a worker names exist. -/
def Phase.Names (opened : Nat) : Phase Item Panic → Prop
  | .trying _ open_ k left => k < opened ∧ (∀ k' ∈ left, k' < opened) ∧ open_ ≠ [] ∧
      ∀ k' ∈ open_, k' < opened
  | .helpingHeld head | .blocked head => head < opened
  | _ => True

theorem Phase.Names.mono {phase : Phase Item Panic} {m n : Nat} (h : phase.Names m) (hle : m ≤ n) : phase.Names n := by
  cases phase with
  | trying exhausted open_ k left =>
    obtain ⟨hk, hleft, hne, hopen⟩ := h
    exact ⟨Nat.lt_of_lt_of_le hk hle, fun k' hk' => Nat.lt_of_lt_of_le (hleft k' hk') hle, hne,
      fun k' hk' => Nat.lt_of_lt_of_le (hopen k' hk') hle⟩
  | helpingHeld head => exact Nat.lt_of_lt_of_le h hle
  | blocked head => exact Nat.lt_of_lt_of_le h hle
  | _ => exact trivial

namespace Pool

section

variable {options : MapOptions} {job : Job Item Result Panic} {panics : Panic → Prop}
  {s t : Pool Item Result Panic} {i j : Nat} {phase phase' : Phase Item Panic} {held : Held}
  {added log all : List (Except Panic Item)} {input : Streams Item Panic}

/-- The tickets of a pool. -/
def limit (options : MapOptions) : Nat := max options.inFlight options.threads

structure Tickets (options : MapOptions) (s : Pool Item Result Panic) : Prop where
  conserved : s.receiver = true → s.tickets + s.workers.countP Phase.holdsTicket +
    s.results.length + s.pending.length + s.consumer.holdsTicket.toNat = limit options
  /-- A worker waits only where the tickets there are have been announced. -/
  awake : s.cancelled = false → 0 < s.workers.countP isWaiting →
    s.tickets ≤ s.workers.countP Phase.isAwake + s.consumer.notifies.toNat
  cancelled_awake : s.cancelled = true → s.workers.countP isWaiting = 0
  names : ∀ (i : Nat) (phase : Phase Item Panic), s.workers[i]? = some phase →
    phase.Names s.opened.length

/-- What a worker's step must keep of the tickets. -/
theorem Tickets.step (h : Tickets options s) (hi : s.workers[i]? = some phase)
    (hworkers : t.workers = s.workers) (hpending : t.pending = s.pending)
    (hconsumer : SameConsumer s t) (hnames : phase'.Names t.opened.length)
    (hopened : s.opened.length ≤ t.opened.length)
    (hconserved : s.receiver = true → t.tickets + phase'.holdsTicket.toNat + t.results.length =
      s.tickets + phase.holdsTicket.toNat + s.results.length)
    (hawake : s.cancelled = false → t.tickets + phase.isAwake.toNat ≤
      s.tickets + phase'.isAwake.toNat ∨ t.tickets = 0)
    (hwaiting : isWaiting phase' = true → isWaiting phase = true ∨
      (t.tickets = 0 ∧ s.cancelled = false)) :
    Tickets options (t.setPhase i phase') := by
  have hholds := Lib.count_set (b := phase') hi Phase.holdsTicket
  have hawakes := Lib.count_set (b := phase') hi Phase.isAwake
  have hwaits := Lib.count_set (b := phase') hi isWaiting
  have toNat_eq : ∀ b : Bool, (if b = true then 1 else 0) = b.toNat := by
    intro b
    cases b <;> rfl
  rw [toNat_eq, toNat_eq] at hholds hawakes hwaits
  refine ⟨fun hreceiver => ?_, fun hcancelled hwait => ?_, fun hcancelled => ?_, ?_⟩
  · have hreceiver' : s.receiver = true := hconsumer.receiver.symm.trans hreceiver
    have hold := h.conserved hreceiver'
    have hnew := hconserved hreceiver'
    show t.tickets + (t.workers.set i phase').countP _ + t.results.length + t.pending.length +
      t.consumer.holdsTicket.toNat = _
    rw [hworkers, hpending, hconsumer.consumer]
    omega
  · have hcancelled' : s.cancelled = false := hconsumer.cancelled.symm.trans hcancelled
    have hwait' : 0 < (t.workers.set i phase').countP isWaiting := hwait
    show t.tickets ≤ (t.workers.set i phase').countP _ + t.consumer.notifies.toNat
    rw [hworkers] at hwait' ⊢
    rw [hconsumer.consumer]
    rcases hawake hcancelled' with hle | hzero
    · have hold := h.awake hcancelled'
      cases hp' : isWaiting phase' with
      | false =>
        rw [hp'] at hwaits
        simp only [Bool.toNat_false] at hwaits
        have := hold (by omega)
        omega
      | true =>
        rcases hwaiting hp' with hp | ⟨hzero, -⟩
        · rw [hp, hp'] at hwaits
          have := hold (by omega)
          omega
        · omega
    · omega
  · have hcancelled' : s.cancelled = true := hconsumer.cancelled.symm.trans hcancelled
    have hold := h.cancelled_awake hcancelled'
    show (t.workers.set i phase').countP _ = 0
    rw [hworkers]
    cases hp' : isWaiting phase' with
    | false =>
      rw [hp'] at hwaits
      simp only [Bool.toNat_false] at hwaits
      omega
    | true =>
      rcases hwaiting hp' with hp | ⟨-, hrunning⟩
      · rw [hp, hp'] at hwaits
        omega
      · rw [hcancelled'] at hrunning
        cases hrunning
  · intro j phase₂ hj
    rw [setPhase, Lib.party_set (by rw [hworkers]; exact hi)] at hj
    rcases hj with ⟨-, rfl⟩ | ⟨-, hj⟩
    · exact hnames
    · rw [hworkers] at hj
      exact (h.names j phase₂ hj).mono hopened

theorem Goes.names (hinput : Input options s) (hnames : phase.Names s.opened.length)
    (hgoes : Goes options s phase phase') : phase'.Names s.opened.length := by
  cases hgoes with
  | @copies exhausted k left hopen =>
    have hlt := hinput.opens.lt
    rw [hopen] at hlt
    exact ⟨hlt k List.mem_cons_self, fun k' hk' => hlt k' (List.mem_cons_of_mem k hk'), nofun, hlt⟩
  | @triesNext exhausted open_ k k' left =>
    obtain ⟨-, hleft, hne, hopen⟩ := hnames
    exact ⟨hleft k' List.mem_cons_self, fun k₂ hk₂ => hleft k₂ (List.mem_cons_of_mem k' hk₂), hne,
      hopen⟩
  | @allHeld exhausted open_ k =>
    obtain ⟨-, -, hne, hopen⟩ := hnames
    show open_.headD 0 < _
    cases open_ with
    | nil => exact absurd rfl hne
    | cons head rest => exact hopen head List.mem_cons_self
  | blocks => exact hnames
  | _ => exact trivial

theorem Tickets.goes (h : Tickets options s) (hinput : Input options s)
    (hi : s.workers[i]? = some phase) (hgoes : Goes options s phase phase')
    (hquiet : phase ≠ .leavingNotify) : Tickets options (s.setPhase i phase') := by
  have hnames := hgoes.names hinput (h.names i phase hi)
  refine h.step hi rfl rfl ⟨rfl, rfl, rfl⟩ hnames (Nat.le_refl _) ?_ ?_ ?_
  · intro hreceiver
    cases hgoes with
    | consumerGone hgone =>
      rw [hgone] at hreceiver
      cases hreceiver
    | _ => rfl
  · intro hrunning
    cases hgoes with
    | cancelled hcancelled =>
      rw [hcancelled] at hrunning
      cases hrunning
    | waits _ hnone => exact .inr hnone
    | wakes => exact .inl (Nat.le_succ _)
    | leaves => exact absurd rfl hquiet
    | _ => exact .inl (Nat.le_refl _)
  · cases hgoes with
    | waits hrunning hnone => exact fun _ => .inr ⟨hnone, hrunning⟩
    | _ => exact nofun

theorem Takes.tickets {item : Except Panic Item} {ends : Bool} {orElse : Phase Item Panic}
    (htakes : Takes job s phase held item ends orElse t) :
    t.tickets = s.tickets ∧ phase.holdsTicket = true ∧ phase.isAwake = false ∧
      isWaiting phase = false := by
  cases htakes <;> exact ⟨rfl, rfl, rfl, rfl⟩

theorem release_tickets (s : Pool Item Result Panic) (held : Held) :
    (s.release held).tickets = s.tickets ∧ (s.release held).opened.length = s.opened.length := by
  refine ⟨?_, (opened_release s held).1⟩
  cases held <;> rfl

theorem Tickets.holding (h : Tickets options s) (hi : s.workers[i]? = some phase)
    (hworkers : t.workers = s.workers) (hpending : t.pending = s.pending)
    (hresults : t.results = s.results) (htickets : t.tickets = s.tickets)
    (hconsumer : SameConsumer s t) (hopened : s.opened.length ≤ t.opened.length)
    (hphase : phase.holdsTicket = true ∧ phase.isAwake = false)
    (hphase' : phase'.holdsTicket = true ∧ phase'.Names t.opened.length) :
    Tickets options (t.setPhase i phase') := by
  refine h.step hi hworkers hpending hconsumer hphase'.2 hopened (fun _ => ?_) (fun _ => .inl ?_)
    fun hwaiting => ?_
  · rw [htickets, hresults, hphase.1, hphase'.1]
  · rw [htickets, hphase.2]
    exact Nat.add_le_add_left (Nat.zero_le _) _
  · cases phase' with
    | waiting => exact nomatch hphase'.1
    | _ => cases hwaiting

theorem Tickets.does (h : Tickets options s) (hi : s.workers[i]? = some phase)
    (hdoes : Does options job s i phase added t) : Tickets options t := by
  have hle := Nat.le_refl s.opened.length
  cases hdoes with
  | ticket hrunning hsome =>
    refine h.step hi rfl rfl ⟨rfl, rfl, rfl⟩ trivial hle (fun _ => ?_) (fun _ => .inl ?_) nofun
    · show s.tickets - 1 + 1 + s.results.length = s.tickets + 0 + s.results.length
      omega
    · show s.tickets - 1 + 1 ≤ s.tickets + 0
      omega
  | returns =>
    refine h.step hi rfl rfl ⟨rfl, rfl, rfl⟩ trivial hle (fun _ => rfl) (fun _ => .inl ?_) nofun
    exact Nat.le_refl _
  | sends =>
    refine h.step hi rfl rfl ⟨rfl, rfl, rfl⟩ trivial hle (fun _ => ?_) (fun _ => .inl ?_) nofun
    · show s.tickets + 0 + (s.results ++ [_]).length = s.tickets + 1 + s.results.length
      rw [List.length_append, List.length_singleton]
      omega
    · exact Nat.le_succ _
  | locksStream hk hfree hfrom =>
    refine h.holding hi rfl rfl rfl rfl ⟨rfl, rfl, rfl⟩ (Nat.le_of_eq (List.length_modify _ _ _).symm)
      ?_ ⟨rfl, trivial⟩
    rcases hfrom with rfl | ⟨_, _, _, rfl⟩ <;> exact ⟨rfl, rfl⟩
  | leavesStream hk hdone =>
    exact h.holding hi rfl rfl rfl rfl ⟨rfl, rfl, rfl⟩
      (Nat.le_of_eq (release_tickets s (.stream _)).2.symm) ⟨rfl, rfl⟩ ⟨rfl, trivial⟩
  | closes hk running hrest =>
    refine h.holding hi rfl rfl rfl rfl ⟨rfl, rfl, rfl⟩ (Nat.le_of_eq ?_) ⟨rfl, rfl⟩ ⟨rfl, trivial⟩
    show s.opened.length = ((s.opened.modify _ _).modify _ _).length
    rw [List.length_modify, List.length_modify]
  | declines hdeclines finished hfinished =>
    refine h.holding hi rfl rfl rfl rfl ⟨rfl, rfl, rfl⟩ hle ?_ ⟨rfl, trivial⟩
    cases hdeclines <;> exact ⟨rfl, rfl⟩
  | opens hstreams =>
    refine h.holding hi rfl rfl rfl rfl ⟨rfl, rfl, rfl⟩ ?_ ⟨rfl, rfl⟩ ⟨rfl, trivial⟩
    show s.opened.length ≤ (s.opened ++ [_]).length
    rw [List.length_append]
    exact Nat.le_add_right _ _
  | @drops phase held item ends orElse taken htakes hdropped =>
    obtain ⟨hnext, hresults, hpending, -, -, -⟩ := htakes.results
    obtain ⟨-, hresults', hpending', -, -⟩ := release_consumer taken held
    obtain ⟨-, -, -, hconsumer, -, -, -, -, -, rfl⟩ := htakes.shared
    obtain ⟨htickets, hholds, hawake, -⟩ := htakes.tickets
    obtain ⟨htickets', hopened⟩ := release_tickets taken held
    exact h.holding hi ((release_workers taken held).trans htakes.locks.2.2.2.2.2)
      (hpending'.trans hpending) (hresults'.trans hresults) (htickets'.trans htickets)
      (hconsumer.release held) (Nat.le_of_eq (hopened.trans htakes.opened.2.1).symm)
      ⟨hholds, hawake⟩ ⟨rfl, trivial⟩
  | @numbers phase held item orElse taken htakes hfree hrunning =>
    obtain ⟨hnext, hresults, hpending, -, -, -⟩ := htakes.results
    obtain ⟨-, hresults', hpending', -, -⟩ := release_consumer { taken with next := s.next + 1 } held
    obtain ⟨-, -, -, hconsumer, -⟩ := htakes.shared
    obtain ⟨htickets, hholds, hawake, -⟩ := htakes.tickets
    obtain ⟨htickets', hopened⟩ := release_tickets { taken with next := s.next + 1 } held
    refine h.holding hi ((release_workers _ held).trans htakes.locks.2.2.2.2.2)
      (hpending'.trans hpending) (hresults'.trans hresults) (htickets'.trans htickets) ?_
      (Nat.le_of_eq (hopened.trans htakes.opened.2.1).symm) ⟨hholds, hawake⟩ ⟨rfl, trivial⟩
    apply SameConsumer.release
    exact ⟨hconsumer.cancelled, hconsumer.receiver, hconsumer.consumer⟩
  | @ends phase held item orElse taken htakes hfree hrunning =>
    obtain ⟨hnext, hresults, hpending, -, -, -⟩ := htakes.results
    obtain ⟨-, -, -, hconsumer, -⟩ := htakes.shared
    obtain ⟨htickets, hholds, hawake, -⟩ := htakes.tickets
    exact h.holding hi htakes.locks.2.2.2.2.2 hpending hresults htickets
      ⟨hconsumer.cancelled, hconsumer.receiver, hconsumer.consumer⟩
      (Nat.le_of_eq htakes.opened.2.1.symm) ⟨hholds, hawake⟩ ⟨rfl, trivial⟩
  | @storesExhausted held seq item =>
    obtain ⟨-, hresults, hpending, -, -⟩ :=
      release_consumer { s with exhausted := true, numbersLock := none } held
    obtain ⟨htickets, hopened⟩ :=
      release_tickets { s with exhausted := true, numbersLock := none } held
    refine h.holding hi (release_workers _ held) hpending hresults htickets ?_
      (Nat.le_of_eq hopened.symm) ⟨rfl, rfl⟩ ⟨rfl, trivial⟩
    apply SameConsumer.release
    exact ⟨rfl, rfl, rfl⟩
  | _ => exact h.holding hi rfl rfl rfl rfl ⟨rfl, rfl, rfl⟩ hle ⟨rfl, rfl⟩ ⟨rfl, trivial⟩

theorem Tickets.fails (h : Tickets options s) (hi : s.workers[i]? = some phase)
    (hcalls : phase = .helping ∨ ∃ head, phase = .helpingHeld head) {panic : Panic}
    (hfails : Fails s i panic added t) : Tickets options t := by
  have hphase : phase.holdsTicket = true ∧ phase.isAwake = false := by
    rcases hcalls with rfl | ⟨_, rfl⟩ <;> exact ⟨rfl, rfl⟩
  cases hfails <;>
    exact h.holding hi rfl rfl rfl rfl ⟨rfl, rfl, rfl⟩ (Nat.le_refl _) hphase ⟨rfl, trivial⟩

/-- A notification given up to a worker that waits, if there is one. -/
theorem Tickets.notified (hwoken : Woken s t)
    (hconserved : s.receiver = true → s.tickets + s.workers.countP Phase.holdsTicket +
      s.results.length + s.pending.length + s.consumer.holdsTicket.toNat = limit options)
    (hawake : s.cancelled = false → 0 < s.workers.countP isWaiting →
      s.tickets ≤ s.workers.countP Phase.isAwake + s.consumer.notifies.toNat + 1)
    (hcancelled : s.cancelled = true → s.workers.countP isWaiting = 0)
    (hnames : ∀ (i : Nat) (phase : Phase Item Panic), s.workers[i]? = some phase →
      phase.Names s.opened.length) : Tickets options t := by
  cases hwoken with
  | @one j hj =>
    have hholds := Lib.count_set (b := .ticket) hj Phase.holdsTicket
    have hawakes := Lib.count_set (b := .ticket) hj Phase.isAwake
    have hwaits := Lib.count_set (b := .ticket) hj isWaiting
    simp only [Phase.holdsTicket, Phase.isAwake, isWaiting, if_true, if_false, Bool.false_eq_true]
      at hholds hawakes hwaits
    refine ⟨fun hreceiver => ?_, fun hrunning hwait => ?_, fun hc => ?_, ?_⟩
    · have := hconserved hreceiver
      show s.tickets + (s.workers.set j .ticket).countP _ + s.results.length + s.pending.length +
        s.consumer.holdsTicket.toNat = _
      omega
    · have hold := hawake hrunning
      have hwait' : 0 < (s.workers.set j .ticket).countP isWaiting := hwait
      show s.tickets ≤ (s.workers.set j .ticket).countP _ + s.consumer.notifies.toNat
      omega
    · have := hcancelled hc
      show (s.workers.set j .ticket).countP isWaiting = 0
      omega
    · intro i phase hi
      rw [setPhase, Lib.party_set hj] at hi
      rcases hi with ⟨-, rfl⟩ | ⟨-, hi⟩
      · exact trivial
      · exact hnames i phase hi
  | nobody hnobody =>
    refine ⟨hconserved, fun _ hwait => ?_, hcancelled, hnames⟩
    omega

theorem Tickets.leaves (h : Tickets options s) (hi : s.workers[i]? = some .leavingNotify)
    (hwoken : Woken (s.setPhase i .ended) t) : Tickets options t := by
  have hholds := Lib.count_set (b := .ended) hi Phase.holdsTicket
  have hawakes := Lib.count_set (b := .ended) hi Phase.isAwake
  have hwaits := Lib.count_set (b := .ended) hi isWaiting
  simp only [Phase.holdsTicket, Phase.isAwake, isWaiting, if_true, if_false, Bool.false_eq_true]
    at hholds hawakes hwaits
  refine Tickets.notified hwoken (fun hreceiver => ?_) (fun hrunning hwait => ?_) (fun hc => ?_) ?_
  · have := h.conserved hreceiver
    show s.tickets + (s.workers.set i .ended).countP _ + s.results.length + s.pending.length +
      s.consumer.holdsTicket.toNat = _
    omega
  · have hwait' : 0 < (s.workers.set i .ended).countP isWaiting := hwait
    have hold := h.awake hrunning
    show s.tickets ≤ (s.workers.set i .ended).countP _ + s.consumer.notifies.toNat + 1
    omega
  · have := h.cancelled_awake hc
    show (s.workers.set i .ended).countP isWaiting = 0
    omega
  · intro j phase hj
    rw [setPhase, Lib.party_set hi] at hj
    rcases hj with ⟨-, rfl⟩ | ⟨-, hj⟩
    · exact trivial
    · exact h.names j phase hj

theorem Tickets.yields (h : Tickets options s) {result : Except Panic Result}
    (hconsumer : s.consumer = .notifying result)
    (hwoken : Woken { s with consumer := .idle, output := s.output ++ [result] } t) :
    Tickets options t := by
  refine Tickets.notified hwoken (fun hreceiver => ?_) (fun hrunning hwait => ?_)
    h.cancelled_awake h.names
  · have := h.conserved hreceiver
    rw [hconsumer] at this
    exact this
  · have hold := h.awake hrunning hwait
    rw [hconsumer] at hold
    exact hold

theorem Tickets.consumes (h : Tickets options s)
    (hsent : options.preserveOrder = true → Sent job log s)
    (hinput : Input options s) (hquiet : ∀ result, s.consumer ≠ .notifying result)
    (hconsumes : ConsumerDoes options s t) : Tickets options t := by
  have hconserved := h.conserved
  have hawake := h.awake
  cases hconsumes with
  | starts hconsumer =>
    rw [hconsumer] at hconserved hawake
    exact ⟨hconserved, hawake, h.cancelled_awake, h.names⟩
  | @finds result hconsumer hordered hfound =>
    rw [hconsumer] at hconserved hawake
    refine ⟨fun hreceiver => ?_, hawake, h.cancelled_awake, h.names⟩
    -- The number that is used is pending once.
    have hold := hconserved hreceiver
    have hplaces := (hsent hordered).counted hreceiver s.nextResult
    have hmem : (s.nextResult, result) ∈ s.pending := by
      obtain ⟨before, after, hpending, -⟩ := List.lookup_eq_some_iff.1 hfound
      rw [hpending]
      exact List.mem_append_right _ List.mem_cons_self
    have hpos : 0 < s.pending.countP (·.1 == s.nextResult) :=
      List.countP_pos_iff.2 ⟨_, hmem, beq_self_eq_true _⟩
    have hsplit := List.length_eq_countP_add_countP (·.1 == s.nextResult) (l := s.pending)
    have hfilter : (s.pending.filter (·.1 != s.nextResult)).length =
        s.pending.countP (fun entry => ¬ (entry.1 == s.nextResult) = true) := by
      rw [← List.countP_eq_length_filter]
      refine List.countP_congr fun entry _ => ?_
      simp
    unfold places at hplaces
    show s.tickets + s.workers.countP _ + s.results.length + (s.pending.filter _).length + 1 = _
    have hold' : s.tickets + s.workers.countP Phase.holdsTicket + s.results.length +
        s.pending.length + 0 = limit options := hold
    split at hplaces <;> omega
  | misses hconsumer =>
    rw [hconsumer] at hconserved hawake
    exact ⟨hconserved, hawake, h.cancelled_awake, h.names⟩
  | @receives seq result results hconsumer hordered hresults =>
    rw [hconsumer, hresults] at hconserved
    rw [hconsumer] at hawake
    refine ⟨fun hreceiver => ?_, hawake, h.cancelled_awake, h.names⟩
    have hold := hconserved hreceiver
    show s.tickets + s.workers.countP _ + results.length + ((seq, result) :: s.pending).length + 0 = _
    rw [List.length_cons] at hold ⊢
    have hold' : s.tickets + s.workers.countP Phase.holdsTicket + (results.length + 1) +
        s.pending.length + 0 = limit options := hold
    omega
  | @receivesAny seq result results hconsumer hunordered hresults =>
    rw [hconsumer, hresults] at hconserved
    rw [hconsumer] at hawake
    refine ⟨fun hreceiver => ?_, hawake, h.cancelled_awake, h.names⟩
    have hold := hconserved hreceiver
    rw [List.length_cons] at hold
    show s.tickets + s.workers.countP _ + results.length + s.pending.length + 1 = _
    have hold' : s.tickets + s.workers.countP Phase.holdsTicket + (results.length + 1) +
        s.pending.length + 0 = limit options := hold
    omega
  | ends hconsumer =>
    rw [hconsumer] at hconserved hawake
    exact ⟨hconserved, hawake, h.cancelled_awake, h.names⟩
  | @returns result hconsumer =>
    rw [hconsumer] at hconserved hawake
    refine ⟨fun hreceiver => ?_, fun hrunning hwait => ?_, h.cancelled_awake, h.names⟩
    · have hold : s.tickets + s.workers.countP Phase.holdsTicket + s.results.length +
          s.pending.length + 1 = limit options := hconserved hreceiver
      show s.tickets + 1 + s.workers.countP _ + s.results.length + s.pending.length + 0 = _
      omega
    · have hold : s.tickets ≤ s.workers.countP Phase.isAwake + 0 := hawake hrunning hwait
      show s.tickets + 1 ≤ s.workers.countP _ + 1
      omega
  | yields hconsumer => exact absurd hconsumer (hquiet _)
  | drops hconsumer =>
    rw [hconsumer] at hconserved hawake
    exact ⟨hconserved, hawake, h.cancelled_awake, h.names⟩
  | cancels hconsumer =>
    rw [hconsumer] at hconserved
    refine ⟨fun hreceiver => ?_, nofun, fun _ => ?_, fun j phase hj => ?_⟩
    · show s.tickets + (wakeAll s.workers).countP _ + s.results.length + s.pending.length + _ = _
      rw [countP_wakeAll s.workers _ rfl]
      exact hconserved hreceiver
    · show (wakeAll s.workers).countP isWaiting = 0
      rw [List.countP_eq_zero]
      intro phase hphase
      obtain ⟨old, hold, rfl⟩ := List.mem_map.1 hphase
      cases old <;> exact nofun
    · rcases wakeAll_get hj with hj' | ⟨-, rfl⟩
      · exact h.names j phase hj'
      · exact trivial
  | closes hconsumer =>
    have hcancelled : s.cancelled = true := by
      rw [hinput.cancelled_eq, hconsumer]
      rfl
    refine ⟨nofun, fun hrunning => ?_, h.cancelled_awake, h.names⟩
    have hrunning' : s.cancelled = false := hrunning
    rw [hcancelled] at hrunning'
    cases hrunning'

theorem Tickets.move (h : Tickets options s) (hinput : Input options s)
    (hsent : options.preserveOrder = true → Sent job log s)
    (hmove : Move options job panics s added t) : Tickets options t := by
  cases hmove with
  | stays => exact h
  | goes hi hgoes quiet => exact h.goes hinput hi hgoes quiet
  | leaves hi hwoken => exact h.leaves hi hwoken
  | does hi hdoes => exact h.does hi hdoes
  | fails hi calls hpanic hfails => exact h.fails hi calls hfails
  | consumes hconsumes quiet => exact h.consumes hsent hinput quiet hconsumes
  | yields hconsumer hwoken => exact h.yields hconsumer hwoken

theorem tickets_new (input : Streams Item Panic) :
    Tickets options (new options input : Pool Item Result Panic) := by
  refine ⟨fun _ => ?_, fun _ hwait => ?_, nofun, fun i phase hi => ?_⟩
  · simp [new, limit, List.countP_replicate, Phase.holdsTicket, Consumer.holdsTicket]
  · simp [new, List.countP_replicate, isWaiting] at hwait
  · have hphase : phase = .ticket := List.eq_of_mem_replicate (List.mem_of_getElem? hi)
    rw [hphase]
    exact trivial

/-! ## Steps that can be made -/

theorem number_isSome (hfree : s.numbersLock = none) {item : Except Panic Item} {ends : Bool}
    {orElse : Phase Item Panic} : (s.number i held item ends orElse).isSome = true := by
  unfold number
  rw [hfree, if_neg (by simp)]
  split
  · rfl
  · split <;> rfl

theorem numbers_goes (hlocked : Locked s) (hlock : s.numbersLock = some i) :
    ∃ phase, s.workers[i]? = some phase ∧ (s.work options job i phase).isSome = true := by
  have hlt := hlocked.numbers_lt i hlock
  have hi := List.getElem?_eq_getElem hlt
  have howns := (hlocked.owns i _ hi).numbers.1 hlock
  refine ⟨_, hi, ?_⟩
  generalize s.workers[i] = phase at howns
  cases phase <;> first | rfl | cases howns

/-- With the numbers free, the owner of the list can go on. -/
theorem list_goes (hlocked : Locked s) (hfree : s.numbersLock = none)
    (hlock : s.listLock = some i) :
    ∃ phase, s.workers[i]? = some phase ∧ (s.work options job i phase).isSome = true := by
  have hlt := hlocked.list_lt i hlock
  have hi := List.getElem?_eq_getElem hlt
  have howns := hlocked.owns i _ hi
  refine ⟨_, hi, ?_⟩
  generalize s.workers[i] = phase at howns
  have hheld := howns.list.1 hlock
  have hnumbers : phase.numbers = false := by
    cases hnumbers : phase.numbers with
    | false => rfl
    | true =>
      have := howns.numbers.2 hnumbers
      rw [hfree] at this
      cases this
  cases phase with
  | finishing =>
    dsimp only [work]
    split <;> rfl
  | finishingStopped =>
    dsimp only [work]
    split <;> rfl
  | finishingLast =>
    dsimp only [work, finishLast]
    split
    · rfl
    · apply number_isSome
      exact hfree
  | openingExhausted =>
    dsimp only [work]
    split <;> rfl
  | openingRoom =>
    dsimp only [work]
    split <;> rfl
  | openingNext =>
    dsimp only [work, openNext]
    split
    · rfl
    · rfl
    · apply number_isSome
      exact hfree
  | stopping => cases hnumbers
  | exhausting => cases hnumbers
  | _ => cases hheld

/-- With the numbers free, the owner of a stream can go on. -/
theorem stream_goes (hlocked : Locked s) (hfree : s.numbersLock = none) {k : Nat}
    (hlock : s.lockOf k = some i) :
    ∃ phase, s.workers[i]? = some phase ∧ (s.work options job i phase).isSome = true := by
  have hlt := hlocked.stream_lt i k hlock
  have hi := List.getElem?_eq_getElem hlt
  have howns := hlocked.owns i _ hi
  refine ⟨_, hi, ?_⟩
  generalize s.workers[i] = phase at howns
  have hheld := (howns.stream k).1 hlock
  have hnumbers : phase.numbers = false := by
    cases hnumbers : phase.numbers with
    | false => rfl
    | true =>
      have := howns.numbers.2 hnumbers
      rw [hfree] at this
      cases this
  cases phase with
  | pulling k' =>
    cases hheld
    dsimp only [work, pull]
    unfold lockOf at hlock
    cases hk : s.opened[k]? with
    | none =>
      rw [hk] at hlock
      cases hlock
    | some stream =>
      dsimp only
      split
      · rfl
      · split
        · apply number_isSome
          exact hfree
        · apply number_isSome
          exact hfree
        · rfl
  | stopping => cases hnumbers
  | exhausting => cases hnumbers
  | _ => cases hheld

/-- A step that a party makes of its own: the helper has nothing to do, and no
worker wakes up without being notified. -/
inductive Steps (options : MapOptions) (job : Job Item Result Panic) (s : Pool Item Result Panic) :
    Prop where
  | work (i : Nat) (h : (s.step options job (.work i)).isSome = true)
  | help (i : Nat) (h : (s.step options job (.help i (.ok false))).isSome = true)
  | notify (i : Nat) (woken : Option Nat)
    (h : (s.step options job (.notify i woken)).isSome = true)
  | consume (h : (s.step options job .consume).isSome = true)
  | consumerNotify (woken : Option Nat)
    (h : (s.step options job (.consumerNotify woken)).isSome = true)

theorem notifyOne_isSome (s : Pool Item Result Panic) :
    ∃ woken, (s.notifyOne woken).isSome = true := by
  cases hany : s.workers.any isWaiting with
  | true =>
    obtain ⟨phase, hphase, hwaiting⟩ := List.any_eq_true.1 hany
    obtain ⟨j, hj⟩ := List.mem_iff_getElem?.1 hphase
    refine ⟨some j, ?_⟩
    dsimp only [notifyOne]
    rw [hj]
    cases phase <;> first | rfl | cases hwaiting
  | false =>
    refine ⟨none, ?_⟩
    unfold notifyOne
    dsimp only
    rw [hany, if_neg Bool.false_ne_true]
    rfl

/-- Some worker can go on, or all that have not ended wait. -/
theorem worker_steps (hlocked : Locked s) (htickets : Tickets options s) :
    Steps options job s ∨ ∀ phase ∈ s.workers, phase = .waiting ∨ phase = .ended := by
  have works : ∀ {i : Nat}, (∃ phase, s.workers[i]? = some phase ∧
      (s.work options job i phase).isSome = true) → Steps options job s := by
    rintro i ⟨phase, hi, hwork⟩
    refine .work i ?_
    dsimp only [step]
    rw [hi]
    exact hwork
  cases hnumbers : s.numbersLock with
  | some i => exact .inl (works (numbers_goes hlocked hnumbers))
  | none =>
    cases hlist : s.listLock with
    | some i => exact .inl (works (list_goes hlocked hnumbers hlist))
    | none =>
      by_cases hstreams : ∃ k i, s.lockOf k = some i
      · obtain ⟨k, i, hlock⟩ := hstreams
        exact .inl (works (stream_goes hlocked hnumbers hlock))
      · -- No lock is held, so whoever does not wait can go on.
        by_cases hall : ∀ phase ∈ s.workers, phase = .waiting ∨ phase = .ended
        · exact .inr hall
        · left
          push Not at hall
          obtain ⟨phase, hphase, hwaiting, hended⟩ := hall
          obtain ⟨i, hi⟩ := List.mem_iff_getElem?.1 hphase
          have howns := hlocked.owns i phase hi
          have hnames := htickets.names i phase hi
          have hfree : ∀ (k : Nat) (stream : OpenStream Item Panic), s.opened[k]? = some stream →
              stream.lock = none := by
            intro k stream hk
            cases hlock : stream.lock with
            | none => rfl
            | some i' =>
              refine absurd ⟨k, i', ?_⟩ hstreams
              rw [lockOf, hk]
              exact hlock
          have hheld : phase.held = .none := by
            cases hheld : phase.held with
            | none => rfl
            | list =>
              have := howns.list.2 hheld
              rw [hlist] at this
              cases this
            | stream k => exact absurd ⟨k, i, (howns.stream k).2 hheld⟩ hstreams
          have hnumbers' : phase.numbers = false := by
            cases hnumbers' : phase.numbers with
            | false => rfl
            | true =>
              have := howns.numbers.2 hnumbers'
              rw [hnumbers] at this
              cases this
          cases phase with
          | ticket => exact works ⟨_, hi, rfl⟩
          | helping =>
            refine .help i ?_
            dsimp only [step]
            rw [hi]
            rfl
          | checkStopped => exact works ⟨_, hi, rfl⟩
          | checkExhausted => exact works ⟨_, hi, rfl⟩
          | listOpen exhausted =>
            refine works ⟨_, hi, ?_⟩
            dsimp only [work]
            split <;> rfl
          | trying exhausted open_ k left =>
            refine works ⟨_, hi, ?_⟩
            have hk := List.getElem?_eq_getElem hnames.1
            dsimp only [work, lockStream]
            rw [hk]
            dsimp only
            rw [hfree k _ hk]
            rfl
          | helpingHeld head =>
            refine .help i ?_
            dsimp only [step]
            rw [hi]
            rfl
          | blocked head =>
            refine works ⟨_, hi, ?_⟩
            have hk := List.getElem?_eq_getElem (show head < s.opened.length from hnames)
            dsimp only [work, lockStream]
            rw [hk]
            dsimp only
            rw [hfree head _ hk]
            rfl
          | ending =>
            refine works ⟨_, hi, ?_⟩
            dsimp only [work, lockList]
            rw [hlist]
            rfl
          | opening =>
            refine works ⟨_, hi, ?_⟩
            dsimp only [work, lockList]
            rw [hlist]
            rfl
          | mapping seq item =>
            refine works ⟨_, hi, ?_⟩
            dsimp only [work]
            split <;> rfl
          | leaving => exact works ⟨_, hi, rfl⟩
          | leavingNotify =>
            obtain ⟨woken, hwoken⟩ := notifyOne_isSome (s.setPhase i .ended)
            refine .notify i woken ?_
            dsimp only [step]
            rw [hi]
            exact hwoken
          | waiting => exact absurd rfl hwaiting
          | ended => exact absurd rfl hended
          | stopping => cases hnumbers'
          | exhausting => cases hnumbers'
          | _ => cases hheld

/-- Where every worker waits, or has ended, and one waits, the result the
consumer needs next has been handed over: the tickets they wait for belong to
results, and the next result is among those. -/
theorem InOrder.handed_over (h : InOrder options job panics all log s)
    (hthreads : 0 < options.threads) (htickets : Tickets options s)
    (hreturns : s.consumer.holdsTicket = false) (hnotifies : s.consumer.notifies = false)
    (hwaiting : ∀ phase ∈ s.workers, phase = .waiting ∨ phase = .ended)
    (hone : 0 < s.workers.countP isWaiting) :
    ∃ entry ∈ s.results ++ s.pending, entry.1 = s.nextResult := by
  have hrunning : s.cancelled = false := by
    cases hcancelled : s.cancelled with
    | false => rfl
    | true =>
      rw [htickets.cancelled_awake hcancelled] at hone
      omega
  have hreceiver : s.receiver = true := by
    cases hreceiver : s.receiver with
    | true => rfl
    | false =>
      rw [h.input.receiver_gone hreceiver] at hrunning
      cases hrunning
  have hnone : ∀ p : Phase Item Panic → Bool, p .waiting = false → p .ended = false →
      s.workers.countP p = 0 := by
    intro p hp hp'
    rw [List.countP_eq_zero]
    intro phase hphase
    rcases hwaiting phase hphase with rfl | rfl
    · rw [hp]
      exact Bool.false_ne_true
    · rw [hp']
      exact Bool.false_ne_true
  -- No ticket is free, so every ticket belongs to a result.
  have hawake := htickets.awake hrunning hone
  have hconserved := htickets.conserved hreceiver
  rw [hnone _ rfl rfl, hnotifies, Bool.toNat_false] at hawake
  rw [hnone _ rfl rfl, hreturns, Bool.toNat_false] at hconserved
  have hlimit : 0 < limit options := Nat.lt_of_lt_of_le hthreads (Nat.le_max_right _ _)
  have hresults : 0 < (s.results ++ s.pending).length := by
    rw [List.length_append]
    omega
  obtain ⟨entry, hentry⟩ := List.exists_mem_of_length_pos hresults
  -- Its number is not used yet, so the next one has been given out, and it is
  -- with none of the workers.
  have hplaced : ∀ seq, s.places seq = (s.results ++ s.pending).countP (·.1 == seq) := by
    intro seq
    unfold places
    rw [hnone _ rfl rfl, List.countP_append, Nat.zero_add]
  have hentryPlace := h.sent.counted hreceiver entry.1
  have hnextPlace := h.sent.counted hreceiver s.nextResult
  rw [hplaced] at hentryPlace hnextPlace
  have hpos : 0 < (s.results ++ s.pending).countP (·.1 == entry.1) :=
    List.countP_pos_iff.2 ⟨entry, hentry, beq_self_eq_true _⟩
  have hrange : s.nextResult ≤ entry.1 ∧ entry.1 < log.length := by
    by_contra hout
    rw [if_neg hout] at hentryPlace
    omega
  rw [if_pos ⟨Nat.le_refl _, Nat.lt_of_le_of_lt hrange.1 hrange.2⟩] at hnextPlace
  have hnextPos : 0 < (s.results ++ s.pending).countP (·.1 == s.nextResult) := by omega
  obtain ⟨next, hnext, hseq⟩ := List.countP_pos_iff.1 hnextPos
  exact ⟨next, hnext, beq_iff_eq.1 hseq⟩

/-- Workers that all wait, or have ended, leave the consumer what it waits
for. -/
theorem InOrder.not_all_waiting (h : InOrder options job panics all log s)
    (hthreads : 0 < options.threads) (htickets : Tickets options s)
    (hconsumer : s.consumer = .receiving) (hresults : s.results = [])
    (hwaiting : ∀ phase ∈ s.workers, phase = .waiting ∨ phase = .ended) :
    ∀ phase ∈ s.workers, phase = .ended := by
  by_contra hsome
  push Not at hsome
  obtain ⟨phase, hphase, hne⟩ := hsome
  have hone : 0 < s.workers.countP isWaiting := by
    refine List.countP_pos_iff.2 ⟨phase, hphase, ?_⟩
    rcases hwaiting phase hphase with rfl | rfl
    · rfl
    · exact absurd rfl hne
  obtain ⟨entry, hentry, hseq⟩ := h.handed_over hthreads htickets (by rw [hconsumer]; rfl)
    (by rw [hconsumer]; rfl) hwaiting hone
  rw [hresults, List.nil_append] at hentry
  have := List.lookup_eq_none_iff.1 (h.missing hconsumer) entry hentry
  rw [hseq] at this
  simp at this

/-- While the map is neither used up nor dropped, some party can make a step,
if workers that all wait, or have ended, leave the consumer what it waits
for. -/
theorem Input.not_stuck (h : Input options s) (htickets : Tickets options s)
    (hconsumer : ∀ ended, s.consumer ≠ .gone ended)
    (hended : s.consumer = .receiving → s.results = [] →
      (∀ phase ∈ s.workers, phase = .waiting ∨ phase = .ended) →
      ∀ phase ∈ s.workers, phase = .ended) : Steps options job s := by
  have consumes : (s.consume options).isSome = true → Steps options job s := .consume
  cases hc : s.consumer with
  | idle =>
    apply consumes
    unfold consume
    rw [hc]
    rfl
  | looking =>
    apply consumes
    unfold consume
    rw [hc]
    dsimp only
    split <;> rfl
  | returning result =>
    apply consumes
    unfold consume
    rw [hc]
    rfl
  | notifying result =>
    obtain ⟨woken, hwoken⟩ := notifyOne_isSome
      { s with consumer := .idle, output := s.output ++ [result] }
    refine .consumerNotify woken ?_
    dsimp only [Pool.step]
    rw [hc]
    exact hwoken
  | dropping ended =>
    apply consumes
    unfold consume
    rw [hc]
    rfl
  | closing ended =>
    apply consumes
    unfold consume
    rw [hc]
    rfl
  | gone ended => exact absurd hc (hconsumer ended)
  | receiving =>
    cases hresults : s.results with
    | cons entry results =>
      apply consumes
      unfold consume
      rw [hc, hresults]
      dsimp only
      split <;> rfl
    | nil =>
      rcases worker_steps h.locked htickets with hsteps | hwaiting
      · exact hsteps
      · have hended' := hended hc hresults hwaiting
        apply consumes
        unfold consume
        rw [hc, hresults]
        show (if _ then _ else _ : Option _).isSome = true
        rw [if_pos]
        · rfl
        · rw [List.all_eq_true]
          intro phase hphase
          rw [hended' phase hphase]

theorem InOrder.not_stuck (h : InOrder options job panics all log s)
    (hthreads : 0 < options.threads) (htickets : Tickets options s)
    (hconsumer : ∀ ended, s.consumer ≠ .gone ended) : Steps options job s :=
  h.input.not_stuck htickets hconsumer (h.not_all_waiting hthreads htickets)

theorem tickets_run {events : List (Event Panic)} (hordered : options.preserveOrder = true)
    (hthreads : 0 < options.threads)
    (hrun : run (Pool.step options job) (new options input) events = some s) :
    Tickets options s := by
  have hinv := Lib.run_invariant (I := fun s => Tickets options s ∧ ∃ log, InOrder options job
    (fun panic => ∃ i, .help i (.error panic) ∈ events) (input.all job.endsInput) log s) ?_
    ⟨tickets_new input, [], inOrder_new hthreads⟩ hrun
  · exact hinv.1
  · rintro s e s' he ⟨htickets, log, h⟩ hstep
    obtain ⟨added, hmove⟩ := step_moves hstep
    obtain ⟨added', h'⟩ := h.step hordered (fun i panic heq => ⟨i, heq ▸ he⟩) hstep
    exact ⟨htickets.move h.input (fun _ => h.sent) hmove, _, h'⟩

theorem InOrder.log_prefix (h : InOrder options job panics all log s) :
    ∃ expected, (expected = all ∨ CutShort panics all expected) ∧ log <+: expected ∧
      (s.consumer.returnedNone = true → log = expected) := by
  by_cases hnone : s.consumer.returnedNone = true
  · obtain ⟨-, -, hused⟩ := h.complete hnone
    exact ⟨log, hused, List.prefix_refl log, fun _ => rfl⟩
  · rcases h.flow with hall | ⟨-, hcut⟩
    · exact ⟨all, .inl rfl, ⟨_, hall⟩, fun hnone' => absurd hnone' hnone⟩
    · exact ⟨log, .inr hcut, List.prefix_refl log, fun _ => rfl⟩

/-- In order, whatever the interleaving: what `next` returns is a beginning of
what the map on the calling thread yields, all of it once `next` has returned
`None`, and until then, or until the map is dropped, some party can make a
step.  A panic of the helper, which the calling thread does not call, cuts it
short. -/
theorem ordered_eq_sequential {events : List (Event Panic)}
    (hordered : options.preserveOrder = true) (hthreads : 2 ≤ options.threads)
    (hrun : run (Pool.step options job) (new options input) events = some s) :
    ∃ sequential expected, Yields (inlineNext job) (Sequential.new input) sequential ∧
      (expected = sequential ∨ ∃ i panic n, Event.help i (.error panic) ∈ events ∧
        expected = sequential.take n ++ [.error panic]) ∧
      s.output <+: expected ∧ (s.consumer.returnedNone = true → s.output = expected) ∧
      ((∀ ended, s.consumer ≠ .gone ended) → Steps options job s) := by
  have hpos : 0 < options.threads := by omega
  obtain ⟨log, h⟩ := inOrder_run hordered hpos hrun
  obtain ⟨expected, hexpected, hstarts, hcomplete⟩ := h.log_prefix
  obtain ⟨houtput, hall⟩ := h.output
  refine ⟨_, expected.map job.apply, inline_yields job input, ?_, ?_, ?_, ?_⟩
  · rcases hexpected with rfl | ⟨n, panic, ⟨i, hhelp⟩, rfl⟩
    · exact .inl rfl
    · refine .inr ⟨i, panic, n, hhelp, ?_⟩
      rw [List.map_append, List.map_take]
      rfl
  · exact houtput.trans (hstarts.map job.apply)
  · intro hnone
    rw [hall hnone, hcomplete hnone]
  · exact h.not_stuck hpos (tickets_run hordered hpos hrun)

/-- Two workers over one item: worker 0 maps it and looks for more, worker 1
finds the input used up, then the consumer takes the result. -/
def oneItemEvents : List (Event Nat) :=
  [.work 0, .help 0 (.ok false)] ++ List.replicate 14 (.work 0) ++ [.help 0 (.ok false)] ++
    List.replicate 21 (.work 0) ++ [.notify 0 none, .work 1, .help 1 (.ok false)] ++
    List.replicate 4 (.work 1) ++ [.notify 1 none] ++ List.replicate 5 .consume ++
    [.consumerNotify none] ++ List.replicate 3 .consume

def oneItemJob : Job Nat Nat Nat := ⟨(· == 9), fun n => .ok (n + 1)⟩

theorem ordered_eq_sequential_one_item :
    ∃ s, run (Pool.step ⟨2, 1, 3, true⟩ oneItemJob) (new ⟨2, 1, 3, true⟩ ⟨[.ok [.ok 1]], none⟩)
        oneItemEvents = some s ∧
      s.output = [.ok 2] ∧
      ∃ sequential expected,
        Yields (inlineNext oneItemJob) (Sequential.new ⟨[.ok [.ok 1]], none⟩) sequential ∧
        (expected = sequential ∨ ∃ i panic n, Event.help i (.error panic) ∈ oneItemEvents ∧
          expected = sequential.take n ++ [.error panic]) ∧
        s.output <+: expected ∧ (s.consumer.returnedNone = true → s.output = expected) ∧
        ((∀ ended, s.consumer ≠ .gone ended) → Steps ⟨2, 1, 3, true⟩ oneItemJob s) := by
  have houtput : (run (Pool.step ⟨2, 1, 3, true⟩ oneItemJob)
      (new ⟨2, 1, 3, true⟩ ⟨[.ok [.ok 1]], none⟩) oneItemEvents).map output = some [.ok 2] := by
    decide +kernel
  obtain ⟨s, hrun, hs⟩ := Option.map_eq_some_iff.1 houtput
  exact ⟨s, hrun, hs, ordered_eq_sequential rfl (Nat.le_refl 2) hrun⟩

/-- In order, whatever the interleaving, in every state reached: the numbers
given out so far have been used in order, or are in one place each; unless
the map is used up or dropped, some party can make a step; a number the
consumer waits for is with a worker, or a worker still looks for its item; and
workers do not all wait for tickets before the consumer has been handed the
result it needs next. -/
theorem ordered_never_stuck {events : List (Event Panic)} (hordered : options.preserveOrder = true)
    (hthreads : 0 < options.threads)
    (hrun : run (Pool.step options job) (new options input) events = some s) :
    (s.receiver = true → s.nextResult ≤ s.next ∧
      ∀ seq, s.places seq = if s.nextResult ≤ seq ∧ seq < s.next then 1 else 0) ∧
    ((∀ ended, s.consumer ≠ .gone ended) → Steps options job s) ∧
    (s.consumer = .receiving → s.results = [] → s.consume options = none →
      ∃ phase ∈ s.workers, phase ≠ .ended ∧
        (s.nextResult < s.next → phase.has s.nextResult = true)) ∧
    (s.consumer.holdsTicket = false → s.consumer.notifies = false →
      (∀ phase ∈ s.workers, phase = .waiting ∨ phase = .ended) →
      0 < s.workers.countP isWaiting →
      ∃ entry ∈ s.results ++ s.pending, entry.1 = s.nextResult) := by
  obtain ⟨log, h⟩ := inOrder_run hordered hthreads hrun
  have htickets := tickets_run hordered hthreads hrun
  have hnext := h.sent.next_eq
  refine ⟨fun hreceiver => ?_, h.not_stuck hthreads htickets, fun hconsumer hresults hwaits => ?_,
    h.handed_over hthreads htickets⟩
  · rw [hnext]
    exact ⟨h.sent.nextResult_le, h.sent.counted hreceiver⟩
  · have hreceiver : s.receiver = true := by
      rw [h.input.receiver_eq, hconsumer]
      rfl
    by_cases hgiven : s.nextResult < s.next
    · -- The number is neither pending nor on its way, so a worker has it.
      have hplace := h.sent.counted hreceiver s.nextResult
      have hpending : s.pending.countP (·.1 == s.nextResult) = 0 := by
        rw [List.countP_eq_zero]
        intro entry hentry hseq
        have := List.lookup_eq_none_iff.1 (h.missing hconsumer) entry hentry
        rw [beq_iff_eq.1 hseq] at this
        simp at this
      unfold places at hplace
      rw [hresults, hpending, ← hnext, if_pos ⟨Nat.le_refl _, hgiven⟩] at hplace
      have hpos : 0 < s.workers.countP (Phase.has s.nextResult) := by
        simp only [List.countP_nil] at hplace
        omega
      obtain ⟨phase, hphase, hhas⟩ := List.countP_pos_iff.1 hpos
      refine ⟨phase, hphase, ?_, fun _ => hhas⟩
      rintro rfl
      cases hhas
    · by_contra hall
      push Not at hall
      have hended : ∀ phase ∈ s.workers, phase = .ended := by
        intro phase hphase
        by_contra hne
        exact hgiven (hall phase hphase hne).1
      unfold consume at hwaits
      rw [hconsumer, hresults] at hwaits
      dsimp only at hwaits
      rw [if_pos] at hwaits
      · cases hwaits
      · rw [List.all_eq_true]
        intro phase hphase
        rw [hended phase hphase]

/-- The workers look for an item while the consumer waits. -/
theorem ordered_never_stuck_waiting :
    ∃ s, run (Pool.step ⟨2, 1, 3, true⟩ oneItemJob) (new ⟨2, 1, 3, true⟩ ⟨[.ok [.ok 1]], none⟩)
        [.consume, .consume, .work 0] = some s ∧
      s.consumer = .receiving ∧ s.consume ⟨2, 1, 3, true⟩ = none ∧
      ∃ phase ∈ s.workers, phase ≠ .ended ∧
        (s.nextResult < s.next → phase.has s.nextResult = true) := by
  have hrun : run (Pool.step ⟨2, 1, 3, true⟩ oneItemJob)
      (new ⟨2, 1, 3, true⟩ ⟨[.ok [.ok 1]], none⟩) [.consume, .consume, .work 0] =
        some { (new ⟨2, 1, 3, true⟩ ⟨[.ok [.ok 1]], none⟩ : Pool Nat Nat Nat) with
          tickets := 1, consumer := .receiving, workers := [.helping, .ticket] } := by
    rfl
  refine ⟨_, hrun, rfl, rfl, ?_⟩
  obtain ⟨-, -, hwaits, -⟩ := ordered_never_stuck rfl Nat.zero_lt_two hrun
  exact hwaits rfl rfl rfl

end

end Pool

end Parallel

end Xeibe

import Xeibe.Core.Parallel.Progress

/-!
# Items in flight

A ticket is free, or it is with a worker that looks for an item, or it belongs
to an item that has its number and whose result the consumer has not received
(`Accounted.tickets`).  So there are never more such items than tickets,
whatever the interleaving, and whether or not the map is dropped in between.
-/

namespace Xeibe

namespace Parallel

open Lib (run)

variable {Item Result Panic : Type}

/-- Whether a worker has a numbered item, or its result. -/
def Phase.numbered : Phase Item Panic → Bool
  | .stopping _ _ _ | .exhausting _ _ _ | .mapping _ _ => true
  | _ => false

/-- Whether a worker has a ticket and no numbered item: it looks for one, or has
one in its hand that is about to be numbered. -/
def Phase.seeks (phase : Phase Item Panic) : Bool := phase.holdsTicket && !phase.numbered

namespace Pool

section

variable {options : MapOptions} {job : Job Item Result Panic} {panics : Panic → Prop}
  {s t : Pool Item Result Panic} {i : Nat} {phase phase' : Phase Item Panic} {held : Held}
  {added : List (Except Panic Item)}

/-- The results the consumer has received, the one that `next` is about to
return among them. -/
def received (s : Pool Item Result Panic) : Nat := s.output.length + s.consumer.notifies.toNat

/-- The items that are numbered and still somewhere: with a worker, on their way
to the consumer, or pending there. -/
def inFlight (s : Pool Item Result Panic) : Nat :=
  s.workers.countP Phase.numbered + s.results.length + s.pending.length +
    s.consumer.holdsTicket.toNat

/-- The items taken from the input: the numbered ones, and those that workers may
have in their hands. -/
def taken (s : Pool Item Result Panic) : Nat := s.next + s.workers.countP Phase.seeks

structure Accounted (options : MapOptions) (s : Pool Item Result Panic) : Prop where
  tickets : s.taken + s.tickets = s.received + limit options
  -- What is numbered is in one place at most; none once its result is dropped.
  places : s.inFlight + s.received ≤ s.next

/-! ## Workers -/

/-- What a worker's step must keep. -/
theorem Accounted.step (h : Accounted options s) (hi : s.workers[i]? = some phase)
    (hworkers : t.workers = s.workers) (hconsumer : t.consumer = s.consumer)
    (houtput : t.output = s.output) (hpending : t.pending = s.pending)
    (htickets : t.next + phase'.seeks.toNat + t.tickets = s.next + phase.seeks.toNat + s.tickets)
    (hplaces : phase'.numbered.toNat + t.results.length + s.next ≤
      phase.numbered.toNat + s.results.length + t.next) :
    Accounted options (t.setPhase i phase') := by
  have hseeks := Lib.count_set (b := phase') hi Phase.seeks
  have hnumbered := Lib.count_set (b := phase') hi Phase.numbered
  have toNat_eq : ∀ b : Bool, (if b = true then 1 else 0) = b.toNat := by
    intro b
    cases b <;> rfl
  rw [toNat_eq, toNat_eq] at hseeks hnumbered
  have hold := h.tickets
  have hold' := h.places
  unfold taken received at hold
  unfold inFlight received at hold'
  constructor
  · show t.next + (t.workers.set i phase').countP _ + t.tickets =
      t.output.length + t.consumer.notifies.toNat + _
    rw [hworkers, hconsumer, houtput]
    omega
  · show (t.workers.set i phase').countP _ + t.results.length + t.pending.length +
      t.consumer.holdsTicket.toNat + (t.output.length + t.consumer.notifies.toNat) ≤ t.next
    rw [hworkers, hconsumer, houtput, hpending]
    omega

theorem Accounted.keep (h : Accounted options s) (hi : s.workers[i]? = some phase)
    (hworkers : t.workers = s.workers) (hconsumer : t.consumer = s.consumer)
    (houtput : t.output = s.output) (hpending : t.pending = s.pending)
    (hresults : t.results = s.results) (hnext : t.next = s.next) (htickets : t.tickets = s.tickets)
    (hphase : phase'.seeks = phase.seeks ∧ phase'.numbered = phase.numbered) :
    Accounted options (t.setPhase i phase') := by
  refine h.step hi hworkers hconsumer houtput hpending ?_ ?_
  · rw [hnext, htickets, hphase.1]
  · exact Nat.le_of_eq (by rw [hnext, hresults, hphase.2])

theorem Accounted.number (h : Accounted options s) (hi : s.workers[i]? = some phase)
    (hworkers : t.workers = s.workers) (hconsumer : t.consumer = s.consumer)
    (houtput : t.output = s.output) (hpending : t.pending = s.pending)
    (hresults : t.results = s.results) (hnext : t.next = s.next + 1)
    (htickets : t.tickets = s.tickets) (hseeks : phase.seeks = true)
    (hphase : phase'.seeks = false ∧ phase'.numbered = true) :
    Accounted options (t.setPhase i phase') := by
  refine h.step hi hworkers hconsumer houtput hpending ?_ ?_
  · rw [hnext, htickets, hseeks, hphase.1]
    rfl
  · rw [hnext, hresults, hphase.2]
    show 1 + s.results.length + s.next ≤ phase.numbered.toNat + s.results.length + (s.next + 1)
    omega

theorem Accounted.goes (h : Accounted options s) (hi : s.workers[i]? = some phase)
    (hgoes : Goes options s phase phase') : Accounted options (s.setPhase i phase') := by
  cases hgoes with
  | consumerGone hgone =>
    refine h.step hi rfl rfl rfl rfl rfl ?_
    show 0 + s.results.length + s.next ≤ 1 + s.results.length + s.next
    omega
  | _ => exact h.keep hi rfl rfl rfl rfl rfl rfl rfl ⟨rfl, rfl⟩

theorem Takes.seeks {item : Except Panic Item} {ends : Bool} {orElse : Phase Item Panic}
    (htakes : Takes job s phase held item ends orElse t) :
    phase.seeks = true ∧ phase.numbered = false ∧ orElse.seeks = true ∧
      orElse.numbered = false ∧ t.consumer = s.consumer := by
  cases htakes <;> exact ⟨rfl, rfl, rfl, rfl, rfl⟩

theorem release_holder (s : Pool Item Result Panic) (held : Held) :
    (s.release held).consumer = s.consumer := by
  cases held <;> rfl

theorem Accounted.does (h : Accounted options s) (hi : s.workers[i]? = some phase)
    (hdoes : Does options job s i phase added t) : Accounted options t := by
  cases hdoes with
  | ticket hrunning hsome =>
    refine h.step hi rfl rfl rfl rfl ?_ (Nat.le_refl _)
    show s.next + 1 + (s.tickets - 1) = s.next + 0 + s.tickets
    omega
  | returns =>
    refine h.step hi rfl rfl rfl rfl ?_ (Nat.le_refl _)
    show s.next + 0 + (s.tickets + 1) = s.next + 1 + s.tickets
    omega
  | sends =>
    refine h.step hi rfl rfl rfl rfl rfl ?_
    show 0 + (s.results ++ [_]).length + s.next ≤ 1 + s.results.length + s.next
    rw [List.length_append, List.length_singleton]
    omega
  | locksStream hk hfree hfrom =>
    refine h.keep hi rfl rfl rfl rfl rfl rfl rfl ?_
    rcases hfrom with rfl | ⟨_, _, _, rfl⟩ <;> exact ⟨rfl, rfl⟩
  | declines hdeclines finished hfinished =>
    refine h.keep hi rfl rfl rfl rfl rfl rfl rfl ?_
    cases hdeclines <;> exact ⟨rfl, rfl⟩
  | @drops phase held item ends orElse taken htakes hdropped =>
    obtain ⟨hnext, hresults, hpending, -, houtput, -⟩ := htakes.results
    obtain ⟨hnext', hresults', hpending', -, houtput'⟩ := release_consumer taken held
    obtain ⟨hseeks, hnumbered, hseeks', hnumbered', hconsumer⟩ := htakes.seeks
    exact h.keep hi ((release_workers taken held).trans htakes.locks.2.2.2.2.2)
      ((release_holder taken held).trans hconsumer) (houtput'.trans houtput)
      (hpending'.trans hpending) (hresults'.trans hresults) (hnext'.trans hnext)
      ((release_tickets taken held).1.trans htakes.tickets.1)
      ⟨hseeks'.trans hseeks.symm, hnumbered'.trans hnumbered.symm⟩
  | @numbers phase held item orElse taken htakes hfree hrunning =>
    obtain ⟨-, hresults, hpending, -, houtput, -⟩ := htakes.results
    obtain ⟨hnext', hresults', hpending', -, houtput'⟩ :=
      release_consumer { taken with next := s.next + 1 } held
    obtain ⟨hseeks, -, -, -, hconsumer⟩ := htakes.seeks
    exact h.number hi ((release_workers _ held).trans htakes.locks.2.2.2.2.2)
      ((release_holder _ held).trans hconsumer) (houtput'.trans houtput)
      (hpending'.trans hpending) (hresults'.trans hresults) hnext'
      ((release_tickets _ held).1.trans htakes.tickets.1) hseeks ⟨rfl, rfl⟩
  | @ends phase held item orElse taken htakes hfree hrunning =>
    obtain ⟨-, hresults, hpending, -, houtput, -⟩ := htakes.results
    obtain ⟨hseeks, -, -, -, hconsumer⟩ := htakes.seeks
    exact h.number hi htakes.locks.2.2.2.2.2 hconsumer houtput hpending hresults rfl
      htakes.tickets.1 hseeks ⟨rfl, rfl⟩
  | @storesExhausted held seq item =>
    obtain ⟨hnext, hresults, hpending, -, houtput⟩ :=
      release_consumer { s with exhausted := true, numbersLock := none } held
    exact h.keep hi (release_workers _ held) (release_holder _ held) houtput hpending hresults hnext
      (release_tickets _ held).1 ⟨rfl, rfl⟩
  | _ => exact h.keep hi rfl rfl rfl rfl rfl rfl rfl ⟨rfl, rfl⟩

theorem Accounted.fails (h : Accounted options s) (hi : s.workers[i]? = some phase)
    (hcalls : phase = .helping ∨ ∃ head, phase = .helpingHeld head) {panic : Panic}
    (hfails : Fails s i panic added t) : Accounted options t := by
  have hphase : phase.seeks = true ∧ phase.numbered = false := by
    rcases hcalls with rfl | ⟨_, rfl⟩ <;> exact ⟨rfl, rfl⟩
  cases hfails with
  | drops hstopped =>
    exact h.keep hi rfl rfl rfl rfl rfl rfl rfl ⟨hphase.1.symm, hphase.2.symm⟩
  | ends hfree hrunning => exact h.number hi rfl rfl rfl rfl rfl rfl rfl hphase.1 ⟨rfl, rfl⟩

theorem Accounted.woken (h : Accounted options s) (hwoken : Woken s t) : Accounted options t := by
  cases hwoken with
  | one hj => exact h.keep hj rfl rfl rfl rfl rfl rfl rfl ⟨rfl, rfl⟩
  | nobody hnobody => exact h

/-! ## The consumer -/

/-- A step of the consumer that receives nothing. -/
theorem Accounted.waits (h : Accounted options s) (hnext : t.next = s.next)
    (hworkers : ∀ p : Phase Item Panic → Bool, p .waiting = p .ticket →
      t.workers.countP p = s.workers.countP p)
    (htickets : t.tickets = s.tickets) (hreceived : t.received = s.received)
    (hplaces : t.results.length + t.pending.length + t.consumer.holdsTicket.toNat ≤
      s.results.length + s.pending.length + s.consumer.holdsTicket.toNat) :
    Accounted options t := by
  have hold := h.tickets
  have hold' := h.places
  unfold taken at hold
  unfold inFlight at hold'
  constructor
  · rw [taken, hnext, htickets, hreceived, hworkers Phase.seeks rfl]
    exact hold
  · rw [inFlight, hnext, hreceived, hworkers Phase.numbered rfl]
    omega

theorem length_filter_lookup {pending : List (Nat × Except Panic Result)} {seq : Nat}
    {result : Except Panic Result} (h : pending.lookup seq = some result) :
    (pending.filter (·.1 != seq)).length + 1 ≤ pending.length := by
  obtain ⟨before, after, rfl, -⟩ := List.lookup_eq_some_iff.1 h
  have hbefore := List.length_filter_le (fun entry => entry.1 != seq) before
  have hafter := List.length_filter_le (fun entry => entry.1 != seq) after
  rw [List.filter_append, List.filter_cons_of_neg (by simp), List.length_append, List.length_append,
    List.length_cons]
  omega

theorem Accounted.consumes (h : Accounted options s) (hconsumes : ConsumerDoes options s t) :
    Accounted options t := by
  have hsame : ∀ p : Phase Item Panic → Bool, p .waiting = p .ticket →
      s.workers.countP p = s.workers.countP p := fun _ _ => rfl
  cases hconsumes with
  | starts hconsumer =>
    refine h.waits rfl hsame rfl ?_ ?_ <;> simp [received, hconsumer, Consumer.notifies,
      Consumer.holdsTicket]
  | finds hconsumer hordered hfound =>
    refine h.waits rfl hsame rfl ?_ ?_
    · simp [received, hconsumer, Consumer.notifies]
    · have hlength := length_filter_lookup hfound
      show s.results.length + (s.pending.filter _).length + 1 ≤ _
      omega
  | misses hconsumer =>
    refine h.waits rfl hsame rfl ?_ ?_ <;> simp [received, hconsumer, Consumer.notifies,
      Consumer.holdsTicket]
  | @receives seq result results hconsumer hordered hresults =>
    refine h.waits rfl hsame rfl ?_ ?_
    · simp [received, hconsumer, Consumer.notifies]
    · show results.length + (s.pending.length + 1) + 0 ≤ _
      rw [hresults, List.length_cons]
      omega
  | @receivesAny seq result results hconsumer hunordered hresults =>
    refine h.waits rfl hsame rfl ?_ ?_
    · simp [received, hconsumer, Consumer.notifies]
    · show results.length + s.pending.length + 1 ≤ _
      rw [hresults, List.length_cons]
      omega
  | ends hconsumer =>
    refine h.waits rfl hsame rfl ?_ ?_ <;> simp [received, hconsumer, Consumer.notifies,
      Consumer.holdsTicket]
  | returns hconsumer =>
    -- The ticket is back as the result is received.
    have hold := h.tickets
    have hold' := h.places
    simp only [taken, received, inFlight, hconsumer, Consumer.notifies, Consumer.holdsTicket,
      Bool.toNat_true, Bool.toNat_false] at hold hold'
    constructor
    · show s.next + s.workers.countP _ + (s.tickets + 1) = s.output.length + 1 + _
      omega
    · show s.workers.countP _ + s.results.length + s.pending.length + 0 + (s.output.length + 1) ≤
        s.next
      omega
  | yields hconsumer =>
    refine h.waits rfl hsame rfl ?_ ?_ <;> simp [received, hconsumer, Consumer.notifies,
      Consumer.holdsTicket]
  | drops hconsumer =>
    refine h.waits rfl hsame rfl ?_ ?_ <;> simp [received, hconsumer, Consumer.notifies,
      Consumer.holdsTicket]
  | cancels hconsumer =>
    refine h.waits rfl (fun p hp => countP_wakeAll s.workers p hp) rfl ?_ ?_ <;>
      simp [received, hconsumer, Consumer.notifies, Consumer.holdsTicket]
  | closes hconsumer =>
    refine h.waits rfl hsame rfl ?_ ?_
    · simp [received, hconsumer, Consumer.notifies]
    · show 0 + s.pending.length + 0 ≤ _
      omega

/-! ## Runs -/

theorem Accounted.move (h : Accounted options s) (hmove : Move options job panics s added t) :
    Accounted options t := by
  cases hmove with
  | stays => exact h
  | goes hi hgoes quiet => exact h.goes hi hgoes
  | leaves hi hwoken => exact (h.goes hi .leaves).woken hwoken
  | does hi hdoes => exact h.does hi hdoes
  | fails hi calls hpanic hfails => exact h.fails hi calls hfails
  | consumes hconsumes quiet => exact h.consumes hconsumes
  | yields hconsumer hwoken => exact (h.consumes (.yields hconsumer)).woken hwoken

theorem accounted_new (input : Streams Item Panic) :
    Accounted options (new options input : Pool Item Result Panic) := by
  constructor
  · simp [new, taken, received, limit, List.countP_replicate, Phase.seeks, Phase.holdsTicket,
      Consumer.notifies]
  · simp [new, inFlight, received, List.countP_replicate, Phase.numbered, Consumer.holdsTicket,
      Consumer.notifies]

/-- In every state a pool reaches, in order or not, before and after it is dropped:
the items taken from the input are at most the results the consumer has
received and the tickets the pool was built with, and no more of them than
tickets are with a worker, on their way to the consumer or pending there. -/
theorem taken_le_tickets {input : Streams Item Panic} {events : List (Event Panic)}
    (hrun : run (Pool.step options job) (new options input) events = some s) :
    s.taken ≤ s.received + max options.inFlight options.threads ∧
      s.inFlight + s.workers.countP Phase.seeks ≤ max options.inFlight options.threads := by
  have h : Accounted options s := Lib.run_invariant
    (fun s e s' _ h hstep => (step_moves hstep).elim fun _ hmove => Accounted.move h hmove)
    (accounted_new input) hrun
  have htickets := h.tickets
  have hplaces := h.places
  unfold taken limit at *
  omega

/-- Two workers, two tickets and one item: at the end both tickets are free
again. -/
theorem taken_le_tickets_one_item :
    ∃ s, run (Pool.step ⟨2, 1, 3, true⟩ oneItemJob) (new ⟨2, 1, 3, true⟩ ⟨[.ok [.ok 1]], none⟩)
        oneItemEvents = some s ∧
      s.tickets = 2 ∧
      s.taken ≤ s.received + max 1 2 ∧ s.inFlight + s.workers.countP Phase.seeks ≤ max 1 2 := by
  have htickets : (run (Pool.step ⟨2, 1, 3, true⟩ oneItemJob)
      (new ⟨2, 1, 3, true⟩ ⟨[.ok [.ok 1]], none⟩) oneItemEvents).map tickets = some 2 := by
    decide +kernel
  obtain ⟨s, hrun, hs⟩ := Option.map_eq_some_iff.1 htickets
  exact ⟨s, hrun, hs, taken_le_tickets hrun⟩

end

end Pool

end Parallel

end Xeibe

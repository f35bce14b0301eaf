import Xeibe.Core.Parallel.Numbered

/-!
# Without order, nothing is lost and nothing comes twice

The consumer returns the results as they come in.  What it has returned is
kept in `delivered`, the latest first.  Seen as results that are pending for
ever (`Pool.view`), they have their numbers in one place each with those still
on their way, so no number is delivered twice, and none is left over when
`next` returns `None`.
-/

namespace Xeibe

namespace Parallel

open Lib (run)

variable {Item Result Panic : Type}

namespace Pool

section

variable {options : MapOptions} {job : Job Item Result Panic} {panics : Panic → Prop}
  {s t : Pool Item Result Panic} {i : Nat} {phase phase' : Phase Item Panic} {held : Held}
  {added : List (Except Panic Item)} {log : List (Origin × Except Panic Item)}
  {consumer : Consumer Result Panic} {delivered : List (Nat × Except Panic Result)}
  {input : Streams Item Panic}

/-! ## What is delivered, as pending -/

/-- The pool, seen as one whose consumer has kept what is delivered and returned
nothing. -/
def view (s : Pool Item Result Panic) (consumer : Consumer Result Panic)
    (delivered : List (Nat × Except Panic Result)) : Pool Item Result Panic :=
  { s with consumer, pending := delivered, nextResult := 0, output := [] }

theorem view_release (s : Pool Item Result Panic) (held : Held) :
    (s.release held).view consumer delivered = (s.view consumer delivered).release held := by
  cases held <;> rfl

theorem view_setPhase (s : Pool Item Result Panic) (i : Nat) (phase : Phase Item Panic) :
    (s.setPhase i phase).view consumer delivered =
      (s.view consumer delivered).setPhase i phase := rfl

theorem Declines.view (h : Declines options s phase) :
    Declines options (s.view consumer delivered) phase := by
  cases h with
  | unfinished h => exact .unfinished h
  | stopped h => exact .stopped h
  | exhausted h => exact .exhausted h
  | full h => exact .full h
  | noLast h => exact .noLast h

theorem Takes.view {item : Except Panic Item} {ends : Bool} {orElse : Phase Item Panic}
    (h : Takes job s phase held item ends orElse t) :
    Takes job (s.view consumer delivered) phase held item ends orElse
      (t.view consumer delivered) := by
  cases h with
  | item hk running hrest => exact .item hk running hrest
  | panicked hk running hrest => exact .panicked hk running hrest
  | failed h => exact .failed h
  | last h => exact .last h

/-- A worker's step does not look at the consumer's side. -/
theorem Does.view (h : Does options job s i phase added t) :
    Does options job (s.view consumer delivered) i phase added (t.view consumer delivered) := by
  cases h with
  | ticket h hsome => exact .ticket h hsome
  | returns => exact .returns
  | sends h => exact .sends h
  | locksStream hk hfree hfrom => exact .locksStream hk hfree hfrom
  | leavesStream hk hdone => exact .leavesStream hk hdone
  | closes hk running hrest => exact .closes hk running hrest
  | counts hfree => exact .counts hfree
  | locksList hfree => exact .locksList hfree
  | declines hdeclines finished hfinished => exact .declines hdeclines.view finished hfinished
  | opens h => exact .opens h
  | exhausts h => exact .exhausts h
  | @drops phase held item ends orElse taken htakes hstopped =>
    rw [view_setPhase, view_release]
    exact .drops htakes.view hstopped
  | @numbers phase held item orElse taken htakes hfree hrunning =>
    rw [view_setPhase, view_release]
    exact .numbers htakes.view hfree hrunning
  | ends htakes hfree hrunning => exact .ends htakes.view hfree hrunning
  | stores => exact .stores
  | @storesExhausted held seq item =>
    rw [view_setPhase, view_release]
    exact .storesExhausted

theorem Fails.view {panic : Panic} (h : Fails s i panic added t) :
    Fails (s.view consumer delivered) i panic added (t.view consumer delivered) := by
  cases h with
  | drops hstopped => exact .drops hstopped
  | ends hfree hrunning => exact .ends hfree hrunning

theorem Sent.fresh {items : List (Except Panic Item)}
    (h : Sent job items (s.view consumer delivered))
    {seq : Nat} {result : Except Panic Result} {results : List (Nat × Except Panic Result)}
    (hreceiver : s.receiver = true) (hresults : s.results = (seq, result) :: results) :
    seq ∉ delivered.map Prod.fst := by
  intro hmem
  have hplace := h.counted hreceiver seq
  obtain ⟨entry, hentry, hseq⟩ := List.mem_map.1 hmem
  have hpos : 0 < delivered.countP (·.1 == seq) :=
    List.countP_pos_iff.2 ⟨entry, hentry, beq_iff_eq.2 hseq⟩
  have hplace' : s.workers.countP (Phase.has seq) + s.results.countP (·.1 == seq) +
      delivered.countP (·.1 == seq) = if 0 ≤ seq ∧ seq < items.length then 1 else 0 := hplace
  rw [hresults, List.countP_cons_of_pos (by exact beq_self_eq_true seq)] at hplace'
  split at hplace' <;> omega

/-- When nothing is on its way, every number is delivered. -/
theorem Sent.delivered_all {items : List (Except Panic Item)}
    (h : Sent job items (s.view consumer delivered)) (hnodup : (delivered.map Prod.fst).Nodup)
    (hreceiver : s.receiver = true) (hresults : s.results = [])
    (hworkers : ∀ phase ∈ s.workers, phase.taken = none) :
    (delivered.map Prod.fst).Perm (List.range items.length) := by
  rw [List.perm_ext_iff_of_nodup hnodup List.nodup_range]
  intro seq
  have hplace : s.workers.countP (Phase.has seq) + s.results.countP (·.1 == seq) +
      delivered.countP (·.1 == seq) = if 0 ≤ seq ∧ seq < items.length then 1 else 0 :=
    h.counted hreceiver seq
  have hnone : s.workers.countP (Phase.has seq) = 0 := by
    rw [List.countP_eq_zero]
    intro phase hphase
    unfold Phase.has
    rw [hworkers phase hphase]
    exact Bool.false_ne_true
  rw [hnone, hresults, List.countP_nil] at hplace
  have hmem : seq ∈ delivered.map Prod.fst ↔ 0 < delivered.countP (·.1 == seq) := by
    rw [List.countP_pos_iff, List.mem_map]
    simp only [beq_iff_eq]
  rw [hmem, List.mem_range]
  split at hplace <;> omega

/-! ## The invariant -/

/-- What holds of a pool without order. -/
structure Unordered (options : MapOptions) (job : Job Item Result Panic) (panics : Panic → Prop)
    (input : Streams Item Panic) (log : List (Origin × Except Panic Item))
    (delivered : List (Nat × Except Panic Result)) (s : Pool Item Result Panic) : Prop where
  inputs : Input options s
  taken : Taken job panics input log s
  sent : Sent job (log.map Prod.snd) (s.view .idle delivered)
  nodup : (delivered.map Prod.fst).Nodup
  output_eq : s.output ++ s.consumer.inHand = delivered.reverse.map Prod.snd
  pending : s.pending = []
  workers : 0 < s.workers.length
  /-- When `next` has returned `None`, everything has been delivered. -/
  complete : s.consumer.returnedNone = true → (∀ phase ∈ s.workers, phase = .ended) ∧
    (delivered.map Prod.fst).Perm (List.range log.length) ∧
    (Complete input log ∨ ∃ entry ∈ log, endsInput job.endsInput entry = true)

theorem unordered_new (hthreads : 0 < options.threads) :
    Unordered options job panics input [] [] (new options input) where
  inputs := input_new input
  taken := taken_new input
  sent := (sent_new input).keep rfl rfl rfl rfl rfl rfl rfl
  nodup := List.nodup_nil
  output_eq := rfl
  pending := rfl
  workers := by
    show 0 < (List.replicate options.threads _).length
    rw [List.length_replicate]
    exact hthreads
  complete := nofun

theorem Unordered.running (h : Unordered options job panics input log delivered s)
    (hi : s.workers[i]? = some phase) (hphase : phase ≠ .ended) :
    s.consumer.returnedNone = false := by
  by_contra hnone
  rw [Bool.not_eq_false] at hnone
  exact hphase ((h.complete hnone).1 phase (List.mem_of_getElem? hi))

theorem Unordered.goes (h : Unordered options job panics input log delivered s)
    (hi : s.workers[i]? = some phase) (hgoes : Goes options s phase phase') :
    Unordered options job panics input log delivered (s.setPhase i phase') := by
  refine ⟨h.inputs.goes hi hgoes, h.taken.same ⟨rfl, rfl, rfl, rfl, fun _ => rfl⟩, ?_,
    h.nodup, h.output_eq, h.pending, ?_, fun hnone => ?_⟩
  · exact h.sent.quiet hi rfl rfl rfl rfl rfl rfl ⟨rfl, rfl, rfl⟩ hgoes.taken
  · show 0 < (s.workers.set i phase').length
    rw [List.length_set]
    exact h.workers
  · have hrunning := h.running hi (by cases hgoes <;> exact nofun)
    have hnone' : s.consumer.returnedNone = true := hnone
    rw [hrunning] at hnone'
    cases hnone'

theorem Unordered.woken (h : Unordered options job panics input log delivered s)
    (hwoken : Woken s t) : Unordered options job panics input log delivered t := by
  cases hwoken with
  | one hj => exact h.goes hj .wakes
  | nobody => exact h

/-- What a worker's step needs of the consumer's side. -/
theorem Unordered.works {more : List (Origin × Except Panic Item)}
    (h : Unordered options job panics input log delivered s) (hi : s.workers[i]? = some phase)
    (hphase : phase ≠ .ended) (hinputs : Input options t)
    (htaken : Taken job panics input (log ++ more) t)
    (hsent : Sent job ((log ++ more).map Prod.snd) (t.view .idle delivered))
    (houtput : t.output = s.output) (hconsumer : t.consumer = s.consumer)
    (hpending : t.pending = s.pending) (hlength : t.workers.length = s.workers.length) :
    Unordered options job panics input (log ++ more) delivered t where
  inputs := hinputs
  taken := htaken
  sent := hsent
  nodup := h.nodup
  output_eq := by
    rw [houtput, hconsumer]
    exact h.output_eq
  pending := hpending.trans h.pending
  workers := by
    rw [hlength]
    exact h.workers
  complete := by
    rw [hconsumer, h.running hi hphase]
    exact nofun

theorem Unordered.does (h : Unordered options job panics input log delivered s)
    (hi : s.workers[i]? = some phase) (hdoes : Does options job s i phase added t) :
    ∃ more, Unordered options job panics input (log ++ more) delivered t := by
  obtain ⟨hconsumer, hpending, -, hlength, hphase⟩ := hdoes.consumer
  obtain ⟨more, hmore, htaken⟩ := h.taken.does h.inputs hi hdoes
  refine ⟨more, h.works hi hphase (h.inputs.does hi hdoes) htaken ?_ hdoes.output hconsumer hpending
    hlength⟩
  rw [List.map_append, hmore]
  exact h.sent.does hi hdoes.view

theorem Unordered.fails {panic : Panic} (h : Unordered options job panics input log delivered s)
    (hi : s.workers[i]? = some phase)
    (hcalls : phase = .helping ∨ ∃ head, phase = .helpingHeld head) (hpanic : panics panic)
    (hfails : Fails s i panic added t) :
    ∃ more, Unordered options job panics input (log ++ more) delivered t := by
  obtain ⟨more, hmore, htaken⟩ := h.taken.fails hpanic hfails
  have hphase : phase ≠ .ended := by
    rcases hcalls with rfl | ⟨_, rfl⟩ <;> exact nofun
  have hsame : t.output = s.output ∧ t.consumer = s.consumer ∧ t.pending = s.pending ∧
      t.workers.length = s.workers.length := by
    cases hfails <;> exact ⟨rfl, rfl, rfl, List.length_set⟩
  refine ⟨more, h.works hi hphase (h.inputs.fails hi hcalls hfails) htaken ?_ hsame.1 hsame.2.1
    hsame.2.2.1 hsame.2.2.2⟩
  rw [List.map_append, hmore]
  exact h.sent.fails hi hcalls hfails.view

/-- A step of the consumer that receives nothing. -/
theorem Unordered.keep (h : Unordered options job panics input log delivered s)
    (hinputs : Input options t) (hsent : Sent job (log.map Prod.snd) (t.view .idle delivered))
    (htaken : SameTaken s t) (houtput : t.output ++ t.consumer.inHand = s.output ++ s.consumer.inHand)
    (hpending : t.pending = s.pending) (hworkers : t.workers.length = s.workers.length)
    (hcomplete : t.consumer.returnedNone = true → s.consumer.returnedNone = true ∧
      ∀ phase ∈ t.workers, phase = .ended) :
    Unordered options job panics input log delivered t where
  inputs := hinputs
  taken := h.taken.same htaken
  sent := hsent
  nodup := h.nodup
  output_eq := houtput.trans h.output_eq
  pending := hpending.trans h.pending
  workers := by
    rw [hworkers]
    exact h.workers
  complete hnone := by
    obtain ⟨hnone', hended⟩ := hcomplete hnone
    exact ⟨hended, (h.complete hnone').2⟩

theorem Unordered.consumes (h : Unordered options job panics input log delivered s)
    (hunordered : options.preserveOrder = false) (hconsumes : ConsumerDoes options s t) :
    ∃ delivered', Unordered options job panics input log delivered' t := by
  have hinputs := h.inputs.consumes hconsumes
  have hsent := h.sent
  have same : SameTaken s s := .refl s
  cases hconsumes with
  | starts hconsumer =>
    exact ⟨_, h.keep hinputs hsent ⟨rfl, rfl, rfl, rfl, fun _ => rfl⟩ (by rw [hconsumer]; rfl) rfl rfl
      nofun⟩
  | finds hconsumer hordered =>
    rw [hunordered] at hordered
    cases hordered
  | misses hconsumer =>
    exact ⟨_, h.keep hinputs hsent ⟨rfl, rfl, rfl, rfl, fun _ => rfl⟩ (by rw [hconsumer]; rfl) rfl rfl
      nofun⟩
  | receives hconsumer hordered =>
    rw [hunordered] at hordered
    cases hordered
  | @receivesAny seq result results hconsumer _ hresults =>
    have hreceiver : s.receiver = true := by
      rw [h.inputs.receiver_eq, hconsumer]
      rfl
    refine ⟨(seq, result) :: delivered, hinputs, h.taken.same ⟨rfl, rfl, rfl, rfl, fun _ => rfl⟩,
      hsent.received hresults rfl rfl rfl rfl rfl rfl, ?_, ?_, h.pending, h.workers, nofun⟩
    · exact List.nodup_cons.2 ⟨hsent.fresh hreceiver hresults, h.nodup⟩
    · have houtput := h.output_eq
      rw [hconsumer] at houtput
      show s.output ++ [result] = ((seq, result) :: delivered).reverse.map Prod.snd
      rw [List.reverse_cons, List.map_append, ← houtput]
      exact congrArg (· ++ [result]) (List.append_nil s.output).symm
  | ends hconsumer hresults hworkers =>
    have hreceiver : s.receiver = true := by
      rw [h.inputs.receiver_eq, hconsumer]
      rfl
    have hrunning : s.cancelled = false := by
      rw [h.inputs.cancelled_eq, hconsumer]
      rfl
    have houtput := h.output_eq
    rw [hconsumer] at houtput
    refine ⟨delivered, hinputs, h.taken.same ⟨rfl, rfl, rfl, rfl, fun _ => rfl⟩, hsent, h.nodup,
      houtput, h.pending, h.workers, fun _ => ⟨hworkers, ?_, ?_⟩⟩
    · have hall := hsent.delivered_all h.nodup hreceiver hresults fun phase hphase => by
        rw [hworkers phase hphase]
        rfl
      rw [List.length_map] at hall
      exact hall
    · exact h.taken.used_up h.inputs h.workers hworkers hrunning
  | returns hconsumer =>
    exact ⟨_, h.keep hinputs (hsent.keep rfl rfl rfl rfl rfl rfl rfl)
      ⟨rfl, rfl, rfl, rfl, fun _ => rfl⟩ (by rw [hconsumer]; rfl) rfl rfl nofun⟩
  | yields hconsumer =>
    exact ⟨_, h.keep hinputs hsent ⟨rfl, rfl, rfl, rfl, fun _ => rfl⟩
      (by rw [hconsumer]; exact List.append_nil _) rfl rfl nofun⟩
  | drops hconsumer =>
    exact ⟨_, h.keep hinputs hsent ⟨rfl, rfl, rfl, rfl, fun _ => rfl⟩ (by rw [hconsumer]; rfl) rfl rfl
      nofun⟩
  | @cancels ended hconsumer =>
    refine ⟨_, h.keep hinputs (hsent.wakes rfl rfl rfl rfl rfl rfl rfl)
      ⟨rfl, rfl, rfl, rfl, fun _ => rfl⟩ (by rw [hconsumer]; rfl) rfl (List.length_map _)
      fun hnone => ?_⟩
    have hnone' : s.consumer.returnedNone = true := by
      rw [hconsumer]
      exact hnone
    refine ⟨hnone', fun phase hphase => ?_⟩
    obtain ⟨old, hold, rfl⟩ := List.mem_map.1 hphase
    rw [(h.complete hnone').1 old hold]
    rfl
  | @closes ended hconsumer =>
    refine ⟨_, h.keep hinputs (hsent.closes rfl rfl rfl rfl rfl rfl rfl)
      ⟨rfl, rfl, rfl, rfl, fun _ => rfl⟩ (by rw [hconsumer]; rfl) rfl rfl fun hnone => ?_⟩
    have hnone' : s.consumer.returnedNone = true := by
      rw [hconsumer]
      exact hnone
    exact ⟨hnone', (h.complete hnone').1⟩

theorem Unordered.move (h : Unordered options job panics input log delivered s)
    (hunordered : options.preserveOrder = false) (hmove : Move options job panics s added t) :
    ∃ log' delivered', Unordered options job panics input log' delivered' t := by
  cases hmove with
  | stays => exact ⟨_, _, h⟩
  | goes hi hgoes => exact ⟨_, _, h.goes hi hgoes⟩
  | leaves hi hwoken => exact ⟨_, _, (h.goes hi .leaves).woken hwoken⟩
  | does hi hdoes =>
    obtain ⟨more, h'⟩ := h.does hi hdoes
    exact ⟨_, _, h'⟩
  | fails hi calls hpanic hfails =>
    obtain ⟨more, h'⟩ := h.fails hi calls hpanic hfails
    exact ⟨_, _, h'⟩
  | consumes hconsumes =>
    obtain ⟨delivered', h'⟩ := h.consumes hunordered hconsumes
    exact ⟨_, _, h'⟩
  | yields hconsumer hwoken =>
    obtain ⟨delivered', h'⟩ := h.consumes hunordered (.yields hconsumer)
    exact ⟨_, _, h'.woken hwoken⟩

theorem Unordered.step {e : Event Panic}
    (h : Unordered options job panics input log delivered s)
    (hunordered : options.preserveOrder = false)
    (hpanics : ∀ i panic, e = .help i (.error panic) → panics panic)
    (hstep : s.step options job e = some t) :
    ∃ log' delivered', Unordered options job panics input log' delivered' t := by
  obtain ⟨added, hmove⟩ := step_moves hstep
  refine h.move hunordered (hmove.mono ?_)
  rintro panic ⟨i, he⟩
  exact hpanics i panic he

/-- While the map is neither used up nor dropped, some party can make a
step. -/
theorem Unordered.not_stuck (h : Unordered options job panics input log delivered s)
    (hthreads : 0 < options.threads) (htickets : Tickets options s)
    (hconsumer : ∀ ended, s.consumer ≠ .gone ended) : Steps options job s := by
  refine h.inputs.not_stuck htickets hconsumer fun hreceiving hresults hwaiting => ?_
  by_contra hsome
  push Not at hsome
  obtain ⟨phase, hphase, hne⟩ := hsome
  have hone : 0 < s.workers.countP isWaiting := by
    refine List.countP_pos_iff.2 ⟨phase, hphase, ?_⟩
    rcases hwaiting phase hphase with rfl | rfl
    · rfl
    · exact absurd rfl hne
  -- The consumer holds no ticket, so they are all free.
  have hrunning : s.cancelled = false := by
    rw [h.inputs.cancelled_eq, hreceiving]
    rfl
  have hreceiver : s.receiver = true := by
    rw [h.inputs.receiver_eq, hreceiving]
    rfl
  have hnone : ∀ p : Phase Item Panic → Bool, p .waiting = false → p .ended = false →
      s.workers.countP p = 0 := by
    intro p hp hp'
    rw [List.countP_eq_zero]
    intro phase hphase
    rcases hwaiting phase hphase with rfl | rfl
    · rw [hp]
      exact Bool.false_ne_true
    · rw [hp']
      exact Bool.false_ne_true
  have hawake := htickets.awake hrunning hone
  have hconserved := htickets.conserved hreceiver
  rw [hnone _ rfl rfl, hreceiving] at hawake
  rw [hnone _ rfl rfl, hreceiving, hresults, h.pending] at hconserved
  have hlimit : 0 < limit options := Nat.lt_of_lt_of_le hthreads (Nat.le_max_right _ _)
  have hzero : s.tickets = 0 := Nat.le_zero.1 hawake
  have htotal : s.tickets + 0 + 0 + 0 + 0 = limit options := hconserved
  omega

/-- Without order, every reachable state has what is numbered in its place. -/
theorem unordered_run {events : List (Event Panic)} (hunordered : options.preserveOrder = false)
    (hthreads : 0 < options.threads)
    (hrun : run (Pool.step options job) (new options input) events = some s) :
    Tickets options s ∧ ∃ log delivered, Unordered options job
      (fun panic => ∃ i, .help i (.error panic) ∈ events) input log delivered s := by
  refine Lib.run_invariant (I := fun s => Tickets options s ∧ ∃ log delivered, Unordered options job
    (fun panic => ∃ i, .help i (.error panic) ∈ events) input log delivered s) ?_
    ⟨tickets_new input, [], [], unordered_new hthreads⟩ hrun
  rintro s e s' he ⟨htickets, log, delivered, h⟩ hstep
  obtain ⟨added, hmove⟩ := step_moves hstep
  have hsent : options.preserveOrder = true → Sent job [] s := by
    intro hordered
    rw [hunordered] at hordered
    cases hordered
  exact ⟨htickets.move h.inputs hsent hmove,
    h.step hunordered (fun i panic heq => ⟨i, heq ▸ he⟩) hstep⟩

/-- Without order, whatever the interleaving: each of the items numbered is
delivered once at most, and all of them once `next` has returned `None`; what
is numbered of a stream is a beginning of it, and all of it unless something
has ended the input; and until then, or until the map is dropped, some party
can make a step. -/
theorem Unordered.exactly_once (h : Unordered options job panics input log delivered s)
    (hthreads : 0 < options.threads) (htickets : Tickets options s) :
    Numbered job.endsInput panics input log ∧
      ∃ numbers : List Nat, numbers.Nodup ∧
        s.output.map some = numbers.map (fun n => log[n]?.map fun entry => job.apply entry.2) ∧
        (s.consumer.returnedNone = true → numbers.Perm (List.range log.length) ∧
          (Complete input log ∨ ∃ entry ∈ log, endsInput job.endsInput entry = true)) ∧
        ((∀ ended, s.consumer ≠ .gone ended) → Steps options job s) := by
  refine ⟨h.taken.numbered, (delivered.reverse.map Prod.fst).take s.output.length, ?_, ?_, ?_,
    h.not_stuck hthreads htickets⟩
  · refine List.Nodup.sublist (List.take_sublist _ _) ?_
    rw [List.map_reverse]
    exact List.nodup_reverse.2 h.nodup
  · have houtput : s.output = (delivered.reverse.map Prod.snd).take s.output.length := by
      rw [← h.output_eq, List.take_left]
    have hresult : ∀ entry ∈ delivered.reverse, (some ∘ Prod.snd) entry =
        ((fun n => log[n]?.map fun entry => job.apply entry.2) ∘ Prod.fst) entry := by
      intro entry hentry
      obtain ⟨item, hitem, hresult⟩ := h.sent.results entry
        (List.mem_append_right _ (List.mem_reverse.1 hentry))
      rw [List.getElem?_map] at hitem
      obtain ⟨numbered, hget, rfl⟩ := Option.map_eq_some_iff.1 hitem
      show some entry.2 = log[entry.1]?.map fun entry => job.apply entry.2
      rw [hget, hresult]
      rfl
    rw [List.map_take, List.map_map, ← List.map_congr_left hresult]
    conv => lhs; rw [houtput]
    rw [List.map_take, List.map_map]
  · intro hnone
    obtain ⟨-, hperm, hwhole⟩ := h.complete hnone
    refine ⟨?_, hwhole⟩
    have hhand : s.consumer.inHand = [] := by
      cases hconsumer : s.consumer <;> rw [hconsumer] at hnone <;> first | rfl | cases hnone
    have hlength : s.output.length = delivered.length := by
      have houtput := congrArg List.length h.output_eq
      rw [hhand, List.append_nil, List.length_map, List.length_reverse] at houtput
      exact houtput
    rw [List.take_of_length_le (Nat.le_of_eq (by
      rw [List.length_map, List.length_reverse, hlength])), List.map_reverse]
    exact (List.reverse_perm _).trans hperm

end

end Pool

end Parallel

end Xeibe

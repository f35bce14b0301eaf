import Xeibe.Core.Parallel.Input

/-!
# In order, the pool is the one-thread path

`log` is what has been numbered so far.  In order (one stream open at a time)
what has been numbered and what is left to take make up the input
(`InOrder.flow`), and the consumer, which takes results by number, returns the
log's results in order (`Sent.output_eq`).

The helper has no part in the one-thread path.  A panic in it ends the input
after what has been taken so far (`CutShort`).
-/

namespace Xeibe

namespace Parallel

open Lib (run Yields)

variable {Item Result Panic : Type}

/-- What a worker has a number for. -/
def Phase.taken : Phase Item Panic → Option (Nat × Except Panic Item)
  | .stopping _ seq item | .exhausting _ seq item | .mapping seq item => some (seq, item)
  | _ => none

/-- Whether a worker has the number `seq`. -/
def Phase.has (seq : Nat) (phase : Phase Item Panic) : Bool :=
  match phase.taken with
  | some (n, _) => n == seq
  | none => false

/-- The result that `next` is about to return. -/
def Consumer.inHand : Consumer Result Panic → List (Except Panic Result)
  | .returning result | .notifying result => [result]
  | _ => []

/-- The input's items up to some point, then a panic of the helper. -/
def CutShort (panics : Panic → Prop) (all log : List (Except Panic Item)) : Prop :=
  ∃ n panic, panics panic ∧ log = all.take n ++ [.error panic]

namespace Pool

section

variable {options : MapOptions} {job : Job Item Result Panic} {panics : Panic → Prop}
  {s t : Pool Item Result Panic} {i j : Nat} {phase phase' : Phase Item Panic} {held : Held}
  {added log : List (Except Panic Item)} {input : Streams Item Panic}

/-! ## Results -/

/-- In how many places a number or its result is: with a worker, on its way to
the consumer, or pending there. -/
def places (s : Pool Item Result Panic) (seq : Nat) : Nat :=
  s.workers.countP (Phase.has seq) + s.results.countP (·.1 == seq) + s.pending.countP (·.1 == seq)

/-- Where the results of the log are. -/
structure Sent (job : Job Item Result Panic) (log : List (Except Panic Item))
    (s : Pool Item Result Panic) : Prop where
  next_eq : s.next = log.length
  known : ∀ (i : Nat) (phase : Phase Item Panic) (seq : Nat) (item : Except Panic Item),
    s.workers[i]? = some phase → phase.taken = some (seq, item) → log[seq]? = some item
  results : ∀ entry ∈ s.results ++ s.pending, ∃ item, log[entry.1]? = some item ∧
    entry.2 = job.apply item
  /-- Every number given out and not yet used is in one place. -/
  counted : s.receiver = true → ∀ seq, s.places seq =
    if s.nextResult ≤ seq ∧ seq < log.length then 1 else 0
  output_eq : s.output ++ s.consumer.inHand = (log.take s.nextResult).map job.apply
  nextResult_le : s.nextResult ≤ log.length

theorem Sent.step (h : Sent job log s) (hi : s.workers[i]? = some phase)
    (hworkers : t.workers = s.workers) (hnext : t.next = (log ++ added).length)
    (hknown : ∀ seq item, phase'.taken = some (seq, item) → (log ++ added)[seq]? = some item)
    (hresults : ∀ entry ∈ t.results, entry ∈ s.results ∨
      ∃ item, log[entry.1]? = some item ∧ entry.2 = job.apply item)
    (hcounted : s.receiver = true → ∀ seq,
      (phase'.has seq).toNat + t.results.countP (·.1 == seq) =
        (phase.has seq).toNat + s.results.countP (·.1 == seq) +
          if log.length ≤ seq ∧ seq < (log ++ added).length then 1 else 0)
    (hpending : t.pending = s.pending) (hnextResult : t.nextResult = s.nextResult)
    (houtput : t.output = s.output) (hconsumer : SameConsumer s t) :
    Sent job (log ++ added) (t.setPhase i phase') := by
  have hget : ∀ {seq : Nat} {item : Except Panic Item}, log[seq]? = some item →
      (log ++ added)[seq]? = some item := by
    intro seq item hseq
    rw [List.getElem?_append_left (List.getElem?_eq_some_iff.1 hseq).1]
    exact hseq
  have hle := h.nextResult_le
  refine ⟨hnext, fun j phase₂ seq item hj htaken => ?_, fun entry hentry => ?_,
    fun hreceiver seq => ?_, ?_, ?_⟩
  · rw [setPhase, Lib.party_set (by rw [hworkers]; exact hi)] at hj
    rcases hj with ⟨-, rfl⟩ | ⟨-, hj⟩
    · exact hknown seq item htaken
    · rw [hworkers] at hj
      exact hget (h.known j phase₂ seq item hj htaken)
  · have hentry' : entry ∈ t.results ∨ entry ∈ s.pending := by
      rw [← hpending]
      exact List.mem_append.1 hentry
    have hold : entry ∈ s.results ++ s.pending ∨
        ∃ item, log[entry.1]? = some item ∧ entry.2 = job.apply item := by
      rcases hentry' with hnew | hold
      · rcases hresults entry hnew with hold | hnew
        · exact .inl (List.mem_append_left _ hold)
        · exact .inr hnew
      · exact .inl (List.mem_append_right _ hold)
    rcases hold with hold | ⟨item, hitem, hresult⟩
    · obtain ⟨item, hitem, hresult⟩ := h.results entry hold
      exact ⟨item, hget hitem, hresult⟩
    · exact ⟨item, hget hitem, hresult⟩
  · have hreceiver' : s.receiver = true := hconsumer.receiver.symm.trans hreceiver
    have hold := h.counted hreceiver' seq
    have hnew := hcounted hreceiver' seq
    have hcount := Lib.count_set (b := phase') hi (Phase.has seq)
    unfold places at hold
    have hnextResult' : (t.setPhase i phase').nextResult = s.nextResult := hnextResult
    simp only [hnextResult']
    show (t.workers.set i phase').countP _ + t.results.countP _ + t.pending.countP _ = _
    rw [hworkers, hpending]
    have hadd : (if s.nextResult ≤ seq ∧ seq < (log ++ added).length then 1 else 0) =
        (if s.nextResult ≤ seq ∧ seq < log.length then 1 else 0) +
          if log.length ≤ seq ∧ seq < (log ++ added).length then 1 else 0 := by
      rw [List.length_append]
      split <;> split <;> split <;> omega
    rw [hadd]
    cases hp : phase.has seq <;> cases hp' : phase'.has seq <;>
      simp only [hp, hp', Bool.toNat_true, Bool.toNat_false, if_true, if_false,
        Bool.false_eq_true] at hcount hnew <;> omega
  · show t.output ++ t.consumer.inHand = ((log ++ added).take t.nextResult).map job.apply
    rw [houtput, hconsumer.consumer, hnextResult, List.take_append_of_le_length h.nextResult_le]
    exact h.output_eq
  · show t.nextResult ≤ _
    rw [hnextResult, List.length_append]
    exact Nat.le_trans h.nextResult_le (Nat.le_add_right _ _)

/-- A step that numbers nothing and sends nothing. -/
theorem Sent.quiet (h : Sent job log s) (hi : s.workers[i]? = some phase)
    (hworkers : t.workers = s.workers) (hnext : t.next = s.next) (hresults : t.results = s.results)
    (hpending : t.pending = s.pending) (hnextResult : t.nextResult = s.nextResult)
    (houtput : t.output = s.output) (hconsumer : SameConsumer s t)
    (htaken : phase'.taken = phase.taken ∨ phase'.taken = none ∧ s.receiver = false) :
    Sent job log (t.setPhase i phase') := by
  have : Sent job (log ++ []) (t.setPhase i phase') := h.step hi hworkers (hnext.trans (by
      rw [List.append_nil]
      exact h.next_eq)) ?_ ?_ ?_ hpending hnextResult houtput hconsumer
  · rwa [List.append_nil] at this
  · intro seq item hphase
    rw [List.append_nil]
    rcases htaken with hsame | ⟨hnone, -⟩
    · exact h.known i phase seq item hi (hsame ▸ hphase)
    · rw [hnone] at hphase
      cases hphase
  · intro entry hentry
    exact .inl (hresults ▸ hentry)
  · intro hreceiver seq
    rcases htaken with hsame | ⟨-, hgone⟩
    · have hhas : phase'.has seq = phase.has seq := by
        unfold Phase.has
        rw [hsame]
      rw [hhas, hresults, List.append_nil, if_neg (by omega)]
      rfl
    · rw [hgone] at hreceiver
      cases hreceiver

theorem release_consumer (s : Pool Item Result Panic) (held : Held) :
    (s.release held).next = s.next ∧ (s.release held).results = s.results ∧
      (s.release held).pending = s.pending ∧ (s.release held).nextResult = s.nextResult ∧
      (s.release held).output = s.output := by
  cases held <;> exact ⟨rfl, rfl, rfl, rfl, rfl⟩

theorem Takes.results {item : Except Panic Item} {ends : Bool} {orElse : Phase Item Panic}
    (htakes : Takes job s phase held item ends orElse t) :
    t.next = s.next ∧ t.results = s.results ∧ t.pending = s.pending ∧
      t.nextResult = s.nextResult ∧ t.output = s.output ∧ phase.taken = none := by
  cases htakes <;> exact ⟨rfl, rfl, rfl, rfl, rfl, rfl⟩

/-- What is numbered is the next of the log. -/
theorem Sent.number (h : Sent job log s) (hi : s.workers[i]? = some phase)
    {item : Except Panic Item} (hphase : phase.taken = none)
    (htaken : phase'.taken = some (s.next, item)) (hworkers : t.workers = s.workers)
    (hnext : t.next = s.next + 1) (hresults : t.results = s.results)
    (hpending : t.pending = s.pending) (hnextResult : t.nextResult = s.nextResult)
    (houtput : t.output = s.output) (hconsumer : SameConsumer s t) :
    Sent job (log ++ [item]) (t.setPhase i phase') := by
  refine h.step hi hworkers ?_ ?_ ?_ ?_ hpending
    hnextResult houtput hconsumer
  · rw [hnext, h.next_eq, List.length_append, List.length_singleton]
  · intro seq item' hnumbered
    rw [htaken] at hnumbered
    cases hnumbered
    rw [h.next_eq, List.getElem?_concat_length]
  · intro entry hentry
    exact .inl (hresults ▸ hentry)
  · intro _ seq
    have hold : phase.has seq = false := by
      unfold Phase.has
      rw [hphase]
    have hnew : phase'.has seq = (s.next == seq) := by
      unfold Phase.has
      rw [htaken]
    rw [hold, hnew, hresults, List.length_append, List.length_singleton, ← h.next_eq]
    by_cases hseq : s.next = seq
    · rw [hseq, beq_self_eq_true, if_pos (by omega)]
      simp only [Bool.toNat_true, Bool.toNat_false]
      omega
    · rw [beq_eq_false_iff_ne.2 hseq, if_neg (by omega)]
      rfl

theorem Goes.taken (hgoes : Goes options s phase phase') :
    phase'.taken = phase.taken ∨ phase'.taken = none ∧ s.receiver = false := by
  cases hgoes with
  | consumerGone hgone => exact .inr ⟨rfl, hgone⟩
  | _ => exact .inl rfl

theorem Sent.does (h : Sent job log s) (hi : s.workers[i]? = some phase)
    (hdoes : Does options job s i phase added t) : Sent job (log ++ added) t := by
  have quiet : ∀ {u : Pool Item Result Panic}, Sent job log u → Sent job (log ++ []) u := by
    intro u hu
    rw [List.append_nil]
    exact hu
  cases hdoes with
  | @sends seq item hreceiver =>
    refine h.step hi rfl ?_ nofun ?_ ?_ rfl rfl rfl ⟨rfl, rfl, rfl⟩
    · rw [List.append_nil]
      exact h.next_eq
    · intro entry hentry
      rcases List.mem_append.1 hentry with hold | hnew
      · exact .inl hold
      · rw [List.mem_singleton.1 hnew]
        exact .inr ⟨item, h.known i _ seq item hi rfl, rfl⟩
    · intro _ seq'
      rw [List.countP_append, List.append_nil, if_neg (by omega), List.countP_singleton]
      have hnew : (Phase.ticket : Phase Item Panic).has seq' = false := rfl
      have hold : (Phase.mapping seq item).has seq' = (seq == seq') := rfl
      rw [hnew, hold]
      cases seq == seq' <;>
        simp only [Bool.toNat_true, Bool.toNat_false, if_true, if_false, Bool.false_eq_true] <;> omega
  | locksStream hk hfree hfrom =>
    refine quiet (h.quiet hi rfl rfl rfl rfl rfl rfl ⟨rfl, rfl, rfl⟩ (.inl ?_))
    rcases hfrom with rfl | ⟨_, _, _, rfl⟩ <;> rfl
  | declines hdeclines finished hfinished =>
    refine quiet (h.quiet hi rfl rfl rfl rfl rfl rfl ⟨rfl, rfl, rfl⟩ (.inl ?_))
    cases hdeclines <;> rfl
  | @drops phase held item ends orElse taken htakes hdropped =>
    obtain ⟨hnext, hresults, hpending, hnextResult, houtput, hphase⟩ := htakes.results
    obtain ⟨hnext', hresults', hpending', hnextResult', houtput'⟩ := release_consumer taken held
    obtain ⟨-, -, -, hconsumer, -, -, -, -, -, rfl⟩ := htakes.shared
    exact quiet (h.quiet hi ((release_workers taken held).trans htakes.locks.2.2.2.2.2)
      (hnext'.trans hnext) (hresults'.trans hresults) (hpending'.trans hpending)
      (hnextResult'.trans hnextResult) (houtput'.trans houtput) (hconsumer.release held)
      (.inl (by rw [hphase]; rfl)))
  | @numbers phase held item orElse taken htakes hfree hrunning =>
    obtain ⟨hnext, hresults, hpending, hnextResult, houtput, hphase⟩ := htakes.results
    obtain ⟨hnext', hresults', hpending', hnextResult', houtput'⟩ :=
      release_consumer { taken with next := s.next + 1 } held
    obtain ⟨-, -, -, hconsumer, -⟩ := htakes.shared
    refine h.number hi hphase rfl ((release_workers _ held).trans htakes.locks.2.2.2.2.2) hnext'
      (hresults'.trans hresults) (hpending'.trans hpending) (hnextResult'.trans hnextResult)
      (houtput'.trans houtput) ?_
    apply SameConsumer.release
    exact ⟨hconsumer.cancelled, hconsumer.receiver, hconsumer.consumer⟩
  | @ends phase held item orElse taken htakes hfree hrunning =>
    obtain ⟨hnext, hresults, hpending, hnextResult, houtput, hphase⟩ := htakes.results
    obtain ⟨-, -, -, hconsumer, -⟩ := htakes.shared
    exact h.number hi hphase rfl htakes.locks.2.2.2.2.2 rfl hresults hpending hnextResult houtput
      ⟨hconsumer.cancelled, hconsumer.receiver, hconsumer.consumer⟩
  | @storesExhausted held seq item =>
    obtain ⟨hnext, hresults, hpending, hnextResult, houtput⟩ :=
      release_consumer { s with exhausted := true, numbersLock := none } held
    refine quiet (h.quiet hi (release_workers _ held) hnext hresults hpending hnextResult houtput ?_
      (.inl rfl))
    apply SameConsumer.release
    exact ⟨rfl, rfl, rfl⟩
  | _ => exact quiet (h.quiet hi rfl rfl rfl rfl rfl rfl ⟨rfl, rfl, rfl⟩ (.inl rfl))

theorem Sent.fails (h : Sent job log s) (hi : s.workers[i]? = some phase)
    (hcalls : phase = .helping ∨ ∃ head, phase = .helpingHeld head) {panic : Panic}
    (hfails : Fails s i panic added t) : Sent job (log ++ added) t := by
  have hphase : phase.taken = none := by
    rcases hcalls with rfl | ⟨_, rfl⟩ <;> rfl
  cases hfails with
  | drops hstopped =>
    rw [List.append_nil]
    exact h.quiet hi rfl rfl rfl rfl rfl rfl ⟨rfl, rfl, rfl⟩ (.inl hphase.symm)
  | ends hfree hrunning =>
    exact h.number hi hphase rfl rfl rfl rfl rfl rfl rfl ⟨rfl, rfl, rfl⟩

/-- A step of the consumer that only changes where it is. -/
theorem Sent.keep (h : Sent job log s) (hnext : t.next = s.next) (hworkers : t.workers = s.workers)
    (hresults : t.results = s.results) (hpending : t.pending = s.pending)
    (hnextResult : t.nextResult = s.nextResult) (hreceiver : t.receiver = s.receiver)
    (hsame : t.output ++ t.consumer.inHand = s.output ++ s.consumer.inHand) :
    Sent job log t := by
  refine ⟨hnext.trans h.next_eq, ?_, ?_, ?_, ?_, ?_⟩
  · rw [hworkers]
    exact h.known
  · rw [hresults, hpending]
    exact h.results
  · unfold places
    rw [hreceiver, hresults, hpending, hnextResult, hworkers]
    exact h.counted
  · rw [hsame, hnextResult]
    exact h.output_eq
  · rw [hnextResult]
    exact h.nextResult_le

/-- A result is received, and kept. -/
theorem Sent.received (h : Sent job log s) {seq : Nat} {result : Except Panic Result}
    (hresults : s.results = (seq, result) :: t.results) (hnext : t.next = s.next)
    (hworkers : t.workers = s.workers) (hpending : t.pending = (seq, result) :: s.pending)
    (hnextResult : t.nextResult = s.nextResult) (hreceiver : t.receiver = s.receiver)
    (hsame : t.output ++ t.consumer.inHand = s.output ++ s.consumer.inHand) :
    Sent job log t := by
  have hmem : ∀ entry, entry ∈ t.results ++ t.pending ↔ entry ∈ s.results ++ s.pending := by
    intro entry
    rw [hresults, hpending]
    simp only [List.mem_append, List.mem_cons]
    tauto
  refine ⟨hnext.trans h.next_eq, ?_, fun entry hentry => h.results entry ((hmem entry).1 hentry),
    fun hreceiver' seq' => ?_, ?_, ?_⟩
  · rw [hworkers]
    exact h.known
  · have hold := h.counted (hreceiver.symm.trans hreceiver') seq'
    unfold places at hold ⊢
    rw [hresults, List.countP_cons] at hold
    rw [hworkers, hpending, hnextResult, List.countP_cons, ← hold]
    omega
  · rw [hsame, hnextResult]
    exact h.output_eq
  · rw [hnextResult]
    exact h.nextResult_le

/-- Every worker that waits is woken. -/
theorem Sent.wakes (h : Sent job log s) (hnext : t.next = s.next)
    (hworkers : t.workers = wakeAll s.workers) (hresults : t.results = s.results)
    (hpending : t.pending = s.pending) (hnextResult : t.nextResult = s.nextResult)
    (hreceiver : t.receiver = s.receiver)
    (hsame : t.output ++ t.consumer.inHand = s.output ++ s.consumer.inHand) :
    Sent job log t := by
  refine ⟨hnext.trans h.next_eq, fun j phase seq item hj htaken => ?_, ?_,
    fun hreceiver' seq => ?_, ?_, ?_⟩
  · rw [hworkers] at hj
    rcases wakeAll_get hj with hj' | ⟨-, rfl⟩
    · exact h.known j phase seq item hj' htaken
    · cases htaken
  · rw [hresults, hpending]
    exact h.results
  · unfold places
    rw [hworkers, hresults, hpending, hnextResult, countP_wakeAll s.workers _ rfl]
    exact h.counted (hreceiver.symm.trans hreceiver') seq
  · rw [hsame, hnextResult]
    exact h.output_eq
  · rw [hnextResult]
    exact h.nextResult_le

/-- The receiver is dropped. -/
theorem Sent.closes (h : Sent job log s) (hnext : t.next = s.next)
    (hworkers : t.workers = s.workers) (hresults : t.results = []) (hpending : t.pending = s.pending)
    (hnextResult : t.nextResult = s.nextResult) (hreceiver : t.receiver = false)
    (hsame : t.output ++ t.consumer.inHand = s.output ++ s.consumer.inHand) :
    Sent job log t := by
  refine ⟨hnext.trans h.next_eq, ?_, fun entry hentry => h.results entry ?_, fun hreceiver' => ?_,
    ?_, ?_⟩
  · rw [hworkers]
    exact h.known
  · rw [hresults, hpending] at hentry
    exact List.mem_append_right _ hentry
  · rw [hreceiver] at hreceiver'
    cases hreceiver'
  · rw [hsame, hnextResult]
    exact h.output_eq
  · rw [hnextResult]
    exact h.nextResult_le

/-- The consumer takes the results in order. -/
theorem Sent.consumes (h : Sent job log s) (hordered : options.preserveOrder = true)
    (hconsumes : ConsumerDoes options s t) : Sent job log t := by
  have houtput := h.output_eq
  cases hconsumes with
  | starts hconsumer =>
    exact h.keep rfl rfl rfl rfl rfl rfl (by rw [hconsumer]; rfl)
  | misses hconsumer =>
    exact h.keep rfl rfl rfl rfl rfl rfl (by rw [hconsumer]; rfl)
  | ends hconsumer =>
    exact h.keep rfl rfl rfl rfl rfl rfl (by rw [hconsumer]; rfl)
  | returns hconsumer =>
    exact h.keep rfl rfl rfl rfl rfl rfl (by rw [hconsumer]; rfl)
  | yields hconsumer =>
    exact h.keep rfl rfl rfl rfl rfl rfl (by rw [hconsumer]; exact List.append_nil _)
  | drops hconsumer =>
    exact h.keep rfl rfl rfl rfl rfl rfl (by rw [hconsumer]; rfl)
  | receivesAny hconsumer hunordered =>
    rw [hordered] at hunordered
    cases hunordered
  | @finds result hconsumer _ hfound =>
    have hmem : (s.nextResult, result) ∈ s.pending := by
      obtain ⟨before, after, hpending, -⟩ := List.lookup_eq_some_iff.1 hfound
      rw [hpending]
      exact List.mem_append_right _ List.mem_cons_self
    obtain ⟨item, hitem, hresult⟩ := h.results _ (List.mem_append_right _ hmem)
    have hlt := (List.getElem?_eq_some_iff.1 hitem).1
    refine ⟨h.next_eq, h.known, fun entry hentry => h.results entry ?_, fun hreceiver seq => ?_, ?_,
      hlt⟩
    · rcases List.mem_append.1 hentry with hentry | hentry
      · exact List.mem_append_left _ hentry
      · exact List.mem_append_right _ (List.mem_of_mem_filter hentry)
    · have hold := h.counted hreceiver seq
      unfold places at hold
      show s.workers.countP _ + s.results.countP _ + List.countP _ (s.pending.filter _) =
        if s.nextResult + 1 ≤ seq ∧ _ then 1 else 0
      rw [List.countP_filter]
      by_cases hseq : seq = s.nextResult
      · -- The number that is used was nowhere else.
        have hpos : 0 < s.pending.countP (·.1 == seq) :=
          List.countP_pos_iff.2 ⟨_, hmem, by rw [hseq]; exact beq_self_eq_true _⟩
        have hnone : s.pending.countP (fun entry => entry.1 == seq && entry.1 != s.nextResult) = 0 := by
          rw [hseq, List.countP_eq_zero]
          intro entry _
          simp
        rw [hnone, if_neg (by omega)]
        split at hold <;> omega
      · have hsame : s.pending.countP (fun entry => entry.1 == seq && entry.1 != s.nextResult) =
            s.pending.countP (·.1 == seq) := by
          refine List.countP_congr fun entry _ => ?_
          simp only [Bool.and_eq_true, beq_iff_eq, bne_iff_ne, ne_eq, and_iff_left_iff_imp]
          intro hentry
          omega
        rw [hsame, hold]
        split <;> split <;> omega
    · show s.output ++ [result] = (log.take (s.nextResult + 1)).map job.apply
      rw [hconsumer] at houtput
      have houtput' : s.output = (log.take s.nextResult).map job.apply :=
        (List.append_nil _).symm.trans houtput
      rw [List.take_add_one, hitem, List.map_append, houtput']
      exact congrArg (_ ++ [·]) hresult
  | receives hconsumer _ hresults =>
    exact h.received hresults rfl rfl rfl rfl rfl (by rw [hconsumer]; rfl)
  | cancels hconsumer =>
    exact h.wakes rfl rfl rfl rfl rfl rfl (by rw [hconsumer]; rfl)
  | closes hconsumer =>
    exact h.closes rfl rfl rfl rfl rfl rfl (by rw [hconsumer]; rfl)

/-! ## What is left to take -/

/-- What will be taken from now on, if nothing stops the input. -/
def toTake (endsInput : Item → Bool) (s : Pool Item Result Panic) : List (Except Panic Item) :=
  cut endsInput (s.current ++ (itemsOf s.streams.streams ++
    if s.finished then [] else s.streams.last.toList))

/-- What has been numbered and what is left make up the input; or the helper
has panicked. -/
def Flow (job : Job Item Result Panic) (panics : Panic → Prop) (all log : List (Except Panic Item))
    (s : Pool Item Result Panic) : Prop :=
  (log ++ if s.numbersStopped = true then [] else s.toTake job.endsInput) = all ∨
    s.numbersStopped = true ∧ CutShort panics all log

theorem current_congr (hopen : t.openStreams = s.openStreams)
    (hrest : ∀ k : Nat, t.opened[k]?.map OpenStream.rest = s.opened[k]?.map OpenStream.rest) :
    t.current = s.current := by
  unfold current
  rw [hopen]
  simp only [hrest]

theorem rest_modify (s : Pool Item Result Panic) (k k' : Nat)
    {f : OpenStream Item Panic → OpenStream Item Panic} (hf : ∀ stream, (f stream).rest = stream.rest) :
    (s.modifyStream k f).opened[k']?.map OpenStream.rest = s.opened[k']?.map OpenStream.rest := by
  rw [opened_modify]
  split
  · cases s.opened[k']? with
    | none => rfl
    | some stream => exact congrArg some (hf stream)
  · rfl

theorem current_release (s : Pool Item Result Panic) (held : Held) :
    (s.release held).current = s.current := by
  cases held with
  | stream k => exact current_congr rfl fun k' => rest_modify s k k' fun _ => rfl
  | list => rfl
  | none => rfl

theorem toTake_release (endsInput : Item → Bool) (s : Pool Item Result Panic) (held : Held) :
    (s.release held).toTake endsInput = s.toTake endsInput := by
  unfold toTake
  obtain ⟨-, -, -, -, hstreams, -, -, -, hfinished⟩ := release_shared s held
  rw [current_release, hstreams, hfinished]

theorem OpenOk.only (h : OpenOk options s) (hordered : options.preserveOrder = true) {k : Nat}
    (hk : k ∈ s.openStreams) : s.openStreams = [k] := by
  have hle := h.le
  rw [maxOpen, if_pos hordered] at hle
  match hopen : s.openStreams with
  | [] =>
    rw [hopen] at hk
    cases hk
  | [k'] =>
    rw [hopen, List.mem_singleton] at hk
    rw [hk]
  | _ :: _ :: _ =>
    rw [hopen] at hle
    simp at hle

/-- In order, what is taken is the next item of the input. -/
theorem Takes.toTake (h : Input options s) (hordered : options.preserveOrder = true)
    (hi : s.workers[i]? = some phase) {item : Except Panic Item} {ends : Bool}
    {orElse : Phase Item Panic} (htakes : Takes job s phase held item ends orElse t)
    (hrunning : s.numbersStopped = false) :
    s.toTake job.endsInput = item :: (if ends = true then [] else t.toTake job.endsInput) := by
  have hsees := h.sees i phase hi
  cases htakes with
  | @item k stream item rest hk running hrest =>
    have hopen := h.opens.only hordered (h.opens.mem_open hk running)
    have hcurrent : s.current = .ok item :: rest := by
      unfold current
      rw [hopen, List.flatMap_singleton, hk, ← hrest]
      rfl
    have hcurrent' : (s.modifyStream k fun stream =>
        { stream with rest, done := job.endsInput item && !s.numbersStopped }).current = rest := by
      unfold current
      show s.openStreams.flatMap _ = rest
      rw [hopen, List.flatMap_singleton, opened_modify, if_pos rfl, hk]
      rfl
    rw [Pool.toTake, hcurrent, List.cons_append, cut_cons, Pool.toTake, hcurrent']
    rfl
  | @panicked k stream panic rest hk running hrest =>
    have hopen := h.opens.only hordered (h.opens.mem_open hk running)
    have hcurrent : s.current = .error panic :: rest := by
      unfold current
      rw [hopen, List.flatMap_singleton, hk, ← hrest]
      rfl
    rw [Pool.toTake, hcurrent, List.cons_append, cut_cons]
    rfl
  | @failed panic streams hstreams =>
    have hopen : s.openStreams = [] := by
      have hlt : s.openStreams.length < maxOpen options := hsees
      rw [maxOpen, if_pos hordered] at hlt
      exact List.eq_nil_of_length_eq_zero (by omega)
    have hcurrent : s.current = [] := by
      unfold current
      rw [hopen]
      rfl
    rw [Pool.toTake, hcurrent, hstreams, itemsOf, List.nil_append, List.cons_append, cut_cons]
    rfl
  | @last item hlast =>
    obtain ⟨hexhausted, hended, hfinished⟩ := hsees
    have hcount := h.count
    have hopen : s.openStreams = [] := List.eq_nil_of_length_eq_zero (by omega)
    have hcurrent : s.current = [] := by
      unfold current
      rw [hopen]
      rfl
    have hstreams : s.streams.streams = [] := by
      rcases h.exhausted_cases hexhausted with hstopped | hnone
      · rw [hrunning] at hstopped
        cases hstopped
      · exact hnone
    have hcurrent' : current { s with finished := true } = [] := hcurrent
    rw [Pool.toTake, hcurrent, hstreams, hfinished, hlast, Pool.toTake, hcurrent', hstreams]
    exact cut_singleton _ _

theorem Flow.keep {all : List (Except Panic Item)} (h : Flow job panics all log s)
    (hstopped : t.numbersStopped = s.numbersStopped)
    (htake : s.numbersStopped = false → t.toTake job.endsInput = s.toTake job.endsInput) :
    Flow job panics all (log ++ []) t := by
  unfold Flow at *
  rw [List.append_nil, hstopped]
  cases hrunning : s.numbersStopped with
  | true =>
    rw [hrunning] at h
    exact h
  | false =>
    rw [hrunning] at h
    rw [htake hrunning]
    exact h

theorem Flow.does {all : List (Except Panic Item)} (h : Flow job panics all log s)
    (hinput : Input options s) (hordered : options.preserveOrder = true)
    (hi : s.workers[i]? = some phase) (hdoes : Does options job s i phase added t) :
    Flow job panics all (log ++ added) t := by
  cases hdoes with
  | @locksStream phase k stream hk hfree hfrom =>
    refine h.keep rfl fun _ => ?_
    have hcurrent : (s.modifyStream k fun stream => { stream with lock := some i }).current =
        s.current := current_congr rfl fun k' => rest_modify s k k' fun _ => rfl
    exact congrArg (fun current => cut job.endsInput (current ++ (itemsOf s.streams.streams ++
      if s.finished then [] else s.streams.last.toList))) hcurrent
  | leavesStream hk hdone => exact h.keep rfl fun _ => toTake_release _ s (.stream _)
  | @closes k stream hk running hrest =>
    refine h.keep rfl fun _ => ?_
    have hopen := hinput.opens.only hordered (hinput.opens.mem_open hk running)
    have hcurrent : s.current = [] := by
      unfold current
      rw [hopen, List.flatMap_singleton, hk, ← hrest]
      rfl
    have hclosed : (s.openStreams.filter (· != k)) = [] := by
      rw [hopen]
      simp
    show cut _ (List.flatMap _ (s.openStreams.filter (· != k)) ++ _) = cut _ _
    rw [hclosed, hcurrent]
    rfl
  | @declines phase hdeclines finished hfinished =>
    refine h.keep rfl fun _ => ?_
    -- The last item is declined only where there is none.
    have hlast : (if finished = true then [] else s.streams.last.toList) =
        if s.finished = true then [] else s.streams.last.toList := by
      cases hdeclines with
      | noLast hlast => simp [hlast]
      | _ =>
        have hsame : finished = s.finished := by
          rw [Bool.eq_iff_iff, hfinished]
          simp
        rw [hsame]
    show cut _ (s.current ++ (itemsOf s.streams.streams ++
      if finished = true then [] else s.streams.last.toList)) = _
    rw [hlast]
    rfl
  | @opens rest streams hstreams =>
    refine h.keep rfl fun _ => ?_
    have hopen : s.openStreams = [] := by
      have hlt : s.openStreams.length < maxOpen options := hinput.sees i _ hi
      rw [maxOpen, if_pos hordered] at hlt
      exact List.eq_nil_of_length_eq_zero (by omega)
    have hcurrent : s.current = [] := by
      unfold current
      rw [hopen]
      rfl
    show cut _ (List.flatMap _ (s.openStreams ++ [s.opened.length]) ++ _) = cut _ _
    rw [hopen, List.nil_append, List.flatMap_singleton, hcurrent, hstreams]
    show cut _ (Option.getD (Option.map _ (s.opened ++ [OpenStream.mk rest false none])[
      s.opened.length]?) [] ++ (itemsOf streams ++ _)) = _
    rw [List.getElem?_concat_length, itemsOf, List.nil_append, List.append_assoc]
    rfl
  | drops htakes hdropped =>
    obtain ⟨-, -, hn, -⟩ := htakes.shared
    refine h.keep ?_ fun hrunning => ?_
    · exact (release_shared _ _).2.2.1.trans hn
    · rw [hdropped] at hrunning
      cases hrunning
  | @numbers phase held item orElse taken htakes hfree hrunning =>
    obtain ⟨-, -, hn, -⟩ := htakes.shared
    have htake := htakes.toTake hinput hordered hi hrunning
    rw [if_neg Bool.false_ne_true] at htake
    have hrunning' : (({ taken with next := s.next + 1 }.release held).setPhase i
        (.mapping s.next item)).numbersStopped = false :=
      (release_shared { taken with next := s.next + 1 } held).2.2.1.trans (hn.trans hrunning)
    have hafter : (({ taken with next := s.next + 1 }.release held).setPhase i
        (.mapping s.next item)).toTake job.endsInput = taken.toTake job.endsInput :=
      toTake_release job.endsInput { taken with next := s.next + 1 } held
    unfold Flow at *
    rw [hrunning'] at *
    rw [hrunning, if_neg Bool.false_ne_true, htake] at h
    rw [if_neg Bool.false_ne_true, hafter, List.append_assoc]
    rcases h with h | ⟨hstopped, -⟩
    · exact .inl h
    · cases hstopped
  | @ends phase held item orElse taken htakes hfree hrunning =>
    have htake := htakes.toTake hinput hordered hi hrunning
    rw [if_pos rfl] at htake
    unfold Flow at *
    rw [hrunning, if_neg Bool.false_ne_true, htake] at h
    rcases h with h | ⟨hstopped, -⟩
    · left
      show (log ++ [item]) ++ [] = all
      rw [List.append_nil]
      exact h
    · cases hstopped
  | @storesExhausted held seq item =>
    refine h.keep ?_ fun _ => ?_
    · exact (release_shared { s with exhausted := true, numbersLock := none } held).2.2.1
    · exact toTake_release job.endsInput { s with exhausted := true, numbersLock := none } held
  | _ => exact h.keep rfl fun _ => rfl

theorem Flow.fails {all : List (Except Panic Item)} (h : Flow job panics all log s)
    {panic : Panic} (hpanic : panics panic) (hfails : Fails s i panic added t) :
    Flow job panics all (log ++ added) t := by
  cases hfails with
  | drops hstopped => exact h.keep rfl fun _ => rfl
  | ends hfree hrunning =>
    unfold Flow at h
    rw [hrunning, if_neg Bool.false_ne_true] at h
    rcases h with h | ⟨hstopped, -⟩
    · refine .inr ⟨rfl, log.length, panic, hpanic, ?_⟩
      rw [← h, List.take_left]
    · cases hstopped

/-! ## Runs -/

end

end Pool

/-- `next` has returned `None`. -/
def Consumer.returnedNone : Consumer Result Panic → Bool
  | .dropping ended | .closing ended | .gone ended => ended
  | _ => false

namespace Pool

section

variable {options : MapOptions} {job : Job Item Result Panic} {panics : Panic → Prop}
  {s t : Pool Item Result Panic} {i j : Nat} {phase phase' : Phase Item Panic} {held : Held}
  {added log all : List (Except Panic Item)} {input : Streams Item Panic}

/-- What holds of a pool in order. -/
structure InOrder (options : MapOptions) (job : Job Item Result Panic) (panics : Panic → Prop)
    (all log : List (Except Panic Item)) (s : Pool Item Result Panic) : Prop where
  input : Input options s
  sent : Sent job log s
  flow : Flow job panics all log s
  workers : 0 < s.workers.length
  missing : s.consumer = .receiving → s.pending.lookup s.nextResult = none
  /-- When `next` has returned `None`, everything has been returned. -/
  complete : s.consumer.returnedNone = true → (∀ phase ∈ s.workers, phase = .ended) ∧
    s.nextResult = log.length ∧ (log = all ∨ CutShort panics all log)

theorem sent_new (input : Streams Item Panic) :
    Sent job [] (new options input : Pool Item Result Panic) := by
  refine ⟨rfl, fun j phase seq item hj htaken => ?_, nofun, fun _ seq => ?_, rfl, Nat.le_refl _⟩
  · have hphase : phase = .ticket := List.eq_of_mem_replicate (List.mem_of_getElem? hj)
    rw [hphase] at htaken
    cases htaken
  · have hnone : (Phase.ticket : Phase Item Panic).has seq = false := rfl
    simp [places, new, List.countP_replicate, hnone]

theorem inOrder_new (hthreads : 0 < options.threads) :
    InOrder options job panics (input.all job.endsInput) [] (new options input) where
  input := input_new input
  sent := sent_new input
  flow := .inl rfl
  workers := by
    show 0 < (List.replicate options.threads _).length
    rw [List.length_replicate]
    exact hthreads
  missing := nofun
  complete := nofun

/-- When every worker has ended, the input is stopped, or used up. -/
theorem Input.used_up (h : Input options s) (hworkers : 0 < s.workers.length)
    (hended : ∀ phase ∈ s.workers, phase = .ended) (hrunning : s.cancelled = false) :
    s.numbersStopped = true ∨ (s.numbersStopped = false ∧ s.streams.streams = [] ∧
      s.openStreams = [] ∧ s.finished = true) := by
  have hover : Over s := by
    have hget := List.getElem?_eq_getElem hworkers
    have hsees := h.sees 0 _ hget
    rw [hended _ (List.getElem_mem hworkers)] at hsees
    exact hsees
  have hnone : ∀ p : Phase Item Panic → Bool, p .ended = false → s.workers.countP p = 0 := by
    intro p hp
    rw [List.countP_eq_zero]
    intro phase hphase
    rw [hended phase hphase, hp]
    exact Bool.false_ne_true
  cases hstopped : s.numbersStopped with
  | true => exact .inl rfl
  | false =>
    rcases hover with hover | ⟨hexhausted, hstreams, hopen⟩ | hcancelled
    · rw [hstopped] at hover
      cases hover
    · -- No stream is left, and whoever counted the last has taken the last item.
      refine .inr ⟨rfl, hstreams, hopen, ?_⟩
      cases hfinished : s.finished with
      | true => rfl
      | false =>
        have hcount := h.count
        rw [hopen, hnone _ rfl] at hcount
        rcases h.finisher hexhausted hstopped hfinished with hlt | hpos
        · simp only [List.length_nil] at hcount
          omega
        · rw [hnone _ rfl] at hpos
          omega
    · rw [hrunning] at hcancelled
      cases hcancelled

theorem InOrder.used_up (h : InOrder options job panics all log s)
    (hended : ∀ phase ∈ s.workers, phase = .ended) (hrunning : s.cancelled = false) :
    log = all ∨ CutShort panics all log := by
  have hflow := h.flow
  unfold Flow at hflow
  rcases h.input.used_up h.workers hended hrunning with hstopped |
    ⟨hstopped, hstreams, hopen, hfinished⟩
  · rw [hstopped, if_pos rfl, List.append_nil] at hflow
    exact hflow.imp_right And.right
  · have htake : s.toTake job.endsInput = [] := by
      unfold toTake current
      rw [hopen, hstreams, hfinished]
      rfl
    rw [hstopped, if_neg Bool.false_ne_true, htake, List.append_nil] at hflow
    exact hflow.imp_right And.right

/-- Where the next result is neither pending nor on its way, and every worker
has ended, there is none. -/
theorem Sent.all_used (h : Sent job log s) (hended : ∀ phase ∈ s.workers, phase = .ended)
    (hreceiver : s.receiver = true) (hresults : s.results = [])
    (hmissing : s.pending.lookup s.nextResult = none) : s.nextResult = log.length := by
  have hle := h.nextResult_le
  have hcounted := h.counted hreceiver s.nextResult
  have hworkers : s.workers.countP (Phase.has s.nextResult) = 0 := by
    rw [List.countP_eq_zero]
    intro phase hphase
    rw [hended phase hphase]
    exact Bool.false_ne_true
  have hpending : s.pending.countP (·.1 == s.nextResult) = 0 := by
    rw [List.countP_eq_zero]
    intro entry hentry hseq
    have := List.lookup_eq_none_iff.1 hmissing entry hentry
    rw [beq_iff_eq.1 hseq] at this
    simp at this
  unfold places at hcounted
  rw [hworkers, hresults, hpending] at hcounted
  split at hcounted
  · simp at hcounted
  · omega

theorem Takes.phase_ne {item : Except Panic Item} {ends : Bool} {orElse : Phase Item Panic}
    (htakes : Takes job s phase held item ends orElse t) : phase ≠ .ended := by
  cases htakes <;> exact nofun

theorem Does.output (hdoes : Does options job s i phase added t) : t.output = s.output := by
  cases hdoes with
  | @drops phase held item ends orElse taken htakes hdropped =>
    exact (release_consumer taken held).2.2.2.2.trans htakes.results.2.2.2.2.1
  | @numbers phase held item orElse taken htakes hfree hrunning =>
    exact (release_consumer { taken with next := s.next + 1 } held).2.2.2.2.trans
      htakes.results.2.2.2.2.1
  | ends htakes hfree hrunning => exact htakes.results.2.2.2.2.1
  | @storesExhausted held seq item =>
    exact (release_consumer { s with exhausted := true, numbersLock := none } held).2.2.2.2
  | _ => rfl

theorem Does.consumer (hdoes : Does options job s i phase added t) :
    t.consumer = s.consumer ∧ t.pending = s.pending ∧ t.nextResult = s.nextResult ∧
      t.workers.length = s.workers.length ∧ phase ≠ .ended := by
  have released : ∀ (u : Pool Item Result Panic) (held : Held) (phase' : Phase Item Panic),
      ((u.release held).setPhase i phase').consumer = u.consumer ∧
        ((u.release held).setPhase i phase').pending = u.pending ∧
        ((u.release held).setPhase i phase').nextResult = u.nextResult ∧
        ((u.release held).setPhase i phase').workers.length = u.workers.length := by
    intro u held phase'
    cases held <;> exact ⟨rfl, rfl, rfl, List.length_set⟩
  cases hdoes with
  | locksStream hk hfree hfrom =>
    refine ⟨rfl, rfl, rfl, List.length_set, ?_⟩
    rcases hfrom with rfl | ⟨_, _, _, rfl⟩ <;> exact nofun
  | declines hdeclines finished hfinished =>
    refine ⟨rfl, rfl, rfl, List.length_set, ?_⟩
    cases hdeclines <;> exact nofun
  | @drops phase held item ends orElse taken htakes hdropped =>
    obtain ⟨hconsumer, hpending, hnextResult, hlength⟩ := released taken held orElse
    obtain ⟨-, -, -, hsame, -⟩ := htakes.shared
    obtain ⟨-, -, hpending', hnextResult', -, -⟩ := htakes.results
    refine ⟨hconsumer.trans hsame.consumer, hpending.trans hpending',
      hnextResult.trans hnextResult', ?_, htakes.phase_ne⟩
    rw [hlength, htakes.locks.2.2.2.2.2]
  | @numbers phase held item orElse taken htakes hfree hrunning =>
    obtain ⟨hconsumer, hpending, hnextResult, hlength⟩ :=
      released { taken with next := s.next + 1 } held (.mapping s.next item)
    obtain ⟨-, -, -, hsame, -⟩ := htakes.shared
    obtain ⟨-, -, hpending', hnextResult', -, -⟩ := htakes.results
    refine ⟨hconsumer.trans hsame.consumer, hpending.trans hpending',
      hnextResult.trans hnextResult', ?_, htakes.phase_ne⟩
    rw [hlength]
    exact congrArg List.length htakes.locks.2.2.2.2.2
  | @ends phase held item orElse taken htakes hfree hrunning =>
    obtain ⟨-, -, -, hsame, -⟩ := htakes.shared
    obtain ⟨-, -, hpending, hnextResult, -, -⟩ := htakes.results
    refine ⟨hsame.consumer, hpending, hnextResult, ?_, htakes.phase_ne⟩
    show (taken.workers.set i _).length = _
    rw [List.length_set, htakes.locks.2.2.2.2.2]
  | @storesExhausted held seq item =>
    obtain ⟨hconsumer, hpending, hnextResult, hlength⟩ :=
      released { s with exhausted := true, numbersLock := none } held (.mapping seq item)
    exact ⟨hconsumer, hpending, hnextResult, hlength, nofun⟩
  | _ => exact ⟨rfl, rfl, rfl, List.length_set, nofun⟩

theorem InOrder.running (h : InOrder options job panics all log s)
    (hi : s.workers[i]? = some phase) (hphase : phase ≠ .ended) :
    s.consumer.returnedNone = false := by
  cases hnone : s.consumer.returnedNone with
  | false => rfl
  | true => exact absurd ((h.complete hnone).1 phase (List.mem_of_getElem? hi)) hphase

theorem InOrder.goes (h : InOrder options job panics all log s) (hi : s.workers[i]? = some phase)
    (hgoes : Goes options s phase phase') :
    InOrder options job panics all log (s.setPhase i phase') := by
  refine ⟨h.input.goes hi hgoes, h.sent.quiet hi rfl rfl rfl rfl rfl rfl ⟨rfl, rfl, rfl⟩
    hgoes.taken, h.flow, ?_, h.missing, fun hnone => ?_⟩
  · show 0 < (s.workers.set i phase').length
    rw [List.length_set]
    exact h.workers
  · have hrunning := h.running hi (by cases hgoes <;> exact nofun)
    have hnone' : s.consumer.returnedNone = true := hnone
    rw [hrunning] at hnone'
    cases hnone'

theorem InOrder.woken (h : InOrder options job panics all log s) (hwoken : Woken s t) :
    InOrder options job panics all log t := by
  cases hwoken with
  | one hj => exact h.goes hj .wakes
  | nobody => exact h

theorem InOrder.does (h : InOrder options job panics all log s)
    (hordered : options.preserveOrder = true) (hi : s.workers[i]? = some phase)
    (hdoes : Does options job s i phase added t) :
    InOrder options job panics all (log ++ added) t := by
  obtain ⟨hconsumer, hpending, hnextResult, hlength, hphase⟩ := hdoes.consumer
  refine ⟨h.input.does hi hdoes, h.sent.does hi hdoes, h.flow.does h.input hordered hi hdoes, ?_, ?_,
    ?_⟩
  · rw [hlength]
    exact h.workers
  · rw [hconsumer, hpending, hnextResult]
    exact h.missing
  · rw [hconsumer, h.running hi hphase]
    exact nofun

theorem InOrder.fails (h : InOrder options job panics all log s) (hi : s.workers[i]? = some phase)
    (hcalls : phase = .helping ∨ ∃ head, phase = .helpingHeld head) {panic : Panic}
    (hpanic : panics panic) (hfails : Fails s i panic added t) :
    InOrder options job panics all (log ++ added) t := by
  have hphase : phase ≠ .ended := by
    rcases hcalls with rfl | ⟨_, rfl⟩ <;> exact nofun
  have hsame : t.consumer = s.consumer ∧ t.pending = s.pending ∧ t.nextResult = s.nextResult ∧
      t.workers.length = s.workers.length := by
    cases hfails <;> exact ⟨rfl, rfl, rfl, List.length_set⟩
  obtain ⟨hconsumer, hpending, hnextResult, hlength⟩ := hsame
  refine ⟨h.input.fails hi hcalls hfails, h.sent.fails hi hcalls hfails, h.flow.fails hpanic hfails,
    ?_, ?_, ?_⟩
  · rw [hlength]
    exact h.workers
  · rw [hconsumer, hpending, hnextResult]
    exact h.missing
  · rw [hconsumer, h.running hi hphase]
    exact nofun

theorem InOrder.consumes (h : InOrder options job panics all log s)
    (hordered : options.preserveOrder = true) (hconsumes : ConsumerDoes options s t) :
    InOrder options job panics all log t := by
  have hflow : Flow job panics all (log ++ []) t := by
    cases hconsumes <;> exact h.flow.keep rfl fun _ => rfl
  have hsent := h.sent.consumes hordered hconsumes
  have hlength : t.workers.length = s.workers.length := by
    cases hconsumes <;> first | rfl | exact List.length_map _
  rw [List.append_nil] at hflow
  have hworkers : 0 < t.workers.length := hlength ▸ h.workers
  refine ⟨h.input.consumes hconsumes, hsent, hflow, hworkers, ?_, ?_⟩
  · cases hconsumes with
    | misses hconsumer hmissing => exact fun _ => hmissing hordered
    | _ => exact nofun
  · have hcomplete := h.complete
    cases hconsumes with
    | ends hconsumer hresults hended =>
      have hcancelled : s.cancelled = false := by
        rw [h.input.cancelled_eq, hconsumer]
        rfl
      have hreceiver : s.receiver = true := by
        rw [h.input.receiver_eq, hconsumer]
        rfl
      exact fun _ => ⟨hended, h.sent.all_used hended hreceiver hresults (h.missing hconsumer),
        h.used_up hended hcancelled⟩
    | @cancels ended hconsumer =>
      intro hnone
      rw [hconsumer] at hcomplete
      obtain ⟨hended, hall⟩ := hcomplete hnone
      refine ⟨fun phase hphase => ?_, hall⟩
      obtain ⟨old, hold, rfl⟩ := List.mem_map.1 hphase
      rw [hended old hold]
      rfl
    | @closes ended hconsumer =>
      intro hnone
      rw [hconsumer] at hcomplete
      exact hcomplete hnone
    | _ => exact nofun

theorem InOrder.move (h : InOrder options job panics all log s)
    (hordered : options.preserveOrder = true) (hmove : Move options job panics s added t) :
    InOrder options job panics all (log ++ added) t := by
  have quiet : ∀ {u : Pool Item Result Panic}, InOrder options job panics all log u →
      InOrder options job panics all (log ++ []) u := by
    intro u hu
    rw [List.append_nil]
    exact hu
  cases hmove with
  | stays => exact quiet h
  | goes hi hgoes => exact quiet (h.goes hi hgoes)
  | leaves hi hwoken => exact quiet ((h.goes hi .leaves).woken hwoken)
  | does hi hdoes => exact h.does hordered hi hdoes
  | fails hi calls hpanic hfails => exact h.fails hi calls hpanic hfails
  | consumes hconsumes => exact quiet (h.consumes hordered hconsumes)
  | yields hconsumer hwoken => exact quiet ((h.consumes hordered (.yields hconsumer)).woken hwoken)

theorem InOrder.step (h : InOrder options job panics all log s)
    (hordered : options.preserveOrder = true) {e : Event Panic}
    (hpanics : ∀ i panic, e = .help i (.error panic) → panics panic)
    (hstep : s.step options job e = some t) :
    ∃ added, InOrder options job panics all (log ++ added) t := by
  obtain ⟨added, hmove⟩ := step_moves hstep
  refine ⟨added, h.move hordered (hmove.mono ?_)⟩
  rintro panic ⟨i, he⟩
  exact hpanics i panic he

theorem inOrder_run {events : List (Event Panic)} (hordered : options.preserveOrder = true)
    (hthreads : 0 < options.threads)
    (hrun : run (Pool.step options job) (new options input) events = some s) :
    ∃ log, InOrder options job (fun panic => ∃ i, .help i (.error panic) ∈ events)
      (input.all job.endsInput) log s := by
  refine Lib.run_invariant (I := fun s => ∃ log, InOrder options job
    (fun panic => ∃ i, .help i (.error panic) ∈ events) (input.all job.endsInput) log s) ?_
    ⟨[], inOrder_new hthreads⟩ hrun
  rintro s e s' he ⟨log, h⟩ hstep
  obtain ⟨added, h'⟩ := h.step hordered (fun i panic heq => ⟨i, heq ▸ he⟩) hstep
  exact ⟨_, h'⟩

theorem InOrder.output (h : InOrder options job panics all log s) :
    s.output <+: log.map job.apply ∧
      (s.consumer.returnedNone = true → s.output = log.map job.apply) := by
  have houtput := h.sent.output_eq
  constructor
  · refine List.IsPrefix.trans ⟨s.consumer.inHand, houtput⟩ ?_
    exact (List.take_prefix _ _).map job.apply
  · intro hnone
    obtain ⟨-, hall, -⟩ := h.complete hnone
    rw [hall, List.take_length] at houtput
    have hhand : s.consumer.inHand = [] := by
      cases hconsumer : s.consumer <;> rw [hconsumer] at hnone <;> first | rfl | cases hnone
    rwa [hhand, List.append_nil] at houtput

end

end Pool

end Parallel

end Xeibe

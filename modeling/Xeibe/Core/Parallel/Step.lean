import Xeibe.Core.Parallel.Model

/-!
# What a step does

`Goes`, `Takes` and `Does` say once what a worker's step can do, and
`ConsumerDoes` what the consumer's can; every invariant is derived from them.
`Goes` are the steps that only read.  `Takes` is what a worker does before it
numbers what it has taken from the input.  The index `added` of `Does` is what
gets a number.
-/

namespace Xeibe

namespace Parallel

namespace Pool

section

variable {Item Result Panic : Type} {options : MapOptions} {job : Job Item Result Panic}
  {s s' : Pool Item Result Panic} {i : Nat}

/-! ## Inversion -/

/-- A worker goes on, having read the shared state and changed nothing of it. -/
inductive Goes (options : MapOptions) (s : Pool Item Result Panic) :
    Phase Item Panic → Phase Item Panic → Prop where
  | cancelled (h : s.cancelled = true) : Goes options s .ticket .ended
  | waits (h : s.cancelled = false) (none_ : s.tickets = 0) : Goes options s .ticket .waiting
  | wakes : Goes options s .waiting .ticket
  | helped : Goes options s .helping .checkStopped
  | stopped (h : s.stopped = true) : Goes options s .checkStopped .leaving
  | running (h : s.stopped = false) : Goes options s .checkStopped .checkExhausted
  | reads : Goes options s .checkExhausted (.listOpen s.exhausted)
  | usedUp (h : s.openStreams = []) : Goes options s (.listOpen true) .leaving
  | noneOpen (h : s.openStreams = []) : Goes options s (.listOpen false) .opening
  | copies {exhausted : Bool} {k : Nat} {left : List Nat} (h : s.openStreams = k :: left) :
    Goes options s (.listOpen exhausted) (.trying exhausted (k :: left) k left)
  | triesNext {exhausted : Bool} {open_ : List Nat} {k k' : Nat} {left : List Nat} :
    Goes options s (.trying exhausted open_ k (k' :: left)) (.trying exhausted open_ k' left)
  | opensAnother {open_ : List Nat} {k : Nat} (h : open_.length < maxOpen options) :
    Goes options s (.trying false open_ k []) .opening
  | allHeld {exhausted : Bool} {open_ : List Nat} {k : Nat} :
    Goes options s (.trying exhausted open_ k []) (.helpingHeld (open_.headD 0))
  | helpedHeld {head : Nat} : Goes options s (.helpingHeld head) .checkStopped
  | blocks {head : Nat} : Goes options s (.helpingHeld head) (.blocked head)
  | finishes (h : s.exhausted = true) (h' : s.started ≤ s.ended) (h'' : s.finished = false) :
    Goes options s .finishing .finishingStopped
  | unstopped (h : s.stopped = false) : Goes options s .finishingStopped .finishingLast
  | notExhausted (h : s.exhausted = false) : Goes options s .openingExhausted .openingRoom
  | room (h : s.openStreams.length < maxOpen options) : Goes options s .openingRoom .openingNext
  | consumerGone {seq : Nat} {item : Except Panic Item} (h : s.receiver = false) :
    Goes options s (.mapping seq item) .ended
  | leaves : Goes options s .leavingNotify .ended

/-- A worker lets go of the list, having found nothing to do. -/
inductive Declines (options : MapOptions) (s : Pool Item Result Panic) : Phase Item Panic → Prop where
  | unfinished (h : s.exhausted = false ∨ s.ended < s.started ∨ s.finished = true) :
    Declines options s .finishing
  | stopped (h : s.stopped = true) : Declines options s .finishingStopped
  | exhausted (h : s.exhausted = true) : Declines options s .openingExhausted
  | full (h : maxOpen options ≤ s.openStreams.length) : Declines options s .openingRoom
  | noLast (h : s.streams.last = none) : Declines options s .finishingLast

/-- A worker takes something from the input, with the lock `held`. -/
inductive Takes (job : Job Item Result Panic) (s : Pool Item Result Panic) :
    Phase Item Panic → Held → Except Panic Item → Bool → Phase Item Panic →
    Pool Item Result Panic → Prop where
  | item {k : Nat} {stream : OpenStream Item Panic} {item : Item} {rest : List (Except Panic Item)}
    (hk : s.opened[k]? = some stream) (running : stream.done = false)
    (hrest : stream.rest = .ok item :: rest) :
    Takes job s (.pulling k) (.stream k) (.ok item) (job.endsInput item) .checkStopped
      (s.modifyStream k fun stream =>
        { stream with rest, done := job.endsInput item && !s.numbersStopped })
  | panicked {k : Nat} {stream : OpenStream Item Panic} {panic : Panic}
    {rest : List (Except Panic Item)} (hk : s.opened[k]? = some stream)
    (running : stream.done = false) (hrest : stream.rest = .error panic :: rest) :
    Takes job s (.pulling k) (.stream k) (.error panic) true .checkStopped
      (s.modifyStream k fun stream => { stream with rest, done := true })
  | failed {panic : Panic} {streams : List (Except Panic (List (Except Panic Item)))}
    (h : s.streams.streams = .error panic :: streams) :
    Takes job s .openingNext .list (.error panic) true .checkStopped
      { s with streams := { s.streams with streams } }
  | last {item : Except Panic Item} (h : s.streams.last = some item) :
    Takes job s .finishingLast .list item false .checkStopped { s with finished := true }

/-- What a step of worker `i` does that changes the shared state. -/
inductive Does (options : MapOptions) (job : Job Item Result Panic) (s : Pool Item Result Panic)
    (i : Nat) : Phase Item Panic → List (Except Panic Item) → Pool Item Result Panic → Prop where
  | ticket (h : s.cancelled = false) (some_ : 0 < s.tickets) :
    Does options job s i .ticket [] ({ s with tickets := s.tickets - 1 }.setPhase i .helping)
  | returns : Does options job s i .leaving [] (s.returnTicket.setPhase i .leavingNotify)
  | sends {seq : Nat} {item : Except Panic Item} (h : s.receiver = true) :
    Does options job s i (.mapping seq item) []
      ({ s with results := s.results ++ [(seq, job.apply item)] }.setPhase i .ticket)
  | locksStream {phase : Phase Item Panic} {k : Nat} {stream : OpenStream Item Panic} (hk : s.opened[k]? = some stream)
    (free : stream.lock = none)
    (from_ : phase = .blocked k ∨ ∃ exhausted open_ left, phase = .trying exhausted open_ k left) :
    Does options job s i phase []
      ((s.modifyStream k fun stream => { stream with lock := some i }).setPhase i (.pulling k))
  | leavesStream {k : Nat} {stream : OpenStream Item Panic} (hk : s.opened[k]? = some stream)
    (done : stream.done = true) :
    Does options job s i (.pulling k) [] ((s.release (.stream k)).setPhase i .checkStopped)
  | closes {k : Nat} {stream : OpenStream Item Panic} (hk : s.opened[k]? = some stream)
    (running : stream.done = false) (hrest : stream.rest = []) :
    Does options job s i (.pulling k) []
      (({ s.modifyStream k fun stream => { stream with done := true } with
        openStreams := s.openStreams.filter (· != k) }.release (.stream k)).setPhase i .ending)
  | counts (free : s.listLock = none) :
    Does options job s i .ending []
      (({ s with ended := s.ended + 1 }.setListLock (some i)).setPhase i .finishing)
  | locksList (free : s.listLock = none) :
    Does options job s i .opening [] ((s.setListLock (some i)).setPhase i .openingExhausted)
  | declines {phase : Phase Item Panic} (h : Declines options s phase)
    (finished : Bool) (hfinished : finished = true ↔ s.finished = true ∨ phase = .finishingLast) :
    Does options job s i phase []
      (({ s with finished }.release .list).setPhase i .checkStopped)
  | opens {rest : List (Except Panic Item)}
    {streams : List (Except Panic (List (Except Panic Item)))}
    (h : s.streams.streams = .ok rest :: streams) :
    Does options job s i .openingNext []
      (({ s with
        streams := { s.streams with streams }
        started := s.started + 1
        opened := s.opened ++ [OpenStream.mk rest false none]
        openStreams := s.openStreams ++ [s.opened.length] }.release .list).setPhase i .checkStopped)
  | exhausts (h : s.streams.streams = []) :
    Does options job s i .openingNext [] ({ s with exhausted := true }.setPhase i .finishing)
  | drops {phase : Phase Item Panic} {held : Held} {item : Except Panic Item} {ends : Bool}
    {orElse : Phase Item Panic} {t : Pool Item Result Panic} (h : Takes job s phase held item ends orElse t)
    (stopped : s.numbersStopped = true) :
    Does options job s i phase [] ((t.release held).setPhase i orElse)
  | numbers {phase : Phase Item Panic} {held : Held} {item : Except Panic Item}
    {orElse : Phase Item Panic} {t : Pool Item Result Panic} (h : Takes job s phase held item false orElse t)
    (free : s.numbersLock = none) (running : s.numbersStopped = false) :
    Does options job s i phase [item]
      (({ t with next := s.next + 1 }.release held).setPhase i (.mapping s.next item))
  | ends {phase : Phase Item Panic} {held : Held} {item : Except Panic Item}
    {orElse : Phase Item Panic} {t : Pool Item Result Panic} (h : Takes job s phase held item true orElse t)
    (free : s.numbersLock = none) (running : s.numbersStopped = false) :
    Does options job s i phase [item]
      ({ t with
        next := s.next + 1
        numbersStopped := true
        numbersLock := some i }.setPhase i (.stopping held s.next item))
  | stores {held : Held} {seq : Nat} {item : Except Panic Item} :
    Does options job s i (.stopping held seq item) []
      ({ s with stopped := true }.setPhase i (.exhausting held seq item))
  | storesExhausted {held : Held} {seq : Nat} {item : Except Panic Item} :
    Does options job s i (.exhausting held seq item) []
      (({ s with exhausted := true, numbersLock := none }.release held).setPhase i
        (.mapping seq item))

/-- A worker's panic in the helper ends the input, unless it has ended. -/
inductive Fails (s : Pool Item Result Panic) (i : Nat) (panic : Panic) :
    List (Except Panic Item) → Pool Item Result Panic → Prop where
  | drops (stopped : s.numbersStopped = true) : Fails s i panic [] (s.setPhase i .leaving)
  | ends (free : s.numbersLock = none) (running : s.numbersStopped = false) :
    Fails s i panic [.error panic]
      ({ s with
        next := s.next + 1
        numbersStopped := true
        numbersLock := some i }.setPhase i (.stopping .none s.next (.error panic)))

/-- What a step of the consumer does. -/
inductive ConsumerDoes (options : MapOptions) (s : Pool Item Result Panic) :
    Pool Item Result Panic → Prop where
  | starts (h : s.consumer = .idle) : ConsumerDoes options s { s with consumer := .looking }
  | finds {result : Except Panic Result} (h : s.consumer = .looking)
    (ordered : options.preserveOrder = true) (found : s.pending.lookup s.nextResult = some result) :
    ConsumerDoes options s
      { s with
        pending := s.pending.filter (·.1 != s.nextResult)
        nextResult := s.nextResult + 1
        consumer := .returning result }
  | misses (h : s.consumer = .looking)
    (missing : options.preserveOrder = true → s.pending.lookup s.nextResult = none) :
    ConsumerDoes options s { s with consumer := .receiving }
  | receives {seq : Nat} {result : Except Panic Result} {results : List (Nat × Except Panic Result)}
    (h : s.consumer = .receiving) (ordered : options.preserveOrder = true)
    (hresults : s.results = (seq, result) :: results) :
    ConsumerDoes options s
      { s with results, pending := (seq, result) :: s.pending, consumer := .looking }
  | receivesAny {seq : Nat} {result : Except Panic Result}
    {results : List (Nat × Except Panic Result)} (h : s.consumer = .receiving)
    (unordered : options.preserveOrder = false) (hresults : s.results = (seq, result) :: results) :
    ConsumerDoes options s { s with results, consumer := .returning result }
  | ends (h : s.consumer = .receiving) (hresults : s.results = [])
    (hworkers : ∀ phase ∈ s.workers, phase = .ended) :
    ConsumerDoes options s { s with consumer := .dropping true }
  | returns {result : Except Panic Result} (h : s.consumer = .returning result) :
    ConsumerDoes options s { s.returnTicket with consumer := .notifying result }
  | yields {result : Except Panic Result} (h : s.consumer = .notifying result) :
    ConsumerDoes options s { s with consumer := .idle, output := s.output ++ [result] }
  | drops (h : s.consumer = .idle) : ConsumerDoes options s { s with consumer := .dropping false }
  | cancels {ended : Bool} (h : s.consumer = .dropping ended) :
    ConsumerDoes options s
      { s with
        cancelled := true
        workers := s.workers.map fun phase => if isWaiting phase then .ticket else phase
        consumer := .closing ended }
  | closes {ended : Bool} (h : s.consumer = .closing ended) :
    ConsumerDoes options s { s with receiver := false, results := [], consumer := .gone ended }

/-- `notify_one`: a waiting worker is woken, if there is one. -/
inductive Woken (s : Pool Item Result Panic) : Pool Item Result Panic → Prop where
  | one {j : Nat} (hj : s.workers[j]? = some .waiting) : Woken s (s.setPhase j .ticket)
  | nobody (h : s.workers.countP isWaiting = 0) : Woken s s

/-- What a step does.  `panics` says which panics the helper raises. -/
inductive Move (options : MapOptions) (job : Job Item Result Panic) (panics : Panic → Prop)
    (s : Pool Item Result Panic) : List (Except Panic Item) → Pool Item Result Panic → Prop where
  | stays : Move options job panics s [] s
  | goes {i : Nat} {phase phase' : Phase Item Panic} (hi : s.workers[i]? = some phase)
    (h : Goes options s phase phase') (quiet : phase ≠ .leavingNotify) :
    Move options job panics s [] (s.setPhase i phase')
  | leaves {i : Nat} {t : Pool Item Result Panic} (hi : s.workers[i]? = some .leavingNotify)
    (h : Woken (s.setPhase i .ended) t) : Move options job panics s [] t
  | does {i : Nat} {phase : Phase Item Panic} {added : List (Except Panic Item)}
    {t : Pool Item Result Panic} (hi : s.workers[i]? = some phase)
    (h : Does options job s i phase added t) : Move options job panics s added t
  | fails {i : Nat} {phase : Phase Item Panic} {panic : Panic} {added : List (Except Panic Item)}
    {t : Pool Item Result Panic} (hi : s.workers[i]? = some phase)
    (calls : phase = .helping ∨ ∃ head, phase = .helpingHeld head) (hpanic : panics panic)
    (h : Fails s i panic added t) : Move options job panics s added t
  | consumes {t : Pool Item Result Panic} (h : ConsumerDoes options s t)
    (quiet : ∀ result, s.consumer ≠ .notifying result) : Move options job panics s [] t
  | yields {result : Except Panic Result} {t : Pool Item Result Panic}
    (h : s.consumer = .notifying result)
    (h' : Woken { s with consumer := .idle, output := s.output ++ [result] } t) :
    Move options job panics s [] t

/-! ## Steps -/

variable {panics : Panic → Prop} {phase : Phase Item Panic}

theorem Move.mono {panics' : Panic → Prop} {added : List (Except Panic Item)}
    {t : Pool Item Result Panic} (h : Move options job panics s added t)
    (himp : ∀ panic, panics panic → panics' panic) : Move options job panics' s added t := by
  cases h with
  | stays => exact .stays
  | goes hi hgoes quiet => exact .goes hi hgoes quiet
  | leaves hi hwoken => exact .leaves hi hwoken
  | does hi hdoes => exact .does hi hdoes
  | fails hi calls hpanic hfails => exact .fails hi calls (himp _ hpanic) hfails
  | consumes hconsumes quiet => exact .consumes hconsumes quiet
  | yields hconsumer hwoken => exact .yields hconsumer hwoken

theorem number_cases {held : Held} {item : Except Panic Item} {ends : Bool}
    {orElse : Phase Item Panic} (h : s.number i held item ends orElse = some s') :
    (s.numbersStopped = true ∧ s' = (s.release held).setPhase i orElse) ∨
    (s.numbersLock = none ∧ s.numbersStopped = false ∧ ends = true ∧
      s' = { s with
        next := s.next + 1
        numbersStopped := true
        numbersLock := some i }.setPhase i (.stopping held s.next item)) ∨
    (s.numbersLock = none ∧ s.numbersStopped = false ∧ ends = false ∧
      s' = ({ s with next := s.next + 1 }.release held).setPhase i (.mapping s.next item)) := by
  unfold number at h
  split at h
  · cases h
  · rename_i hlock
    have hfree : s.numbersLock = none := by simpa using hlock
    split at h
    · rename_i hstopped
      exact .inl ⟨hstopped, (Option.some.inj h).symm⟩
    · rename_i hrunning
      have hrunning' := Bool.eq_false_iff.2 hrunning
      split at h
      · rename_i hends
        exact .inr (.inl ⟨hfree, hrunning', hends, (Option.some.inj h).symm⟩)
      · rename_i hends
        exact .inr (.inr ⟨hfree, hrunning', Bool.eq_false_iff.2 hends, (Option.some.inj h).symm⟩)

/-- What is taken is numbered, or dropped. -/
theorem takes_number {held : Held} {item : Except Panic Item} {ends : Bool}
    {orElse : Phase Item Panic} {t : Pool Item Result Panic}
    (htakes : Takes job s phase held item ends orElse t)
    (h : t.number i held item ends orElse = some s') :
    ∃ added, Does options job s i phase added s' := by
  have hshared : t.numbersLock = s.numbersLock ∧ t.numbersStopped = s.numbersStopped ∧
      t.next = s.next := by
    cases htakes <;> exact ⟨rfl, rfl, rfl⟩
  obtain ⟨hlock, hstopped, hnext⟩ := hshared
  rcases number_cases h with ⟨hdropped, hs'⟩ | ⟨hfree, hrunning, rfl, hs'⟩ |
    ⟨hfree, hrunning, rfl, hs'⟩
  · rw [hs']
    exact ⟨_, .drops htakes (hstopped ▸ hdropped)⟩
  · rw [hnext] at hs'
    rw [hs']
    exact ⟨_, .ends htakes (hlock ▸ hfree) (hstopped ▸ hrunning)⟩
  · rw [hnext] at hs'
    rw [hs']
    exact ⟨_, .numbers htakes (hlock ▸ hfree) (hstopped ▸ hrunning)⟩

theorem pull_does {k : Nat} (h : s.pull job i k = some s') :
    ∃ added, Does options job s i (.pulling k) added s' := by
  unfold pull at h
  split at h
  · cases h
  · rename_i stream hk
    split at h
    · rename_i hdone
      cases h
      exact ⟨_, .leavesStream hk hdone⟩
    · rename_i hrunning
      have hrunning' := Bool.eq_false_iff.2 hrunning
      split at h
      · rename_i item rest hrest
        exact takes_number (.item hk hrunning' hrest) h
      · rename_i panic rest hrest
        exact takes_number (.panicked hk hrunning' hrest) h
      · rename_i hrest
        cases h
        exact ⟨_, .closes hk hrunning' hrest⟩

theorem finishLast_does (h : s.finishLast i = some s') :
    ∃ added, Does options job s i .finishingLast added s' := by
  unfold finishLast at h
  split at h
  · rename_i hlast
    cases h
    exact ⟨_, .declines (.noLast hlast) true (by simp)⟩
  · rename_i last hlast
    exact takes_number (.last hlast) h

theorem openNext_does (h : s.openNext i = some s') :
    ∃ added, Does options job s i .openingNext added s' := by
  unfold openNext at h
  split at h
  · rename_i hstreams
    cases h
    exact ⟨_, .exhausts hstreams⟩
  · rename_i rest streams hstreams
    cases h
    exact ⟨_, .opens hstreams⟩
  · rename_i panic streams hstreams
    exact takes_number (.failed hstreams) h

theorem lockStream_cases {k : Nat} {orElse : Option (Pool Item Result Panic)}
    (h : s.lockStream i k orElse = some s') :
    (∃ stream, s.opened[k]? = some stream ∧ stream.lock = none ∧
      s' = (s.modifyStream k fun stream => { stream with lock := some i }).setPhase i (.pulling k)) ∨
    orElse = some s' := by
  unfold lockStream at h
  split at h
  · cases h
  · rename_i stream hk
    split at h
    · exact .inr h
    · rename_i hfree
      exact .inl ⟨stream, hk, by simpa using hfree, (Option.some.inj h).symm⟩

theorem lockList_cases {phase' : Phase Item Panic} (h : s.lockList i phase' = some s') :
    s.listLock = none ∧ s' = (s.setListLock (some i)).setPhase i phase' := by
  unfold lockList at h
  split at h
  · cases h
  · rename_i hfree
    exact ⟨by simpa using hfree, (Option.some.inj h).symm⟩

theorem Declines.does (h : Declines options s phase) (hphase : phase ≠ .finishingLast) :
    Does options job s i phase [] ((s.release .list).setPhase i .checkStopped) :=
  .declines h s.finished (by simp [hphase])

/-- A worker goes on, or does something that others see. -/
theorem work_cases (h : s.work options job i phase = some s') :
    (∃ phase', Goes options s phase phase' ∧ phase ≠ .leavingNotify ∧ s' = s.setPhase i phase') ∨
      ∃ added, Does options job s i phase added s' := by
  have does : ∀ {added}, Does options job s i phase added s' →
      (∃ phase', Goes options s phase phase' ∧ phase ≠ .leavingNotify ∧ s' = s.setPhase i phase') ∨
        ∃ added, Does options job s i phase added s' := fun h => .inr ⟨_, h⟩
  have goes : ∀ {phase'}, Goes options s phase phase' → some (s.setPhase i phase') = some s' →
      (∃ phase', Goes options s phase phase' ∧ phase ≠ .leavingNotify ∧ s' = s.setPhase i phase') ∨
        ∃ added, Does options job s i phase added s' := by
    intro phase' hgoes hs
    refine .inl ⟨phase', hgoes, fun hleaves => ?_, (Option.some.inj hs).symm⟩
    rw [hleaves] at h
    cases h
  cases phase with
  | ticket =>
    dsimp only [work, takeTicket] at h
    split at h
    · rename_i hcancelled
      exact goes (.cancelled hcancelled) h
    · rename_i hrunning
      have hrunning' := Bool.eq_false_iff.2 hrunning
      split at h
      · rename_i hsome
        rw [← Option.some.inj h] at does ⊢
        exact does (.ticket hrunning' hsome)
      · rename_i hnone
        exact goes (.waits hrunning' (by omega)) h
  | checkStopped =>
    dsimp only [work] at h
    split at h
    · rename_i hstopped
      exact goes (.stopped hstopped) h
    · rename_i hrunning
      exact goes (.running (Bool.eq_false_iff.2 hrunning)) h
  | checkExhausted => exact goes .reads h
  | listOpen exhausted =>
    dsimp only [work] at h
    split at h
    · rename_i hnone
      cases exhausted with
      | true => exact goes (.usedUp hnone) h
      | false => exact goes (.noneOpen hnone) h
    · rename_i k left hopen
      exact goes (.copies hopen) h
  | trying exhausted open_ k left =>
    dsimp only [work] at h
    rcases lockStream_cases h with ⟨stream, hk, hfree, rfl⟩ | helse
    · exact does (.locksStream hk hfree (.inr ⟨exhausted, open_, left, rfl⟩))
    · cases left with
      | cons k' left => exact goes .triesNext helse
      | nil =>
        dsimp only [allHeld] at helse
        split at helse
        · rename_i hroom
          rw [Bool.and_eq_true, decide_eq_true_eq] at hroom
          cases exhausted with
          | true => exact absurd hroom.1 Bool.false_ne_true
          | false => exact goes (.opensAnother hroom.2) helse
        · exact goes .allHeld helse
  | blocked head =>
    dsimp only [work] at h
    rcases lockStream_cases h with ⟨stream, hk, hfree, rfl⟩ | helse
    · exact does (.locksStream hk hfree (.inl rfl))
    · cases helse
  | pulling k =>
    obtain ⟨added, hdoes⟩ := pull_does h
    exact does hdoes
  | ending =>
    obtain ⟨hfree, rfl⟩ := lockList_cases h
    exact does (.counts hfree)
  | finishing =>
    dsimp only [work] at h
    split at h
    · rename_i hdeclines
      rw [← Option.some.inj h] at does ⊢
      refine does (Declines.does (.unfinished ?_) (by rintro ⟨⟩))
      simpa [or_assoc] using hdeclines
    · rename_i hfinishes
      have hfinishes' : s.exhausted = true ∧ ¬ s.ended < s.started ∧ s.finished = false := by
        simpa [and_assoc] using hfinishes
      exact goes (.finishes hfinishes'.1 (Nat.le_of_not_lt hfinishes'.2.1) hfinishes'.2.2) h
  | finishingStopped =>
    dsimp only [work] at h
    split at h
    · rename_i hstopped
      rw [← Option.some.inj h] at does ⊢
      exact does (Declines.does (.stopped hstopped) (by rintro ⟨⟩))
    · rename_i hrunning
      exact goes (.unstopped (Bool.eq_false_iff.2 hrunning)) h
  | finishingLast =>
    obtain ⟨added, hdoes⟩ := finishLast_does h
    exact does hdoes
  | opening =>
    obtain ⟨hfree, rfl⟩ := lockList_cases h
    exact does (.locksList hfree)
  | openingExhausted =>
    dsimp only [work] at h
    split at h
    · rename_i hexhausted
      rw [← Option.some.inj h] at does ⊢
      exact does (Declines.does (.exhausted hexhausted) (by rintro ⟨⟩))
    · rename_i hmore
      exact goes (.notExhausted (Bool.eq_false_iff.2 hmore)) h
  | openingRoom =>
    dsimp only [work] at h
    split at h
    · rename_i hfull
      rw [← Option.some.inj h] at does ⊢
      exact does (Declines.does (.full hfull) (by rintro ⟨⟩))
    · rename_i hroom
      exact goes (.room (Nat.lt_of_not_le hroom)) h
  | openingNext =>
    obtain ⟨added, hdoes⟩ := openNext_does h
    exact does hdoes
  | stopping held seq item =>
    rw [← Option.some.inj h] at does ⊢
    exact does .stores
  | exhausting held seq item =>
    rw [← Option.some.inj h] at does ⊢
    exact does .storesExhausted
  | mapping seq item =>
    dsimp only [work] at h
    split at h
    · rename_i hreceiver
      rw [← Option.some.inj h] at does ⊢
      exact does (.sends hreceiver)
    · rename_i hgone
      exact goes (.consumerGone (Bool.eq_false_iff.2 hgone)) h
  | leaving =>
    rw [← Option.some.inj h] at does ⊢
    exact does .returns
  | waiting => cases h
  | helping => cases h
  | helpingHeld head => cases h
  | leavingNotify => cases h
  | ended => cases h

theorem work_moves (hi : s.workers[i]? = some phase) (h : s.work options job i phase = some s') :
    ∃ added, Move options job panics s added s' := by
  rcases work_cases h with ⟨phase', hgoes, hquiet, rfl⟩ | ⟨added, hdoes⟩
  · exact ⟨_, .goes hi hgoes hquiet⟩
  · exact ⟨_, .does hi hdoes⟩

theorem fail_cases {panic : Panic} (h : s.fail i panic = some s') :
    ∃ added, Fails s i panic added s' := by
  rcases number_cases h with ⟨hdropped, rfl⟩ | ⟨hfree, hrunning, -, rfl⟩ | ⟨-, -, hends, -⟩
  · exact ⟨_, .drops hdropped⟩
  · exact ⟨_, .ends hfree hrunning⟩
  · cases hends

/-- A worker calls the helper, goes on, or fails. -/
theorem help_cases (options : MapOptions) {answer : Except Panic Bool} (h : s.help i answer phase = some s') :
    s' = s ∨
      (∃ phase', Goes options s phase phase' ∧ phase ≠ .leavingNotify ∧ s' = s.setPhase i phase') ∨
      ∃ panic added, (phase = .helping ∨ ∃ head, phase = .helpingHeld head) ∧
        answer = .error panic ∧ Fails s i panic added s' := by
  have goes : ∀ {phase'}, Goes options s phase phase' → some (s.setPhase i phase') = some s' →
      ∃ phase', Goes options s phase phase' ∧ phase ≠ .leavingNotify ∧
        s' = s.setPhase i phase' := by
    intro phase' hgoes hs
    refine ⟨phase', hgoes, fun hleaves => ?_, (Option.some.inj hs).symm⟩
    rw [hleaves] at h
    cases h
  cases phase with
  | helping =>
    cases answer with
    | ok more =>
      cases more with
      | true =>
        cases h
        exact .inl rfl
      | false => exact .inr (.inl (goes .helped h))
    | error panic =>
      obtain ⟨added, hfails⟩ := fail_cases h
      exact .inr (.inr ⟨panic, added, .inl rfl, rfl, hfails⟩)
  | helpingHeld head =>
    cases answer with
    | ok more =>
      cases more with
      | true => exact .inr (.inl (goes .helpedHeld h))
      | false => exact .inr (.inl (goes .blocks h))
    | error panic =>
      obtain ⟨added, hfails⟩ := fail_cases h
      exact .inr (.inr ⟨panic, added, .inr ⟨head, rfl⟩, rfl, hfails⟩)
  | _ => cases h

theorem help_moves {answer : Except Panic Bool} (hi : s.workers[i]? = some phase)
    (h : s.help i answer phase = some s') :
    ∃ added, Move options job (fun panic => answer = .error panic) s added s' := by
  rcases help_cases options h with rfl | ⟨phase', hgoes, hquiet, rfl⟩ |
    ⟨panic, added, hcalls, rfl, hfails⟩
  · exact ⟨_, .stays⟩
  · exact ⟨_, .goes hi hgoes hquiet⟩
  · exact ⟨_, .fails hi hcalls rfl hfails⟩

theorem consume_does (h : s.consume options = some s') : ConsumerDoes options s s' := by
  unfold consume at h
  cases hconsumer : s.consumer with
  | idle =>
    rw [hconsumer] at h
    cases h
    exact .starts hconsumer
  | looking =>
    rw [hconsumer] at h
    dsimp only at h
    split at h
    · rename_i result hfound
      cases h
      split at hfound
      · rename_i hordered
        exact .finds hconsumer hordered hfound
      · cases hfound
    · rename_i hmissing
      cases h
      refine .misses hconsumer fun hordered => ?_
      rwa [if_pos hordered] at hmissing
  | receiving =>
    rw [hconsumer] at h
    dsimp only at h
    split at h
    · rename_i seq result results hresults
      split at h
      · rename_i hordered
        cases h
        exact .receives hconsumer hordered hresults
      · rename_i hunordered
        cases h
        exact .receivesAny hconsumer (Bool.eq_false_iff.2 hunordered) hresults
    · rename_i hresults
      split at h
      · rename_i hworkers
        cases h
        refine .ends hconsumer hresults fun phase hphase => ?_
        have := List.all_eq_true.1 hworkers phase hphase
        cases phase <;> first | rfl | cases this
      · cases h
  | returning result =>
    rw [hconsumer] at h
    cases h
    exact .returns hconsumer
  | notifying result =>
    rw [hconsumer] at h
    cases h
  | dropping ended =>
    rw [hconsumer] at h
    cases h
    exact .cancels hconsumer
  | closing ended =>
    rw [hconsumer] at h
    cases h
    exact .closes hconsumer
  | gone ended =>
    rw [hconsumer] at h
    cases h

theorem notifyOne_woken {woken : Option Nat} (h : s.notifyOne woken = some s') : Woken s s' := by
  unfold notifyOne at h
  split at h
  · split at h
    · rename_i hj
      cases h
      exact .one hj
    · cases h
  · split at h
    · cases h
    · rename_i hnobody
      cases h
      refine .nobody ?_
      rw [List.countP_eq_zero]
      intro phase hphase hwaiting
      exact hnobody (List.any_eq_true.2 ⟨phase, hphase, hwaiting⟩)

/-- A step is a move. -/
theorem step_moves {e : Event Panic} (h : s.step options job e = some s') :
    ∃ added, Move options job (fun panic => ∃ i, e = .help i (.error panic)) s added s' := by
  cases e with
  | work i =>
    obtain ⟨phase, hi, hwork⟩ := Option.bind_eq_some_iff.1 h
    exact work_moves hi hwork
  | help i answer =>
    obtain ⟨phase, hi, hhelp⟩ := Option.bind_eq_some_iff.1 h
    obtain ⟨added, hmove⟩ : ∃ added, Move options job (fun panic => answer = .error panic) s added s' :=
      help_moves hi hhelp
    refine ⟨added, ?_⟩
    cases hmove with
    | stays => exact .stays
    | goes hj hgoes quiet => exact .goes hj hgoes quiet
    | leaves hj hwoken => exact .leaves hj hwoken
    | does hj hdoes => exact .does hj hdoes
    | fails hj calls hpanic hfails => exact .fails hj calls ⟨i, by rw [hpanic]⟩ hfails
    | consumes hconsumes quiet => exact .consumes hconsumes quiet
    | yields hconsumer hwoken => exact .yields hconsumer hwoken
  | notify i woken =>
    dsimp only [step] at h
    split at h
    · rename_i hi
      exact ⟨[], .leaves hi (notifyOne_woken h)⟩
    · cases h
  | wake i =>
    dsimp only [step] at h
    split at h
    · rename_i hi
      cases h
      exact ⟨[], .goes hi .wakes nofun⟩
    · cases h
  | consume =>
    refine ⟨[], .consumes (consume_does h) fun result hconsumer => ?_⟩
    dsimp only [step, consume] at h
    rw [hconsumer] at h
    cases h
  | consumerNotify woken =>
    dsimp only [step] at h
    split at h
    · rename_i result hconsumer
      exact ⟨[], .yields hconsumer (notifyOne_woken h)⟩
    · cases h
  | drop =>
    dsimp only [step] at h
    split at h
    · rename_i hconsumer
      cases h
      refine ⟨[], .consumes (.drops hconsumer) fun result hconsumer' => ?_⟩
      rw [hconsumer] at hconsumer'
      cases hconsumer'
    · cases h

end

end Pool

end Parallel

end Xeibe

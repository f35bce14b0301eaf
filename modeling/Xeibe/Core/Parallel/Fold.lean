import Xeibe.Core.Parallel.Unordered

/-!
# Folding an input

`fold`: every worker folds the items it takes into an accumulator of its own,
until the input is used up or a step breaks.  The workers take from the input
as those of a pool do, without tickets, so the input and the workers' places
in `take` are those of a `Pool`, whose `cancelled` is `fold`'s `stop`; its
tickets, its channel and its consumer are not used.
-/

namespace Xeibe

namespace Parallel

open Lib (run Yields)

variable {Item Acc Panic : Type}

/-- A fold: its input and its workers, the accumulators of those whose work has
not panicked, and the panics. -/
structure Fold (Item Acc Panic : Type) where
  pool : Pool Item Item Panic
  accs : List Acc
  caught : List Panic

namespace Fold

section

variable (options : MapOptions) (endsInput : Item → Bool) (init : Acc)
  (step : Acc → Item → Except Panic (Acc × Bool))

/-- `fold` with more than one thread. -/
def new (input : Streams Item Panic) : Fold Item Acc Panic where
  pool := Pool.new options input
  accs := List.replicate options.threads init
  caught := []

variable (s : Fold Item Acc Panic) (i : Nat)

/-- Worker `i` sets `stop`, and ends. -/
def stop : Fold Item Acc Panic :=
  { s with pool := { s.pool with cancelled := true }.setPhase i .ended }

/-- A panic is caught at the end of the worker's thread. -/
def unwind (panic : Panic) : Fold Item Acc Panic :=
  { s with caught := s.caught ++ [panic] }.stop i

/-- Worker `i` takes an item into its accumulator; the step may break. -/
def take (acc : Acc) (item : Item) : Fold Item Acc Panic :=
  match step acc item with
  | .error panic => s.unwind i panic
  | .ok (acc, true) => { s with accs := s.accs.set i acc }.stop i
  | .ok (acc, false) =>
    { s with accs := s.accs.set i acc, pool := s.pool.setPhase i .ticket }

/-- The next step of worker `i`, which is at `phase`. -/
def work (phase : Phase Item Panic) : Option (Fold Item Acc Panic) :=
  match phase with
  | .ticket =>
    some { s with pool := s.pool.setPhase i (if s.pool.cancelled then .ended else .helping) }
  | .mapping _ (.error panic) => some (s.unwind i panic)
  | .mapping _ (.ok item) => s.accs[i]?.map fun acc => s.take step i acc item
  | .leaving => some { s with pool := s.pool.setPhase i .ended }
  | phase => (s.pool.work options ⟨endsInput, .ok⟩ i phase).map fun pool => { s with pool }

end

end Fold

/-- What can happen next in a fold. -/
inductive FoldEvent (Panic : Type) where
  | work (i : Nat)
  | help (i : Nat) (answer : Except Panic Bool)
  deriving DecidableEq

namespace Fold

section

variable (options : MapOptions) (endsInput : Item → Bool)
  (step : Acc → Item → Except Panic (Acc × Bool))

def next (s : Fold Item Acc Panic) : FoldEvent Panic → Option (Fold Item Acc Panic)
  | .work i => s.pool.workers[i]?.bind (s.work options endsInput step i)
  | .help i answer =>
    s.pool.workers[i]?.bind fun phase =>
      (s.pool.help i answer phase).map fun pool => { s with pool }

/-- `fold` has returned: every worker has ended. -/
def ended (s : Fold Item Acc Panic) : Bool :=
  s.pool.workers.all fun phase => match phase with | .ended => true | _ => false

/-- The items of one worker, in the order in which it took them. -/
def foldItems (init : Acc) (items : List Item) : Option Acc :=
  items.foldlM (fun acc item => (step acc item).toOption.map Prod.fst) init

/-- Some step breaks, or panics. -/
def Breaks : Prop := ∃ acc item, ∀ acc', step acc item ≠ .ok (acc', false)

end

/-- `fold` with one thread, on what `Sequential` yields. -/
def sequential (step : Acc → Item → Except Panic (Acc × Bool)) :
    Acc → List (Except Panic Item) → Except Panic Acc
  | acc, [] => .ok acc
  | _, .error panic :: _ => .error panic
  | acc, .ok item :: items =>
    match step acc item with
    | .error panic => .error panic
    | .ok (acc, true) => .ok acc
    | .ok (acc, false) => sequential step acc items

end Fold

theorem flatten_set_concat {Entry : Type} {parts : List (List Entry)} {part : List Entry} {i : Nat}
    (hi : parts[i]? = some part) (entry : Entry) :
    (parts.set i (part ++ [entry])).flatten.Perm (entry :: parts.flatten) := by
  induction parts generalizing i with
  | nil => cases hi
  | cons first parts ih =>
    cases i with
    | zero =>
      cases hi
      show ((part ++ [entry]) ++ parts.flatten).Perm (entry :: (part ++ parts.flatten))
      rw [List.append_assoc]
      exact List.perm_middle
    | succ i =>
      show (first ++ (parts.set i (part ++ [entry])).flatten).Perm (entry :: (first ++ parts.flatten))
      exact ((ih hi).append_left first).trans List.perm_middle

namespace Pool

section

variable {Result : Type} {options : MapOptions} {job : Job Item Result Panic}
  {s t : Pool Item Result Panic} {i : Nat} {phase phase' : Phase Item Panic}
  {consumer : Consumer Result Panic} {delivered : List (Nat × Except Panic Result)}
  {items : List (Except Panic Item)}

/-! ## A pool's steps, in a fold -/

theorem Goes.view (h : Goes options s phase phase') :
    Goes options (s.view consumer delivered) phase phase' := by
  cases h with
  | cancelled h => exact .cancelled h
  | waits h hnone => exact .waits h hnone
  | wakes => exact .wakes
  | helped => exact .helped
  | stopped h => exact .stopped h
  | running h => exact .running h
  | reads => exact .reads
  | usedUp h => exact .usedUp h
  | noneOpen h => exact .noneOpen h
  | copies h => exact .copies h
  | triesNext => exact .triesNext
  | opensAnother h => exact .opensAnother h
  | allHeld => exact .allHeld
  | helpedHeld => exact .helpedHeld
  | blocks => exact .blocks
  | finishes h h' h'' => exact .finishes h h' h''
  | unstopped h => exact .unstopped h
  | notExhausted h => exact .notExhausted h
  | room h => exact .room h
  | consumerGone h => exact .consumerGone h
  | leaves => exact .leaves

theorem release_cancelled (s : Pool Item Result Panic) (held : Held) :
    (s.release held).cancelled = s.cancelled := by
  cases held <;> rfl

theorem Does.cancelled {added : List (Except Panic Item)}
    (hdoes : Does options job s i phase added t) : t.cancelled = s.cancelled := by
  cases hdoes with
  | @drops phase held item ends orElse taken htakes hdropped =>
    exact (release_cancelled taken held).trans htakes.shared.2.2.2.1.cancelled
  | @numbers phase held item orElse taken htakes hfree hrunning =>
    exact (release_cancelled { taken with next := s.next + 1 } held).trans
      htakes.shared.2.2.2.1.cancelled
  | ends htakes hfree hrunning => exact htakes.shared.2.2.2.1.cancelled
  | @storesExhausted held seq item =>
    exact release_cancelled { s with exhausted := true, numbersLock := none } held
  | _ => rfl

/-- The channel, at a step that sends nothing. -/
theorem Does.channel {added : List (Except Panic Item)}
    (hdoes : Does options job s i phase added t) (hphase : ∀ seq item, phase ≠ .mapping seq item) :
    t.receiver = s.receiver ∧ t.results = s.results := by
  cases hdoes with
  | @sends seq item => exact absurd rfl (hphase seq item)
  | @drops phase held item ends orElse taken htakes hdropped =>
    have hsame := htakes.shared.2.2.2.1.release held
    exact ⟨hsame.receiver, (release_consumer taken held).2.1.trans htakes.results.2.1⟩
  | @numbers phase held item orElse taken htakes hfree hrunning =>
    have hsame : SameConsumer s { taken with next := s.next + 1 } :=
      ⟨htakes.shared.2.2.2.1.cancelled, htakes.shared.2.2.2.1.receiver,
        htakes.shared.2.2.2.1.consumer⟩
    exact ⟨(hsame.release held).receiver,
      (release_consumer { taken with next := s.next + 1 } held).2.1.trans htakes.results.2.1⟩
  | ends htakes hfree hrunning => exact ⟨htakes.shared.2.2.2.1.receiver, htakes.results.2.1⟩
  | @storesExhausted held seq item =>
    have hsame : SameConsumer s { s with exhausted := true, numbersLock := none } := ⟨rfl, rfl, rfl⟩
    exact ⟨(hsame.release held).receiver,
      (release_consumer { s with exhausted := true, numbersLock := none } held).2.1⟩
  | _ => exact ⟨rfl, rfl⟩

theorem Sent.perm {other : List (Nat × Except Panic Result)}
    (h : Sent job items (s.view consumer delivered)) (hperm : other.Perm delivered) :
    Sent job items (s.view consumer other) := by
  refine ⟨h.next_eq, h.known, fun entry hentry => h.results entry ?_, fun hreceiver seq => ?_,
    h.output_eq, h.nextResult_le⟩
  · exact ((List.Perm.refl _).append hperm).mem_iff.1 hentry
  · show s.workers.countP _ + s.results.countP _ + other.countP _ = _
    rw [hperm.countP_eq]
    exact h.counted hreceiver seq

/-- A worker uses up the number it has. -/
theorem Sent.uses {seq : Nat} {item : Except Panic Item}
    (h : Sent job items (s.view .idle delivered)) (hi : s.workers[i]? = some (.mapping seq item))
    (hreceiver : s.receiver = true) (hresults : s.results = [])
    (phase' : Phase Item Panic) (htaken : phase'.taken = none) :
    Sent job items
      ((s.setPhase i phase').view .idle ((seq, job.apply item) :: delivered)) := by
  -- It is as if the result were sent, and received at once.
  have hsent : Sent job (items ++ []) (({ s.view .idle delivered with
      results := (s.view .idle delivered).results ++ [(seq, job.apply item)] }).setPhase i .ticket) :=
    h.does hi (Does.sends hreceiver : Does ⟨0, 0, 0, true⟩ job (s.view .idle delivered) i _ _ _)
  rw [List.append_nil] at hsent
  have hreceived : Sent job items
      ((s.setPhase i .ticket).view .idle ((seq, job.apply item) :: delivered)) := by
    refine hsent.received ?_ rfl rfl rfl rfl rfl rfl
    show s.results ++ [_] = _ :: s.results
    rw [hresults]
    rfl
  have hlt : i < s.workers.length := (List.getElem?_eq_some_iff.1 hi).1
  have hget : (s.setPhase i .ticket).workers[i]? = some .ticket :=
    (List.getElem?_set_self hlt)
  have hquiet : Sent job items
      (((s.setPhase i .ticket).view .idle ((seq, job.apply item) :: delivered)).setPhase i phase') :=
    hreceived.quiet hget rfl rfl rfl rfl rfl rfl ⟨rfl, rfl, rfl⟩ (.inl htaken)
  have hset : ((s.setPhase i .ticket).view .idle ((seq, job.apply item) :: delivered)).setPhase i
      phase' = (s.setPhase i phase').view .idle ((seq, job.apply item) :: delivered) := by
    unfold setPhase Pool.view
    dsimp only
    rw [List.set_set]
  rwa [hset] at hquiet

end

end Pool

namespace Fold

open Pool

section

variable {options : MapOptions} {endsInput : Item → Bool} {init : Acc}
  {step : Acc → Item → Except Panic (Acc × Bool)} {panics : Panic → Prop}
  {input : Streams Item Panic} {log : List (Origin × Except Panic Item)}
  {parts : List (List (Nat × Item))} {lost : List (Nat × Except Panic Item)}
  {s t : Fold Item Acc Panic} {i : Nat} {phase phase' : Phase Item Panic}

/-! ## The invariant -/

/-- The items the workers have folded, and those lost to a panic, each with its
number. -/
def entries (parts : List (List (Nat × Item))) (lost : List (Nat × Except Panic Item)) :
    List (Nat × Except Panic Item) :=
  parts.flatten.map (fun entry => (entry.1, .ok entry.2)) ++ lost

/-- What holds of a fold: `parts` is what each worker has folded. -/
structure Folding (options : MapOptions) (endsInput : Item → Bool) (init : Acc)
    (step : Acc → Item → Except Panic (Acc × Bool)) (panics : Panic → Prop)
    (input : Streams Item Panic) (log : List (Origin × Except Panic Item))
    (parts : List (List (Nat × Item))) (lost : List (Nat × Except Panic Item))
    (s : Fold Item Acc Panic) : Prop where
  inputs : ∃ consumer, Input options (s.pool.view consumer [])
  taken : Taken ⟨endsInput, .ok⟩ panics input log s.pool
  sent : Sent ⟨endsInput, .ok⟩ (log.map Prod.snd) (s.pool.view .idle (entries parts lost))
  receiver : s.pool.receiver = true
  results : s.pool.results = []
  workers : 0 < s.pool.workers.length
  accs : s.accs.length = parts.length
  folds : ∀ (i : Nat) (acc : Acc) (part : List (Nat × Item)), s.accs[i]? = some acc →
    parts[i]? = some part → foldItems step init (part.map Prod.snd) = some acc
  stopped : s.pool.cancelled = true →
    Breaks step ∨ ∃ entry ∈ log, ∃ panic, entry.2 = .error panic
  lost_stopped : s.pool.cancelled = false → lost = []

theorem folding_new (hthreads : 0 < options.threads) :
    Folding options endsInput init step panics input []
      (List.replicate options.threads []) [] (new options init input) where
  inputs := ⟨.idle, input_new input⟩
  taken := taken_new input
  sent := by
    have hnone : entries (List.replicate options.threads ([] : List (Nat × Item)))
        ([] : List (Nat × Except Panic Item)) = [] := by
      simp [entries]
    rw [hnone]
    exact (sent_new input).keep rfl rfl rfl rfl rfl rfl rfl
  receiver := rfl
  results := rfl
  workers := by
    show 0 < (List.replicate options.threads _).length
    rw [List.length_replicate]
    exact hthreads
  accs := by
    show (List.replicate _ _).length = _
    rw [List.length_replicate, List.length_replicate]
  folds := by
    intro i acc part hacc hpart
    rw [List.eq_of_mem_replicate (List.mem_of_getElem? hacc),
      List.eq_of_mem_replicate (List.mem_of_getElem? hpart)]
    rfl
  stopped := nofun
  lost_stopped := fun _ => rfl

/-! ## Steps -/

/-- A worker goes on. -/
theorem Folding.goes (h : Folding options endsInput init step panics input log parts lost s)
    (hi : s.pool.workers[i]? = some phase)
    (hinputs : ∃ consumer, Input options ((s.pool.setPhase i phase').view consumer []))
    (htaken : phase'.taken = phase.taken) :
    Folding options endsInput init step panics input log parts lost
      { s with pool := s.pool.setPhase i phase' } where
  inputs := hinputs
  taken := h.taken.same ⟨rfl, rfl, rfl, rfl, fun _ => rfl⟩
  sent := h.sent.quiet hi rfl rfl rfl rfl rfl rfl ⟨rfl, rfl, rfl⟩ (.inl htaken)
  receiver := h.receiver
  results := h.results
  workers := by
    show 0 < (s.pool.workers.set i phase').length
    rw [List.length_set]
    exact h.workers
  accs := h.accs
  folds := h.folds
  stopped := h.stopped
  lost_stopped := h.lost_stopped

theorem Folding.stopped_mono (h : Folding options endsInput init step panics input log parts lost s)
    (more : List (Origin × Except Panic Item)) (hstopped : s.pool.cancelled = true) :
    Breaks step ∨ ∃ entry ∈ log ++ more, ∃ panic, entry.2 = .error panic := by
  refine (h.stopped hstopped).imp_right ?_
  rintro ⟨entry, hentry, hpanic⟩
  exact ⟨entry, List.mem_append_left _ hentry, hpanic⟩

/-- A worker takes from the input. -/
theorem Folding.does {added : List (Except Panic Item)} {pool : Pool Item Item Panic}
    (h : Folding options endsInput init step panics input log parts lost s)
    (hi : s.pool.workers[i]? = some phase) (hphase : ∀ seq item, phase ≠ .mapping seq item)
    (hdoes : Does options ⟨endsInput, .ok⟩ s.pool i phase added pool) :
    ∃ more, Folding options endsInput init step panics input (log ++ more) parts lost
      { s with pool } := by
  obtain ⟨consumer, hinputs⟩ := h.inputs
  have hview : Taken ⟨endsInput, .ok⟩ panics input log (s.pool.view consumer []) :=
    h.taken.same ⟨rfl, rfl, rfl, rfl, fun _ => rfl⟩
  obtain ⟨more, hmore, htaken⟩ := hview.does hinputs hi hdoes.view
  obtain ⟨hreceiver, hresults⟩ := hdoes.channel hphase
  have hcancelled := hdoes.cancelled
  refine ⟨more, ⟨consumer, hinputs.does hi hdoes.view⟩,
    htaken.same ⟨rfl, rfl, rfl, rfl, fun _ => rfl⟩, ?_, hreceiver.trans h.receiver,
    hresults.trans h.results, ?_, h.accs, h.folds, ?_, ?_⟩
  · rw [List.map_append, hmore]
    exact h.sent.does hi hdoes.view
  · show 0 < pool.workers.length
    rw [hdoes.consumer.2.2.2.1]
    exact h.workers
  · show pool.cancelled = true → _
    rw [hcancelled]
    exact h.stopped_mono more
  · show pool.cancelled = false → _
    rw [hcancelled]
    exact h.lost_stopped

/-- A panic of the helper. -/
theorem Folding.fails {added : List (Except Panic Item)} {pool : Pool Item Item Panic}
    {panic : Panic} (h : Folding options endsInput init step panics input log parts lost s)
    (hi : s.pool.workers[i]? = some phase)
    (hcalls : phase = .helping ∨ ∃ head, phase = .helpingHeld head) (hpanic : panics panic)
    (hfails : Fails s.pool i panic added pool) :
    ∃ more, Folding options endsInput init step panics input (log ++ more) parts lost
      { s with pool } := by
  obtain ⟨consumer, hinputs⟩ := h.inputs
  obtain ⟨more, hmore, htaken⟩ := h.taken.fails hpanic hfails
  have hsame : pool.cancelled = s.pool.cancelled ∧ pool.receiver = s.pool.receiver ∧
      pool.results = s.pool.results ∧ pool.workers.length = s.pool.workers.length := by
    cases hfails <;> exact ⟨rfl, rfl, rfl, List.length_set⟩
  refine ⟨more, ⟨consumer, hinputs.fails hi hcalls hfails.view⟩, htaken, ?_,
    hsame.2.1.trans h.receiver, hsame.2.2.1.trans h.results, ?_, h.accs, h.folds, ?_, ?_⟩
  · rw [List.map_append, hmore]
    exact h.sent.fails hi hcalls hfails.view
  · show 0 < pool.workers.length
    rw [hsame.2.2.2]
    exact h.workers
  · show pool.cancelled = true → _
    rw [hsame.1]
    exact h.stopped_mono more
  · show pool.cancelled = false → _
    rw [hsame.1]
    exact h.lost_stopped

theorem inputs_stop {pool : Pool Item Item Panic} (hreceiver : pool.receiver = true)
    (h : ∃ consumer, Input options (pool.view consumer [])) :
    ∃ consumer, Input options ({ pool with cancelled := true }.view consumer []) := by
  obtain ⟨consumer, hinputs⟩ := h
  refine ⟨.closing false, hinputs.same
    ⟨fun j phase hj => ?_, hinputs.locked.list_lt, hinputs.locked.numbers_lt,
      hinputs.locked.stream_lt⟩ rfl rfl rfl rfl rfl rfl rfl rfl rfl rfl (fun _ => rfl) rfl hreceiver⟩
  obtain ⟨hlist, hnumbers, hstream⟩ := hinputs.locked.owns j phase hj
  exact ⟨hlist, hnumbers, hstream⟩

/-- A worker stops the fold, with a panic, whose item is lost, or after a step
that breaks. -/
theorem Folding.stops {accs : List Acc} {caught : List Panic} {parts' : List (List (Nat × Item))}
    {lost' : List (Nat × Except Panic Item)} {seq : Nat} {item : Except Panic Item}
    (h : Folding options endsInput init step panics input log parts lost s)
    (hi : s.pool.workers[i]? = some (.mapping seq item))
    (hreason : Breaks step ∨ ∃ panic, item = .error panic)
    (hentries : (entries parts' lost').Perm ((seq, item) :: entries parts lost))
    (haccs : accs.length = parts'.length)
    (hfolds : ∀ (i : Nat) (acc : Acc) (part : List (Nat × Item)), accs[i]? = some acc →
      parts'[i]? = some part → foldItems step init (part.map Prod.snd) = some acc) :
    Folding options endsInput init step panics input log parts' lost'
      (Fold.stop { s with accs, caught } i) where
  inputs := by
    obtain ⟨consumer, hinputs⟩ := inputs_stop h.receiver h.inputs
    refine ⟨consumer, hinputs.goesOn hi rfl rfl (.inr (.inr rfl)) rfl rfl nofun⟩
  taken := h.taken.same ⟨rfl, rfl, rfl, rfl, fun _ => rfl⟩
  sent := by
    have hused := h.sent.uses hi h.receiver h.results .ended rfl
    have happly : Job.apply ⟨endsInput, .ok⟩ item = item := by
      cases item <;> rfl
    rw [happly] at hused
    exact (hused.perm hentries).keep rfl rfl rfl rfl rfl rfl rfl
  receiver := h.receiver
  results := h.results
  workers := by
    show 0 < (s.pool.workers.set i _).length
    rw [List.length_set]
    exact h.workers
  accs := haccs
  folds := hfolds
  stopped _ := by
    refine hreason.imp_right ?_
    rintro ⟨panic, rfl⟩
    have hknown := h.sent.known i _ seq (.error panic) hi rfl
    rw [List.getElem?_map] at hknown
    obtain ⟨entry, hentry, hpanic⟩ := Option.map_eq_some_iff.1 hknown
    exact ⟨entry, List.mem_of_getElem? hentry, panic, hpanic⟩
  lost_stopped := nofun

theorem entries_modify {seq : Nat} {item : Item} {part : List (Nat × Item)}
    (hi : parts[i]? = some part) :
    (entries (parts.set i (part ++ [(seq, item)])) lost).Perm
      ((seq, .ok item) :: entries parts lost) := by
  unfold entries
  rw [← List.cons_append]
  refine List.Perm.append_right _ ?_
  refine (List.Perm.map _ (flatten_set_concat hi (seq, item))).trans ?_
  exact List.Perm.refl _

/-- A worker's accumulator after one more item. -/
theorem Folding.folds_set (h : Folding options endsInput init step panics input log parts lost s)
    (seq : Nat) {item : Item} {acc acc' : Acc} {part : List (Nat × Item)} {breaks : Bool}
    (hacc : s.accs[i]? = some acc) (hpart : parts[i]? = some part)
    (hstep : step acc item = .ok (acc', breaks)) (j : Nat) (accⱼ : Acc) (partⱼ : List (Nat × Item))
    (haccⱼ : (s.accs.set i acc')[j]? = some accⱼ)
    (hpartⱼ : (parts.set i (part ++ [(seq, item)]))[j]? = some partⱼ) :
    foldItems step init (partⱼ.map Prod.snd) = some accⱼ := by
  rw [Lib.party_set hacc] at haccⱼ
  rw [Lib.party_set hpart] at hpartⱼ
  rcases haccⱼ with ⟨rfl, rfl⟩ | ⟨hne, haccⱼ⟩
  · rcases hpartⱼ with ⟨-, rfl⟩ | ⟨hne, -⟩
    · have hold := h.folds j acc part hacc hpart
      unfold foldItems at hold ⊢
      rw [List.map_append, List.foldlM_append, hold]
      show ((step acc item).toOption.map Prod.fst).bind _ = _
      rw [hstep]
      rfl
    · exact absurd rfl hne
  · rcases hpartⱼ with ⟨heq, -⟩ | ⟨-, hpartⱼ⟩
    · exact absurd heq hne
    · exact h.folds j accⱼ partⱼ haccⱼ hpartⱼ

theorem lost_concat {seq : Nat} {item : Except Panic Item} :
    (entries parts (lost ++ [(seq, item)])).Perm ((seq, item) :: entries parts lost) := by
  unfold entries
  rw [← List.append_assoc]
  exact List.perm_append_comm

/-- A worker takes an item into its accumulator. -/
theorem Folding.take {seq : Nat} {item : Item} {acc : Acc}
    (h : Folding options endsInput init step panics input log parts lost s)
    (hi : s.pool.workers[i]? = some (.mapping seq (.ok item))) (hacc : s.accs[i]? = some acc) :
    ∃ parts' lost', Folding options endsInput init step panics input log parts' lost'
      (s.take step i acc item) := by
  obtain ⟨part, hpart⟩ : ∃ part, parts[i]? = some part := by
    have hlt := (List.getElem?_eq_some_iff.1 hacc).1
    rw [h.accs] at hlt
    exact ⟨_, List.getElem?_eq_getElem hlt⟩
  have hlength : ∀ acc', (s.accs.set i acc').length =
      (parts.set i (part ++ [(seq, item)])).length := by
    intro acc'
    rw [List.length_set, List.length_set, h.accs]
  have breaks : (∀ acc', step acc item ≠ .ok (acc', false)) → Breaks step :=
    fun hbreaks => ⟨acc, item, hbreaks⟩
  unfold Fold.take
  cases hstep : step acc item with
  | error panic =>
    refine ⟨parts, lost ++ [(seq, .ok item)], ?_⟩
    refine h.stops hi (.inl (breaks ?_)) lost_concat h.accs h.folds
    intro acc' heq
    rw [hstep] at heq
    cases heq
  | ok result =>
    obtain ⟨acc', flow⟩ := result
    refine ⟨parts.set i (part ++ [(seq, item)]), lost, ?_⟩
    have hfolds := h.folds_set seq hacc hpart hstep
    cases flow with
    | true =>
      refine h.stops hi (.inl (breaks ?_)) (entries_modify hpart) (hlength acc') hfolds
      intro acc'' heq
      rw [hstep] at heq
      cases heq
    | false =>
      obtain ⟨consumer, hinputs⟩ := h.inputs
      refine ⟨⟨consumer, hinputs.goesOn hi rfl rfl trivial rfl rfl nofun⟩,
        h.taken.same ⟨rfl, rfl, rfl, rfl, fun _ => rfl⟩, ?_, h.receiver, h.results, ?_, hlength acc',
        hfolds, h.stopped, h.lost_stopped⟩
      · exact (h.sent.uses hi h.receiver h.results .ticket rfl).perm
          (entries_modify hpart)
      · show 0 < (s.pool.workers.set i _).length
        rw [List.length_set]
        exact h.workers

/-- A worker's step. -/
theorem Folding.work (h : Folding options endsInput init step panics input log parts lost s)
    (hi : s.pool.workers[i]? = some phase)
    (hwork : s.work options endsInput step i phase = some t) :
    ∃ log' parts' lost', Folding options endsInput init step panics input log' parts' lost' t := by
  obtain ⟨consumer, hinputs⟩ := h.inputs
  -- Where the worker is in `take`, its step is that of a pool's worker.
  have takes : (s.pool.work options ⟨endsInput, .ok⟩ i phase).map (fun pool => { s with pool }) =
      some t → (∀ seq item, phase ≠ .mapping seq item) →
      ∃ log' parts' lost', Folding options endsInput init step panics input log' parts' lost' t := by
    intro hstep hphase
    obtain ⟨pool, hpool, rfl⟩ := Option.map_eq_some_iff.1 hstep
    rcases work_cases hpool with ⟨phase', hgoes, -, rfl⟩ | ⟨added, hdoes⟩
    · refine ⟨_, _, _, h.goes hi ⟨consumer, hinputs.goes hi hgoes.view⟩ ?_⟩
      rcases hgoes.taken with hsame | ⟨-, hgone⟩
      · exact hsame
      · rw [h.receiver] at hgone
        cases hgone
    · obtain ⟨more, h'⟩ := h.does hi hphase hdoes
      exact ⟨_, _, _, h'⟩
  cases phase with
  | ticket =>
    cases hwork
    refine ⟨_, _, _, h.goes hi ⟨consumer, ?_⟩ (by split <;> rfl)⟩
    split
    · rename_i hstopped
      exact hinputs.goesOn hi rfl rfl (.inr (.inr hstopped)) rfl rfl nofun
    · exact hinputs.goesOn hi rfl rfl trivial rfl rfl nofun
  | mapping seq taken =>
    cases taken with
    | error panic =>
      cases hwork
      exact ⟨_, parts, lost ++ [(seq, .error panic)],
        h.stops hi (.inr ⟨panic, rfl⟩) lost_concat h.accs h.folds⟩
    | ok item =>
      obtain ⟨acc, hacc, rfl⟩ := Option.map_eq_some_iff.1 hwork
      obtain ⟨parts', lost', h'⟩ := h.take hi hacc
      exact ⟨_, _, _, h'⟩
  | leaving =>
    cases hwork
    have hover : Over (s.pool.view consumer []) := hinputs.sees i .leaving hi
    exact ⟨_, _, _, h.goes hi ⟨consumer, hinputs.goesOn hi rfl rfl hover rfl rfl nofun⟩ rfl⟩
  | _ => exact takes hwork nofun

/-- Every step keeps it. -/
theorem Folding.next {e : FoldEvent Panic}
    (h : Folding options endsInput init step panics input log parts lost s)
    (hpanics : ∀ i panic, e = .help i (.error panic) → panics panic)
    (hnext : s.next options endsInput step e = some t) :
    ∃ log' parts' lost', Folding options endsInput init step panics input log' parts' lost' t := by
  cases e with
  | work i =>
    obtain ⟨phase, hi, hwork⟩ := Option.bind_eq_some_iff.1 hnext
    exact h.work hi hwork
  | help i answer =>
    obtain ⟨phase, hi, hhelp⟩ := Option.bind_eq_some_iff.1 hnext
    obtain ⟨pool, hpool, rfl⟩ := Option.map_eq_some_iff.1 hhelp
    obtain ⟨consumer, hinputs⟩ := h.inputs
    rcases help_cases options hpool with rfl | ⟨phase', hgoes, -, rfl⟩ | ⟨panic, added, hcalls, rfl, hfails⟩
    · exact ⟨_, _, _, h⟩
    · refine ⟨_, _, _, h.goes hi ⟨consumer, hinputs.goes hi hgoes.view⟩ ?_⟩
      rcases hgoes.taken with hsame | ⟨-, hgone⟩
      · exact hsame
      · rw [h.receiver] at hgone
        cases hgone
    · obtain ⟨more, h'⟩ := h.fails hi hcalls (hpanics i panic rfl) hfails
      exact ⟨_, _, _, h'⟩

theorem folding_run {events : List (FoldEvent Panic)} (hthreads : 0 < options.threads)
    (hrun : run (Fold.next options endsInput step) (new options init input) events = some s) :
    ∃ log parts lost, Folding options endsInput init step
      (fun panic => ∃ i, .help i (.error panic) ∈ events) input log parts lost s := by
  refine Lib.run_invariant (I := fun s => ∃ log parts lost, Folding options endsInput init step
    (fun panic => ∃ i, .help i (.error panic) ∈ events) input log parts lost s) ?_
    ⟨[], _, [], folding_new hthreads⟩ hrun
  rintro s e s' he ⟨log, parts, lost, h⟩ hnext
  exact h.next (fun i panic heq => ⟨i, heq ▸ he⟩) hnext

theorem Folding.numbers_nodup
    (h : Folding options endsInput init step panics input log parts lost s) :
    ((entries parts lost).map Prod.fst).Nodup := by
  rw [List.nodup_iff_count_le_one]
  intro seq
  have hplace : s.pool.workers.countP (Phase.has seq) + s.pool.results.countP (·.1 == seq) +
      (entries parts lost).countP (·.1 == seq) =
        if 0 ≤ seq ∧ seq < (log.map Prod.snd).length then 1 else 0 :=
    h.sent.counted h.receiver seq
  have hcount : ((entries parts lost).map Prod.fst).count seq =
      (entries parts lost).countP (·.1 == seq) := by
    rw [List.count, List.countP_map]
    rfl
  rw [hcount]
  split at hplace <;> omega

theorem map_fst_entries (parts : List (List (Nat × Item)))
    (lost : List (Nat × Except Panic Item)) :
    (entries parts lost).map Prod.fst = parts.flatten.map Prod.fst ++ lost.map Prod.fst := by
  unfold entries
  rw [List.map_append, List.map_map]
  rfl

theorem ended_workers (hended : s.ended = true) : ∀ phase ∈ s.pool.workers, phase = .ended := by
  intro phase hphase
  have := List.all_eq_true.1 hended phase hphase
  cases phase <;> first | rfl | cases this

/-- All that is numbered is folded once the fold has ended, if nothing has stopped
it. -/
theorem Folding.all_folded
    (h : Folding options endsInput init step panics input log parts lost s)
    (hended : s.ended = true) (hrunning : s.pool.cancelled = false) :
    (parts.flatten.map Prod.fst).Perm (List.range log.length) ∧
      (Complete input log ∨ ∃ entry ∈ log, Parallel.endsInput endsInput entry = true) := by
  have hworkers := ended_workers hended
  obtain ⟨consumer, hinputs⟩ := h.inputs
  have hlost := h.lost_stopped hrunning
  have hview : Taken ⟨endsInput, .ok⟩ panics input log (s.pool.view consumer []) :=
    h.taken.same ⟨rfl, rfl, rfl, rfl, fun _ => rfl⟩
  refine ⟨?_, hview.used_up hinputs h.workers hworkers hrunning⟩
  have hall := h.sent.delivered_all h.numbers_nodup h.receiver h.results fun phase hphase => by
    rw [hworkers phase hphase]
    rfl
  rw [map_fst_entries, hlost, List.map_nil, List.append_nil, List.length_map] at hall
  exact hall

/-- Each of the items numbered is folded once at most, into one accumulator,
and all of them once the fold has ended, unless a step has broken or something
has panicked. -/
theorem Folding.exactly_once
    (h : Folding options endsInput init step panics input log parts lost s) :
    s.accs.length = parts.length ∧ (parts.flatten.map Prod.fst).Nodup ∧
      (∀ entry ∈ parts.flatten, log[entry.1]?.map Prod.snd = some (.ok entry.2)) ∧
      (s.ended = true → (parts.flatten.map Prod.fst).Perm (List.range log.length) ∧
        (Complete input log ∨ ∃ entry ∈ log, Parallel.endsInput endsInput entry = true) ∨
        Breaks step ∨ ∃ entry ∈ log, ∃ panic, entry.2 = .error panic) := by
  have hparts : (parts.flatten.map Prod.fst).Nodup := by
    have hnodup := h.numbers_nodup
    rw [map_fst_entries] at hnodup
    exact hnodup.of_append_left
  refine ⟨h.accs, hparts, fun entry hentry => ?_, fun hended => ?_⟩
  · obtain ⟨item, hitem, hresult⟩ := h.sent.results (entry.1, .ok entry.2)
      (List.mem_append_right _ (List.mem_append_left _ (List.mem_map.2 ⟨entry, hentry, rfl⟩)))
    rw [List.getElem?_map] at hitem
    rw [hitem]
    cases item with
    | ok item => exact congrArg some hresult.symm
    | error panic => cases hresult
  · cases hstopped : s.pool.cancelled with
    | true => exact .inr (h.stopped hstopped)
    | false => exact .inl (h.all_folded hended hstopped)

end

section

variable {options : MapOptions} {endsInput : Item → Bool} {init : Acc}
  {step : Acc → Item → Except Panic (Acc × Bool)} {input : Streams Item Panic}

/-- With one thread, and no step that breaks, every item is folded in order. -/
theorem sequential_foldItems (hbreaks : ¬Breaks step) (items : List Item) :
    ∃ acc, sequential step init (items.map .ok) = .ok acc ∧ foldItems step init items = some acc := by
  induction items generalizing init with
  | nil => exact ⟨init, rfl, rfl⟩
  | cons item items ih =>
    obtain ⟨acc', hstep⟩ : ∃ acc', step init item = .ok (acc', false) := by
      by_contra hne
      push Not at hne
      exact hbreaks ⟨init, item, hne⟩
    obtain ⟨acc, hsequential, hfold⟩ := @ih acc'
    refine ⟨acc, ?_, ?_⟩
    · rw [List.map_cons, sequential, hstep]
      exact hsequential
    · show ((step init item).toOption.map Prod.fst).bind _ = _
      rw [hstep]
      exact hfold

end

end Fold

section

variable {Result : Type} {options : MapOptions} {job : Job Item Result Panic} {init : Acc}
  {step : Acc → Item → Except Panic (Acc × Bool)} {input : Streams Item Panic}

/-- Two workers over two streams: worker 0 folds both items, then worker 1
finds the input used up. -/
def twoStreamsEvents : List (FoldEvent Nat) :=
  [.work 0, .help 0 (.ok false)] ++ List.replicate 14 (.work 0) ++ [.help 0 (.ok false)] ++
    List.replicate 21 (.work 0) ++ [.help 0 (.ok false)] ++ List.replicate 21 (.work 0) ++
    [.work 1, .help 1 (.ok false)] ++ List.replicate 4 (.work 1)

def addStep (acc item : Nat) : Except Nat (Nat × Bool) := .ok (acc + item, false)

end

end Parallel

end Xeibe

import Xeibe.Core.Parallel.Step

/-!
# Who holds which lock

`Locked s`: a worker holds the locks its phase says, and no others; so no two
workers hold one lock.  `Others s t i` says that a step of worker `i` leaves
the other workers' locks alone.
-/

namespace Xeibe

namespace Parallel

variable {Item Result Panic : Type}

/-- What a worker holds of streams and their list. -/
def Phase.held : Phase Item Panic → Held
  | .pulling k => .stream k
  | .finishing | .finishingStopped | .finishingLast => .list
  | .openingExhausted | .openingRoom | .openingNext => .list
  | .stopping held _ _ | .exhausting held _ _ => held
  | _ => .none

/-- Whether a worker holds the lock of the numbers between two steps. -/
def Phase.numbers : Phase Item Panic → Bool
  | .stopping .. | .exhausting .. => true
  | _ => false

namespace Pool

/-- The worker that holds the lock of stream `k`. -/
def lockOf (s : Pool Item Result Panic) (k : Nat) : Option Nat :=
  s.opened[k]?.bind OpenStream.lock

section

variable {options : MapOptions} {job : Job Item Result Panic} {panics : Panic → Prop}
  {s t u : Pool Item Result Panic} {i j : Nat} {phase : Phase Item Panic} {held : Held}

/-- Worker `i` holds these locks and no others. -/
structure Owns (s : Pool Item Result Panic) (i : Nat) (held : Held) (numbers : Bool) : Prop where
  list : s.listLock = some i ↔ held = .list
  numbers : s.numbersLock = some i ↔ numbers = true
  stream : ∀ k, s.lockOf k = some i ↔ held = .stream k

structure Locked (s : Pool Item Result Panic) : Prop where
  owns : ∀ i phase, s.workers[i]? = some phase → s.Owns i phase.held phase.numbers
  list_lt : ∀ i, s.listLock = some i → i < s.workers.length
  numbers_lt : ∀ i, s.numbersLock = some i → i < s.workers.length
  stream_lt : ∀ i k, s.lockOf k = some i → i < s.workers.length

/-- The locks of the workers other than `i` stay as they are. -/
structure Others (i : Nat) (s t : Pool Item Result Panic) : Prop where
  list : ∀ j, j ≠ i → (t.listLock = some j ↔ s.listLock = some j)
  numbers : ∀ j, j ≠ i → (t.numbersLock = some j ↔ s.numbersLock = some j)
  stream : ∀ j k, j ≠ i → (t.lockOf k = some j ↔ s.lockOf k = some j)

theorem Others.trans (h : Others i s t) (h' : Others i t u) : Others i s u where
  list j hj := (h'.list j hj).trans (h.list j hj)
  numbers j hj := (h'.numbers j hj).trans (h.numbers j hj)
  stream j k hj := (h'.stream j k hj).trans (h.stream j k hj)

/-- All locks stay as they are. -/
structure SameLocks (s t : Pool Item Result Panic) : Prop where
  list : t.listLock = s.listLock
  numbers : t.numbersLock = s.numbersLock
  stream : ∀ k, t.lockOf k = s.lockOf k

theorem SameLocks.others (h : SameLocks s t) (i : Nat) : Others i s t where
  list _ _ := by rw [h.list]
  numbers _ _ := by rw [h.numbers]
  stream _ k _ := by rw [h.stream k]

theorem Owns.same {numbers : Bool} (h : Owns s i held numbers) (hsame : SameLocks s t) :
    Owns t i held numbers where
  list := by
    rw [hsame.list]
    exact h.list
  numbers := by
    rw [hsame.numbers]
    exact h.numbers
  stream k := by
    rw [hsame.stream k]
    exact h.stream k

theorem Owns.others {numbers : Bool} (h : Owns s j held numbers) (hothers : Others i s t)
    (hj : j ≠ i) : Owns t j held numbers where
  list := (hothers.list j hj).trans h.list
  numbers := (hothers.numbers j hj).trans h.numbers
  stream k := (hothers.stream j k hj).trans (h.stream k)

/-- A worker's step keeps the locks straight when it does so for the worker
and leaves the others alone. -/
theorem Locked.step (h : Locked s) (hi : s.workers[i]? = some phase) {phase' : Phase Item Panic}
    (hworkers : t.workers = s.workers) (hothers : Others i s t)
    (howns : Owns t i phase'.held phase'.numbers) : Locked (t.setPhase i phase') := by
  have hlt : i < s.workers.length := (List.getElem?_eq_some_iff.1 hi).1
  have hlength : (t.setPhase i phase').workers.length = s.workers.length := by
    rw [setPhase, List.length_set, hworkers]
  rw [← hworkers] at hi
  refine ⟨fun j phase₂ hj => ?_, fun j hj => ?_, fun j hj => ?_, fun j k hj => ?_⟩
  · rw [setPhase, Lib.party_set hi] at hj
    rcases hj with ⟨rfl, rfl⟩ | ⟨hne, hj⟩
    · exact howns.same ⟨rfl, rfl, fun _ => rfl⟩
    · rw [hworkers] at hj
      exact ((h.owns j phase₂ hj).others hothers hne).same ⟨rfl, rfl, fun _ => rfl⟩
  all_goals
    rw [hlength]
    by_cases hne : j = i
    · rw [hne]
      exact hlt
  · exact h.list_lt j ((hothers.list j hne).1 hj)
  · exact h.numbers_lt j ((hothers.numbers j hne).1 hj)
  · exact h.stream_lt j k ((hothers.stream j k hne).1 hj)

/-! ## Locks and updates -/

theorem opened_modify (s : Pool Item Result Panic) (k k' : Nat)
    (f : OpenStream Item Panic → OpenStream Item Panic) :
    (s.modifyStream k f).opened[k']? =
      if k = k' then s.opened[k']?.map f else s.opened[k']? := by
  unfold modifyStream
  rw [List.getElem?_modify]
  split
  · rfl
  · simp

theorem lockOf_modify (s : Pool Item Result Panic) (k k' : Nat)
    {f : OpenStream Item Panic → OpenStream Item Panic} (hf : ∀ stream, (f stream).lock = stream.lock) :
    (s.modifyStream k f).lockOf k' = s.lockOf k' := by
  unfold lockOf
  rw [opened_modify]
  split
  · rw [Option.bind_map]
    cases s.opened[k']? with
    | none => rfl
    | some stream => exact hf stream
  · rfl

theorem lockOf_setLock (s : Pool Item Result Panic) (k k' : Nat) (lock : Option Nat) :
    (s.modifyStream k fun stream => { stream with lock }).lockOf k' =
      if k = k' ∧ k < s.opened.length then lock else s.lockOf k' := by
  unfold lockOf
  rw [opened_modify]
  by_cases hk : k = k'
  · subst hk
    by_cases hlt : k < s.opened.length
    · rw [if_pos rfl, if_pos ⟨rfl, hlt⟩, List.getElem?_eq_getElem hlt]
      rfl
    · rw [if_pos rfl, if_neg fun h => hlt h.2, List.getElem?_eq_none (Nat.le_of_not_lt hlt)]
      rfl
  · rw [if_neg hk, if_neg fun h => hk h.1]

theorem release_workers (s : Pool Item Result Panic) (held : Held) :
    (s.release held).workers = s.workers := by
  cases held <;> rfl

/-- Letting go of what a worker holds. -/
theorem Owns.release {numbers : Bool} (h : Owns s i held numbers) :
    Owns (s.release held) i .none numbers ∧ Others i s (s.release held) := by
  cases held with
  | none => exact ⟨h, ⟨fun _ _ => .rfl, fun _ _ => .rfl, fun _ _ _ => .rfl⟩⟩
  | list =>
    have hlock : s.listLock = some i := h.list.2 rfl
    refine ⟨⟨⟨nofun, nofun⟩, h.numbers, fun k => ?_⟩, ⟨fun j hj => ?_, fun _ _ => .rfl, fun _ _ _ => .rfl⟩⟩
    · show s.lockOf k = some i ↔ _
      rw [h.stream k]
      exact ⟨nofun, nofun⟩
    · refine ⟨nofun, fun hlist => ?_⟩
      rw [hlock] at hlist
      exact absurd (Option.some.inj hlist).symm hj
  | stream k =>
    have hlock : s.lockOf k = some i := (h.stream k).2 rfl
    have hlt : k < s.opened.length := by
      by_contra hlt
      rw [lockOf, List.getElem?_eq_none (Nat.le_of_not_lt hlt)] at hlock
      cases hlock
    refine ⟨⟨?_, h.numbers, fun k' => ?_⟩, ⟨fun _ _ => .rfl, fun _ _ => .rfl, fun j k' hj => ?_⟩⟩
    · show s.listLock = some i ↔ _
      rw [h.list]
      exact ⟨nofun, nofun⟩
    · rw [Pool.release, lockOf_setLock]
      split
      · exact ⟨nofun, nofun⟩
      · rename_i hne
        rw [h.stream k']
        refine ⟨fun hk => ?_, nofun⟩
        cases hk
        exact absurd ⟨rfl, hlt⟩ hne
    · rw [Pool.release, lockOf_setLock]
      split
      · rename_i hk
        rw [← hk.1, hlock]
        exact ⟨nofun, fun h => absurd (Option.some.inj h).symm hj⟩
      · exact .rfl

theorem Owns.lockList {numbers : Bool} (h : Owns s i .none numbers) (hfree : s.listLock = none) :
    Owns (s.setListLock (some i)) i .list numbers ∧ Others i s (s.setListLock (some i)) := by
  refine ⟨⟨⟨fun _ => rfl, fun _ => rfl⟩, h.numbers, fun k => ?_⟩,
    ⟨fun j hj => ?_, fun _ _ => .rfl, fun _ _ _ => .rfl⟩⟩
  · show s.lockOf k = some i ↔ _
    rw [h.stream k]
    exact ⟨nofun, nofun⟩
  · rw [hfree]
    exact ⟨fun h => absurd (Option.some.inj h).symm hj, nofun⟩

/-- Taking a stream. -/
theorem Owns.lockStream {numbers : Bool} {k : Nat} {stream : OpenStream Item Panic}
    (h : Owns s i .none numbers) (hk : s.opened[k]? = some stream) (hfree : stream.lock = none) :
    Owns (s.modifyStream k fun stream => { stream with lock := some i }) i (.stream k) numbers ∧
      Others i s (s.modifyStream k fun stream => { stream with lock := some i }) := by
  have hlt : k < s.opened.length := (List.getElem?_eq_some_iff.1 hk).1
  have hlock : s.lockOf k = none := by
    rw [lockOf, hk]
    exact hfree
  refine ⟨⟨?_, h.numbers, fun k' => ?_⟩, ⟨fun _ _ => .rfl, fun _ _ => .rfl, fun j k' hj => ?_⟩⟩
  · show s.listLock = some i ↔ _
    rw [h.list]
    exact ⟨nofun, nofun⟩
  · rw [lockOf_setLock]
    split
    · rename_i hk'
      rw [hk'.1]
      exact ⟨fun _ => rfl, fun _ => rfl⟩
    · rename_i hne
      rw [h.stream k']
      refine ⟨nofun, fun hk' => ?_⟩
      cases hk'
      exact absurd ⟨rfl, hlt⟩ hne
  · rw [lockOf_setLock]
    split
    · rename_i hk'
      rw [← hk'.1, hlock]
      exact ⟨fun h => absurd (Option.some.inj h).symm hj, nofun⟩
    · exact .rfl

theorem Takes.locks {item : Except Panic Item} {ends : Bool} {orElse : Phase Item Panic}
    (h : Takes job s phase held item ends orElse t) :
    phase.held = held ∧ phase.numbers = false ∧ orElse.held = .none ∧ orElse.numbers = false ∧
      SameLocks s t ∧ t.workers = s.workers := by
  cases h with
  | item hk running hrest =>
    exact ⟨rfl, rfl, rfl, rfl, ⟨rfl, rfl, fun k' => lockOf_modify s _ k' fun _ => rfl⟩, rfl⟩
  | panicked hk running hrest =>
    exact ⟨rfl, rfl, rfl, rfl, ⟨rfl, rfl, fun k' => lockOf_modify s _ k' fun _ => rfl⟩, rfl⟩
  | failed h => exact ⟨rfl, rfl, rfl, rfl, ⟨rfl, rfl, fun _ => rfl⟩, rfl⟩
  | last h => exact ⟨rfl, rfl, rfl, rfl, ⟨rfl, rfl, fun _ => rfl⟩, rfl⟩

theorem Goes.locks {phase' : Phase Item Panic} (h : Goes options s phase phase') :
    phase'.held = phase.held ∧ phase'.numbers = phase.numbers := by
  cases h <;> exact ⟨rfl, rfl⟩

/-! ## Steps keep the locks -/

theorem Locked.goes (h : Locked s) (hi : s.workers[i]? = some phase) {phase' : Phase Item Panic}
    (hheld : phase'.held = phase.held) (hnumbers : phase'.numbers = phase.numbers) :
    Locked (s.setPhase i phase') := by
  have howns := h.owns i phase hi
  rw [← hheld, ← hnumbers] at howns
  exact h.step hi rfl (SameLocks.others ⟨rfl, rfl, fun _ => rfl⟩ i) howns

theorem Owns.lockNumbers (h : Owns s i held false) (hfree : s.numbersLock = none)
    (hlist : t.listLock = s.listLock) (hstream : ∀ k, t.lockOf k = s.lockOf k)
    (hlock : t.numbersLock = some i) : Owns t i held true ∧ Others i s t := by
  refine ⟨⟨?_, ?_, fun k => ?_⟩, ⟨fun j _ => by rw [hlist], fun j hj => ?_, fun j k _ => by rw [hstream]⟩⟩
  · rw [hlist]
    exact h.list
  · rw [hlock]
    exact ⟨fun _ => rfl, fun _ => rfl⟩
  · rw [hstream]
    exact h.stream k
  · rw [hlock, hfree]
    exact ⟨fun h => absurd (Option.some.inj h).symm hj, nofun⟩

theorem Owns.unlockNumbers (h : Owns s i held true)
    (hlist : t.listLock = s.listLock) (hstream : ∀ k, t.lockOf k = s.lockOf k)
    (hlock : t.numbersLock = none) : Owns t i held false ∧ Others i s t := by
  have howned : s.numbersLock = some i := h.numbers.2 rfl
  refine ⟨⟨?_, ?_, fun k => ?_⟩, ⟨fun j _ => by rw [hlist], fun j hj => ?_, fun j k _ => by rw [hstream]⟩⟩
  · rw [hlist]
    exact h.list
  · rw [hlock]
    exact ⟨nofun, nofun⟩
  · rw [hstream]
    exact h.stream k
  · rw [hlock, howned]
    exact ⟨nofun, fun h => absurd (Option.some.inj h).symm hj⟩

theorem Locked.does (h : Locked s) (hi : s.workers[i]? = some phase)
    {added : List (Except Panic Item)} (hdoes : Does options job s i phase added t) : Locked t := by
  have howns := h.owns i phase hi
  have same : ∀ {u : Pool Item Result Panic} {phase' : Phase Item Panic}, SameLocks s u →
      u.workers = s.workers → phase'.held = phase.held → phase'.numbers = phase.numbers →
      Locked (u.setPhase i phase') := by
    intro u phase' hsame hworkers hheld hnumbers
    rw [← hheld, ← hnumbers] at howns
    exact h.step hi hworkers (hsame.others i) (howns.same hsame)
  have releases : ∀ {u : Pool Item Result Panic} {phase' : Phase Item Panic}, SameLocks s u →
      u.workers = s.workers → phase'.held = .none → phase'.numbers = phase.numbers →
      Locked ((u.release phase.held).setPhase i phase') := by
    intro u phase' hsame hworkers hheld hnumbers
    obtain ⟨hreleased, hothers⟩ := (howns.same hsame).release
    rw [← hheld, ← hnumbers] at hreleased
    exact h.step hi ((release_workers u phase.held).trans hworkers)
      ((hsame.others i).trans hothers) hreleased
  cases hdoes with
  | ticket => exact same ⟨rfl, rfl, fun _ => rfl⟩ rfl rfl rfl
  | returns => exact same ⟨rfl, rfl, fun _ => rfl⟩ rfl rfl rfl
  | sends => exact same ⟨rfl, rfl, fun _ => rfl⟩ rfl rfl rfl
  | @locksStream phase k stream hk hfree hfrom =>
    have hnone : phase.held = .none ∧ phase.numbers = false := by
      rcases hfrom with rfl | ⟨_, _, _, rfl⟩ <;> exact ⟨rfl, rfl⟩
    rw [hnone.1, hnone.2] at howns
    obtain ⟨hlocked, hothers⟩ := howns.lockStream hk hfree
    exact h.step hi rfl hothers hlocked
  | leavesStream hk hdone => exact releases ⟨rfl, rfl, fun _ => rfl⟩ rfl rfl rfl
  | closes hk running hrest =>
    exact releases ⟨rfl, rfl, fun k' => lockOf_modify s _ k' fun _ => rfl⟩ rfl rfl rfl
  | counts hfree =>
    obtain ⟨hlocked, hothers⟩ := Owns.lockList (howns.same (t := { s with ended := s.ended + 1 })
      ⟨rfl, rfl, fun _ => rfl⟩) hfree
    have hcounted : SameLocks s { s with ended := s.ended + 1 } := ⟨rfl, rfl, fun _ => rfl⟩
    exact h.step hi rfl ((hcounted.others i).trans hothers) hlocked
  | locksList hfree =>
    obtain ⟨hlocked, hothers⟩ := howns.lockList hfree
    exact h.step hi rfl hothers hlocked
  | @declines phase hdeclines finished hfinished =>
    have hlist : phase.held = .list ∧ phase.numbers = false := by
      cases hdeclines <;> exact ⟨rfl, rfl⟩
    rw [hlist.1, hlist.2] at releases
    exact releases ⟨rfl, rfl, fun _ => rfl⟩ rfl rfl rfl
  | @opens rest streams hstreams =>
    refine releases ⟨rfl, rfl, fun k => ?_⟩ rfl rfl rfl
    unfold lockOf
    dsimp only
    rw [List.getElem?_append]
    split
    · rfl
    · rename_i hle
      rw [List.getElem?_eq_none (Nat.le_of_not_lt hle)]
      generalize k - s.opened.length = n
      cases n <;> rfl
  | exhausts => exact same ⟨rfl, rfl, fun _ => rfl⟩ rfl rfl rfl
  | drops htakes hstopped =>
    obtain ⟨hheld, hnumbers, hheld', hnumbers', hsame, hworkers⟩ := htakes.locks
    rw [← hheld]
    exact releases hsame hworkers hheld' (hnumbers'.trans hnumbers.symm)
  | numbers htakes hfree hrunning =>
    obtain ⟨hheld, hnumbers, -, -, hsame, hworkers⟩ := htakes.locks
    rw [← hheld]
    exact releases ⟨hsame.list, hsame.numbers, hsame.stream⟩ hworkers rfl hnumbers.symm
  | @ends phase held item orElse taken htakes hfree hrunning =>
    obtain ⟨hheld, hnumbers, -, -, hsame, hworkers⟩ := htakes.locks
    rw [hnumbers, hheld] at howns
    obtain ⟨hlocked, hothers⟩ := howns.lockNumbers hfree
      (t := { taken with next := s.next + 1, numbersStopped := true, numbersLock := some i })
      hsame.list hsame.stream rfl
    exact h.step hi hworkers hothers hlocked
  | stores => exact same ⟨rfl, rfl, fun _ => rfl⟩ rfl rfl rfl
  | @storesExhausted held seq item =>
    obtain ⟨hunlocked, hothers⟩ := howns.unlockNumbers
      (t := { s with exhausted := true, numbersLock := none }) rfl (fun _ => rfl) rfl
    obtain ⟨hreleased, hothers'⟩ := hunlocked.release
    exact h.step hi (release_workers _ held) (hothers.trans hothers') hreleased

theorem Locked.fails (h : Locked s) (hi : s.workers[i]? = some phase)
    (hcalls : phase = .helping ∨ ∃ head, phase = .helpingHeld head) {panic : Panic}
    {added : List (Except Panic Item)} (hfails : Fails s i panic added t) : Locked t := by
  have hnone : phase.held = .none ∧ phase.numbers = false := by
    rcases hcalls with rfl | ⟨_, rfl⟩ <;> exact ⟨rfl, rfl⟩
  cases hfails with
  | drops hstopped => exact h.goes hi hnone.1.symm hnone.2.symm
  | ends hfree hrunning =>
    have howns := h.owns i phase hi
    rw [hnone.1, hnone.2] at howns
    obtain ⟨hlocked, hothers⟩ := howns.lockNumbers hfree
      (t := { s with next := s.next + 1, numbersStopped := true, numbersLock := some i })
      rfl (fun _ => rfl) rfl
    exact h.step hi rfl hothers hlocked

/-- Waking the waiting workers. -/
def wakeAll (workers : List (Phase Item Panic)) : List (Phase Item Panic) :=
  workers.map fun phase => if isWaiting phase then .ticket else phase

theorem wakeAll_get {workers : List (Phase Item Panic)}
    (h : (wakeAll workers)[i]? = some phase) :
    workers[i]? = some phase ∨ (workers[i]? = some .waiting ∧ phase = .ticket) := by
  unfold wakeAll at h
  rw [List.getElem?_map] at h
  cases hi : workers[i]? with
  | none =>
    rw [hi] at h
    cases h
  | some phase' =>
    rw [hi] at h
    rw [← Option.some.inj h]
    dsimp only
    cases phase' with
    | waiting => exact .inr ⟨rfl, rfl⟩
    | _ => exact .inl rfl

theorem Locked.consumes (h : Locked s) (hconsumes : ConsumerDoes options s t) : Locked t := by
  cases hconsumes with
  | cancels hconsumer =>
    refine ⟨fun i phase hi => ?_, fun i hi => ?_, fun i hi => ?_, fun i k hi => ?_⟩
    · rcases wakeAll_get hi with hi' | ⟨hi', rfl⟩
      · exact (h.owns i phase hi').same ⟨rfl, rfl, fun _ => rfl⟩
      · exact (h.owns i .waiting hi').same ⟨rfl, rfl, fun _ => rfl⟩
    · exact Nat.lt_of_lt_of_eq (h.list_lt i hi) (List.length_map _).symm
    · exact Nat.lt_of_lt_of_eq (h.numbers_lt i hi) (List.length_map _).symm
    · exact Nat.lt_of_lt_of_eq (h.stream_lt i k hi) (List.length_map _).symm
  | _ =>
    exact ⟨fun i phase hi => (h.owns i phase hi).same ⟨rfl, rfl, fun _ => rfl⟩, h.list_lt,
      h.numbers_lt, h.stream_lt⟩

theorem locked_new (input : Streams Item Panic) :
    Locked (new options input : Pool Item Result Panic) := by
  refine ⟨fun i phase hi => ?_, nofun, nofun, fun i k hk => nomatch hk⟩
  have hphase : phase = .ticket := List.eq_of_mem_replicate (List.mem_of_getElem? hi)
  rw [hphase]
  exact ⟨⟨nofun, nofun⟩, ⟨nofun, nofun⟩, fun k => ⟨nofun, nofun⟩⟩

end

end Pool

end Parallel

end Xeibe

import Xeibe.Core.Parallel.Progress

/-!
# What is numbered of each stream

With several streams open the numbers no longer follow the input, but they
follow each stream: what is numbered of a stream is a beginning of it
(`Numbered.beginning`), and nothing is numbered after what ends the input
(`Numbered.ends_last`).  `Taken` is the invariant behind it: what is numbered
of a stream and what is left of it make up the stream, until the input is
stopped.
-/

namespace Xeibe

namespace Parallel

variable {Item Result Panic : Type}

/-- Where something numbered comes from. -/
inductive Origin where
  | stream (k : Nat)
  /-- The input's last item. -/
  | last
  /-- A panic outside the streams: of `next_stream`, or of the helper. -/
  | outside
  deriving DecidableEq, Repr

/-- The streams of an input, in the order in which they are opened. -/
def okStreams : List (Except Panic (List (Except Panic Item))) → List (List (Except Panic Item))
  | [] => []
  | .ok stream :: streams => stream :: okStreams streams
  | .error _ :: streams => okStreams streams

/-- The `k`th stream of an input. -/
def Streams.stream (input : Streams Item Panic) (k : Nat) : List (Except Panic Item) :=
  ((okStreams input.streams)[k]?).getD []

/-- What of the numbered comes from `origin`, in the order of the numbers. -/
def takenOf (origin : Origin) (log : List (Origin × Except Panic Item)) :
    List (Except Panic Item) :=
  (log.filter (·.1 == origin)).map Prod.snd

/-- Whether nothing is taken after an entry: the last item ends nothing that
goes on. -/
def endsInput (ends : Item → Bool) (entry : Origin × Except Panic Item) : Bool :=
  entry.1 != .last && endsWith ends entry.2

/-- What is numbered of an input, in the order of the numbers. -/
structure Numbered (ends : Item → Bool) (panics : Panic → Prop) (input : Streams Item Panic)
    (log : List (Origin × Except Panic Item)) : Prop where
  /-- Of a stream, a beginning of it. -/
  beginning : ∀ k, takenOf (.stream k) log <+: input.stream k
  last : takenOf .last log <+: input.last.toList
  outside : ∀ item ∈ takenOf .outside log, ∃ panic, item = .error panic ∧
    (panics panic ∨ .error panic ∈ input.streams)
  /-- Nothing is numbered after what ends the input. -/
  ends_last : ∀ front entry back, log = front ++ entry :: back → endsInput ends entry = true →
    back = []

/-- Everything of an input is numbered. -/
def Complete (input : Streams Item Panic) (log : List (Origin × Except Panic Item)) : Prop :=
  (∀ k, takenOf (.stream k) log = input.stream k) ∧ takenOf .last log = input.last.toList

/-! ## Entries -/

theorem takenOf_concat (origin : Origin) (log : List (Origin × Except Panic Item))
    (entry : Origin × Except Panic Item) :
    takenOf origin (log ++ [entry]) =
      takenOf origin log ++ if entry.1 = origin then [entry.2] else [] := by
  unfold takenOf
  rw [List.filter_append, List.map_append]
  by_cases h : entry.1 = origin
  · rw [if_pos h, List.filter_cons_of_pos (by simpa using h)]
    rfl
  · rw [if_neg h, List.filter_cons_of_neg (by simpa using h)]
    rfl

theorem takenOf_concat_ne {origin other : Origin} (log : List (Origin × Except Panic Item))
    (item : Except Panic Item) (h : other ≠ origin) :
    takenOf origin (log ++ [(other, item)]) = takenOf origin log := by
  rw [takenOf_concat, if_neg h, List.append_nil]

theorem mem_takenOf {origin : Origin} {log : List (Origin × Except Panic Item)}
    {item : Except Panic Item} : item ∈ takenOf origin log ↔ (origin, item) ∈ log := by
  unfold takenOf
  simp [List.mem_map, List.mem_filter]

theorem okStreams_append (streams rest : List (Except Panic (List (Except Panic Item)))) :
    okStreams (streams ++ rest) = okStreams streams ++ okStreams rest := by
  induction streams with
  | nil => rfl
  | cons stream streams ih =>
    cases stream with
    | ok stream => exact congrArg _ ih
    | error panic => exact ih

/-- One more entry, after none that ends the input. -/
theorem Numbered.concat {ends : Item → Bool} {panics : Panic → Prop} {input : Streams Item Panic}
    {log : List (Origin × Except Panic Item)} (h : Numbered ends panics input log)
    (hrunning : ∀ entry ∈ log, endsInput ends entry = false) {origin : Origin}
    {item : Except Panic Item}
    (hstream : ∀ k, origin = .stream k →
      takenOf (.stream k) log ++ [item] <+: input.stream k)
    (hlast : origin = .last → takenOf .last log ++ [item] <+: input.last.toList)
    (houtside : origin = .outside → ∃ panic, item = .error panic ∧
      (panics panic ∨ .error panic ∈ input.streams)) :
    Numbered ends panics input (log ++ [(origin, item)]) where
  beginning k := by
    by_cases ho : origin = .stream k
    · rw [takenOf_concat, if_pos ho]
      exact hstream k ho
    · rw [takenOf_concat_ne log item ho]
      exact h.beginning k
  last := by
    by_cases ho : origin = .last
    · rw [takenOf_concat, if_pos ho]
      exact hlast ho
    · rw [takenOf_concat_ne log item ho]
      exact h.last
  outside := by
    by_cases ho : origin = .outside
    · rw [takenOf_concat, if_pos ho]
      intro taken htaken
      rcases List.mem_append.1 htaken with hold | hnew
      · exact h.outside taken hold
      · rw [List.mem_singleton.1 hnew]
        exact houtside ho
    · rw [takenOf_concat_ne log item ho]
      exact h.outside
  ends_last front entry back hsplit hends := by
    rcases List.eq_nil_or_concat' back with rfl | ⟨back, last, rfl⟩
    · rfl
    · -- The entry stands before the new one, so it ends nothing.
      have hsplit' : log ++ [(origin, item)] = (front ++ entry :: back) ++ [last] := by
        rw [hsplit, List.append_assoc]
        rfl
      have hlog := (List.append_inj' hsplit' rfl).1
      have := hrunning entry (by rw [hlog]; exact List.mem_append_right _ List.mem_cons_self)
      rw [this] at hends
      cases hends

namespace Pool

section

variable {options : MapOptions} {job : Job Item Result Panic} {panics : Panic → Prop}
  {s t : Pool Item Result Panic} {i : Nat} {phase phase' : Phase Item Panic} {held : Held}
  {log : List (Origin × Except Panic Item)} {input : Streams Item Panic}

/-! ## The invariant -/

/-- What has been numbered of an input, against what is left of it. -/
structure Taken (job : Job Item Result Panic) (panics : Panic → Prop) (input : Streams Item Panic)
    (log : List (Origin × Except Panic Item)) (s : Pool Item Result Panic) : Prop where
  numbered : Numbered job.endsInput panics input log
  /-- The input runs until something that ends it is numbered. -/
  running : s.numbersStopped = false → ∀ entry ∈ log, endsInput job.endsInput entry = false
  stopped : s.numbersStopped = true → ∃ entry ∈ log, endsInput job.endsInput entry = true
  last_eq : s.streams.last = input.last
  begun : ∃ begun, input.streams = begun ++ s.streams.streams ∧
    s.opened.length = (okStreams begun).length
  unopened : ∀ k, s.opened.length ≤ k → takenOf (.stream k) log = []
  /-- What is numbered of a stream and what is left of it are the stream. -/
  left : s.numbersStopped = false → ∀ (k : Nat) (stream : OpenStream Item Panic),
    s.opened[k]? = some stream → takenOf (.stream k) log ++ stream.rest = input.stream k
  closed : s.numbersStopped = false → ∀ (k : Nat) (stream : OpenStream Item Panic),
    s.opened[k]? = some stream → k ∉ s.openStreams → stream.rest = []
  lastTaken : s.numbersStopped = false →
    takenOf .last log = if s.finished = true then input.last.toList else []

theorem taken_new (input : Streams Item Panic) :
    Taken job panics input [] (new options input : Pool Item Result Panic) where
  numbered := by
    refine ⟨fun k => List.nil_prefix, List.nil_prefix, nofun, fun front entry back h => ?_⟩
    cases front <;> cases h
  running := nofun
  stopped := nofun
  last_eq := rfl
  begun := ⟨[], rfl, rfl⟩
  unopened := fun _ _ => rfl
  left := nofun
  closed := nofun
  lastTaken := fun _ => rfl

/-- A step that takes nothing, opens nothing and finishes nothing. -/
structure SameTaken (s t : Pool Item Result Panic) : Prop where
  streams : t.streams = s.streams
  numbersStopped : t.numbersStopped = s.numbersStopped
  finished : t.finished = s.finished
  openStreams : t.openStreams = s.openStreams
  rest : ∀ k : Nat, t.opened[k]?.map OpenStream.rest = s.opened[k]?.map OpenStream.rest

theorem SameTaken.length (h : SameTaken s t) : t.opened.length = s.opened.length := by
  have hnone : ∀ k, t.opened.length ≤ k ↔ s.opened.length ≤ k := by
    intro k
    have hrest := h.rest k
    rw [← List.getElem?_eq_none_iff, ← List.getElem?_eq_none_iff]
    constructor
    · intro hk
      rw [hk] at hrest
      exact Option.map_eq_none_iff.1 hrest.symm
    · intro hk
      rw [hk] at hrest
      exact Option.map_eq_none_iff.1 hrest
  have h₁ := (hnone t.opened.length).1 (Nat.le_refl _)
  have h₂ := (hnone s.opened.length).2 (Nat.le_refl _)
  omega

theorem SameTaken.get (h : SameTaken s t) {k : Nat} {stream : OpenStream Item Panic}
    (hk : t.opened[k]? = some stream) :
    ∃ old : OpenStream Item Panic, s.opened[k]? = some old ∧ old.rest = stream.rest := by
  have hrest := h.rest k
  rw [hk] at hrest
  exact Option.map_eq_some_iff.1 hrest.symm

theorem SameTaken.refl (s : Pool Item Result Panic) : SameTaken s s :=
  ⟨rfl, rfl, rfl, rfl, fun _ => rfl⟩

theorem SameTaken.release (h : SameTaken s t) (held : Held) : SameTaken s (t.release held) := by
  cases held with
  | stream k =>
    exact ⟨h.streams, h.numbersStopped, h.finished, h.openStreams,
      fun k' => (rest_modify t k k' (f := fun stream => { stream with lock := none })
        fun _ => rfl).trans (h.rest k')⟩
  | list => exact ⟨h.streams, h.numbersStopped, h.finished, h.openStreams, h.rest⟩
  | none => exact h

theorem Taken.same (h : Taken job panics input log s) (hsame : SameTaken s t) :
    Taken job panics input log t where
  numbered := h.numbered
  running := by
    rw [hsame.numbersStopped]
    exact h.running
  stopped := by
    rw [hsame.numbersStopped]
    exact h.stopped
  last_eq := by
    rw [hsame.streams]
    exact h.last_eq
  begun := by
    rw [hsame.streams, hsame.length]
    exact h.begun
  unopened := by
    rw [hsame.length]
    exact h.unopened
  left := by
    intro hrunning k stream hk
    obtain ⟨old, hold, hrest⟩ := hsame.get hk
    rw [← hrest]
    exact h.left (hsame.numbersStopped.symm.trans hrunning) k old hold
  closed := by
    intro hrunning k stream hk hopen
    obtain ⟨old, hold, hrest⟩ := hsame.get hk
    rw [← hrest]
    exact h.closed (hsame.numbersStopped.symm.trans hrunning) k old hold (hsame.openStreams ▸ hopen)
  lastTaken := by
    rw [hsame.numbersStopped, hsame.finished]
    exact h.lastTaken

/-- Once the input is stopped, what is left of it no longer counts. -/
theorem Taken.dropped (h : Taken job panics input log s) (hstopped : s.numbersStopped = true)
    (hsame : t.numbersStopped = s.numbersStopped) (hlast : t.streams.last = s.streams.last)
    (hbegun : ∃ begun, s.streams.streams = begun ++ t.streams.streams ∧
      t.opened.length = s.opened.length + (okStreams begun).length) :
    Taken job panics input log t := by
  have hstopped' : t.numbersStopped = true := hsame.trans hstopped
  have contra : ∀ {p : Prop}, t.numbersStopped = false → p := by
    intro p hrunning
    rw [hstopped'] at hrunning
    cases hrunning
  obtain ⟨begun, hinput, hlength⟩ := h.begun
  obtain ⟨more, hmore, hopened⟩ := hbegun
  exact
    { numbered := h.numbered
      running := contra
      stopped := fun _ => h.stopped hstopped
      last_eq := hlast.trans h.last_eq
      begun := ⟨begun ++ more, by rw [hinput, hmore, List.append_assoc], by
        rw [okStreams_append, List.length_append, hopened, hlength]⟩
      unopened := fun k hk => h.unopened k (by omega)
      left := contra
      closed := contra
      lastTaken := contra }

/-- The next item of a stream that a worker holds, numbered. -/
theorem Taken.takes_stream (h : Taken job panics input log s) (hopen : OpenOk options s)
    {k : Nat} {stream : OpenStream Item Panic} {item : Except Panic Item}
    {rest : List (Except Panic Item)} (hk : s.opened[k]? = some stream)
    (running : stream.done = false) (hrest : stream.rest = item :: rest)
    (hrunning : s.numbersStopped = false)
    {f : OpenStream Item Panic → OpenStream Item Panic} (hf : ∀ stream, (f stream).rest = rest)
    {ends : Bool} (hends : ends = endsWith job.endsInput item) :
    Taken job panics input (log ++ [(.stream k, item)])
      { s.modifyStream k f with numbersStopped := ends } := by
  have hstream : takenOf (.stream k) log ++ item :: rest = input.stream k := by
    rw [← hrest]
    exact h.left hrunning k stream hk
  have hlt : k < s.opened.length := (List.getElem?_eq_some_iff.1 hk).1
  have hentry : endsInput job.endsInput (.stream k, item) = ends := by
    rw [hends]
    rfl
  have hother : ∀ {k' : Nat}, k' ≠ k →
      takenOf (.stream k') (log ++ [(Origin.stream k, item)]) = takenOf (.stream k') log :=
    fun hne => takenOf_concat_ne log item fun heq => hne (Origin.stream.inj heq).symm
  refine ⟨h.numbered.concat (h.running hrunning) ?_ nofun nofun, ?_, ?_, h.last_eq, ?_, ?_, ?_, ?_, ?_⟩
  · intro k' heq
    cases heq
    exact ⟨rest, by rw [← hstream, List.append_assoc]; rfl⟩
  · intro hfalse entry hmem
    rcases List.mem_append.1 hmem with hold | hnew
    · exact h.running hrunning entry hold
    · rw [List.mem_singleton.1 hnew, hentry]
      exact hfalse
  · intro htrue
    exact ⟨_, List.mem_append_right _ (List.mem_singleton_self _), hentry.trans htrue⟩
  · obtain ⟨begun, hinput, hlength⟩ := h.begun
    exact ⟨begun, hinput, (List.length_modify _ _ _).trans hlength⟩
  · intro k' hle
    have hle' : s.opened.length ≤ k' := by
      rw [← List.length_modify f s.opened k]
      exact hle
    rw [hother (by omega)]
    exact h.unopened k' hle'
  · intro _ k' stream' hk'
    have hget := opened_modify s k k' f
    rw [show (s.modifyStream k f).opened[k']? = some stream' from hk'] at hget
    by_cases heq : k = k'
    · subst heq
      rw [if_pos rfl, hk] at hget
      rw [Option.some.inj hget, hf, takenOf_concat, if_pos rfl, List.append_assoc]
      exact hstream
    · rw [if_neg heq] at hget
      rw [hother fun heq' => heq heq'.symm]
      exact h.left hrunning k' stream' hget.symm
  · intro _ k' stream' hk' hclosed
    have hget := opened_modify s k k' f
    rw [show (s.modifyStream k f).opened[k']? = some stream' from hk'] at hget
    have hne : k ≠ k' := by
      rintro rfl
      exact hclosed (hopen.mem_open hk running)
    rw [if_neg hne] at hget
    exact h.closed hrunning k' stream' hget.symm hclosed
  · intro _
    rw [takenOf_concat_ne log item (by exact nofun)]
    exact h.lastTaken hrunning

/-- A panic outside the streams, numbered. -/
theorem Taken.takes_outside (h : Taken job panics input log s)
    (hrunning : s.numbersStopped = false) {panic : Panic}
    (hpanic : panics panic ∨ .error panic ∈ input.streams)
    (hlast : t.streams.last = s.streams.last) (hstopped : t.numbersStopped = true)
    (hbegun : ∃ begun, s.streams.streams = begun ++ t.streams.streams ∧
      t.opened.length = s.opened.length + (okStreams begun).length) :
    Taken job panics input (log ++ [(.outside, .error panic)]) t := by
  have contra : ∀ {p : Prop}, t.numbersStopped = false → p := by
    intro p hrunning'
    rw [hstopped] at hrunning'
    cases hrunning'
  obtain ⟨begun, hinput, hlength⟩ := h.begun
  obtain ⟨more, hmore, hopened⟩ := hbegun
  refine ⟨h.numbered.concat (h.running hrunning) nofun nofun fun _ => ⟨panic, rfl, hpanic⟩, contra,
    fun _ => ⟨_, List.mem_append_right _ (List.mem_singleton_self _), rfl⟩,
    hlast.trans h.last_eq, ?_, ?_, contra, contra, contra⟩
  · refine ⟨begun ++ more, ?_, ?_⟩
    · rw [hinput, hmore, List.append_assoc]
    · rw [okStreams_append, List.length_append, hopened, hlength]
  · intro k hk
    rw [takenOf_concat_ne log _ (by exact nofun)]
    exact h.unopened k (by omega)

/-- What a worker takes, it numbers in its place. -/
theorem Taken.takes (h : Taken job panics input log s) (hinput : Input options s)
    (hi : s.workers[i]? = some phase) {item : Except Panic Item} {ends : Bool}
    {orElse : Phase Item Panic} (htakes : Takes job s phase held item ends orElse t)
    (hrunning : s.numbersStopped = false) :
    ∃ origin, Taken job panics input (log ++ [(origin, item)])
      { t with numbersStopped := ends } := by
  have hsees := hinput.sees i phase hi
  cases htakes with
  | @item k stream item rest hk running hrest =>
    exact ⟨.stream k, h.takes_stream hinput.opens hk running hrest hrunning (fun _ => rfl) rfl⟩
  | @panicked k stream panic rest hk running hrest =>
    exact ⟨.stream k, h.takes_stream hinput.opens hk running hrest hrunning (fun _ => rfl) rfl⟩
  | @failed panic streams hstreams =>
    refine ⟨.outside, h.takes_outside hrunning (.inr ?_) rfl rfl ⟨[.error panic], hstreams, rfl⟩⟩
    obtain ⟨begun, hbegun, -⟩ := h.begun
    rw [hbegun, hstreams]
    exact List.mem_append_right _ List.mem_cons_self
  | @last item hlast =>
    obtain ⟨-, -, hfinished⟩ := hsees
    have hnone : takenOf .last log = [] := by
      rw [h.lastTaken hrunning, hfinished]
      rfl
    have hsome : input.last = some item := h.last_eq.symm.trans hlast
    have htaken : takenOf .last (log ++ [(Origin.last, item)]) = input.last.toList := by
      rw [takenOf_concat, if_pos rfl, hnone, hsome]
      rfl
    refine ⟨.last, h.numbered.concat (h.running hrunning) nofun (fun _ => ?_) nofun, ?_, nofun,
      h.last_eq, h.begun, ?_, ?_, fun _ => h.closed hrunning, ?_⟩
    · rw [hnone, hsome]
      exact List.prefix_refl _
    · intro _ entry hmem
      rcases List.mem_append.1 hmem with hold | hnew
      · exact h.running hrunning entry hold
      · rw [List.mem_singleton.1 hnew]
        rfl
    · intro k hk
      rw [takenOf_concat_ne log item (by exact nofun)]
      exact h.unopened k hk
    · intro _ k stream hk
      rw [takenOf_concat_ne log item (by exact nofun)]
      exact h.left hrunning k stream hk
    · intro _
      exact htaken

/-! ## Steps -/

/-- A stream that has ended is closed. -/
theorem Taken.closes (h : Taken job panics input log s) {k : Nat} {stream : OpenStream Item Panic}
    (hk : s.opened[k]? = some stream) (hrest : stream.rest = []) (hsame : SameTaken
      { s with openStreams := s.openStreams.filter (· != k) } t) :
    Taken job panics input log t := by
  refine Taken.same (s := { s with openStreams := s.openStreams.filter (· != k) }) ?_ hsame
  refine ⟨h.numbered, h.running, h.stopped, h.last_eq, h.begun, h.unopened, h.left, ?_, h.lastTaken⟩
  intro hrunning k' stream' hk' hclosed
  by_cases hopen : k' ∈ s.openStreams
  · have hsame : k' = k := by
      by_contra hne
      exact hclosed (List.mem_filter.2 ⟨hopen, bne_iff_ne.2 hne⟩)
    have hk'' : s.opened[k]? = some stream' := hsame ▸ hk'
    rw [hk] at hk''
    rw [← Option.some.inj hk'']
    exact hrest
  · exact h.closed hrunning k' stream' hk' hopen

/-- A worker finds no last item. -/
theorem Taken.declines (h : Taken job panics input log s) (hdeclines : Declines options s phase)
    {finished : Bool} (hfinished : finished = true ↔ s.finished = true ∨ phase = .finishingLast)
    (hsame : SameTaken { s with finished } t) : Taken job panics input log t := by
  refine Taken.same (s := { s with finished }) ?_ hsame
  refine ⟨h.numbered, h.running, h.stopped, h.last_eq, h.begun, h.unopened, h.left, h.closed, ?_⟩
  intro hrunning
  rw [h.lastTaken hrunning]
  show _ = if finished = true then input.last.toList else []
  cases hdeclines with
  | noLast hlast =>
    have hnone : input.last = none := h.last_eq.symm.trans hlast
    rw [hnone]
    simp
  | _ =>
    have heq : finished = s.finished := by
      rw [Bool.eq_iff_iff, hfinished]
      simp
    rw [heq]

/-- A stream is opened: nothing of it is numbered yet. -/
theorem Taken.opens (h : Taken job panics input log s) {rest : List (Except Panic Item)}
    {streams : List (Except Panic (List (Except Panic Item)))}
    (hstreams : s.streams.streams = .ok rest :: streams)
    (hsame : SameTaken { s with
      streams := { s.streams with streams }
      opened := s.opened ++ [OpenStream.mk rest false none]
      openStreams := s.openStreams ++ [s.opened.length] } t) :
    Taken job panics input log t := by
  refine Taken.same (s := { s with
    streams := { s.streams with streams }
    opened := s.opened ++ [OpenStream.mk rest false none]
    openStreams := s.openStreams ++ [s.opened.length] }) ?_ hsame
  obtain ⟨begun, hinput, hlength⟩ := h.begun
  rw [hstreams] at hinput
  have hget : ∀ {k : Nat} {stream : OpenStream Item Panic},
      (s.opened ++ [OpenStream.mk rest false none])[k]? = some stream →
      s.opened[k]? = some stream ∨ k = s.opened.length ∧ stream = OpenStream.mk rest false none := by
    intro k stream hk
    rw [List.getElem?_append] at hk
    split at hk
    · exact .inl hk
    · rename_i hle
      obtain ⟨hlt, hstream⟩ := List.getElem?_eq_some_iff.1 hk
      simp only [List.length_singleton] at hlt
      have hzero : k - s.opened.length = 0 := by omega
      refine .inr ⟨by omega, ?_⟩
      simp only [hzero, List.getElem_cons_zero] at hstream
      exact hstream.symm
  refine ⟨h.numbered, h.running, h.stopped, h.last_eq, ⟨begun ++ [.ok rest], ?_, ?_⟩, ?_, ?_, ?_,
    h.lastTaken⟩
  · rw [hinput, List.append_assoc]
    rfl
  · rw [okStreams_append, List.length_append, List.length_append, hlength]
    rfl
  · intro k hk
    have hk' : (s.opened ++ [OpenStream.mk rest false none]).length ≤ k := hk
    rw [List.length_append] at hk'
    exact h.unopened k (by omega)
  · intro hrunning k stream hk
    rcases hget hk with hold | ⟨rfl, rfl⟩
    · exact h.left hrunning k stream hold
    · rw [h.unopened _ (Nat.le_refl _), Streams.stream, hinput, okStreams_append, hlength,
        List.getElem?_append_right (Nat.le_refl _), Nat.sub_self]
      rfl
  · intro hrunning k stream hk hclosed
    rcases hget hk with hold | ⟨rfl, rfl⟩
    · exact h.closed hrunning k stream hold fun hopen =>
        hclosed (List.mem_append_left _ hopen)
    · exact absurd (List.mem_append_right _ (List.mem_singleton_self _)) hclosed

theorem Taken.drops (h : Taken job panics input log s) {item : Except Panic Item} {ends : Bool}
    {orElse : Phase Item Panic} (htakes : Takes job s phase held item ends orElse t)
    (hstopped : s.numbersStopped = true) : Taken job panics input log t := by
  cases htakes with
  | item => exact h.dropped hstopped rfl rfl ⟨[], rfl, List.length_modify _ _ _⟩
  | panicked => exact h.dropped hstopped rfl rfl ⟨[], rfl, List.length_modify _ _ _⟩
  | @failed panic streams hstreams => exact h.dropped hstopped rfl rfl ⟨[.error panic], hstreams, rfl⟩
  | last => exact h.dropped hstopped rfl rfl ⟨[], rfl, rfl⟩

/-- A worker's step numbers what it adds in its place. -/
theorem Taken.does {added : List (Except Panic Item)} (h : Taken job panics input log s)
    (hinput : Input options s) (hi : s.workers[i]? = some phase)
    (hdoes : Does options job s i phase added t) :
    ∃ more : List (Origin × Except Panic Item), more.map Prod.snd = added ∧
      Taken job panics input (log ++ more) t := by
  have quiet : ∀ {u : Pool Item Result Panic}, Taken job panics input log u →
      ∃ more : List (Origin × Except Panic Item), more.map Prod.snd = [] ∧
        Taken job panics input (log ++ more) u := by
    intro u hu
    refine ⟨[], rfl, ?_⟩
    rw [List.append_nil]
    exact hu
  have same : SameTaken s s := .refl s
  cases hdoes with
  | @locksStream phase k =>
    refine quiet (h.same ⟨rfl, rfl, rfl, rfl, fun k' => rest_modify s k k' fun _ => rfl⟩)
  | leavesStream => exact quiet (h.same ⟨rfl, rfl, rfl, rfl, (same.release (.stream _)).rest⟩)
  | @closes k stream hk running hrest =>
    refine quiet (h.closes hk hrest ⟨rfl, rfl, rfl, rfl, fun k' => ?_⟩)
    have hdone : SameTaken s (s.modifyStream k fun stream => { stream with done := true }) :=
      ⟨rfl, rfl, rfl, rfl, fun k' => rest_modify s k k' fun _ => rfl⟩
    exact (hdone.release (.stream k)).rest k'
  | declines hdeclines finished hfinished =>
    exact quiet (h.declines hdeclines hfinished ⟨rfl, rfl, rfl, rfl, fun _ => rfl⟩)
  | opens hstreams => exact quiet (h.opens hstreams ⟨rfl, rfl, rfl, rfl, fun _ => rfl⟩)
  | @drops phase held item ends orElse taken htakes hstopped =>
    have hsame := SameTaken.release (.refl taken) held
    exact quiet ((h.drops htakes hstopped).same
      ⟨hsame.streams, hsame.numbersStopped, hsame.finished, hsame.openStreams, hsame.rest⟩)
  | @numbers phase held item orElse taken htakes hfree hrunning =>
    obtain ⟨origin, hnumbered⟩ := h.takes hinput hi htakes hrunning
    have hn : taken.numbersStopped = false := htakes.shared.2.2.1.trans hrunning
    have hnext : SameTaken { taken with numbersStopped := false }
        { taken with next := s.next + 1 } := ⟨rfl, hn, rfl, rfl, fun _ => rfl⟩
    have hsame := hnext.release held
    exact ⟨[(origin, item)], rfl, hnumbered.same
      ⟨hsame.streams, hsame.numbersStopped, hsame.finished, hsame.openStreams, hsame.rest⟩⟩
  | @ends phase held item orElse taken htakes hfree hrunning =>
    obtain ⟨origin, hnumbered⟩ := h.takes hinput hi htakes hrunning
    exact ⟨[(origin, item)], rfl, hnumbered.same ⟨rfl, rfl, rfl, rfl, fun _ => rfl⟩⟩
  | @storesExhausted held seq item =>
    have hstored : SameTaken s { s with exhausted := true, numbersLock := none } :=
      ⟨rfl, rfl, rfl, rfl, fun _ => rfl⟩
    have hsame := hstored.release held
    exact quiet (h.same
      ⟨hsame.streams, hsame.numbersStopped, hsame.finished, hsame.openStreams, hsame.rest⟩)
  | _ => exact quiet (h.same ⟨rfl, rfl, rfl, rfl, fun _ => rfl⟩)

theorem Taken.fails {added : List (Except Panic Item)} (h : Taken job panics input log s)
    {panic : Panic} (hpanic : panics panic) (hfails : Fails s i panic added t) :
    ∃ more : List (Origin × Except Panic Item), more.map Prod.snd = added ∧
      Taken job panics input (log ++ more) t := by
  cases hfails with
  | drops hstopped =>
    refine ⟨[], rfl, ?_⟩
    rw [List.append_nil]
    exact h.same ⟨rfl, rfl, rfl, rfl, fun _ => rfl⟩
  | ends hfree hrunning =>
    exact ⟨[(.outside, .error panic)], rfl,
      h.takes_outside hrunning (.inl hpanic) rfl rfl ⟨[], rfl, rfl⟩⟩

/-- When every worker has ended, and the pool was not cancelled, everything is
numbered, or something has ended the input. -/
theorem Taken.used_up (h : Taken job panics input log s) (hinput : Input options s)
    (hworkers : 0 < s.workers.length) (hended : ∀ phase ∈ s.workers, phase = .ended)
    (hrunning : s.cancelled = false) :
    Complete input log ∨ ∃ entry ∈ log, endsInput job.endsInput entry = true := by
  rcases hinput.used_up hworkers hended hrunning with hstopped | ⟨hnumbers, hstreams, hopen, hfinished⟩
  · exact .inr (h.stopped hstopped)
  · left
    obtain ⟨begun, hbegun, hlength⟩ := h.begun
    rw [hstreams, List.append_nil] at hbegun
    refine ⟨fun k => ?_, ?_⟩
    · by_cases hk : k < s.opened.length
      · have hget := List.getElem?_eq_getElem hk
        have hleft := h.left hnumbers k _ hget
        rw [h.closed hnumbers k _ hget (by rw [hopen]; exact List.not_mem_nil), List.append_nil]
          at hleft
        exact hleft
      · rw [h.unopened k (Nat.le_of_not_lt hk), Streams.stream, hbegun,
          List.getElem?_eq_none (by omega)]
        rfl
    · rw [h.lastTaken hnumbers, hfinished, if_pos rfl]

end

end Pool

end Parallel

end Xeibe

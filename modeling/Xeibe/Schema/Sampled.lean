import Xeibe.Schema.Sources

/-!
# Samples of the input

A sampled scan gives every chunk its share of the budget as it is cut, one source after
another.  The shares are the first features of the input, up to the budget; the workers scan
them in some order, and the observation is a merge of scans that observed exactly them.
-/

namespace Xeibe.Schema

open Lib Parallel

variable {V G B S ε P : Type} {layers : Option (List QName)}

/-! ## The features of the input -/

/-- The features of a source, as the chunks hold them. -/
def Source.starts (source : Source B ε layers) : List (Except ε (Element ε)) :=
  match source.opening with
  | .read _ chunks _ => chunks.flatMap Chunk.starts
  | _ => []

/-- The features of the input in document order. -/
def startsOf (sources : List (Except ε (Source B ε layers))) : List (Except ε (Element ε)) :=
  sources.flatMap fun source => source.toOption.elim [] Source.starts

/-- The features that are scanned of what a stream gives. -/
def sharedOut : ScanItem B ε layers → List (Except ε (Element ε))
  | .ok (chunk, some share) => chunk.starts.take share
  | .ok (chunk, none) => chunk.starts
  | .error _ => []

theorem features_of_scan [Merge V] [Merge G] [Merge B] {stats : Statistics V G B S ε}
    {inherited : Inherited B} {seq : Nat} {builder builder' : Builder V G B} {share : Nat}
    {budget : Option Nat} {stopped : Bool} {body : Body ε}
    (h : scanFeatures stats layers inherited seq builder (some share) body =
      .ok (builder', budget, stopped)) :
    (body.features layers (some share)).map Except.ok = (body.starts layers).take share := by
  induction body generalizing seq builder share with
  | done => rw [Body.features, Body.starts, List.take_nil, List.map_nil]
  | text s rest ih => exact ih h
  | unreadable error rest => cases h
  | broken error => cases h
  | element tag inner rest _ ih =>
    cases tag with
    | error error => cases h
    | ok tag =>
      rw [scanFeatures] at h
      rw [Body.features, Body.starts]
      split_ifs at h ⊢ with hother hshare
      · obtain ⟨_, -, h⟩ := bind_eq_ok.1 h
        exact ih h
      · cases hshare
        rfl
      · obtain ⟨builder₁, -, h⟩ := bind_eq_ok.1 h
        cases share with
        | zero => exact absurd rfl hshare
        | succ share => exact congrArg (Except.ok (tag, inner) :: ·) (ih h)

/-! ## Shares -/

/-- From `s` to `t` the streams gave `items`, of the features `starts`, with `left` of them
to give. -/
structure SharesOut (left : Nat) (starts : List (Except ε (Element ε)))
    (items : List (ScanItem B ε layers)) (s t : ScanSources B ε layers) : Prop where
  items_eq : items.flatMap sharedOut = starts.take left
  shares : ∀ item ∈ items, ∀ chunk share, item = .ok (chunk, share) → share.isSome = true
  sampled : t.sampled = (s.sampled || decide (left < starts.length))
  usedUp : t.budget.usedUp = decide (left < starts.length)
  left_eq : starts.length ≤ left → t.budget.left = some (left - starts.length)

theorem SharesOut.enough {left : Nat} {starts : List (Except ε (Element ε))}
    {items : List (ScanItem B ε layers)} {s t : ScanSources B ε layers}
    (h : SharesOut left starts items s t) (hless : left < starts.length)
    (more : List (Except ε (Element ε))) : SharesOut left (starts ++ more) items s t where
  items_eq := by rw [h.items_eq, List.take_append_of_le_length (Nat.le_of_lt hless)]
  shares := h.shares
  sampled := by
    rw [h.sampled, decide_eq_true hless, decide_eq_true (by rw [List.length_append]; omega)]
  usedUp := by
    rw [h.usedUp, decide_eq_true hless, decide_eq_true (by rw [List.length_append]; omega)]
  left_eq hle := by
    rw [List.length_append] at hle
    omega

/-- The budget lasts longer than the first part. -/
theorem SharesOut.append {left : Nat} {starts more : List (Except ε (Element ε))}
    {items items' : List (ScanItem B ε layers)} {s t u : ScanSources B ε layers}
    (h : SharesOut left starts items s t) (hle : starts.length ≤ left)
    (h' : SharesOut (left - starts.length) more items' t u) :
    SharesOut left (starts ++ more) (items ++ items') s u := by
  have hsame : left - starts.length < more.length ↔ left < (starts ++ more).length := by
    rw [List.length_append]
    omega
  refine ⟨?_, fun item hitem => ?_, ?_, ?_, fun hall => ?_⟩
  · rw [List.flatMap_append, h.items_eq, h'.items_eq, List.take_append]
  · exact (List.mem_append.1 hitem).elim (h.shares item) (h'.shares item)
  · rw [h'.sampled, h.sampled, decide_eq_false (by omega : ¬left < starts.length), Bool.or_false,
      decide_eq_decide.2 hsame]
  · rw [h'.usedUp, decide_eq_decide.2 hsame]
  · rw [List.length_append] at hall ⊢
    rw [h'.left_eq (by omega), Nat.sub_sub]

/-- The streams have no budgets of their own. -/
structure OneBudget (s : ScanSources B ε layers) : Prop where
  perSource : s.perSource = none
  scans : ∀ scan ∈ s.scans, scan.budget = none

namespace ScanSources

variable {s t : ScanSources B ε layers} {k : Nat} {left : Nat}

theorem budgetOf_eq (h : OneBudget s) (k : Nat) : s.budgetOf k = s.budget := by
  unfold budgetOf
  cases hk : s.scans[k]? with
  | none => rfl
  | some scan =>
    rw [Option.bind_some, h.scans scan (List.mem_of_getElem? hk)]
    rfl

theorem setBudget_eq (h : OneBudget s) (k : Nat) (budget : Budget) :
    s.setBudget k budget = { s with budget } := by
  unfold setBudget
  cases hk : s.scans[k]? with
  | none => rfl
  | some scan =>
    rw [Option.bind_some, h.scans scan (List.mem_of_getElem? hk)]
    rfl

/-- A call of a stream changes neither the sources nor which streams there are. -/
structure Within (s t : ScanSources B ε layers) : Prop where
  sources : t.sources = s.sources
  length : t.scans.length = s.scans.length
  oneBudget : OneBudget t

theorem Within.trans {u : ScanSources B ε layers} (h : Within s t) (h' : Within t u) :
    Within s u :=
  ⟨h'.sources.trans h.sources, h'.length.trans h.length, h'.oneBudget⟩

theorem within_setState (h : OneBudget s) (k : Nat) (state : SourceState B ε layers) :
    Within s (s.setState k state) where
  sources := rfl
  length := List.length_modify _ _ _
  oneBudget := by
    refine ⟨h.perSource, fun scan hscan => ?_⟩
    obtain ⟨j, hj⟩ := List.mem_iff_getElem?.1 hscan
    have hj : (s.scans.modify k fun scan => { scan with state })[j]? = some scan := hj
    rw [List.getElem?_modify] at hj
    obtain ⟨old, hold, rfl⟩ := Option.map_eq_some_iff.1 hj
    have hnone := h.scans old (List.mem_of_getElem? hold)
    split <;> exact hnone

theorem within_setStatus (h : OneBudget s) (id : Nat) (status : SourceStatus B) :
    Within s (s.setStatus id status) :=
  ⟨rfl, rfl, h.perSource, h.scans⟩

theorem within_budget (h : OneBudget s) (budget : Budget) (sampled : Bool) :
    Within s { s with budget, sampled } :=
  ⟨rfl, rfl, h.perSource, h.scans⟩

theorem next_setState (hk : k < s.scans.length) (state : SourceState B ε layers) :
    (s.setState k state).scans[k]?.map SourceScan.state = some state := by
  show (s.scans.modify k _)[k]?.map _ = _
  rw [List.getElem?_modify, List.getElem?_eq_getElem hk]
  simp

theorem next_done (hk : k < s.scans.length) :
    (s.setState k .done).next k = (none, s.setState k .done) := by
  unfold next
  rw [next_setState hk]

theorem next_splitting (hk : k < s.scans.length) (chunks : List (Chunk B ε layers))
    (ending : Ending ε) (id : Nat) :
    (s.setState k (.splitting chunks ending id)).next k =
      (s.setState k (.splitting chunks ending id)).nextChunk k ending id chunks := by
  unfold next
  rw [next_setState hk]

theorem gives_done {s₀ : ScanSources B ε layers} (h : s₀.next k = (none, t)) :
    Gives (scanCalls B ε P layers) k s₀ [] t :=
  .done (by
    show ((s₀.next k).1.map Except.ok, (s₀.next k).2) = (none, t)
    rw [h]
    rfl)

theorem gives_item {s₀ u : ScanSources B ε layers} {item : ScanItem B ε layers}
    {items : List (ScanItem B ε layers)} (h : s₀.next k = (some item, t))
    (rest : Gives (scanCalls B ε P layers) k t (items.map .ok) u) :
    Gives (scanCalls B ε P layers) k s₀ ((item :: items).map .ok) u :=
  .item (by
    show ((s₀.next k).1.map Except.ok, (s₀.next k).2) = (some (.ok item), t)
    rw [h]
    rfl) rest

theorem sharesOut_nil (hbudget : s.budget = ⟨some left, false⟩) (hsampled : t.sampled = s.sampled)
    (hsame : t.budget = s.budget) {items : List (ScanItem B ε layers)}
    (hitems : ∀ item ∈ items, ∃ error, item = .error error) : SharesOut left [] items s t where
  items_eq := by
    rw [List.take_nil, List.flatMap_eq_nil_iff]
    intro item hitem
    obtain ⟨error, rfl⟩ := hitems item hitem
    rfl
  shares item hitem chunk share heq := by
    obtain ⟨error, rfl⟩ := hitems item hitem
    cases heq
  sampled := by simp [hsampled]
  usedUp := by simp [hsame, hbudget]
  left_eq _ := by simp [hsame, hbudget]

theorem nextChunk_usedUp (h : (s.budgetOf k).usedUp = true) (ending : Ending ε) (id : Nat)
    (chunks : List (Chunk B ε layers)) :
    s.nextChunk k ending id chunks = (none, s.setState k .done) :=
  if_pos h

theorem nextChunk_nil (h : (s.budgetOf k).usedUp = false) (ending : Ending ε) (id : Nat) :
    s.nextChunk k ending id [] =
      match ending with
      | .done => (none, s.setState k .done)
      | .noFeatures => (none, (s.setStatus id .skipped).setState k .done)
      | .failed error => (some (.error error), s.setState k .done) :=
  if_neg (by rw [h]; exact Bool.false_ne_true)

theorem nextChunk_none (hone : OneBudget s) (hbudget : s.budget = ⟨some 0, false⟩)
    (ending : Ending ε) (id : Nat) (chunk : Chunk B ε layers) (chunks : List (Chunk B ε layers)) :
    s.nextChunk k ending id (chunk :: chunks) =
      (none, { s with budget := ⟨some 0, true⟩, sampled := true }.setState k .done) := by
  unfold nextChunk share
  rw [budgetOf_eq hone, hbudget, if_neg Bool.false_ne_true]
  show (none, setState { s.setBudget k ⟨some 0, true⟩ with sampled := s.sampled || true } k .done) = _
  rw [setBudget_eq hone, Bool.or_true]

/-- A chunk that gets a share. -/
theorem nextChunk_some (hone : OneBudget s) (hbudget : s.budget = ⟨some left, false⟩)
    (hleft : left ≠ 0) (ending : Ending ε) (id : Nat) (chunk : Chunk B ε layers)
    (chunks : List (Chunk B ε layers)) :
    s.nextChunk k ending id (chunk :: chunks) =
      (some (.ok (chunk, some (min chunk.features left))),
        { s with
          budget := ⟨some (left - min chunk.features left), decide (left < chunk.features)⟩
          sampled := s.sampled || decide (left < chunk.features) }.setState k
          (.splitting chunks ending id)) := by
  have hless : decide (min chunk.features left < chunk.features) =
      decide (left < chunk.features) := by
    rw [decide_eq_decide]
    omega
  unfold nextChunk share
  rw [budgetOf_eq hone, hbudget, if_neg Bool.false_ne_true]
  unfold Budget.share
  dsimp only
  rw [if_neg hleft]
  dsimp only
  rw [setBudget_eq hone, hless, Bool.false_or]

/-- One chunk's share. -/
theorem sharesOut_chunk (chunk : Chunk B ε layers) (left : Nat) (hk : k < s.scans.length)
    (state : SourceState B ε layers) :
    SharesOut left chunk.starts [.ok (chunk, some (min chunk.features left))] s
      ({ s with
        budget := ⟨some (left - min chunk.features left), decide (left < chunk.features)⟩
        sampled := s.sampled || decide (left < chunk.features) }.setState k state) := by
  have hcounted : chunk.starts.length = chunk.features := chunk.counted.symm
  refine ⟨?_, fun item hitem other share heq => ?_, ?_, ?_, fun hle => ?_⟩
  · rw [List.flatMap_cons, List.flatMap_nil, List.append_nil]
    show chunk.starts.take (min chunk.features left) = _
    rw [← hcounted, Nat.min_comm, ← List.take_eq_take_min]
  · rw [List.mem_singleton.1 hitem] at heq
    cases heq
    rfl
  · rw [hcounted]
    rfl
  · rw [hcounted]
    rfl
  · show some (left - min chunk.features left) = _
    rw [Nat.min_eq_left (by omega), hcounted]

/-- The chunks a stream is still to split. -/
theorem gives_chunks (ending : Ending ε) (id : Nat) (chunks : List (Chunk B ε layers))
    (hk : k < s.scans.length) (hone : OneBudget s) (hbudget : s.budget = ⟨some left, false⟩)
    {s₀ : ScanSources B ε layers} (hs₀ : s₀.next k = s.nextChunk k ending id chunks) :
    ∃ items t, Gives (scanCalls B ε P layers) k s₀ (items.map .ok) t ∧ Within s t ∧
      SharesOut left (chunks.flatMap Chunk.starts) items s t := by
  induction chunks generalizing s s₀ left with
  | nil =>
    rw [nextChunk_nil (by rw [budgetOf_eq hone, hbudget])] at hs₀
    have hnone : ∀ {t : ScanSources B ε layers} {items : List (ScanItem B ε layers)},
        t.sampled = s.sampled → t.budget = s.budget →
        (∀ item ∈ items, ∃ error, item = .error error) → SharesOut left [] items s t :=
      fun hsampled hsame hitems => sharesOut_nil hbudget hsampled hsame hitems
    rw [List.flatMap_nil]
    cases ending with
    | done =>
      exact ⟨[], _, gives_done hs₀, within_setState hone k _, hnone rfl rfl nofun⟩
    | noFeatures =>
      exact ⟨[], _, gives_done hs₀, (within_setStatus hone id .skipped).trans
        (within_setState (within_setStatus hone id .skipped).oneBudget k _), hnone rfl rfl nofun⟩
    | failed error =>
      refine ⟨[.error error], _, gives_item hs₀ (gives_done (next_done hk)),
        within_setState hone k _, hnone rfl rfl fun item hitem => ?_⟩
      exact ⟨error, List.mem_singleton.1 hitem⟩
  | cons chunk chunks ih =>
    have hcounted : chunk.starts.length = chunk.features := chunk.counted.symm
    have hsome := chunk.nonempty
    rw [List.flatMap_cons]
    by_cases hleft : left = 0
    · subst hleft
      rw [nextChunk_none hone hbudget] at hs₀
      have hwithin := within_budget hone ⟨some 0, true⟩ true
      refine ⟨[], _, gives_done hs₀, hwithin.trans (within_setState hwithin.oneBudget k _),
        SharesOut.enough
          ⟨rfl, fun item hitem => absurd hitem List.not_mem_nil, ?_, ?_, fun hle => ?_⟩ (by omega) _⟩
      · rw [decide_eq_true (by omega), Bool.or_true]
        rfl
      · rw [decide_eq_true (by omega)]
        rfl
      · omega
    · rw [nextChunk_some hone hbudget hleft] at hs₀
      have hwithin := within_budget hone
        ⟨some (left - min chunk.features left), decide (left < chunk.features)⟩
        (s.sampled || decide (left < chunk.features))
      have hsplitting := hwithin.trans
        (within_setState hwithin.oneBudget k (.splitting chunks ending id))
      have hk' := hk
      rw [← hsplitting.length] at hk'
      have hnext := next_splitting (s := { s with
        budget := ⟨some (left - min chunk.features left), decide (left < chunk.features)⟩
        sampled := s.sampled || decide (left < chunk.features) }) hk chunks ending id
      have hshared := sharesOut_chunk (s := s) chunk left hk (.splitting chunks ending id)
      by_cases hless : left < chunk.features
      · -- The chunk is cut: the stream is asked once more, and ends.
        rw [nextChunk_usedUp (by
          rw [budgetOf_eq hsplitting.oneBudget]
          exact decide_eq_true hless)] at hnext
        have hcut := hshared.enough (by omega) (chunks.flatMap Chunk.starts)
        exact ⟨[.ok (chunk, some (min chunk.features left))], _,
          gives_item hs₀ (gives_done hnext),
          hsplitting.trans (within_setState hsplitting.oneBudget k .done),
          ⟨hcut.items_eq, hcut.shares, hcut.sampled, hcut.usedUp, hcut.left_eq⟩⟩
      · have hbudget' : Budget.mk (some (left - min chunk.features left))
            (decide (left < chunk.features)) = ⟨some (left - chunk.starts.length), false⟩ := by
          rw [decide_eq_false hless, Nat.min_eq_left (by omega), hcounted]
        obtain ⟨items, t, hgives, hwithin', hshares⟩ := ih hk' hsplitting.oneBudget hbudget' hnext
        exact ⟨.ok (chunk, some (min chunk.features left)) :: items, t, gives_item hs₀ hgives,
          hsplitting.trans hwithin', hshared.append (by omega) hshares⟩

/-- Where a stream is that was just given. -/
def startState (id : Nat) : Except ε (Source B ε layers) → SourceState B ε layers
  | .ok source => .unopened source id
  | .error error => .failed error

theorem nextStream_cons {source : Except ε (Source B ε layers)}
    {sources : List (Except ε (Source B ε layers))} (hfree : s.budget.usedUp = false)
    (hsources : s.sources = source :: sources) :
    ∃ opened, s.nextStream = (some (), { s with
      sources
      opened
      scans := s.scans ++ [⟨s.perSource.map fun maxFeatures => .new (some maxFeatures),
        startState s.opened.length source⟩] }) := by
  unfold nextStream
  rw [hfree, if_neg Bool.false_ne_true]
  cases source with
  | ok source =>
    refine ⟨s.opened ++ [⟨source.name, .pending⟩], ?_⟩
    simp only [hsources]
    rfl
  | error error =>
    refine ⟨s.opened, ?_⟩
    simp only [hsources]
    rfl

/-- A stream, from when it is opened. -/
theorem gives_stream (hk : k < s.scans.length) (hone : OneBudget s)
    (hbudget : s.budget = ⟨some left, false⟩) {scan : SourceScan B ε layers}
    (hscan : s.scans[k]? = some scan) {source : Except ε (Source B ε layers)} {id : Nat}
    (hstate : scan.state = startState id source) :
    ∃ items t, Gives (scanCalls B ε P layers) k s (items.map .ok) t ∧ Within s t ∧
      SharesOut left (source.toOption.elim [] Source.starts) items s t := by
  have hnone : ∀ {t : ScanSources B ε layers} {items : List (ScanItem B ε layers)},
      t.sampled = s.sampled → t.budget = s.budget →
      (∀ item ∈ items, ∃ error, item = .error error) → SharesOut left [] items s t :=
    fun hsampled hsame hitems => sharesOut_nil hbudget hsampled hsame hitems
  have hfails : ∀ error, s.next k = (some (.error error), s.setState k .done) →
      ∃ items t, Gives (scanCalls B ε P layers) k s (items.map .ok) t ∧ Within s t ∧
        SharesOut left [] items s t := by
    intro error hnext
    refine ⟨[.error error], _, gives_item hnext (gives_done (next_done hk)),
      within_setState hone k _, hnone rfl rfl fun item hitem => ?_⟩
    exact ⟨error, List.mem_singleton.1 hitem⟩
  cases source with
  | error error =>
    refine hfails error ?_
    unfold next
    rw [hscan, Option.map_some, hstate]
    rfl
  | ok source =>
    have hstate : scan.state = .unopened source id := hstate
    show ∃ items t, _ ∧ _ ∧ SharesOut left source.starts items s t
    cases hopening : source.opening with
    | failed error =>
      have hstarts : source.starts = [] := by rw [Source.starts, hopening]
      rw [hstarts]
      refine hfails error ?_
      unfold next
      rw [hscan, Option.map_some, hstate]
      dsimp only
      rw [hopening]
    | noFeatures =>
      have hstarts : source.starts = [] := by rw [Source.starts, hopening]
      have hnext : s.next k = (none, (s.setStatus id .skipped).setState k .done) := by
        unfold next
        rw [hscan, Option.map_some, hstate]
        dsimp only
        rw [hopening]
      rw [hstarts]
      exact ⟨[], _, gives_done hnext, (within_setStatus hone id .skipped).trans
        (within_setState (within_setStatus hone id .skipped).oneBudget k _),
        hnone rfl rfl nofun⟩
    | read header chunks ending =>
      have hsome : source.starts = chunks.flatMap Chunk.starts := by
        rw [Source.starts, hopening]
      have hnext : s.next k = (s.setStatus id (.read header)).nextChunk k ending id chunks := by
        unfold next
        rw [hscan, Option.map_some, hstate]
        dsimp only
        rw [hopening]
      have hwithin := within_setStatus hone id (.read header)
      obtain ⟨items, t, hgives, hwithin', hshares⟩ :=
        gives_chunks ending id chunks (s := s.setStatus id (.read header)) hk hwithin.oneBudget
          hbudget hnext
      rw [hsome]
      exact ⟨items, t, hgives, hwithin.trans hwithin',
        ⟨hshares.items_eq, hshares.shares, hshares.sampled, hshares.usedUp, hshares.left_eq⟩⟩

/-- All streams of a scan, one after another. -/
theorem opens_sources (sources : List (Except ε (Source B ε layers))) (hone : OneBudget s)
    (hbudget : s.budget = ⟨some left, false⟩) (hsources : s.sources = sources) :
    ∃ (given : List (List (ScanItem B ε layers))) (t : ScanSources B ε layers),
      Opens (scanCalls B ε P layers) s.scans.length s
        (given.map fun items => .ok (items.map .ok)) t ∧
      SharesOut left (startsOf sources) given.flatten s t := by
  induction sources generalizing s left with
  | nil =>
    have hnext : s.nextStream = (none, s) := by
      unfold nextStream
      rw [hbudget, hsources]
      rfl
    refine ⟨[], s, .done ?_, sharesOut_nil hbudget rfl rfl nofun⟩
    show (s.nextStream.1.map Except.ok, s.nextStream.2) = (none, s)
    rw [hnext]
    rfl
  | cons source sources ih =>
    obtain ⟨opened, hnext⟩ := nextStream_cons (by rw [hbudget]) hsources
    generalize hscan : SourceScan.mk (s.perSource.map _) (startState s.opened.length source) = scan
      at hnext
    have hbudgetless : scan.budget = none := by
      rw [← hscan]
      show s.perSource.map _ = none
      rw [hone.perSource]
      rfl
    have hstate : scan.state = startState s.opened.length source := by rw [← hscan]
    have hone₁ : OneBudget { s with sources, opened, scans := s.scans ++ [scan] } := by
      refine ⟨hone.perSource, fun other hother => ?_⟩
      rcases List.mem_append.1 hother with hother | hother
      · exact hone.scans other hother
      · rw [List.mem_singleton.1 hother, hbudgetless]
    have hlength : (s.scans ++ [scan]).length = s.scans.length + 1 := by simp
    obtain ⟨items, t, hgives, hwithin, hshares⟩ := gives_stream (P := P)
      (s := { s with sources, opened, scans := s.scans ++ [scan] }) (k := s.scans.length)
      (by rw [hlength]; omega) hone₁ hbudget List.getElem?_concat_length hstate
    have hfirst : SharesOut left (source.toOption.elim [] Source.starts) items s t :=
      ⟨hshares.items_eq, hshares.shares, hshares.sampled, hshares.usedUp, hshares.left_eq⟩
    have hcall : (scanCalls B ε P layers).nextStream s =
        (some (.ok ()), { s with sources, opened, scans := s.scans ++ [scan] }) := by
      show (s.nextStream.1.map Except.ok, s.nextStream.2) = _
      rw [hnext]
      rfl
    have hcount : t.scans.length = s.scans.length + 1 := hwithin.length.trans hlength
    rw [startsOf, List.flatMap_cons]
    by_cases hless : left < (source.toOption.elim [] Source.starts).length
    · -- The budget is used up: no other source is opened.
      have hlast : t.nextStream = (none, t) := by
        unfold nextStream
        rw [hshares.usedUp, decide_eq_true hless]
        rfl
      refine ⟨[items], t, .stream hcall hgives (.done ?_), ?_⟩
      · show (t.nextStream.1.map Except.ok, t.nextStream.2) = (none, t)
        rw [hlast]
        rfl
      · rw [List.flatten_cons, List.flatten_nil, List.append_nil]
        exact hfirst.enough hless _
    · have hrest : t.budget =
          ⟨some (left - (source.toOption.elim [] Source.starts).length), false⟩ := by
        have hused := hshares.usedUp
        rw [decide_eq_false hless] at hused
        rw [← hshares.left_eq (by omega), ← hused]
      obtain ⟨given, u, hopens, hmore⟩ := ih hwithin.oneBudget hrest hwithin.sources
      rw [hcount] at hopens
      exact ⟨items :: given, u, .stream hcall hgives hopens, hfirst.append (by omega) hmore⟩

end ScanSources

/-! ## What the workers collect -/

section

variable [Merge V] [Merge G] [Merge B] {stats : Statistics V G B S ε} {limits : Limits}

theorem scanItem_cases {collected collected' : Partial V G B ε} {item : ScanItem B ε layers}
    {breaks : Bool} (h : scanItem (P := P) stats limits layers collected item =
      .ok (collected', breaks)) :
    (∃ chunk share o rest, item = .ok (chunk, share) ∧
      scanChunk stats limits layers chunk.read chunk.boundedBy share = .ok (o, rest) ∧
      breaks = false ∧
      collected' = { collected with observation := collected.observation.merge o }) ∨
    ∃ error, breaks = true ∧ collected' = { collected with error := some error } := by
  unfold scanItem at h
  cases item with
  | error error =>
    cases h
    exact .inr ⟨error, rfl, rfl⟩
  | ok item =>
    obtain ⟨chunk, share⟩ := item
    cases hscan : scanChunk stats limits layers chunk.read chunk.boundedBy share with
    | error error =>
      simp only [Except.bind, hscan] at h
      cases h
      exact .inr ⟨error, rfl, rfl⟩
    | ok scanned =>
      obtain ⟨o, rest⟩ := scanned
      simp only [Except.bind, hscan] at h
      cases h
      exact .inl ⟨chunk, share, o, rest, rfl, hscan, rfl, rfl⟩

theorem scanItem_marks : Fold.Marks endsInput (scanItem (P := P) stats limits layers)
    fun collected => collected.error.isSome = true where
  keeps collected item collected' breaks h hbad := by
    rcases scanItem_cases h with ⟨-, -, -, -, -, -, -, rfl⟩ | ⟨error, -, rfl⟩
    · exact hbad
    · rfl
  breaks collected item collected' h := by
    rcases scanItem_cases h with ⟨-, -, -, -, -, -, hbreaks, -⟩ | ⟨error, -, rfl⟩
    · cases hbreaks
    · rfl
  ends collected item collected' breaks hends h := by
    rcases scanItem_cases h with ⟨chunk, share, -, -, rfl, -⟩ | ⟨error, -, rfl⟩
    · cases hends
    · rfl

/-- What a worker has collected is a merge of scans of what it took. -/
theorem collected_merges {items : List (ScanItem B ε layers)} {collected collected' : Partial V G B ε}
    (hfold : Fold.foldItems (scanItem (P := P) stats limits layers) collected items =
      some collected') (hnone : collected'.error = none)
    (hshares : ∀ item ∈ items, ∀ chunk share, item = .ok (chunk, share) → share.isSome = true)
    {m : Merges V G B ε} (hm : m.observe stats limits layers = .ok collected.observation) :
    ∃ m' : Merges V G B ε, m'.observe stats limits layers = .ok collected'.observation ∧
      (m'.features layers).map Except.ok =
        (m.features layers).map Except.ok ++ items.flatMap sharedOut := by
  induction items generalizing collected m with
  | nil =>
    cases hfold
    exact ⟨m, hm, by rw [List.flatMap_nil, List.append_nil]⟩
  | cons item items ih =>
    obtain ⟨next, breaks, hstep, hrest⟩ := Fold.foldItems_cons hfold
    rcases scanItem_cases hstep with ⟨chunk, share, o, rest, rfl, hscan, -, rfl⟩ | ⟨error, -, rfl⟩
    · obtain ⟨n, rfl⟩ := Option.isSome_iff_exists.1
        (hshares _ List.mem_cons_self chunk share rfl)
      have hmerged : (Merges.merge m (.scan chunk.read chunk.boundedBy (some n))).observe
          stats limits layers = .ok (collected.observation.merge o) := by
        rw [Merges.observe, hm, Merges.observe, hscan]
        rfl
      obtain ⟨m', hm', hfeatures⟩ := ih hrest
        (fun item hitem => hshares item (List.mem_cons_of_mem _ hitem)) hmerged
      refine ⟨m', hm', ?_⟩
      obtain ⟨inherited, -, hscan⟩ := bind_eq_ok.1 hscan
      obtain ⟨⟨builder, budget, stopped⟩, hscan, -⟩ := bind_eq_ok.1 hscan
      rw [hfeatures, Merges.features, Merges.features, List.map_append, features_of_scan hscan,
        List.flatMap_cons, List.append_assoc]
      rfl
    · have hbad := Fold.foldItems_marked scanItem_marks hrest (.inl rfl)
      rw [hnone] at hbad
      cases hbad

/-- The whole observation is a merge of scans of what was shared out. -/
theorem partials_merge {partials : List (Partial V G B ε)}
    {parts : List (List (ScanItem B ε layers))} (hlength : partials.length = parts.length)
    (hfolds : ∀ (i : Nat) (collected : Partial V G B ε) (part : List (ScanItem B ε layers)),
      partials[i]? = some collected → parts[i]? = some part →
      Fold.foldItems (scanItem (P := P) stats limits layers) {} part = some collected)
    (hnone : ∀ collected ∈ partials, collected.error = none)
    (hshares : ∀ item ∈ parts.flatten, ∀ chunk share, item = .ok (chunk, share) →
      share.isSome = true)
    {total : DatasetObservation V G B} {m : Merges V G B ε}
    (hm : m.observe stats limits layers = .ok total) :
    ∃ m' : Merges V G B ε, m'.observe stats limits layers =
        .ok (partials.foldl (fun total collected => total.merge collected.observation) total) ∧
      (m'.features layers).map Except.ok =
        (m.features layers).map Except.ok ++ parts.flatten.flatMap sharedOut := by
  induction partials generalizing parts total m with
  | nil =>
    cases parts with
    | nil => exact ⟨m, hm, by rw [List.flatten_nil, List.flatMap_nil, List.append_nil]⟩
    | cons part parts => cases hlength
  | cons collected partials ih =>
    cases parts with
    | nil => cases hlength
    | cons part parts =>
      obtain ⟨m₁, hm₁, hfeatures₁⟩ := collected_merges (hfolds 0 collected part rfl rfl)
        (hnone collected List.mem_cons_self)
        (fun item hitem => hshares item (List.mem_append_left _ hitem))
        (m := .headers {} rfl) rfl
      have hmerged : (Merges.merge m m₁).observe stats limits layers =
          .ok (total.merge collected.observation) := by
        rw [Merges.observe, hm, hm₁]
        rfl
      obtain ⟨m', hm', hfeatures⟩ := ih (Nat.succ.inj hlength)
        (fun i => hfolds (i + 1)) (fun other hother => hnone other (List.mem_cons_of_mem _ hother))
        (fun item hitem => hshares item (List.mem_append_right _ hitem)) hmerged
      refine ⟨m', hm', ?_⟩
      rw [hfeatures, Merges.features, List.map_append, hfeatures₁, List.flatten_cons,
        List.flatMap_append, List.append_assoc]
      rfl

omit [Merge V] [Merge G] [Merge B] in
/-- What the headers say has no layers. -/
theorem noteSource_layers (opened : List (OpenedSource B)) (total : DatasetObservation V G B) :
    (opened.foldl noteSource total).layers = total.layers := by
  induction opened generalizing total with
  | nil => rfl
  | cons source opened ih =>
    rw [List.foldl_cons, ih]
    unfold noteSource
    cases source.status with
    | read header =>
      show (notePrefixes total header.namespaces).layers = _
      unfold notePrefixes
      refine layers_foldl (fun o entry => ?_) _ _
      obtain ⟨pre, uri⟩ := entry
      cases pre with
      | none => rfl
      | some pre => exact layers_notePrefix o uri pre
    | skipped => rfl
    | pending => rfl

/-- What `run` returns when nothing has failed. -/
theorem collect_ok {s : ScanSources B ε layers} {partials : List (Partial V G B ε)}
    {o : DatasetObservation V G B} (h : collect layers s partials = .ok o) :
    (∀ collected ∈ partials, collected.error = none) ∧
      o = { partials.foldl (fun total collected => total.merge collected.observation)
        (s.opened.foldl noteSource {}) with sampled := s.sampled } := by
  unfold collect at h
  cases hnone : partials.findSome? Partial.error with
  | some error =>
    rw [hnone] at h
    cases h
  | none =>
    rw [hnone] at h
    refine ⟨List.findSome?_eq_none_iff.1 hnone, ?_⟩
    dsimp only at h
    split at h
    · cases h
    · exact (Except.ok.inj h).symm

/-- What `collect` makes of parts that are together what was shared out. -/
theorem collect_merges {s : ScanSources B ε layers} {partials : List (Partial V G B ε)}
    {o : DatasetObservation V G B} (h : collect layers s partials = .ok o)
    {parts : List (List (ScanItem B ε layers))} (hlength : partials.length = parts.length)
    (hfolds : ∀ (i : Nat) (collected : Partial V G B ε) (part : List (ScanItem B ε layers)),
      partials[i]? = some collected → parts[i]? = some part →
      Fold.foldItems (scanItem (P := P) stats limits layers) {} part = some collected)
    {given : List (ScanItem B ε layers)} (hgiven : parts.flatten.Perm given)
    {left : Nat} {starts : List (Except ε (Element ε))} {s₀ : ScanSources B ε layers}
    (hshares : SharesOut left starts given s₀ s) (hsampled : s₀.sampled = false) :
    (o.sampled = true ↔ left < starts.length) ∧
      ∃ (m : Merges V G B ε) (o' : DatasetObservation V G B),
        m.observe stats limits layers = .ok o' ∧ o = { o' with sampled := o.sampled } ∧
        ((m.features layers).map Except.ok).Perm (starts.take left) := by
  obtain ⟨hnone, rfl⟩ := collect_ok h
  obtain ⟨m, hm, hfeatures⟩ := partials_merge hlength hfolds hnone
    (fun item hitem => hshares.shares item (hgiven.mem_iff.1 hitem))
    (m := .headers (s.opened.foldl noteSource {}) (noteSource_layers s.opened {})) rfl
  constructor
  · show s.sampled = true ↔ _
    rw [hshares.sampled, hsampled, Bool.false_or, decide_eq_true_iff]
  · refine ⟨m, _, hm, rfl, ?_⟩
    rw [hfeatures, ← hshares.items_eq]
    exact hgiven.flatMap_right _

end

/-- A file of two features in one chunk, `<F/><F/>`. -/
def twoFeatures : List (Except Unit (Source Unit Unit none)) :=
  [.ok {
    name := utf8 "two.gml"
    opening := .read { namespaces := .new, context := {} }
      [{
        read := {
          source := 0
          firstFeatureSeq := 0
          namespaces := .new
          body := elementAt 0x46 10 .done (elementAt 0x46 20 .done .done)
          ascending := by decide }
        boundedBy := .ok {}
        features := 2
        counted := by decide
        nonempty := by decide }]
      .done }]

/-- Worker 0 scans the share of the chunk, then worker 1 finds the input used up. -/
def twoFeaturesEvents : List (FoldEvent Unit) :=
  [.work 0, .help 0 (.ok false)] ++ List.replicate 14 (.work 0) ++ [.help 0 (.ok false)] ++
    List.replicate 21 (.work 0) ++ [.work 1, .help 1 (.ok false)] ++ List.replicate 4 (.work 1)

end Xeibe.Schema

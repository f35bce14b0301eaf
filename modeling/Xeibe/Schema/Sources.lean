import Xeibe.Core.Parallel.Shared
import Xeibe.Schema.Occurrences

/-!
# The sources of a scan

`Scanner::run` of `xeibe-schema/src/scan.rs`: every source is a stream of its chunks, each with
its share of a sampled scan's budget, and the workers of a `fold` scan them.  The budget, the
statuses of the sources and the mark that a scan was sampled are the state the streams share.

Left out: the evidence of GML versions, and decoding ahead.
-/

namespace Xeibe.Schema

open Lib Parallel

variable {V G B S ε P : Type}

/-! ## Chunks -/

/-- The start tags of a chunk's features, each with what follows it; one that cannot be read
is its error. -/
def Body.starts (layers : Option (List QName)) : Body ε → List (Except ε (Element ε))
  | .done => []
  | .text _ rest => rest.starts layers
  | .unreadable _ _ => []
  | .broken _ => []
  | .element (.error error) _ rest => .error error :: rest.starts layers
  | .element (.ok tag) inner rest =>
    if layers.any fun layers => !layers.contains tag.name then rest.starts layers
    else .ok (tag, inner) :: rest.starts layers

/-- A chunk as the splitter of a scan of `layers` cuts it: `FeatureChunk::features` counts the
features in its bytes, and there is at least one. -/
structure Chunk (B ε : Type) (layers : Option (List QName)) where
  read : Features ε
  /-- What the collection's `boundedBy` reads as. -/
  boundedBy : Except ε (Inherited B)
  features : Nat
  counted : features = (read.body.starts layers).length
  nonempty : 0 < features

/-- The features of a chunk. -/
def Chunk.starts {layers : Option (List QName)} (chunk : Chunk B ε layers) :
    List (Except ε (Element ε)) :=
  chunk.read.body.starts layers

/-! ## Sources -/

/-- `SourceHeader`. -/
structure SourceHeader (B : Type) where
  namespaces : NamespaceContext
  context : SourceContext B

/-- What the splitter gives after its last chunk. -/
inductive Ending (ε : Type) where
  | done
  /-- The root was read, but nothing in it holds features. -/
  | noFeatures
  | failed (error : ε)

/-- What opening a source and reading its header comes to, and the chunks of its splitter. -/
inductive Opening (B ε : Type) (layers : Option (List QName)) where
  | failed (error : ε)
  | noFeatures
  | read (header : SourceHeader B) (chunks : List (Chunk B ε layers)) (ending : Ending ε)

structure Source (B ε : Type) (layers : Option (List QName)) where
  name : Bytes
  opening : Opening B ε layers

/-- `SourceStatus`. -/
inductive SourceStatus (B : Type) where
  | pending
  | read (header : SourceHeader B)
  | skipped

structure OpenedSource (B : Type) where
  name : Bytes
  status : SourceStatus B

/-- `SourceState`. -/
inductive SourceState (B ε : Type) (layers : Option (List QName)) where
  | unopened (source : Source B ε layers) (id : Nat)
  | splitting (chunks : List (Chunk B ε layers)) (ending : Ending ε) (id : Nat)
  | failed (error : ε)
  | done

/-! ## The budget -/

/-- `ScanExtent`. -/
inductive ScanExtent where
  | full
  | sample (maxFeatures : Nat)
  | samplePerSource (maxFeatures : Nat)
  deriving DecidableEq

structure Budget where
  /-- Features left; `none`: no limit. -/
  left : Option Nat
  /-- Nothing more is taken. -/
  usedUp : Bool
  deriving DecidableEq

def Budget.new (left : Option Nat) : Budget := ⟨left, false⟩

/-- A chunk's share of the budget, the budget after it, and whether the scan is sampled now. -/
def Budget.share (budget : Budget) (features : Nat) : Option (Option Nat) × Budget × Bool :=
  match budget.left with
  | none => (some none, budget, false)
  | some left =>
    if left = 0 then (none, { budget with usedUp := true }, true)
    else
      let take := min features left
      (some (some take),
        { left := some (left - take), usedUp := budget.usedUp || decide (take < features) },
        decide (take < features))

/-- `SourceScan`: the budget is the source's own, or the input's. -/
structure SourceScan (B ε : Type) (layers : Option (List QName)) where
  budget : Option Budget
  state : SourceState B ε layers

/-- `ScanSources`, what its streams share, and the streams it has given. -/
structure ScanSources (B ε : Type) (layers : Option (List QName)) where
  sources : List (Except ε (Source B ε layers))
  opened : List (OpenedSource B)
  budget : Budget
  perSource : Option Nat
  sampled : Bool
  scans : List (SourceScan B ε layers)

/-- What the streams give. -/
abbrev ScanItem (B ε : Type) (layers : Option (List QName)) :=
  Except ε (Chunk B ε layers × Option Nat)

namespace ScanSources

variable {layers : Option (List QName)} (s : ScanSources B ε layers)

def new (extent : ScanExtent) (sources : List (Except ε (Source B ε layers))) :
    ScanSources B ε layers where
  sources := sources
  opened := []
  budget := .new (match extent with
    | .sample maxFeatures => some maxFeatures
    | _ => none)
  perSource := match extent with
    | .samplePerSource maxFeatures => some maxFeatures
    | _ => none
  sampled := false
  scans := []

def setState (k : Nat) (state : SourceState B ε layers) : ScanSources B ε layers :=
  { s with scans := s.scans.modify k fun scan => { scan with state } }

/-- `set_status`. -/
def setStatus (id : Nat) (status : SourceStatus B) : ScanSources B ε layers :=
  { s with opened := s.opened.modify id fun source => { source with status } }

/-- The budget of the `k`th stream. -/
def budgetOf (k : Nat) : Budget := (s.scans[k]?.bind SourceScan.budget).getD s.budget

def setBudget (k : Nat) (budget : Budget) : ScanSources B ε layers :=
  if (s.scans[k]?.bind SourceScan.budget).isSome then
    { s with scans := s.scans.modify k fun scan => { scan with budget := some budget } }
  else { s with budget }

/-- `ScanSources::next_stream`. -/
def nextStream : Option Unit × ScanSources B ε layers :=
  if s.budget.usedUp then (none, s)
  else match s.sources with
    | [] => (none, s)
    | .ok source :: sources =>
      (some (), { s with
        sources
        opened := s.opened ++ [⟨source.name, .pending⟩]
        scans := s.scans ++ [⟨s.perSource.map fun maxFeatures => .new (some maxFeatures),
          .unopened source s.opened.length⟩] })
    | .error error :: sources =>
      (some (), { s with
        sources
        scans := s.scans ++ [⟨s.perSource.map fun maxFeatures => .new (some maxFeatures),
          .failed error⟩] })

/-- `share`, for a chunk of the `k`th stream. -/
def share (k : Nat) (chunk : Chunk B ε layers) : Option (Option Nat) × ScanSources B ε layers :=
  let (share, budget, sampled) := (s.budgetOf k).share chunk.features
  (share, { s.setBudget k budget with sampled := s.sampled || sampled })

/-- `next`, where the stream is splitting. -/
def nextChunk (k : Nat) (ending : Ending ε) (id : Nat) (chunks : List (Chunk B ε layers)) :
    Option (ScanItem B ε layers) × ScanSources B ε layers :=
  if (s.budgetOf k).usedUp then (none, s.setState k .done)
  else match chunks with
    | chunk :: chunks =>
      let (share, shared) := s.share k chunk
      match share with
      | none => (none, shared.setState k .done)
      | some share =>
        (some (.ok (chunk, share)), shared.setState k (.splitting chunks ending id))
    | [] =>
      match ending with
      | .done => (none, s.setState k .done)
      | .noFeatures => (none, (s.setStatus id .skipped).setState k .done)
      | .failed error => (some (.error error), s.setState k .done)

/-- `SourceScan::next`, of the `k`th stream. -/
def next (k : Nat) : Option (ScanItem B ε layers) × ScanSources B ε layers :=
  match s.scans[k]?.map SourceScan.state with
  | none => (none, s)
  | some (.unopened source id) =>
    match source.opening with
    | .failed error => (some (.error error), s.setState k .done)
    | .noFeatures => (none, (s.setStatus id .skipped).setState k .done)
    | .read header chunks ending =>
      (s.setStatus id (.read header)).nextChunk k ending id chunks
  | some (.splitting chunks ending id) => s.nextChunk k ending id chunks
  | some (.failed error) => (some (.error error), s.setState k .done)
  | some .done => (none, s)

end ScanSources

/-- The calls of the streams; none of them panics. -/
def scanCalls (B ε P : Type) (layers : Option (List QName)) :
    Calls (ScanSources B ε layers) (ScanItem B ε layers) P where
  nextStream s := (s.nextStream.1.map .ok, s.nextStream.2)
  next k s := ((s.next k).1.map .ok, (s.next k).2)

/-- `ScanSources::ends_input`. -/
def endsInput {layers : Option (List QName)} : ScanItem B ε layers → Bool
  | .ok _ => false
  | .error _ => true

/-! ## Scanning -/

/-- What one worker of a scan collected. -/
structure Partial (V G B ε : Type) where
  observation : DatasetObservation V G B := {}
  error : Option ε := none

/-- Why a scan fails. -/
inductive ScanError (ε : Type) where
  | error (e : ε)
  /-- `Error::NoFeatures`, with the names of the sources. -/
  | noFeatures (sources : List Bytes)

variable [Merge V] [Merge G] [Merge B] (stats : Statistics V G B S ε) (limits : Limits)
  (layers : Option (List QName))

/-- `scan_item`. -/
def scanItem (collected : Partial V G B ε) (item : ScanItem B ε layers) :
    Except P (Partial V G B ε × Bool) :=
  let scanned := item.bind fun (chunk, share) =>
    scanChunk stats limits layers chunk.read chunk.boundedBy share
  match scanned with
  | .ok (observation, _) =>
    .ok ({ collected with observation := collected.observation.merge observation }, false)
  | .error error => .ok ({ collected with error := some error }, true)

/-- What the header of a source says. -/
def noteSource (total : DatasetObservation V G B) (source : OpenedSource B) :
    DatasetObservation V G B :=
  match source.status with
  | .read header =>
    let total := notePrefixes total header.namespaces
    { total with sourceContext := total.sourceContext ++ [header.context] }
  | .skipped =>
    { total with
      sourceContext := total.sourceContext ++ [{}]
      skippedSources := total.skippedSources ++ [source.name] }
  | .pending => { total with sourceContext := total.sourceContext ++ [{}] }

def OpenedSource.isRead (source : OpenedSource B) : Bool :=
  match source.status with
  | .read _ => true
  | _ => false

/-- `run`, after the fold. -/
def collect (s : ScanSources B ε layers) (partials : List (Partial V G B ε)) :
    Except (ScanError ε) (DatasetObservation V G B) :=
  let total := s.opened.foldl noteSource {}
  match partials.findSome? Partial.error with
  | some error => .error (.error error)
  | none =>
    let total := partials.foldl (fun total collected => total.merge collected.observation) total
    if !s.opened.any OpenedSource.isRead && !total.skippedSources.isEmpty then
      .error (.noFeatures total.skippedSources)
    else .ok { total with sampled := s.sampled }

/-- `max_open_streams`. -/
def maxOpenStreams (threads : Nat) : Nat := max 1 (min (threads / 2) 8)

/-- The options of the fold. -/
def foldOptions (threads : Nat) (extent : ScanExtent) : MapOptions where
  threads := threads
  inFlight := 0
  maxOpen := match extent with
    | .sample _ => 1
    | _ => maxOpenStreams threads
  preserveOrder := false

/-- `Scanner::run` returns `result`, on `threads` threads, after some interleaving of their
steps. -/
def Runs (P : Type) (threads : Nat) (extent : ScanExtent)
    (sources : List (Except ε (Source B ε layers)))
    (result : Except (ScanError ε) (DatasetObservation V G B)) : Prop :=
  if threads ≤ 1 then
    ∃ collected t, Alone (scanCalls B ε P layers) endsInput (scanItem stats limits layers) none
        0 (.new extent sources) {} (.ok collected) t ∧
      result = collect layers t [collected]
  else
    ∃ events s, run (SharedFold.next (scanCalls B ε P layers) (foldOptions threads extent)
        endsInput (scanItem stats limits layers))
        (SharedFold.new (foldOptions threads extent) {} (.new extent sources)) events = some s ∧
      s.fold.ended = true ∧ s.fold.caught = [] ∧ result = collect layers s.state s.fold.accs

end Xeibe.Schema

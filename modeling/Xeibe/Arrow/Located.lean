import Xeibe.Arrow.Pipeline
import Xeibe.Arrow.Relate
import Xeibe.Core.Splitter.Document

/-!
# Where a read says its features are

A chunk's features stand side by side in its bytes, but apart in the stream.  A
position inside a feature goes to its place in the stream; one just after it goes to
the next feature.  The entries of the location column are exact.  The location of an
error or a skip is the feature's own if its start tag ends before the feature does,
and its number is the feature's if the selector accepts all features before it.
-/

namespace Xeibe.Arrow

open Lib (ok_bind)

/-! ## Chunks -/

/-- A feature of a chunk, as written and as read.  One written as an empty-element tag
has no end tag. -/
structure ChunkFeature where
  tag : StartTag
  written : Bytes
  content : Body Fault
  close : Bytes
  /-- Where it starts in the decoded stream. -/
  offset : Nat
  started : written ≠ []
  closed : close = [] → content = .done

namespace ChunkFeature

def feature (f : ChunkFeature) : Feature where
  offset := f.offset
  bytes := f.written ++ (f.content.render ++ f.close)

def length (f : ChunkFeature) : Nat :=
  f.written.length + f.content.render.length + f.close.length

/-- Its entry in the location column. -/
def range (f : ChunkFeature) (source : Nat) : Nat × Nat × Nat :=
  (source, f.offset, f.offset + f.length)

theorem length_bytes (f : ChunkFeature) : f.feature.bytes.length = f.length := by
  simp only [feature, length, List.length_append]
  omega

theorem length_pos (f : ChunkFeature) : 0 < f.length := by
  have h := List.length_pos_iff.mpr f.started
  simp only [length]
  omega

end ChunkFeature

def lengthOf (features : List ChunkFeature) : Nat := (features.map ChunkFeature.length).sum

theorem length_flatMap (features : List ChunkFeature) :
    ((features.map ChunkFeature.feature).flatMap Feature.bytes).length = lengthOf features := by
  induction features with
  | nil => rfl
  | cons f features ih =>
    simp only [List.map_cons, List.flatMap_cons, List.length_append, ih, f.length_bytes, lengthOf,
      List.sum_cons]

/-- The reader fails at positions inside the feature it reads. -/
def FaultsInside : Nat → List ChunkFeature → Prop
  | _, [] => True
  | position, f :: rest =>
    (∀ e ∈ f.content.errors, position ≤ e.position ∧ e.position < position + f.length) ∧
      FaultsInside (position + f.length) rest

/-- A chunk and its features.  `before` features were emitted before them, and in the
stream each ends before the next starts. -/
structure Laid where
  chunk : FeatureChunk
  features : List ChunkFeature
  before : Nat
  describes : Describes before (features.map ChunkFeature.feature) chunk
  apart : features.Pairwise fun f g => f.offset + f.length ≤ g.offset
  faults : FaultsInside 0 features

/-- What the reader reads of them. -/
def bodyOf : List ChunkFeature → Body Fault
  | [] => .done
  | f :: rest => .element (.ok f.tag) f.written f.content f.close (bodyOf rest)

/-! ## Offsets -/

theorem le_inChunk {start : Nat} {features : List Feature} {o : FeatureOffset}
    (h : o ∈ offsetsFrom start features) : start ≤ o.inChunk := by
  induction features generalizing start with
  | nil => cases h
  | cons f features ih =>
    rcases List.mem_cons.mp h with rfl | h
    · exact Nat.le_refl _
    · exact (Nat.le_add_right ..).trans (ih h)

/-- The last feature that starts at or before a position in a feature, or after the last
one, is that one. -/
theorem takeWhile_offsets (start : Nat) (before : List Feature) (f : Feature)
    (after : List Feature) {k : Nat} (hk : k < f.bytes.length ∨ after = []) :
    ((offsetsFrom start (before ++ f :: after)).takeWhile fun o =>
        o.inChunk ≤ start + (before.flatMap Feature.bytes).length + k).getLast? =
      some ⟨start + (before.flatMap Feature.bytes).length, f.offset⟩ := by
  induction before generalizing start with
  | nil =>
    have hafter : (offsetsFrom (start + f.bytes.length) after).takeWhile
        (fun o => decide (o.inChunk ≤ start + k)) = [] := by
      cases hoffsets : offsetsFrom (start + f.bytes.length) after with
      | nil => rfl
      | cons o rest =>
        have hk : k < f.bytes.length := by
          refine hk.resolve_right fun hnil => ?_
          rw [hnil] at hoffsets
          cases hoffsets
        have hle : start + f.bytes.length ≤ o.inChunk := le_inChunk (hoffsets ▸ List.mem_cons_self ..)
        have hgt : ¬ o.inChunk ≤ start + k := by omega
        simp [hgt]
    simp [offsetsFrom, hafter]
  | cons g before ih =>
    have hstep := ih (start + g.bytes.length)
    have hsum : start + g.bytes.length + (before.flatMap Feature.bytes).length =
        start + ((g :: before).flatMap Feature.bytes).length := by
      simp only [List.flatMap_cons, List.length_append]
      omega
    rw [hsum] at hstep
    have hle : start ≤ start + ((g :: before).flatMap Feature.bytes).length + k := by omega
    simp only [List.cons_append, offsetsFrom]
    rw [List.takeWhile_cons_of_pos (by simpa using hle), List.getLast?_cons, hstep]
    rfl

namespace Laid

variable (l : Laid) {before after : List ChunkFeature} {f : ChunkFeature}

/-- A position inside a feature, or after the last one, goes to its place in the stream.
-/
theorem streamOffset_inside (h : l.features = before ++ f :: after) {k : Nat}
    (hk : k < f.length ∨ after = []) : l.chunk.streamOffset (lengthOf before + k) = f.offset + k := by
  have hlast := takeWhile_offsets 0 (before.map ChunkFeature.feature) f.feature
    (after.map ChunkFeature.feature) (k := k) (by simpa [f.length_bytes] using hk)
  have hoffsets : l.chunk.featureOffsets =
      offsetsFrom 0 (before.map ChunkFeature.feature ++ f.feature ::
        after.map ChunkFeature.feature) := by
    rw [l.describes.offsets, h, List.map_append, List.map_cons]
  rw [length_flatMap, Nat.zero_add] at hlast
  rw [FeatureChunk.streamOffset, streamOffset, hoffsets, hlast]
  show f.feature.offset + (lengthOf before + k - lengthOf before) = f.offset + k
  rw [Nat.add_sub_cancel_left]
  rfl

theorem le_streamOffset_end (h : l.features = before ++ f :: after) :
    f.offset + f.length ≤ l.chunk.streamOffset (lengthOf before + f.length) := by
  cases after with
  | nil => exact (l.streamOffset_inside h (.inr rfl)).ge
  | cons g after =>
    have hnext : l.features = (before ++ [f]) ++ g :: after := by simp [h]
    have hoffset := l.streamOffset_inside hnext (k := 0) (.inl g.length_pos)
    have hpair := l.apart
    rw [h, List.pairwise_append] at hpair
    have hle := (List.pairwise_cons.mp hpair.2.1).1 g (List.mem_cons_self ..)
    have hsum : lengthOf before + f.length = lengthOf (before ++ [f]) := by
      simp [lengthOf]
    rw [hsum]
    rw [Nat.add_zero] at hoffset
    omega

end Laid

/-! ## What a feature reports -/

def FeatureError.location : FeatureError → Location
  | .feature location _ => location
  | .missingValue location _ => location

/-- The locations a report names. -/
def ReadReport.locations (report : ReadReport) : List Location :=
  report.skipped.flatMap (fun skip => [skip.1, skip.2.location]) ++
    report.warnings.filterMap Warning.location

theorem mem_locations_warn {report : ReadReport} {warning : Warning} {location : Location}
    (h : location ∈ (report.warn warning).locations) :
    location ∈ report.locations ∨ warning.location = some location := by
  simp only [ReadReport.warn] at h
  split at h
  · simp only [ReadReport.locations, List.filterMap_append, List.mem_append,
      List.mem_filterMap, List.mem_singleton] at h ⊢
    rcases h with h | h | ⟨w, rfl, hw⟩
    · exact .inl (.inl h)
    · exact .inl (.inr h)
    · exact .inr hw
  · exact .inl h

theorem mem_locations_warns {location location' : Location} {warnings : List Warning}
    (hwarnings : ∀ w ∈ warnings, w.location = some location') {report : ReadReport}
    (h : location ∈ (warnings.foldl ReadReport.warn report).locations) :
    location ∈ report.locations ∨ location = location' := by
  induction warnings generalizing report with
  | nil => exact .inl h
  | cons w warnings ih =>
    rcases ih (fun w hw => hwarnings w (List.mem_cons_of_mem _ hw)) h with h | h
    · refine (mem_locations_warn h).imp_right fun hw => ?_
      have heq := (hwarnings w (List.mem_cons_self ..)).symm.trans hw
      exact (Option.some.inj heq).symm
    · exact .inr h

section

variable {F G E P A : Type} {floats : Floats F} {geo : Geometries Fault A G E P}
  {builders : Builders F G E A} {plan : FeaturePlan P}

/-- What becomes of a feature that was read: an error that names its location, a skip
with its location, or its row appended. -/
def Committed (plan : FeaturePlan P) (state : RowState F G E)
    (out : List (List (Value F G E))) (report : ReadReport) :
    Except (Error Fault A) (FeatureOutcome × List (List (Value F G E)) × ReadReport) → Prop
  | .ok (outcome, out', report') =>
    (∀ location ∈ report'.locations,
      location ∈ report.locations ∨ location = state.location) ∧
      (outcome = .row ∧ out' = out ++ [state.aligned plan.routes.columns] ∨
        outcome = .skipped ∧ out' = out)
  | .error (.feature error) => error.location = state.location
  | .error (.core _) => False
  | .error (.other _) => True

theorem commit_spec (builders : Builders F G E A) (plan : FeaturePlan P)
    {state : RowState F G E} {out : List (List (Value F G E))}
    {report : ReadReport}
    (hwarnings : ∀ w ∈ state.warnings, w.location = some state.location) :
    Committed plan state out report (commit builders plan state out report) := by
  obtain ⟨warned, hwarned⟩ : ∃ warned, warned = state.warnings.foldl ReadReport.warn report :=
    ⟨_, rfl⟩
  have hbefore : ∀ location ∈ warned.locations,
      location ∈ report.locations ∨ location = state.location := by
    intro location h
    exact mem_locations_warns hwarnings (hwarned ▸ h)
  have hskip : ∀ error : FeatureError, error.location = state.location →
      Committed (A := A) plan state out report (.ok (.skipped, out,
        { warned with skipped := warned.skipped ++ [(state.location, error)] })) := by
    intro error herror
    refine ⟨fun location h => ?_, .inr ⟨rfl, rfl⟩⟩
    simp only [ReadReport.locations, List.flatMap_append, List.flatMap_cons, List.flatMap_nil,
      List.append_nil, herror, List.mem_append, List.mem_cons, List.not_mem_nil, or_false,
      or_self] at h
    rcases h with (h | h) | h
    · exact hbefore location (List.mem_append_left _ h)
    · exact .inr h
    · exact hbefore location (List.mem_append_right _ h)
  simp only [commit, ← hwarned]
  split
  · split
    · exact hskip _ rfl
    · exact rfl
    · exact rfl
  · split
    · exact rfl
    · exact hskip _ rfl
    · split
      · split
        · exact hskip _ rfl
        · exact rfl
        · exact rfl
      · split
        · exact trivial
        · exact ⟨hbefore, .inl ⟨rfl, rfl⟩⟩

/-- A row that the reading of a feature gives. -/
def IsRowOf (floats : Floats F) (geo : Geometries Fault A G E P) (plan : FeaturePlan P)
    (inherited : ParseContext) (f : ChunkFeature) (row : List (Value F G E)) : Prop :=
  ∃ (location : Location) (state : RowState F G E),
    element floats geo plan (RowState.ops plan.routes.columns) f.tag f.content f.close
      (.new plan.routes inherited location) = .ok state ∧
    row = state.aligned plan.routes.columns

/-- What is read of a feature, and what it reports. -/
def ReadAs (floats : Floats F) (geo : Geometries Fault A G E P) (plan : FeaturePlan P)
    (inherited : ParseContext) (f : ChunkFeature) (location : Location)
    (out : List (List (Value F G E))) (report : ReadReport) :
    Except (Error Fault A) (FeatureOutcome × List (List (Value F G E)) × ReadReport) → Prop
  | .ok (outcome, out', report') =>
    (∀ location' ∈ report'.locations, location' ∈ report.locations ∨ location' = location) ∧
      ((outcome = .row ∧ ∃ row, IsRowOf floats geo plan inherited f row ∧ out' = out ++ [row]) ∨
        outcome = .skipped ∧ out' = out)
  | .error (.feature error) => error.location = location
  | .error (.core fault) => fault ∈ f.content.errors
  | .error (.other _) => True

/-- The operations keep a row's location, which its warnings have. -/
theorem related_location (columns : List (ColumnPlan P)) (location : Location) :
    Related (fun s t : RowState F G E =>
      s = t ∧ s.location = location ∧ ∀ w ∈ s.warnings, w.location = some location)
      (RowState.ops columns) (RowState.ops columns) where
  inherited h := by rw [h.1]
  boundedBy context s t h := by
    obtain ⟨rfl, hlocation, hwarnings⟩ := h
    refine ⟨rfl, ?_⟩
    simp only [RowState.ops, RowState.boundedBy]
    split <;> exact ⟨hlocation, hwarnings⟩
  count anchor s t h := ⟨by rw [h.1], h.2⟩
  put column value s t h := by
    obtain ⟨rfl, hlocation, hwarnings⟩ := h
    refine ⟨rfl, ?_⟩
    simp only [RowState.ops, RowState.put]
    split
    · split
      · split
        · exact ⟨hlocation, hwarnings⟩
        · exact ⟨hlocation, hwarnings⟩
      · split
        · exact ⟨hlocation, hwarnings⟩
        · exact ⟨hlocation, hwarnings⟩
    · exact ⟨hlocation, hwarnings⟩
  fail message s t h := ⟨by rw [h.1], h.2⟩
  failGeometry message s t h := ⟨by rw [h.1], h.2⟩
  warn message s t h := by
    obtain ⟨rfl, hlocation, hwarnings⟩ := h
    refine ⟨rfl, hlocation, ?_⟩
    intro w hw
    rcases List.mem_append.mp hw with hw | hw
    · exact hwarnings w hw
    · obtain rfl : w = ⟨some s.location, message⟩ := by simpa using hw
      rw [hlocation]

theorem readFeature_spec (floats : Floats F) (geo : Geometries Fault A G E P)
    (builders : Builders F G E A) (plan : FeaturePlan P) (inherited : ParseContext)
    (f : ChunkFeature) (location : Location) (out : List (List (Value F G E))) (report : ReadReport) :
    ReadAs floats geo plan inherited f location out report
      (readFeature builders plan floats geo inherited f.tag f.content f.close location out
        report) := by
  have halike := (related_location (F := F) (G := G) (E := E) plan.routes.columns location).element
    floats geo plan f.tag f.content f.close (s := .new plan.routes inherited location)
    (t := .new plan.routes inherited location) ⟨rfl, rfl, by simp [RowState.new]⟩
  rw [readFeature]
  split
  · rename_i fault helement
    rw [helement] at halike
    exact halike.2
  · exact trivial
  · rename_i state helement
    rw [helement] at halike
    obtain ⟨-, hlocation, hwarnings⟩ := halike
    have hcommit : Committed plan state out report (commit builders plan state out report) :=
      commit_spec builders plan (by rw [hlocation]; exact hwarnings)
    rw [Committed.eq_def, hlocation] at hcommit
    rw [ReadAs.eq_def]
    split
    · rename_i outcome out' report' hok
      rw [hok] at hcommit
      refine ⟨hcommit.1, hcommit.2.imp (fun hrow => ⟨hrow.1, _, ⟨location, state, helement, rfl⟩,
        hrow.2⟩) id⟩
    · rename_i herror
      rw [herror] at hcommit
      exact hcommit
    · rename_i herror
      rw [herror] at hcommit
      exact hcommit.elim
    · exact trivial

end

/-! ## Chunks -/

/-- The location of an error of the reader. -/
def faultLocation (chunk : FeatureChunk) (fault : Fault) : Location where
  source := chunk.source
  byteOffset := chunk.streamOffset fault.position
  featureSeq := none
  gmlId := none

def Error.locations {A : Type} (chunk : FeatureChunk) : Error Fault A → List Location
  | .core fault => [faultLocation chunk fault]
  | .feature error => [error.location]
  | .other _ => []

namespace Laid

/-- A location in the range of a feature, with the number of that feature among all
features emitted if it has a number. -/
def Right (l : Laid) (location : Location) : Prop :=
  ∃ before f after, l.features = before ++ f :: after ∧ location.source = l.chunk.source ∧
    f.offset ≤ location.byteOffset ∧ location.byteOffset < f.offset + f.length ∧
    ∀ seq ∈ location.featureSeq, seq = l.before + before.length

theorem right_fault (l : Laid) {before after : List ChunkFeature} {f : ChunkFeature}
    (h : l.features = before ++ f :: after) {fault : Fault}
    (hle : lengthOf before ≤ fault.position)
    (hlt : fault.position < lengthOf before + f.length) : l.Right (faultLocation l.chunk fault) := by
  obtain ⟨k, hk⟩ : ∃ k, fault.position = lengthOf before + k := ⟨_, (Nat.add_sub_of_le hle).symm⟩
  have hoffset := l.streamOffset_inside h (k := k) (.inl (by omega))
  refine ⟨before, f, after, h, rfl, ?_, ?_, by simp [faultLocation]⟩
  · show f.offset ≤ l.chunk.streamOffset fault.position
    rw [hk, hoffset]
    omega
  · show l.chunk.streamOffset fault.position < f.offset + f.length
    rw [hk, hoffset]
    omega

theorem faultsInside (l : Laid) {before after : List ChunkFeature} {f : ChunkFeature}
    (h : l.features = before ++ f :: after) {fault : Fault} (hfault : fault ∈ f.content.errors) :
    lengthOf before ≤ fault.position ∧ fault.position < lengthOf before + f.length := by
  have hmain : ∀ (before : List ChunkFeature) (position : Nat),
      FaultsInside position (before ++ f :: after) →
      position + lengthOf before ≤ fault.position ∧
        fault.position < position + lengthOf before + f.length := by
    intro before
    induction before with
    | nil =>
      intro position hfaults
      simpa [lengthOf] using hfaults.1 fault hfault
    | cons g before ih =>
      intro position hfaults
      have hrest := ih (position + g.length) hfaults.2
      simp only [lengthOf, List.map_cons, List.sum_cons] at hrest ⊢
      omega
  have hall := hmain before 0 (h ▸ l.faults)
  omega

end Laid

section

variable {F G E P A : Type} (floats : Floats F) (geo : Geometries Fault A G E P)
  (builders : Builders F G E A) (plan : ReadPlan P)

/-- The rows read are those of features in their order, and the entries of the location
column are the ranges of these features. -/
def LocatesRows (inherited : ParseContext) (source : Nat) (features : List ChunkFeature)
    (batches : List (Batch F G E)) : Prop :=
  (∀ batch ∈ batches, batch.rows.length = batch.locations.length) ∧
    ∃ read : List (ChunkFeature × List (Value F G E)),
      (read.map Prod.fst).Sublist features ∧
      (∀ r ∈ read, IsRowOf floats geo plan.toFeaturePlan inherited r.1 r.2) ∧
      batches.flatMap Batch.rows = read.map Prod.snd ∧
      batches.flatMap Batch.locations = read.map fun r => r.1.range source

/-- What the reading of a chunk says of places is right. -/
def Located (l : Laid) :
    Except (Error Fault A) (List (Batch F G E) × ReadReport) → Prop
  | .ok (batches, report) =>
    (∀ location ∈ report.locations, l.Right location) ∧
      (plan.location = true → ∃ inherited,
        LocatesRows floats geo plan inherited l.chunk.source l.features batches)
  | .error error => ∀ location ∈ error.locations l.chunk, l.Right location

/-- The accepted features among those read. -/
def accepted (selector : LayerSelector) (l : Laid) (features : List ChunkFeature) :
    List ChunkFeature :=
  features.filter fun f => selector.accepts f.tag.name l.chunk.namespaces.val

/-- Every feature the selector accepts is written with an end tag, and all features
before it in the chunk are accepted. -/
def Plain (selector : LayerSelector) (l : Laid) : Prop :=
  ∀ before f after, l.features = before ++ f :: after →
    selector.accepts f.tag.name l.chunk.namespaces.val →
    f.close ≠ [] ∧ ∀ g ∈ before, selector.accepts g.tag.name l.chunk.namespaces.val

/-- What holds when the features `before` were read. -/
structure Reached (l : Laid) (inherited : ParseContext) (before : List ChunkFeature)
    (p : Progress F G E) : Prop where
  index : p.index = (accepted plan.selector l before).length
  reported : ∀ location ∈ p.report.locations, l.Right location
  located : plan.location = true →
    LocatesRows floats geo plan inherited l.chunk.source before
      (p.batches ++ [⟨p.builder, p.locations⟩])

variable {floats geo builders plan} {l : Laid} {inherited : ParseContext}
  {before after : List ChunkFeature} {f : ChunkFeature} {p p' : Progress F G E}

theorem LocatesRows.start_batch {source : Nat} {batches : List (Batch F G E)}
    (h : LocatesRows floats geo plan inherited source before batches) :
    LocatesRows floats geo plan inherited source before (batches ++ [⟨[], []⟩]) := by
  obtain ⟨heven, read, hsub, hrows, hread, hlocations⟩ := h
  refine ⟨?_, read, hsub, hrows, by simpa using hread, by simpa using hlocations⟩
  intro batch hbatch
  rcases List.mem_append.mp hbatch with hbatch | hbatch
  · exact heven batch hbatch
  · obtain rfl : batch = ⟨[], []⟩ := by simpa using hbatch
    rfl

theorem LocatesRows.of_start_batch {source : Nat} {batches : List (Batch F G E)}
    (h : LocatesRows floats geo plan inherited source before (batches ++ [⟨[], []⟩])) :
    LocatesRows floats geo plan inherited source before batches := by
  obtain ⟨heven, read, hsub, hrows, hread, hlocations⟩ := h
  exact ⟨fun batch hbatch => heven batch (List.mem_append_left _ hbatch), read, hsub, hrows,
    by simpa using hread, by simpa using hlocations⟩

theorem finish_reached (h : Reached floats geo plan l inherited before p)
    (hfinish : finish builders p = .ok p') : Reached floats geo plan l inherited before p' := by
  rw [finish] at hfinish
  split at hfinish
  · cases hfinish
  · cases hfinish
    exact ⟨h.index, h.reported, fun hlocation => (h.located hlocation).start_batch⟩

theorem accepted_concat (selector : LayerSelector) (l : Laid) (before : List ChunkFeature)
    (f : ChunkFeature) :
    accepted selector l (before ++ [f]) = accepted selector l before ++
      if selector.accepts f.tag.name l.chunk.namespaces.val then [f] else [] := by
  simp only [accepted, List.filter_append, List.filter_cons, List.filter_nil]

theorem right_featureLocation (hfeatures : l.features = before ++ f :: after)
    (hindex : p.index = before.length) (hclose : f.close ≠ []) :
    l.Right (featureLocation l.chunk p.index (lengthOf before) f.tag f.written) := by
  have hclose := List.length_pos_iff.mpr hclose
  have hlt : f.written.length < f.length := by
    rw [ChunkFeature.length]
    omega
  have hoffset := l.streamOffset_inside hfeatures (.inl hlt)
  refine ⟨before, f, after, hfeatures, rfl, ?_, ?_, ?_⟩
  · show f.offset ≤ l.chunk.streamOffset (lengthOf before + f.written.length)
    rw [hoffset]
    omega
  · show l.chunk.streamOffset (lengthOf before + f.written.length) < f.offset + f.length
    rw [hoffset]
    omega
  · intro seq hseq
    obtain rfl : l.chunk.firstFeatureSeq + p.index = seq := by
      simpa [featureLocation] using hseq
    rw [l.describes.first, hindex]

theorem LocatesRows.pass {source : Nat} {batches : List (Batch F G E)}
    (h : LocatesRows floats geo plan inherited source before batches) (f : ChunkFeature) :
    LocatesRows floats geo plan inherited source (before ++ [f]) batches := by
  obtain ⟨heven, read, hsub, hrest⟩ := h
  exact ⟨heven, read, hsub.trans (List.sublist_append_left ..), hrest⟩

/-- The row of a feature and its range go into the last batch. -/
theorem LocatesRows.append {source : Nat} {batches : List (Batch F G E)}
    {rows : List (List (Value F G E))} {locations : List (Nat × Nat × Nat)}
    (h : LocatesRows floats geo plan inherited source before (batches ++ [⟨rows, locations⟩]))
    {row : List (Value F G E)} (hrow : IsRowOf floats geo plan.toFeaturePlan inherited f row) :
    LocatesRows floats geo plan inherited source (before ++ [f])
      (batches ++ [⟨rows ++ [row], locations ++ [f.range source]⟩]) := by
  obtain ⟨heven, read, hsub, hrows, hread, hlocations⟩ := h
  refine ⟨?_, read ++ [(f, row)], by simpa using hsub, ?_, ?_, ?_⟩
  · intro batch hbatch
    rcases List.mem_append.mp hbatch with hbatch | hbatch
    · exact heven batch (List.mem_append_left _ hbatch)
    · obtain rfl : batch = ⟨rows ++ [row], locations ++ [f.range source]⟩ := by
        simpa using hbatch
      have hlast := heven ⟨rows, locations⟩ (List.mem_append_right _ (List.mem_singleton_self _))
      simpa using hlast
  · intro r hr
    rcases List.mem_append.mp hr with hr | hr
    · exact hrows r hr
    · obtain rfl : r = (f, row) := by simpa using hr
      exact hrow
  · simp only [List.flatMap_append, List.flatMap_cons, List.flatMap_nil, List.append_nil,
      List.map_append, List.map_cons, List.map_nil] at hread ⊢
    rw [← List.append_assoc, hread]
  · simp only [List.flatMap_append, List.flatMap_cons, List.flatMap_nil, List.append_nil,
      List.map_append, List.map_cons, List.map_nil] at hlocations ⊢
    rw [← List.append_assoc, hlocations]

/-- Reading an accepted feature keeps what was right, and fails in the right place. -/
theorem readAccepted_reached (builders : Builders F G E A)
    (h : Reached floats geo plan l inherited before p)
    (hfeatures : l.features = before ++ f :: after) (hplain : Plain plan.selector l)
    (haccepts : plan.selector.accepts f.tag.name l.chunk.namespaces.val = true) :
    match readAccepted floats geo builders plan l.chunk inherited (lengthOf before) f.tag f.written
      f.content f.close p with
    | .ok p' => Reached floats geo plan l inherited (before ++ [f]) p'
    | .error error => ∀ location ∈ error.locations l.chunk, l.Right location := by
  obtain ⟨hclose, hall⟩ := hplain before f after hfeatures haccepts
  have hindex : p.index = before.length := by
    rw [h.index, accepted, List.filter_eq_self.mpr hall]
  have hright := right_featureLocation hfeatures hindex hclose
  have hnext : p.index + 1 = (accepted plan.selector l (before ++ [f])).length := by
    rw [accepted_concat, if_pos haccepts, List.length_append, ← h.index, List.length_singleton]
  have hspec := readFeature_spec floats geo builders plan.toFeaturePlan inherited f
    (featureLocation l.chunk p.index (lengthOf before) f.tag f.written) p.builder p.report
  have hstart : l.chunk.streamOffset (lengthOf before) = f.offset := by
    have hoffset := l.streamOffset_inside hfeatures (k := 0) (.inl f.length_pos)
    simpa using hoffset
  rw [readAccepted, hstart]
  cases hread : readFeature builders plan.toFeaturePlan floats geo inherited f.tag f.content f.close
      (featureLocation l.chunk p.index (lengthOf before) f.tag f.written) p.builder p.report with
  | error error =>
    rw [hread] at hspec
    intro location hlocation
    match error with
    | .core fault =>
      obtain rfl : location = faultLocation l.chunk fault := by
        simpa [Error.locations] using hlocation
      have hinside := l.faultsInside hfeatures hspec
      exact l.right_fault hfeatures hinside.1 hinside.2
    | .feature error =>
      obtain rfl : location = error.location := by simpa [Error.locations] using hlocation
      exact hspec.symm ▸ hright
    | .other _ => cases hlocation
  | ok result =>
    obtain ⟨outcome, builder, report⟩ := result
    rw [hread] at hspec
    obtain ⟨hreported, hout⟩ := hspec
    have hreported' : ∀ location ∈ report.locations, l.Right location := by
      intro location hlocation
      rcases hreported location hlocation with hbefore | rfl
      · exact h.reported location hbefore
      · exact hright
    simp only [ok_bind]
    obtain ⟨next, hnextDef, hnextReached⟩ : ∃ next : Progress F G E,
        next = (if outcome = .row then
          { p with
            index := p.index + 1
            builder
            report
            rows := p.rows + 1
            locations :=
              if plan.location then p.locations ++ [(l.chunk.source, f.offset, f.offset +
                (f.written.length + f.content.render.length + f.close.length))]
              else p.locations }
        else { p with index := p.index + 1, builder, report }) ∧
        Reached floats geo plan l inherited (before ++ [f]) next := by
      refine ⟨_, rfl, ?_⟩
      rcases hout with ⟨rfl, row, hrow, rfl⟩ | ⟨rfl, rfl⟩
      · refine ⟨hnext, hreported', fun hlocation => ?_⟩
        simp only [if_true, hlocation]
        exact (h.located hlocation).append hrow
      · exact ⟨hnext, hreported', fun hlocation => (h.located hlocation).pass f⟩
    rw [← hnextDef]
    split
    · rename_i p' hfinish
      split at hfinish
      · exact finish_reached hnextReached hfinish
      · cases hfinish
        exact hnextReached
    · rename_i error hfinish
      split at hfinish
      · rw [finish] at hfinish
        split at hfinish
        · cases hfinish
          intro location hlocation
          cases hlocation
        · cases hfinish
      · cases hfinish

/-- Reading a chunk's features keeps what was right, and fails in the right place. -/
theorem readFeatures_reached (builders : Builders F G E A) (hplain : Plain plan.selector l)
    {rest : List ChunkFeature}
    (hfeatures : l.features = before ++ rest) (h : Reached floats geo plan l inherited before p) :
    match readFeatures floats geo builders plan l.chunk inherited (lengthOf before) (bodyOf rest)
      p with
    | .ok p' => Reached floats geo plan l inherited l.features p'
    | .error error => ∀ location ∈ error.locations l.chunk, l.Right location := by
  induction rest generalizing before p with
  | nil =>
    rw [List.append_nil] at hfeatures
    rw [hfeatures]
    exact h
  | cons f rest ih =>
    have hnext : l.features = (before ++ [f]) ++ rest := by simp [hfeatures]
    have hlength : lengthOf before +
        (f.written.length + f.content.render.length + f.close.length) =
        lengthOf (before ++ [f]) := by
      simp [lengthOf, ChunkFeature.length]
    rw [bodyOf, readFeatures, hlength]
    by_cases haccepts : plan.selector.accepts f.tag.name l.chunk.namespaces.val = true
    · have hstep := readAccepted_reached builders h hfeatures hplain haccepts
      rw [if_pos haccepts]
      cases hread : readAccepted floats geo builders plan l.chunk inherited (lengthOf before) f.tag
          f.written f.content f.close p with
      | error error =>
        rw [hread] at hstep
        exact hstep
      | ok p' =>
        rw [hread] at hstep
        exact ih hnext hstep
    · rw [if_neg haccepts]
      refine ih hnext ⟨?_, h.reported, fun hlocation => (h.located hlocation).pass f⟩
      rw [accepted_concat, if_neg haccepts, List.append_nil]
      exact h.index

theorem processChunk_located {collectionBoundedBy : RawElement → Except A ParseContext}
    (hplain : Plain plan.selector l) :
    Located floats geo plan l
      (processChunk floats geo builders plan collectionBoundedBy l.chunk (bodyOf l.features)) := by
  rw [processChunk]
  cases hinherited : inheritedBy plan collectionBoundedBy l.chunk with
  | error error =>
    intro location hlocation
    rw [inheritedBy] at hinherited
    split at hinherited
    · split at hinherited
      · cases hraw : collectionBoundedBy _ with
        | ok context =>
          rw [hraw] at hinherited
          cases hinherited
        | error a =>
          rw [hraw] at hinherited
          cases hinherited
          cases hlocation
      · cases hinherited
    · cases hinherited
  | ok inherited =>
    have hstart : Reached floats geo plan l inherited [] ({} : Progress F G E) := by
      refine ⟨rfl, ?_, fun _ => ⟨?_, [], ?_⟩⟩
      · intro location hlocation
        cases hlocation
      · intro batch hbatch
        obtain rfl : batch = ⟨[], []⟩ := by simpa using hbatch
        rfl
      · simp
    have hrun := readFeatures_reached builders hplain
      (List.nil_append l.features).symm hstart
    rw [ok_bind]
    cases hread : readFeatures floats geo builders plan l.chunk inherited 0 (bodyOf l.features)
        ({} : Progress F G E) with
    | error error =>
      have hzero : lengthOf [] = 0 := rfl
      rw [hzero, hread] at hrun
      exact hrun
    | ok p =>
      have hzero : lengthOf [] = 0 := rfl
      rw [hzero, hread] at hrun
      rw [ok_bind]
      by_cases hempty : p.builder.isEmpty = true
      · rw [if_pos hempty, ok_bind]
        refine ⟨hrun.reported, fun hlocation => ⟨inherited, ?_⟩⟩
        have hlocated := hrun.located hlocation
        have hbuilder : p.builder = [] := by simpa using hempty
        have hlocations : p.locations = [] := by
          have heven := hlocated.1 ⟨p.builder, p.locations⟩ (by simp)
          simpa [hbuilder] using heven.symm
        rw [hbuilder, hlocations] at hlocated
        exact hlocated.of_start_batch
      · rw [if_neg hempty]
        cases hfinish : finish builders p with
        | error error =>
          intro location hlocation
          rw [finish] at hfinish
          split at hfinish
          · cases hfinish
            cases hlocation
          · cases hfinish
        | ok p' =>
          have hreached := finish_reached hrun hfinish
          rw [ok_bind]
          refine ⟨hreached.reported, fun hlocation => ⟨inherited, ?_⟩⟩
          have hlocated := hreached.located hlocation
          rw [finish] at hfinish
          split at hfinish
          · cases hfinish
          · cases hfinish
            exact hlocated.of_start_batch

/-! ## A column that is never filled -/

/-- A plan with one column that has to have a value and takes it from nowhere. -/
def unfilled (P : Type) (selector : LayerSelector) : ReadPlan P where
  routes :=
    { root := .new .any
      columns := [{ name := [], nullable := false, list := false, anchor := 0,
                    itemNullable := false, item := .map, srsName := none }]
      anchors := 0 }
  hasGeometry := false
  crsOverride := false
  onFeatureError := .skip
  stripLocalHrefHash := false
  emptyAsNull := false
  selector
  location := false
  batchSize := 1

theorem start_unfilled (P : Type) (floats : Floats F) {σ : Type} (selector : LayerSelector) (ops : RowOps F G E σ)
    (attrs : List (QName × Bytes)) (row : σ) :
    (start floats (unfilled P selector).toFeaturePlan ops [.new .any] attrs row).2 = row := by
  have hfold : ∀ (nil : Bool), (attrs.foldl (fun (p : Bool × σ) (attr : QName × Bytes) =>
      if attr.1.ns = some ns.XSI then
        (if attr.1.localName = utf8 "nil" then
          decide (Schema.trim attr.2 = utf8 "true" ∨ Schema.trim attr.2 = utf8 "1") else p.1, p.2)
      else (p.1, p.2)) (nil, row)).2 = row := by
    induction attrs with
    | nil => exact fun _ => rfl
    | cons attr attrs ih =>
      intro nil
      rw [List.foldl_cons]
      split <;> exact ih _
  have hstart := hfold false
  simpa [start, RouteNode.new, RouteNode.attributeTargets, unfilled] using hstart

theorem element_unfilled {σ : Type} (selector : LayerSelector) (ops : RowOps F G E σ)
    (f : ChunkFeature) (row : σ) :
    element floats geo (unfilled P selector).toFeaturePlan ops f.tag f.content f.close row =
      .ok row := by
  have hstart := start_unfilled P floats selector ops f.tag.attrs row
  have hroot : (unfilled P selector).toFeaturePlan.routes.root = .new .any := rfl
  have hwhole : ([RouteNode.new .any].flatMap RouteNode.targets).find? takesWhole = none := rfl
  have hleaf : (!wants .text [RouteNode.new .any] && !wants .geometry [RouteNode.new .any] &&
      [RouteNode.new .any].all RouteNode.isLeaf) = true := rfl
  rw [element, hroot]
  simp only [content, hwhole, hleaf, if_true, hstart, ite_self]

theorem readFeature_unfilled (selector : LayerSelector) (f : ChunkFeature) (location : Location)
    (out : List (List (Value F G E))) (report : ReadReport) :
    readFeature builders (unfilled P selector).toFeaturePlan floats geo inherited f.tag f.content
      f.close location out report =
      .ok (.skipped, out, { report with
        skipped := report.skipped ++ [(location, .missingValue location [])] }) := by
  rw [readFeature, element_unfilled]
  rfl

/-- Every accepted feature is skipped. -/
theorem readFeatures_unfilled (floats : Floats F) (geo : Geometries Fault A G E P)
    (builders : Builders F G E A) (l : Laid) (inherited : ParseContext)
    (selector : LayerSelector) (rest : List ChunkFeature) (position : Nat)
    (p : Progress F G E) (hempty : p.builder = []) :
    ∃ p' : Progress F G E,
      readFeatures floats geo builders (unfilled P selector) l.chunk inherited position
        (bodyOf rest) p = .ok p' ∧ p'.builder = [] ∧
      (∀ location ∈ p.report.locations, location ∈ p'.report.locations) ∧
      ∀ mid f after, rest = mid ++ f :: after →
        selector.accepts f.tag.name l.chunk.namespaces.val = true →
        featureLocation l.chunk (p.index + (accepted selector l mid).length)
          (position + lengthOf mid) f.tag f.written ∈ p'.report.locations := by
  induction rest generalizing position p with
  | nil =>
    refine ⟨p, rfl, hempty, fun _ h => h, ?_⟩
    intro mid f after h
    exact absurd h.symm (by simp)
  | cons g rest ih =>
    rw [bodyOf, readFeatures]
    by_cases haccepts : selector.accepts g.tag.name l.chunk.namespaces.val = true
    · have hselector : (unfilled P selector).selector = selector := rfl
      obtain ⟨next, hnext⟩ : ∃ next : Progress F G E, next = { p with
          index := p.index + 1
          report := { p.report with skipped := p.report.skipped ++
            [(featureLocation l.chunk p.index position g.tag g.written,
              .missingValue (featureLocation l.chunk p.index position g.tag g.written) [])] } } :=
        ⟨_, rfl⟩
      have hread : readAccepted floats geo builders (unfilled P selector) l.chunk inherited position
          g.tag g.written g.content g.close p = .ok next := by
        rw [readAccepted, readFeature_unfilled, ok_bind, hnext]
        have hsize : ¬ (unfilled P selector).batchSize ≤ p.builder.length := by
          rw [hempty]
          exact Nat.not_succ_le_zero 0
        simp [hsize]
      have hnextEmpty : next.builder = [] := by rw [hnext, hempty]
      have hnextIndex : next.index = p.index + 1 := by rw [hnext]
      have hkept : ∀ location ∈ p.report.locations, location ∈ next.report.locations := by
        intro location hlocation
        rw [hnext]
        simp only [ReadReport.locations, List.flatMap_append, List.mem_append] at hlocation ⊢
        exact hlocation.imp .inl id
      have hnew : featureLocation l.chunk p.index position g.tag g.written ∈
          next.report.locations := by
        rw [hnext]
        simp [ReadReport.locations]
      obtain ⟨p', hrun, hrunEmpty, hrunKept, hrunMid⟩ := ih
        (position + (g.written.length + g.content.render.length + g.close.length)) next hnextEmpty
      refine ⟨p', ?_, hrunEmpty, fun location h => hrunKept location (hkept location h), ?_⟩
      · rw [hselector, if_pos haccepts, hread, ok_bind]
        exact hrun
      · intro mid f after hsplit hf
        cases mid with
        | nil =>
          obtain ⟨rfl, rfl⟩ := List.cons.inj hsplit
          exact hrunKept _ hnew
        | cons g' mid =>
          obtain ⟨rfl, rfl⟩ := List.cons.inj hsplit
          have hmid := hrunMid mid f after rfl hf
          rw [hnextIndex] at hmid
          have hlength : (accepted selector l (g :: mid)).length =
              1 + (accepted selector l mid).length := by
            rw [accepted, List.filter_cons, if_pos haccepts, List.length_cons, accepted]
            omega
          have hposition : lengthOf (g :: mid) =
              g.written.length + g.content.render.length + g.close.length + lengthOf mid := rfl
          rw [hlength, hposition, ← Nat.add_assoc, ← Nat.add_assoc]
          exact hmid
    · obtain ⟨p', hrun, hrunEmpty, hrunKept, hrunMid⟩ := ih (p := p)
        (position + (g.written.length + g.content.render.length + g.close.length)) hempty
      have hselector : (unfilled P selector).selector = selector := rfl
      refine ⟨p', ?_, hrunEmpty, hrunKept, ?_⟩
      · rw [hselector, if_neg haccepts]
        exact hrun
      · intro mid f after hsplit hf
        cases mid with
        | nil =>
          obtain ⟨rfl, rfl⟩ := List.cons.inj hsplit
          exact absurd hf haccepts
        | cons g' mid =>
          obtain ⟨rfl, rfl⟩ := List.cons.inj hsplit
          have hmid := hrunMid mid f after rfl hf
          have hlength : (accepted selector l (g :: mid)).length =
              (accepted selector l mid).length := by
            rw [accepted, List.filter_cons, if_neg haccepts, accepted]
          have hposition : lengthOf (g :: mid) =
              g.written.length + g.content.render.length + g.close.length + lengthOf mid := rfl
          rw [hlength, hposition, ← Nat.add_assoc]
          exact hmid

theorem accepted_length_le (selector : LayerSelector) (l : Laid)
    (features : List ChunkFeature) : (accepted selector l features).length ≤ features.length :=
  List.length_filter_le ..

theorem split_index {before' after' : List ChunkFeature} {f' : ChunkFeature}
    (h : l.features = before ++ f :: after) (h' : l.features = before' ++ f' :: after')
    (hlt : before'.length < before.length) : f'.offset + f'.length ≤ f.offset := by
  have hpair := List.pairwise_iff_getElem.mp l.apart before'.length before.length
    (by rw [h']; simp) (by rw [h]; simp) hlt
  simp only [h', List.getElem_append_right (Nat.le_refl _), Nat.sub_self,
    List.getElem_cons_zero] at hpair
  simpa [← h', h] using hpair

end

/-! ## Two empty-element tags -/

/-- `<F/>` -/
def emptyFeature (offset : Nat) : ChunkFeature where
  tag := ⟨⟨none, utf8 "F"⟩, []⟩
  written := utf8 "<F/>"
  content := .done
  close := []
  offset
  started := by decide +kernel
  closed _ := rfl

/-- Two of them, with six bytes between them in the stream. -/
def gapped : Laid where
  chunk :=
    { source := 0, seq := 0, byteOffset := 10, bytes := utf8 "<F/><F/>",
      namespaces := ⟨0, .new⟩, firstFeatureSeq := 0, features := 2,
      featureOffsets := [⟨0, 10⟩, ⟨4, 20⟩], collectionBoundedBy := none }
  features := [emptyFeature 10, emptyFeature 20]
  before := 0
  describes :=
    { bytes := by decide +kernel, offsets := by decide +kernel, count := rfl, first := rfl,
      start := rfl }
  apart := by decide +kernel
  faults := by simp [FaultsInside, emptyFeature, Body.errors]

def noFloats : Floats Unit where
  infinity := ()
  negInfinity := ()
  nan := ()
  parse _ := none

def noGeometries : Geometries Fault Unit Unit Unit Unit where
  isGml33 _ := false
  parse _ _ _ _ := .error (.geometry [])
  parseBoundedBy _ _ := .error (.geometry [])
  fromParts _ := ()
  prepare _ _ := .ok ()
  shape _ := []
  describe _ := []
  crs := id
  orient _ := id
  convert := none
  convertEnvelope := none

def anyBuilders : Builders Unit Unit Unit Unit where
  refuses _ _ := none
  unfinished _ := none

end Xeibe.Arrow

import Mathlib.Data.Char
import Mathlib.Data.List.Find
import Mathlib.Data.List.Lex
import Xeibe.Schema.Node
import Xeibe.Geom.Axis

/-!
# Saved axis settings

A scan saves its axis decisions as one mode and overrides for the srsNames decided
the other way.  A read with these settings decides by the majority: of the
decisions of a key's srsName, and of all of them for a key without one.
-/

namespace Xeibe.Arrow

open Schema Geom Lib Lib.Text

/-- Axis evidence per source, srsName and dialect. -/
structure GeometryStats where
  axisEvidence : List (AxisKey × AxisEvidence)

variable {V : Type}

/-! ## Collecting -/

mutual

/-- The axis evidence of every geometry property below a node, by key. -/
def collectEvidence (out : List (AxisKey × AxisEvidence)) :
    ElementNode V GeometryStats → List (AxisKey × AxisEvidence)
  | .mk facts children =>
    let out := match facts.geometry with
      | some stats => Keyed.mergeWith AxisEvidence.merge out stats.axisEvidence
      | none => out
    collectEvidenceBelow out children

def collectEvidenceBelow (out : List (AxisKey × AxisEvidence)) :
    List (QName × ElementNode V GeometryStats) → List (AxisKey × AxisEvidence)
  | [] => out
  | (_, child) :: rest => collectEvidenceBelow (collectEvidence out child) rest

end

mutual

/-- The axis evidence of the geometry properties below a feature, not its `boundedBy`. -/
def collectGeometry (feature : Bool) :
    ElementNode V GeometryStats → List (AxisKey × AxisEvidence)
  | .mk facts children =>
    (match facts.geometry with
      | some stats => stats.axisEvidence
      | none => []) ++ collectGeometryBelow feature children

def collectGeometryBelow (feature : Bool) :
    List (QName × ElementNode V GeometryStats) → List (AxisKey × AxisEvidence)
  | [] => []
  | (name, child) :: rest =>
    (if feature && name.isGmlNamed (utf8 "boundedBy") then [] else collectGeometry false child) ++
      collectGeometryBelow feature rest

end

/-- What a scan observed. -/
abbrev Observation (V : Type) := DatasetObservation V GeometryStats BBox

/-- The characters of a string. -/
def textOf (bytes : Bytes) : Text :=
  ((String.fromUTF8? ⟨bytes.toArray⟩).map String.toList).getD []

section

variable (record : Nat → Option CrsInfo) (quoted : Text → String)
  (epsgAlias : Text → Option UInt32)

def axisContext (contexts : List (SourceContext BBox)) (source : Nat) : AxisContext :=
  match contexts[source]? with
  | none =>
    { fmeProduced := false
      producer := none
      wfsVersion := none
      requestedSrs := none
      requestedBbox := none }
  | some context =>
    { fmeProduced := context.fmeProduced
      producer := context.producer.map textOf
      wfsVersion := context.wfsVersion.map textOf
      requestedSrs := context.requestedSrs.map fun srs => SrsName.parse epsgAlias (textOf srs)
      requestedBbox := context.requestedBbox }

/-! ## Reading -/

/-- All decisions of a layer, and those made so far. -/
structure AxisDecisions where
  evidence : List (AxisKey × AxisEvidence)
  options : AxisOrderOptions
  contexts : List (SourceContext BBox)
  decisions : List (AxisKey × AxisDecision)

namespace AxisDecisions

/-- The evidence of every geometry property of the layer counts. -/
def fromObservation (observation : Observation V) (layer : QName) (options : AxisOrderOptions) :
    AxisDecisions where
  evidence := match observation.layers.lookup layer with
    | some found => collectEvidence [] found.root
    | none => []
  options := options
  contexts := observation.sourceContext
  decisions := []

/-- What is decided for a key. -/
def decideKey (self : AxisDecisions) (key : AxisKey) : AxisDecision :=
  decideAxis record quoted epsgAlias key ((self.evidence.lookup key).getD .empty)
    (axisContext epsgAlias self.contexts key.source) self.options

/-- A decision is made once per key. -/
def resolve (self : AxisDecisions) (key : AxisKey) : AxisDecision × AxisDecisions :=
  match self.decisions.lookup key with
  | some decision => (decision, self)
  | none =>
    let decision := self.decideKey record quoted epsgAlias key
    (decision, { self with decisions := (key, decision) :: self.decisions })

/-- After looking up some keys, in any order. -/
def after (self : AxisDecisions) (asked : List AxisKey) : AxisDecisions :=
  asked.foldl (fun self key => (self.resolve record quoted epsgAlias key).2) self

end AxisDecisions

/-! ## Saving -/

/-- More than half of them swap. -/
def majority (swaps : List Bool) : Bool := decide (swaps.count true * 2 > swaps.length)

def modeOf (swap : Bool) : AxisOrderMode := if swap then .yx else .xy

/-- The overrides of those names whose swap is not the overall one. -/
def overridesOf (names : List Text) (swap : Text → Bool) (overall : Bool) :
    List (Text × AxisOrderMode) :=
  names.filterMap fun name =>
    if swap name ≠ overall then some (name, modeOf (swap name)) else none

/-- The evidence that a scan gathered, node by node, with its layer. -/
def gathered (observation : Observation V) : List (QName × AxisKey × AxisEvidence) :=
  observation.layers.flatMap fun (name, layer) =>
    (collectGeometry true layer.root).map fun (key, evidence) => (name, key, evidence)

/-- srsName and the swap decided for it, for every key of every node. -/
def decided (observation : Observation V) (options : AxisOrderOptions) :
    List (Option Text × Bool) :=
  (gathered observation).map fun (_, key, evidence) =>
    (key.srsName, (decideAxis record quoted epsgAlias key evidence
      (axisContext epsgAlias observation.sourceContext key.source) options).swap)

/-- The swaps decided for an srsName. -/
def swapsOf (decided : List (Option Text × Bool)) (srsName : Option Text) : List Bool :=
  (decided.filter fun d => d.1 == srsName).map (·.2)

/-- The srsNames, sorted, each once. -/
def srsNames (decided : List (Option Text × Bool)) : List Text :=
  (decided.filterMap (·.1)).dedup.mergeSort fun a b => decide (a ≤ b)

/-- The axis decisions of every geometry key as one mode, plus overrides for the
srsNames decided the other way.  Without geometry, the options are kept as they are. -/
def plainAxis (observation : Observation V) (options : AxisOrderOptions) : AxisOrderOptions :=
  let decided := decided record quoted epsgAlias observation options
  let all := decided.map (·.2)
  if all.isEmpty then options
  else
    { mode := modeOf (majority all)
      overrides := overridesOf (srsNames decided)
        (fun srsName => majority (swapsOf decided (some srsName))) (majority all)
      crsTable := options.crsTable }

/-! ## Each key is decided once -/

namespace AxisDecisions

/-- What was decided before is what would be decided now. -/
def Kept (self : AxisDecisions) : Prop :=
  ∀ e ∈ self.decisions, e.2 = self.decideKey record quoted epsgAlias e.1

variable {record quoted epsgAlias}

theorem resolve_fst {self : AxisDecisions} (h : self.Kept record quoted epsgAlias)
    (key : AxisKey) :
    (self.resolve record quoted epsgAlias key).1 =
      self.decideKey record quoted epsgAlias key := by
  unfold resolve
  split
  · rename_i decision hfound
    exact h _ (Keyed.mem_of_lookup hfound)
  · rfl

theorem resolve_snd (self : AxisDecisions) (key : AxisKey) :
    (self.resolve record quoted epsgAlias key).2.decideKey record quoted epsgAlias =
      self.decideKey record quoted epsgAlias := by
  unfold resolve
  split <;> rfl

theorem kept_resolve {self : AxisDecisions} (h : self.Kept record quoted epsgAlias)
    (key : AxisKey) : (self.resolve record quoted epsgAlias key).2.Kept record quoted epsgAlias := by
  intro e he
  rw [resolve_snd]
  unfold resolve at he
  split at he
  · exact h e he
  · rcases List.mem_cons.1 he with rfl | he
    · rfl
    · exact h e he

theorem after_spec {self : AxisDecisions} (h : self.Kept record quoted epsgAlias)
    (asked : List AxisKey) :
    (self.after record quoted epsgAlias asked).Kept record quoted epsgAlias ∧
      (self.after record quoted epsgAlias asked).decideKey record quoted epsgAlias =
        self.decideKey record quoted epsgAlias := by
  induction asked generalizing self with
  | nil => exact ⟨h, rfl⟩
  | cons key rest ih =>
    obtain ⟨hkept, hsame⟩ := ih (kept_resolve h key)
    rw [resolve_snd] at hsame
    exact ⟨hkept, hsame⟩

theorem resolve_after {self : AxisDecisions} (h : self.decisions = []) (asked : List AxisKey)
    (key : AxisKey) :
    ((self.after record quoted epsgAlias asked).resolve record quoted epsgAlias key).1 =
      self.decideKey record quoted epsgAlias key := by
  have hkept : self.Kept record quoted epsgAlias := by
    intro e he
    rw [h] at he
    cases he
  obtain ⟨hafter, hsame⟩ := after_spec hkept asked
  rw [resolve_fst hafter, hsame]

end AxisDecisions

/-! ## What is saved -/

variable {record quoted epsgAlias}

theorem decideAxis_plain {key : AxisKey} {evidence : AxisEvidence} {context : AxisContext}
    {options : AxisOrderOptions} {swap : Bool}
    (h : ((key.srsName.bind (overrideFor options.overrides)).getD options.mode) = modeOf swap) :
    (decideAxis record quoted epsgAlias key evidence context options).swap = swap := by
  have happly : ∀ d : Decider, (d.apply record quoted (modeOf swap)).swap = swap := by
    intro d
    cases swap <;> rfl
  unfold decideAxis
  cases hname : key.srsName with
  | none =>
    rw [hname] at h
    rw [show options.mode = modeOf swap from h]
    exact happly _
  | some srs =>
    rw [hname, Option.bind_some] at h
    cases hover : overrideFor options.overrides srs with
    | none =>
      rw [hover] at h
      simp only [Option.bind_some, hover, Option.map_none]
      rw [show options.mode = modeOf swap from h]
      exact happly _
    | some mode =>
      rw [hover] at h
      simp only [Option.bind_some, hover, Option.map_some]
      rw [show mode = modeOf swap from h]
      exact happly _

theorem mem_srsNames {decided : List (Option Text × Bool)} {srsName : Text} :
    srsName ∈ srsNames decided ↔ ∃ swap, (some srsName, swap) ∈ decided := by
  rw [srsNames, List.mem_mergeSort, List.mem_dedup, List.mem_filterMap]
  constructor
  · rintro ⟨⟨name, swap⟩, hmem, rfl⟩
    exact ⟨swap, hmem⟩
  · rintro ⟨swap, hmem⟩
    exact ⟨_, hmem, rfl⟩

theorem overrideFor_trimmed {overrides : List (Text × AxisOrderMode)}
    (htrim : ∀ e ∈ overrides, trim e.1 = e.1) {srs : Text} (hsrs : trim srs = srs) :
    overrideFor overrides srs = (overrides.find? (·.1 == srs)).map (·.2) := by
  have hsame : overrides.find? (fun e => trim e.1 == srs) = overrides.find? (·.1 == srs) :=
    List.find?_congr fun e he => by rw [htrim e he]
  simp only [overrideFor, hsrs, hsame, Option.or_self]

theorem mem_overridesOf {names : List Text} {swap : Text → Bool} {overall : Bool}
    {e : Text × AxisOrderMode} :
    e ∈ overridesOf names swap overall ↔
      e.1 ∈ names ∧ swap e.1 ≠ overall ∧ e.2 = modeOf (swap e.1) := by
  obtain ⟨name, mode⟩ := e
  rw [overridesOf, List.mem_filterMap]
  constructor
  · rintro ⟨other, hmem, heq⟩
    split at heq
    · rename_i hne
      cases heq
      exact ⟨hmem, hne, rfl⟩
    · cases heq
  · rintro ⟨hmem, hne, hmode⟩
    refine ⟨name, hmem, ?_⟩
    rw [if_pos hne, ← hmode]

/-- Overrides or not, a name is read with its own swap. -/
theorem find?_overridesOf {names : List Text} (swap : Text → Bool) (overall : Bool) {srs : Text}
    (hmem : srs ∈ names) :
    (((overridesOf names swap overall).find? (·.1 == srs)).map (·.2)).getD (modeOf overall) =
      modeOf (swap srs) := by
  cases hfind : (overridesOf names swap overall).find? (·.1 == srs) with
  | none =>
    have hnot := List.find?_eq_none.1 hfind (srs, modeOf (swap srs))
    have hsame : swap srs = overall := by
      by_contra hne
      exact hnot (mem_overridesOf.2 ⟨hmem, hne, rfl⟩) (beq_self_eq_true srs)
    rw [hsame]
    rfl
  | some e =>
    have hname : e.1 = srs := by simpa using List.find?_some hfind
    obtain ⟨-, -, hmode⟩ := mem_overridesOf.1 (List.mem_of_find?_eq_some hfind)
    rw [Option.map_some, Option.getD_some, hmode, hname]

/-- What is decided on the evidence of one node. -/
def nodeSwap (record : Nat → Option CrsInfo) (quoted : Text → String)
    (epsgAlias : Text → Option UInt32) (observation : Observation V)
    (options : AxisOrderOptions) (e : QName × AxisKey × AxisEvidence) : Bool :=
  (decideAxis record quoted epsgAlias e.2.1 e.2.2
    (axisContext epsgAlias observation.sourceContext e.2.1.source) options).swap

/-- What is decided on the evidence of all nodes of the layer. -/
def layerSwap (record : Nat → Option CrsInfo) (quoted : Text → String)
    (epsgAlias : Text → Option UInt32) (observation : Observation V)
    (options : AxisOrderOptions) (e : QName × AxisKey × AxisEvidence) : Bool :=
  ((AxisDecisions.fromObservation observation e.1 options).decideKey record quoted epsgAlias
    e.2.1).swap

/-- The evidence that counts for an srsName: that of its keys.  For a key without one
all of it counts. -/
def counted (observation : Observation V) (srsName : Option Text) :
    List (QName × AxisKey × AxisEvidence) :=
  (gathered observation).filter fun e => srsName.isNone || e.2.1.srsName == srsName

/-- The saved settings decide for a key by the majority. -/
theorem plainAxis_swap {observation : Observation V} {options : AxisOrderOptions}
    (htrim : ∀ e ∈ gathered observation, ∀ srs ∈ e.2.1.srsName, trim srs = srs)
    {e : QName × AxisKey × AxisEvidence} (he : e ∈ gathered observation)
    (evidence : AxisEvidence) (context : AxisContext) :
    (decideAxis record quoted epsgAlias e.2.1 evidence context
      (plainAxis record quoted epsgAlias observation options)).swap =
      majority ((counted observation e.2.1.srsName).map
        (nodeSwap record quoted epsgAlias observation options)) := by
  have hdecided : decided record quoted epsgAlias observation options =
      (gathered observation).map fun e =>
        (e.2.1.srsName, nodeSwap record quoted epsgAlias observation options e) := rfl
  have hnames : ∀ srs ∈ srsNames (decided record quoted epsgAlias observation options),
      trim srs = srs := by
    intro srs hsrs
    obtain ⟨swap, hmem⟩ := mem_srsNames.1 hsrs
    obtain ⟨e', he', heq⟩ := List.mem_map.1 hmem
    exact htrim e' he' srs (Prod.mk.inj heq).1
  have hall : ((decided record quoted epsgAlias observation options).map (·.2)).isEmpty =
      false := by
    rw [List.isEmpty_eq_false_iff, hdecided]
    intro hempty
    rw [List.map_eq_nil_iff, List.map_eq_nil_iff] at hempty
    rw [hempty] at he
    cases he
  rw [plainAxis, hall]
  apply decideAxis_plain
  cases hsrs : e.2.1.srsName with
  | none => simp [counted, hdecided, Function.comp_def]
  | some srs =>
    have hmem : srs ∈ srsNames (decided record quoted epsgAlias observation options) := by
      refine mem_srsNames.2 ⟨nodeSwap record quoted epsgAlias observation options e, ?_⟩
      rw [hdecided, ← hsrs]
      exact List.mem_map_of_mem he
    have hcounted : (counted observation (some srs)).map
        (nodeSwap record quoted epsgAlias observation options) =
        swapsOf (decided record quoted epsgAlias observation options) (some srs) := by
      simp [counted, swapsOf, hdecided, List.filter_map, Function.comp_def]
    rw [hcounted, Option.bind_some]
    simp only [Bool.false_eq_true, if_false]
    rw [overrideFor_trimmed (fun e' he' => hnames _ (mem_overridesOf.1 he').1) (hnames srs hmem)]
    exact find?_overridesOf _ _ hmem

/-- Where every node's evidence decides as that of its layer together, the saved settings
reproduce a scan's decision for a key exactly if it is the majority's. -/
theorem plainAxis_resolve {observation : Observation V} {options : AxisOrderOptions}
    (htrim : ∀ e ∈ gathered observation, ∀ srs ∈ e.2.1.srsName, trim srs = srs)
    {e : QName × AxisKey × AxisEvidence} (he : e ∈ gathered observation)
    (halone : ∀ e' ∈ counted observation e.2.1.srsName,
      nodeSwap record quoted epsgAlias observation options e' =
        layerSwap record quoted epsgAlias observation options e')
    {reading : AxisDecisions} (hnew : reading.decisions = [])
    (hsaved : reading.options = plainAxis record quoted epsgAlias observation options)
    (asked asked' : List AxisKey) :
    ((reading.after record quoted epsgAlias asked).resolve record quoted epsgAlias e.2.1).1.swap =
      (((AxisDecisions.fromObservation observation e.1 options).after
        record quoted epsgAlias asked').resolve record quoted epsgAlias e.2.1).1.swap ↔
    majority ((counted observation e.2.1.srsName).map
        (layerSwap record quoted epsgAlias observation options)) =
      layerSwap record quoted epsgAlias observation options e := by
  rw [AxisDecisions.resolve_after hnew, AxisDecisions.resolve_after rfl,
    AxisDecisions.decideKey, hsaved, plainAxis_swap htrim he, List.map_congr_left halone]
  rfl

/-! ## A scan of two dialects -/

/-- A layer `roads` with one geometry property. -/
def roads (axisEvidence : List (AxisKey × AxisEvidence)) : Observation Unit where
  layers := [(⟨none, utf8 "roads"⟩,
    { featureCount := 2
      root := .mk {} [(⟨none, utf8 "line"⟩, .mk { geometry := some ⟨axisEvidence⟩ } [])]
      extent := none })]

/-- WGS 84 as GML 2 and as GML 3 have it, the latter with labels. -/
def wgs84Key (dialect : Dialect) : AxisKey where
  source := 0
  srsName := some "urn:ogc:def:crs:EPSG::4326".toList
  dialect := dialect

def latLong : AxisEvidence := { AxisEvidence.empty with axisLabels := ["Lat Long".toList] }

def auto : AxisOrderOptions := ⟨.auto, [], none⟩

/-- A read with the saved settings, and nothing gathered. -/
def savedReading (observation : Observation Unit) : AxisDecisions where
  evidence := []
  options := plainAxis (fun _ => none) String.ofList (fun _ => none) observation auto
  contexts := []
  decisions := []

theorem plainAxis_resolve_labels :
    let observation := roads [(wgs84Key .gml3, latLong)]
    ((savedReading observation).resolve (fun _ => none) String.ofList (fun _ => none)
        (wgs84Key .gml3)).1.swap =
      ((AxisDecisions.fromObservation observation ⟨none, utf8 "roads"⟩ auto).resolve
        (fun _ => none) String.ofList (fun _ => none) (wgs84Key .gml3)).1.swap := by
  intro observation
  have hmem : (⟨none, utf8 "roads"⟩, wgs84Key .gml3, latLong) ∈ gathered observation :=
    List.mem_singleton_self _
  have htrim : ∀ e ∈ gathered observation, ∀ srs ∈ e.2.1.srsName, trim srs = srs := by
    decide +kernel
  have halone : ∀ e ∈ counted observation (wgs84Key .gml3).srsName,
      nodeSwap (fun _ => none) String.ofList (fun _ => none) observation auto e =
        layerSwap (fun _ => none) String.ofList (fun _ => none) observation auto e := by
    decide +kernel
  have hmajority : majority ((counted observation (wgs84Key .gml3).srsName).map
      (layerSwap (fun _ => none) String.ofList (fun _ => none) observation auto)) =
      layerSwap (fun _ => none) String.ofList (fun _ => none) observation auto
        (⟨none, utf8 "roads"⟩, wgs84Key .gml3, latLong) := by
    decide +kernel
  exact (@plainAxis_resolve _ _ _ _ _ _ htrim _ hmem halone (savedReading observation) rfl rfl
    [] []).2 hmajority

/-- Of two dialects of one srsName the settings keep one decision. -/
theorem plainAxis_dialects :
    let observation := roads [(wgs84Key .gml2, .empty), (wgs84Key .gml3, latLong)]
    let saved := plainAxis (fun _ => none) String.ofList (fun _ => none) observation auto
    (AxisDecisions.resolve (fun _ => none) String.ofList (fun _ => none)
        (.fromObservation observation ⟨none, utf8 "roads"⟩ auto) (wgs84Key .gml3)).1.swap = true ∧
      (AxisDecisions.resolve (fun _ => none) String.ofList (fun _ => none)
        (.fromObservation observation ⟨none, utf8 "roads"⟩ saved) (wgs84Key .gml3)).1.swap =
          false := by
  constructor <;> decide +kernel

end

end Xeibe.Arrow

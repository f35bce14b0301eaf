import Xeibe.Reproject.Select.Search.Registry

/-!
# Candidate operations

Single operations from the registry, their inverses, synthetic conversions on
one datum, and concatenations, each with PROJ's name, accuracy and area of use.
The names matter: the search and PROJ's last tie-breaks compare them.
-/

namespace Xeibe.Reproject.Select.Search

open Xeibe.Geom (F64)

/-! ## Names -/

def inverseOf : String := "Inverse of "
def nullGeographicOffset : String := "Null geographic offset"
def nullGeocentricTranslation : String := "Null geocentric translation"
def ballparkGeocentricTranslation : String := "Ballpark geocentric translation"
def ballparkGeographicOffset : String := "Ballpark geographic offset"
def ensembleMemberName : String := "Ensemble member identity"

/-- `str::starts_with`. -/
def startsWith (text front : String) : Bool := decide (front.toList <+: text.toList)

/-- An apostrophe, which PROJ puts around combined names. -/
def quote : Char := Char.ofNat 39

/-- "Inverse of" a name, in quotes when the name is a combined one. -/
def inverseOfName (name : String) : String :=
  if containsText name " + " then
    inverseOf ++ quote.toString ++ name ++ quote.toString
  else
    inverseOf ++ name

/-- PROJ's name for the inverse of a named, non-synthetic operation. -/
def invertName (name : String) (isConversion : Bool) : String :=
  match stripPrefix inverseOf name with
  | some rest => if isConversion then rest else inverseOfName name
  | none => inverseOfName name

/-- The names joined by " + " outside of quotes, `cur` the letters of the one
under way, last first. -/
def splitNames : List Char → Bool → List Char → List String
  | [], _, cur => if cur.isEmpty then [] else [String.ofList cur.reverse]
  | ' ' :: '+' :: ' ' :: c :: rest, false, cur =>
    String.ofList cur.reverse :: splitNames (c :: rest) false []
  | c :: rest, inString, cur => splitNames rest (inString != (c == quote)) (c :: cur)

/-- The inverse of one of the names of a combined one. -/
def invertToken (token : String) : String :=
  match stripPrefix inverseOf token with
  | some rest => rest
  | none =>
    if token = "axis order change (2D)" ∨ token = "axis order change (geographic3D horizontal)" then
      token
    else
      inverseOf ++ token

/-- The name of the inverse of an operation PROJ builds: a combined one inverts
part by part, in reverse order. -/
def inverseName (name : String) (combined : Bool) : String :=
  if combined && (startsWith name inverseOf || containsText name " + ") then
    String.intercalate " + " ((splitNames name.toList false []).reverse.map invertToken)
  else
    inverseOfName name

/-! ## Steps and candidates -/

mutual

/-- What a single step does. -/
inductive SingleKind where
  /-- A registry transformation. -/
  | registry (code : Nat) (inverse : Bool)
  /-- A projected CRS's deriving conversion. -/
  | projection (crs : Nat) (inverse : Bool)
  /-- A change between CRSs on one datum. -/
  | sameDatum
  /-- Between a datum ensemble and one of its members. -/
  | ensembleMember
  /-- Between vertical CRSs on one datum. -/
  | verticalConversion
  /-- Between two vertical datums, the height as it is. -/
  | ballparkVertical
  /-- One operation built from others; the horizontal position may come back. -/
  | composite (parts : List Single) (saveHorizontal : Bool)

/-- One step of a candidate, between two CRSs. -/
structure Single where
  kind : SingleKind
  src : CrsRef
  dst : CrsRef
  name : String
  /-- -1 when unknown. -/
  accuracy : F64
  extent : Option Extent
  /-- PROJ's conversions: accuracy 0, area the world. -/
  isConversion : Bool
  /-- Has an identifier. -/
  identified : Bool
  /-- `hasBallparkTransformation`. -/
  ballpark : Bool

end

/-- A candidate operation from the source to the target CRS. -/
structure Candidate where
  name : String
  src : CrsRef
  dst : CrsRef
  steps : List Single
  /-- The candidate itself has an identifier. -/
  identified : Bool
  /-- The registry operation this candidate is, with its direction. -/
  registry : Option (Nat × Bool)
  /-- -1 when unknown. -/
  accuracy : F64
  extent : Option Extent
  replaced : Bool
  /-- A step's method is time-dependent. -/
  requiresTime : Bool

def unknownAccuracy : F64 := -F64.ofUsize 1

mutual

/-- The operations a step runs, inside combined operations too. -/
def Single.leaves : Single → List Single
  | ⟨.composite parts _, _, _, _, _, _, _, _, _⟩ => leavesOf parts
  | ⟨.registry code inverse, src, dst, name, accuracy, extent, conversion, identified, ballpark⟩ =>
    [⟨.registry code inverse, src, dst, name, accuracy, extent, conversion, identified, ballpark⟩]
  | ⟨.projection crs inverse, src, dst, name, accuracy, extent, conversion, identified, ballpark⟩ =>
    [⟨.projection crs inverse, src, dst, name, accuracy, extent, conversion, identified, ballpark⟩]
  | ⟨.sameDatum, src, dst, name, accuracy, extent, conversion, identified, ballpark⟩ =>
    [⟨.sameDatum, src, dst, name, accuracy, extent, conversion, identified, ballpark⟩]
  | ⟨.ensembleMember, src, dst, name, accuracy, extent, conversion, identified, ballpark⟩ =>
    [⟨.ensembleMember, src, dst, name, accuracy, extent, conversion, identified, ballpark⟩]
  | ⟨.verticalConversion, src, dst, name, accuracy, extent, conversion, identified, ballpark⟩ =>
    [⟨.verticalConversion, src, dst, name, accuracy, extent, conversion, identified, ballpark⟩]
  | ⟨.ballparkVertical, src, dst, name, accuracy, extent, conversion, identified, ballpark⟩ =>
    [⟨.ballparkVertical, src, dst, name, accuracy, extent, conversion, identified, ballpark⟩]

def leavesOf : List Single → List Single
  | [] => []
  | step :: steps => step.leaves ++ leavesOf steps

end

/-- `PartialEq` of two areas. -/
def sameExtent : Option Extent → Option Extent → Bool
  | none, none => true
  | some a, some b =>
    a.name == b.name && a.west.eq b.west && a.south.eq b.south && a.east.eq b.east &&
      a.north.eq b.north
  | _, _ => false

mutual

/-- `PartialEq` of a step's kind. -/
def SingleKind.same : SingleKind → SingleKind → Bool
  | .registry c i, .registry d j => c == d && i == j
  | .projection c i, .projection d j => c == d && i == j
  | .sameDatum, .sameDatum => true
  | .ensembleMember, .ensembleMember => true
  | .verticalConversion, .verticalConversion => true
  | .ballparkVertical, .ballparkVertical => true
  | .composite ps s, .composite qs t => sameSteps ps qs && s == t
  | _, _ => false

/-- `PartialEq`: doubles by value. -/
def Single.same : Single → Single → Bool
  | ⟨kind, src, dst, name, accuracy, extent, conversion, identified, ballpark⟩, b =>
    kind.same b.kind && src == b.src && dst == b.dst && name == b.name && accuracy.eq b.accuracy &&
      sameExtent extent b.extent && conversion == b.isConversion && identified == b.identified &&
      ballpark == b.ballpark

def sameSteps : List Single → List Single → Bool
  | [], [] => true
  | a :: as, b :: bs => a.same b && sameSteps as bs
  | _, _ => false

end

/-- `PartialEq`. -/
def Candidate.same (a b : Candidate) : Bool :=
  a.name == b.name && a.src == b.src && a.dst == b.dst && sameSteps a.steps b.steps &&
    a.identified == b.identified && a.registry == b.registry && a.accuracy.eq b.accuracy &&
    sameExtent a.extent b.extent && a.replaced == b.replaced && a.requiresTime == b.requiresTime

namespace Candidate

/-- `setCRSs`: the operation between other CRSs; its steps keep theirs. -/
def withCrs (c : Candidate) (src dst : CrsRef) : Candidate := { c with src := src, dst := dst }

/-- `hasBallparkTransformation`: a step is a ballpark. -/
def hasBallpark (c : Candidate) : Bool := c.steps.any (·.ballpark)

def leaves (c : Candidate) : List Single := leavesOf c.steps

end Candidate

section

variable (r : Registry)

/-- The operation a step of the registry runs. -/
def SingleKind.op : SingleKind → Option Operation
  | .registry code _ => r.op code
  | _ => none

namespace Candidate

def single (step : Single) : Candidate where
  name := step.name
  src := step.src
  dst := step.dst
  identified := step.identified
  registry :=
    match step.kind with
    | .registry code inverse => some (code, inverse)
    | _ => none
  accuracy := step.accuracy
  extent := step.extent
  replaced := (step.kind.op r).any (·.replaced)
  requiresTime := (step.kind.op r).any fun op => isTimeDependent op.method
  steps := [step]

/-- Every grid it uses is available. -/
def gridsAvailable (catalogue : Catalogue) (grids : Grids) (c : Candidate) : Bool :=
  c.leaves.all fun s => (s.kind.op r).all fun op =>
    op.gridNames.all fun n => catalogue.has grids n op.name

/-- Uses a grid. -/
def hasGrids (c : Candidate) : Bool :=
  c.leaves.any fun s => (s.kind.op r).any fun op => !op.gridNames.isEmpty

end Candidate

/-! ## Names of synthetic operations -/

def qualifier : CrsKind → String
  | .geocentric => " (geocentric)"
  | .geographic2d => " (geog2D)"
  | .geographic3d => " (geog3D)"
  | _ => ""

/-- `buildOpName`: qualifiers only when both CRSs share a name. -/
def opName (opType : String) (src dst : CrsRef) : String :=
  let qualified := r.name src = r.name dst ∧ qualifier (r.kind src) ≠ qualifier (r.kind dst)
  let qa := if qualified then qualifier (r.kind src) else ""
  let qb := if qualified then qualifier (r.kind dst) else ""
  opType ++ " from " ++ r.name src ++ qa ++ " to " ++ r.name dst ++ qb

/-- `buildConvName`. -/
def conversionName (src dst : CrsRef) : String :=
  "Conversion from " ++ r.name src ++ " to " ++ r.name dst

def sameDatumName (src dst : CrsRef) : String :=
  let opType :=
    if r.kind src = .geocentric ∧ r.kind dst = .geocentric then nullGeocentricTranslation
    else if r.kind src = .geocentric ∨ r.kind dst = .geocentric then "Conversion"
    else nullGeographicOffset
  opName r opType src dst

/-- `computeConcatenatedName`. -/
def concatenatedName (steps : List Single) : String :=
  String.intercalate " + " (steps.map fun s => if s.name.isEmpty then "unnamed" else s.name)

/-! ## Inverses -/

/-- The name of a step's inverse. -/
def Single.inverseName (s : Single) : String :=
  match s.kind with
  | .sameDatum => sameDatumName r s.dst s.src
  | .ensembleMember => opName r ensembleMemberName s.dst s.src
  | .verticalConversion =>
    -- A conversion step of a registered concatenation keeps its name.
    if s.identified then s.name else conversionName r s.dst s.src
  | .ballparkVertical => Search.inverseName s.name false
  | .composite _ _ => Search.inverseName s.name true
  | .registry code inverse =>
    if inverse then ((r.op code).map (·.name)).getD "" else invertName s.name false
  | .projection _ inverse =>
    if inverse then (stripPrefix inverseOf s.name).getD s.name else invertName s.name false

mutual

def SingleKind.inverse : SingleKind → SingleKind
  | .registry code inverse => .registry code (!inverse)
  | .projection crs inverse => .projection crs (!inverse)
  | .sameDatum => .sameDatum
  | .ensembleMember => .ensembleMember
  | .verticalConversion => .verticalConversion
  | .ballparkVertical => .ballparkVertical
  | .composite parts saveHorizontal => .composite (inverseSteps parts) saveHorizontal

def Single.inverse : Single → Single
  | ⟨kind, src, dst, name, accuracy, extent, conversion, identified, ballpark⟩ =>
    { kind := kind.inverse
      src := dst
      dst := src
      name := Single.inverseName r
        ⟨kind, src, dst, name, accuracy, extent, conversion, identified, ballpark⟩
      accuracy := accuracy
      extent := extent
      isConversion := conversion
      identified := identified
      ballpark := ballpark }

/-- The steps backwards, in the reverse order. -/
def inverseSteps : List Single → List Single
  | [] => []
  | step :: steps => inverseSteps steps ++ [step.inverse]

end

/-- The inverse candidate, named as PROJ names inverses. -/
def Candidate.inverse (c : Candidate) : Candidate :=
  let steps := inverseSteps r c.steps
  { name :=
      match c.steps, steps with
      | [_], step :: _ => step.name
      | _, _ =>
        match c.registry with
        -- A registered concatenation: "Inverse of X", and back to X.
        | some (code, true) => ((r.op code).map (·.name)).getD ""
        | some (_, false) => invertName c.name false
        | none => concatenatedName steps
    src := c.dst
    dst := c.src
    steps := steps
    identified := c.identified
    registry := c.registry.map fun (code, inverse) => (code, !inverse)
    accuracy := c.accuracy
    extent := c.extent
    replaced := c.replaced
    requiresTime := c.requiresTime }

/-! ## Accuracies -/

/-- Whether a step is PROJ's `+proj=noop`: a geocentric translation of zero
between CRSs on one ellipsoid. -/
def isNoop (step : Single) : Bool :=
  match step.kind with
  | .registry code _ =>
    (r.op code).any fun op =>
      decide (op.method ∈ [9603, 1031, 1035]) &&
        op.params.all (fun (_, v) =>
          match v with
          | .number n => n.eq F64.zero
          | _ => false) &&
        r.ellipsoid step.src == r.ellipsoid step.dst
  | _ => false

/-- `ACCURACY_ENSEMBLE_ETRS89`. -/
def accuracyEnsembleEtrs89 : F64 := ⟨0x3fb999999999999a⟩

/-- Two steps through ETRS89 between national realizations, one of them PROJ's
`noop`. -/
def throughEtrs89 (a b : Single) (accuracy next : F64) : Bool :=
  decide (accuracy.max next ≤ accuracyEnsembleEtrs89) &&
    (r.name a.dst == "ETRS89" || startsWith (r.name a.dst) "ETRF") &&
    startsWith (r.name a.src) "ETRS89-" && startsWith (r.name b.dst) "ETRS89-" &&
    (isNoop r a || isNoop r b)

/-- The loop of `getAccuracy`: `accuracy` so far, and the accuracy already read
of the next step, -1 for none. -/
def accuracyFrom : List Single → F64 → F64 → F64
  | [], accuracy, _ => accuracy
  | [a], accuracy, next =>
    let sub := if F64.zero ≤ next then next else a.accuracy
    if sub < F64.zero then unknownAccuracy
    else (if accuracy < F64.zero then F64.zero else accuracy) + sub
  | a :: b :: rest, accuracy, next =>
    let sub := if F64.zero ≤ next then next else a.accuracy
    if sub < F64.zero then unknownAccuracy
    else
      let accuracy := if accuracy < F64.zero then F64.zero else accuracy
      if F64.zero < sub then
        if F64.zero < b.accuracy ∧ throughEtrs89 r a b sub b.accuracy = true then
          accuracyFrom rest (accuracy + sub.max b.accuracy) unknownAccuracy
        else
          accuracyFrom (b :: rest) (accuracy + sub) b.accuracy
      else
        accuracyFrom (b :: rest) (accuracy + sub) unknownAccuracy

/-- `getAccuracy` of a list of operations: the sum, unknown if any step's is,
with its ETRS89-realization rule. -/
def stepsAccuracy (steps : List Single) : F64 :=
  accuracyFrom r steps unknownAccuracy unknownAccuracy

/-! ## Steps -/

/-- The CRS an operation names. -/
def Operation.end (code : Option Nat) : CrsRef := .epsg (code.getD 0)

/-- A registry operation as a single step. -/
def Operation.single (op : Operation) (inverse : Bool) : Single :=
  let isConversion := decide (op.table = .conversion)
  let src := Operation.end op.src
  let dst := Operation.end op.dst
  { kind := .registry op.code inverse
    src := if inverse then dst else src
    dst := if inverse then src else dst
    name := if inverse then invertName op.name isConversion else op.name
    accuracy := if isConversion then F64.zero else op.accuracy.getD unknownAccuracy
    extent := if isConversion then some world else op.area
    isConversion := isConversion
    identified := true
    ballpark := false }

/-- The deriving conversion of a projected CRS, forward (base to projected) or
inverse. -/
def projection (projected : Nat) (inverse : Bool) : Option Single := do
  let facts ← r.lookUp (.epsg projected)
  let (name, _) ← facts.conversion
  let base := CrsRef.epsg (← facts.base)
  let p := CrsRef.epsg projected
  pure
    { kind := .projection projected inverse
      src := if inverse then p else base
      dst := if inverse then base else p
      name := if inverse then inverseOf ++ name else name
      accuracy := F64.zero
      extent := some world
      isConversion := true
      identified := true
      ballpark := false }

/-- The operation PROJ creates between two geodetic CRSs on one datum without
its database. -/
def sameDatumStep (src dst : CrsRef) : Option Single :=
  let geocentric := r.kind src = .geocentric ∨ r.kind dst = .geocentric
  let conversion := decide (geocentric ∧ r.kind src ≠ r.kind dst)
  if (r.kind src).isGeodetic && (r.kind dst).isGeodetic then
    some
      { kind := .sameDatum
        src := src
        dst := dst
        name := sameDatumName r src dst
        accuracy := F64.zero
        extent :=
          if conversion then some world
          -- The source's area when both CRSs share it.
          else if (r.extent src).isSome && sameExtent (r.extent src) (r.extent dst) then
            r.extent src
          else some world
        isConversion := conversion
        identified := false
        ballpark := false }
  else none

/-- The area two CRSs cover, the world where neither has one; `none` where theirs
don't meet. -/
def commonExtent : Option Extent → Option Extent → Option Extent
  | some a, some b => a.intersection b
  | a, b => some ((a.or b).getD world)

/-- Between a datum ensemble and one of its members, over the area both CRSs
cover. -/
def ensembleMemberStep (src dst : CrsRef) : Option Single :=
  if (r.kind src).isGeodetic && (r.kind dst).isGeodetic then do
    let accuracy ← r.ensembleMember (← r.datum src) (← r.datum dst)
    let extent ← commonExtent (r.extent src) (r.extent dst)
    pure
      { kind := .ensembleMember
        src := src
        dst := dst
        name := opName r ensembleMemberName src dst
        accuracy := accuracy
        extent := some extent
        isConversion := false
        identified := false
        ballpark := false }
  else none

/-! ## Registered operations -/

/-- Whether the projected CRS derives by this conversion: by code, or by name
where the definition gives the conversion no code. -/
def derivesBy (op : Operation) (p : CrsRef) : Bool :=
  ((r.lookUp p).bind (·.conversion)).any fun (name, code) =>
    match code with
    | some code => decide (code = op.code)
    | none => decide (name = op.name)

/-- Where a conversion between vertical CRSs leads: to the next step's CRS on
the same datum, or the operation's target. -/
def verticalTarget (whole : Operation) (cur : CrsRef) (next : Option Operation) : Option CrsRef :=
  match next with
  | some n => (n.ends.map CrsRef.epsg).find? fun c => r.verticalDatum c == r.verticalDatum cur
  | none => whole.dst.map CrsRef.epsg

/-- A change between CRSs on one datum, where the coordinates are not in the
CRS already. -/
def bridge (cur dst : CrsRef) : Option (List Single) :=
  if cur = dst then some [] else (sameDatumStep r cur dst).map ([·])

/-- The deriving conversion of a projected CRS: inverse when the coordinates are in
that CRS, forward into the next step's source CRS. -/
def derivingStep (s : Operation) (next : Option Operation) (cur : CrsRef) : Option Single :=
  if derivesBy r s cur then projection r cur.code true
  else
    (((next.bind (·.src)).map CrsRef.epsg).filter fun p => derivesBy r s p).bind fun p =>
      projection r p.code false

/-- A conversion of a registered concatenation that takes its CRSs from its
neighbours, from the CRS the chain is at: the steps it makes and the CRS it
leads to. -/
def conversionSteps (whole s : Operation) (next : Option Operation) (cur : CrsRef) :
    Option (List Single × CrsRef) :=
  if r.kind cur = .vertical then do
    let target ← verticalTarget r whole cur next
    pure
      ([{ kind := .verticalConversion
          src := cur
          dst := target
          name := s.name
          accuracy := F64.zero
          extent := some world
          isConversion := true
          identified := true
          ballpark := false }], target)
  else do
    let single ← derivingStep r s next cur
    let before ← bridge r cur single.src
    pure (before ++ [single], single.dst)

/-- Which way round a step of a registered concatenation runs, from the CRS the
chain is at.  A compound CRS stands for its vertical part when the chain is at
that vertical CRS. -/
def runsForward (a b cur : CrsRef) : Option Bool :=
  if a = cur ∨ r.verticalOf a = some cur then some true
  else if b = cur ∨ r.verticalOf b = some cur then some false
  -- Different CRSs on one datum.
  else if r.datum a = r.datum cur then some true
  else if r.datum b = r.datum cur then some false
  else none

/-- One step of a registered concatenation. -/
def chainStep (whole s : Operation) (next : Option Operation) (cur : CrsRef) :
    Option (List Single × CrsRef) :=
  if s.table = .conversion ∧ (s.src.isNone ∨ s.dst.isNone) then
    conversionSteps r whole s next cur
  else do
    let forward ← runsForward r (.epsg (← s.src)) (.epsg (← s.dst)) cur
    let single := s.single !forward
    let before ← (if r.verticalOf single.src = some cur then some [] else bridge r cur single.src)
    pure (before ++ [single], single.dst)

/-- The steps of a registered concatenation, their directions following from
chaining their CRSs. -/
def chainSteps (whole : Operation) : List Nat → CrsRef → Option (List Single × CrsRef)
  | [], cur => some ([], cur)
  | step :: rest, cur => do
    let (steps, mid) ← chainStep r whole (← r.op step) (rest.head?.bind r.op) cur
    let (others, last) ← chainSteps whole rest mid
    pure (steps ++ others, last)

/-- A registered concatenation, the way it is registered. -/
def concatenated (op : Operation) : Option Candidate := do
  let src := CrsRef.epsg (← op.src)
  let (steps, cur) ← chainSteps r op op.steps src
  let dst := CrsRef.epsg (← op.dst)
  let last ← (if r.verticalOf cur = some dst then some [] else bridge r cur dst)
  let steps := steps ++ last
  pure
    { name := op.name
      src := src
      dst := dst
      steps := steps
      identified := true
      registry := some (op.code, false)
      accuracy := op.accuracy.getD (stepsAccuracy r steps)
      extent := op.area
      replaced := op.replaced
      requiresTime := steps.any fun s => (s.kind.op r).any fun o => isTimeDependent o.method }

/-- A registry operation, single or concatenated, as a candidate. -/
def registryCandidate (code : Nat) (inverse : Bool) : Option Candidate := do
  let op ← r.op code
  if op.table = .concatenated then
    let forward ← concatenated r op
    pure (if inverse then forward.inverse r else forward)
  else
    pure (Candidate.single r (op.single inverse))

/-! ## Concatenations -/

/-- Two steps undo each other. -/
def cancels (a b : Single) : Bool :=
  a.src == b.dst && a.dst == b.src &&
    match a.kind, b.kind with
    | .registry c i, .registry d j => c == d && i != j
    | .projection c i, .projection d j => c == d && i != j
    | .sameDatum, .sameDatum => true
    | .ensembleMember, .ensembleMember => true
    | _, _ => false

/-- A part's steps with their areas: a single step has the part's name and
area. -/
def Candidate.flat (c : Candidate) : List (Single × Option Extent) :=
  match c.steps with
  | [step] => [({ step with name := c.name }, c.extent)]
  | steps => steps.map fun s => (s, s.extent)

/-- The first pair of neighbours that undo each other left out. -/
def cancelFirst : List (Single × Option Extent) → Option (List (Single × Option Extent))
  | a :: b :: rest =>
    if cancels a.1 b.1 then some rest else (cancelFirst (b :: rest)).map (a :: ·)
  | _ => none

/-- Pairs that undo each other left out, as long as there are more than two
steps; `n` bounds the pairs. -/
def cancelPairs : Nat → List (Single × Option Extent) → List (Single × Option Extent)
  | 0, flat => flat
  | n + 1, flat =>
    if flat.length ≤ 2 then flat
    else
      match cancelFirst flat with
      | some rest => cancelPairs n rest
      | none => flat

/-- The intersection of the areas, skipping steps without one; `none` when they
don't meet. -/
def meet : List (Option Extent) → Option Extent → Option (Option Extent)
  | [], acc => some acc
  | none :: rest, acc => meet rest acc
  | some e :: rest, none => meet rest (some e)
  | some e :: rest, some acc =>
    match acc.intersection e with
    | some x => meet rest (some x)
    | none => none

/-- The candidate of several steps: the area of use their intersection. -/
def concatenateFlat (src dst : CrsRef) (flat : List (Single × Option Extent))
    (requiresTime checkExtent : Bool) : Option Candidate :=
  let steps := flat.map (·.1)
  let extent := meet (flat.map (·.2)) none
  if checkExtent && extent.isNone then none
  else
    some
      { name := concatenatedName steps
        src := src
        dst := dst
        steps := steps
        identified := false
        registry := none
        accuracy := stepsAccuracy r steps
        extent := extent.join
        replaced := false
        requiresTime := requiresTime }

/-- `createComputeMetadata`: flattens nested concatenations, drops pairs of
steps that undo each other, and computes the name, area of use and accuracy.
`none` when `checkExtent` is set and the areas don't meet. -/
def concatenate (parts : List Candidate) (checkExtent : Bool) : Option Candidate :=
  match parts with
  | [] => none
  | [part] => some part
  | first :: rest => do
    let last ← rest.getLast?
    let flat := (first :: rest).flatMap Candidate.flat
    match cancelPairs flat.length flat with
    | [(step, _)] => some (Candidate.single r step)
    | flat =>
      concatenateFlat r first.src last.dst flat ((first :: rest).any (·.requiresTime)) checkExtent

end

end Xeibe.Reproject.Select.Search

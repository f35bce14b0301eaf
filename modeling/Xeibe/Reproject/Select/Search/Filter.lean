import Xeibe.Reproject.Select.Search.Candidate

/-!
# Which candidates survive, and in which order

PROJ's `FilterResults` and `SortFunction`: candidates outside the area of
interest go, the others are sorted, and of candidates that compute the same only
the first stays.
-/

namespace Xeibe.Reproject.Select.Search

open Xeibe.Geom (F64)

/-! ## Areas -/

/-- The areas the filter works with: the two CRSs' areas of use and the area of
interest, the user's or derived from them, and the accuracy asked for. -/
structure Areas where
  extent1 : Option Extent
  extent2 : Option Extent
  interest : Option Extent
  /-- The area of interest is the user's. -/
  userInterest : Bool
  /-- 0 for none. -/
  accuracy : F64

/-- The user's area of interest, else the smaller of the two CRSs' areas. -/
def Areas.new (catalogue : Catalogue) (extent1 extent2 : Option Extent) (selection : Selection) :
    Areas :=
  let accuracy := selection.accuracy.getD F64.zero
  match selection.areaOfInterest with
  | some (west, south, east, north) =>
    ⟨extent1, extent2, some (Extent.new none west south east north), true, accuracy⟩
  | none =>
    let interest :=
      match extent1, extent2 with
      | some a, some b =>
        some (if a.pseudoArea catalogue.sin < b.pseudoArea catalogue.sin then a else b)
      | some a, none => some a
      | none, b => b
    ⟨extent1, extent2, interest, false, accuracy⟩

/-- The two CRSs' areas of use, where they are known. -/
def Areas.extents (areas : Areas) : List Extent := areas.extent1.toList ++ areas.extent2.toList

/-! ## What is kept -/

def isNullTransformation (name : String) : Bool :=
  !containsText name " + " &&
    [ballparkGeocentricTranslation, ballparkGeographicOffset, nullGeographicOffset,
      nullGeocentricTranslation].any (startsWith name)

section

variable (r : Registry) (catalogue : Catalogue)

/-- Whether every step can be run. -/
def isExportable (c : Candidate) : Bool :=
  c.leaves.all fun s => (s.kind.op r).all fun op =>
    decide (op.table = .conversion) || catalogue.runs op

end

/-- As accurate as asked for. -/
def Areas.accurate (areas : Areas) (c : Candidate) : Bool :=
  areas.accuracy.eq F64.zero ||
    (decide (F64.zero ≤ c.accuracy) && decide (c.accuracy ≤ areas.accuracy))

/-- Whether a candidate's area meets the area of interest, or contains it. -/
def Areas.meets (areas : Areas) (strict : Bool) (c : Candidate) : Bool :=
  match areas.interest with
  | none => true
  | some interest =>
    c.extent.any fun e => if strict then e.contains interest else e.intersects interest

/-- `filterOut` with ballparks disallowed. -/
def filterOut (list : List Candidate) (areas : Areas) (strict : Bool) : List Candidate :=
  let usable := list.filter fun c => areas.accurate c && !c.hasBallpark
  let res := usable.filter (areas.meets strict)
  -- What is noted of the candidates' areas, where there is an area of interest.
  let withExtent := areas.interest.isSome && usable.any (·.extent.isSome)
  let withoutExtent := areas.interest.isSome && usable.any (·.extent.isNone)
  if res.isEmpty && (!withExtent || withoutExtent) then usable else res

section

variable (r : Registry) (catalogue : Catalogue)

/-- Whether the area of interest is contained by a candidate that uses no grid. -/
def containsInterestWithoutGrid (list : List Candidate) (areas : Areas) : Bool :=
  areas.interest.any fun interest =>
    list.any fun c => c.extent.any (·.contains interest) && !c.hasGrids r

/-! ## Pipelines -/

/-- A step of the PROJ pipeline a candidate exports to. -/
inductive Token where
  | push
  | pop
  /-- Geographic to geocentric on an ellipsoid. -/
  | cart (ellipsoid : Nat)
  | invCart (ellipsoid : Nat)
  /-- Any other step: an identity for comparison plus its direction. -/
  | step (text : String) (inverse : Bool)
deriving DecidableEq, Repr

def Token.inverse : Token → Token
  | .push => .pop
  | .pop => .push
  | .cart e => .invCart e
  | .invCart e => .cart e
  | .step s inverse => .step s (!inverse)

def ellipsoidOf (crs : CrsRef) : Nat := (r.ellipsoid crs).getD 0

/-- A parameter in the text of a step. -/
def paramText : Nat × ParamValue → String
  | (c, .number n) => toString c ++ "=" ++ catalogue.scientific n
  | (c, .file f) => toString c ++ "=" ++ f
  | (c, .missing) => toString c ++ "=?"

/-- The file of a grid operation, in PROJ's catalogue. -/
def gridEntry (op : Operation) : Option GridEntry :=
  if op.table = .grid then op.gridName.bind fun n => catalogue.lookup n op.name else none

/-- What PROJ runs for a grid: a geoid model is `vgridshift` backwards, an offset
grid `vgridshift` with its sign. -/
def gridStep (method : Nat) : String :=
  if method ∈ geoidGridMethods then "vgridshift"
  else
    match offsetGridAdds method with
    | some true => "vgridshift 1"
    | some false => "vgridshift -1"
    | none => toString method

/-- The methods that keep the height aside, in the geographic 2D domain. -/
def geog2dMethods : List Nat := [9603, 9606, 9607, 9636, 1063, 1133, 1054, 1057]

def geog3dMethods : List Nat := [1035, 1037, 1038, 1039, 1062, 1140, 1055, 1058]

/-- A parameter of a zero. -/
def isZero : Nat × ParamValue → Bool
  | (_, .number n) => n.eq F64.zero
  | _ => false

def registryTokens (op : Operation) : List Token :=
  match gridEntry catalogue op with
  | some entry =>
    [.step (gridStep op.method ++ " " ++ entry.file)
      (entry.inverse != decide (op.method ∈ geoidGridMethods))]
  | none =>
    let math := Token.step (toString op.method ++ " " ++
      String.intercalate " " (op.params.map (paramText catalogue))) false
    let zero := op.params.all isZero
    let es := ellipsoidOf r (Operation.end op.src)
    let ed := ellipsoidOf r (Operation.end op.dst)
    if op.method ∈ geog2dMethods then
      if zero && es == ed then []
      else if zero then [.push, .cart es, .invCart ed, .pop]
      else [.push, .cart es, math, .invCart ed, .pop]
    else if op.method ∈ geog3dMethods then
      if zero && es == ed then []
      else if zero then [.cart es, .invCart ed]
      else [.cart es, math, .invCart ed]
    else if zero && decide (op.method ∈ [1031, 1032, 1033]) then []
    else [math]

/-- The pipeline steps between two CRSs whose coordinates are the same. -/
def identityTokens (src dst : CrsRef) : List Token :=
  match r.kind src, r.kind dst with
  | .geocentric, .geocentric => []
  | _, .geocentric => [.cart (ellipsoidOf r src)]
  | .geocentric, _ => [.invCart (ellipsoidOf r dst)]
  | _, _ => []

mutual

/-- The pipeline steps PROJ writes for one step between two CRSs. -/
def SingleKind.tokens (src dst : CrsRef) : SingleKind → List Token
  | .composite parts saveHorizontal =>
    if saveHorizontal then
      .step "push v_1 v_2" false :: (tokensOf parts ++ [.step "pop v_1 v_2" false])
    else
      tokensOf parts
  | .verticalConversion => []
  | .ballparkVertical => []
  | .sameDatum => identityTokens r src dst
  | .ensembleMember => identityTokens r src dst
  | .projection c inverse => [.step ("proj " ++ toString c) inverse]
  | .registry code inverse =>
    let forward := ((r.op code).map (registryTokens r catalogue)).getD []
    if inverse then forward.reverse.map Token.inverse else forward

def Single.tokens : Single → List Token
  | ⟨kind, src, dst, _, _, _, _, _, _⟩ => kind.tokens src dst

def tokensOf : List Single → List Token
  | [] => []
  | step :: steps => step.tokens ++ tokensOf steps

end

/-- One pass that removes neighbours that undo each other. -/
def cancelTokens : List Token → List Token
  | a :: b :: rest => if a.inverse = b then cancelTokens rest else a :: cancelTokens (b :: rest)
  | tokens => tokens

/-- Passes until nothing changes; `n` bounds them. -/
def cancelAllTokens : Nat → List Token → List Token
  | 0, tokens => tokens
  | n + 1, tokens =>
    let next := cancelTokens tokens
    if next.length = tokens.length then tokens else cancelAllTokens n next

def pipelineTokens (c : Candidate) : List Token :=
  let tokens := tokensOf r catalogue c.steps
  cancelAllTokens tokens.length tokens

/-- What `removeDuplicateOps` compares: the pipeline and the area. -/
def duplicateKey (c : Candidate) : List Token × Option String :=
  (pipelineTokens r catalogue c, c.extent.map fun e =>
    String.join ([e.west, e.south, e.east, e.north].map fun x => "-" ++ catalogue.display x))

/-! ## Sort keys -/

def areaForSort (c : Candidate) (areas : Areas) : F64 :=
  let area (e : Option Extent) : F64 := Extent.pseudoAreaOf catalogue.sin e
  match c.extent with
  | none => F64.zero
  | some extent =>
    match areas.interest with
    | some interest => area (extent.intersection interest)
    | none =>
      match areas.extent1, areas.extent2 with
      | some e1, some e2 =>
        let x := extent.intersection e1
        let y := extent.intersection e2
        let both :=
          match x, y with
          | some x, some y => area (x.intersection y)
          | _, _ => F64.zero
        area x + area y - both
      | some e, none => area (extent.intersection e)
      | none, some e => area (extent.intersection e)
      | none, none => extent.pseudoArea catalogue.sin

/-- The number of dimensions of a CRS's position and height together; none for a
vertical CRS. -/
def dimension : CrsKind → Option Nat
  | .geographic2d | .projected => some 2
  | .geographic3d | .geocentric | .compound => some 3
  | _ => none

/-- Each once, in order. -/
def distinct {α : Type} [DecidableEq α] (xs : List α) : List α :=
  xs.foldl (fun seen x => if x ∈ seen then seen else seen ++ [x]) []

/-- The CRSs at the ends of the leaves. -/
def Candidate.leafEnds (c : Candidate) : List CrsRef := c.leaves.flatMap fun s => [s.src, s.dst]

/-- How many CRSs a route passes through whose dimension isn't the source's. -/
def offDimension (c : Candidate) : Nat :=
  match dimension (r.kind c.src) with
  | none => 0
  | some want =>
    let seen := distinct (c.leafEnds.filter fun x => x ≠ c.src && x ≠ c.dst)
    seen.countP fun x => (dimension (r.kind x)).any (· ≠ want)

/-- A CRS's datum and vertical datum. -/
def datumsOf (crs : CrsRef) : List Nat := (r.datum crs).toList ++ (r.verticalDatum crs).toList

/-- When the datums a route passes through were published, newest first. -/
def viaPublished (c : Candidate) : List String :=
  let ends := datumsOf r c.src ++ datumsOf r c.dst
  let datums := distinct ((c.leafEnds.flatMap (datumsOf r)).filter fun d => d ∉ ends)
  (datums.filterMap fun d => (r.datumOf d).bind (·.published)).insertionSort (· ≥ ·)

/-- "Longitude offset". -/
def longitudeOffset : Nat := 8602

/-- A longitude rotation whose angle isn't the difference between its CRSs'
prime meridians. -/
def offMeridian (op : Operation) : Bool :=
  match op.param longitudeOffset with
  | none => false
  | some angle =>
    match op.src.bind catalogue.primeMeridian, op.dst.bind catalogue.primeMeridian with
    | some src, some dst => decide (⟨0x3d719799812dea11⟩ < (angle - (src - dst)).abs)
    | _, _ => false

/-- A registry operation of a candidate, with its direction. -/
structure Used where
  op : Operation
  inverse : Bool

/-- The registry operations of a candidate, in order. -/
def Candidate.used (c : Candidate) : List Used :=
  c.leaves.filterMap fun s =>
    match s.kind with
    | .registry code inverse => (r.op code).map fun op => ⟨op, inverse⟩
    | _ => none

/-- Sort keys, computed once per candidate. -/
structure Keys where
  area : F64
  accuracy : F64
  exportable : Bool
  hasGrids : Bool
  nullTransformation : Bool
  stepCount : Nat
  projStepCount : Nat
  emulations : Nat
  replaced : Nat
  inverted : Nat
  offMeridian : Nat
  /-- (EPSG variant, code, inverse). -/
  registry : List (Nat × Nat × Bool)
  /-- The CRSs each registry operation runs between. -/
  shape : List (Option Nat × Option Nat)
  via : List String
  ownIdentities : Nat
  leaves : Nat
  compoundOps : Nat
  offDimension : Nat

def keys (c : Candidate) (areas : Areas) : Keys :=
  let used := c.used r
  { area := areaForSort catalogue c areas
    accuracy := c.accuracy
    exportable := isExportable r catalogue c
    hasGrids := c.hasGrids r
    nullTransformation := isNullTransformation c.name
    stepCount := c.steps.length
    -- Pipelines with `xyzgridshift` are left out of this comparison.
    projStepCount :=
      if used.any (fun u => decide (u.op.method ∈ xyzgridshiftMethods)) then 0
      else (pipelineTokens r catalogue c).length + 1
    emulations := used.countP fun u => !u.op.emulates.isEmpty
    replaced := used.countP (·.op.replaced)
    inverted := used.countP (·.inverse)
    offMeridian := used.countP fun u => Search.offMeridian catalogue u.op
    registry := used.map fun u => (u.op.variant, u.op.code, u.inverse)
    shape := used.map fun u => if u.inverse then (u.op.dst, u.op.src) else (u.op.src, u.op.dst)
    via := viaPublished r c
    ownIdentities := c.leaves.countP fun s =>
      match s.kind with
      | .ensembleMember => true
      | _ => false
    leaves := c.leaves.length
    compoundOps := used.countP fun u => u.op.ends.any fun x => r.kind (.epsg x) = .compound
    offDimension := Search.offDimension r c }

end

/-! ## The order -/

/-- `cmp` of two lists: the first difference, else the shorter first. -/
def compareLists {α : Type} (cmp : α → α → Ordering) : List α → List α → Ordering
  | [], [] => .eq
  | [], _ :: _ => .lt
  | _ :: _, [] => .gt
  | a :: as, b :: bs => (cmp a b).then (compareLists cmp as bs)

/-- `cmp` of two options: `None` first. -/
def compareOptions (a b : Option Nat) : Ordering :=
  match a, b with
  | none, none => .eq
  | none, some _ => .lt
  | some _, none => .gt
  | some a, some b => compare a b

def compareShapes (a b : Option Nat × Option Nat) : Ordering :=
  (compareOptions a.1 b.1).then (compareOptions a.2 b.2)

def compareUsed (a b : Nat × Nat × Bool) : Ordering :=
  (compare a.1 b.1).then ((compare a.2.1 b.2.1).then (compare a.2.2 b.2.2))

/-- Where nothing before tells two candidates apart: the newer realizations, the
CRSs by code, the newer variants, the codes. -/
def beforeByCodes (a b : Keys) : Bool :=
  if a.via ≠ b.via then compareLists compare b.via a.via == .lt
  else if a.shape ≠ b.shape then compareLists compareShapes a.shape b.shape == .lt
  else if a.registry.map (·.1) ≠ b.registry.map (·.1) then
    compareLists compare (b.registry.map (·.1)) (a.registry.map (·.1)) == .lt
  else compareLists compareUsed a.registry b.registry == .lt

/-- What xeibe compares in place of PROJ's names: each where the ones before are
equal. -/
def beforeByCounts (a b : Keys) : Bool :=
  if a.stepCount ≠ b.stepCount then decide (a.stepCount < b.stepCount)
  else if a.projStepCount ≠ 0 ∧ b.projStepCount ≠ 0 ∧ a.projStepCount ≠ b.projStepCount then
    decide (a.projStepCount < b.projStepCount)
  else if a.emulations ≠ b.emulations then decide (a.emulations < b.emulations)
  else if a.ownIdentities ≠ b.ownIdentities then decide (a.ownIdentities < b.ownIdentities)
  else if a.compoundOps ≠ b.compoundOps then decide (a.compoundOps < b.compoundOps)
  else if a.replaced ≠ b.replaced then decide (a.replaced < b.replaced)
  else if a.inverted ≠ b.inverted then decide (a.inverted < b.inverted)
  else if a.offMeridian ≠ b.offMeridian then decide (a.offMeridian < b.offMeridian)
  else if a.leaves ≠ b.leaves then decide (a.leaves < b.leaves)
  else if a.offDimension ≠ b.offDimension then decide (a.offDimension < b.offDimension)
  else beforeByCodes a b

/-- From equal areas on: the better accuracy, then no grids. -/
def beforeByAccuracy (a b : Keys) : Bool :=
  if F64.zero ≤ a.accuracy ∧ a.accuracy < b.accuracy then true
  else if F64.zero ≤ b.accuracy ∧ b.accuracy < a.accuracy then false
  else if F64.zero ≤ a.accuracy ∧ a.accuracy.eq b.accuracy = true ∧ a.hasGrids ≠ b.hasGrids then
    !a.hasGrids
  else beforeByCounts a b

/-- `SortFunction::compare`: whether `a` goes before `b`. -/
def before (a b : Keys) : Bool :=
  if a.exportable ≠ b.exportable then a.exportable
  else if a.nullTransformation ≠ b.nullTransformation then !a.nullTransformation
  else if F64.zero ≤ a.accuracy ∧ b.accuracy < F64.zero then true
  else if F64.zero ≤ b.accuracy ∧ a.accuracy < F64.zero then false
  else if a.accuracy < F64.zero ∧ b.accuracy < F64.zero ∧ a.hasGrids ≠ b.hasGrids then a.hasGrids
  else if F64.zero < a.area then
    if b.area < a.area then true
    else if a.area < b.area then false
    else beforeByAccuracy a b
  else if F64.zero < b.area then false
  else beforeByAccuracy a b

/-! ## The clean-ups -/

def removeSyntheticNullTransforms (list : List Candidate) (containsWithoutGrid : Bool) :
    List Candidate :=
  if containsWithoutGrid && decide (1 < list.length) &&
      list.getLast?.any (fun c => isNullTransformation c.name) then
    list.dropLast
  else
    list

def transformationStepCount (c : Candidate) : Nat :=
  match c.steps with
  | [_] => 1
  | steps => steps.countP fun s => !s.isConversion

/-- The steps `removeUninterestingOps` counts. -/
def interestingSteps (c : Candidate) : Nat :=
  if c.identified then 1 else transformationStepCount c

/-- Whether a candidate adds nothing to the one kept before it: the same, or no
more accurate over the same area in more steps. -/
def uninteresting (last c : Candidate) : Bool :=
  let sameExtent :=
    match c.extent, last.extent with
    | none, none => true
    | some x, some l => x.contains l && l.contains x
    | _, _ => false
  let noBetter :=
    (decide (last.accuracy ≤ c.accuracy) && decide (F64.zero ≤ last.accuracy)) ||
      (decide (c.accuracy < F64.zero) && decide (F64.zero ≤ last.accuracy))
  last.same c || (noBetter && sameExtent && decide (interestingSteps last < interestingSteps c))

/-- `removeUninterestingOps`, after `last`. -/
def removeUninterestingOps : Option Candidate → List Candidate → List Candidate
  | _, [] => []
  | last, c :: rest =>
    if last.any fun l => uninteresting l c then removeUninterestingOps last rest
    else c :: removeUninterestingOps (some c) rest

/-- The first of those with one key. -/
def firstOfEach {α κ : Type} [DecidableEq κ] (key : α → κ) : List κ → List α → List α
  | _, [] => []
  | seen, x :: rest =>
    if key x ∈ seen then firstOfEach key seen rest
    else x :: firstOfEach key (key x :: seen) rest

section

variable (r : Registry) (catalogue : Catalogue)

/-- `removeDuplicateOps`: of candidates with the same pipeline and area the
first. -/
def removeDuplicateOps (list : List Candidate) : List Candidate :=
  firstOfEach (duplicateKey r catalogue) [] list

/-- A stable sort: candidates equal in every key keep the search's order. -/
def sortOps (areas : Areas) (list : List Candidate) : List Candidate :=
  let keyed := list.map fun c => (keys r catalogue c areas, c)
  (keyed.insertionSort fun a b => before a.1 b.1 = true ∨ before b.1 a.1 = false).map (·.2)

/-- `filterAndSort`: filter, sort, then PROJ's clean-ups. -/
def filterAndSort (list : List Candidate) (areas : Areas) : List Candidate :=
  let res := filterOut list areas false
  let containsWithoutGrid := containsInterestWithoutGrid r res areas
  let res := removeSyntheticNullTransforms (sortOps r catalogue areas res) containsWithoutGrid
  let res := removeDuplicateOps r catalogue (removeUninterestingOps none res)
  removeSyntheticNullTransforms res containsWithoutGrid

end

end Xeibe.Reproject.Select.Search

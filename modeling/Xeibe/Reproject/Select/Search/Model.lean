import Mathlib.Algebra.Ring.Nat
import Xeibe.Reproject.Select.Search.Filter

/-!
# The search for candidate operations between two CRSs

The direct operations of the registry, routes through realizations of a datum
ensemble, through the CRSs of a datum, through an intermediate CRS, and the
synthetic conversions between CRSs on one datum.  The searches for pairs with a
vertical or compound CRS are a parameter.
-/

namespace Xeibe.Reproject.Select.Search

open Xeibe.Geom (F64)

/-- What a search runs with: the registry, the catalogue of grids, the areas and
the grids that can be used. -/
structure Setting where
  r : Registry
  catalogue : Catalogue
  areas : Areas
  grids : Grids

/-- The first list that isn't empty. -/
def firstNonEmpty {α β : Type} (f : α → List β) : List α → List β
  | [] => []
  | x :: rest =>
    let found := f x
    if found.isEmpty then firstNonEmpty f rest else found

/-- Ties keep their order. -/
def sortBy {α : Type} (cmp : α → α → Ordering) (xs : List α) : List α :=
  xs.insertionSort fun a b => (cmp a b).isLE = true

/-! ## PROJ's null operations -/

/-- Whether a step is one of PROJ's null operations between a datum ensemble
and a member. -/
def throughEnsembleOperation (c : Candidate) : Bool :=
  c.leaves.any fun s =>
    match s.kind with
    | .registry code _ => decide (projCodes ≤ code)
    | _ => false

/-- Every operation is a concatenation with a step through one of PROJ's null
operations. -/
def onlyThroughEnsembleOperations (ops : List Candidate) : Bool :=
  ops.all fun c => decide (1 < c.steps.length) && throughEnsembleOperation c

/-- The one of PROJ's null operations that joins the two CRSs, and whether it
runs inverted from `a` to `b`. -/
def projEnsembleOperation (r : Registry) : CrsRef → CrsRef → Option (Nat × Bool)
  | .epsg a, .epsg b =>
    (r.byCrs a).findSome? fun code => do
      let op ← r.op code
      if projCodes ≤ code ∧ (op.dst = some b ∨ op.src = some b) then
        some (code, decide (op.src = some b))
      else
        none
  | _, _ => none

/-! ## Registered operations -/

/-- A registered operation that could join two CRSs, with its area. -/
structure Row where
  op : Operation
  extent : Extent

namespace Row

/-- The larger area first, a known accuracy before an unknown one, the better
accuracy first. -/
def compare (sin : F64 → F64) (a b : Row) : Ordering :=
  ((b.extent.pseudoArea sin).totalCmp (a.extent.pseudoArea sin)).then
    ((Ord.compare a.op.accuracy.isNone b.op.accuracy.isNone).then
      ((a.op.accuracy.getD F64.zero).totalCmp (b.op.accuracy.getD F64.zero)))

end Row

section

variable (x : Setting)

/-- The replacement of `op` (same CRSs, same table) is in `set`: one whose grid
PROJ doesn't know doesn't count. -/
def supersededIn (op : Operation) (set : List Nat) : Bool :=
  op.supersededBy.any fun (code, same, table) =>
    same && decide (table = op.table) && decide (code ∈ set) &&
      (x.r.op code).all fun new =>
        decide (new.table ≠ .grid) ||
          new.gridName.any fun n => (x.catalogue.lookup n new.name).isSome

def intersectsCrsAreas (e : Extent) : Bool := x.areas.extents.all e.intersects

/-- The live operations with an area that join two CRSs, either way round. -/
def rows (s t : Nat) : List Row :=
  (((x.r.byCrs s).insertionSort (· ≤ ·)).filterMap x.r.op).filterMap fun op =>
    let forward := op.src = some s ∧ op.dst = some t
    let backward := op.src = some t ∧ op.dst = some s
    if !op.deprecated ∧ op.table ≠ .conversion ∧ (forward ∨ backward) then
      op.area.map fun extent => ⟨op, extent⟩
    else
      none

/-- The registered operations between two CRSs, the largest areas first. -/
def registered (s t : Nat) : List Candidate :=
  let rows := sortBy (Row.compare x.catalogue.sin) (rows x s t)
  let keep := rows.filter fun row => !supersededIn x row.op (rows.map (·.op.code))
  let any := keep.any fun row => intersectsCrsAreas x row.extent
  (keep.filter fun row => !any || intersectsCrsAreas x row.extent).filterMap fun row =>
    (registryCandidate x.r row.op.code (decide (row.op.src ≠ some s))).filter
      (Candidate.gridsAvailable x.r x.catalogue x.grids)

/-- The conversion to a projected target whose base is the source. -/
def baseConversion (s t : Nat) : Option Single :=
  if x.r.kind (.epsg t) = .projected ∧ x.r.base (.epsg t) = some (.epsg s) then
    projection x.r t false
  else none

/-- `createFromCoordinateReferenceSystemCodes` with `tryReverseOrder`. -/
def crsCodes (s t : Nat) : List Candidate :=
  match baseConversion x s t with
  | some conversion => [Candidate.single x.r conversion]
  | none => registered x s t

/-- `findOpsInRegistryDirect`: registry operations between the two CRSs, either
way round, filtered; and whether there were any before. -/
def findOpsDirect : CrsRef → CrsRef → List Candidate × Bool
  | .epsg s, .epsg t =>
    let list := crsCodes x s t
    if list.isEmpty then ([], false) else (filterOut list x.areas false, true)
  | _, _ => ([], false)

/-! ## Intermediate CRSs -/

/-- `useIrrelevantPivot`: a concatenated operation that passes through the
source or target CRS on the way. -/
def irrelevantPivot (op : Operation) (s t : Nat) : Bool :=
  decide (2 ≤ op.steps.length) &&
    ((op.steps.dropLast.filterMap x.r.op).any fun step =>
      decide (step.dst = some s) || decide (step.dst = some t))

/-- The year in the name of a realization: two digits are of the last century. -/
def realizationYear (name front : String) : Int :=
  let digits := (name.toList.drop front.toList.length).takeWhile (·.isDigit)
  let n : Nat := digits.foldl (fun n c => 10 * n + (c.toNat - 48)) 0
  let v : Nat := if n < 2 ^ 31 then n else 0
  if 80 ≤ v ∧ v ≤ 99 then v + 1900 else v

def checkPivot (pivot s t : Nat) : Bool :=
  let sn := x.r.name (.epsg s)
  let tn := x.r.name (.epsg t)
  let xn := x.r.name (.epsg pivot)
  let sd := realizationYear sn "ETRF"
  let td := realizationYear tn "ETRF"
  let xd := realizationYear xn "ITRF"
  if startsWith sn "ETRF" ∧ startsWith tn "ETRF" ∧ startsWith xn "ITRF" ∧ 0 < sd ∧ 0 < td ∧
      0 < xd ∧ (xd < min sd td ∨ max sd td < xd) then
    false
  else
    !(startsWith sn "NAD83(CSRS)" && startsWith tn "NAD83(CSRS)" &&
      (xn == "NAD83" || xn == "WGS 84"))

/-- An operation by the ends it runs between, inverse or not. -/
def Operation.from (op : Operation) (inverse : Bool) : Option Nat :=
  if inverse then op.dst else op.src

def Operation.to (op : Operation) (inverse : Bool) : Option Nat :=
  if inverse then op.src else op.dst

/-- Two operations that meet at an intermediate CRS. -/
structure Pair where
  op1 : Operation
  op2 : Operation

/-- How many accuracies are unknown, and the sum of the others. -/
def Pair.accuracy (p : Pair) : Nat × F64 :=
  (p.op1.accuracy.isNone.toNat + p.op2.accuracy.isNone.toNat,
    p.op1.accuracy.getD F64.zero + p.op2.accuracy.getD F64.zero)

def Pair.compare (a b : Pair) : Ordering :=
  (Ord.compare a.accuracy.1 b.accuracy.1).then (a.accuracy.2.totalCmp b.accuracy.2)

/-- The live operations of a CRS, by code. -/
def live (c : Nat) : List Operation :=
  (((x.r.byCrs c).filter fun code => (x.r.op code).any fun op =>
    !op.deprecated && decide (op.table ≠ .conversion)).insertionSort (· ≤ ·)).filterMap x.r.op

/-- The CRSs' areas of use, the world left out. -/
def narrowAreas : List Extent := x.areas.extents.filter fun e => !e.isWorld

/-- The intermediate CRSs allowed: between geographic CRSs geographic ones, on
datums no older than the older of the two. -/
def intermediateOk (s t : Nat) (geographicOnly : Bool) (pivot : Nat) : Bool :=
  if !geographicOnly then true
  else
    match x.r.geodeticCrs pivot with
    | none => false
    | some g =>
      if g.kind = .geocentric then false
      else
        match x.r.publicationDate (.epsg s), x.r.publicationDate (.epsg t) with
        | some a, some b =>
          ((x.r.datumOf g.datum).bind (·.publicationDate)).all fun d =>
            decide ((if b < a then b else a) ≤ d)
        | _, _ => true

/-- The pairs of operations from `s` and to `t` that meet at an allowed CRS, each
run the way given. -/
def pairs (s t : Nat) (geographicOnly inv1 inv2 : Bool) : List Pair :=
  (live x s).flatMap fun op1 =>
    match op1.to inv1 with
    | none => []
    | some pivot =>
      if op1.from inv1 ≠ some s ∨ pivot = s ∨ pivot = t ∨
          !intermediateOk x s t geographicOnly pivot then []
      else
        (live x t).filterMap fun op2 =>
          if op2.from inv2 ≠ some pivot ∨ op2.to inv2 ≠ some t ∨ op1.code = op2.code then none
          else
            match op1.area, op2.area with
            | some a1, some a2 =>
              if a1.intersects a2 &&
                  (narrowAreas x).all (fun e => a1.intersects e && a2.intersects e) then
                some ⟨op1, op2⟩
              else none
            | _, _ => none

/-- A pair of operations as one candidate. -/
def Pair.candidate (p : Pair) (s t : Nat) (inv1 inv2 : Bool) (set1 set2 : List Nat) :
    Option Candidate :=
  if supersededIn x p.op1 set1 || supersededIn x p.op2 set2 || irrelevantPivot x p.op1 s t ||
      !checkPivot x ((p.op1.to inv1).getD 0) s t || irrelevantPivot x p.op2 s t then none
  else do
    let c1 ← registryCandidate x.r p.op1.code inv1
    let c2 ← registryCandidate x.r p.op2.code inv2
    (concatenate x.r [c1, c2] false).filter (Candidate.gridsAvailable x.r x.catalogue x.grids)

/-- `createFromCRSCodesWithIntermediates`: the four ways two operations can meet
at an intermediate CRS, each either way round. -/
def withIntermediates (s t : Nat) (geographicOnly : Bool) : List Candidate :=
  if s = t ∨ (x.r.byCrs s).isEmpty ∨ (x.r.byCrs t).isEmpty then []
  else
    [(false, false), (false, true), (true, false), (true, true)].flatMap fun (inv1, inv2) =>
      let rows := sortBy Pair.compare (pairs x s t geographicOnly inv1 inv2)
      rows.filterMap fun p =>
        p.candidate x s t inv1 inv2 (rows.map (·.op1.code)) (rows.map (·.op2.code))

/-! ## CRSs on one datum -/

/-- `createOperationsGeodToGeod` for two geodetic CRSs on one datum: an axis order
change, or the operation between CRSs on one datum. -/
def geodToGeod (s t : CrsRef) : List Candidate :=
  let latFirst (c : CrsRef) : Option Bool := (x.r.record c.code).map (·.northFirst)
  if !x.r.sameDatum s t then []
  else if (x.r.kind s).isGeographic ∧ (x.r.kind t).isGeographic ∧ latFirst s ≠ latFirst t then
    [Candidate.single x.r
      { kind := .sameDatum
        src := s
        dst := t
        name :=
          if x.r.kind s = .geographic3d ∨ x.r.kind t = .geographic3d then
            "axis order change (geographic3D horizontal)"
          else
            "axis order change (2D)"
        accuracy := F64.zero
        extent := some world
        isConversion := true
        identified := true
        ballpark := false }]
  else
    (sameDatumStep x.r s t).toList.map (Candidate.single x.r)

/-- `createOperation` without a database, between CRSs on one datum: the first of
PROJ's synthetic operations. -/
def conversionWithoutDatabase (a b : CrsRef) : Option Candidate :=
  if x.r.sameDatum a b then (geodToGeod x a b).head? else none

/-- The conversion between two CRSs, nothing when they are one. -/
def conversionBetween (a b : CrsRef) : Option (List Candidate) :=
  if a = b then some [] else (conversionWithoutDatabase x a b).map ([·])

/-! ## Intermediate datums -/

/-- An operation between a CRS on the source's or target's datum and one on
another: it runs towards the source or target side, or away from it. -/
structure Trfm where
  op : Operation
  toward : Bool
  extent : Extent
  /-- The datum at the far end. -/
  far : Nat

/-- The CRSs on a CRS's datum, or the CRS alone. -/
def sameDatumList (c : Nat) : List Nat :=
  match x.r.datum (.epsg c) with
  | none => [c]
  | some d => if (x.r.crsByDatum d).isEmpty then [c] else x.r.crsByDatum d

/-- The operations that end, or start, on the list. -/
def trfms (list : List Nat) (nad83Csrs selectOnTarget : Bool) : List Trfm :=
  let live := x.r.ops.filter fun op => !op.deprecated && decide (op.table ≠ .conversion)
  (sortBy (fun a b => compare a.code b.code) live).filterMap fun op => do
    let near ← (op.to !selectOnTarget)
    let far ← (op.from !selectOnTarget)
    let g ← x.r.geodeticCrs far
    if near ∈ list ∧ !(nad83Csrs && (g.name == "NAD83" || g.name == "WGS 84")) then
      op.area.map fun area => ⟨op, selectOnTarget, area, g.datum⟩
    else
      none

/-- Pairs of operations that meet on a datum, by the datum's code. -/
def datumPairs (s t : Nat) (fromS fromT : List Trfm) : List (Trfm × Trfm) :=
  let data := distinct ((fromS.map (·.far)).insertionSort (· ≤ ·))
  data.flatMap fun key =>
    (fromS.filter (·.far = key)).flatMap fun a =>
      if !(narrowAreas x).all fun e => e.intersects a.extent then []
      else
        (fromT.filter (·.far = key)).filterMap fun b =>
          if !a.extent.intersects b.extent ||
              !(narrowAreas x).all (fun e => e.intersects b.extent) ||
              irrelevantPivot x a.op s t || irrelevantPivot x b.op s t then none
          else some (a, b)

/-- A datum published before the cut-off date on the way, though the older of
the two isn't. -/
def olderDatum (s t : CrsRef) (ends : List CrsRef) : Bool :=
  let cutOff := "1900-01-01"
  let mostAncient :=
    match x.r.publicationDate s, x.r.publicationDate t with
    | some a, some b => some (if b < a then b else a)
    | some a, none => some a
    | none, b => b
  mostAncient.any fun min =>
    ends.any fun c => (x.r.publicationDate c).any fun d => decide (d < cutOff) && decide (cutOff < min)

/-- Two operations that meet on a datum as one candidate, with the conversions
before, between and after them. -/
def datumCandidate (src dst : CrsRef) (a b : Trfm) : Option Candidate := do
  let op1 ← registryCandidate x.r a.op.code a.toward
  let op2 ← registryCandidate x.r b.op.code (!b.toward)
  if olderDatum x src dst [op1.src, op1.dst, op2.src, op2.dst] then
    none
  else do
    let before ← conversionBetween x src op1.src
    let between ← conversionBetween x op1.dst op2.src
    let after ← conversionBetween x op2.dst dst
    (concatenate x.r (before ++ [op1] ++ between ++ [op2] ++ after) false).filter
      (Candidate.gridsAvailable x.r x.catalogue x.grids)

/-- `createBetweenGeodeticCRSWithDatumBasedIntermediates`. -/
def withDatumBasedIntermediates (s t : Nat) : List Candidate :=
  let src := CrsRef.epsg s
  let dst := CrsRef.epsg t
  if s = t ∨ !(x.r.kind src).isGeodetic ∨ !(x.r.kind dst).isGeodetic then []
  else
    let nad83Csrs :=
      startsWith (x.r.name src) "NAD83(CSRS)" && startsWith (x.r.name dst) "NAD83(CSRS)"
    let side (c : Nat) : List Trfm :=
      trfms x (sameDatumList x c) nad83Csrs true ++ trfms x (sameDatumList x c) nad83Csrs false
    let pairs := datumPairs x s t (side s) (side t)
    let codes := pairs.flatMap fun (a, b) => [a.op.code, b.op.code]
    pairs.filterMap fun (a, b) =>
      if supersededIn x a.op codes || supersededIn x b.op codes then none
      else datumCandidate x src dst a b

/-- `findsOpsInRegistryWithIntermediate`. -/
def findOpsWithIntermediate (datumBased : Bool) : CrsRef → CrsRef → List Candidate
  | .epsg s, .epsg t =>
    let geographicOnly :=
      (x.r.kind (.epsg s)).isGeographic && (x.r.kind (.epsg t)).isGeographic
    let res :=
      if datumBased then withDatumBasedIntermediates x s t
      else withIntermediates x s t geographicOnly
    if res.isEmpty then [] else filterOut res x.areas false
  | _, _ => []

/-! ## Realizations of an ensemble -/

/-- The step between a CRS on a datum ensemble and one on a member: PROJ's null
operation between the two where there is one, else an identity. -/
def ensembleStep (a b : CrsRef) : Option Candidate :=
  match projEnsembleOperation x.r a b with
  | some (code, inverse) => registryCandidate x.r code inverse
  | none => (ensembleMemberStep x.r a b).map (Candidate.single x.r)

/-- The CRSs on an ensemble's members, other than those on `other`'s datum. -/
def memberCrss (ensemble other : Nat) : List CrsRef :=
  ((((x.r.datumOf ensemble).bind (·.members)).getD []).filter (· ≠ other)).flatMap fun m =>
    (x.r.crsByDatum m).map CrsRef.epsg

/-- EPSG's operations between two CRSs, without PROJ's null operations. -/
def epsgOperations (s t : CrsRef) : List Candidate :=
  (findOpsDirect x s t).1.filter fun c => !throughEnsembleOperation c

/-- Routes through a national realization: when one side is on a datum ensemble,
an EPSG operation between the other side and a CRS on one of the ensemble's
members, then the member identity. -/
def viaRealizations (inDatumPivot : Bool) (s t : CrsRef) : List Candidate :=
  if inDatumPivot || !(x.r.kind s).isGeodetic || !(x.r.kind t).isGeodetic then []
  else
    match x.r.datum s, x.r.datum t with
    | some ds, some dt =>
      ((memberCrss x dt ds).flatMap fun mid => (epsgOperations x s mid).filterMap fun first => do
        concatenate x.r [first, ← ensembleStep x mid t] true) ++
      ((memberCrss x ds dt).flatMap fun mid => (epsgOperations x mid t).filterMap fun second => do
        concatenate x.r [← ensembleStep x s mid, second] true)
    | _, _ => []

/-! ## The database -/

/-- `hasPerfectAccuracyResult`. -/
def hasPerfectAccuracy (res : List Candidate) : Bool :=
  (filterOut res x.areas true).any fun c => c.accuracy.eq F64.zero

/-- The area of a candidate within the two CRSs' areas of use. -/
def areaWithin (e : Extent) : F64 :=
  let area (e : Option Extent) : F64 := Extent.pseudoAreaOf x.catalogue.sin e
  match x.areas.extent1, x.areas.extent2 with
  | some a, some b =>
    let both :=
      match e.intersection a, e.intersection b with
      | some p, some q => area (p.intersection q)
      | _, _ => F64.zero
    area (e.intersection a) + area (e.intersection b) - both
  | some a, none => area (e.intersection a)
  | none, some a => area (e.intersection a)
  | none, none => e.pseudoArea x.catalogue.sin

/-- `0.5`. -/
def half : F64 := ⟨0x3fe0000000000000⟩

/-- `hasTooSmallAreas`. -/
def hasTooSmallAreas (ops : List Candidate) : Bool :=
  let area (e : Option Extent) : F64 := Extent.pseudoAreaOf x.catalogue.sin e
  if ops.isEmpty || decide (10 ≤ ops.length) then false
  else
    match x.areas.interest, x.areas.userInterest with
    | some interest, true =>
      let target := interest.pseudoArea x.catalogue.sin
      decide (¬ target ≤ F64.zero) && ops.all fun c =>
        decide (((c.extent.map fun e => area (e.intersection interest)).getD F64.zero) ≤
          half * target)
    | _, _ =>
      let target :=
        match x.areas.extent1, x.areas.extent2 with
        | some a, some b => area (a.intersection b)
        | some a, none => a.pseudoArea x.catalogue.sin
        | none, some a => a.pseudoArea x.catalogue.sin
        | none, none => F64.zero
      decide (¬ target ≤ F64.zero) && ops.all fun c =>
        !decide (half * target < (c.extent.map (areaWithin x)).getD F64.zero)

def isDynamic (c : CrsRef) : Bool := ((x.r.datum c).bind x.r.datumOf).any (·.dynamic)

/-- Whether the search through other datums is worth it. -/
def looksFurther (s t : CrsRef) (res : List Candidate) (onlyReplaced tooSmall : Bool) : Bool :=
  res.isEmpty || onlyReplaced || tooSmall ||
    (res.all (·.requiresTime) && !isDynamic x s && !isDynamic x t) ||
    onlyThroughEnsembleOperations res

/-- `createOperationsFromDatabase` with `pivot` the routes through the two
datums' CRSs: what is found, and whether it is the end of the search. -/
def queryRegistry (inDatumPivot : Bool) (pivot : List Candidate) (s t : CrsRef) :
    List Candidate × Bool :=
  let geod := (x.r.kind s).isGeodetic && (x.r.kind t).isGeodetic
  let (direct, nonEmptyBefore) := findOpsDirect x s t
  if hasPerfectAccuracy x direct then (direct, true)
  else
    let same := geod && x.r.sameDatum s t
    let pivots := geod && direct.isEmpty && !same && !inDatumPivot
    let res := if pivots then pivot else direct
    let doFilter := pivots && !res.isEmpty
    let foundInstantiable :=
      match res with
      | [] => false
      | [c] => isExportable x.r x.catalogue c
      | _ => true
    let nonEmptyBefore :=
      if res.length = 1 && !foundInstantiable then false else nonEmptyBefore
    let through := !same && (res.isEmpty || !foundInstantiable) && !nonEmptyBefore
    let res := if through then res ++ findOpsWithIntermediate x false s t else res
    let doFilter := if through then !res.isEmpty else doFilter
    let onlyReplaced := nonEmptyBefore && res.all (·.replaced)
    let tooSmall := hasTooSmallAreas x res
    let further := !inDatumPivot && geod && !same && (!nonEmptyBefore || onlyReplaced) &&
      looksFurther x s t res onlyReplaced tooSmall
    let more := if further then findOpsWithIntermediate x true s t else []
    let more :=
      if tooSmall && !res.isEmpty then more.filter fun c => c.name ∉ res.map (·.name) else more
    let res := res ++ more
    let doFilter := if further then !res.isEmpty else doFilter
    (res, doFilter && hasPerfectAccuracy x res)

/-- Whether a candidate at least as accurate over a route's whole area, without a
grid to miss, is there already. -/
def dominated (res : List Candidate) (route : Candidate) : Bool :=
  res.any fun c =>
    decide (F64.zero ≤ c.accuracy) &&
      (decide (route.accuracy < F64.zero) || decide (c.accuracy ≤ route.accuracy)) &&
      !c.hasGrids x.r &&
      match c.extent, route.extent with
      | some a, some b => a.contains b
      | _, _ => false

/-- `createOperationsFromDatabase`, plus the identity between a datum ensemble
and one of its members, and the routes through a member. -/
def queryDatabase (inDatumPivot : Bool) (pivot : List Candidate) (s t : CrsRef) :
    List Candidate × Bool :=
  let (found, done) := queryRegistry x inDatumPivot pivot s t
  let identity :=
    if (projEnsembleOperation x.r s t).isNone then
      (ensembleMemberStep x.r s t).toList.map (Candidate.single x.r)
    else []
  let res := found ++ identity
  (res ++ (viaRealizations x inDatumPivot s t).filter fun route => !dominated x res route, done)

/-! ## The search -/

section

-- The search itself, one call deeper: whether it is within a datum pivot, and the
-- two CRSs.
variable (go : Bool → CrsRef → CrsRef → List Candidate)

/-- `createOperationsDerivedTo` for a projected source CRS. -/
def derivedTo (inDatumPivot : Bool) (s t : CrsRef) : List Candidate :=
  match s with
  | .epsg code =>
    match projection x.r code true with
    | none => []
    | some step =>
      let first := Candidate.single x.r step
      if step.dst = t then [first]
      else
        (go inDatumPivot step.dst t).filterMap fun second =>
          concatenate x.r [first, second] true
  | _ => []

/-- A 3D twin for both ends of a step. -/
def Single.promoted (s : Single) : Single :=
  { s with src := x.r.promoteTo3d s.src, dst := x.r.promoteTo3d s.dst }

def Candidate.promoted (c : Candidate) : Candidate :=
  { c with
    src := x.r.promoteTo3d c.src
    dst := x.r.promoteTo3d c.dst
    steps := c.steps.map (Single.promoted x) }

/-- The last of some parts with the target CRS. -/
def endAt (t : CrsRef) : List Candidate → List Candidate
  | [] => []
  | [c] => [c.withCrs c.src t]
  | c :: rest => c :: endAt t rest

/-- The first part with the source CRS and the last with the target CRS. -/
def between (s t : CrsRef) : List Candidate → List Candidate
  | [] => []
  | c :: rest => endAt t (c.withCrs s c.dst :: rest)

/-- A CRS's 3D twin where both ends have three dimensions. -/
def promotedIf (both3d : Bool) (c : CrsRef) : CrsRef :=
  if both3d then x.r.promoteTo3d c else c

/-- One operation between CRSs of the two datums as a candidate from `s` to `t`:
between the first and third part, where these do something. -/
def pivotCandidate (s t : CrsRef) (first third second : Candidate) (both3d : Bool) :
    Option Candidate :=
  let identified := second.identified || second.steps.any (·.identified)
  let axisOrder := decide (second.steps.length = 1) && startsWith second.name "axis order change"
  if !identified || axisOrder then none
  else
    let second := if both3d then second.promoted x else second
    let parts := (if isNullTransformation first.name then [] else [first]) ++ [second] ++
      (if isNullTransformation third.name then [] else [third])
    (concatenate x.r (between s t parts) true).map fun c => c.withCrs s t

/-- The `createTransformations` lambda of `createOperationsWithDatumPivot`. -/
def pivotTransformations (s t candS candT : CrsRef) (first : Candidate)
    (onlyDirect both3d : Bool) : List Candidate :=
  let seconds := if onlyDirect then (findOpsDirect x candS candT).1 else go true candS candT
  match go true (promotedIf x both3d candT) t with
  | [] => []
  | third :: _ => seconds.filterMap fun second => pivotCandidate x s t first third second both3d

/-- A CRS's dimension type in the datum pivot. -/
def typeOf : CrsKind → Nat
  | .geographic2d => 0
  | .geographic3d => 1
  | _ => 2

def isThreeD : CrsKind → Bool
  | .geographic3d | .geocentric => true
  | _ => false

/-- `createOperationsWithDatumPivot`: CRSs of the source's and target's names
first, in three rounds; then the others. -/
def withDatumPivot (s t : CrsRef) : List Candidate :=
  match x.r.datum s, x.r.datum t with
  | some ds, some dt =>
    let candS := (x.r.crsByDatum ds).map CrsRef.epsg
    let candT := (x.r.crsByDatum dt).map CrsRef.epsg
    let both3d := isThreeD (x.r.kind s) && isThreeD (x.r.kind t)
    let named (c : CrsRef) (other : CrsRef) : Bool := x.r.name c == x.r.name other
    let skips (iter : Nat) (cs ct : CrsRef) : Bool :=
      let same := typeOf (x.r.kind cs) == typeOf (x.r.kind ct)
      (iter == 1 && !same) || (iter == 2 && same)
    let through (iter : Nat) (cs ct : CrsRef) : List Candidate :=
      match go true s (promotedIf x both3d cs) with
      | [] => []
      | first :: _ => pivotTransformations x go s t cs ct first (iter == 0) both3d
    firstNonEmpty (fun iter =>
      let sameNames := firstNonEmpty (fun cs => firstNonEmpty (through iter cs)
        (candT.filter fun ct => named ct t && !skips iter cs ct)) (candS.filter (named · s))
      if sameNames.isEmpty then
        firstNonEmpty (fun cs => firstNonEmpty (through iter cs)
          (candT.filter fun ct => !(named cs s && named ct t))) candS
      else sameNames) [0, 1, 2]
  | _, _ => []

-- The searches for pairs with a vertical or compound CRS.
variable (heights : Bool → CrsRef → CrsRef → List Candidate)

/-- A CRS with a vertical datum. -/
def CrsKind.isVertical : CrsKind → Bool
  | .vertical | .compound => true
  | _ => false

/-- `createOperations`, with the calls it makes one deeper. -/
def createOperationsInner (inDatumPivot : Bool) (s t : CrsRef) : List Candidate :=
  let ks := x.r.kind s
  let kt := x.r.kind t
  if ks.isVertical || kt.isVertical then heights inDatumPivot s t
  else
    let baseS := if ks = .projected then x.r.base s else none
    let baseT := if kt = .projected then x.r.base t else none
    let queried := (decide (ks ≠ .projected) || decide (baseS ≠ some t)) &&
      (decide (kt ≠ .projected) || decide (baseT ≠ some s))
    let (found, done) :=
      if queried then queryDatabase x inDatumPivot (withDatumPivot x go s t) s t else ([], false)
    if done then found
    else if ks.isGeodetic && kt.isGeodetic then found ++ geodToGeod x s t
    else if ks = .projected then found ++ derivedTo x go inDatumPivot s t
    else if kt = .projected then (go inDatumPivot t s).map (Candidate.inverse x.r)
    else found

end

/-- PROJ's recursion limit for `createOperations`. -/
def maxRecursion : Nat := 10

/-- `createOperations`, `depth` calls from the recursion limit; `heights` the
searches for pairs with a vertical or compound CRS, given the search one call
deeper. -/
def operations
    (heights : (Bool → CrsRef → CrsRef → List Candidate) → Bool → CrsRef → CrsRef → List Candidate) :
    Nat → Bool → CrsRef → CrsRef → List Candidate
  | 0, _, _, _ => []
  | depth + 1, inDatumPivot, s, t =>
    let go := operations heights depth
    createOperationsInner x go (heights go) inDatumPivot s t

end

/-- All candidates between two CRSs, filtered and sorted as PROJ would. -/
def createOperations (r : Registry) (catalogue : Catalogue)
    (heights : Setting → (Bool → CrsRef → CrsRef → List Candidate) →
      Bool → CrsRef → CrsRef → List Candidate)
    (src dst : CrsRef) (grids : Grids) (selection : Selection) : List Candidate :=
  let areas := Areas.new catalogue (r.extent src) (r.extent dst) selection
  let x : Setting := ⟨r, catalogue, areas, grids⟩
  filterAndSort r catalogue (operations x (heights x) maxRecursion false src dst) areas

end Xeibe.Reproject.Select.Search

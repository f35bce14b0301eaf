import Xeibe.Reproject.Select.Indexes

/-!
# When the indexes agree

The index of a coordinate's operation is an index into the list of operations,
names and describes that operation, is the one the explanation gives, and forces
it, exactly when no candidate was dropped before one that is kept and, for a
Bound CRS, no name is listed twice before it.
-/

namespace Xeibe.Reproject.Select

open Xeibe.Geom (F64)
open Xeibe.Lib

/-! ## The indexes agree -/

mutual

/-- What a plan calls an operation named `name`: with the legs to and from the
hubs around it. -/
def Plan.nameOf : Plan → String → String
  | .conversion, name => name
  | .operations _, name => name
  | .via _ _, name => name
  | .only _, name => name
  | .bound first middle last _, name => Leg.join first (some (middle.nameOf name)) last

def Transform.nameOf : Transform → String → String
  | ⟨_, _, _, _, _, plan⟩, name => plan.nameOf name

end

namespace Transform

/-- The index `i` of the operation of one coordinate, against the list of
operations, the operation's name, the explanation, and the transform through
that operation. -/
structure AgreesAt (backend : Backend) (t : Transform) (c : Coord) (i : Nat) : Prop where
  listed : i < t.operationInfo.length
  described : (t.operationInfo[i]?.map fun info => t.nameOf info.name) =
    t.operationFor backend.arithmetic c
  explained : ∃ e, t.explainPoint backend.arithmetic c = some e ∧ e.used = some i ∧
    e.candidates.length = t.operationInfo.length
  forced : ∃ only, t.withOperationIndex backend i = some (.ok only) ∧
    only.convert backend.arithmetic c = t.convert backend.arithmetic c

/-- The candidates between the datums, if any, leave no number out. -/
def Gapless (t : Transform) : Prop := ∀ cs, t.candidates = some cs → cs.Gapless

/-- For a Bound CRS: the name kept at place `i` is that of operation `i`. -/
def NamedAt (t : Transform) (i : Nat) : Prop :=
  match t.plan with
  | .bound _ _ _ names =>
    ∀ cs, t.candidates = some cs → ∀ p ∈ cs.list, p.index = i →
      names[i]? = some (t.nameOf p.name)
  | _ => True

variable {backend : Backend}

theorem convert_congr {t only : Transform} {c : Coord} {internal : Triple}
    (hinternal : t.internal c = .ok internal) (hsrc : only.src = t.src) (hdst : only.dst = t.dst)
    (horder : only.order = t.order)
    (hrun : only.run backend.arithmetic internal = t.run backend.arithmetic internal) :
    only.convert backend.arithmetic c = t.convert backend.arithmetic c := by
  have hplaced : toInternal t.src.frame.axes t.order ⟨c.x, c.y, c.z.getD F64.zero⟩ =
      .ok internal := hinternal
  unfold convert Reproject.Transform.convert
  simp only [conversion, hsrc, hdst, horder, hplaced, bind, Except.bind]
  rw [hrun]
  rfl

/-- The name of the operation a coordinate goes through: that of a candidate
with its index, or the one kept at its index for a Bound CRS. -/
theorem operationFor_of_goesThrough {t : Transform} {c : Coord} {internal place : Triple}
    {i : Nat} {cs : Candidates} {src dst : Crs} (ht : t.WellMade backend)
    (hinternal : t.internal c = .ok internal)
    (hindex : t.indexFor backend.arithmetic internal = some i)
    (hgoes : GoesThrough backend t internal i cs src dst place) (hgap : cs.Gapless) :
    (t.operationInfo[i]?.map fun info => t.nameOf info.name) =
      t.operationFor backend.arithmetic c ↔ t.NamedAt i := by
  obtain ⟨p, hp, hpi, hused, _⟩ := cs.run_of_usedIndex backend.arithmetic hgoes.index
  have hinfo : t.operationInfo = cs.info := by simp [operationInfo, hgoes.candidates]
  have hname : (t.operationInfo[i]?.map fun info => t.nameOf info.name) =
      some (t.nameOf p.name) := by
    have h := congrArg (Option.map t.nameOf) (Candidates.info_of_gapless backend hgoes.wellMade
      hgap hp)
    rw [hpi, Option.map_map] at h
    rw [hinfo]
    exact h
  have hsame : ∀ q ∈ cs.list, q.index = i → q.name = p.name := by
    intro q hq hqi
    rw [hgoes.wellMade.name q hq, hgoes.wellMade.name p hp,
      hgoes.wellMade.numbered q hq p hp (hqi.trans hpi.symm)]
  rw [hname]
  obtain ⟨tsrc, tdst, order, grids, selection, plan⟩ := t
  have hchosen : ∀ candidates : Candidates,
      candidates = cs → candidates.usedIndex backend.arithmetic tsrc tdst internal = some i →
      candidates.WellMade backend tsrc tdst →
      candidates.used backend.arithmetic tsrc tdst internal = some p.name := by
    intro candidates hcs hindex hmade
    subst hcs
    obtain ⟨q, hq, hqi, hqused, _⟩ := candidates.run_of_usedIndex backend.arithmetic hindex
    rw [hqused, hsame q hq hqi]
  have hcandidates := hgoes.candidates
  cases plan with
  | conversion => cases hindex
  | operations candidates =>
    have h := hchosen candidates (Option.some.inj hcandidates) hindex ht
    simp [operationFor, hinternal, Except.toOption, NamedAt, nameOf, Plan.nameOf, h]
  | via code candidates =>
    have h := hchosen candidates (Option.some.inj hcandidates) hindex ht
    simp [operationFor, hinternal, Except.toOption, NamedAt, nameOf, Plan.nameOf, h]
  | only candidates =>
    have h := hchosen candidates (Option.some.inj hcandidates) hindex ht
    simp [operationFor, hinternal, Except.toOption, NamedAt, nameOf, Plan.nameOf, h]
  | bound first middle last names =>
    have hmiddle : middle.candidates = some cs := hcandidates
    have hfor : operationFor backend.arithmetic
        ⟨tsrc, tdst, order, grids, selection, .bound first middle last names⟩ c = names[i]? := by
      simp [operationFor, hinternal, Except.toOption, hmiddle, hindex]
    rw [hfor]
    constructor
    · intro h cs' hcs' q hq hqi
      cases hcs'.symm.trans hcandidates
      rw [hsame q hq hqi]
      exact h.symm
    · intro h
      exact (h cs hcandidates p hp hpi).symm

/-- For every transform and coordinate: the index of the coordinate's operation
agrees with everything else exactly when no number is left out and, for a Bound
CRS, the name kept at the index is the operation's. -/
theorem agreesAt_iff {t : Transform} (ht : Reachable backend t) {c : Coord} {i : Nat}
    (hindex : t.operationIndexFor backend.arithmetic c = some i) :
    t.AgreesAt backend c i ↔ t.Gapless ∧ t.NamedAt i := by
  unfold operationIndexFor at hindex
  cases hinternal : t.internal c with
  | error e => simp [hinternal, Except.toOption] at hindex
  | ok internal =>
    have hfor : t.indexFor backend.arithmetic internal = some i := by
      simpa [hinternal, Except.toOption] using hindex
    obtain ⟨cs, src, dst, place, hgoes⟩ := goesThrough ht.wellMade hfor
    have hinfo : t.operationInfo = cs.info := by simp [operationInfo, hgoes.candidates]
    have hgapless : t.Gapless ↔ cs.Gapless := by
      constructor
      · exact fun h => h cs hgoes.candidates
      · intro h cs' hcs'
        cases hcs'.symm.trans hgoes.candidates
        exact h
    have hexplain : t.explainPoint backend.arithmetic c =
        some (cs.explain backend.arithmetic src dst place) := by
      simp [explainPoint, hinternal, Except.toOption, hgoes.explained]
    rw [hgapless]
    constructor
    · intro h
      obtain ⟨e, he, _, hlen⟩ := h.explained
      cases he.symm.trans hexplain
      rw [Candidates.length_explain, hinfo,
        Candidates.length_info_iff backend hgoes.wellMade] at hlen
      exact ⟨hlen, (operationFor_of_goesThrough ht.wellMade hinternal hfor hgoes hlen).1
        h.described⟩
    · rintro ⟨hgap, hnamed⟩
      obtain ⟨p, hp, hpi, _⟩ := cs.run_of_usedIndex backend.arithmetic hgoes.index
      have hlisted : i < cs.info.length := by
        have h := Candidates.info_of_gapless backend hgoes.wellMade hgap hp
        by_contra hge
        rw [hpi, List.getElem?_eq_none (by omega)] at h
        cases h
      obtain ⟨only, honly, hrun, hsrc, hdst, horder, _⟩ := hgoes.forced (by
        have := cs.length_info_le
        rw [hgoes.listed]
        omega)
      refine ⟨by rwa [hinfo],
        (operationFor_of_goesThrough ht.wellMade hinternal hfor hgoes hgap).2 hnamed,
        ⟨_, hexplain, ?_, ?_⟩, only, honly, convert_congr hinternal hsrc hdst horder hrun⟩
      · rw [Candidates.used_explain]
        exact hgoes.index
      · rw [Candidates.length_explain, hinfo]
        exact (Candidates.length_info_iff backend hgoes.wellMade).2 hgap

theorem withSelection_of_unbound {src dst : Crs} {order : AxisOrder} {grids : Grids}
    {selection : Selection} {plan : Plan} (hsrc : src.bound = none) (hdst : dst.bound = none)
    (hcheck : checkUnbound src dst = .ok ())
    (hplan : unboundPlan backend src dst grids selection = .ok plan) :
    withSelection backend src dst order grids selection =
      .ok ⟨src, dst, order, grids, selection, plan⟩ := by
  rw [withSelection, dif_neg (by simp [hsrc, hdst]), hcheck, hplan]
  rfl

/-- The names that a new transform through a hub keeps: one for each prepared
candidate. -/
theorem names_of_withSelection {src dst : Crs} {order : AxisOrder} {grids : Grids}
    {selection : Selection} {first last : Option Leg} {middle : Transform} {names : List String}
    {cs : Candidates}
    (h : withSelection backend src dst order grids selection =
      .ok ⟨src, dst, order, grids, selection, .bound first middle last names⟩)
    (hmiddle : middle.plan = .operations cs) :
    names = cs.list.map fun p => Leg.join first (some p.name) last := by
  rw [withSelection] at h
  split at h
  · obtain ⟨plan, hplan, h⟩ := ok_of_bind h
    cases h
    split at hplan
    · cases hplan
    · obtain ⟨special, hspecial, hplan⟩ := ok_of_bind hplan
      cases special with
      | some special =>
        obtain ⟨first', source, target, last', name, rfl⟩ := nad27ToNad83_cases hspecial
        cases hplan
        cases hmiddle
      | none =>
        obtain ⟨first', _, hplan⟩ := ok_of_bind hplan
        obtain ⟨last', _, hplan⟩ := ok_of_bind hplan
        obtain ⟨middle', _, hplan⟩ := ok_of_bind hplan
        cases hplan
        have hnames : middle.operations = cs.list.map (·.name) := by
          simp only [operations, hmiddle, Candidates.names]
        have hne : cs.list ≠ [] := cs.list_ne
        simp [hnames, hne, Function.comp_def]
  · obtain ⟨_, _, h⟩ := ok_of_bind h
    obtain ⟨plan, hplan, h⟩ := ok_of_bind h
    cases h
    unfold unboundPlan at hplan
    split at hplan
    · cases hplan
    · split at hplan
      · split at hplan
        · cases hplan
        · cases hplan
        · cases hplan
      · cases hplan

/-- For every transform: the index of a coordinate's operation agrees with the
list of operations, the operation's name, the explanation and the transform
through that operation exactly when no number is left out and the name kept at
the index is the operation's.  None is left out exactly when no usable candidate
whose area does not convert into the source CRS comes before one whose area
does; and a new transform through a hub keeps the name of each side of the
antimeridian that an operation is prepared for. -/
theorem operation_indexes (backend : Backend) :
    (∀ t, Reachable backend t → ∀ c i, t.operationIndexFor backend.arithmetic c = some i →
      (t.AgreesAt backend c i ↔ t.Gapless ∧ t.NamedAt i)) ∧
    (∀ src dst sorted cs, Candidates.new backend src dst sorted = .ok cs →
      (cs.Gapless ↔ (usableCandidates backend src dst sorted).Pairwise fun a b =>
        usableSides backend src b.1 ≠ [] → usableSides backend src a.1 ≠ [])) ∧
    (∀ src dst c cs, Candidates.one backend c src dst = .ok cs → cs.Gapless) ∧
    (∀ src dst order grids selection first middle last names cs,
      withSelection backend src dst order grids selection =
        .ok ⟨src, dst, order, grids, selection, .bound first middle last names⟩ →
      middle.plan = .operations cs →
      names = cs.list.map fun p => Leg.join first (some p.name) last) :=
  ⟨fun _ ht _ _ hindex => agreesAt_iff ht hindex,
    fun _ _ _ _ h => Candidates.new_gapless_iff backend h,
    fun _ _ _ _ h => (Candidates.one_wellMade backend h).2,
    fun _ _ _ _ _ _ _ _ _ _ h hmiddle => names_of_withSelection h hmiddle⟩

end Transform

/-! ## A projection of one side of the Earth -/

/-- A projection that sees the side of the Earth around the meridian 0. -/
def nearSide : Projection where
  forward lon lat := if lon.abs < F64.fracPi2 then .ok (lon, lat) else .error .outsideDomain
  inverse x y := .ok (x, y)

def plainAxes : Axes := ⟨2, false, id, id⟩

def sphere : Datum := ⟨"sphere", "sphere", F64.ofUsize 6371000, F64.ofUsize 6371000, F64.zero⟩

/-- A projected CRS on that side. -/
def nearSideCrs : Crs := ⟨"near side", none, .projected sphere nearSide, plainAxes, none, none⟩

def plainCrs : Crs := ⟨"geographic", none, .geographic sphere, plainAxes, none, none⟩

/-- A candidate that leaves the position alone, good to `accuracy` metres. -/
def candidate (name : String) (accuracy : Nat) (extent : Extent) : Candidate where
  name := name
  steps := []
  registry := none
  accuracy := F64.ofUsize accuracy
  extent := some extent
  requiresTime := false

/-- An area on the other side of the Earth. -/
def farSide : Extent :=
  ⟨some "far side", F64.ofUsize 120, F64.zero, F64.ofUsize 140, F64.ofUsize 10⟩

/-- The search answers with `sorted`, whose steps leave the position alone. -/
def answering (sorted : List Candidate) : Backend where
  arithmetic := ⟨id, id, fun x _ => x, fun v _ => v, fun v _ => v⟩
  operations _ := none
  createOperations _ _ _ _ := sorted
  isExportable _ := true
  executable _ _ _ := .ok []
  inverse := id
  forced _ _ _ _ _ := .error (.unsupported "" "")
  crsRef _ := some (.epsg 0)
  sameDatums _ _ := false
  unknownDatum _ _ := none
  geographicOf _ := none
  baseName _ := none
  sameBound _ _ := false
  build _ _ _ := .error ""

def atOrigin : Coord := ⟨F64.zero, F64.zero, none⟩

/-- The first candidate is on the far side, and is dropped: the second one has
index 1 in a list of one operation. -/
def farFirst : Backend :=
  answering [candidate "far" 1 farSide, candidate "anywhere" 1 world]

/-- Two candidates that serve anywhere, the second one more accurate. -/
def bothKept : Backend :=
  answering [candidate "coarse" 2 world, candidate "anywhere" 1 world]

namespace Transform

/-- What a search sets up from the near side. -/
def fromNearSide (backend : Backend) : Except SetupError Transform :=
  (unboundPlan backend nearSideCrs plainCrs .projData .unlimited).map fun plan =>
    ⟨nearSideCrs, plainCrs, .eastFirst, .projData, .unlimited, plan⟩

theorem reachable_of_fromNearSide {backend : Backend} {t : Transform}
    (h : fromNearSide backend = .ok t) : Reachable backend t := by
  unfold fromNearSide at h
  cases hplan : unboundPlan backend nearSideCrs plainCrs .projData .unlimited with
  | error e => simp [hplan, Except.map] at h
  | ok plan =>
    simp only [hplan, Except.map, Except.ok.injEq] at h
    subst h
    exact .withSelection (withSelection_of_unbound rfl rfl rfl hplan)

/-- It chooses among the candidates that the search answers with. -/
theorem plan_of_fromNearSide {sorted : List Candidate} {t : Transform}
    (h : fromNearSide (answering sorted) = .ok t) :
    ∃ cs, t = ⟨nearSideCrs, plainCrs, .eastFirst, .projData, .unlimited, .operations cs⟩ ∧
      Candidates.new (answering sorted) nearSideCrs plainCrs sorted = .ok cs := by
  unfold fromNearSide at h
  cases hplan : unboundPlan (answering sorted) nearSideCrs plainCrs .projData .unlimited with
  | error e => simp [hplan, Except.map] at h
  | ok plan =>
    simp only [hplan, Except.map, Except.ok.injEq] at h
    subst h
    unfold unboundPlan at hplan
    simp only [answering, Bool.false_eq_true, if_false] at hplan
    split at hplan
    · rename_i cs hnew
      cases hplan
      exact ⟨cs, rfl, hnew⟩
    · cases hplan
    · cases hplan

/-- The index at the origin, and the number of operations. -/
def atNearSide (backend : Backend) : Option (Option Nat × Nat) :=
  match fromNearSide backend with
  | .error _ => none
  | .ok t => some (t.operationIndexFor backend.arithmetic atOrigin, t.operationInfo.length)

theorem not_operation_indexes :
    ¬ ∀ backend t, Reachable backend t → ∀ c i,
      t.operationIndexFor backend.arithmetic c = some i → t.AgreesAt backend c i := by
  intro h
  have hat : atNearSide farFirst = some (some 1, 1) := by decide +kernel
  unfold atNearSide at hat
  cases ht : fromNearSide farFirst with
  | error e => simp [ht] at hat
  | ok t =>
    simp only [ht, Option.some.injEq, Prod.mk.injEq] at hat
    have hlisted := (h farFirst t (reachable_of_fromNearSide ht) atOrigin 1 hat.1).listed
    omega

/-- Both candidates are kept, and the coordinate goes through the second one. -/
theorem operation_indexes_bothKept :
    ∃ t, Reachable bothKept t ∧ t.operationIndexFor bothKept.arithmetic atOrigin = some 1 ∧
      t.AgreesAt bothKept atOrigin 1 := by
  have hat : atNearSide bothKept = some (some 1, 2) := by decide +kernel
  unfold atNearSide at hat
  cases ht : fromNearSide bothKept with
  | error e => simp [ht] at hat
  | ok t =>
    simp only [ht, Option.some.injEq, Prod.mk.injEq] at hat
    have hreachable := reachable_of_fromNearSide ht
    obtain ⟨cs, hplan, hnew⟩ := plan_of_fromNearSide ht
    refine ⟨t, hreachable, hat.1,
      ((operation_indexes bothKept).1 t hreachable _ _ hat.1).2 ⟨?_, ?_⟩⟩
    · have hpairs : (usableCandidates bothKept nearSideCrs plainCrs
          [candidate "coarse" 2 world, candidate "anywhere" 1 world]).Pairwise fun a b =>
            usableSides bothKept nearSideCrs b.1 ≠ [] →
              usableSides bothKept nearSideCrs a.1 ≠ [] := by
        decide +kernel
      have hgap := ((operation_indexes bothKept).2.1 _ _ _ _ hnew).2 hpairs
      intro cs' hcs'
      rw [hplan] at hcs'
      cases hcs'
      exact hgap
    · rw [hplan]
      trivial

end Transform

end Xeibe.Reproject.Select

import Xeibe.Lib.Route
import Xeibe.Reproject.Select.Search.Model

/-!
# CRSs that steps may meet at

Two CRSs are linked when a step may end at one and the next one start at the
other: geodetic and projected CRSs on one datum, and the vertical CRS a compound
CRS stands for.
-/

namespace Xeibe.Reproject.Select.Search

open Xeibe.Geom (F64)

namespace CrsKind

/-- Geodetic or projected: on a geodetic datum and nothing else. -/
def isHorizontal : CrsKind → Bool
  | .geographic2d | .geographic3d | .geocentric | .projected => true
  | _ => false

theorem isHorizontal_of_isGeodetic {kind : CrsKind} (h : kind.isGeodetic = true) :
    kind.isHorizontal = true := by
  cases kind with
  | geographic2d | geographic3d | geocentric => rfl
  | projected | vertical | compound | engineering | other => cases h

end CrsKind

namespace Registry

variable (r : Registry)

/-- A geodetic or projected CRS on a datum. -/
def OnDatum (d : Nat) (crs : CrsRef) : Prop :=
  (r.kind crs).isHorizontal = true ∧ r.datum crs = some d

/-- The vertical CRS that a vertical or compound CRS stands for. -/
def heightCrs (crs : CrsRef) : Option CrsRef :=
  match r.kind crs with
  | .vertical => some crs
  | .compound => r.verticalOf crs
  | _ => none

/-- A step may end at one and the next one start at the other: on one datum, or
at one vertical CRS. -/
def Linked (a b : CrsRef) : Prop :=
  a = b ∨ (∃ d, r.OnDatum d a ∧ r.OnDatum d b) ∨
    ∃ v, r.heightCrs a = some v ∧ r.heightCrs b = some v

variable {r}

theorem heightCrs_of_isHorizontal {crs : CrsRef} (h : (r.kind crs).isHorizontal = true) :
    r.heightCrs crs = none := by
  unfold heightCrs
  split
  · rename_i hkind
    rw [hkind] at h
    cases h
  · rename_i hkind
    rw [hkind] at h
    cases h
  · rfl

theorem linked_trans {a b c : CrsRef} (hab : r.Linked a b) (hbc : r.Linked b c) :
    r.Linked a c := by
  rcases hab with rfl | ⟨d, ha, hb⟩ | ⟨v, ha, hb⟩
  · exact hbc
  · rcases hbc with rfl | ⟨e, hb', hc⟩ | ⟨v, hb', -⟩
    · exact .inr (.inl ⟨d, ha, hb⟩)
    · have hsame : e = d := Option.some.inj (hb'.2.symm.trans hb.2)
      subst hsame
      exact .inr (.inl ⟨e, ha, hc⟩)
    · rw [heightCrs_of_isHorizontal hb.1] at hb'
      cases hb'
  · rcases hbc with rfl | ⟨e, hb', -⟩ | ⟨w, hb', hc⟩
    · exact .inr (.inr ⟨v, ha, hb⟩)
    · rw [heightCrs_of_isHorizontal hb'.1] at hb
      cases hb
    · have hsame : w = v := Option.some.inj (hb'.symm.trans hb)
      subst hsame
      exact .inr (.inr ⟨w, ha, hc⟩)

theorem linked_symm {a b : CrsRef} (h : r.Linked a b) : r.Linked b a := by
  rcases h with rfl | ⟨d, ha, hb⟩ | ⟨v, ha, hb⟩
  · exact .inl rfl
  · exact .inr (.inl ⟨d, hb, ha⟩)
  · exact .inr (.inr ⟨v, hb, ha⟩)

variable (r) in
theorem linked_equivalence : Equivalence r.Linked := ⟨fun _ => .inl rfl, linked_symm, linked_trans⟩

/-! ## CRSs of the tables -/

theorem verticalCrs_eq_none {g : GeodeticCrs} (hg : g ∈ r.geodetic) :
    r.verticalCrs g.code = none := by
  refine List.find?_eq_none.2 fun v hv heq => ?_
  have hdisjoint := (List.nodup_append.1 r.codes_nodup).2.2
  exact hdisjoint v.code (List.mem_map_of_mem hv) g.code (List.mem_map_of_mem hg)
    (of_decide_eq_true heq)

theorem find?_code {α : Type} {code : α → Nat} {xs : List α} (hxs : (xs.map code).Nodup) {x : α}
    (hx : x ∈ xs) : xs.find? (fun y => decide (code y = code x)) = some x := by
  induction xs with
  | nil => cases hx
  | cons y ys ih =>
    rw [List.map_cons, List.nodup_cons] at hxs
    rcases List.mem_cons.1 hx with rfl | hx
    · exact List.find?_cons_of_pos (decide_eq_true rfl)
    · have hne : code y ≠ code x := by
        intro heq
        exact hxs.1 (heq ▸ List.mem_map_of_mem hx)
      rw [List.find?_cons_of_neg (by simpa using hne)]
      exact ih hxs.2 hx

theorem geodeticCrs_eq_some {g : GeodeticCrs} (hg : g ∈ r.geodetic) :
    r.geodeticCrs g.code = some g :=
  find?_code (List.nodup_append.1 r.codes_nodup).2.1 hg

theorem lookUp_geodetic {g : GeodeticCrs} (hg : g ∈ r.geodetic) :
    r.lookUp (.epsg g.code) = some ⟨g.name, .ofGeodetic g.kind, some g.datum, none, none,
      r.extentOf g.code, none, none⟩ := by
  simp only [lookUp, codeFacts, tableFacts, verticalCrs_eq_none hg, geodeticCrs_eq_some hg]
  rfl

theorem lookUp_promoted {g : GeodeticCrs} (hg : g ∈ r.geodetic) :
    r.lookUp (.promoted g.code) = some ⟨g.name, .geographic3d, some g.datum, none, none,
      r.extentOf g.code, none, none⟩ := by
  simp only [lookUp, codeFacts, tableFacts, verticalCrs_eq_none hg, geodeticCrs_eq_some hg]
  rfl

theorem kind_geodetic {g : GeodeticCrs} (hg : g ∈ r.geodetic) :
    (r.kind (.epsg g.code)).isGeodetic = true := by
  rw [kind, lookUp_geodetic hg]
  exact CrsKind.isGeodetic_ofGeodetic g.kind

theorem datum_geodetic {g : GeodeticCrs} (hg : g ∈ r.geodetic) :
    r.datum (.epsg g.code) = some g.datum := by
  rw [datum, lookUp_geodetic hg]
  rfl

theorem kind_vertical {v : Nat} (hv : v ∈ r.vertical.map (·.code)) :
    r.kind (.epsg v) = .vertical := by
  obtain ⟨crs, hcrs, rfl⟩ := List.mem_map.1 hv
  have hfind : r.verticalCrs crs.code = some crs :=
    find?_code (List.nodup_append.1 r.codes_nodup).1 hcrs
  simp only [kind, lookUp, codeFacts, tableFacts, hfind]
  rfl

/-! ## CRSs of the definitions -/

theorem mem_records {code : Nat} {record : Record} (h : r.record code = some record) :
    record ∈ r.records := List.mem_of_find?_eq_some h

theorem components_tableFacts {code : Nat} {promoted : Bool} {facts : CrsFacts}
    (h : r.tableFacts code promoted = some facts) : facts.components = none := by
  unfold tableFacts at h
  split at h
  · cases h
    rfl
  · split at h
    · cases h
      rfl
    · cases h

theorem components_recordFacts {code : Nat} {record : Record} {facts : CrsFacts}
    (h : r.recordFacts code record = some facts) : facts.components = none := by
  unfold recordFacts at h
  split at h
  · cases h
  · cases h
    rfl
  · cases h
    rfl
  · cases h
    rfl

theorem components_simpleFacts {code : Nat} {promoted : Bool} {facts : CrsFacts}
    (h : r.simpleFacts code promoted = some facts) : facts.components = none := by
  unfold simpleFacts at h
  split at h
  · rename_i hfacts
    cases h
    exact components_tableFacts hfacts
  · obtain ⟨record, -, hrecord⟩ := Option.bind_eq_some_iff.1 h
    exact components_recordFacts hrecord

theorem compound_spec {h v : Nat} {name : Option String} {extent : Option Extent} {facts : CrsFacts}
    (hfacts : r.compound h v name extent = some facts) :
    facts.kind = .compound ∧ facts.components = some (h, v) := by
  obtain ⟨hf, -, hrest⟩ := Option.bind_eq_some_iff.1 hfacts
  obtain ⟨vf, -, hpure⟩ := Option.bind_eq_some_iff.1 hrest
  cases hpure
  exact ⟨rfl, rfl⟩

theorem recordParts_spec {code : Nat} {record : Record} {parts : Option (Nat × Nat)}
    (h : r.recordParts code = some (record, parts)) :
    record ∈ r.records ∧ record.kind = .compound parts := by
  obtain ⟨found, hfound, hrest⟩ := Option.bind_eq_some_iff.1 h
  split at hrest
  · rename_i hkind
    cases hrest
    exact ⟨mem_records hfound, hkind⟩
  · cases hrest

/-- A compound CRS with a code has a vertical CRS for its vertical part. -/
theorem components_spec {code : Nat} {parts : CrsRef × CrsRef}
    (h : r.components (.epsg code) = some parts) :
    r.kind (.epsg code) = .compound ∧ r.kind parts.2 = .vertical := by
  obtain ⟨⟨hor, ver⟩, hcomponents, rfl⟩ := Option.map_eq_some_iff.1 h
  obtain ⟨facts, hfacts, hpair⟩ := Option.bind_eq_some_iff.1 hcomponents
  have hkind : r.kind (.epsg code) = facts.kind := by rw [kind, hfacts]; rfl
  rw [lookUp, codeFacts] at hfacts
  split at hfacts
  · rename_i htable
    cases hfacts
    rw [components_tableFacts htable] at hpair
    cases hpair
  · split at hfacts
    · cases hfacts
    · rename_i record hor' ver' hparts
      obtain ⟨hcompound, hsame⟩ := compound_spec hfacts
      obtain ⟨hmem, hrecord⟩ := recordParts_spec hparts
      rw [hsame] at hpair
      cases hpair
      exact ⟨hkind.trans hcompound, kind_vertical (r.parts_simple record hmem _ _ hrecord).1⟩
    · rw [components_simpleFacts hfacts] at hpair
      cases hpair

theorem linked_verticalOf {code : Nat} {v : CrsRef} (h : r.verticalOf (.epsg code) = some v) :
    r.Linked (.epsg code) v := by
  obtain ⟨parts, hparts, rfl⟩ := Option.map_eq_some_iff.1 h
  obtain ⟨hkind, hvertical⟩ := components_spec hparts
  refine .inr (.inr ⟨parts.2, ?_, ?_⟩)
  · rw [heightCrs, hkind]
    exact h
  · rw [heightCrs, hvertical]

theorem lookUp_epsg {code : Nat} {facts : CrsFacts} (h : r.lookUp (.epsg code) = some facts) :
    r.tableFacts code false = some facts ∨
      (∃ record ∈ r.records, r.recordFacts code record = some facts) ∨
      ∃ hor ver name extent, r.compound hor ver name extent = some facts := by
  rw [lookUp, codeFacts] at h
  split at h
  · rename_i htable
    exact .inl (htable.trans h)
  · rename_i hnone
    split at h
    · cases h
    · exact .inr (.inr ⟨_, _, _, _, h⟩)
    · rw [simpleFacts, hnone] at h
      obtain ⟨record, hrecord, hfacts⟩ := Option.bind_eq_some_iff.1 h
      exact .inr (.inl ⟨record, mem_records hrecord, hfacts⟩)

/-- A projected CRS's base is a geodetic one. -/
theorem kind_base {code : Nat} {base : CrsRef} (h : r.base (.epsg code) = some base) :
    (r.kind base).isGeodetic = true := by
  obtain ⟨b, hbase, rfl⟩ := Option.map_eq_some_iff.1 h
  obtain ⟨facts, hfacts, hb⟩ := Option.bind_eq_some_iff.1 hbase
  rcases lookUp_epsg hfacts with htable | ⟨record, hrecord, hdefined⟩ | ⟨hor, ver, name, extent, hcompound⟩
  · unfold tableFacts at htable
    split at htable
    · cases htable
      cases hb
    · split at htable
      · cases htable
        cases hb
      · cases htable
  · unfold recordFacts at hdefined
    split at hdefined
    · cases hdefined
    · rename_i base name conversion hkind
      cases hdefined
      cases hb
      obtain ⟨g, hg, hcode⟩ := List.mem_map.1 (r.base_geodetic record hrecord b name conversion hkind)
      rw [← hcode]
      exact kind_geodetic hg
    · cases hdefined
      cases hb
    · cases hdefined
      cases hb
  · obtain ⟨hf, -, hrest⟩ := Option.bind_eq_some_iff.1 hcompound
    obtain ⟨vf, -, hpure⟩ := Option.bind_eq_some_iff.1 hrest
    cases hpure
    cases hb

/-! ## CRSs on a datum -/

/-- Only the table of geodetic CRSs makes a geodetic one. -/
theorem exists_geodetic {code : Nat} (h : (r.kind (.epsg code)).isGeodetic = true) :
    ∃ g ∈ r.geodetic, g.code = code := by
  cases hfacts : r.lookUp (.epsg code) with
  | none =>
    rw [kind, hfacts] at h
    cases h
  | some facts =>
    have hkind : facts.kind.isGeodetic = true := by
      rw [kind, hfacts] at h
      exact h
    rcases lookUp_epsg hfacts with htable | ⟨record, -, hdefined⟩ | ⟨hor, ver, name, extent, hcompound⟩
    · unfold tableFacts at htable
      split at htable
      · cases htable
        cases hkind
      · split at htable
        · rename_i g hg
          exact ⟨g, List.mem_of_find?_eq_some hg, by simpa using List.find?_some hg⟩
        · cases htable
    · unfold recordFacts at hdefined
      split at hdefined
      · cases hdefined
      · cases hdefined
        cases hkind
      · cases hdefined
        cases hkind
      · cases hdefined
        cases hkind
    · rw [(compound_spec hcompound).1] at hkind
      cases hkind

theorem crsByDatum_spec {d code : Nat} (h : code ∈ r.crsByDatum d) :
    (r.kind (.epsg code)).isGeodetic = true ∧ r.datum (.epsg code) = some d := by
  rw [crsByDatum, List.mem_insertionSort] at h
  obtain ⟨g, hg, rfl⟩ := List.mem_map.1 h
  obtain ⟨hmem, hlive⟩ := List.mem_filter.1 hg
  have hdatum : g.datum = d := by
    simpa using (Bool.and_eq_true_iff.1 hlive).2
  exact ⟨kind_geodetic hmem, hdatum ▸ datum_geodetic hmem⟩

theorem linked_of_datum {a b : CrsRef} {d : Nat} (ha : (r.kind a).isGeodetic = true)
    (hda : r.datum a = some d) (hb : (r.kind b).isGeodetic = true) (hdb : r.datum b = some d) :
    r.Linked a b :=
  .inr (.inl ⟨d, ⟨CrsKind.isHorizontal_of_isGeodetic ha, hda⟩,
    ⟨CrsKind.isHorizontal_of_isGeodetic hb, hdb⟩⟩)

/-- What promotion gives: the CRS itself, or a geodetic one on its datum. -/
theorem promoteTo3d_spec (crs : CrsRef) :
    r.promoteTo3d crs = crs ∨
      ((r.kind crs).isGeodetic = true ∧ (r.kind (r.promoteTo3d crs)).isGeodetic = true ∧
        ∃ d, r.datum crs = some d ∧ r.datum (r.promoteTo3d crs) = some d) := by
  cases crs with
  | promoted code => exact .inl rfl
  | compound h v => exact .inl rfl
  | epsg code =>
    by_cases hflat : r.kind (.epsg code) = .geographic2d
    · right
      have hgeodetic : (r.kind (.epsg code)).isGeodetic = true := by rw [hflat]; rfl
      obtain ⟨g, hg, rfl⟩ := exists_geodetic hgeodetic
      refine ⟨hgeodetic, ?_⟩
      rw [promoteTo3d, if_pos hflat]
      simp only []
      split
      · -- A registered twin.
        rename_i twin rest hsorted
        have hmem : twin ∈ twin :: rest := List.mem_cons_self
        rw [← hsorted, List.mem_insertionSort] at hmem
        obtain ⟨htwin, hsame⟩ := List.mem_filter.1 hmem
        have hdatum : some twin.datum = r.datum (.epsg g.code) := by
          simpa using (Bool.and_eq_true_iff.1 hsame).2
        exact ⟨kind_geodetic htwin, twin.datum, hdatum.symm, datum_geodetic htwin⟩
      · -- A synthetic one.
        refine ⟨?_, g.datum, datum_geodetic hg, ?_⟩
        · rw [kind, lookUp_promoted hg]
          rfl
        · rw [datum, lookUp_promoted hg]
          rfl
    · left
      rw [promoteTo3d, if_neg hflat]

theorem linked_promoteTo3d (crs : CrsRef) : r.Linked (r.promoteTo3d crs) crs := by
  rcases promoteTo3d_spec (r := r) crs with h | ⟨hkind, hpromoted, d, hd, hd'⟩
  · exact .inl h
  · exact linked_of_datum hpromoted hd' hkind hd

theorem kind_promoteTo3d {crs : CrsRef} (h : (r.kind crs).isGeodetic = true) :
    (r.kind (r.promoteTo3d crs)).isGeodetic = true := by
  rcases promoteTo3d_spec (r := r) crs with hsame | ⟨-, hpromoted, -⟩
  · rw [hsame]
    exact h
  · exact hpromoted

end Registry

end Xeibe.Reproject.Select.Search

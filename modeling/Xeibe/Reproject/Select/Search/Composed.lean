import Xeibe.Reproject.Select.Search.Areas
import Xeibe.Reproject.Select.Search.Candidate

/-!
# The area of a composed route

Where the areas of a route's steps meet, the route is for what they have in common.
Where they don't, it is either rejected or has no area, and then it is for the whole
world: that is what `checkExtent` decides.
-/

namespace Xeibe.Reproject.Select

open Xeibe.Geom (F64)
open Xeibe.Lib

namespace Extent

theorem Proper.intersection {a b r : Extent} (ha : a.Proper) (hb : b.Proper)
    (hr : a.intersection b = some r) : r.Proper := by
  unfold Extent.intersection at hr
  split at hr
  · cases hr
    exact hb
  · split at hr
    · cases hr
      exact ha
    · obtain ⟨x, hx, rfl⟩ := Option.map_eq_some_iff.1 hr
      have hlat : MeetsLat a b := by
        by_contra hapart
        rw [box_eq_none ha.bounded hb.bounded hapart] at hx
        cases hx
      have hshared := box_finds ha.bounded hb.bounded hlat
      rw [hx] at hshared
      obtain ⟨hwest, heast, hsouth, hnorth⟩ := hshared.bounded
      exact new_proper hwest hsouth heast hnorth

/-- One latitude from another, by `n` ulps at most: one wherever two areas touch. -/
def Drift : Nat → ℝ → ℝ → Prop
  | 0, x, y => x = y
  | n + 1, x, y => ∃ z, (x = z ∨ ∃ d : F64, x = d.value ∧ Near d z) ∧ Drift n z y

theorem Drift.step {n : Nat} {x z y : ℝ} (hstep : x = z ∨ ∃ d : F64, x = d.value ∧ Near d z)
    (h : Drift n z y) : Drift (n + 1) x y :=
  ⟨z, hstep, h⟩

/-- An extent within another, but for the latitudes. -/
def Inside (n : Nat) (e outer : Extent) : Prop :=
  ∀ p : Point, e.Covers p →
    ∃ q : Point, ∃ k ≤ n, outer.Covers q ∧ q.lon = p.lon ∧ Drift k q.lat p.lat

theorem inside_self (n : Nat) (e : Extent) : Inside n e e :=
  fun p hp => ⟨p, 0, Nat.zero_le n, hp, rfl, rfl⟩

theorem Inside.mono {m n : Nat} {e outer : Extent} (h : Inside m e outer) (hle : m ≤ n) :
    Inside n e outer := by
  intro p hp
  obtain ⟨q, k, hk, hq⟩ := h p hp
  exact ⟨q, k, hk.trans hle, hq⟩

theorem Inside.intersection {n : Nat} {a b r e : Extent} (ha : a.Proper) (hb : b.Proper)
    (hr : a.intersection b = some r) (h : Inside n e r) :
    Inside (n + 1) e a ∧ Inside (n + 1) e b := by
  constructor <;> intro p hp <;> obtain ⟨q, k, hk, hcovers, hlon, hdrift⟩ := h p hp <;>
    obtain ⟨s, hsa, hsb, hslon, hslat⟩ := intersection_covers ha hb hr hcovers
  · exact ⟨s, k + 1, Nat.succ_le_succ hk, hsa, hslon.trans hlon, hdrift.step hslat⟩
  · exact ⟨s, k + 1, Nat.succ_le_succ hk, hsb, hslon.trans hlon, hdrift.step hslat⟩

end Extent

namespace Search

open Extent

/-! ## The areas met one after the other -/

/-- What is left of the areas lies in each of them, and in what was there before. -/
theorem meet_inside {areas : List (Option Extent)} {acc result : Option Extent}
    (hacc : ∀ e, acc = some e → e.Proper) (hareas : ∀ e, some e ∈ areas → e.Proper)
    (h : meet areas acc = some result) {e : Extent} (he : acc = some e ∨ some e ∈ areas) :
    ∃ f, result = some f ∧ Inside areas.length f e := by
  induction areas generalizing acc e with
  | nil =>
    cases h
    obtain he := he.resolve_right List.not_mem_nil
    exact ⟨e, he, inside_self 0 e⟩
  | cons area areas ih =>
    have hrest : ∀ e, some e ∈ areas → e.Proper := fun e he => hareas e (List.mem_cons_of_mem _ he)
    cases area with
    | none =>
      have he : acc = some e ∨ some e ∈ areas := he.imp_right fun h => by simpa using h
      obtain ⟨f, hf, hinside⟩ := ih hacc hrest h he
      exact ⟨f, hf, hinside.mono (Nat.le_succ _)⟩
    | some a =>
      have ha : a.Proper := hareas a List.mem_cons_self
      cases acc with
      | none =>
        have hstart : ∀ e, some a = some e → e.Proper := by
          rintro e ⟨⟩
          exact ha
        have he : some a = some e ∨ some e ∈ areas := by
          rcases he with he | he
          · cases he
          · exact (List.mem_cons.1 he).imp_left Eq.symm
        obtain ⟨f, hf, hinside⟩ := ih hstart hrest h he
        exact ⟨f, hf, hinside.mono (Nat.le_succ _)⟩
      | some b =>
        have hb : b.Proper := hacc b rfl
        cases hx : b.intersection a with
        | none =>
          rw [meet, hx] at h
          cases h
        | some x =>
          rw [meet, hx] at h
          have hproper : ∀ e, some x = some e → e.Proper := by
            rintro e ⟨⟩
            exact hb.intersection ha hx
          have hin : some e ∈ areas → ∃ f, result = some f ∧ Inside areas.length f e :=
            fun he => ih hproper hrest h (.inr he)
          obtain ⟨f, hf, hinside⟩ := ih hproper hrest h (.inl rfl)
          obtain ⟨hinb, hina⟩ := hinside.intersection hb ha hx
          rcases he with he | he
          · cases he
            exact ⟨f, hf, hinb⟩
          · rcases List.mem_cons.1 he with he | he
            · cases he
              exact ⟨f, hf, hina⟩
            · obtain ⟨g, hg, hinside⟩ := hin he
              exact ⟨g, hg, hinside.mono (Nat.le_succ _)⟩

/-! ## The steps that stay -/

theorem cancelFirst_sublist {flat rest : List (Single × Option Extent)}
    (h : cancelFirst flat = some rest) : rest.Sublist flat := by
  induction flat generalizing rest with
  | nil => cases h
  | cons s flat ih =>
    cases flat with
    | nil => cases h
    | cons t flat =>
      rw [cancelFirst] at h
      split at h
      · cases h
        exact (List.sublist_cons_self t rest).trans (List.sublist_cons_self s _)
      · obtain ⟨rest', hrest, rfl⟩ := Option.map_eq_some_iff.1 h
        exact (ih hrest).cons_cons s

theorem cancelPairs_sublist (n : Nat) (flat : List (Single × Option Extent)) :
    (cancelPairs n flat).Sublist flat := by
  induction n generalizing flat with
  | zero => exact List.Sublist.refl flat
  | succ n ih =>
    rw [cancelPairs]
    split
    · exact List.Sublist.refl flat
    · split
      · rename_i rest hrest
        exact (ih rest).trans (cancelFirst_sublist hrest)
      · exact List.Sublist.refl flat

/-! ## The route -/

/-- `Candidates::new`: a candidate without an area is for the whole world. -/
def Candidate.area (c : Candidate) : Extent := c.extent.getD world

variable {r : Registry}

/-- A route of several candidates: of one step, with that step's area; or of the steps
`flat` with an area inside each of theirs, unless these don't meet. -/
theorem concatenate_area {parts : List Candidate} {checkExtent : Bool} {route : Candidate}
    (hareas : ∀ part ∈ parts, ∀ step ∈ part.flat, ∀ e, step.2 = some e → e.Proper)
    (h : concatenate r parts checkExtent = some route) :
    parts = [route] ∨ (∃ step, route.steps = [step] ∧ route.extent = step.extent) ∨
      ∃ flat : List (Single × Option Extent),
        flat.Sublist (parts.flatMap Candidate.flat) ∧ route.steps = flat.map (·.1) ∧
        ((checkExtent = false ∧ meet (flat.map (·.2)) none = none ∧ route.area = world) ∨
          ∀ step ∈ flat, ∀ e, step.2 = some e → Inside flat.length route.area e) := by
  unfold concatenate at h
  split at h
  · cases h
  · cases h
    exact .inl rfl
  · rename_i first rest _
    refine .inr ?_
    obtain ⟨last, -, h⟩ := Option.bind_eq_some_iff.1 h
    extract_lets flat at h
    have hsublist := cancelPairs_sublist flat.length flat
    split at h
    · rename_i step _ hone
      cases h
      exact .inl ⟨step, rfl, rfl⟩
    · refine .inr ⟨cancelPairs flat.length flat, hsublist, ?_⟩
      have hproper : ∀ e, some e ∈ (cancelPairs flat.length flat).map (·.2) → e.Proper := by
        intro e he
        obtain ⟨step, hstep, hstepe⟩ := List.mem_map.1 he
        obtain ⟨part, hpart, hmem⟩ := List.mem_flatMap.1 (hsublist.subset hstep)
        exact hareas part hpart step hmem e hstepe
      unfold concatenateFlat at h
      extract_lets steps extent at h
      split at h
      · cases h
      · rename_i hchecked
        cases h
        refine ⟨rfl, ?_⟩
        cases hmeet : meet ((cancelPairs flat.length flat).map (·.2)) none with
        | none =>
          have hunchecked : checkExtent = false := by
            simpa [extent, hmeet] using hchecked
          refine .inl ⟨hunchecked, rfl, ?_⟩
          show extent.join.getD world = world
          rw [show extent = none from hmeet]
          rfl
        | some result =>
          refine .inr fun step hstep e he => ?_
          have hmem : some e ∈ (cancelPairs flat.length flat).map (·.2) :=
            he ▸ List.mem_map_of_mem hstep
          have hstart : ∀ e, (none : Option Extent) = some e → e.Proper := by
            intro e he
            cases he
          obtain ⟨f, rfl, hinside⟩ := meet_inside hstart hproper hmeet (.inr hmem)
          rw [List.length_map] at hinside
          show Inside _ (extent.join.getD world) e
          rw [show extent = some (some f) from hmeet]
          exact hinside

/-- Without operations or CRSs. -/
def bareRegistry : Registry where
  ops := []
  geodetic := []
  vertical := []
  datums := []
  crsExtent := []
  records := []
  ops_nodup := List.nodup_nil
  codes_nodup := List.nodup_nil
  steps_known := Registry.steps_known_nil
  base_geodetic := by simp
  parts_simple := Registry.parts_simple_nil
  members_ne := Registry.members_ne_nil

/-- Between two whole degrees of longitude, north of the equator. -/
def northern (west east : Nat) : Extent :=
  Extent.new none (F64.ofUsize west) (F64.ofUsize 0) (F64.ofUsize east) (F64.ofUsize 10)

def stepOver (west east : Nat) : Single where
  kind := .sameDatum
  src := .epsg 1
  dst := .epsg 1
  name := "offset"
  accuracy := F64.zero
  extent := some (northern west east)
  isConversion := false
  identified := false
  ballpark := false

theorem concatenate_two (s t : Single) (checkExtent : Bool)
    (hmeet : ¬(checkExtent && (meet [s.extent, t.extent] none).isNone) = true) : ∃ route,
    concatenate r [.single r s, .single r t] checkExtent = some route ∧ route.steps = [s, t] ∧
      route.extent = (meet [s.extent, t.extent] none).join := by
  cases s
  cases t
  exact ⟨_, if_neg hmeet, rfl, rfl⟩

/-- Steps from 0 to 10 and from 5 to 30 degrees east. -/
def meeting : List Candidate :=
  [.single bareRegistry (stepOver 0 10), .single bareRegistry (stepOver 5 30)]

theorem meeting_proper : ∀ part ∈ meeting, ∀ step ∈ part.flat, ∀ e, step.2 = some e → e.Proper := by
  have hflat : meeting.flatMap Candidate.flat =
      [(stepOver 0 10, some (northern 0 10)), (stepOver 5 30, some (northern 5 30))] := rfl
  intro part hpart step hstep e he
  have hmem : step ∈ meeting.flatMap Candidate.flat := List.mem_flatMap.2 ⟨part, hpart, hstep⟩
  rw [hflat, List.mem_cons, List.mem_singleton] at hmem
  rcases hmem with rfl | rfl <;> cases he <;>
    exact new_proper (by decide) (by decide) (by decide) (by decide)

theorem concatenate_area_meeting : ∃ route,
    concatenate bareRegistry meeting true = some route ∧
      ∃ flat : List (Single × Option Extent), route.steps = flat.map (·.1) ∧
        ∀ step ∈ flat, ∀ e, step.2 = some e → Inside flat.length route.area e := by
  have hmeet : (meet [some (northern 0 10), some (northern 5 30)] none).isNone = false := by decide
  obtain ⟨route, h, hsteps, -⟩ := concatenate_two (r := bareRegistry) (stepOver 0 10)
    (stepOver 5 30) true (Bool.eq_false_iff.1 hmeet)
  refine ⟨route, h, ?_⟩
  rcases concatenate_area meeting_proper h with hone | ⟨step, hone, -⟩ | ⟨flat, -, hflat, hareas⟩
  · cases hone
  · rw [hsteps] at hone
    cases hone
  · rcases hareas with ⟨hchecked, -⟩ | hinside
    · cases hchecked
    · exact ⟨flat, hflat, hinside⟩

theorem not_covers_northern {west east : Nat} (hlt : west < east) (heast : east < 100) {p : Point}
    (hp : p.lon = 100) : ¬(northern west east).Covers p := by
  have hwestNat : west < 2 ^ 53 := by omega
  have heastNat : east < 2 ^ 53 := by omega
  have hwest := F64.value_ofUsize hwestNat
  have heast' := F64.value_ofUsize heastNat
  have hne : (F64.ofUsize west).eq (F64.ofUsize east) = false := by
    rw [Bool.eq_false_iff, ne_eq, F64.eq_iff_value (F64.isNan_of_isFinite (F64.isFinite_ofUsize hwestNat))
      (F64.isNan_of_isFinite (F64.isFinite_ofUsize heastNat)), hwest, heast', Nat.cast_inj]
    omega
  rintro ⟨-, -, hlon⟩
  rw [northern, new_arc hne, hwest, heast', Lib.Arc.mem_of_le (Nat.cast_le.2 hlt.le), hp] at hlon
  have hreal : (east : ℝ) < 100 := by exact_mod_cast heast
  linarith [hlon.2]

/-- Steps from 0 to 10 and from 20 to 30 degrees east. -/
def farApart : List Candidate :=
  [.single bareRegistry (stepOver 0 10), .single bareRegistry (stepOver 20 30)]

/-- A route through areas that don't meet is for a place that is in none of them. -/
theorem concatenate_farApart : ∃ route, concatenate bareRegistry farApart false = some route ∧
    ∃ p : Point, route.area.Covers p ∧
      ∀ step ∈ route.steps, ∀ e, step.extent = some e → ¬e.Covers p := by
  have hmeet : meet [some (northern 0 10), some (northern 20 30)] none = none := by decide
  obtain ⟨route, h, hsteps, hextent⟩ :=
    concatenate_two (r := bareRegistry) (stepOver 0 10) (stepOver 20 30) false Bool.false_ne_true
  have harea : route.area = world := by
    rw [Candidate.area, hextent]
    show (meet [some (northern 0 10), some (northern 20 30)] none).join.getD world = world
    rw [hmeet]
    rfl
  refine ⟨route, h, ⟨100, 0, by norm_num, by norm_num⟩, ?_, ?_⟩
  · rw [harea]
    have hsouth : (F64.ofUsize 90).value = 90 := F64.value_ofUsize (by decide)
    refine ⟨?_, ?_, ?_⟩
    · show (-F64.ofUsize 90).value ≤ 0
      rw [F64.value_neg, hsouth]
      norm_num
    · show 0 ≤ (F64.ofUsize 90).value
      rw [hsouth]
      norm_num
    · have haround : world.arc.Around (-180) 180 := by
        constructor
        · exact (F64.value_neg _).trans (congrArg Neg.neg value_180)
        · exact value_180
      exact haround.mem (by norm_num) (by norm_num)
  · rw [hsteps]
    intro step hstep e he
    rcases List.mem_cons.1 hstep with rfl | hstep
    · cases he
      exact not_covers_northern (by decide) (by decide) rfl
    · cases List.mem_singleton.1 hstep
      cases he
      exact not_covers_northern (by decide) (by decide) rfl

end Search

end Xeibe.Reproject.Select

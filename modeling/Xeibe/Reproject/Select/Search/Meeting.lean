import Mathlib.Tactic.FinCases
import Xeibe.Reproject.Select.Search.Chains

/-!
# Where the steps of a route meet

Between two geodetic or projected CRSs every candidate is a chain: a step starts
on the datum the one before it ended on, and only at a vertical CRS, or at the
compound CRSs that stand for it, the datums of the horizontal positions may
differ.  `sampleRegistry` has two registered operations that meet so.
-/

namespace Xeibe.Reproject.Select.Search

open Xeibe.Geom (F64)
open Xeibe.Lib

/-- Every candidate leads from the source to the target, neighbouring steps
meeting on one datum, or at one vertical CRS. -/
theorem routes_chain (r : Registry) (catalogue : Catalogue)
    (heights : Setting → (Bool → CrsRef → CrsRef → List Candidate) →
      Bool → CrsRef → CrsRef → List Candidate)
    (grids : Grids) (selection : Selection) {s t : CrsRef}
    (hs : (r.kind s).isHorizontal = true) (ht : (r.kind t).isHorizontal = true) :
    ∀ c ∈ createOperations r catalogue heights s t grids selection, r.Routed s c.steps t := by
  intro c hc
  let x : Setting := ⟨r, catalogue, Areas.new catalogue (r.extent s) (r.extent t) selection, grids⟩
  have hmem : c ∈ operations x (heights x) maxRecursion false s t := mem_of_mem_filterAndSort hc
  exact operations_chains (heights x) maxRecursion false s t hs ht c hmem

/-- One datum of the horizontal positions, or one CRS. -/
def Registry.OneDatum (r : Registry) (a b : CrsRef) : Prop :=
  a = b ∨ ∃ d, r.datum a = some d ∧ r.datum b = some d

/-! ## A route through two compound CRSs -/

/-- An exact operation of the whole world. -/
def sampleOperation (code : Nat) (table : Table) (src dst : Nat) (steps : List Nat) : Operation where
  code := code
  name := "A to B"
  table := table
  method := 9603
  src := some src
  dst := some dst
  accuracy := some F64.zero
  variant := 1
  deprecated := false
  replaced := false
  emulates := []
  area := some world
  params := []
  steps := steps
  supersededBy := []

/-- A projected CRS 1 and a geographic one 2 with operations to and from two
compound CRSs, 31 and 32, on two other datums, that have one vertical CRS 20; and
two concatenations that end and start at the vertical CRS itself. -/
def sampleRegistry : Registry where
  ops :=
    [sampleOperation 1001 .other 1 31 [], sampleOperation 1002 .other 32 2 [],
      sampleOperation 2001 .concatenated 1 20 [1001], sampleOperation 2002 .concatenated 20 2 [1002]]
  geodetic :=
    [⟨2, "B", .geographic3d, 102, false⟩, ⟨3, "A", .geographic2d, 103, false⟩,
      ⟨11, "C", .geographic2d, 111, false⟩, ⟨12, "D", .geographic2d, 112, false⟩]
  vertical := [⟨20, "H", 120, false⟩]
  datums := []
  crsExtent := []
  records :=
    [⟨1, "A / zone 1", false, .projected (some 3) "zone 1" none⟩,
      ⟨31, "C + H", true, .compound (some (11, 20))⟩, ⟨32, "D + H", true, .compound (some (12, 20))⟩]
  ops_nodup := by decide
  codes_nodup := by decide
  steps_known := by decide
  base_geodetic := by
    intro record hrecord base name code hkind
    fin_cases hrecord
    · cases hkind
      decide
    · cases hkind
    · cases hkind
  parts_simple := by
    intro record hrecord h v hkind
    fin_cases hrecord
    · cases hkind
    · cases hkind
      exact ⟨by decide, by simp⟩
    · cases hkind
      exact ⟨by decide, by simp⟩
  members_ne := Registry.members_ne_nil

/-- The sine at the poles, and no grids. -/
def sampleCatalogue : Catalogue where
  sin x := if x < F64.zero then -F64.ofUsize 1 else F64.ofUsize 1
  display x :=
    if x.eq (F64.ofUsize 180) then "180"
    else if x.eq (F64.ofUsize 90) then "90"
    else if x.eq (-F64.ofUsize 90) then "-90"
    else "-180"
  scientific _ := "0e0"
  runs _ := true
  lookup _ _ := none
  onCdn _ _ := false
  primeMeridian _ := some F64.zero

/-- What the search finds between the two CRSs. -/
def sampleOperations : List Candidate :=
  createOperations sampleRegistry sampleCatalogue (fun _ _ _ _ _ => []) (.epsg 1) (.epsg 2)
    .projData .unlimited

theorem sampleOperations_ends :
    sampleOperations.map (fun c => c.steps.map fun s => (s.src, s.dst)) =
      [[(.epsg 1, .epsg 31), (.epsg 32, .epsg 2)]] := by
  decide +kernel

theorem sampleRegistry_datums :
    sampleRegistry.datum (.epsg 31) = some 111 ∧ sampleRegistry.datum (.epsg 32) = some 112 := by
  decide +kernel

/-- The second step starts on another datum than the first one ended on. -/
theorem sampleOperations_leave_datum :
    ¬ ∀ c ∈ sampleOperations,
      Route sampleRegistry.OneDatum Single.src Single.dst (.epsg 1) c.steps (.epsg 2) := by
  intro h
  obtain ⟨c, hc⟩ : ∃ c, sampleOperations = [c] := by
    have hlength := congrArg List.length sampleOperations_ends
    rw [List.length_map] at hlength
    exact List.length_eq_one_iff.1 hlength
  have hroute := h c (by rw [hc]; exact List.mem_singleton_self c)
  have hends := sampleOperations_ends
  rw [hc, List.map_singleton, List.cons.injEq] at hends
  obtain ⟨hsteps, -⟩ := hends
  obtain ⟨first, rest, hfirst, hends1, hrest⟩ := List.map_eq_cons_iff.1 hsteps
  obtain ⟨second, rest, rfl, hends2, -⟩ := List.map_eq_cons_iff.1 hrest
  rw [hfirst] at hroute
  have hmeet : sampleRegistry.OneDatum first.dst second.src := hroute.2.1
  rw [(Prod.mk.inj hends1).2, (Prod.mk.inj hends2).1] at hmeet
  rcases hmeet with hsame | ⟨d, h31, h32⟩
  · cases hsame
  · rw [sampleRegistry_datums.1] at h31
    rw [sampleRegistry_datums.2, ← h31] at h32
    cases h32

theorem routes_chain_sample :
    sampleOperations ≠ [] ∧
      ∀ c ∈ sampleOperations, sampleRegistry.Routed (.epsg 1) c.steps (.epsg 2) := by
  constructor
  · intro hnone
    have hends := sampleOperations_ends
    rw [hnone] at hends
    cases hends
  · exact routes_chain sampleRegistry sampleCatalogue (fun _ _ _ _ _ => []) .projData .unlimited
      (by decide +kernel) (by decide +kernel)

end Xeibe.Reproject.Select.Search

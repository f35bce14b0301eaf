import Xeibe.Reproject.Select.Search.Linked

/-!
# The candidates' steps are routes

Every step a candidate is made of starts where the one before it ended: for the
steps of registered operations and their inverses, for concatenations that lose
pairs of steps, for the routes through intermediate CRSs and datums, and by
induction on the depth for the whole search.
-/

namespace Xeibe.Reproject.Select.Search

open Xeibe.Geom (F64)
open Xeibe.Lib

/-- The steps lead from one CRS to another, neighbours linked. -/
def Registry.Routed (r : Registry) : CrsRef → List Single → CrsRef → Prop :=
  Route r.Linked Single.src Single.dst

section

variable {r : Registry}

/-! ## Steps -/

theorem Single.routed (s : Single) : r.Routed s.src [s] s.dst :=
  Route.single r.linked_equivalence s

theorem Registry.Routed.append {a b c : CrsRef} {steps others : List Single}
    (h : r.Routed a steps b) (hothers : r.Routed b others c) : r.Routed a (steps ++ others) c :=
  Route.append r.linked_equivalence h hothers

@[simp] theorem Single.inverse_src (s : Single) : (s.inverse r).src = s.dst := by
  cases s
  simp only [Single.inverse]

@[simp] theorem Single.inverse_dst (s : Single) : (s.inverse r).dst = s.src := by
  cases s
  simp only [Single.inverse]

theorem inverseSteps_eq (steps : List Single) :
    inverseSteps r steps = steps.reverse.map (Single.inverse r) := by
  induction steps with
  | nil => rfl
  | cons step steps ih => rw [inverseSteps, ih, List.reverse_cons, List.map_append]; rfl

theorem routed_inverse {a b : CrsRef} {c : Candidate} (h : r.Routed a c.steps b) :
    r.Routed b (c.inverse r).steps a := by
  show r.Routed b (inverseSteps r c.steps) a
  rw [inverseSteps_eq]
  exact Route.reverse r.linked_equivalence Single.inverse_src Single.inverse_dst h

theorem sameDatumStep_spec {src dst : CrsRef} {s : Single}
    (h : sameDatumStep r src dst = some s) : s.src = src ∧ s.dst = dst := by
  unfold sameDatumStep at h
  extract_lets geocentric conversion at h
  split at h
  · cases h
    exact ⟨rfl, rfl⟩
  · cases h

theorem ensembleMemberStep_spec {src dst : CrsRef} {s : Single}
    (h : ensembleMemberStep r src dst = some s) : s.src = src ∧ s.dst = dst := by
  unfold ensembleMemberStep at h
  split at h
  · obtain ⟨a, -, hrest⟩ := Option.bind_eq_some_iff.1 h
    obtain ⟨b, -, hrest⟩ := Option.bind_eq_some_iff.1 hrest
    obtain ⟨accuracy, -, hrest⟩ := Option.bind_eq_some_iff.1 hrest
    obtain ⟨extent, -, hpure⟩ := Option.bind_eq_some_iff.1 hrest
    cases hpure
    exact ⟨rfl, rfl⟩
  · cases h

theorem bridge_routed {cur dst : CrsRef} {steps : List Single}
    (h : bridge r cur dst = some steps) : r.Routed cur steps dst := by
  unfold bridge at h
  split at h
  · rename_i heq
    cases h
    exact .inl heq
  · obtain ⟨s, hs, rfl⟩ := Option.map_eq_some_iff.1 h
    obtain ⟨rfl, rfl⟩ := sameDatumStep_spec hs
    exact s.routed

theorem projection_spec {p : Nat} {inverse : Bool} {s : Single}
    (h : projection r p inverse = some s) :
    ∃ base, r.base (.epsg p) = some base ∧
      s.src = (if inverse then .epsg p else base) ∧
      s.dst = (if inverse then base else .epsg p) := by
  obtain ⟨facts, hfacts, hrest⟩ := Option.bind_eq_some_iff.1 h
  obtain ⟨name, -, hrest⟩ := Option.bind_eq_some_iff.1 hrest
  obtain ⟨base, hbase, hpure⟩ := Option.bind_eq_some_iff.1 hrest
  cases hpure
  refine ⟨.epsg base, ?_, rfl, rfl⟩
  rw [Registry.base, hfacts]
  exact congrArg (Option.map CrsRef.epsg) hbase

/-! ## Registered operations -/

/-- A CRS of the registry. -/
def IsEpsg (crs : CrsRef) : Prop := ∃ code, crs = .epsg code

theorem Operation.single_src (op : Operation) (inverse : Bool) :
    (op.single inverse).src = .epsg ((op.from inverse).getD 0) := by
  cases inverse with
  | false => rfl
  | true => rfl

theorem Operation.single_dst (op : Operation) (inverse : Bool) :
    (op.single inverse).dst = .epsg ((op.to inverse).getD 0) := by
  cases inverse with
  | false => rfl
  | true => rfl

theorem verticalTarget_isEpsg {whole : Operation} {cur target : CrsRef} {next : Option Operation}
    (h : verticalTarget r whole cur next = some target) : IsEpsg target := by
  cases next with
  | none =>
    obtain ⟨code, -, rfl⟩ := Option.map_eq_some_iff.1 h
    exact ⟨code, rfl⟩
  | some n =>
    obtain ⟨code, -, rfl⟩ := List.mem_map.1 (List.mem_of_find?_eq_some h)
    exact ⟨code, rfl⟩

theorem projection_isEpsg {p : Nat} {inverse : Bool} {s : Single}
    (h : projection r p inverse = some s) : IsEpsg s.dst := by
  obtain ⟨base, hbase, -, hdst⟩ := projection_spec h
  obtain ⟨code, -, rfl⟩ := Option.map_eq_some_iff.1 hbase
  cases inverse with
  | false => exact ⟨p, hdst⟩
  | true => exact ⟨code, hdst⟩

theorem conversionSteps_routed {whole s : Operation} {next : Option Operation} {cur last : CrsRef}
    {steps : List Single} (h : conversionSteps r whole s next cur = some (steps, last)) :
    r.Routed cur steps last ∧ IsEpsg last := by
  unfold conversionSteps at h
  split at h
  · obtain ⟨target, htarget, hpure⟩ := Option.bind_eq_some_iff.1 h
    cases hpure
    exact ⟨⟨.inl rfl, .inl rfl⟩, verticalTarget_isEpsg htarget⟩
  · obtain ⟨single, hsingle, hrest⟩ := Option.bind_eq_some_iff.1 h
    obtain ⟨before, hbefore, hpure⟩ := Option.bind_eq_some_iff.1 hrest
    cases hpure
    refine ⟨(bridge_routed hbefore).append single.routed, ?_⟩
    unfold derivingStep at hsingle
    split at hsingle
    · exact projection_isEpsg hsingle
    · obtain ⟨p, -, hp⟩ := Option.bind_eq_some_iff.1 hsingle
      exact projection_isEpsg hp

theorem chainStep_routed {whole s : Operation} {next : Option Operation} {cur last : CrsRef}
    {steps : List Single} (h : chainStep r whole s next cur = some (steps, last)) :
    r.Routed cur steps last ∧ IsEpsg last := by
  unfold chainStep at h
  split at h
  · exact conversionSteps_routed h
  · obtain ⟨a, -, hrest⟩ := Option.bind_eq_some_iff.1 h
    obtain ⟨b, -, hrest⟩ := Option.bind_eq_some_iff.1 hrest
    obtain ⟨forward, -, hrest⟩ := Option.bind_eq_some_iff.1 hrest
    obtain ⟨before, hbefore, hpure⟩ := Option.bind_eq_some_iff.1 hrest
    cases hpure
    have hsrc := s.single_src !forward
    have hdst := s.single_dst !forward
    have hroute : r.Routed cur before (s.single !forward).src := by
      split at hbefore
      · -- At the vertical CRS that the operation's compound CRS stands for.
        rename_i hvertical
        cases hbefore
        rw [hsrc] at hvertical ⊢
        exact Registry.linked_symm (Registry.linked_verticalOf hvertical)
      · exact bridge_routed hbefore
    exact ⟨hroute.append (Single.routed _), _, hdst⟩

theorem chainSteps_routed {whole : Operation} {codes : List Nat} {cur last : CrsRef}
    {steps : List Single} (hcur : IsEpsg cur)
    (h : chainSteps r whole codes cur = some (steps, last)) :
    r.Routed cur steps last ∧ IsEpsg last := by
  induction codes generalizing cur steps with
  | nil =>
    cases h
    exact ⟨.inl rfl, hcur⟩
  | cons code codes ih =>
    obtain ⟨s, -, hrest⟩ := Option.bind_eq_some_iff.1 h
    obtain ⟨⟨first, mid⟩, hfirst, hrest⟩ := Option.bind_eq_some_iff.1 hrest
    obtain ⟨⟨others, last'⟩, hothers, hpure⟩ := Option.bind_eq_some_iff.1 hrest
    cases hpure
    obtain ⟨hroute, hmid⟩ := chainStep_routed hfirst
    obtain ⟨hroutes, hlast⟩ := ih hmid hothers
    exact ⟨hroute.append hroutes, hlast⟩

/-- A candidate whose steps lead from its source to its target. -/
def Candidate.Routed (r : Registry) (c : Candidate) : Prop := r.Routed c.src c.steps c.dst

theorem concatenated_spec {op : Operation} {c : Candidate} (h : concatenated r op = some c) :
    c.Routed r ∧ (∃ a, op.src = some a ∧ c.src = .epsg a) ∧ ∃ b, op.dst = some b ∧ c.dst = .epsg b := by
  obtain ⟨a, ha, hrest⟩ := Option.bind_eq_some_iff.1 h
  obtain ⟨⟨steps, cur⟩, hsteps, hrest⟩ := Option.bind_eq_some_iff.1 hrest
  obtain ⟨b, hb, hrest⟩ := Option.bind_eq_some_iff.1 hrest
  obtain ⟨last, hlast, hpure⟩ := Option.bind_eq_some_iff.1 hrest
  cases hpure
  obtain ⟨hroute, code, hcur⟩ := chainSteps_routed ⟨a, rfl⟩ hsteps
  have hend : r.Routed cur last (.epsg b) := by
    split at hlast
    · rename_i hvertical
      cases hlast
      rw [hcur] at hvertical ⊢
      exact Registry.linked_verticalOf hvertical
    · exact bridge_routed hlast
  exact ⟨hroute.append hend, ⟨a, ha, rfl⟩, b, hb, rfl⟩

/-- A registry operation as a candidate, run the way given. -/
theorem registryCandidate_spec {code : Nat} {inverse : Bool} {c : Candidate}
    (h : registryCandidate r code inverse = some c) :
    c.Routed r ∧ ∃ op, r.op code = some op ∧ c.src = .epsg ((op.from inverse).getD 0) ∧
      c.dst = .epsg ((op.to inverse).getD 0) := by
  obtain ⟨op, hop, hrest⟩ := Option.bind_eq_some_iff.1 h
  split at hrest
  · obtain ⟨forward, hforward, hpure⟩ := Option.bind_eq_some_iff.1 hrest
    obtain ⟨hroute, ⟨a, ha, hsrc⟩, b, hb, hdst⟩ := concatenated_spec hforward
    cases inverse with
    | false =>
      cases hpure
      refine ⟨hroute, op, hop, ?_, ?_⟩
      · show forward.src = _
        rw [hsrc, Operation.from, ha]
        rfl
      · show forward.dst = _
        rw [hdst, Operation.to, hb]
        rfl
    | true =>
      cases hpure
      refine ⟨routed_inverse hroute, op, hop, ?_, ?_⟩
      · show forward.dst = _
        rw [hdst, Operation.from, hb]
        rfl
      · show forward.src = _
        rw [hsrc, Operation.to, ha]
        rfl
  · cases hrest
    exact ⟨Single.routed _, op, hop, op.single_src inverse, op.single_dst inverse⟩

/-! ## Concatenations -/

theorem flat_routed {a b : CrsRef} {c : Candidate} (h : r.Routed a c.steps b) :
    r.Routed a (c.flat.map (·.1)) b := by
  unfold Candidate.flat
  split
  · rename_i step hsteps
    rw [hsteps] at h
    exact ⟨h.1, h.2⟩
  · rw [List.map_map]
    have hid : ((fun s : Single × Option Extent => s.1) ∘ fun s : Single => (s, s.extent)) = id := rfl
    rw [hid, List.map_id]
    exact h

theorem flatMap_flat_routed {parts : List Candidate} {a b : CrsRef}
    (h : r.Routed a (parts.flatMap (·.steps)) b) :
    r.Routed a ((parts.flatMap Candidate.flat).map (·.1)) b := by
  induction parts generalizing a with
  | nil => exact h
  | cons part parts ih =>
    rw [List.flatMap_cons] at h
    rw [List.flatMap_cons, List.map_append]
    obtain ⟨mid, hpart, hparts⟩ := Route.of_append r.linked_equivalence h
    exact (flat_routed hpart).append (ih hparts)

theorem cancels_src {s t : Single} (h : cancels s t = true) : s.src = t.dst := by
  unfold cancels at h
  simp only [Bool.and_eq_true, beq_iff_eq] at h
  exact h.1.1

theorem cancelFirst_routed {flat rest : List (Single × Option Extent)} {a b : CrsRef}
    (hcancel : cancelFirst flat = some rest) (h : r.Routed a (flat.map (·.1)) b) :
    r.Routed a (rest.map (·.1)) b := by
  induction flat generalizing a rest with
  | nil => cases hcancel
  | cons s flat ih =>
    cases flat with
    | nil => cases hcancel
    | cons t flat =>
      rw [cancelFirst] at hcancel
      split at hcancel
      · rename_i hpair
        cases hcancel
        have hback : r.Linked s.1.src t.1.dst := .inl (cancels_src hpair)
        have hroute : r.Routed a ([] ++ s.1 :: t.1 :: rest.map (·.1)) b := h
        exact Route.drop_pair r.linked_equivalence hroute hback
      · obtain ⟨rest', hrest, rfl⟩ := Option.map_eq_some_iff.1 hcancel
        exact ⟨h.1, ih hrest h.2⟩

theorem cancelPairs_routed {n : Nat} {flat : List (Single × Option Extent)} {a b : CrsRef}
    (h : r.Routed a (flat.map (·.1)) b) : r.Routed a ((cancelPairs n flat).map (·.1)) b := by
  induction n generalizing flat with
  | zero => exact h
  | succ n ih =>
    rw [cancelPairs]
    split
    · exact h
    · split
      · rename_i rest hrest
        exact ih (cancelFirst_routed hrest h)
      · exact h

theorem concatenate_routed {parts : List Candidate} {checkExtent : Bool} {c : Candidate}
    {a b : CrsRef} (hc : concatenate r parts checkExtent = some c)
    (h : r.Routed a (parts.flatMap (·.steps)) b) : r.Routed a c.steps b := by
  unfold concatenate at hc
  split at hc
  · cases hc
  · cases hc
    rw [List.flatMap_singleton] at h
    exact h
  · rename_i first rest _
    obtain ⟨last, -, hrest⟩ := Option.bind_eq_some_iff.1 hc
    extract_lets flat at hrest
    have hflat : r.Routed a ((cancelPairs flat.length flat).map (·.1)) b :=
      cancelPairs_routed (flatMap_flat_routed h)
    split at hrest
    · rename_i hone
      cases hrest
      rw [hone] at hflat
      exact hflat
    · unfold concatenateFlat at hrest
      extract_lets steps extent at hrest
      split at hrest
      · cases hrest
      · cases hrest
        exact hflat

end

end Xeibe.Reproject.Select.Search

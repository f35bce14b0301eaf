import Xeibe.Reproject.Select.Search.Routes

/-!
# Every route found is a chain

What each part of the search finds leads from the source to the target: the
registered operations, the routes through intermediate CRSs, datums and
realizations, and by induction on the depth what the search as a whole finds.
-/

namespace Xeibe.Reproject.Select.Search

open Xeibe.Geom (F64)
open Xeibe.Lib

/-! ## What is kept -/

theorem mem_of_mem_filterOut {list : List Candidate} {areas : Areas} {strict : Bool} {c : Candidate}
    (h : c ∈ filterOut list areas strict) : c ∈ list := by
  unfold filterOut at h
  extract_lets usable res withExtent withoutExtent at h
  split at h
  · exact (List.mem_filter.1 h).1
  · exact (List.mem_filter.1 (List.mem_filter.1 h).1).1

theorem mem_of_mem_removeUninterestingOps {last : Option Candidate} {list : List Candidate}
    {c : Candidate} (h : c ∈ removeUninterestingOps last list) : c ∈ list := by
  induction list generalizing last with
  | nil => exact h
  | cons first rest ih =>
    rw [removeUninterestingOps] at h
    split at h
    · exact List.mem_cons_of_mem _ (ih h)
    · rcases List.mem_cons.1 h with rfl | h
      · exact List.mem_cons_self
      · exact List.mem_cons_of_mem _ (ih h)

theorem mem_of_mem_firstOfEach {α κ : Type} [DecidableEq κ] {key : α → κ} {seen : List κ}
    {list : List α} {x : α} (h : x ∈ firstOfEach key seen list) : x ∈ list := by
  induction list generalizing seen with
  | nil => exact h
  | cons first rest ih =>
    rw [firstOfEach] at h
    split at h
    · exact List.mem_cons_of_mem _ (ih h)
    · rcases List.mem_cons.1 h with rfl | h
      · exact List.mem_cons_self
      · exact List.mem_cons_of_mem _ (ih h)

theorem mem_of_mem_removeSyntheticNullTransforms {list : List Candidate} {without : Bool}
    {c : Candidate} (h : c ∈ removeSyntheticNullTransforms list without) : c ∈ list := by
  unfold removeSyntheticNullTransforms at h
  split at h
  · exact List.mem_of_mem_dropLast h
  · exact h

theorem mem_of_mem_sortOps {r : Registry} {catalogue : Catalogue} {areas : Areas}
    {list : List Candidate} {c : Candidate} (h : c ∈ sortOps r catalogue areas list) : c ∈ list := by
  obtain ⟨keyed, hkeyed, rfl⟩ := List.mem_map.1 h
  rw [List.mem_insertionSort] at hkeyed
  obtain ⟨c, hc, rfl⟩ := List.mem_map.1 hkeyed
  exact hc

theorem mem_of_mem_filterAndSort {r : Registry} {catalogue : Catalogue} {areas : Areas}
    {list : List Candidate} {c : Candidate} (h : c ∈ filterAndSort r catalogue list areas) :
    c ∈ list := by
  have hdistinct := mem_of_mem_removeSyntheticNullTransforms h
  have hinteresting := mem_of_mem_removeUninterestingOps (mem_of_mem_firstOfEach hdistinct)
  have hsorted := mem_of_mem_removeSyntheticNullTransforms hinteresting
  exact mem_of_mem_filterOut (mem_of_mem_sortOps hsorted)

theorem mem_firstNonEmpty {α β : Type} {f : α → List β} {xs : List α} {y : β}
    (h : y ∈ firstNonEmpty f xs) : ∃ x ∈ xs, y ∈ f x := by
  induction xs with
  | nil => cases h
  | cons x xs ih =>
    rw [firstNonEmpty] at h
    split at h
    · obtain ⟨x', hx', hy⟩ := ih h
      exact ⟨x', List.mem_cons_of_mem _ hx', hy⟩
    · exact ⟨x, List.mem_cons_self, h⟩

theorem mem_sortBy {α : Type} {cmp : α → α → Ordering} {xs : List α} {x : α} :
    x ∈ sortBy cmp xs ↔ x ∈ xs := List.mem_insertionSort _

section

variable {r : Registry}

theorem op_spec {code : Nat} {op : Operation} (h : r.op code = some op) :
    op ∈ r.ops ∧ op.code = code := by
  refine ⟨List.mem_of_find?_eq_some h, ?_⟩
  have hcode := List.find?_some h
  simpa using hcode

theorem op_eq_some {op : Operation} (h : op ∈ r.ops) : r.op op.code = some op :=
  Registry.find?_code r.ops_nodup h

theorem registryCandidate_routed {op : Operation} (hop : op ∈ r.ops) {inverse : Bool} {a b : Nat}
    (ha : op.from inverse = some a) (hb : op.to inverse = some b) {c : Candidate}
    (h : registryCandidate r op.code inverse = some c) : r.Routed (.epsg a) c.steps (.epsg b) := by
  obtain ⟨hroute, found, hfound, hsrc, hdst⟩ := registryCandidate_spec h
  rw [op_eq_some hop] at hfound
  cases hfound
  rw [ha] at hsrc
  rw [hb] at hdst
  rw [Candidate.Routed, hsrc, hdst] at hroute
  exact hroute

/-! ## PROJ's null operations -/

theorem projEnsembleOperation_spec {a b : CrsRef} (hne : a ≠ b) {code : Nat} {inverse : Bool}
    (h : projEnsembleOperation r a b = some (code, inverse)) :
    ∃ op ∈ r.ops, op.code = code ∧ ∃ i j, a = .epsg i ∧ b = .epsg j ∧
      op.from inverse = some i ∧ op.to inverse = some j := by
  unfold projEnsembleOperation at h
  split at h
  · rename_i i j
    obtain ⟨found, hfound, hrest⟩ := List.exists_of_findSome?_eq_some h
    obtain ⟨op, hop, hrest⟩ := Option.bind_eq_some_iff.1 hrest
    obtain ⟨hmem, hcode⟩ := op_spec hop
    -- The operation by its code is the one that has the CRS at an end.
    have hend : op.src = some i ∨ op.dst = some i := by
      obtain ⟨other, hother, hsame⟩ := List.mem_map.1 hfound
      obtain ⟨hothers, hends⟩ := List.mem_filter.1 hother
      have heq : r.op found = some other := hsame ▸ op_eq_some hothers
      rw [hop] at heq
      cases heq
      simpa using hends
    split at hrest
    · rename_i hjoins
      cases hrest
      refine ⟨op, hmem, hcode, i, j, rfl, rfl, ?_⟩
      have hij : i ≠ j := fun heq => hne (congrArg CrsRef.epsg heq)
      by_cases hsrc : op.src = some j
      · have hdst : op.dst = some i := by
          rcases hend with hi | hi
          · exact absurd (Option.some.inj (hi.symm.trans hsrc)) hij
          · exact hi
        rw [decide_eq_true hsrc]
        exact ⟨hdst, hsrc⟩
      · have hdst : op.dst = some j := hjoins.2.resolve_right hsrc
        have hi : op.src = some i := by
          rcases hend with hi | hi
          · exact hi
          · exact absurd (Option.some.inj (hi.symm.trans hdst)) hij
        rw [decide_eq_false hsrc]
        exact ⟨hi, hdst⟩
    · cases hrest
  · cases h

end

section

variable {x : Setting}

/-! ## Registered operations -/

theorem registered_routed {s t : Nat} {c : Candidate} (h : c ∈ registered x s t) :
    x.r.Routed (.epsg s) c.steps (.epsg t) := by
  unfold registered at h
  extract_lets rows keep any at h
  obtain ⟨row, hrow, hc⟩ := List.mem_filterMap.1 h
  have hmem : row ∈ Search.rows x s t :=
    mem_sortBy.1 (List.mem_filter.1 (List.mem_filter.1 hrow).1).1
  obtain ⟨op, hop, hjoins⟩ := List.mem_filterMap.1 hmem
  obtain ⟨code, -, hcode⟩ := List.mem_filterMap.1 hop
  extract_lets forward backward at hjoins
  split at hjoins
  · rename_i hlive
    obtain ⟨extent, -, rfl⟩ := Option.map_eq_some_iff.1 hjoins
    obtain ⟨hcandidate, -⟩ := Option.filter_eq_some_iff.1 hc
    have hops := (op_spec hcode).1
    by_cases hsrc : op.src = some s
    · have hdst : op.dst = some t := by
        rcases hlive.2.2 with hforward | hbackward
        · exact hforward.2
        · exact hbackward.2.trans (hsrc.symm.trans hbackward.1)
      simp only [hsrc, ne_eq, not_true_eq_false, decide_false] at hcandidate
      have hfrom : op.from false = some s := hsrc
      exact registryCandidate_routed hops hfrom hdst hcandidate
    · have hback : op.src = some t ∧ op.dst = some s := by
        rcases hlive.2.2 with hforward | hbackward
        · exact absurd hforward.1 hsrc
        · exact hbackward
      simp only [hsrc, ne_eq, not_false_eq_true, decide_true] at hcandidate
      have hfrom : op.from true = some s := hback.2
      exact registryCandidate_routed hops hfrom hback.1 hcandidate
  · cases hjoins

theorem findOpsDirect_routed {s t : CrsRef} {c : Candidate} (h : c ∈ (findOpsDirect x s t).1) :
    x.r.Routed s c.steps t := by
  unfold findOpsDirect at h
  split at h
  · rename_i s t
    extract_lets list at h
    split at h
    · cases h
    · have hmem : c ∈ crsCodes x s t := mem_of_mem_filterOut h
      unfold crsCodes at hmem
      split at hmem
      · rename_i step hstep
        rw [List.mem_singleton.1 hmem]
        unfold baseConversion at hstep
        split at hstep
        · rename_i hbase
          obtain ⟨base, hbase', hsrc, hdst⟩ := projection_spec hstep
          rw [hbase.2] at hbase'
          cases hbase'
          have hroute := step.routed (r := x.r)
          rw [hsrc, hdst] at hroute
          exact hroute
        · cases hstep
      · exact registered_routed hmem
  · cases h

/-! ## Intermediate CRSs -/

theorem live_spec {c : Nat} {op : Operation} (h : op ∈ live x c) : op ∈ x.r.ops := by
  obtain ⟨code, -, hop⟩ := List.mem_filterMap.1 h
  exact (op_spec hop).1

/-- The two operations of a pair meet at the intermediate CRS. -/
theorem pairs_spec {s t : Nat} {geographicOnly inv1 inv2 : Bool} {p : Pair}
    (h : p ∈ pairs x s t geographicOnly inv1 inv2) :
    p.op1 ∈ x.r.ops ∧ p.op2 ∈ x.r.ops ∧ p.op1.from inv1 = some s ∧
      (∃ pivot, p.op1.to inv1 = some pivot ∧ p.op2.from inv2 = some pivot) ∧
      p.op2.to inv2 = some t := by
  obtain ⟨op1, hop1, hrest⟩ := List.mem_flatMap.1 h
  split at hrest
  · cases hrest
  · rename_i pivot hpivot
    split at hrest
    · cases hrest
    · rename_i hfrom
      obtain ⟨op2, hop2, hpair⟩ := List.mem_filterMap.1 hrest
      split at hpair
      · cases hpair
      · rename_i hmeet
        split at hpair
        · split at hpair
          · cases hpair
            have hs : op1.from inv1 = some s := by
              by_contra hne
              exact hfrom (.inl hne)
            have hvia : op2.from inv2 = some pivot := by
              by_contra hne
              exact hmeet (.inl hne)
            have ht : op2.to inv2 = some t := by
              by_contra hne
              exact hmeet (.inr (.inl hne))
            exact ⟨live_spec hop1, live_spec hop2, hs, ⟨pivot, hpivot, hvia⟩, ht⟩
          · cases hpair
        · cases hpair

theorem withIntermediates_routed {s t : Nat} {geographicOnly : Bool} {c : Candidate}
    (h : c ∈ withIntermediates x s t geographicOnly) :
    x.r.Routed (.epsg s) c.steps (.epsg t) := by
  unfold withIntermediates at h
  split at h
  · cases h
  · obtain ⟨⟨inv1, inv2⟩, -, hrest⟩ := List.mem_flatMap.1 h
    simp only [] at hrest
    obtain ⟨p, hp, hcandidate⟩ := List.mem_filterMap.1 hrest
    obtain ⟨hop1, hop2, hs, ⟨pivot, hpivot, hvia⟩, ht⟩ := pairs_spec (mem_sortBy.1 hp)
    unfold Pair.candidate at hcandidate
    split at hcandidate
    · cases hcandidate
    · obtain ⟨c1, hc1, hrest⟩ := Option.bind_eq_some_iff.1 hcandidate
      obtain ⟨c2, hc2, hrest⟩ := Option.bind_eq_some_iff.1 hrest
      obtain ⟨hconcatenate, -⟩ := Option.filter_eq_some_iff.1 hrest
      refine concatenate_routed hconcatenate ?_
      have h1 := registryCandidate_routed hop1 hs hpivot hc1
      have h2 := registryCandidate_routed hop2 hvia ht hc2
      simpa using h1.append h2

/-! ## CRSs on one datum -/

theorem geodToGeod_routed {s t : CrsRef} {c : Candidate} (h : c ∈ geodToGeod x s t) :
    x.r.Routed s c.steps t := by
  unfold geodToGeod at h
  extract_lets latFirst at h
  split at h
  · cases h
  · split at h
    · rw [List.mem_singleton.1 h]
      exact ⟨.inl rfl, .inl rfl⟩
    · obtain ⟨step, hstep, rfl⟩ := List.mem_map.1 h
      obtain ⟨rfl, rfl⟩ := sameDatumStep_spec (Option.mem_toList.1 hstep)
      exact step.routed

theorem conversionBetween_routed {a b : CrsRef} {parts : List Candidate}
    (h : conversionBetween x a b = some parts) :
    x.r.Routed a (parts.flatMap (·.steps)) b := by
  unfold conversionBetween at h
  split at h
  · rename_i heq
    cases h
    exact .inl heq
  · obtain ⟨c, hc, rfl⟩ := Option.map_eq_some_iff.1 h
    unfold conversionWithoutDatabase at hc
    split at hc
    · rw [List.flatMap_singleton]
      exact geodToGeod_routed (List.mem_of_mem_head? hc)
    · cases hc

/-! ## Intermediate datums -/

theorem datumCandidate_routed {src dst : CrsRef} {a b : Trfm} {c : Candidate}
    (h : datumCandidate x src dst a b = some c) : x.r.Routed src c.steps dst := by
  obtain ⟨op1, hop1, hrest⟩ := Option.bind_eq_some_iff.1 h
  obtain ⟨op2, hop2, hrest⟩ := Option.bind_eq_some_iff.1 hrest
  split at hrest
  · cases hrest
  · obtain ⟨before, hbefore, hrest⟩ := Option.bind_eq_some_iff.1 hrest
    obtain ⟨between, hbetween, hrest⟩ := Option.bind_eq_some_iff.1 hrest
    obtain ⟨after, hafter, hrest⟩ := Option.bind_eq_some_iff.1 hrest
    obtain ⟨hconcatenate, -⟩ := Option.filter_eq_some_iff.1 hrest
    refine concatenate_routed hconcatenate ?_
    have h1 : x.r.Routed op1.src op1.steps op1.dst := (registryCandidate_spec hop1).1
    have h2 : x.r.Routed op2.src op2.steps op2.dst := (registryCandidate_spec hop2).1
    have hfirst := (conversionBetween_routed hbefore).append h1
    have hsecond := (conversionBetween_routed hbetween).append h2
    simpa using (hfirst.append hsecond).append (conversionBetween_routed hafter)

theorem withDatumBasedIntermediates_routed {s t : Nat} {c : Candidate}
    (h : c ∈ withDatumBasedIntermediates x s t) : x.r.Routed (.epsg s) c.steps (.epsg t) := by
  unfold withDatumBasedIntermediates at h
  extract_lets src dst nad83Csrs side pairs codes at h
  split at h
  · cases h
  · obtain ⟨⟨a, b⟩, -, hcandidate⟩ := List.mem_filterMap.1 h
    simp only [] at hcandidate
    split at hcandidate
    · cases hcandidate
    · exact datumCandidate_routed hcandidate

theorem findOpsWithIntermediate_routed {datumBased : Bool} {s t : CrsRef} {c : Candidate}
    (h : c ∈ findOpsWithIntermediate x datumBased s t) : x.r.Routed s c.steps t := by
  unfold findOpsWithIntermediate at h
  split at h
  · rename_i s t
    extract_lets geographicOnly res at h
    split at h
    · cases h
    · have hres : c ∈ res := mem_of_mem_filterOut h
      simp only [res] at hres
      split at hres
      · exact withDatumBasedIntermediates_routed hres
      · exact withIntermediates_routed hres
  · cases h

/-! ## Realizations -/

theorem ensembleStep_routed {a b : CrsRef} (hne : a ≠ b) {c : Candidate}
    (h : ensembleStep x a b = some c) : x.r.Routed a c.steps b := by
  unfold ensembleStep at h
  split at h
  · rename_i code inverse hfound
    obtain ⟨op, hop, rfl, i, j, rfl, rfl, hi, hj⟩ := projEnsembleOperation_spec hne hfound
    exact registryCandidate_routed hop hi hj h
  · obtain ⟨step, hstep, rfl⟩ := Option.map_eq_some_iff.1 h
    obtain ⟨rfl, rfl⟩ := ensembleMemberStep_spec hstep
    exact step.routed

/-- A CRS on a member of an ensemble is not one on the ensemble. -/
theorem memberCrss_ne {ensemble other : Nat} {mid t : CrsRef} (hmid : mid ∈ memberCrss x ensemble other)
    (ht : x.r.datum t = some ensemble) : mid ≠ t := by
  rintro rfl
  obtain ⟨m, hm, hcrs⟩ := List.mem_flatMap.1 hmid
  obtain ⟨code, hcode, rfl⟩ := List.mem_map.1 hcrs
  have hdatum := (Registry.crsByDatum_spec hcode).2
  rw [hdatum] at ht
  cases ht
  have hmember := (List.mem_filter.1 hm).1
  cases hfound : x.r.datumOf ensemble with
  | none =>
    rw [hfound] at hmember
    cases hmember
  | some d =>
    rw [hfound] at hmember
    have hcode : d.code = ensemble := by simpa using List.find?_some hfound
    cases hmembers : d.members with
    | none =>
      rw [Option.bind_some, hmembers] at hmember
      cases hmember
    | some members =>
      rw [Option.bind_some, hmembers] at hmember
      rw [← hcode] at hmember
      exact x.r.members_ne d (List.mem_of_find?_eq_some hfound) members hmembers hmember

theorem epsgOperations_routed {s t : CrsRef} {c : Candidate} (h : c ∈ epsgOperations x s t) :
    x.r.Routed s c.steps t := findOpsDirect_routed (List.mem_filter.1 h).1

theorem viaRealizations_routed {inDatumPivot : Bool} {s t : CrsRef} {c : Candidate}
    (h : c ∈ viaRealizations x inDatumPivot s t) : x.r.Routed s c.steps t := by
  unfold viaRealizations at h
  split at h
  · cases h
  · split at h
    · rename_i ds dt hds hdt
      rcases List.mem_append.1 h with h | h
      · obtain ⟨mid, hmid, hrest⟩ := List.mem_flatMap.1 h
        obtain ⟨first, hfirst, hc⟩ := List.mem_filterMap.1 hrest
        obtain ⟨step, hstep, hconcatenate⟩ := Option.bind_eq_some_iff.1 hc
        refine concatenate_routed hconcatenate ?_
        have hlast := ensembleStep_routed (memberCrss_ne hmid hdt) hstep
        simpa using (epsgOperations_routed hfirst).append hlast
      · obtain ⟨mid, hmid, hrest⟩ := List.mem_flatMap.1 h
        obtain ⟨second, hsecond, hc⟩ := List.mem_filterMap.1 hrest
        obtain ⟨step, hstep, hconcatenate⟩ := Option.bind_eq_some_iff.1 hc
        refine concatenate_routed hconcatenate ?_
        have hfirst := ensembleStep_routed (memberCrss_ne hmid hds).symm hstep
        simpa using hfirst.append (epsgOperations_routed hsecond)
    · cases h

/-! ## The database -/

/-- What the registry gives is among the direct operations, the routes through
the two datums' CRSs, and those through intermediate CRSs. -/
theorem mem_queryRegistry {inDatumPivot : Bool} {pivot : List Candidate} {s t : CrsRef}
    {c : Candidate} (h : c ∈ (queryRegistry x inDatumPivot pivot s t).1) :
    c ∈ (findOpsDirect x s t).1 ∨
      ((x.r.kind s).isGeodetic = true ∧ (x.r.kind t).isGeodetic = true ∧ c ∈ pivot) ∨
      ∃ datumBased, c ∈ findOpsWithIntermediate x datumBased s t := by
  unfold queryRegistry at h
  extract_lets geod at h
  split at h
  rename_i direct nonEmptyBefore hdirect
  rw [hdirect]
  split at h
  · exact .inl h
  · extract_lets pivots res doFilter foundInstantiable nonEmpty through res' doFilter'
      onlyReplaced tooSmall further more more' res'' at h
    have hmore : c ∈ more' → ∃ datumBased, c ∈ findOpsWithIntermediate x datumBased s t := by
      intro hc
      have hmem : c ∈ more := by
        simp only [more'] at hc
        split at hc
        · exact (List.mem_filter.1 hc).1
        · exact hc
      simp only [more] at hmem
      split at hmem
      · exact ⟨true, hmem⟩
      · cases hmem
    have hres : c ∈ res → c ∈ direct ∨
        ((x.r.kind s).isGeodetic = true ∧ (x.r.kind t).isGeodetic = true ∧ c ∈ pivot) := by
      intro hc
      simp only [res] at hc
      split at hc
      · rename_i hpivots
        simp only [pivots, geod, Bool.and_eq_true] at hpivots
        exact .inr ⟨hpivots.1.1.1.1, hpivots.1.1.1.2, hc⟩
      · exact .inl hc
    rcases List.mem_append.1 h with h | h
    · simp only [res'] at h
      split at h
      · rcases List.mem_append.1 h with h | h
        · rcases hres h with h | h
          · exact .inl h
          · exact .inr (.inl h)
        · exact .inr (.inr ⟨false, h⟩)
      · rcases hres h with h | h
        · exact .inl h
        · exact .inr (.inl h)
    · exact .inr (.inr (hmore h))

theorem queryDatabase_routed {inDatumPivot : Bool} {pivot : List Candidate} {s t : CrsRef}
    (hpivot : (x.r.kind s).isGeodetic = true → (x.r.kind t).isGeodetic = true →
      ∀ c ∈ pivot, x.r.Routed s c.steps t)
    {c : Candidate} (h : c ∈ (queryDatabase x inDatumPivot pivot s t).1) :
    x.r.Routed s c.steps t := by
  unfold queryDatabase at h
  split at h
  rename_i found done hfound
  extract_lets identity res at h
  rcases List.mem_append.1 h with h | h
  · rcases List.mem_append.1 h with h | h
    · have hmem : c ∈ (queryRegistry x inDatumPivot pivot s t).1 := by
        rw [hfound]
        exact h
      rcases mem_queryRegistry hmem with hc | ⟨hs, ht, hc⟩ | ⟨datumBased, hc⟩
      · exact findOpsDirect_routed hc
      · exact hpivot hs ht c hc
      · exact findOpsWithIntermediate_routed hc
    · simp only [identity] at h
      split at h
      · obtain ⟨step, hstep, rfl⟩ := List.mem_map.1 h
        obtain ⟨rfl, rfl⟩ := ensembleMemberStep_spec (Option.mem_toList.1 hstep)
        exact step.routed
      · cases h
  · exact viaRealizations_routed (List.mem_filter.1 h).1

/-! ## The search, one call deeper -/

/-- What the search one call deeper finds between two geodetic or projected
CRSs leads from one to the other. -/
def Chains (x : Setting) (go : Bool → CrsRef → CrsRef → List Candidate) : Prop :=
  ∀ inDatumPivot s t, (x.r.kind s).isHorizontal = true → (x.r.kind t).isHorizontal = true →
    ∀ c ∈ go inDatumPivot s t, x.r.Routed s c.steps t

variable {go : Bool → CrsRef → CrsRef → List Candidate} (hgo : Chains x go)
include hgo

theorem derivedTo_routed {inDatumPivot : Bool} {s t : CrsRef}
    (ht : (x.r.kind t).isHorizontal = true) {c : Candidate}
    (h : c ∈ derivedTo x go inDatumPivot s t) : x.r.Routed s c.steps t := by
  unfold derivedTo at h
  split at h
  · rename_i code
    split at h
    · cases h
    · rename_i step hstep
      obtain ⟨base, hbase, hsrc, hdst⟩ := projection_spec hstep
      have hfirst := step.routed (r := x.r)
      rw [hsrc] at hfirst
      extract_lets first at h
      split at h
      · rename_i heq
        rw [List.mem_singleton.1 h]
        rw [heq] at hfirst
        exact hfirst
      · obtain ⟨second, hsecond, hc⟩ := List.mem_filterMap.1 h
        refine concatenate_routed hc ?_
        have hkind : (x.r.kind step.dst).isHorizontal = true := by
          rw [hdst]
          exact CrsKind.isHorizontal_of_isGeodetic (Registry.kind_base hbase)
        have hroute := hfirst.append (hgo inDatumPivot step.dst t hkind ht second hsecond)
        simpa [first, Candidate.single] using hroute
  · cases h

omit hgo in
theorem promoted_routed {c : Candidate} {a b : CrsRef} (h : x.r.Routed a c.steps b) :
    x.r.Routed a (c.promoted x).steps b :=
  Route.map x.r.linked_equivalence (fun s => Registry.linked_promoteTo3d s.src)
    (fun s => Registry.linked_promoteTo3d s.dst) h

omit hgo in
/-- Setting the CRSs of the parts leaves their steps. -/
theorem flatMap_between {s t : CrsRef} {parts : List Candidate} :
    (between s t parts).flatMap (·.steps) = parts.flatMap (·.steps) := by
  have hend : ∀ parts : List Candidate,
      (endAt t parts).flatMap (·.steps) = parts.flatMap (·.steps) := by
    intro parts
    induction parts with
    | nil => rfl
    | cons c rest ih =>
      cases rest with
      | nil => rfl
      | cons next rest =>
        rw [endAt, List.flatMap_cons, List.flatMap_cons, ih]
        intro hnil
        cases hnil
  cases parts with
  | nil => rfl
  | cons c rest =>
    rw [between, hend, List.flatMap_cons, List.flatMap_cons]
    rfl

omit hgo in
theorem kind_promotedIf {both3d : Bool} {c : CrsRef} (h : (x.r.kind c).isGeodetic = true) :
    (x.r.kind (promotedIf x both3d c)).isGeodetic = true := by
  cases both3d with
  | false => exact h
  | true => exact Registry.kind_promoteTo3d h

omit hgo in
theorem linked_promotedIf {both3d : Bool} {c : CrsRef} :
    x.r.Linked (promotedIf x both3d c) c := by
  cases both3d with
  | false => exact .inl rfl
  | true => exact Registry.linked_promoteTo3d c

omit hgo in
/-- An operation between CRSs on the two datums, with what leads to and from it. -/
theorem pivotCandidate_routed {s t candS candT : CrsRef} {first third second : Candidate}
    {both3d : Bool} (hs : x.r.Linked s candS) (ht : x.r.Linked candT t)
    (hfirst : x.r.Routed s first.steps (promotedIf x both3d candS))
    (hsecond : x.r.Routed candS second.steps candT)
    (hthird : x.r.Routed (promotedIf x both3d candT) third.steps t) {c : Candidate}
    (h : pivotCandidate x s t first third second both3d = some c) :
    x.r.Routed s c.steps t := by
  have hR := x.r.linked_equivalence
  unfold pivotCandidate at h
  extract_lets identified axisOrder at h
  split at h
  · cases h
  · rename_i second' parts hkept
    obtain ⟨joined, hjoined, rfl⟩ := Option.map_eq_some_iff.1 h
    show x.r.Routed s joined.steps t
    refine concatenate_routed hjoined ?_
    rw [flatMap_between]
    have hbefore : x.r.Routed s
        ((if isNullTransformation first.name then [] else [first]).flatMap (·.steps)) candS := by
      split
      · exact hs
      · rw [List.flatMap_singleton]
        exact Route.of_right hR hfirst linked_promotedIf
    have hmiddle : x.r.Routed candS second'.steps candT := by
      simp only [second']
      split
      · exact promoted_routed hsecond
      · exact hsecond
    have hafter : x.r.Routed candT
        ((if isNullTransformation third.name then [] else [third]).flatMap (·.steps)) t := by
      split
      · exact ht
      · rw [List.flatMap_singleton]
        exact Route.of_left hR (hR.symm linked_promotedIf) hthird
    simp only [parts, List.flatMap_append, List.flatMap_singleton]
    exact (hbefore.append hmiddle).append hafter

theorem pivotTransformations_routed {s t candS candT : CrsRef} {first : Candidate}
    {onlyDirect both3d : Bool} (hs : x.r.Linked s candS) (ht : x.r.Linked candT t)
    (hkindT : (x.r.kind t).isHorizontal = true) (hkindS : (x.r.kind candS).isGeodetic = true)
    (hkindC : (x.r.kind candT).isGeodetic = true)
    (hfirst : x.r.Routed s first.steps (promotedIf x both3d candS)) {c : Candidate}
    (h : c ∈ pivotTransformations x go s t candS candT first onlyDirect both3d) :
    x.r.Routed s c.steps t := by
  unfold pivotTransformations at h
  extract_lets seconds at h
  split at h
  · cases h
  · rename_i third rest hthirds
    obtain ⟨second, hsecond, hc⟩ := List.mem_filterMap.1 h
    have hmiddle : x.r.Routed candS second.steps candT := by
      simp only [seconds] at hsecond
      split at hsecond
      · exact findOpsDirect_routed hsecond
      · exact hgo true candS candT (CrsKind.isHorizontal_of_isGeodetic hkindS)
          (CrsKind.isHorizontal_of_isGeodetic hkindC) second hsecond
    have hthird : x.r.Routed (promotedIf x both3d candT) third.steps t :=
      hgo true _ t (CrsKind.isHorizontal_of_isGeodetic (kind_promotedIf hkindC)) hkindT third
        (by rw [hthirds]; exact List.mem_cons_self)
    exact pivotCandidate_routed hs ht hfirst hmiddle hthird hc

theorem withDatumPivot_routed {s t : CrsRef} (hs : (x.r.kind s).isGeodetic = true)
    (ht : (x.r.kind t).isGeodetic = true) {c : Candidate} (h : c ∈ withDatumPivot x go s t) :
    x.r.Routed s c.steps t := by
  unfold withDatumPivot at h
  split at h
  · rename_i ds dt hds hdt
    extract_lets candS candT both3d named skips through at h
    -- Whichever CRSs of the two datums a route goes through.
    have hthrough : ∀ iter, ∀ cs ∈ candS, ∀ ct ∈ candT, c ∈ through iter cs ct →
        x.r.Routed s c.steps t := by
      intro iter cs hcs ct hct hc
      obtain ⟨i, hi, rfl⟩ := List.mem_map.1 hcs
      obtain ⟨j, hj, rfl⟩ := List.mem_map.1 hct
      obtain ⟨hkindS, hdatumS⟩ := Registry.crsByDatum_spec hi
      obtain ⟨hkindT, hdatumT⟩ := Registry.crsByDatum_spec hj
      simp only [through] at hc
      split at hc
      · cases hc
      · rename_i first rest hfirsts
        have hfirst : x.r.Routed s first.steps (promotedIf x both3d (.epsg i)) :=
          hgo true s _ (CrsKind.isHorizontal_of_isGeodetic hs)
            (CrsKind.isHorizontal_of_isGeodetic (kind_promotedIf hkindS)) first
            (by rw [hfirsts]; exact List.mem_cons_self)
        exact pivotTransformations_routed hgo (Registry.linked_of_datum hs hds hkindS hdatumS)
          (Registry.linked_of_datum hkindT hdatumT ht hdt)
          (CrsKind.isHorizontal_of_isGeodetic ht) hkindS hkindT hfirst hc
    obtain ⟨iter, -, hiter⟩ := mem_firstNonEmpty h
    simp only [] at hiter
    split at hiter
    · obtain ⟨cs, hcs, hrest⟩ := mem_firstNonEmpty hiter
      obtain ⟨ct, hct, hc⟩ := mem_firstNonEmpty hrest
      exact hthrough iter cs hcs ct (List.mem_filter.1 hct).1 hc
    · obtain ⟨cs, hcs, hrest⟩ := mem_firstNonEmpty hiter
      obtain ⟨ct, hct, hc⟩ := mem_firstNonEmpty hrest
      exact hthrough iter cs (List.mem_filter.1 hcs).1 ct (List.mem_filter.1 hct).1 hc
  · cases h

/-- One call of the search, for the calls it makes. -/
theorem createOperationsInner_chains (heights : Bool → CrsRef → CrsRef → List Candidate) :
    Chains x (createOperationsInner x go heights) := by
  intro inDatumPivot s t hs ht c h
  have hvertical : ∀ {kind : CrsKind}, kind.isHorizontal = true → kind.isVertical = false := by
    intro kind hkind
    cases kind with
    | geographic2d | geographic3d | geocentric | projected => rfl
    | vertical | compound | engineering | other => cases hkind
  unfold createOperationsInner at h
  extract_lets ks kt baseS baseT queried at h
  split at h
  · rename_i hheights
    simp only [ks, kt, hvertical hs, hvertical ht] at hheights
    cases hheights
  · split at h
    rename_i found done hfound
    -- What the database has, when it is asked.
    have hdatabase : ∀ c ∈ found, x.r.Routed s c.steps t := by
      intro c hc
      split at hfound
      · have hmem : c ∈ (queryDatabase x inDatumPivot (withDatumPivot x go s t) s t).1 := by
          rw [hfound]
          exact hc
        exact queryDatabase_routed (fun hs ht c hc => withDatumPivot_routed hgo hs ht hc) hmem
      · cases hfound
        cases hc
    split at h
    · exact hdatabase c h
    · split at h
      · rcases List.mem_append.1 h with h | h
        · exact hdatabase c h
        · exact geodToGeod_routed h
      · split at h
        · rcases List.mem_append.1 h with h | h
          · exact hdatabase c h
          · exact derivedTo_routed hgo ht h
        · split at h
          · obtain ⟨reverse, hreverse, rfl⟩ := List.mem_map.1 h
            exact routed_inverse (hgo inDatumPivot t s ht hs reverse hreverse)
          · exact hdatabase c h

omit hgo in
/-- The search, by induction on the calls left. -/
theorem operations_chains
    (heights : (Bool → CrsRef → CrsRef → List Candidate) → Bool → CrsRef → CrsRef → List Candidate)
    (depth : Nat) : Chains x (operations x heights depth) := by
  induction depth with
  | zero =>
    intro inDatumPivot s t hs ht c h
    cases h
  | succ depth ih => exact createOperationsInner_chains ih _

end

end Xeibe.Reproject.Select.Search

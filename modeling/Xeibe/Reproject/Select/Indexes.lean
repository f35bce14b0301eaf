import Xeibe.Reproject.Select.Transform

/-!
# The indexes of a transform's operations

The index that a coordinate's operation has, against the list of operations,
their names, the explanation of the choice and the transform through one of
them.  Candidates are numbered before those whose area does not convert are
dropped, and all but the numbers count those that are left.
-/

namespace Xeibe.Reproject.Select

open Xeibe.Geom (F64)
open Xeibe.Lib

/-! ## The choice and its recorder -/

namespace Candidates

section Recorders

variable {ρ σ : Type} [Recorder ρ] [Recorder σ] (arithmetic : Arithmetic) (cs : Candidates)

theorem suggestStep_recorder (i : Nat) (alt : Prepared) (best : Option Best) (r : ρ) (s : σ) :
    (suggestStep i alt best r).1 = (suggestStep i alt best s).1 := by
  cases best with
  | none => rfl
  | some best => rfl

theorem suggestFrom_recorder (point : F64 × F64) (excluded : List Nat) (alts : List Prepared) :
    ∀ (i : Nat) (best : Option Best) (r : ρ) (s : σ),
      (cs.suggestFrom arithmetic point excluded i alts best r).1 =
        (cs.suggestFrom arithmetic point excluded i alts best s).1 := by
  induction alts with
  | nil =>
    intro i best r s
    rfl
  | cons alt alts ih =>
    intro i best r s
    unfold suggestFrom
    split
    · exact ih (i + 1) best r s
    · have hstep := suggestStep_recorder i alt best r s
      simp only [hstep]
      exact ih (i + 1) _ _ _

theorem suggest_recorder (point : F64 × F64) (excluded : List Nat) (r : ρ) (s : σ) :
    (cs.suggest arithmetic point excluded r).1 = (cs.suggest arithmetic point excluded s).1 := by
  have h := cs.suggestFrom_recorder arithmetic point excluded cs.list 0 none r s
  show Option.map _ _ = Option.map _ _
  rw [h]

theorem fallBack_recorder (src dst : Crs) (internal : Triple) (e : CoordinateError) (r : ρ)
    (s : σ) :
    (cs.fallBack arithmetic src dst internal e r).1 =
      (cs.fallBack arithmetic src dst internal e s).1 := by
  unfold fallBack
  cases cs.list.zipIdx.find? fun p => !p.1.hasGrids with
  | none => rfl
  | some p => rfl

theorem rounds_recorder (src dst : Crs) (internal : Triple) (point : F64 × F64) (left : Nat) :
    ∀ (excluded : List Nat) (e : CoordinateError) (r : ρ) (s : σ),
      (cs.rounds arithmetic src dst internal point left excluded e r).1 =
        (cs.rounds arithmetic src dst internal point left excluded e s).1 := by
  induction left with
  | zero =>
    intro excluded e r s
    exact cs.fallBack_recorder arithmetic src dst internal e r s
  | succ left ih =>
    intro excluded e r s
    have hsuggest := cs.suggest_recorder arithmetic point excluded (Recorder.round r)
      (Recorder.round s)
    unfold rounds
    cases hr : cs.suggest arithmetic point excluded (Recorder.round r) with
    | mk best told =>
      cases hs : cs.suggest arithmetic point excluded (Recorder.round s) with
      | mk best' told' =>
        rw [hr, hs] at hsuggest
        simp only at hsuggest
        subst hsuggest
        simp only [hr, hs]
        cases best with
        | none => exact cs.fallBack_recorder arithmetic src dst internal e told told'
        | some best =>
          simp only
          cases hrun : Select.run arithmetic best.2.steps src dst internal with
          | ok out => rfl
          | error err =>
            simp only
            split
            · rfl
            · exact ih _ _ _ _

theorem choose_recorder (src dst : Crs) (internal : Triple) (r : ρ) (s : σ) :
    (cs.choose arithmetic src dst internal r).1 = (cs.choose arithmetic src dst internal s).1 := by
  unfold choose
  split
  · rfl
  · cases cs.choicePoint arithmetic src internal with
    | error e => rfl
    | ok point => exact cs.rounds_recorder arithmetic src dst internal point 3 _ _ _ _

end Recorders

/-! ## What the choice answers with -/

section Answers

variable (arithmetic : Arithmetic) (cs : Candidates)

/-- A prepared candidate and its place. -/
def At (i : Nat) (p : Prepared) : Prop := cs.list[i]? = some p

theorem suggestFrom_at {ρ : Type} [Recorder ρ] (point : F64 × F64) (excluded : List Nat)
    (alts : List Prepared) :
    ∀ (i : Nat) (best : Option Best) (r : ρ), (∀ k p, alts[k]? = some p → cs.At (i + k) p) →
      (∀ b, best = some b → cs.At b.place b.alt) →
      ∀ b, (cs.suggestFrom arithmetic point excluded i alts best r).1 = some b →
        cs.At b.place b.alt := by
  induction alts with
  | nil =>
    intro i best r _ hbest b hb
    exact hbest b hb
  | cons alt alts ih =>
    intro i best r halts hbest b hb
    have hrest : ∀ k p, alts[k]? = some p → cs.At (i + 1 + k) p := by
      intro k p hk
      have := halts (k + 1) p (by simpa using hk)
      rwa [show i + (k + 1) = i + 1 + k by omega] at this
    unfold suggestFrom at hb
    split at hb
    · exact ih (i + 1) best r hrest hbest b hb
    · refine ih (i + 1) _ _ hrest ?_ b hb
      intro c hc
      have halt : cs.At i alt := by simpa using halts 0 alt (by simp)
      cases best with
      | none =>
        simp only [Option.some.injEq] at hc
        subst hc
        exact halt
      | some best =>
        simp only at hc
        split at hc
        · simp only [Option.some.injEq] at hc
          subst hc
          exact halt
        · exact hbest c hc

theorem suggest_at {ρ : Type} [Recorder ρ] {point : F64 × F64} {excluded : List Nat} {r told : ρ}
    {i : Nat} {p : Prepared}
    (h : cs.suggest arithmetic point excluded r = (some (i, p), told)) : cs.At i p := by
  have hfst : (cs.suggest arithmetic point excluded r).1 = some (i, p) := by rw [h]
  simp only [suggest, Option.map_eq_some_iff] at hfst
  obtain ⟨b, hb, hip⟩ := hfst
  have hat := cs.suggestFrom_at arithmetic point excluded cs.list 0 none r
    (fun k p hk => by simpa [At] using hk) (by simp) b hb
  cases hip
  exact hat

/-- The candidate at a place converts to what the choice answers with. -/
def Answers (src dst : Crs) (internal : Triple)
    (result : Except CoordinateError (Triple × Nat)) : Prop :=
  ∀ out i, result = .ok (out, i) →
    ∃ p, cs.At i p ∧ Select.run arithmetic p.steps src dst internal = .ok out

theorem answers_of_run {src dst : Crs} {internal : Triple} {i : Nat} {p : Prepared}
    (hp : cs.At i p) :
    cs.Answers arithmetic src dst internal
      ((Select.run arithmetic p.steps src dst internal).map fun out => (out, i)) := by
  intro out j h
  cases hrun : Select.run arithmetic p.steps src dst internal with
  | error e => simp [hrun, Except.map] at h
  | ok value =>
    simp only [hrun, Except.map, Except.ok.injEq, Prod.mk.injEq] at h
    obtain ⟨rfl, rfl⟩ := h
    exact ⟨p, hp, hrun⟩

theorem answers_error {src dst : Crs} {internal : Triple} {e : CoordinateError} :
    cs.Answers arithmetic src dst internal (.error e) := by
  intro out i h
  cases h

theorem fallBack_answers {ρ : Type} [Recorder ρ] (src dst : Crs) (internal : Triple)
    (e : CoordinateError) (r : ρ) :
    cs.Answers arithmetic src dst internal (cs.fallBack arithmetic src dst internal e r).1 := by
  unfold fallBack
  cases hfind : cs.list.zipIdx.find? fun p => !p.1.hasGrids with
  | none => exact cs.answers_error arithmetic
  | some p =>
    have hmem := List.mem_zipIdx_iff_getElem?.1 (List.mem_of_find?_eq_some hfind)
    exact cs.answers_of_run arithmetic hmem

theorem rounds_answers {ρ : Type} [Recorder ρ] (src dst : Crs) (internal : Triple)
    (point : F64 × F64) (left : Nat) :
    ∀ (excluded : List Nat) (e : CoordinateError) (r : ρ),
      cs.Answers arithmetic src dst internal
        (cs.rounds arithmetic src dst internal point left excluded e r).1 := by
  induction left with
  | zero =>
    intro excluded e r
    exact cs.fallBack_answers arithmetic src dst internal e r
  | succ left ih =>
    intro excluded e r
    unfold rounds
    cases hsuggest : cs.suggest arithmetic point excluded (Recorder.round r) with
    | mk best told =>
      simp only [hsuggest]
      cases best with
      | none => exact cs.fallBack_answers arithmetic src dst internal e told
      | some best =>
        have hat := cs.suggest_at arithmetic hsuggest
        have hrun : cs.Answers arithmetic src dst internal _ := cs.answers_of_run arithmetic hat
        simp only
        cases hresult : Select.run arithmetic best.2.steps src dst internal with
        | ok out =>
          rw [hresult] at hrun
          exact hrun
        | error err =>
          simp only
          split
          · exact cs.answers_error arithmetic
          · exact ih _ _ _

theorem choose_answers {ρ : Type} [Recorder ρ] (src dst : Crs) (internal : Triple) (r : ρ) :
    cs.Answers arithmetic src dst internal (cs.choose arithmetic src dst internal r).1 := by
  unfold choose
  split
  · have hfirst : cs.At 0 (cs.list.head cs.list_ne) := by
      unfold At
      rw [← List.head?_eq_getElem?, List.head?_eq_some_head cs.list_ne]
    exact cs.answers_of_run arithmetic hfirst
  · cases cs.choicePoint arithmetic src internal with
    | error e => exact cs.answers_error arithmetic
    | ok point => exact cs.rounds_answers arithmetic src dst internal point 3 _ _ _

/-- A coordinate that has an index goes through a candidate with that index,
and comes out as that candidate converts it. -/
theorem run_of_usedIndex {src dst : Crs} {internal : Triple} {i : Nat}
    (h : cs.usedIndex arithmetic src dst internal = some i) :
    ∃ p ∈ cs.list, p.index = i ∧ cs.used arithmetic src dst internal = some p.name ∧
      cs.run arithmetic src dst internal = Select.run arithmetic p.steps src dst internal ∧
      ∃ out place, cs.runWith arithmetic src dst internal = .ok (out, place) ∧
        cs.At place p := by
  have hanswers := cs.choose_answers arithmetic src dst internal ()
  unfold usedIndex usedPrepared at h
  unfold used usedPrepared run
  cases hrun : cs.runWith arithmetic src dst internal with
  | error e => simp [hrun] at h
  | ok result =>
    obtain ⟨out, place⟩ := result
    obtain ⟨p, hp, hsteps⟩ := hanswers out place hrun
    have hp' : cs.list[place]? = some p := hp
    simp only [hrun, hp', Option.map_some, Option.some.injEq] at h
    refine ⟨p, List.mem_of_getElem? hp', h, ?_, ?_, out, place, rfl, hp⟩
    · simp [hp']
    · rw [hsteps]
      rfl

end Answers

/-! ## The explanation -/

theorem length_explainOne (cs : Candidates) (told : Explain) (used : Option Nat)
    (candidates : List (Option Explained)) (p : Prepared) (i : Nat) :
    (cs.explainOne told used candidates p i).length = candidates.length := by
  simp [explainOne]

theorem length_explain (arithmetic : Arithmetic) (cs : Candidates) (src dst : Crs)
    (internal : Triple) :
    (cs.explain arithmetic src dst internal).candidates.length =
      (cs.list.getLast cs.list_ne).index + 1 := by
  have hfold : ∀ (told : Explain) (used : Option Nat) (ps : List (Prepared × Nat))
      (candidates : List (Option Explained)),
      (ps.foldl (fun candidates p => cs.explainOne told used candidates p.1 p.2)
        candidates).length = candidates.length := by
    intro told used ps
    induction ps with
    | nil =>
      intro candidates
      rfl
    | cons p ps ih =>
      intro candidates
      rw [List.foldl_cons, ih, length_explainOne]
  simp only [explain, List.length_map, hfold, List.length_replicate]

theorem used_explain (arithmetic : Arithmetic) (cs : Candidates) (src dst : Crs)
    (internal : Triple) :
    (cs.explain arithmetic src dst internal).used = cs.usedIndex arithmetic src dst internal := by
  have hsame := cs.choose_recorder arithmetic src dst internal (Explain.new cs.list.length) ()
  unfold usedIndex usedPrepared runWith
  rw [← hsame]
  simp only [explain]
  cases (cs.choose arithmetic src dst internal (Explain.new cs.list.length)).1 with
  | error e => rfl
  | ok result => rfl

/-! ## Candidates as they are prepared -/

section Prepared

variable (backend : Backend)

/-- The prepared candidates between two CRSs: numbered as they come, each set
up from its operation, and one operation to a number. -/
structure WellMade (src dst : Crs) (cs : Candidates) : Prop where
  ascending : Runs.Ascending Prepared.index cs.list
  steps : ∀ p ∈ cs.list, backend.executable p.candidate src dst = .ok p.steps
  name : ∀ p ∈ cs.list, p.name = p.candidate.name
  info : ∀ p ∈ cs.list, p.info = OperationInfo.of backend p.candidate p.steps
  numbered : ∀ p ∈ cs.list, ∀ q ∈ cs.list, p.index = q.index → p.candidate = q.candidate

/-- No candidate is missing that was numbered before another one. -/
def Gapless (cs : Candidates) : Prop := Runs.Gapless Prepared.index cs.list

theorem mem_usableCandidates {src dst : Crs} {sorted : List Candidate} {c : Candidate}
    {steps : List Exec} (h : (c, steps) ∈ usableCandidates backend src dst sorted) :
    backend.executable c src dst = .ok steps := by
  obtain ⟨c', _, hc'⟩ := List.mem_filterMap.1 h
  split at hc'
  · split at hc'
    · rename_i hsteps
      simp only [Option.some.injEq, Prod.mk.injEq] at hc'
      obtain ⟨rfl, rfl⟩ := hc'
      exact hsteps
    · cases hc'
  · cases hc'

theorem mem_prepareAll {src : Crs} {usable : List (Candidate × List Exec)} {p : Prepared} :
    p ∈ prepareAll backend src usable ↔
      ∃ c steps i side, usable[i]? = some (c, steps) ∧ side ∈ usableSides backend src c ∧
        p = prepareSide backend src i c steps side := by
  unfold prepareAll
  constructor
  · intro hp
    obtain ⟨⟨⟨c, steps⟩, i⟩, hi, hp⟩ := List.mem_flatMap.1 hp
    obtain ⟨side, hside, rfl⟩ := List.mem_map.1 hp
    exact ⟨c, steps, i, side, List.mem_zipIdx_iff_getElem?.1 hi, hside, rfl⟩
  · rintro ⟨c, steps, i, side, hi, hside, rfl⟩
    refine List.mem_flatMap.2 ⟨((c, steps), i), List.mem_zipIdx_iff_getElem?.2 hi, ?_⟩
    exact List.mem_map.2 ⟨side, hside, rfl⟩

theorem ascending_prepareAll (src : Crs) (usable : List (Candidate × List Exec)) :
    Runs.Ascending Prepared.index (prepareAll backend src usable) := by
  have hfrom : ∀ (k : Nat), Runs.Ascending Prepared.index
      ((usable.zipIdx k).flatMap fun u =>
        (usableSides backend src u.1.1).map (prepareSide backend src u.2 u.1.1 u.1.2)) ∧
      ∀ p ∈ (usable.zipIdx k).flatMap fun u =>
        (usableSides backend src u.1.1).map (prepareSide backend src u.2 u.1.1 u.1.2),
        k ≤ p.index := by
    induction usable with
    | nil =>
      intro k
      simp [Runs.Ascending]
    | cons u usable ih =>
      intro k
      have hrest := ih (k + 1)
      have hhere : ∀ p ∈ (usableSides backend src u.1).map (prepareSide backend src k u.1 u.2),
          p.index = k := by
        intro p hp
        obtain ⟨side, _, rfl⟩ := List.mem_map.1 hp
        rfl
      simp only [List.zipIdx_cons, List.flatMap_cons]
      constructor
      · refine List.pairwise_append.2 ⟨?_, hrest.1, ?_⟩
        · refine List.pairwise_iff_forall_sublist.2 fun {a b} hab => ?_
          have ha := hhere a (hab.subset (by simp))
          have hb := hhere b (hab.subset (by simp))
          omega
        · intro p hp q hq
          have hpk := hhere p hp
          have hqk := hrest.2 q hq
          omega
      · intro p hp
        rcases List.mem_append.1 hp with hp | hp
        · have := hhere p hp
          omega
        · have := hrest.2 p hp
          omega
  exact (hfrom 0).1

/-- One candidate for every coordinate, as the only one. -/
theorem wellMade_of_forAll {src dst : Crs} {c : Candidate} {steps : List Exec} {cs : Candidates}
    (hsteps : backend.executable c src dst = .ok steps)
    (hlist : cs.list = [Prepared.forAll backend c steps]) :
    cs.WellMade backend src dst ∧ cs.Gapless := by
  have hmem : ∀ p ∈ cs.list, p = Prepared.forAll backend c steps := by
    intro p hp
    rwa [hlist, List.mem_singleton] at hp
  constructor
  · constructor
    · rw [hlist]
      exact List.pairwise_singleton _ _
    all_goals intro p hp
    · rw [hmem p hp]
      exact hsteps
    · rw [hmem p hp]
      rfl
    · rw [hmem p hp]
      rfl
    · intro q hq _
      rw [hmem p hp, hmem q hq]
  · intro p hp k hk
    rw [hmem p hp] at hk
    exact absurd hk (Nat.not_lt_zero k)

theorem one_spec {src dst : Crs} {c : Candidate} {cs : Candidates}
    (h : one backend c src dst = .ok cs) :
    ∃ steps, backend.executable c src dst = .ok steps ∧
      cs.list = [Prepared.forAll backend c steps] ∧ cs.single = true := by
  unfold one at h
  cases hsteps : backend.executable c src dst with
  | error e => simp [hsteps, bind, Except.bind] at h
  | ok steps =>
    simp only [hsteps, bind, Except.bind, Except.ok.injEq] at h
    subst h
    exact ⟨steps, rfl, rfl, rfl⟩

/-- The candidates of a search: those prepared, or the only operation there
is. -/
theorem new_cases {src dst : Crs} {sorted : List Candidate} {cs : Candidates}
    (h : new backend src dst sorted = .ok cs) :
    cs.list = prepareAll backend src (usableCandidates backend src dst sorted) ∨
      prepareAll backend src (usableCandidates backend src dst sorted) = [] ∧
        ∃ c steps, usableCandidates backend src dst sorted = [(c, steps)] ∧
          cs.list = [Prepared.forAll backend c steps] := by
  unfold new at h
  simp only at h
  split at h
  · rename_i c steps hprepared husable
    cases h
    exact Or.inr ⟨hprepared, c, steps, husable, rfl⟩
  · split at h
    · cases h
    · cases h
      exact Or.inl rfl

theorem new_wellMade {src dst : Crs} {sorted : List Candidate} {cs : Candidates}
    (h : new backend src dst sorted = .ok cs) : cs.WellMade backend src dst := by
  rcases new_cases backend h with hlist | ⟨_, c, steps, husable, hlist⟩
  · constructor
    · rw [hlist]
      exact ascending_prepareAll backend src _
    all_goals rw [hlist]
    · intro p hp
      obtain ⟨c, steps, i, side, hi, _, rfl⟩ := (mem_prepareAll backend).1 hp
      exact mem_usableCandidates backend (List.mem_of_getElem? hi)
    · intro p hp
      obtain ⟨c, steps, i, side, _, _, rfl⟩ := (mem_prepareAll backend).1 hp
      rfl
    · intro p hp
      obtain ⟨c, steps, i, side, _, _, rfl⟩ := (mem_prepareAll backend).1 hp
      rfl
    · intro p hp q hq hpq
      obtain ⟨c, steps, i, side, hi, _, rfl⟩ := (mem_prepareAll backend).1 hp
      obtain ⟨c', steps', j, side', hj, _, rfl⟩ := (mem_prepareAll backend).1 hq
      have hij : i = j := hpq
      subst hij
      rw [hi] at hj
      cases hj
      rfl
  · have hmem : (c, steps) ∈ usableCandidates backend src dst sorted := by
      rw [husable]
      simp
    have hsteps := mem_usableCandidates backend hmem
    exact (wellMade_of_forAll backend hsteps hlist).1

theorem one_wellMade {src dst : Crs} {c : Candidate} {cs : Candidates}
    (h : one backend c src dst = .ok cs) : cs.WellMade backend src dst ∧ cs.Gapless := by
  obtain ⟨steps, hsteps, hlist, _⟩ := one_spec backend h
  exact wellMade_of_forAll backend hsteps hlist

/-- The candidates of a search leave no number out exactly when none whose area
does not convert into the source CRS comes before one whose area does. -/
theorem new_gapless_iff {src dst : Crs} {sorted : List Candidate} {cs : Candidates}
    (h : new backend src dst sorted = .ok cs) :
    cs.Gapless ↔ (usableCandidates backend src dst sorted).Pairwise fun a b =>
      usableSides backend src b.1 ≠ [] → usableSides backend src a.1 ≠ [] := by
  rcases new_cases backend h with hlist | ⟨_, c, steps, husable, hlist⟩
  · unfold Gapless
    rw [hlist, List.pairwise_iff_getElem]
    constructor
    · intro hgap i j hi hj hij hside
      obtain ⟨side, hmem⟩ := List.exists_mem_of_ne_nil _ hside
      have hb := (mem_prepareAll backend).2 ⟨_, _, j, side, List.getElem?_eq_getElem hj, hmem, rfl⟩
      obtain ⟨p, hp, hpi⟩ := hgap _ hb i hij
      obtain ⟨c, steps, k, side', hk, hside', rfl⟩ := (mem_prepareAll backend).1 hp
      have hki : k = i := hpi
      subst hki
      rw [List.getElem?_eq_getElem hi] at hk
      simp only [Option.some.injEq] at hk
      rw [hk]
      exact List.ne_nil_of_mem hside'
    · intro hpairs p hp k hk
      obtain ⟨c, steps, j, side, hj, hside, rfl⟩ := (mem_prepareAll backend).1 hp
      obtain ⟨hjl, hjc⟩ := List.getElem?_eq_some_iff.1 hj
      have hkj : k < j := hk
      have hne := hpairs k j (by omega) hjl hkj (by rw [hjc]; exact List.ne_nil_of_mem hside)
      obtain ⟨side', hside'⟩ := List.exists_mem_of_ne_nil _ hne
      exact ⟨_, (mem_prepareAll backend).2
        ⟨_, _, k, side', List.getElem?_eq_getElem (by omega), hside', rfl⟩, rfl⟩
  · rw [husable]
    simp only [List.pairwise_cons, List.not_mem_nil, false_implies, implies_true,
      List.Pairwise.nil, and_self, iff_true]
    have hmem : (c, steps) ∈ usableCandidates backend src dst sorted := by
      rw [husable]
      simp
    have hsteps := mem_usableCandidates backend hmem
    exact (wellMade_of_forAll backend hsteps hlist).2

/-! ## What the numbers count -/

theorem info_of_gapless {src dst : Crs} {cs : Candidates} (hcs : cs.WellMade backend src dst)
    (hgap : cs.Gapless) {p : Prepared} (hp : p ∈ cs.list) :
    cs.info[p.index]?.map (·.name) = some p.name := by
  obtain ⟨q, hq, hqp, hget⟩ := Runs.getElem?_heads hcs.ascending hgap hp
  have hname : q.info.name = p.name := by
    rw [hcs.info q hq, hcs.name p hp, ← hcs.numbered q hq p hp hqp]
    rfl
  simp only [info, List.getElem?_map, hget, Option.map_some, hname]

theorem length_info_iff {src dst : Crs} {cs : Candidates} (hcs : cs.WellMade backend src dst) :
    (cs.list.getLast cs.list_ne).index + 1 = cs.info.length ↔ cs.Gapless := by
  have hlast := List.getLast?_eq_some_getLast cs.list_ne
  rw [Gapless, ← Runs.length_heads_iff hcs.ascending hlast, info, List.length_map]
  exact eq_comm

theorem length_info_le (cs : Candidates) : cs.info.length ≤ cs.list.length := by
  have hle : ∀ (last : Option Nat) (ps : List Prepared),
      (Runs.heads Prepared.index last ps).length ≤ ps.length := by
    intro last ps
    induction ps generalizing last with
    | nil => simp [Runs.heads]
    | cons p ps ih =>
      unfold Runs.heads
      split
      · exact Nat.le_succ_of_le (ih last)
      · exact Nat.succ_le_succ (ih _)
  rw [info, List.length_map]
  exact hle none cs.list

theorem run_of_forAll {cs : Candidates} {c : Candidate} {steps : List Exec}
    (hlist : cs.list = [Prepared.forAll backend c steps]) (hsingle : cs.single = true)
    (arithmetic : Arithmetic) (src dst : Crs) (internal : Triple) :
    cs.run arithmetic src dst internal = Select.run arithmetic steps src dst internal := by
  have hhead : cs.list.head cs.list_ne = Prepared.forAll backend c steps := by
    simp only [hlist, List.head_cons]
  unfold run runWith choose
  rw [if_pos hsingle]
  simp only [hhead]
  show Except.map _ (Except.map _ (Select.run arithmetic steps src dst internal)) = _
  cases Select.run arithmetic steps src dst internal with
  | error e => rfl
  | ok out => rfl

/-- A candidate that is there can be forced, and then every coordinate goes
through its steps. -/
theorem only_of_mem {src dst : Crs} {cs : Candidates} (hcs : cs.WellMade backend src dst)
    {p : Prepared} (hp : p ∈ cs.list) :
    ∃ only, cs.only backend p.index src dst = some (.ok only) ∧
      ∀ arithmetic internal,
        only.run arithmetic src dst internal = Select.run arithmetic p.steps src dst internal := by
  cases hfind : cs.list.find? fun q => q.index == p.index with
  | none =>
    have := List.find?_eq_none.1 hfind p hp
    simp at this
  | some q =>
    have hq := List.mem_of_find?_eq_some hfind
    have hqp : q.index = p.index := by
      have := List.find?_some hfind
      simpa using this
    have hsteps : backend.executable q.candidate src dst = .ok p.steps := by
      rw [hcs.numbered q hq p hp hqp]
      exact hcs.steps p hp
    refine ⟨{
      list := [Prepared.forAll backend q.candidate p.steps]
      list_ne := by simp
      srcGeographic := src.isGeographic
      srcGeocentric := src.isGeocentric
      single := true }, ?_, fun arithmetic internal => ?_⟩
    · show (cs.list.find? fun q => q.index == p.index).bind _ = _
      rw [hfind]
      show some (one backend q.candidate src dst) = _
      unfold one
      rw [hsteps]
      rfl
    · exact run_of_forAll backend rfl rfl arithmetic src dst internal

end Prepared

end Candidates

/-! ## Transforms as they are made -/

theorem ok_of_bind {ε α β : Type} {x : Except ε α} {f : α → Except ε β} {b : β}
    (h : x >>= f = .ok b) : ∃ a, x = .ok a ∧ f a = .ok b := by
  cases x with
  | error e => cases h
  | ok a => exact ⟨a, rfl, h⟩

mutual

/-- A plan as it is made between two CRSs: its candidates are, and the names
through a hub are as many as the operations from there on. -/
def Plan.WellMade (backend : Backend) (src dst : Crs) : Plan → Prop
  | .conversion => True
  | .operations candidates => candidates.WellMade backend src dst
  | .via _ candidates => candidates.WellMade backend src dst
  | .only candidates => candidates.WellMade backend src dst
  | .bound _ middle _ names =>
    middle.WellMade backend ∧ names.length = max 1 middle.operations.length

def Transform.WellMade (backend : Backend) : Transform → Prop
  | ⟨src, dst, _, _, _, plan⟩ => plan.WellMade backend src dst

end

namespace Transform

variable {backend : Backend}

/-- The special case goes through a conversion, under one name. -/
theorem nad27ToNad83_cases {src dst : Crs} {plan : Plan}
    (h : nad27ToNad83 backend src dst = .ok (some plan)) :
    ∃ first source target last name, plan =
      .bound first ⟨source, target, .eastFirst, .none, .unlimited, .conversion⟩ last [name] := by
  unfold nad27ToNad83 at h
  split at h
  · cases h
  · simp only at h
    split at h
    · split at h
      · cases h
      · obtain ⟨leg, _, h⟩ := ok_of_bind h
        split at h
        · cases h
          exact ⟨_, _, _, _, _, rfl⟩
        · cases h
          exact ⟨_, _, _, _, _, rfl⟩
    · cases h

theorem unboundPlan_wellMade {src dst : Crs} {grids : Grids} {selection : Selection} {plan : Plan}
    (h : unboundPlan backend src dst grids selection = .ok plan) :
    plan.WellMade backend src dst := by
  unfold unboundPlan at h
  split at h
  · cases h
    trivial
  · split at h
    · split at h
      · rename_i hnew
        cases h
        exact Candidates.new_wellMade backend hnew
      · cases h
      · cases h
    · cases h

theorem withSelection_wellMade (n : Nat) :
    ∀ {src dst : Crs} {order : AxisOrder} {grids : Grids} {selection : Selection} {t : Transform},
      sizeOf src + sizeOf dst ≤ n →
      withSelection backend src dst order grids selection = .ok t → t.WellMade backend := by
  induction n with
  | zero =>
    intro src dst order grids selection t hn
    cases src
    simp at hn
  | succ n ih =>
    intro src dst order grids selection t hn h
    rw [withSelection] at h
    split at h
    · rename_i hbound
      obtain ⟨plan, hplan, h⟩ := ok_of_bind h
      cases h
      show plan.WellMade backend src dst
      split at hplan
      · cases hplan
        trivial
      · obtain ⟨special, hspecial, hplan⟩ := ok_of_bind hplan
        cases special with
        | some special =>
          cases hplan
          obtain ⟨first, source, target, last, name, rfl⟩ := nad27ToNad83_cases hspecial
          exact ⟨trivial, rfl⟩
        | none =>
          obtain ⟨first, _, hplan⟩ := ok_of_bind hplan
          obtain ⟨last, _, hplan⟩ := ok_of_bind hplan
          obtain ⟨middle, hmiddle, hplan⟩ := ok_of_bind hplan
          cases hplan
          have hsmaller : sizeOf (hubOf src) + sizeOf (hubOf dst) ≤ n := by
            have hsrc := sizeOf_hubOf src
            have hdst := sizeOf_hubOf dst
            rcases hbound with hb | hb
            · have := hsrc.2 hb
              omega
            · have := hdst.2 hb
              omega
          refine ⟨ih hsmaller hmiddle, ?_⟩
          split
          · rename_i hempty
            have : middle.operations = [] := by simpa using hempty
            simp [this]
          · rename_i hempty
            have : middle.operations ≠ [] := by simpa using hempty
            have := List.length_pos_iff.2 this
            simp only [List.length_map]
            omega
    · obtain ⟨_, _, h⟩ := ok_of_bind h
      obtain ⟨plan, hplan, h⟩ := ok_of_bind h
      cases h
      exact unboundPlan_wellMade hplan

theorem via_wellMade {src dst : Crs} {operation : Nat} {order : AxisOrder} {t : Transform}
    (h : via backend src dst operation order = .ok t) : t.WellMade backend := by
  unfold via at h
  obtain ⟨_, _, h⟩ := ok_of_bind h
  split at h
  · obtain ⟨c, _, h⟩ := ok_of_bind h
    obtain ⟨candidates, hcandidates, h⟩ := ok_of_bind h
    cases h
    exact (Candidates.one_wellMade backend hcandidates).1
  · cases h

/-- Through one operation: as well made, with one operation. -/
theorem withOperationIndex_wellMade :
    ∀ {t only : Transform} {index : Nat}, t.WellMade backend →
      t.withOperationIndex backend index = some (.ok only) →
      only.WellMade backend ∧ only.operations.length = 1
  | ⟨src, dst, order, grids, selection, plan⟩, only, index, ht, h => by
    have hcandidates : ∀ candidates : Candidates,
        (candidates.only backend index src dst).map (fun only => only.map Plan.only) =
          Plan.withOperationIndex backend src dst plan index →
        only.WellMade backend ∧ only.operations.length = 1 := by
      intro candidates hplan
      simp only [withOperationIndex, ← hplan, Option.map_map, Option.map_eq_some_iff] at h
      obtain ⟨result, hresult, h⟩ := h
      obtain ⟨p, _, hp⟩ := Option.bind_eq_some_iff.1 hresult
      simp only [Option.some.injEq] at hp
      cases hone : Candidates.one backend p.candidate src dst with
      | error e =>
        rw [hone] at hp
        subst hp
        cases h
      | ok cs =>
        rw [hone] at hp
        subst hp
        cases h
        obtain ⟨steps, _, hlist, _⟩ := Candidates.one_spec backend hone
        refine ⟨(Candidates.one_wellMade backend hone).1, ?_⟩
        simp [operations, Candidates.names, hlist]
    cases plan with
    | conversion => cases h
    | operations candidates => exact hcandidates candidates rfl
    | via code candidates => exact hcandidates candidates rfl
    | only candidates => exact hcandidates candidates rfl
    | bound first middle last names =>
      simp only [withOperationIndex, Plan.withOperationIndex] at h
      cases hmiddle : middle.withOperationIndex backend index with
      | none => simp [hmiddle] at h
      | some result =>
        cases result with
        | error e => simp [hmiddle, Except.map] at h
        | ok middle' =>
          have ih := withOperationIndex_wellMade ht.1 hmiddle
          cases hname : names[index]? with
          | none => simp [hmiddle, hname] at h
          | some name =>
            simp only [hmiddle, hname, Option.bind_eq_bind, Option.bind_some, Option.map_some,
              Except.map, Option.some.injEq, Except.ok.injEq] at h
            subst h
            refine ⟨⟨ih.1, ?_⟩, rfl⟩
            rw [ih.2]
            rfl

theorem inverse_wellMade {t other : Transform} (h : t.inverse backend = .ok other) :
    other.WellMade backend := by
  unfold inverse at h
  split at h
  · cases h
    trivial
  · exact withSelection_wellMade _ (le_refl _) h
  · exact withSelection_wellMade _ (le_refl _) h
  · exact via_wellMade h
  · obtain ⟨candidates, hcandidates, h⟩ := ok_of_bind h
    cases h
    exact (Candidates.one_wellMade backend hcandidates).1

theorem Reachable.wellMade {t : Transform} (ht : Reachable backend t) : t.WellMade backend := by
  induction ht with
  | withSelection h => exact withSelection_wellMade _ (le_refl _) h
  | via h => exact via_wellMade h
  | withOperationIndex _ h ih => exact (withOperationIndex_wellMade ih h).1
  | inverse _ h _ => exact inverse_wellMade h

/-! ## Where the choice is made -/

/-- What a transform answers about internal coordinates that go through its
operation `i`: the answers of the candidates between its datums, at the hub for
a Bound CRS. -/
structure GoesThrough (backend : Backend) (t : Transform) (internal : Triple) (i : Nat)
    (cs : Candidates) (src dst : Crs) (place : Triple) : Prop where
  candidates : t.candidates = some cs
  wellMade : cs.WellMade backend src dst
  index : cs.usedIndex backend.arithmetic src dst place = some i
  explained : t.explainInternal backend.arithmetic internal =
    some (cs.explain backend.arithmetic src dst place)
  listed : t.operations.length = cs.list.length
  plan : t.plan.isConversion = false
  forced : i < t.operations.length → ∃ only,
    t.withOperationIndex backend i = some (.ok only) ∧
      only.run backend.arithmetic internal = t.run backend.arithmetic internal ∧
      only.src = t.src ∧ only.dst = t.dst ∧ only.order = t.order ∧
      only.plan.isConversion = false

/-- A transform that chooses among candidates itself. -/
theorem goesThrough_of_candidates {src dst : Crs} {order : AxisOrder} {grids : Grids}
    {selection : Selection} {plan : Plan} {cs : Candidates} {internal : Triple} {i : Nat}
    (hcs : cs.WellMade backend src dst)
    (hplan : plan = .operations cs ∨ (∃ code, plan = .via code cs) ∨ plan = .only cs)
    (hindex : cs.usedIndex backend.arithmetic src dst internal = some i) :
    GoesThrough backend ⟨src, dst, order, grids, selection, plan⟩ internal i cs src dst
      internal := by
  obtain ⟨p, hp, rfl, _, hrun, _⟩ := cs.run_of_usedIndex backend.arithmetic hindex
  obtain ⟨only, honly, hsteps⟩ := Candidates.only_of_mem backend hcs hp
  have hrun' : only.run backend.arithmetic src dst internal =
      cs.run backend.arithmetic src dst internal := by rw [hsteps, hrun]
  have hforced : ∀ {plan : Plan},
      Plan.withOperationIndex backend src dst plan p.index =
        (cs.only backend p.index src dst).map (fun only => only.map Plan.only) →
      Plan.run backend.arithmetic src dst plan internal =
        cs.run backend.arithmetic src dst internal →
      ∃ only,
        (Transform.mk src dst order grids selection plan).withOperationIndex backend p.index =
            some (.ok only) ∧
          only.run backend.arithmetic internal =
            (Transform.mk src dst order grids selection plan).run backend.arithmetic internal ∧
          only.src = src ∧ only.dst = dst ∧ only.order = order ∧
          only.plan.isConversion = false := by
    intro plan hindex hplan
    refine ⟨⟨src, dst, order, grids, selection, .only only⟩, ?_, ?_, rfl, rfl, rfl, rfl⟩
    · simp only [withOperationIndex, hindex, honly, Option.map_some, Except.map]
    · show Plan.run backend.arithmetic src dst (.only only) internal =
        Plan.run backend.arithmetic src dst plan internal
      rw [hplan]
      exact hrun'
  have hnames : cs.names.length = cs.list.length := by simp [Candidates.names]
  rcases hplan with rfl | ⟨code, rfl⟩ | rfl
  · exact ⟨rfl, hcs, hindex, rfl, hnames, rfl, fun _ => hforced rfl rfl⟩
  · exact ⟨rfl, hcs, hindex, rfl, hnames, rfl, fun _ => hforced rfl rfl⟩
  · exact ⟨rfl, hcs, hindex, rfl, hnames, rfl, fun _ => hforced rfl rfl⟩

/-- Coordinates that have an operation go through it, at whatever hub. -/
theorem goesThrough :
    ∀ {t : Transform} {internal : Triple} {i : Nat}, t.WellMade backend →
      t.indexFor backend.arithmetic internal = some i →
      ∃ cs src dst place, GoesThrough backend t internal i cs src dst place
  | ⟨src, dst, order, grids, selection, plan⟩, internal, i, ht, h => by
    cases plan with
    | conversion => cases h
    | operations cs =>
      exact ⟨cs, src, dst, internal, goesThrough_of_candidates ht (Or.inl rfl) h⟩
    | via code cs =>
      exact ⟨cs, src, dst, internal,
        goesThrough_of_candidates ht (Or.inr (Or.inl ⟨code, rfl⟩)) h⟩
    | only cs =>
      exact ⟨cs, src, dst, internal, goesThrough_of_candidates ht (Or.inr (Or.inr rfl)) h⟩
    | bound first middle last names =>
      cases hhub : Leg.atHub backend.arithmetic first internal false with
      | error e => simp [indexFor, Plan.indexFor, hhub, Except.toOption] at h
      | ok hub =>
        have hmiddle : middle.indexFor backend.arithmetic hub = some i := by
          simpa [indexFor, Plan.indexFor, hhub, Except.toOption] using h
        obtain ⟨cs, src', dst', place, hgoes⟩ := goesThrough ht.1 hmiddle
        have hlen : names.length = middle.operations.length := by
          have := List.length_pos_iff.2 cs.list_ne
          have hnames := ht.2
          rw [hgoes.listed] at hnames ⊢
          omega
        refine ⟨cs, src', dst', place, ⟨hgoes.candidates, hgoes.wellMade, hgoes.index, ?_,
          hlen.trans hgoes.listed, rfl, ?_⟩⟩
        · simpa [explainInternal, Plan.explainInternal, hhub, Except.toOption] using
            hgoes.explained
        · intro hi
          have hi' : i < names.length := hi
          obtain ⟨only, honly, hrun, _, _, _, hconversion⟩ := hgoes.forced (by omega)
          refine ⟨⟨src, dst, order, grids, selection, .bound first only last [names[i]]⟩, ?_, ?_,
            rfl, rfl, rfl, rfl⟩
          · simp [withOperationIndex, Plan.withOperationIndex, honly,
              List.getElem?_eq_getElem hi', Except.map]
          · have hflow : ∀ plan : Plan, plan.isConversion = false →
                flows first plan last = false := by
              intro plan hplan
              simp [flows, hplan]
            simp only [run, Plan.run, hflow _ hconversion, hflow _ hgoes.plan, hhub, bind,
              Except.bind, hrun]

end Transform

end Xeibe.Reproject.Select

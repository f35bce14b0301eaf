import Xeibe.Lib.Circle
import Xeibe.Reproject.Bounds
import Xeibe.Reproject.Numbers

/-!
# The longitudes of a ring

The points of a ring that failed are passed over: the search for the outermost
longitudes goes from one longitude to the next, round the ring.  Where the ring
crosses the antimeridian twice, the longitudes beyond it are all below, or all
above, the others, and each search takes the outermost one of its side.
-/

namespace Xeibe.Reproject

open Xeibe.Geom (F64)
open Xeibe.Lib

/-! ## From one longitude to the next -/

/-- The points that didn't fail. -/
def longitudes (data : List F64) : List F64 := data.filter fun v => v ≠ F64.infinity

/-- The longitude that comes before the first one, round the ring. -/
def lastLongitude (data : List F64) : F64 := (longitudes data).getLastD F64.zero

theorem longitudes_eq_nil {data : List F64}
    (h : ∀ k < data.length, data.getD k F64.zero = F64.infinity) : longitudes data = [] := by
  refine List.filter_eq_nil_iff.2 fun v hv => ?_
  obtain ⟨k, hk, rfl⟩ := List.mem_iff_getElem.1 hv
  simpa [List.getD_eq_getElem?_getD, hk] using h k hk

/-- The last longitude is the last point that didn't fail. -/
theorem getLastD_longitudes {data : List F64} {j : Nat} (d : F64) (hj : j < data.length)
    (hpoint : data.getD j F64.zero ≠ F64.infinity)
    (hfailed : ∀ k < data.length, j < k → data.getD k F64.zero = F64.infinity) :
    (longitudes data).getLastD d = data.getD j F64.zero := by
  have hget : data.getD j F64.zero = data[j] := by simp [List.getD_eq_getElem?_getD, hj]
  have hafter : longitudes (data.drop (j + 1)) = [] := by
    refine longitudes_eq_nil fun k hk => ?_
    rw [List.length_drop] at hk
    rw [← hfailed (j + 1 + k) (by omega) (by omega)]
    simp [List.getD_eq_getElem?_getD]
  rw [hget] at hpoint ⊢
  have hsplit : longitudes data = longitudes (data.take j) ++ [data[j]] := by
    conv_lhs => rw [← List.take_append_drop j data, List.drop_eq_getElem_cons hj]
    rw [longitudes, List.filter_append, List.filter_cons_of_pos (by simpa using hpoint)]
    exact congrArg (fun rest => longitudes (data.take j) ++ data[j] :: rest) hafter
  rw [hsplit]
  simp

/-- The point `t` steps and one more before point `i`, round the ring. -/
def stepsBack (n i t : Nat) : Nat := (i + n - 1 - t) % n

theorem stepsBack_succ {n i t : Nat} (hi : i < n) (ht : t < n) (hne : stepsBack n i t ≠ i) :
    (stepsBack n i t + n - 1) % n = stepsBack n i (t + 1) := by
  unfold stepsBack at hne ⊢
  have hpos : i + n - 1 - t ≠ 0 := by
    intro hzero
    rw [hzero, Nat.zero_mod] at hne
    omega
  rw [Nat.add_sub_assoc (by omega), Nat.mod_add_mod,
    show i + n - 1 - t + (n - 1) = i + n - 1 - (t + 1) + n by omega, Nat.add_mod_right]

/-- The search back goes round the ring to the first point that didn't fail. -/
theorem back_spec {data : List F64} {i : Nat} (hi : i < data.length)
    (hpoint : data.getD i F64.zero ≠ F64.infinity) {left s : Nat} (hleft : left + s = data.length)
    (hfailed : ∀ s' < s, data.getD (stepsBack data.length i s') F64.zero = F64.infinity) :
    ∃ t < data.length,
      previousIndex.back i data data.length left (stepsBack data.length i s) =
        stepsBack data.length i t ∧
      data.getD (stepsBack data.length i t) F64.zero ≠ F64.infinity ∧
      ∀ s' < t, data.getD (stepsBack data.length i s') F64.zero = F64.infinity := by
  induction left generalizing s with
  | zero =>
    have hround : stepsBack data.length i (data.length - 1) = i := by
      rw [stepsBack, show i + data.length - 1 - (data.length - 1) = i by omega, Nat.mod_eq_of_lt hi]
    have hself := hfailed (data.length - 1) (by omega)
    rw [hround] at hself
    exact absurd hself hpoint
  | succ left ih =>
    rw [previousIndex.back]
    by_cases hfail : data.getD (stepsBack data.length i s) F64.zero = F64.infinity
    · have hne : stepsBack data.length i s ≠ i := fun heq => hpoint (heq ▸ hfail)
      rw [if_pos ⟨hfail, hne⟩, stepsBack_succ hi (by omega) hne]
      refine ih (by omega) fun s' hs' => ?_
      rcases Nat.lt_succ_iff_lt_or_eq.1 hs' with hlt | rfl
      · exact hfailed s' hlt
      · exact hfail
    · rw [if_neg fun h => hfail h.1]
      exact ⟨s, by omega, rfl, hfail, hfailed⟩

/-- The point before is the longitude before, and the last one of the ring before the first. -/
theorem getD_previousIndex {before after : List F64} {v : F64} (hv : v ≠ F64.infinity) :
    (before ++ v :: after).getD (previousIndex before.length (before ++ v :: after)) F64.zero =
      ((longitudes before).getLastD ((longitudes (before ++ v :: after)).getLastD F64.zero)) := by
  generalize hdata : before ++ v :: after = data
  have hlength : data.length = before.length + after.length + 1 := by
    rw [← hdata, List.length_append, List.length_cons, Nat.add_assoc]
  have hbefore : ∀ k < before.length, data.getD k F64.zero = before.getD k F64.zero := by
    intro k hk
    rw [← hdata, List.getD_eq_getElem?_getD, List.getElem?_append_left hk,
      List.getD_eq_getElem?_getD]
  have hpoint : data.getD before.length F64.zero ≠ F64.infinity := by
    rw [← hdata, List.getD_eq_getElem?_getD, List.getElem?_append_right (Nat.le_refl _),
      Nat.sub_self]
    exact hv
  obtain ⟨t, ht, hback, hfound, hfailed⟩ := back_spec (s := 0) (by omega) hpoint (Nat.add_zero _)
    fun s' hs' => absurd hs' (Nat.not_lt_zero _)
  rw [previousIndex, show (before.length + data.length - 1) % data.length =
    stepsBack data.length before.length 0 from rfl, hback]
  rcases Nat.lt_or_ge t before.length with hlt | hge
  · have hsteps : ∀ s < before.length, stepsBack data.length before.length s =
        before.length - 1 - s := by
      intro s hs
      rw [stepsBack, show before.length + data.length - 1 - s =
        before.length - 1 - s + data.length by omega, Nat.add_mod_right,
        Nat.mod_eq_of_lt (by omega)]
    rw [hsteps t hlt] at hfound ⊢
    rw [hbefore _ (by omega)] at hfound ⊢
    refine (getLastD_longitudes _ (by omega) hfound fun k hk hlt' => ?_).symm
    have hk' := hfailed (before.length - 1 - k) (by omega)
    rwa [hsteps _ (by omega), show before.length - 1 - (before.length - 1 - k) = k by omega,
      hbefore k hk] at hk'
  · have hsteps : ∀ s, before.length ≤ s → s < data.length →
        stepsBack data.length before.length s = before.length + data.length - 1 - s :=
      fun s hs hs' => Nat.mod_eq_of_lt (by omega)
    have hnone : longitudes before = [] := by
      refine longitudes_eq_nil fun k hk => ?_
      have hk' := hfailed (before.length - 1 - k) (by omega)
      rwa [stepsBack, show before.length + data.length - 1 - (before.length - 1 - k) =
        k + data.length by omega, Nat.add_mod_right, Nat.mod_eq_of_lt (by omega),
        hbefore k hk] at hk'
    rw [hsteps t hge ht] at hfound ⊢
    rw [hnone]
    refine (getLastD_longitudes _ (by omega) hfound fun k hk hlt' => ?_).symm
    have hk' := hfailed (before.length + data.length - 1 - k) (by omega)
    rwa [hsteps _ (by omega) (by omega), show before.length + data.length - 1 -
      (before.length + data.length - 1 - k) = k by omega] at hk'

/-! ## The search over the longitudes -/

/-- The way of a jump. -/
def way (threshold delta : F64) : Option Bool :=
  if threshold ≤ delta ∧ delta ≠ F64.infinity then some true
  else if delta ≤ -threshold ∧ delta ≠ F64.infinity then some false
  else none

/-- The longitudes after `before`, each with the way it is reached. -/
def ways (threshold : F64) : F64 → List F64 → List (Option Bool × F64)
  | _, [] => []
  | before, v :: vs => (way threshold (before - v), v) :: ways threshold v vs

section Search

variable {enter : Bool} {further : F64 → F64 → Bool}

/-- One longitude of the search. -/
def Meridian.step (enter : Bool) (further : F64 → F64 → Bool) (m : Meridian)
    (e : Option Bool × F64) : Meridian :=
  (m.cross enter e.2 e.1).take further e.2

/-- What the search answers at the end. -/
def Meridian.answer (m : Meridian) (all : F64) : F64 :=
  if m.crossed = 2 then m.sideValue else if m.crossed = 4 then all else m.value

theorem foldl_zipIdx {threshold : F64} {data after before : List F64}
    (hdata : before ++ after = data) (m : Meridian) :
    (after.zipIdx before.length).foldl (fun m entry =>
        if entry.1 = F64.infinity then m
        else (m.cross enter entry.1 (crossing threshold entry.2 data entry.1)).take further entry.1)
      m =
    (ways threshold ((longitudes before).getLastD ((longitudes data).getLastD F64.zero))
      (longitudes after)).foldl (Meridian.step enter further) m := by
  induction after generalizing before m with
  | nil => rfl
  | cons v after ih =>
    have hrest := fun m => @ih (before ++ [v]) (by rw [← hdata, List.append_assoc]; rfl) m
    rw [List.length_append, List.length_singleton] at hrest
    rw [List.zipIdx_cons, List.foldl_cons, hrest]
    by_cases hv : v = F64.infinity
    · have hskip : longitudes (v :: after) = longitudes after := by
        rw [longitudes, List.filter_cons_of_neg (by simpa using hv)]
        rfl
      have hsame : longitudes (before ++ [v]) = longitudes before := by
        rw [longitudes, List.filter_append, List.filter_cons_of_neg (by simpa using hv)]
        simp [longitudes]
      rw [if_pos hv, hskip, hsame]
    · have htake : longitudes (v :: after) = v :: longitudes after := by
        rw [longitudes, List.filter_cons_of_pos (by simpa using hv)]
        rfl
      have hlast : longitudes (before ++ [v]) = longitudes before ++ [v] := by
        rw [longitudes, List.filter_append, List.filter_cons_of_pos (by simpa using hv)]
        rfl
      have hprevious : crossing threshold before.length data v = way threshold
          ((longitudes before).getLastD ((longitudes data).getLastD F64.zero) - v) := by
        rw [← hdata, crossing, getD_previousIndex hv]
        rfl
      rw [if_neg hv, htake, hlast, hprevious, ways, List.foldl_cons]
      simp [Meridian.step]

theorem antimeridianOutermost_eq (worst all : F64) (data : List F64) (threshold : F64) :
    antimeridianOutermost enter further worst all data threshold =
      ((ways threshold (lastLongitude data) (longitudes data)).foldl (Meridian.step enter further)
        ⟨worst, worst, 0, false⟩).answer all := by
  have hfold := @foldl_zipIdx enter further threshold data data [] rfl ⟨worst, worst, 0, false⟩
  rw [antimeridianOutermost]
  exact congrArg (fun m => Meridian.answer m all) hfold

/-! ## Runs without a crossing -/

/-- The outermost of values, after `m`. -/
def outermost (further : F64 → F64 → Bool) (m : F64) (vs : List F64) : F64 :=
  vs.foldl (fun m v => if further v m then v else m) m

/-- A run without a crossing takes all its values, and those on the side. -/
theorem foldl_run (vs : List F64) (m : Meridian) :
    (vs.map fun v => ((none : Option Bool), v)).foldl (Meridian.step enter further) m =
      ⟨if m.onSide then outermost further m.sideValue vs else m.sideValue,
        outermost further m.value vs, m.crossed, m.onSide⟩ := by
  induction vs generalizing m with
  | nil =>
    obtain ⟨side, value, crossed, onSide⟩ := m
    cases onSide <;> rfl
  | cons v vs ih =>
    obtain ⟨side, value, crossed, onSide⟩ := m
    rw [List.map_cons, List.foldl_cons, ih]
    cases onSide with
    | false =>
      simp [Meridian.step, Meridian.cross, Meridian.take, outermost]
      rfl
    | true =>
      simp [Meridian.step, Meridian.cross, Meridian.take, outermost]
      rfl

theorem answer_two {worst all v w : F64} {first beyond rest : List F64} {out : Bool} :
    ((first.map (fun v => ((none : Option Bool), v)) ++ (some out, v) ::
        (beyond.map (fun v => (none, v)) ++ (some (!out), w) :: rest.map fun v => (none, v))).foldl
      (Meridian.step enter further) ⟨worst, worst, 0, false⟩).answer all =
    if out = enter then outermost further v (v :: beyond)
    else outermost further worst (first ++ w :: rest) := by
  rw [List.foldl_append, List.foldl_cons, List.foldl_append, List.foldl_cons, foldl_run, foldl_run,
    foldl_run]
  by_cases h : out = enter
  · subst h
    simp [Meridian.step, Meridian.cross, Meridian.take, Meridian.answer, outermost]
  · obtain rfl : enter = !out := Bool.eq_not.2 (Ne.symm h)
    simp [Meridian.step, Meridian.cross, Meridian.take, Meridian.answer, outermost]

theorem foldl_step (es : List (Option Bool × F64)) (m : Meridian) :
    (es.foldl (Meridian.step enter further) m).value =
        outermost further m.value (es.map Prod.snd) ∧
      (es.foldl (Meridian.step enter further) m).crossed =
        m.crossed + es.countP fun e => e.1.isSome := by
  induction es generalizing m with
  | nil => exact ⟨rfl, rfl⟩
  | cons e es ih =>
    obtain ⟨hvalue, hcrossed⟩ := ih (m.step enter further e)
    rw [List.foldl_cons, hvalue, hcrossed]
    obtain ⟨way, v⟩ := e
    cases way with
    | none => exact ⟨rfl, rfl⟩
    | some way =>
      refine ⟨rfl, ?_⟩
      rw [List.countP_cons_of_pos rfl]
      exact Nat.succ_add_eq_add_succ _ _

/-- The outermost by a number that each value has. -/
theorem outermost_spec {key : F64 → Int} {vs : List F64} {m : F64}
    (hkey : ∀ a ∈ m :: vs, ∀ b ∈ m :: vs, further a b = true ↔ key a < key b) :
    outermost further m vs ∈ m :: vs ∧ ∀ v ∈ m :: vs, key (outermost further m vs) ≤ key v := by
  induction vs generalizing m with
  | nil => exact ⟨List.mem_cons_self, fun v hv => by rw [List.mem_singleton.1 hv]; rfl⟩
  | cons w vs ih =>
    have hbest : (if further w m then w else m) = w ∧ key w < key m ∨
        (if further w m then w else m) = m ∧ key m ≤ key w := by
      have hiff := hkey w (by simp) m (by simp)
      by_cases h : further w m = true
      · exact Or.inl ⟨if_pos h, hiff.1 h⟩
      · exact Or.inr ⟨if_neg h, Int.not_lt.1 fun hlt => h (hiff.2 hlt)⟩
    generalize hnext : (if further w m then w else m) = next at hbest
    have hsub : ∀ a ∈ next :: vs, a ∈ m :: w :: vs := by
      intro a ha
      rcases List.mem_cons.1 ha with rfl | ha
      · rcases hbest with ⟨rfl, -⟩ | ⟨rfl, -⟩ <;> simp
      · simp [ha]
    obtain ⟨hmem, hle⟩ := ih fun a ha b hb => hkey a (hsub a ha) b (hsub b hb)
    have hfold : outermost further m (w :: vs) = outermost further next vs := by
      rw [← hnext]
      rfl
    rw [hfold]
    refine ⟨hsub _ hmem, fun v hv => ?_⟩
    have hnextle := hle next List.mem_cons_self
    have hboth : key next ≤ key m ∧ key next ≤ key w := by
      rcases hbest with ⟨heq, hlt⟩ | ⟨heq, hle'⟩ <;> rw [heq] <;> omega
    rcases List.mem_cons.1 hv with rfl | hv
    · omega
    · rcases List.mem_cons.1 hv with rfl | hv
      · omega
      · exact hle v (List.mem_cons_of_mem _ hv)

theorem outermost_mem {key : F64 → Int} {vs : List F64} {m : F64} (hne : vs ≠ [])
    (hkey : ∀ a ∈ m :: vs, ∀ b ∈ m :: vs, further a b = true ↔ key a < key b)
    (hm : m ∈ vs ∨ ∀ v ∈ vs, key v < key m) :
    outermost further m vs ∈ vs ∧ ∀ v ∈ vs, key (outermost further m vs) ≤ key v := by
  obtain ⟨hmem, hle⟩ := outermost_spec hkey
  refine ⟨?_, fun v hv => hle v (List.mem_cons_of_mem _ hv)⟩
  rcases List.mem_cons.1 hmem with heq | hmem
  · rcases hm with hm | hworst
    · rwa [heq]
    · obtain ⟨v, hv⟩ := List.exists_mem_of_ne_nil vs hne
      have hlt := hworst v hv
      have hle' := hle v (List.mem_cons_of_mem _ hv)
      rw [heq] at hle'
      omega
  · exact hmem

end Search

/-! ## Degrees -/

/-- A number of degrees, in the units of a double. -/
def degrees (n : Nat) : Int := n * Binary64.one

theorem degrees_facts :
    (F64.ofUsize 160).units = degrees 160 ∧ (F64.ofUsize 180).units = degrees 180 ∧
      (F64.ofUsize 200).units = degrees 200 ∧ (F64.ofUsize 360).units = degrees 360 ∧
      (-F64.ofUsize 160).units = -degrees 160 ∧ (-F64.ofUsize 180).units = -degrees 180 ∧
      (-F64.ofUsize 200).units = -degrees 200 ∧ (F64.ofUsize 180).isFinite = true ∧
      (-F64.ofUsize 180).isFinite = true ∧ (F64.ofUsize 200).isNan = false ∧
      (-F64.ofUsize 200).isNan = false ∧ degrees 360 < F64.infinity.units ∧
      F64.negInfinity.units < -degrees 180 ∧ (0 : Int) < Binary64.one ∧
      ¬ F64.ofUsize 180 < -F64.ofUsize 180 ∧
      F64.ofUsize 360 * F64.ofUsize 200 / F64.ofUsize 360 = F64.ofUsize 200 ∧
      F64.ofUsize 360 / F64.ofUsize 2 = F64.ofUsize 180 := by
  decide +kernel

theorem units_ofUsize_160 : (F64.ofUsize 160).units = degrees 160 := degrees_facts.1

theorem units_ofUsize_180 : (F64.ofUsize 180).units = degrees 180 := degrees_facts.2.1

theorem units_ofUsize_200 : (F64.ofUsize 200).units = degrees 200 := degrees_facts.2.2.1

theorem units_ofUsize_360 : (F64.ofUsize 360).units = degrees 360 := degrees_facts.2.2.2.1

theorem units_neg_160 : (-F64.ofUsize 160).units = -degrees 160 := degrees_facts.2.2.2.2.1

theorem units_neg_180 : (-F64.ofUsize 180).units = -degrees 180 := degrees_facts.2.2.2.2.2.1

theorem units_neg_200 : (-F64.ofUsize 200).units = -degrees 200 := degrees_facts.2.2.2.2.2.2.1

theorem isFinite_ofUsize_180 : (F64.ofUsize 180).isFinite = true := degrees_facts.2.2.2.2.2.2.2.1

theorem isFinite_neg_180 : (-F64.ofUsize 180).isFinite = true := degrees_facts.2.2.2.2.2.2.2.2.1

theorem isNan_ofUsize_200 : (F64.ofUsize 200).isNan = false := degrees_facts.2.2.2.2.2.2.2.2.2.1

theorem isNan_neg_200 : (-F64.ofUsize 200).isNan = false := degrees_facts.2.2.2.2.2.2.2.2.2.2.1

theorem degrees_lt_infinity : degrees 360 < F64.infinity.units :=
  degrees_facts.2.2.2.2.2.2.2.2.2.2.2.1

theorem negInfinity_lt_degrees : F64.negInfinity.units < -degrees 180 :=
  degrees_facts.2.2.2.2.2.2.2.2.2.2.2.2.1

theorem one_pos : (0 : Int) < Binary64.one := degrees_facts.2.2.2.2.2.2.2.2.2.2.2.2.2.1

/-- A longitude. -/
def InRange (v : F64) : Prop := -F64.ofUsize 180 ≤ v ∧ v ≤ F64.ofUsize 180

instance (v : F64) : Decidable (InRange v) := inferInstanceAs (Decidable (_ ∧ _))

theorem InRange.isFinite {v : F64} (h : InRange v) : v.isFinite = true :=
  F64.isFinite_of_between isFinite_neg_180 isFinite_ofUsize_180 h.1 h.2

theorem InRange.units {v : F64} (h : InRange v) :
    -degrees 180 ≤ v.units ∧ v.units ≤ degrees 180 := by
  rw [← units_neg_180, ← units_ofUsize_180]
  exact ⟨(F64.le_iff isFinite_neg_180 h.isFinite).1 h.1,
    (F64.le_iff h.isFinite isFinite_ofUsize_180).1 h.2⟩

theorem units_sub {a b : F64} (ha : a.isFinite = true) (hb : b.isFinite = true) :
    (a - b).isNan = false ∧ (a - b).units = Binary64.roundInt (a.units - b.units) := by
  obtain ⟨hnan, hunits⟩ := Binary64.unitsOf_sub ha hb
  rw [← F64.toFloat_sub] at hnan hunits
  exact ⟨Bool.eq_false_iff.2 fun h => hnan ((F64.isNan_iff _).1 h), hunits⟩

theorem roundInt_units (v : F64) : Binary64.roundInt v.units = v.units :=
  Binary64.roundInt_units (Binary64.canonical v.toFloat)

/-- The way of a jump, up the turns or down. -/
def wayOf (jump : Int) : Option Bool :=
  if jump = 1 then some true else if jump = -1 then some false else none

theorem near_cases {a b : Int} (h : Circle.distance (degrees 360) a b < degrees 160) :
    Circle.jump (degrees 360) a b = 1 ∧ degrees 200 < a - b ∨
      Circle.jump (degrees 360) a b = -1 ∧ a - b < -degrees 200 ∨
      Circle.jump (degrees 360) a b = 0 ∧ -degrees 160 < a - b ∧ a - b < degrees 160 := by
  have hone := one_pos
  unfold Circle.distance at h
  unfold Circle.jump degrees at *
  rcases min_lt_iff.1 h with h | h
  · obtain ⟨hlow, hhigh⟩ := abs_lt.1 h
    refine Or.inr (Or.inr ⟨?_, hlow, hhigh⟩)
    rw [if_neg (by omega), if_neg (by omega)]
  · rcases abs_cases (a - b) with ⟨habs, -⟩ | ⟨habs, -⟩ <;> rw [habs] at h
    · exact Or.inl ⟨if_pos (by omega), by omega⟩
    · refine Or.inr (Or.inl ⟨?_, by omega⟩)
      rw [if_neg (by omega), if_pos (by omega)]

/-- Rounding the difference doesn't move it over the threshold. -/
theorem way_eq {a b : F64} (ha : InRange a) (hb : InRange b)
    (hnear : Circle.distance (degrees 360) a.units b.units < degrees 160) :
    way (F64.ofUsize 200) (a - b) = wayOf (Circle.jump (degrees 360) a.units b.units) := by
  obtain ⟨hnan, hsub⟩ := units_sub ha.isFinite hb.isFinite
  have hrange := ha.units
  have hrange' := hb.units
  have hup : F64.ofUsize 200 ≤ a - b ↔ degrees 200 ≤ Binary64.roundInt (a.units - b.units) := by
    rw [F64.le_iff_units isNan_ofUsize_200 hnan, units_ofUsize_200, hsub]
  have hdown : a - b ≤ -F64.ofUsize 200 ↔
      Binary64.roundInt (a.units - b.units) ≤ -degrees 200 := by
    rw [F64.le_iff_units hnan isNan_neg_200, units_neg_200, hsub]
  have hround200 : Binary64.roundInt (degrees 200) = degrees 200 := by
    rw [← units_ofUsize_200, roundInt_units]
  have hround360 : Binary64.roundInt (degrees 360) = degrees 360 := by
    rw [← units_ofUsize_360, roundInt_units]
  have hroundneg : Binary64.roundInt (-degrees 200) = -degrees 200 := by
    rw [← units_neg_200, roundInt_units]
  have hdegrees : 0 < degrees 160 ∧ degrees 160 < degrees 200 ∧
      degrees 180 + degrees 180 = degrees 360 := by
    have hone := one_pos
    unfold degrees
    omega
  have hfinite : a - b ≠ F64.infinity := by
    intro heq
    have hmax := Binary64.roundInt_mono (show a.units - b.units ≤ degrees 360 by omega)
    have hsize := degrees_lt_infinity
    rw [heq] at hsub
    omega
  rcases near_cases hnear with ⟨hjump, hd⟩ | ⟨hjump, hd⟩ | ⟨hjump, hlow, hhigh⟩
  · have hge := Binary64.roundInt_mono (Int.le_of_lt hd)
    rw [hjump, way, if_pos ⟨hup.2 (by omega), hfinite⟩]
    rfl
  · have hle := Binary64.roundInt_mono (Int.le_of_lt hd)
    have hnot : ¬ F64.ofUsize 200 ≤ a - b := fun h => by
      have := hup.1 h
      omega
    rw [hjump, way, if_neg fun h => hnot h.1, if_pos ⟨hdown.2 (by omega), hfinite⟩]
    rfl
  · have hround160 : Binary64.roundInt (degrees 160) = degrees 160 := by
      rw [← units_ofUsize_160, roundInt_units]
    have hroundneg160 : Binary64.roundInt (-degrees 160) = -degrees 160 := by
      rw [← units_neg_160, roundInt_units]
    have hge := Binary64.roundInt_mono (Int.le_of_lt hlow)
    have hle := Binary64.roundInt_mono (Int.le_of_lt hhigh)
    have hnot : ¬ F64.ofUsize 200 ≤ a - b := fun h => by
      have := hup.1 h
      omega
    have hnot' : ¬ a - b ≤ -F64.ofUsize 200 := fun h => by
      have := hdown.1 h
      omega
    rw [hjump, way, if_neg fun h => hnot h.1, if_neg fun h => hnot' h.1]
    rfl

/-! ## Rings -/

/-- A ring's longitudes, with the jumps over the antimeridian unwrapped. -/
def unwrappedRing (data : List F64) : List Int :=
  Circle.unwrapped (degrees 360) (lastLongitude data).units 0 ((longitudes data).map F64.units)

/-- How often a ring crosses the antimeridian. -/
def ringCrossings (data : List F64) : Nat :=
  Circle.crossings (degrees 360) (lastLongitude data).units ((longitudes data).map F64.units)

/-- A ring that stays near from longitude to longitude, and goes less than once round. -/
structure IsRing (data : List F64) : Prop where
  inRange : ∀ v ∈ longitudes data, InRange v
  near : (lastLongitude data :: longitudes data).IsChain fun a b =>
    Circle.distance (degrees 360) a.units b.units < degrees 160
  span : ∀ a ∈ unwrappedRing data, ∀ b ∈ unwrappedRing data, a - b < degrees 360

/-- The longitudes that a path goes through, from one before. -/
def IsPath (before : F64) (vs : List F64) : Prop :=
  (∀ v ∈ before :: vs, InRange v) ∧ (before :: vs).IsChain fun a b =>
    Circle.distance (degrees 360) a.units b.units < degrees 160

section Paths

variable {before v : F64} {vs ws : List F64}

theorem isPath_cons : IsPath before (v :: vs) ↔ InRange before ∧
    Circle.distance (degrees 360) before.units v.units < degrees 160 ∧ IsPath v vs := by
  unfold IsPath
  rw [List.isChain_cons_cons, List.forall_mem_cons]
  tauto

theorem isPath_append :
    IsPath before (vs ++ ws) ↔ IsPath before vs ∧ IsPath (vs.getLastD before) ws := by
  induction vs generalizing before with
  | nil =>
    refine ⟨fun h => ⟨⟨fun v hv => ?_, List.IsChain.singleton _⟩, h⟩, fun h => h.2⟩
    rw [List.mem_singleton.1 hv]
    exact h.1 before List.mem_cons_self
  | cons v vs ih =>
    have hlast : (v :: vs).getLastD before = vs.getLastD v := by
      cases vs <;> rfl
    rw [List.cons_append, isPath_cons, isPath_cons, ih, hlast]
    tauto

theorem ways_cons (h : IsPath before (v :: vs)) :
    ways (F64.ofUsize 200) before (v :: vs) =
      (wayOf (Circle.jump (degrees 360) before.units v.units), v) ::
        ways (F64.ofUsize 200) v vs := by
  obtain ⟨hbefore, hnear, hpath⟩ := isPath_cons.1 h
  rw [ways, way_eq hbefore (hpath.1 v List.mem_cons_self) hnear]

theorem ways_append (threshold : F64) :
    ways threshold before (vs ++ ws) =
      ways threshold before vs ++ ways threshold (vs.getLastD before) ws := by
  induction vs generalizing before with
  | nil => rfl
  | cons v vs ih =>
    have hlast : (v :: vs).getLastD before = vs.getLastD v := by
      cases vs <;> rfl
    rw [List.cons_append, ways, ways, ih, hlast, List.cons_append]

theorem map_snd_ways (threshold : F64) : (ways threshold before vs).map Prod.snd = vs := by
  induction vs generalizing before with
  | nil => rfl
  | cons v vs ih => rw [ways, List.map_cons, ih]

theorem countP_ways (h : IsPath before vs) :
    ((ways (F64.ofUsize 200) before vs).countP fun e => e.1.isSome) =
      Circle.crossings (degrees 360) before.units (vs.map F64.units) := by
  induction vs generalizing before with
  | nil => rfl
  | cons v vs ih =>
    rw [ways_cons h, List.countP_cons, ih (isPath_cons.1 h).2.2, List.map_cons, Circle.crossings,
      Nat.add_comm]
    congr 1
    rcases @Circle.jump_cases (degrees 360) before.units v.units with hjump | hjump | hjump <;>
      rw [hjump] <;> rfl

theorem ways_of_crossings_eq_zero (h : IsPath before vs)
    (hnone : Circle.crossings (degrees 360) before.units (vs.map F64.units) = 0) :
    ways (F64.ofUsize 200) before vs = vs.map fun v => (none, v) := by
  induction vs generalizing before with
  | nil => rfl
  | cons v vs ih =>
    rw [List.map_cons, Circle.crossings, Nat.add_eq_zero_iff] at hnone
    have hjump : Circle.jump (degrees 360) before.units v.units = 0 := by
      by_contra hne
      rw [if_neg hne] at hnone
      exact absurd hnone.1 Nat.one_ne_zero
    rw [ways_cons h, hjump, ih (isPath_cons.1 h).2.2 hnone.2]
    rfl

theorem getLastD_units (d : F64) : (vs.map F64.units).getLastD d.units = (vs.getLastD d).units := by
  rw [List.getLastD_eq_getLast?, List.getLastD_eq_getLast?, List.getLast?_map]
  cases vs.getLast? <;> rfl

theorem not_isNan (hrange : ∀ v ∈ vs, InRange v) (hm : before ∈ vs ∨ before.isNan = false) :
    ∀ a ∈ before :: vs, a.isNan = false := by
  have hvs : ∀ v ∈ vs, v.isNan = false := fun v hv => F64.isNan_of_isFinite (hrange v hv).isFinite
  intro a ha
  rcases List.mem_cons.1 ha with rfl | ha
  · exact hm.elim (hvs a) id
  · exact hvs a ha

/-- The least longitude. -/
theorem outermost_low (hne : vs ≠ []) (hrange : ∀ v ∈ vs, InRange v)
    (hm : before ∈ vs ∨ before = F64.infinity) :
    outermost (fun a b => a < b) before vs ∈ vs ∧
      ∀ v ∈ vs, outermost (fun a b => a < b) before vs ≤ v := by
  have hnan := not_isNan hrange (hm.imp_right fun h => by rw [h]; decide)
  obtain ⟨hmem, hle⟩ := @outermost_mem (fun a b => a < b) F64.units vs before hne
    (fun a ha b hb => by rw [decide_eq_true_iff, F64.lt_iff_units (hnan a ha) (hnan b hb)])
    (hm.imp_right fun h v hv => by
      have hunits := (hrange v hv).units
      have hsize := degrees_lt_infinity
      have hone := one_pos
      rw [h]
      unfold degrees at *
      omega)
  refine ⟨hmem, fun v hv => ?_⟩
  rw [F64.le_iff_units (hnan _ (List.mem_cons_of_mem _ hmem)) (hnan v (List.mem_cons_of_mem _ hv))]
  exact hle v hv

/-- The greatest longitude. -/
theorem outermost_high (hne : vs ≠ []) (hrange : ∀ v ∈ vs, InRange v)
    (hm : before ∈ vs ∨ before = F64.negInfinity) :
    outermost (fun a b => b < a) before vs ∈ vs ∧
      ∀ v ∈ vs, v ≤ outermost (fun a b => b < a) before vs := by
  have hnan := not_isNan hrange (hm.imp_right fun h => by rw [h]; decide)
  obtain ⟨hmem, hle⟩ := @outermost_mem (fun a b => b < a) (fun v => -v.units) vs before hne
    (fun a ha b hb => by
      rw [decide_eq_true_iff, F64.lt_iff_units (hnan b hb) (hnan a ha), Int.neg_lt_neg_iff])
    (hm.imp_right fun h v hv => by
      have hunits := (hrange v hv).units
      have hsize := negInfinity_lt_degrees
      rw [h]
      omega)
  refine ⟨hmem, fun v hv => ?_⟩
  rw [F64.le_iff_units (hnan v (List.mem_cons_of_mem _ hv)) (hnan _ (List.mem_cons_of_mem _ hmem))]
  exact Int.neg_le_neg_iff.1 (hle v hv)

end Paths

section Ring

variable {data : List F64}

theorem getLast?_longitudes (hne : longitudes data ≠ []) :
    (longitudes data).getLast? = some (lastLongitude data) := by
  rw [lastLongitude, List.getLastD_eq_getLast?, List.getLast?_eq_some_getLast hne]
  rfl

theorem IsRing.isPath (ring : IsRing data) (hne : longitudes data ≠ []) :
    IsPath (lastLongitude data) (longitudes data) := by
  refine ⟨fun v hv => ?_, ring.near⟩
  rcases List.mem_cons.1 hv with rfl | hv
  · exact ring.inRange _ (List.mem_of_getLast? (getLast?_longitudes hne))
  · exact ring.inRange v hv

/-- Two crossings split a ring: what lies beyond the antimeridian is all below the rest, or all
above it. -/
theorem IsRing.exists_of_crossings_two (ring : IsRing data) (hne : longitudes data ≠ [])
    (hcount : ringCrossings data = 2) :
    ∃ first v beyond w rest out, longitudes data = first ++ v :: (beyond ++ w :: rest) ∧
      ways (F64.ofUsize 200) (lastLongitude data) (longitudes data) =
        first.map (fun v => (none, v)) ++ (some out, v) ::
          (beyond.map (fun v => (none, v)) ++ (some (!out), w) :: rest.map fun v => (none, v)) ∧
      ∀ x ∈ first ++ w :: rest, ∀ y ∈ v :: beyond, if out then y < x else x < y := by
  have hpath := ring.isPath hne
  have hlast : ((longitudes data).map F64.units).getLast? = some (lastLongitude data).units := by
    rw [List.getLast?_map, getLast?_longitudes hne]
    rfl
  obtain ⟨first', v', beyond', w', rest', way, hsplit, hfirst, hv, hbeyond, hw, hrest, hway,
      hapart⟩ :=
    Circle.exists_of_crossings_two hlast hcount ring.span
  obtain ⟨first, after, hlongitudes, rfl, hafter⟩ := List.map_eq_append_iff.1 hsplit
  obtain ⟨v, later, rfl, rfl, hlater⟩ := List.map_eq_cons_iff.1 hafter
  obtain ⟨beyond, back, rfl, rfl, hback⟩ := List.map_eq_append_iff.1 hlater
  obtain ⟨w, rest, rfl, rfl, rfl⟩ := List.map_eq_cons_iff.1 hback
  rw [hlongitudes] at hpath
  obtain ⟨hpathFirst, hpathAfter⟩ := isPath_append.1 hpath
  obtain ⟨-, -, hpathBeyond⟩ := isPath_cons.1 hpathAfter
  obtain ⟨hpathBeyond, hpathBack⟩ := isPath_append.1 hpathBeyond
  obtain ⟨-, -, hpathRest⟩ := isPath_cons.1 hpathBack
  rw [getLastD_units] at hv hw
  have hways : ways (F64.ofUsize 200) (lastLongitude data) (longitudes data) =
      first.map (fun v => (none, v)) ++ (wayOf way, v) ::
        (beyond.map (fun v => (none, v)) ++ (wayOf (-way), w) :: rest.map fun v => (none, v)) := by
    rw [hlongitudes, ways_append, ways_of_crossings_eq_zero hpathFirst hfirst, ways_cons hpathAfter,
      hv, ways_append, ways_of_crossings_eq_zero hpathBeyond hbeyond, ways_cons hpathBack, hw,
      ways_of_crossings_eq_zero hpathRest hrest]
  have hlt : ∀ x ∈ first ++ w :: rest, ∀ y ∈ v :: beyond,
      x.isNan = false ∧ y.isNan = false ∧ 0 < way * (x.units - y.units) := by
    intro x hx y hy
    have hinx : x ∈ longitudes data := by
      rw [hlongitudes]
      simp only [List.mem_append, List.mem_cons] at hx ⊢
      tauto
    have hiny : y ∈ longitudes data := by
      rw [hlongitudes]
      simp only [List.mem_append, List.mem_cons] at hy ⊢
      tauto
    refine ⟨F64.isNan_of_isFinite (ring.inRange x hinx).isFinite,
      F64.isNan_of_isFinite (ring.inRange y hiny).isFinite, hapart _ ?_ _ ?_⟩
    · simpa using List.mem_map_of_mem (f := F64.units) hx
    · simpa using List.mem_map_of_mem (f := F64.units) hy
  rcases hway with rfl | rfl
  · refine ⟨first, v, beyond, w, rest, true, hlongitudes, hways, fun x hx y hy => ?_⟩
    obtain ⟨hnanx, hnany, hunits⟩ := hlt x hx y hy
    show y < x
    rw [F64.lt_iff_units hnany hnanx]
    omega
  · refine ⟨first, v, beyond, w, rest, false, hlongitudes, hways, fun x hx y hy => ?_⟩
    obtain ⟨hnanx, hnany, hunits⟩ := hlt x hx y hy
    show x < y
    rw [F64.lt_iff_units hnanx hnany]
    omega

theorem IsRing.answer_plain (ring : IsRing data) (hne : longitudes data ≠ [])
    (htwo : ringCrossings data ≠ 2) (hfour : ringCrossings data ≠ 4) {enter : Bool}
    {further : F64 → F64 → Bool} {worst all : F64} :
    antimeridianOutermost enter further worst all data (F64.ofUsize 200) =
      outermost further worst (longitudes data) := by
  obtain ⟨hvalue, hcrossed⟩ := @foldl_step enter further
    (ways (F64.ofUsize 200) (lastLongitude data) (longitudes data)) ⟨worst, worst, 0, false⟩
  rw [countP_ways (ring.isPath hne), Nat.zero_add] at hcrossed
  rw [map_snd_ways] at hvalue
  rw [antimeridianOutermost_eq, Meridian.answer, if_neg fun h => htwo (hcrossed.symm.trans h),
    if_neg fun h => hfour (hcrossed.symm.trans h)]
  exact hvalue

theorem IsRing.answer_four (ring : IsRing data) (hne : longitudes data ≠ [])
    (hfour : ringCrossings data = 4) {enter : Bool} {further : F64 → F64 → Bool} {worst all : F64} :
    antimeridianOutermost enter further worst all data (F64.ofUsize 200) = all := by
  obtain ⟨-, hcrossed⟩ := @foldl_step enter further
    (ways (F64.ofUsize 200) (lastLongitude data) (longitudes data)) ⟨worst, worst, 0, false⟩
  rw [countP_ways (ring.isPath hne), Nat.zero_add] at hcrossed
  have hcrossed' := hcrossed.trans hfour
  rw [antimeridianOutermost_eq, Meridian.answer]
  rw [if_neg (fun h => absurd (hcrossed'.symm.trans h) (by decide)), if_pos hcrossed']

/-- The interval between two longitudes, over the antimeridian where the first is greater. -/
def Within (lo hi x : F64) : Prop := if hi < lo then lo ≤ x ∨ x ≤ hi else lo ≤ x ∧ x ≤ hi

/-- Both ends after two crossings: each is the outermost of its side. -/
theorem IsRing.range_two (ring : IsRing data) (hne : longitudes data ≠ [])
    (htwo : ringCrossings data = 2) :
    antimeridianMin data (F64.ofUsize 200) (F64.ofUsize 180) ∈ longitudes data ∧
      antimeridianMax data (F64.ofUsize 200) (F64.ofUsize 180) ∈ longitudes data ∧
      ∀ x ∈ longitudes data, Within (antimeridianMin data (F64.ofUsize 200) (F64.ofUsize 180))
        (antimeridianMax data (F64.ofUsize 200) (F64.ofUsize 180)) x := by
  obtain ⟨first, v, beyond, w, rest, out, hsplit, hways, hapart⟩ :=
    ring.exists_of_crossings_two hne htwo
  have hmem : ∀ x, x ∈ longitudes data ↔ x ∈ first ++ w :: rest ∨ x ∈ v :: beyond := by
    intro x
    rw [hsplit]
    simp only [List.mem_append, List.mem_cons]
    tauto
  have houter : ∀ x ∈ first ++ w :: rest, InRange x := fun x hx =>
    ring.inRange x ((hmem x).2 (Or.inl hx))
  have hinner : ∀ x ∈ v :: beyond, InRange x := fun x hx =>
    ring.inRange x ((hmem x).2 (Or.inr hx))
  have hne' : first ++ w :: rest ≠ [] := by simp
  rw [antimeridianMin, antimeridianMax, antimeridianOutermost_eq, antimeridianOutermost_eq, hways,
    answer_two, answer_two]
  cases out with
  | true =>
    obtain ⟨hlo, hlow⟩ := outermost_low hne' houter (Or.inr rfl)
    obtain ⟨hhi, hhigh⟩ :=
      outermost_high (List.cons_ne_nil v beyond) hinner (Or.inl List.mem_cons_self)
    rw [if_neg (by decide), if_pos rfl]
    refine ⟨(hmem _).2 (Or.inl hlo), (hmem _).2 (Or.inr hhi), fun x hx => ?_⟩
    have hwrapped := hapart _ hlo _ hhi
    rw [if_pos rfl] at hwrapped
    rw [Within, if_pos hwrapped]
    exact ((hmem x).1 hx).imp (hlow x) (hhigh x)
  | false =>
    obtain ⟨hlo, hlow⟩ :=
      outermost_low (List.cons_ne_nil v beyond) hinner (Or.inl List.mem_cons_self)
    obtain ⟨hhi, hhigh⟩ := outermost_high hne' houter (Or.inr rfl)
    rw [if_pos rfl, if_neg (by decide)]
    refine ⟨(hmem _).2 (Or.inr hlo), (hmem _).2 (Or.inl hhi), fun x hx => ?_⟩
    have hwrapped := hapart _ hhi _ hlo
    rw [if_neg (by decide)] at hwrapped
    rw [Within, if_pos hwrapped]
    exact ((hmem x).1 hx).symm.imp (hlow x) (hhigh x)

/-- Without two or four crossings the ends are the least and the greatest longitude. -/
theorem IsRing.range_plain (ring : IsRing data) (hne : longitudes data ≠ [])
    (htwo : ringCrossings data ≠ 2) (hfour : ringCrossings data ≠ 4) :
    antimeridianMin data (F64.ofUsize 200) (F64.ofUsize 180) ∈ longitudes data ∧
      antimeridianMax data (F64.ofUsize 200) (F64.ofUsize 180) ∈ longitudes data ∧
      ∀ x ∈ longitudes data, Within (antimeridianMin data (F64.ofUsize 200) (F64.ofUsize 180))
        (antimeridianMax data (F64.ofUsize 200) (F64.ofUsize 180)) x := by
  obtain ⟨hlo, hlow⟩ := outermost_low hne ring.inRange (Or.inr rfl)
  obtain ⟨hhi, hhigh⟩ := outermost_high hne ring.inRange (Or.inr rfl)
  rw [antimeridianMin, antimeridianMax, ring.answer_plain hne htwo hfour,
    ring.answer_plain hne htwo hfour]
  refine ⟨hlo, hhi, fun x hx => ?_⟩
  rw [Within, if_neg fun hlt => ?_]
  · exact ⟨hlow x hx, hhigh x hx⟩
  · have hle := hlow _ hhi
    rw [F64.lt_iff (ring.inRange _ hhi).isFinite (ring.inRange _ hlo).isFinite] at hlt
    rw [F64.le_iff (ring.inRange _ hlo).isFinite (ring.inRange _ hhi).isFinite] at hle
    omega

/-- The interval from the minimum to the maximum, over the antimeridian where the minimum is the
greater one, holds every longitude of a ring. -/
theorem antimeridian_range (ring : IsRing data) :
    (∀ x ∈ longitudes data, Within (antimeridianMin data (F64.ofUsize 200) (F64.ofUsize 180))
        (antimeridianMax data (F64.ofUsize 200) (F64.ofUsize 180)) x) ∧
      (longitudes data ≠ [] → ringCrossings data ≤ 2 →
        antimeridianMin data (F64.ofUsize 200) (F64.ofUsize 180) ∈ longitudes data ∧
          antimeridianMax data (F64.ofUsize 200) (F64.ofUsize 180) ∈ longitudes data) ∧
      (ringCrossings data = 4 →
        antimeridianMin data (F64.ofUsize 200) (F64.ofUsize 180) = -F64.ofUsize 180 ∧
          antimeridianMax data (F64.ofUsize 200) (F64.ofUsize 180) = F64.ofUsize 180) := by
  by_cases hne : longitudes data = []
  · have hnone : ringCrossings data = 0 := by
      rw [ringCrossings, hne]
      rfl
    rw [hne, hnone]
    exact ⟨nofun, fun h => absurd rfl h, nofun⟩
  by_cases hfour : ringCrossings data = 4
  · have hmin : antimeridianMin data (F64.ofUsize 200) (F64.ofUsize 180) = -F64.ofUsize 180 :=
      ring.answer_four hne hfour
    have hmax : antimeridianMax data (F64.ofUsize 200) (F64.ofUsize 180) = F64.ofUsize 180 :=
      ring.answer_four hne hfour
    have hends : ¬ F64.ofUsize 180 < -F64.ofUsize 180 := degrees_facts.2.2.2.2.2.2.2.2.2.2.2.2.2.2.1
    rw [hmin, hmax, hfour]
    refine ⟨fun x hx => ?_, fun _ h => absurd h (by decide), fun _ => ⟨rfl, rfl⟩⟩
    rw [Within, if_neg hends]
    exact ring.inRange x hx
  by_cases htwo : ringCrossings data = 2
  · obtain ⟨hlo, hhi, hwithin⟩ := ring.range_two hne htwo
    exact ⟨hwithin, fun _ _ => ⟨hlo, hhi⟩, fun h => absurd h hfour⟩
  · obtain ⟨hlo, hhi, hwithin⟩ := ring.range_plain hne htwo hfour
    exact ⟨hwithin, fun _ _ => ⟨hlo, hhi⟩, fun h => absurd h hfour⟩

/-- Over the antimeridian and back, with failed points first and on the way. -/
theorem antimeridian_range_thereAndBack :
    let data := [F64.infinity, F64.ofUsize 170, F64.infinity, -F64.ofUsize 170, -F64.ofUsize 160,
      F64.infinity]
    (∀ x ∈ longitudes data, Within (antimeridianMin data (F64.ofUsize 200) (F64.ofUsize 180))
        (antimeridianMax data (F64.ofUsize 200) (F64.ofUsize 180)) x) ∧
      (longitudes data ≠ [] → ringCrossings data ≤ 2 →
        antimeridianMin data (F64.ofUsize 200) (F64.ofUsize 180) ∈ longitudes data ∧
          antimeridianMax data (F64.ofUsize 200) (F64.ofUsize 180) ∈ longitudes data) ∧
      (ringCrossings data = 4 →
        antimeridianMin data (F64.ofUsize 200) (F64.ofUsize 180) = -F64.ofUsize 180 ∧
          antimeridianMax data (F64.ofUsize 200) (F64.ofUsize 180) = F64.ofUsize 180) :=
  antimeridian_range ⟨by decide +kernel, by decide +kernel, by decide +kernel⟩

end Ring

end Xeibe.Reproject

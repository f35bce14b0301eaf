import Xeibe.Reproject.Remainder
import Xeibe.Reproject.Select.Agreement

/-!
# The preferred candidate

What `suggest` answers with: a candidate whose area contains the point, and of known
accuracy none better.  A candidate of unknown accuracy that comes first is not
displaced.  A longitude counts modulo whole turns, which `normalizeLongitude` undoes
without rounding.
-/

namespace Xeibe.Geom.F64

open Xeibe.Lib
open Float.Model (UnpackedFloat)

theorem lt_of_lt_of_lt {a b c : F64} (hab : a < b) (hbc : b < c) : a < c := by
  obtain ⟨ha, hb⟩ := isNan_of_lt hab
  obtain ⟨-, hc⟩ := isNan_of_lt hbc
  rw [lt_iff_units ha hb] at hab
  rw [lt_iff_units hb hc] at hbc
  rw [lt_iff_units ha hc]
  omega

/-! ## Half a turn -/

/-- The last place of the doubles from two to four. -/
def grain : Int := 2 ^ 1023

theorem pi_facts :
    pi.isFinite = true ∧ (ofUsize 2 * pi).isFinite = true ∧
      (ofUsize 2 * pi).units = 2 * pi.units ∧ (-pi).units = -pi.units ∧ 0 < grain ∧
      pi.units = 7074237752028440 * grain ∧
      (ofUsize 10).units = 22517998136852480 * grain ∧ (-pi).isFinite = true ∧
      (-pi).isNan = false ∧ (-ofUsize 10).units = -(ofUsize 10).units ∧
      3 * pi.units ≤ (ofUsize 10).units := by
  decide +kernel

theorem isFinite_pi : pi.isFinite = true := pi_facts.1

theorem isFinite_turn : (ofUsize 2 * pi).isFinite = true := pi_facts.2.1

theorem units_turn : (ofUsize 2 * pi).units = 2 * pi.units := pi_facts.2.2.1

theorem units_negPi : (-pi).units = -pi.units := pi_facts.2.2.2.1

theorem grain_pos : 0 < grain := pi_facts.2.2.2.2.1

theorem units_pi : pi.units = 7074237752028440 * grain := pi_facts.2.2.2.2.2.1

theorem units_ten : (ofUsize 10).units = 22517998136852480 * grain := pi_facts.2.2.2.2.2.2.1

theorem fits_grain {v : Int} (j : Nat) (hdvd : 2 ^ j * grain ∣ v) (hlow : -(2 ^ (53 + j) * grain) < v)
    (hhigh : v < 2 ^ (53 + j) * grain) : Binary64.Fits (1023 + j) v := by
  have hpow : (2 : Int) ^ (1023 + j) = 2 ^ j * grain := by
    rw [pow_add, mul_comm]
    rfl
  have htop : ((2 ^ (53 + (1023 + j)) : Nat) : Int) = 2 ^ (53 + j) * grain := by
    rw [show 53 + (1023 + j) = 53 + j + 1023 by omega]
    push_cast
    rw [pow_add]
    rfl
  refine ⟨hpow ▸ hdvd, ?_⟩
  generalize 2 ^ (53 + j) * grain = bound at *
  omega

theorem grain_dvd {x : F64} (hx : x.isFinite = true) (j : Nat)
    (h : 2 ^ (52 + j) * grain ≤ x.units.natAbs) : 2 ^ j * grain ∣ x.units := by
  have hpow : (2 : Int) ^ (1023 + j) = 2 ^ j * grain := by
    rw [pow_add, mul_comm]
    rfl
  rw [← hpow]
  apply Binary64.dvd_units (Binary64.canonical x.toFloat) hx
  have hlow : ((2 ^ (52 + (1023 + j)) : Nat) : Int) = 2 ^ (52 + j) * grain := by
    rw [show 52 + (1023 + j) = 52 + j + 1023 by omega]
    push_cast
    rw [pow_add]
    rfl
  rw [← hlow] at h
  exact_mod_cast h

end Xeibe.Geom.F64

namespace Xeibe.Reproject.Select.Candidates

open Xeibe.Geom (F64)
open Xeibe.Lib

variable (arithmetic : Arithmetic) (cs : Candidates) (point : F64 × F64) (excluded : List Nat)

/-! ## Among the candidates that contain the point -/

/-- A candidate that may be chosen: not excluded, and its area contains the point. -/
structure InScope (i : Nat) (p : Prepared) : Prop where
  at_ : cs.At i p
  notExcluded : i ∉ excluded
  contains : cs.contains arithmetic p point = true

/-- Accuracies are known from 0 on. -/
def Known (accuracy : F64) : Prop := F64.zero ≤ accuracy

/-- None of the candidates before `i` is better than one of known accuracy. -/
def Unbeaten (i : Nat) (accuracy : F64) : Prop :=
  ∀ j other, j < i → InScope arithmetic cs point excluded j other → other.offshore = false →
    Known other.accuracy → ¬other.accuracy < accuracy

/-- The first candidate that may be chosen is of unknown accuracy. -/
def StartsUnknown : Prop :=
  ∃ i first, InScope arithmetic cs point excluded i first ∧ ¬Known first.accuracy ∧
    ∀ j p, j < i → ¬InScope arithmetic cs point excluded j p

/-- What the choice has after the candidates before `i`. -/
def Leads (i : Nat) : Option Best → Prop
  | none => ∀ j p, j < i → ¬InScope arithmetic cs point excluded j p
  | some best => InScope arithmetic cs point excluded best.place best.alt ∧
      best.accuracy = best.alt.accuracy ∧
      (Known best.accuracy → Unbeaten arithmetic cs point excluded i best.accuracy) ∧
      (¬Known best.accuracy → StartsUnknown arithmetic cs point excluded)

variable {arithmetic cs point excluded}

theorem displaces_spec {alt cur : Prepared} {accuracy : F64}
    (h : displaces alt cur accuracy = true) :
    alt.offshore = false ∧ (alt.accuracy < accuracy ∧ Known alt.accuracy ∨
      alt.accuracy.eq accuracy = true) := by
  unfold displaces at h
  simp only [Bool.and_eq_true, Bool.or_eq_true, Bool.not_eq_true', decide_eq_true_eq] at h
  obtain ⟨⟨hknown, hlt⟩ | ⟨⟨⟨heq, -⟩, -⟩, -⟩, hoffshore⟩ := h
  · exact ⟨hoffshore, .inl ⟨hlt, hknown⟩⟩
  · exact ⟨hoffshore, .inr heq⟩

theorem displaces_of_better {alt cur : Prepared} {accuracy : F64} (hoffshore : alt.offshore = false)
    (hknown : Known alt.accuracy) (hlt : alt.accuracy < accuracy) :
    displaces alt cur accuracy = true := by
  unfold displaces
  simp [hoffshore, show F64.zero ≤ alt.accuracy from hknown, hlt]

/-- The accuracies after a candidate displaced another. -/
theorem Unbeaten.displaced {i : Nat} {a b : F64}
    (hab : a < b ∧ Known a ∨ a.eq b = true) (ha : Known a)
    (h : Known b → Unbeaten arithmetic cs point excluded i b) :
    Unbeaten arithmetic cs point excluded i a := by
  have hnan := (F64.isNan_of_le ha).2
  rcases hab with ⟨hlt, -⟩ | heq
  · have hb := (F64.isNan_of_lt hlt).2
    have hknown : Known b := by
      rw [Known, F64.le_iff_units F64.isNan_zero hb, F64.units_zero]
      rw [Known, F64.le_iff_units F64.isNan_zero hnan, F64.units_zero] at ha
      rw [F64.lt_iff_units hnan hb] at hlt
      omega
    intro j other hj hscope hoffshore hother hbetter
    exact h hknown j other hj hscope hoffshore hother (F64.lt_of_lt_of_lt hbetter hlt)
  · obtain ⟨-, hb, hunits⟩ := F64.eq_units heq
    have hknown : Known b := by
      rw [Known, F64.le_iff_units F64.isNan_zero hb, ← hunits,
        ← F64.le_iff_units F64.isNan_zero hnan]
      exact ha
    intro j other hj hscope hoffshore hother hbetter
    refine h hknown j other hj hscope hoffshore hother ?_
    have hnan' := (F64.isNan_of_lt hbetter).1
    rw [F64.lt_iff_units hnan' hnan] at hbetter
    rw [F64.lt_iff_units hnan' hb]
    omega

theorem Unbeaten.succ {i : Nat} {alt : Prepared} {accuracy : F64}
    (h : Unbeaten arithmetic cs point excluded i accuracy) (halt : cs.At i alt)
    (hnot : alt.offshore = false → Known alt.accuracy → ¬alt.accuracy < accuracy) :
    Unbeaten arithmetic cs point excluded (i + 1) accuracy := by
  intro j other hj hscope hoffshore hknown
  rcases Nat.lt_succ_iff_lt_or_eq.1 hj with hj | rfl
  · exact h j other hj hscope hoffshore hknown
  · cases halt.symm.trans hscope.at_
    exact hnot hoffshore hknown

/-- A candidate that contains the point is chosen for now, or isn't. -/
theorem leads_step {ρ : Type} [Recorder ρ] {i : Nat} {alt : Prepared} {best : Option Best} (told : ρ)
    (h : Leads arithmetic cs point excluded i best)
    (halt : InScope arithmetic cs point excluded i alt) :
    Leads arithmetic cs point excluded (i + 1) (suggestStep i alt best told).1 := by
  have hself : ¬alt.accuracy < alt.accuracy := fun hlt => by
    rw [F64.lt_iff_units (F64.isNan_of_lt hlt).1 (F64.isNan_of_lt hlt).1] at hlt
    omega
  cases best with
  | none =>
    refine ⟨halt, rfl, fun _ => ?_, fun hunknown => ⟨i, alt, halt, hunknown, h⟩⟩
    intro j other hj hscope
    rcases Nat.lt_succ_iff_lt_or_eq.1 hj with hj | rfl
    · exact absurd hscope (h j other hj)
    · cases halt.at_.symm.trans hscope.at_
      exact fun _ _ => hself
  | some best =>
    obtain ⟨hscope, haccuracy, hbeaten, hstarts⟩ := h
    show Leads arithmetic cs point excluded (i + 1)
      (if displaces alt best.alt best.accuracy then some ⟨i, alt, alt.accuracy⟩ else some best)
    split
    · rename_i hdisplaces
      obtain ⟨-, hbetter⟩ := displaces_spec hdisplaces
      refine ⟨halt, rfl, fun hknown => ?_, fun hunknown => hstarts fun hknown => hunknown ?_⟩
      · exact (Unbeaten.displaced hbetter hknown hbeaten).succ halt.at_ fun _ _ => hself
      · rcases hbetter with ⟨-, hknown'⟩ | heq
        · exact hknown'
        · obtain ⟨hnan, hb, hunits⟩ := F64.eq_units heq
          rw [Known, F64.le_iff_units F64.isNan_zero hnan, hunits,
            ← F64.le_iff_units F64.isNan_zero hb]
          exact hknown
    · rename_i hstays
      refine ⟨hscope, haccuracy, fun hknown => (hbeaten hknown).succ halt.at_ ?_, hstarts⟩
      intro hoffshore hother hlt
      exact hstays (displaces_of_better hoffshore hother hlt)

theorem leads_skip {i : Nat} {best : Option Best} (h : Leads arithmetic cs point excluded i best)
    (hskip : ∀ p, ¬InScope arithmetic cs point excluded i p) :
    Leads arithmetic cs point excluded (i + 1) best := by
  cases best with
  | none =>
    intro j p hj
    rcases Nat.lt_succ_iff_lt_or_eq.1 hj with hj | rfl
    · exact h j p hj
    · exact hskip p
  | some best =>
    obtain ⟨hscope, haccuracy, hbeaten, hstarts⟩ := h
    refine ⟨hscope, haccuracy, fun hknown j other hj hscope => ?_, hstarts⟩
    rcases Nat.lt_succ_iff_lt_or_eq.1 hj with hj | rfl
    · exact hbeaten hknown j other hj hscope
    · exact absurd hscope (hskip other)

/-- The rest of the list, one candidate after the other. -/
theorem leads_suggestFrom (arithmetic : Arithmetic) (cs : Candidates) (point : F64 × F64)
    (excluded : List Nat) {ρ : Type} [Recorder ρ] (alts : List Prepared) :
    ∀ (i : Nat) (best : Option Best) (told : ρ), (∀ k p, alts[k]? = some p ↔ cs.At (i + k) p) →
      Leads arithmetic cs point excluded i best →
      Leads arithmetic cs point excluded (i + alts.length)
        (cs.suggestFrom arithmetic point excluded i alts best told).1 := by
  induction alts with
  | nil =>
    intro i best told _ h
    exact h
  | cons alt alts ih =>
    intro i best told halts h
    have halt : cs.At i alt := (halts 0 alt).1 rfl
    have hrest : ∀ k p, alts[k]? = some p ↔ cs.At (i + 1 + k) p := by
      intro k p
      have hk := halts (k + 1) p
      rwa [show i + (k + 1) = i + 1 + k by omega] at hk
    rw [List.length_cons, show i + (alts.length + 1) = i + 1 + alts.length by omega]
    unfold suggestFrom
    split
    · rename_i hskip
      refine ih (i + 1) best told hrest (leads_skip h fun p hp => ?_)
      cases halt.symm.trans hp.at_
      rw [Bool.or_eq_true, List.contains_iff_mem, Bool.not_eq_true', hp.contains] at hskip
      rcases hskip with hskip | hskip
      · exact hp.notExcluded hskip
      · cases hskip
    · rename_i hscope
      rw [Bool.or_eq_true, List.contains_iff_mem, not_or, Bool.not_eq_true',
        Bool.not_eq_false] at hscope
      exact ih (i + 1) _ _ hrest (leads_step told h ⟨halt, hscope.1, hscope.2⟩)

/-! ## Longitudes -/

/-- A longitude that converts, from three half turns west on. -/
structure Convertible (x : F64) : Prop where
  isFinite : x.isFinite = true
  west : -(3 * F64.pi.units) ≤ x.units
  east : x.units ≤ (F64.ofUsize 10).units

/-- Within half a turn, and whole turns away. -/
structure Turned (x : F64) (y : F64) : Prop where
  isFinite : y.isFinite = true
  west : -F64.pi.units ≤ y.units
  east : y.units ≤ F64.pi.units
  turns : ∃ n : Int, y.units = x.units + 2 * F64.pi.units * n

theorem Convertible.sub_turn {x : F64} (hx : Convertible x) (heast : F64.pi.units < x.units) :
    Binary64.Is (x - F64.ofUsize 2 * F64.pi).toFloat (x.units - 2 * F64.pi.units) := by
  have hpos := F64.grain_pos
  have hhigh := hx.east
  have hdvd := F64.grain_dvd hx.isFinite 0 (by
    rw [F64.units_pi] at heast
    omega)
  rw [F64.units_ten] at hhigh
  rw [F64.toFloat_sub, ← F64.units_turn]
  refine Binary64.is_sub hx.isFinite F64.isFinite_turn (k := 1023) (by omega) ?_
  show Binary64.Fits 1023 (x.units - (F64.ofUsize 2 * F64.pi).units)
  rw [F64.units_turn, F64.units_pi]
  rw [F64.units_pi] at heast
  refine F64.fits_grain 0 ?_ (by omega) (by omega)
  exact Int.dvd_sub hdvd ⟨14148475504056880, by ring⟩

theorem Convertible.add_turn {x : F64} (hx : Convertible x) (hwest : x.units < -F64.pi.units) :
    Binary64.Is (x + F64.ofUsize 2 * F64.pi).toFloat (x.units + 2 * F64.pi.units) := by
  have hpos := F64.grain_pos
  have hlow := hx.west
  have hdvd := F64.grain_dvd hx.isFinite 0 (by
    rw [F64.units_pi] at hwest
    omega)
  rw [F64.toFloat_add, ← F64.units_turn]
  refine Binary64.is_add hx.isFinite F64.isFinite_turn (k := 1023) (by omega) ?_
  show Binary64.Fits 1023 (x.units + (F64.ofUsize 2 * F64.pi).units)
  rw [F64.units_turn, F64.units_pi]
  rw [F64.units_pi] at hwest hlow
  refine F64.fits_grain 0 ?_ (by omega) (by omega)
  exact Int.dvd_add hdvd ⟨14148475504056880, by ring⟩

/-- The remainder brings back what is beyond one turn and a half. -/
theorem Convertible.rem_turn (hrem : arithmetic.rem = F64.rem) {x y : F64} (hx : Convertible x)
    (heast : 3 * F64.pi.units < x.units)
    (hy : Binary64.Is y.toFloat (x.units - 2 * F64.pi.units)) :
    Binary64.Is (arithmetic.rem (y + F64.pi) (F64.ofUsize 2 * F64.pi) - F64.pi).toFloat
      (x.units - 4 * F64.pi.units) := by
  have hpos := F64.grain_pos
  have hhigh := hx.east
  have hdvd := F64.grain_dvd hx.isFinite 2 (by
    rw [F64.units_pi] at heast
    omega)
  rw [F64.units_ten] at hhigh
  -- Adding half a turn is exact.
  have hsum : Binary64.Is (y + F64.pi).toFloat (x.units - F64.pi.units) := by
    have hunits : Binary64.unitsOf y.toFloat + F64.pi.units = x.units - F64.pi.units := by
      rw [hy.units]
      ring
    rw [F64.toFloat_add, ← hunits]
    refine Binary64.is_add hy.isFinite F64.isFinite_pi (k := 1025) (by omega) ?_
    show Binary64.Fits 1025 (Binary64.unitsOf y.toFloat + F64.pi.units)
    rw [hunits, F64.units_pi]
    rw [F64.units_pi] at heast
    refine F64.fits_grain 2 ?_ (by omega) (by omega)
    exact Int.dvd_sub hdvd ⟨1768559438007110, by ring⟩
  -- So is the remainder, which takes one turn off.
  have hone : (x.units - F64.pi.units).tmod (2 * F64.pi.units) = x.units - 3 * F64.pi.units := by
    have hpi : 0 < F64.pi.units := by
      rw [F64.units_pi]
      omega
    have hlt : x.units - 3 * F64.pi.units < 2 * F64.pi.units := by
      rw [F64.units_pi]
      omega
    rw [Int.tmod_eq_emod_of_nonneg (by omega),
      show x.units - F64.pi.units = x.units - 3 * F64.pi.units + 2 * F64.pi.units * 1 by ring,
      Int.add_mul_emod_self_left, Int.emod_eq_of_lt (by omega) hlt]
  have hmod : Binary64.Is ((y + F64.pi).rem (F64.ofUsize 2 * F64.pi)).toFloat
      (x.units - 3 * F64.pi.units) := by
    rw [← hone, ← F64.units_turn, ← hsum.units]
    refine F64.is_rem hsum.isFinite F64.isFinite_turn ?_
    rw [F64.units_turn, F64.units_pi]
    omega
  -- And so is taking half a turn back.
  have hunits : ((y + F64.pi).rem (F64.ofUsize 2 * F64.pi)).units - F64.pi.units =
      x.units - 4 * F64.pi.units := by
    rw [F64.units, hmod.units]
    ring
  rw [hrem, F64.toFloat_sub, ← hunits]
  refine Binary64.is_sub hmod.isFinite F64.isFinite_pi (k := 1025) (by omega) ?_
  show Binary64.Fits 1025 (((y + F64.pi).rem (F64.ofUsize 2 * F64.pi)).units - F64.pi.units)
  rw [hunits, F64.units_pi]
  rw [F64.units_pi] at heast
  refine F64.fits_grain 2 ?_ (by omega) (by omega)
  exact Int.dvd_sub hdvd ⟨7074237752028440, by ring⟩

theorem normalizeLongitude_spec (hrem : arithmetic.rem = F64.rem) {x : F64} (hx : Convertible x) :
    Turned x (normalizeLongitude arithmetic x) := by
  have hpi : 0 < F64.pi.units := by
    rw [F64.units_pi]
    exact Int.mul_pos (by omega) F64.grain_pos
  have hfour : x.units < 5 * F64.pi.units := by
    have hhigh := hx.east
    have hpos := F64.grain_pos
    rw [F64.units_ten] at hhigh
    rw [F64.units_pi]
    omega
  have hnegPi : (-F64.pi).isFinite = true := F64.pi_facts.2.2.2.2.2.2.2.1
  have hwest := hx.west
  unfold normalizeLongitude
  by_cases heast : F64.pi < x
  · have heast' := (F64.lt_iff F64.isFinite_pi hx.isFinite).1 heast
    have hless := hx.sub_turn heast'
    have hunits : (x - F64.ofUsize 2 * F64.pi).units = x.units - 2 * F64.pi.units := hless.units
    simp only [if_pos heast]
    by_cases hmore : F64.pi < x - F64.ofUsize 2 * F64.pi
    · have hmore' := (F64.lt_iff F64.isFinite_pi hless.isFinite).1 hmore
      have hback := hx.rem_turn hrem (by omega) hless
      have hunits' := hback.units
      rw [if_pos hmore]
      refine ⟨hback.isFinite, ?_, ?_, -2, ?_⟩
      · show -F64.pi.units ≤ Binary64.unitsOf _
        omega
      · show Binary64.unitsOf _ ≤ F64.pi.units
        omega
      · show Binary64.unitsOf _ = _
        omega
    · have hmore' := mt (F64.lt_iff F64.isFinite_pi hless.isFinite).2 hmore
      rw [if_neg hmore]
      exact ⟨hless.isFinite, by omega, by omega, -1, by omega⟩
  · have heast' := mt (F64.lt_iff F64.isFinite_pi hx.isFinite).2 heast
    simp only [if_neg heast]
    by_cases hbeyond : x < -F64.pi
    · have hbeyond' := (F64.lt_iff hx.isFinite hnegPi).1 hbeyond
      rw [F64.units_negPi] at hbeyond'
      have hmore := hx.add_turn hbeyond'
      have hunits : (x + F64.ofUsize 2 * F64.pi).units = x.units + 2 * F64.pi.units := hmore.units
      have hback : ¬x + F64.ofUsize 2 * F64.pi < -F64.pi := by
        rw [F64.lt_iff hmore.isFinite hnegPi, F64.units_negPi]
        omega
      rw [if_pos hbeyond, if_neg hback]
      exact ⟨hmore.isFinite, by omega, by omega, 1, by omega⟩
    · have hbeyond' := mt (F64.lt_iff hx.isFinite hnegPi).2 hbeyond
      rw [F64.units_negPi] at hbeyond'
      rw [if_neg hbeyond]
      exact ⟨hx.isFinite, by omega, by omega, 0, by omega⟩

/-- Half a turn from the prime meridian, whole turns aside. -/
def OnAntimeridian (x : F64) : Prop := ∃ n : Int, x.units = F64.pi.units + 2 * F64.pi.units * n

/-- Off the antimeridian, one longitude is within half a turn and whole turns away. -/
theorem Turned.units_eq {x x' y y' : F64} {k : Int} (hy : Turned x y) (hy' : Turned x' y')
    (hturns : x'.units = x.units + 2 * F64.pi.units * k) (hoff : ¬OnAntimeridian x) :
    y'.units = y.units := by
  obtain ⟨n, hn⟩ := hy.turns
  obtain ⟨m, hm⟩ := hy'.turns
  have hwest := hy.west
  have heast := hy.east
  have hwest' := hy'.west
  have heast' := hy'.east
  have hne : y.units ≠ -F64.pi.units := fun heq => hoff ⟨-n - 1, by linarith⟩
  have hne' : y.units ≠ F64.pi.units := fun heq => hoff ⟨-n, by linarith⟩
  have hapart : y'.units = y.units + 2 * F64.pi.units * (k + m - n) := by
    rw [hm, hturns, hn]
    ring
  have hpi : 0 < F64.pi.units := by
    rw [F64.units_pi]
    exact Int.mul_pos (by omega) F64.grain_pos
  have hnone : k + m - n = 0 := by
    by_contra hsome
    rcases Int.lt_or_gt_of_ne hsome with hneg | hpos
    · have hmul := Int.mul_le_mul_of_nonneg_left (show k + m - n ≤ -1 by omega)
        (show 0 ≤ 2 * F64.pi.units by omega)
      omega
    · have hmul := Int.mul_le_mul_of_nonneg_left (show 1 ≤ k + m - n by omega)
        (show 0 ≤ 2 * F64.pi.units by omega)
      omega
  rw [hapart, hnone, Int.mul_zero, Int.add_zero]

/-! ## Boxes and whole turns -/

/-- A box within half a turn of the prime meridian, or all the way around. -/
def Plain (box : Bounds) : Prop :=
  -F64.pi ≤ box.xmin ∧ box.xmax ≤ F64.pi ∨
    box.xmin ≤ -F64.ofUsize 10 ∧ F64.ofUsize 10 ≤ box.xmax

theorem normalizeLongitude_of_within {x : F64} (hx : x.isNan = false)
    (hwest : -F64.pi.units ≤ x.units) (heast : x.units ≤ F64.pi.units) :
    normalizeLongitude arithmetic x = x := by
  have hpi := F64.isNan_of_isFinite F64.isFinite_pi
  have hnegPi : (-F64.pi).isNan = false := F64.pi_facts.2.2.2.2.2.2.2.2.1
  rw [normalizeLongitude, if_neg, if_neg]
  · rw [F64.lt_iff_units hx hnegPi, F64.units_negPi]
    omega
  · rw [F64.lt_iff_units hpi hx]
    omega

/-- Of a geographic source only the latitude and the normalized longitude count. -/
theorem contains_eq (hgeographic : cs.srcGeographic = true) {p : Prepared}
    (hwest : -F64.pi ≤ p.bbox.xmin) (heast : p.bbox.xmax ≤ F64.pi) (x y : F64) :
    cs.contains arithmetic p (x, y) =
      ((decide (p.bbox.ymin ≤ y) && decide (y ≤ p.bbox.ymax)) &&
        (decide (p.bbox.xmin ≤ normalizeLongitude arithmetic x) &&
          decide (normalizeLongitude arithmetic x ≤ p.bbox.xmax))) := by
  unfold contains
  rw [hgeographic]
  by_cases hx : p.bbox.xmin ≤ x ∧ x ≤ p.bbox.xmax
  · have hinside : normalizeLongitude arithmetic x = x := by
      obtain ⟨hmin, hnan⟩ := F64.isNan_of_le hx.1
      obtain ⟨hnegPi, -⟩ := F64.isNan_of_le hwest
      obtain ⟨hmax, hpi⟩ := F64.isNan_of_le heast
      have hlow := (F64.le_iff_units hmin hnan).1 hx.1
      have hhigh := (F64.le_iff_units hnan hmax).1 hx.2
      rw [F64.le_iff_units hnegPi hmin, F64.units_negPi] at hwest
      rw [F64.le_iff_units hmax hpi] at heast
      exact normalizeLongitude_of_within hnan (by omega) (by omega)
    rw [hinside]
    simp [hx]
  · have hout : (decide (p.bbox.xmin ≤ x) && decide (x ≤ p.bbox.xmax)) = false := by
      rw [← Bool.decide_and]
      exact decide_eq_false hx
    simp [hout]

theorem Convertible.within {x west east : F64} (hx : Convertible x)
    (hwest : west ≤ -F64.ofUsize 10) (heast : F64.ofUsize 10 ≤ east) : west ≤ x ∧ x ≤ east := by
  have hnan := F64.isNan_of_isFinite hx.isFinite
  obtain ⟨hten, hfar⟩ := F64.pi_facts.2.2.2.2.2.2.2.2.2
  have hlow := hx.west
  have hhigh := hx.east
  obtain ⟨hw, hw'⟩ := F64.isNan_of_le hwest
  obtain ⟨he', he⟩ := F64.isNan_of_le heast
  rw [F64.le_iff_units hw hw', hten] at hwest
  rw [F64.le_iff_units he' he] at heast
  rw [F64.le_iff_units hw hnan, F64.le_iff_units hnan he]
  omega

/-- Whole turns don't change what contains a point. -/
theorem contains_turns (hrem : arithmetic.rem = F64.rem) (hgeographic : cs.srcGeographic = true)
    {p : Prepared} (hbox : Plain p.bbox) {x x' : F64} {k : Int} (hx : Convertible x)
    (hx' : Convertible x') (hturns : x'.units = x.units + 2 * F64.pi.units * k)
    (hoff : ¬OnAntimeridian x) (y : F64) :
    cs.contains arithmetic p (x', y) = cs.contains arithmetic p (x, y) := by
  rcases hbox with ⟨hwest, heast⟩ | ⟨hwest, heast⟩
  · have hspec := normalizeLongitude_spec hrem hx
    have hspec' := normalizeLongitude_spec hrem hx'
    have hunits := hspec.units_eq hspec' hturns hoff
    have hnan := F64.isNan_of_isFinite hspec.isFinite
    have hnan' := F64.isNan_of_isFinite hspec'.isFinite
    obtain ⟨-, hmin⟩ := F64.isNan_of_le hwest
    obtain ⟨hmax, -⟩ := F64.isNan_of_le heast
    rw [contains_eq hgeographic hwest heast, contains_eq hgeographic hwest heast]
    simp only [F64.le_iff_units hmin hnan, F64.le_iff_units hmin hnan', F64.le_iff_units hnan hmax,
      F64.le_iff_units hnan' hmax, hunits]
  · unfold contains
    obtain ⟨hlow, hhigh⟩ := hx.within hwest heast
    obtain ⟨hlow', hhigh'⟩ := hx'.within hwest heast
    simp only [hlow, hhigh, hlow', hhigh', decide_true, Bool.true_and]
    cases decide (p.bbox.ymin ≤ y) && decide (y ≤ p.bbox.ymax) <;> simp

/-! ## The choice -/

theorem suggest_leads (arithmetic : Arithmetic) (cs : Candidates) (point : F64 × F64)
    (excluded : List Nat) {ρ : Type} [Recorder ρ] (told : ρ) :
    Leads arithmetic cs point excluded cs.list.length
      (cs.suggestFrom arithmetic point excluded 0 cs.list none told).1 := by
  have hrun := leads_suggestFrom arithmetic cs point excluded cs.list 0 none told
    (fun k p => by rw [At, Nat.zero_add])
    (fun j _ hj => absurd hj (Nat.not_lt_zero j))
  rwa [Nat.zero_add] at hrun

/-- What is chosen, and what is not. -/
theorem suggest_cases (arithmetic : Arithmetic) (cs : Candidates) (point : F64 × F64)
    (excluded : List Nat) {ρ : Type} [Recorder ρ] (told : ρ) :
    ((cs.suggest arithmetic point excluded told).1 = none ∧
      ∀ j p, ¬InScope arithmetic cs point excluded j p) ∨
    ∃ i p, (cs.suggest arithmetic point excluded told).1 = some (i, p) ∧
      InScope arithmetic cs point excluded i p ∧
      (Known p.accuracy → Unbeaten arithmetic cs point excluded cs.list.length p.accuracy) ∧
      (¬Known p.accuracy → StartsUnknown arithmetic cs point excluded) := by
  have hleads := suggest_leads arithmetic cs point excluded told
  have hsuggest : (cs.suggest arithmetic point excluded told).1 =
      (cs.suggestFrom arithmetic point excluded 0 cs.list none told).1.map
        fun best => (best.place, best.alt) := rfl
  rw [hsuggest]
  cases hbest : (cs.suggestFrom arithmetic point excluded 0 cs.list none told).1 with
  | none =>
    rw [hbest] at hleads
    refine .inl ⟨rfl, fun j p hp => hleads j p ?_ hp⟩
    exact (List.getElem?_eq_some_iff.1 hp.at_).1
  | some best =>
    rw [hbest] at hleads
    obtain ⟨hscope, haccuracy, hknown, hunknown⟩ := hleads
    rw [haccuracy] at hknown hunknown
    exact .inr ⟨best.place, best.alt, rfl, hscope, hknown, hunknown⟩

/-- A candidate is chosen exactly when there is one to choose.  None that may be chosen is
of a known accuracy better than the number that its accuracy is; it is of unknown accuracy
only where the first one to choose from is.  Whole turns don't change what contains a
point of a geographic source. -/
theorem suggest_prefers (arithmetic : Arithmetic) (hrem : arithmetic.rem = F64.rem)
    (cs : Candidates) (excluded : List Nat) {ρ : Type} [Recorder ρ] (told : ρ) :
    (∀ point, (cs.suggest arithmetic point excluded told).1.isSome = true ↔
      ∃ i p, InScope arithmetic cs point excluded i p) ∧
    (∀ point i p, (cs.suggest arithmetic point excluded told).1 = some (i, p) →
      InScope arithmetic cs point excluded i p ∧
      (∀ j other, InScope arithmetic cs point excluded j other → other.offshore = false →
        Known other.accuracy → ¬other.accuracy < p.accuracy) ∧
      (¬Known p.accuracy → StartsUnknown arithmetic cs point excluded)) ∧
    (cs.srcGeographic = true → ∀ p ∈ cs.list, Plain p.bbox → ∀ (x x' y : F64) (k : Int),
      Convertible x → Convertible x' → x'.units = x.units + 2 * F64.pi.units * k →
      ¬OnAntimeridian x →
      cs.contains arithmetic p (x', y) = cs.contains arithmetic p (x, y)) := by
  refine ⟨fun point => ?_, fun point i p hchosen => ?_, ?_⟩
  · rcases suggest_cases arithmetic cs point excluded told with
      ⟨hnone, hnobody⟩ | ⟨i, p, hsome, hscope, -⟩
    · rw [hnone]
      exact ⟨nofun, fun ⟨i, p, hp⟩ => absurd hp (hnobody i p)⟩
    · rw [hsome]
      exact ⟨fun _ => ⟨i, p, hscope⟩, fun _ => rfl⟩
  · rcases suggest_cases arithmetic cs point excluded told with
      ⟨hnone, -⟩ | ⟨i', p', hsome, hscope, hknown, hunknown⟩
    · rw [hnone] at hchosen
      cases hchosen
    · rw [hsome] at hchosen
      cases hchosen
      refine ⟨hscope, fun j other hother hoffshore haccuracy hbetter => ?_, hunknown⟩
      have hlength : j < cs.list.length := (List.getElem?_eq_some_iff.1 hother.at_).1
      refine hknown ?_ j other hlength hother hoffshore haccuracy hbetter
      -- Better than a known accuracy, the one chosen is of known accuracy, too.
      obtain ⟨hnan, hnan'⟩ := F64.isNan_of_lt hbetter
      rw [Known, F64.le_iff_units F64.isNan_zero hnan, F64.units_zero] at haccuracy
      rw [F64.lt_iff_units hnan hnan'] at hbetter
      rw [Known, F64.le_iff_units F64.isNan_zero hnan', F64.units_zero]
      omega
  · intro hgeographic p _ hbox x x' y k hx hx' hturns hoff
    exact contains_turns hrem hgeographic hbox hx hx' hturns hoff y

/-! ## A prime meridian east of Greenwich -/

/-- An area that begins at the antimeridian of Greenwich. -/
def westernmost : Extent :=
  ⟨some "westernmost", -F64.ofUsize 180, F64.zero, -F64.ofUsize 170, F64.ofUsize 10⟩

/-- Longitudes from a meridian a 32nd of a radian east of Greenwich. -/
def easternMeridian : Crs :=
  ⟨"east of Greenwich", none, .geographic { sphere with primeMeridian := ⟨0x3fa0000000000000⟩ },
    plainAxes, none, none⟩

/-- The search answers with one candidate for the area. -/
def oneAnswer : Backend :=
  { answering [candidate "westernmost" 1 westernmost] with
    arithmetic := ⟨id, id, F64.rem, fun v _ => v, fun v _ => v⟩ }

/-- Half a turn and a bit to the west. -/
def pastAntimeridian : F64 := ⟨0xc009400000000000⟩

/-- One turn on. -/
def oneTurnOn : F64 := pastAntimeridian + F64.ofUsize 2 * F64.pi

/-- Whether the candidates contain the two points at the latitude 0, one after the other. -/
def containing : Option (List (Bool × Bool)) :=
  match Candidates.new oneAnswer easternMeridian plainCrs
    [candidate "westernmost" 1 westernmost] with
  | .ok cs => some (cs.list.map fun p =>
      (cs.contains oneAnswer.arithmetic p (pastAntimeridian, F64.zero),
        cs.contains oneAnswer.arithmetic p (oneTurnOn, F64.zero)))
  | .error _ => none

theorem containing_eq : containing = some [(true, false)] := by decide +kernel

theorem srcGeographic_of_new {backend : Backend} {src dst : Crs} {sorted : List Candidate}
    {cs : Candidates} (h : Candidates.new backend src dst sorted = .ok cs) :
    cs.srcGeographic = src.isGeographic := by
  unfold Candidates.new at h
  simp only at h
  generalize prepareAll backend src _ = prepared at h
  generalize usableCandidates backend src dst sorted = usable at h
  split at h
  · cases h
    rfl
  · split at h
    · cases h
    · cases h
      rfl

/-- The candidates prepared for that meridian. -/
theorem exists_containing : ∃ cs p,
    Candidates.new oneAnswer easternMeridian plainCrs [candidate "westernmost" 1 westernmost] =
      .ok cs ∧ cs.srcGeographic = true ∧ cs.list = [p] ∧
      cs.contains oneAnswer.arithmetic p (pastAntimeridian, F64.zero) = true ∧
      cs.contains oneAnswer.arithmetic p (oneTurnOn, F64.zero) = false := by
  have hboth := containing_eq
  unfold containing at hboth
  cases hnew : Candidates.new oneAnswer easternMeridian plainCrs
      [candidate "westernmost" 1 westernmost] with
  | error e =>
    rw [hnew] at hboth
    cases hboth
  | ok cs =>
    rw [hnew] at hboth
    simp only [Option.some.injEq] at hboth
    obtain ⟨p, hlist, hp⟩ := List.map_eq_singleton_iff.1 hboth
    obtain ⟨hin, hout⟩ := Prod.mk.inj hp
    exact ⟨cs, p, rfl, srcGeographic_of_new hnew, hlist, hin, hout⟩

/-- A box beyond half a turn contains a longitude but not the same one a turn on. -/
theorem contains_beyondHalfTurn :
    ¬∀ backend src dst sorted cs, Candidates.new backend src dst sorted = .ok cs →
      cs.srcGeographic = true → ∀ p ∈ cs.list, ∀ x x' y : F64,
      x.abs ≤ F64.ofUsize 10 → x'.abs ≤ F64.ofUsize 10 →
      x'.units = x.units + 2 * F64.pi.units →
      cs.contains backend.arithmetic p (x', y) = cs.contains backend.arithmetic p (x, y) := by
  intro h
  obtain ⟨cs, p, hnew, hgeographic, hlist, hin, hout⟩ := exists_containing
  have hsame := h oneAnswer easternMeridian plainCrs _ cs hnew hgeographic p
    (by rw [hlist]; exact List.mem_singleton_self p) pastAntimeridian oneTurnOn F64.zero
    (by decide +kernel) (by decide +kernel) (by decide +kernel)
  rw [hin, hout] at hsame
  cases hsame

/-- The candidate is chosen. -/
theorem suggest_prefers_pastAntimeridian : ∃ cs,
    Candidates.new oneAnswer easternMeridian plainCrs [candidate "westernmost" 1 westernmost] =
      .ok cs ∧
    (cs.suggest oneAnswer.arithmetic (pastAntimeridian, F64.zero) [] ()).1.isSome = true := by
  obtain ⟨cs, p, hnew, -, hlist, hin, -⟩ := exists_containing
  refine ⟨cs, hnew, ((suggest_prefers oneAnswer.arithmetic rfl cs [] ()).1 _).2 ⟨0, p, ?_, ?_, hin⟩⟩
  · show cs.list[0]? = some p
    rw [hlist]
    rfl
  · exact List.not_mem_nil

end Xeibe.Reproject.Select.Candidates

import Mathlib.Data.Real.Basic
import Xeibe.Lib.Arcs
import Xeibe.Reproject.Select.Search.NextDouble

/-!
# Areas of use as sets of points

An extent is a range of latitudes and an arc of longitudes, in degrees.  Containment,
meeting and intersection of extents are those of `Lib.Arc` on the longitudes.
-/

namespace Xeibe.Geom.F64

open Xeibe.Lib

local instance two_atLeastTwo : Nat.AtLeastTwo 2 := ⟨le_rfl⟩

/-- The number that a double stands for. -/
noncomputable def value (x : F64) : ℝ := x.units / 2 ^ 1074

theorem value_le_iff {a b : F64} : a.value ≤ b.value ↔ a.units ≤ b.units := by
  have hpos : (0 : ℝ) < 2 ^ 1074 := by positivity
  rw [value, value, div_le_div_iff_of_pos_right hpos, Int.cast_le]

theorem le_iff_value {a b : F64} (ha : a.isNan = false) (hb : b.isNan = false) :
    a ≤ b ↔ a.value ≤ b.value := by
  rw [le_iff_units ha hb, value_le_iff]

theorem lt_iff_value {a b : F64} (ha : a.isNan = false) (hb : b.isNan = false) :
    a < b ↔ a.value < b.value := by
  rw [lt_iff_units ha hb, ← not_le, ← not_le, value_le_iff]

theorem eq_iff_value {a b : F64} (ha : a.isNan = false) (hb : b.isNan = false) :
    a.eq b = true ↔ a.value = b.value := by
  rw [eq_iff_units ha hb, le_antisymm_iff, le_antisymm_iff, value_le_iff, value_le_iff]

@[simp] theorem value_neg (a : F64) : (-a).value = -a.value := by
  rw [value, units_neg, value, Int.cast_neg, neg_div]

theorem units_ofUsize {i : Nat} (hi : i < 2 ^ 53) : (ofUsize i).units = (i * Binary64.one : Nat) := by
  rw [units, toFloat_ofUsize, Binary64.unitsOf, Binary64.natural_unpack hi]
  rcases Nat.eq_zero_or_pos i with rfl | hpos
  · rw [Nat.zero_mul]
    rfl
  · obtain ⟨m, k, h, hunpack, hvalue, -⟩ := Binary64.unpack_natural hpos hi
    rw [hunpack, Binary64.units_finite, hvalue]
    rfl

theorem isFinite_ofUsize {i : Nat} (hi : i < 2 ^ 53) : (ofUsize i).isFinite = true := by
  show (ofUsize i).toFloat.toModel.unpack.isFinite = true
  rw [toFloat_ofUsize, Binary64.natural_unpack hi]
  rcases Nat.eq_zero_or_pos i with rfl | hpos
  · rfl
  · obtain ⟨m, k, h, hunpack, -⟩ := Binary64.unpack_natural hpos hi
    rw [hunpack]
    rfl

theorem value_ofUsize {i : Nat} (hi : i < 2 ^ 53) : (ofUsize i).value = i := by
  have hpos : (2 : ℝ) ^ 1074 ≠ 0 := by positivity
  have hone : ((Binary64.one : Nat) : ℝ) = 2 ^ 1074 := by
    rw [Binary64.one, Nat.cast_pow, Nat.cast_ofNat]
  rw [value, units_ofUsize hi, Int.cast_natCast, Nat.cast_mul, hone, mul_div_cancel_right₀ _ hpos]

/-! ## Numbers in a range -/

theorem value_max {a b : F64} (ha : a.isNan = false) (hb : b.isNan = false) :
    (a.max b).value = Max.max a.value b.value ∧ (a.max b).isNan = false := by
  have hmax : a.max b = if a < b then b else a := by
    rw [max, ha, hb, if_neg Bool.false_ne_true, if_neg Bool.false_ne_true]
  rw [hmax]
  split
  · rename_i hlt
    rw [lt_iff_value ha hb] at hlt
    exact ⟨(max_eq_right hlt.le).symm, hb⟩
  · rename_i hlt
    rw [lt_iff_value ha hb, not_lt] at hlt
    exact ⟨(max_eq_left hlt).symm, ha⟩

theorem value_min {a b : F64} (ha : a.isNan = false) (hb : b.isNan = false) :
    (a.min b).value = Min.min a.value b.value ∧ (a.min b).isNan = false := by
  have hmin : a.min b = if b < a then b else a := by
    rw [min, ha, hb, if_neg Bool.false_ne_true, if_neg Bool.false_ne_true]
  rw [hmin]
  split
  · rename_i hlt
    rw [lt_iff_value hb ha] at hlt
    exact ⟨(min_eq_right hlt.le).symm, hb⟩
  · rename_i hlt
    rw [lt_iff_value hb ha, not_lt] at hlt
    exact ⟨(min_eq_left hlt).symm, ha⟩

/-- From `-limit` to `limit`. -/
def Within (limit : Nat) (x : F64) : Prop := -ofUsize limit ≤ x ∧ x ≤ ofUsize limit

instance (limit : Nat) (x : F64) : Decidable (x.Within limit) := inferInstanceAs (Decidable (_ ∧ _))

theorem Within.isNan {limit : Nat} {x : F64} (h : x.Within limit) : x.isNan = false :=
  (isNan_of_le h.1).2

theorem within_iff {limit : Nat} (hlimit : limit < 2 ^ 53) {x : F64} :
    x.Within limit ↔ x.isNan = false ∧ -(limit : ℝ) ≤ x.value ∧ x.value ≤ limit := by
  have hnan := isNan_of_isFinite (isFinite_ofUsize hlimit)
  have hvalue := value_ofUsize hlimit
  rw [Within, ← hvalue, ← value_neg]
  constructor
  · intro h
    have hx := Within.isNan h
    exact ⟨hx, (le_iff_value ((isNan_neg _).trans hnan) hx).1 h.1, (le_iff_value hx hnan).1 h.2⟩
  · rintro ⟨hx, hlow, hhigh⟩
    exact ⟨(le_iff_value ((isNan_neg _).trans hnan) hx).2 hlow, (le_iff_value hx hnan).2 hhigh⟩

theorem Within.isFinite {limit : Nat} (hlimit : limit < 2 ^ 53) {x : F64} (h : x.Within limit) :
    x.isFinite = true :=
  isFinite_of_between ((isFinite_neg _).trans (isFinite_ofUsize hlimit)) (isFinite_ofUsize hlimit)
    h.1 h.2

theorem Within.max {limit : Nat} (hlimit : limit < 2 ^ 53) {x y : F64} (hx : x.Within limit)
    (hy : y.Within limit) : (x.max y).Within limit := by
  obtain ⟨hvalue, hnan⟩ := value_max hx.isNan hy.isNan
  obtain ⟨-, hlow, hhigh⟩ := (within_iff hlimit).1 hx
  obtain ⟨-, -, hhigh'⟩ := (within_iff hlimit).1 hy
  refine (within_iff hlimit).2 ⟨hnan, ?_, ?_⟩ <;> rw [hvalue]
  · exact hlow.trans (le_max_left _ _)
  · exact max_le hhigh hhigh'

theorem Within.min {limit : Nat} (hlimit : limit < 2 ^ 53) {x y : F64} (hx : x.Within limit)
    (hy : y.Within limit) : (x.min y).Within limit := by
  obtain ⟨hvalue, hnan⟩ := value_min hx.isNan hy.isNan
  obtain ⟨-, hlow, hhigh⟩ := (within_iff hlimit).1 hx
  obtain ⟨-, hlow', -⟩ := (within_iff hlimit).1 hy
  refine (within_iff hlimit).2 ⟨hnan, ?_, ?_⟩ <;> rw [hvalue]
  · exact le_min hlow hlow'
  · exact (min_le_left _ _).trans hhigh

theorem next_value {x y : F64} (h : Next x y) : x.value < y.value := by
  rw [← not_le, value_le_iff, not_le]
  exact h.above

theorem previous_value {x y : F64} (h : Previous x y) : y.value < x.value := by
  rw [← not_le, value_le_iff, not_le]
  exact h.below

theorem next_le {x y z : F64} (h : Next x y) (hz : z.isNan = false) (hlt : x.value < z.value) :
    y.value ≤ z.value := by
  rw [← not_le, value_le_iff, not_le] at hlt
  exact value_le_iff.2 (h.nearest z hz hlt)

theorem le_previous {x y z : F64} (h : Previous x y) (hz : z.isNan = false)
    (hlt : z.value < x.value) : z.value ≤ y.value := by
  rw [← not_le, value_le_iff, not_le] at hlt
  exact value_le_iff.2 (h.nearest z hz hlt)

theorem nextUp_congr {x y : F64} (hx : x.isFinite = true) (hy : y.isFinite = true)
    (h : x.value = y.value) : x.nextUp.value = y.nextUp.value := by
  have hnext := nextUp_spec hx
  have hnext' := nextUp_spec hy
  exact le_antisymm (next_le hnext hnext'.isNan (h.trans_lt (next_value hnext')))
    (next_le hnext' hnext.isNan (h.symm.trans_lt (next_value hnext)))

theorem Within.nextDown {limit : Nat} (hlimit : limit < 2 ^ 53) {x : F64} (h : x.Within limit)
    (hlt : -ofUsize limit < x) : x.nextDown.Within limit ∧ x.nextDown.value < x.value := by
  have hprevious := nextDown_spec (h.isFinite hlimit)
  have hbelow := previous_value hprevious
  obtain ⟨hlow, hx⟩ := isNan_of_lt hlt
  obtain ⟨-, -, hhigh⟩ := (within_iff hlimit).1 h
  have hle := le_previous hprevious hlow ((lt_iff_value hlow hx).1 hlt)
  rw [value_neg, value_ofUsize hlimit] at hle
  exact ⟨(within_iff hlimit).2 ⟨hprevious.isNan, hle, hbelow.le.trans hhigh⟩, hbelow⟩

theorem Within.nextUp {limit : Nat} (hlimit : limit < 2 ^ 53) {x : F64} (h : x.Within limit)
    (hlt : x < ofUsize limit) : x.nextUp.Within limit ∧ x.value < x.nextUp.value := by
  have hnext := nextUp_spec (h.isFinite hlimit)
  have habove := next_value hnext
  obtain ⟨hx, hhigh⟩ := isNan_of_lt hlt
  obtain ⟨-, hlow, -⟩ := (within_iff hlimit).1 h
  have hle := next_le hnext hhigh ((lt_iff_value hx hhigh).1 hlt)
  rw [value_ofUsize hlimit] at hle
  exact ⟨(within_iff hlimit).2 ⟨hnext.isNan, hlow.trans habove.le, hle⟩, habove⟩

end Xeibe.Geom.F64

namespace Xeibe.Reproject.Select.Extent

open Xeibe.Geom (F64)
open Xeibe.Lib

/-! ## Extents -/

/-- An extent in degrees, with more than one meridian. -/
structure Proper (e : Extent) : Prop where
  west : e.west.Within 180
  east : e.east.Within 180
  south : e.south.Within 90
  north : e.north.Within 90
  west_ne_east : e.west.eq e.east = false

section

variable {limit : Nat} (hlimit : limit < 2 ^ 53)

include hlimit

theorem lowered {x : F64} (h : x.Within limit) :
    let x' := if -F64.ofUsize limit < x then x.nextDown else x
    x'.Within limit ∧ (x'.value < x.value ∨ x'.value = x.value ∧ x.value = -limit) := by
  intro x'
  by_cases hlt : -F64.ofUsize limit < x
  · obtain ⟨hwithin, hbelow⟩ := h.nextDown hlimit hlt
    simp only [x', if_pos hlt]
    exact ⟨hwithin, .inl hbelow⟩
  · obtain ⟨hx, hlow, -⟩ := (F64.within_iff hlimit).1 h
    have hnan := (F64.isNan_neg _).trans (F64.isNan_of_isFinite (F64.isFinite_ofUsize hlimit))
    simp only [x', if_neg hlt]
    rw [F64.lt_iff_value hnan hx, F64.value_neg, F64.value_ofUsize hlimit, not_lt] at hlt
    exact ⟨h, .inr ⟨trivial, le_antisymm hlt hlow⟩⟩

theorem raised {x : F64} (h : x.Within limit) :
    let x' := if x < F64.ofUsize limit then x.nextUp else x
    x'.Within limit ∧ (x.value < x'.value ∨ x'.value = x.value ∧ x.value = limit) := by
  intro x'
  by_cases hlt : x < F64.ofUsize limit
  · obtain ⟨hwithin, habove⟩ := h.nextUp hlimit hlt
    simp only [x', if_pos hlt]
    exact ⟨hwithin, .inl habove⟩
  · obtain ⟨hx, -, hhigh⟩ := (F64.within_iff hlimit).1 h
    have hnan := F64.isNan_of_isFinite (F64.isFinite_ofUsize hlimit)
    simp only [x', if_neg hlt]
    rw [F64.lt_iff_value hx hnan, F64.value_ofUsize hlimit, not_lt] at hlt
    exact ⟨h, .inr ⟨trivial, le_antisymm hhigh hlt⟩⟩

/-- The ends of a line are widened, within the limit. -/
theorem widened (hpos : 0 < limit) {low high : F64} (hlow : low.Within limit)
    (hhigh : high.Within limit) :
    let low' := if low.eq high && decide (-F64.ofUsize limit < low) then low.nextDown else low
    let high' := if low.eq high && decide (high < F64.ofUsize limit) then high.nextUp else high
    low'.Within limit ∧ high'.Within limit ∧ low'.eq high' = false := by
  intro low' high'
  by_cases heq : low.eq high = true
  · have hvalue := (F64.eq_iff_value hlow.isNan hhigh.isNan).1 heq
    obtain ⟨hlow', hbelow⟩ := lowered hlimit hlow
    obtain ⟨hhigh', habove⟩ := raised hlimit hhigh
    simp only [low', high', heq, Bool.true_and, decide_eq_true_eq]
    refine ⟨hlow', hhigh', ?_⟩
    rw [Bool.eq_false_iff, ne_eq, F64.eq_iff_value hlow'.isNan hhigh'.isNan]
    have hlimits : -(limit : ℝ) < limit := by
      have hreal : (0 : ℝ) < limit := Nat.cast_pos.2 hpos
      linarith
    rcases hbelow with hbelow | ⟨hbelow, hedge⟩ <;> rcases habove with habove | ⟨habove, hedge'⟩ <;>
      intro hsame <;> linarith
  · rw [Bool.not_eq_true] at heq
    simp only [low', high', heq, Bool.false_and, Bool.false_eq_true, if_false]
    exact ⟨hlow, hhigh, trivial⟩

end

theorem new_proper {name : Option String} {west south east north : F64} (hwest : west.Within 180)
    (hsouth : south.Within 90) (heast : east.Within 180) (hnorth : north.Within 90) :
    (new name west south east north).Proper := by
  obtain ⟨hw, he, hne⟩ := widened (by decide) (by decide) hwest heast
  obtain ⟨hs, hn, -⟩ := widened (by decide) (by decide) hsouth hnorth
  exact ⟨hw, he, hs, hn, hne⟩

/-! ## Points -/

/-- The longitudes of an extent, in degrees. -/
noncomputable def arc (e : Extent) : Lib.Arc ℝ := ⟨e.west.value, e.east.value⟩

/-- A place on the globe, in degrees. -/
structure Point where
  lon : ℝ
  lat : ℝ
  low_le_lon : -180 ≤ lon
  lon_le_high : lon ≤ 180

/-- The points of an extent. -/
def Covers (e : Extent) (p : Point) : Prop :=
  e.south.value ≤ p.lat ∧ p.lat ≤ e.north.value ∧ e.arc.Mem p.lon

variable {a b : Extent}

theorem Proper.arc {e : Extent} (h : e.Proper) : e.arc.Proper (-180) 180 := by
  obtain ⟨hw, hlow, hhigh⟩ := (F64.within_iff (by decide)).1 h.west
  obtain ⟨he, hlow', hhigh'⟩ := (F64.within_iff (by decide)).1 h.east
  have hne := h.west_ne_east
  rw [Bool.eq_false_iff, ne_eq, F64.eq_iff_value hw he] at hne
  exact ⟨hlow, hhigh, hlow', hhigh', hne⟩

theorem isAround_iff {e : Extent} (hw : e.west.isNan = false) (he : e.east.isNan = false) :
    e.isAround = true ↔ e.arc.Around (-180) 180 := by
  have hnan := F64.isNan_of_isFinite (F64.isFinite_ofUsize (i := 180) (by decide))
  have hvalue := F64.value_ofUsize (i := 180) (by decide)
  rw [isAround, Bool.and_eq_true, F64.eq_iff_value hw ((F64.isNan_neg _).trans hnan),
    F64.eq_iff_value he hnan, F64.value_neg, hvalue]
  norm_num [Lib.Arc.Around, arc]

/-- `contains`, of latitudes and longitudes apart. -/
theorem contains_iff (ha : a.Proper) (hb : b.Proper) :
    a.contains b = true ↔ (a.south.value ≤ b.south.value ∧ b.north.value ≤ a.north.value) ∧
      a.arc.Contains (-180) 180 b.arc := by
  have haw := ha.west.isNan
  have hae := ha.east.isNan
  have hbw := hb.west.isNan
  have hbe := hb.east.isNan
  have hne : (!b.west.eq b.east) = true ↔ b.west.value ≠ b.east.value := by
    rw [Bool.not_eq_true', Bool.eq_false_iff, ne_eq, F64.eq_iff_value hbw hbe]
  rw [← F64.le_iff_value ha.south.isNan hb.south.isNan,
    ← F64.le_iff_value hb.north.isNan ha.north.isNan]
  unfold contains Lib.Arc.Contains
  simp only [← isAround_iff haw hae, ← isAround_iff hbw hbe]
  show _ ↔ _ ∧ if a.isAround = true then b.west.value ≠ b.east.value
    else if b.isAround = true then False
    else if a.west.value < a.east.value then
      b.west.value < b.east.value ∧ a.west.value ≤ b.west.value ∧ b.east.value ≤ a.east.value
    else if b.west.value < b.east.value then
      a.west.value ≤ b.west.value ∨ b.east.value ≤ a.east.value
    else a.west.value ≤ b.west.value ∧ b.east.value ≤ a.east.value
  simp only [← hne, ← F64.lt_iff_value haw hae, ← F64.lt_iff_value hbw hbe,
    ← F64.le_iff_value haw hbw, ← F64.le_iff_value hbe hae]
  by_cases hlat : a.south ≤ b.south ∧ b.north ≤ a.north
  · rw [if_neg (by simp [hlat.1, hlat.2])]
    split_ifs <;> simp [hlat, and_assoc]
  · have hapart : (!(decide (a.south ≤ b.south) && decide (b.north ≤ a.north))) = true := by
      rw [Bool.not_eq_true', ← Bool.decide_and]
      exact decide_eq_false hlat
    rw [if_pos hapart]
    exact ⟨nofun, fun h => absurd h.1 hlat⟩

/-! ## What two extents have in common -/

/-- Whether the latitudes of two extents meet. -/
def MeetsLat (a b : Extent) : Prop := b.south.value ≤ a.north.value ∧ a.south.value ≤ b.north.value

theorem MeetsLat.symm (h : MeetsLat a b) : MeetsLat b a := ⟨h.2, h.1⟩

/-- An extent in degrees, or a part of one. -/
structure Bounded (e : Extent) : Prop where
  west : e.west.Within 180
  east : e.east.Within 180
  south : e.south.Within 90
  north : e.north.Within 90

theorem Proper.bounded {e : Extent} (h : e.Proper) : e.Bounded := ⟨h.west, h.east, h.south, h.north⟩

theorem within_ofUsize (limit : Nat) (hlimit : limit < 2 ^ 53) :
    (F64.ofUsize limit).Within limit ∧ (-F64.ofUsize limit).Within limit := by
  have hnan := F64.isNan_of_isFinite (F64.isFinite_ofUsize hlimit)
  have hpos : (0 : ℝ) ≤ limit := Nat.cast_nonneg limit
  rw [F64.within_iff hlimit, F64.within_iff hlimit, F64.isNan_neg, F64.value_neg,
    F64.value_ofUsize hlimit]
  exact ⟨⟨hnan, by linarith, le_refl _⟩, hnan, le_refl _, by linarith⟩

theorem Bounded.eastOf {e : Extent} (h : e.Bounded) : e.eastOf.Bounded :=
  ⟨h.west, (within_ofUsize _ (by decide)).1, h.south, h.north⟩

theorem Bounded.westOf {e : Extent} (h : e.Bounded) : e.westOf.Bounded :=
  ⟨(within_ofUsize _ (by decide)).2, h.east, h.south, h.north⟩

local instance half_atLeastTwo : Nat.AtLeastTwo 180 := ⟨by decide⟩

/-- The arcs that two extents have in common. -/
noncomputable def commonArcs (a b : Extent) : List (Lib.Arc ℝ) := Lib.Arc.common (-180) 180 a.arc b.arc

/-- A box on one of the arcs that two extents have in common, as far as their
latitudes. -/
structure Shared (a b : Extent) (arcs : List (Lib.Arc ℝ)) (r : Extent) : Prop where
  bounded : r.Bounded
  arc : r.arc ∈ arcs
  south : r.south.value = max a.south.value b.south.value
  north : r.north.value = min a.north.value b.north.value

theorem apart_iff (ha : a.Bounded) (hb : b.Bounded) :
    (a.north < b.south ∨ b.north < a.south) ↔ ¬MeetsLat a b := by
  rw [MeetsLat, F64.lt_iff_value ha.north.isNan hb.south.isNan,
    F64.lt_iff_value hb.north.isNan ha.south.isNan, ← not_le, ← not_le, not_and_or]

theorem intersectsAt_eq (depth : Nat) (a b : Extent) :
    intersectsAt depth a b = (boxIntersectionAt depth a b).isSome := by
  induction depth generalizing a b with
  | zero => rfl
  | succ depth ih =>
    have hwider : ∀ x y : Option Extent, (wider x y).isSome = (x.isSome || y.isSome) := by
      intro x y
      cases x <;> cases y <;> simp only [wider] <;> try rfl
      split <;> rfl
    unfold intersectsAt boxIntersectionAt
    simp only [ih]
    split_ifs <;> simp_all

/-- What the boxes that don't cross the antimeridian have in common. -/
def overlapBox (a b : Extent) : Option Extent :=
  if a.west.max b.west < a.east.min b.east then
    some (bbox (a.west.max b.west) (a.south.max b.south) (a.east.min b.east) (a.north.min b.north))
  else
    none

/-- What is found is one of the boxes on these arcs, and something is if there are any. -/
def Finds (a b : Extent) (arcs : List (Lib.Arc ℝ)) : Option Extent → Prop
  | none => arcs = []
  | some r => Shared a b arcs r

theorem Finds.swap {arcs : List (Lib.Arc ℝ)} {found : Option Extent} (h : Finds a b arcs found) :
    Finds b a arcs found := by
  cases found with
  | none => exact h
  | some r =>
    obtain ⟨hbounded, harc, hsouth, hnorth⟩ := h
    exact ⟨hbounded, harc, hsouth.trans (max_comm _ _), hnorth.trans (min_comm _ _)⟩

theorem Finds.of_lat {c : Extent} (hsouth : c.south = b.south) (hnorth : c.north = b.north)
    {arcs : List (Lib.Arc ℝ)} {found : Option Extent} (h : Finds a c arcs found) :
    Finds a b arcs found := by
  cases found with
  | none => exact h
  | some r => exact ⟨h.bounded, h.arc, hsouth ▸ h.south, hnorth ▸ h.north⟩

/-- Of what two parts give, the wider is one. -/
theorem Finds.wider {arcs more : List (Lib.Arc ℝ)} {x y : Option Extent} (hx : Finds a b arcs x)
    (hy : Finds a b more y) : Finds a b (arcs ++ more) (wider x y) := by
  have hleft : ∀ r, Shared a b arcs r → Shared a b (arcs ++ more) r := by
    intro r h
    exact ⟨h.bounded, List.mem_append_left _ h.arc, h.south, h.north⟩
  have hright : ∀ r, Shared a b more r → Shared a b (arcs ++ more) r := by
    intro r h
    exact ⟨h.bounded, List.mem_append_right _ h.arc, h.south, h.north⟩
  cases x with
  | none =>
    cases y with
    | none =>
      show arcs ++ more = []
      rw [show arcs = [] from hx, show more = [] from hy, List.append_nil]
    | some s => exact hright s hy
  | some r =>
    cases y with
    | none => exact hleft r hx
    | some s =>
      rw [Extent.wider]
      split
      · exact hleft r hx
      · exact hright s hy

theorem bbox_shared (ha : a.Bounded) (hb : b.Bounded) {west east : F64} (hwest : west.Within 180)
    (heast : east.Within 180) {arcs : List (Lib.Arc ℝ)} (harc : ⟨west.value, east.value⟩ ∈ arcs) :
    Shared a b arcs (bbox west (a.south.max b.south) east (a.north.min b.north)) where
  bounded :=
    ⟨hwest, heast, ha.south.max (by decide) hb.south, ha.north.min (by decide) hb.north⟩
  arc := harc
  south := (F64.value_max ha.south.isNan hb.south.isNan).1
  north := (F64.value_min ha.north.isNan hb.north.isNan).1

theorem overlapBox_finds (ha : a.Bounded) (hb : b.Bounded) :
    Finds a b (Lib.Arc.overlap a.arc b.arc) (overlapBox a b) := by
  obtain ⟨hw, hwnan⟩ := F64.value_max ha.west.isNan hb.west.isNan
  obtain ⟨he, henan⟩ := F64.value_min ha.east.isNan hb.east.isNan
  have hlt : a.west.max b.west < a.east.min b.east ↔
      max a.arc.west b.arc.west < min a.arc.east b.arc.east := by
    rw [F64.lt_iff_value hwnan henan, hw, he]
    rfl
  unfold overlapBox Lib.Arc.overlap
  simp only [hlt]
  split
  · refine bbox_shared ha hb (ha.west.max (by decide) hb.west)
      (ha.east.min (by decide) hb.east) ?_
    show (⟨(a.west.max b.west).value, (a.east.min b.east).value⟩ : Lib.Arc ℝ) ∈ [_]
    rw [hw, he]
    exact List.mem_singleton_self _
  · rfl

theorem boxIntersectionAt_plain (ha : a.Bounded) (hb : b.Bounded) (depth : Nat)
    (hlat : MeetsLat a b) (hwa : a.west ≤ a.east) (hwb : b.west ≤ b.east) :
    boxIntersectionAt (depth + 1) a b = overlapBox a b := by
  have hplain : ∀ {e : Extent}, e.Bounded → e.west ≤ e.east → decide (e.east < e.west) = false := by
    intro e he hle
    rw [F64.le_iff_value he.west.isNan he.east.isNan] at hle
    rw [decide_eq_false_iff_not, F64.lt_iff_value he.east.isNan he.west.isNan]
    exact not_lt.2 hle
  rw [boxIntersectionAt, if_neg ((apart_iff ha hb).not.2 (not_not.2 hlat)), hplain ha hwa,
    hplain hb hwb]
  simp only [Bool.and_false, Bool.false_eq_true, if_false, hwa, hwb, if_true]
  rfl

theorem value_180 : (F64.ofUsize 180).value = 180 := by
  rw [F64.value_ofUsize (by decide)]
  norm_num

/-- A box that doesn't cross the antimeridian with one that does. -/
theorem boxIntersectionAt_finds (ha : a.Bounded) (hb : b.Bounded) (depth : Nat)
    (hlat : MeetsLat a b) (hwa : a.west ≤ a.east) (hwb : b.east < b.west) :
    Finds a b (if a.arc.Around (-180) 180 then [b.arc] else Lib.Arc.overlaps (-180) 180 a.arc b.arc)
      (boxIntersectionAt (depth + 2) a b) := by
  have hcrossed : ¬b.west ≤ b.east := by
    rw [F64.le_iff_value hb.west.isNan hb.east.isNan, not_le]
    exact (F64.lt_iff_value hb.east.isNan hb.west.isNan).1 hwb
  have hplain : ¬a.east < a.west := by
    rw [F64.lt_iff_value ha.east.isNan ha.west.isNan, not_lt]
    exact (F64.le_iff_value ha.west.isNan ha.east.isNan).1 hwa
  have hinside : ¬(F64.ofUsize 180 < b.west ∨ b.east < -F64.ofUsize 180) := by
    have hnan := (within_ofUsize 180 (by decide)).1.isNan
    have hnan' := (within_ofUsize 180 (by decide)).2.isNan
    rw [not_or, F64.lt_iff_value hnan hb.west.isNan, F64.lt_iff_value hb.east.isNan hnan', not_lt,
      not_lt, ← F64.le_iff_value hb.west.isNan hnan, ← F64.le_iff_value hnan' hb.east.isNan]
    exact ⟨hb.west.2, hb.east.1⟩
  rw [boxIntersectionAt, if_neg ((apart_iff ha hb).not.2 (not_not.2 hlat))]
  simp only [hwb, hwa, hcrossed, hplain, hinside, decide_true, decide_false, Bool.and_true,
    Bool.and_false, Bool.false_eq_true, if_true, if_false]
  by_cases haround : a.isAround = true
  · have hround := (isAround_iff ha.west.isNan ha.east.isNan).1 haround
    rw [if_pos haround, if_pos hround]
    exact bbox_shared ha hb hb.west hb.east (List.mem_singleton_self _)
  · have hround := mt (isAround_iff ha.west.isNan ha.east.isNan).2 haround
    rw [if_neg haround, if_neg hround,
      boxIntersectionAt_plain ha hb.eastOf depth hlat hwa hb.west.2,
      boxIntersectionAt_plain ha hb.westOf depth hlat hwa hb.east.1]
    have heast := Finds.of_lat (c := b.eastOf) (b := b) rfl rfl (overlapBox_finds ha hb.eastOf)
    have hwest := Finds.of_lat (c := b.westOf) (b := b) rfl rfl (overlapBox_finds ha hb.westOf)
    have heastArc : b.eastOf.arc = ⟨b.arc.west, 180⟩ := by
      rw [arc, ← value_180]
      rfl
    have hwestArc : b.westOf.arc = ⟨-180, b.arc.east⟩ := by
      rw [arc, ← value_180, ← F64.value_neg]
      rfl
    rw [heastArc] at heast
    rw [hwestArc] at hwest
    exact heast.wider hwest

/-- A box that crosses the antimeridian with one that doesn't, turned around. -/
theorem boxIntersectionAt_turned (ha : a.Bounded) (hb : b.Bounded) (hlat : MeetsLat a b)
    (hwa : a.east < a.west) (hwb : b.west ≤ b.east) :
    Finds a b (if b.arc.Around (-180) 180 then [a.arc] else Lib.Arc.overlaps (-180) 180 b.arc a.arc)
      (boxIntersectionAt 3 a b) := by
  have hfinds := (boxIntersectionAt_finds hb ha 0 hlat.symm hwb hwa).swap
  have hcrossed : ¬a.west ≤ a.east := by
    rw [F64.le_iff_value ha.west.isNan ha.east.isNan, not_le]
    exact (F64.lt_iff_value ha.east.isNan ha.west.isNan).1 hwa
  have hplain : ¬b.east < b.west := by
    rw [F64.lt_iff_value hb.east.isNan hb.west.isNan, not_lt]
    exact (F64.le_iff_value hb.west.isNan hb.east.isNan).1 hwb
  rw [boxIntersectionAt, if_neg ((apart_iff ha hb).not.2 (not_not.2 hlat))]
  simp only [hwa, hwb, hcrossed, hplain, decide_true, decide_false, Bool.and_true, Bool.and_false,
    Bool.false_eq_true, if_true, if_false]
  by_cases haround : b.isAround = true
  · have hround := (isAround_iff hb.west.isNan hb.east.isNan).1 haround
    rw [if_pos haround, if_pos hround]
    exact bbox_shared ha hb ha.west ha.east (List.mem_singleton_self _)
  · rw [if_neg haround]
    exact hfinds

theorem not_around {e : Extent} (he : e.Bounded) (hcrossed : ¬e.arc.west ≤ e.arc.east) :
    e.isAround = false := by
  rw [Bool.eq_false_iff, ne_eq, isAround_iff he.west.isNan he.east.isNan]
  rintro ⟨hwest, heast⟩
  rw [hwest, heast] at hcrossed
  norm_num at hcrossed

/-- What two extents have in common. -/
theorem box_finds (ha : a.Bounded) (hb : b.Bounded) (hlat : MeetsLat a b) :
    Finds a b (commonArcs a b) (boxIntersectionAt 3 a b) := by
  have hplain : ∀ {e : Extent}, e.Bounded → (e.west ≤ e.east ↔ e.arc.west ≤ e.arc.east) :=
    fun he => F64.le_iff_value he.west.isNan he.east.isNan
  have hcrossed : ∀ {e : Extent}, e.Bounded → (e.east < e.west ↔ ¬e.arc.west ≤ e.arc.east) :=
    fun he => (F64.lt_iff_value he.east.isNan he.west.isNan).trans not_le.symm
  by_cases hwa : a.arc.west ≤ a.arc.east
  · by_cases hwb : b.arc.west ≤ b.arc.east
    · rw [commonArcs, Lib.Arc.common, if_pos hwa, if_pos hwb,
        boxIntersectionAt_plain ha hb 2 hlat ((hplain ha).2 hwa) ((hplain hb).2 hwb)]
      exact overlapBox_finds ha hb
    · have hfinds := boxIntersectionAt_finds ha hb 1 hlat ((hplain ha).2 hwa) ((hcrossed hb).2 hwb)
      rw [commonArcs, Lib.Arc.common, if_pos hwa, if_neg hwb]
      exact hfinds
  · by_cases hwb : b.arc.west ≤ b.arc.east
    · have hfinds := boxIntersectionAt_turned ha hb hlat ((hcrossed ha).2 hwa) ((hplain hb).2 hwb)
      rw [commonArcs, Lib.Arc.common, if_neg hwa, if_pos hwb]
      exact hfinds
    · have hna := mt (hplain ha).1 hwa
      have hnb := mt (hplain hb).1 hwb
      rw [commonArcs, Lib.Arc.common, if_neg hwa, if_neg hwb, boxIntersectionAt,
        if_neg ((apart_iff ha hb).not.2 (not_not.2 hlat)), not_around ha hwa, not_around hb hwb]
      simp only [Bool.false_and, Bool.false_eq_true, if_false, hna, hnb]
      refine bbox_shared ha hb (ha.west.max (by decide) hb.west) (ha.east.min (by decide) hb.east) ?_
      rw [(F64.value_max ha.west.isNan hb.west.isNan).1,
        (F64.value_min ha.east.isNan hb.east.isNan).1]
      exact List.mem_singleton_self _

theorem box_eq_none (ha : a.Bounded) (hb : b.Bounded) (hlat : ¬MeetsLat a b) :
    boxIntersectionAt 3 a b = none := by
  rw [boxIntersectionAt, if_pos ((apart_iff ha hb).2 hlat)]

theorem intersects_iff (ha : a.Bounded) (hb : b.Bounded) :
    a.intersects b = true ↔ MeetsLat a b ∧ commonArcs a b ≠ [] := by
  rw [intersects, intersectsAt_eq]
  by_cases hlat : MeetsLat a b
  · have hfinds := box_finds ha hb hlat
    cases hbox : boxIntersectionAt 3 a b with
    | none =>
      rw [hbox] at hfinds
      exact ⟨nofun, fun h => absurd hfinds h.2⟩
    | some r =>
      rw [hbox] at hfinds
      exact ⟨fun _ => ⟨hlat, List.ne_nil_of_mem hfinds.arc⟩, fun _ => rfl⟩
  · rw [box_eq_none ha hb hlat]
    exact ⟨nofun, fun h => absurd h.1 hlat⟩

theorem intersects_symm (ha : a.Bounded) (hb : b.Bounded) : a.intersects b = b.intersects a := by
  rw [Bool.eq_iff_iff, intersects_iff ha hb, intersects_iff hb ha, commonArcs, commonArcs,
    Lib.Arc.common_comm]
  exact and_congr_left fun _ => ⟨MeetsLat.symm, MeetsLat.symm⟩

/-! ## The intersection -/

theorem intersects_of_contains (ha : a.Proper) (hb : b.Proper) (hb' : b.south ≤ b.north)
    (h : a.contains b = true) : a.intersects b = true := by
  obtain ⟨⟨hsouth, hnorth⟩, harc⟩ := (contains_iff ha hb).1 h
  have hlat := (F64.le_iff_value hb.south.isNan hb.north.isNan).1 hb'
  rw [intersects_iff ha.bounded hb.bounded]
  exact ⟨⟨hlat.trans hnorth, hsouth.trans hlat⟩, Lib.Arc.common_ne_nil_of_contains ha.arc hb.arc harc⟩

theorem intersection_of_intersects (h : a.intersects b = true) : (a.intersection b).isSome := by
  rw [intersects, intersectsAt_eq] at h
  unfold intersection
  split
  · rfl
  · split
    · rfl
    · rw [Option.isSome_map]
      exact h

theorem intersects_iff_intersection (ha : a.Proper) (hb : b.Proper) (ha' : a.south ≤ a.north)
    (hb' : b.south ≤ b.north) : a.intersects b = true ↔ (a.intersection b).isSome := by
  refine ⟨intersection_of_intersects, fun h => ?_⟩
  unfold intersection at h
  split at h
  · rename_i hcontains
    exact intersects_of_contains ha hb hb' hcontains
  · split at h
    · rename_i hcontains
      rw [intersects_symm ha.bounded hb.bounded]
      exact intersects_of_contains hb ha ha' hcontains
    · rw [Option.isSome_map] at h
      rw [intersects, intersectsAt_eq]
      exact h

theorem covers_of_contains (ha : a.Proper) (hb : b.Proper) (h : a.contains b = true) {p : Point}
    (hp : b.Covers p) : a.Covers p := by
  obtain ⟨⟨hsouth, hnorth⟩, harc⟩ := (contains_iff ha hb).1 h
  obtain ⟨hlow, hhigh, hlon⟩ := hp
  exact ⟨hsouth.trans hlow, hhigh.trans hnorth,
    harc.mem ha.arc.west_ne_east p.low_le_lon p.lon_le_high hlon⟩

theorem contains_self (ha : a.Proper) : a.contains a = true :=
  (contains_iff ha ha).2 ⟨⟨le_refl _, le_refl _⟩, ha.arc.contains_self⟩

theorem contains_trans {c : Extent} (ha : a.Proper) (hb : b.Proper) (hc : c.Proper)
    (hab : a.contains b = true) (hbc : b.contains c = true) : a.contains c = true := by
  obtain ⟨⟨hsouth, hnorth⟩, harc⟩ := (contains_iff ha hb).1 hab
  obtain ⟨⟨hsouth', hnorth'⟩, harc'⟩ := (contains_iff hb hc).1 hbc
  exact (contains_iff ha hc).2 ⟨⟨hsouth.trans hsouth', hnorth'.trans hnorth⟩,
    harc.trans hc.arc.west_ne_east harc'⟩

/-- A point in an extent, or one ulp from one where only a line of it is. -/
def Near (y : F64) (lat : ℝ) : Prop := y.nextDown.value ≤ lat ∧ lat ≤ y.nextUp.value

/-- The latitudes of a box are those it was made of, or one ulp from them. -/
theorem new_lat {name : Option String} {west south east north : F64} (hsouth : south.Within 90)
    (hnorth : north.Within 90) {lat : ℝ} (hlow : (new name west south east north).south.value ≤ lat)
    (hhigh : lat ≤ (new name west south east north).north.value) :
    (south.value ≤ lat ∧ lat ≤ north.value) ∨ south.value = north.value ∧ Near south lat := by
  have hs := hsouth.isFinite (by decide)
  have hn := hnorth.isFinite (by decide)
  by_cases heq : south.eq north = true
  · have hvalue := (F64.eq_iff_value hsouth.isNan hnorth.isNan).1 heq
    have hbelow := F64.previous_value (F64.nextDown_spec hs)
    have habove := F64.next_value (F64.nextUp_spec hn)
    have hup := F64.nextUp_congr hs hn hvalue
    simp only [new, heq, Bool.true_and] at hlow hhigh
    refine .inr ⟨hvalue, ?_, ?_⟩
    · split at hlow
      · exact hlow
      · exact hbelow.le.trans hlow
    · rw [hup]
      split at hhigh
      · exact hhigh
      · exact hhigh.trans habove.le
  · rw [Bool.not_eq_true] at heq
    simp only [new, heq, Bool.false_and, Bool.false_eq_true, if_false] at hlow hhigh
    exact .inl ⟨hlow, hhigh⟩

theorem new_arc {name : Option String} {west south east north : F64}
    (hne : west.eq east = false) : (new name west south east north).arc = ⟨west.value, east.value⟩ := by
  simp only [arc, new, hne, Bool.false_and, Bool.false_eq_true, if_false]

/-- The points of an intersection are in both extents, but for one ulp of latitude
where they only touch. -/
theorem intersection_covers (ha : a.Proper) (hb : b.Proper) {r : Extent}
    (hr : a.intersection b = some r) {p : Point} (hp : r.Covers p) :
    ∃ q : Point, a.Covers q ∧ b.Covers q ∧ q.lon = p.lon ∧
      (q.lat = p.lat ∨ ∃ y : F64, q.lat = y.value ∧ Near y p.lat) := by
  unfold intersection at hr
  split at hr
  · rename_i hcontains
    cases hr
    exact ⟨p, covers_of_contains ha hb hcontains hp, hp, rfl, .inl rfl⟩
  · split at hr
    · rename_i hcontains
      cases hr
      exact ⟨p, hp, covers_of_contains hb ha hcontains hp, rfl, .inl rfl⟩
    · obtain ⟨x, hx, rfl⟩ := Option.map_eq_some_iff.1 hr
      have hlat : MeetsLat a b := by
        by_contra hapart
        rw [box_eq_none ha.bounded hb.bounded hapart] at hx
        cases hx
      have hshared := box_finds ha.bounded hb.bounded hlat
      rw [hx] at hshared
      obtain ⟨hbounded, harc, hsouth, hnorth⟩ := hshared
      have hproper := ha.arc.common hb.arc harc
      have hne : x.west.eq x.east = false := by
        rw [Bool.eq_false_iff, ne_eq, F64.eq_iff_value hbounded.west.isNan hbounded.east.isNan]
        exact hproper.west_ne_east
      obtain ⟨hlow, hhigh, hlon⟩ := hp
      rw [new_arc hne] at hlon
      have hmema := Lib.Arc.mem_left_of_common harc p.low_le_lon p.lon_le_high hlon
      have hmemb := Lib.Arc.mem_right_of_common harc p.low_le_lon p.lon_le_high hlon
      have hinside : ∀ lat, x.south.value ≤ lat → lat ≤ x.north.value →
          (a.south.value ≤ lat ∧ lat ≤ a.north.value) ∧ b.south.value ≤ lat ∧ lat ≤ b.north.value := by
        intro lat hlow hhigh
        rw [hsouth, max_le_iff] at hlow
        rw [hnorth, le_min_iff] at hhigh
        exact ⟨⟨hlow.1, hhigh.1⟩, hlow.2, hhigh.2⟩
      rcases new_lat hbounded.south hbounded.north hlow hhigh with ⟨hlow, hhigh⟩ | ⟨hline, hnear⟩
      · obtain ⟨⟨ha1, ha2⟩, hb1, hb2⟩ := hinside p.lat hlow hhigh
        exact ⟨p, ⟨ha1, ha2, hmema⟩, ⟨hb1, hb2, hmemb⟩, rfl, .inl rfl⟩
      · obtain ⟨⟨ha1, ha2⟩, hb1, hb2⟩ := hinside x.south.value (le_refl _) hline.le
        exact ⟨⟨p.lon, x.south.value, p.low_le_lon, p.lon_le_high⟩, ⟨ha1, ha2, hmema⟩,
          ⟨hb1, hb2, hmemb⟩, rfl, .inr ⟨x.south, rfl, hnear⟩⟩

/-! ## The algebra of areas -/

/-- An extent made by `new`, of longitudes and latitudes. -/
def Made (e : Extent) : Prop := ∃ name west south east north, F64.Within 180 west ∧
  F64.Within 90 south ∧ F64.Within 180 east ∧ F64.Within 90 north ∧
  e = new name west south east north

theorem Made.proper {e : Extent} (h : e.Made) : e.Proper := by
  obtain ⟨name, west, south, east, north, hwest, hsouth, heast, hnorth, rfl⟩ := h
  exact new_proper hwest hsouth heast hnorth

theorem area_algebra {c : Extent} (ha : a.Made) (hb : b.Made) (hc : c.Made) :
    a.intersects b = b.intersects a ∧
      (a.intersects b = true → (a.intersection b).isSome) ∧
      (a.south ≤ a.north → b.south ≤ b.north →
        (a.intersects b = true ↔ (a.intersection b).isSome)) ∧
      (∀ r, a.intersection b = some r → ∀ p, r.Covers p →
        ∃ q : Point, a.Covers q ∧ b.Covers q ∧ q.lon = p.lon ∧
          (q.lat = p.lat ∨ ∃ y : F64, q.lat = y.value ∧ Near y p.lat)) ∧
      (a.contains b = true → ∀ p, b.Covers p → a.Covers p) ∧
      a.contains a = true ∧
      (a.contains b = true → b.contains c = true → a.contains c = true) := by
  have ha := ha.proper
  have hb := hb.proper
  refine ⟨intersects_symm ha.bounded hb.bounded, intersection_of_intersects,
    intersects_iff_intersection ha hb, ?_, ?_, contains_self ha, contains_trans ha hb hc.proper⟩
  · intro r hr p hp
    exact intersection_covers ha hb hr hp
  · intro h p hp
    exact covers_of_contains ha hb h hp

/-- From 170 degrees east to 170 degrees west, between 10 degrees south and the equator. -/
def antimeridian : Extent :=
  new none ⟨0x4065400000000000⟩ ⟨0xc024000000000000⟩ ⟨0xc065400000000000⟩ ⟨0⟩

theorem made_antimeridian : antimeridian.Made :=
  ⟨none, _, _, _, _, by decide, by decide, by decide, by decide, rfl⟩

theorem area_algebra_antimeridian : antimeridian.Made ∧
    antimeridian.intersects antimeridian = true ∧
    (antimeridian.contains antimeridian = true →
      ∀ p, antimeridian.Covers p → antimeridian.Covers p) := by
  have h := made_antimeridian
  obtain ⟨-, -, -, -, hcovers, -⟩ := area_algebra h h h
  exact ⟨h, by decide, hcovers⟩

/-- Given from north to south, an area has an intersection that it doesn't meet. -/
theorem intersection_upside_down : ∃ e : Extent, e.Made ∧ e.intersects e = false ∧
    (e.intersection e).isSome := by
  refine ⟨new none ⟨0⟩ ⟨0x4049000000000000⟩ ⟨0x4024000000000000⟩ ⟨0x4014000000000000⟩, ?_, ?_, ?_⟩
  · exact ⟨none, _, _, _, _, by decide, by decide, by decide, by decide, rfl⟩
  · decide
  · decide

end Xeibe.Reproject.Select.Extent

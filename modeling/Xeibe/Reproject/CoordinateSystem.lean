import Mathlib.Algebra.Order.Field.Basic
import Mathlib.Algebra.Order.Ring.Abs
import Mathlib.Data.Rat.Init
import Mathlib.Tactic.FieldSimp
import Mathlib.Tactic.Positivity
import Mathlib.Tactic.Ring
import Xeibe.Lib.Checked

/-!
# The axes of a coordinate system

What a CRS's axes make of a coordinate: two horizontal axes along any two
directions of the (east, north) plane, in any order with a vertical one, each
with a unit.  Numbers are those of an ordered field, so arithmetic is exact.
-/

namespace Xeibe.Reproject.CoordinateSystem

open Xeibe.Lib

/-! ## The JSON -/

inductive Kind where
  | ellipsoidal
  | projected
  | geocentric
  | vertical
  /-- A local grid, or a platform: its axes are its own. -/
  | engineering
deriving DecidableEq, Repr

inductive UnitKind where
  | angle
  | length
  | scale
deriving DecidableEq, Repr

inductive UnitValue (K : Type) where
  | text (name : String)
  | object (conversionFactor : Option K)
  | null
  | other
deriving Repr

inductive NumberValue (K : Type) where
  | number (n : K)
  | object (value : Option K) (unit : UnitValue K)
  | other
deriving Repr

structure AxisValue (K : Type) where
  name : Option String
  direction : Option String
  unit : UnitValue K
  /-- The longitude of an axis along a meridian, unless that is null. -/
  meridian : Option (NumberValue K)
deriving Repr

inductive Error where
  | projjson (crs message : String)
  | unsupported (crs what : String)
deriving DecidableEq, Repr

structure Ctx where
  crs : String

namespace Ctx

variable {α : Type} (ctx : Ctx)

def invalid (message : String) : Except Error α := .error (.projjson ctx.crs message)

def unsupported (what : String) : Except Error α := .error (.unsupported ctx.crs what)

end Ctx

/-! ## Axes -/

structure Axis (K : Type) where
  /-- The direction of a horizontal axis, in the (east, north) plane. -/
  east : K
  north : K
  /-- 1 or -1 for the third axis, 0 otherwise. -/
  vertical : K
  factor : K
deriving DecidableEq, Repr

structure Matrix2 (K : Type) where
  a : K
  b : K
  c : K
  d : K
deriving DecidableEq, Repr

structure Axes (K : Type) where
  axes : List (Axis K)
  inverse : Matrix2 K
  firstIsNorth : Bool
deriving DecidableEq, Repr

/-- The values of a coordinate. -/
@[ext]
structure Ordinates (K : Type) where
  first : K
  second : K
  third : K
deriving DecidableEq, Repr

/-- `out[i] = x`, for the places there are. -/
def Ordinates.set {K : Type} (out : Ordinates K) : Nat → K → Ordinates K
  | 0, x => { out with first := x }
  | 1, x => { out with second := x }
  | 2, x => { out with third := x }
  | _, _ => out

variable {K : Type} [Field K] [LinearOrder K]

namespace Axes

/-- The two values along the axes, as easting and northing. -/
def unturn (m : Matrix2 K) (h : K × K) : K × K :=
  (m.a * h.1 + m.b * h.2, m.c * h.1 + m.d * h.2)

/-- The horizontal values read so far, how many there are, and the height. -/
structure Reading (K : Type) where
  horizontal : K × K
  h : Nat
  third : K

def readAxis (r : Reading K) (p : Axis K × K) : Reading K :=
  let (axis, value) := p
  if axis.vertical ≠ 0 then
    { r with third := value * axis.factor * axis.vertical }
  else
    let x := value * axis.factor
    { r with
      horizontal := if r.h = 0 then (x, r.horizontal.2) else (r.horizontal.1, x)
      h := r.h + 1 }

/-- The loop over the axes. -/
def toInternalLoop (self : Axes K) (values : Ordinates K) : Ordinates K :=
  let r := (self.axes.zip [values.first, values.second, values.third]).foldl readAxis
    ⟨(0, 0), 0, values.third⟩
  let p := unturn self.inverse r.horizontal
  ⟨p.1, p.2, r.third⟩

/-- Values in the CRS's order and units to east, north and height. -/
def toInternal (self : Axes K) (values : Ordinates K) : Ordinates K :=
  match self.axes with
  | [a, b] =>
    if a.vertical = 0 ∧ b.vertical = 0 then
      let p := unturn self.inverse (values.first * a.factor, values.second * b.factor)
      ⟨p.1, p.2, values.third⟩
    else
      self.toInternalLoop values
  | _ => self.toInternalLoop values

def crsValue (axis : Axis K) (v : Ordinates K) : K :=
  if axis.vertical ≠ 0 then
    v.third * axis.vertical / axis.factor
  else
    (axis.east * v.first + axis.north * v.second) / axis.factor

def toCrsLoop (self : Axes K) (v : Ordinates K) : Ordinates K :=
  self.axes.zipIdx.foldl (fun out p => out.set p.2 (crsValue p.1 v)) ⟨0, 0, v.third⟩

/-- The reverse of `toInternal`. -/
def toCrs (self : Axes K) (v : Ordinates K) : Ordinates K :=
  match self.axes with
  | [a, b] =>
    if a.vertical = 0 ∧ b.vertical = 0 then
      ⟨(a.east * v.first + a.north * v.second) / a.factor,
        (b.east * v.first + b.north * v.second) / b.factor, v.third⟩
    else
      self.toCrsLoop v
  | _ => self.toCrsLoop v

end Axes

/-! ## Building them -/

/-- The constants that the code has as the doubles nearest to them. -/
structure Constants (K : Type) where
  pi : K
  /-- One over the square root of two. -/
  diagonal : K

variable (constants : Constants K)

namespace Ctx

variable (ctx : Ctx)

/-- Size of a unit in radians, metres or as a plain factor. -/
def unit (unit : UnitValue K) (kind : UnitKind) : Except Error K :=
  match unit with
  | .text "degree" => .ok (constants.pi / 180)
  | .text "metre" | .text "unity" | .text "radian" => .ok 1
  | .text other => ctx.unsupported s!"the unit {other}"
  | .object (some factor) => .ok factor
  | .object none => ctx.invalid "a unit without a conversion factor"
  | .null => .ok (match kind with
    | .angle => constants.pi / 180
    | .length | .scale => 1)
  | .other => ctx.invalid "a malformed unit"

/-- A bare number takes the default unit of its kind. -/
def value (value : NumberValue K) (kind : UnitKind) : Except Error K :=
  match value with
  | .number n => .ok (match kind with
    | .angle => n * constants.pi / 180
    | .length | .scale => n)
  | .object (some n) unit => do .ok (n * (← ctx.unit constants unit kind))
  | .object none _ => ctx.invalid "a value without a number"
  | .other => ctx.invalid "a missing number"

/-- The first two axes are a northing and an easting, or polar axes that are swapped as such. -/
def northingFirst (list : List (AxisValue K)) : Except Error Bool :=
  let meridian (axis : AxisValue K) : Except Error (Option K) :=
    match axis.meridian with
    | none => .ok none
    | some longitude => do
      .ok (some ((← ctx.value constants longitude .angle) * (180 / constants.pi)))
  match list with
  | first :: second :: _ =>
    match first.direction, second.direction with
    | some d0, some d1 =>
      if d0 = "north" ∧ d1 = "east" then .ok true
      else if d0 ≠ d1 ∨ ¬ (d0 = "north" ∨ d0 = "south") then .ok false
      else do
        match ← meridian first, ← meridian second with
        | some m0, some m1 =>
          let swapped : List (K × K) :=
            if d0 = "north" then [(0, 90), (180, -90)] else [(180, 90)]
          .ok (swapped.any fun p =>
            |m0 - p.1| < (10 ^ 10)⁻¹ && |m1 - p.2| < (10 ^ 10)⁻¹)
        | _, _ => .ok false
    | _, _ => .ok false
  | _ => .ok false

/-- Where an axis of this direction points: east, north and up. -/
def pointing (kind : Kind) (direction : String) : Except Error (K × K × K) :=
  let d := constants.diagonal
  match kind, direction with
  | .geocentric, "geocentricX" => .ok (1, 0, 0)
  | .geocentric, "geocentricY" => .ok (0, 1, 0)
  | .geocentric, "geocentricZ" => .ok (0, 0, 1)
  | .ellipsoidal, "east" | .projected, "east" => .ok (1, 0, 0)
  | .ellipsoidal, "west" | .projected, "west" => .ok (-1, 0, 0)
  | .ellipsoidal, "north" | .projected, "north" => .ok (0, 1, 0)
  | .ellipsoidal, "south" | .projected, "south" => .ok (0, -1, 0)
  | .ellipsoidal, "up" | .projected, "up" => .ok (0, 0, 1)
  | .ellipsoidal, "down" | .projected, "down" => .ok (0, 0, -1)
  | .engineering, "east" => .ok (1, 0, 0)
  | .engineering, "west" => .ok (-1, 0, 0)
  | .engineering, "north" => .ok (0, 1, 0)
  | .engineering, "south" => .ok (0, -1, 0)
  | .engineering, "northEast" => .ok (d, d, 0)
  | .engineering, "northWest" => .ok (-d, d, 0)
  | .engineering, "southEast" => .ok (d, -d, 0)
  | .engineering, "southWest" => .ok (-d, -d, 0)
  -- A platform's frame: starboard, forward, up.
  | .engineering, "starboard" => .ok (1, 0, 0)
  | .engineering, "port" => .ok (-1, 0, 0)
  | .engineering, "forward" => .ok (0, 1, 0)
  | .engineering, "aft" => .ok (0, -1, 0)
  | .engineering, "up" => .ok (0, 0, 1)
  | .engineering, "down" => .ok (0, 0, -1)
  | .vertical, "up" => .ok (0, 0, 1)
  | .vertical, "down" => .ok (0, 0, -1)
  | _, direction => ctx.unsupported s!"the axis direction {direction}"

/-- A projected CRS whose two axes both point north, or both south, along meridians. -/
def isPolar (list : List (AxisValue K)) (kind : Kind) : Bool :=
  match list with
  | first :: second :: _ =>
    kind = .projected && first.direction = second.direction &&
      (first.direction = some "north" || first.direction = some "south")
  | _ => false

/-- The name, in lower case, starts with `word`. -/
def isNamed (axis : AxisValue K) (word : String) : Bool :=
  word.toList.isPrefixOf ((axis.name.getD "").toList.map Char.toLower)

/-- The first two axes of a polar CRS are named northing and easting. -/
def isNorthingEasting (list : List (AxisValue K)) (kind : Kind) : Bool :=
  isPolar list kind &&
    match list with
    | first :: second :: _ => isNamed first "northing" && isNamed second "easting"
    | _ => false

/-- Where axis `i` points: the polar ones are the projection's easting and northing. -/
def along (list : List (AxisValue K)) (kind : Kind) (value : AxisValue K) (i : Nat) :
    Except Error (K × K × K) :=
  if isPolar list kind && decide (i < 2) then
    if (i == 0) == isNorthingEasting list kind then .ok (0, 1, 0) else .ok (1, 0, 0)
  else
    ctx.pointing constants kind (value.direction.getD "")

def axis (list : List (AxisValue K)) (kind : Kind) (p : AxisValue K × Nat) :
    Except Error (Axis K) := do
  let (east, north, vertical) ← ctx.along constants list kind p.1 p.2
  let unitKind := if kind = .ellipsoidal ∧ vertical = 0 then UnitKind.angle else .length
  let factor ← ctx.unit constants p.1.unit unitKind
  .ok ⟨east, north, vertical, factor⟩

/-- The axes of a coordinate system, `none` for one without a list of them. -/
def axes (list : Option (List (AxisValue K))) (kind : Kind) : Except Error (Axes K) :=
  match list with
  | none => ctx.invalid "a coordinate system without axes"
  | some list => do
    let axes ← list.zipIdx.mapM (ctx.axis constants list kind)
    let horizontal := axes.filter fun axis => axis.vertical = 0
    let verticals := axes.length - horizontal.length
    if kind = .vertical then
      if axes.length ≠ 1 ∨ verticals ≠ 1 then
        ctx.unsupported "a vertical coordinate system without one axis"
      else
        .ok ⟨axes, ⟨1, 0, 0, 1⟩, false⟩
    else if 1 < verticals then
      ctx.unsupported "a coordinate system without two horizontal axes"
    else
      match horizontal with
      | [first, second] =>
        let det := first.east * second.north - first.north * second.east
        if |det| < (10 ^ 9)⁻¹ then
          ctx.invalid "two axes in the same direction"
        else do
          let firstIsNorth ← ctx.northingFirst constants list
          .ok ⟨axes, ⟨second.north / det, -first.north / det, -second.east / det,
            first.east / det⟩, firstIsNorth⟩
      | _ => ctx.unsupported "a coordinate system without two horizontal axes"

end Ctx

/-! ## What is built -/

/-- The horizontal axes, with the vertical one at any place. -/
inductive Placed (f g : Axis K) : List (Axis K) → Prop
  | two : Placed f g [f, g]
  | last {v : Axis K} (hv : v.vertical ≠ 0) : Placed f g [f, g, v]
  | between {v : Axis K} (hv : v.vertical ≠ 0) : Placed f g [f, v, g]
  | first {v : Axis K} (hv : v.vertical ≠ 0) : Placed f g [v, f, g]

theorem exists_of_mapM {ε α β : Type} {f : α → Except ε β} {xs : List α} {ys : List β}
    (h : xs.mapM f = .ok ys) : ∀ y ∈ ys, ∃ x ∈ xs, f x = .ok y := by
  induction xs generalizing ys with
  | nil =>
    cases h
    simp
  | cons x xs ih =>
    rw [List.mapM_cons] at h
    obtain ⟨y, hy, h⟩ := bind_eq_ok.1 h
    obtain ⟨ys', hys', h⟩ := bind_eq_ok.1 h
    cases h
    intro z hz
    rcases List.mem_cons.1 hz with rfl | hz
    · exact ⟨x, List.mem_cons_self, hy⟩
    · obtain ⟨x', hx', hfx⟩ := ih hys' z hz
      exact ⟨x', List.mem_cons_of_mem _ hx', hfx⟩

theorem placed_of_filter {f g : Axis K} {axes : List (Axis K)}
    (h : (axes.filter fun axis => axis.vertical = 0) = [f, g]) (hlength : axes.length ≤ 3) :
    Placed f g axes := by
  match axes, hlength with
  | [], _ => simp at h
  | [a], _ =>
    have hle := List.length_filter_le (fun axis : Axis K => axis.vertical = 0) [a]
    rw [h] at hle
    simp at hle
  | [a, b], _ =>
    have hall := (List.filter_sublist.eq_of_length (by rw [h]; rfl)).symm.trans h
    obtain ⟨rfl, rfl⟩ : a = f ∧ b = g := by simpa using hall
    exact .two
  | [a, b, c], _ =>
    by_cases ha : a.vertical = 0
    · by_cases hb : b.vertical = 0
      · have hc : c.vertical ≠ 0 := by
          intro hc
          simp [ha, hb, hc] at h
        obtain ⟨rfl, rfl⟩ : a = f ∧ b = g := by simpa [ha, hb, hc] using h
        exact .last hc
      · obtain ⟨hc, rfl, rfl⟩ : c.vertical = 0 ∧ a = f ∧ c = g := by
          by_cases hc : c.vertical = 0
          · simpa [ha, hb, hc] using h
          · simp [ha, hb, hc] at h
        exact .between hb
    · by_cases hb : b.vertical = 0
      · obtain ⟨hc, rfl, rfl⟩ : c.vertical = 0 ∧ b = f ∧ c = g := by
          by_cases hc : c.vertical = 0
          · simpa [ha, hb, hc] using h
          · simp [ha, hb, hc] at h
        exact .first ha
      · exfalso
        by_cases hc : c.vertical = 0 <;> simp [ha, hb, hc] at h

omit [LinearOrder K] in
theorem vertical_of_pointing {ctx : Ctx} {kind : Kind} {direction : String} {p : K × K × K}
    (h : ctx.pointing constants kind direction = .ok p) : p.2.2 = 0 ∨ p.2.2 * p.2.2 = 1 := by
  unfold Ctx.pointing at h
  split at h
  all_goals cases h <;> simp

theorem vertical_of_axis {ctx : Ctx} {list : List (AxisValue K)} {kind : Kind}
    {p : AxisValue K × Nat} {axis : Axis K} (h : ctx.axis constants list kind p = .ok axis) :
    axis.vertical = 0 ∨ axis.vertical * axis.vertical = 1 := by
  rw [Ctx.axis] at h
  obtain ⟨⟨east, north, vertical⟩, halong, h⟩ := bind_eq_ok.1 h
  obtain ⟨factor, -, h⟩ := bind_eq_ok.1 h
  cases h
  rw [Ctx.along] at halong
  split at halong
  · split at halong <;> cases halong <;> exact Or.inl rfl
  · exact vertical_of_pointing constants halong

/-- The two horizontal axes are apart, and the inverse is theirs. -/
structure Axes.Built (made : Axes K) (f g : Axis K) : Prop where
  placed : Placed f g made.axes
  flat : f.vertical = 0 ∧ g.vertical = 0
  unit : ∀ axis ∈ made.axes, axis.vertical = 0 ∨ axis.vertical * axis.vertical = 1
  det : f.east * g.north - f.north * g.east ≠ 0
  inverse : made.inverse =
    let det := f.east * g.north - f.north * g.east
    ⟨g.north / det, -f.north / det, -g.east / det, f.east / det⟩

theorem built_of_axes [IsStrictOrderedRing K] {ctx : Ctx}
    {list : Option (List (AxisValue K))} {kind : Kind} {self : Axes K}
    (h : ctx.axes constants list kind = .ok self)
    (hlength : self.axes.length = 2 ∨ self.axes.length = 3) : ∃ f g, self.Built f g := by
  rw [Ctx.axes.eq_def] at h
  match list with
  | none => cases h
  | some list =>
    obtain ⟨axes, haxes, h⟩ := bind_eq_ok.1 h
    have hunit : ∀ axis ∈ axes, axis.vertical = 0 ∨ axis.vertical * axis.vertical = 1 := by
      intro axis haxis
      obtain ⟨p, -, hp⟩ := exists_of_mapM haxes axis haxis
      exact vertical_of_axis constants hp
    dsimp only at h
    split at h
    · split at h
      · cases h
      · cases h
        rename_i hone
        dsimp only at hlength
        omega
    · split at h
      · cases h
      · split at h
        · rename_i f g hfilter
          split at h
          · cases h
          · rename_i hdet
            obtain ⟨firstIsNorth, -, h⟩ := bind_eq_ok.1 h
            cases h
            have hf : f ∈ axes.filter fun axis => axis.vertical = 0 := by simp [hfilter]
            have hg : g ∈ axes.filter fun axis => axis.vertical = 0 := by simp [hfilter]
            have hthree : axes.length ≤ 3 := by
              rcases hlength with hlength | hlength
              · exact hlength.le.trans (by decide)
              · exact hlength.le
            refine ⟨f, g, placed_of_filter hfilter hthree, ⟨?_, ?_⟩, hunit, ?_, rfl⟩
            · simpa using (List.mem_filter.1 hf).2
            · simpa using (List.mem_filter.1 hg).2
            · intro hzero
              rw [hzero, abs_zero] at hdet
              exact hdet (by positivity)
        · cases h

namespace Axes

variable {self : Axes K} {f g : Axis K}

/-! ## Both ways -/

omit [LinearOrder K] in
/-- Two products by quotients with one divisor. -/
theorem quotients_add {det : K} (hdet : det ≠ 0) {a b x y z : K} (h : a * x + b * y = z * det) :
    a / det * x + b / det * y = z := by
  rw [div_mul_eq_mul_div, div_mul_eq_mul_div, ← add_div, div_eq_iff hdet, h]

omit [LinearOrder K] in
theorem Built.unturn_turn (h : self.Built f g) (e n : K) :
    unturn self.inverse (f.east * e + f.north * n, g.east * e + g.north * n) = (e, n) := by
  rw [h.inverse]
  exact Prod.ext (quotients_add h.det (by ring)) (quotients_add h.det (by ring))

omit [LinearOrder K] in
theorem Built.turn_unturn (h : self.Built f g) (a b : K) :
    f.east * (unturn self.inverse (a, b)).1 + f.north * (unturn self.inverse (a, b)).2 = a ∧
      g.east * (unturn self.inverse (a, b)).1 + g.north * (unturn self.inverse (a, b)).2 = b := by
  have hone := div_self h.det
  rw [h.inverse]
  constructor
  · calc _ = (f.east * g.north - f.north * g.east) / (f.east * g.north - f.north * g.east) * a := by
          simp only [unturn]
          ring
      _ = a := by rw [hone, one_mul]
  · calc _ = (f.east * g.north - f.north * g.east) / (f.east * g.north - f.north * g.east) * b := by
          simp only [unturn]
          ring
      _ = b := by rw [hone, one_mul]

theorem Built.toInternal_eq_loop (h : self.Built f g) (values : Ordinates K) :
    self.toInternal values = self.toInternalLoop values := by
  obtain ⟨hf, hg⟩ := h.flat
  have hplaced := h.placed
  unfold toInternal
  split
  · rename_i a b haxes
    rw [haxes] at hplaced
    cases hplaced
    rw [if_pos ⟨hf, hg⟩]
    simp [toInternalLoop, haxes, readAxis, hf, hg]
  · rfl

theorem Built.toCrs_eq_loop (h : self.Built f g) (v : Ordinates K) :
    self.toCrs v = self.toCrsLoop v := by
  obtain ⟨hf, hg⟩ := h.flat
  have hplaced := h.placed
  unfold toCrs
  split
  · rename_i a b haxes
    rw [haxes] at hplaced
    cases hplaced
    rw [if_pos ⟨hf, hg⟩]
    simp [toCrsLoop, haxes, crsValue, hf, hg, Ordinates.set]
  · rfl

/-- The changes are each other's inverse, wherever the vertical axis is. -/
theorem Built.thereAndBack (h : self.Built f g) (hfactor : ∀ axis ∈ self.axes, axis.factor ≠ 0)
    (v : Ordinates K) :
    self.toInternal (self.toCrs v) = v ∧ self.toCrs (self.toInternal v) = v := by
  obtain ⟨hf, hg⟩ := h.flat
  have hunit := h.unit
  have hplaced := h.placed
  have hthere := h.unturn_turn v.first v.second
  have hback := h.turn_unturn
  rw [h.toInternal_eq_loop, h.toCrs_eq_loop, h.toInternal_eq_loop, h.toCrs_eq_loop, toInternalLoop,
    toCrsLoop, toInternalLoop, toCrsLoop]
  generalize self.axes = axes at hplaced hfactor hunit ⊢
  cases hplaced with
  | two =>
    simp only [List.forall_mem_cons] at hfactor
    constructor <;> simp [readAxis, crsValue, hf, hg, Ordinates.set, hfactor, hthere, hback]
  | last hv =>
    simp only [List.forall_mem_cons] at hfactor hunit
    have hone := hunit.2.2.1.resolve_left hv
    constructor <;>
      simp [readAxis, crsValue, hf, hg, hv, Ordinates.set, hfactor, hthere, hback, mul_assoc, hone]
  | between hv =>
    simp only [List.forall_mem_cons] at hfactor hunit
    have hone := hunit.2.1.resolve_left hv
    constructor <;>
      simp [readAxis, crsValue, hf, hg, hv, Ordinates.set, hfactor, hthere, hback, mul_assoc, hone]
  | first hv =>
    simp only [List.forall_mem_cons] at hfactor hunit
    have hone := hunit.1.resolve_left hv
    constructor <;>
      simp [readAxis, crsValue, hf, hg, hv, Ordinates.set, hfactor, hthere, hback, mul_assoc, hone]

theorem Built.third_of_two (h : self.Built f g) (hlength : self.axes.length = 2) (v : Ordinates K) :
    (self.toInternal v).third = v.third ∧ (self.toCrs v).third = v.third := by
  obtain ⟨hf, hg⟩ := h.flat
  have haxes : self.axes = [f, g] := by
    have hplaced := h.placed
    generalize self.axes = axes at hplaced hlength ⊢
    cases hplaced with
    | two => rfl
    | last hv => cases hlength
    | between hv => cases hlength
    | first hv => cases hlength
  simp [toInternal, toCrs, haxes, hf, hg]

end Axes

/-- Whatever axes are built, the change to east, north and height and the change back are each
other's inverse; the short way for two axes is the loop's, and leaves a height alone. -/
theorem toInternal_toCrs_inverse [IsStrictOrderedRing K] {ctx : Ctx}
    {list : Option (List (AxisValue K))} {kind : Kind} {self : Axes K}
    (h : ctx.axes constants list kind = .ok self)
    (hlength : self.axes.length = 2 ∨ self.axes.length = 3)
    (hfactor : ∀ axis ∈ self.axes, axis.factor ≠ 0) (v : Ordinates K) :
    self.toInternal (self.toCrs v) = v ∧ self.toCrs (self.toInternal v) = v ∧
      self.toInternal v = self.toInternalLoop v ∧ self.toCrs v = self.toCrsLoop v ∧
      (self.axes.length = 2 →
        (self.toInternal v).third = v.third ∧ (self.toCrs v).third = v.third) := by
  obtain ⟨f, g, hbuilt⟩ := built_of_axes constants h hlength
  exact ⟨(hbuilt.thereAndBack hfactor v).1, (hbuilt.thereAndBack hfactor v).2,
    hbuilt.toInternal_eq_loop v, hbuilt.toCrs_eq_loop v, fun htwo => hbuilt.third_of_two htwo v⟩

/-- A grid with diagonal axes in half metres, and its depth between them. -/
def diagonalGrid : List (AxisValue ℚ) :=
  [⟨some "x", some "northEast", .object (some (1 / 2)), none⟩,
    ⟨some "depth", some "down", .text "metre", none⟩,
    ⟨some "y", some "northWest", .null, none⟩]

theorem toInternal_toCrs_inverse_diagonalGrid :
    ∃ self, Ctx.axes ⟨22 / 7, 7 / 10⟩ ⟨"grid"⟩ (some diagonalGrid) .engineering = .ok self ∧
      self.toInternal (self.toCrs ⟨3, 5, 7⟩) = ⟨3, 5, 7⟩ := by
  have haxes : Ctx.axes ⟨22 / 7, 7 / 10⟩ ⟨"grid"⟩ (some diagonalGrid) .engineering =
      .ok ⟨[⟨7 / 10, 7 / 10, 0, 1 / 2⟩, ⟨0, 0, -1, 1⟩, ⟨-7 / 10, 7 / 10, 0, 1⟩],
        ⟨5 / 7, -5 / 7, 5 / 7, 5 / 7⟩, false⟩ := by
    decide +kernel
  refine ⟨_, haxes, (toInternal_toCrs_inverse _ haxes (Or.inr rfl) ?_ _).1⟩
  decide +kernel

end Xeibe.Reproject.CoordinateSystem

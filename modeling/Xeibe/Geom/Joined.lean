import Xeibe.Geom.Model

/-!
# Joining coordinate sequences

`Coords::push` and `Coords::append_joined`: one sequence behind another, where
the position they share is kept once.  A sequence is flat when its ordinates are
whole positions; then joining is appending lists of positions.
-/

namespace Xeibe.Geom

namespace F64

/-- Not all exponent bits are set. -/
def finiteBits (value : F64) : Bool := value.bits &&& 0x7ff0000000000000 != 0x7ff0000000000000

def isZero (value : F64) : Bool := value.bits &&& 0x7fffffffffffffff == 0

/-- `a - b == 0.0`: both are finite and equal.  The difference of two different doubles
is never rounded to zero. -/
def differenceIsZero (a b : F64) : Bool :=
  a.finiteBits && b.finiteBits && (a == b || a.isZero && b.isZero)

end F64

/-- `distance_xy(a, b) == 0.0`. -/
def coincide (a b : List F64) : Bool :=
  (a.getD 0 .nan).differenceIsZero (b.getD 0 .nan) &&
    (a.getD 1 .nan).differenceIsZero (b.getD 1 .nan)

/-- The planar part of a position. -/
def xy (position : List F64) : List F64 := position.take 2

theorem coincide_xy (a b : List F64) : coincide (xy a) (xy b) = coincide a b := by
  simp [coincide, xy, List.getD_eq_getElem?_getD]

/-- A position padded with NaN or truncated. -/
def resize (size : Nat) (position : List F64) : List F64 :=
  position.take size ++ List.replicate (size - position.length) .nan

@[simp] theorem resize_length (size : Nat) (position : List F64) :
    (resize size position).length = size := by
  simp only [resize, List.length_append, List.length_take, List.length_replicate]
  omega

theorem resize_of_length {size : Nat} {position : List F64} (h : position.length = size) :
    resize size position = position := by
  simp [resize, ← h]

theorem xy_resize {size : Nat} {position : List F64} (hs : 2 ≤ size) (hp : 2 ≤ position.length) :
    xy (resize size position) = xy position := by
  have hle : 2 ≤ (position.take size).length := by
    rw [List.length_take]
    omega
  rw [xy, resize, List.take_append_of_le_length hle, List.take_take, Nat.min_eq_left hs, xy]

namespace Coords

theorem two_le_size (coords : Coords) : 2 ≤ coords.size := by
  unfold size
  cases coords.dim with
  | none => decide
  | some dim => cases dim <;> decide

def get (coords : Coords) (i : Nat) : List F64 :=
  (coords.values.drop (i * coords.size)).take coords.size

def first (coords : Coords) : Option (List F64) :=
  if coords.isEmpty then none else some (coords.get 0)

def last (coords : Coords) : Option (List F64) :=
  if coords.isEmpty then none else some (coords.get (coords.len - 1))

/-- Append one position.  The first push fixes the dimension if it is still unknown. -/
def push (coords : Coords) (position : List F64) : Coords :=
  let dim := coords.dim.getD (if position.length ≥ 3 then .xyz else .xy)
  { dim := some dim, values := coords.values ++ resize dim.size position }

/-- Append `other`'s positions from `skip` on, converted to our dimension. -/
def extendPositions (coords other : Coords) (skip : Nat) : Coords :=
  if other.size = coords.size then
    let start := min (skip * other.size) other.values.length
    { coords with values := coords.values ++ other.values.drop start }
  else
    (other.positions.drop skip).foldl push coords

/-- The dimension of the other sequence where ours is still unknown. -/
def orDim (coords other : Coords) : Coords :=
  if coords.dim.isNone then { coords with dim := other.dim } else coords

/-- Append `other`, dropping its first position if it is joined to our last one. -/
def appendJoined (joins : List F64 → List F64 → Bool) (coords other : Coords) : Coords :=
  let coords := coords.orDim other
  match coords.last, other.first with
  | some last, some first =>
    extendPositions coords other (if joins last first then 1 else 0)
  | _, _ => extendPositions coords other 0

/-! ## Flat sequences -/

/-- The ordinates are whole positions, of a known dimension if there are any. -/
structure Flat (coords : Coords) : Prop where
  known : coords.dim = none → coords.values = []
  whole : coords.values.length % coords.size = 0

namespace Flat

variable {coords other : Coords}

theorem empty : Flat { dim := none, values := [] } := ⟨fun _ => rfl, rfl⟩

theorem flatten (h : coords.Flat) : coords.positions.flatten = coords.values := by
  have hlen : coords.values.length / coords.size * coords.size = coords.values.length :=
    Nat.div_mul_cancel (Nat.dvd_of_mod_eq_zero h.whole)
  rw [positions, chunksExact_flatten, hlen, List.take_length]

theorem isEmpty_iff (h : coords.Flat) : coords.isEmpty = true ↔ coords.positions = [] := by
  rw [isEmpty, List.isEmpty_iff]
  constructor
  · intro he
    simp [positions, chunksExact, he]
  · intro he
    rw [← h.flatten, he, List.flatten_nil]

end Flat

theorem length_of_mem_positions {coords : Coords} {position : List F64}
    (h : position ∈ coords.positions) : position.length = coords.size :=
  length_of_mem_chunksExact h

theorem positions_of_flatten {coords : Coords} {positions : List (List F64)}
    (hv : coords.values = positions.flatten) (h : ∀ p ∈ positions, p.length = coords.size) :
    coords.positions = positions := by
  rw [Coords.positions, hv, chunksExact_of_flatten coords.size_pos h]

theorem getElem_positions {coords : Coords} {i : Nat} (hi : i < coords.positions.length) :
    coords.positions[i] = coords.get i := by
  simp [positions, chunksExact, get]

theorem first_eq {coords : Coords} (h : coords.Flat) : coords.first = coords.positions.head? := by
  unfold first
  by_cases he : coords.isEmpty = true
  · rw [if_pos he, h.isEmpty_iff.mp he]
    rfl
  · have hne : coords.positions ≠ [] := fun hp => he (h.isEmpty_iff.mpr hp)
    have hpos : 0 < coords.positions.length := List.length_pos_of_ne_nil hne
    rw [if_neg he, List.head?_eq_getElem?, List.getElem?_eq_getElem hpos, getElem_positions hpos]

theorem last_eq {coords : Coords} (h : coords.Flat) :
    coords.last = coords.positions.getLast? := by
  unfold last
  by_cases he : coords.isEmpty = true
  · rw [if_pos he, h.isEmpty_iff.mp he]
    rfl
  · have hne : coords.positions ≠ [] := fun hp => he (h.isEmpty_iff.mpr hp)
    have hpos : 0 < coords.positions.length := List.length_pos_of_ne_nil hne
    rw [if_neg he, List.getLast?_eq_getElem?, List.getElem?_eq_getElem (by omega),
      getElem_positions (by omega), positions_length]

/-! ## What joining does to positions -/

theorem foldl_push (positions : List (List F64)) {coords : Coords} {dim : Dim}
    (h : coords.dim = some dim) :
    positions.foldl push coords =
      ⟨some dim, coords.values ++ (positions.map (resize dim.size)).flatten⟩ := by
  induction positions generalizing coords with
  | nil =>
    rw [← h]
    simp
  | cons position positions ih =>
    rw [List.foldl_cons, ih (by simp [push, h])]
    simp [push, h]

theorem size_of_dim {coords : Coords} {dim : Dim} (h : coords.dim = some dim) :
    coords.size = dim.size := by
  simp [size, h]

theorem map_resize_eq {size : Nat} {positions : List (List F64)}
    (h : ∀ p ∈ positions, p.length = size) : positions.map (resize size) = positions :=
  (List.map_congr_left fun p hp => resize_of_length (h p hp)).trans (List.map_id _)

theorem flatten_drop {size : Nat} (skip : Nat) {chunks : List (List F64)}
    (h : ∀ chunk ∈ chunks, chunk.length = size) :
    (chunks.drop skip).flatten = chunks.flatten.drop (skip * size) := by
  induction skip generalizing chunks with
  | zero => simp
  | succ skip ih =>
    cases chunks with
    | nil => simp
    | cons chunk chunks =>
      have hlength : (skip + 1) * size = chunk.length + skip * size := by
        rw [h chunk (by simp), Nat.succ_mul, Nat.add_comm]
      rw [List.drop_succ_cons, ih fun c hc => h c (List.mem_cons_of_mem _ hc),
        List.flatten_cons, hlength, List.drop_length_add_append]

theorem extendPositions_eq {coords other : Coords} (ho : other.Flat)
    (hd : coords.dim = none → other.dim = none) (skip : Nat) :
    coords.extendPositions other skip = { coords with values :=
      coords.values ++ ((other.positions.drop skip).map (resize coords.size)).flatten } := by
  unfold extendPositions
  split
  · rename_i hsize
    have hresize : (other.positions.drop skip).map (resize coords.size) =
        other.positions.drop skip := by
      refine map_resize_eq fun p hp => ?_
      rw [← hsize]
      exact length_of_mem_positions (List.mem_of_mem_drop hp)
    have hdrop : (other.positions.drop skip).flatten = other.values.drop (skip * other.size) := by
      rw [flatten_drop skip fun _ => length_of_mem_positions, ho.flatten]
    have hmin : other.values.drop (min (skip * other.size) other.values.length) =
        other.values.drop (skip * other.size) := by
      rcases Nat.le_total (skip * other.size) other.values.length with hle | hle
      · rw [Nat.min_eq_left hle]
      · rw [Nat.min_eq_right hle, List.drop_length, List.drop_eq_nil_of_le hle]
    show Coords.mk coords.dim (coords.values ++ other.values.drop _) = _
    rw [hmin, hresize, hdrop]
  · rename_i hsize
    cases hc : coords.dim with
    | none =>
      exfalso
      refine hsize ?_
      simp [size, hc, hd hc]
    | some dim =>
      rw [foldl_push _ hc, size_of_dim hc]

/-- The positions to leave out of `other` behind `coords`. -/
def overlap (joins : List F64 → List F64 → Bool) (before behind : List (List F64)) : Nat :=
  match before.getLast?, behind.head? with
  | some last, some first => if joins last first then 1 else 0
  | _, _ => 0

theorem orDim_dim (coords other : Coords) : (coords.orDim other).dim = coords.dim.or other.dim := by
  unfold orDim
  cases h : coords.dim <;> simp [h]

theorem orDim_values (coords other : Coords) : (coords.orDim other).values = coords.values := by
  unfold orDim
  split <;> rfl

theorem orDim_of_known {coords other : Coords} {dim : Dim} (h : coords.dim = some dim) :
    coords.orDim other = coords := by
  simp [orDim, h]

theorem Flat.orDim {coords : Coords} (h : coords.Flat) (other : Coords) :
    (coords.orDim other).Flat := by
  cases hd : coords.dim with
  | none =>
    have hempty : (coords.orDim other).values = [] := by
      rw [orDim_values, h.known hd]
    refine ⟨fun _ => hempty, ?_⟩
    rw [hempty]
    exact Nat.zero_mod _
  | some dim =>
    rwa [orDim_of_known hd]

theorem positions_of_empty {coords : Coords} (h : coords.values = []) : coords.positions = [] := by
  simp [positions, chunksExact, h]

theorem Flat.orDim_positions {coords : Coords} (h : coords.Flat) (other : Coords) :
    (coords.orDim other).positions = coords.positions := by
  cases hd : coords.dim with
  | none =>
    rw [positions_of_empty (h.known hd), positions_of_empty]
    rw [orDim_values, h.known hd]
  | some dim => rw [orDim_of_known hd]

/-- What of `other` comes behind `coords`, in the dimension of both. -/
def appended (joins : List F64 → List F64 → Bool) (coords other : Coords) : List (List F64) :=
  (other.positions.drop (overlap joins coords.positions other.positions)).map
    (resize (coords.orDim other).size)

theorem appendJoined_eq {coords other : Coords} (hc : coords.Flat) (ho : other.Flat)
    (joins : List F64 → List F64 → Bool) :
    coords.appendJoined joins other = { coords.orDim other with
      values := coords.values ++ (appended joins coords other).flatten } := by
  have hd : (coords.orDim other).dim = none → other.dim = none := by
    rw [orDim_dim]
    exact fun h => (Option.or_eq_none_iff.mp h).2
  have hextend := extendPositions_eq ho hd
  rw [orDim_values] at hextend
  unfold appendJoined appended overlap
  simp only [last_eq (hc.orDim other), first_eq ho, hc.orDim_positions]
  cases coords.positions.getLast? with
  | none => exact hextend 0
  | some last =>
    cases other.positions.head? with
    | none => exact hextend 0
    | some first => exact hextend _

theorem length_of_mem_appended {coords other : Coords} (hc : coords.Flat)
    {joins : List F64 → List F64 → Bool} {position : List F64}
    (h : position ∈ coords.positions ++ appended joins coords other) :
    position.length = (coords.orDim other).size := by
  rcases List.mem_append.mp h with h | h
  · rw [← hc.orDim_positions other] at h
    exact length_of_mem_positions h
  · obtain ⟨_, _, rfl⟩ := List.mem_map.mp h
    exact resize_length _ _

theorem positions_appendJoined {coords other : Coords} (hc : coords.Flat) (ho : other.Flat)
    (joins : List F64 → List F64 → Bool) :
    (coords.appendJoined joins other).positions =
      coords.positions ++ appended joins coords other := by
  rw [appendJoined_eq hc ho]
  refine positions_of_flatten ?_ fun _ hposition => length_of_mem_appended hc hposition
  rw [List.flatten_append, hc.flatten]

theorem flat_of_positions {coords : Coords} (hknown : coords.dim = none → coords.values = [])
    {positions : List (List F64)} (hv : coords.values = positions.flatten)
    (h : ∀ p ∈ positions, p.length = coords.size) : coords.Flat := by
  refine ⟨hknown, ?_⟩
  rw [hv, List.length_flatten, List.map_congr_left h, List.map_const', List.sum_replicate_nat,
    Nat.mul_mod_left]

theorem Flat.appendJoined {coords other : Coords} (hc : coords.Flat) (ho : other.Flat)
    (joins : List F64 → List F64 → Bool) : (coords.appendJoined joins other).Flat := by
  have hv : coords.values ++ (appended joins coords other).flatten =
      (coords.positions ++ appended joins coords other).flatten := by
    rw [List.flatten_append, hc.flatten]
  rw [appendJoined_eq hc ho]
  refine flat_of_positions (fun h => ?_) hv fun _ hposition => length_of_mem_appended hc hposition
  have hdims : coords.dim = none ∧ other.dim = none := by
    rw [← Option.or_eq_none_iff, ← orDim_dim]
    exact h
  show coords.values ++ _ = _
  rw [hc.known hdims.1, appended, positions_of_empty (ho.known hdims.2)]
  simp

/-! ## Seen from above -/

/-- The planar positions. -/
def xys (coords : Coords) : List (List F64) := coords.positions.map xy

/-- One list of planar positions behind another, the position they share once. -/
def behind (before other : List (List F64)) : List (List F64) :=
  before ++ other.drop (overlap coincide before other)

theorem overlap_xys (coords other : Coords) :
    overlap coincide coords.xys other.xys = overlap coincide coords.positions other.positions := by
  unfold overlap xys
  rw [List.getLast?_map, List.head?_map]
  cases coords.positions.getLast? <;> cases other.positions.head? <;> simp [coincide_xy]

theorem xys_appendJoined {coords other : Coords} (hc : coords.Flat) (ho : other.Flat) :
    (coords.appendJoined coincide other).xys = behind coords.xys other.xys := by
  have hresize : ∀ position ∈ other.positions,
      xy (resize (coords.orDim other).size position) = xy position := by
    intro position hposition
    refine xy_resize (two_le_size _) ?_
    rw [length_of_mem_positions hposition]
    exact two_le_size other
  unfold behind
  rw [overlap_xys, xys, positions_appendJoined hc ho, appended, List.map_append, List.map_map, xys,
    xys, ← List.map_drop]
  congr 1
  exact List.map_congr_left fun position h => hresize position (List.mem_of_mem_drop h)

/-! ## A whole run of parts -/

/-- The parts joined into one sequence. -/
def join (parts : List Coords) : Coords :=
  parts.foldl (appendJoined coincide) ⟨none, []⟩

/-- The planar positions of the parts in order, what two of them share once. -/
def joinedXys (parts : List Coords) : List (List F64) :=
  parts.foldl (fun before part => behind before part.xys) []

theorem foldl_appendJoined (parts : List Coords) {coords : Coords} (hc : coords.Flat)
    (h : ∀ part ∈ parts, part.Flat) :
    (parts.foldl (appendJoined coincide) coords).Flat ∧
      (parts.foldl (appendJoined coincide) coords).xys =
        parts.foldl (fun before part => behind before part.xys) coords.xys := by
  induction parts generalizing coords with
  | nil => exact ⟨hc, rfl⟩
  | cons part parts ih =>
    have hpart : part.Flat := h part List.mem_cons_self
    have hrest := ih (hc.appendJoined hpart coincide) fun p hp => h p (List.mem_cons_of_mem _ hp)
    rw [xys_appendJoined hc hpart] at hrest
    exact hrest

theorem flat_join {parts : List Coords} (h : ∀ part ∈ parts, part.Flat) : (join parts).Flat :=
  (foldl_appendJoined parts Flat.empty h).1

theorem xys_join {parts : List Coords} (h : ∀ part ∈ parts, part.Flat) :
    (join parts).xys = joinedXys parts :=
  (foldl_appendJoined parts Flat.empty h).2

theorem join_singleton (part : Coords) : join [part] = part := by
  have hlast : ∀ dim, last ⟨dim, []⟩ = none := fun _ => rfl
  have hsize : part.size = (⟨part.dim, []⟩ : Coords).size := rfl
  show appendJoined coincide ⟨none, []⟩ part = part
  simp [appendJoined, orDim, hlast, extendPositions, ← hsize]

/-- The joined sequence has the dimension of the first part that has one. -/
theorem join_dim {parts : List Coords} (h : ∀ part ∈ parts, part.Flat) :
    (join parts).dim = parts.findSome? Coords.dim := by
  suffices hrun : ∀ (parts : List Coords) (coords : Coords), coords.Flat →
      (∀ part ∈ parts, part.Flat) → (parts.foldl (appendJoined coincide) coords).dim =
        coords.dim.or (parts.findSome? Coords.dim) by
    rw [join, hrun parts _ Flat.empty h]
    rfl
  intro parts
  induction parts with
  | nil => simp
  | cons part parts ih =>
    intro coords hc h
    have hpart : part.Flat := h part List.mem_cons_self
    rw [List.foldl_cons, ih _ (hc.appendJoined hpart coincide)
      fun p hp => h p (List.mem_cons_of_mem _ hp), appendJoined_eq hc hpart]
    show ((coords.orDim part).dim).or _ = _
    rw [orDim_dim, Option.or_assoc, List.findSome?_cons]
    cases part.dim <;> simp

theorem isEmpty_join {parts : List Coords} (h : ∀ part ∈ parts, part.Flat) :
    (join parts).isEmpty = parts.all Coords.isEmpty := by
  suffices hrun : ∀ (parts : List Coords) (coords : Coords), coords.Flat →
      (∀ part ∈ parts, part.Flat) → ((parts.foldl (appendJoined coincide) coords).isEmpty =
        (coords.isEmpty && parts.all Coords.isEmpty)) by
    rw [join, hrun parts _ Flat.empty h]
    rfl
  intro parts
  induction parts with
  | nil => simp
  | cons part parts ih =>
    intro coords hc h
    have hpart : part.Flat := h part List.mem_cons_self
    have hjoined := hc.appendJoined hpart coincide
    have hempty : (coords.appendJoined coincide part).isEmpty =
        (coords.isEmpty && part.isEmpty) := by
      rw [Bool.eq_iff_iff, hjoined.isEmpty_iff, positions_appendJoined hc hpart,
        List.append_eq_nil_iff, Bool.and_eq_true, hc.isEmpty_iff,
        hpart.isEmpty_iff]
      refine and_congr_right fun hnil => ?_
      simp [hnil, appended, overlap]
    rw [List.foldl_cons, ih _ hjoined fun p hp => h p (List.mem_cons_of_mem _ hp), hempty,
      List.all_cons, Bool.and_assoc]

end Coords

end Xeibe.Geom

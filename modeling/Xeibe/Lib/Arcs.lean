import Mathlib.Order.MinMax
import Mathlib.Tactic.Order

/-!
# Arcs

The arcs of a circle that is cut open: from `low` to `high`, a linear order.  An arc
that crosses the cut has its western end above its eastern one.

`Arc.Contains` decides by cases whether an arc lies in another, and `common` lists
what two arcs have in common.
-/

namespace Xeibe.Lib

variable {α : Type} [LinearOrder α]

structure Arc (α : Type) where
  west : α
  east : α

namespace Arc

variable (low high : α)

/-- The ends lie on the circle, and there is more than one point between them. -/
structure Proper (a : Arc α) : Prop where
  low_le_west : low ≤ a.west
  west_le_high : a.west ≤ high
  low_le_east : low ≤ a.east
  east_le_high : a.east ≤ high
  west_ne_east : a.west ≠ a.east

/-- The whole circle. -/
def Around (a : Arc α) : Prop := a.west = low ∧ a.east = high

instance (a : Arc α) : Decidable (a.Around low high) := inferInstanceAs (Decidable (_ ∧ _))

/-- The points of an arc. -/
def Mem (a : Arc α) (x : α) : Prop :=
  if a.west ≤ a.east then a.west ≤ x ∧ x ≤ a.east else a.west ≤ x ∨ x ≤ a.east

/-- Whether an arc contains another. -/
def Contains (a b : Arc α) : Prop :=
  if a.Around low high then b.west ≠ b.east
  else if b.Around low high then False
  else if a.west < a.east then b.west < b.east ∧ a.west ≤ b.west ∧ b.east ≤ a.east
  else if b.west < b.east then a.west ≤ b.west ∨ b.east ≤ a.east
  else a.west ≤ b.west ∧ b.east ≤ a.east

/-- What two arcs that don't cross the cut have in common, unless it is a point. -/
def overlap (a b : Arc α) : List (Arc α) :=
  if max a.west b.west < min a.east b.east then [⟨max a.west b.west, min a.east b.east⟩] else []

/-- The overlaps of an arc with one that crosses the cut, before and behind it. -/
def overlaps (a b : Arc α) : List (Arc α) := overlap a ⟨b.west, high⟩ ++ overlap a ⟨low, b.east⟩

/-- What two arcs have in common.  Of two that cross the cut it is the part that does
too. -/
def common (a b : Arc α) : List (Arc α) :=
  if a.west ≤ a.east then
    if b.west ≤ b.east then overlap a b
    else if a.Around low high then [b]
    else overlaps low high a b
  else if b.west ≤ b.east then
    if b.Around low high then [a] else overlaps low high b a
  else [⟨max a.west b.west, min a.east b.east⟩]

variable {low high}

theorem mem_of_le {a : Arc α} (h : a.west ≤ a.east) {x : α} :
    a.Mem x ↔ a.west ≤ x ∧ x ≤ a.east := by
  rw [Mem, if_pos h]

theorem mem_of_lt {a : Arc α} (h : a.east < a.west) {x : α} :
    a.Mem x ↔ a.west ≤ x ∨ x ≤ a.east := by
  rw [Mem, if_neg (not_le_of_gt h)]

theorem Around.mem {a : Arc α} (h : a.Around low high) {x : α} (hlow : low ≤ x) (hhigh : x ≤ high) :
    a.Mem x := by
  rw [mem_of_le (h.1.trans_le (hlow.trans (hhigh.trans_eq h.2.symm))), h.1, h.2]
  exact ⟨hlow, hhigh⟩

/-! ## Containment -/

theorem Proper.contains_self {a : Arc α} (h : a.Proper low high) : a.Contains low high a := by
  unfold Contains
  have hne := h.west_ne_east
  split_ifs with haround hlt
  · exact hne
  · exact ⟨hlt, le_refl _, le_refl _⟩
  · exact ⟨le_refl _, le_refl _⟩

theorem Contains.trans {a b c : Arc α} (hc : c.west ≠ c.east) (hab : a.Contains low high b)
    (hbc : b.Contains low high c) : a.Contains low high c := by
  unfold Contains at *
  split_ifs at * <;> grind

theorem Contains.mem {a b : Arc α} (ha : a.west ≠ a.east) (h : a.Contains low high b) {x : α}
    (hlow : low ≤ x) (hhigh : x ≤ high) (hx : b.Mem x) : a.Mem x := by
  by_cases haround : a.Around low high
  · exact haround.mem hlow hhigh
  · unfold Contains at h
    unfold Mem at *
    rw [if_neg haround] at h
    split_ifs at * <;> grind

/-! ## What is common -/

theorem overlap_comm (a b : Arc α) : overlap a b = overlap b a := by
  rw [overlap, overlap, max_comm, min_comm]

theorem common_comm (a b : Arc α) : common low high a b = common low high b a := by
  unfold common
  split_ifs
  · exact overlap_comm a b
  · rfl
  · rfl
  · rfl
  · rfl
  · rw [max_comm, min_comm]

theorem mem_overlap {a b r : Arc α} (hr : r ∈ overlap a b) :
    r.west < r.east ∧ a.west ≤ r.west ∧ b.west ≤ r.west ∧ r.east ≤ a.east ∧ r.east ≤ b.east := by
  unfold overlap at hr
  split at hr
  · rename_i hlt
    rw [List.mem_singleton.1 hr]
    exact ⟨hlt, le_max_left _ _, le_max_right _ _, min_le_left _ _, min_le_right _ _⟩
  · cases hr

theorem mem_overlaps {a b r : Arc α} (hr : r ∈ overlaps low high a b) :
    r.west < r.east ∧ a.west ≤ r.west ∧ r.east ≤ a.east ∧ (b.west ≤ r.west ∨ r.east ≤ b.east) := by
  rcases List.mem_append.1 hr with hr | hr
  · obtain ⟨hlt, hwa, hwb, hea, -⟩ := mem_overlap hr
    exact ⟨hlt, hwa, hea, .inl hwb⟩
  · obtain ⟨hlt, hwa, -, hea, heb⟩ := mem_overlap hr
    exact ⟨hlt, hwa, hea, .inr heb⟩

/-- The points that arcs have in common are in the first, and by `common_comm` in the
second. -/
theorem mem_left_of_common {a b r : Arc α} (hr : r ∈ common low high a b) {x : α}
    (hlow : low ≤ x) (hhigh : x ≤ high) (hx : r.Mem x) : a.Mem x := by
  unfold common at hr
  split_ifs at hr with ha hb haround hb haround
  · obtain ⟨hlt, hwest, -, heast, -⟩ := mem_overlap hr
    rw [mem_of_le hlt.le] at hx
    exact (mem_of_le ha).2 ⟨hwest.trans hx.1, hx.2.trans heast⟩
  · exact haround.mem hlow hhigh
  · obtain ⟨hlt, hwest, heast, -⟩ := mem_overlaps hr
    rw [mem_of_le hlt.le] at hx
    exact (mem_of_le ha).2 ⟨hwest.trans hx.1, hx.2.trans heast⟩
  · rw [List.mem_singleton.1 hr] at hx
    exact hx
  · obtain ⟨hlt, -, -, hends⟩ := mem_overlaps hr
    rw [mem_of_le hlt.le] at hx
    rw [mem_of_lt (not_le.1 ha)]
    exact hends.imp (fun h => h.trans hx.1) fun h => hx.2.trans h
  · rw [List.mem_singleton.1 hr] at hx
    have hlt : min a.east b.east < max a.west b.west :=
      (min_le_left _ _).trans_lt ((not_le.1 ha).trans_le (le_max_left _ _))
    rw [mem_of_lt hlt] at hx
    rw [mem_of_lt (not_le.1 ha)]
    exact hx.imp (fun h => (le_max_left _ _).trans h) fun h => h.trans (min_le_left _ _)

theorem mem_right_of_common {a b r : Arc α} (hr : r ∈ common low high a b) {x : α}
    (hlow : low ≤ x) (hhigh : x ≤ high) (hx : r.Mem x) : b.Mem x :=
  mem_left_of_common (common_comm a b ▸ hr) hlow hhigh hx

theorem Proper.of_lt {r : Arc α} (hlow : low ≤ r.west) (hlt : r.west < r.east)
    (hhigh : r.east ≤ high) : r.Proper low high :=
  ⟨hlow, hlt.le.trans hhigh, hlow.trans hlt.le, hhigh, hlt.ne⟩

theorem Proper.common {a b r : Arc α} (ha : a.Proper low high) (hb : b.Proper low high)
    (hr : r ∈ common low high a b) : r.Proper low high := by
  unfold Arc.common at hr
  split_ifs at hr with hwa hwb haround hwb haround
  · obtain ⟨hlt, hwest, -, heast, -⟩ := mem_overlap hr
    exact .of_lt (ha.low_le_west.trans hwest) hlt (heast.trans ha.east_le_high)
  · exact List.mem_singleton.1 hr ▸ hb
  · obtain ⟨hlt, hwest, heast, -⟩ := mem_overlaps hr
    exact .of_lt (ha.low_le_west.trans hwest) hlt (heast.trans ha.east_le_high)
  · exact List.mem_singleton.1 hr ▸ ha
  · obtain ⟨hlt, hwest, heast, -⟩ := mem_overlaps hr
    exact .of_lt (hb.low_le_west.trans hwest) hlt (heast.trans hb.east_le_high)
  · have hlt : min a.east b.east < max a.west b.west :=
      (min_le_left _ _).trans_lt ((not_le.1 hwa).trans_le (le_max_left _ _))
    rw [List.mem_singleton.1 hr]
    exact ⟨ha.low_le_west.trans (le_max_left _ _), max_le ha.west_le_high hb.west_le_high,
      le_min ha.low_le_east hb.low_le_east, (min_le_left _ _).trans ha.east_le_high, hlt.ne'⟩

theorem common_ne_nil_of_contains {a b : Arc α} (ha : a.Proper low high) (hb : b.Proper low high)
    (h : a.Contains low high b) : common low high a b ≠ [] := by
  obtain ⟨_, _, _, _, _⟩ := ha
  obtain ⟨_, _, _, _, _⟩ := hb
  unfold Contains at h
  unfold common overlaps overlap Around at *
  split_ifs at * <;> grind

end Arc

end Xeibe.Lib

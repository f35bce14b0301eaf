import Mathlib.Algebra.Order.Group.Abs
import Mathlib.Algebra.Order.Ring.Int
import Mathlib.Data.List.Basic

/-!
# Paths on a circle

Places on a circle as numbers from minus half a turn to half a turn.  A path
from place to place goes the short way, which passes from one end of the numbers
to the other where two of them are more than half a turn apart.  Unwrapped, each
pass counts a turn.
-/

namespace Xeibe.Lib.Circle

variable (turn : Int)

/-- How far two places are apart, the short way. -/
def distance (a b : Int) : Int := min |a - b| (turn - |a - b|)

/-- The turns that the short way counts: one up where it passes from the upper
end to the lower one, one down where it passes the other way. -/
def jump (a b : Int) : Int :=
  if turn < 2 * (a - b) then 1 else if turn < 2 * (b - a) then -1 else 0

/-- The places of a path with the turns counted, after `before` and `turns`. -/
def unwrapped : Int → Int → List Int → List Int
  | _, _, [] => []
  | before, turns, v :: vs =>
    (v + turn * (turns + jump turn before v)) :: unwrapped v (turns + jump turn before v) vs

/-- How often a path passes from one end to the other. -/
def crossings : Int → List Int → Nat
  | _, [] => 0
  | before, v :: vs => (if jump turn before v = 0 then 0 else 1) + crossings v vs

variable {turn}

theorem jump_cases (a b : Int) :
    jump turn a b = 1 ∨ jump turn a b = -1 ∨ jump turn a b = 0 := by
  unfold jump
  split
  · exact Or.inl rfl
  · split
    · exact Or.inr (Or.inl rfl)
    · exact Or.inr (Or.inr rfl)

theorem unwrapped_of_crossings_eq_zero {before turns : Int} {vs : List Int}
    (h : crossings turn before vs = 0) :
    unwrapped turn before turns vs = vs.map fun v => v + turn * turns := by
  induction vs generalizing before with
  | nil => rfl
  | cons v vs ih =>
    rw [crossings, Nat.add_eq_zero_iff] at h
    have hjump : jump turn before v = 0 := by
      by_contra hne
      rw [if_neg hne] at h
      exact absurd h.1 Nat.one_ne_zero
    rw [unwrapped, hjump, Int.add_zero, ih h.2, List.map_cons]

/-- A path that passes once more, up to there and from there. -/
theorem exists_of_crossings_pos {before : Int} {vs : List Int}
    (h : 0 < crossings turn before vs) :
    ∃ first v rest, vs = first ++ v :: rest ∧ crossings turn before first = 0 ∧
      jump turn (first.getLastD before) v ≠ 0 ∧
      crossings turn before vs = crossings turn v rest + 1 ∧
      ∀ turns, unwrapped turn before turns vs =
        first.map (fun w => w + turn * turns) ++
          (v + turn * (turns + jump turn (first.getLastD before) v)) ::
            unwrapped turn v (turns + jump turn (first.getLastD before) v) rest := by
  induction vs generalizing before with
  | nil => exact absurd h (Nat.lt_irrefl 0)
  | cons w vs ih =>
    by_cases hjump : jump turn before w = 0
    · rw [crossings, if_pos hjump, Nat.zero_add] at h
      obtain ⟨first, v, rest, rfl, hfirst, hv, hcount, hpath⟩ := ih h
      have hlast : (w :: first).getLastD before = first.getLastD w := by
        cases first <;> rfl
      refine ⟨w :: first, v, rest, rfl, ?_, ?_, ?_, fun turns => ?_⟩
      · rw [crossings, if_pos hjump, hfirst]
      · rwa [hlast]
      · rw [crossings, if_pos hjump, hcount, Nat.zero_add]
      · rw [unwrapped, hjump, Int.add_zero, hpath, hlast]
        rfl
    · refine ⟨[], w, vs, rfl, rfl, hjump, ?_, fun turns => rfl⟩
      rw [crossings, if_neg hjump, Nat.add_comm]

theorem jump_spec (a b : Int) :
    (jump turn a b ≠ -1 → 2 * (b + turn * jump turn a b - a) ≤ turn) ∧
      (jump turn a b ≠ 1 → 2 * (a - (b + turn * jump turn a b)) ≤ turn) := by
  unfold jump
  split
  · exact ⟨fun _ => by omega, fun h => absurd rfl h⟩
  · split
    · exact ⟨fun h => absurd rfl h, fun _ => by omega⟩
    · exact ⟨fun _ => by omega, fun _ => by omega⟩

/-- A path round to its last place that passes twice and spans less than a turn: it goes over and
comes back, and what lies beyond is apart from the rest by the direction it went. -/
theorem exists_of_crossings_two {last : Int} {vs : List Int}
    (hlast : vs.getLast? = some last) (hcount : crossings turn last vs = 2)
    (hspan : ∀ a ∈ unwrapped turn last 0 vs, ∀ b ∈ unwrapped turn last 0 vs, a - b < turn) :
    ∃ first v beyond w rest way, vs = first ++ v :: (beyond ++ w :: rest) ∧
      crossings turn last first = 0 ∧ jump turn (first.getLastD last) v = way ∧
      crossings turn v beyond = 0 ∧ jump turn (beyond.getLastD v) w = -way ∧
      crossings turn w rest = 0 ∧ (way = 1 ∨ way = -1) ∧
      ∀ x ∈ first ++ w :: rest, ∀ y ∈ v :: beyond, 0 < way * (x - y) := by
  obtain ⟨first, v, after, rfl, hfirst, hv, hrest, hpath⟩ :=
    exists_of_crossings_pos (show 0 < crossings turn last vs by omega)
  obtain ⟨beyond, w, rest, rfl, hbeyond, hw, hend, hpath'⟩ :=
    exists_of_crossings_pos (show 0 < crossings turn v after by omega)
  have hnone : crossings turn w rest = 0 := by omega
  generalize hway : jump turn (first.getLastD last) v = way at hv hpath
  generalize hback : jump turn (beyond.getLastD v) w = back at hw hpath'
  have hunwrapped : unwrapped turn last 0 (first ++ v :: (beyond ++ w :: rest)) =
      first ++ (v :: beyond).map (fun y => y + turn * way) ++
        (w :: rest).map fun x => x + turn * (way + back) := by
    rw [hpath, hpath', unwrapped_of_crossings_eq_zero hnone]
    simp
  rw [hunwrapped] at hspan
  have hin : ∀ y ∈ v :: beyond, y + turn * way ∈ first ++
      (v :: beyond).map (fun y => y + turn * way) ++
        (w :: rest).map fun x => x + turn * (way + back) := fun y hy =>
    List.mem_append_left _ (List.mem_append_right _ (List.mem_map_of_mem hy))
  have hout : ∀ x ∈ w :: rest, x + turn * (way + back) ∈ first ++
      (v :: beyond).map (fun y => y + turn * way) ++
        (w :: rest).map fun x => x + turn * (way + back) := fun x hx =>
    List.mem_append_right _ (List.mem_map_of_mem hx)
  have hends : (w :: rest).getLast? = some last := by
    have heq : first ++ v :: (beyond ++ w :: rest) = (first ++ v :: beyond) ++ w :: rest := by
      simp
    rw [← hlast, heq, List.getLast?_append_cons]
  have hmem := List.mem_of_getLast? hends
  have hwaycases := hway ▸ @jump_cases turn (first.getLastD last) v
  have hbackcases := hback ▸ @jump_cases turn (beyond.getLastD v) w
  -- The path starts near its last place, so it cannot end a turn or two away.
  have hstart : ∃ u ∈ first ++ (v :: beyond).map (fun y => y + turn * way) ++
      (w :: rest).map (fun x => x + turn * (way + back)),
      (way ≠ -1 → 2 * (u - last) ≤ turn) ∧ (way ≠ 1 → 2 * (last - u) ≤ turn) := by
    cases first with
    | nil =>
      have hnear := @jump_spec turn last v
      rw [show jump turn last v = way from hway] at hnear
      exact ⟨v + turn * way, hin v List.mem_cons_self, hnear⟩
    | cons f first =>
      have hzero : jump turn last f = 0 := by
        by_contra hne
        rw [crossings, if_neg hne] at hfirst
        omega
      have hnear := @jump_spec turn last f
      rw [hzero, Int.mul_zero, Int.add_zero] at hnear
      exact ⟨f, by simp, fun _ => hnear.1 (by decide), fun _ => hnear.2 (by decide)⟩
  obtain ⟨u, hu, hnear, hnear'⟩ := hstart
  have hup := hspan _ (hout last hmem) u hu
  have hdown := hspan u hu _ (hout last hmem)
  have hback' : back = -way := by
    rcases hwaycases with rfl | rfl | rfl
    · rcases hbackcases with rfl | rfl | rfl
      · have := hnear (by decide)
        omega
      · rfl
      · exact absurd rfl hw
    · rcases hbackcases with rfl | rfl | rfl
      · rfl
      · have := hnear' (by decide)
        omega
      · exact absurd rfl hw
    · exact absurd rfl hv
  refine ⟨first, v, beyond, w, rest, way, rfl, hfirst, hway, hbeyond, hback.trans hback', hnone,
    ?_, fun x hx y hy => ?_⟩
  · rcases hwaycases with h | h | h
    · exact Or.inl h
    · exact Or.inr h
    · exact absurd h hv
  · have hx' : x ∈ first ++ (v :: beyond).map (fun y => y + turn * way) ++
        (w :: rest).map fun x => x + turn * (way + back) := by
      rcases List.mem_append.1 hx with hx | hx
      · exact List.mem_append_left _ (List.mem_append_left _ hx)
      · have hshift := hout x hx
        have heq : x + turn * (way + back) = x := by
          rw [hback', Int.add_right_neg, Int.mul_zero, Int.add_zero]
        rwa [heq] at hshift
    have hhigh := hspan _ (hin y hy) x hx'
    have hlow := hspan x hx' _ (hin y hy)
    rcases hwaycases with rfl | rfl | rfl
    · omega
    · omega
    · exact absurd rfl hv

end Xeibe.Lib.Circle

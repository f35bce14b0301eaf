import Xeibe.Reproject.Tin.Search
import Mathlib.Data.Rat.Floor
import Mathlib.Algebra.Order.Archimedean.Real.Basic
import Mathlib.Analysis.Real.Sqrt

/-!
# The triangle that is found

What the search through the index and the pruning gives, and what the plain one
over all triangles gives.
-/

namespace Xeibe.Reproject.Tin

open Xeibe.Lib

variable {K : Type} [Field K] [LinearOrder K]

section Index

variable [FloorRing K]

/-- Whether the bucket of a point has a triangle: whether its box overlaps it. -/
def InBucket (self : Tin K) (forward : Bool) (x y : K) (i : Nat) : Prop :=
  (Index.new self forward).meets (self.corners forward i) x y = true

/-- The triangle that the plain search comes to first, if any, is in the point's
bucket. -/
def Reached (self : Tin K) (forward : Bool) (x y : K) : Prop :=
  ∀ found, self.firstOf forward x y self.all = some found → self.InBucket forward x y found.1

variable (self : Tin K) (forward : Bool) (x y : K)

theorem firstOf_candidates_eq_iff :
    self.firstOf forward x y ((Index.new self forward).candidates x y) =
      self.firstOf forward x y self.all ↔ self.Reached forward x y := by
  rw [Index.candidates_new]
  refine Skipped.findSome?_filter_eq_iff Prod.fst (fun i found h => ?_) _ _
  obtain ⟨weights, -, rfl⟩ := Option.map_eq_some_iff.1 h
  rfl

theorem isSome_firstOf_all
    (h : (self.firstOf forward x y ((Index.new self forward).candidates x y)).isSome = true) :
    (self.firstOf forward x y self.all).isSome = true := by
  rw [Index.candidates_new] at h
  simp only [firstOf, List.findSome?_isSome_iff] at h ⊢
  obtain ⟨i, hi, hfound⟩ := h
  exact ⟨i, (List.mem_filter.1 hi).1, hfound⟩

theorem isSome_firstOf_candidates {i : Nat} (hi : i ∈ self.all)
    (hbucket : self.InBucket forward x y i)
    (h : ((self.corners forward i).containing x y).isSome = true) :
    (self.firstOf forward x y ((Index.new self forward).candidates x y)).isSome = true := by
  rw [Index.candidates_new, firstOf, List.findSome?_isSome_iff]
  exact ⟨i, List.mem_filter.2 ⟨hi, hbucket⟩, by rwa [Option.isSome_map]⟩

end Index

section Pruned

variable [IsStrictOrderedRing K] (self : Tin K) (forward : Bool) (x y : K) {sqrt : K → K}
  (hsqrt : ∀ a, 0 ≤ a → 0 ≤ sqrt a ∧ sqrt a ^ 2 = a)
include hsqrt

theorem fallBack_isAway : self.fallBack sqrt (fun c => c.isAway x y) forward x y =
    self.fallBack sqrt (fun _ _ => false) forward x y := by
  rw [fallBack, fallBack, nearest_isAway self forward x y hsqrt]

theorem find_eq_scan [FloorRing K] (h : self.Reached forward x y) :
    self.find sqrt x y forward = self.scan sqrt x y forward := by
  rw [find, scan, fallBack_isAway self forward x y hsqrt,
    (self.firstOf_candidates_eq_iff forward x y).2 h]

/-- The index gives the triangle of the plain search exactly where the point's
bucket has that triangle, as it has every triangle whose box the point is in and
so every one that it is in without the tolerance.  The pruned search gives the
triangle of the one that leaves none out, at the least distance. -/
theorem find_through_index [FloorRing K] :
    (self.firstOf forward x y ((Index.new self forward).candidates x y) =
        self.firstOf forward x y self.all ↔ self.Reached forward x y) ∧
      ((self.firstOf forward x y ((Index.new self forward).candidates x y)).isSome = true →
        (self.firstOf forward x y self.all).isSome = true) ∧
      (∀ i ∈ self.all, self.InBucket forward x y i →
        ((self.corners forward i).containing x y).isSome = true →
        (self.firstOf forward x y ((Index.new self forward).candidates x y)).isSome = true) ∧
      (∀ i, (self.corners forward i).InBox x y → self.InBucket forward x y i) ∧
      (∀ i l1 l2 l3, (self.corners forward i).weights x y = some (l1, l2, l3) →
        0 ≤ l1 → 0 ≤ l2 → 0 ≤ l3 → (self.corners forward i).InBox x y) ∧
      (self.fallBack sqrt (fun c => c.isAway x y) forward x y =
        self.fallBack sqrt (fun _ _ => false) forward x y) ∧
      (∀ found, self.fallBack sqrt (fun c => c.isAway x y) forward x y = some found →
        found.1 ∈ self.all ∧ ∃ least ∈ self.costs forward x y found.1,
          ∀ j ∈ self.all, ∀ d2 ∈ self.costs forward x y j, least ≤ d2) ∧
      (self.Reached forward x y → self.find sqrt x y forward = self.scan sqrt x y forward) ∧
      (self.Reached true x y →
        ∀ z, self.forward (self.find sqrt) x y z = self.forward (self.scan sqrt) x y z) ∧
      (self.Reached (!self.horizontal && self.vertical) x y →
        ∀ z, self.inverse (self.find sqrt) x y z = self.inverse (self.scan sqrt) x y z) := by
  have hprune := self.fallBack_isAway forward x y hsqrt
  refine ⟨self.firstOf_candidates_eq_iff forward x y, self.isSome_firstOf_all forward x y,
    fun i hi hbucket => self.isSome_firstOf_candidates forward x y hi hbucket,
    fun i => Index.meets_of_inBox self forward, fun i l1 l2 l3 => Corners.inBox_of_weights,
    hprune, fun found h => self.least_of_fallBack forward x y (hprune ▸ h),
    self.find_eq_scan forward x y hsqrt, fun h z => ?_, fun h z => ?_⟩
  · rw [Tin.forward, Tin.forward, self.find_eq_scan true x y hsqrt h]
  · rw [inverse, inverse, self.find_eq_scan _ x y hsqrt h]

end Pruned

local instance apart_two : Nat.AtLeastTwo 2 := ⟨le_rfl⟩

local instance apart_ten : Nat.AtLeastTwo 10 := ⟨by decide⟩

local instance apart_three : Nat.AtLeastTwo 3 := ⟨by decide⟩

theorem apart_columns : 3 = 2 + (if false then 2 else 0) + true.toNat := rfl

/-- Two triangles in the opposite corners of a square; the first one ends short
of the middle, by less than the tolerance. -/
def apart (fallback : Fallback) : Tin K where
  horizontal := false
  vertical := true
  vertices := [0, 0, 1, 2 - 1 / 10 ^ 10, 0, 1, 0, 2 - 1 / 10 ^ 10, 1, 3, 3, 1, 4, 3, 1, 4, 4, 1]
  columns := 3
  triangles := [(0, 1, 2), (3, 4, 5)]
  fallback := fallback
  columns_eq := apart_columns
  whole := ⟨6, rfl⟩
  known := by simp

theorem find_through_index_apart :
    (apart .nearestSide : Tin ℝ).fallBack Real.sqrt (fun c => c.isAway 2 1) true 2 1 =
      (apart .nearestSide : Tin ℝ).fallBack Real.sqrt (fun _ _ => false) true 2 1 :=
  (find_through_index (apart .nearestSide : Tin ℝ) true 2 1
    fun a ha => ⟨Real.sqrt_nonneg a, Real.sq_sqrt ha⟩).2.2.2.2.2.1

/-- In the next bucket, within the tolerance, the first triangle is missed. -/
theorem apart_missed : ((apart .none : Tin ℚ).firstOf true 2 0 [0, 1]).map Prod.fst = some 0 ∧
    ∀ sqrt : ℚ → ℚ, (apart .none : Tin ℚ).find sqrt 2 0 true = none ∧
      (apart .none : Tin ℚ).forward ((apart .none : Tin ℚ).find sqrt) 2 0 0 = none ∧
      (apart .none : Tin ℚ).forward ((apart .none : Tin ℚ).scan sqrt) 2 0 0 = some (2, 0, 1) := by
  have hindex : (apart .none : Tin ℚ).firstOf true 2 0
      ((Index.new (apart .none : Tin ℚ) true).candidates 2 0) = none := by decide +kernel
  have hall : (apart .none : Tin ℚ).firstOf true 2 0 (apart .none : Tin ℚ).all =
      some (0, 1 - 2 / (2 - 1 / 10 ^ 10), 2 / (2 - 1 / 10 ^ 10), 0) := by decide +kernel
  have hmoved : (apart .none : Tin ℚ).forward (fun _ _ _ =>
      some (0, 1 - 2 / (2 - 1 / 10 ^ 10), 2 / (2 - 1 / 10 ^ 10), 0)) 2 0 0 = some (2, 0, 1) := by
    decide +kernel
  have hfall : ∀ (sqrt : ℚ → ℚ) skips,
      (apart .none : Tin ℚ).fallBack sqrt skips true 2 0 = none := fun _ _ => rfl
  refine ⟨congrArg (Option.map Prod.fst) hall, fun sqrt => ?_⟩
  have hfind : (apart .none : Tin ℚ).find sqrt 2 0 true = none := by
    rw [find, hindex, hfall]
    rfl
  have hscan : (apart .none : Tin ℚ).scan sqrt 2 0 true =
      some (0, 1 - 2 / (2 - 1 / 10 ^ 10), 2 / (2 - 1 / 10 ^ 10), 0) := by
    rw [scan, hall, Option.some_or]
  refine ⟨hfind, ?_, ?_⟩
  · rw [Tin.forward, hfind]
    rfl
  · rw [Tin.forward, hscan]
    exact hmoved

end Xeibe.Reproject.Tin

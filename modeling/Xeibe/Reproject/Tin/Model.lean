import Xeibe.Lib.Skipped
import Mathlib.Algebra.Order.Archimedean.Basic
import Mathlib.Algebra.Order.Floor.Ring

/-!
# Triangulated transformations

The search for the triangle that a point is in: the buckets of a uniform grid,
the test with its tolerance, and the search for the closest triangle for points
that are in none.  In exact arithmetic: numbers are those of an ordered field.
-/

namespace Xeibe.Reproject

inductive Fallback where
  | none
  | nearestSide
  | nearestCentroid
deriving DecidableEq

/-- A parsed TIN file.  The last three fields are what `parse` sees to. -/
structure Tin (K : Type) where
  horizontal : Bool
  vertical : Bool
  /-- Per vertex: source x, y; target x, y when horizontal; z offset when vertical. -/
  vertices : List K
  columns : Nat
  triangles : List (Nat × Nat × Nat)
  fallback : Fallback
  columns_eq : columns = 2 + (if horizontal then 2 else 0) + vertical.toNat
  whole : columns ∣ vertices.length
  known : ∀ tri ∈ triangles, ∀ vertex ∈ [tri.1, tri.2.1, tri.2.2],
    vertex < vertices.length / columns

namespace Tin

variable {K : Type} [Field K] [LinearOrder K]

local instance ten_atLeastTwo : Nat.AtLeastTwo 10 := ⟨by decide⟩

def EPS : K := 1 / 10 ^ 10

/-- `f64::MAX`. -/
def f64Max : K := (2 ^ 53 - 1) * 2 ^ 971

/-- `f64::MIN_POSITIVE`. -/
def minPositive : K := 1 / 2 ^ 1022

/-! ## One triangle -/

/-- The corners of a triangle. -/
structure Corners (K : Type) where
  x1 : K
  y1 : K
  x2 : K
  y2 : K
  x3 : K
  y3 : K

def sq (a b c d : K) : K := (a - c) ^ 2 + (b - d) ^ 2

namespace Corners

variable (c : Corners K) (x y : K)

def det : K := (c.y2 - c.y3) * (c.x1 - c.x3) + (c.x3 - c.x2) * (c.y1 - c.y3)

/-- The barycentric weights.  Where the corners are on a line the code divides
by zero: an infinity or no number, and neither is in any range. -/
def weights : Option (K × K × K) :=
  if c.det = 0 then none
  else
    let l1 := ((c.y2 - c.y3) * (x - c.x3) + (c.x3 - c.x2) * (y - c.y3)) / c.det
    let l2 := ((c.y3 - c.y1) * (x - c.x3) + (c.x1 - c.x3) * (y - c.y3)) / c.det
    some (l1, l2, 1 - l1 - l2)

/-- The weights of a point that passes the test. -/
def containing : Option (K × K × K) :=
  (c.weights x y).filter fun (l1, l2, l3) =>
    decide (-EPS ≤ l1 ∧ l1 ≤ 1 + EPS) && decide (-EPS ≤ l2 ∧ l2 ≤ 1 + EPS) && decide (0 ≤ l3)

/-- The square of the distance to a side. -/
def segment (x1 y1 x2 y2 d12 : K) : K :=
  let t := ((x - x1) * (x2 - x1) + (y - y1) * (y2 - y1)) / d12
  if t ≤ 0 then sq x y x1 y1
  else if 1 ≤ t then sq x y x2 y2
  else sq x y (x1 + t * (x2 - x1)) (y1 + t * (y2 - y1))

/-- The squares of the distances that count; none of a triangle with a side
that is too short. -/
def distances (fallback : Fallback) : List K :=
  let d12 := sq c.x1 c.y1 c.x2 c.y2
  let d23 := sq c.x2 c.y2 c.x3 c.y3
  let d13 := sq c.x1 c.y1 c.x3 c.y3
  if d12 < EPS || d23 < EPS || d13 < EPS then []
  else
    match fallback with
    | .nearestSide =>
      [segment x y c.x1 c.y1 c.x2 c.y2 d12, segment x y c.x2 c.y2 c.x3 c.y3 d23,
        segment x y c.x1 c.y1 c.x3 c.y3 d13]
    | _ => [sq x y ((c.x1 + c.x2 + c.x3) / 3) ((c.y1 + c.y2 + c.y3) / 3)]

/-- Whether the triangle's box is further away than `closest`. -/
def isAway (closest : K) : Bool :=
  x + closest < min (min c.x1 c.x2) c.x3 || max (max c.x1 c.x2) c.x3 < x - closest ||
    y + closest < min (min c.y1 c.y2) c.y3 || max (max c.y1 c.y2) c.y3 < y - closest

/-- A triangle's box, from the corner with the least coordinates to the other. -/
def box : (K × K) × (K × K) :=
  (([c.x1, c.x2, c.x3].foldl min f64Max, [c.y1, c.y2, c.y3].foldl min f64Max),
    ([c.x1, c.x2, c.x3].foldl max (-f64Max), [c.y1, c.y2, c.y3].foldl max (-f64Max)))

/-- Whether a point is in the triangle's box. -/
def InBox : Prop :=
  (min (min c.x1 c.x2) c.x3 ≤ x ∧ x ≤ max (max c.x1 c.x2) c.x3) ∧
    min (min c.y1 c.y2) c.y3 ≤ y ∧ y ≤ max (max c.y1 c.y2) c.y3

end Corners

/-! ## Positions -/

/-- Column of x and y: the source positions, or the target ones for the inverse
of a horizontal TIN. -/
def xyColumns (self : Tin K) (forward : Bool) : Nat × Nat :=
  if self.horizontal && !forward then (2, 3) else (0, 1)

def corner (self : Tin K) (vertex : Nat) (forward : Bool) : K × K :=
  let (ix, iy) := self.xyColumns forward
  let base := vertex * self.columns
  (self.vertices.getD (base + ix) 0, self.vertices.getD (base + iy) 0)

/-- The corners of triangle `i`. -/
def corners (self : Tin K) (forward : Bool) (i : Nat) : Corners K :=
  let tri := self.triangles.getD i (0, 0, 0)
  let (x1, y1) := self.corner tri.1 forward
  let (x2, y2) := self.corner tri.2.1 forward
  let (x3, y3) := self.corner tri.2.2 forward
  { x1, y1, x2, y2, x3, y3 }

/-- The numbers of the triangles. -/
def all (self : Tin K) : List Nat := List.range self.triangles.length

/-! ## The index -/

/-- Triangles by the buckets of a uniform grid their boxes overlap. -/
structure Index (K : Type) where
  min : K × K
  cell : K × K
  size : Nat × Nat
  buckets : List (List Nat)

namespace Index

/-- `(n as f64).sqrt().ceil()`. -/
def ceilSqrt (n : Nat) : Nat := if n.sqrt * n.sqrt = n then n.sqrt else n.sqrt + 1

/-- The grid, with nothing in it. -/
def empty (tin : Tin K) (forward : Bool) : Index K :=
  let places := (List.range (tin.vertices.length / tin.columns)).map (tin.corner · forward)
  let x0 := (places.map Prod.fst).foldl Min.min f64Max
  let y0 := (places.map Prod.snd).foldl Min.min f64Max
  let x1 := (places.map Prod.fst).foldl Max.max (-f64Max)
  let y1 := (places.map Prod.snd).foldl Max.max (-f64Max)
  let side := Max.max 1 (Min.min (ceilSqrt tin.triangles.length) 1024)
  { min := (x0, y0)
    cell := (Max.max ((x1 - x0) / side) minPositive, Max.max ((y1 - y0) / side) minPositive)
    size := (side, side)
    buckets := List.replicate (side * side) [] }

variable [IsStrictOrderedRing K] [FloorRing K]

def cellOf (self : Index K) (x y : K) : Nat × Nat :=
  let c := ⌊(x - self.min.1) / self.cell.1⌋
  let r := ⌊(y - self.min.2) / self.cell.2⌋
  (Min.min c.toNat (self.size.1 - 1), Min.min r.toNat (self.size.2 - 1))

/-- The buckets that the box of a triangle overlaps. -/
def cells (self : Index K) (c : Corners K) : List Nat :=
  let (c0, r0) := self.cellOf c.box.1.1 c.box.1.2
  let (c1, r1) := self.cellOf c.box.2.1 c.box.2.2
  (List.range' r0 (r1 + 1 - r0)).flatMap fun r =>
    (List.range' c0 (c1 + 1 - c0)).map fun c => r * self.size.1 + c

def new (tin : Tin K) (forward : Bool) : Index K :=
  let index := empty tin forward
  { index with
    buckets := tin.all.foldl (fun buckets i =>
      (index.cells (tin.corners forward i)).foldl
        (fun buckets cell => buckets.modify cell (· ++ [i])) buckets) index.buckets }

/-- The triangles whose boxes overlap the point's bucket. -/
def candidates (self : Index K) (x y : K) : List Nat :=
  let (c, r) := self.cellOf x y
  self.buckets.getD (r * self.size.1 + c) []

end Index

/-! ## The triangle of a point -/

/-- What a search has found: a triangle and the weights of its corners. -/
abbrev Found (K : Type) := Nat × K × K × K

/-- The first of the candidates that contains the point. -/
def firstOf (self : Tin K) (forward : Bool) (x y : K) (candidates : List Nat) : Option (Found K) :=
  candidates.findSome? fun i => ((self.corners forward i).containing x y).map (i, ·)

/-- The closest triangle so far; nothing is closest at an infinite distance. -/
structure Nearest (K : Type) where
  closest : Option K
  closest2 : Option K
  best : Nat

section

variable (sqrt : K → K)

def Nearest.offer (i : Nat) (self : Nearest K) (d2 : K) : Nearest K :=
  if self.closest2.all (d2 < ·) then ⟨some (sqrt d2), some d2, i⟩ else self

/-- The loop over the triangles; `skips` says which are too far away. -/
def nearest (skips : Corners K → K → Bool) (self : Tin K) (forward : Bool) (x y : K) : Nearest K :=
  self.all.foldl (fun found i =>
    if found.closest.any (skips (self.corners forward i)) then found
    else
      ((self.corners forward i).distances x y self.fallback).foldl (Nearest.offer sqrt i) found)
    ⟨none, none, 0⟩

/-- For a point in no triangle. -/
def fallBack (skips : Corners K → K → Bool) (self : Tin K) (forward : Bool) (x y : K) :
    Option (Found K) :=
  if self.fallback = .none then none
  else
    let found := self.nearest sqrt skips forward x y
    if found.closest.isNone then none
    else
      let c := self.corners forward found.best
      if |c.det| < EPS then none else (c.weights x y).map (found.best, ·)

variable [IsStrictOrderedRing K] [FloorRing K]

/-- `FindTriangle`: the triangle and barycentric weights. -/
def find (self : Tin K) (x y : K) (forward : Bool) : Option (Found K) :=
  (self.firstOf forward x y ((Index.new self forward).candidates x y)).or
    (self.fallBack sqrt (fun c => c.isAway x y) forward x y)

/-- The plain search that `find` stands for: all triangles in order, the
distances of all of them. -/
def scan (self : Tin K) (x y : K) (forward : Bool) : Option (Found K) :=
  (self.firstOf forward x y self.all).or (self.fallBack sqrt (fun _ _ => false) forward x y)

end

/-! ## Moving a point -/

def interpolate (self : Tin K) (t : Nat) (l : K × K × K) (column : Nat) : K :=
  let tri := self.triangles.getD t (0, 0, 0)
  self.vertices.getD (tri.1 * self.columns + column) 0 * l.1 +
    self.vertices.getD (tri.2.1 * self.columns + column) 0 * l.2.1 +
    self.vertices.getD (tri.2.2 * self.columns + column) 0 * l.2.2

/-- `Evaluator::forward` of a point in the triangle that `find` gives. -/
def forward (find : K → K → Bool → Option (Found K)) (self : Tin K) (x y z : K) :
    Option (K × K × K) := do
  let (t, l) ← find x y true
  let (x, y) := if self.horizontal then (self.interpolate t l 2, self.interpolate t l 3) else (x, y)
  let z :=
    if self.vertical then z + self.interpolate t l (if self.horizontal then 4 else 2) else z
  pure (x, y, z)

/-- `Evaluator::inverse`. -/
def inverse (find : K → K → Bool → Option (Found K)) (self : Tin K) (x y z : K) :
    Option (K × K × K) := do
  -- A vertical-only TIN is searched on its source positions.
  let forwardPositions := !self.horizontal && self.vertical
  let (t, l) ← find x y forwardPositions
  let (x, y) := if self.horizontal then (self.interpolate t l 0, self.interpolate t l 1) else (x, y)
  let z :=
    if self.vertical then z - self.interpolate t l (if self.horizontal then 4 else 2) else z
  pure (x, y, z)

end Tin

end Xeibe.Reproject

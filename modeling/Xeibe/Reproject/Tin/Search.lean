import Xeibe.Reproject.Tin.Model

/-!
# The triangles that the search leaves out

A bucket has the triangles whose boxes overlap it, and a box that is further
away than the closest triangle has nothing closer.
-/

namespace Xeibe.Reproject.Tin

open Xeibe.Lib

variable {K : Type} [Field K] [LinearOrder K]

/-! ## Buckets -/

section Buckets

namespace Index

theorem size_empty (tin : Tin K) (forward : Bool) :
    (empty tin forward).size.1 = (empty tin forward).size.2 ∧ 0 < (empty tin forward).size.1 :=
  ⟨rfl, Nat.lt_of_lt_of_le Nat.zero_lt_one (Nat.le_max_left _ _)⟩

variable [FloorRing K]

/-- Whether the box of a triangle overlaps the bucket that a point is in. -/
def meets (self : Index K) (c : Corners K) (x y : K) : Bool :=
  let low := self.cellOf c.box.1.1 c.box.1.2
  let high := self.cellOf c.box.2.1 c.box.2.2
  let place := self.cellOf x y
  decide (low.1 ≤ place.1 ∧ place.1 ≤ high.1) && decide (low.2 ≤ place.2 ∧ place.2 ≤ high.2)

variable {self : Index K}

theorem cellOf_lt (hsize : 0 < self.size.1 ∧ 0 < self.size.2) (x y : K) :
    (self.cellOf x y).1 < self.size.1 ∧ (self.cellOf x y).2 < self.size.2 := by
  constructor
  · exact Nat.lt_of_le_of_lt (Nat.min_le_right _ _) (Nat.sub_one_lt hsize.1.ne')
  · exact Nat.lt_of_le_of_lt (Nat.min_le_right _ _) (Nat.sub_one_lt hsize.2.ne')

theorem place_inj {width r c r' c' : Nat} (hc : c < width) (hc' : c' < width)
    (h : r * width + c = r' * width + c') : r = r' ∧ c = c' := by
  have hpos : 0 < width := Nat.lt_of_le_of_lt (Nat.zero_le _) hc
  have hdiv := congrArg (· / width) h
  have hmod := congrArg (· % width) h
  simp only [Nat.mul_comm _ width, Nat.mul_add_div hpos, Nat.div_eq_of_lt hc,
    Nat.div_eq_of_lt hc', Nat.mul_add_mod, Nat.mod_eq_of_lt hc, Nat.mod_eq_of_lt hc',
    Nat.add_zero] at hdiv hmod
  exact ⟨hdiv, hmod⟩

theorem nodup_cells (hsize : 0 < self.size.1 ∧ 0 < self.size.2) (c : Corners K) :
    (self.cells c).Nodup := by
  have hlast : (self.cellOf c.box.2.1 c.box.2.2).1 < self.size.1 := (cellOf_lt hsize _ _).1
  rw [cells, List.nodup_flatMap]
  refine ⟨fun r _ => List.Nodup.map_on (fun a ha b hb h => ?_) List.nodup_range', ?_⟩
  · rw [List.mem_range'_1] at ha hb
    exact (place_inj (by omega) (by omega) h).2
  · refine List.Pairwise.imp (fun {r r'} hne => ?_) List.nodup_range'
    intro cell hr hr'
    obtain ⟨a, ha, rfl⟩ := List.mem_map.1 hr
    obtain ⟨b, hb, heq⟩ := List.mem_map.1 hr'
    rw [List.mem_range'_1] at ha hb
    exact hne (place_inj (by omega) (by omega) heq).1.symm

theorem mem_cells (hsize : 0 < self.size.1 ∧ 0 < self.size.2) (c : Corners K) (x y : K) :
    (self.cellOf x y).2 * self.size.1 + (self.cellOf x y).1 ∈ self.cells c ↔
      self.meets c x y = true := by
  have hplace : (self.cellOf x y).1 < self.size.1 := (cellOf_lt hsize _ _).1
  have hlast : (self.cellOf c.box.2.1 c.box.2.2).1 < self.size.1 := (cellOf_lt hsize _ _).1
  simp only [cells, meets, List.mem_flatMap, List.mem_map, List.mem_range'_1, Bool.and_eq_true,
    decide_eq_true_eq]
  constructor
  · rintro ⟨r, hr, a, ha, heq⟩
    obtain ⟨rfl, rfl⟩ := place_inj (by omega) hplace heq
    omega
  · intro h
    exact ⟨_, by omega, _, by omega, rfl⟩

theorem candidates_new (tin : Tin K) (forward : Bool) (x y : K) :
    (new tin forward).candidates x y =
      tin.all.filter fun i => (new tin forward).meets (tin.corners forward i) x y := by
  obtain ⟨hsquare, hpos⟩ := size_empty tin forward
  have hsize : 0 < (empty tin forward).size.1 ∧ 0 < (empty tin forward).size.2 :=
    ⟨hpos, hsquare ▸ hpos⟩
  have hplace := cellOf_lt hsize x y
  have hbucket : (empty tin forward).buckets[
      ((empty tin forward).cellOf x y).2 * (empty tin forward).size.1 +
        ((empty tin forward).cellOf x y).1]? = some [] := by
    refine List.getElem?_replicate_of_lt ?_
    calc ((empty tin forward).cellOf x y).2 * (empty tin forward).size.1 +
          ((empty tin forward).cellOf x y).1
        < ((empty tin forward).cellOf x y).2 * (empty tin forward).size.1 +
          (empty tin forward).size.1 := Nat.add_lt_add_left hplace.1 _
      _ = (((empty tin forward).cellOf x y).2 + 1) * (empty tin forward).size.1 :=
        (Nat.succ_mul _ _).symm
      _ ≤ (empty tin forward).size.2 * (empty tin forward).size.1 :=
        Nat.mul_le_mul_right _ hplace.2
  have hfilled := Skipped.getElem?_foldl_pushAll
    (fun i => nodup_cells hsize (tin.corners forward i)) tin.all hbucket
  show List.getD _ _ _ = _
  rw [List.getD_eq_getElem?_getD]
  refine (congrArg (·.getD []) hfilled).trans ?_
  rw [Option.getD_some, List.nil_append]
  refine List.filter_congr fun i _ => ?_
  rw [Bool.eq_iff_iff, decide_eq_true_eq]
  exact mem_cells hsize (tin.corners forward i) x y

end Index

end Buckets

/-! ## Boxes -/

section Boxes

variable [IsStrictOrderedRing K]

theorem between {a b t : K} (hlow : 0 ≤ t) (hhigh : t ≤ 1) :
    min a b ≤ a + t * (b - a) ∧ a + t * (b - a) ≤ max a b := by
  have hsplit : a + t * (b - a) = (1 - t) * a + t * b := by ring
  have hrest : 0 ≤ 1 - t := sub_nonneg.2 hhigh
  rw [hsplit]
  constructor
  · calc min a b = (1 - t) * min a b + t * min a b := by ring
      _ ≤ (1 - t) * a + t * b :=
        add_le_add (mul_le_mul_of_nonneg_left (min_le_left _ _) hrest)
          (mul_le_mul_of_nonneg_left (min_le_right _ _) hlow)
  · calc (1 - t) * a + t * b
        ≤ (1 - t) * max a b + t * max a b :=
          add_le_add (mul_le_mul_of_nonneg_left (le_max_left _ _) hrest)
            (mul_le_mul_of_nonneg_left (le_max_right _ _) hlow)
      _ = max a b := by ring

theorem weighted {a b c l1 l2 l3 : K} (h1 : 0 ≤ l1) (h2 : 0 ≤ l2) (h3 : 0 ≤ l3)
    (hsum : l1 + l2 + l3 = 1) :
    min (min a b) c ≤ l1 * a + l2 * b + l3 * c ∧ l1 * a + l2 * b + l3 * c ≤ max (max a b) c := by
  constructor
  · calc min (min a b) c = l1 * min (min a b) c + l2 * min (min a b) c + l3 * min (min a b) c := by
          rw [← add_mul, ← add_mul, hsum, one_mul]
      _ ≤ l1 * a + l2 * b + l3 * c :=
        add_le_add (add_le_add
          (mul_le_mul_of_nonneg_left ((min_le_left _ _).trans (min_le_left _ _)) h1)
          (mul_le_mul_of_nonneg_left ((min_le_left _ _).trans (min_le_right _ _)) h2))
          (mul_le_mul_of_nonneg_left (min_le_right _ _) h3)
  · calc l1 * a + l2 * b + l3 * c
        ≤ l1 * max (max a b) c + l2 * max (max a b) c + l3 * max (max a b) c :=
          add_le_add (add_le_add
            (mul_le_mul_of_nonneg_left ((le_max_left _ _).trans (le_max_left _ _)) h1)
            (mul_le_mul_of_nonneg_left ((le_max_right _ _).trans (le_max_left _ _)) h2))
            (mul_le_mul_of_nonneg_left (le_max_right _ _) h3)
      _ = max (max a b) c := by rw [← add_mul, ← add_mul, hsum, one_mul]

namespace Corners

variable {c : Corners K} {x y : K}

/-- A point that is in a triangle without the tolerance is in its box. -/
theorem inBox_of_weights {l1 l2 l3 : K} (h : c.weights x y = some (l1, l2, l3)) (h1 : 0 ≤ l1)
    (h2 : 0 ≤ l2) (h3 : 0 ≤ l3) : c.InBox x y := by
  rw [weights] at h
  split at h
  · cases h
  · rename_i hdet
    simp only [Option.some.injEq, Prod.mk.injEq] at h
    obtain ⟨hl1, hl2, hl3⟩ := h
    have hsum : l1 + l2 + l3 = 1 := by
      rw [← hl3, hl1, hl2]
      ring
    have hx : x = l1 * c.x1 + l2 * c.x2 + l3 * c.x3 := by
      rw [← hl3, ← hl1, ← hl2]
      field_simp
      rw [det]
      ring
    have hy : y = l1 * c.y1 + l2 * c.y2 + l3 * c.y3 := by
      rw [← hl3, ← hl1, ← hl2]
      field_simp
      rw [det]
      ring
    rw [InBox, hx, hy]
    exact ⟨weighted h1 h2 h3 hsum, weighted h1 h2 h3 hsum⟩

theorem segment_spec (x y x1 y1 x2 y2 d12 : K) : ∃ px py,
    segment x y x1 y1 x2 y2 d12 = sq x y px py ∧ (min x1 x2 ≤ px ∧ px ≤ max x1 x2) ∧
      min y1 y2 ≤ py ∧ py ≤ max y1 y2 := by
  unfold segment
  dsimp only
  split
  · exact ⟨_, _, rfl, ⟨min_le_left _ _, le_max_left _ _⟩, min_le_left _ _, le_max_left _ _⟩
  · rename_i hlow
    split
    · exact ⟨_, _, rfl, ⟨min_le_right _ _, le_max_right _ _⟩, min_le_right _ _, le_max_right _ _⟩
    · rename_i hhigh
      have hlow := (not_le.1 hlow).le
      have hhigh := (not_le.1 hhigh).le
      exact ⟨_, _, rfl, between hlow hhigh, between hlow hhigh⟩

/-- Every distance is one to a point in the triangle's box. -/
theorem distances_spec {fallback : Fallback} {d2 : K} (h : d2 ∈ c.distances x y fallback) :
    ∃ px py, d2 = sq x y px py ∧ c.InBox px py := by
  have hside : ∀ {x1 y1 x2 y2 d12 : K}, d2 = segment x y x1 y1 x2 y2 d12 →
      (∀ {p}, min x1 x2 ≤ p ∧ p ≤ max x1 x2 →
        min (min c.x1 c.x2) c.x3 ≤ p ∧ p ≤ max (max c.x1 c.x2) c.x3) →
      (∀ {p}, min y1 y2 ≤ p ∧ p ≤ max y1 y2 →
        min (min c.y1 c.y2) c.y3 ≤ p ∧ p ≤ max (max c.y1 c.y2) c.y3) →
      ∃ px py, d2 = sq x y px py ∧ c.InBox px py := by
    intro x1 y1 x2 y2 d12 heq hx hy
    obtain ⟨px, py, hd, hpx, hpy⟩ := segment_spec x y x1 y1 x2 y2 d12
    exact ⟨px, py, heq.trans hd, hx hpx, hy hpy⟩
  have hbound : ∀ {a b d p : K},
      (min a b ≤ p ∧ p ≤ max a b → min (min a b) d ≤ p ∧ p ≤ max (max a b) d) ∧
      (min b d ≤ p ∧ p ≤ max b d → min (min a b) d ≤ p ∧ p ≤ max (max a b) d) ∧
      (min a d ≤ p ∧ p ≤ max a d → min (min a b) d ≤ p ∧ p ≤ max (max a b) d) := by
    intro a b d p
    simp only [min_le_iff, le_max_iff]
    tauto
  unfold distances at h
  dsimp only at h
  split at h
  · cases h
  · cases fallback with
    | nearestSide =>
      simp only [List.mem_cons, List.not_mem_nil, or_false] at h
      obtain h | h | h := h
      · exact hside h hbound.1 hbound.1
      · exact hside h hbound.2.1 hbound.2.1
      · exact hside h hbound.2.2 hbound.2.2
    | none | nearestCentroid =>
      have hthird : (0 : K) ≤ 1 / 3 := by positivity
      have hmean : ∀ {a b d : K}, min (min a b) d ≤ (a + b + d) / 3 ∧
          (a + b + d) / 3 ≤ max (max a b) d := by
        intro a b d
        have hsum : (a + b + d) / 3 = 1 / 3 * a + 1 / 3 * b + 1 / 3 * d := by ring
        rw [hsum]
        exact weighted hthird hthird hthird (by norm_num)
      exact ⟨_, _, List.mem_singleton.1 h, hmean, hmean⟩

/-- A box that is further away has nothing closer. -/
theorem le_of_isAway {closest px py : K} (haway : c.isAway x y closest = true)
    (hclosest : 0 ≤ closest) (h : c.InBox px py) : closest ^ 2 ≤ sq x y px py := by
  have hfar : ∀ {a p : K}, a + closest < p ∨ p < a - closest → closest ^ 2 ≤ (a - p) ^ 2 := by
    intro a p hp
    refine sq_le_sq.2 ?_
    rw [abs_of_nonneg hclosest, le_abs]
    rcases hp with hp | hp
    · exact Or.inr (by linarith)
    · exact Or.inl (by linarith)
  obtain ⟨⟨hlowX, hhighX⟩, hlowY, hhighY⟩ := h
  simp only [isAway, Bool.or_eq_true, decide_eq_true_eq, or_assoc] at haway
  rw [sq]
  obtain h | h | h | h := haway
  · exact le_add_of_le_of_nonneg (hfar (Or.inl (h.trans_le hlowX))) (sq_nonneg _)
  · exact le_add_of_le_of_nonneg (hfar (Or.inr (hhighX.trans_lt h))) (sq_nonneg _)
  · exact le_add_of_nonneg_of_le (sq_nonneg _) (hfar (Or.inl (h.trans_le hlowY)))
  · exact le_add_of_nonneg_of_le (sq_nonneg _) (hfar (Or.inr (hhighY.trans_lt h)))

end Corners

section Meets

variable [FloorRing K]

namespace Index

theorem cellOf_mono {self : Index K} (hcell : 0 < self.cell.1 ∧ 0 < self.cell.2) {x x' y y' : K}
    (hx : x ≤ x') (hy : y ≤ y') : (self.cellOf x y).1 ≤ (self.cellOf x' y').1 ∧
      (self.cellOf x y).2 ≤ (self.cellOf x' y').2 := by
  have hfloor : ∀ {a b low width : K}, 0 < width → a ≤ b →
      ⌊(a - low) / width⌋.toNat ≤ ⌊(b - low) / width⌋.toNat := fun hwidth hab =>
    Int.toNat_le_toNat
      (Int.floor_mono (div_le_div_of_nonneg_right (sub_le_sub_right hab _) hwidth.le))
  exact ⟨min_le_min (hfloor hcell.1 hx) le_rfl, min_le_min (hfloor hcell.2 hy) le_rfl⟩

/-- A triangle is in the bucket of every point of its box. -/
theorem meets_of_inBox (tin : Tin K) (forward : Bool) {c : Corners K} {x y : K}
    (h : c.InBox x y) : (new tin forward).meets c x y = true := by
  have hmin : (0 : K) < minPositive := by
    rw [minPositive]
    positivity
  have hcell : 0 < (new tin forward).cell.1 ∧ 0 < (new tin forward).cell.2 :=
    ⟨lt_max_of_lt_right hmin, lt_max_of_lt_right hmin⟩
  have hlow : ∀ {a b d p : K}, Min.min (Min.min a b) d ≤ p →
      [a, b, d].foldl Min.min f64Max ≤ p :=
    fun hle => (min_le_min (min_le_min (min_le_right _ _) le_rfl) le_rfl).trans hle
  have hhigh : ∀ {a b d p : K}, p ≤ max (max a b) d → p ≤ [a, b, d].foldl max (-f64Max) :=
    fun hle => hle.trans (max_le_max (max_le_max (le_max_right _ _) le_rfl) le_rfl)
  obtain ⟨hlow1, hlow2⟩ := cellOf_mono hcell (hlow h.1.1) (hlow h.2.1)
  obtain ⟨hhigh1, hhigh2⟩ := cellOf_mono hcell (hhigh h.1.2) (hhigh h.2.2)
  simp only [meets, Bool.and_eq_true, decide_eq_true_eq]
  exact ⟨⟨hlow1, hhigh1⟩, hlow2, hhigh2⟩

end Index

end Meets

end Boxes

/-! ## The closest triangle -/

section Closest

variable {sqrt : K → K}

/-- A search's state, told by the least cost so far and what costs it. -/
def Nearest.ofBest (sqrt : K → K) : Option (K × Nat) → Nearest K
  | none => ⟨none, none, 0⟩
  | some (d2, i) => ⟨some (sqrt d2), some d2, i⟩

omit [Field K] in
theorem Nearest.offer_ofBest (i : Nat) (best : Option (K × Nat)) (d2 : K) :
    (Nearest.ofBest sqrt best).offer sqrt i d2 = Nearest.ofBest sqrt (Skipped.offer i best d2) := by
  cases best with
  | none => rfl
  | some b =>
    rw [Nearest.offer, Skipped.offer, apply_ite (Nearest.ofBest sqrt)]
    rfl

variable (self : Tin K) (forward : Bool) (x y : K)

/-- The squared distances of triangle `i`. -/
def costs (i : Nat) : List K := (self.corners forward i).distances x y self.fallback

theorem nearest_eq (skips : Corners K → K → Bool) :
    self.nearest sqrt skips forward x y = Nearest.ofBest sqrt (Skipped.search
      (self.costs forward x y)
      (fun i best => (best.map sqrt).any (skips (self.corners forward i))) self.all none) := by
  have hinit : (⟨none, none, 0⟩ : Nearest K) = Nearest.ofBest sqrt none := rfl
  rw [nearest, hinit, Skipped.search]
  refine List.foldl_hom (Nearest.ofBest sqrt) fun best i => ?_
  have hclosest : (Nearest.ofBest sqrt best).closest = (best.map Prod.fst).map sqrt := by
    cases best <;> rfl
  rw [hclosest, apply_ite (Nearest.ofBest sqrt)]
  congr 1
  exact List.foldl_hom (Nearest.ofBest sqrt) (Nearest.offer_ofBest i)

theorem nearest_never : self.nearest sqrt (fun _ _ => false) forward x y =
    Nearest.ofBest sqrt (Skipped.search (self.costs forward x y) (fun _ _ => false) self.all none) := by
  rw [nearest_eq]
  congr 2
  funext i best
  cases best <;> rfl

theorem nearest_isAway [IsStrictOrderedRing K] (hsqrt : ∀ a, 0 ≤ a → 0 ≤ sqrt a ∧ sqrt a ^ 2 = a) :
    self.nearest sqrt (fun c => c.isAway x y) forward x y =
      self.nearest sqrt (fun _ _ => false) forward x y := by
  rw [nearest_eq, nearest_never]
  congr 1
  refine Skipped.search_skips (fun i => rfl) (fun i j least hleast haway d2 hd2 => ?_) _ []
    Skipped.Least.nil
  obtain ⟨qx, qy, hq, -⟩ := Corners.distances_spec hleast
  have hnonneg : 0 ≤ least := by
    rw [hq]
    exact add_nonneg (sq_nonneg _) (sq_nonneg _)
  obtain ⟨hroot, hsquare⟩ := hsqrt least hnonneg
  obtain ⟨px, py, rfl, hbox⟩ := Corners.distances_spec hd2
  rw [← hsquare]
  exact Corners.le_of_isAway haway hroot hbox

/-- What the search for the closest triangle gives is at the least distance. -/
theorem least_of_fallBack {found : Found K}
    (h : self.fallBack sqrt (fun _ _ => false) forward x y = some found) :
    found.1 ∈ self.all ∧ ∃ least ∈ self.costs forward x y found.1,
      ∀ j ∈ self.all, ∀ d2 ∈ self.costs forward x y j, least ≤ d2 := by
  have hleast : Skipped.Least (self.costs forward x y) self.all
      (Skipped.search (self.costs forward x y) (fun _ _ => false) self.all none) :=
    Skipped.least_search self.all [] Skipped.Least.nil
  rw [fallBack] at h
  split at h
  · cases h
  · dsimp only at h
    rw [nearest_never] at h
    cases hbest : Skipped.search (self.costs forward x y) (fun _ _ => false) self.all none with
    | none => rw [hbest] at h; cases h
    | some b =>
      rw [hbest] at h hleast
      have hnumber : found.1 = b.2 := by
        rw [if_neg (by simp [Nearest.ofBest])] at h
        split at h
        · cases h
        · obtain ⟨w, -, rfl⟩ := Option.map_eq_some_iff.1 h
          rfl
      rw [hnumber]
      exact ⟨hleast.1, b.1, hleast.2.1, hleast.2.2⟩

end Closest

end Xeibe.Reproject.Tin

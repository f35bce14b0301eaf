import Mathlib.Data.List.Sort

/-!
# Comparisons without contradictions

A comparison `before` ranks a list where it is a strict weak order on its
members: then it is the order of a rank, and a stable sort gives lists with the
same ranks whatever order the members are found in (`sort_level`).

A chain of rules of which one is left out where a count is missing is no such
comparison in general: `weakOrder_chained_iff` says for which lists it is.
-/

namespace Xeibe.Lib

variable {α : Type}

/-- Neither goes before the other. -/
def Tied (before : α → α → Bool) (x y : α) : Prop := before x y = false ∧ before y x = false

/-- A strict weak order on the members of a list. -/
structure WeakOrder (before : α → α → Bool) (xs : List α) : Prop where
  irrefl : ∀ x ∈ xs, before x x = false
  asymm : ∀ x ∈ xs, ∀ y ∈ xs, before x y = true → before y x = false
  trans : ∀ x ∈ xs, ∀ y ∈ xs, ∀ z ∈ xs, before x y = true → before y z = true → before x z = true
  tied_trans : ∀ x ∈ xs, ∀ y ∈ xs, ∀ z ∈ xs,
    Tied before x y → Tied before y z → Tied before x z

section

variable {before : α → α → Bool} {xs : List α}

/-- What goes before something goes before or after everything else. -/
theorem WeakOrder.of_before_or (hasymm : ∀ x ∈ xs, ∀ y ∈ xs, before x y = true → before y x = false)
    (hor : ∀ x ∈ xs, ∀ y ∈ xs, ∀ z ∈ xs,
      before x z = true → before x y = true ∨ before y z = true) : WeakOrder before xs where
  irrefl x hx := by
    cases h : before x x with
    | false => rfl
    | true => exact h.symm.trans (hasymm x hx x hx h)
  asymm := hasymm
  trans x hx y hy z hz hxy hyz := by
    rcases hor x hx z hz y hy hxy with h | h
    · exact h
    · rw [hasymm y hy z hz hyz] at h
      cases h
  tied_trans x hx y hy z hz hxy hyz := by
    constructor
    · refine Bool.eq_false_iff.2 fun h => ?_
      rcases hor x hx y hy z hz h with h | h
      · rw [hxy.1] at h
        cases h
      · rw [hyz.1] at h
        cases h
    · refine Bool.eq_false_iff.2 fun h => ?_
      rcases hor z hz y hy x hx h with h | h
      · rw [hyz.2] at h
        cases h
      · rw [hxy.2] at h
        cases h

theorem WeakOrder.before_or (h : WeakOrder before xs) {x y z : α} (hx : x ∈ xs) (hy : y ∈ xs)
    (hz : z ∈ xs) (hxz : before x z = true) : before x y = true ∨ before y z = true := by
  by_contra hnot
  rw [not_or, Bool.not_eq_true, Bool.not_eq_true] at hnot
  obtain ⟨hxy, hyz⟩ := hnot
  cases hyx : before y x with
  | true =>
    rw [h.trans y hy x hx z hz hyx hxz] at hyz
    cases hyz
  | false =>
    cases hzy : before z y with
    | true =>
      rw [h.trans x hx z hz y hy hxz hzy] at hxy
      cases hxy
    | false =>
      rw [(h.tied_trans x hx y hy z hz ⟨hxy, hyx⟩ ⟨hyz, hzy⟩).1] at hxz
      cases hxz

theorem WeakOrder.of_eq {before' : α → α → Bool} (h : WeakOrder before xs)
    (heq : ∀ x ∈ xs, ∀ y ∈ xs, before' x y = before x y) : WeakOrder before' xs where
  irrefl x hx := by
    rw [heq x hx x hx]
    exact h.irrefl x hx
  asymm x hx y hy := by
    rw [heq x hx y hy, heq y hy x hx]
    exact h.asymm x hx y hy
  trans x hx y hy z hz := by
    rw [heq x hx y hy, heq y hy z hz, heq x hx z hz]
    exact h.trans x hx y hy z hz
  tied_trans x hx y hy z hz := by
    simp only [Tied, heq x hx y hy, heq y hy x hx, heq y hy z hz, heq z hz y hy, heq x hx z hz,
      heq z hz x hx]
    exact h.tied_trans x hx y hy z hz

theorem WeakOrder.congr {before' : α → α → Bool}
    (heq : ∀ x ∈ xs, ∀ y ∈ xs, before x y = before' x y) :
    WeakOrder before xs ↔ WeakOrder before' xs :=
  ⟨fun h => h.of_eq fun x hx y hy => (heq x hx y hy).symm, fun h => h.of_eq heq⟩

/-! ## Ranks -/

/-- How many members go before one. -/
def rank (before : α → α → Bool) (xs : List α) (x : α) : Nat := xs.countP fun y => before y x

theorem countP_lt_countP {p q : α → Bool} (hpq : ∀ x ∈ xs, p x = true → q x = true) {x : α}
    (hx : x ∈ xs) (hp : p x = false) (hq : q x = true) : xs.countP p < xs.countP q := by
  induction xs with
  | nil => cases hx
  | cons y rest ih =>
    have hrest : ∀ z ∈ rest, p z = true → q z = true :=
      fun z hz => hpq z (List.mem_cons_of_mem _ hz)
    rw [List.countP_cons, List.countP_cons]
    rcases List.mem_cons.1 hx with rfl | hmem
    · have hle := List.countP_mono_left hrest
      simp only [hp, hq, Bool.false_eq_true, if_false, if_true]
      omega
    · have hlt := ih hrest hmem
      have hy := hpq y (List.mem_cons_self ..)
      cases hpy : p y with
      | false =>
        simp only [Bool.false_eq_true, if_false]
        omega
      | true =>
        simp only [hy hpy, if_true]
        omega

theorem WeakOrder.rank_lt (h : WeakOrder before xs) {x y : α} (hx : x ∈ xs) (hy : y ∈ xs)
    (hxy : before x y = true) : rank before xs x < rank before xs y :=
  countP_lt_countP (fun z hz hzx => h.trans z hz x hx y hy hzx hxy) hx (h.irrefl x hx) hxy

theorem WeakOrder.rank_eq (h : WeakOrder before xs) {x y : α} (hx : x ∈ xs) (hy : y ∈ xs)
    (hxy : Tied before x y) : rank before xs x = rank before xs y := by
  apply List.countP_congr
  intro z hz
  constructor
  · intro hzx
    rcases h.before_or hz hy hx hzx with hzy | hyx
    · exact hzy
    · rw [hxy.2] at hyx
      cases hyx
  · intro hzy
    rcases h.before_or hz hx hy hzy with hzx | hxy'
    · exact hzx
    · rw [hxy.1] at hxy'
      cases hxy'

theorem WeakOrder.before_iff (h : WeakOrder before xs) {x y : α} (hx : x ∈ xs) (hy : y ∈ xs) :
    before x y = true ↔ rank before xs x < rank before xs y := by
  refine ⟨h.rank_lt hx hy, fun hlt => ?_⟩
  cases hxy : before x y with
  | true => rfl
  | false =>
    cases hyx : before y x with
    | true =>
      have hgt := h.rank_lt hy hx hyx
      omega
    | false =>
      have heq := h.rank_eq hx hy ⟨hxy, hyx⟩
      omega

theorem WeakOrder.tied_iff (h : WeakOrder before xs) {x y : α} (hx : x ∈ xs) (hy : y ∈ xs) :
    Tied before x y ↔ rank before xs x = rank before xs y := by
  have hxy := h.before_iff hx hy
  have hyx := h.before_iff hy hx
  unfold Tied
  rw [Bool.eq_false_iff, Bool.eq_false_iff, ne_eq, ne_eq, hxy, hyx]
  omega

end

/-! ## Sorting -/

/-- As a stable sort asks: `a` may stay in front of `b`. -/
def Stays (before : α → α → Bool) (a b : α) : Prop := before a b = true ∨ before b a = false

instance (before : α → α → Bool) (a b : α) : Decidable (Stays before a b) :=
  inferInstanceAs (Decidable (_ ∨ _))

section

variable {before : α → α → Bool} {β : Type} {key : β → α}

theorem WeakOrder.stays_iff {xs : List α} (h : WeakOrder before xs) {x y : α} (hx : x ∈ xs)
    (hy : y ∈ xs) : Stays before x y ↔ rank before xs x ≤ rank before xs y := by
  have hxy := h.before_iff hx hy
  have hyx := h.before_iff hy hx
  unfold Stays
  rw [Bool.eq_false_iff, ne_eq, hxy, hyx]
  omega

theorem WeakOrder.map_rank_sort {xs : List α} (h : WeakOrder before xs) {found : List β}
    (hfound : ∀ b ∈ found, key b ∈ xs) :
    (found.insertionSort fun a b => Stays before (key a) (key b)).map (rank before xs ∘ key) =
      (found.map (rank before xs ∘ key)).insertionSort (· ≤ ·) :=
  List.map_insertionSort _ _ _ _ fun a ha b hb => h.stays_iff (hfound a ha) (hfound b hb)

/-- The order in which the members are found changes nothing but which of tied
ones comes first. -/
theorem WeakOrder.sort_level {list found : List β} (h : WeakOrder before (list.map key))
    (hperm : found.Perm list) :
    List.Forall₂ (fun a b => Tied before (key a) (key b))
      (found.insertionSort fun a b => Stays before (key a) (key b))
      (list.insertionSort fun a b => Stays before (key a) (key b)) := by
  have hlist : ∀ b ∈ list, key b ∈ list.map key := fun b hb => List.mem_map_of_mem hb
  have hfound : ∀ b ∈ found, key b ∈ list.map key := fun b hb => hlist b (hperm.mem_iff.1 hb)
  have hranks : (found.insertionSort fun a b => Stays before (key a) (key b)).map
      (rank before (list.map key) ∘ key) =
        (list.insertionSort fun a b => Stays before (key a) (key b)).map
          (rank before (list.map key) ∘ key) := by
    rw [h.map_rank_sort hfound, h.map_rank_sort hlist]
    apply List.Perm.eq_of_pairwise' (r := (· ≤ ·)) (List.pairwise_insertionSort _ _)
      (List.pairwise_insertionSort _ _)
    exact (List.perm_insertionSort _ _).trans
      ((hperm.map _).trans (List.perm_insertionSort _ _).symm)
  have hequal : List.Forall₂ (· = ·)
      ((found.insertionSort fun a b => Stays before (key a) (key b)).map
        (rank before (list.map key) ∘ key))
      ((list.insertionSort fun a b => Stays before (key a) (key b)).map
        (rank before (list.map key) ∘ key)) := by
    rw [hranks]
    exact List.forall₂_refl _
  rw [List.forall₂_map_left_iff, List.forall₂_map_right_iff, List.forall₂_iff_zip] at hequal
  obtain ⟨hlength, hzip⟩ := hequal
  refine List.forall₂_iff_zip.2 ⟨hlength, fun {a b} hab => ?_⟩
  obtain ⟨ha, hb⟩ := List.of_mem_zip hab
  rw [List.mem_insertionSort] at ha hb
  exact (h.tied_iff (hfound a ha) (hlist b hb)).2 (hzip hab)

end

/-! ## A rule that is left out -/

section

open Std (OrientedCmp TransCmp)

theorem lt_or_lt {cmp : α → α → Ordering} [TransCmp cmp] {x z : α} (h : cmp x z = .lt) (y : α) :
    cmp x y = .lt ∨ cmp y z = .lt := by
  cases hxy : cmp x y with
  | lt => exact Or.inl rfl
  | eq =>
    right
    rw [← TransCmp.congr_left hxy]
    exact h
  | gt => exact Or.inr (TransCmp.lt_trans (OrientedCmp.lt_of_gt hxy) h)

variable (early late : α → α → Ordering) (count : α → Nat)

/-- The smaller count where both have one, else the late rules. -/
def counted (a b : α) : Bool :=
  if count a ≠ 0 ∧ count b ≠ 0 ∧ count a ≠ count b then decide (count a < count b)
  else late a b == .lt

/-- The early rules, then the smaller count where both have one, then the late
rules. -/
def chained (a b : α) : Bool :=
  match early a b with
  | .lt => true
  | .gt => false
  | .eq => counted late count a b

/-- `x` goes before `y` by its count; `z`, which has none, keeps its place by the
late rules alone, and by them it goes neither after `x` nor before `y`. -/
structure Astride (x y z : α) : Prop where
  early_left : early x y = .eq
  early_right : early x z = .eq
  count_pos : count x ≠ 0
  count_lt : count x < count y
  count_none : count z = 0
  not_after : late x z ≠ .lt
  not_before : late z y ≠ .lt

variable {early late count}

theorem counted_of_lt {a b : α} (ha : count a ≠ 0) (h : count a < count b) :
    counted late count a b = true := by
  rw [counted, if_pos ⟨ha, by omega, by omega⟩]
  exact decide_eq_true h

theorem counted_of_not {a b : α} (h : ¬ (count a ≠ 0 ∧ count b ≠ 0 ∧ count a ≠ count b)) :
    counted late count a b = true ↔ late a b = .lt := by
  rw [counted, if_neg h, beq_iff_eq]

theorem counted_asymm [TransCmp late] {a b : α} (h : counted late count a b = true) :
    counted late count b a = false := by
  unfold counted at h ⊢
  split at h
  · rename_i hab
    rw [if_pos ⟨hab.2.1, hab.1, fun heq => hab.2.2 heq.symm⟩]
    have hlt := of_decide_eq_true h
    exact decide_eq_false (by omega)
  · rename_i hab
    rw [if_neg fun hba => hab ⟨hba.2.1, hba.1, fun heq => hba.2.2 heq.symm⟩]
    have hlt : late a b = .lt := by simpa using h
    rw [OrientedCmp.gt_of_lt hlt]
    rfl

theorem chained_eq {a b : α} (h : early a b = .eq) :
    chained early late count a b = counted late count a b := by
  rw [chained, h]

theorem chained_of_lt {a b : α} (h : early a b = .lt) : chained early late count a b = true := by
  rw [chained, h]

theorem chained_asymm [TransCmp early] [TransCmp late] {a b : α}
    (h : chained early late count a b = true) : chained early late count b a = false := by
  cases hab : early a b with
  | lt => rw [chained, OrientedCmp.gt_of_lt hab]
  | gt =>
    rw [chained, hab] at h
    cases h
  | eq =>
    rw [chained_eq hab] at h
    rw [chained_eq (OrientedCmp.eq_symm hab)]
    exact counted_asymm h

/-- Among those the early rules leave tied: where no third one stands astride two,
what goes before something goes before or after the others. -/
theorem counted_or [TransCmp late] {x y z : α} (hxz : counted late count x z = true)
    (hout : count x ≠ 0 → count x < count z → count y = 0 → late x y = .lt ∨ late y z = .lt)
    (hfront : count z ≠ 0 → count z < count y → count x = 0 → late z x = .lt ∨ late x y = .lt)
    (hback : count y ≠ 0 → count y < count x → count z = 0 → late y z = .lt ∨ late z x = .lt) :
    counted late count x y = true ∨ counted late count y z = true := by
  -- Where the count of `x` or of `z` is missing, `x` is before `z` by the late rules.
  have hlate : ¬ (count x ≠ 0 ∧ count z ≠ 0 ∧ count x ≠ count z) → late x z = .lt :=
    fun h => (counted_of_not h).1 hxz
  have hsplit : late x y = .lt ∨ late y z = .lt →
      ¬ (count x ≠ 0 ∧ count y ≠ 0 ∧ count x ≠ count y) →
      ¬ (count y ≠ 0 ∧ count z ≠ 0 ∧ count y ≠ count z) →
      counted late count x y = true ∨ counted late count y z = true := by
    intro h hxy hyz
    rcases h with h | h
    · exact Or.inl ((counted_of_not hxy).2 h)
    · exact Or.inr ((counted_of_not hyz).2 h)
  by_cases hboth : count x ≠ 0 ∧ count z ≠ 0 ∧ count x ≠ count z
  · obtain ⟨hx, hz, hne⟩ := hboth
    have hlt : count x < count z := by
      rw [counted, if_pos ⟨hx, hz, hne⟩] at hxz
      exact of_decide_eq_true hxz
    by_cases hy : count y = 0
    · exact hsplit (hout hx hlt hy) (by omega) (by omega)
    · by_cases hxy : count x < count y
      · exact Or.inl (counted_of_lt hx hxy)
      · exact Or.inr (counted_of_lt hy (by omega))
  · have hlt := hlate hboth
    have hor := lt_or_lt hlt y
    by_cases hy : count y = 0
    · exact hsplit hor (by omega) (by omega)
    · by_cases hxy : count x ≠ 0 ∧ count x ≠ count y
      · -- `x` and `y` are told apart by their counts, `z` has none or that of `x`.
        by_cases hbefore : count x < count y
        · exact Or.inl (counted_of_lt hxy.1 hbefore)
        · by_cases hz : count z = 0
          · rcases hback hy (by omega) hz with h | h
            · exact Or.inr ((counted_of_not (by omega)).2 h)
            · rw [OrientedCmp.gt_of_lt hlt] at h
              cases h
          · exact Or.inr (counted_of_lt hy (by omega))
      · by_cases hyz : count z ≠ 0 ∧ count y ≠ count z
        · by_cases hbefore : count y < count z
          · exact Or.inr (counted_of_lt hy hbefore)
          · rcases hfront hyz.1 (by omega) (by omega) with h | h
            · rw [OrientedCmp.gt_of_lt hlt] at h
              cases h
            · exact Or.inl ((counted_of_not (by omega)).2 h)
        · exact hsplit hor (by omega) (by omega)

/-- The chain is a strict weak order on a list where nothing without a count
stands astride two that have one. -/
theorem weakOrder_chained_iff [TransCmp early] [TransCmp late] {xs : List α} :
    WeakOrder (chained early late count) xs ↔
      ∀ x ∈ xs, ∀ y ∈ xs, ∀ z ∈ xs, ¬ Astride early late count x y z := by
  constructor
  · intro h x hx y hy z hz hbad
    have hzy : early z y = .eq := TransCmp.eq_trans (OrientedCmp.eq_symm hbad.early_right)
      hbad.early_left
    have hxy : chained early late count x y = true := by
      rw [chained_eq hbad.early_left]
      exact counted_of_lt hbad.count_pos hbad.count_lt
    have hnone := hbad.count_none
    rcases h.before_or hx hz hy hxy with hxz | hzy'
    · rw [chained_eq hbad.early_right] at hxz
      exact hbad.not_after ((counted_of_not (by omega)).1 hxz)
    · rw [chained_eq hzy] at hzy'
      exact hbad.not_before ((counted_of_not (by omega)).1 hzy')
  · intro h
    refine WeakOrder.of_before_or (fun x _ y _ => chained_asymm) fun x hx y hy z hz hxz => ?_
    cases hearly : early x z with
    | lt => exact (lt_or_lt hearly y).imp chained_of_lt chained_of_lt
    | gt =>
      rw [chained, hearly] at hxz
      cases hxz
    | eq =>
      rw [chained_eq hearly] at hxz
      cases hxy : early x y with
      | lt => exact Or.inl (chained_of_lt hxy)
      | gt =>
        exact Or.inr (chained_of_lt
          (TransCmp.lt_of_lt_of_eq (OrientedCmp.lt_of_gt hxy) hearly))
      | eq =>
        have hyz : early y z = .eq := TransCmp.eq_trans (OrientedCmp.eq_symm hxy) hearly
        have hzy : early z y = .eq := OrientedCmp.eq_symm hyz
        have hzx : early z x = .eq := OrientedCmp.eq_symm hearly
        have hyx : early y x = .eq := OrientedCmp.eq_symm hxy
        have hor : ∀ {a b c : α}, a ∈ xs → b ∈ xs → c ∈ xs → early a b = .eq → early a c = .eq →
            count a ≠ 0 → count a < count b → count c = 0 → late a c = .lt ∨ late c b = .lt := by
          intro a b c ha hb hc hab hac hpos hlt hnone
          by_contra hnot
          rw [not_or] at hnot
          exact h a ha b hb c hc ⟨hab, hac, hpos, hlt, hnone, hnot.1, hnot.2⟩
        rw [chained_eq hxy, chained_eq hyz]
        exact counted_or hxz (hor hx hz hy hearly hxy) (hor hz hy hx hzy hzx)
          (hor hy hx hz hyx hyz)

/-- Tied: equal by the early and the late rules, and by the counts where both have
one. -/
theorem tied_chained [TransCmp early] [TransCmp late] {a b : α}
    (h : Tied (chained early late count) a b) :
    early a b = .eq ∧ late a b = .eq ∧ (count a ≠ 0 → count b ≠ 0 → count a = count b) := by
  obtain ⟨hab, hba⟩ := h
  have hearly : early a b = .eq := by
    cases hcmp : early a b with
    | lt =>
      rw [chained_of_lt hcmp] at hab
      cases hab
    | gt =>
      rw [chained_of_lt (OrientedCmp.lt_of_gt hcmp)] at hba
      cases hba
    | eq => rfl
  rw [chained_eq hearly] at hab
  rw [chained_eq (OrientedCmp.eq_symm hearly)] at hba
  have hcount : count a ≠ 0 → count b ≠ 0 → count a = count b := by
    intro ha hb
    by_contra hne
    rcases Nat.lt_or_gt_of_ne hne with hlt | hlt
    · rw [counted_of_lt ha hlt] at hab
      cases hab
    · rw [counted_of_lt hb hlt] at hba
      cases hba
  refine ⟨hearly, ?_, hcount⟩
  cases hcmp : late a b with
  | lt =>
    rw [(counted_of_not (by omega)).2 hcmp] at hab
    cases hab
  | gt =>
    rw [(counted_of_not (by omega)).2 (OrientedCmp.lt_of_gt hcmp)] at hba
    cases hba
  | eq => rfl

end

end Xeibe.Lib

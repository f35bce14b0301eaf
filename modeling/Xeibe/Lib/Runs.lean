import Mathlib.Data.List.Basic
import Mathlib.Data.List.Range
import Mathlib.Order.Basic

/-!
# Numbered lists

A list whose items carry numbers that never go down: equal numbers stand next
to each other.  `heads` keeps the first item of each run of equal numbers.  The
place of an item among the heads is its number exactly when no number below
another one is missing.
-/

namespace Xeibe.Lib.Runs

variable {α : Type}

/-- The first item of each run of equal numbers, after an item numbered
`last`. -/
def heads (number : α → Nat) : Option Nat → List α → List α
  | _, [] => []
  | last, x :: xs =>
    if last = some (number x) then heads number last xs
    else x :: heads number (some (number x)) xs

/-- The numbers never go down. -/
def Ascending (number : α → Nat) (xs : List α) : Prop :=
  xs.Pairwise fun x y => number x ≤ number y

/-- Every number below one that is there is there. -/
def Gapless (number : α → Nat) (xs : List α) : Prop :=
  ∀ x ∈ xs, ∀ k < number x, ∃ y ∈ xs, number y = k

/-! ## Strictly ascending numbers -/

theorem length_le_of_strict {ks : List Nat} (hks : ks.Pairwise (· < ·)) (low high : Nat)
    (hlow : ∀ k ∈ ks, low ≤ k) (hhigh : ∀ k ∈ ks, k < high) : ks.length ≤ high - low := by
  induction ks generalizing low with
  | nil => simp
  | cons k ks ih =>
    have hrest := List.pairwise_cons.1 hks
    have hk := hlow k (by simp)
    have hkh := hhigh k (by simp)
    have hlen := ih hrest.2 (k + 1) (fun m hm => hrest.1 m hm)
      (fun m hm => hhigh m (by simp [hm]))
    simp only [List.length_cons]
    omega

/-- As many of them as there is room for are all of them. -/
theorem eq_range'_of_strict {ks : List Nat} (hks : ks.Pairwise (· < ·)) (low : Nat)
    (hlow : ∀ k ∈ ks, low ≤ k) (hhigh : ∀ k ∈ ks, k < low + ks.length) :
    ks = List.range' low ks.length := by
  induction ks generalizing low with
  | nil => simp
  | cons k ks ih =>
    have hrest := List.pairwise_cons.1 hks
    have hk := hlow k (by simp)
    have hroom := length_le_of_strict hrest.2 (k + 1) (low + (ks.length + 1))
      (fun m hm => hrest.1 m hm) (fun m hm => hhigh m (by simp [hm]))
    have hkh := hhigh k (by simp)
    have heq : k = low := by
      simp only [List.length_cons] at hkh
      omega
    subst heq
    have hall := ih hrest.2 (k + 1) (fun m hm => hrest.1 m hm)
      (fun m hm => by
        have := hhigh m (by simp [hm])
        simp only [List.length_cons] at this
        omega)
    simp only [List.length_cons, List.range'_succ]
    rw [← hall]

/-- Strictly ascending numbers without a gap are those from 0 on. -/
theorem eq_range'_of_gapless {ks : List Nat} (hks : ks.Pairwise (· < ·)) (low : Nat)
    (hlow : ∀ k ∈ ks, low ≤ k) (hgap : ∀ k ∈ ks, ∀ j < k, low ≤ j → j ∈ ks) :
    ks = List.range' low ks.length := by
  induction ks generalizing low with
  | nil => simp
  | cons k ks ih =>
    have hrest := List.pairwise_cons.1 hks
    have hk := hlow k (by simp)
    have heq : k = low := by
      by_contra hne
      have hmem := hgap k (by simp) low (by omega) (le_refl low)
      simp only [List.mem_cons] at hmem
      rcases hmem with hmem | hmem
      · exact hne hmem.symm
      · have := hrest.1 low hmem
        omega
    subst heq
    have hall := ih hrest.2 (k + 1) (fun m hm => hrest.1 m hm) (fun m hm j hj hkj => by
      have hmem := hgap m (by simp [hm]) j hj (by omega)
      simp only [List.mem_cons] at hmem
      rcases hmem with hmem | hmem
      · omega
      · exact hmem)
    simp only [List.length_cons, List.range'_succ]
    rw [← hall]

/-! ## The heads -/

theorem mem_of_mem_heads {number : α → Nat} {last : Option Nat} {xs : List α} {x : α}
    (h : x ∈ heads number last xs) : x ∈ xs := by
  induction xs generalizing last with
  | nil => simp [heads] at h
  | cons y ys ih =>
    unfold heads at h
    split at h
    · exact List.mem_cons_of_mem y (ih h)
    · simp only [List.mem_cons] at h
      rcases h with h | h
      · simp [h]
      · exact List.mem_cons_of_mem y (ih h)

/-- A number that is there is the number of a head, but the one before. -/
theorem exists_head {number : α → Nat} (last : Option Nat) {xs : List α} {x : α} (hx : x ∈ xs)
    (hlast : last ≠ some (number x)) : ∃ y ∈ heads number last xs, number y = number x := by
  induction xs generalizing last with
  | nil => simp at hx
  | cons y ys ih =>
    unfold heads
    by_cases hxy : number y = number x
    · rw [if_neg (by rw [hxy]; exact hlast)]
      exact ⟨y, by simp, hxy⟩
    · have hys : x ∈ ys := by
        simp only [List.mem_cons] at hx
        rcases hx with hx | hx
        · exact absurd (by rw [hx]) hxy
        · exact hx
      split
      · exact ih last hys hlast
      · obtain ⟨z, hz, hzx⟩ := ih (some (number y)) hys (by simpa using hxy)
        exact ⟨z, List.mem_cons_of_mem y hz, hzx⟩

theorem heads_strict {number : α → Nat} {xs : List α} (hxs : Ascending number xs)
    (last : Option Nat) (hlast : ∀ k, last = some k → ∀ x ∈ xs, k ≤ number x) :
    ((heads number last xs).map number).Pairwise (· < ·) ∧
      ∀ k, last = some k → ∀ x ∈ heads number last xs, k < number x := by
  induction xs generalizing last with
  | nil => simp [heads]
  | cons y ys ih =>
    have hrest := List.pairwise_cons.1 hxs
    unfold heads
    split
    · exact ih hrest.2 last (fun k hk x hx => hlast k hk x (by simp [hx]))
    · rename_i hne
      have hy := ih hrest.2 (some (number y)) (fun k hk x hx => by
        cases hk
        exact hrest.1 x hx)
      have hafter := hy.2 (number y) rfl
      constructor
      · simp only [List.map_cons, List.pairwise_cons]
        refine ⟨fun k hk => ?_, hy.1⟩
        obtain ⟨x, hx, rfl⟩ := List.mem_map.1 hk
        exact hafter x hx
      · intro k hk x hx
        have hky := hlast k hk y (by simp)
        have hlt : k < number y := by
          rcases Nat.lt_or_eq_of_le hky with h | h
          · exact h
          · exact absurd (by rw [hk, h]) hne
        simp only [List.mem_cons] at hx
        rcases hx with rfl | hx
        · exact hlt
        · exact Nat.lt_trans hlt (hafter x hx)

theorem heads_pairwise {number : α → Nat} {xs : List α} (hxs : Ascending number xs) :
    ((heads number none xs).map number).Pairwise (· < ·) :=
  (heads_strict hxs none (by simp)).1

theorem map_heads_of_gapless {number : α → Nat} {xs : List α} (hxs : Ascending number xs)
    (hgap : Gapless number xs) :
    (heads number none xs).map number = List.range (heads number none xs).length := by
  have hall := eq_range'_of_gapless (heads_pairwise hxs) 0 (by simp) (fun k hk j hj _ => by
    obtain ⟨x, hx, rfl⟩ := List.mem_map.1 hk
    obtain ⟨y, hy, rfl⟩ := hgap x (mem_of_mem_heads hx) j hj
    obtain ⟨z, hz, hzy⟩ := exists_head none hy (by simp)
    exact List.mem_map.2 ⟨z, hz, hzy⟩)
  rw [List.range_eq_range']
  simpa using hall

theorem getElem?_heads {number : α → Nat} {xs : List α} (hxs : Ascending number xs)
    (hgap : Gapless number xs) {x : α} (hx : x ∈ xs) :
    ∃ y ∈ xs, number y = number x ∧ (heads number none xs)[number x]? = some y := by
  obtain ⟨y, hy, hyx⟩ := exists_head none hx (by simp)
  obtain ⟨i, hi, hiy⟩ := List.mem_iff_getElem.1 hy
  have hnum : number (heads number none xs)[i] = i := by
    have hmap := map_heads_of_gapless hxs hgap
    have hget : ((heads number none xs).map number)[i]? = some i := by
      rw [hmap, List.getElem?_range (by simpa using hi)]
    rw [List.getElem?_map, List.getElem?_eq_getElem hi] at hget
    exact Option.some.inj hget
  rw [hiy, hyx] at hnum
  refine ⟨y, mem_of_mem_heads hy, hyx, ?_⟩
  rw [hnum, List.getElem?_eq_getElem hi, hiy]

/-- There are as many heads as the last number says exactly when there is no
gap. -/
theorem length_heads_iff {number : α → Nat} {xs : List α} (hxs : Ascending number xs) {x : α}
    (hlast : xs.getLast? = some x) :
    (heads number none xs).length = number x + 1 ↔ Gapless number xs := by
  have hmem : x ∈ xs := List.mem_of_getLast? hlast
  have hmax : ∀ y ∈ xs, number y ≤ number x := by
    obtain ⟨before, rfl⟩ := List.getLast?_eq_some_iff.1 hlast
    intro y hy
    simp only [List.mem_append, List.mem_singleton] at hy
    rcases hy with hy | rfl
    · exact (List.pairwise_append.1 hxs).2.2 y hy x (by simp)
    · exact le_refl _
  constructor
  · intro hlen y hy k hk
    have hall := eq_range'_of_strict (heads_pairwise hxs) 0 (by simp) (fun m hm => by
      obtain ⟨z, hz, rfl⟩ := List.mem_map.1 hm
      have := hmax z (mem_of_mem_heads hz)
      simp only [List.length_map, hlen]
      omega)
    have hk' : k ∈ (heads number none xs).map number := by
      rw [hall, List.mem_range'_1]
      have := hmax y hy
      simp only [List.length_map, hlen]
      omega
    obtain ⟨z, hz, hzk⟩ := List.mem_map.1 hk'
    exact ⟨z, mem_of_mem_heads hz, hzk⟩
  · intro hgap
    obtain ⟨y, _, hyx, hy⟩ := getElem?_heads hxs hgap hmem
    have hlt : number x < (heads number none xs).length := by
      by_contra h
      rw [List.getElem?_eq_none (by omega)] at hy
      simp at hy
    have hle := length_le_of_strict (heads_pairwise hxs) 0 (number x + 1) (by simp)
      (fun k hk => by
        obtain ⟨z, hz, rfl⟩ := List.mem_map.1 hk
        have := hmax z (mem_of_mem_heads hz)
        omega)
    simp only [List.length_map] at hle
    omega

end Xeibe.Lib.Runs

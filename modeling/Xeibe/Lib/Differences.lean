import Mathlib.Data.List.Basic
import Xeibe.Lib.Checked

/-!
# Differences and blocks

A list whose elements, from `stride` on, are kept as their differences to the
ones `stride` before: adding up from the left, in place, brings the list back.
`halfway` is the list when that has come to a place.  A list laid out in blocks
of one width is read and overwritten block by block, and a list that is stored
to at every place, in any order, is what was stored.
-/

namespace Xeibe.Lib

open Checked

variable {α β : Type}

section Differences

variable [Sub α]

/-- Each element from `stride` on as its difference to the one `stride` before. -/
def differences (stride : Nat) (xs : List α) : List α :=
  xs.take stride ++ List.zipWith (fun later before => later - before) (xs.drop stride) xs

/-- The list up to `i`, and the differences from there. -/
def halfway (stride : Nat) (xs : List α) (i : Nat) : List α :=
  xs.take i ++ (differences stride xs).drop i

@[simp] theorem length_differences (stride : Nat) (xs : List α) :
    (differences stride xs).length = xs.length := by
  simp [differences]
  omega

theorem getElem?_differences {stride : Nat} {xs : List α} {i : Nat} (hi : stride ≤ i)
    (hlt : i < xs.length) :
    (differences stride xs)[i]? = some (xs[i] - xs[i - stride]) := by
  have htake : (xs.take stride).length = stride := by
    rw [List.length_take]
    omega
  rw [differences, List.getElem?_append_right (by omega), htake, List.getElem?_zipWith,
    List.getElem?_drop, Nat.add_sub_cancel' hi, List.getElem?_eq_getElem hlt,
    List.getElem?_eq_getElem (by omega)]

@[simp] theorem length_halfway (stride : Nat) (xs : List α) (i : Nat) :
    (halfway stride xs i).length = xs.length := by
  simp [halfway]
  omega

theorem halfway_start (stride : Nat) (xs : List α) :
    halfway stride xs stride = differences stride xs := by
  have htake : (differences stride xs).take stride = xs.take stride := by
    rw [differences, List.take_append, List.take_take, Nat.min_self, List.length_take]
    rcases Nat.le_total stride xs.length with hle | hge
    · simp [Nat.min_eq_left hle]
    · simp [List.drop_eq_nil_of_le hge]
  rw [halfway, ← htake, List.take_append_drop]

theorem halfway_end {stride : Nat} {xs : List α} {i : Nat} (h : xs.length ≤ i) :
    halfway stride xs i = xs := by
  rw [halfway, List.take_of_length_le h, List.drop_eq_nil_of_le (by simpa using h),
    List.append_nil]

theorem getElem?_halfway_before {stride : Nat} {xs : List α} {i j : Nat} (hj : j < i)
    (hlt : i < xs.length) : (halfway stride xs i)[j]? = some xs[j] := by
  rw [halfway, List.getElem?_append_left (by rw [List.length_take]; omega),
    List.getElem?_take_of_lt hj, List.getElem?_eq_getElem]

theorem getElem?_halfway_here {stride : Nat} {xs : List α} {i : Nat} (hi : stride ≤ i)
    (hlt : i < xs.length) : (halfway stride xs i)[i]? = some (xs[i] - xs[i - stride]) := by
  have htake : (xs.take i).length = i := by
    rw [List.length_take]
    omega
  rw [halfway, List.getElem?_append_right (by omega), htake, Nat.sub_self,
    List.getElem?_drop, Nat.add_zero, getElem?_differences hi hlt]

theorem set_halfway {stride : Nat} {xs : List α} {i : Nat} (hlt : i < xs.length) :
    (halfway stride xs i).set i xs[i] = halfway stride xs (i + 1) := by
  have htake : (xs.take i).length = i := by
    rw [List.length_take]
    omega
  rw [halfway, halfway, List.set_append_right _ _ (by omega), htake, Nat.sub_self,
    List.drop_eq_getElem_cons (by simpa using hlt), List.set_cons_zero, List.take_add_one,
    List.getElem?_eq_getElem hlt, List.append_assoc]
  rfl

end Differences

/-! ## Loops -/

theorem foldlM_range' {ε : Type} {f : β → Nat → Except ε β} {first last : β} {start count : Nat}
    (g : Nat → β) (hfirst : first = g start) (hlast : g (start + count) = last)
    (h : ∀ i, start ≤ i → i < start + count → f (g i) i = .ok (g (i + 1))) :
    (List.range' start count).foldlM f first = .ok last := by
  subst hfirst hlast
  induction count generalizing start with
  | zero => rfl
  | succ count ih =>
    rw [List.range'_succ, List.foldlM_cons, h start (Nat.le_refl _) (by omega)]
    have hrest := @ih (start + 1) fun i hi hlt => h i (by omega) (by omega)
    rw [show start + 1 + count = start + (count + 1) by omega] at hrest
    exact hrest

/-- What is stored at every place of a list, in any order, is the list. -/
theorem foldlM_store {ε γ : Type} {f : List α → γ → Checked ε (List α)} {ps : List γ}
    {row out : List α} (target : γ → Nat) (value : γ → α) (hlength : row.length = out.length)
    (hf : ∀ p ∈ ps, ∀ row, f row p = store row (target p) (value p))
    (hvalue : ∀ p ∈ ps, out[target p]? = some (value p))
    (hrow : ∀ t < out.length, row[t]? = out[t]? ∨ ∃ p ∈ ps, target p = t) :
    ps.foldlM f row = .ok out := by
  induction ps generalizing row with
  | nil =>
    have hout : row = out := by
      refine List.ext_getElem? fun t => ?_
      rcases Nat.lt_or_ge t out.length with hlt | hge
      · exact (hrow t hlt).resolve_right fun ⟨p, hp, _⟩ => List.not_mem_nil hp
      · rw [List.getElem?_eq_none hge, List.getElem?_eq_none (hlength ▸ hge)]
    rw [hout]
    rfl
  | cons p ps ih =>
    have hp := hvalue p List.mem_cons_self
    have hlt : target p < row.length := by
      rw [hlength]
      exact (List.getElem?_eq_some_iff.1 hp).1
    rw [List.foldlM_cons, hf p List.mem_cons_self, store, if_pos hlt]
    refine ih (by rw [List.length_set, hlength]) (fun q hq => hf q (.tail _ hq))
      (fun q hq => hvalue q (.tail _ hq)) ?_
    intro t ht
    by_cases htarget : target p = t
    · subst htarget
      rw [List.getElem?_set_self hlt, hp]
      exact Or.inl rfl
    · rw [List.getElem?_set_ne htarget]
      refine (hrow t ht).imp_right fun ⟨q, hq, hqt⟩ => ?_
      rcases List.mem_cons.1 hq with rfl | hq
      · exact absurd hqt htarget
      · exact ⟨q, hq, hqt⟩

/-! ## Blocks of one width -/

section Blocks

variable {f : α → List β} {width : Nat}

theorem length_flatMap_blocks (h : ∀ a, (f a).length = width) (xs : List α) :
    (xs.flatMap f).length = xs.length * width := by
  induction xs with
  | nil => simp
  | cons x xs ih =>
    rw [List.flatMap_cons, List.length_append, ih, h, List.length_cons, Nat.succ_mul, Nat.add_comm]

theorem drop_flatMap_blocks (h : ∀ a, (f a).length = width) (xs : List α) (i : Nat) :
    (xs.flatMap f).drop (i * width) = (xs.drop i).flatMap f := by
  induction i generalizing xs with
  | zero => simp
  | succ i ih =>
    cases xs with
    | nil => simp
    | cons x xs =>
      rw [List.flatMap_cons, List.drop_succ_cons, ← ih, Nat.succ_mul, Nat.add_comm,
        ← List.drop_drop, List.drop_left' (h x)]

theorem take_flatMap_blocks (h : ∀ a, (f a).length = width) (xs : List α) (i : Nat) :
    (xs.flatMap f).take (i * width) = (xs.take i).flatMap f := by
  induction i generalizing xs with
  | zero => simp
  | succ i ih =>
    cases xs with
    | nil => simp
    | cons x xs =>
      rw [List.flatMap_cons, List.take_succ_cons, List.flatMap_cons, ← ih, Nat.succ_mul,
        Nat.add_comm, ← h x, List.take_length_add_append]

theorem getElem?_flatMap_blocks (h : ∀ a, (f a).length = width) {xs : List α} {i k : Nat}
    (hi : i < xs.length) (hk : k < width) :
    (xs.flatMap f)[i * width + k]? = (f xs[i])[k]? := by
  rw [← List.getElem?_drop, drop_flatMap_blocks h, List.drop_eq_getElem_cons hi,
    List.flatMap_cons, List.getElem?_append_left (by rw [h]; exact hk)]

theorem slice_flatMap_blocks {ε : Type} (h : ∀ a, (f a).length = width) {xs : List α} {i : Nat}
    (hi : i < xs.length) :
    (Checked.slice (xs.flatMap f) (i * width) ((i + 1) * width) : Checked ε (List β)) =
      .ok (f xs[i]) := by
  have hlast : (i + 1) * width ≤ xs.length * width := Nat.mul_le_mul_right _ hi
  rw [Checked.slice,
    if_pos ⟨Nat.mul_le_mul_right _ (Nat.le_succ i), by rwa [length_flatMap_blocks h]⟩,
    take_flatMap_blocks h, drop_flatMap_blocks h, List.take_add_one, List.getElem?_eq_getElem hi,
    List.drop_left' (by rw [List.length_take]; omega)]
  simp

theorem overwrite_flatMap_blocks {ε : Type} (h : ∀ a, (f a).length = width) {xs : List α}
    {i : Nat} (hi : i < xs.length) (x : α) :
    (overwrite (xs.flatMap f) (i * width) (f x) : Checked ε (List β)) =
      .ok ((xs.set i x).flatMap f) := by
  have hlast : (i + 1) * width ≤ xs.length * width := Nat.mul_le_mul_right _ hi
  rw [Nat.succ_mul] at hlast
  rw [overwrite, if_pos (by rwa [h, length_flatMap_blocks h]), h, take_flatMap_blocks h,
    ← Nat.succ_mul, drop_flatMap_blocks h, List.set_eq_take_append_cons_drop, if_pos hi,
    List.flatMap_append, List.flatMap_cons, List.append_assoc]

end Blocks

end Xeibe.Lib

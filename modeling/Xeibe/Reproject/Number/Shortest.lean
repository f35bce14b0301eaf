import Mathlib.Algebra.Order.Floor.Semifield
import Xeibe.Reproject.Number.Model

/-!
# The shortest digits of a double

They are so near to a normal double that rounding it to more of them, up to 15, gives
the same digits with zeros after them.
-/

namespace Xeibe.Reproject.Number

open Xeibe.Geom (F64)
open Xeibe.Lib Binary64 Rounded Printf

variable {n k p : ℕ} {q : ℚ} {s : ℕ × ℤ} {v : F64}

/-! ## Near a double -/

theorem value_pos (hn : 0 < n) : 0 < value n := by
  have hpos : 0 < magnitude n := magnitude_strictMono hn
  rw [value]
  positivity

theorem value_succ (n : ℕ) : value (n + 1) = value n + 2 ^ (n / 2 ^ 52 - 1) / 2 ^ 1074 := by
  rw [value, value, magnitude_succ, Nat.cast_add, Nat.cast_pow, Nat.cast_ofNat, add_div]

theorem gap_le (hn : 2 ^ 52 ≤ n) : (2 : ℚ) ^ (n / 2 ^ 52 - 1) / 2 ^ 1074 * 2 ^ 52 ≤ value n := by
  have hle : (2 : ℚ) ^ 52 * 2 ^ (n / 2 ^ 52 - 1) ≤ magnitude n := by
    exact_mod_cast two_pow_mul_gap_le hn
  rw [div_mul_eq_mul_div, mul_comm, value]
  exact div_le_div_of_nonneg_right hle (by positivity)

/-- What is read as a normal double is within half of the gap above it. -/
theorem near_of_readsBack (hn : 2 ^ 52 ≤ n) (h : readsBack n q = true) :
    |value n - q| * 2 ^ 53 ≤ value n := by
  obtain ⟨m, rfl⟩ : ∃ m, n = m + 1 := ⟨n - 1, by omega⟩
  have hup := value_succ (m + 1)
  have hdown := value_succ m
  have hgap := gap_le hn
  -- the gap below is not wider than the one above
  have hmono : (2 : ℚ) ^ (m / 2 ^ 52 - 1) / 2 ^ 1074 ≤ 2 ^ ((m + 1) / 2 ^ 52 - 1) / 2 ^ 1074 :=
    div_le_div_of_nonneg_right (pow_le_pow_right₀ (by norm_num) (by omega)) (by positivity)
  generalize (2 : ℚ) ^ ((m + 1) / 2 ^ 52 - 1) / 2 ^ 1074 = above at *
  generalize (2 : ℚ) ^ (m / 2 ^ 52 - 1) / 2 ^ 1074 = below at *
  have hbetween : (value m + value (m + 1)) / 2 ≤ q ∧ q ≤ (value (m + 1) + value (m + 2)) / 2 := by
    rw [readsBack, Nat.add_sub_cancel] at h
    split at h
    · simpa using h
    · have hlt : (value m + value (m + 1)) / 2 < q ∧ q < (value (m + 1) + value (m + 2)) / 2 := by
        simpa using h
      exact ⟨hlt.1.le, hlt.2.le⟩
  rw [← le_div_iff₀ (by norm_num), abs_le]
  constructor <;> linarith

/-! ## What the search finds -/

/-- The search finds one of the two decimals around the double. -/
theorem shortestAt_cases (hk : 1 ≤ k) (hn : 0 < n) (h : shortestAt n k = some s) :
    ∃ d, (d = below n k ∨ d = below n k + 1) ∧
      readsBack n (d * step k (Int.log 10 (value n))) = true ∧
      s = carried k d (Int.log 10 (value n)) := by
  rw [shortestAt] at h
  split at h
  · rename_i hup
    rw [Bool.and_eq_true] at hup
    exact ⟨_, Or.inr rfl, hup.1, (Option.some.inj h).symm⟩
  · split at h
    · rename_i hdown
      have hfloor : (below n k : ℚ) ≤ value n / step k (Int.log 10 (value n)) :=
        Nat.floor_le (div_nonneg (value_pos hn).le (step_pos _ _).le)
      have hlt := hfloor.trans_lt (div_step_bounds hk (value_pos hn)).2
      have hne : below n k ≠ 10 ^ k := by
        intro heq
        rw [heq, Nat.cast_pow, Nat.cast_ofNat] at hlt
        exact lt_irrefl _ hlt
      refine ⟨_, Or.inl rfl, hdown, ?_⟩
      rw [carried, if_neg hne]
      exact (Option.some.inj h).symm
    · cases h

theorem shortestAt_ne_none {d : ℕ} (hd : d = below n k ∨ d = below n k + 1)
    (h : readsBack n (d * step k (Int.log 10 (value n))) = true) : shortestAt n k ≠ none := by
  rw [shortestAt]
  rcases hd with rfl | rfl
  · rw [h]
    split <;> simp
  · rw [h]
    split
    · simp
    · rename_i hnear
      split
      · simp
      · rename_i hdown
        simp [hdown] at hnear

theorem shortestAt_bounds (hk : 1 ≤ k) (hn : 0 < n) (h : shortestAt n k = some s) :
    10 ^ (k - 1) ≤ s.1 ∧ s.1 < 10 ^ k := by
  obtain ⟨d, hd, -, rfl⟩ := shortestAt_cases hk hn h
  obtain ⟨hlow, hhigh⟩ := div_step_bounds hk (value_pos hn)
  have hle : 10 ^ (k - 1) ≤ below n k := Nat.le_floor (by exact_mod_cast hlow)
  have hlt : below n k < 10 ^ k :=
    (Nat.floor_lt (div_nonneg (value_pos hn).le (step_pos _ _).le)).2 (by exact_mod_cast hhigh)
  exact carried_bounds _ (by omega) (by omega) hk

theorem readsBack_of_shortestAt (hk : 1 ≤ k) (hn : 0 < n) (h : shortestAt n k = some s) :
    readsBack n (number k s) = true := by
  obtain ⟨d, -, hback, rfl⟩ := shortestAt_cases hk hn h
  rwa [number_carried hk]

/-- The last of the fewest digits is not zero: without it they would be read back too. -/
theorem not_dvd_of_shortestAt (hk : 1 ≤ k) (hn : 0 < n) (hfewer : shortestAt n k = none)
    (h : shortestAt n (k + 1) = some s) : ¬ 10 ∣ s.1 := by
  obtain ⟨d, hd, hback, rfl⟩ := shortestAt_cases (by omega) hn h
  intro hdvd
  have hten : 10 ∣ d := by
    rw [carried] at hdvd
    split at hdvd
    · rename_i hcarry
      rw [hcarry]
      exact dvd_pow_self 10 (Nat.succ_ne_zero k)
    · exact hdvd
  obtain ⟨c, rfl⟩ := hten
  have hstep : step k (Int.log 10 (value n)) = step (k + 1) (Int.log 10 (value n)) * 10 := by
    rw [mul_comm, ← step_succ, step, step]
    congr 1
    push_cast
    ring
  have hbelow : below n k = below n (k + 1) / 10 := by
    rw [below, below, hstep, ← div_div]
    exact Nat.floor_div_ofNat _ 10
  have hc : c = below n k ∨ c = below n k + 1 := by omega
  refine shortestAt_ne_none hc ?_ hfewer
  rw [hstep]
  convert hback using 2
  push_cast
  ring

/-! ## Few digits -/

theorem absolute_eq (hv : v.isNan = false) : v.absolute = value v.abs.bits.toNat := by
  have hunits := F64.units_of_lt ((F64.isNan_abs v).trans hv)
    (by rw [F64.toNat_abs]; exact Nat.mod_lt _ (Nat.two_pow_pos 63))
  rw [F64.units_abs hv] at hunits
  rw [F64.absolute, value, Int.ofNat.inj hunits]

theorem shortest_cases (h : (shortest v).1.length < 17) :
    ∃ k s, 1 ≤ k ∧ shortestAt v.abs.bits.toNat k = some s ∧
      (∀ j, 1 ≤ j → j < k → shortestAt v.abs.bits.toNat j = none) ∧
      shortest v = (digitsOf k s.1, s.2) := by
  rw [shortest] at h ⊢
  cases hfound : (List.range' 1 17).find? fun k => (shortestAt v.abs.bits.toNat k).isSome with
  | none =>
    rw [hfound] at h
    simp at h
  | some k =>
    obtain ⟨hsome, hmem, hbefore⟩ := List.find?_range'_eq_some.1 hfound
    obtain ⟨s, hs⟩ := Option.isSome_iff_exists.1 hsome
    refine ⟨k, s, (List.mem_range'_1.1 hmem).1, hs, fun j hj hlt => ?_, ?_⟩
    · simpa using hbefore j hj hlt
    · simp only [Option.getD_some, hs]

/-- Where few digits are enough, rounding has no others. -/
theorem shortest_eq (hp : p ≤ 15) (hlen : (shortest v).1.length ≤ p) (hnormal : v.isNormal = true) :
    shortest v = (stripZeros (exact v p).1, (exact v p).2) := by
  obtain ⟨k, s, hk, hs, hbefore, heq⟩ := shortest_cases (hlen.trans_lt (by omega))
  rw [heq, length_digitsOf] at hlen
  obtain ⟨hlow, htop⟩ : v.abs.bits.toNat / 2 ^ 52 ≠ 0 ∧ v.abs.bits.toNat / 2 ^ 52 ≠ 2047 := by
    simpa [F64.isNormal] using hnormal
  have hn : 2 ^ 52 ≤ v.abs.bits.toNat := by omega
  have hnan : v.isNan = false := by
    rw [Bool.eq_false_iff, ne_eq, F64.isNan_iff_bits, ← F64.toNat_abs]
    have hlt : v.abs.bits.toNat < 2 ^ 63 := by
      rw [F64.toNat_abs]
      exact Nat.mod_lt _ (Nat.two_pow_pos 63)
    omega
  obtain ⟨hge, hlt⟩ := shortestAt_bounds hk (by omega) hs
  have hnear := near_of_readsBack hn (readsBack_of_shortestAt hk (by omega) hs)
  obtain ⟨m, rfl⟩ := Nat.exists_eq_add_of_le hlen
  -- the digits with zeros after them
  have hnumber : ((s.1 * 10 ^ m : ℕ) : ℚ) * step (k + m) s.2 = number k s := by
    rw [Nat.cast_mul, Nat.cast_pow, Nat.cast_ofNat, mul_assoc, pow_mul_step, number, step]
    congr 2
    push_cast
    ring
  have hscientific : scientific (k + m) (value v.abs.bits.toNat) = (s.1 * 10 ^ m, s.2) := by
    apply scientific_eq (by omega) (value_pos (by omega))
    · rw [show k + m - 1 = k - 1 + m by omega, pow_add]
      exact Nat.mul_le_mul_right _ hge
    · rw [pow_add]
      exact Nat.mul_lt_mul_of_pos_right hlt (by positivity)
    · rw [hnumber]
      refine (mul_le_mul_of_nonneg_left ?_ (abs_nonneg _)).trans hnear
      calc (4 : ℚ) * 10 ^ (k + m) ≤ 4 * 10 ^ 15 :=
            mul_le_mul_of_nonneg_left (pow_le_pow_right₀ (by norm_num) hp) (by norm_num)
        _ ≤ 2 ^ 53 := by norm_num
  have hlast : ¬ 10 ∣ s.1 := by
    rcases Nat.eq_or_lt_of_le hk with rfl | hmore
    · exact Nat.not_dvd_of_pos_of_lt hge (by simpa using hlt)
    · obtain ⟨j, rfl⟩ := Nat.exists_eq_add_of_lt hmore
      rw [Nat.add_comm 1] at *
      exact not_dvd_of_shortestAt (by omega) (by omega) (hbefore _ (by omega) (by omega)) hs
  have hstrip : stripZeros (digitsOf (k + m) (s.1 * 10 ^ m)) = digitsOf k s.1 := by
    have hzeros : stripZeros (List.replicate m 0x30) = [] := by
      rw [stripZeros, List.rdropWhile_eq_nil_iff]
      simp
    rw [digitsOf_add, Nat.mul_div_cancel _ (by positivity), Nat.mul_mod_left, digitsOf_zero,
      stripZeros_append_of_nil hzeros]
    exact stripZeros_digitsOf hk hlast
  rw [heq, exact, absolute_eq hnan, hscientific, hstrip]

end Xeibe.Reproject.Number

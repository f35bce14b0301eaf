import Mathlib.Algebra.Order.Field.Power
import Mathlib.Data.Int.Log
import Mathlib.Data.Rat.Floor
import Mathlib.Tactic.FieldSimp
import Mathlib.Tactic.Linarith
import Mathlib.Tactic.Positivity
import Mathlib.Tactic.Ring

/-!
# Significant digits

A number rounded to a count of decimal digits: the nearest whole number of steps at
the place of its last digit, and the carry where that is one digit too many.
-/

namespace Xeibe.Lib.Rounded

/-! ## The nearest whole number -/

/-- The nearest whole number, and of two that are as near the even one. -/
def nearest (q : ℚ) : ℕ :=
  let below := ⌊q⌋₊
  if q - below < 1 / 2 ∨ q - below = 1 / 2 ∧ below % 2 = 0 then below else below + 1

theorem abs_nearest_sub_le {q : ℚ} (hq : 0 ≤ q) : |(nearest q : ℚ) - q| ≤ 1 / 2 := by
  have hbelow := Nat.floor_le hq
  have habove := Nat.lt_floor_add_one q
  rw [nearest]
  split
  · rename_i h
    have hle : q - ⌊q⌋₊ ≤ 1 / 2 := h.elim le_of_lt fun h => h.1.le
    rw [abs_sub_comm, abs_of_nonneg (by linarith)]
    exact hle
  · rename_i h
    have hge : 1 / 2 ≤ q - ⌊q⌋₊ := not_lt.1 fun hlt => h (Or.inl hlt)
    push_cast
    rw [abs_of_nonneg (by linarith)]
    linarith

theorem nearest_eq {q : ℚ} (hq : 0 ≤ q) {m : ℕ} (h : |q - m| < 1 / 2) : nearest q = m := by
  have hnear := abs_nearest_sub_le hq
  have hlt : |(nearest q : ℚ) - m| < 1 := by
    have htriangle := abs_sub_le (nearest q : ℚ) q m
    linarith
  have hint : |(nearest q : ℤ) - m| < 1 := by exact_mod_cast hlt
  rw [Int.abs_lt_one_iff] at hint
  omega

/-- Halfway, the even one is. -/
theorem nearest_eq_of_le {q : ℚ} (hq : 0 ≤ q) {m : ℕ} (h : |q - m| ≤ 1 / 2)
    (heven : |q - m| = 1 / 2 → m % 2 = 0) : nearest q = m := by
  rcases h.lt_or_eq with hlt | heq
  · exact nearest_eq hq hlt
  · have hm := heven heq
    rcases abs_choice (q - m) with hsign | hsign
    · have hfloor : ⌊q⌋₊ = m := (Nat.floor_eq_iff hq).2 ⟨by linarith, by linarith⟩
      rw [nearest, hfloor]
      exact if_pos (Or.inr ⟨by linarith, hm⟩)
    · obtain ⟨k, rfl⟩ : ∃ k, m = k + 1 := by
        refine Nat.exists_eq_add_one.2 (Nat.pos_of_ne_zero ?_)
        rintro rfl
        rw [Nat.cast_zero] at *
        linarith
      push_cast at *
      have hfloor : ⌊q⌋₊ = k := (Nat.floor_eq_iff hq).2 ⟨by linarith, by linarith⟩
      rw [nearest, hfloor]
      refine if_neg ?_
      rintro (hless | ⟨-, hzero⟩)
      · linarith
      · omega

theorem le_nearest {q : ℚ} {m : ℕ} (h : (m : ℚ) ≤ q) : m ≤ nearest q := by
  have hq : 0 ≤ q := (Nat.cast_nonneg m).trans h
  have hnear := (abs_le.1 (abs_nearest_sub_le hq)).1
  have hlt : (m : ℚ) < (nearest q + 1 : ℕ) := by
    push_cast
    linarith
  exact Nat.lt_succ_iff.1 (Nat.cast_lt.1 hlt)

theorem nearest_le {q : ℚ} (hq : 0 ≤ q) {m : ℕ} (h : q ≤ m) : nearest q ≤ m := by
  have hnear := (abs_le.1 (abs_nearest_sub_le hq)).2
  have hlt : (nearest q : ℚ) < (m + 1 : ℕ) := by
    push_cast
    linarith
  exact Nat.lt_succ_iff.1 (Nat.cast_lt.1 hlt)

/-! ## Places -/

/-- The step of the last of `p` digits, where `x` is the place of the first. -/
def step (p : ℕ) (x : ℤ) : ℚ := 10 ^ (x + 1 - p)

theorem step_pos (p : ℕ) (x : ℤ) : 0 < step p x := by
  rw [step]
  positivity

theorem step_succ (p : ℕ) (x : ℤ) : step p (x + 1) = 10 * step p x := by
  rw [step, step, show x + 1 + 1 - (p : ℤ) = 1 + (x + 1 - p) by ring, zpow_add₀ (by norm_num),
    zpow_one]

theorem pow_mul_step (n p : ℕ) (x : ℤ) : (10 : ℚ) ^ n * step p x = 10 ^ (x + 1 - p + n) := by
  rw [step, ← zpow_natCast, ← zpow_add₀ (by norm_num), add_comm]

theorem top_mul_step (p : ℕ) (x : ℤ) : (10 : ℚ) ^ p * step p x = 10 ^ (x + 1) := by
  rw [pow_mul_step, sub_add_cancel]

theorem low_mul_step {p : ℕ} (hp : 1 ≤ p) (x : ℤ) :
    (10 : ℚ) ^ (p - 1) * step p x = 10 ^ x := by
  rw [pow_mul_step]
  congr 1
  omega

theorem log_eq {v : ℚ} {x : ℤ} (hlow : 10 ^ x ≤ v) (hhigh : v < 10 ^ (x + 1)) :
    Int.log 10 v = x := by
  have hv : 0 < v := lt_of_lt_of_le (by positivity) hlow
  have hle := (Int.zpow_le_iff_le_log (b := 10) (by omega) hv).1 (by exact_mod_cast hlow)
  have hlt := (Int.lt_zpow_iff_log_lt (b := 10) (by omega) hv).1 (by exact_mod_cast hhigh)
  omega

theorem div_step_bounds {p : ℕ} (hp : 1 ≤ p) {v : ℚ} (hv : 0 < v) :
    (10 : ℚ) ^ (p - 1) ≤ v / step p (Int.log 10 v) ∧ v / step p (Int.log 10 v) < 10 ^ p := by
  have hstep := step_pos p (Int.log 10 v)
  rw [le_div_iff₀ hstep, div_lt_iff₀ hstep, low_mul_step hp, top_mul_step]
  exact ⟨by exact_mod_cast Int.zpow_log_le_self (b := 10) (by omega) hv,
    by exact_mod_cast Int.lt_zpow_succ_log_self (b := 10) (by omega) v⟩

/-! ## Digits and a place -/

/-- A whole number of `p` digits, or the one after them, which takes the next place. -/
def carried (p d : ℕ) (x : ℤ) : ℕ × ℤ := if d = 10 ^ p then (10 ^ (p - 1), x + 1) else (d, x)

/-- The `p` digits of a number, and the place of the first. -/
def scientific (p : ℕ) (v : ℚ) : ℕ × ℤ :=
  carried p (nearest (v / step p (Int.log 10 v))) (Int.log 10 v)

/-- What `p` digits with a place stand for. -/
def number (p : ℕ) (s : ℕ × ℤ) : ℚ := s.1 * step p s.2

theorem number_carried {p : ℕ} (hp : 1 ≤ p) (d : ℕ) (x : ℤ) :
    number p (carried p d x) = d * step p x := by
  rw [carried]
  split
  · rename_i h
    rw [number, h, Nat.cast_pow, Nat.cast_pow, Nat.cast_ofNat, low_mul_step hp, top_mul_step]
  · rfl

theorem carried_bounds {p d : ℕ} (x : ℤ) (hlow : 10 ^ (p - 1) ≤ d) (hhigh : d ≤ 10 ^ p)
    (hp : 1 ≤ p) : 10 ^ (p - 1) ≤ (carried p d x).1 ∧ (carried p d x).1 < 10 ^ p := by
  rw [carried]
  split
  · exact ⟨le_rfl, Nat.pow_lt_pow_right (by omega) (by omega)⟩
  · exact ⟨hlow, by omega⟩

variable {p : ℕ} {v : ℚ}

theorem scientific_bounds (hp : 1 ≤ p) (hv : 0 < v) :
    10 ^ (p - 1) ≤ (scientific p v).1 ∧ (scientific p v).1 < 10 ^ p := by
  obtain ⟨hlow, hhigh⟩ := div_step_bounds hp hv
  have hnonneg : 0 ≤ v / step p (Int.log 10 v) := by
    have hstep := step_pos p (Int.log 10 v)
    positivity
  exact carried_bounds _ (le_nearest (by exact_mod_cast hlow))
    (nearest_le hnonneg (by exact_mod_cast hhigh.le)) hp

theorem abs_number_sub_le (hp : 1 ≤ p) (hv : 0 < v) :
    |number p (scientific p v) - v| ≤ v / (2 * 10 ^ (p - 1)) := by
  have hstep := step_pos p (Int.log 10 v)
  have hnear := abs_nearest_sub_le (div_nonneg hv.le hstep.le)
  have hlow := (div_step_bounds hp hv).1
  rw [le_div_iff₀ hstep] at hlow
  rw [scientific, number_carried hp]
  calc |(nearest (v / step p (Int.log 10 v)) : ℚ) * step p (Int.log 10 v) - v|
      = |(nearest (v / step p (Int.log 10 v)) : ℚ) - v / step p (Int.log 10 v)| *
          step p (Int.log 10 v) := by
        rw [← abs_of_pos hstep, ← abs_mul, abs_of_pos hstep, sub_mul, div_mul_cancel₀ _ hstep.ne']
    _ ≤ 1 / 2 * step p (Int.log 10 v) := mul_le_mul_of_nonneg_right hnear hstep.le
    _ ≤ v / (2 * 10 ^ (p - 1)) := by
        rw [le_div_iff₀ (by positivity)]
        linarith

/-- The digits are also what is nearest at the place that they have after the carry. -/
theorem nearest_div_step (hp : 1 ≤ p) (hv : 0 < v) :
    nearest (v / step p (scientific p v).2) = (scientific p v).1 := by
  have hstep := step_pos p (Int.log 10 v)
  have hnonneg := div_nonneg hv.le hstep.le
  rw [scientific, carried]
  split
  · rename_i h
    have hnear := abs_nearest_sub_le hnonneg
    have hpow : (10 : ℚ) ^ p = 10 * 10 ^ (p - 1) := by
      rw [← pow_succ', Nat.sub_add_cancel hp]
    rw [h, Nat.cast_pow, Nat.cast_ofNat, hpow, abs_le] at hnear
    have hdiv : v / step p (Int.log 10 v + 1) = v / step p (Int.log 10 v) / 10 := by
      rw [step_succ, mul_comm, div_mul_eq_div_div]
    rw [hdiv]
    apply nearest_eq (by positivity)
    rw [Nat.cast_pow, Nat.cast_ofNat, abs_lt]
    constructor <;> linarith
  · rfl

/-- Digits so close to a number that no other digits can be the nearest: a double with few
digits has them, and rounding gives them back. -/
theorem scientific_eq (hp : 1 ≤ p) (hv : 0 < v) {d : ℕ} {x : ℤ} (hlow : 10 ^ (p - 1) ≤ d)
    (hhigh : d < 10 ^ p) (hnear : |v - d * step p x| * (4 * 10 ^ p) ≤ v) :
    scientific p v = (d, x) := by
  have hstep := step_pos p x
  obtain ⟨q, hq⟩ : ∃ q, q = v / step p x := ⟨_, rfl⟩
  have hvq : v = q * step p x := by rw [hq, div_mul_cancel₀ _ hstep.ne']
  have hqpos : 0 < q := hq ▸ div_pos hv hstep
  have hten : (10 : ℚ) ^ p = 10 * 10 ^ (p - 1) := by rw [← pow_succ', Nat.sub_add_cancel hp]
  have hone : (1 : ℚ) ≤ 10 ^ (p - 1) := one_le_pow₀ (by norm_num)
  have hlow' : (10 : ℚ) ^ (p - 1) ≤ d := by exact_mod_cast hlow
  have hhigh' : (d : ℚ) + 1 ≤ 10 ^ p := by exact_mod_cast hhigh
  -- in steps, the distance is below a half
  have hrel : |q - d| * (4 * 10 ^ p) ≤ q := by
    rw [hvq, ← sub_mul, abs_mul, abs_of_pos hstep] at hnear
    refine le_of_mul_le_mul_right ?_ hstep
    calc |q - d| * (4 * 10 ^ p) * step p x = |q - d| * step p x * (4 * 10 ^ p) := by ring
      _ ≤ q * step p x := hnear
  have hdist : |q - d| < 1 / 2 := by
    by_contra hge
    rw [not_lt] at hge
    have hqd : q - d ≤ |q - d| := le_abs_self _
    nlinarith
  obtain ⟨hleft, hright⟩ := abs_lt.1 hdist
  rcases le_or_gt ((10 : ℚ) ^ (p - 1)) q with hge | hlt
  · -- the number has the place of its digits
    have hlog : Int.log 10 v = x := by
      apply log_eq
      · rw [← low_mul_step hp, hvq]
        exact mul_le_mul_of_nonneg_right hge hstep.le
      · rw [← top_mul_step p, hvq]
        exact mul_lt_mul_of_pos_right (by linarith) hstep
    rw [scientific, hlog, ← hq, nearest_eq hqpos.le hdist, carried, if_neg hhigh.ne]
  · -- it is just below a power of ten, and the digits are a one with zeros
    have hd : d = 10 ^ (p - 1) := by
      have hle : (d : ℚ) < (10 ^ (p - 1) + 1 : ℕ) := by
        push_cast
        linarith
      have hle' := Nat.lt_succ_iff.1 (Nat.cast_lt.1 hle)
      omega
    have hbelow : step p (x - 1) * 10 = step p x := by
      rw [mul_comm, ← step_succ, sub_add_cancel]
    have hstep' := step_pos p (x - 1)
    have hlog : Int.log 10 v = x - 1 := by
      apply log_eq
      · rw [← low_mul_step hp, hvq, ← hbelow, mul_comm (step p (x - 1)), ← mul_assoc]
        refine mul_le_mul_of_nonneg_right ?_ hstep'.le
        linarith
      · rw [sub_add_cancel, ← low_mul_step hp, hvq]
        exact mul_lt_mul_of_pos_right hlt hstep
    have hscaled : v / step p (x - 1) = 10 * q := by
      rw [div_eq_iff hstep'.ne', hvq, ← hbelow]
      ring
    have hcarry : nearest (10 * q) = 10 ^ p := by
      apply nearest_eq (by positivity)
      have hcast : ((10 ^ p : ℕ) : ℚ) = 10 * d := by
        rw [hd]
        push_cast
        exact hten
      rw [hcast, ← mul_sub, abs_mul, abs_of_pos (by norm_num : (0 : ℚ) < 10)]
      nlinarith [abs_nonneg (q - d)]
    rw [scientific, hlog, hscaled, hcarry, carried, if_pos rfl, sub_add_cancel, hd]

end Xeibe.Lib.Rounded

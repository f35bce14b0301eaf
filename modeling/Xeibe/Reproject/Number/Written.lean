import Xeibe.Reproject.Number.Shortest

/-!
# The text of a double

`write_g` writes what C's `%g` writes, with the shortest digits and with the rounded ones.
-/

namespace Xeibe.Reproject.Number

open Xeibe.Geom (F64)
open Xeibe.Lib Numerals Rounded Printf

variable {n p d : ℕ} {x : ℤ} {q : ℚ} {v : F64}

/-! ## Digits and an exponent from their text -/

theorem parseInt_written (x : ℤ) :
    parseInt ((if x < 0 then [0x2d] else []) ++ padded 1 x.natAbs) = x := by
  have hnumber := digitsNumber_padded 1 x.natAbs
  split
  · rw [List.singleton_append, parseInt, if_pos rfl, hnumber]
    omega
  · obtain ⟨b, rest, hcons⟩ := List.exists_cons_of_ne_nil (@padded_ne_nil 1 x.natAbs)
    have hb : isDigit b = true := isDigit_digitsOf b (hcons ▸ List.mem_cons_self)
    have hminus : b ≠ 0x2d := by
      rintro rfl
      cases hb
    rw [hcons] at hnumber ⊢
    rw [List.nil_append, parseInt, if_neg hminus, hnumber]
    omega

theorem bufDigits_append {front rest : Bytes} (h : 0x65 ∉ front) :
    bufDigits (front ++ 0x65 :: rest) = (front.filter isDigit, parseInt rest) := by
  have hindex : (front ++ 0x65 :: rest).idxOf 0x65 = front.length := by
    rw [List.idxOf_append_of_notMem h, List.idxOf_cons_self, Nat.add_zero]
  have hdrop : (front ++ 0x65 :: rest).drop (front.length + 1) = rest := by
    rw [List.append_cons]
    exact List.drop_left' List.length_append
  rw [bufDigits]
  simp only [hindex, List.take_left', hdrop]

/-- `Buf::digits` reads what was written. -/
theorem bufDigits_lowerExp (negative : Bool) {s : Bytes × ℤ}
    (hdigits : ∀ b ∈ s.1, isDigit b = true) : bufDigits (lowerExp negative s) = s := by
  have hfilter : ∀ l : Bytes, (∀ b ∈ l, b ∈ s.1) → l.filter isDigit = l := fun l hl =>
    List.filter_eq_self.2 fun b hb => hdigits b (hl b hb)
  have hletter : ∀ l : Bytes, (∀ b ∈ l, b ∈ s.1) → 0x65 ∉ l := fun l hl hmem =>
    absurd (hdigits _ (hl _ hmem)) (by decide)
  have htake : ∀ b ∈ s.1.take 1, b ∈ s.1 := fun b hb => List.mem_of_mem_take hb
  have hdrop : ∀ b ∈ s.1.drop 1, b ∈ s.1 := fun b hb => List.mem_of_mem_drop hb
  have hsign : ∀ l : Bytes, l = (if negative then [0x2d] else []) →
      l.filter isDigit = [] ∧ 0x65 ∉ l := by
    rintro l rfl
    cases negative <;> decide
  have hpoint : ∀ l : Bytes, l = (if 1 < s.1.length then 0x2e :: s.1.drop 1 else []) →
      l.filter isDigit = s.1.drop 1 ∧ 0x65 ∉ l := by
    rintro l rfl
    split
    · rw [List.filter_cons_of_neg (by decide), hfilter _ hdrop, List.mem_cons, not_or]
      exact ⟨rfl, by decide, hletter _ hdrop⟩
    · rw [List.drop_eq_nil_of_le (by omega)]
      exact ⟨rfl, List.not_mem_nil⟩
  obtain ⟨hsign, hsignE⟩ := hsign _ rfl
  obtain ⟨hpoint, hpointE⟩ := hpoint _ rfl
  rw [lowerExp, bufDigits_append, parseInt_written, List.filter_append, List.filter_append, hsign, hpoint,
    hfilter _ htake, List.nil_append, List.take_append_drop]
  simp only [List.mem_append, not_or]
  exact ⟨⟨hsignE, hletter _ htake⟩, hpointE⟩

/-- The digits up to the last that is not zero. -/
theorem take_kept {digits : Bytes} (h : stripZeros digits ≠ []) :
    digits.take (kept digits) = stripZeros digits := by
  induction digits using List.reverseRecOn with
  | nil => exact absurd rfl h
  | append_singleton digits c ih =>
    rw [kept, List.reverse_concat, List.findIdx?_cons]
    by_cases hc : c = 0x30
    · have hstrip : stripZeros (digits ++ [c]) = stripZeros digits := by
        rw [stripZeros, List.rdropWhile_concat_pos _ _ _ (by simpa using hc), stripZeros]
      rw [hstrip] at h ⊢
      have ih := ih h
      rw [kept] at ih
      cases hfound : digits.reverse.findIdx? (· ≠ 0x30) with
      | none =>
        have hall : ∀ b ∈ digits, b = 0x30 := by
          simpa using List.findIdx?_eq_none_iff.1 hfound
        refine absurd ?_ h
        rw [stripZeros, List.rdropWhile_eq_nil_iff]
        simpa using hall
      | some i =>
        simp only [hfound] at ih
        have hcount : (digits ++ [c]).length - (i + 1) = digits.length - i := by
          rw [List.length_append, List.length_singleton]
          omega
        simp only [hc, ne_eq, not_true_eq_false, decide_false, Bool.false_eq_true, if_false,
          Option.map_some]
        rw [← hc, hcount, List.take_append_of_le_length (Nat.sub_le _ _), ih]
    · simp [stripZeros, List.rdropWhile_concat_neg, hc]

/-! ## The layout -/

theorem fractionText_decimals (digits : Bytes) :
    Numeral.fractionText (decimals digits) = if digits = [] then [] else 0x2e :: digits := by
  cases digits with
  | nil => rfl
  | cons b rest => rw [if_neg (List.cons_ne_nil b rest), decimals, Numeral.fractionText]

theorem text_trimmed (e : Option Exponent) (h : (numeral n d e).whole ≠ []) :
    (trimmed (numeral n d e) h).text =
      padded 1 (d / 10 ^ n) ++
        ((if stripZeros (digitsOf n (d % 10 ^ n)) = [] then []
          else 0x2e :: stripZeros (digitsOf n (d % 10 ^ n))) ++ Numeral.exponentText e) := by
  rw [Numeral.text, trimmed]
  simp only [numeral, getD_decimals, fractionText_decimals]

theorem digitsOf_split {whole : ℕ} (hlow : 10 ^ whole ≤ d / 10 ^ n)
    (hhigh : d / 10 ^ n < 10 ^ (whole + 1)) :
    digitsOf (whole + 1 + n) d = padded 1 (d / 10 ^ n) ++ digitsOf n (d % 10 ^ n) ∧
      (padded 1 (d / 10 ^ n)).length = whole + 1 := by
  rw [padded_one hlow hhigh, digitsOf_add]
  exact ⟨rfl, length_digitsOf _ _⟩

/-- The exponent form. -/
theorem place_exponent (out : Bytes) (negative : Bool) (hlow : 10 ^ n ≤ d)
    (hhigh : d < 10 ^ (n + 1)) (hx : x < -4 ∨ ((n + 1 : ℕ) : ℤ) ≤ x)
    (h : (numeral n d (some (exponent x))).whole ≠ []) :
    place out negative (stripZeros (digitsOf (n + 1) d)) x (n + 1) =
      out ++ convert negative (trimmed (numeral n d (some (exponent x))) h) := by
  have hfirst : 1 ≤ d / 10 ^ n ∧ d / 10 ^ n < 10 := by
    rw [Nat.le_div_iff_mul_le (by positivity), Nat.div_lt_iff_lt_mul (by positivity), one_mul,
      ← pow_succ']
    exact ⟨hlow, hhigh⟩
  obtain ⟨hsplit, hlength⟩ := @digitsOf_split n d 0 (by simpa using hfirst.1)
    (by simpa using hfirst.2)
  have hwhole : stripZeros (padded 1 (d / 10 ^ n)) = padded 1 (d / 10 ^ n) := by
    rw [padded_one (n := 0) hfirst.1 hfirst.2]
    exact stripZeros_digitsOf le_rfl (Nat.not_dvd_of_pos_of_lt hfirst.1 hfirst.2)
  have hstrip : stripZeros (digitsOf (n + 1) d) =
      padded 1 (d / 10 ^ n) ++ stripZeros (digitsOf n (d % 10 ^ n)) := by
    rw [Nat.add_comm n, ← Nat.zero_add 1, hsplit]
    by_cases hnil : stripZeros (digitsOf n (d % 10 ^ n)) = []
    · rw [stripZeros_append_of_nil hnil, hnil, hwhole, List.append_nil]
    · exact stripZeros_append_of_ne_nil hnil
  obtain ⟨b, hb⟩ := List.length_eq_one_iff.1 hlength
  rw [convert, text_trimmed, place, if_pos hx, hstrip, hb]
  simp only [List.singleton_append, List.take_succ_cons, List.take_zero, List.drop_succ_cons,
    List.drop_zero, List.length_cons, Numeral.exponentText, Exponent.text, exponent]
  by_cases hnil : stripZeros (digitsOf n (d % 10 ^ n)) = []
  · cases negative <;> by_cases hneg : x < 0 <;> simp [hnil, hneg, Exponent.signText]
  · have hpos := List.length_pos_iff.2 hnil
    cases negative <;> by_cases hneg : x < 0 <;> simp [hnil, hneg, hpos, Exponent.signText]

/-- A point before all digits, with zeros after it. -/
theorem place_fraction (out : Bytes) (negative : Bool) (hp : 1 ≤ p) (hlow : 10 ^ (p - 1) ≤ d)
    (hhigh : d < 10 ^ p) (hx : -4 ≤ x) (hneg : x < 0)
    (h : (numeral (p - 1 - x).toNat d none).whole ≠ []) :
    place out negative (stripZeros (digitsOf p d)) x p =
      out ++ convert negative (trimmed (numeral (p - 1 - x).toNat d none) h) := by
  have hcount : (p - 1 - x).toNat = (-x - 1).toNat + p := by omega
  have hpow : 10 ^ p ≤ 10 ^ (p - 1 - x).toNat := Nat.pow_le_pow_right (by omega) (by omega)
  have hpos : 0 < d := (Nat.pow_pos (by omega)).trans_le hlow
  have hdigits : stripZeros (digitsOf p d) ≠ [] := fun hnil =>
    hpos.ne' ((stripZeros_eq_nil_iff hhigh).1 hnil)
  have hstrip : stripZeros (digitsOf (p - 1 - x).toNat d) =
      List.replicate (-x - 1).toNat 0x30 ++ stripZeros (digitsOf p d) := by
    rw [hcount, digitsOf_add, Nat.div_eq_of_lt hhigh, Nat.mod_eq_of_lt hhigh, digitsOf_zero]
    exact stripZeros_append_of_ne_nil hdigits
  have hne : List.replicate (-x - 1).toNat 0x30 ++ stripZeros (digitsOf p d) ≠ [] :=
    List.append_ne_nil_of_right_ne_nil _ hdigits
  have hzero : padded 1 0 = [0x30] := by simp [padded, digitsOf_zero]
  rw [convert, text_trimmed, Nat.div_eq_of_lt (hhigh.trans_le hpow),
    Nat.mod_eq_of_lt (hhigh.trans_le hpow), hstrip, if_neg hne, hzero, place,
    if_neg (by omega), if_pos hneg]
  cases negative <;> simp [Numeral.exponentText]

/-- A point after the digits of the whole number, where decimals follow. -/
theorem place_whole (out : Bytes) (negative : Bool) (hlow : 10 ^ (p - 1) ≤ d)
    (hhigh : d < 10 ^ p) (hneg : 0 ≤ x) (hx : x < p)
    (h : (numeral (p - 1 - x).toNat d none).whole ≠ []) :
    place out negative (stripZeros (digitsOf p d)) x p =
      out ++ convert negative (trimmed (numeral (p - 1 - x).toNat d none) h) := by
  obtain ⟨whole, rfl⟩ := Int.eq_ofNat_of_zero_le hneg
  obtain ⟨n, hn⟩ : ∃ n, p = whole + 1 + n := ⟨p - 1 - whole, by omega⟩
  have hcount : ((p : ℤ) - 1 - whole).toNat = n := by omega
  subst hn
  obtain ⟨hsplit, hlength⟩ := @digitsOf_split n d whole
    (by
      rw [Nat.le_div_iff_mul_le (by positivity), ← pow_add]
      exact (Nat.pow_le_pow_right (by omega) (by omega)).trans hlow)
    (by
      rw [Nat.div_lt_iff_lt_mul (by positivity), ← pow_add]
      exact hhigh)
  generalize ((whole + 1 + n : ℕ) - 1 - (whole : ℤ)).toNat = m at *
  subst hcount
  rw [convert, text_trimmed, place, if_neg (by omega), if_neg (by omega), hsplit,
    Int.toNat_natCast]
  dsimp only
  by_cases hnil : stripZeros (digitsOf m (d % 10 ^ m)) = []
  · -- the zeros that end the whole number are written again
    have hle := length_stripZeros_le (padded 1 (d / 10 ^ m))
    have hpad := stripZeros_pad (padded 1 (d / 10 ^ m))
    rw [hlength] at hle hpad
    rw [stripZeros_append_of_nil hnil, if_pos hnil, if_pos hle, List.append_assoc, hpad]
    cases negative <;> simp [Numeral.exponentText]
  · have hpos := List.length_pos_iff.2 hnil
    rw [stripZeros_append_of_ne_nil hnil, if_neg hnil,
      if_neg (by rw [List.length_append]; omega), List.take_left' hlength,
      List.drop_left' hlength]
    cases negative <;> simp [Numeral.exponentText]

/-- The digits of a number, laid out as `%g` does. -/
theorem place_scientific (out : Bytes) (negative : Bool) (hp : 1 ≤ p) (hq : 0 < q) :
    place out negative (stripZeros (digitsOf p (scientific p q).1)) (scientific p q).2 p =
      out ++ convert negative (styleG p q) := by
  obtain ⟨hlow, hhigh⟩ := scientific_bounds hp hq
  rw [styleG]
  split
  · rename_i hx
    obtain ⟨n, rfl⟩ := Nat.exists_eq_add_of_le' hp
    exact place_exponent out negative hlow hhigh hx _
  · rename_i hx
    have hdigits := nearest_mul_pow hp hq (by omega)
    unfold styleF
    simp only [hdigits]
    by_cases hneg : (scientific p q).2 < 0
    · exact place_fraction out negative hp hlow hhigh (by omega) hneg _
    · exact place_whole out negative hlow hhigh (by omega) (by omega) _

/-! ## Numbers -/

theorem text_styleG_zero (hp : 1 ≤ p) : (styleG p 0).text = [0x30] := by
  have hnearest : nearest 0 = 0 := nearest_eq le_rfl (by norm_num)
  have hscientific : scientific p 0 = (0, 0) := by
    rw [scientific, Int.log_zero_right, zero_div, hnearest, carried, if_neg (by positivity)]
  have hzero : padded 1 0 = [0x30] := by simp [padded, digitsOf_zero]
  have hx : ¬ ((0 : ℤ) < -4 ∨ (p : ℤ) ≤ 0) := by omega
  rw [styleG]
  simp only [hscientific]
  rw [if_neg hx]
  unfold styleF
  rw [text_trimmed, zero_mul, hnearest, Nat.zero_div, Nat.zero_mod,
    if_pos ((stripZeros_eq_nil_iff (by positivity)).2 rfl), hzero]
  rfl

theorem absolute_pos (h : v.units ≠ 0) : 0 < v.absolute := by
  have hpos : 0 < v.units.natAbs := Int.natAbs_pos.2 h
  rw [F64.absolute]
  positivity

theorem lt_zero_eq (hv : v.isNan = false) (h : v.units ≠ 0) :
    decide (v < F64.zero) = v.isSignNegative := by
  rw [F64.isSignNegative, decide_eq_decide, F64.lt_iff_units hv F64.isNan_zero, F64.units_zero]
  rcases Nat.lt_or_ge v.bits.toNat (2 ^ 63) with hlt | hge
  · have hunits := F64.units_of_lt hv hlt
    omega
  · have hunits := F64.units_of_le hv hge
    omega

theorem isDigit_shortest : ∀ b ∈ (shortest v).1, isDigit b = true := isDigit_digitsOf

theorem writeG_eq (hv : v.isFinite = true) (hp : 1 ≤ p) (out : Bytes) :
    writeG out v p = out ++ convert v.isSignNegative (styleG p v.absolute) := by
  have hnan := F64.isNan_of_isFinite hv
  have heq := F64.eq_iff_units hnan F64.isNan_zero
  rw [F64.units_zero] at heq
  rw [writeG]
  split
  · rename_i hzero
    have habsolute : v.absolute = 0 := by rw [F64.absolute, heq.1 hzero]; simp
    rw [habsolute, convert, text_styleG_zero hp]
    cases v.isSignNegative <;> rfl
  · rename_i hzero
    have hunits : v.units ≠ 0 := fun h => hzero (heq.2 h)
    have hpos := absolute_pos hunits
    have hplace := place_scientific out v.isSignNegative hp hpos
    have hexact : ∀ b ∈ (exact v p).1, isDigit b = true := isDigit_digitsOf
    rw [if_neg (by rw [hv]; decide), bufDigits_lowerExp _ isDigit_shortest,
      bufDigits_lowerExp _ hexact, lt_zero_eq hnan hunits]
    simp only
    split
    · rename_i hfast
      simp only [fast, Bool.and_eq_true, decide_eq_true_eq] at hfast
      rw [shortest_eq hfast.1.1 hfast.1.2 hfast.2]
      exact hplace
    · have hkept : stripZeros (exact v p).1 ≠ [] := by
        obtain ⟨hlow, hhigh⟩ := scientific_bounds hp hpos
        intro hnil
        have hdigits := (stripZeros_eq_nil_iff hhigh).1 hnil
        exact (Nat.pow_pos (by omega)).ne' (Nat.le_zero.1 (hdigits ▸ hlow))
      rw [take_kept hkept]
      exact hplace

theorem write_eq (hv : v.isFinite = true) (out : Bytes) :
    write out v = out ++ convert v.isSignNegative
      (styleG (if nines <:+: convert v.isSignNegative (styleG 15 v.absolute) then 14 else 15)
        v.absolute) := by
  rw [write]
  simp only [writeG_eq hv (show 1 ≤ 15 by omega), List.drop_left, List.take_left,
    writeG_eq hv (show 1 ≤ 14 by omega)]
  split <;> rfl

theorem absolute_pos_of_nines (hp : 1 ≤ p)
    (h : nines <:+: convert v.isSignNegative (styleG p v.absolute)) : 0 < v.absolute := by
  refine absolute_pos fun hzero => ?_
  have habsolute : v.absolute = 0 := by rw [F64.absolute, hzero]; simp
  rw [habsolute, convert, text_styleG_zero hp] at h
  have hle := h.length_le
  have hnines : nines.length = 10 := rfl
  have hsign : (if v.isSignNegative then [0x2d] else [] : Bytes).length ≤ 1 := by
    split <;> decide
  rw [hnines, List.length_append, List.length_singleton] at hle
  omega

theorem write_prints_as_c (v : F64) (hv : v.isFinite = true) :
    (∀ out p, 1 ≤ p → p ≤ 17 →
      writeG out v p = out ++ convert v.isSignNegative (styleG p v.absolute)) ∧
    (∀ p, fast v (shortest v).1 p = true →
      shortest v = (stripZeros (exact v p).1, (exact v p).2)) ∧
    (∀ out, ¬ nines <:+: convert v.isSignNegative (styleG 15 v.absolute) →
      write out v = out ++ convert v.isSignNegative (styleG 15 v.absolute)) ∧
    (∀ out, nines <:+: convert v.isSignNegative (styleG 15 v.absolute) →
      write out v = out ++ convert v.isSignNegative (styleG 14 v.absolute) ∧
      |(styleG 14 v.absolute).value - v.absolute| ≤ v.absolute / 10 ^ 13) := by
  refine ⟨fun out p hp _ => writeG_eq hv hp out, fun p hfast => ?_, fun out hnone => ?_,
    fun out hnines => ?_⟩
  · simp only [fast, Bool.and_eq_true, decide_eq_true_eq] at hfast
    exact shortest_eq hfast.1.1 hfast.1.2 hfast.2
  · rw [write_eq hv, if_neg hnone]
  · have hpos := absolute_pos_of_nines (by omega) hnines
    have hnear := abs_number_sub_le (show 1 ≤ 14 by omega) hpos
    rw [write_eq hv, if_pos hnines, value_styleG (by omega) hpos]
    refine ⟨rfl, hnear.trans (div_le_div_of_nonneg_left hpos.le (by norm_num) (by norm_num))⟩

theorem write_prints_tenth :
    writeG [] ⟨0x3fb999999999999a⟩ 17 =
      convert (F64.isSignNegative ⟨0x3fb999999999999a⟩)
        (styleG 17 (F64.absolute ⟨0x3fb999999999999a⟩)) :=
  (write_prints_as_c ⟨0x3fb999999999999a⟩ (by decide)).1 [] 17 (by decide) (by decide)

end Xeibe.Reproject.Number

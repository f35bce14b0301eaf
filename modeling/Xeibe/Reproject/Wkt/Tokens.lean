import Xeibe.Reproject.Angles.Numbers
import Xeibe.Reproject.Number.Written
import Xeibe.Reproject.Wkt.Model

/-!
# Tokens that are read back

A string, a number, a word or a date that was written is read as far as it goes,
whatever follows the comma or the bracket behind it.
-/

namespace Xeibe.Reproject.Wkt

open Xeibe.Geom (F64)
open Xeibe.Lib Numerals Printf

variable {p : UInt8 → Bool} {front rest s : Bytes} {v : F64}

/-! ## What ends an argument -/

/-- What the writer puts behind an argument. -/
def Ends (rest : Bytes) : Prop := rest.head? = some 0x2c ∨ rest.head? = some 0x5d

theorem Ends.not (h : Ends rest) (hp : p 0x2c = false ∧ p 0x5d = false) :
    ∀ b ∈ rest.head?, p b = false := by
  intro b hb
  rcases h with h | h
  · rw [h] at hb
    exact Option.some.inj hb ▸ hp.1
  · rw [h] at hb
    exact Option.some.inj hb ▸ hp.2

theorem dropWhile_front (hfront : ∀ b ∈ front, p b = true) (hrest : ∀ b ∈ rest.head?, p b = false) :
    (front ++ rest).dropWhile p = rest := by
  rw [List.dropWhile_append_of_pos hfront]
  cases rest with
  | nil => rfl
  | cons b rest => rw [List.dropWhile_cons_of_neg (by rw [hrest b rfl]; exact Bool.false_ne_true)]

theorem takeWhile_front (hfront : ∀ b ∈ front, p b = true) (hrest : ∀ b ∈ rest.head?, p b = false) :
    (front ++ rest).takeWhile p = front := by
  have hsplit := List.takeWhile_append_dropWhile (p := p) (l := front ++ rest)
  rw [dropWhile_front hfront hrest] at hsplit
  exact List.append_cancel_right hsplit

theorem skipSpace_eq (h : ∀ b ∈ s.head?, isAsciiWhitespace b = false) : skipSpace s = s := by
  cases s with
  | nil => rfl
  | cons b s => exact List.dropWhile_cons_of_neg (by rw [h b rfl]; exact Bool.false_ne_true)

theorem skipSpace_indent (pretty : Bool) (depth : Nat)
    (h : ∀ b ∈ s.head?, isAsciiWhitespace b = false) :
    skipSpace (indent pretty depth ++ s) = s := by
  refine dropWhile_front (fun b hb => ?_) h
  rw [indent] at hb
  split at hb
  · rcases List.mem_cons.1 hb with rfl | hb
    · rfl
    · rw [List.eq_of_mem_replicate hb]
      rfl
  · cases hb

/-! ## Strings -/

theorem quoted_cons (seg : Bytes) {b : UInt8} (hb : b ≠ 0x22) :
    quoted seg (b :: s) = (quoted seg s).map fun (out, rest) => (b :: out, rest) := by
  cases s with
  | nil => simp [quoted, hb, Except.map]
  | cons c s => rw [quoted, if_neg hb]

/-- A doubled quote is a quote of the string. -/
theorem quoted_escape (seg : Bytes) (hrest : rest.head? ≠ some 0x22) :
    quoted seg (escape s ++ 0x22 :: rest) = .ok (s, rest) := by
  induction s generalizing seg with
  | nil =>
    cases rest with
    | nil => rfl
    | cons c rest =>
      have hc : c ≠ 0x22 := fun h => hrest (by rw [h]; rfl)
      rw [escape, List.flatMap_nil, List.nil_append, quoted, if_pos rfl, if_neg hc]
  | cons b s ih =>
    rw [escape, List.flatMap_cons, List.append_assoc]
    split
    · rename_i hb
      rw [List.cons_append, List.cons_append, List.nil_append, quoted, if_pos rfl, if_pos rfl,
        ← escape, ih, hb]
      rfl
    · rename_i hb
      rw [List.cons_append, List.nil_append, quoted_cons seg hb, ← escape, ih]
      rfl

/-! ## Dates -/

theorem digit_of_isDate (h : isDate s = true) : ∃ b ∈ s.head?, isDigit b = true := by
  cases s with
  | nil => simp [isDate] at h
  | cons b s =>
    simp only [isDate, Bool.and_eq_true, List.take_succ_cons, List.all_cons] at h
    exact ⟨b, rfl, h.1.2.1⟩

theorem length_of_isDate (h : isDate s = true) : 4 < s.length := by
  simp only [isDate, Bool.and_eq_true, decide_eq_true_eq] at h
  exact h.1.1

theorem isDate_append (rest : Bytes) (hs : 4 < s.length) : isDate (s ++ rest) = isDate s := by
  have hlen : 4 < (s ++ rest).length := by
    rw [List.length_append]
    omega
  rw [isDate, isDate, List.take_append_of_le_length (by omega), List.getElem?_append_left hs,
    decide_eq_true hlen, decide_eq_true hs]

theorem dateTime_none (h : ∀ b ∈ s.head?, isDigit b = false) : dateTime s = none := by
  refine if_neg fun hdate => ?_
  obtain ⟨b, hb, hdigit⟩ := digit_of_isDate hdate
  rw [h b hb] at hdigit
  cases hdigit

/-- A `-` or `T` follows a date's digits, and no number's. -/
theorem head_of_isDate (h : isDate s = true) :
    (s.dropWhile isDigit).head? = some 0x2d ∨ (s.dropWhile isDigit).head? = some 0x54 := by
  simp only [isDate, Bool.and_eq_true, List.all_eq_true, decide_eq_true_eq, Bool.or_eq_true] at h
  have hfifth : (s.drop 4).head? = some 0x2d ∨ (s.drop 4).head? = some 0x54 := by
    rw [List.head?_drop]
    exact h.2
  have hdrop : s.dropWhile isDigit = s.drop 4 := by
    conv_lhs => rw [← List.take_append_drop 4 s]
    refine dropWhile_front h.1.2 fun b hb => ?_
    rcases hfifth with hfifth | hfifth
    · rw [← Option.some.inj (hfifth.symm.trans hb)]
      rfl
    · rw [← Option.some.inj (hfifth.symm.trans hb)]
      rfl
  rw [hdrop]
  exact hfifth

/-! ## Numbers -/

/-- The letter that the writer puts in place of `e`. -/
def withE (n : Numeral) : Numeral :=
  { n with exponent := n.exponent.map fun e => { e with letter := 0x45, isLetter := Or.inr rfl } }

theorem not_mem_digits {digits : Bytes} (h : ∀ b ∈ digits, isDigit b = true) {c : UInt8}
    (hc : isDigit c = false) : c ∉ digits := by
  intro hmem
  rw [h c hmem] at hc
  cases hc

theorem not_mem_fractionText {n : Numeral} : 0x65 ∉ Numeral.fractionText n.fraction := by
  cases hf : n.fraction with
  | none => simp [Numeral.fractionText]
  | some f =>
    have hnot := not_mem_digits (n.fraction_all f hf) (c := 0x65) rfl
    simp [Numeral.fractionText, hnot]

theorem exists_convert (negative : Bool) (n : Numeral) :
    ∃ n', (if 0x65 ∈ convert negative n then
      (convert negative n).set ((convert negative n).idxOf 0x65) 0x45 else convert negative n) =
        convert negative n' ∧ n'.value = n.value := by
  have hsign : (0x65 : UInt8) ∉ (if negative then [0x2d] else [] : Bytes) := by
    cases negative <;> decide
  have hwhole := not_mem_digits n.whole_all (c := 0x65) rfl
  have hfront : 0x65 ∉ (if negative then [0x2d] else []) ++ (n.whole ++
      Numeral.fractionText n.fraction) := by
    simp only [List.mem_append, not_or]
    exact ⟨hsign, hwhole, not_mem_fractionText⟩
  have htext : convert negative n = ((if negative then [0x2d] else []) ++ (n.whole ++
      Numeral.fractionText n.fraction)) ++ Numeral.exponentText n.exponent := by
    simp [convert, Numeral.text]
  cases he : n.exponent with
  | none =>
    refine ⟨n, if_neg ?_, rfl⟩
    rw [htext, he, Numeral.exponentText, List.append_nil]
    exact hfront
  | some e =>
    rcases e.isLetter with hletter | hletter
    · refine ⟨withE n, ?_, ?_⟩
      · have hconvert : convert negative (withE n) = ((if negative then [0x2d] else []) ++
            (n.whole ++ Numeral.fractionText n.fraction)) ++
              (0x45 :: (Exponent.signText e.sign ++ e.digits)) := by
          simp [convert, Numeral.text, withE, he, Numeral.exponentText, Exponent.text]
        rw [htext, he, Numeral.exponentText, Exponent.text, hletter, hconvert, if_pos (by simp),
          List.idxOf_append_of_notMem hfront, List.idxOf_cons_self, Nat.add_zero,
          List.set_append_right _ _ (Nat.le_refl _), Nat.sub_self, List.set_cons_zero]
      · simp [Numeral.value, withE, he, Exponent.value]
    · refine ⟨n, if_neg ?_, rfl⟩
      have hexp : 0x65 ∉ Exponent.signText e.sign := by
        cases e.sign with
        | none => simp [Exponent.signText]
        | some minus => cases minus <;> decide
      have hdigits := not_mem_digits e.digits_all (c := 0x65) rfl
      rw [htext, he, Numeral.exponentText, Exponent.text, hletter, List.mem_append, not_or]
      refine ⟨hfront, ?_⟩
      simp [hexp, hdigits]

/-- The digits that are written: a run of nines takes one. -/
def precision (v : F64) : Nat :=
  if Number.nines <:+: convert v.isSignNegative (styleG 15 v.absolute) then 14 else 15

theorem exists_number (hv : v.isFinite = true) (hzero : v.eq F64.zero = false) :
    ∃ n, number v = convert v.isSignNegative n ∧
      n.value = (styleG (precision v) v.absolute).value := by
  obtain ⟨n, hn, hvalue⟩ := exists_convert v.isSignNegative (styleG (precision v) v.absolute)
  refine ⟨n, ?_, hvalue⟩
  rw [number, hzero, if_neg Bool.false_ne_true, Number.write_eq hv, ← hn]
  rfl

theorem exists_numeral (hv : v.isFinite = true) : ∃ negative n, number v = convert negative n := by
  cases hzero : v.eq F64.zero with
  | true =>
    refine ⟨false, numeral 0 0 none, ?_⟩
    rw [number, hzero, if_pos rfl]
    rfl
  | false =>
    obtain ⟨n, hn, -⟩ := exists_number hv hzero
    exact ⟨_, n, hn⟩

theorem takeSignText_eq (h : ∀ b ∈ s.head?, b ≠ 0x2b ∧ b ≠ 0x2d) : takeSignText s = ([], s) := by
  cases s with
  | nil => rfl
  | cons b s => rw [takeSignText, if_neg (by simpa [not_or] using h b rfl)]

theorem head_numeral (n : Numeral) {b : UInt8} (hb : b ∈ (n.text ++ rest).head?) :
    isDigit b = true ∨ b = 0x2e := by
  rcases Numeral.starts_text n rest with h | ⟨after, h, -⟩
  · rw [NoDigit] at h
    push Not at h
    obtain ⟨c, hc, hdigit⟩ := h
    rw [hb] at hc
    rw [Option.some.inj hc]
    simpa using Or.inl hdigit
  · rw [h] at hb
    exact Or.inr (Option.some.inj hb).symm

theorem takeSignText_convert (negative : Bool) (n : Numeral) (rest : Bytes) :
    takeSignText (convert negative n ++ rest) =
      (if negative then [0x2d] else [], n.text ++ rest) := by
  cases negative with
  | true => rfl
  | false =>
    refine takeSignText_eq fun b hb => ?_
    rcases head_numeral n hb with h | h
    · exact ⟨Angles.isDigit_ne h rfl, Angles.isDigit_ne h rfl⟩
    · rw [h]
      decide

theorem parseF64_convert (negative : Bool) (n : Numeral) :
    parseF64 (convert negative n) =
      some ⟨UInt64.ofNat (nearestBits n.value + if negative then 2 ^ 63 else 0)⟩ := by
  have hsign := takeSignText_convert negative n []
  rw [List.append_nil, List.append_nil] at hsign
  rw [parseF64, hsign]
  simp only [Angles.parseNumber_text, Option.map_some]
  cases negative <;> rfl

theorem mantissa_all (n : Numeral) : ∀ b ∈ n.whole ++ Numeral.fractionText n.fraction,
    (isDigit b || decide (b = 0x2e)) = true := by
  intro b hb
  rcases List.mem_append.1 hb with hb | hb
  · rw [n.whole_all b hb, Bool.true_or]
  · cases hf : n.fraction with
    | none =>
      rw [hf] at hb
      cases hb
    | some f =>
      rw [hf] at hb
      rcases List.mem_cons.1 hb with rfl | hb
      · rfl
      · rw [n.fraction_all f hf b hb, Bool.true_or]

theorem takeSignText_exponent (e : Exponent) (rest : Bytes) :
    takeSignText (Exponent.signText e.sign ++ (e.digits ++ rest)) =
      (Exponent.signText e.sign, e.digits ++ rest) := by
  obtain ⟨b, digits, hcons⟩ := List.exists_cons_of_ne_nil e.digits_ne
  have hb := e.digits_all b (hcons ▸ List.mem_cons_self)
  cases e.sign with
  | none =>
    refine takeSignText_eq fun c hc => ?_
    rw [hcons] at hc
    obtain rfl := Option.some.inj hc
    exact ⟨Angles.isDigit_ne hb rfl, Angles.isDigit_ne hb rfl⟩
  | some minus => cases minus <;> rfl

theorem numberToken_convert (negative : Bool) (n : Numeral) (hrest : Ends rest) :
    numberToken (convert negative n ++ rest) = (convert negative n, rest) := by
  have hstop : ∀ b ∈ (Numeral.exponentText n.exponent ++ rest).head?,
      (isDigit b || decide (b = 0x2e)) = false := by
    cases n.exponent with
    | none => exact hrest.not (p := fun b => isDigit b || decide (b = 0x2e)) ⟨rfl, rfl⟩
    | some e =>
      intro b hb
      obtain rfl := Option.some.inj hb
      rcases e.isLetter with h | h <;> rw [h] <;> rfl
  have htext : n.text ++ rest = (n.whole ++ Numeral.fractionText n.fraction) ++
      (Numeral.exponentText n.exponent ++ rest) := by
    simp [Numeral.text]
  rw [numberToken, takeSignText_convert]
  simp only [htext, takeWhile_front (mantissa_all n) hstop, dropWhile_front (mantissa_all n) hstop]
  cases he : n.exponent with
  | none =>
    obtain ⟨b, after, rfl⟩ : ∃ b after, rest = b :: after := by
      cases rest with
      | nil => rcases hrest with h | h <;> cases h
      | cons b after => exact ⟨b, after, rfl⟩
    have hletter : ¬ (b = 0x65 ∨ b = 0x45) := by
      have hb := hrest.not (p := fun b => b = 0x65 || b = 0x45) ⟨rfl, rfl⟩ b rfl
      simpa using hb
    simp only [Numeral.exponentText, List.nil_append]
    rw [if_neg hletter, convert, Numeral.text, he, Numeral.exponentText, List.append_nil]
  | some e =>
    have hdigits : NoDigit rest := hrest.not ⟨rfl, rfl⟩
    simp only [Numeral.exponentText, Exponent.text, List.cons_append, List.append_assoc]
    rw [if_pos e.isLetter, takeSignText_exponent]
    simp only [takeWhile_digits e.digits_all hdigits, dropWhile_digits e.digits_all hdigits]
    simp [convert, Numeral.text, he, Numeral.exponentText, Exponent.text]

end Xeibe.Reproject.Wkt

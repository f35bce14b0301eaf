import Xeibe.Reproject.Angles.Model

/-!
# The number before a unit

`strtod_prefix` takes the longest numeral that a text starts with, and its value
is the numeral's.
-/

namespace Xeibe.Reproject.Angles

open Xeibe.Lib Numerals

variable {n : Numeral} {rest : Bytes}

theorem isDigit_ne {b c : UInt8} (hb : isDigit b = true) (hc : isDigit c = false) : b ≠ c := by
  rintro rfl
  rw [hb] at hc
  cases hc

theorem isDigit_letter (e : Exponent) : isDigit e.letter = false := by
  rcases e.isLetter with h | h <;> rw [h] <;> rfl

theorem takeSign_digits {digits : Bytes} (hne : digits ≠ [])
    (hall : ∀ b ∈ digits, isDigit b = true) (sign : Option Bool) :
    takeSign (Exponent.signText sign ++ (digits ++ rest)) = (sign, digits ++ rest) := by
  obtain ⟨b, digits, rfl⟩ := List.exists_cons_of_ne_nil hne
  have hb := hall b List.mem_cons_self
  cases sign with
  | none =>
    rw [Exponent.signText, List.nil_append, List.cons_append, takeSign,
      if_neg (isDigit_ne hb rfl), if_neg (isDigit_ne hb rfl)]
  | some minus => cases minus <;> rfl

/-! ## Exponents -/

theorem parseExponent_text (e : Option Exponent) :
    parseExponent (Numeral.exponentText e) = some ((e.map Exponent.value).getD 0) := by
  cases e with
  | none => rfl
  | some e =>
    have hempty : e.digits.isEmpty = false := by simpa using e.digits_ne
    have hall : e.digits.all isDigit = true := by simpa using e.digits_all
    have hsign := @takeSign_digits [] e.digits e.digits_ne e.digits_all e.sign
    rw [List.append_nil] at hsign
    rw [Numeral.exponentText, Exponent.text, parseExponent, if_pos e.isLetter, hsign]
    simp [hempty, hall, Exponent.value]

theorem skipExponent_text (e : Exponent) (hrest : NoDigit rest) :
    skipExponent (e.text ++ rest) = rest := by
  have hlength := List.length_pos_iff.2 e.digits_ne
  rw [Exponent.text, List.cons_append, List.append_assoc, skipExponent, if_pos e.isLetter,
    takeSign_digits e.digits_ne e.digits_all]
  simp only [dropWhile_digits e.digits_all hrest]
  rw [if_pos (by rw [List.length_append]; omega)]

theorem takeSign_spec (text : Bytes) :
    text = Exponent.signText (takeSign text).1 ++ (takeSign text).2 := by
  cases text with
  | nil => rfl
  | cons b rest =>
    rw [takeSign]
    split
    · rename_i h
      rw [h]
      rfl
    · split
      · rename_i h
        rw [h]
        rfl
      · rfl

/-- A text that no exponent starts is left as it is. -/
theorem skipExponent_eq (h : ∀ (e : Exponent) (after : Bytes), rest ≠ e.text ++ after) :
    skipExponent rest = rest := by
  cases rest with
  | nil => rfl
  | cons b exponent =>
    rw [skipExponent]
    by_cases hletter : b = 0x65 ∨ b = 0x45
    · rw [if_pos hletter]
      refine if_neg fun hlt => ?_
      obtain ⟨digits, after, hsplit, hall, hafter⟩ := exists_digits (takeSign exponent).2
      rw [hsplit, dropWhile_digits hall hafter, List.length_append] at hlt
      refine h ⟨b, hletter, (takeSign exponent).1, digits, fun hnil => ?_, hall⟩ after ?_
      · rw [hnil, List.length_nil] at hlt
        omega
      · rw [Exponent.text, List.cons_append, List.append_assoc, ← hsplit, ← takeSign_spec]
    · rw [if_neg hletter]

/-! ## Numerals -/

theorem takePoint_exponent (e : Option Exponent) (hrest : e = none → rest.head? ≠ some 0x2e) :
    takePoint (Numeral.exponentText e ++ rest) = none := by
  cases e with
  | none =>
    cases rest with
    | nil => rfl
    | cons b rest => exact if_neg fun heq => hrest rfl (by rw [heq]; rfl)
  | some e =>
    refine if_neg ?_
    rcases e.isLetter with h | h <;> rw [h] <;> decide

theorem noDigit_exponent (e : Option Exponent) (hrest : NoDigit rest) :
    NoDigit (Numeral.exponentText e ++ rest) := by
  cases e with
  | none => exact hrest
  | some e => exact noDigit_cons (isDigit_letter e)

theorem noDigit_fraction (f : Option Bytes) (hrest : NoDigit rest) :
    NoDigit (Numeral.fractionText f ++ rest) := by
  cases f with
  | none => exact hrest
  | some f => exact noDigit_cons rfl

theorem parseNumber_text (n : Numeral) : parseNumber n.text = some n.value := by
  have hexponent : NoDigit (Numeral.exponentText n.exponent) := by
    have h := noDigit_exponent n.exponent noDigit_nil
    rwa [List.append_nil] at h
  have htail := noDigit_fraction n.fraction hexponent
  rw [parseNumber, Numeral.text, takeWhile_digits n.whole_all htail,
    dropWhile_digits n.whole_all htail]
  have hvalue : n.value = Numeral.scaled n.whole (n.fraction.getD [])
      ((n.exponent.map Exponent.value).getD 0) := rfl
  have hsome := n.some_digit
  have hall := n.fraction_all
  rw [hvalue]
  cases hf : n.fraction with
  | none =>
    have hempty : n.exponent = none → ([] : Bytes).head? ≠ some 0x2e := by
      intro _ h
      cases h
    have hpoint := takePoint_exponent n.exponent hempty
    rw [List.append_nil] at hpoint
    have hwhole : n.whole ≠ [] := by
      rcases hsome with h | ⟨f, h, -⟩
      · exact h
      · rw [hf] at h
        cases h
    simp only [Numeral.fractionText, List.nil_append, hpoint]
    rw [if_neg (by simpa using hwhole), parseExponent_text]
    rfl
  | some f =>
    have hfraction := hall f hf
    have hne : n.whole ≠ [] ∨ f ≠ [] := by
      refine hsome.imp_right ?_
      rintro ⟨g, hg, hne⟩
      rw [hf] at hg
      rwa [Option.some.inj hg]
    simp only [Numeral.fractionText, List.cons_append, takePoint, if_true,
      takeWhile_digits hfraction hexponent, dropWhile_digits hfraction hexponent]
    rw [if_neg (by simp only [Bool.and_eq_true, List.isEmpty_iff]; tauto), parseExponent_text]
    rfl

theorem skipExponent_append (e : Option Exponent) (hrest : NoDigit rest)
    (hnone : e = none → ∀ (e : Exponent) (after : Bytes), rest ≠ e.text ++ after) :
    skipExponent (Numeral.exponentText e ++ rest) = rest := by
  cases e with
  | none => exact skipExponent_eq (hnone rfl)
  | some e => exact skipExponent_text e hrest

/-- A numeral is read up to what stops it. -/
theorem strtodPrefix_text (h : n.Stops rest) :
    strtodPrefix (n.text ++ rest) = some (n.value, n.text.length) := by
  have hexponent := noDigit_exponent n.exponent h.digit
  have htail := noDigit_fraction n.fraction hexponent
  have hskip := skipExponent_append n.exponent h.digit h.exponent
  have htext : n.text ++ rest = n.whole ++ (Numeral.fractionText n.fraction ++
      (Numeral.exponentText n.exponent ++ rest)) := by
    simp [Numeral.text]
  have hlength : (n.text ++ rest).length - rest.length = n.text.length := by
    rw [List.length_append, Nat.add_sub_cancel]
  have hread : (parseNumber ((n.text ++ rest).take n.text.length)).map
      (fun v => (v, n.text.length)) = some (n.value, n.text.length) := by
    rw [List.take_left, parseNumber_text]
    rfl
  rw [strtodPrefix, htext, dropWhile_digits n.whole_all htail, ← htext]
  cases hf : n.fraction with
  | none =>
    have hwhole : n.whole ≠ [] := by
      refine n.some_digit.resolve_right ?_
      rintro ⟨f, h, -⟩
      rw [hf] at h
      cases h
    have hpos := List.length_pos_iff.2 hwhole
    have hpoint := takePoint_exponent n.exponent (h.point hf)
    have hshorter : (Numeral.exponentText n.exponent ++ rest).length < (n.text ++ rest).length := by
      rw [htext, hf]
      simp only [Numeral.fractionText, List.nil_append, List.length_append]
      omega
    simp only [Numeral.fractionText, List.nil_append, hpoint, hshorter, decide_true, Bool.not_true,
      Bool.false_and, hskip, hlength]
    exact hread
  | some f =>
    have hfraction := n.fraction_all f hf
    have hdigit : 0 < n.whole.length ∨ 0 < f.length := by
      rcases n.some_digit with hne | ⟨g, hg, hne⟩
      · exact Or.inl (List.length_pos_iff.2 hne)
      · rw [hf] at hg
        exact Or.inr (List.length_pos_iff.2 (Option.some.inj hg ▸ hne))
    have hwhole : (n.text ++ rest).length = n.whole.length +
        (0x2e :: (f ++ (Numeral.exponentText n.exponent ++ rest))).length := by
      rw [htext, hf, List.length_append]
      rfl
    have hfrac : (f ++ (Numeral.exponentText n.exponent ++ rest)).length =
        f.length + (Numeral.exponentText n.exponent ++ rest).length := List.length_append
    simp only [Numeral.fractionText, List.cons_append, takePoint, if_true,
      dropWhile_digits hfraction hexponent, hskip, hlength]
    rw [if_neg ?_]
    · exact hread
    · simp only [Bool.and_eq_true, Bool.not_eq_true', decide_eq_false_iff_not]
      rintro ⟨hnone, hshort⟩
      have hlong := of_decide_eq_false hnone
      omega

theorem strtodPrefix_none {s : Bytes} (h : ¬ Numeral.Starts s) : strtodPrefix s = none := by
  rw [Numeral.Starts, not_or, not_not] at h
  obtain ⟨hno, hpoint⟩ := h
  rw [strtodPrefix, dropWhile_noDigit hno]
  cases hs : takePoint s with
  | none => simp
  | some fraction =>
    have hfraction : NoDigit fraction := by
      by_contra hdigit
      refine hpoint ⟨fraction, ?_, hdigit⟩
      cases s with
      | nil => cases hs
      | cons b rest =>
        rw [takePoint] at hs
        split at hs
        · rename_i heq
          rw [heq, Option.some.inj hs]
        · cases hs
    simp [dropWhile_noDigit hfraction]

theorem strtodPrefix_spec {s : Bytes} {v : ℚ} {i : Nat} (h : strtodPrefix s = some (v, i)) :
    ∃ (n : Numeral) (rest : Bytes), s = n.text ++ rest ∧ v = n.value ∧ i = n.text.length := by
  have hstarts : Numeral.Starts s := by
    by_contra hno
    rw [strtodPrefix_none hno] at h
    cases h
  obtain ⟨n, rest, rfl, hstops⟩ := Numeral.exists_longest hstarts
  rw [strtodPrefix_text hstops] at h
  cases h
  exact ⟨n, rest, rfl, rfl, rfl⟩

end Xeibe.Reproject.Angles

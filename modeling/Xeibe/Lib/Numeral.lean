import Mathlib.Algebra.Order.Field.Rat
import Mathlib.Data.List.TakeWhile

/-!
# Decimal numerals

An unsigned number as it is written: digits, a point with digits, an exponent.
A numeral is its parts, with the text and the exact value that they stand for.
A reader that takes the longest numeral off a text takes a numeral's text off
what stops it.
-/

namespace Xeibe.Lib.Numerals

def isDigit (b : UInt8) : Bool := 0x30 ≤ b && b ≤ 0x39

/-- The number that digits stand for. -/
def digitsNumber (digits : List UInt8) : Nat :=
  digits.foldl (fun n b => n * 10 + (b.toNat - 48)) 0

/-- A text that no digit starts. -/
def NoDigit (text : List UInt8) : Prop := ∀ b ∈ text.head?, isDigit b = false

theorem noDigit_nil : NoDigit [] := nofun

theorem noDigit_cons {b : UInt8} {rest : List UInt8} (h : isDigit b = false) :
    NoDigit (b :: rest) := fun _ hb => Option.some.inj hb ▸ h

theorem dropWhile_noDigit {text : List UInt8} (h : NoDigit text) :
    text.dropWhile isDigit = text := by
  cases text with
  | nil => rfl
  | cons b rest => rw [List.dropWhile_cons_of_neg (by rw [h b rfl]; exact Bool.false_ne_true)]

theorem dropWhile_digits {digits rest : List UInt8} (hdigits : ∀ b ∈ digits, isDigit b = true)
    (hrest : NoDigit rest) : (digits ++ rest).dropWhile isDigit = rest := by
  rw [List.dropWhile_append_of_pos hdigits, dropWhile_noDigit hrest]

theorem takeWhile_digits {digits rest : List UInt8} (hdigits : ∀ b ∈ digits, isDigit b = true)
    (hrest : NoDigit rest) : (digits ++ rest).takeWhile isDigit = digits := by
  have hsplit := List.takeWhile_append_dropWhile (p := isDigit) (l := digits ++ rest)
  rw [dropWhile_digits hdigits hrest] at hsplit
  exact List.append_cancel_right hsplit

theorem noDigit_dropWhile (text : List UInt8) : NoDigit (text.dropWhile isDigit) := by
  intro b hb
  have hnot := List.head?_dropWhile_not isDigit text
  rw [Option.mem_def.1 hb] at hnot
  simpa using hnot

theorem mem_takeWhile_digits {text : List UInt8} {b : UInt8} (h : b ∈ text.takeWhile isDigit) :
    isDigit b = true :=
  List.mem_takeWhile_imp h

theorem exists_digits (text : List UInt8) :
    ∃ digits rest, text = digits ++ rest ∧ (∀ b ∈ digits, isDigit b = true) ∧ NoDigit rest :=
  ⟨text.takeWhile isDigit, text.dropWhile isDigit, List.takeWhile_append_dropWhile.symm,
    fun _ hb => mem_takeWhile_digits hb, noDigit_dropWhile text⟩

theorem not_noDigit {digits rest : List UInt8} (hne : digits ≠ [])
    (hall : ∀ b ∈ digits, isDigit b = true) : ¬ NoDigit (digits ++ rest) := by
  obtain ⟨b, digits, rfl⟩ := List.exists_cons_of_ne_nil hne
  intro hno
  have hb := hno b rfl
  rw [hall b List.mem_cons_self] at hb
  cases hb

/-! ## Exponents -/

structure Exponent where
  letter : UInt8
  isLetter : letter = 0x65 ∨ letter = 0x45
  /-- A written sign, and whether it is a minus. -/
  sign : Option Bool
  digits : List UInt8
  digits_ne : digits ≠ []
  digits_all : ∀ b ∈ digits, isDigit b = true

namespace Exponent

def signText : Option Bool → List UInt8
  | none => []
  | some false => [0x2b]
  | some true => [0x2d]

def text (e : Exponent) : List UInt8 := e.letter :: (signText e.sign ++ e.digits)

def value (e : Exponent) : Int :=
  if e.sign = some true then -digitsNumber e.digits else digitsNumber e.digits

theorem text_length (e : Exponent) : 2 ≤ e.text.length := by
  have hdigits := List.length_pos_iff.2 e.digits_ne
  simp only [text, List.length_cons, List.length_append]
  omega

theorem text_head (e : Exponent) (after : List UInt8) :
    (e.text ++ after).head? = some e.letter := rfl

theorem exists_longest (text : List UInt8) :
    (∃ (e : Exponent) (after : List UInt8), text = e.text ++ after ∧ NoDigit after) ∨
      ∀ (e : Exponent) (after : List UInt8), text ≠ e.text ++ after := by
  by_cases h : ∃ (e : Exponent) (after : List UInt8), text = e.text ++ after
  · obtain ⟨e, after, rfl⟩ := h
    obtain ⟨more, rest, rfl, hmore, hrest⟩ := exists_digits after
    refine Or.inl ⟨{ e with
        digits := e.digits ++ more
        digits_ne := List.append_ne_nil_of_left_ne_nil e.digits_ne _
        digits_all := fun b hb => (List.mem_append.1 hb).elim (e.digits_all b) (hmore b) },
      rest, ?_, hrest⟩
    simp [text]
  · exact Or.inr fun e after heq => h ⟨e, after, heq⟩

end Exponent

/-! ## Numerals -/

structure Numeral where
  whole : List UInt8
  whole_all : ∀ b ∈ whole, isDigit b = true
  /-- What follows a point. -/
  fraction : Option (List UInt8)
  fraction_all : ∀ f ∈ fraction, ∀ b ∈ f, isDigit b = true
  some_digit : whole ≠ [] ∨ ∃ f ∈ fraction, f ≠ []
  exponent : Option Exponent

namespace Numeral

def fractionText : Option (List UInt8) → List UInt8
  | none => []
  | some f => 0x2e :: f

def exponentText : Option Exponent → List UInt8
  | none => []
  | some e => e.text

def text (n : Numeral) : List UInt8 :=
  n.whole ++ (fractionText n.fraction ++ exponentText n.exponent)

/-- The value of digits before and after a point, times a power of ten. -/
def scaled (whole fraction : List UInt8) (exponent : Int) : ℚ :=
  (digitsNumber (whole ++ fraction) : ℚ) * 10 ^ (exponent - fraction.length)

def value (n : Numeral) : ℚ :=
  scaled n.whole (n.fraction.getD []) ((n.exponent.map Exponent.value).getD 0)

/-- What may follow a numeral that is read as far as it goes. -/
structure Stops (n : Numeral) (rest : List UInt8) : Prop where
  digit : NoDigit rest
  point : n.fraction = none → n.exponent = none → rest.head? ≠ some 0x2e
  exponent : n.exponent = none → ∀ (e : Exponent) (after : List UInt8), rest ≠ e.text ++ after

/-- A digit, or a point with a digit after it, starts a numeral. -/
def Starts (text : List UInt8) : Prop :=
  ¬ NoDigit text ∨ ∃ after, text = 0x2e :: after ∧ ¬ NoDigit after

theorem starts_text (n : Numeral) (rest : List UInt8) : Starts (n.text ++ rest) := by
  rw [text, List.append_assoc]
  by_cases hwhole : n.whole = []
  · obtain ⟨f, hf, hne⟩ := n.some_digit.resolve_left fun hne => hne hwhole
    rw [hwhole, Option.mem_def.1 hf]
    refine Or.inr ⟨f ++ (exponentText n.exponent ++ rest), ?_,
      not_noDigit hne (n.fraction_all f hf)⟩
    simp [fractionText]
  · exact Or.inl (not_noDigit hwhole n.whole_all)

/-- The longest numeral at the start of a text. -/
theorem exists_longest {text : List UInt8} (h : Starts text) :
    ∃ (n : Numeral) (rest : List UInt8), text = n.text ++ rest ∧ n.Stops rest := by
  obtain ⟨whole, after, rfl, hwhole, hafter⟩ := exists_digits text
  have hsome : whole ≠ [] ∨ ∃ rest, after = 0x2e :: rest ∧ ¬ NoDigit rest := by
    by_cases hne : whole = []
    · subst hne
      exact h.imp_left fun hdigit => absurd hafter hdigit
    · exact Or.inl hne
  by_cases hpoint : ∃ rest, after = 0x2e :: rest
  · obtain ⟨fractional, rfl⟩ := hpoint
    obtain ⟨fraction, rest, rfl, hfraction, hrest⟩ := exists_digits fractional
    have hdigit : whole ≠ [] ∨ ∃ f ∈ some fraction, f ≠ [] := by
      refine hsome.imp_right ?_
      rintro ⟨_, heq, hdigit⟩
      obtain rfl := (List.cons.inj heq).2
      refine ⟨fraction, rfl, fun hnil => hdigit ?_⟩
      rwa [hnil]
    have hfraction' : ∀ f ∈ some fraction, ∀ b ∈ f, isDigit b = true := fun f hf =>
      Option.some.inj hf ▸ hfraction
    rcases Exponent.exists_longest rest with ⟨e, end', rfl, hend⟩ | hnone
    · exact ⟨⟨whole, hwhole, some fraction, hfraction', hdigit, some e⟩, end',
        by simp [text, fractionText, exponentText], hend, nofun, nofun⟩
    · exact ⟨⟨whole, hwhole, some fraction, hfraction', hdigit, none⟩, rest,
        by simp [text, fractionText, exponentText], hrest, nofun, fun _ => hnone⟩
  · have hdigit : whole ≠ [] ∨ ∃ f ∈ (none : Option (List UInt8)), f ≠ [] := by
      refine Or.inl (hsome.resolve_right ?_)
      rintro ⟨rest, heq, -⟩
      exact hpoint ⟨rest, heq⟩
    rcases Exponent.exists_longest after with ⟨e, end', rfl, hend⟩ | hnone
    · exact ⟨⟨whole, hwhole, none, nofun, hdigit, some e⟩, end',
        by simp [text, fractionText, exponentText], hend, nofun, nofun⟩
    · refine ⟨⟨whole, hwhole, none, nofun, hdigit, none⟩, after,
        by simp [text, fractionText, exponentText], hafter, fun _ _ hhead => hpoint ?_,
        fun _ => hnone⟩
      cases after with
      | nil => cases hhead
      | cons b rest => exact ⟨rest, by rw [Option.some.inj hhead]⟩

end Numeral

end Xeibe.Lib.Numerals

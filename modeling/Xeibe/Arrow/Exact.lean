import Mathlib.Tactic.FieldSimp
import Mathlib.Tactic.Linarith
import Xeibe.Arrow.Days
import Xeibe.Arrow.Lexical

/-!
# Dates and times are counted exactly

Each function of the parser reads back the part of the text that stands for its
part of the value, so what `parse_scalar` returns for a date or a time is its count,
whatever the year, the zone and the digits of the fraction.  What cannot be counted
in the column's word, or not without losing digits, is a failure.
-/

namespace Xeibe.Arrow

open Lib Lib.Decimal

/-! ## Digits -/

/-- What follows is neither a digit nor inside a character. -/
def Ends (rest : Bytes) : Prop := ∀ b ∈ rest.head?, isAsciiDigit b = false ∧ b < 0x80

theorem ends_nil : Ends [] := by simp [Ends]

theorem ends_cons {b : UInt8} (rest : Bytes) (hdigit : isAsciiDigit b = false) (hascii : b < 0x80) :
    Ends (b :: rest) := by
  intro b' hb'
  obtain rfl : b = b' := by simpa using hb'
  exact ⟨hdigit, hascii⟩

theorem isAsciiDigit_digit (d : Fin 10) : isAsciiDigit (digit d) = true := by
  have hd := d.isLt
  simp only [isAsciiDigit, Bool.and_eq_true, decide_eq_true_eq, UInt8.le_iff_toNat_le, toNat_digit]
  constructor
  · show 48 ≤ 48 + d.val
    omega
  · show 48 + d.val ≤ 57
    omega

theorem Ends.ascii {rest : Bytes} (hends : Ends rest) : ∀ b ∈ rest.head?, b < 0x80 :=
  fun b hb => (hends b hb).2

theorem digit_ascii (d : Fin 10) : digit d < 0x80 := by
  have hd := d.isLt
  rw [UInt8.lt_iff_toNat_lt, toNat_digit]
  show 48 + d.val < 128
  omega

theorem isCharBoundary_append {text rest : Bytes} (hascii : ∀ b ∈ rest.head?, b < 0x80) :
    isCharBoundary (text ++ rest) text.length = true := by
  cases rest with
  | nil => simp [isCharBoundary]
  | cons b rest =>
    have hb : b < 0x80 := hascii b (by simp)
    simp [isCharBoundary, hb]

theorem sliceFrom_append (text : Bytes) {rest : Bytes} (hascii : ∀ b ∈ rest.head?, b < 0x80) :
    sliceFrom (text ++ rest) text.length = .ok rest := by
  simp [sliceFrom, isCharBoundary_append hascii]

theorem sliceTo_append (text : Bytes) {rest : Bytes} (hascii : ∀ b ∈ rest.head?, b < 0x80) :
    sliceTo (text ++ rest) text.length = .ok text := by
  simp [sliceTo, isCharBoundary_append hascii]

theorem countDigits_append (digits : List (Fin 10)) {rest : Bytes} (hends : Ends rest) :
    countDigits (digits.map digit ++ rest) = digits.length := by
  have hrest : rest.takeWhile isAsciiDigit = [] := by
    cases rest with
    | nil => rfl
    | cons b rest => simp [(hends b (by simp)).1]
  have hdigits : ∀ b ∈ digits.map digit, isAsciiDigit b = true := by
    simp [isAsciiDigit_digit]
  rw [countDigits, List.takeWhile_append_of_pos hdigits, hrest, List.append_nil, List.length_map]

theorem digitsValue_map (digits : List (Fin 10)) :
    digitsValue (digits.map digit) = value digits := by
  rw [digitsValue, value, List.foldl_map]
  simp

theorem parseI64_digits {digits : List (Fin 10)} (hne : digits ≠ []) (hlen : digits.length ≤ 18) :
    parseI64 (digits.map digit) = some ((value digits : Nat) : Int) := by
  have hstrip : ∀ c : UInt8, isAsciiDigit c = false → stripChar c (digits.map digit) = none := by
    intro c hc
    obtain ⟨d, digits, rfl⟩ := List.exists_cons_of_ne_nil hne
    have hd : digit d ≠ c := by
      rintro rfl
      simp [isAsciiDigit_digit] at hc
    simp [stripChar, hd]
  have hlt : value digits < 10 ^ 18 :=
    (value_lt digits).trans_le (Nat.pow_le_pow_right (by omega) hlen)
  have hall : (digits.map digit).all isAsciiDigit = true := by simp [isAsciiDigit_digit]
  simp only [parseI64, hstrip 0x2d (by decide), hstrip 0x2b (by decide), Option.getD_none,
    hall, digitsValue_map]
  rw [if_neg (by simpa using hne), if_pos (by omega)]
  simp

theorem twoDigits_two {n : Nat} (hn : n ≤ 99) (rest : Bytes) :
    twoDigits (two n ++ rest) = .ok n := by
  have htens : (Fin.ofNat 10 (n / 10)).val = n / 10 := Nat.mod_eq_of_lt (by omega)
  have hones : (Fin.ofNat 10 (n % 10)).val = n % 10 := Nat.mod_eq_of_lt (by omega)
  simp only [twoDigits, two, List.cons_append, List.nil_append, isAsciiDigit_digit, Bool.and_self,
    if_true, toNat_digit, htens, hones]
  rw [Parse.unsigned, if_pos (by omega), ok_bind, Parse.unsigned, if_pos (by omega)]
  congr 1
  omega

@[simp] theorem length_two (n : Nat) : (two n).length = 2 := rfl

theorem sliceFrom_two (n : Nat) {rest : Bytes} (hends : Ends rest) :
    sliceFrom (two n ++ rest) 2 = .ok rest :=
  sliceFrom_append _ hends.ascii

theorem sliceTo_digits (digits : List (Fin 10)) {rest : Bytes}
    (hascii : ∀ b ∈ rest.head?, b < 0x80) :
    sliceTo (digits.map digit ++ rest) digits.length = .ok (digits.map digit) := by
  simpa using sliceTo_append (digits.map digit) hascii

theorem sliceFrom_digits (digits : List (Fin 10)) {rest : Bytes}
    (hascii : ∀ b ∈ rest.head?, b < 0x80) :
    sliceFrom (digits.map digit ++ rest) digits.length = .ok rest := by
  simpa using sliceFrom_append (digits.map digit) hascii

@[simp] theorem stripChar_self (c : UInt8) (rest : Bytes) :
    stripChar c (c :: rest) = some rest :=
  if_pos rfl

@[simp] theorem ofOption_some {α : Type} (a : α) : Parse.ofOption (some a) = .ok a := rfl

/-! ## Dates -/

theorem yearSign_text (y : Year) (rest : Bytes) :
    yearSign (y.text ++ rest) = (y.negative, y.digits.map digit ++ rest) := by
  cases hneg : y.negative with
  | true => simp [yearSign, Year.text, hneg]
  | false =>
    have hne : y.digits ≠ [] := by
      intro h
      have h4 := y.four_le
      simp [h] at h4
    obtain ⟨d, digits, hd⟩ := List.exists_cons_of_ne_nil hne
    have hminus : digit d ≠ 0x2d := by
      intro h
      have hdigit := isAsciiDigit_digit d
      rw [h] at hdigit
      exact absurd hdigit (by decide)
    simp [yearSign, Year.text, hneg, hd, stripChar, hminus]

theorem Year.number_bounds (y : Year) (hlen : y.digits.length ≤ 9) :
    -10 ^ 9 < y.number ∧ y.number < 10 ^ 9 := by
  have hlt : value y.digits < 10 ^ 9 :=
    (value_lt y.digits).trans_le (Nat.pow_le_pow_right (by omega) hlen)
  rw [Year.number]
  split <;> omega

theorem daysInMonth_eq (d : Calendar.Date) :
    ∃ most, daysInMonth d.year d.month = some most ∧ d.day ≤ most := by
  have hleap : ((d.year.tmod 4 = 0 ∧ d.year.tmod 100 ≠ 0) ∨ d.year.tmod 400 = 0) ↔
      Calendar.IsLeap d.year := by
    have htmod : ∀ n : Int, d.year.tmod n = 0 ↔ d.year % n = 0 := by
      intro n
      rw [← Int.dvd_iff_tmod_eq_zero, Int.dvd_iff_emod_eq_zero]
    simp only [Calendar.IsLeap, ne_eq, htmod]
  have hpos := d.month_pos
  have hle := d.month_le
  have hday := d.day_le
  simp only [daysInMonth, hleap]
  generalize d.month = month at *
  interval_cases month <;> simp [Calendar.monthLength] at hday ⊢ <;> try omega
  by_cases hyear : Calendar.IsLeap d.year <;> simp [hyear] at hday ⊢ <;> omega

/-- A date is read for what it is, if its year has at most nine digits. -/
theorem parseDate_text (d : Day) {rest : Bytes} (hends : Ends rest) :
    parseDate (d.text ++ rest) =
      if d.year.digits.length ≤ 9 then .ok (d.date.number, rest) else Parse.none := by
  have hfour := d.year.four_le
  have hmonth : d.date.month ≤ 12 := d.date.month_le
  have hday : d.date.day ≤ 31 := day_le d.date
  have hminus : ∀ rest, Ends (0x2d :: rest) := fun rest => ends_cons rest (by decide) (by decide)
  obtain ⟨tail, htail⟩ : ∃ tail,
      tail = 0x2d :: (two d.date.month ++ 0x2d :: (two d.date.day ++ rest)) := ⟨_, rfl⟩
  have htext : d.text ++ rest = d.year.text ++ tail := by
    simp [Day.text, htail]
  have hendsTail : Ends tail := htail ▸ hminus _
  rw [parseDate, htext, yearSign_text]
  simp only [countDigits_append _ hendsTail]
  by_cases hlen : d.year.digits.length ≤ 9
  · have hne : d.year.digits ≠ [] := by
      intro h
      simp [h] at hfour
    have hbounds := d.year.number_bounds hlen
    have hyear : (if d.year.negative then Parse.signed 64 (-(value d.year.digits : Int))
        else .ok ↑(value d.year.digits)) = Except.ok d.date.year := by
      rw [d.year_eq]
      rw [Year.number] at hbounds ⊢
      split at hbounds
      · rw [if_pos ‹_›, if_pos ‹_›]
        exact Parse.signed_eq (by omega) (by omega)
      · rw [if_neg ‹_›, if_neg ‹_›]
    obtain ⟨most, hmost, hdayMost⟩ := daysInMonth_eq d.date
    have hpos := d.date.day_pos
    rw [d.year_eq.symm] at hbounds
    rw [if_neg (by omega), if_pos hlen, sliceTo_digits _ hendsTail.ascii, ok_bind,
      parseI64_digits hne (by omega), ofOption_some, ok_bind, hyear, ok_bind,
      sliceFrom_digits _ hendsTail.ascii, ok_bind,
      htail, stripChar_self, ofOption_some, ok_bind, twoDigits_two (by omega), ok_bind,
      sliceFrom_two _ (hminus _), ok_bind, stripChar_self, ofOption_some, ok_bind,
      twoDigits_two (by omega), ok_bind, hmost, ofOption_some, ok_bind, if_neg (by omega),
      daysFromCivil_eq hbounds.1 hbounds.2 hmonth hday, ok_bind, sliceFrom_two _ hends, ok_bind,
      civil_eq_number]
  · rw [if_pos (by omega), if_neg hlen]

/-! ## Time zones -/

theorem ends_zoneText (zone : Option Zone) : Ends (zoneText zone) := by
  match zone with
  | none => exact ends_nil
  | some .utc => exact ends_cons _ (by decide) (by decide)
  | some (.offset true _ _ _) => exact ends_cons _ (by decide) (by decide)
  | some (.offset false _ _ _) => exact ends_cons _ (by decide) (by decide)

theorem parseTz_zoneText (zone : Option Zone) :
    parseTz (zoneText zone) = .ok (zone.map Zone.minutes) := by
  match zone with
  | none => rfl
  | some .utc => rfl
  | some (.offset negative hours minutes valid) =>
    obtain ⟨sign, hsign, hone⟩ : ∃ sign, zoneSign (if negative then 0x2d else 0x2b) = some sign ∧
        sign = if negative then -1 else 1 := by
      cases negative with
      | true => exact ⟨-1, by decide, rfl⟩
      | false => exact ⟨1, by decide, rfl⟩
    have hhours : hours ≤ 14 := by omega
    have hminutes : minutes ≤ 59 := by omega
    have hfrom : sliceFrom ((if negative then 0x2d else 0x2b) ::
        (two hours ++ 0x3a :: two minutes)) 1 = .ok (two hours ++ 0x3a :: two minutes) :=
      sliceFrom_append [_] (by simp [two, digit_ascii])
    have hfrom3 : sliceFrom (two hours ++ 0x3a :: two minutes) 3 = .ok (two minutes) := by
      have h : sliceFrom ((two hours ++ [0x3a]) ++ two minutes) (two hours ++ [0x3a]).length =
          .ok (two minutes) :=
        sliceFrom_append _ (by simp [two, digit_ascii])
      simpa using h
    have hminute : twoDigits (two minutes) = .ok minutes := by
      simpa using twoDigits_two (n := minutes) (by omega) []
    rw [zoneText, Zone.text, parseTz, if_neg (by simp), if_neg (by simp [two])]
    simp only [Checked.index, List.getElem?_cons_zero, ok_bind, hsign, ofOption_some, hfrom]
    rw [if_neg (by simp [two])]
    have hcolon : (two hours ++ 0x3a :: two minutes)[2]? = some 0x3a := rfl
    simp only [hcolon, ok_bind]
    rw [if_neg (by simp), twoDigits_two (by omega), ok_bind, hfrom3, ok_bind, hminute, ok_bind,
      if_neg (by omega)]
    repeat rw [Parse.signed_eq (by omega) (by omega), ok_bind]
    rw [Parse.signed_eq (by rw [hone]; split <;> omega) (by rw [hone]; split <;> omega), ok_bind]
    simp [Zone.minutes, hone]

/-! ## Times -/

theorem ends_clock (fraction : List (Fin 10)) (zone : Option Zone) :
    Ends (fractionText fraction ++ zoneText zone) := by
  rw [fractionText]
  split
  · exact ends_zoneText zone
  · exact ends_cons _ (by decide) (by decide)

theorem stripPoint_zoneText (zone : Option Zone) : stripChar 0x2e (zoneText zone) = none := by
  match zone with
  | none => rfl
  | some .utc => rfl
  | some (.offset true _ _ _) => rfl
  | some (.offset false _ _ _) => rfl

/-- A time of day is read for what it is. -/
theorem parseTime_text {hour minute second : Nat} (hhour : hour ≤ 99) (hminute : minute ≤ 59)
    (hsecond : second ≤ 59) (fraction : List (Fin 10)) (zone : Option Zone) :
    parseTime (clockText hour minute second fraction ++ zoneText zone) =
      if hour ≤ 23 then
        .ok (((hour * 3600 + minute * 60 + second : Nat) : Int), fraction.map digit, zoneText zone)
      else Parse.none := by
  have hcolon : ∀ rest, Ends (0x3a :: rest) := fun rest => ends_cons rest (by decide) (by decide)
  have htext : clockText hour minute second fraction ++ zoneText zone =
      two hour ++ 0x3a :: (two minute ++ 0x3a ::
        (two second ++ (fractionText fraction ++ zoneText zone))) := by
    simp [clockText]
  rw [htext, parseTime, twoDigits_two hhour, ok_bind,
    sliceFrom_two _ (hcolon _), ok_bind, stripChar_self, ofOption_some, ok_bind,
    twoDigits_two (by omega), ok_bind,
    sliceFrom_two _ (hcolon _), ok_bind, stripChar_self, ofOption_some, ok_bind,
    twoDigits_two (by omega), ok_bind]
  by_cases hday : hour ≤ 23
  · have hunsigned : Parse.unsigned 32 (hour * 3600 + minute * 60 + min second 59) =
        .ok (hour * 3600 + minute * 60 + second) := by
      rw [Nat.min_eq_left hsecond]
      exact if_pos (by omega)
    rw [if_neg (by omega), if_pos hday, hunsigned, ok_bind,
      sliceFrom_two _ (ends_clock fraction zone), ok_bind]
    by_cases hnil : fraction = []
    · simp [fractionText, hnil, stripPoint_zoneText]
    · have hends := ends_zoneText zone
      have hlen : fraction.length ≠ 0 := by simpa using hnil
      simp only [fractionText, if_neg hnil, List.cons_append, stripChar_self,
        countDigits_append _ hends, if_neg hlen, sliceTo_digits _ hends.ascii,
        sliceFrom_digits _ hends.ascii, ok_bind]
  · rw [if_pos (by omega), if_neg hday]

/-! ## Fractions -/

theorem timesTen_eq (n : Nat) {x : Int} (hx : 0 ≤ x) (hle : x * 10 ^ n < 2 ^ 63) :
    timesTen n x = .ok (x * 10 ^ n) := by
  induction n generalizing x with
  | zero => simp [timesTen]
  | succ n ih =>
    have hpow : x * 10 ^ (n + 1) = x * 10 * 10 ^ n := by ring
    rw [hpow] at hle ⊢
    have hone : (1 : Int) ≤ 10 ^ n := one_le_pow₀ (by norm_num)
    have hstep : x * 10 ≤ x * 10 * 10 ^ n := le_mul_of_one_le_right (by omega) hone
    rw [timesTen, Parse.signed_eq (by omega) (by omega), ok_bind]
    exact ih (by omega) hle

theorem perSecond_eq (unit : TimeUnit) :
    (unitsPerSecond unit).1 = 10 ^ (unitsPerSecond unit).2 ∧ (unitsPerSecond unit).2 ≤ 9 := by
  cases unit with
  | second => decide
  | millisecond => decide
  | microsecond => decide
  | nanosecond => decide

theorem fractionOf_append (kept : List (Fin 10)) {dropped : List (Fin 10)}
    (hzero : ∀ d ∈ dropped, d = 0) :
    fractionOf (kept ++ dropped) = fractionOf kept := by
  have hpos : (10 : ℚ) ^ dropped.length ≠ 0 := by positivity
  have hpos' : (10 : ℚ) ^ kept.length ≠ 0 := by positivity
  rw [fractionOf, fractionOf, value_append, value_zeros hzero, List.length_append, pow_add]
  push_cast
  field_simp
  ring

/-- The digits of a fraction are counted exactly, or not at all. -/
theorem fractionUnits_digits (fraction : List (Fin 10)) (unit : TimeUnit) :
    Checked.Sound (fractionUnits (fraction.map digit) unit) fun units =>
      (units : ℚ) = (unitsPerSecond unit).1 * fractionOf fraction := by
  obtain ⟨hper, hnine⟩ := perSecond_eq unit
  obtain ⟨places, hplaces⟩ : ∃ places, places = (unitsPerSecond unit).2 := ⟨_, rfl⟩
  rw [← hplaces] at hper hnine
  obtain ⟨kept, hkept⟩ : ∃ kept, kept = fraction.take places := ⟨_, rfl⟩
  obtain ⟨dropped, hdropped⟩ : ∃ dropped, dropped = fraction.drop places := ⟨_, rfl⟩
  have hsplit : fraction = kept ++ dropped := by rw [hkept, hdropped, List.take_append_drop]
  have hlen : kept.length = min (fraction.map digit).length places := by
    rw [hkept, List.length_take, List.length_map, Nat.min_comm]
  have hascii : ∀ b ∈ (dropped.map digit).head?, b < 0x80 := by
    intro b hb
    have hmem := List.mem_of_mem_head? hb
    obtain ⟨d, -, rfl⟩ := List.mem_map.mp hmem
    exact digit_ascii d
  have hto : sliceTo (fraction.map digit) kept.length = .ok (kept.map digit) := by
    rw [hsplit, List.map_append]
    exact sliceTo_digits kept hascii
  have hfrom : sliceFrom (fraction.map digit) kept.length = .ok (dropped.map digit) := by
    rw [hsplit, List.map_append]
    exact sliceFrom_digits kept hascii
  simp only [fractionUnits, ← hplaces, ← hlen, hto, hfrom, ok_bind]
  split
  · exact Checked.Sound.fail
  · rename_i hany
    have hzero : ∀ d ∈ dropped, d = 0 := by
      intro d hd
      have hbyte : digit d = 0x30 := by
        by_contra hne
        refine hany (List.any_eq_true.mpr ⟨digit d, List.mem_map_of_mem hd, ?_⟩)
        simpa using hne
      have hnat := congrArg UInt8.toNat hbyte
      rw [toNat_digit] at hnat
      have hzero : (0x30 : UInt8).toNat = 48 := rfl
      exact Fin.ext (by omega)
    have hvalue : (if (kept.map digit).isEmpty then .ok 0
        else Parse.ofOption (parseI64 (kept.map digit))) =
        Except.ok ((value kept : Nat) : Int) := by
      by_cases hnil : kept = []
      · simp [hnil]
      · rw [if_neg (by simpa using hnil), parseI64_digits hnil (by omega), ofOption_some]
    have hbound : value kept * 10 ^ (places - kept.length) < 2 ^ 63 := by
      have hlt := value_lt kept
      have hle : value kept * 10 ^ (places - kept.length) ≤
          10 ^ kept.length * 10 ^ (places - kept.length) := Nat.mul_le_mul_right _ hlt.le
      have hpow : 10 ^ kept.length * 10 ^ (places - kept.length) ≤ 10 ^ 9 := by
        rw [← pow_add]
        exact Nat.pow_le_pow_right (by omega) (by omega)
      omega
    rw [hvalue, ok_bind, List.length_map, timesTen_eq _ (by omega) (by exact_mod_cast hbound)]
    show ((_ : Int) : ℚ) = _
    rw [hsplit, fractionOf_append _ hzero, fractionOf, hper]
    have hpow : (10 : ℚ) ^ places = 10 ^ (places - kept.length) * 10 ^ kept.length := by
      rw [← pow_add]
      congr 1
      omega
    have hpos : (10 : ℚ) ^ kept.length ≠ 0 := by positivity
    push_cast
    rw [hpow]
    field_simp

/-! ## Instants -/

theorem Parse.checked_sound (x : Int) : Checked.Sound (Parse.checked x) fun y => y = x := by
  rw [Parse.checked]
  split
  · rfl
  · exact Checked.Sound.fail

theorem toI32_sound (x : Int) : Checked.Sound (toI32 x) fun y => y = x := by
  rw [toI32]
  split
  · rfl
  · exact Checked.Sound.fail

theorem Zone.minutes_bounds (zone : Option Zone) :
    -840 ≤ (zone.map Zone.minutes).getD 0 ∧ (zone.map Zone.minutes).getD 0 ≤ 840 := by
  match zone with
  | none => simp
  | some .utc => simp [Zone.minutes]
  | some (.offset negative hours minutes valid) =>
    cases negative <;> simp [Zone.minutes] <;> omega

theorem parseTimestamp_text (day : Day) (clock : Clock) (zone : Option Zone) (unit : TimeUnit)
    (withTz : Bool) :
    Checked.Sound (parseTimestamp (day.text ++ 0x54 :: (clock.text ++ zoneText zone)) unit withTz)
      fun count => (count : ℚ) = (unitsPerSecond unit).1 * instant day clock zone := by
  rw [parseTimestamp, parseDate_text day (ends_cons _ (by decide) (by decide))]
  split
  · rename_i hyear
    simp only [ok_bind, stripChar_self, ofOption_some]
    match clock with
    | .endOfDay fraction hzero =>
      rw [Clock.text, parseTime_text (by omega) (by omega) (by omega)]
      exact Checked.Sound.fail
    | .time hour minute second fraction valid =>
      have hnumber : -10 ^ 12 < day.date.number ∧ day.date.number < 10 ^ 12 := by
        have hbounds := day.year.number_bounds hyear
        rw [← day.year_eq] at hbounds
        exact number_bounds hbounds.1 hbounds.2
      have hoffset := Zone.minutes_bounds zone
      rw [Clock.text, parseTime_text (by omega) (by omega) (by omega), if_pos (by omega)]
      simp only [ok_bind, parseTz_zoneText]
      split
      · exact Checked.Sound.fail
      · repeat rw [Parse.signed_eq (by omega) (by omega), ok_bind]
        refine (Parse.checked_sound _).bind fun whole hwhole => ?_
        refine (fractionUnits_digits fraction unit).bind fun units hunits => ?_
        refine (Parse.checked_sound _).mono fun count hcount => ?_
        rw [hcount, hwhole, instant, Clock.seconds]
        push_cast
        rw [hunits]
        ring
  · exact Checked.Sound.fail

/-! ## Other types -/

theorem stripTime_zoneText (zone : Option Zone) : stripChar 0x54 (zoneText zone) = none := by
  match zone with
  | none => rfl
  | some .utc => rfl
  | some (.offset true _ _ _) => rfl
  | some (.offset false _ _ _) => rfl

theorem parseTz_time (rest : Bytes) : Checked.Sound (parseTz (0x54 :: rest)) fun _ => False := by
  have hutc : ¬ (0x54 :: rest : Bytes) = [0x5a] := by simp
  have hsign : zoneSign 0x54 = none := by decide
  rw [parseTz, if_neg (by simp), if_neg hutc]
  simp only [Checked.index, List.getElem?_cons_zero, ok_bind, hsign]
  exact Checked.Sound.fail

theorem parseTimestamp_date (day : Day) (zone : Option Zone) (unit : TimeUnit) (withTz : Bool) :
    Checked.Sound (parseTimestamp (day.text ++ zoneText zone) unit withTz) fun _ => False := by
  rw [parseTimestamp, parseDate_text day (ends_zoneText zone)]
  split
  · simp only [ok_bind, stripTime_zoneText]
    exact Checked.Sound.fail
  · exact Checked.Sound.fail

theorem parseTime_minus (rest : Bytes) :
    Checked.Sound (parseTime (0x2d :: rest)) fun _ => False := by
  have hnone : twoDigits (0x2d :: rest) = Parse.none := by
    cases rest with
    | nil => rfl
    | cons b rest =>
      have hminus : isAsciiDigit 0x2d = false := by decide
      simp [twoDigits, hminus]
  rw [parseTime, hnone]
  exact Checked.Sound.fail

/-- A third digit is no colon. -/
theorem parseTime_digits (a b c : Fin 10) (rest : Bytes) :
    Checked.Sound (parseTime (digit a :: digit b :: digit c :: rest)) fun _ => False := by
  have hfrom : sliceFrom (digit a :: digit b :: digit c :: rest) 2 = .ok (digit c :: rest) :=
    sliceFrom_append [digit a, digit b] (by simp [digit_ascii])
  have hcolon : digit c ≠ 0x3a := by
    intro h
    have hdigit := isAsciiDigit_digit c
    rw [h] at hdigit
    exact absurd hdigit (by decide)
  have hstrip : stripChar 0x3a (digit c :: rest) = none := if_neg hcolon
  have ha := a.isLt
  have hb := b.isLt
  rw [parseTime]
  simp only [twoDigits, isAsciiDigit_digit, Bool.and_self, if_true, toNat_digit]
  rw [Parse.unsigned, if_pos (by omega), ok_bind, Parse.unsigned, if_pos (by omega), ok_bind, hfrom,
    ok_bind, hstrip]
  exact Checked.Sound.fail

theorem parseTime_day (day : Day) (rest : Bytes) :
    Checked.Sound (parseTime (day.text ++ rest)) fun _ => False := by
  have hfour := day.year.four_le
  obtain ⟨tail, htail⟩ : ∃ tail, day.text ++ rest = day.year.text ++ tail :=
    ⟨_, List.append_assoc ..⟩
  rw [htail, Year.text]
  cases day.year.negative with
  | true => exact parseTime_minus _
  | false =>
    match day.year.digits, hfour with
    | a :: b :: c :: digits, _ => exact parseTime_digits a b c _

theorem parseTimeOfDay_day (day : Day) (rest : Bytes) (unit : TimeUnit) :
    Checked.Sound (parseTimeOfDay (day.text ++ rest) unit) fun _ => False :=
  (parseTime_day day rest).bind fun _ h => h.elim

theorem Lexical.text_eq (v : Lexical) :
    ∃ (day : Day) (rest : Bytes), v.text = day.text ++ rest := by
  cases v with
  | date day zone => exact ⟨day, _, rfl⟩
  | dateTime day clock zone => exact ⟨day, _, rfl⟩

end Xeibe.Arrow

import Mathlib.Algebra.Ring.Nat
import Mathlib.Data.List.Basic
import Mathlib.Data.List.Infix

/-!
# Text

Names as the lists of their characters, and what Rust's `str` does with them:
trimming white space, comparing without ASCII case, cutting at a character, and
decimal numbers.
-/

namespace Xeibe.Lib.Text

/-- `char::is_whitespace`. -/
def isWhitespace (c : Char) : Bool :=
  decide (9 ≤ c.toNat ∧ c.toNat ≤ 13) || c == ' ' ||
    decide (c.toNat ∈ [0x85, 0xa0, 0x1680, 0x2028, 0x2029, 0x202f, 0x205f, 0x3000]) ||
    decide (0x2000 ≤ c.toNat ∧ c.toNat ≤ 0x200a)

/-- `str::trim`. -/
def trim (s : List Char) : List Char :=
  ((s.dropWhile isWhitespace).reverse.dropWhile isWhitespace).reverse

/-- `str::eq_ignore_ascii_case`. -/
def eqIgnoreAsciiCase (a b : List Char) : Bool := a.map Char.toLower == b.map Char.toLower

/-- `str::to_ascii_uppercase`. -/
def toAsciiUppercase (s : List Char) : List Char := s.map Char.toUpper

/-- `str::split_once` at a character. -/
def splitOnce (sep : Char) : List Char → Option (List Char × List Char)
  | [] => none
  | c :: rest =>
    if c = sep then some ([], rest) else (splitOnce sep rest).map fun (a, b) => (c :: a, b)

/-- The last piece of a text cut at a character: `rsplit(sep).next()`. -/
def lastPiece (sep : Char) (s : List Char) : List Char := (s.splitOn sep).getLast?.getD []

/-- The text after a beginning that is matched without ASCII case. -/
def stripPrefixCi : List Char → List Char → Option (List Char)
  | s, [] => some s
  | [], _ :: _ => none
  | c :: s, p :: front => if c.toLower = p.toLower then stripPrefixCi s front else none

/-- `str::contains`. -/
def contains (s part : List Char) : Bool := decide (part <:+: s)

/-- `str::starts_with`. -/
def startsWith (s front : List Char) : Bool := decide (front <+: s)

/-- A number in decimal digits, as it is displayed. -/
def decimal (n : Nat) : List Char := Nat.toDigits 10 n

/-- `str::parse` of digits alone, into a number of `bits` bits. -/
def parseDigits (bits : Nat) (s : List Char) : Option Nat :=
  if s.isEmpty || !s.all Char.isDigit then none
  else
    let n := Nat.ofDigitChars 10 s 0
    if n < 2 ^ bits then some n else none

/-- `str::parse` into an unsigned number: a plus sign may stand in front. -/
def parseUnsigned (bits : Nat) : List Char → Option Nat
  | '+' :: rest => parseDigits bits rest
  | s => parseDigits bits s

/-! ## White space at the ends -/

/-- No white space at either end. -/
def Trimmed (s : List Char) : Prop :=
  (∀ c ∈ s.head?, isWhitespace c = false) ∧ ∀ c ∈ s.getLast?, isWhitespace c = false

theorem dropWhile_of_head {p : Char → Bool} {s : List Char} (h : ∀ c ∈ s.head?, p c = false) :
    s.dropWhile p = s := by
  cases s with
  | nil => rfl
  | cons c rest =>
    have hc : p c = false := h c rfl
    rw [List.dropWhile_cons_of_neg (by rw [hc]; decide)]

theorem head_dropWhile {p : Char → Bool} (s : List Char) :
    ∀ c ∈ (s.dropWhile p).head?, p c = false := by
  induction s with
  | nil => nofun
  | cons d rest ih =>
    rw [List.dropWhile_cons]
    split
    · exact ih
    · rename_i h
      intro c hc
      cases hc
      simpa using h

theorem trim_of_trimmed {s : List Char} (h : Trimmed s) : trim s = s := by
  have hreverse : ∀ c ∈ s.reverse.head?, isWhitespace c = false := by
    rw [List.head?_reverse]
    exact h.2
  rw [trim, dropWhile_of_head h.1, dropWhile_of_head hreverse, List.reverse_reverse]

theorem trimmed_append {a b : List Char} (mid : List Char) (ha : Trimmed a) (hb : Trimmed b)
    (hane : a ≠ []) (hbne : b ≠ []) : Trimmed (a ++ (mid ++ b)) := by
  constructor
  · rw [List.head?_append_of_ne_nil a hane]
    exact ha.1
  · rw [List.getLast?_append_of_ne_nil a (by simp [hbne]), List.getLast?_append_of_ne_nil mid hbne]
    exact hb.2

theorem trimmed_trim (s : List Char) : Trimmed (trim s) := by
  have hlast : ∀ c ∈ (trim s).getLast?, isWhitespace c = false := by
    rw [trim, List.getLast?_reverse]
    exact head_dropWhile _
  refine ⟨?_, hlast⟩
  -- The text is a front part of one without white space in front.
  have hfront : trim s <+: s.dropWhile isWhitespace := by
    rw [trim, ← List.reverse_suffix, List.reverse_reverse]
    exact List.dropWhile_suffix _
  intro c hc
  obtain ⟨tail, htail⟩ := hfront
  apply head_dropWhile s c
  cases ht : trim s with
  | nil =>
    rw [ht] at hc
    cases hc
  | cons d rest =>
    rw [ht] at hc
    cases hc
    rw [← htail, ht]
    rfl

@[simp] theorem trim_trim (s : List Char) : trim (trim s) = trim s :=
  trim_of_trimmed (trimmed_trim s)

theorem trim_length_le (s : List Char) : (trim s).length ≤ s.length := by
  have hfront := (List.dropWhile_sublist isWhitespace (l := s)).length_le
  have hback :=
    (List.dropWhile_sublist isWhitespace (l := (s.dropWhile isWhitespace).reverse)).length_le
  rw [List.length_reverse] at hback
  rw [trim, List.length_reverse]
  omega

/-! ## Pieces -/

theorem splitOn_join {sep : Char} {pieces : List (List Char)} (hne : pieces ≠ [])
    (h : ∀ piece ∈ pieces, sep ∉ piece) :
    (List.intercalate [sep] pieces).splitOn sep = pieces :=
  List.splitOn_intercalate sep h hne

theorem infix_intercalate {sep piece : List Char} {pieces : List (List Char)}
    (h : piece ∈ pieces) : piece <:+: sep.intercalate pieces := by
  induction pieces with
  | nil => cases h
  | cons first rest ih =>
    cases rest with
    | nil =>
      have hpiece := List.mem_singleton.1 h
      exact ⟨[], [], by rw [hpiece, List.intercalate_singleton, List.nil_append, List.append_nil]⟩
    | cons second rest =>
      rw [List.intercalate_cons_cons, List.append_assoc]
      rcases List.mem_cons.1 h with rfl | h
      · exact (List.prefix_append _ _).isInfix
      · rw [← List.append_assoc]
        exact (ih h).trans (List.suffix_append _ _).isInfix

theorem trimmed_intercalate {sep : Char} {pieces : List (List Char)} (hne : pieces ≠ [])
    (h : ∀ piece ∈ pieces, Trimmed piece ∧ piece ≠ []) :
    Trimmed ([sep].intercalate pieces) ∧ [sep].intercalate pieces ≠ [] := by
  induction pieces with
  | nil => exact absurd rfl hne
  | cons first rest ih =>
    obtain ⟨hfirst, hfirstNe⟩ := h first (List.mem_cons_self ..)
    cases rest with
    | nil =>
      rw [List.intercalate_singleton]
      exact ⟨hfirst, hfirstNe⟩
    | cons second rest =>
      obtain ⟨hrest, hrestNe⟩ := ih (List.cons_ne_nil _ _) fun piece hpiece =>
        h piece (List.mem_cons_of_mem _ hpiece)
      rw [List.intercalate_cons_cons, List.append_assoc]
      exact ⟨trimmed_append [sep] hfirst hrest hfirstNe hrestNe, by simp [hfirstNe]⟩

theorem infix_of_mem_splitOn {sep : Char} {s piece : List Char} (h : piece ∈ s.splitOn sep) :
    piece <:+: s := by
  have hinfix : piece <:+: [sep].intercalate (s.splitOn sep) := infix_intercalate h
  rwa [List.intercalate_splitOn] at hinfix

theorem lastPiece_of_not_mem {sep : Char} {s : List Char} (h : sep ∉ s) : lastPiece sep s = s := by
  rw [lastPiece, List.splitOn_eq_singleton h]
  rfl

theorem splitOnce_spec {sep : Char} {s a b : List Char} (h : splitOnce sep s = some (a, b)) :
    s = a ++ sep :: b ∧ sep ∉ a := by
  induction s generalizing a with
  | nil => cases h
  | cons c rest ih =>
    rw [splitOnce] at h
    split at h
    · rename_i hc
      cases h
      exact ⟨by rw [hc]; rfl, List.not_mem_nil⟩
    · rename_i hc
      obtain ⟨⟨a', b'⟩, hrest, heq⟩ := Option.map_eq_some_iff.1 h
      cases heq
      obtain ⟨hsplit, hnot⟩ := ih hrest
      refine ⟨by rw [hsplit]; rfl, fun hmem => ?_⟩
      rcases List.mem_cons.1 hmem with rfl | hmem
      · exact hc rfl
      · exact hnot hmem

theorem splitOnce_append {sep : Char} {a : List Char} (b : List Char) (h : sep ∉ a) :
    splitOnce sep (a ++ sep :: b) = some (a, b) := by
  induction a with
  | nil => simp [splitOnce]
  | cons c rest ih =>
    have hc : c ≠ sep := fun heq => h (heq ▸ List.mem_cons_self ..)
    have hrest : sep ∉ rest := fun hmem => h (List.mem_cons_of_mem _ hmem)
    rw [List.cons_append, splitOnce, if_neg hc, ih hrest]
    rfl

/-! ## Beginnings -/

theorem stripPrefixCi_spec {s front rest : List Char} (h : stripPrefixCi s front = some rest) :
    ∃ head, s = head ++ rest ∧ head.length = front.length := by
  induction front generalizing s with
  | nil =>
    cases s <;> cases h <;> exact ⟨[], rfl, rfl⟩
  | cons p front ih =>
    cases s with
    | nil => cases h
    | cons c s =>
      rw [stripPrefixCi] at h
      split at h
      · obtain ⟨head, rfl, hlength⟩ := ih h
        exact ⟨c :: head, rfl, by simp [hlength]⟩
      · cases h

theorem stripPrefixCi_append (front rest : List Char) :
    stripPrefixCi (front ++ rest) front = some rest := by
  induction front with
  | nil => cases rest <;> rfl
  | cons p front ih => rw [List.cons_append, stripPrefixCi, if_pos rfl, ih]

theorem stripPrefixCi_cons_ne {c p : Char} (h : c.toLower ≠ p.toLower) (s front : List Char) :
    stripPrefixCi (c :: s) (p :: front) = none := by
  rw [stripPrefixCi, if_neg h]

/-- Texts that differ in the case of letters alone have the same beginnings. -/
theorem stripPrefixCi_isSome_congr {a b : List Char} (h : eqIgnoreAsciiCase a b = true)
    (front : List Char) : (stripPrefixCi a front).isSome = (stripPrefixCi b front).isSome := by
  have hlower : a.map Char.toLower = b.map Char.toLower := by simpa [eqIgnoreAsciiCase] using h
  clear h
  induction front generalizing a b with
  | nil => cases a <;> cases b <;> rfl
  | cons p front ih =>
    cases a with
    | nil =>
      have hb : b = [] := by simpa using hlower.symm
      rw [hb]
    | cons c a =>
      cases b with
      | nil => simp at hlower
      | cons d b =>
        obtain ⟨hhead, htail⟩ := List.cons.inj hlower
        rw [stripPrefixCi, stripPrefixCi, hhead]
        split
        · exact ih htail
        · rfl

/-! ## Decimal numbers -/

theorem isDigit_of_mem_decimal {n : Nat} {c : Char} (h : c ∈ decimal n) : c.isDigit = true :=
  Nat.isDigit_of_mem_toDigits (by omega) (by omega) h

theorem decimal_ne_nil (n : Nat) : decimal n ≠ [] := Nat.toDigits_ne_nil

theorem parseDigits_decimal {bits n : Nat} (h : n < 2 ^ bits) :
    parseDigits bits (decimal n) = some n := by
  have hall : (decimal n).all Char.isDigit = true :=
    List.all_eq_true.2 fun c hc => isDigit_of_mem_decimal hc
  have hne : (decimal n).isEmpty = false := by
    simpa using decimal_ne_nil n
  have hvalue : Nat.ofDigitChars 10 (decimal n) 0 = n := Nat.ofDigitChars_ten_toDigits
  simp [parseDigits, hall, hne, hvalue, h]

theorem isWhitespace_of_isDigit {c : Char} (h : c.isDigit = true) : isWhitespace c = false := by
  have hrange : 48 ≤ c.toNat ∧ c.toNat ≤ 57 := by
    simp only [Char.isDigit, Bool.and_eq_true, decide_eq_true_eq] at h
    exact ⟨UInt32.le_iff_toNat_le.1 h.1, UInt32.le_iff_toNat_le.1 h.2⟩
  have hspace : c ≠ ' ' := by
    rintro rfl
    have hvalue : (' ' : Char).toNat = 32 := rfl
    omega
  simp only [isWhitespace, hspace, List.mem_cons, List.not_mem_nil, or_false, Bool.or_eq_false_iff,
    decide_eq_false_iff_not, beq_eq_false_iff_ne, ne_eq, not_false_eq_true, and_true]
  omega

theorem trimmed_of_digits {s : List Char} (h : ∀ c ∈ s, c.isDigit = true) : Trimmed s :=
  ⟨fun c hc => isWhitespace_of_isDigit (h c (List.mem_of_mem_head? hc)),
    fun c hc => isWhitespace_of_isDigit (h c (List.mem_of_mem_getLast? hc))⟩

/-! ## Upper case -/

theorem toNat_toUpper (c : Char) :
    c.toUpper.toNat = if 97 ≤ c.toNat ∧ c.toNat ≤ 122 then c.toNat - 32 else c.toNat := by
  have hrange : ('a'.val ≤ c.val ∧ c.val ≤ 'z'.val) ↔ 97 ≤ c.toNat ∧ c.toNat ≤ 122 := by
    rw [UInt32.le_iff_toNat_le, UInt32.le_iff_toNat_le]
    exact Iff.rfl
  unfold Char.toUpper
  split
  · rename_i h
    rw [if_pos (hrange.1 h)]
    have hnat := hrange.1 h
    have hadd : (c.val + ('A'.val - 'a'.val)).toNat = (c.val.toNat + (2 ^ 32 - 32)) % 2 ^ 32 :=
      UInt32.toNat_add _ _
    show (c.val + ('A'.val - 'a'.val)).toNat = c.val.toNat - 32
    have hval : c.val.toNat = c.toNat := rfl
    omega
  · rename_i h
    rw [if_neg (mt hrange.2 h)]

theorem toUpper_toUpper (c : Char) : c.toUpper.toUpper = c.toUpper := by
  apply Char.ext
  apply UInt32.toNat_inj.1
  show c.toUpper.toUpper.toNat = c.toUpper.toNat
  have hupper : ¬ (97 ≤ c.toUpper.toNat ∧ c.toUpper.toNat ≤ 122) := by
    rw [toNat_toUpper]
    split <;> omega
  rw [toNat_toUpper c.toUpper, if_neg hupper]

theorem isWhitespace_toUpper (c : Char) : isWhitespace c.toUpper = isWhitespace c := by
  have hspace : ∀ d : Char, (d == ' ') = decide (d.toNat = 32) := by
    intro d
    rw [Bool.eq_iff_iff, beq_iff_eq, decide_eq_true_iff]
    constructor
    · rintro rfl
      rfl
    · intro h
      exact Char.ext (UInt32.toNat_inj.1 h)
  unfold isWhitespace
  rw [hspace, hspace, toNat_toUpper]
  split
  · rename_i h
    rw [Bool.eq_iff_iff]
    simp only [List.mem_cons, List.not_mem_nil, or_false, Bool.or_eq_true, decide_eq_true_eq]
    omega
  · rfl

theorem trimmed_toAsciiUppercase {s : List Char} (h : Trimmed s) :
    Trimmed (toAsciiUppercase s) := by
  unfold Trimmed toAsciiUppercase
  rw [List.head?_map, List.getLast?_map]
  constructor
  · intro c hc
    obtain ⟨d, hd, rfl⟩ := Option.map_eq_some_iff.1 hc
    rw [isWhitespace_toUpper]
    exact h.1 d hd
  · intro c hc
    obtain ⟨d, hd, rfl⟩ := Option.map_eq_some_iff.1 hc
    rw [isWhitespace_toUpper]
    exact h.2 d hd

theorem toAsciiUppercase_trim (s : List Char) :
    toAsciiUppercase (trim (toAsciiUppercase (trim s))) = toAsciiUppercase (trim s) := by
  rw [trim_of_trimmed (trimmed_toAsciiUppercase (trimmed_trim s))]
  simp [toAsciiUppercase, toUpper_toUpper]

end Xeibe.Lib.Text

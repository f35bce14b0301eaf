import Mathlib.Algebra.BigOperators.Group.List.Basic
import Mathlib.Data.List.Chain
import Xeibe.Reproject.Angles.Numbers

/-!
# Angles as they are written

An angle is a sign, numbers with their units, and a hemisphere.  `dmstor` accepts
the texts of angles and no others, and answers the angle's value.
-/

namespace Xeibe.Reproject.Angles

open Xeibe.Lib Numerals

/-! ## Angles -/

/-- The mark of a unit. -/
inductive Mark where
  | degree
  | degreeLower
  | degreeSign
  | minute
  | second
deriving DecidableEq

namespace Mark

/-- Degrees, minutes, seconds. -/
def unit : Mark → Nat
  | degree => 0
  | degreeLower => 0
  | degreeSign => 0
  | minute => 1
  | second => 2

/-- `D`, `d`, `°`, `'` and `"`. -/
def text : Mark → Bytes
  | degree => [0x44]
  | degreeLower => [0x64]
  | degreeSign => [0xc2, 0xb0]
  | minute => [0x27]
  | second => [0x22]

end Mark

/-- The unit of a number without a mark: the one after the last mark's. -/
def nextUnit (marked : List (Numeral × Mark)) : Nat :=
  marked.getLast?.elim 0 fun e => e.2.unit + 1

/-- What stands between the sign and the hemisphere. -/
inductive Body where
  /-- A number of radians. -/
  | radians (number : Numeral) (letter : UInt8) (isLetter : letter = 0x72 ∨ letter = 0x52)
  /-- Numbers with marks of smaller and smaller units, and one without a mark. -/
  | units (marked : List (Numeral × Mark)) (last : Option Numeral)
    (increasing : (marked.map fun e => e.2.unit).Pairwise (· < ·))
    (fits : last.isSome → nextUnit marked < 3)

namespace Body

def numeralText : Option Numeral → Bytes
  | none => []
  | some n => n.text

def text : Body → Bytes
  | radians number letter _ => number.text ++ [letter]
  | units marked last _ _ =>
    marked.flatMap (fun e => e.1.text ++ e.2.text) ++ numeralText last

/-- The sum of the numbers times their units in radians. -/
def value : Body → ℚ
  | radians number _ _ => number.value
  | units marked last _ _ =>
    (marked.map fun e => e.1.value * VM e.2.unit).sum +
      (last.map fun n => n.value * VM (nextUnit marked)).getD 0

end Body

/-- `N`, `E`, `S` or `W`, in either case. -/
structure Hemisphere where
  letter : UInt8
  known : letter ∈ SYM

/-- South and west. -/
def Hemisphere.negative (h : Hemisphere) : Bool := h.letter ∈ ([0x53, 0x73, 0x57, 0x77] : Bytes)

structure Angle where
  /-- A written sign, and whether it is a minus. -/
  sign : Option Bool
  body : Body
  hemisphere : Option Hemisphere

namespace Angle

def hemisphereText : Option Hemisphere → Bytes
  | none => []
  | some h => [h.letter]

def text (a : Angle) : Bytes :=
  Exponent.signText a.sign ++ (a.body.text ++ hemisphereText a.hemisphere)

/-- The hemisphere decides the sign where there is one, and else the written sign. -/
def negative (a : Angle) : Bool :=
  match a.hemisphere with
  | some h => h.negative
  | none => a.sign = some true

def value (a : Angle) : ℚ := if a.negative then -a.body.value else a.body.value

end Angle

/-! ## The numbers, one after the other -/

/-- Marks from a unit on. -/
def Follows (nl : Nat) (marked : List (Numeral × Mark)) (last : Option Numeral) : Prop :=
  match marked with
  | [] => last.isSome → nl < 3
  | e :: rest => nl ≤ e.2.unit ∧ Follows (e.2.unit + 1) rest last

/-- The sum from a unit on. -/
def sumFrom (nl : Nat) (marked : List (Numeral × Mark)) (last : Option Numeral) : ℚ :=
  match marked with
  | [] => (last.map fun n => n.value * VM nl).getD 0
  | e :: rest => e.1.value * VM e.2.unit + sumFrom (e.2.unit + 1) rest last

def unitsText (marked : List (Numeral × Mark)) (last : Option Numeral) : Bytes :=
  marked.flatMap (fun e => e.1.text ++ e.2.text) ++ Body.numeralText last

theorem follows_iff {nl : Nat} {marked : List (Numeral × Mark)} {last : Option Numeral} :
    Follows nl marked last ↔ (∀ e ∈ marked, nl ≤ e.2.unit) ∧
      (marked.map fun e => e.2.unit).Pairwise (· < ·) ∧
      (last.isSome → marked.getLast?.elim nl (fun e => e.2.unit + 1) < 3) := by
  induction marked generalizing nl with
  | nil => simp [Follows]
  | cons e rest ih =>
    rw [Follows, ih, List.map_cons, List.pairwise_cons, List.forall_mem_cons, List.forall_mem_map]
    have hlast : (e :: rest).getLast?.elim nl (fun e => e.2.unit + 1) =
        rest.getLast?.elim (e.2.unit + 1) fun e => e.2.unit + 1 := by
      rw [List.getLast?_cons]
      cases rest.getLast? <;> rfl
    rw [hlast]
    constructor
    · rintro ⟨hle, hmin, hpairwise, hfits⟩
      exact ⟨⟨hle, fun x hx => Nat.le_trans (Nat.le_succ_of_le hle) (hmin x hx)⟩,
        ⟨hmin, hpairwise⟩, hfits⟩
    · rintro ⟨⟨hle, -⟩, ⟨hmin, hpairwise⟩, hfits⟩
      exact ⟨hle, hmin, hpairwise, hfits⟩

theorem sumFrom_eq (nl : Nat) (marked : List (Numeral × Mark)) (last : Option Numeral) :
    sumFrom nl marked last = (marked.map fun e => e.1.value * VM e.2.unit).sum +
      (last.map fun n =>
        n.value * VM (marked.getLast?.elim nl fun e => e.2.unit + 1)).getD 0 := by
  induction marked generalizing nl with
  | nil => simp [sumFrom]
  | cons e rest ih =>
    have hlast : (e :: rest).getLast?.elim nl (fun e => e.2.unit + 1) =
        rest.getLast?.elim (e.2.unit + 1) fun e => e.2.unit + 1 := by
      rw [List.getLast?_cons]
      cases rest.getLast? <;> rfl
    rw [sumFrom, ih, List.map_cons, List.sum_cons, hlast, add_assoc]

/-! ## What is written is read -/

section Read

variable {n : Numeral} {rest : Bytes}

theorem stops_cons {b : UInt8} (hdigit : isDigit b = false) (hpoint : b ≠ 0x2e)
    (hletter : ¬ (b = 0x65 ∨ b = 0x45)) : n.Stops (b :: rest) := by
  refine ⟨noDigit_cons hdigit, fun _ _ h => hpoint (Option.some.inj h), fun _ e after heq => ?_⟩
  have hhead := congrArg List.head? heq
  rw [Exponent.text_head, List.head?_cons, Option.some.injEq] at hhead
  rw [hhead] at hletter
  exact hletter e.isLetter

theorem stops_mark (m : Mark) : n.Stops (m.text ++ rest) := by
  cases m <;> exact stops_cons rfl (by decide) (by decide)

theorem stops_radians {letter : UInt8} (h : letter = 0x72 ∨ letter = 0x52) :
    n.Stops (letter :: rest) := by
  rcases h with rfl | rfl <;> exact stops_cons rfl (by decide) (by decide)

/-- `E` alone is no exponent. -/
theorem stops_hemisphere (h : Option Hemisphere) : n.Stops (Angle.hemisphereText h) := by
  cases h with
  | none =>
    refine ⟨noDigit_nil, nofun, fun _ e after heq => ?_⟩
    have hhead := congrArg List.head? heq
    rw [Exponent.text_head] at hhead
    cases hhead
  | some h =>
    obtain ⟨letter, hknown⟩ := h
    have hfacts : ∀ b ∈ SYM, isDigit b = false ∧ b ≠ 0x2e :=
      List.forall_iff_forall_mem.1 (by decide)
    obtain ⟨hdigit, hpoint⟩ := hfacts letter hknown
    refine ⟨noDigit_cons hdigit, fun _ _ heq => hpoint (Option.some.inj heq),
      fun _ e after heq => ?_⟩
    have hlength := congrArg List.length heq
    have htwo := e.text_length
    rw [List.length_append] at hlength
    simp only [Angle.hemisphereText, List.length_cons, List.length_nil] at hlength
    omega

theorem unitAt_mark (m : Mark) : unitAt (m.text ++ rest) = .mark m.unit m.text.length := by
  cases m <;> rfl

theorem unitAt_radians {letter : UInt8} (h : letter = 0x72 ∨ letter = 0x52) :
    unitAt (letter :: rest) = .radians := by
  rcases h with rfl | rfl <;> rfl

theorem unitAt_hemisphere (h : Option Hemisphere) : unitAt (Angle.hemisphereText h) = .other := by
  cases h with
  | none => rfl
  | some h =>
    obtain ⟨letter, hknown⟩ := h
    have hother : ∀ b ∈ SYM, unitAt [b] = .other :=
      List.forall_iff_forall_mem.1 (by decide)
    exact hother letter hknown

theorem Mark.unit_lt (m : Mark) : m.unit < 3 := by
  cases m <;> decide

theorem readUnits_of_le {work : Bytes} {v : ℚ} {nl : Nat} (h : 3 ≤ nl) :
    readUnits work v nl = some (work, v) := by
  rw [readUnits, dif_pos h]

/-- A number is read, with what follows it. -/
theorem readUnits_number {v : ℚ} {nl : Nat} (hnl : nl < 3) (hstops : n.Stops rest) :
    readUnits (n.text ++ rest) v nl =
      match unitAt rest with
      | .radians => if nl ≠ 0 then none else readUnits (rest.drop 1) n.value 5
      | .other => readUnits rest (v + n.value * VM nl) 5
      | .mark unit adv =>
        if unit < nl then none
        else readUnits (rest.drop adv) (v + n.value * VM unit) (unit + 1) := by
  have hhead : ((n.text ++ rest).head?.any fun b => isDigit b || b = 0x2e) = true := by
    rcases Numeral.starts_text n rest with hdigit | ⟨after, heq, -⟩
    · cases hs : n.text ++ rest with
      | nil =>
        rw [hs] at hdigit
        exact absurd noDigit_nil hdigit
      | cons b after =>
        rw [hs] at hdigit
        have hb : isDigit b = true := by
          by_contra hne
          exact hdigit (noDigit_cons (Bool.eq_false_iff.2 hne))
        simp [hb]
    · rw [heq]
      rfl
  rw [readUnits, dif_neg (by omega), hhead, strtodPrefix_text hstops]
  simp only [List.drop_left]
  rfl

theorem readUnits_hemisphere (h : Option Hemisphere) (v : ℚ) (nl : Nat) :
    readUnits (Angle.hemisphereText h) v nl = some (Angle.hemisphereText h, v) := by
  have hhead : ((Angle.hemisphereText h).head?.any fun b => isDigit b || b = 0x2e) = false := by
    cases h with
    | none => rfl
    | some h =>
      obtain ⟨letter, hknown⟩ := h
      have hno : ∀ b ∈ SYM, (isDigit b || (b = 0x2e : Bool)) = false :=
        List.forall_iff_forall_mem.1 (by decide)
      exact hno letter hknown
  by_cases hnl : 3 ≤ nl
  · exact readUnits_of_le hnl
  · rw [readUnits, dif_neg hnl, hhead]
    rfl

theorem readUnits_units {marked : List (Numeral × Mark)} {last : Option Numeral} {nl : Nat}
    (h : Follows nl marked last) (v : ℚ) (hemisphere : Option Hemisphere) :
    readUnits (unitsText marked last ++ Angle.hemisphereText hemisphere) v nl =
      some (Angle.hemisphereText hemisphere, v + sumFrom nl marked last) := by
  induction marked generalizing nl v with
  | nil =>
    cases last with
    | none =>
      rw [show unitsText [] none = [] from rfl, List.nil_append, readUnits_hemisphere]
      simp [sumFrom]
    | some n =>
      rw [show unitsText [] (some n) = n.text from rfl,
        readUnits_number (h rfl) (stops_hemisphere hemisphere), unitAt_hemisphere]
      exact readUnits_of_le (by decide)
  | cons e marked ih =>
    obtain ⟨n, m⟩ := e
    obtain ⟨hle, hfollows⟩ := h
    have htext : unitsText ((n, m) :: marked) last ++ Angle.hemisphereText hemisphere =
        n.text ++ (m.text ++ (unitsText marked last ++ Angle.hemisphereText hemisphere)) := by
      simp [unitsText]
    have hunit := m.unit_lt
    have hle' : nl ≤ m.unit := hle
    rw [htext, readUnits_number (by omega) (stops_mark m), unitAt_mark]
    simp only [List.drop_left]
    rw [if_neg (by omega), ih hfollows, sumFrom, add_assoc]

theorem readUnits_body (body : Body) (hemisphere : Option Hemisphere) :
    readUnits (body.text ++ Angle.hemisphereText hemisphere) 0 0 =
      some (Angle.hemisphereText hemisphere, body.value) := by
  cases body with
  | radians n letter isLetter =>
    rw [Body.text, List.append_assoc, List.singleton_append,
      readUnits_number (by decide) (stops_radians isLetter), unitAt_radians isLetter]
    exact readUnits_of_le (by decide)
  | units marked last increasing fits =>
    have hfollows : Follows 0 marked last :=
      follows_iff.2 ⟨fun e _ => Nat.zero_le _, increasing, fits⟩
    have hread := readUnits_units hfollows 0 hemisphere
    rw [sumFrom_eq, zero_add] at hread
    exact hread

end Read

/-! ## What is read is written -/

section Written

/-- Bytes of ASCII and of degree signs: the second byte of a degree sign only after the first. -/
def Paired (work : Bytes) : Prop := work.IsChain fun a b => b = 0xb0 → a = 0xc2

theorem copied_digit {b : UInt8} (h : isDigit b = true) : isCopied b = true := by
  simp only [isDigit, isCopied, Bool.and_eq_true, decide_eq_true_eq, UInt8.le_iff_toNat_le,
    Bool.or_eq_true] at h ⊢
  have hlow : (0x30 : UInt8).toNat = 48 := rfl
  have hhigh : (0x39 : UInt8).toNat = 57 := rfl
  have hfirst : (0x21 : UInt8).toNat = 33 := rfl
  have hlast : (0x7e : UInt8).toNat = 126 := rfl
  omega

/-- The bytes of a numeral are ASCII. -/
theorem mem_numeral {n : Numeral} {b : UInt8} (h : b ∈ n.text) :
    isCopied b = true ∧ b ≠ 0xc2 := by
  have hdigit : ∀ b, isDigit b = true → isCopied b = true ∧ b ≠ 0xc2 := fun b hb =>
    ⟨copied_digit hb, isDigit_ne hb rfl⟩
  rw [Numeral.text, List.mem_append, List.mem_append] at h
  rcases h with h | h | h
  · exact hdigit b (n.whole_all b h)
  · cases hf : n.fraction with
    | none =>
      rw [hf] at h
      cases h
    | some f =>
      rw [hf] at h
      rcases List.mem_cons.1 h with rfl | h
      · decide
      · exact hdigit b (n.fraction_all f hf b h)
  · cases he : n.exponent with
    | none =>
      rw [he] at h
      cases h
    | some e =>
      rw [he] at h
      rcases List.mem_cons.1 h with rfl | h
      · rcases e.isLetter with h | h <;> rw [h] <;> decide
      · rcases List.mem_append.1 h with h | h
        · cases hs : e.sign with
          | none =>
            rw [hs] at h
            cases h
          | some minus =>
            rw [hs] at h
            cases minus <;> rw [List.mem_singleton.1 h] <;> decide
        · exact hdigit b (e.digits_all b h)

/-- What counts as a mark is one. -/
theorem unitAt_spec {n : Numeral} {rest : Bytes} {unit adv : Nat}
    (hpaired : Paired (n.text ++ rest)) (h : unitAt rest = .mark unit adv) :
    ∃ m : Mark, m.unit = unit ∧ rest = m.text ++ rest.drop adv := by
  cases rest with
  | nil => cases h
  | cons c rest =>
    rw [unitAt] at h
    split at h
    · rename_i hc
      cases h
      rcases hc with rfl | rfl | rfl
      · exact ⟨.degree, rfl, rfl⟩
      · exact ⟨.degreeLower, rfl, rfl⟩
      · -- A number's last byte is no first byte of a degree sign.
        obtain ⟨-, -, hjoint⟩ := List.isChain_append.1 hpaired
        have hne : n.text ≠ [] := fun hnil => by
          have hstarts := Numeral.starts_text n []
          rw [hnil] at hstarts
          rcases hstarts with hdigit | ⟨_, heq, -⟩
          · exact hdigit noDigit_nil
          · cases heq
        have hlast := List.getLast?_eq_some_getLast hne
        have hfirst := hjoint _ hlast 0xb0 rfl rfl
        exact absurd hfirst (mem_numeral (List.mem_of_getLast? hlast)).2
    · split at h
      · rename_i hc
        cases h
        exact ⟨.minute, rfl, by rw [hc]; rfl⟩
      · split at h
        · rename_i hc
          cases h
          exact ⟨.second, rfl, by rw [hc]; rfl⟩
        · split at h
          · rename_i hc
            cases h
            obtain ⟨rfl, hhead⟩ := hc
            cases rest with
            | nil => cases hhead
            | cons b rest =>
              obtain rfl := Option.some.inj hhead
              exact ⟨.degreeSign, rfl, rfl⟩
          · split at h <;> cases h

theorem unitAt_radians_spec {rest : Bytes} (h : unitAt rest = .radians) :
    ∃ letter, (letter = 0x72 ∨ letter = 0x52) ∧ rest = letter :: rest.drop 1 := by
  cases rest with
  | nil => cases h
  | cons c rest =>
    refine ⟨c, ?_, rfl⟩
    by_contra hne
    rw [unitAt, if_neg hne] at h
    split at h
    · cases h
    · split at h
      · cases h
      · split at h
        · cases h
        · split at h <;> cases h

theorem readUnits_spec {work rest : Bytes} {v v' : ℚ} {nl : Nat} (hpaired : Paired work)
    (h : readUnits work v nl = some (rest, v')) :
    (∃ marked last, Follows nl marked last ∧ work = unitsText marked last ++ rest ∧
        v' = v + sumFrom nl marked last) ∨
      nl = 0 ∧ ∃ (n : Numeral) (letter : UInt8), (letter = 0x72 ∨ letter = 0x52) ∧
        work = n.text ++ letter :: rest ∧ v' = n.value := by
  induction hleft : 3 - nl using Nat.strong_induction_on generalizing work v nl with
  | _ left ih =>
    have hstop : readUnits work v nl = some (work, v) → (∃ marked last, Follows nl marked last ∧
        work = unitsText marked last ++ rest ∧ v' = v + sumFrom nl marked last) := by
      intro hend
      rw [hend] at h
      cases h
      exact ⟨[], none, nofun, rfl, by simp [sumFrom]⟩
    by_cases hnl : 3 ≤ nl
    · exact Or.inl (hstop (readUnits_of_le hnl))
    · by_cases hhead : (work.head?.any fun b => isDigit b || b = 0x2e) = true
      · rw [readUnits, dif_neg hnl, hhead] at h
        rw [Bool.not_true, if_neg Bool.false_ne_true] at h
        cases hnumber : strtodPrefix work with
        | none =>
          rw [hnumber] at h
          cases h
        | some read =>
          obtain ⟨tv, k⟩ := read
          obtain ⟨n, after, rfl, rfl, rfl⟩ := strtodPrefix_spec hnumber
          rw [hnumber] at h
          simp only [List.drop_left] at h
          cases hunit : unitAt after with
          | radians =>
            rw [hunit] at h
            simp only at h
            by_cases hzero : nl = 0
            · rw [if_neg (not_not.2 hzero), readUnits_of_le (by decide)] at h
              obtain ⟨letter, hletter, heq⟩ := unitAt_radians_spec hunit
              cases h
              exact Or.inr ⟨hzero, n, letter, hletter, congrArg (n.text ++ ·) heq, rfl⟩
            · rw [if_pos hzero] at h
              cases h
          | other =>
            rw [hunit] at h
            simp only at h
            rw [readUnits_of_le (by decide)] at h
            cases h
            exact Or.inl ⟨[], some n, fun _ => by omega, rfl, rfl⟩
          | mark unit adv =>
            rw [hunit] at h
            simp only at h
            obtain ⟨m, rfl, hafter⟩ := unitAt_spec hpaired hunit
            by_cases hunit' : m.unit < nl
            · rw [dif_pos hunit'] at h
              cases h
            · rw [dif_neg hunit'] at h
              have hpaired' : Paired (after.drop adv) :=
                (List.IsChain.right_of_append hpaired).drop adv
              rcases ih (3 - (m.unit + 1)) (by omega) hpaired' h rfl with
                ⟨marked, last, hfollows, htext, hvalue⟩ | ⟨hzero, -⟩
              · refine Or.inl ⟨(n, m) :: marked, last, ⟨Nat.not_lt.1 hunit', hfollows⟩, ?_, ?_⟩
                · rw [hafter, htext]
                  simp [unitsText]
                · rw [hvalue, sumFrom, add_assoc]
              · exact absurd hzero (Nat.succ_ne_zero _)
      · refine Or.inl (hstop ?_)
        rw [readUnits, dif_neg hnl, Bool.eq_false_iff.2 hhead]
        rfl

theorem exists_body {work rest : Bytes} {v : ℚ} (hpaired : Paired work)
    (h : readUnits work 0 0 = some (rest, v)) :
    ∃ body : Body, work = body.text ++ rest ∧ v = body.value := by
  rcases readUnits_spec hpaired h with
    ⟨marked, last, hfollows, htext, hvalue⟩ | ⟨-, n, letter, hletter, htext, hvalue⟩
  · obtain ⟨-, hincreasing, hfits⟩ := follows_iff.1 hfollows
    rw [sumFrom_eq, zero_add] at hvalue
    exact ⟨.units marked last hincreasing hfits, htext, hvalue⟩
  · refine ⟨.radians n letter hletter, ?_, hvalue⟩
    rw [htext, Body.text, List.append_assoc]
    rfl

end Written

/-! ## Signs and hemispheres -/

theorem takeSign_text (sign : Option Bool) {rest : Bytes}
    (hrest : ∀ b ∈ rest.head?, b ≠ 0x2b ∧ b ≠ 0x2d) :
    takeSign (Exponent.signText sign ++ rest) = (sign, rest) := by
  cases sign with
  | none =>
    cases rest with
    | nil => rfl
    | cons b rest =>
      obtain ⟨hplus, hminus⟩ := hrest b rfl
      rw [Exponent.signText, List.nil_append, takeSign, if_neg hplus, if_neg hminus]
  | some minus => cases minus <;> rfl

theorem head_numeral (n : Numeral) {rest : Bytes} :
    ∀ b ∈ (n.text ++ rest).head?, b ≠ 0x2b ∧ b ≠ 0x2d := by
  intro b hb
  rcases Numeral.starts_text n rest with hdigit | ⟨after, heq, -⟩
  · by_cases hisDigit : isDigit b = true
    · exact ⟨isDigit_ne hisDigit rfl, isDigit_ne hisDigit rfl⟩
    · refine absurd (fun c hc => ?_) hdigit
      rw [Option.mem_def.1 hb] at hc
      rw [← Option.some.inj hc]
      exact Bool.eq_false_iff.2 hisDigit
  · rw [heq] at hb
    rw [← Option.some.inj hb]
    decide

theorem head_hemisphere (h : Option Hemisphere) :
    ∀ b ∈ (Angle.hemisphereText h).head?, b ≠ 0x2b ∧ b ≠ 0x2d := by
  cases h with
  | none => nofun
  | some h =>
    obtain ⟨letter, hknown⟩ := h
    have hfacts : ∀ b ∈ SYM, b ≠ 0x2b ∧ b ≠ 0x2d :=
      List.forall_iff_forall_mem.1 (by decide)
    intro b hb
    rw [← Option.some.inj hb]
    exact hfacts letter hknown

theorem head_body (body : Body) (h : Option Hemisphere) :
    ∀ b ∈ (body.text ++ Angle.hemisphereText h).head?, b ≠ 0x2b ∧ b ≠ 0x2d := by
  cases body with
  | radians n letter isLetter =>
    rw [Body.text, List.append_assoc]
    exact head_numeral n
  | units marked last increasing fits =>
    cases marked with
    | nil =>
      cases last with
      | none => exact head_hemisphere h
      | some n => exact head_numeral n
    | cons e marked =>
      rw [Body.text, List.flatMap_cons, List.append_assoc, List.append_assoc, List.append_assoc]
      exact head_numeral e.1

theorem takeHemisphere_some (negative : Bool) (h : Hemisphere) :
    takeHemisphere negative [h.letter] = (h.negative, []) := by
  obtain ⟨letter, hknown⟩ := h
  have hplaces : ∀ c ∈ SYM, takeHemisphere negative [c] =
      (decide (c ∈ ([0x53, 0x73, 0x57, 0x77] : Bytes)), []) := by
    cases negative <;> exact List.forall_iff_forall_mem.1 (by decide)
  exact hplaces letter hknown

theorem takeHemisphere_text (a : Angle) :
    takeHemisphere (a.sign = some true) (Angle.hemisphereText a.hemisphere) = (a.negative, []) := by
  rw [Angle.negative]
  cases a.hemisphere with
  | none => rfl
  | some h => exact takeHemisphere_some _ h

/-- Where nothing is left, there was a hemisphere letter or nothing. -/
theorem takeHemisphere_spec {sign negative : Bool} {rest : Bytes}
    (h : takeHemisphere sign rest = (negative, [])) :
    ∃ hemisphere, rest = Angle.hemisphereText hemisphere ∧
      negative = match hemisphere with
        | some h => h.negative
        | none => sign := by
  cases rest with
  | nil =>
    cases h
    exact ⟨none, rfl, rfl⟩
  | cons c rest =>
    by_cases hknown : c ∈ SYM
    · obtain ⟨i, hi⟩ : ∃ i, SYM.idxOf? c = some i := by
        have hfound : ∀ c ∈ SYM, (SYM.idxOf? c).isSome :=
          List.forall_iff_forall_mem.1 (by decide)
        exact Option.isSome_iff_exists.1 (hfound c hknown)
      have hrest : rest = [] := by
        rw [takeHemisphere, hi] at h
        exact (Prod.mk.inj h).2
      rw [hrest, takeHemisphere_some sign ⟨c, hknown⟩] at h
      exact ⟨some ⟨c, hknown⟩, by rw [hrest]; rfl, (Prod.mk.inj h).1.symm⟩
    · have hnone : SYM.idxOf? c = none := List.idxOf?_eq_none_iff.2 hknown
      rw [takeHemisphere, hnone] at h
      cases (Prod.mk.inj h).2

/-! ## Texts -/

/-- ASCII and the degree sign. -/
def IsAsciiOrDegree (c : Char) : Prop := c.toNat < 128 ∨ c = '°'

instance (c : Char) : Decidable (IsAsciiOrDegree c) := inferInstanceAs (Decidable (_ ∨ _))

theorem encode_ascii {c : Char} (h : c.toNat < 128) :
    ∃ b : UInt8, String.utf8EncodeChar c = [b] ∧ b ≠ 0xb0 := by
  have hval : c.val ≤ 0x7f := by
    rw [UInt32.le_iff_toNat_le]
    exact Nat.le_of_lt_succ h
  have hsize : c.utf8Size = 1 := if_pos hval
  refine ⟨c.val.toUInt8, String.utf8EncodeChar_eq_singleton hsize, fun heq => ?_⟩
  have hnat := congrArg UInt8.toNat heq
  have hsmall : c.val.toUInt8.toNat = c.toNat % 256 := UInt32.toNat_toUInt8 c.val
  rw [hsmall, show (0xb0 : UInt8).toNat = 176 from rfl] at hnat
  omega

theorem paired_encode {s : List Char} (h : ∀ c ∈ s, IsAsciiOrDegree c) :
    Paired (Utf8.encode s) ∧ (Utf8.encode s).head? ≠ some 0xb0 := by
  induction s with
  | nil => exact ⟨List.IsChain.nil, nofun⟩
  | cons c s ih =>
    obtain ⟨hpaired, hhead⟩ := ih fun d hd => h d (List.mem_cons_of_mem c hd)
    have hnext : ∀ a : UInt8, ∀ b ∈ (Utf8.encode s).head?, b = 0xb0 → a = 0xc2 := by
      rintro a b hb rfl
      exact absurd hb hhead
    rw [Utf8.encode_cons]
    rcases h c List.mem_cons_self with hascii | rfl
    · obtain ⟨b, hb, hne⟩ := encode_ascii hascii
      rw [hb]
      exact ⟨List.isChain_cons.2 ⟨hnext b, hpaired⟩, fun heq => hne (Option.some.inj heq)⟩
    · rw [show String.utf8EncodeChar '°' = [0xc2, 0xb0] from rfl]
      refine ⟨List.isChain_cons_cons.2 ⟨fun _ => rfl, List.isChain_cons.2 ⟨hnext _, hpaired⟩⟩, ?_⟩
      simp

theorem copied_mark (m : Mark) : ∀ b ∈ m.text, isCopied b = true := by
  cases m <;> exact List.forall_iff_forall_mem.1 (by decide)

theorem copied_body (body : Body) : ∀ b ∈ body.text, isCopied b = true := by
  intro b hb
  cases body with
  | radians n letter isLetter =>
    rcases List.mem_append.1 hb with hb | hb
    · exact (mem_numeral hb).1
    · rw [List.mem_singleton.1 hb]
      rcases isLetter with h | h <;> rw [h] <;> decide
  | units marked last increasing fits =>
    rcases List.mem_append.1 hb with hb | hb
    · obtain ⟨e, -, hb⟩ := List.mem_flatMap.1 hb
      exact (List.mem_append.1 hb).elim (fun h => (mem_numeral h).1) (copied_mark e.2 b)
    · cases last with
      | none => cases hb
      | some n => exact (mem_numeral hb).1

theorem copied_text (a : Angle) : ∀ b ∈ a.text, isCopied b = true := by
  intro b hb
  rw [Angle.text, List.mem_append, List.mem_append] at hb
  rcases hb with hb | hb | hb
  · cases hs : a.sign with
    | none =>
      rw [hs] at hb
      cases hb
    | some minus =>
      rw [hs] at hb
      cases minus <;> rw [List.mem_singleton.1 hb] <;> decide
  · exact copied_body a.body b hb
  · cases hh : a.hemisphere with
    | none =>
      rw [hh] at hb
      cases hb
    | some h =>
      rw [hh] at hb
      have hall : ∀ c ∈ SYM, isCopied c = true :=
        List.forall_iff_forall_mem.1 (by decide)
      rw [List.mem_singleton.1 hb]
      exact hall h.letter h.known

theorem not_copied_space {c : Char} (h : isSpaceChar c = true) :
    ∃ b, String.utf8EncodeChar c = [b] ∧ isCopied b = false := by
  simp only [isSpaceChar, Bool.or_eq_true, decide_eq_true_eq, or_assoc] at h
  rcases h with rfl | rfl | rfl | rfl | rfl <;> exact ⟨_, rfl, by decide⟩

theorem dropWhile_spaces {spaces rest : List Char} {a : Angle}
    (hspaces : ∀ c ∈ spaces, isSpaceChar c = true) (hrest : Utf8.encode rest = a.text) :
    (spaces ++ rest).dropWhile isSpaceChar = rest := by
  rw [List.dropWhile_append_of_pos hspaces]
  cases rest with
  | nil => rfl
  | cons c rest =>
    refine List.dropWhile_cons_of_neg fun hspace => ?_
    obtain ⟨b, hb, hnot⟩ := not_copied_space hspace
    have hcopied := copied_text a b
      (by rw [← hrest, Utf8.encode_cons, hb]; exact List.mem_cons_self)
    rw [hnot] at hcopied
    cases hcopied

theorem takeWhile_copied (a : Angle) : a.text.takeWhile isCopied = a.text :=
  List.takeWhile_eq_self_iff.2 (copied_text a)

theorem dmstor_text {spaces rest : List Char} {a : Angle}
    (hspaces : ∀ c ∈ spaces, isSpaceChar c = true) (hrest : Utf8.encode rest = a.text)
    (hlen : a.text.length ≤ 63) : dmstor (spaces ++ rest) = some a.value := by
  have hsign := takeSign_text a.sign (head_body a.body a.hemisphere)
  have hsign' : takeSign a.text =
      (a.sign, a.body.text ++ Angle.hemisphereText a.hemisphere) := hsign
  rw [dmstor, dropWhile_spaces hspaces hrest, hrest, takeWhile_copied, Nat.min_eq_left hlen,
    List.take_length, hsign']
  simp only [readUnits_body, Option.bind_eq_bind, Option.bind_some, takeHemisphere_text, and_self,
    if_true]
  rfl

/-- What is accepted is an angle's text. -/
theorem exists_angle {s : List Char} (hs : ∀ c ∈ s, IsAsciiOrDegree c) {v : ℚ}
    (h : dmstor s = some v) :
    ∃ a : Angle, Utf8.encode (s.dropWhile isSpaceChar) = a.text ∧ v = a.value := by
  have hpaired := (paired_encode fun c hc => hs c (List.dropWhile_subset isSpaceChar hc)).1
  generalize hbytes : Utf8.encode (s.dropWhile isSpaceChar) = bytes at hpaired
  rw [dmstor, hbytes] at h
  simp only [Option.bind_eq_bind, Option.bind_eq_some_iff] at h
  obtain ⟨⟨rest, sum⟩, hread, hfinish⟩ := h
  split at hfinish
  · rename_i hall
    obtain ⟨hempty, hwhole⟩ := hall
    rw [hwhole, List.take_length] at hread hfinish hempty
    have hsplit := takeSign_spec bytes
    have hpaired' : Paired (takeSign bytes).2 := by
      rw [hsplit] at hpaired
      exact List.IsChain.right_of_append hpaired
    obtain ⟨body, htext, hvalue⟩ := exists_body hpaired' hread
    obtain ⟨hemisphere, hrest, hnegative⟩ := takeHemisphere_spec (Prod.ext rfl hempty)
    refine ⟨⟨(takeSign bytes).1, body, hemisphere⟩, ?_, ?_⟩
    · rw [Angle.text, ← hrest, ← htext]
      exact hsplit
    · refine (Option.some.inj hfinish).symm.trans ?_
      have hsign := congrArg (fun negative : Bool => if negative then -sum else sum) hnegative
      refine hsign.trans ?_
      rw [hvalue]
      cases hemisphere <;> rfl
  · cases hfinish

/-- A string of at most 63 bytes is accepted exactly when it is an angle's text after white space,
and the answer is the sum of the numbers times their units, with the angle's sign. -/
theorem dmstor_iff {s : List Char} (hs : ∀ c ∈ s, IsAsciiOrDegree c)
    (hlen : (Utf8.encode s).length ≤ 63) (v : ℚ) :
    dmstor s = some v ↔ ∃ (spaces rest : List Char) (a : Angle), s = spaces ++ rest ∧
      (∀ c ∈ spaces, isSpaceChar c = true) ∧ Utf8.encode rest = a.text ∧ v = a.value := by
  constructor
  · intro h
    obtain ⟨a, htext, hvalue⟩ := exists_angle hs h
    exact ⟨s.takeWhile isSpaceChar, s.dropWhile isSpaceChar, a,
      List.takeWhile_append_dropWhile.symm, fun c hc => List.mem_takeWhile_imp hc, htext, hvalue⟩
  · rintro ⟨spaces, rest, a, rfl, hspaces, htext, rfl⟩
    refine dmstor_text hspaces htext ?_
    rw [Utf8.encode_append, List.length_append, htext] at hlen
    omega

/-- `E` at the end is a hemisphere, and no exponent; it outweighs the written sign. -/
theorem dmstor_iff_east :
    dmstor " -2d20'14.025\"E".toList = some (16316937732790654569039 / 400000000000000000000000) ↔
      ∃ (spaces rest : List Char) (a : Angle), " -2d20'14.025\"E".toList = spaces ++ rest ∧
        (∀ c ∈ spaces, isSpaceChar c = true) ∧ Utf8.encode rest = a.text ∧
        16316937732790654569039 / 400000000000000000000000 = a.value :=
  dmstor_iff (List.forall_iff_forall_mem.1 (by decide)) (by decide) _

end Xeibe.Reproject.Angles

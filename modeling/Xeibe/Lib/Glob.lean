import Mathlib.Computability.Language

/-!
# Globs

A glob is a list of pieces, each of which stands for any run of letters or for
one letter out of a set; its language is the product of what its pieces stand
for.  Letters are arbitrary: the same notion reads a name as a glob over
characters and a path as a glob over names.
-/

namespace Xeibe.Lib

variable {α : Type*}

/-- One piece of a glob. -/
inductive Piece (α : Type*) where
  /-- Any run of letters. -/
  | run
  /-- One letter out of a set. -/
  | one (letters : Set α)

def Piece.language : Piece α → Language α
  | .run => (Set.univ : Set (List α))
  | .one letters => (fun letter => [letter]) '' letters

namespace Glob

/-- The words of a glob: those of its pieces, one after the other. -/
def language (pieces : List (Piece α)) : Language α := (pieces.map Piece.language).prod

@[simp] theorem mem_nil {word : List α} : word ∈ language ([] : List (Piece α)) ↔ word = [] := by
  simp [language, Language.mem_one]

theorem mem_run {pieces : List (Piece α)} {word : List α} :
    word ∈ language (.run :: pieces) ↔ ∃ rest, rest <:+ word ∧ rest ∈ language pieces := by
  simp only [language, List.map_cons, List.prod_cons, Language.mem_mul]
  constructor
  · rintro ⟨before, -, rest, h, rfl⟩
    exact ⟨rest, List.suffix_append before rest, h⟩
  · rintro ⟨rest, ⟨before, rfl⟩, h⟩
    exact ⟨before, Set.mem_univ before, rest, h, rfl⟩

@[simp] theorem mem_one {letters : Set α} {pieces : List (Piece α)} {word : List α} :
    word ∈ language (.one letters :: pieces) ↔
      ∃ letter ∈ letters, ∃ rest ∈ language pieces, word = letter :: rest := by
  simp only [language, List.map_cons, List.prod_cons, Language.mem_mul]
  constructor
  · rintro ⟨_, ⟨letter, hl, rfl⟩, rest, h, rfl⟩
    exact ⟨letter, hl, rest, h, rfl⟩
  · rintro ⟨letter, hl, rest, h, rfl⟩
    exact ⟨[letter], ⟨letter, hl, rfl⟩, rest, h, rfl⟩

theorem run_of_suffix {pieces : List (Piece α)} {word rest : List α} (hs : rest <:+ word)
    (h : rest ∈ language (.run :: pieces)) : word ∈ language (.run :: pieces) := by
  obtain ⟨last, hl, hm⟩ := mem_run.mp h
  exact mem_run.mpr ⟨last, hl.trans hs, hm⟩

theorem mem_run_tail {pieces : List (Piece α)} {word : List α} :
    word ∈ language (.run :: pieces) ↔
      word ∈ language pieces ∨ word.tail ∈ language (.run :: pieces) := by
  constructor
  · intro h
    obtain ⟨rest, hs, hr⟩ := mem_run.mp h
    cases word with
    | nil => exact .inl (List.suffix_nil.mp hs ▸ hr)
    | cons letter word =>
      rcases List.suffix_cons_iff.mp hs with rfl | hs
      · exact .inl hr
      · exact .inr (mem_run.mpr ⟨rest, hs, hr⟩)
  · rintro (h | h)
    · exact mem_run.mpr ⟨word, List.suffix_rfl, h⟩
    · exact run_of_suffix (List.tail_suffix word) h

/-! ## Patterns -/

/-- A pattern whose letter `star` is any run and whose letter `any` is any one
letter; every other letter stands for itself. -/
def ofPattern [DecidableEq α] (star any : α) (pattern : List α) : List (Piece α) :=
  pattern.map fun letter =>
    if letter = star then .run
    else if letter = any then .one Set.univ
    else .one {letter}

section Pattern

variable [DecidableEq α] {star any : α}

@[simp] theorem ofPattern_nil : ofPattern star any [] = [] := rfl

@[simp] theorem ofPattern_star (pattern : List α) :
    ofPattern star any (star :: pattern) = .run :: ofPattern star any pattern := by
  simp [ofPattern]

theorem mem_any (h : any ≠ star) {pattern word : List α} :
    word ∈ language (ofPattern star any (any :: pattern)) ↔
      ∃ letter, ∃ rest ∈ language (ofPattern star any pattern), word = letter :: rest := by
  have hp : ofPattern star any (any :: pattern) = .one Set.univ :: ofPattern star any pattern := by
    simp [ofPattern, h]
  rw [hp, mem_one]
  simp

theorem mem_letter {letter : α} (h : letter ≠ star) {pattern word : List α} :
    word ∈ language (ofPattern star any (letter :: pattern)) ↔
      ∃ a, (letter = any ∨ a = letter) ∧
        ∃ rest ∈ language (ofPattern star any pattern), word = a :: rest := by
  by_cases ha : letter = any
  · subst ha
    rw [mem_any h]
    simp
  · have hp : ofPattern star any (letter :: pattern) =
        .one {letter} :: ofPattern star any pattern := by
      simp [ofPattern, h, ha]
    rw [hp, mem_one]
    simp [ha]

/-- A text that stands for itself is the beginning of what its pattern matches. -/
theorem mem_literal {text : List α} (h : ∀ letter ∈ text, letter ≠ star ∧ letter ≠ any)
    {pattern word : List α} :
    word ∈ language (ofPattern star any (text ++ pattern)) ↔
      ∃ rest ∈ language (ofPattern star any pattern), word = text ++ rest := by
  induction text generalizing word with
  | nil => simp
  | cons letter text ih =>
    have hl := h letter (by simp)
    rw [List.cons_append, mem_letter hl.1]
    simp only [hl.2, false_or, exists_eq_left]
    constructor
    · rintro ⟨middle, hm, rfl⟩
      obtain ⟨rest, hr, rfl⟩ := (ih fun a ha => h a (List.mem_cons_of_mem letter ha)).mp hm
      exact ⟨rest, hr, rfl⟩
    · rintro ⟨rest, hr, rfl⟩
      exact ⟨text ++ rest, (ih fun a ha => h a (List.mem_cons_of_mem letter ha)).mpr
        ⟨rest, hr, rfl⟩, rfl⟩

theorem split_of_no_star {part : List α} (h : star ∉ part) {pattern word : List α}
    (hw : word ∈ language (ofPattern star any (part ++ pattern))) :
    part.length ≤ word.length ∧
      word.drop part.length ∈ language (ofPattern star any pattern) := by
  induction part generalizing word with
  | nil => simpa using hw
  | cons letter part ih =>
    rw [List.mem_cons, not_or] at h
    rw [List.cons_append, mem_letter (Ne.symm h.1)] at hw
    obtain ⟨a, -, rest, hr, rfl⟩ := hw
    obtain ⟨hle, hd⟩ := ih h.2 hr
    exact ⟨by simpa using hle, by simpa using hd⟩

theorem mem_stars {pattern : List α} :
    [] ∈ language (ofPattern star any pattern) ↔ ∀ letter ∈ pattern, letter = star := by
  induction pattern with
  | nil => simp
  | cons letter pattern ih =>
    by_cases hl : letter = star
    · subst hl
      rw [ofPattern_star, mem_run]
      simpa using ih
    · rw [mem_letter hl]
      simp [hl]

/-- Whether a pattern matches a word, by recursion over both: a star takes nothing or
one letter more, any other letter takes one. -/
def accepts (star any : α) : List α → List α → Bool
  | [], word => word.isEmpty
  | letter :: pattern, [] => letter = star && accepts star any pattern []
  | letter :: pattern, a :: word =>
    if letter = star then
      accepts star any pattern (a :: word) || accepts star any (letter :: pattern) word
    else
      (letter = any || a = letter) && accepts star any pattern word
termination_by pattern word => pattern.length + word.length

theorem accepts_iff (pattern word : List α) :
    accepts star any pattern word = true ↔ word ∈ language (ofPattern star any pattern) := by
  fun_induction accepts star any pattern word with
  | case1 word => simp
  | case2 letter pattern ih =>
    rw [mem_stars] at ih ⊢
    simp [ih]
  | case3 a word pattern ih ihs =>
    rw [ofPattern_star, mem_run_tail, List.tail_cons, Bool.or_eq_true, ih, ihs, ofPattern_star]
  | case4 letter pattern a word h ih =>
    rw [mem_letter h, Bool.and_eq_true, ih]
    simp only [Bool.or_eq_true, decide_eq_true_eq]
    constructor
    · rintro ⟨ha, hw⟩
      exact ⟨a, ha, word, hw, rfl⟩
    · rintro ⟨_, ha, _, hw, he⟩
      obtain ⟨rfl, rfl⟩ := List.cons.inj he
      exact ⟨ha, hw⟩

end Pattern

end Glob

end Xeibe.Lib

import Xeibe.Core.Names
import Xeibe.Lib.Utf8

/-!
# Path patterns

`pattern.rs` of `xeibe-schema`: globs over the names on the way to an element or
an attribute.  A path is read as a glob over names and the local part of a name
as a glob over its bytes; both are compared with the language of the pattern.
-/

namespace Xeibe.Schema

open Lib Lib.Glob

/-- One step of a pattern or a path: optional namespace and a local part. -/
structure Step where
  isAttribute : Bool
  ns : Option Bytes
  localName : Bytes

/-- `name`, `@name`, `{uri}name`, `@{uri}name`. `none` if a brace is unclosed. -/
def Step.parse (step : Bytes) : Option Step :=
  let (isAttribute, rest) := match stripPrefix (utf8 "@") step with
    | some rest => (true, rest)
    | none => (false, step)
  match stripPrefix (utf8 "\x7b") rest with
  | some qualified => do
    let (ns, localName) ← splitOnce 0x7d qualified
    some { isAttribute, ns := some ns, localName }
  | none => some { isAttribute, ns := none, localName := rest }

/-! ## Matching -/

/-- Where the loop of `wildcard` stands: the positions in the pattern and the text, and
the star to go back to with the position in the text up to which it has matched. -/
structure Place (pattern : Bytes) where
  p : Nat
  t : Nat
  backtrack : Option (Nat × Nat)
  p_le : p ≤ pattern.length
  behind : ∀ b ∈ backtrack, b.1 < p ∧ b.2 ≤ t

namespace Place

variable {pattern : Bytes}

def start (pattern : Bytes) : Place pattern where
  p := 0
  t := 0
  backtrack := none
  p_le := Nat.zero_le _
  behind := by simp

/-- A star is stepped over, and remembered. -/
def star (s : Place pattern) (h : s.p < pattern.length) : Place pattern where
  p := s.p + 1
  t := s.t
  backtrack := some (s.p, s.t)
  p_le := h
  behind := by simp

/-- One byte of the pattern takes one of the text. -/
def advance (s : Place pattern) (h : s.p < pattern.length) : Place pattern where
  p := s.p + 1
  t := s.t + 1
  backtrack := s.backtrack
  p_le := h
  behind b hb := by have := s.behind b hb; omega

/-- The star takes one more byte of the text. -/
def back (s : Place pattern) {b : Nat × Nat} (h : s.backtrack = some b) : Place pattern where
  p := b.1 + 1
  t := b.2 + 1
  backtrack := some (b.1, b.2 + 1)
  p_le := Nat.le_trans (s.behind b h).1 s.p_le
  behind := by simp

/-- How far the star to go back to is. -/
def starred (s : Place pattern) : Nat × Nat := s.backtrack.elim (0, 0) fun b => (b.1 + 1, b.2)

theorem starred_le (s : Place pattern) : s.starred.1 ≤ s.p := by
  unfold starred
  cases h : s.backtrack with
  | none => exact Nat.zero_le _
  | some b => exact (s.behind b h).1

end Place

/-- The loop of `wildcard`. -/
def wildcardLoop (pattern text : Bytes) (s : Place pattern) : Bool :=
  if ht : s.t < text.length then
    if hs : pattern[s.p]? = some 0x2a then
      wildcardLoop pattern text (s.star (List.getElem?_eq_some_iff.mp hs).1)
    else if hc : pattern[s.p]? = some 0x3f ∨ pattern[s.p]? = some text[s.t] then
      wildcardLoop pattern text (s.advance (by
        rcases hc with hc | hc <;> exact (List.getElem?_eq_some_iff.mp hc).1))
    else
      match hb : s.backtrack with
      | some _ => wildcardLoop pattern text (s.back hb)
      | none => false
  else
    (pattern.drop s.p).all (· == 0x2a)
termination_by
  (pattern.length - s.starred.1, text.length + 1 - s.starred.2, text.length - s.t)
decreasing_by
  · apply Prod.Lex.left
    have hp := (List.getElem?_eq_some_iff.mp hs).1
    have := s.starred_le
    simp only [Place.starred, Place.star, Option.elim] at this ⊢
    omega
  · apply Prod.Lex.right
    apply Prod.Lex.right
    simp only [Place.advance]
    omega
  · have := s.behind _ hb
    simp only [Place.starred, Place.back, hb, Option.elim]
    apply Prod.Lex.right
    apply Prod.Lex.left
    omega

/-- `*` and `?` glob over bytes (names are matched whole). -/
def wildcard (pattern text : Bytes) : Bool := wildcardLoop pattern text (.start pattern)

def matchStep (pattern name : Bytes) : Bool :=
  match Step.parse pattern, Step.parse name with
  | some pattern, some name =>
    if pattern.isAttribute != name.isAttribute then false
    else if pattern.ns.isSome && name.ns != pattern.ns then false
    else wildcard pattern.localName name.localName
  | _, _ => false

def matchSteps : List Bytes → List Bytes → Bool
  | [], names => names.isEmpty
  | step :: rest, names =>
    if step = utf8 "**" then
      (List.range (names.length + 1)).any fun skip => matchSteps rest (names.drop skip)
    else
      match names with
      | name :: names => matchStep step name && matchSteps rest names
      | [] => false

/-! ## Patterns as text -/

/-- The loop of `split_steps`, with the step it is in. -/
def splitStepsFrom (depth : Nat) (step : Bytes) : Bytes → Option (List Bytes)
  | [] => if depth ≠ 0 then none else some [step]
  | c :: rest =>
    if c = 0x7b then splitStepsFrom (depth + 1) (step ++ [c]) rest
    else if c = 0x7d then
      match depth with
      | 0 => none
      | depth + 1 => splitStepsFrom depth (step ++ [c]) rest
    else if c = 0x2f ∧ depth = 0 then (splitStepsFrom 0 [] rest).map (step :: ·)
    else splitStepsFrom depth (step ++ [c]) rest

/-- Split at `/` outside `{…}` (namespace URIs contain slashes). -/
def splitSteps (raw : Bytes) : Option (List Bytes) :=
  if raw = [] then some [] else splitStepsFrom 0 [] raw

/-- `crate::Error::Pattern`. -/
structure PatternError where
  pattern : Bytes
  message : String

structure PathPattern where
  raw : Bytes

/-- Why a step cannot stand in a pattern. -/
def stepError (step : Bytes) : Option String :=
  if step = [] then some "empty step"
  else if step = utf8 "**" then none
  else
    match Step.parse step with
    | none => some "unclosed `\x7b`"
    | some parsed =>
      if parsed.localName = [] then some "a step has no local name"
      else if 0x7b ∈ parsed.localName ∨ 0x7d ∈ parsed.localName then some "unbalanced braces"
      else none

def PathPattern.parse (raw : Bytes) : Except PatternError PathPattern :=
  match splitSteps raw with
  | none => .error ⟨raw, "unclosed `\x7b`"⟩
  | some steps =>
    if steps = [] then .error ⟨raw, "empty pattern"⟩
    else
      match steps.findSome? stepError with
      | some message => .error ⟨raw, message⟩
      | none => .ok ⟨raw⟩

def PathPattern.matches (pattern : PathPattern) (layer : Bytes) (path : List Bytes) : Bool :=
  match splitSteps pattern.raw with
  | none => false
  | some steps => matchSteps steps (layer :: path)

/-- What ends a step, so many braces open: a `/` only in braces, and all of them closed. -/
def Closes : Nat → Bytes → Prop
  | depth, [] => depth = 0
  | depth, c :: rest =>
    if c = 0x7b then Closes (depth + 1) rest
    else if c = 0x7d then
      match depth with
      | 0 => False
      | depth + 1 => Closes depth rest
    else ¬ (c = 0x2f ∧ depth = 0) ∧ Closes depth rest

theorem splitStepsFrom_append {depth : Nat} {front : Bytes} (h : Closes depth front)
    (step tail : Bytes) :
    splitStepsFrom depth step (front ++ tail) = splitStepsFrom 0 (step ++ front) tail := by
  induction front generalizing depth step with
  | nil =>
    have hdepth : depth = 0 := h
    rw [hdepth, List.nil_append, List.append_nil]
  | cons c front ih =>
    have hstep : step ++ [c] ++ front = step ++ c :: front := by simp
    rw [Closes.eq_def] at h
    rw [List.cons_append, splitStepsFrom.eq_def, ← hstep]
    dsimp only at h ⊢
    split at h
    · rename_i hc
      rw [if_pos hc]
      exact ih h _
    rename_i hopen
    rw [if_neg hopen]
    split at h
    · rename_i hc
      rw [if_pos hc]
      cases depth with
      | zero => exact h.elim
      | succ depth => exact ih h _
    · rename_i hclose
      rw [if_neg hclose, if_neg h.1]
      exact ih h.2 _

theorem closes_of_splitStepsFrom {depth : Nat} {step rest : Bytes} {steps : List Bytes}
    (h : splitStepsFrom depth step rest = some steps) :
    ∃ front others, steps = (step ++ front) :: others ∧ Closes depth front ∧
      (∀ s ∈ others, Closes 0 s) ∧ List.intercalate [0x2f] (front :: others) = rest := by
  induction rest generalizing depth step steps with
  | nil =>
    simp only [splitStepsFrom, ite_not] at h
    split at h
    · rename_i hdepth
      obtain rfl := Option.some.inj h
      exact ⟨[], [], by simp, hdepth, by simp, by simp⟩
    · cases h
  | cons c rest ih =>
    have keep {depth' : Nat} (h : splitStepsFrom depth' (step ++ [c]) rest = some steps)
        (hcloses : ∀ front, Closes depth' front → Closes depth (c :: front)) :
        ∃ front others, steps = (step ++ front) :: others ∧ Closes depth front ∧
          (∀ s ∈ others, Closes 0 s) ∧ List.intercalate [0x2f] (front :: others) = c :: rest := by
      obtain ⟨front, others, rfl, hfront, hothers, hjoin⟩ := ih h
      refine ⟨c :: front, others, by simp, hcloses front hfront, hothers, ?_⟩
      cases others with
      | nil => simpa using hjoin
      | cons other others => simpa [List.intercalate_cons_cons] using hjoin
    rw [splitStepsFrom.eq_def] at h
    dsimp only at h
    split at h
    · rename_i hc
      exact keep h fun front hfront => by simpa [Closes, hc] using hfront
    rename_i hopen
    split at h
    · rename_i hc
      split at h
      · cases h
      · exact keep h fun front hfront => by simpa [Closes, hc] using hfront
    rename_i hclose
    split at h
    · rename_i hc
      obtain ⟨others, ho, rfl⟩ := Option.map_eq_some_iff.mp h
      obtain ⟨front, others, rfl, hfront, hothers, hjoin⟩ := ih ho
      refine ⟨[], front :: others, by simp, hc.2, ?_, ?_⟩
      · exact List.forall_mem_cons.2 ⟨hfront, hothers⟩
      · rw [List.intercalate_cons_cons, hjoin, hc.1]
        rfl
    · rename_i hslash
      refine keep h fun front hfront => ?_
      simp only [Closes, if_neg hopen, if_neg hclose]
      exact ⟨hslash, hfront⟩

theorem splitStepsFrom_intercalate {steps : List Bytes} (h : ∀ s ∈ steps, Closes 0 s)
    (hne : steps ≠ []) : splitStepsFrom 0 [] (List.intercalate [0x2f] steps) = some steps := by
  induction steps with
  | nil => exact absurd rfl hne
  | cons step steps ih =>
    have hstep := splitStepsFrom_append (h step List.mem_cons_self) []
    cases steps with
    | nil => simpa [splitStepsFrom] using hstep []
    | cons other steps =>
      have hrest := ih (fun s hs => h s (List.mem_cons_of_mem step hs))
        (List.cons_ne_nil other steps)
      rw [List.intercalate_cons_cons, List.append_assoc, hstep, List.nil_append, List.cons_append,
        splitStepsFrom, if_neg (by decide), if_neg (by decide), if_pos ⟨rfl, rfl⟩, List.nil_append,
        hrest]
      rfl

/-- Accepted are the texts of steps that are in order, a `/` between them, and they match as
these steps do. -/
theorem PathPattern.parse_iff (raw : Bytes) (pattern : PathPattern) :
    PathPattern.parse raw = .ok pattern ↔ pattern.raw = raw ∧ ∃ steps, steps ≠ [] ∧
      (∀ step ∈ steps, Closes 0 step ∧ stepError step = none) ∧
      List.intercalate [0x2f] steps = raw ∧
      ∀ layer path, pattern.matches layer path = matchSteps steps (layer :: path) := by
  constructor
  · intro h
    unfold parse at h
    split at h
    · cases h
    rename_i steps hsteps
    split at h
    · cases h
    rename_i hne
    split at h
    · cases h
    rename_i hnone
    obtain rfl := Except.ok.inj h
    have hmatches : ∀ layer path,
        PathPattern.matches ⟨raw⟩ layer path = matchSteps steps (layer :: path) := fun _ _ => by
      rw [PathPattern.matches, hsteps]
    refine ⟨rfl, steps, hne, ?_⟩
    rw [splitSteps] at hsteps
    split at hsteps
    · exact absurd (Option.some.inj hsteps).symm hne
    obtain ⟨front, others, rfl, hfront, hothers, hjoin⟩ := closes_of_splitStepsFrom hsteps
    refine ⟨fun step hstep => ⟨?_, List.findSome?_eq_none_iff.1 hnone step hstep⟩, hjoin, hmatches⟩
    exact List.forall_mem_cons.2 ⟨hfront, hothers⟩ step hstep
  · rintro ⟨rfl, steps, hne, hok, hjoin, -⟩
    have hraw : pattern.raw ≠ [] := by
      intro hnil
      obtain ⟨first, others, rfl⟩ := List.exists_cons_of_ne_nil hne
      have hfirst : first = [] := by
        cases others with
        | nil => simpa [hnil] using hjoin
        | cons other others => simp [hnil, List.intercalate_cons_cons] at hjoin
      have herror := (hok first List.mem_cons_self).2
      rw [hfirst] at herror
      cases herror
    have hsteps : splitSteps pattern.raw = some steps := by
      rw [splitSteps, if_neg hraw, ← hjoin]
      exact splitStepsFrom_intercalate (fun step hstep => (hok step hstep).1) hne
    have hnone : steps.findSome? stepError = none :=
      List.findSome?_eq_none_iff.2 fun step hstep => (hok step hstep).2
    rw [parse, hsteps]
    simp only [if_neg hne, hnone]

/-! ## Wildcards of one name -/

/-- The names a pattern over bytes stands for. -/
abbrev byteGlob (pattern : Bytes) : Language UInt8 :=
  Glob.language (ofPattern 0x2a 0x3f pattern)

/-- Of the star to go back to: the pattern since then has no other star and has taken
one byte for each of its own. -/
def Place.Kept {pattern : Bytes} (s : Place pattern) : Prop :=
  ∀ b ∈ s.backtrack, ∃ part, 0x2a ∉ part ∧
    pattern.drop b.1 = 0x2a :: (part ++ pattern.drop s.p) ∧ s.t = b.2 + part.length

theorem Place.Kept.older {pattern text : Bytes} {s : Place pattern} (kept : s.Kept)
    {b : Nat × Nat} (hb : b ∈ s.backtrack)
    (h : text.drop (b.2 + 1) ∈ byteGlob (pattern.drop b.1)) :
    ∃ rest, rest <:+ text.drop s.t ∧ rest ∈ byteGlob (pattern.drop s.p) := by
  obtain ⟨part, hstar, hpart, ht⟩ := kept b hb
  rw [hpart, byteGlob, ofPattern_star, mem_run] at h
  obtain ⟨v, hv, hin⟩ := h
  obtain ⟨hle, hrest⟩ := split_of_no_star hstar hin
  refine ⟨v.drop part.length, ?_, hrest⟩
  have hlen : v.length ≤ text.length - (b.2 + 1) := by simpa using hv.length_le
  have hsuf : v.drop part.length <:+ text :=
    ((List.drop_suffix _ v).trans hv).trans (List.drop_suffix _ text)
  refine List.suffix_of_suffix_length_le hsuf (List.drop_suffix s.t text) ?_
  simp only [List.length_drop]
  omega

theorem drop_eq_cons {pattern : Bytes} {p : Nat} {b : UInt8} (h : pattern[p]? = some b) :
    pattern.drop p = b :: pattern.drop (p + 1) := by
  obtain ⟨hp, rfl⟩ := List.getElem?_eq_some_iff.mp h
  exact List.drop_eq_getElem_cons hp

/-- A byte that the pattern has nothing for here. -/
theorem not_mem_of_mismatch {pattern text : Bytes} {p t : Nat} (ht : t < text.length)
    (hs : pattern[p]? ≠ some 0x2a)
    (hc : ¬ (pattern[p]? = some 0x3f ∨ pattern[p]? = some text[t])) :
    text.drop t ∉ byteGlob (pattern.drop p) := by
  rw [List.drop_eq_getElem_cons ht, byteGlob]
  intro h
  cases hp : pattern[p]? with
  | none =>
    rw [List.drop_eq_nil_of_le (List.getElem?_eq_none_iff.mp hp), ofPattern_nil, Glob.mem_nil] at h
    exact List.cons_ne_nil _ _ h
  | some c =>
    have hstar : c ≠ 0x2a := by
      rintro rfl
      exact hs hp
    rw [drop_eq_cons hp, mem_letter hstar] at h
    obtain ⟨a, ha, rest, -, he⟩ := h
    rw [hp, Option.some.injEq, Option.some.injEq] at hc
    have hat : text[t] = a := (List.cons.inj he).1
    rcases ha with ha | ha
    · exact hc (.inl ha)
    · exact hc (.inr (by rw [hat, ha]))

/-- From any place on, the loop accepts what the rest of the pattern matches here or
the star to go back to matches further on. -/
theorem wildcardLoop_iff (pattern text : Bytes) (s : Place pattern) (kept : s.Kept) :
    wildcardLoop pattern text s = true ↔
      text.drop s.t ∈ byteGlob (pattern.drop s.p) ∨
        ∃ b ∈ s.backtrack, text.drop (b.2 + 1) ∈ byteGlob (pattern.drop b.1) := by
  fun_induction wildcardLoop pattern text s with
  | case1 s ht hs ih =>
    have hp := drop_eq_cons hs
    have hkept : (s.star (List.getElem?_eq_some_iff.mp hs).1).Kept := by
      intro b hb
      obtain rfl : (s.p, s.t) = b := Option.some.inj hb
      exact ⟨[], by simp, by simpa [Place.star] using hp, by simp [Place.star]⟩
    rw [ih hkept]
    simp only [Place.star, Option.mem_def, Option.some.injEq, exists_eq_left']
    have hrun : text.drop s.t ∈ byteGlob (pattern.drop s.p) ↔
        text.drop s.t ∈ byteGlob (pattern.drop (s.p + 1)) ∨
          text.drop (s.t + 1) ∈ byteGlob (pattern.drop s.p) := by
      rw [hp, byteGlob, ofPattern_star, mem_run_tail, List.tail_drop]
    rw [← hrun]
    -- the new star also matches whatever the one before it would have
    refine ⟨.inl, ?_⟩
    rintro (h | ⟨b, hb, h⟩)
    · exact h
    · obtain ⟨rest, hrest, hin⟩ := kept.older hb h
      rw [hp, byteGlob, ofPattern_star] at hin ⊢
      exact run_of_suffix hrest hin
  | case2 s ht hs hc ih =>
    have hc' : ∃ c, pattern[s.p]? = some c ∧ (c = 0x3f ∨ text[s.t] = c) := by
      rcases hc with hc | hc
      · exact ⟨_, hc, .inl rfl⟩
      · exact ⟨_, hc, .inr rfl⟩
    obtain ⟨c, hp, hct⟩ := hc'
    have hstar : c ≠ 0x2a := by
      rintro rfl
      exact hs hp
    have hdrop := drop_eq_cons hp
    have hkept : (s.advance (List.getElem?_eq_some_iff.mp hp).1).Kept := by
      intro b hb
      obtain ⟨part, hno, hpart, htp⟩ := kept b hb
      refine ⟨part ++ [c], ?_, ?_, ?_⟩
      · simpa using ⟨hno, hstar.symm⟩
      · simp [hpart, hdrop, Place.advance]
      · simp only [Place.advance, List.length_append, List.length_singleton]
        omega
    rw [ih hkept]
    simp only [Place.advance]
    have hone : text.drop s.t ∈ byteGlob (pattern.drop s.p) ↔
        text.drop (s.t + 1) ∈ byteGlob (pattern.drop (s.p + 1)) := by
      rw [hdrop, byteGlob, mem_letter hstar, List.drop_eq_getElem_cons ht]
      constructor
      · rintro ⟨a, -, rest, hr, he⟩
        obtain ⟨-, rfl⟩ := List.cons.inj he
        exact hr
      · intro h
        exact ⟨_, hct, _, h, rfl⟩
    rw [hone]
  | case3 s ht hs hc b hb ih =>
    obtain ⟨part, -, hpart, -⟩ := kept b hb
    have hnext : pattern.drop b.1 = 0x2a :: pattern.drop (b.1 + 1) := by
      have := congrArg List.tail hpart
      rw [List.tail_drop, List.tail_cons] at this
      rw [this, hpart]
    have hkept : (s.back hb).Kept := by
      intro b' hb'
      obtain rfl : (b.1, b.2 + 1) = b' := Option.some.inj hb'
      exact ⟨[], by simp, by simpa [Place.back] using hnext, by simp [Place.back]⟩
    rw [ih hkept, hb]
    simp only [Place.back, Option.mem_def, Option.some.injEq, exists_eq_left',
      not_mem_of_mismatch ht hs hc, false_or]
    have hrun : text.drop (b.2 + 1) ∈ byteGlob (pattern.drop b.1) ↔
        text.drop (b.2 + 1) ∈ byteGlob (pattern.drop (b.1 + 1)) ∨
          text.drop (b.2 + 1 + 1) ∈ byteGlob (pattern.drop b.1) := by
      rw [hnext, byteGlob, ofPattern_star, mem_run_tail, List.tail_drop]
    exact hrun.symm
  | case4 s ht hs hc hb =>
    simp [hb, not_mem_of_mismatch ht hs hc]
  | case5 s ht =>
    have hend : text.drop s.t = [] := List.drop_eq_nil_of_le (by omega)
    rw [hend]
    have hstars : (pattern.drop s.p).all (· == 0x2a) = true ↔
        [] ∈ byteGlob (pattern.drop s.p) := by
      rw [byteGlob, mem_stars, List.all_eq_true]
      simp only [beq_iff_eq]
    rw [hstars]
    refine ⟨.inl, ?_⟩
    rintro (h | ⟨b, hb, h⟩)
    · exact h
    · obtain ⟨rest, hrest, hin⟩ := kept.older hb h
      rw [hend] at hrest
      exact List.suffix_nil.mp hrest ▸ hin

theorem wildcard_iff (pattern text : Bytes) :
    wildcard pattern text = true ↔ text ∈ byteGlob pattern := by
  rw [wildcard, wildcardLoop_iff pattern text (.start pattern) (by simp [Place.Kept, Place.start])]
  simp [Place.start]

theorem wildcard_eq_accepts (pattern text : Bytes) :
    wildcard pattern text = Glob.accepts 0x2a 0x3f pattern text := by
  rw [Bool.eq_iff_iff, wildcard_iff, Glob.accepts_iff]

/-! ## What a pattern stands for -/

/-- A step as it is written: the mark of an attribute, a namespace in braces and a local
name. -/
structure Written where
  isAttribute : Bool
  ns : Option (List Char)
  localName : List Char
  closed : ∀ uri ∈ ns, '}' ∉ uri
  unmarked : ns = none →
    localName.head? ≠ some '{' ∧ (isAttribute = false → localName.head? ≠ some '@')

namespace Written

def qualified (w : Written) : List Char :=
  match w.ns with
  | some uri => '{' :: (uri ++ '}' :: w.localName)
  | none => w.localName

def text (w : Written) : List Char :=
  if w.isAttribute then '@' :: w.qualified else w.qualified

/-- The step over bytes. -/
def bytes (w : Written) : Step where
  isAttribute := w.isAttribute
  ns := w.ns.map Utf8.encode
  localName := Utf8.encode w.localName

/-- What a name has to be for a step: an attribute if the step is one, in the namespace
the step gives, and with a local name its pattern matches. -/
def Matches (step name : Written) : Prop :=
  step.isAttribute = name.isAttribute ∧ (step.ns = none ∨ name.ns = step.ns) ∧
    name.localName ∈ Glob.language (ofPattern '*' '?' step.localName)

end Written

def stepPiece (step : String) : Lib.Piece String :=
  if step = "**" then .run
  else .one {name | ∃ p n : Written, p.text = step.toList ∧ n.text = name.toList ∧ p.Matches n}

/-- The paths a pattern stands for. -/
def paths (steps : List String) : Language String := Glob.language (steps.map stepPiece)

/-! ## Steps over bytes -/

theorem utf8_eq (s : String) : utf8 s = Utf8.encode s.toList := rfl

theorem stripPrefix_mark {mark : Char} {b : UInt8} (hm : String.utf8EncodeChar mark = [b])
    (rest : List Char) : stripPrefix [b] (Utf8.encode (mark :: rest)) = some (Utf8.encode rest) := by
  simp [stripPrefix, hm, List.isPrefixOf]

theorem stripPrefix_unmarked {mark : Char} {b : UInt8} (hm : String.utf8EncodeChar mark = [b])
    (hb : b &&& 0x80 = 0) {s : List Char} (h : s.head? ≠ some mark) :
    stripPrefix [b] (Utf8.encode s) = none := by
  have hne : (Utf8.encode s).head? ≠ some b := fun hs => h ((Utf8.head_encode hm hb).mp hs)
  cases he : Utf8.encode s with
  | nil => simp [stripPrefix, List.isPrefixOf]
  | cons a rest =>
    have hab : b ≠ a := by
      rintro rfl
      simp [he] at hne
    simp [stripPrefix, List.isPrefixOf, hab]

theorem splitOnce_encode {uri : List Char} (h : '}' ∉ uri) (rest : List Char) :
    splitOnce 0x7d (Utf8.encode (uri ++ '}' :: rest)) =
      some (Utf8.encode uri, Utf8.encode rest) := by
  have hm : String.utf8EncodeChar '}' = [0x7d] := by decide
  rw [Utf8.encode_append, Utf8.encode_cons, hm, List.singleton_append]
  exact splitOnce_append (fun hin => h ((Utf8.mem_encode hm (by decide)).mp hin)) _

/-- What follows the mark of an attribute. -/
def Step.parseQualified (isAttribute : Bool) (rest : Bytes) : Option Step :=
  match stripPrefix (utf8 "\x7b") rest with
  | some qualified => do
    let (ns, localName) ← splitOnce 0x7d qualified
    some { isAttribute, ns := some ns, localName }
  | none => some { isAttribute, ns := none, localName := rest }

theorem Step.parse_mark (rest : List Char) :
    Step.parse (Utf8.encode ('@' :: rest)) = Step.parseQualified true (Utf8.encode rest) := by
  have hm : String.utf8EncodeChar '@' = [0x40] := by decide
  have hs := stripPrefix_mark hm rest
  rw [Step.parse, show utf8 "@" = [0x40] from by decide, hs]
  rfl

theorem Step.parse_unmarked {s : List Char} (h : s.head? ≠ some '@') :
    Step.parse (Utf8.encode s) = Step.parseQualified false (Utf8.encode s) := by
  have hm : String.utf8EncodeChar '@' = [0x40] := by decide
  have hs := stripPrefix_unmarked hm (by decide) h
  rw [Step.parse, show utf8 "@" = [0x40] from by decide, hs]
  rfl

theorem Written.parseQualified (w : Written) :
    Step.parseQualified w.isAttribute (Utf8.encode w.qualified) = some w.bytes := by
  have hm : String.utf8EncodeChar '{' = [0x7b] := by decide
  rw [Step.parseQualified, show utf8 "\x7b" = [0x7b] from by decide]
  cases hns : w.ns with
  | none =>
    have hq : w.qualified = w.localName := by simp [qualified, hns]
    rw [hq, stripPrefix_unmarked hm (by decide) (w.unmarked hns).1]
    simp [bytes, hns]
  | some uri =>
    have hq : w.qualified = '{' :: (uri ++ '}' :: w.localName) := by simp [qualified, hns]
    rw [hq, stripPrefix_mark hm]
    simp only [splitOnce_encode (w.closed uri hns)]
    simp [bytes, hns]

theorem Written.parse_text (w : Written) : Step.parse (Utf8.encode w.text) = some w.bytes := by
  by_cases ha : w.isAttribute = true
  · rw [text, if_pos ha, Step.parse_mark, ← ha, w.parseQualified]
  · have hf : w.isAttribute = false := by simpa using ha
    have hhead : w.qualified.head? ≠ some '@' := by
      cases hns : w.ns with
      | none => simpa [qualified, hns] using (w.unmarked hns).2 hf
      | some uri => simp [qualified, hns]
    rw [text, if_neg ha, Step.parse_unmarked hhead, ← hf, w.parseQualified]

/-- What can be read was written. -/
theorem exists_qualified {isAttribute : Bool} {q : List Char} {step : Step}
    (hq : isAttribute = false → q.head? ≠ some '@')
    (h : Step.parseQualified isAttribute (Utf8.encode q) = some step) :
    ∃ w : Written, w.isAttribute = isAttribute ∧ w.qualified = q := by
  by_cases hb : q.head? = some '{'
  · obtain ⟨r, rfl⟩ := List.head?_eq_some_iff.mp hb
    have hm : String.utf8EncodeChar '{' = [0x7b] := by decide
    rw [Step.parseQualified, show utf8 "\x7b" = [0x7b] from by decide, stripPrefix_mark hm] at h
    by_cases hr : '}' ∈ r
    · obtain ⟨uri, rest, rfl, hu⟩ := List.eq_append_cons_of_mem hr
      exact ⟨⟨isAttribute, some uri, rest, by simpa using hu, by simp⟩, rfl, rfl⟩
    · exfalso
      have hc : String.utf8EncodeChar '}' = [0x7d] := by decide
      have hno : (0x7d : UInt8) ∉ Utf8.encode r := fun hin =>
        hr ((Utf8.mem_encode hc (by decide)).mp hin)
      simp [splitOnce_of_not_mem hno] at h
  · exact ⟨⟨isAttribute, none, q, by simp, fun _ => ⟨hb, hq⟩⟩, rfl, rfl⟩

theorem exists_written {s : List Char} {step : Step} (h : Step.parse (Utf8.encode s) = some step) :
    ∃ w : Written, w.text = s ∧ w.bytes = step := by
  have hw : ∃ w : Written, w.text = s := by
    by_cases ha : s.head? = some '@'
    · obtain ⟨r, rfl⟩ := List.head?_eq_some_iff.mp ha
      rw [Step.parse_mark] at h
      obtain ⟨w, hattr, rfl⟩ := exists_qualified (by simp) h
      exact ⟨w, by rw [Written.text, if_pos hattr]⟩
    · rw [Step.parse_unmarked ha] at h
      obtain ⟨w, hattr, rfl⟩ := exists_qualified (fun _ => ha) h
      exact ⟨w, by rw [Written.text, hattr, if_neg Bool.false_ne_true]⟩
  obtain ⟨w, rfl⟩ := hw
  rw [w.parse_text] at h
  exact ⟨w, rfl, Option.some.inj h⟩

theorem map_encode_eq {a b : Option (List Char)} :
    a.map Utf8.encode = b.map Utf8.encode ↔ a = b :=
  (Option.map_injective Utf8.encode_injective).eq_iff

theorem marks : Utf8.Marks '*' '?' 0x2a 0x3f :=
  ⟨by decide, by decide, by decide, by decide, by decide⟩

theorem Written.localName_suffix (w : Written) : w.localName <:+ w.text := by
  have hq : w.localName <:+ w.qualified := by
    unfold qualified
    split
    · rename_i uri _
      exact (List.suffix_append_of_suffix (List.suffix_cons '}' _)).trans (List.suffix_cons '{' _)
    · exact List.suffix_rfl
  unfold text
  split
  · exact hq.trans (List.suffix_cons '@' _)
  · exact hq

/-- The two steps a pattern and a name were written as decide. -/
theorem matchStep_written {p n : Written}
    (hr : Utf8.Readable '?' p.localName n.localName) :
    matchStep (Utf8.encode p.text) (Utf8.encode n.text) = true ↔ p.Matches n := by
  simp only [matchStep, p.parse_text, n.parse_text, Written.Matches, Written.bytes]
  by_cases ha : p.isAttribute = n.isAttribute
  · by_cases hns : p.ns = none ∨ n.ns = p.ns
    · have hskip : ((p.ns.map Utf8.encode).isSome &&
          n.ns.map Utf8.encode != p.ns.map Utf8.encode) = false := by
        rcases hns with hns | hns <;> simp [hns]
      simp only [ha, bne_self_eq_false, Bool.false_eq_true, if_false, hskip, true_and, hns]
      rw [wildcard_iff, byteGlob, Utf8.encode_mem_iff marks hr]
    · have hstop : ((p.ns.map Utf8.encode).isSome &&
          n.ns.map Utf8.encode != p.ns.map Utf8.encode) = true := by
        rw [not_or] at hns
        simp [Option.isSome_iff_ne_none, hns.1, map_encode_eq, hns.2]
      simp only [ha, bne_self_eq_false, Bool.false_eq_true, if_false, hstop, if_true, hns]
      simp
  · simp [ha]

theorem matchStep_iff {step name : List Char} (hr : Utf8.Readable '?' step name) :
    matchStep (Utf8.encode step) (Utf8.encode name) = true ↔
      ∃ p n : Written, p.text = step ∧ n.text = name ∧ p.Matches n := by
  constructor
  · intro h
    cases hp : Step.parse (Utf8.encode step) with
    | none => simp [matchStep, hp] at h
    | some pattern =>
      cases hn : Step.parse (Utf8.encode name) with
      | none => simp [matchStep, hn] at h
      | some text =>
        obtain ⟨p, rfl, -⟩ := exists_written hp
        obtain ⟨n, rfl, -⟩ := exists_written hn
        have hl := hr.suffixes p.localName_suffix n.localName_suffix
        exact ⟨p, n, rfl, rfl, (matchStep_written hl).mp h⟩
  · rintro ⟨p, n, rfl, rfl, h⟩
    exact (matchStep_written (hr.suffixes p.localName_suffix n.localName_suffix)).mpr h

/-! ## Paths -/

theorem matchSteps_iff {steps names : List String}
    (hr : ∀ step ∈ steps, ∀ name ∈ names, Utf8.Readable '?' step.toList name.toList) :
    matchSteps (steps.map utf8) (names.map utf8) = true ↔ names ∈ paths steps := by
  induction steps generalizing names with
  | nil => simp [matchSteps, paths]
  | cons step steps ih =>
    have ih' (rest : List String) (hs : rest <:+ names) :
        matchSteps (steps.map utf8) (rest.map utf8) = true ↔ rest ∈ paths steps :=
      ih fun s hs' n hn => hr s (List.mem_cons_of_mem step hs') n (hs.subset hn)
    by_cases hstep : step = "**"
    · subst hstep
      have hpaths : names ∈ paths ("**" :: steps) ↔
          ∃ rest, rest <:+ names ∧ rest ∈ paths steps := by
        simp [paths, stepPiece, mem_run]
      rw [hpaths]
      simp only [List.map_cons, matchSteps, if_true, List.any_eq_true, List.mem_range,
        List.length_map, ← List.map_drop]
      constructor
      · rintro ⟨skip, -, h⟩
        exact ⟨names.drop skip, List.drop_suffix skip names,
          (ih' _ (List.drop_suffix skip names)).mp h⟩
      · rintro ⟨rest, hs, h⟩
        obtain ⟨before, rfl⟩ := hs
        refine ⟨before.length, ?_, ?_⟩
        · simp only [List.length_append]
          omega
        · rw [List.drop_left]
          exact (ih' rest (List.suffix_append before rest)).mpr h
    · have hbytes : utf8 step ≠ utf8 "**" := by
        intro h
        exact hstep (String.toList_injective (Utf8.encode_injective h))
      cases names with
      | nil => simp [matchSteps, hbytes, paths, stepPiece, hstep]
      | cons name names =>
        have hmatch := matchStep_iff (hr step (by simp) name (by simp))
        have hrest := ih' names (List.suffix_cons name names)
        simp only [List.map_cons, matchSteps, hbytes, if_false, Bool.and_eq_true]
        have hpaths : paths (step :: steps) = Glob.language (.one {name |
            ∃ p n : Written, p.text = step.toList ∧ n.text = name.toList ∧ p.Matches n} ::
              steps.map stepPiece) := by
          rw [paths, List.map_cons, stepPiece, if_neg hstep]
        rw [hrest, utf8_eq step, utf8_eq name, hmatch, hpaths, mem_one]
        constructor
        · rintro ⟨hname, h⟩
          exact ⟨name, hname, names, h, rfl⟩
        · rintro ⟨_, hname, _, h, he⟩
          obtain ⟨rfl, rfl⟩ := List.cons.inj he
          exact ⟨hname, h⟩

/-- A pattern matches exactly the paths it stands for, and within a name the wildcards
match what the recursion over pattern and name accepts.  A `?` of a step stands for one
byte, so a path is read over characters where the names of such a step are ASCII. -/
theorem match_steps_exact :
    (∀ steps names : List String,
      (∀ step ∈ steps, ∀ name ∈ names, Utf8.Readable '?' step.toList name.toList) →
        (matchSteps (steps.map utf8) (names.map utf8) = true ↔ names ∈ paths steps)) ∧
      ∀ pattern text : Bytes, wildcard pattern text = Glob.accepts 0x2a 0x3f pattern text :=
  ⟨fun _ _ hr => matchSteps_iff hr, wildcard_eq_accepts⟩

theorem match_steps_exact_uom :
    (matchSteps (["**", "@u?m"].map utf8) (["owner", "area", "@uom"].map utf8) = true ↔
      ["owner", "area", "@uom"] ∈ paths ["**", "@u?m"]) ∧
      wildcard (utf8 "*a*b") (utf8 "xaab") = Glob.accepts 0x2a 0x3f (utf8 "*a*b") (utf8 "xaab") :=
  ⟨match_steps_exact.1 _ _ fun _ _ _ hname => .inr (by
      have hall : ["owner", "area", "@uom"].all
          (fun name => name.toList.all fun c => c.utf8Size == 1) = true := by decide
      intro c hc
      exact eq_of_beq (List.all_eq_true.1 (List.all_eq_true.1 hall _ hname) c hc)),
    match_steps_exact.2 _ _⟩

/-- The paths of a pattern in which only stars have a meaning. -/
def literalPaths (steps : List String) : Language String :=
  Glob.language (steps.map fun step =>
    if step = "**" then .run
    else .one {name | name.toList ∈ Glob.language (step.toList.map fun c =>
      if c = '*' then .run else .one {c})})

/-- `?` stands for any character, and a step without a namespace for names of any. -/
theorem not_literal :
    (matchSteps (["?"].map utf8) (["a"].map utf8) = true ∧ ["a"] ∉ literalPaths ["?"]) ∧
      matchSteps (["area"].map utf8) (["{http://example.com/app}area"].map utf8) = true ∧
        ["{http://example.com/app}area"] ∉ literalPaths ["area"] := by
  have question : matchSteps (["?"].map utf8) (["a"].map utf8) = true := by
    simp only [matchSteps, matchStep, wildcard_eq_accepts, List.map_cons, List.map_nil]
    decide +kernel
  have anyNamespace :
      matchSteps (["area"].map utf8) (["{http://example.com/app}area"].map utf8) = true := by
    simp only [matchSteps, matchStep, wildcard_eq_accepts, List.map_cons, List.map_nil]
    decide +kernel
  refine ⟨⟨question, ?_⟩, anyNamespace, ?_⟩
  · simp [literalPaths]
  · simp [literalPaths]

end Xeibe.Schema

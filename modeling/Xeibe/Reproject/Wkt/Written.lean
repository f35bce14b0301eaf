import Xeibe.Reproject.Wkt.Reread

/-!
# Nodes that are read back

What `format` writes of a node, `parse` reads as that node: the offsets are those of the
new text, and a number is the nearest double to the digits that were written.
-/

namespace Xeibe.Reproject.Wkt

open Xeibe.Geom (F64)
open Xeibe.Lib Numerals Printf

variable {text rest s : Bytes} {levels depth : Nat} {pretty afterCs : Bool}

/-! ## Nodes in a syntax -/

def IsKeyword (w : Bytes) : Prop :=
  (∃ b ∈ w.head?, isAsciiAlphabetic b = true) ∧
    ∀ b ∈ w, isWordByte b = true ∧ toAsciiUppercase b = b

/-- A bare word, or a date. -/
def IsWord (w : Bytes) : Prop :=
  ((∃ b ∈ w.head?, isAsciiAlphabetic b = true) ∧ ∀ b ∈ w, isWordByte b = true) ∨
    (isDate w = true ∧ ∀ b ∈ w, endsDate b = false)

def Arg.Fits (number : F64 → Prop) (node : Node → Prop) : Arg → Prop
  | .text _ => True
  | .number v => number v
  | .word w => IsWord w
  | .node n => node n

/-- A node that nests at most so many levels, of keywords, words and numbers that the
syntax has. -/
def Node.Fits (number : F64 → Prop) : Nat → Node → Prop
  | 0, _ => False
  | levels + 1, n => IsKeyword n.keyword ∧ ∀ a ∈ n.args, a.Fits number (Node.Fits number levels)

mutual

/-- A node without its offsets, and with `f` of its numbers. -/
def Node.plain (f : F64 → F64) : Node → Node
  | .mk keyword args _ => .mk keyword (plainArgs f args) 0

def plainArgs (f : F64 → F64) : List Arg → List Arg
  | [] => []
  | a :: as => plainArg f a :: plainArgs f as

def plainArg (f : F64 → F64) : Arg → Arg
  | .text s => .text s
  | .number v => .number (f v)
  | .word w => .word w
  | .node n => .node (n.plain f)

end

/-! ## One argument -/

/-- The text of an argument after its white space. -/
def body (pretty : Bool) (depth : Nat) : Arg → Bytes
  | .text s => 0x22 :: (escape s ++ [0x22])
  | .number v => number v
  | .word w => w
  | .node n => writeNode pretty n depth

theorem exists_body (pretty : Bool) (a : Arg) (as : List Arg) (depth : Nat) (first afterCs : Bool) :
    ∃ gap depth' afterCs', (gap = [] ∨ gap = indent pretty depth') ∧
      writeArgs pretty (a :: as) depth first afterCs = (if first then [] else [0x2c]) ++
        (gap ++ (body pretty depth' a ++ writeArgs pretty as depth false afterCs')) := by
  cases a with
  | text s => exact ⟨[], depth, afterCs, Or.inl rfl, by simp [writeArgs, body]⟩
  | number v => exact ⟨[], depth, afterCs, Or.inl rfl, by simp [writeArgs, body]⟩
  | word w => exact ⟨[], depth, afterCs, Or.inl rfl, by simp [writeArgs, body]⟩
  | node n =>
    let afterCs' := afterCs || decide (n.keyword = utf8 "CS")
    let depth' := depth + 1 + if afterCs' && n.keyword = utf8 "AXIS" then 1 else 0
    refine ⟨indent pretty depth', depth', afterCs', Or.inr rfl, ?_⟩
    rw [writeArgs, List.append_assoc]
    rfl

theorem ends_writeArgs (as : List Arg) (depth : Nat) (afterCs : Bool) :
    Ends (writeArgs pretty as depth false afterCs ++ 0x5d :: rest) := by
  cases as with
  | nil => exact Or.inr rfl
  | cons a as =>
    obtain ⟨gap, depth', afterCs', -, heq⟩ :=
      exists_body pretty a as depth false afterCs
    rw [heq]
    exact Or.inl rfl

variable {nested : Bytes → Checked Error (Node × Bytes)}

theorem arg_text (hrest : Ends rest) :
    arg text nested (0x22 :: (escape s ++ 0x22 :: rest)) = .ok (.text s, rest) := by
  have hquote : rest.head? ≠ some 0x22 := fun h => by
    have hfalse := hrest.not (p := fun b => b = 0x22) ⟨rfl, rfl⟩ _ h
    cases hfalse
  have hdate := dateTime_none (s := 0x22 :: (escape s ++ 0x22 :: rest)) (by rintro b ⟨⟩; rfl)
  simp only [arg, hdate, if_true, quoted_escape _ hquote]

theorem isDate_convert (negative : Bool) (n : Numeral) (hrest : Ends rest) :
    isDate (convert negative n ++ rest) = false := by
  rw [Bool.eq_false_iff]
  intro hdate
  cases negative with
  | true =>
    obtain ⟨b, ⟨⟩, hdigit⟩ := digit_of_isDate hdate
    cases hdigit
  | false =>
    have htext : convert false n ++ rest = n.whole ++ (Numeral.fractionText n.fraction ++
        (Numeral.exponentText n.exponent ++ rest)) := by
      simp [convert, Numeral.text]
    have hdigit : NoDigit rest := hrest.not ⟨rfl, rfl⟩
    have hhead := head_of_isDate hdate
    rw [htext, dropWhile_digits n.whole_all
      (Angles.noDigit_fraction _ (Angles.noDigit_exponent _ hdigit))] at hhead
    cases hf : n.fraction with
    | some f => simp [hf, Numeral.fractionText] at hhead
    | none =>
      cases he : n.exponent with
      | some e => rcases e.isLetter with h | h <;>
          simp [hf, he, Numeral.fractionText, Numeral.exponentText, Exponent.text, h] at hhead
      | none =>
        simp only [hf, he, Numeral.fractionText, Numeral.exponentText, List.nil_append] at hhead
        rcases hrest with h | h <;> simp [h] at hhead

theorem head_convert (rest : Bytes) (negative : Bool) (n : Numeral) :
    ∃ b t, convert negative n ++ rest = b :: t ∧
    (isDigit b = true ∨ b = 0x2d ∨ b = 0x2e) := by
  cases negative with
  | true => exact ⟨0x2d, n.text ++ rest, rfl, Or.inr (Or.inl rfl)⟩
  | false =>
    have hne : n.text ≠ [] := by
      intro hnil
      have hstarts := Numeral.starts_text n []
      rw [hnil] at hstarts
      rcases hstarts with h | ⟨after, h, -⟩
      · exact h noDigit_nil
      · cases h
    obtain ⟨b, t, hcons⟩ := List.exists_cons_of_ne_nil hne
    refine ⟨b, t ++ rest, by simp [convert, hcons], ?_⟩
    have hhead : b ∈ (n.text ++ rest).head? := by
      rw [hcons]
      rfl
    rcases head_numeral n hhead with h | h
    · exact Or.inl h
    · exact Or.inr (Or.inr h)

theorem arg_number {v : F64} (hv : v.isFinite = true) (hrest : Ends rest) :
    arg text nested (number v ++ rest) = .ok (.number (reread v), rest) := by
  obtain ⟨negative, n, hn⟩ := exists_numeral hv
  have hread := parseF64_number hv
  have htoken := numberToken_convert negative n hrest
  have hdate : dateTime (convert negative n ++ rest) = none := by
    rw [dateTime, isDate_convert negative n hrest]
    rfl
  obtain ⟨b, t, hcons, hb⟩ := head_convert rest negative n
  have hquote : b ≠ 0x22 ∧ openQuote.isPrefixOf (b :: t) = false := by
    have hne : b ≠ 0x22 ∧ b ≠ 0xe2 := by
      rcases hb with h | rfl | rfl
      · exact ⟨Angles.isDigit_ne h rfl, Angles.isDigit_ne h rfl⟩
      · decide
      · decide
    refine ⟨hne.1, ?_⟩
    rw [openQuote, List.isPrefixOf_cons_cons]
    simp [hne.2.symm]
  have hnumber : (isDigit b || b = 0x2b || b = 0x2d || b = 0x2e) = true := by
    rcases hb with h | h | h <;> simp [h]
  rw [hn] at hread ⊢
  rw [hcons] at hdate htoken ⊢
  simp only [arg, hdate, if_neg hquote.1, hquote.2, Bool.false_eq_true, if_false, hnumber, if_true,
    htoken, hread]

/-! ## Words and dates -/

theorem alphabetic_ne {b : UInt8} (h : isAsciiAlphabetic b = true) :
    (b ≠ 0x22 ∧ b ≠ 0xe2 ∧ b ≠ 0x2b ∧ b ≠ 0x2d ∧ b ≠ 0x2e ∧ b ≠ 0x5d) ∧ isDigit b = false ∧
      isAsciiWhitespace b = false := by
  simp only [isAsciiAlphabetic, Bool.or_eq_true, Bool.and_eq_true, decide_eq_true_eq,
    UInt8.le_iff_toNat_le] at h
  have hne : ∀ c : UInt8, c.toNat < 0x41 ∨ 0x5a < c.toNat ∧ c.toNat < 0x61 ∨ 0x7a < c.toNat →
      b ≠ c := by
    rintro c hc rfl
    simp at h
    omega
  refine ⟨⟨hne _ (by decide), hne _ (by decide), hne _ (by decide), hne _ (by decide),
    hne _ (by decide), hne _ (by decide)⟩, ?_, ?_⟩
  · simp only [isDigit, UInt8.le_iff_toNat_le]
    simp at h ⊢
    omega
  · simp [isAsciiWhitespace, hne]

theorem digit_ne {b : UInt8} (h : isDigit b = true) : isAsciiWhitespace b = false ∧ b ≠ 0x5d := by
  refine ⟨?_, Angles.isDigit_ne h rfl⟩
  simp [isAsciiWhitespace, Angles.isDigit_ne h (c := 0x20) rfl,
    Angles.isDigit_ne h (c := 0x09) rfl, Angles.isDigit_ne h (c := 0x0a) rfl,
    Angles.isDigit_ne h (c := 0x0c) rfl, Angles.isDigit_ne h (c := 0x0d) rfl]

theorem arg_letter {b : UInt8} (hb : isAsciiAlphabetic b = true) :
    arg text nested (b :: s) =
      if (skipSpace (word (b :: s)).2).head? = some 0x5b ∨
          (skipSpace (word (b :: s)).2).head? = some 0x28 then
        (fun (n, s) => (.node n, s)) <$> nested (b :: s)
      else .ok (.word (word (b :: s)).1, skipSpace (word (b :: s)).2) := by
  obtain ⟨⟨hquote, hcurly, hplus, hminus, hpoint, -⟩, hdigit, -⟩ := alphabetic_ne hb
  have hdate : dateTime (b :: s) = none := dateTime_none (by rintro _ ⟨⟩; exact hdigit)
  have hopen : openQuote.isPrefixOf (b :: s) = false := by
    rw [openQuote, List.isPrefixOf_cons_cons]
    simp [hcurly.symm]
  have hnumber : (isDigit b || b = 0x2b || b = 0x2d || b = 0x2e) = false := by
    simp [hdigit, hplus, hminus, hpoint]
  simp only [arg, hdate, if_neg hquote, hopen, hnumber, hb, Bool.false_eq_true, if_false, if_true]

theorem arg_word {w : Bytes} (hw : IsWord w) (hrest : Ends rest) :
    arg text nested (w ++ rest) = .ok (.word w, rest) := by
  rcases hw with ⟨⟨b, hb, hletter⟩, hall⟩ | ⟨hdate, hall⟩
  · have hstop := hrest.not (p := isWordByte) ⟨rfl, rfl⟩
    have hword : word (w ++ rest) = (w, rest) :=
      Prod.ext (takeWhile_front hall hstop) (dropWhile_front hall hstop)
    have hspace := skipSpace_eq (hrest.not (p := isAsciiWhitespace) ⟨rfl, rfl⟩)
    have hnode : ¬ (rest.head? = some 0x5b ∨ rest.head? = some 0x28) := by
      rcases hrest with h | h <;> rw [h] <;> decide
    cases w with
    | nil => cases hb
    | cons c w =>
      obtain rfl := Option.some.inj hb
      rw [List.cons_append, arg_letter hletter, ← List.cons_append, hword]
      simp only [hspace]
      rw [if_neg hnode]
  · have hstop := hrest.not (p := fun b => !endsDate b) ⟨rfl, rfl⟩
    have hinside : ∀ b ∈ w, (!endsDate b) = true := fun b hb => by rw [hall b hb]; rfl
    have hwhole : isDate (w ++ rest) = true := 
      (isDate_append rest (length_of_isDate hdate)).trans hdate
    have hread : dateTime (w ++ rest) = some (w, rest) := by
      rw [dateTime, if_pos hwhole, takeWhile_front hinside hstop, dropWhile_front hinside hstop]
    simp only [arg, hread]

/-! ## Nodes -/

/-- How a reader of nodes must take what is written of them. -/
def ReadsNodes (pretty : Bool) (fits : Node → Prop)
    (nested : Bytes → Checked Error (Node × Bytes)) : Prop :=
  ∀ n, fits n → IsKeyword n.keyword ∧ ∀ depth rest, ∃ n',
    nested (writeNode pretty n depth ++ rest) = .ok (n', rest) ∧ n'.plain id = n.plain reread

theorem word_keyword {w : Bytes} (hw : IsKeyword w) (rest : Bytes) :
    word (w ++ 0x5b :: rest) = (w, 0x5b :: rest) := by
  have hstop : ∀ b ∈ (0x5b :: rest).head?, isWordByte b = false := by rintro _ ⟨⟩; rfl
  have hall : ∀ b ∈ w, isWordByte b = true := fun b hb => (hw.2 b hb).1
  exact Prod.ext (takeWhile_front hall hstop) (dropWhile_front hall hstop)

/-- An argument's first byte is neither white space nor the bracket. -/
theorem head_body {fits : Node → Prop} (hnode : ReadsNodes pretty fits nested) {a : Arg}
    (ha : a.Fits (·.isFinite = true) fits) (depth : Nat) (rest : Bytes) :
    ∀ b ∈ (body pretty depth a ++ rest).head?, isAsciiWhitespace b = false ∧ b ≠ 0x5d := by
  intro b hb
  cases a with
  | text s =>
    obtain rfl := Option.some.inj hb
    decide
  | number v =>
    obtain ⟨negative, n, hn⟩ := exists_numeral ha
    obtain ⟨c, t, hcons, hc⟩ := head_convert rest negative n
    rw [body, hn, hcons] at hb
    obtain rfl := Option.some.inj hb
    rcases hc with h | rfl | rfl
    · exact digit_ne h
    · decide
    · decide
  | word w =>
    have hhead : ∃ c ∈ w.head?, isAsciiAlphabetic c = true ∨ isDigit c = true := by
      rcases ha with ⟨⟨c, hc, h⟩, -⟩ | ⟨h, -⟩
      · exact ⟨c, hc, Or.inl h⟩
      · obtain ⟨c, hc, h⟩ := digit_of_isDate h
        exact ⟨c, hc, Or.inr h⟩
    obtain ⟨c, hc, h⟩ := hhead
    rw [body, List.head?_append_of_ne_nil _ (by rintro rfl; cases hc)] at hb
    obtain rfl := Option.some.inj (hc.symm.trans hb)
    rcases h with h | h
    · exact ⟨(alphabetic_ne h).2.2, (alphabetic_ne h).1.2.2.2.2.2⟩
    · exact digit_ne h
  | node n =>
    obtain ⟨keyword, args, offset⟩ := n
    have hkeyword : IsKeyword keyword := (hnode _ ha).1
    obtain ⟨⟨c, hc, h⟩, -⟩ := hkeyword
    rw [body, writeNode, List.append_assoc,
      List.head?_append_of_ne_nil _ (by rintro rfl; cases hc)] at hb
    obtain rfl := Option.some.inj (hc.symm.trans hb)
    exact ⟨(alphabetic_ne h).2.2, (alphabetic_ne h).1.2.2.2.2.2⟩

theorem arg_body (text : Bytes) {fits : Node → Prop} (hnode : ReadsNodes pretty fits nested)
    {a : Arg} (ha : a.Fits (·.isFinite = true) fits) (depth : Nat) (hrest : Ends rest) :
    ∃ a', arg text nested (body pretty depth a ++ rest) = .ok (a', rest) ∧
      plainArg id a' = plainArg reread a := by
  cases a with
  | text s =>
    refine ⟨.text s, ?_, rfl⟩
    rw [body, List.cons_append, List.append_assoc]
    exact arg_text hrest
  | number v => exact ⟨.number (reread v), arg_number ha hrest, rfl⟩
  | word w => exact ⟨.word w, arg_word ha hrest, rfl⟩
  | node n =>
    obtain ⟨keyword, args, offset⟩ := n
    have hkeyword : IsKeyword keyword := (hnode _ ha).1
    obtain ⟨n', hn', hplain⟩ := (hnode _ ha).2 depth rest
    refine ⟨.node n', ?_, by rw [plainArg, plainArg, hplain]⟩
    have hword := word_keyword hkeyword (writeArgs pretty args depth true false ++ [0x5d] ++ rest)
    obtain ⟨⟨b, hb, hletter⟩, -⟩ := hkeyword
    obtain ⟨w, rfl⟩ : ∃ w, keyword = b :: w := by
      cases keyword with
      | nil => cases hb
      | cons c w => exact ⟨w, by rw [Option.some.inj hb]⟩
    have hbody : writeNode pretty (.mk (b :: w) args offset) depth ++ rest =
        b :: (w ++ 0x5b :: (writeArgs pretty args depth true false ++ [0x5d] ++ rest)) := by
      simp [writeNode]
    rw [hbody] at hn'
    have hspace := skipSpace_eq (s := 0x5b :: (writeArgs pretty args depth true false ++ [0x5d] ++
      rest)) (by rintro _ ⟨⟩; rfl)
    rw [body, hbody, arg_letter hletter, ← List.cons_append, hword, hspace,
      if_pos (Or.inl List.head?_cons), List.cons_append, hn']
    rfl

theorem writeArgs_comma (a : Arg) (as : List Arg) (depth : Nat) (afterCs : Bool) :
    writeArgs pretty (a :: as) depth false afterCs =
      0x2c :: writeArgs pretty (a :: as) depth true afterCs := by
  cases a <;> rfl

theorem length_le_writeArgs (pretty : Bool) (as : List Arg) (depth : Nat) (afterCs : Bool) :
    as.length ≤ (writeArgs pretty as depth true afterCs).length + 1 := by
  induction as generalizing afterCs with
  | nil => exact Nat.zero_le _
  | cons a as ih =>
    obtain ⟨gap, depth', afterCs', -, heq⟩ :=
      exists_body pretty a as depth true afterCs
    have hle := ih afterCs'
    rw [heq]
    cases as with
    | nil => simp
    | cons b as =>
      rw [writeArgs_comma]
      simp only [if_true, List.nil_append, List.length_append, List.length_cons] at hle ⊢
      omega

theorem skipSpace_idem (s : Bytes) : skipSpace (skipSpace s) = skipSpace s := by
  refine skipSpace_eq fun b hb => ?_
  have hnot := List.head?_dropWhile_not isAsciiWhitespace s
  rw [skipSpace, Option.mem_def] at hb
  rw [hb] at hnot
  simpa using hnot

theorem skipSpace_writeArgs {fits : Node → Prop} (hnode : ReadsNodes pretty fits nested) {a : Arg}
    (ha : a.Fits (·.isFinite = true) fits) (as : List Arg) (depth : Nat) (afterCs : Bool)
    (rest : Bytes) : ∃ depth' afterCs', skipSpace
      (writeArgs pretty (a :: as) depth true afterCs ++ 0x5d :: rest) =
      body pretty depth' a ++ (writeArgs pretty as depth false afterCs' ++ 0x5d :: rest) := by
  obtain ⟨gap, depth', afterCs', hgap, heq⟩ :=
    exists_body pretty a as depth true afterCs
  have hhead := head_body hnode ha depth' (writeArgs pretty as depth false afterCs' ++ 0x5d :: rest)
  refine ⟨depth', afterCs', ?_⟩
  rw [heq, if_pos rfl, List.nil_append, List.append_assoc, List.append_assoc]
  rcases hgap with rfl | rfl
  · exact skipSpace_eq fun b hb => (hhead b hb).1
  · exact skipSpace_indent _ _ fun b hb => (hhead b hb).1

/-- The loop reads what the writer's loop wrote, the first argument without a comma. -/
theorem args_writeArgs (text : Bytes) {fits : Node → Prop} (hnode : ReadsNodes pretty fits nested)
    (keyword : Bytes) {as : List Arg} (hne : as ≠ [])
    (has : ∀ a ∈ as, a.Fits (·.isFinite = true) fits) (depth fuel : Nat)
    (hfuel : as.length ≤ fuel)
    (hs : skipSpace s = skipSpace (writeArgs pretty as depth true afterCs ++ 0x5d :: rest)) :
    ∃ as', args text nested keyword 0x5d fuel s = .ok (as', rest) ∧
      plainArgs id as' = plainArgs reread as := by
  induction as generalizing fuel afterCs s with
  | nil => exact absurd rfl hne
  | cons a as ih =>
    have hcons : (a :: as).length = as.length + 1 := rfl
    obtain ⟨fuel, rfl⟩ : ∃ k, fuel = k + 1 := Nat.exists_eq_add_one.2 (by omega)
    have ha := has a List.mem_cons_self
    obtain ⟨depth', afterCs', hstart⟩ :=
      skipSpace_writeArgs hnode ha as depth afterCs rest
    have hends : Ends (writeArgs pretty as depth false afterCs' ++ 0x5d :: rest) :=
      ends_writeArgs as depth afterCs'
    obtain ⟨a', ha', hplain⟩ := arg_body text hnode ha depth' hends
    have hafter := skipSpace_eq (hends.not (p := isAsciiWhitespace) ⟨rfl, rfl⟩)
    rw [args, hs, hstart, ha']
    simp only [bind, Except.bind, hafter]
    cases as with
    | nil => exact ⟨[a'], rfl, by rw [plainArgs, plainArgs, plainArgs, plainArgs, hplain]⟩
    | cons b as =>
      have hsame : skipSpace (writeArgs pretty (b :: as) depth true afterCs' ++ 0x5d :: rest) =
          skipSpace (writeArgs pretty (b :: as) depth true afterCs' ++ 0x5d :: rest) := rfl
      obtain ⟨as', has', hplains⟩ := ih (List.cons_ne_nil b as)
        (fun c hc => has c (List.mem_cons_of_mem a hc)) fuel (by omega) hsame
      refine ⟨a' :: as', ?_, by rw [plainArgs, plainArgs, hplain, hplains]⟩
      rw [writeArgs_comma]
      simp only [List.cons_append, if_true, has']

/-- By induction on the levels: the nodes inside are read by the reader with one fewer. -/
theorem readsNodes_node (text : Bytes) (pretty : Bool) (levels : Nat) :
    ReadsNodes pretty (Node.Fits (·.isFinite = true) levels) (node text levels) := by
  induction levels with
  | zero => exact fun n hn => False.elim hn
  | succ levels ih =>
    rintro ⟨keyword, as, offset⟩ hn
    have hkeyword : IsKeyword keyword := hn.1
    have has : ∀ a ∈ as, a.Fits (·.isFinite = true) (Node.Fits (·.isFinite = true) levels) := hn.2
    refine ⟨hkeyword, fun depth rest => ?_⟩
    have hword := word_keyword hkeyword (writeArgs pretty as depth true false ++ 0x5d :: rest)
    have hspace := skipSpace_eq (s := 0x5b :: (writeArgs pretty as depth true false ++
      0x5d :: rest)) (by rintro _ ⟨⟩; rfl)
    have hhead : (!(keyword ++ 0x5b :: (writeArgs pretty as depth true false ++
        0x5d :: rest)).head?.any isAsciiAlphabetic) = false := by
      obtain ⟨⟨b, hb, hletter⟩, -⟩ := hkeyword
      rw [List.head?_append_of_ne_nil _ (by rintro rfl; cases hb), Option.mem_def.1 hb]
      simp [hletter]
    have hupper : keyword.map toAsciiUppercase = keyword := by
      conv_rhs => rw [← List.map_id keyword]
      exact List.map_congr_left fun b hb => (hkeyword.2 b hb).2
    have htext : writeNode pretty (.mk keyword as offset) depth ++ rest =
        keyword ++ 0x5b :: (writeArgs pretty as depth true false ++ 0x5d :: rest) := by
      simp [writeNode]
    rw [htext, node.eq_def]
    simp only [hhead, Bool.false_eq_true, if_false, hword, hspace, hupper]
    generalize text.length - _ = offset'
    rw [if_neg (by decide)]
    simp only [if_true]
    cases as with
    | nil =>
      have hclose : skipSpace (0x5d :: rest) = 0x5d :: rest := skipSpace_eq (by rintro _ ⟨⟩; rfl)
      refine ⟨.mk keyword [] offset', ?_, rfl⟩
      simp only [writeArgs, List.nil_append, hclose]
      rfl
    | cons a as =>
      have ha := has a List.mem_cons_self
      have hopen : (skipSpace (writeArgs pretty (a :: as) depth true false ++
          0x5d :: rest)).head? ≠ some 0x5d := by
        obtain ⟨depth', afterCs', hstart⟩ := skipSpace_writeArgs ih ha as depth false rest
        rw [hstart]
        exact fun h => (head_body ih ha depth' _ _ h).2 rfl
      have hlen := length_le_writeArgs pretty (a :: as) depth false
      have hsame := skipSpace_idem (writeArgs pretty (a :: as) depth true false ++ 0x5d :: rest)
      obtain ⟨as', has', hplain⟩ := args_writeArgs text ih keyword (List.cons_ne_nil a as) has depth
        ((writeArgs pretty (a :: as) depth true false ++ 0x5d :: rest).length + 1)
        (by rw [List.length_append]; omega) hsame
      refine ⟨.mk keyword as' offset', ?_, by rw [Node.plain, Node.plain, hplain]⟩
      rw [if_neg hopen, has']
      rfl

/-! ## One object -/

theorem plainArgs_eq_map (f : F64 → F64) (as : List Arg) :
    plainArgs f as = as.map (plainArg f) := by
  induction as with
  | nil => rfl
  | cons a as ih => rw [plainArgs, ih, List.map_cons]

theorem isVertcs_plain (f : F64 → F64) (a : Arg) : (plainArg f a).isVertcs = a.isVertcs := by
  cases a with
  | node n => cases n; rfl
  | text s => rfl
  | number v => rfl
  | word w => rfl

/-- Which argument is taken out does not depend on the numbers. -/
theorem lifted_plain (f : F64 → F64) (n : Node) : n.lifted.plain f = (n.plain f).lifted := by
  obtain ⟨keyword, args, offset⟩ := n
  have hcomp : Arg.isVertcs ∘ plainArg f = Arg.isVertcs := funext (isVertcs_plain f)
  have hplain : (Node.mk keyword args offset).plain f = .mk keyword (args.map (plainArg f)) 0 := by
    rw [Node.plain, plainArgs_eq_map]
  have hfind : (args.map (plainArg f)).find? Arg.isVertcs =
      (args.find? Arg.isVertcs).map (plainArg f) := by
    rw [List.find?_map, hcomp]
  have herase : (args.map (plainArg f)).eraseP Arg.isVertcs =
      (args.eraseP Arg.isVertcs).map (plainArg f) := by
    rw [List.eraseP_map, hcomp]
  rw [hplain, Node.lifted, Node.lifted]
  simp only [Node.args, hfind]
  cases args.find? Arg.isVertcs with
  | none => exact hplain
  | some vertical =>
    simp only [Option.map_some, herase]
    have hhorizontal : (Node.mk keyword (args.map (plainArg f)) 0).isHorizontal =
        (Node.mk keyword args offset).isHorizontal := rfl
    rw [hhorizontal]
    split
    · rw [compound, compound, Node.plain, plainArgs_eq_map]
      simp only [List.map_cons, List.map_nil, plainArg, Node.plain, plainArgs_eq_map]
    · exact hplain

/-- A tree that was written is read, with its offsets in the new text. -/
theorem exists_parse_format {n : Node} (hn : n.Fits (·.isFinite = true) (MAX_DEPTH + 1))
    (pretty : Bool) :
    ∃ n' : Node, parse (format n pretty) = .ok n'.lifted ∧ n'.plain id = n.plain reread := by
  obtain ⟨hkeyword, hread⟩ := readsNodes_node (format n pretty) pretty _ n hn
  obtain ⟨n', hn', hplain⟩ := hread 0 []
  refine ⟨n', ?_, hplain⟩
  have hspace : skipSpace (format n pretty) = format n pretty := by
    obtain ⟨keyword, args, offset⟩ := n
    obtain ⟨⟨b, hb, hletter⟩, -⟩ := hkeyword
    have hb : b ∈ keyword.head? := hb
    refine skipSpace_eq fun c hc => ?_
    rw [format, writeNode, List.head?_append_of_ne_nil _ (by rintro rfl; cases hb)] at hc
    obtain rfl := Option.some.inj (hb.symm.trans hc)
    exact (alphabetic_ne hletter).2.2
  rw [List.append_nil, ← format] at hn'
  rw [parse, hspace, hn']
  rfl

/-- A tree whose numbers writing does not change. -/
theorem plain_reread : ∀ {levels : Nat} {n : Node}, n.Fits (·.isFinite = true) levels →
    n.Fits Kept levels → n.plain reread = n.plain id
  | 0, _, h, _ => False.elim h
  | levels + 1, .mk keyword args offset, h, hkept => by
    have h : ∀ a ∈ args, a.Fits (·.isFinite = true) (Node.Fits (·.isFinite = true) levels) := h.2
    have hkept : ∀ a ∈ args, a.Fits Kept (Node.Fits Kept levels) := hkept.2
    rw [Node.plain, Node.plain, plainArgs_eq_map, plainArgs_eq_map]
    congr 1
    refine List.map_congr_left fun a ha => ?_
    have ha' := h a ha
    have hk := hkept a ha
    cases a with
    | text s => rfl
    | number v => exact congrArg Arg.number (reread_eq ha' hk)
    | word w => rfl
    | node n => exact congrArg Arg.node (plain_reread ha' hk)

/-- Every tree of the syntax is read back from what `format` writes, on one line or
indented: the numbers as the digits written say, so those with few digits as they were. -/
theorem parse_format (n : Node) (pretty : Bool)
    (hn : n.Fits (·.isFinite = true) (MAX_DEPTH + 1)) :
    (parse (format n pretty)).map (Node.plain id) = .ok (n.plain reread).lifted ∧
      (n.Fits Kept (MAX_DEPTH + 1) →
        (parse (format n pretty)).map (Node.plain id) = .ok (n.plain id).lifted) := by
  obtain ⟨n', hn', hplain⟩ := exists_parse_format hn pretty
  have hread : (parse (format n pretty)).map (Node.plain id) = .ok (n.plain reread).lifted := by
    rw [hn', Except.map, lifted_plain, hplain]
  exact ⟨hread, fun hkept => by rw [hread, plain_reread hn hkept]⟩

/-- `AXIS["x ""1""",east,ORDER[1]]`. -/
def axis : Node :=
  .mk (utf8 "AXIS") [.text (utf8 "x \"1\""), .word (utf8 "east"),
    .node (.mk (utf8 "ORDER") [.number ⟨0x3ff0000000000000⟩] 0)] 0

theorem fits_axis {P : F64 → Prop} (h : P ⟨0x3ff0000000000000⟩) :
    axis.Fits P (MAX_DEPTH + 1) := by
  have horder : (Node.mk (utf8 "ORDER") [.number ⟨0x3ff0000000000000⟩] 0).Fits P MAX_DEPTH :=
    ⟨⟨⟨0x4f, rfl, rfl⟩, by decide +kernel⟩, by simpa [Node.args, Arg.Fits] using h⟩
  refine ⟨⟨⟨0x41, rfl, rfl⟩, by decide +kernel⟩, ?_⟩
  have heast : IsWord (utf8 "east") := Or.inl ⟨⟨0x65, rfl, rfl⟩, by decide +kernel⟩
  simpa [axis, Node.args, Arg.Fits] using ⟨heast, horder⟩

theorem parse_format_axis :
    (parse (format axis true)).map (Node.plain id) = .ok (axis.plain id).lifted :=
  (parse_format axis true (fits_axis (by decide +kernel))).2
    (fits_axis (Or.inr ⟨by decide +kernel, by decide +kernel⟩))

end Xeibe.Reproject.Wkt

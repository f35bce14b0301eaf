import Xeibe.Lib.Glob

/-!
# UTF-8 as a code

The encoding of characters is a prefix code that synchronises itself: a suffix
of an encoded text is the encoding of a suffix, or starts inside a character.
That is why globs may be matched over bytes.
-/

namespace Xeibe.Lib.Utf8

open String (utf8EncodeChar)

/-- The bytes of a text. -/
def encode (text : List Char) : List UInt8 := text.flatMap utf8EncodeChar

@[simp] theorem encode_nil : encode [] = [] := rfl

@[simp] theorem encode_cons (c : Char) (text : List Char) :
    encode (c :: text) = utf8EncodeChar c ++ encode text := rfl

@[simp] theorem encode_append (a b : List Char) : encode (a ++ b) = encode a ++ encode b := by
  simp [encode]

theorem encode_suffix {a b : List Char} (h : a <:+ b) : encode a <:+ encode b := by
  obtain ⟨before, rfl⟩ := h
  exact ⟨encode before, (encode_append before a).symm⟩

theorem char_unique {c d : Char} {u v : List UInt8}
    (h : utf8EncodeChar c ++ u = utf8EncodeChar d ++ v) : c = d := by
  have hc := ByteArray.utf8DecodeChar?_utf8EncodeChar_append (b := u.toByteArray) (c := c)
  have hd := ByteArray.utf8DecodeChar?_utf8EncodeChar_append (b := v.toByteArray) (c := d)
  rw [← List.toByteArray_append, h, List.toByteArray_append, hd] at hc
  exact (Option.some.inj hc).symm

theorem char_append_eq {c : Char} {text : List Char} {u : List UInt8}
    (h : utf8EncodeChar c ++ u = encode text) : ∃ rest, text = c :: rest ∧ u = encode rest := by
  cases text with
  | nil =>
    exfalso
    have : utf8EncodeChar c = [] := (List.append_eq_nil_iff.mp h).1
    exact String.utf8EncodeChar_ne_nil this
  | cons d rest =>
    rw [encode_cons] at h
    have hc := char_unique h
    subst hc
    exact ⟨rest, rfl, List.append_cancel_left h⟩

theorem encode_injective : Function.Injective encode := by
  intro a b h
  induction a generalizing b with
  | nil =>
    cases b with
    | nil => rfl
    | cons d b => exact absurd (List.append_eq_nil_iff.mp h.symm).1 String.utf8EncodeChar_ne_nil
  | cons c a ih =>
    obtain ⟨rest, rfl, hr⟩ := char_append_eq h
    rw [ih hr]

/-- A byte below 128 is a character of its own. -/
theorem eq_singleton_of_ascii {c : Char} {b : UInt8} (hb : b ∈ utf8EncodeChar c)
    (h : b &&& 0x80 = 0) : utf8EncodeChar c = [b] := by
  have high (x y : UInt8) (hy : y &&& 0x80 ≠ 0) : (x ||| y) &&& 0x80 ≠ 0 := by
    have absorb : y &&& (x ||| y) = y := by
      rw [← UInt8.toBitVec_inj]
      ext i
      simp only [UInt8.toBitVec_and, UInt8.toBitVec_or, BitVec.getElem_and, BitVec.getElem_or]
      cases y.toBitVec[i] <;> simp
    intro h
    rw [← absorb, UInt8.and_assoc, h, UInt8.and_zero] at hy
    exact hy rfl
  match hs : c.utf8Size, c.utf8Size_pos, c.utf8Size_le_four with
  | 1, _, _ =>
    rw [String.utf8EncodeChar_eq_singleton hs] at hb ⊢
    rw [List.mem_singleton.mp hb]
  | 2, _, _ =>
    rw [String.utf8EncodeChar_eq_cons_cons hs] at hb
    simp only [List.mem_cons, List.not_mem_nil, or_false] at hb
    rcases hb with rfl | rfl <;> exact absurd h (high _ _ (by decide))
  | 3, _, _ =>
    rw [String.utf8EncodeChar_eq_cons_cons_cons hs] at hb
    simp only [List.mem_cons, List.not_mem_nil, or_false] at hb
    rcases hb with rfl | rfl | rfl <;> exact absurd h (high _ _ (by decide))
  | 4, _, _ =>
    rw [String.utf8EncodeChar_eq_cons_cons_cons_cons hs] at hb
    simp only [List.mem_cons, List.not_mem_nil, or_false] at hb
    rcases hb with rfl | rfl | rfl | rfl <;> exact absurd h (high _ _ (by decide))

theorem not_mem_of_ne {c mark : Char} {b : UInt8} (hm : utf8EncodeChar mark = [b])
    (hb : b &&& 0x80 = 0) (h : c ≠ mark) : b ∉ utf8EncodeChar c := by
  intro hc
  have he := eq_singleton_of_ascii hc hb
  exact h (char_unique (u := []) (v := []) (by rw [he, hm]))

theorem mem_encode {text : List Char} {mark : Char} {b : UInt8}
    (hm : utf8EncodeChar mark = [b]) (hb : b &&& 0x80 = 0) : b ∈ encode text ↔ mark ∈ text := by
  simp only [encode, List.mem_flatMap]
  constructor
  · rintro ⟨c, hc, hin⟩
    by_cases h : c = mark
    · exact h ▸ hc
    · exact absurd hin (not_mem_of_ne hm hb h)
  · intro h
    exact ⟨mark, h, by simp [hm]⟩

theorem head_encode {text : List Char} {mark : Char} {b : UInt8}
    (hm : utf8EncodeChar mark = [b]) (hb : b &&& 0x80 = 0) :
    (encode text).head? = some b ↔ text.head? = some mark := by
  cases text with
  | nil => simp
  | cons c text =>
    have hne : utf8EncodeChar c ≠ [] := String.utf8EncodeChar_ne_nil
    rw [encode_cons, List.head?_append_of_ne_nil _ hne, List.head?_cons, Option.some.injEq]
    constructor
    · intro h
      by_contra hc
      exact not_mem_of_ne hm hb hc (List.mem_of_mem_head? h)
    · rintro rfl
      simp [hm]

/-! ## Suffixes -/

theorem first_byte {c : Char} {b : UInt8} {rest : List UInt8}
    (h : utf8EncodeChar c = b :: rest) : b.IsUTF8FirstByte := by
  have hi : 0 < (utf8EncodeChar c).length := by simp [h]
  have hb : (utf8EncodeChar c)[0] = b := by simp [h]
  rw [← hb]
  exact UInt8.isUTF8FirstByte_getElem_utf8EncodeChar.mpr rfl

theorem inner_byte {c : Char} {b : UInt8} {before rest : List UInt8} (hne : before ≠ [])
    (h : utf8EncodeChar c = before ++ b :: rest) : ¬ b.IsUTF8FirstByte := by
  have hi : before.length < (utf8EncodeChar c).length := by simp [h]
  have hb : (utf8EncodeChar c)[before.length] = b := by simp [h]
  rw [← hb, UInt8.isUTF8FirstByte_getElem_utf8EncodeChar]
  simpa using hne

/-- A suffix of an encoded text is an encoded suffix or starts inside a character. -/
theorem suffix_cases {text : List Char} {u : List UInt8} (h : u <:+ encode text) :
    (∃ rest, rest <:+ text ∧ u = encode rest) ∨ ∃ b ∈ u.head?, ¬ b.IsUTF8FirstByte := by
  induction text with
  | nil => exact .inl ⟨[], List.suffix_rfl, by simpa using h⟩
  | cons c text ih =>
    obtain ⟨before, hb⟩ := h
    rw [encode_cons, List.append_eq_append_iff] at hb
    rcases hb with ⟨part, hc, rfl⟩ | ⟨part, -, hs⟩
    · by_cases hne : before = []
      · refine .inl ⟨c :: text, List.suffix_rfl, ?_⟩
        rw [encode_cons, hc, hne, List.nil_append]
      · cases part with
        | nil => exact .inl ⟨text, List.suffix_cons c text, rfl⟩
        | cons b part => exact .inr ⟨b, rfl, inner_byte hne hc⟩
    · rcases ih ⟨part, hs.symm⟩ with ⟨rest, hr, rfl⟩ | inside
      · exact .inl ⟨rest, hr.trans (List.suffix_cons c text), rfl⟩
      · exact .inr inside

theorem suffix_ascii {text : List Char} (ha : ∀ c ∈ text, c.utf8Size = 1) {u : List UInt8}
    (h : u <:+ encode text) : ∃ rest, rest <:+ text ∧ u = encode rest := by
  induction text with
  | nil => exact ⟨[], List.suffix_rfl, by simpa using h⟩
  | cons c text ih =>
    rw [encode_cons, String.utf8EncodeChar_eq_singleton (ha c (by simp)), List.singleton_append,
      List.suffix_cons_iff] at h
    rcases h with rfl | h
    · refine ⟨c :: text, List.suffix_rfl, ?_⟩
      rw [encode_cons, String.utf8EncodeChar_eq_singleton (ha c (by simp)), List.singleton_append]
    · obtain ⟨rest, hr, rfl⟩ := ih (fun d hd => ha d (List.mem_cons_of_mem c hd)) h
      exact ⟨rest, hr.trans (List.suffix_cons c text), rfl⟩

/-! ## Globs over bytes -/

section Glob

open Xeibe.Lib.Glob

/-- The marks of a pattern over characters are one byte each over bytes. -/
structure Marks (star any : Char) (starByte anyByte : UInt8) : Prop where
  star_eq : utf8EncodeChar star = [starByte]
  any_eq : utf8EncodeChar any = [anyByte]
  star_ascii : starByte &&& 0x80 = 0
  any_ascii : anyByte &&& 0x80 = 0
  ne : any ≠ star

variable {star any : Char} {starByte anyByte : UInt8}

theorem Marks.ne_byte (hm : Marks star any starByte anyByte) : anyByte ≠ starByte := by
  intro h
  refine hm.ne (char_unique (u := []) (v := []) ?_)
  rw [hm.star_eq, hm.any_eq, h]

theorem Marks.plain (hm : Marks star any starByte anyByte) {c : Char} (hs : c ≠ star)
    (ha : c ≠ any) : ∀ b ∈ utf8EncodeChar c, b ≠ starByte ∧ b ≠ anyByte := by
  intro b hb
  constructor
  · rintro rfl
    exact not_mem_of_ne hm.star_eq hm.star_ascii hs hb
  · rintro rfl
    exact not_mem_of_ne hm.any_eq hm.any_ascii ha hb

/-- Where a pattern may be read over bytes as over characters: it asks for no single
arbitrary character, or the text has none of more than one byte. -/
def Readable (any : Char) (pattern text : List Char) : Prop :=
  any ∉ pattern ∨ ∀ c ∈ text, c.utf8Size = 1

theorem Readable.suffixes {pattern text p t : List Char} (h : Readable any pattern text)
    (hp : p <:+ pattern) (ht : t <:+ text) : Readable any p t := by
  rcases h with h | h
  · exact .inl fun hin => h (hp.subset hin)
  · exact .inr fun c hc => h c (ht.subset hc)

/-- What a pattern matches somewhere in a text it matches from a character on. -/
theorem exists_boundary (hm : Marks star any starByte anyByte) {pattern text : List Char}
    (hr : Readable any pattern text) {u : List UInt8} (hu : u <:+ encode text)
    (h : u ∈ language (ofPattern starByte anyByte (encode pattern))) :
    ∃ rest, rest <:+ text ∧
      encode rest ∈ language (ofPattern starByte anyByte (encode pattern)) := by
  rcases hr with hq | ha
  swap
  · obtain ⟨rest, hs, rfl⟩ := suffix_ascii ha hu
    exact ⟨rest, hs, h⟩
  -- a pattern that does not start with a run starts with the first byte of a character
  induction pattern generalizing u with
  | nil => exact ⟨[], List.nil_suffix, by simp⟩
  | cons c pattern ih =>
    have hq' : any ∉ pattern := fun hin => hq (List.mem_cons_of_mem c hin)
    by_cases hc : c = star
    · subst hc
      rw [encode_cons, hm.star_eq, List.singleton_append, ofPattern_star] at h ⊢
      obtain ⟨v, hv, hin⟩ := mem_run.mp h
      obtain ⟨rest, hs, hrest⟩ := ih (hv.trans hu) hin hq'
      exact ⟨rest, hs, mem_run.mpr ⟨_, List.suffix_rfl, hrest⟩⟩
    · rcases suffix_cases hu with ⟨rest, hs, rfl⟩ | ⟨b, hb, hinside⟩
      · exact ⟨rest, hs, h⟩
      · exfalso
        have hca : c ≠ any := fun he => hq (by simp [he])
        rw [encode_cons, mem_literal (hm.plain hc hca)] at h
        obtain ⟨v, -, rfl⟩ := h
        cases hl : utf8EncodeChar c with
        | nil => exact String.utf8EncodeChar_ne_nil hl
        | cons first rest =>
          have : first = b := by simpa [hl] using hb
          exact hinside (this ▸ first_byte hl)

/-- A glob over characters is matched over bytes. -/
theorem encode_mem_iff (hm : Marks star any starByte anyByte) {pattern text : List Char}
    (hr : Readable any pattern text) :
    encode text ∈ language (ofPattern starByte anyByte (encode pattern)) ↔
      text ∈ language (ofPattern star any pattern) := by
  induction pattern generalizing text with
  | nil =>
    rw [encode_nil, ofPattern_nil, ofPattern_nil, mem_nil, mem_nil]
    exact ⟨fun h => encode_injective h, fun h => by rw [h, encode_nil]⟩
  | cons c pattern ih =>
    by_cases hc : c = star
    · subst hc
      rw [encode_cons, hm.star_eq, List.singleton_append, ofPattern_star, ofPattern_star,
        mem_run, mem_run]
      constructor
      · rintro ⟨u, hu, h⟩
        obtain ⟨rest, hs, hrest⟩ := exists_boundary hm (hr.suffixes (List.suffix_cons _ pattern) List.suffix_rfl) hu h
        exact ⟨rest, hs, (ih (hr.suffixes (List.suffix_cons _ pattern) hs)).mp hrest⟩
      · rintro ⟨rest, hs, h⟩
        exact ⟨encode rest, encode_suffix hs, (ih (hr.suffixes (List.suffix_cons _ pattern) hs)).mpr h⟩
    · by_cases ha : c = any
      · subst ha
        -- one arbitrary byte is one arbitrary character where every character is a byte
        have hsize : ∀ d ∈ text, d.utf8Size = 1 := hr.resolve_left (by simp)
        rw [encode_cons, hm.any_eq, List.singleton_append, mem_any hm.ne_byte, mem_any hm.ne]
        cases text with
        | nil => simp
        | cons d rest =>
          have hd := String.utf8EncodeChar_eq_singleton (hsize d (by simp))
          have := ih (hr.suffixes (List.suffix_cons _ pattern) (List.suffix_cons d rest))
          simp only [encode_cons, hd, List.singleton_append, List.cons.injEq]
          constructor
          · rintro ⟨b, u, hu, rfl, rfl⟩
            exact ⟨d, rest, this.mp hu, rfl, rfl⟩
          · rintro ⟨_, _, hu, rfl, rfl⟩
            exact ⟨_, _, this.mpr hu, rfl, rfl⟩
      · rw [encode_cons, mem_literal (hm.plain hc ha), mem_letter hc]
        simp only [ha, false_or, exists_eq_left]
        constructor
        · rintro ⟨u, hu, he⟩
          obtain ⟨rest, rfl, rfl⟩ := char_append_eq he.symm
          exact ⟨rest, (ih (hr.suffixes (List.suffix_cons _ pattern) (List.suffix_cons c rest))).mp hu, rfl⟩
        · rintro ⟨rest, hrest, rfl⟩
          exact ⟨encode rest, (ih (hr.suffixes (List.suffix_cons _ pattern) (List.suffix_cons c rest))).mpr hrest, rfl⟩

end Glob

end Xeibe.Lib.Utf8

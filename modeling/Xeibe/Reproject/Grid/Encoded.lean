import Mathlib.Logic.Relation
import Xeibe.Lib.BitString
import Xeibe.Reproject.Grid.Lzw

/-!
# What an LZW encoder writes is decoded

The encoder of TIFF 6.0, with its table as the list of the strings added.  The
decoder's table is one entry behind while a string is read, and has caught up
when it was: the entry it adds then is the one that the encoder added before.
-/

namespace Xeibe.Reproject.Grid.Lzw

open Xeibe.Lib
open Xeibe.Lib.Checked

/-! ## Encoding -/

/-- The width of a code when `next` is the code of the next entry: wider once
the entry before it was added. -/
def widthFor (next : Nat) : Nat :=
  if 2048 ≤ next then 12
  else if 1024 ≤ next then 11
  else if 512 ≤ next then 10
  else 9

/-- A single byte, or a string that was added. -/
def isKnown (table : List (List UInt8)) (text : List UInt8) : Bool :=
  text.length = 1 || table.contains text

def codeOf (table : List (List UInt8)) : List UInt8 → Nat
  | [b] => b.toNat
  | text => first + table.idxOf text

/-- The codes with their widths, for the string `text` that was read and what
comes after it.  The table is full, and cleared, with `full` as its next code;
the last code counts for the width of the end code. -/
def codes (full : Nat) : List (List UInt8) → List UInt8 → List UInt8 → List (Nat × Nat)
  | table, text, [] =>
    if text = [] then [(end_, widthFor (first + table.length))]
    else
      [(codeOf table text, widthFor (first + table.length)),
        (end_, widthFor (first + table.length + 1))]
  | table, text, b :: rest =>
    if isKnown table (text ++ [b]) then codes full table (text ++ [b]) rest
    else
      let table' := table ++ [text ++ [b]]
      (codeOf table text, widthFor (first + table.length)) ::
        if first + table'.length = full then
          (clear, widthFor full) :: codes full [] [b] rest
        else
          codes full table' [b] rest

def bitsOf (codes : List (Nat × Nat)) : List Bool := codes.flatMap fun c => toBits c.2 c.1

def encode (full : Nat) (data : List UInt8) : List UInt8 :=
  pack (bitsOf ((clear, 9) :: codes full [] [] data))

theorem widthFor_bounds (next : Nat) : 9 ≤ widthFor next ∧ widthFor next ≤ 12 := by
  unfold widthFor
  split
  · omega
  · split
    · omega
    · split <;> omega

theorem lt_widthFor {next code : Nat} (hcode : code < next) (hnext : next ≤ maxCodes) :
    code < 2 ^ widthFor next := by
  unfold maxCodes at hnext
  unfold widthFor
  split
  · omega
  · split
    · omega
    · split <;> omega

/-! ## Reading a code -/

/-- The bits that are still to come. -/
def State.stream (s : State) : List Bool := toBits s.nbits s.bits ++ unpack s.bytes

/-- Less than a byte was read that no code has used. -/
def State.Aligned (s : State) : Prop := s.nbits < 8 ∧ s.bits < 2 ^ s.nbits

theorem refill_stream {width : Nat} (hwidth : width ≤ 12) {bits nbits : Nat} {bytes : List UInt8}
    (hbits : bits < 2 ^ nbits) (hnbits : nbits < width + 8)
    (h : width ≤ (toBits nbits bits ++ unpack bytes).length) :
    ∃ bits' nbits' bytes', refill width bits nbits bytes = some (bits', nbits', bytes') ∧
      width ≤ nbits' ∧ nbits' < width + 8 ∧ bits' < 2 ^ nbits' ∧
      toBits nbits' bits' ++ unpack bytes' = toBits nbits bits ++ unpack bytes := by
  induction bytes generalizing bits nbits with
  | nil =>
    have hle : width ≤ nbits := by simpa [unpack] using h
    exact ⟨bits, nbits, [], by rw [refill, if_neg (by omega)], hle, hnbits, hbits, rfl⟩
  | cons b bytes ih =>
    rw [refill]
    by_cases hlt : nbits < width
    · have hb := b.toNat_lt
      have hnext : bits * 256 + b.toNat < 2 ^ (nbits + 8) := by
        rw [Nat.pow_add]
        omega
      have hword : bits * 256 + b.toNat < 2 ^ 32 :=
        Nat.lt_of_lt_of_le hnext (Nat.pow_le_pow_right (by decide) (by omega))
      have hstream : toBits (nbits + 8) (bits * 256 + b.toNat) ++ unpack bytes =
          toBits nbits bits ++ unpack (b :: bytes) := by
        rw [Nat.mul_comm, show 256 = 2 ^ 8 from rfl, ← toBits_append _ _ _ hb, List.append_assoc]
        rfl
      rw [if_pos hlt, Nat.mod_eq_of_lt hword, ← hstream]
      exact ih hnext (by omega) (by rw [hstream]; exact h)
    · rw [if_neg hlt]
      exact ⟨bits, nbits, b :: bytes, rfl, by omega, hnbits, hbits, rfl⟩

/-- The step for a code, with the bits after it. -/
theorem State.step_eq {s : State} (hs : s.Aligned) (hwidth : 9 ≤ s.width ∧ s.width ≤ 12)
    {code : Nat} {tail : List Bool} (hcode : code < 2 ^ s.width)
    (hstream : s.stream = toBits s.width code ++ tail) :
    ∃ bits nbits bytes,
      let s' := { s with bits := bits, nbits := nbits, bytes := bytes }
      s'.stream = tail ∧ s'.Aligned ∧
      s.step = if code = end_ then .ok (.inr s.out)
        else if code = clear then
          .ok (.inl { s' with tables := { s.tables with next := first }, width := 9
                              previous := none })
        else
          match s.previous with
          | none =>
            if 255 < code then
              fail s!"LZW: code {code} after a clear"
            else
              .ok (.inl { s' with out := s.out ++ [UInt8.ofNat code], previous := some code })
          | some prev => (do .ok (.inl (← s'.string code prev))) := by
  have hlength : s.width ≤ (toBits s.nbits s.bits ++ unpack s.bytes).length := by
    show s.width ≤ s.stream.length
    rw [hstream, List.length_append, length_toBits]
    omega
  obtain ⟨bits, nbits, bytes, hrefill, hle, hlt, hbits, hsame⟩ :=
    refill_stream hwidth.2 hs.2 (by have := hs.1; omega) hlength
  have hsplit : toBits nbits bits = toBits s.width (bits / 2 ^ (nbits - s.width)) ++
      toBits (nbits - s.width) (bits % 2 ^ (nbits - s.width)) := by
    rw [toBits_split (nbits - s.width) (Nat.sub_le _ _), Nat.sub_sub_self hle]
  rw [hsplit, List.append_assoc] at hsame
  obtain ⟨hfirst, htail⟩ := List.append_inj (hsame.trans hstream) (by simp)
  have hhigh : bits / 2 ^ (nbits - s.width) < 2 ^ s.width := by
    rw [Nat.div_lt_iff_lt_mul (Nat.two_pow_pos _), ← Nat.pow_add, Nat.add_sub_cancel' hle]
    exact hbits
  have hread : bits / 2 ^ (nbits - s.width) % 2 ^ s.width = code := by
    rw [Nat.mod_eq_of_lt hhigh]
    exact toBits_injective hhigh hcode hfirst
  refine ⟨bits % 2 ^ (nbits - s.width), nbits - s.width, bytes, htail, ⟨?_, ?_⟩, ?_⟩
  · show nbits - s.width < 8
    omega
  · exact Nat.mod_lt _ (Nat.two_pow_pos _)
  · rw [State.step, hrefill]
    simp only [sub, if_pos hle, ok_bind, hread] <;> rfl

/-! ## The decoder's table -/

/-- What a chain of entries stands for. -/
inductive Tables.Spells (t : Tables) : Nat → List UInt8 → Prop
  | byte {c : Nat} {b : UInt8} (hsuffix : t.suffixes[c]? = some b)
      (hlength : t.lengths[c]? = some 1) : Spells t c [b]
  | entry {c p : Nat} {text : List UInt8} {b : UInt8} (hfront : t.prefixes[c]? = some p)
      (hsuffix : t.suffixes[c]? = some b) (hlength : t.lengths[c]? = some (text.length + 1))
      (hlt : p < c) (htext : Spells t p text) : Spells t c (text ++ [b])

namespace Tables.Spells

variable {t : Tables} {c : Nat} {text : List UInt8}

theorem ne_nil (h : t.Spells c text) : text ≠ [] := by
  cases h <;> simp

theorem length (h : t.Spells c text) : t.lengths[c]? = some text.length := by
  cases h with
  | byte hsuffix hlength => exact hlength
  | entry hfront hsuffix hlength hlt htext => simpa using hlength

/-- Walking a chain gives the string it stands for. -/
theorem walk (h : t.Spells c text) {fuel : Nat} (hfuel : c < fuel) (scratch : List UInt8) :
    t.walk fuel c scratch = .ok (text ++ scratch) := by
  induction h generalizing fuel scratch with
  | byte hsuffix hlength =>
    obtain ⟨fuel, rfl⟩ := Nat.exists_eq_succ_of_ne_zero (by omega : fuel ≠ 0)
    rw [Tables.walk, index, hsuffix, index, hlength]
    rfl
  | @entry c p text b hfront hsuffix hlength hlt htext ih =>
    obtain ⟨fuel, rfl⟩ := Nat.exists_eq_succ_of_ne_zero (by omega : fuel ≠ 0)
    have hlong : text.length + 1 ≠ 1 := by simpa using htext.ne_nil
    rw [Tables.walk, index, hsuffix, index, hlength]
    show (if text.length + 1 = 1 then _ else _) = _
    rw [if_neg hlong, index, hfront]
    show t.walk fuel p (b :: scratch) = _
    rw [ih (by omega), List.append_assoc]
    rfl

theorem grown {t' : Tables} (next : Nat) (h : t.Spells c text) (hc : c < next)
    (hprefixes : ∀ c < next, t'.prefixes[c]? = t.prefixes[c]?)
    (hsuffixes : ∀ c < next, t'.suffixes[c]? = t.suffixes[c]?)
    (hlengths : ∀ c < next, t'.lengths[c]? = t.lengths[c]?) : t'.Spells c text := by
  induction h with
  | byte hsuffix hlength =>
    exact .byte (by rw [hsuffixes _ hc, hsuffix]) (by rw [hlengths _ hc, hlength])
  | entry hfront hsuffix hlength hlt htext ih =>
    exact .entry (by rw [hprefixes _ hc, hfront]) (by rw [hsuffixes _ hc, hsuffix])
      (by rw [hlengths _ hc, hlength]) hlt (ih (by omega))

end Tables.Spells

/-- The table has the strings added, and has room up to its next code. -/
structure Tables.Has (t : Tables) (table : List (List UInt8)) : Prop where
  prefixes : t.prefixes.length = maxCodes
  suffixes : t.suffixes.length = maxCodes
  lengths : t.lengths.length = maxCodes
  bytes : ∀ b : UInt8, t.Spells b.toNat [b]
  next : t.next = first + table.length
  entries : ∀ i text, table[i]? = some text → t.Spells (first + i) text

namespace Tables.Has

variable {t : Tables} {table : List (List UInt8)}

theorem start : Tables.start.Has [] where
  prefixes := by simp [Tables.start]
  suffixes := by simp [Tables.start]
  lengths := by simp [Tables.start]
  bytes := by
    intro b
    have hb : b.toNat < 256 := b.toNat_lt
    have hmax : b.toNat < maxCodes := Nat.lt_of_lt_of_le hb (by decide)
    exact .byte (by simp [Tables.start, hmax, hb]) (by simp [Tables.start, hmax, hb])
  next := rfl
  entries := by simp

theorem cleared (h : t.Has table) : { t with next := first }.Has [] where
  prefixes := h.prefixes
  suffixes := h.suffixes
  lengths := h.lengths
  bytes := fun b => (h.bytes b).grown 256 b.toNat_lt (fun _ _ => rfl) (fun _ _ => rfl)
    fun _ _ => rfl
  next := rfl
  entries := by simp

/-- The entry for a string and one byte more. -/
theorem grow (h : t.Has table) {prev : Nat} {text : List UInt8} (hprev : t.Spells prev text)
    (hlt : prev < t.next) (hroom : t.next < maxCodes) (b : UInt8) :
    ∃ t', t.grow prev b = .ok t' ∧ t'.Has (table ++ [text ++ [b]]) ∧
      ∀ c text, c < t.next → t.Spells c text → t'.Spells c text := by
  refine ⟨⟨t.prefixes.set t.next prev, t.suffixes.set t.next b,
    t.lengths.set t.next (text.length + 1), t.next + 1⟩, ?_, ?_⟩
  · rw [Tables.grow, if_pos hroom, store, if_pos (by rwa [h.prefixes]), ok_bind, store,
      if_pos (by rwa [h.suffixes]), ok_bind, index, hprev.length]
    show (store t.lengths t.next (text.length + 1) >>= _) = _
    rw [store, if_pos (by rwa [h.lengths])]
    rfl
  · have hkeep : ∀ c text', c < t.next → t.Spells c text' →
        Tables.Spells ⟨t.prefixes.set t.next prev, t.suffixes.set t.next b,
          t.lengths.set t.next (text.length + 1), t.next + 1⟩ c text' :=
      fun c text' hc hspells => hspells.grown t.next hc
        (fun c hc => List.getElem?_set_ne (by omega)) (fun c hc => List.getElem?_set_ne (by omega))
        fun c hc => List.getElem?_set_ne (by omega)
    refine ⟨⟨?_, ?_, ?_, ?_, ?_, ?_⟩, hkeep⟩
    · rw [List.length_set, h.prefixes]
    · rw [List.length_set, h.suffixes]
    · rw [List.length_set, h.lengths]
    · intro b'
      have hb := b'.toNat_lt
      have hnext := h.next
      unfold first at hnext
      exact hkeep _ _ (by omega) (h.bytes b')
    · show t.next + 1 = _
      rw [h.next, List.length_append]
      rfl
    · intro i text' htext'
      rcases Nat.lt_or_ge i table.length with hi | hi
      · rw [List.getElem?_append_left hi] at htext'
        exact hkeep _ _ (by rw [h.next]; omega) (h.entries i text' htext')
      · obtain rfl : i = table.length := by
          have hlast := (List.getElem?_eq_some_iff.1 htext').1
          rw [List.length_append, List.length_singleton] at hlast
          omega
        rw [List.getElem?_append_right (Nat.le_refl _), Nat.sub_self] at htext'
        cases htext'
        rw [← h.next]
        refine .entry (List.getElem?_set_self (by rwa [h.prefixes]))
          (List.getElem?_set_self (by rwa [h.suffixes]))
          (List.getElem?_set_self (by rwa [h.lengths])) hlt (hkeep _ _ hlt hprev)

end Tables.Has

/-! ## The decoder beside the encoder -/

/-- Before the code of `text` is read: right after a clear, or with the last string added to the
encoder's table not yet in the decoder's. -/
inductive State.Behind (s : State) : List (List UInt8) → List UInt8 → Prop
  | cleared {text : List UInt8} (htables : s.tables.Has []) (hprevious : s.previous = none)
      (hwidth : s.width = 9) : Behind s [] text
  | entry {table : List (List UInt8)} {before : List UInt8} {b : UInt8} {text : List UInt8}
      {prev : Nat} (htables : s.tables.Has table) (hprevious : s.previous = some prev)
      (hspells : s.tables.Spells prev before) (hprev : prev < s.tables.next)
      (hwidth : s.width = widthFor (first + table.length + 1)) :
      Behind s (table ++ [before ++ [b]]) (b :: text)

/-- After the code of `text` was read: the decoder's table has all that the encoder's has. -/
structure State.Level (s : State) (table : List (List UInt8)) (text : List UInt8) : Prop where
  tables : s.tables.Has table
  previous : ∃ prev, s.previous = some prev ∧ prev < s.tables.next ∧ s.tables.Spells prev text
  width : s.width = widthFor (first + table.length + 1)

namespace State

variable {s : State} {table : List (List UInt8)} {text : List UInt8}

theorem Behind.width (h : s.Behind table text) : s.width = widthFor (first + table.length) := by
  cases h with
  | cleared htables hprevious hwidth => exact hwidth
  | entry htables hprevious hspells hprev hwidth =>
    rw [hwidth, List.length_append]
    rfl

theorem Behind.append (h : s.Behind table text) (b : UInt8) : s.Behind table (text ++ [b]) := by
  cases h with
  | cleared htables hprevious hwidth => exact .cleared htables hprevious hwidth
  | entry htables hprevious hspells hprev hwidth =>
    exact .entry htables hprevious hspells hprev hwidth

theorem Level.behind (h : s.Level table text) (b : UInt8) :
    s.Behind (table ++ [text ++ [b]]) [b] := by
  obtain ⟨prev, hprevious, hprev, hspells⟩ := h.previous
  exact .entry h.tables hprevious hspells hprev h.width

end State

theorem codeOf_known {table : List (List UInt8)} {text : List UInt8} (hne : text ≠ [])
    (hknown : isKnown table text) :
    (∃ b, text = [b] ∧ codeOf table text = b.toNat) ∨
      ∃ i, codeOf table text = first + i ∧ table[i]? = some text := by
  match text, hne with
  | [b], _ => exact Or.inl ⟨b, rfl, rfl⟩
  | b :: b' :: text, _ =>
    have hmem : b :: b' :: text ∈ table := by simpa [isKnown] using hknown
    refine Or.inr ⟨table.idxOf (b :: b' :: text), rfl, ?_⟩
    rw [List.getElem?_eq_getElem (List.idxOf_lt_length_iff.2 hmem), List.getElem_idxOf]

theorem codeOf_lt {table : List (List UInt8)} {text : List UInt8} (hne : text ≠ [])
    (hknown : isKnown table text) :
    codeOf table text ≠ end_ ∧ codeOf table text ≠ clear ∧
      codeOf table text < first + table.length := by
  rcases codeOf_known hne hknown with ⟨b, rfl, hcode⟩ | ⟨i, hcode, hi⟩
  · have hb := b.toNat_lt
    rw [hcode]
    unfold end_ clear first
    omega
  · have hlt := (List.getElem?_eq_some_iff.1 hi).1
    rw [hcode]
    unfold end_ clear first
    omega

/-- The decoder adds the entry that it is behind by. -/
theorem State.string_entry {s : State} {table : List (List UInt8)} {before text : List UInt8}
    {b : UInt8} {prev code : Nat} (htables : s.tables.Has table)
    (hspells : s.tables.Spells prev before) (hprev : prev < s.tables.next)
    (hroom : s.tables.next < maxCodes)
    (hcode : (code < s.tables.next ∧ s.tables.Spells code (b :: text)) ∨
      (code = s.tables.next ∧ before ++ [b] = b :: text)) :
    ∃ t, s.string code prev = .ok { s with
        tables := t, width := t.width, previous := some code, out := s.out ++ b :: text } ∧
      t.Has (table ++ [before ++ [b]]) ∧ t.Spells code (b :: text) := by
  obtain ⟨t, ht, hhas, hkeep⟩ := htables.grow hspells hprev hroom b
  refine ⟨t, ?_, hhas, ?_⟩
  · rcases hcode with ⟨hlt, hcode⟩ | ⟨rfl, htext⟩
    · rw [State.string]
      simp only [hlt, decide_true, Bool.not_true, Bool.false_and, Bool.false_eq_true, if_false,
        if_true]
      rw [hcode.walk (by omega), List.append_nil]
      show (s.tables.grow prev b >>= _) = _
      rw [ht, ok_bind, List.append_nil]
    · obtain ⟨b', before, rfl⟩ := List.exists_cons_of_ne_nil hspells.ne_nil
      obtain ⟨rfl, rfl⟩ := List.cons.inj htext
      rw [State.string]
      simp only [Nat.lt_irrefl, decide_false, Bool.not_false, Bool.true_and, ne_eq,
        not_true_eq_false, Bool.false_eq_true, if_false]
      rw [hspells.walk (by omega), List.append_nil]
      show (s.tables.grow prev b' >>= _) = _
      rw [ht, ok_bind, List.append_assoc]
      rfl
  · rcases hcode with ⟨hlt, hcode⟩ | ⟨rfl, htext⟩
    · exact hkeep code _ hlt hcode
    · rw [← htext, htables.next]
      exact hhas.entries _ _ (by rw [List.getElem?_append_right (Nat.le_refl _), Nat.sub_self]; rfl)

/-- Reading the code of a string: it comes out, and the decoder has caught up. -/
theorem State.Behind.step {s : State} {table : List (List UInt8)} {text : List UInt8}
    {tail : List Bool} (h : s.Behind table text) (hs : s.Aligned) (hne : text ≠ [])
    (hknown : isKnown table text) (hroom : first + table.length ≤ maxCodes)
    (hstream : s.stream =
      toBits (widthFor (first + table.length)) (codeOf table text) ++ tail) :
    ∃ s', s.step = .ok (.inl s') ∧ s'.Level table text ∧ s'.Aligned ∧ s'.stream = tail ∧
      s'.out = s.out ++ text := by
  obtain ⟨hend, hclear, hlt⟩ := codeOf_lt hne hknown
  rw [← h.width] at hstream
  obtain ⟨bits, nbits, bytes, htail, haligned, hstep⟩ :=
    s.step_eq hs (by rw [h.width]; exact widthFor_bounds _)
      (by rw [h.width]; exact lt_widthFor hlt hroom) hstream
  rw [if_neg hend, if_neg hclear] at hstep
  have hsource := codeOf_known hne hknown
  cases h with
  | cleared htables hprevious hwidth =>
    obtain ⟨b, rfl, hcode⟩ : ∃ b, text = [b] ∧ codeOf [] text = b.toNat :=
      hsource.resolve_right fun ⟨i, _, hi⟩ => by cases hi
    have hb := b.toNat_lt
    rw [hprevious, hcode] at hstep
    simp only [if_neg (show ¬ 255 < b.toNat by omega), UInt8.ofNat_toNat] at hstep
    refine ⟨_, hstep, ⟨htables, ⟨b.toNat, rfl, ?_, htables.bytes b⟩, hwidth⟩, haligned, htail, rfl⟩
    show b.toNat < s.tables.next
    rw [htables.next]
    unfold first
    omega
  | @entry table before b text prev htables hprevious hspells hprev hwidth =>
    have hnext : s.tables.next < maxCodes := by
      rw [htables.next]
      rw [List.length_append, List.length_singleton] at hroom
      omega
    have hcode : (codeOf (table ++ [before ++ [b]]) (b :: text) < s.tables.next ∧
        s.tables.Spells (codeOf (table ++ [before ++ [b]]) (b :: text)) (b :: text)) ∨
        (codeOf (table ++ [before ++ [b]]) (b :: text) = s.tables.next ∧
          before ++ [b] = b :: text) := by
      rcases hsource with ⟨b', htext, hcode⟩ | ⟨i, hcode, hi⟩
      · rw [hcode, htext]
        have hb := b'.toNat_lt
        refine Or.inl ⟨?_, htables.bytes b'⟩
        rw [htables.next]
        unfold first
        omega
      · rw [hcode]
        rcases Nat.lt_or_ge i table.length with hlt | hge
        · rw [List.getElem?_append_left hlt] at hi
          refine Or.inl ⟨?_, htables.entries i _ hi⟩
          rw [htables.next]
          omega
        · obtain rfl : i = table.length := by
            have hlast := (List.getElem?_eq_some_iff.1 hi).1
            rw [List.length_append, List.length_singleton] at hlast
            omega
          rw [List.getElem?_append_right (Nat.le_refl _), Nat.sub_self] at hi
          exact Or.inr ⟨htables.next.symm, Option.some.inj hi⟩
    obtain ⟨t, hstring, hhas, hspells'⟩ := State.string_entry
      (s := { s with previous := some prev, bits := bits, nbits := nbits, bytes := bytes })
      htables hspells hprev hnext hcode
    rw [hprevious] at hstep
    simp only at hstep
    rw [hstring, ok_bind] at hstep
    refine ⟨_, hstep, ⟨hhas, ⟨_, rfl, ?_, hspells'⟩, ?_⟩, haligned, htail, rfl⟩
    · show _ < t.next
      rw [hhas.next]
      exact hlt
    · show widthFor (t.next + 1) = _
      rw [hhas.next]

/-! ## Round trip -/

namespace State

theorem loop_of_step {s s' : State} {fuel : Nat} (hs : s.Ready) (hfuel : s.left < fuel)
    (h : s.step = .ok (.inl s')) :
    s'.Ready ∧ ∃ fuel', s'.left < fuel' ∧ s.loop fuel = s'.loop fuel' := by
  obtain ⟨hs', hleft⟩ := (State.step_sound hs).of_ok h s' rfl
  obtain ⟨fuel, rfl⟩ := Nat.exists_eq_succ_of_ne_zero (by omega : fuel ≠ 0)
  refine ⟨hs', fuel, by omega, ?_⟩
  rw [State.loop, h]
  rfl

theorem loop_end {s : State} {fuel : Nat} {tail : List Bool} (hs : s.Ready) (haligned : s.Aligned)
    (hfuel : s.left < fuel) (hstream : s.stream = toBits s.width end_ ++ tail) :
    s.loop fuel = .ok s.out := by
  have hlt : end_ < 2 ^ s.width :=
    Nat.lt_of_lt_of_le (by decide) (Nat.pow_le_pow_right (by decide) hs.width.1)
  obtain ⟨bits, nbits, bytes, -, -, hstep⟩ := s.step_eq haligned hs.width hlt hstream
  obtain ⟨fuel, rfl⟩ := Nat.exists_eq_succ_of_ne_zero (by omega : fuel ≠ 0)
  rw [State.loop, hstep, if_pos rfl]
  rfl

theorem step_clear {s : State} {table : List (List UInt8)} {tail : List Bool} (hs : s.Ready)
    (haligned : s.Aligned) (htables : s.tables.Has table)
    (hstream : s.stream = toBits s.width clear ++ tail) (text : List UInt8) :
    ∃ s', s.step = .ok (.inl s') ∧ s'.Behind [] text ∧ s'.Aligned ∧ s'.stream = tail ∧
      s'.out = s.out := by
  have hlt : clear < 2 ^ s.width :=
    Nat.lt_of_lt_of_le (by decide) (Nat.pow_le_pow_right (by decide) hs.width.1)
  obtain ⟨bits, nbits, bytes, htail, haligned, hstep⟩ := s.step_eq haligned hs.width hlt hstream
  rw [if_neg (by decide), if_pos rfl] at hstep
  exact ⟨_, hstep, .cleared htables.cleared rfl rfl, haligned, htail, rfl⟩

/-- The rest of a stream gives the rest of the data. -/
theorem loop_codes {full : Nat} (hmax : full ≤ maxCodes) (input : List UInt8) :
    ∀ {table : List (List UInt8)} {text : List UInt8} {s : State} {fuel : Nat} {tail : List Bool},
      s.Behind table text → s.Ready → s.Aligned → (text = [] → table = []) →
      (text ≠ [] → isKnown table text) → first + table.length < full → s.left < fuel →
      s.stream = bitsOf (codes full table text input) ++ tail →
      s.loop fuel = .ok (s.out ++ text ++ input) := by
  induction input with
  | nil =>
    intro table text s fuel tail h hs haligned hempty hknown hroom hfuel hstream
    by_cases htext : text = []
    · subst htext
      rw [codes, if_pos rfl, bitsOf, List.flatMap_singleton, ← h.width] at hstream
      rw [loop_end hs haligned hfuel hstream]
      simp
    · rw [codes, if_neg htext, bitsOf, List.flatMap_cons, List.append_assoc] at hstream
      obtain ⟨s', hstep, hlevel, haligned', htail, hout⟩ :=
        h.step haligned htext (hknown htext) (by omega) hstream
      obtain ⟨hs', fuel', hfuel', hloop⟩ := loop_of_step hs hfuel hstep
      rw [List.flatMap_singleton, ← hlevel.width] at htail
      rw [hloop, loop_end hs' haligned' hfuel' htail, hout, List.append_nil]
  | cons b rest ih =>
    intro table text s fuel tail h hs haligned hempty hknown hroom hfuel hstream
    rw [codes] at hstream
    by_cases hmore : isKnown table (text ++ [b])
    · rw [if_pos hmore] at hstream
      rw [ih (h.append b) hs haligned (by simp) (fun _ => hmore) hroom hfuel hstream]
      simp
    · have htext : text ≠ [] := by
        rintro rfl
        exact hmore rfl
      rw [if_neg hmore] at hstream
      simp only [bitsOf, List.flatMap_cons, List.append_assoc] at hstream
      obtain ⟨s', hstep, hlevel, haligned', htail, hout⟩ :=
        h.step haligned htext (hknown htext) (by omega) hstream
      obtain ⟨hs', fuel', hfuel', hloop⟩ := loop_of_step hs hfuel hstep
      have hlength : (table ++ [text ++ [b]]).length = table.length + 1 := by simp
      rw [hloop]
      split at htail
      · rename_i hfull
        rw [hlength, ← Nat.add_assoc] at hfull
        rw [List.flatMap_cons, List.append_assoc, ← hfull, ← hlevel.width] at htail
        obtain ⟨s'', hstep', hbehind, haligned'', htail', hout'⟩ :=
          step_clear hs' haligned' hlevel.tables htail [b]
        obtain ⟨hs'', fuel'', hfuel'', hloop'⟩ := loop_of_step hs' hfuel' hstep'
        rw [hfull] at htail'
        rw [hloop', ih hbehind hs'' haligned'' (by simp) (fun _ => rfl)
          (by rw [List.length_nil]; omega) hfuel'' htail', hout', hout]
        simp
      · rename_i hfull
        rw [hlength] at hfull
        rw [ih (hlevel.behind b) hs' haligned' (by simp) (fun _ => rfl)
          (by rw [hlength]; omega) hfuel' htail, hout]
        simp

/-! ## Decoding -/

/-- Before the first code. -/
def start (input : List UInt8) : State := ⟨.start, 9, none, 0, 0, input, []⟩

theorem start_ready (input : List UInt8) : (start input).Ready where
  tables := Tables.start_built
  width := ⟨Nat.le_refl 9, Nat.le_add_right 9 3⟩
  previous := by
    intro p hp
    cases hp

theorem ready_of_steps {input : List UInt8} {s : State}
    (h : Relation.ReflTransGen (fun s s' : State => s.step = .ok (.inl s')) (start input) s) :
    s.Ready := by
  induction h with
  | refl => exact start_ready input
  | tail _ hstep ih => exact ((State.step_sound ih).of_ok hstep _ rfl).1

end State

theorem decode_encode {full : Nat} (hfull : first < full) (hmax : full ≤ maxCodes)
    (data : List UInt8) : decode (encode full data) = .ok data := by
  obtain ⟨fill, hfill⟩ := unpack_pack (bitsOf ((clear, 9) :: codes full [] [] data))
  rw [bitsOf, List.flatMap_cons, List.append_assoc] at hfill
  have hready := State.start_ready (encode full data)
  obtain ⟨s, hstep, hbehind, haligned, htail, hout⟩ :=
    State.step_clear hready ⟨show 0 < 8 by decide, show 0 < 2 ^ 0 by decide⟩ Tables.Has.start
      hfill []
  obtain ⟨hs, fuel, hfuel, hloop⟩ := State.loop_of_step hready
    (show (State.start (encode full data)).left < 8 * (encode full data).length + 1 by
      simp [State.left, State.start]) hstep
  show (State.start (encode full data)).loop _ = _
  rw [hloop, State.loop_codes hmax data hbehind hs haligned (fun _ => rfl) (fun h => absurd rfl h)
    (by simpa using hfull) hfuel htail, hout]
  rfl

/-- Decoding inverts encoding, for any size at which the encoder's table is full.  Whatever bytes
come in, decoding ends; on the way no code is wider than 12 bits, and the chain of every string in
the table ends within it. -/
theorem decode_inverts_encode :
    (∀ full, first < full → full ≤ maxCodes → ∀ data, decode (encode full data) = .ok data) ∧
      ∀ input, decode input ≠ panic ∧
        ∀ s, Relation.ReflTransGen (fun s s' : State => s.step = .ok (.inl s'))
            (State.start input) s →
          s.width ≤ 12 ∧ (∀ prev, s.previous = some prev → prev < s.tables.next) ∧
            ∀ c, IsString c → c < s.tables.next → s.tables.walk maxCodes c [] ≠ panic := by
  refine ⟨fun full hfull hmax data => decode_encode hfull hmax data,
    fun input => ⟨(decode_sound input).ne_panic, fun s hs => ?_⟩⟩
  have hready := State.ready_of_steps hs
  refine ⟨hready.width.2, fun prev hprev => (hready.previous prev hprev).2, fun c hc hlt => ?_⟩
  exact (Tables.walk_sound hready.tables maxCodes hc hlt
    (Nat.lt_of_lt_of_le hlt hready.tables.next_le)).ne_panic

theorem decode_inverts_encode_repeated :
    decode (encode 4095 (List.replicate 10000 7)) = .ok (List.replicate 10000 7) :=
  decode_inverts_encode.1 4095 (by decide) (by decide) _

end Xeibe.Reproject.Grid.Lzw

import Mathlib.Data.List.TakeWhile
import Xeibe.Core.Splitter.Document
import Xeibe.Core.Splitter.Whole

/-!
# The markup of a document

What the scanning functions answer at each piece of a document, once the
input is in the window: `markupAt_start`, `markupAt_empty`, `markupAt_end`
and `markupAt_aside` give the kind and the length of the markup, and
`parseAttributes_rest` the attributes of a tag.  `Stands off tail s` says that
the splitter, after passing text, is at `tail` and at offset `off`.
-/

namespace Xeibe

open Lib
open Splitter (isNameEnd)

/-! ## Bytes of names, tags and attributes -/

theorem isNameByte_spec {b : UInt8} (h : isNameByte b = true) :
    isNameEnd b = false ∧ b ≠ 0x3d ∧ b ≠ 0x22 ∧ b ≠ 0x27 ∧ b ≠ 0x3c ∧ b ≠ 0x3e ∧ b ≠ 0x2f ∧
      b ≠ 0x21 ∧ b ≠ 0x3f ∧ isAsciiWhitespace b = false := by
  simp only [isNameByte, Bool.and_eq_true, Bool.not_eq_true', bne_iff_ne, ne_eq] at h
  obtain ⟨⟨⟨⟨⟨⟨⟨⟨hws, hslash⟩, hgt⟩, hlt⟩, heq⟩, hdq⟩, hsq⟩, hbang⟩, hquestion⟩ := h
  refine ⟨?_, heq, hdq, hsq, hlt, hgt, hslash, hbang, hquestion, hws⟩
  simp [isNameEnd, hws, hslash, hgt]

theorem isAsciiWhitespace_spec {b : UInt8} (h : isAsciiWhitespace b = true) :
    b ≠ 0x3d ∧ b ≠ 0x22 ∧ b ≠ 0x27 ∧ b ≠ 0x3c ∧ b ≠ 0x3e ∧ b ≠ 0x2f := by
  simp only [isAsciiWhitespace, Bool.or_eq_true, beq_iff_eq] at h
  rcases h with (((rfl | rfl) | rfl) | rfl) | rfl <;> decide

namespace Name

theorem byte (name : Name) {b : UInt8} (hb : b ∈ name.bytes) : isNameByte b = true :=
  List.all_eq_true.1 name.valid b hb

theorem length_pos (name : Name) : 0 < name.bytes.length :=
  List.length_pos_of_ne_nil name.nonempty

theorem findIdx?_end (name : Name) {x : UInt8} (hx : isNameEnd x = true) (more : Bytes) :
    (name.bytes ++ x :: more).findIdx? isNameEnd = some name.bytes.length := by
  have hnone : name.bytes.findIdx? isNameEnd = none := by
    rw [List.findIdx?_eq_none_iff]
    intro b hb
    exact (isNameByte_spec (name.byte hb)).1
  rw [List.findIdx?_append, hnone, Option.none_or, List.findIdx?_cons, hx]
  simp

end Name

theorem Space.byte (space : Space) {b : UInt8} (hb : b ∈ space.bytes) :
    isAsciiWhitespace b = true := List.all_eq_true.1 space.blank b hb

theorem Attr.noTag_render (a : Attr) : 0x3c ∉ a.render := by
  have hquote : (0x3c : UInt8) ≠ a.quote := by
    rcases a.isQuote with h | h <;> rw [h] <;> decide
  simp only [Attr.render, List.mem_append, List.mem_cons, not_or]
  refine ⟨fun h => ?_, fun h => ?_, fun h => ?_, by decide, fun h => ?_, hquote, a.noTag, hquote,
    List.not_mem_nil⟩
  · exact (isAsciiWhitespace_spec (a.before.byte h)).2.2.2.1 rfl
  · exact (isNameByte_spec (a.key.byte h)).2.2.2.2.1 rfl
  · exact (isAsciiWhitespace_spec (a.beforeEq.byte h)).2.2.2.1 rfl
  · exact (isAsciiWhitespace_spec (a.afterEq.byte h)).2.2.2.1 rfl

namespace Tag

theorem noTag_name (tag : Tag) : 0x3c ∉ tag.name.bytes := fun h =>
  (isNameByte_spec (tag.name.byte h)).2.2.2.2.1 rfl

theorem noTag_rest (tag : Tag) : 0x3c ∉ tag.rest := by
  intro h
  rcases List.mem_append.1 h with h | h
  · obtain ⟨a, -, ha⟩ := List.mem_flatMap.1 h
    exact a.noTag_render ha
  · exact (isAsciiWhitespace_spec (tag.space.byte h)).2.2.2.1 rfl

/-- The byte after a tag's name ends the name. -/
theorem rest_append (tag : Tag) {y : UInt8} (hy : isNameEnd y = true) (more : Bytes) :
    ∃ x xs, tag.rest ++ y :: more = x :: xs ∧ isNameEnd x = true := by
  have hblank : ∀ b, isAsciiWhitespace b = true → isNameEnd b = true := by
    intro b hb
    simp [isNameEnd, hb]
  cases hattrs : tag.attrs with
  | cons a attrs =>
    obtain ⟨b, bs, hb⟩ := List.exists_cons_of_ne_nil a.separated
    obtain ⟨xs, hxs⟩ : ∃ xs, tag.rest ++ y :: more = b :: xs := by
      rw [rest, hattrs, List.flatMap_cons, Attr.render, hb]
      exact ⟨_, rfl⟩
    exact ⟨b, xs, hxs, hblank b (a.before.byte (by rw [hb]; exact List.mem_cons_self))⟩
  | nil =>
    cases hspace : tag.space.bytes with
    | nil =>
      refine ⟨y, more, ?_, hy⟩
      rw [rest, hattrs, hspace]
      rfl
    | cons b bs =>
      have hb : b ∈ tag.space.bytes := by
        rw [hspace]
        exact List.mem_cons_self
      refine ⟨b, bs ++ y :: more, ?_, hblank b (tag.space.byte hb)⟩
      rw [rest, hattrs, hspace]
      rfl

end Tag

theorem Space.append (space : Space) (more : Bytes) :
    ∃ x xs, space.bytes ++ 0x3e :: more = x :: xs ∧ isNameEnd x = true ∧ x ≠ 0x2f := by
  cases hspace : space.bytes with
  | nil => exact ⟨0x3e, more, rfl, by decide, by decide⟩
  | cons b bs =>
    have hb : isAsciiWhitespace b = true := space.byte (by rw [hspace]; exact List.mem_cons_self)
    exact ⟨b, bs ++ 0x3e :: more, rfl, by simp [isNameEnd, hb],
      (isAsciiWhitespace_spec hb).2.2.2.2.2⟩

namespace Tag

/-- A start tag that is not self-closing does not end in `/`. -/
theorem last_ne_slash (tag : Tag) {b : UInt8}
    (hb : (tag.name.bytes ++ tag.rest).getLast? = some b) : b ≠ 0x2f := by
  have hlast : ∀ l : Bytes, l ≠ [] → (∀ x ∈ l, x ≠ 0x2f) → ∀ front,
      (front ++ l).getLast? = some b → b ≠ 0x2f := by
    intro l hl hno front hfront
    rw [List.getLast?_append_of_ne_nil front hl] at hfront
    exact hno b (List.mem_of_getLast? hfront)
  by_cases hspace : tag.space.bytes = []
  · rcases List.eq_nil_or_concat tag.attrs with hattrs | ⟨attrs, a, hattrs⟩
    · rw [rest, hattrs, hspace, List.flatMap_nil, List.append_nil, List.append_nil] at hb
      exact (isNameByte_spec (tag.name.byte (List.mem_of_getLast? hb))).2.2.2.2.2.2.1
    · refine hlast [a.quote] (by simp) ?_ (tag.name.bytes ++ (attrs.flatMap Attr.render ++
        (a.before.bytes ++ (a.key.bytes ++ (a.beforeEq.bytes ++ (0x3d :: (a.afterEq.bytes ++
          (a.quote :: a.value)))))))) ?_
      · intro x hx
        rw [List.mem_singleton.1 hx]
        rcases a.isQuote with h | h <;> rw [h] <;> decide
      · rw [← hb, rest, hattrs, hspace]
        simp [Attr.render]
  · refine hlast tag.space.bytes hspace ?_ (tag.name.bytes ++ tag.attrs.flatMap Attr.render) ?_
    · intro x hx
      exact (isAsciiWhitespace_spec (tag.space.byte hx)).2.2.2.2.2
    · rw [← hb, rest, List.append_assoc]

end Tag

/-! ## Attributes -/

theorem dropWhile_space (space : Space) {x : UInt8} (hx : isAsciiWhitespace x = false)
    (more : Bytes) :
    (space.bytes ++ x :: more).dropWhile isAsciiWhitespace = x :: more := by
  rw [List.dropWhile_append_of_pos fun b hb => space.byte hb, List.dropWhile_cons_of_neg]
  simp [hx]

/-- One turn of the attribute loop reads one attribute. -/
theorem parseAttributesLoop_attr (a : Attr) (fuel : Nat) (more : Bytes) :
    parseAttributesLoop (fuel + 1) (a.render ++ more) =
      (parseAttributesLoop fuel more).map (a.pair :: ·) := by
  obtain ⟨k, ks, hkey⟩ := List.exists_cons_of_ne_nil a.key.nonempty
  have hk : isAsciiWhitespace k = false :=
    (isNameByte_spec (a.key.byte (by rw [hkey]; exact List.mem_cons_self))).2.2.2.2.2.2.2.2.2
  have hq : isAsciiWhitespace a.quote = false := by
    rcases a.isQuote with h | h <;> rw [h] <;> decide
  let isKey := fun b : UInt8 => b != 0x3d && !isAsciiWhitespace b
  have hkeys : ∀ b ∈ a.key.bytes, isKey b = true := by
    intro b hb
    obtain ⟨-, heq, -, -, -, -, -, -, -, hws⟩ := isNameByte_spec (a.key.byte hb)
    simp [isKey, heq, hws]
  -- What follows the key is whitespace or `=`, and neither is of the key.
  have hstop : ∃ y ys, a.beforeEq.bytes ++ (0x3d :: (a.afterEq.bytes ++
      (a.quote :: (a.value ++ a.quote :: more)))) = y :: ys ∧ isKey y = false := by
    cases hspace : a.beforeEq.bytes with
    | nil => exact ⟨0x3d, _, rfl, rfl⟩
    | cons b bs =>
      refine ⟨b, _, rfl, ?_⟩
      have := a.beforeEq.byte (b := b) (by rw [hspace]; exact List.mem_cons_self)
      simp [isKey, this]
  obtain ⟨y, ys, hys, hy⟩ := hstop
  have htext : a.render ++ more = a.before.bytes ++ (k :: (ks ++ (a.beforeEq.bytes ++ (0x3d ::
      (a.afterEq.bytes ++ (a.quote :: (a.value ++ a.quote :: more))))))) := by
    simp [Attr.render, hkey]
  have hafter : k :: (ks ++ (a.beforeEq.bytes ++ (0x3d :: (a.afterEq.bytes ++
      (a.quote :: (a.value ++ a.quote :: more)))))) = a.key.bytes ++ y :: ys := by
    rw [hkey, ← hys]
    rfl
  have htake : (a.key.bytes ++ y :: ys).takeWhile isKey = a.key.bytes := by
    rw [List.takeWhile_append_of_pos hkeys, List.takeWhile_cons_of_neg (by simp [hy]),
      List.append_nil]
  have hdrop : (a.key.bytes ++ y :: ys).dropWhile isKey = y :: ys := by
    rw [List.dropWhile_append_of_pos hkeys, List.dropWhile_cons_of_neg (by simp [hy])]
  have hvalue : ∀ b ∈ a.value, (b != a.quote) = true := by
    intro b hb
    rw [bne_iff_ne]
    rintro rfl
    exact a.unquoted hb
  have htakeValue : (a.value ++ a.quote :: more).takeWhile (· != a.quote) = a.value := by
    rw [List.takeWhile_append_of_pos hvalue, List.takeWhile_cons_of_neg (by simp),
      List.append_nil]
  have hdropValue : (a.value ++ a.quote :: more).dropWhile (· != a.quote) = a.quote :: more := by
    rw [List.dropWhile_append_of_pos hvalue, List.dropWhile_cons_of_neg (by simp)]
  rw [parseAttributesLoop, htext, dropWhile_space a.before hk, hafter]
  have hne : (a.key.bytes ++ y :: ys).isEmpty = false := by simp
  simp only [hne, Bool.false_eq_true, if_false]
  have hdrop' : (a.key.bytes ++ y :: ys).dropWhile
      (fun b => b != 0x3d && !isAsciiWhitespace b) = y :: ys := hdrop
  have htake' : (a.key.bytes ++ y :: ys).takeWhile
      (fun b => b != 0x3d && !isAsciiWhitespace b) = a.key.bytes := htake
  rw [hdrop', htake', ← hys, dropWhile_space a.beforeEq (by decide)]
  simp only [dropWhile_space a.afterEq hq, if_pos a.isQuote, hdropValue, htakeValue]
  rfl

theorem parseAttributesLoop_space (space : Space) (fuel : Nat) :
    parseAttributesLoop (fuel + 1) space.bytes = .ok [] := by
  have hnil : space.bytes.dropWhile isAsciiWhitespace = [] := by
    rw [List.dropWhile_eq_nil_iff]
    exact fun b hb => space.byte hb
  rw [parseAttributesLoop, hnil]
  rfl

theorem parseAttributesLoop_attrs (attrs : List Attr) (space : Space) (fuel : Nat)
    (hfuel : attrs.length < fuel) :
    parseAttributesLoop fuel (attrs.flatMap Attr.render ++ space.bytes) =
      .ok (attrs.map Attr.pair) := by
  induction attrs generalizing fuel with
  | nil =>
    cases fuel with
    | zero => exact absurd hfuel (Nat.not_lt_zero _)
    | succ fuel => exact parseAttributesLoop_space space fuel
  | cons a attrs ih =>
    cases fuel with
    | zero => exact absurd hfuel (Nat.not_lt_zero _)
    | succ fuel =>
      rw [List.flatMap_cons, List.append_assoc, parseAttributesLoop_attr,
        ih fuel (Nat.lt_of_succ_lt_succ hfuel)]
      rfl

theorem parseAttributes_rest (tag : Tag) :
    parseAttributes tag.rest = .ok (tag.attrs.map Attr.pair) := by
  refine parseAttributesLoop_attrs tag.attrs tag.space _ ?_
  have hlen : tag.attrs.length ≤ (tag.attrs.flatMap Attr.render).length := by
    induction tag.attrs with
    | nil => exact Nat.le_refl _
    | cons a attrs ih =>
      have : 0 < a.render.length := by
        simp only [Attr.render, List.length_append, List.length_cons]
        omega
      rw [List.flatMap_cons, List.length_append, List.length_cons]
      omega
  rw [Tag.rest, List.length_append]
  omega

/-! ## The closing `>` -/

namespace Splitter

theorem scanQuotes_plain {bytes : Bytes} (h : ∀ b ∈ bytes, b ≠ 0x3e ∧ b ≠ 0x22 ∧ b ≠ 0x27)
    (more : Bytes) (i : Nat) :
    scanQuotes (bytes ++ more) i none = scanQuotes more (i + bytes.length) none := by
  induction bytes generalizing i with
  | nil => rfl
  | cons b bytes ih =>
    obtain ⟨hgt, hdq, hsq⟩ := h b List.mem_cons_self
    rw [List.cons_append, scanQuotes, if_neg hgt, if_neg (by simp [hdq, hsq]),
      ih (fun x hx => h x (List.mem_cons_of_mem _ hx)), List.length_cons]
    congr 1
    omega

theorem scanQuotes_value {quote : UInt8} {value : Bytes} (h : quote ∉ value) (more : Bytes)
    (i : Nat) :
    scanQuotes (value ++ quote :: more) i (some quote) =
      scanQuotes more (i + value.length + 1) none := by
  induction value generalizing i with
  | nil => simp [scanQuotes]
  | cons b value ih =>
    rw [List.mem_cons, not_or] at h
    rw [List.cons_append, scanQuotes, if_neg (Ne.symm h.1), ih h.2, List.length_cons]
    congr 1
    omega

/-- A `>` inside a quoted value does not close the tag. -/
theorem scanQuotes_attr (a : Attr) (more : Bytes) (i : Nat) :
    scanQuotes (a.render ++ more) i none = scanQuotes more (i + a.render.length) none := by
  have hblank : ∀ space : Space, ∀ b ∈ space.bytes, b ≠ 0x3e ∧ b ≠ 0x22 ∧ b ≠ 0x27 := by
    intro space b hb
    obtain ⟨-, hdq, hsq, -, hgt, -⟩ := isAsciiWhitespace_spec (space.byte hb)
    exact ⟨hgt, hdq, hsq⟩
  have hkey : ∀ b ∈ a.key.bytes, b ≠ 0x3e ∧ b ≠ 0x22 ∧ b ≠ 0x27 := by
    intro b hb
    obtain ⟨-, -, hdq, hsq, -, hgt, -⟩ := isNameByte_spec (a.key.byte hb)
    exact ⟨hgt, hdq, hsq⟩
  have hbefore : ∀ b ∈ a.before.bytes ++ (a.key.bytes ++ (a.beforeEq.bytes ++
      (0x3d :: a.afterEq.bytes))), b ≠ 0x3e ∧ b ≠ 0x22 ∧ b ≠ 0x27 := by
    intro b hb
    simp only [List.mem_append, List.mem_cons] at hb
    rcases hb with hb | hb | hb | hb | hb
    · exact hblank _ b hb
    · exact hkey b hb
    · exact hblank _ b hb
    · rw [hb]
      decide
    · exact hblank _ b hb
  have hrender : a.render ++ more = (a.before.bytes ++ (a.key.bytes ++ (a.beforeEq.bytes ++
      (0x3d :: a.afterEq.bytes)))) ++ (a.quote :: (a.value ++ a.quote :: more)) := by
    simp [Attr.render]
  have hquote : a.quote ≠ 0x3e := by
    rcases a.isQuote with h | h <;> rw [h] <;> decide
  rw [hrender, scanQuotes_plain hbefore, scanQuotes, if_neg hquote, if_pos a.isQuote,
    scanQuotes_value a.unquoted]
  congr 1
  simp only [Attr.render, List.length_append, List.length_cons, List.length_nil]
  omega

theorem scanQuotes_rest (tag : Tag) (more : Bytes) (i : Nat) :
    scanQuotes (tag.rest ++ more) i none = scanQuotes more (i + tag.rest.length) none := by
  have hattrs : ∀ (attrs : List Attr) (more : Bytes) (i : Nat),
      scanQuotes (attrs.flatMap Attr.render ++ more) i none =
        scanQuotes more (i + (attrs.flatMap Attr.render).length) none := by
    intro attrs
    induction attrs with
    | nil => intro more i; rfl
    | cons a attrs ih =>
      intro more i
      rw [List.flatMap_cons, List.append_assoc, scanQuotes_attr, ih, List.length_append,
        Nat.add_assoc]
  have hspace : ∀ b ∈ tag.space.bytes, b ≠ 0x3e ∧ b ≠ 0x22 ∧ b ≠ 0x27 := by
    intro b hb
    obtain ⟨-, hdq, hsq, -, hgt, -⟩ := isAsciiWhitespace_spec (tag.space.byte hb)
    exact ⟨hgt, hdq, hsq⟩
  rw [Tag.rest, List.append_assoc, hattrs, scanQuotes_plain hspace, List.length_append,
    Nat.add_assoc]

/-! ## The markup at a place -/

section

variable {s : Splitter} {bytes : Bytes}

theorem byte_at (h : s.buf.drop s.pos = bytes) (k : Nat) :
    s.byte (s.pos + k) = bytes.getD k 0 := by
  rw [byte, ← h, List.getD_eq_getElem?_getD, List.getD_eq_getElem?_getD, List.getElem?_drop]

theorem slice_at (h : s.buf.drop s.pos = bytes) (i j : Nat) :
    slice s.buf (s.pos + i) (s.pos + j) = slice bytes i j := by
  rw [← h, slice_drop]

theorem room_at (h : s.buf.drop s.pos = bytes) : s.buf.length - s.pos = bytes.length := by
  rw [← h, List.length_drop]

theorem need_at (heof : s.eof = true) (h : s.buf.drop s.pos = bytes) {n : Nat}
    (hn : n ≤ bytes.length) : s.need n = .ok s := by
  rw [need_eof heof, room_at h, if_neg (by omega)]

theorem find_at (heof : s.eof = true) (h : s.buf.drop s.pos = bytes) {start i : Nat}
    {pattern : Bytes} (hi : indexOf pattern (bytes.drop start) = some i) :
    s.find start pattern = .ok (start + i, s) := by
  rw [find_eof heof, ← List.drop_drop, h, hi]

/-- The scan of a start tag finds the end of its name and its closing `>`. -/
theorem scanStartTag_at (heof : s.eof = true) (tag : Tag) (close : Bytes) (tail : Bytes)
    (hclose : close = [0x3e] ∨ close = [0x2f, 0x3e])
    (h : s.buf.drop s.pos = 0x3c :: (tag.name.bytes ++ (tag.rest ++ (close ++ tail)))) :
    s.scanStartTag =
      .ok ((tag.name.bytes.length + tag.rest.length + close.length, 1 + tag.name.bytes.length),
        s) := by
  obtain ⟨y, ys, hys, hy⟩ : ∃ y ys, close ++ tail = y :: ys ∧ isNameEnd y = true := by
    rcases hclose with rfl | rfl
    · exact ⟨0x3e, tail, rfl, by decide⟩
    · exact ⟨0x2f, 0x3e :: tail, rfl, by decide⟩
  obtain ⟨x, xs, hxs, hx⟩ := tag.rest_append hy ys
  have hname : ((s.buf.drop s.pos).drop 1).findIdx? isNameEnd = some tag.name.bytes.length := by
    rw [h, List.drop_one, List.tail_cons, hys, hxs]
    exact tag.name.findIdx?_end hx xs
  have hrest : (s.buf.drop s.pos).drop (1 + tag.name.bytes.length) =
      tag.rest ++ (close ++ tail) := by
    rw [h, Nat.add_comm, List.drop_succ_cons, List.drop_left]
  rw [scanStartTag_eof heof, hname]
  dsimp only
  rw [hrest, scanQuotes_rest]
  rcases hclose with rfl | rfl
  · rw [List.cons_append, scanQuotes, if_pos rfl]
    simp only [List.length_singleton]
    congr 3
    omega
  · rw [List.cons_append, List.cons_append, scanQuotes, if_neg (by decide), if_neg (by decide),
      scanQuotes, if_pos rfl]
    simp only [List.length_cons, List.length_nil]
    congr 3
    omega

theorem name_at (tag : Tag) (more : Bytes) :
    isNameByte ((0x3c :: (tag.name.bytes ++ more) : Bytes).getD 1 0) = true := by
  obtain ⟨b, bs, hb⟩ := List.exists_cons_of_ne_nil tag.name.nonempty
  have hmem : b ∈ tag.name.bytes := by
    rw [hb]
    exact List.mem_cons_self
  rw [hb]
  exact tag.name.byte hmem

theorem getD_after (x : UInt8) (front : Bytes) (b : UInt8) (more : Bytes) :
    (x :: (front ++ b :: more)).getD (front.length + 1) 0 = b := by
  simp [List.getD_eq_getElem?_getD]

theorem markupAt_tag (heof : s.eof = true) (tag : Tag) (close : Bytes) (tail : Bytes)
    (hclose : close = [0x3e] ∨ close = [0x2f, 0x3e])
    (h : s.buf.drop s.pos = 0x3c :: (tag.name.bytes ++ (tag.rest ++ (close ++ tail)))) :
    s.markupAt =
      .ok ((.start (s.pos + (1 + tag.name.bytes.length)) (close.length == 2),
        1 + tag.name.bytes.length + tag.rest.length + close.length), s) := by
  have hfirst := name_at tag (tag.rest ++ (close ++ tail))
  rw [← byte_at h 1] at hfirst
  obtain ⟨-, -, -, -, -, -, hslash, hbang, hquestion, -⟩ := isNameByte_spec hfirst
  have hpos := tag.name.length_pos
  have hlen : 1 ≤ close.length := by rcases hclose with rfl | rfl <;> decide
  have hneed : s.need 2 = .ok s := by
    refine need_at heof h ?_
    simp only [List.length_cons, List.length_append]
    omega
  -- The byte before the closing `>` is a `/` exactly in a self-closing tag.
  have hempty : (s.byte (s.pos + (tag.name.bytes.length + tag.rest.length + close.length) - 1) ==
      0x2f) = (close.length == 2) := by
    have hindex : s.pos + (tag.name.bytes.length + tag.rest.length + close.length) - 1 =
        s.pos + (tag.name.bytes.length + tag.rest.length + (close.length - 1)) := by omega
    rw [hindex, byte_at h, ← List.append_assoc, ← List.length_append]
    rcases hclose with rfl | rfl
    · rcases List.eq_nil_or_concat (tag.name.bytes ++ tag.rest) with hnil | ⟨front, b, hfront⟩
      · exact absurd (List.append_eq_nil_iff.1 hnil).1 tag.name.nonempty
      · have hb : b ≠ 0x2f := tag.last_ne_slash (by rw [hfront]; simp)
        have hlen : (tag.name.bytes ++ tag.rest).length = front.length + 1 := by
          rw [hfront]
          simp
        rw [hlen, hfront, List.concat_eq_append, List.append_assoc]
        have := getD_after 0x3c front b ([0x3e] ++ tail)
        simpa [this] using hb
    · simp [List.getD_eq_getElem?_getD]
  unfold markupAt
  rw [hneed]
  simp only [bind, Except.bind, if_neg hslash, if_neg hquestion, if_neg hbang]
  rw [scanStartTag_at heof tag close tail hclose h]
  dsimp only
  rw [hempty]
  congr 3
  omega

theorem markupAt_start (heof : s.eof = true) (tag : Tag) (tail : Bytes)
    (h : s.buf.drop s.pos = tag.renderStart ++ tail) :
    s.markupAt =
      .ok ((.start (s.pos + (1 + tag.name.bytes.length)) false, tag.renderStart.length), s) := by
  have hlen : 1 + tag.name.bytes.length + tag.rest.length + ([0x3e] : Bytes).length =
      tag.renderStart.length := by
    simp only [Tag.renderStart, List.length_cons, List.length_append, List.length_nil]
    omega
  rw [markupAt_tag heof tag [0x3e] tail (.inl rfl) (by rw [h]; simp [Tag.renderStart]), hlen]
  rfl

theorem markupAt_empty (heof : s.eof = true) (tag : Tag) (tail : Bytes)
    (h : s.buf.drop s.pos = tag.renderEmpty ++ tail) :
    s.markupAt =
      .ok ((.start (s.pos + (1 + tag.name.bytes.length)) true, tag.renderEmpty.length), s) := by
  have hlen : 1 + tag.name.bytes.length + tag.rest.length + ([0x2f, 0x3e] : Bytes).length =
      tag.renderEmpty.length := by
    simp only [Tag.renderEmpty, List.length_cons, List.length_append, List.length_nil]
    omega
  rw [markupAt_tag heof tag [0x2f, 0x3e] tail (.inr rfl) (by rw [h]; simp [Tag.renderEmpty]), hlen]
  rfl

theorem markupAt_end (heof : s.eof = true) (tag : Tag) (space : Space) (tail : Bytes)
    (h : s.buf.drop s.pos = tag.renderEnd space ++ tail) :
    s.markupAt = .ok ((.endTag, (tag.renderEnd space).length), s) := by
  have hbytes : tag.renderEnd space ++ tail =
      0x3c :: 0x2f :: ((tag.name.bytes ++ space.bytes) ++ 0x3e :: tail) := by
    simp [Tag.renderEnd]
  rw [hbytes] at h
  have hclose : (0x3e : UInt8) ∉ tag.name.bytes ++ space.bytes := by
    intro hmem
    rcases List.mem_append.1 hmem with hmem | hmem
    · exact (isNameByte_spec (tag.name.byte hmem)).2.2.2.2.2.1 rfl
    · exact (isAsciiWhitespace_spec (space.byte hmem)).2.2.2.2.1 rfl
  have hslash : s.byte (s.pos + 1) = 0x2f := byte_at h 1
  have hfind : s.find 2 (utf8 ">") =
      .ok (2 + (tag.name.bytes ++ space.bytes).length, s) :=
    find_at heof h (indexOf_singleton_append hclose tail)
  have hlen : 2 + (tag.name.bytes ++ space.bytes).length + 1 = (tag.renderEnd space).length := by
    simp only [Tag.renderEnd, List.length_cons, List.length_append, List.length_nil]
    omega
  unfold markupAt
  rw [need_at heof h (by simp)]
  simp only [bind, Except.bind, if_pos hslash, hfind, hlen]

theorem find_body (heof : s.eof = true) {opening body delimiter q tail : Bytes} {c : UInt8}
    (hdelimiter : delimiter = q ++ [c]) (hc : c ∉ q) (hbody : ¬ delimiter <:+: body)
    (h : s.buf.drop s.pos = opening ++ (body ++ (delimiter ++ tail))) :
    s.find opening.length delimiter = .ok (opening.length + body.length, s) := by
  refine find_at heof h ?_
  rw [List.drop_left, hdelimiter]
  rw [hdelimiter] at hbody
  exact indexOf_delimiter hc hbody tail

/-- Markup that is not an element. -/
def IsMarkup : Aside → Prop
  | .text .. => False
  | _ => True

theorem markupAt_aside (heof : s.eof = true) (a : Aside) (ha : IsMarkup a) (tail : Bytes)
    (h : s.buf.drop s.pos = a.render ++ tail) :
    s.markupAt = .ok ((.other, a.render.length), s) := by
  cases a with
  | text bytes noTag => exact ha.elim
  | comment body closed =>
    have hbytes : Aside.render (.comment body closed) ++ tail =
        utf8 "<!--" ++ (body ++ (utf8 "-->" ++ tail)) := by simp [Aside.render]
    rw [hbytes] at h
    have hbang : s.byte (s.pos + 1) = 0x21 := byte_at h 1
    have hdashes : slice s.buf (s.pos + 2) (s.pos + 4) = utf8 "--" := slice_at h 2 4
    have hlen4 : (utf8 "<!--").length = 4 := by decide
    have hlen3 : (utf8 "-->").length = 3 := by decide
    have hfind : s.find 4 (utf8 "-->") = .ok (4 + body.length, s) :=
      find_body heof (q := utf8 "--") (c := 0x3e) rfl (by decide) closed h
    have hlen : 4 + body.length + 3 = (Aside.render (.comment body closed)).length := by
      simp only [Aside.render, List.length_append, hlen4, hlen3]
      omega
    unfold markupAt
    rw [need_at heof h (by simp only [List.length_append, hlen4]; omega)]
    simp only [bind, Except.bind]
    rw [need_at heof h (by simp only [List.length_append, hlen4]; omega)]
    simp only [hbang, hdashes, hfind, hlen]
    rfl
  | cdata body closed =>
    have hbytes : Aside.render (.cdata body closed) ++ tail =
        utf8 "<![CDATA[" ++ (body ++ (utf8 "]]>" ++ tail)) := by simp [Aside.render]
    rw [hbytes] at h
    have hbang : s.byte (s.pos + 1) = 0x21 := byte_at h 1
    have hdashes : slice s.buf (s.pos + 2) (s.pos + 4) = utf8 "[C" := slice_at h 2 4
    have hhead : slice s.buf s.pos (s.pos + 9) = utf8 "<![CDATA[" := slice_at h 0 9
    have hlen9 : (utf8 "<![CDATA[").length = 9 := by decide
    have hlen3 : (utf8 "]]>").length = 3 := by decide
    have hfind : s.find 9 (utf8 "]]>") = .ok (9 + body.length, s) :=
      find_body heof (q := utf8 "]]") (c := 0x3e) rfl (by decide) closed h
    have hlen : 9 + body.length + 3 = (Aside.render (.cdata body closed)).length := by
      simp only [Aside.render, List.length_append, hlen9, hlen3]
      omega
    have hneed : ∀ n ≤ 9, s.need n = .ok s := fun n hn =>
      need_at heof h (by simp only [List.length_append, hlen9]; omega)
    unfold markupAt
    rw [hneed 2 (by omega)]
    simp only [bind, Except.bind]
    rw [hneed 4 (by omega)]
    simp only [hbang, hdashes]
    rw [hneed 9 (by omega)]
    simp only [hhead, hfind, hlen]
    rfl
  | pi body closed =>
    have hbytes : Aside.render (.pi body closed) ++ tail =
        utf8 "<?" ++ (body ++ (utf8 "?>" ++ tail)) := by simp [Aside.render]
    rw [hbytes] at h
    have hquestion : s.byte (s.pos + 1) = 0x3f := byte_at h 1
    have hlen2 : (utf8 "<?").length = 2 := by decide
    have hlen2' : (utf8 "?>").length = 2 := by decide
    have hfind : s.find 2 (utf8 "?>") = .ok (2 + body.length, s) :=
      find_body heof (q := utf8 "?") (c := 0x3e) rfl (by decide) closed h
    have hlen : 2 + body.length + 2 = (Aside.render (.pi body closed)).length := by
      simp only [Aside.render, List.length_append, hlen2, hlen2']
      omega
    unfold markupAt
    rw [need_at heof h (by simp only [List.length_append, hlen2]; omega)]
    simp only [bind, Except.bind, hquestion, hfind, hlen]
    rfl

/-! ## Standing at a piece of the document -/

/-- After passing text, the splitter is at `tail`, at offset `off` of its
window. -/
def Stands (off : Nat) (tail : Bytes) (s : Splitter) : Prop :=
  ∃ text, 0x3c ∉ text ∧ s.buf.drop s.pos = text ++ tail ∧ off = s.pos + text.length

theorem Stands.moveTo {off : Nat} {tail : Bytes} (h : Stands off tail s) :
    (s.moveTo off).buf.drop (s.moveTo off).pos = tail := by
  obtain ⟨text, -, hdrop, rfl⟩ := h
  rw [moveTo_buf, moveTo_pos, ← List.drop_drop, hdrop, List.drop_left]

theorem Stands.pass {off : Nat} {piece tail : Bytes} (h : Stands off (piece ++ tail) s)
    (hpiece : 0x3c ∉ piece) : Stands (off + piece.length) tail s := by
  obtain ⟨text, htext, hdrop, rfl⟩ := h
  refine ⟨text ++ piece, ?_, by rw [hdrop, List.append_assoc], ?_⟩
  · rw [List.mem_append]
    exact fun h => h.elim htext hpiece
  · rw [List.length_append, Nat.add_assoc]

theorem Stands.after {off : Nat} {piece tail : Bytes} (h : Stands off (piece ++ tail) s) :
    Stands (off + piece.length) tail (s.moveTo (off + piece.length)) := by
  refine ⟨[], List.not_mem_nil, ?_, rfl⟩
  have := h.moveTo
  rw [moveTo_buf, moveTo_pos] at this ⊢
  rw [← List.drop_drop, this, List.drop_left]
  rfl

theorem Stands.indexOf {off : Nat} {tail : Bytes} (h : Stands off (0x3c :: tail) s) :
    ∃ i, indexOf (utf8 "<") (s.buf.drop s.pos) = some i ∧ s.pos + i = off := by
  obtain ⟨text, htext, hdrop, rfl⟩ := h
  exact ⟨text.length, by rw [hdrop]; exact indexOf_singleton_append htext tail, rfl⟩

theorem nextMarkup_at (heof : s.eof = true) {off len : Nat} {tail : Bytes} {kind : Kind}
    (h : Stands off (0x3c :: tail) s)
    (hmarkup : (s.moveTo off).markupAt = .ok ((kind, len), s.moveTo off)) :
    s.nextMarkup =
      .ok (some { kind, start := off, stop := off + len }, s.moveTo (off + len)) := by
  obtain ⟨i, hi, hoff⟩ := h.indexOf
  unfold nextMarkup
  rw [seekMarkup_eof heof, hi]
  simp only [bind, Except.bind, if_true, hoff, hmarkup, moveTo_pos, moveTo_moveTo]

theorem nextMarkup_none (heof : s.eof = true) {off : Nat} (h : Stands off [] s) :
    s.nextMarkup = .ok (none, s.moveTo s.buf.length) := by
  obtain ⟨text, htext, hdrop, -⟩ := h
  rw [List.append_nil] at hdrop
  unfold nextMarkup
  have hnone : Lib.indexOf (utf8 "<") (s.buf.drop s.pos) = none := by
    rw [hdrop]
    exact indexOf_singleton_eq_none htext
  rw [seekMarkup_eof heof, hnone]
  rfl

end

end Splitter

end Xeibe

import Xeibe.Reproject.Wkt.Written

/-!
# Texts that the parser accepts

Every loop of the parser ends, and every tree that it returns is one of the syntax: what
is written of it is read as the same tree.
-/

namespace Xeibe.Reproject.Wkt

open Xeibe.Geom (F64)
open Xeibe.Lib Numerals
open Checked (Sound)

variable {text s rest : Bytes} {nested : Bytes → Checked Error (Node × Bytes)}
  {fits : Node → Prop} {b : UInt8}

/-- Read off the front of a text, and not nothing of it. -/
def Taken {α : Type} (s : Bytes) (P : α → Prop) (r : α × Bytes) : Prop :=
  P r.1 ∧ r.2.length < s.length

/-! ## Tokens -/

theorem length_dropWhile_le (p : UInt8 → Bool) (s : Bytes) : (s.dropWhile p).length ≤ s.length :=
  (List.dropWhile_sublist p).length_le

theorem length_dropWhile_lt {p : UInt8 → Bool} (h : ∃ b ∈ s.head?, p b = true) :
    (s.dropWhile p).length < s.length := by
  cases s with
  | nil =>
    obtain ⟨b, hb, -⟩ := h
    cases hb
  | cons b s =>
    obtain ⟨c, hc, hp⟩ := h
    obtain rfl := Option.some.inj hc
    rw [List.dropWhile_cons_of_pos hp]
    exact Nat.lt_succ_of_le (length_dropWhile_le p s)

theorem takeSignText_length (s : Bytes) : (takeSignText s).2.length ≤ s.length := by
  cases s with
  | nil => exact Nat.le_refl _
  | cons b s =>
    rw [takeSignText]
    split
    · exact Nat.le_succ _
    · exact Nat.le_refl _

theorem quoted_length {seg out : Bytes} (h : quoted seg s = .ok (out, rest)) :
    rest.length < s.length := by
  fun_induction quoted seg s generalizing out rest with
  | case1 => cases h
  | case2 =>
    cases h
    decide
  | case3 => cases h
  | case4 seg s ih =>
    cases hq : quoted s s with
    | error e => rw [hq] at h; cases h
    | ok r =>
      rw [hq] at h
      cases h
      have hlt := ih hq
      simp only [List.length_cons]
      omega
  | case5 =>
    cases h
    exact Nat.lt_succ_self _
  | case6 seg b c s hb ih =>
    cases hq : quoted seg (c :: s) with
    | error e => rw [hq] at h; cases h
    | ok r =>
      rw [hq] at h
      cases h
      exact (ih hq).trans (Nat.lt_succ_self _)

theorem numberToken_length_le (s : Bytes) : (numberToken s).2.length ≤
    ((takeSignText s).2.dropWhile fun b => isDigit b || decide (b = 0x2e)).length := by
  unfold numberToken
  dsimp only
  split
  · rename_i heq
    rw [heq]
  · rename_i b s heq
    rw [heq]
    split
    · have hsign := takeSignText_length s
      have hdrop := length_dropWhile_le isDigit (takeSignText s).2
      dsimp only
      rw [List.length_cons]
      omega
    · exact Nat.le_refl _

theorem numberToken_length (hb : (isDigit b || b = 0x2b || b = 0x2d || b = 0x2e) = true) :
    (numberToken (b :: s)).2.length < (b :: s).length := by
  refine Nat.lt_succ_of_le ((numberToken_length_le (b :: s)).trans ?_)
  rw [takeSignText]
  split
  · exact length_dropWhile_le _ s
  · rename_i hsign
    rw [not_or] at hsign
    rw [List.dropWhile_cons_of_pos (by simpa [hsign] using hb)]
    exact length_dropWhile_le _ s

theorem endsDate_digit (hb : isDigit b = true) : (!endsDate b) = true := by
  simp [endsDate, (digit_ne hb).1, (digit_ne hb).2, Angles.isDigit_ne hb (c := 0x2c) rfl,
    Angles.isDigit_ne hb (c := 0x29) rfl]

/-- What is taken for a date is one without what follows it. -/
theorem isWord_date (h : isDate s = true) : IsWord (s.takeWhile fun b => !endsDate b) := by
  have hlen := length_of_isDate h
  have hfive : (s.take 5).length = 5 := by
    rw [List.length_take]
    omega
  have hdate : isDate (s.take 5) = true := by
    rw [← isDate_append (s.drop 5) (by omega), List.take_append_drop]
    exact h
  have hall : ∀ b ∈ s.take 5, (!endsDate b) = true := by
    simp only [isDate, Bool.and_eq_true, List.all_eq_true, Bool.or_eq_true, decide_eq_true_eq] at h
    intro b hb
    rw [List.take_add_one, List.mem_append] at hb
    rcases hb with hb | hb
    · exact endsDate_digit (h.1.2 b hb)
    · rcases h.2 with hletter | hletter
      · rw [hletter, Option.toList_some, List.mem_singleton] at hb
        rw [hb]
        decide
      · rw [hletter, Option.toList_some, List.mem_singleton] at hb
        rw [hb]
        decide
  refine Or.inr ⟨?_, fun b hb => by simpa using List.mem_takeWhile_imp hb⟩
  rw [← List.take_append_drop 5 s, List.takeWhile_append_of_pos hall,
    isDate_append _ (by omega)]
  exact hdate

theorem upper_byte (b : UInt8) :
    (isAsciiAlphabetic b = true → isAsciiAlphabetic (toAsciiUppercase b) = true) ∧
      (isWordByte b = true → isWordByte (toAsciiUppercase b) = true) ∧
      toAsciiUppercase (toAsciiUppercase b) = toAsciiUppercase b := by
  rw [toAsciiUppercase]
  split
  · rename_i h
    simp only [Bool.and_eq_true, decide_eq_true_eq, UInt8.le_iff_toNat_le] at h
    have hupper : isAsciiAlphabetic (b - 0x20) = true ∧ ¬ 0x61 ≤ b - 0x20 := by
      have hsub : (b - 0x20).toNat = b.toNat - 0x20 := by
        rw [UInt8.toNat_sub_of_le _ _ (UInt8.le_iff_toNat_le.2 (by simp at h ⊢; omega))]
        rfl
      simp only [isAsciiAlphabetic, Bool.or_eq_true, Bool.and_eq_true, decide_eq_true_eq,
        UInt8.le_iff_toNat_le, hsub]
      simp at h ⊢
      omega
    refine ⟨fun _ => hupper.1, fun _ => by simp [isWordByte, hupper.1], ?_⟩
    rw [toAsciiUppercase, if_neg (by simp [hupper.2])]
  · rename_i h
    refine ⟨id, id, ?_⟩
    rw [toAsciiUppercase, if_neg h]

theorem word_spec (hb : isAsciiAlphabetic b = true) :
    IsWord (word (b :: s)).1 ∧ IsKeyword ((word (b :: s)).1.map toAsciiUppercase) ∧
      (word (b :: s)).2.length < (b :: s).length := by
  have hword : isWordByte b = true := by rw [isWordByte, hb, Bool.true_or, Bool.true_or]
  have hcons : (word (b :: s)).1 = b :: s.takeWhile isWordByte := List.takeWhile_cons_of_pos hword
  have hall : ∀ c ∈ (word (b :: s)).1, isWordByte c = true := fun c hc => List.mem_takeWhile_imp hc
  refine ⟨Or.inl ⟨⟨b, by rw [hcons]; rfl, hb⟩, hall⟩, ⟨⟨toAsciiUppercase b, ?_, ?_⟩, ?_⟩, ?_⟩
  · rw [hcons]
    rfl
  · exact (upper_byte b).1 hb
  · intro c hc
    obtain ⟨d, hd, rfl⟩ := List.mem_map.1 hc
    exact ⟨(upper_byte d).2.1 (hall d hd), (upper_byte d).2.2⟩
  · rw [word, List.dropWhile_cons_of_pos hword]
    exact Nat.lt_succ_of_le (length_dropWhile_le _ s)

/-! ## The parser -/

theorem sound_fail {α : Type} {missing : Missing} {Q : α → Prop} :
    Sound (fail text s missing) Q := Sound.fail

theorem sound_arg (hnested : ∀ s, Sound (nested s) (Taken s fits)) (s : Bytes) :
    Sound (arg text nested s) (Taken s (Arg.Fits (fun _ => True) fits)) := by
  unfold arg
  split
  · rename_i date rest hdate
    rw [dateTime] at hdate
    split at hdate
    · rename_i h
      cases hdate
      obtain ⟨b, hb, hdigit⟩ := digit_of_isDate h
      exact ⟨isWord_date h, length_dropWhile_lt ⟨b, hb, endsDate_digit hdigit⟩⟩
    · cases hdate
  · exact sound_fail
  · rename_i b s _
    split_ifs with hquote hcurly hnumber hletter
    · split
      · rename_i out rest hout
        exact ⟨trivial, (quoted_length hout).trans (Nat.lt_succ_self _)⟩
      · exact sound_fail
    · split
      · rename_i out rest hout
        obtain ⟨at_, -, heq⟩ := Option.map_eq_some_iff.1 hout
        cases heq
        refine ⟨trivial, ?_⟩
        simp only [List.length_drop, List.length_cons]
        omega
      · exact sound_fail
    · split
      · exact ⟨trivial, numberToken_length hnumber⟩
      · exact sound_fail
    · obtain ⟨hword, -, hlen⟩ := word_spec (s := s) hletter
      dsimp only
      split
      · exact Sound.map (hnested (b :: s)) fun r hr => hr
      · exact ⟨hword, (length_dropWhile_le _ _).trans_lt hlen⟩
    · exact sound_fail

/-- A turn of the loop takes an argument, so there are turns for all of them. -/
theorem sound_args (hnested : ∀ s, Sound (nested s) (Taken s fits)) (keyword : Bytes)
    (close : UInt8) {fuel : Nat} (hfuel : s.length < fuel) :
    Sound (args text nested keyword close fuel s)
      (Taken s fun as => ∀ a ∈ as, a.Fits (fun _ => True) fits) := by
  induction fuel generalizing s with
  | zero => exact absurd hfuel (Nat.not_lt_zero _)
  | succ fuel ih =>
    have hspace : (skipSpace s).length ≤ s.length := length_dropWhile_le _ s
    rw [args]
    refine Sound.bind (sound_arg hnested (skipSpace s)) ?_
    rintro ⟨a, rest⟩ ⟨ha, hrest⟩
    have hafter : (skipSpace rest).length ≤ rest.length := length_dropWhile_le _ rest
    dsimp only at ha hrest ⊢
    split
    · exact sound_fail
    · rename_i b s' heq
      have hlen := congrArg List.length heq
      rw [List.length_cons] at hlen
      split_ifs with hcomma hclose
      · refine Sound.bind (ih (by omega)) ?_
        rintro ⟨as, rest'⟩ ⟨has, hrest'⟩
        refine ⟨?_, ?_⟩
        · intro c hc
          rcases List.mem_cons.1 hc with rfl | hc
          · exact ha
          · exact has c hc
        · dsimp only at hrest' ⊢
          omega
      · refine ⟨fun c hc => List.mem_singleton.1 hc ▸ ha, ?_⟩
        dsimp only
        omega
      · exact sound_fail

theorem sound_node (levels : Nat) (s : Bytes) :
    Sound (node text levels s) (Taken s (Node.Fits (fun _ => True) levels)) := by
  induction levels generalizing s with
  | zero => exact sound_fail
  | succ levels ih =>
    rw [node.eq_def]
    dsimp only
    split
    · exact sound_fail
    · rename_i hhead
      cases s with
      | nil => exact absurd rfl hhead
      | cons b s =>
        have hletter : isAsciiAlphabetic b = true := by simpa using hhead
        obtain ⟨-, hkeyword, hword⟩ := word_spec (s := s) hletter
        have hafter : (skipSpace (word (b :: s)).2).length ≤ (word (b :: s)).2.length :=
          length_dropWhile_le _ _
        split
        · exact sound_fail
        · rename_i c s' heq
          have hlen := congrArg List.length heq
          have hspace : (skipSpace s').length ≤ s'.length := length_dropWhile_le _ s'
          rw [List.length_cons] at hlen
          generalize (if c = 0x5b then 0x5d else 0x29 : UInt8) = close
          split
          · exact sound_fail
          · split
            · refine ⟨⟨hkeyword, fun a ha => absurd ha List.not_mem_nil⟩, ?_⟩
              dsimp only
              rw [List.length_drop]
              omega
            · refine Sound.bind (sound_args ih _ _ (by omega)) ?_
              rintro ⟨as, rest⟩ ⟨has, hrest⟩
              refine ⟨⟨hkeyword, has⟩, ?_⟩
              dsimp only at hrest ⊢
              omega

/-! ## One object -/

variable {number : F64 → Prop} {levels : Nat} {n : Node}

theorem Arg.Fits.mono {fits' : Node → Prop} {a : Arg} (h : a.Fits number fits)
    (hfits : ∀ n, fits n → fits' n) : a.Fits number fits' := by
  cases a with
  | node n => exact hfits n h
  | text s => exact h
  | number v => exact h
  | word w => exact h

theorem Node.Fits.succ (h : n.Fits number levels) : n.Fits number (levels + 1) := by
  induction levels generalizing n with
  | zero => exact False.elim h
  | succ levels ih => exact ⟨h.1, fun a ha => (h.2 a ha).mono fun n hn => ih hn⟩

theorem isKeyword_compound : IsKeyword (utf8 "COMPD_CS") :=
  ⟨⟨0x43, rfl, rfl⟩, by decide +kernel⟩

theorem fits_compound {horizontal vertical : Arg}
    (hh : horizontal.Fits number (Node.Fits number levels))
    (hv : vertical.Fits number (Node.Fits number levels)) :
    (compound horizontal vertical).Fits number (levels + 1) := by
  refine ⟨isKeyword_compound, fun a ha => ?_⟩
  simp only [compound, Node.args, List.mem_cons, List.not_mem_nil, or_false] at ha
  rcases ha with rfl | rfl | rfl
  · trivial
  · exact hh
  · exact hv

theorem fits_lifted (h : n.Fits number levels) : n.lifted.Fits number (levels + 1) := by
  rw [Node.lifted]
  split
  · rename_i vertical hfind
    split
    · obtain ⟨keyword, args, offset⟩ := n
      cases levels with
      | zero => exact False.elim h
      | succ levels =>
        have hargs : ∀ a ∈ args, a.Fits number (Node.Fits number levels) := h.2
        have hkept : (Node.mk keyword (args.eraseP Arg.isVertcs) offset).Fits number (levels + 1) :=
          ⟨h.1, fun a ha => hargs a (List.mem_of_mem_eraseP ha)⟩
        exact fits_compound hkept
          ((hargs vertical (List.mem_of_find?_eq_some hfind)).mono fun n hn => hn.succ)
    · exact h.succ
  · exact h.succ

theorem isHorizontal_compound (horizontal vertical : Arg) :
    (compound horizontal vertical).isHorizontal = false := by
  show (decide (utf8 "COMPD_CS" = utf8 "GEOGCS") || decide (utf8 "COMPD_CS" = utf8 "PROJCS")) =
    false
  decide +kernel

theorem lifted_of_not_horizontal (h : n.isHorizontal = false) : n.lifted = n := by
  rw [Node.lifted]
  split
  · rw [if_neg (by rw [h]; exact Bool.false_ne_true)]
  · rfl

theorem lifted_cases (n : Node) : n.lifted = n ∨ n.lifted.isHorizontal = false := by
  rw [Node.lifted]
  split
  · split
    · cases n
      exact Or.inr (isHorizontal_compound _ _)
    · exact Or.inl rfl
  · exact Or.inl rfl

theorem lifted_lifted (n : Node) : n.lifted.lifted = n.lifted := by
  rcases lifted_cases n with h | h
  · rw [h, h]
  · exact lifted_of_not_horizontal h

theorem sound_parse (text : Bytes) :
    Sound (parse text) fun n => n.Fits (fun _ => True) (MAX_DEPTH + 2) ∧ n.lifted = n := by
  rw [parse]
  refine Sound.bind (sound_node (MAX_DEPTH + 1) (skipSpace text)) ?_
  rintro ⟨n, s⟩ ⟨hn, -⟩
  have hend : ∀ (n : Node) (s : Bytes), n.Fits (fun _ => True) (MAX_DEPTH + 2) → n.lifted = n →
      Sound (if s ≠ [] then fail text s .textEnd else .ok n) fun n =>
        n.Fits (fun _ => True) (MAX_DEPTH + 2) ∧ n.lifted = n := by
    intro n s hfits hlifted
    split
    · exact sound_fail
    · exact ⟨hfits, hlifted⟩
  dsimp only at hn ⊢
  split
  · rename_i hcomma
    refine Sound.bind (sound_node (MAX_DEPTH + 1) _) ?_
    rintro ⟨vertical, s⟩ ⟨hvertical, -⟩
    dsimp only at hvertical ⊢
    split
    · exact Sound.bind (P := fun _ => False) sound_fail fun _ h => h.elim
    · -- a horizontal CRS that nothing was taken out of
      have heq : n.lifted = n := (lifted_cases n).resolve_right fun h => by
        rw [hcomma.2] at h
        cases h
      rw [heq]
      exact hend _ _ (fits_compound hn hvertical)
        (lifted_of_not_horizontal (isHorizontal_compound _ _))
  · exact hend _ _ (fits_lifted hn) (lifted_lifted n)

/-- The parser always ends; what it accepts is a tree of the syntax, with at most one more
level than the parser goes down; and what is written of it is read as the same tree. -/
theorem parse_accepted (text : Bytes) :
    parse text ≠ Checked.panic ∧ ∀ n, parse text = .ok n →
      n.Fits (fun _ => True) (MAX_DEPTH + 2) ∧
        ∀ pretty, n.Fits (·.isFinite = true) (MAX_DEPTH + 1) →
          (parse (format n pretty)).map (Node.plain id) = .ok (n.plain reread) := by
  refine ⟨(sound_parse text).ne_panic, fun n hn => ?_⟩
  obtain ⟨hfits, hlifted⟩ := (sound_parse text).of_ok hn
  refine ⟨hfits, fun pretty hfinite => ?_⟩
  obtain ⟨n', hn', hplain⟩ := exists_parse_format hfinite pretty
  rw [hn', Except.map, lifted_plain, hplain, ← lifted_plain, hlifted]

theorem parse_accepted_axis :
    (parse (format (.mk (utf8 "AXIS") [.word (utf8 "x")] 1) true)).map (Node.plain id) =
      .ok ((Node.mk (utf8 "AXIS") [.word (utf8 "x")] 1).plain reread) := by
  have hread : parse (utf8 " axis(x)") = .ok (.mk (utf8 "AXIS") [.word (utf8 "x")] 1) := rfl
  have hword : IsWord (utf8 "x") := Or.inl ⟨⟨0x78, rfl, rfl⟩, by decide +kernel⟩
  refine ((parse_accepted (utf8 " axis(x)")).2 _ hread).2 true ⟨⟨⟨0x41, rfl, rfl⟩, ?_⟩, ?_⟩
  · decide +kernel
  · simpa [Node.args, Arg.Fits] using hword

end Xeibe.Reproject.Wkt

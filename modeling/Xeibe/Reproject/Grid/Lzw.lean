import Xeibe.Lib.Checked

/-!
# LZW decompression of grid files

TIFF's LZW: codes most significant bit first, 9 to 12 bits wide, widening one
code early.  Whatever bytes come in, no table is read out of range, every chain
of table entries ends, and the loop does.
-/

namespace Xeibe.Reproject.Grid.Lzw

open Xeibe.Lib
open Xeibe.Lib.Checked

def clear : Nat := 256

def end_ : Nat := 257

def first : Nat := 258

def maxCodes : Nat := 4096

/-! ## Decoding -/

/-- The table, by code: the code of all but the last byte, the last byte and the
length; and the code of the next entry. -/
structure Tables where
  prefixes : List Nat
  suffixes : List UInt8
  lengths : List Nat
  next : Nat

/-- The single bytes. -/
def Tables.start : Tables where
  prefixes := List.replicate maxCodes 0
  suffixes := (List.range maxCodes).map fun i => if i < 256 then UInt8.ofNat i else 0
  lengths := (List.range maxCodes).map fun i => if i < 256 then 1 else 0
  next := first

/-- The string of a code, in front of `scratch`: back to front through the
table.  A chain has no more entries than the table. -/
def Tables.walk (t : Tables) : Nat → Nat → List UInt8 → Checked String (List UInt8)
  | 0, _, _ => panic
  | fuel + 1, c, scratch => do
    let suffix ← index t.suffixes c
    let length ← index t.lengths c
    if length = 1 then
      .ok (suffix :: scratch)
    else do
      t.walk fuel (← index t.prefixes c) (suffix :: scratch)

/-- The entry for `prev` with one byte more, where there is room. -/
def Tables.grow (t : Tables) (prev : Nat) (byte : UInt8) : Checked String Tables :=
  if t.next < maxCodes then do
    let prefixes ← store t.prefixes t.next prev
    let suffixes ← store t.suffixes t.next byte
    let length ← index t.lengths prev
    let lengths ← store t.lengths t.next (length + 1)
    .ok ⟨prefixes, suffixes, lengths, t.next + 1⟩
  else
    .ok t

/-- The early change: wider when the next code would need it. -/
def Tables.width (t : Tables) : Nat :=
  if 2048 ≤ t.next + 1 then 12
  else if 1024 ≤ t.next + 1 then 11
  else if 512 ≤ t.next + 1 then 10
  else 9

structure State where
  tables : Tables
  width : Nat
  previous : Option Nat
  bits : Nat
  nbits : Nat
  bytes : List UInt8
  out : List UInt8

/-- The next bytes, until there are `width` bits; `none` at the end. -/
def refill (width : Nat) : Nat → Nat → List UInt8 → Option (Nat × Nat × List UInt8)
  | bits, nbits, [] => if nbits < width then none else some (bits, nbits, [])
  | bits, nbits, b :: bytes =>
    if nbits < width then
      refill width ((bits * 256 + b.toNat) % 2 ^ 32) (nbits + 8) bytes
    else
      some (bits, nbits, b :: bytes)

/-- The string for `code` after `prev`, or for `prev` plus its own first byte
when `code` is the entry about to be added. -/
def State.string (s : State) (code prev : Nat) : Checked String State :=
  let known := decide (code < s.tables.next)
  if !known && decide (code ≠ s.tables.next) then
    fail s!"LZW: code {code} beyond the table ({s.tables.next})"
  else do
    let text ← s.tables.walk maxCodes (if known then code else prev) []
    let byte ← index text 0
    let tables ← s.tables.grow prev byte
    .ok { s with
      tables := tables
      width := tables.width
      previous := some code
      out := s.out ++ text ++ (if known then [] else [byte]) }

/-- One code: the state after it, or all that was decoded. -/
def State.step (s : State) : Checked String (State ⊕ List UInt8) :=
  match refill s.width s.bits s.nbits s.bytes with
  -- Ran out without an end code: what was decoded stands.
  | none => .ok (.inr s.out)
  | some (bits, nbits, bytes) => do
    let nbits ← sub nbits s.width
    let code := bits / 2 ^ nbits % 2 ^ s.width
    let s := { s with bits := bits % 2 ^ nbits, nbits := nbits, bytes := bytes }
    if code = end_ then
      .ok (.inr s.out)
    else if code = clear then
      .ok (.inl { s with tables := { s.tables with next := first }, width := 9, previous := none })
    else
      match s.previous with
      | none =>
        if 255 < code then
          fail s!"LZW: code {code} after a clear"
        else
          .ok (.inl { s with out := s.out ++ [UInt8.ofNat code], previous := some code })
      | some prev => do .ok (.inl (← s.string code prev))

def State.loop : Nat → State → Checked String (List UInt8)
  | 0, _ => panic
  | fuel + 1, s => do
    match ← s.step with
    | .inl s => s.loop fuel
    | .inr out => .ok out

def decode (input : List UInt8) : Checked String (List UInt8) :=
  State.loop (8 * input.length + 1) ⟨.start, 9, none, 0, 0, input, []⟩

/-! ## The table -/

/-- Codes of strings, not `clear` or `end_`. -/
def IsString (c : Nat) : Prop := c < 256 ∨ first ≤ c

/-- Every entry is one byte more than an earlier one. -/
structure Tables.Built (t : Tables) : Prop where
  prefixes : t.prefixes.length = maxCodes
  suffixes : t.suffixes.length = maxCodes
  lengths : t.lengths.length = maxCodes
  first_le : first ≤ t.next
  next_le : t.next ≤ maxCodes
  bytes : ∀ c, c < 256 → t.lengths[c]? = some 1
  chain : ∀ c, first ≤ c → c < t.next →
    ∃ p, t.prefixes[c]? = some p ∧ p < c ∧ IsString p

theorem Tables.start_built : Tables.start.Built where
  prefixes := by simp [start]
  suffixes := by simp [start]
  lengths := by simp [start]
  first_le := Nat.le_refl _
  next_le := by decide
  bytes := by
    intro c hc
    have hlt : c < maxCodes := by
      unfold maxCodes
      omega
    simp [start, hlt, hc]
  chain := by
    intro c hc hlt
    exact absurd hlt (Nat.not_lt.2 hc)

theorem Tables.Built.cleared {t : Tables} (ht : t.Built) : { t with next := first }.Built where
  prefixes := ht.prefixes
  suffixes := ht.suffixes
  lengths := ht.lengths
  first_le := Nat.le_refl _
  next_le := Nat.le_trans ht.first_le ht.next_le
  bytes := ht.bytes
  chain := by
    intro c hc hlt
    exact absurd hlt (Nat.not_lt.2 hc)

/-- A chain of entries ends, at a single byte. -/
theorem Tables.walk_sound {t : Tables} (ht : t.Built) (fuel : Nat) :
    ∀ {c : Nat} {scratch : List UInt8}, IsString c → c < t.next → c < fuel →
      Sound (t.walk fuel c scratch) fun text => text ≠ [] := by
  induction fuel with
  | zero =>
    intro c scratch _ _ hfuel
    omega
  | succ fuel ih =>
    intro c scratch hc hlt hfuel
    have hmax : c < maxCodes := Nat.lt_of_lt_of_le hlt ht.next_le
    unfold walk
    refine Sound.bind (Sound.index (by rw [ht.suffixes]; exact hmax)) fun suffix _ => ?_
    refine Sound.bind (Sound.index (by rw [ht.lengths]; exact hmax)) fun length hlength => ?_
    split
    · exact List.cons_ne_nil _ _
    · rename_i hne
      rcases hc with hc | hc
      · rw [ht.bytes c hc] at hlength
        exact absurd (Option.some.inj hlength).symm hne
      · obtain ⟨p, hp, hpc, hstring⟩ := ht.chain c hc hlt
        refine Sound.bind (Sound.index (by rw [ht.prefixes]; exact hmax)) fun q hq => ?_
        cases hq.symm.trans hp
        exact ih hstring (by omega) (by omega)

/-- One entry more, of a string that is there. -/
theorem Tables.grow_sound {t : Tables} (ht : t.Built) {prev : Nat} (byte : UInt8)
    (hprev : IsString prev) (hlt : prev < t.next) :
    Sound (t.grow prev byte) fun t' => t'.Built ∧ t.next ≤ t'.next ∧
      (t.next < maxCodes → t.next < t'.next) := by
  unfold grow
  split
  · rename_i hroom
    have hfirst := ht.first_le
    refine Sound.bind (Sound.store (by rw [ht.prefixes]; exact hroom)) fun prefixes hprefixes => ?_
    refine Sound.bind (Sound.store (by rw [ht.suffixes]; exact hroom)) fun suffixes hsuffixes => ?_
    refine Sound.bind (Sound.index (by rw [ht.lengths]; omega)) fun length _ => ?_
    refine Sound.bind (Sound.store (by rw [ht.lengths]; exact hroom)) fun lengths hlengths => ?_
    refine ⟨⟨?_, ?_, ?_, ?_, ?_, ?_, ?_⟩, by simp, fun _ => by simp⟩
    · rw [hprefixes.2, ht.prefixes]
    · rw [hsuffixes.2, ht.suffixes]
    · rw [hlengths.2, ht.lengths]
    · show first ≤ t.next + 1
      omega
    · show t.next + 1 ≤ maxCodes
      omega
    · intro c hc
      have hne : t.next ≠ c := by
        unfold first at hfirst
        omega
      rw [hlengths.1, List.getElem?_set_ne hne]
      exact ht.bytes c hc
    · intro c hc hcn
      have hcn' : c < t.next + 1 := hcn
      rw [hprefixes.1]
      by_cases heq : c = t.next
      · subst heq
        exact ⟨prev, by rw [List.getElem?_set_self (by rw [ht.prefixes]; exact hroom)], hlt, hprev⟩
      · rw [List.getElem?_set_ne (Ne.symm heq)]
        exact ht.chain c hc (by omega)
  · exact ⟨ht, Nat.le_refl _, fun h => absurd h ‹_›⟩

/-! ## The loop -/

/-- Between two codes: the table is built, the previous code is one of it, and
the bits left over are fewer than a byte. -/
structure State.Ready (s : State) : Prop where
  tables : s.tables.Built
  width : 9 ≤ s.width ∧ s.width ≤ 12
  previous : ∀ p, s.previous = some p → IsString p ∧ p < s.tables.next

/-- Bits that are still to come. -/
def State.left (s : State) : Nat := s.nbits + 8 * s.bytes.length

theorem refill_spec {width : Nat} {bytes rest : List UInt8} {bits nbits bits' nbits' : Nat}
    (h : refill width bits nbits bytes = some (bits', nbits', rest)) :
    width ≤ nbits' ∧ nbits' + 8 * rest.length = nbits + 8 * bytes.length := by
  induction bytes generalizing bits nbits with
  | nil =>
    unfold refill at h
    split at h
    · cases h
    · cases h
      exact ⟨by omega, rfl⟩
  | cons b bytes ih =>
    unfold refill at h
    split at h
    · have := ih h
      simp only [List.length_cons]
      omega
    · cases h
      exact ⟨by omega, rfl⟩

theorem width_bounds (t : Tables) : 9 ≤ t.width ∧ t.width ≤ 12 := by
  unfold Tables.width
  split
  · omega
  · split
    · omega
    · split <;> omega

/-- A string's code fits the table: it is there, or about to be. -/
theorem State.string_sound {s : State} (hs : s.Ready) {code prev : Nat}
    (hprev : s.previous = some prev) (hcode : code ≠ clear ∧ code ≠ end_)
    (hlt : code < maxCodes) :
    Sound (s.string code prev) fun s' => s'.Ready ∧ s'.left = s.left := by
  have hstring : IsString code := by
    unfold IsString first
    unfold clear end_ at hcode
    omega
  obtain ⟨hp, hpn⟩ := hs.previous prev hprev
  have hmax := hs.tables.next_le
  unfold string
  simp only
  split
  · exact Sound.fail
  · rename_i hknown
    have hsource : IsString (if decide (code < s.tables.next) then code else prev) ∧
        (if decide (code < s.tables.next) then code else prev) < s.tables.next := by
      split
      · rename_i h
        exact ⟨hstring, by simpa using h⟩
      · exact ⟨hp, hpn⟩
    have hfuel := Nat.lt_of_lt_of_le hsource.2 hmax
    refine Sound.bind (Tables.walk_sound hs.tables maxCodes hsource.1 hsource.2 hfuel)
      fun text htext => ?_
    refine Sound.bind (Sound.index (List.length_pos_iff.2 htext)) fun byte _ => ?_
    refine Sound.bind (Tables.grow_sound hs.tables byte hp hpn) fun tables htables => ?_
    refine ⟨⟨htables.1, width_bounds tables, ?_⟩, rfl⟩
    intro p hpc
    cases hpc
    refine ⟨hstring, ?_⟩
    by_cases h : code < s.tables.next
    · exact Nat.lt_of_lt_of_le h htables.2.1
    · have heq : code = s.tables.next := by simpa [h] using hknown
      rw [heq]
      exact htables.2.2 (by omega)

/-- One code: at least nine bits fewer are left. -/
theorem State.step_sound {s : State} (hs : s.Ready) :
    Sound s.step fun r => ∀ s', r = .inl s' → s'.Ready ∧ s'.left < s.left := by
  unfold step
  split
  · intro s' h
    cases h
  · rename_i bits nbits bytes hrefill
    obtain ⟨hwidth, hleft⟩ := refill_spec hrefill
    refine Sound.bind (Sound.sub hwidth) fun nbits' hnbits => ?_
    subst hnbits
    have hless : nbits - s.width + 8 * bytes.length < s.left := by
      have := hs.width.1
      unfold left
      omega
    simp only
    split
    · intro s' h
      cases h
    · rename_i hend
      split
      · intro s' h
        cases h
        refine ⟨⟨hs.tables.cleared, ⟨Nat.le_refl 9, Nat.le_add_right 9 3⟩, ?_⟩, hless⟩
        intro p hp
        cases hp
      · rename_i hclear
        split
        · split
          · exact Sound.fail
          · rename_i hcode
            intro s' h
            cases h
            refine ⟨⟨hs.tables, hs.width, ?_⟩, hless⟩
            intro p hp
            cases hp
            have hfirst : 258 ≤ s.tables.next := hs.tables.first_le
            have hbyte := Nat.not_lt.1 hcode
            refine ⟨Or.inl (Nat.lt_succ_of_le hbyte), ?_⟩
            exact Nat.lt_of_le_of_lt hbyte (Nat.lt_of_lt_of_le (by decide) hfirst)
        · rename_i prev hprev
          have hpow : 2 ^ s.width ≤ maxCodes := by
            have := Nat.pow_le_pow_right (show 0 < 2 by decide) hs.width.2
            exact this
          have hcode : bits / 2 ^ (nbits - s.width) % 2 ^ s.width < maxCodes :=
            Nat.lt_of_lt_of_le (Nat.mod_lt _ (Nat.two_pow_pos _)) hpow
          refine Sound.bind (State.string_sound
            (s := { s with bits := bits % 2 ^ (nbits - s.width), nbits := nbits - s.width
                           bytes := bytes })
            ⟨hs.tables, hs.width, hs.previous⟩ hprev ⟨hclear, hend⟩ hcode) fun s'' hs'' => ?_
          intro s' h
          cases h
          refine ⟨hs''.1, ?_⟩
          rw [hs''.2]
          exact hless

theorem State.loop_sound (fuel : Nat) :
    ∀ {s : State}, s.Ready → s.left < fuel → Sound (s.loop fuel) fun _ => True := by
  induction fuel with
  | zero =>
    intro s _ h
    omega
  | succ fuel ih =>
    intro s hs hfuel
    unfold loop
    refine Sound.bind (State.step_sound hs) fun r hr => ?_
    cases r with
    | inl s' =>
      obtain ⟨hs', hleft⟩ := hr s' rfl
      exact ih hs' (by omega)
    | inr out => trivial

theorem decode_sound (input : List UInt8) : Sound (decode input) fun _ => True := by
  refine State.loop_sound _ ⟨Tables.start_built, ⟨Nat.le_refl 9, Nat.le_add_right 9 3⟩, ?_⟩ ?_
  · intro p hp
    cases hp
  · simp [State.left]

end Xeibe.Reproject.Grid.Lzw

import Xeibe.Core.Splitter.Model

/-!
# The window over the input

The splitter sees its input through a window that grows with every read and
shrinks with every `compact`.  `Splitter.whole input` is the same splitter
with the whole input in its window: `buf` is the input, `base` is `0`, and
nothing is left to read.  It is the splitter that reads the source in one
go.

`Window input s` says that the window of `s` shows a part of `input` and
that the bytes a later step may still copy are in it.  Every scanning
function answers on a window what it answers on the whole input; `Agrees`
states that, for results and errors alike.  A scan that resumes after a read
is covered by `scan_agrees`: its two hypotheses say that what is found in
the bytes so far is what the whole input gives, and that the place
remembered across a read loses nothing.

`step_agrees` lifts this to one step, and `chunks_agrees` to a whole run.
-/

namespace Xeibe

open Lib

namespace Splitter

/-! ## Readers -/

/-- The script of a reader that delivers `input`: non-empty reads of any
sizes, interrupted anywhere, and no other error. -/
inductive Delivers : List Read → Bytes → Prop where
  | done : Delivers [] []
  | bytes {block : Bytes} {reader : List Read} {input : Bytes} (hne : block ≠ [])
      (rest : Delivers reader input) : Delivers (.bytes block :: reader) (block ++ input)
  | interrupted {reader : List Read} {input : Bytes} (rest : Delivers reader input) :
      Delivers (.interrupted :: reader) input

theorem Delivers.scriptBytes {reader : List Read} {input : Bytes} (h : Delivers reader input) :
    scriptBytes reader = input.length := by
  induction h with
  | done => rfl
  | bytes hne rest ih =>
    rw [List.length_append, ← ih]
    rfl
  | interrupted rest ih =>
    rw [← ih]
    simp [Splitter.scriptBytes]

theorem readBlock_delivers {reader : List Read} {input : Bytes} (h : Delivers reader input) :
    ∃ block reader' rest, readBlock reader = .ok (block, reader') ∧ input = block ++ rest ∧
      Delivers reader' rest ∧ (block = [] → rest = []) ∧ reader'.length ≤ reader.length ∧
      (block ≠ [] → reader'.length < reader.length) := by
  induction h with
  | done =>
    exact ⟨[], [], [], rfl, rfl, .done, fun _ => rfl, Nat.le_refl _, fun h => absurd rfl h⟩
  | @bytes block reader input hne rest ih =>
    exact ⟨block, reader, input, rfl, rfl, rest, fun h => absurd h hne, Nat.le_succ _,
      fun _ => Nat.lt_succ_self _⟩
  | @interrupted reader input rest ih =>
    obtain ⟨block, reader', rest', hread, hinput, hdel, hend, hle, -⟩ := ih
    refine ⟨block, reader', rest', hread, hinput, hdel, hend, Nat.le_succ_of_le hle, fun _ => ?_⟩
    exact Nat.lt_succ_of_le hle

/-! ## The window -/

/-- The splitter with the whole input in its window. -/
def whole (input : Bytes) (s : Splitter) : Splitter :=
  { s with reader := [], buf := input, pos := s.base + s.pos, base := 0, eof := true }

/-- The stream offset a mode or a root candidate still needs. -/
def keeps (s : Splitter) : List Nat :=
  (match s.mode with
    | .feature _ true start _ => [start]
    | _ => []) ++ s.rootCandidate.toList

/-- The window of `s` shows a part of `input`, the reader delivers what
follows, and every byte a later step may copy is in the window. -/
structure Window (input : Bytes) (s : Splitter) : Prop where
  shows : ∃ before rest, input = before ++ (s.buf ++ rest) ∧ before.length = s.base ∧
    Delivers s.reader rest ∧ (s.eof = true → rest = [])
  pos_le : s.pos ≤ s.buf.length
  kept : ∀ start ∈ s.keeps, s.base ≤ start ∧ start ≤ s.base + s.pos
  /-- The `boundedBy` of a collection is always copied. -/
  bounds : ∀ depth emit start, s.mode = .feature depth emit start true → emit = true

section

variable {input : Bytes} {s s' : Splitter}

theorem Window.base_add_le (h : Window input s) : s.base + s.buf.length ≤ input.length := by
  obtain ⟨before, rest, hinput, hbase, -, -⟩ := h.shows
  have := congrArg List.length hinput
  simp only [List.length_append] at this
  omega

theorem Window.slice_eq (h : Window input s) {i j : Nat} (hj : j ≤ s.buf.length) :
    slice s.buf i j = slice input (s.base + i) (s.base + j) := by
  obtain ⟨before, rest, hinput, hbase, -, -⟩ := h.shows
  rw [hinput, ← hbase, slice_append_right, slice_append_left hj]

theorem Window.byte_eq (h : Window input s) {i : Nat} (hi : i < s.buf.length) :
    s.byte i = (s.whole input).byte (s.base + i) := by
  obtain ⟨before, rest, hinput, hbase, -, -⟩ := h.shows
  simp only [byte, whole]
  rw [hinput, ← hbase, List.getD_eq_getElem?_getD, List.getD_eq_getElem?_getD,
    List.getElem?_append_right (Nat.le_add_right _ _), Nat.add_sub_cancel_left,
    List.getElem?_append_left hi]

theorem Window.drop_eq (h : Window input s) :
    ∃ rest, input.drop (s.base + s.pos) = s.buf.drop s.pos ++ rest := by
  obtain ⟨before, rest, hinput, hbase, -, -⟩ := h.shows
  refine ⟨rest, ?_⟩
  rw [hinput, ← hbase, ← List.drop_drop, List.drop_left,
    List.drop_append_of_le_length h.pos_le]

theorem Window.drop_eq_of_end (h : Window input s)
    (hend : s.base + s.buf.length = input.length) :
    input.drop (s.base + s.pos) = s.buf.drop s.pos := by
  obtain ⟨rest, hrest⟩ := h.drop_eq
  have := congrArg List.length hrest
  simp only [List.length_append, List.length_drop] at this
  have hnil : rest = [] := List.eq_nil_of_length_eq_zero (by have := h.pos_le; omega)
  rw [hrest, hnil, List.append_nil]

@[simp] theorem whole_reader : (s.whole input).reader = [] := rfl
@[simp] theorem whole_buf : (s.whole input).buf = input := rfl
@[simp] theorem whole_pos : (s.whole input).pos = s.base + s.pos := rfl
@[simp] theorem whole_base : (s.whole input).base = 0 := rfl
@[simp] theorem whole_options : (s.whole input).options = s.options := rfl
@[simp] theorem whole_mode : (s.whole input).mode = s.mode := rfl
@[simp] theorem whole_stack : (s.whole input).stack = s.stack := rfl
@[simp] theorem whole_bindings : (s.whole input).bindings = s.bindings := rfl
@[simp] theorem whole_context : (s.whole input).context = s.context := rfl
@[simp] theorem whole_rootCandidate : (s.whole input).rootCandidate = s.rootCandidate := rfl
@[simp] theorem whole_ready : (s.whole input).ready = s.ready := rfl
@[simp] theorem whole_featureName : (s.whole input).featureName = s.featureName := rfl
@[simp] theorem whole_names : (s.whole input).names = s.names := rfl

theorem error_whole (s : Splitter) (input : Bytes) (i : Nat) (message : Message) :
    (s.whole input).error (s.base + i) message = s.error i message := by
  simp [error, location, whole]

theorem Window.toWhole (h : Window input s) : Window input (s.whole input) where
  shows := ⟨[], [], by simp, rfl, .done, fun _ => rfl⟩
  pos_le := by
    have := h.base_add_le
    have := h.pos_le
    simp only [whole_pos, whole_buf]
    omega
  kept := by
    intro start hstart
    have := h.kept start (by simpa [keeps] using hstart)
    simp only [whole_base, whole_pos]
    omega
  bounds := h.bounds

theorem base_add_pos_eq (h : s'.whole input = s.whole input) :
    s'.base + s'.pos = s.base + s.pos := congrArg Splitter.pos h

/-! ## Reading more -/

theorem consumed_le_pos (s : Splitter) : s.consumed ≤ s.pos := by
  unfold consumed
  dsimp only
  split <;> split <;> omega

/-- `compact` drops no byte that is kept. -/
theorem consumed_le_kept {start : Nat} (h : start ∈ s.keeps) : s.consumed ≤ start - s.base := by
  unfold keeps at h
  unfold consumed
  rcases List.mem_append.1 h with hmode | hroot
  · have hfeature : ∃ depth bounded, s.mode = .feature depth true start bounded := by
      split at hmode
      · rename_i depth start' bounded hm
        have : start = start' := by simpa using hmode
        exact ⟨depth, bounded, by rw [hm, this]⟩
      · simp at hmode
    obtain ⟨depth, bounded, hm⟩ := hfeature
    rw [hm]
    dsimp only
    split <;> omega
  · have hr : s.rootCandidate = some start := by simpa using hroot
    rw [hr]
    exact Nat.min_le_right _ _

theorem compact_eq (s : Splitter) :
    s.compact =
      { s with
        buf := s.buf.drop s.consumed, pos := s.pos - s.consumed, base := s.base + s.consumed } := by
  unfold compact
  dsimp only
  split
  · rename_i h
    rw [h]
    rfl
  · rfl

theorem compact_window (h : Window input s) :
    Window input s.compact ∧ s.compact.whole input = s.whole input ∧
      s.compact.reader = s.reader ∧ s.compact.buf.drop s.compact.pos = s.buf.drop s.pos ∧
      s.compact.base + s.compact.buf.length = s.base + s.buf.length := by
  obtain ⟨before, rest, hinput, hbase, hdel, heof⟩ := h.shows
  have hpos := h.pos_le
  have hkeep := s.consumed_le_pos
  rw [compact_eq]
  refine ⟨⟨?_, ?_, ?_, h.bounds⟩, ?_, rfl, ?_, ?_⟩
  · refine ⟨before ++ s.buf.take s.consumed, rest, ?_, ?_, hdel, heof⟩
    · rw [hinput, List.append_assoc, ← List.append_assoc (s.buf.take s.consumed),
        List.take_append_drop]
    · simp only [List.length_append, List.length_take, hbase]
      omega
  · simp only [List.length_drop]
    omega
  · intro start hstart
    have := h.kept start hstart
    have : s.consumed ≤ start - s.base := consumed_le_kept hstart
    dsimp only
    omega
  · simp only [whole]
    congr 1
    omega
  · simp only [List.drop_drop, Nat.add_sub_cancel' hkeep]
  · simp only [List.length_drop]
    omega

/-- Reading more keeps the place in the input; it fails to give more only at
the end of the input. -/
theorem fill_window (h : Window input s) :
    ∃ more s', s.fill = .ok (more, s') ∧ Window input s' ∧ s'.whole input = s.whole input ∧
      (∃ block, s'.buf.drop s'.pos = s.buf.drop s.pos ++ block) ∧
      s'.reader.length ≤ s.reader.length ∧
      (more = true → s'.reader.length < s.reader.length) ∧
      (more = false → s.base + s.buf.length = input.length ∧
        s'.base + s'.buf.length = input.length) := by
  unfold fill
  by_cases heof : s.eof = true
  · obtain ⟨before, rest, hinput, hbase, hdel, hrest⟩ := h.shows
    refine ⟨false, s, by rw [if_pos heof], h, rfl, ⟨[], (List.append_nil _).symm⟩,
      Nat.le_refl _, nofun, fun _ => ?_⟩
    have := congrArg List.length hinput
    simp only [hrest heof, List.append_nil, List.length_append] at this
    constructor <;> omega
  · obtain ⟨hw, hwhole, hreader, hdrop, hlen⟩ := compact_window h
    obtain ⟨before, rest, hinput, hbase, hdel, -⟩ := hw.shows
    obtain ⟨block, reader', rest', hread, hrest, hdel', hend, hle, hshort⟩ :=
      readBlock_delivers hdel
    refine ⟨!block.isEmpty,
      { s.compact with reader := reader', buf := s.compact.buf ++ block, eof := block.isEmpty },
      ?_, ⟨⟨before, rest', ?_, hbase, hdel', ?_⟩, ?_, hw.kept, hw.bounds⟩, hwhole,
      ⟨block, ?_⟩, ?_, ?_, ?_⟩
    · rw [if_neg heof]
      simp only [hread, Except.map]
    · rw [hinput, hrest, List.append_assoc]
    · intro hb
      exact hend (by simpa using hb)
    · simp only [List.length_append]
      have := hw.pos_le
      omega
    · rw [List.drop_append_of_le_length hw.pos_le, hdrop]
    · rwa [hreader] at hle
    · intro hb
      have := hshort (by simpa using hb)
      rwa [hreader] at this
    · intro hb
      have hblock : block = [] := by simpa using hb
      have := congrArg List.length hinput
      rw [hrest, hblock, hend hblock] at this
      simp only [List.length_append, List.length_nil] at this
      simp only [hblock, List.append_nil] at this ⊢
      constructor <;> omega

@[simp] theorem fill_whole : (s.whole input).fill = .ok (false, s.whole input) := rfl

/-! ## Agreement of results -/

/-- The result `r` of a window and the result `w` of the whole input: the same
error, or values related by `rel` at the same place of the input. -/
inductive Agrees {α : Type} (input : Bytes) (rel : Splitter → α → α → Prop) :
    Except Error (α × Splitter) → Except Error (α × Splitter) → Prop where
  | ok {a a' : α} {s : Splitter} (window : Window input s) (related : rel s a a') :
      Agrees input rel (.ok (a, s)) (.ok (a', s.whole input))
  | error (e : Error) : Agrees input rel (.error e) (.error e)

variable {α β : Type}

theorem Agrees.bind {rel : Splitter → α → α → Prop} {rel' : Splitter → β → β → Prop}
    {r w : Except Error (α × Splitter)} {f g : α × Splitter → Except Error (β × Splitter)}
    (h : Agrees input rel r w)
    (hf : ∀ s a a', Window input s → rel s a a' →
      Agrees input rel' (f (a, s)) (g (a', s.whole input))) :
    Agrees input rel' (r >>= f) (w >>= g) := by
  cases h with
  | ok window related => exact hf _ _ _ window related
  | error e => exact .error e

theorem Agrees.imp {rel rel' : Splitter → α → α → Prop} {r w : Except Error (α × Splitter)}
    (h : Agrees input rel r w) (himp : ∀ s a a', Window input s → rel s a a' → rel' s a a') :
    Agrees input rel' r w := by
  cases h with
  | ok window related => exact .ok window (himp _ _ _ window related)
  | error e => exact .error e

/-! ## Scans that resume after a read -/

/-- What a search from `start` on has come to: a place, or where the next one starts. -/
def hitOr (start next : Nat) : Option Nat → Nat ⊕ Nat
  | some i => .inl (start + i)
  | none => .inr next

@[simp] theorem hitOr_some (start next i : Nat) : hitOr start next (some i) = .inl (start + i) := rfl

@[simp] theorem hitOr_none (start next : Nat) : hitOr start next none = .inr next := rfl

/-- A scan agrees with the scan of the whole input.  `g` is what the scan does
with the unread bytes.  What it finds in a first part of them is what it finds
in all of them (`found`), and from the place it remembers it goes on as it
would have from the place before (`resume`).  `fits` bounds the places. -/
theorem scan_agrees (look : Splitter → β → α ⊕ β) (atEof : Splitter → Error)
    (g : Bytes → β → α ⊕ β) (fits : Bytes → β → Prop)
    (hlook : ∀ s b, look s b = g (s.buf.drop s.pos) b)
    (hatEof : ∀ s : Splitter, atEof (s.whole input) = atEof s)
    (found : ∀ bytes b a, fits bytes b → g bytes b = .inl a → ∀ more, g (bytes ++ more) b = .inl a)
    (resume : ∀ bytes b b', fits bytes b → g bytes b = .inr b' → ∀ more,
      g (bytes ++ more) b' = g (bytes ++ more) b ∧ fits (bytes ++ more) b') :
    ∀ (fuel : Nat) (s : Splitter) (b : β), Window input s → fits (s.buf.drop s.pos) b →
      s.reader.length < fuel →
      Agrees input (fun s a a' => a = a' ∧ ∃ b, fits (s.buf.drop s.pos) b ∧
          g (s.buf.drop s.pos) b = .inl a)
        (scan look atEof fuel s b) (scan look atEof 1 (s.whole input) b) := by
  have hwhole : ∀ (s : Splitter) (b : β), scan look atEof 1 (s.whole input) b =
      (g (input.drop (s.base + s.pos)) b).elim (fun a => .ok (a, s.whole input))
        fun _ => .error (atEof s) := by
    intro s b
    rw [scan, hlook, whole_buf, whole_pos]
    cases hg : g (input.drop (s.base + s.pos)) b with
    | inl a => rfl
    | inr b' =>
      simp only [fill_whole, bind, Except.bind, hatEof]
      rfl
  intro fuel
  induction fuel with
  | zero => intro s b _ _ hfuel; exact absurd hfuel (Nat.not_lt_zero _)
  | succ fuel ih =>
    intro s b hs hfits hfuel
    obtain ⟨rest, hrest⟩ := hs.drop_eq
    rw [scan, hlook]
    cases hg : g (s.buf.drop s.pos) b with
    | inl a =>
      have hall : g (input.drop (s.base + s.pos)) b = .inl a := by
        rw [hrest]
        exact found _ _ _ hfits hg _
      rw [hwhole, hall]
      exact .ok hs ⟨rfl, b, hfits, hg⟩
    | inr b' =>
      obtain ⟨more, s', hfill, hw', hwhole', ⟨block, hblock⟩, -, hshort, hend⟩ := fill_window hs
      simp only [hfill, bind, Except.bind]
      cases more with
      | false =>
        -- At the end of the input the whole is what the window shows.
        have hall : g (input.drop (s.base + s.pos)) b = .inr b' := by
          rw [hs.drop_eq_of_end (hend rfl).1, hg]
        have heof : atEof s' = atEof s := by rw [← hatEof s', ← hatEof s, hwhole']
        rw [hwhole, hall, heof]
        exact .error _
      | true =>
        have hsame := (resume _ _ _ hfits hg rest).1
        have hfits' := (resume _ _ _ hfits hg block).2
        rw [← hblock] at hfits'
        have hagain := ih s' b' hw' hfits' (by have := hshort rfl; omega)
        have hscan : scan look atEof 1 (s'.whole input) b' =
            scan look atEof 1 (s.whole input) b := by
          rw [hwhole', hwhole, hwhole, hrest, hsame]
        rw [← hscan]
        exact hagain

/-- The result `r` of a window and the result `w` of the whole input, where
only the state matters; `post` holds of the window after it. -/
inductive AgreesState (input : Bytes) (post : Splitter → Prop) :
    Except Error Splitter → Except Error Splitter → Prop where
  | ok {s : Splitter} (window : Window input s) (holds : post s) :
      AgreesState input post (.ok s) (.ok (s.whole input))
  | error (e : Error) : AgreesState input post (.error e) (.error e)

theorem AgreesState.bind {post : Splitter → Prop} {rel : Splitter → α → α → Prop}
    {r w : Except Error Splitter} {f g : Splitter → Except Error (α × Splitter)}
    (h : AgreesState input post r w)
    (hf : ∀ s, Window input s → post s → Agrees input rel (f s) (g (s.whole input))) :
    Agrees input rel (r >>= f) (w >>= g) := by
  cases h with
  | ok window holds => exact hf _ window holds
  | error e => exact .error e

theorem Agrees.bindState {rel : Splitter → α → α → Prop} {post : Splitter → Prop}
    {r w : Except Error (α × Splitter)} {f g : α × Splitter → Except Error Splitter}
    (h : Agrees input rel r w)
    (hf : ∀ s a a', Window input s → rel s a a' →
      AgreesState input post (f (a, s)) (g (a', s.whole input))) :
    AgreesState input post (r >>= f) (w >>= g) := by
  cases h with
  | ok window related => exact hf _ _ _ window related
  | error e => exact .error e

/-- `need` makes the bytes it is asked for available. -/
theorem need_agrees (hs : Window input s) (n : Nat) :
    AgreesState input (fun s => n ≤ s.buf.length - s.pos) (s.need n) ((s.whole input).need n) := by
  have hscan := scan_agrees
    (fun (s : Splitter) (_ : Unit) =>
      if s.buf.length - s.pos < n then Sum.inr () else Sum.inl ())
    (fun s : Splitter => s.error s.pos [.text "unexpected end of input in markup"])
    (fun bytes (_ : Unit) =>
      if bytes.length < n then Sum.inr () else Sum.inl ())
    (fun _ _ => True) (fun s _ => by simp only [List.length_drop])
    (fun s => s.error_whole input s.pos _)
    (fun bytes _ _ _ hg more => by
      have hlen : ¬ bytes.length < n := fun h => by simp [h] at hg
      rw [if_neg (by rw [List.length_append]; omega)])
    (fun _ _ _ _ _ _ => ⟨rfl, trivial⟩)
    (s.reader.length + 1) s () hs trivial (Nat.lt_succ_self _)
  unfold need
  refine hscan.bindState fun s' _ _ hw hrel => .ok hw ?_
  obtain ⟨-, _, -, hg⟩ := hrel
  by_contra hlt
  rw [if_pos (by rw [List.length_drop]; omega)] at hg
  cases hg

/-- `find` finds in the window what is first in the whole input. -/
theorem find_agrees (hs : Window input s) {start : Nat} {pattern : Bytes} (hp : pattern ≠ [])
    (hstart : start ≤ s.buf.length - s.pos) :
    Agrees input (fun s i i' => i = i' ∧ i + pattern.length ≤ s.buf.length - s.pos)
      (s.find start pattern) ((s.whole input).find start pattern) := by
  have hpos : 0 < pattern.length := List.length_pos_of_ne_nil hp
  have hscan := scan_agrees
    (fun (s : Splitter) (start : Nat) =>
      hitOr start (max ((s.buf.length - s.pos) - (pattern.length - 1)) start)
        (indexOf pattern (s.buf.drop (s.pos + start))))
    (fun s : Splitter => s.error s.pos [.text "unexpected end of input in markup"])
    (fun bytes start =>
      hitOr start (max (bytes.length - (pattern.length - 1)) start)
        (indexOf pattern (bytes.drop start)))
    (fun bytes start => start ≤ bytes.length)
    (fun s start => by rw [List.drop_drop, List.length_drop])
    (fun s => s.error_whole input s.pos _)
    (fun bytes start i hle hg more => by
      rw [List.drop_append_of_le_length hle]
      cases hi : indexOf pattern (bytes.drop start) with
      | none => simp [hi] at hg
      | some j =>
        rw [indexOf_append_of_some hi]
        simpa [hi] using hg)
    (fun bytes start start' hle hg more => by
      cases hi : indexOf pattern (bytes.drop start) with
      | some j => simp [hi] at hg
      | none =>
        have hstart' : start' = max (bytes.length - (pattern.length - 1)) start := by
          simpa [hi, eq_comm] using hg
        have hskip := indexOf_resume hp hi more
        have hk : start + ((bytes.drop start).length - (pattern.length - 1)) = start' := by
          rw [List.length_drop]
          omega
        rw [← List.drop_append_of_le_length hle, List.drop_drop, hk] at hskip
        refine ⟨?_, by rw [List.length_append]; omega⟩
        rw [hskip]
        cases indexOf pattern ((bytes ++ more).drop start') with
        | none =>
          simp only [Option.map_none, hitOr_none, List.length_append]
          congr 1
          omega
        | some j =>
          simp only [Option.map_some, hitOr_some]
          congr 1
          omega)
    (s.reader.length + 1) s start hs (by rw [List.length_drop]; exact hstart) (Nat.lt_succ_self _)
  unfold find
  refine hscan.imp fun s' i i' _ hrel => ?_
  obtain ⟨rfl, start', hle, hg⟩ := hrel
  refine ⟨rfl, ?_⟩
  cases hi : indexOf pattern ((s'.buf.drop s'.pos).drop start') with
  | none =>
    rw [hi] at hg
    cases hg
  | some j =>
    rw [hi] at hg
    have hij : start' + j = i := Sum.inl.inj hg
    have := indexOf_add_length_le hi
    simp only [List.length_drop] at this hle
    omega

theorem scanQuotes_append (a b : Bytes) (i : Nat) (quote : Option UInt8) :
    scanQuotes (a ++ b) i quote =
      match scanQuotes a i quote with
      | .inl close => .inl close
      | .inr (j, quote) => scanQuotes b j quote := by
  induction a generalizing i quote with
  | nil => rw [List.nil_append, scanQuotes]
  | cons x a ih =>
    cases quote with
    | none =>
      simp only [List.cons_append, scanQuotes]
      split
      · rfl
      · split <;> exact ih _ _
    | some q =>
      simp only [List.cons_append, scanQuotes]
      split <;> exact ih _ _

/-- A scan for the closing `>` that does not find it reaches the end of the
bytes. -/
theorem scanQuotes_inr {bytes : Bytes} {i j : Nat} {quote quote' : Option UInt8}
    (h : scanQuotes bytes i quote = .inr (j, quote')) : j = i + bytes.length := by
  induction bytes generalizing i quote with
  | nil =>
    rw [scanQuotes] at h
    cases h
    rfl
  | cons x bytes ih =>
    rw [List.length_cons]
    cases quote with
    | none =>
      simp only [scanQuotes] at h
      split at h
      · cases h
      · split at h <;> · have := ih h; omega
    | some q =>
      simp only [scanQuotes] at h
      split at h <;> · have := ih h; omega

/-- The closing `>` is one of the bytes. -/
theorem scanQuotes_inl {bytes : Bytes} {i close : Nat} {quote : Option UInt8}
    (h : scanQuotes bytes i quote = .inl close) : i ≤ close ∧ close < i + bytes.length := by
  induction bytes generalizing i quote with
  | nil => cases h
  | cons x bytes ih =>
    rw [List.length_cons]
    cases quote with
    | none =>
      simp only [scanQuotes] at h
      split at h
      · cases h
        omega
      · split at h <;> · have := ih h; omega
    | some q =>
      simp only [scanQuotes] at h
      split at h <;> · have := ih h; omega

theorem scanStartTag_agrees (hs : Window input s) (hlen : 1 ≤ s.buf.length - s.pos) :
    Agrees input (fun s a a' => a = a' ∧ 1 ≤ a.1 ∧ a.1 + 1 ≤ s.buf.length - s.pos)
      s.scanStartTag (s.whole input).scanStartTag := by
  have hname := scan_agrees
    (fun (s : Splitter) (i : Nat) =>
      hitOr i (s.buf.drop s.pos).length (((s.buf.drop s.pos).drop i).findIdx? isNameEnd))
    (fun s : Splitter =>
      s.error s.pos [.text "unexpected end of input in a start tag"])
    (fun bytes i => hitOr i bytes.length ((bytes.drop i).findIdx? isNameEnd))
    (fun bytes i => 1 ≤ i ∧ i ≤ bytes.length) (fun _ _ => rfl)
    (fun s => s.error_whole input s.pos _)
    (fun bytes i nameEnd hi hg more => by
      rw [List.drop_append_of_le_length hi.2, List.findIdx?_append]
      cases hi : (bytes.drop i).findIdx? isNameEnd with
      | none => simp [hi] at hg
      | some j => simpa [hi] using hg)
    (fun bytes i i' hin hg more => by
      obtain ⟨hpos, hle⟩ := hin
      cases hi : (bytes.drop i).findIdx? isNameEnd with
      | some j => simp [hi] at hg
      | none =>
        have hi' : i' = bytes.length := by simpa [hi, eq_comm] using hg
        refine ⟨?_, by rw [List.length_append]; omega⟩
        rw [hi', List.drop_append_of_le_length hle, List.findIdx?_append, hi, List.drop_left,
          Option.none_or]
        cases more.findIdx? isNameEnd with
        | none => rfl
        | some j =>
          simp only [Option.map_some, hitOr_some, List.length_drop]
          congr 1
          omega)
    (s.reader.length + 1) s 1 hs (by rw [List.length_drop]; omega) (Nat.lt_succ_self _)
  unfold scanStartTag
  refine hname.bind fun s₁ nameEnd nameEnd' hw₁ hrel₁ => ?_
  obtain ⟨rfl, i, ⟨hpos, hi⟩, hg⟩ := hrel₁
  have hfit : 1 ≤ nameEnd ∧ nameEnd ≤ (s₁.buf.drop s₁.pos).length := by
    cases hj : ((s₁.buf.drop s₁.pos).drop i).findIdx? isNameEnd with
    | none =>
      rw [hj] at hg
      cases hg
    | some j =>
      rw [hj] at hg
      have hij : i + j = nameEnd := Sum.inl.inj hg
      obtain ⟨hlt, -⟩ := List.findIdx?_eq_some_iff_getElem.1 hj
      rw [List.length_drop] at hlt
      omega
  have hclose := scan_agrees
    (fun (s : Splitter) (state : Nat × Option UInt8) =>
      scanQuotes ((s.buf.drop s.pos).drop state.1) state.1 state.2)
    (fun s : Splitter =>
      s.error s.pos [.text "unexpected end of input in a start tag"])
    (fun bytes (state : Nat × Option UInt8) =>
      scanQuotes (bytes.drop state.1) state.1 state.2)
    (fun bytes state => 1 ≤ state.1 ∧ state.1 ≤ bytes.length) (fun _ _ => rfl)
    (fun s => s.error_whole input s.pos _)
    (fun bytes state close hin hg more => by
      simp only [List.drop_append_of_le_length hin.2, scanQuotes_append, hg])
    (fun bytes state state' hin hg more => by
      obtain ⟨hpos, hle⟩ := hin
      have hj : state'.1 = _ := scanQuotes_inr hg
      rw [List.length_drop] at hj
      have hall : state'.1 = bytes.length := by omega
      refine ⟨?_, by rw [List.length_append]; omega⟩
      simp only [List.drop_append_of_le_length hle, scanQuotes_append, hg, hall, List.drop_left])
    (s₁.reader.length + 1) s₁ (nameEnd, none) hw₁ hfit (Nat.lt_succ_self _)
  refine hclose.bind fun s₂ close close' hw₂ hrel₂ => ?_
  obtain ⟨rfl, state, ⟨hpos, hle⟩, hg⟩ := hrel₂
  refine .ok hw₂ ⟨rfl, ?_⟩
  have := scanQuotes_inl hg
  simp only [List.length_drop] at this hle
  dsimp only
  omega

/-! ## Markup -/

theorem Window.byte_pos_eq (hs : Window input s) {n : Nat} (hn : n < s.buf.length - s.pos) :
    s.byte (s.pos + n) = (s.whole input).byte ((s.whole input).pos + n) := by
  rw [hs.byte_eq (by omega), whole_pos, Nat.add_assoc]

theorem Window.slice_pos_eq (hs : Window input s) {m n : Nat} (hn : n ≤ s.buf.length - s.pos) :
    slice s.buf (s.pos + m) (s.pos + n) =
      slice (s.whole input).buf ((s.whole input).pos + m) ((s.whole input).pos + n) := by
  have := hs.pos_le
  rw [hs.slice_eq (by omega), whole_buf, whole_pos, Nat.add_assoc, Nat.add_assoc]

/-- A kind with its index counted from further to the left. -/
def shiftKind (k : Nat) : Kind → Kind
  | .start nameEnd empty => .start (k + nameEnd) empty
  | .endTag => .endTag
  | .other => .other

/-- Markup with its indices counted from further to the left. -/
def shiftMarkup (k : Nat) (markup : Markup) : Markup :=
  { kind := shiftKind k markup.kind, start := k + markup.start, stop := k + markup.stop }

/-- Related answers of `markupAt`: the markup lies in the window. -/
def SameKind (s : Splitter) (a a' : Kind × Nat) : Prop :=
  a' = (shiftKind s.base a.1, a.2) ∧ 1 ≤ a.2 ∧ a.2 ≤ s.buf.length - s.pos

theorem markupAt_agrees (hs : Window input s) :
    Agrees input SameKind s.markupAt (s.whole input).markupAt := by
  unfold markupAt
  refine (need_agrees hs 2).bind fun s hs h2 => ?_
  rw [← hs.byte_pos_eq (by omega)]
  split
  · refine (find_agrees hs (by decide) h2).bind fun s i i' hs hi => ?_
    obtain ⟨rfl, hi⟩ := hi
    exact .ok hs ⟨rfl, Nat.le_add_left _ _, hi⟩
  · split
    · refine (find_agrees hs (by decide) h2).bind fun s i i' hs hi => ?_
      obtain ⟨rfl, hi⟩ := hi
      exact .ok hs ⟨rfl, by omega, hi⟩
    · split
      · refine (need_agrees hs 4).bind fun s hs h4 => ?_
        rw [← hs.slice_pos_eq h4]
        split
        · refine (find_agrees hs (by decide) h4).bind fun s i i' hs hi => ?_
          obtain ⟨rfl, hi⟩ := hi
          exact .ok hs ⟨rfl, by omega, hi⟩
        · refine (need_agrees hs 9).bind fun s hs h9 => ?_
          have hhead : slice s.buf s.pos (s.pos + 9) =
              slice (s.whole input).buf (s.whole input).pos ((s.whole input).pos + 9) :=
            hs.slice_pos_eq (m := 0) h9
          simp only [← hhead]
          split
          · refine (find_agrees hs (by decide) h9).bind fun s i i' hs hi => ?_
            obtain ⟨rfl, hi⟩ := hi
            exact .ok hs ⟨rfl, by omega, hi⟩
          · split
            · have hloc : (s.whole input).location (s.whole input).pos = s.location s.pos := by
                simp [location, whole]
              rw [hloc]
              exact .error _
            · rw [whole_pos, error_whole]
              exact .error _
      · refine (scanStartTag_agrees hs (by omega)).bind fun s a a' hs ha => ?_
        obtain ⟨rfl, hpos, hclose⟩ := ha
        obtain ⟨close, nameEnd⟩ := a
        have hbyte : s.byte (s.pos + close - 1) =
            (s.whole input).byte ((s.whole input).pos + close - 1) := by
          rw [Nat.add_sub_assoc hpos, Nat.add_sub_assoc hpos]
          exact hs.byte_pos_eq (by dsimp only at hclose; omega)
        dsimp only
        rw [← hbyte]
        refine .ok hs ⟨?_, Nat.le_add_left _ _, hclose⟩
        simp only [shiftKind, whole_pos, Nat.add_assoc]

/-- Related answers of `nextMarkup`: no markup at the end of the input, or
markup that ends where the splitter stands. -/
def SameMarkup (input : Bytes) (s : Splitter) (a a' : Option Markup) : Prop :=
  a' = a.map (shiftMarkup s.base) ∧
    (∀ markup ∈ a, markup.start < markup.stop ∧ markup.stop = s.pos) ∧
    (a = none → s.base + s.buf.length = input.length)

theorem indexOf_lt_skip {bytes : Bytes} {p k : Nat} (hk : p + k ≤ bytes.length)
    (hno : indexOf (utf8 "<") ((bytes.drop p).take k) = none) :
    indexOf (utf8 "<") (bytes.drop p) =
      (indexOf (utf8 "<") (bytes.drop (p + k))).map (k + ·) := by
  rw [← List.drop_drop]
  refine indexOf_skip (by rw [List.length_drop]; omega) fun j hj hpre => ?_
  rw [indexOf_eq_none_iff] at hno
  have hlen : ((bytes.drop p).take k).length = k := by
    rw [List.length_take, List.length_drop]
    omega
  refine hno j (by omega) ?_
  rw [← List.take_append_drop k (bytes.drop p)] at hpre
  exact (prefix_drop_of_append (by rw [hlen]; exact hj)).1 hpre

theorem Window.moveTo (hs : Window input s) {p : Nat} (hle : s.pos ≤ p) (hp : p ≤ s.buf.length) :
    Window input (s.moveTo p) where
  shows := hs.shows
  pos_le := hp
  kept := by
    intro start hstart
    have := hs.kept start hstart
    simp only [Splitter.moveTo]
    omega
  bounds := hs.bounds

theorem whole_moveTo (s : Splitter) (input : Bytes) (p : Nat) :
    (s.moveTo p).whole input = (s.whole input).moveTo (s.base + p) := rfl

@[simp] theorem moveTo_pos (s : Splitter) (p : Nat) : (s.moveTo p).pos = p := rfl
@[simp] theorem moveTo_buf (s : Splitter) (p : Nat) : (s.moveTo p).buf = s.buf := rfl
@[simp] theorem moveTo_base (s : Splitter) (p : Nat) : (s.moveTo p).base = s.base := rfl
@[simp] theorem moveTo_reader (s : Splitter) (p : Nat) : (s.moveTo p).reader = s.reader := rfl
@[simp] theorem moveTo_moveTo (s : Splitter) (p q : Nat) :
    (s.moveTo p).moveTo q = s.moveTo q := rfl
@[simp] theorem moveTo_featureName (s : Splitter) (p : Nat) :
    (s.moveTo p).featureName = s.featureName := rfl

theorem moveTo_self (s : Splitter) : s.moveTo s.pos = s := rfl

theorem Window.indexOf_eq (hs : Window input s) {i : Nat}
    (hi : indexOf (utf8 "<") (s.buf.drop s.pos) = some i) :
    indexOf (utf8 "<") (input.drop (s.base + s.pos)) = some i ∧ s.pos + i < s.buf.length := by
  obtain ⟨rest, hrest⟩ := hs.drop_eq
  have hlt := indexOf_add_length_le hi
  have h1 : (utf8 "<").length = 1 := rfl
  rw [List.length_drop, h1] at hlt
  rw [hrest]
  exact ⟨indexOf_append_of_some hi rest, by omega⟩

theorem Window.indexOf_skip (hs : Window input s)
    (hi : indexOf (utf8 "<") (s.buf.drop s.pos) = none) :
    indexOf (utf8 "<") (input.drop (s.base + s.pos)) =
      (indexOf (utf8 "<") (input.drop (s.base + s.buf.length))).map
        (s.buf.length - s.pos + ·) := by
  obtain ⟨rest, hrest⟩ := hs.drop_eq
  have := hs.base_add_le
  have := hs.pos_le
  have hend : s.base + s.pos + (s.buf.length - s.pos) = s.base + s.buf.length := by omega
  rw [← hend]
  refine indexOf_lt_skip (by omega) ?_
  rw [hrest, List.take_left' (by rw [List.length_drop])]
  exact hi

theorem seekMarkup_whole (s : Splitter) (input : Bytes) :
    seekMarkup 1 (s.whole input) =
      match indexOf (utf8 "<") (input.drop (s.base + s.pos)) with
      | some i => .ok (true, (s.whole input).moveTo (s.base + s.pos + i))
      | none => .ok (false, (s.whole input).moveTo input.length) := by
  rw [seekMarkup]
  rfl

theorem seekMarkup_agrees : ∀ (fuel : Nat) (s : Splitter), Window input s →
    s.reader.length < fuel →
    Agrees input (fun s found found' => found = found' ∧
        (found = true → s.pos < s.buf.length) ∧
        (found = false → s.base + s.buf.length = input.length))
      (seekMarkup fuel s) (seekMarkup 1 (s.whole input)) := by
  intro fuel
  induction fuel with
  | zero => intro s _ hfuel; exact absurd hfuel (Nat.not_lt_zero _)
  | succ fuel ih =>
    intro s hs hfuel
    rw [seekMarkup]
    cases hi : indexOf (utf8 "<") (s.buf.drop s.pos) with
    | some i =>
      obtain ⟨hall, hlt⟩ := hs.indexOf_eq hi
      rw [seekMarkup_whole, hall]
      dsimp only
      rw [Nat.add_assoc]
      exact .ok (hs.moveTo (Nat.le_add_right _ _) (by omega)) ⟨rfl, fun _ => hlt, nofun⟩
    | none =>
      have hskip : seekMarkup 1 (s.whole input) =
          seekMarkup 1 ((s.moveTo s.buf.length).whole input) := by
        rw [seekMarkup_whole, seekMarkup_whole, hs.indexOf_skip hi, moveTo_base, moveTo_pos]
        cases indexOf (utf8 "<") (input.drop (s.base + s.buf.length)) with
        | none => rfl
        | some i =>
          have := hs.pos_le
          have hpos : s.base + s.pos + (s.buf.length - s.pos + i) = s.base + s.buf.length + i := by
            omega
          simp only [Option.map_some, hpos, whole_moveTo, moveTo_moveTo]
      obtain ⟨more, s', hfill, hw', hwhole', -, -, hshort, hlast⟩ :=
        fill_window (hs.moveTo hs.pos_le (Nat.le_refl _))
      simp only [hfill, bind, Except.bind]
      rw [hskip, ← hwhole']
      cases more with
      | true => exact ih s' hw' (by have := hshort rfl; rw [moveTo_reader] at this; omega)
      | false =>
        -- The window ends where the input ends, and so does the search.
        have hpos : s'.base + s'.pos = input.length := by
          rw [base_add_pos_eq hwhole']
          exact (hlast rfl).1
        have hempty : indexOf (utf8 "<") ([] : Bytes) = none := rfl
        have hself : (s'.whole input).moveTo input.length = s'.whole input := by
          rw [← hpos]
          exact moveTo_self _
        rw [seekMarkup_whole, hpos, List.drop_length, hempty]
        dsimp only
        rw [hself]
        exact .ok hw' ⟨rfl, nofun, fun _ => (hlast rfl).2⟩

theorem nextMarkup_agrees (hs : Window input s) :
    Agrees input (SameMarkup input) s.nextMarkup (s.whole input).nextMarkup := by
  unfold nextMarkup
  refine (seekMarkup_agrees _ s hs (Nat.lt_succ_self _)).bind fun s found found' hs hfound => ?_
  obtain ⟨rfl, -, hend⟩ := hfound
  cases found with
  | false => exact .ok hs ⟨rfl, nofun, fun _ => hend rfl⟩
  | true =>
    refine (markupAt_agrees hs).bind fun s a a' hs ha => ?_
    obtain ⟨kind, len⟩ := a
    obtain ⟨rfl, hlen, hfit⟩ := ha
    have hpos := hs.pos_le
    dsimp only at hlen hfit ⊢
    rw [whole_pos, Nat.add_assoc, ← whole_moveTo]
    refine .ok (hs.moveTo (Nat.le_add_right _ _) (by omega)) ⟨rfl, ?_, nofun⟩
    intro markup hmarkup
    cases hmarkup
    exact ⟨by dsimp only; omega, rfl⟩

/-! ## Inside a feature -/

/-- What every read keeps, a scan keeps. -/
theorem scan_preserves {look : Splitter → β → α ⊕ β} {atEof : Splitter → Error}
    (P : Splitter → Prop) (hfill : ∀ s s' more, P s → s.fill = .ok (more, s') → P s') :
    ∀ (fuel : Nat) (s s' : Splitter) (b : β) (a : α), P s →
      scan look atEof fuel s b = .ok (a, s') → P s' := by
  intro fuel
  induction fuel with
  | zero => intro s s' b a _ h; cases h
  | succ fuel ih =>
    intro s s' b a hP h
    rw [scan] at h
    cases hl : look s b with
    | inl found =>
      rw [hl] at h
      cases h
      exact hP
    | inr b' =>
      simp only [hl] at h
      cases hf : s.fill with
      | error e =>
        rw [hf] at h
        cases h
      | ok r =>
        obtain ⟨more, s₁⟩ := r
        simp only [hf, bind, Except.bind] at h
        cases more with
        | false => cases h
        | true => exact ih s₁ s' b' a (hfill _ _ _ hP hf) h

/-- `need` stays at its place of the input. -/
theorem need_same (hs : Window input s) {n : Nat} (h : s.need n = .ok s') :
    s'.whole input = s.whole input ∧ s'.reader.length ≤ s.reader.length := by
  unfold need at h
  cases hscan : scan
      (fun (s : Splitter) (_ : Unit) => if s.buf.length - s.pos < n then Sum.inr () else Sum.inl ())
      (fun s : Splitter => s.error s.pos [.text "unexpected end of input in markup"])
      (s.reader.length + 1) s () with
  | error e =>
    simp only [hscan, bind, Except.bind] at h
    cases h
  | ok r =>
    simp only [hscan, bind, Except.bind] at h
    cases h
    refine (scan_preserves (fun t => Window input t ∧ t.whole input = s.whole input ∧
      t.reader.length ≤ s.reader.length) ?_ _ _ _ _ _ ⟨hs, rfl, Nat.le_refl _⟩ hscan).2
    rintro t t' more ⟨ht, hwhole, hle⟩ hfill
    obtain ⟨more', s'', hfill', hw', hwhole', -, hle', -, -⟩ := fill_window ht
    rw [hfill] at hfill'
    cases hfill'
    exact ⟨hw', hwhole'.trans hwhole, Nat.le_trans hle' hle⟩

theorem AgreesState.strengthen {post post' : Splitter → Prop} {r w : Except Error Splitter}
    (h : AgreesState input post r w) (h' : ∀ s, r = .ok s → post' s) :
    AgreesState input (fun s => post s ∧ post' s) r w := by
  cases h with
  | ok window holds => exact .ok window ⟨holds, h' _ rfl⟩
  | error e => exact .error e

theorem Window.turns_eq (hs : Window input s) :
    s.turns = input.length - (s.base + s.pos) + s.reader.length + 1 := by
  obtain ⟨before, rest, hinput, hbase, hdel, -⟩ := hs.shows
  have hlen := congrArg List.length hinput
  simp only [List.length_append] at hlen
  have := hs.pos_le
  rw [turns, hdel.scriptBytes]
  omega

theorem Window.namedLikeFeature_eq (hs : Window input s) {nameAt : Nat}
    (hn : nameAt + s.featureName.length + 1 ≤ s.buf.length - s.pos) :
    s.namedLikeFeature nameAt = (s.whole input).namedLikeFeature nameAt := by
  unfold namedLikeFeature
  simp only [whole_featureName, Nat.add_assoc]
  rw [hs.byte_pos_eq (by omega), hs.slice_pos_eq (by omega)]

theorem nextFeatureMarkupLoop_none {fuel : Nat}
    (hi : indexOf (utf8 "<") (input.drop (s.base + s.pos)) = none) :
    nextFeatureMarkupLoop (fuel + 1) (s.whole input) =
      .ok (none, (s.whole input).moveTo input.length) := by
  rw [nextFeatureMarkupLoop, whole_buf, whole_pos, hi]
  rfl

/-- The loop in the whole input depends on where it stands only through the
next `<`. -/
theorem nextFeatureMarkupLoop_skip (hs : Window input s) {fuel : Nat}
    (hi : indexOf (utf8 "<") (s.buf.drop s.pos) = none) :
    nextFeatureMarkupLoop (fuel + 1) (s.whole input) =
      nextFeatureMarkupLoop (fuel + 1) ((s.moveTo s.buf.length).whole input) := by
  have hskip := hs.indexOf_skip hi
  cases hrest : indexOf (utf8 "<") (input.drop (s.base + s.buf.length)) with
  | none =>
    rw [hrest] at hskip
    rw [nextFeatureMarkupLoop_none hskip, nextFeatureMarkupLoop_none hrest]
    rfl
  | some i =>
    have := hs.pos_le
    have hpos : s.base + s.pos + (s.buf.length - s.pos + i) = s.base + s.buf.length + i := by
      omega
    rw [hrest, Option.map_some] at hskip
    rw [nextFeatureMarkupLoop, nextFeatureMarkupLoop]
    simp only [whole_buf, whole_pos, moveTo_pos, hskip, hpos, whole_moveTo, moveTo_moveTo,
      moveTo_buf, hrest]

theorem nextFeatureMarkupLoop_agrees : ∀ (fuel fuel' : Nat) (s : Splitter), Window input s →
    s.turns ≤ fuel → (s.whole input).turns ≤ fuel' →
    Agrees input (SameMarkup input) (nextFeatureMarkupLoop fuel s)
      (nextFeatureMarkupLoop fuel' (s.whole input)) := by
  intro fuel
  induction fuel with
  | zero => intro fuel' s _ hfuel; exact absurd hfuel (by unfold turns; omega)
  | succ fuel ih =>
    intro fuel' s hs hfuel hfuel'
    cases fuel' with
    | zero => exact absurd hfuel' (by unfold turns; omega)
    | succ fuel' =>
      rw [hs.turns_eq] at hfuel
      rw [hs.toWhole.turns_eq] at hfuel'
      simp only [whole_base, whole_pos, whole_reader, List.length_nil] at hfuel'
      have hbase := hs.base_add_le
      have hposle := hs.pos_le
      cases hi : indexOf (utf8 "<") (s.buf.drop s.pos) with
      | none =>
        rw [nextFeatureMarkupLoop_skip hs hi, nextFeatureMarkupLoop, hi]
        have hmoved := hs.moveTo hs.pos_le (Nat.le_refl _)
        obtain ⟨more, s', hfill, hw', hwhole', -, -, hshort, hlast⟩ := fill_window hmoved
        have hplace : s'.base + s'.pos = s.base + s.buf.length := base_add_pos_eq hwhole'
        simp only [hfill, bind, Except.bind]
        rw [← hwhole']
        cases more with
        | true =>
          have := hshort rfl
          rw [moveTo_reader] at this
          refine ih (fuel' + 1) s' hw' ?_ ?_
          · rw [hw'.turns_eq]
            omega
          · rw [hw'.toWhole.turns_eq]
            simp only [whole_base, whole_pos, whole_reader, List.length_nil]
            omega
        | false =>
          have hpos : s'.base + s'.pos = input.length := hplace.trans (hlast rfl).1
          have hself : (s'.whole input).moveTo input.length = s'.whole input := by
            rw [← hpos]
            exact moveTo_self _
          have hempty : indexOf (utf8 "<") (input.drop (s'.base + s'.pos)) = none := by
            rw [hpos, List.drop_length]
            rfl
          rw [nextFeatureMarkupLoop_none hempty, hself]
          exact .ok hw' ⟨rfl, nofun, fun _ => (hlast rfl).2⟩
      | some i =>
        obtain ⟨hall, hlt⟩ := hs.indexOf_eq hi
        have hmoved := hs.moveTo (Nat.le_add_right s.pos i) (Nat.le_of_lt hlt)
        rw [nextFeatureMarkupLoop, nextFeatureMarkupLoop, hi, whole_buf, whole_pos, hall]
        dsimp only
        rw [Nat.add_assoc, ← whole_moveTo]
        refine ((need_agrees hmoved 2).strengthen fun _ => need_same hmoved).bind
          fun s₁ hs₁ ⟨h2, hsame₁, hreader₁⟩ => ?_
        rw [← hs₁.byte_pos_eq (by omega)]
        split
        · exact nextMarkup_agrees hs₁
        · -- Another tag: its name is compared, and its `<` passed over.
          have hname : (s₁.whole input).featureName = s₁.featureName := rfl
          rw [hname]
          generalize (if s₁.byte (s₁.pos + 1) = 47 then 2 else 1) = nameAt
          refine ((need_agrees hs₁ _).strengthen fun _ => need_same hs₁).bind
            fun s₂ hs₂ ⟨hn, hsame₂, hreader₂⟩ => ?_
          have hname₂ : s₂.featureName = s₁.featureName := by
            have := congrArg Splitter.featureName hsame₂
            exact this
          rw [← hname₂] at hn
          rw [← hs₂.namedLikeFeature_eq hn]
          split
          · exact nextMarkup_agrees hs₂
          · have hplace : s₂.base + s₂.pos = s.base + (s.pos + i) :=
              base_add_pos_eq (hsame₂.trans hsame₁)
            have hnext := hs₂.moveTo (Nat.le_add_right s₂.pos 1) (by omega)
            rw [moveTo_reader] at hreader₁
            rw [whole_pos, Nat.add_assoc, ← whole_moveTo]
            refine ih fuel' _ hnext ?_ ?_
            · rw [hnext.turns_eq, moveTo_base, moveTo_pos, moveTo_reader]
              omega
            · rw [hnext.toWhole.turns_eq]
              simp only [whole_base, whole_pos, whole_reader, moveTo_base, moveTo_pos,
                List.length_nil]
              omega

theorem nextFeatureMarkup_agrees (hs : Window input s) :
    Agrees input (SameMarkup input) s.nextFeatureMarkup (s.whole input).nextFeatureMarkup :=
  nextFeatureMarkupLoop_agrees _ _ s hs (Nat.le_refl _) (Nat.le_refl _)

end

end Splitter

end Xeibe

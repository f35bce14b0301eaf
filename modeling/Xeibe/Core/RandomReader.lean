import Mathlib.Algebra.Ring.Int.Defs
import Mathlib.Algebra.Ring.Nat
import Mathlib.Data.List.Infix
import Xeibe.Lib.System

/-!
# Random access as a reader

`RandomReader` of `xeibe-core/src/source.rs` reads a range of a source through a
window: the bytes of its last `read_at`s, which stay until a read falls outside
them.  The window is good while it is a part of the source (`Holds`).  A call
of `read_at` that fails while the window is filled leaves the buffer with the
old place and some of the new bytes.

Offsets are numbers without a bound: a good window lies within the source, so
its end fits in the machine's words.
-/

namespace Xeibe.RandomAccess

open Xeibe.Lib

abbrev Bytes := List UInt8

/-- The size of the reads a `RandomReader` makes. -/
def RANDOM_ACCESS_CHUNK : Nat := 256 * 1024

/-- The bytes of the last `read_at` stay until a read falls outside them.  `data`
is what the source's answers depend on. -/
structure RandomReader (σ : Type) where
  data : σ
  pos : Nat
  stop : Nat
  window : Bytes
  /-- Where `window` starts in `data`. -/
  windowStart : Nat

inductive SeekFrom where
  | start (offset : Nat)
  | fromEnd (delta : Int)
  | current (delta : Int)
deriving DecidableEq, Repr

/-- `checked_add_signed`. -/
def checkedAddSigned (n : Nat) (delta : Int) : Option Nat :=
  if 0 ≤ n + delta ∧ n + delta < 2 ^ 64 then some (n + delta).toNat else none

/-- `Vec::resize` with zeros. -/
def resize (buf : Bytes) (size : Nat) : Bytes :=
  buf.take size ++ List.replicate (size - buf.length) 0

namespace RandomReader

variable {σ ε : Type}

/-- `length` bytes from `start`, fewer if the source's `len` bytes end first. -/
def range (data : σ) (len start length : Nat) : RandomReader σ :=
  let stop := min (min (start + length) (2 ^ 64 - 1)) len
  { data, pos := min start stop, stop, window := [], windowStart := 0 }

/-- The whole of the source. -/
def new (data : σ) (len : Nat) : RandomReader σ := range data len 0 len

section

-- `read_at`, from an offset into a buffer of a size.
variable (readAt : σ → Nat → Nat → Except ε Bytes × σ)

/-- The loop of `fill`: the buffer of `old` bytes holds `fresh` ones in front, which
were read from `pos` on.  The buffer that is left, cut to what was read at the
end of the loop. -/
def fillFrom (pos : Nat) (old : Bytes) (data : σ) (fresh : Bytes) :
    Except ε Unit × Bytes × σ :=
  if fresh.length < old.length then
    match readAt data (pos + fresh.length) (old.length - fresh.length) with
    | (.error e, data) => (.error e, fresh ++ old.drop fresh.length, data)
    | (.ok [], data) => (.ok (), fresh, data)
    | (.ok (x :: xs), data) => fillFrom pos old data (fresh ++ x :: xs)
  else (.ok (), fresh, data)
termination_by old.length - fresh.length
decreasing_by
  rw [List.length_append, List.length_cons]
  omega

variable (r : RandomReader σ)

/-- How many bytes `fill` asks for. -/
def fillSize : Nat := min (r.stop - r.pos) RANDOM_ACCESS_CHUNK

/-- Read `window` afresh from `pos`. -/
def fill : Except ε Unit × RandomReader σ :=
  match fillFrom readAt r.pos (resize r.window r.fillSize) r.data [] with
  | (.error e, window, data) => (.error e, { r with data, window })
  | (.ok (), window, data) => (.ok (), { r with data, window, windowStart := r.pos })

def InWindow : Prop := r.windowStart ≤ r.pos ∧ r.pos < r.windowStart + r.window.length

instance : Decidable r.InWindow := inferInstanceAs (Decidable (_ ∧ _))

/-- A read into a buffer of size `n`. -/
def read (n : Nat) : Except ε Bytes × RandomReader σ :=
  if r.stop ≤ r.pos ∨ n = 0 then (.ok [], r)
  else
    match if r.InWindow then (.ok (), r) else r.fill readAt with
    | (.error e, r) => (.error e, r)
    | (.ok (), r) =>
      let bytes := (r.window.drop (r.pos - r.windowStart)).take n
      (.ok bytes, { r with pos := r.pos + bytes.length })

end

def seek (r : RandomReader σ) (pos : SeekFrom) : Except String Nat × RandomReader σ :=
  let target :=
    match pos with
    | .start offset => some offset
    | .fromEnd delta => checkedAddSigned r.stop delta
    | .current delta => checkedAddSigned r.pos delta
  match target with
  | some target => (.ok (min target r.stop), { r with pos := min target r.stop })
  | none => (.error "seek before the start", r)

end RandomReader

/-! ## Runs -/

inductive Op where
  | read (n : Nat)
  | seek (pos : SeekFrom)
deriving DecidableEq, Repr

/-- A call of `read`: where the reader was, the size of the buffer, the answer,
and where the reader is then. -/
structure Call (ε : Type) where
  pos : Nat
  size : Nat
  answer : Except ε Bytes
  after : Nat
deriving DecidableEq

/-- A reader and the calls of `read` so far. -/
structure Session (σ ε : Type) where
  reader : RandomReader σ
  calls : List (Call ε)

section

variable {σ ε : Type} (readAt : σ → Nat → Nat → Except ε Bytes × σ)

def step (s : Session σ ε) : Op → Option (Session σ ε)
  | .read n =>
    let (answer, reader) := s.reader.read readAt n
    some ⟨reader, s.calls ++ [⟨s.reader.pos, n, answer, reader.pos⟩]⟩
  | .seek pos => some { s with reader := (s.reader.seek pos).2 }

/-- A source of `bytes`: what it answers is right, or it fails. -/
def Serves (bytes : Bytes) : Prop :=
  ∀ data offset n xs, (readAt data offset n).1 = .ok xs →
    xs <+: bytes.drop offset ∧ xs.length ≤ n

/-- An answer is a part of the source from the reader's position on, and the
position advances by it; a call that fails stays where it is. -/
def Call.Right (bytes : Bytes) (call : Call ε) : Prop :=
  match call.answer with
  | .ok xs => xs <+: bytes.drop call.pos ∧ xs.length ≤ call.size ∧
      call.after = call.pos + xs.length
  | .error _ => call.after = call.pos

/-- How many bytes the source gives from `pos` on before it fails, when `size`
are asked for and `given` of them are there. -/
def failsAfter (pos size : Nat) (data : σ) (given : Nat) : Option Nat :=
  if given < size then
    match readAt data (pos + given) (size - given) with
    | (.error _, _) => some given
    | (.ok [], _) => none
    | (.ok (x :: xs), data) => failsAfter pos size data (given + (x :: xs).length)
  else none
termination_by size - given
decreasing_by
  rw [List.length_cons]
  omega

/-- The window is a part of the source. -/
def RandomReader.Holds (bytes : Bytes) (r : RandomReader σ) : Prop :=
  r.window <+: bytes.drop r.windowStart

/-- A read that fills the window, and fails after `k` bytes, leaves a buffer that
is a part of the source from the window's old start on: `k` new bytes, then
those of the old window, then zeros. -/
def Harmless (bytes : Bytes) (r : RandomReader σ) (op : Op) : Prop :=
  ∀ n, op = .read n → 0 < n → r.pos < r.stop → ¬ r.InWindow →
    ∀ k, failsAfter readAt r.pos r.fillSize r.data 0 = some k →
      (bytes.drop r.pos).take k ++ (resize r.window r.fillSize).drop k <+: bytes.drop r.windowStart

end

/-! ## The window -/

section

variable {σ ε : Type} {readAt : σ → Nat → Nat → Except ε Bytes × σ} {bytes : Bytes}
  {r : RandomReader σ}

@[simp] theorem length_resize (buf : Bytes) (size : Nat) : (resize buf size).length = size := by
  rw [resize, List.length_append, List.length_take, List.length_replicate]
  omega

theorem prefix_append {xs ys : Bytes} {pos : Nat} (hxs : xs <+: bytes.drop pos)
    (hys : ys <+: bytes.drop (pos + xs.length)) : xs ++ ys <+: bytes.drop pos := by
  obtain ⟨rest, hrest⟩ := hxs
  rw [← List.drop_drop, ← hrest, List.drop_left] at hys
  rw [← hrest]
  exact (List.prefix_append_right_inj xs).2 hys

/-- What is read in the loop is right, and the buffer that a failure leaves has it
in front of the old one. -/
theorem fillFrom_spec (hserves : Serves readAt bytes) (pos : Nat) (old : Bytes) (data : σ)
    (fresh : Bytes) (hfresh : fresh <+: bytes.drop pos) :
    match RandomReader.fillFrom readAt pos old data fresh with
    | (.ok (), window, _) =>
      window <+: bytes.drop pos ∧ failsAfter readAt pos old.length data fresh.length = none
    | (.error _, window, _) => ∃ k, failsAfter readAt pos old.length data fresh.length = some k ∧
      window = (bytes.drop pos).take k ++ old.drop k := by
  fun_induction RandomReader.fillFrom readAt pos old data fresh with
  | case1 data fresh hlt e data' hread =>
    refine ⟨fresh.length, ?_, ?_⟩
    · rw [failsAfter, if_pos hlt, hread]
    · rw [← List.prefix_iff_eq_take.1 hfresh]
  | case2 data fresh hlt data' hread =>
    refine ⟨hfresh, ?_⟩
    rw [failsAfter, if_pos hlt, hread]
  | case3 data fresh hlt x xs data' hread ih =>
    have hanswer := (hserves data (pos + fresh.length) _ (x :: xs) (by rw [hread])).1
    have hrest := ih (prefix_append hfresh hanswer)
    rw [List.length_append] at hrest
    rw [failsAfter, if_pos hlt, hread]
    exact hrest
  | case4 data fresh hge =>
    refine ⟨hfresh, ?_⟩
    rw [failsAfter, if_neg hge]

theorem fill_spec (hserves : Serves readAt bytes) (r : RandomReader σ) :
    match r.fill readAt with
    | (.ok (), r') => r'.Holds bytes ∧ r'.pos = r.pos ∧ r'.windowStart = r.pos ∧
      r'.stop = r.stop ∧ failsAfter readAt r.pos r.fillSize r.data 0 = none
    | (.error _, r') => r'.pos = r.pos ∧ r'.windowStart = r.windowStart ∧ r'.stop = r.stop ∧
      ∃ k, failsAfter readAt r.pos r.fillSize r.data 0 = some k ∧
        r'.window = (bytes.drop r.pos).take k ++ (resize r.window r.fillSize).drop k := by
  have hspec := fillFrom_spec hserves r.pos (resize r.window r.fillSize) r.data []
    List.nil_prefix
  rw [length_resize] at hspec
  unfold RandomReader.fill
  generalize RandomReader.fillFrom readAt r.pos _ r.data [] = result at hspec ⊢
  obtain ⟨answer, window, data⟩ := result
  cases answer with
  | ok u => exact ⟨hspec.1, rfl, rfl, rfl, hspec.2⟩
  | error e => exact ⟨rfl, rfl, rfl, hspec⟩

theorem prefix_window (hr : r.Holds bytes) (hle : r.windowStart ≤ r.pos) (n : Nat) :
    (r.window.drop (r.pos - r.windowStart)).take n <+: bytes.drop r.pos := by
  have hdrop : bytes.drop r.pos = (bytes.drop r.windowStart).drop (r.pos - r.windowStart) := by
    rw [List.drop_drop, Nat.add_sub_cancel' hle]
  rw [hdrop]
  exact (List.take_prefix _ _).trans (hr.drop _)

/-- A read from a good window is right, and the window stays good exactly if no
failure leaves bytes in it that are not the source's. -/
theorem read_spec (hserves : Serves readAt bytes) (hr : r.Holds bytes) (n : Nat) :
    (Call.mk r.pos n (r.read readAt n).1 (r.read readAt n).2.pos).Right bytes ∧
      ((r.read readAt n).2.Holds bytes ↔ Harmless readAt bytes r (.read n)) := by
  unfold RandomReader.read
  by_cases hnone : r.stop ≤ r.pos ∨ n = 0
  · rw [if_pos hnone]
    refine ⟨⟨List.nil_prefix, Nat.zero_le n, rfl⟩, fun _ m hm hpos hlt => ?_, fun _ => hr⟩
    cases hm
    omega
  · rw [if_neg hnone]
    by_cases hin : r.InWindow
    · rw [if_pos hin]
      refine ⟨⟨prefix_window hr hin.1 n, List.length_take_le _ _, rfl⟩, fun _ _ _ _ _ hout => ?_,
        fun _ => hr⟩
      exact absurd hin hout
    · rw [if_neg hin]
      have hfill := fill_spec hserves r
      generalize r.fill readAt = result at hfill ⊢
      obtain ⟨answer, r'⟩ := result
      cases answer with
      | ok u =>
        obtain ⟨hholds, hpos, hstart, -, hfails⟩ := hfill
        refine ⟨⟨?_, List.length_take_le _ _, ?_⟩, fun _ m hm _ _ _ k hk => ?_, fun _ => hholds⟩
        · have hprefix := prefix_window hholds (Nat.le_of_eq (hstart.trans hpos.symm)) n
          rw [hpos] at hprefix ⊢
          exact hprefix
        · rw [← hpos]
        · rw [hfails] at hk
          cases hk
      | error e =>
        obtain ⟨hpos, hstart, -, k, hk, hwindow⟩ := hfill
        refine ⟨hpos, fun hholds m hm _ _ _ k' hk' => ?_, fun hharmless => ?_⟩
        · rw [hk] at hk'
          cases hk'
          rw [← hwindow, ← hstart]
          exact hholds
        · have hprefix := hharmless n rfl (by omega) (by omega) hin k hk
          rw [← hwindow, ← hstart] at hprefix
          exact hprefix

theorem seek_holds (hr : r.Holds bytes) (pos : SeekFrom) : (r.seek pos).2.Holds bytes := by
  unfold RandomReader.seek
  dsimp only
  split
  · exact hr
  · exact hr

/-! ## Runs -/

structure Sound (bytes : Bytes) (s : Session σ ε) : Prop where
  holds : s.reader.Holds bytes
  right : ∀ call ∈ s.calls, call.Right bytes

theorem Sound.step (hserves : Serves readAt bytes) {s s' : Session σ ε} {op : Op}
    (h : Sound bytes s) (hharmless : Harmless readAt bytes s.reader op)
    (hstep : step readAt s op = some s') : Sound bytes s' := by
  cases op with
  | read n =>
    cases hstep
    obtain ⟨hright, hholds⟩ := read_spec hserves h.holds n
    refine ⟨hholds.2 hharmless, fun call hcall => ?_⟩
    rcases List.mem_append.1 hcall with hcall | hcall
    · exact h.right call hcall
    · rw [List.mem_singleton.1 hcall]
      exact hright
  | seek pos =>
    cases hstep
    exact ⟨seek_holds h.holds pos, h.right⟩

/-- In every run in which a failing fill leaves no bytes in the window that are not
the source's, every read that succeeds is right, and one that fails stays where
it is. -/
theorem reads_right (hserves : Serves readAt bytes) {data : σ} {start length : Nat}
    {ops : List Op} {s : Session σ ε}
    (hharmless : Along (step readAt) (fun s op => Harmless readAt bytes s.reader op)
      ⟨.range data bytes.length start length, []⟩ ops)
    (hrun : run (step readAt) ⟨.range data bytes.length start length, []⟩ ops = some s) :
    ∀ call ∈ s.calls, call.Right bytes :=
  (run_invariant_along (fun _ _ _ hharmless h hstep => Sound.step hserves h hharmless hstep)
    hharmless ⟨List.nil_prefix, nofun⟩ hrun).right

theorem wrong_of_not_holds (hr : ¬ r.Holds bytes) (hstart : r.windowStart < r.stop) :
    ((r.seek (.start r.windowStart)).2.read readAt r.window.length).1 = .ok r.window ∧
      ∀ after, ¬ (⟨r.windowStart, r.window.length, .ok r.window, after⟩ : Call ε).Right bytes := by
  have hne : r.window.length ≠ 0 := by
    intro hlength
    rw [RandomReader.Holds, List.length_eq_zero_iff.1 hlength] at hr
    exact hr List.nil_prefix
  have hmin : min r.windowStart r.stop = r.windowStart := Nat.min_eq_left (Nat.le_of_lt hstart)
  refine ⟨?_, fun after hright => hr hright.1⟩
  unfold RandomReader.seek RandomReader.read
  simp only [hmin]
  rw [if_neg (by omega), if_pos ⟨Nat.le_refl _, Nat.lt_add_of_pos_right (Nat.pos_of_ne_zero hne)⟩]
  simp

/-! ## A source that fails once -/

/-- The three bytes 1, 2, 3, after a first call that fails. -/
def failsOnce (failed : Bool) (offset n : Nat) : Except Unit Bytes × Bool :=
  if failed then (.ok ((([1, 2, 3] : Bytes).drop offset).take n), true) else (.error (), true)

theorem serves_failsOnce : Serves failsOnce [1, 2, 3] := by
  intro failed offset n xs hanswer
  cases failed with
  | true =>
    cases hanswer
    exact ⟨List.take_prefix _ _, List.length_take_le _ _⟩
  | false => cases hanswer

/-- The read after the one that failed gives the zeros of the empty buffer. -/
theorem retry_reads_zeros :
    ¬ ∀ (ops : List Op) (s : Session Bool Unit),
      run (step failsOnce) ⟨.new false 3, []⟩ ops = some s → ∀ call ∈ s.calls, call.Right [1, 2, 3] := by
  intro h
  have hzeros : ((run (step failsOnce) ⟨.new false 3, []⟩ [.read 2, .read 2]).bind
      fun s => s.calls[1]?) = some ⟨0, 2, .ok [0, 0], 2⟩ := by
    decide +kernel
  obtain ⟨s, hrun, hcall⟩ := Option.bind_eq_some_iff.1 hzeros
  have hright := (h _ s hrun _ (List.mem_of_getElem? hcall)).1
  exact absurd hright (by decide)

/-- The three bytes, without a failure. -/
def reliable (data : Unit) (offset n : Nat) : Except Unit Bytes × Unit :=
  (.ok ((([1, 2, 3] : Bytes).drop offset).take n), data)

theorem failsAfter_reliable (pos size given : Nat) : failsAfter reliable pos size () given = none := by
  fun_induction failsAfter reliable pos size () given with
  | case1 data given hlt e data' hread => cases hread
  | case2 => rfl
  | case3 data given hlt x xs data' hread ih => exact ih
  | case4 => rfl

/-- A reliable source, read in two parts with a seek between them. -/
theorem reads_right_reliable :
    ∃ s, run (step reliable) ⟨.range () 3 0 3, []⟩ [.read 2, .seek (.fromEnd (-1)), .read 2] =
        some s ∧ s.calls.map (·.answer) = [.ok [1, 2], .ok [3]] ∧
      ∀ call ∈ s.calls, call.Right [1, 2, 3] := by
  have hanswers : (run (step reliable) ⟨.range () 3 0 3, []⟩
      [.read 2, .seek (.fromEnd (-1)), .read 2]).map (fun s => s.calls.map (·.answer)) =
        some [.ok [1, 2], .ok [3]] := by
    decide +kernel
  obtain ⟨s, hrun, hs⟩ := Option.map_eq_some_iff.1 hanswers
  have hserves : Serves reliable [1, 2, 3] := by
    intro data offset n xs hanswer
    cases hanswer
    exact ⟨List.take_prefix _ _, List.length_take_le _ _⟩
  have hharmless : ∀ r : RandomReader Unit, ∀ op, Harmless reliable [1, 2, 3] r op := by
    intro r op n _ _ _ _ k hk
    rw [failsAfter_reliable] at hk
    cases hk
  exact ⟨s, hrun, hs, reads_right hserves (along_of_invariant (I := fun _ => True)
    (fun s op _ => hharmless s.reader op) (fun _ _ _ _ _ => trivial) trivial _) hrun⟩

end

end Xeibe.RandomAccess

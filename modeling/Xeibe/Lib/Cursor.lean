import Mathlib

/-!
# Parsers over a cursor

A parser moves a cursor over an input and fails with an error.  `Reads p xs a`
says that `p` takes `xs` and gives `a` wherever `xs` stands, and `ReadsBefore`
the same when something is known to follow `xs`, as a parser that checks what
is left needs it.  The rules compose what a sequence, a loop and a map of
parsers reads, so that a round trip is proved along the writer.

The last section has fixed-width numbers as bytes.
-/

namespace Xeibe.Lib

variable {β ε α γ : Type}

/-- A position in an input. -/
structure Cursor (β : Type) where
  input : List β
  pos : Nat
deriving DecidableEq, Repr

namespace Cursor

/-- What is not read yet. -/
def left (c : Cursor β) : List β := c.input.drop c.pos

/-- The cursor between a part that is read and one that is not. -/
def between (before after : List β) : Cursor β := ⟨before ++ after, before.length⟩

@[simp] theorem between_pos (before after : List β) :
    (between before after).pos = before.length := rfl

@[simp] theorem between_input (before after : List β) :
    (between before after).input = before ++ after := rfl

@[simp] theorem between_left (before after : List β) : (between before after).left = after := by
  simp [left, between]

end Cursor

/-- A function of a cursor that moves it or fails. -/
abbrev Parser (β ε α : Type) := StateT (Cursor β) (Except ε) α

namespace Parser

/-- The same parser `n` times, stopping at its first error. -/
def times (p : Parser β ε α) : Nat → Parser β ε (List α)
  | 0 => pure []
  | n + 1 => do
    let a ← p
    let rest ← times p n
    pure (a :: rest)

/-! ## What a parser reads -/

/-- Where `xs` stands with `ys` behind it, `p` takes `xs` and gives `a`. -/
def ReadsBefore (p : Parser β ε α) (xs : List β) (a : α) (ys : List β) : Prop :=
  ∀ before rest,
    p (.between before (xs ++ (ys ++ rest))) = .ok (a, .between (before ++ xs) (ys ++ rest))

/-- Where `xs` stands, `p` takes it and gives `a`. -/
def Reads (p : Parser β ε α) (xs : List β) (a : α) : Prop :=
  ∀ before rest, p (.between before (xs ++ rest)) = .ok (a, .between (before ++ xs) rest)

variable {p : Parser β ε α} {f : α → Parser β ε γ} {xs ys zs : List β} {a : α} {b : γ}

theorem Reads.before (h : Reads p xs a) (ys : List β) : ReadsBefore p xs a ys :=
  fun before rest => h before (ys ++ rest)

theorem ReadsBefore.reads (h : ReadsBefore p xs a []) : Reads p xs a :=
  fun before rest => h before rest

theorem Reads.pure (a : α) : Reads (Pure.pure a : Parser β ε α) [] a := by
  intro before rest
  simp [Pure.pure, StateT.pure, Except.pure]

theorem ReadsBefore.bind (hp : ReadsBefore p xs a (ys ++ zs)) (hf : ReadsBefore (f a) ys b zs) :
    ReadsBefore (p >>= f) (xs ++ ys) b zs := by
  intro before rest
  have hp := hp before rest
  have hf := hf (before ++ xs) rest
  simp only [List.append_assoc] at hp hf ⊢
  simp [Bind.bind, StateT.bind, Except.bind, hp, hf]

theorem ReadsBefore.andThen (hp : ReadsBefore p xs a ys) (hf : Reads (f a) ys b) :
    Reads (p >>= f) (xs ++ ys) b := by
  refine ReadsBefore.reads (ReadsBefore.bind ?_ (hf.before []))
  rwa [List.append_nil]

theorem Reads.bind (hp : Reads p xs a) (hf : Reads (f a) ys b) :
    Reads (p >>= f) (xs ++ ys) b :=
  (hp.before ys).andThen hf

theorem Reads.map (hp : Reads p xs a) (g : α → γ) :
    Reads (p >>= fun a => Pure.pure (g a)) xs (g a) := by
  have hpure : Reads (Pure.pure (g a) : Parser β ε γ) [] (g a) := Reads.pure (g a)
  have h : Reads (p >>= fun a => Pure.pure (g a)) (xs ++ []) (g a) := Reads.bind hp hpure
  rwa [List.append_nil] at h

theorem Reads.times {pieces : List (List β)} {as : List α}
    (h : List.Forall₂ (fun xs a => Reads p xs a) pieces as) :
    Reads (p.times as.length) pieces.flatten as := by
  induction h with
  | nil => exact Reads.pure []
  | cons hfirst _ ih => exact hfirst.bind (ih.map _)

end Parser

/-! ## Fixed-width numbers -/

/-- `width` bytes of `value`, the least significant first. -/
def littleEndian : Nat → Nat → List UInt8
  | 0, _ => []
  | width + 1, value => UInt8.ofNat (value % 256) :: littleEndian width (value / 256)

/-- The number of bytes that are given the least significant first. -/
def ofLittleEndian : List UInt8 → Nat
  | [] => 0
  | byte :: rest => byte.toNat + 256 * ofLittleEndian rest

@[simp] theorem littleEndian_length (width value : Nat) :
    (littleEndian width value).length = width := by
  induction width generalizing value with
  | zero => rfl
  | succ width ih => simp [littleEndian, ih]

theorem ofLittleEndian_littleEndian (width value : Nat) :
    ofLittleEndian (littleEndian width value) = value % 256 ^ width := by
  induction width generalizing value with
  | zero => simp [littleEndian, ofLittleEndian, Nat.mod_one]
  | succ width ih =>
    have hbyte : (UInt8.ofNat (value % 256)).toNat = value % 256 := by
      simp [UInt8.toNat_ofNat']
    rw [littleEndian, ofLittleEndian, ih, hbyte, Nat.pow_succ', Nat.mod_mul]

end Xeibe.Lib

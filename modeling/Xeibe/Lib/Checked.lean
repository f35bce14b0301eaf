import Mathlib.Algebra.Ring.Int.Defs
import Mathlib.Algebra.Ring.Nat
import Mathlib.Data.List.Basic

/-!
# Computations that check what they index and count

A computation over bytes and machine words returns a value, fails with an error
of its own, or panics: an index out of range, a size that does not fit its word,
a subtraction below zero.  `Sound x Q` says that `x` never panics and that what
it returns satisfies `Q`, and `Total x Q` that it returns something that does;
their rules follow the shape of the computation.
-/

namespace Xeibe.Lib

/-- Why a computation does not return. -/
inductive Stop (ε : Type) where
  | error (e : ε)
  | panic
deriving DecidableEq, Repr

abbrev Checked (ε α : Type) := Except (Stop ε) α

theorem bind_eq_ok {ε α β : Type} {x : Except ε α} {f : α → Except ε β} {b : β} :
    (x >>= f) = .ok b ↔ ∃ a, x = .ok a ∧ f a = .ok b := by
  cases x with
  | error e => simp [bind, Except.bind]
  | ok a => simp [bind, Except.bind]

theorem ok_bind {ε α β : Type} (a : α) (f : α → Except ε β) : (Except.ok a >>= f) = f a := rfl

namespace Checked

variable {ε α β : Type}

/-! ## Operations -/

def fail (e : ε) : Checked ε α := .error (.error e)

def panic : Checked ε α := .error .panic

/-- `xs[i]`. -/
def index (xs : List α) (i : Nat) : Checked ε α :=
  match xs[i]? with
  | some x => .ok x
  | none => panic

/-- `xs[start..stop]`. -/
def slice (xs : List α) (start stop : Nat) : Checked ε (List α) :=
  if start ≤ stop ∧ stop ≤ xs.length then .ok ((xs.take stop).drop start) else panic

/-- `xs[i] = x`. -/
def store (xs : List α) (i : Nat) (x : α) : Checked ε (List α) :=
  if i < xs.length then .ok (xs.set i x) else panic

/-- `xs[start..start + ys.len()].copy_from_slice(ys)`. -/
def overwrite (xs : List α) (start : Nat) (ys : List α) : Checked ε (List α) :=
  if start + ys.length ≤ xs.length then
    .ok (xs.take start ++ ys ++ xs.drop (start + ys.length))
  else
    panic

/-- `a + b` in 64 bits. -/
def add (a b : Nat) : Checked ε Nat := if a + b < 2 ^ 64 then .ok (a + b) else panic

/-- `a * b` in 64 bits. -/
def mul (a b : Nat) : Checked ε Nat := if a * b < 2 ^ 64 then .ok (a * b) else panic

/-- `a - b` of unsigned words. -/
def sub (a b : Nat) : Checked ε Nat := if b ≤ a then .ok (a - b) else panic

/-- `a / b`. -/
def quot (a b : Nat) : Checked ε Nat := if b = 0 then panic else .ok (a / b)

/-- `a % b`. -/
def rest (a b : Nat) : Checked ε Nat := if b = 0 then panic else .ok (a % b)

/-- A computation with another kind of error. -/
def mapError {ε' : Type} (f : ε → ε') : Checked ε α → Checked ε' α
  | .ok a => .ok a
  | .error (.error e) => fail (f e)
  | .error .panic => panic

/-! ## Soundness -/

/-- Never panics, and what it returns satisfies `Q`. -/
def Sound (x : Checked ε α) (Q : α → Prop) : Prop :=
  match x with
  | .ok a => Q a
  | .error (.error _) => True
  | .error .panic => False

variable {x : Checked ε α} {P Q : α → Prop}

theorem Sound.fail {e : ε} : Sound (Checked.fail e : Checked ε α) Q := trivial

theorem Sound.mono (hx : Sound x P) (h : ∀ a, P a → Q a) : Sound x Q := by
  match x, hx with
  | .ok a, hx => exact h a hx
  | .error (.error _), _ => trivial

theorem Sound.bind {f : α → Checked ε β} {R : β → Prop} (hx : Sound x P)
    (hf : ∀ a, P a → Sound (f a) R) : Sound (x >>= f) R := by
  match x, hx with
  | .ok a, hx => exact hf a hx
  | .error (.error _), _ => trivial

theorem Sound.of_eq (hx : Sound x P) : Sound x fun a => x = .ok a ∧ P a := by
  match x, hx with
  | .ok a, hx => exact ⟨rfl, hx⟩
  | .error (.error _), _ => trivial

theorem Sound.of_ok {a : α} (hx : Sound x Q) (h : x = .ok a) : Q a := by
  subst h
  exact hx

theorem Sound.ne_panic (hx : Sound x Q) : x ≠ panic := by
  rintro rfl
  exact hx

theorem Sound.map {f : α → β} {R : β → Prop} (hx : Sound x P) (h : ∀ a, P a → R (f a)) :
    Sound (f <$> x) R := by
  match x, hx with
  | .ok a, hx => exact h a hx
  | .error (.error _), _ => trivial

theorem Sound.mapError {ε' : Type} {f : ε → ε'} (hx : Sound x Q) :
    Sound (x.mapError f) Q := by
  match x, hx with
  | .ok _, hx => exact hx
  | .error (.error _), _ => trivial

/-! ## Totality -/

/-- Returns, and what it returns satisfies `Q`. -/
def Total (x : Checked ε α) (Q : α → Prop) : Prop := ∃ a, x = .ok a ∧ Q a

theorem Total.sound (hx : Total x Q) : Sound x Q := by
  obtain ⟨a, rfl, ha⟩ := hx
  exact ha

theorem Total.pure {a : α} (h : Q a) : Total (Except.ok a : Checked ε α) Q := ⟨a, rfl, h⟩

theorem Total.mono (hx : Total x P) (h : ∀ a, P a → Q a) : Total x Q := by
  obtain ⟨a, hxa, ha⟩ := hx
  exact ⟨a, hxa, h a ha⟩

theorem Total.bind {f : α → Checked ε β} {R : β → Prop} (hx : Total x P)
    (hf : ∀ a, P a → Total (f a) R) : Total (x >>= f) R := by
  obtain ⟨a, rfl, ha⟩ := hx
  exact hf a ha

/-! ## The operations -/

theorem Total.index {xs : List α} {i : Nat} (hi : i < xs.length) :
    Total (Checked.index xs i : Checked ε α) fun x => xs[i]? = some x := by
  unfold Checked.index
  rw [List.getElem?_eq_getElem hi]
  exact ⟨xs[i], rfl, rfl⟩

theorem Sound.index {xs : List α} {i : Nat} (hi : i < xs.length) :
    Sound (Checked.index xs i : Checked ε α) fun x => xs[i]? = some x :=
  (Total.index hi).sound

theorem Sound.slice_eq {xs : List α} {start stop : Nat} (hle : start ≤ stop)
    (hstop : stop ≤ xs.length) :
    Sound (Checked.slice xs start stop : Checked ε (List α)) (· = (xs.take stop).drop start) := by
  unfold Checked.slice
  rw [if_pos ⟨hle, hstop⟩]
  rfl

theorem Sound.slice {xs : List α} {start stop : Nat} (hle : start ≤ stop)
    (hstop : stop ≤ xs.length) :
    Sound (Checked.slice xs start stop : Checked ε (List α)) fun ys =>
      ys.length = stop - start ∧ ∀ y ∈ ys, y ∈ xs := by
  refine Sound.mono (Sound.slice_eq hle hstop) fun ys hys => ?_
  subst hys
  refine ⟨by simp; omega, fun y hy => List.mem_of_mem_take (List.mem_of_mem_drop hy)⟩

theorem Sound.store {xs : List α} {i : Nat} {a : α} (hi : i < xs.length) :
    Sound (Checked.store xs i a : Checked ε (List α)) fun ys =>
      ys = xs.set i a ∧ ys.length = xs.length := by
  unfold Checked.store
  rw [if_pos hi]
  exact ⟨rfl, by simp⟩

theorem Sound.overwrite {xs ys : List α} {start : Nat} (h : start + ys.length ≤ xs.length) :
    Sound (Checked.overwrite xs start ys : Checked ε (List α)) fun zs =>
      zs.length = xs.length := by
  unfold Checked.overwrite
  rw [if_pos h]
  show (xs.take start ++ ys ++ xs.drop (start + ys.length)).length = xs.length
  simp only [List.length_append, List.length_take, List.length_drop]
  omega

section Words

variable {a b : Nat}

theorem Total.add (h : a + b < 2 ^ 64) : Total (Checked.add a b : Checked ε Nat) (· = a + b) :=
  ⟨a + b, if_pos h, rfl⟩

theorem Total.mul (h : a * b < 2 ^ 64) : Total (Checked.mul a b : Checked ε Nat) (· = a * b) :=
  ⟨a * b, if_pos h, rfl⟩

theorem Total.sub (h : b ≤ a) : Total (Checked.sub a b : Checked ε Nat) (· = a - b) :=
  ⟨a - b, if_pos h, rfl⟩

theorem Total.quot (h : b ≠ 0) : Total (Checked.quot a b : Checked ε Nat) (· = a / b) :=
  ⟨a / b, if_neg h, rfl⟩

theorem Total.rest (h : b ≠ 0) : Total (Checked.rest a b : Checked ε Nat) (· = a % b) :=
  ⟨a % b, if_neg h, rfl⟩

theorem Sound.add (h : a + b < 2 ^ 64) : Sound (Checked.add a b : Checked ε Nat) (· = a + b) :=
  (Total.add h).sound

theorem Sound.mul (h : a * b < 2 ^ 64) : Sound (Checked.mul a b : Checked ε Nat) (· = a * b) :=
  (Total.mul h).sound

theorem Sound.sub (h : b ≤ a) : Sound (Checked.sub a b : Checked ε Nat) (· = a - b) :=
  (Total.sub h).sound

theorem Sound.quot (h : b ≠ 0) : Sound (Checked.quot a b : Checked ε Nat) (· = a / b) :=
  (Total.quot h).sound

theorem Sound.rest (h : b ≠ 0) : Sound (Checked.rest a b : Checked ε Nat) (· = a % b) :=
  (Total.rest h).sound

end Words

/-! ## Loops -/

theorem Sound.foldlM {f : β → α → Checked ε β} {I : β → Prop} {xs : List α} {b : β} (hb : I b)
    (hf : ∀ b x, x ∈ xs → I b → Sound (f b x) I) : Sound (xs.foldlM f b) I := by
  induction xs generalizing b with
  | nil => exact hb
  | cons x xs ih =>
    rw [List.foldlM_cons]
    refine Sound.bind (hf b x (by simp) hb) fun b' hb' => ih hb' ?_
    exact fun b x hx => hf b x (by simp [hx])

theorem Sound.mapM {f : α → Checked ε β} {R : β → Prop} {xs : List α}
    (hf : ∀ x ∈ xs, Sound (f x) R) :
    Sound (xs.mapM f) fun ys => ys.length = xs.length ∧ ∀ y ∈ ys, R y := by
  induction xs with
  | nil => exact ⟨rfl, by simp⟩
  | cons x xs ih =>
    rw [List.mapM_cons]
    refine Sound.bind (hf x (by simp)) fun y hy => ?_
    refine Sound.bind (ih fun x hx => hf x (by simp [hx])) fun ys hys => ?_
    refine ⟨by simp [hys.1], fun z hz => ?_⟩
    simp only [List.mem_cons] at hz
    rcases hz with rfl | hz
    · exact hy
    · exact hys.2 z hz

theorem Total.mapM {f : α → Checked ε β} {R : β → Prop} {xs : List α}
    (hf : ∀ x ∈ xs, Total (f x) R) : Total (xs.mapM f) fun ys => ∀ y ∈ ys, R y := by
  induction xs with
  | nil => exact ⟨[], rfl, by simp⟩
  | cons x xs ih =>
    rw [List.mapM_cons]
    refine Total.bind (hf x (by simp)) fun y hy => ?_
    refine Total.bind (ih fun x hx => hf x (by simp [hx])) fun ys hys => ?_
    refine ⟨y :: ys, rfl, fun z hz => ?_⟩
    rcases List.mem_cons.1 hz with rfl | hz
    · exact hy
    · exact hys z hz

end Checked

end Xeibe.Lib

import Mathlib.Data.List.Basic

/-!
# Iterators

An iterator is a state and a function `next` on it, which gives an item and
the state after it, or `none`.  `Yields next s items` says that the iterator
in state `s` gives `items`, in order, and then `none`.
-/

namespace Xeibe.Lib

variable {State Item Mapped : Type} {next : State → Option Item × State} {s : State}

inductive Yields (next : State → Option Item × State) : State → List Item → Prop where
  | done {s s' : State} (h : next s = (none, s')) : Yields next s []
  | item {s s' : State} {x : Item} {xs : List Item} (h : next s = (some x, s'))
      (rest : Yields next s' xs) : Yields next s (x :: xs)

/-- An iterator yields one list at most. -/
theorem Yields.unique {xs ys : List Item} (hx : Yields next s xs) (hy : Yields next s ys) :
    xs = ys := by
  induction hx generalizing ys with
  | done h =>
    cases hy with
    | done h' => rfl
    | item h' rest =>
      rw [h] at h'
      cases h'
  | item h rest ih =>
    cases hy with
    | done h' =>
      rw [h] at h'
      cases h'
    | item h' rest' =>
      rw [h] at h'
      cases h'
      rw [ih rest']

theorem Yields.congr {t : State} {xs : List Item} (hx : Yields next s xs)
    (h : next t = next s) : Yields next t xs := by
  cases hx with
  | done h' => exact .done (h.trans h')
  | item h' rest => exact .item (h.trans h') rest

/-- The first `n` items of an iterator, as far as there are so many, and its state
after them. -/
def takes (next : State → Option Item × State) : Nat → State → List Item × State
  | 0, s => ([], s)
  | n + 1, s =>
    match next s with
    | (some x, s') => (x :: (takes next n s').1, (takes next n s').2)
    | (none, s') => ([], s')

/-- Every item of the iterator, mapped. -/
def mapNext (f : Item → Mapped) (next : State → Option Item × State) (s : State) :
    Option Mapped × State :=
  ((next s).1.map f, (next s).2)

theorem Yields.map (f : Item → Mapped) {xs : List Item} (h : Yields next s xs) :
    Yields (mapNext f next) s (xs.map f) := by
  induction h with
  | done h => exact .done (by rw [mapNext, h]; rfl)
  | item h rest ih => exact .item (by rw [mapNext, h]; rfl) ih

end Xeibe.Lib

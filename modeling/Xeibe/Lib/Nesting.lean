import Mathlib.Algebra.Ring.Int.Defs
import Mathlib.Algebra.Ring.Nat
import Mathlib.Data.List.Infix

/-!
# Nesting

A list in which every element opens something (a step of `1`), closes something
(`-1`) or does neither.  In a nested list nothing is closed that has not been
opened, and all that is opened is closed.  A list that closes more than it opens
is no first part of a nested one (`Nested.level_nonneg`).
-/

namespace Xeibe.Lib

variable {α : Type} (step : α → Int)

/-- What is open after a list, less what it closes without having opened it. -/
def level (l : List α) : Int := (l.map step).sum

structure Nested (l : List α) : Prop where
  /-- No first part closes more than it opens. -/
  opened : ∀ first, first <+: l → 0 ≤ level step first
  closed : level step l = 0

variable {step}

@[simp] theorem level_nil : level step [] = 0 := rfl

@[simp] theorem level_cons (a : α) (l : List α) : level step (a :: l) = step a + level step l := by
  simp [level]

@[simp] theorem level_append (a b : List α) :
    level step (a ++ b) = level step a + level step b := by
  simp [level]

theorem level_eq_zero {l : List α} (h : ∀ a ∈ l, step a = 0) : level step l = 0 := by
  induction l with
  | nil => rw [level_nil]
  | cons a l ih =>
    rw [List.forall_mem_cons] at h
    rw [level_cons, h.1, ih h.2, Int.add_zero]

theorem first_of_append {a b first : List α} (h : first <+: a ++ b) :
    first <+: a ∨ ∃ more, more <+: b ∧ first = a ++ more := by
  rcases List.prefix_or_prefix_of_prefix h (List.prefix_append a b) with hin | ⟨more, hmore⟩
  · exact .inl hin
  · rw [← hmore, List.prefix_append_right_inj] at h
    exact .inr ⟨more, h, hmore.symm⟩

namespace Nested

theorem nil : Nested step [] where
  opened first h := by
    have hlevel : level step first = 0 := by rw [List.prefix_nil.1 h, level_nil]
    omega
  closed := level_nil

theorem append {a b : List α} (ha : Nested step a) (hb : Nested step b) :
    Nested step (a ++ b) where
  opened first h := by
    rcases first_of_append h with hin | ⟨more, hmore, hfirst⟩
    · exact ha.opened first hin
    · have hlevel := hb.opened more hmore
      rw [hfirst, level_append, ha.closed]
      omega
  closed := by
    rw [level_append, ha.closed, hb.closed, Int.add_zero]

theorem of_zero {l : List α} (h : ∀ a ∈ l, step a = 0) : Nested step l where
  opened first hfirst := by
    have hlevel := level_eq_zero fun a ha => h a (hfirst.subset ha)
    omega
  closed := level_eq_zero h

/-- A nested list between what opens and what closes. -/
theorem around {l : List α} {a b : α} (h : Nested step l) (ha : step a = 1) (hb : step b = -1) :
    Nested step (a :: (l ++ [b])) where
  opened first hfirst := by
    cases first with
    | nil => exact Int.le_of_eq (level_nil : level step [] = 0).symm
    | cons c first =>
      rw [List.cons_prefix_cons] at hfirst
      rw [level_cons, hfirst.1, ha]
      rcases first_of_append hfirst.2 with hin | ⟨more, hmore, hmade⟩
      · have hlevel := h.opened first hin
        omega
      · rw [hmade, level_append, h.closed]
        cases more with
        | nil =>
          rw [level_nil]
          omega
        | cons d more =>
          rw [List.cons_prefix_cons, List.prefix_nil] at hmore
          rw [level_cons, hmore.1, hb, hmore.2, level_nil]
          omega
  closed := by
    rw [level_cons, level_append, level_cons, level_nil, ha, hb, h.closed]
    omega

theorem level_nonneg {l first more used : List α} (h : Nested step l) (hfirst : first <+: l)
    (hmore : ∀ a ∈ more, step a = 0) (hused : used <+: first ++ more) : 0 ≤ level step used := by
  rcases first_of_append hused with hin | ⟨rest, hrest, hmade⟩
  · exact h.opened used (hin.trans hfirst)
  · have hlevel := h.opened first hfirst
    have hzero := level_eq_zero fun a ha => hmore a (hrest.subset ha)
    rw [hmade, level_append, hzero]
    omega

end Nested

end Xeibe.Lib

import Mathlib.Data.List.Chain

/-!
# Routes of steps

A step has two ends, and ends are compared by an equivalence: a route is a list
of steps, each of which starts where the one before it ended.  Routes are put
together, run backwards, mapped step by step, and lose a pair of neighbours that
leads back to where it started.
-/

namespace Xeibe.Lib

variable {σ κ : Type*}

/-- The steps lead from `a` to `b`: each starts, up to `R`, where the one before
it ended. -/
def Route (R : κ → κ → Prop) (src dst : σ → κ) : κ → List σ → κ → Prop
  | a, [], b => R a b
  | a, step :: steps, b => R a (src step) ∧ Route R src dst (dst step) steps b

namespace Route

variable {R : κ → κ → Prop} {src dst : σ → κ}

section

variable (hR : Equivalence R)
include hR

theorem single (step : σ) : Route R src dst (src step) [step] (dst step) :=
  ⟨hR.refl _, hR.refl _⟩

theorem of_left {a b c : κ} {steps : List σ} (h : R a b) (hb : Route R src dst b steps c) :
    Route R src dst a steps c := by
  cases steps with
  | nil => exact hR.trans h hb
  | cons step steps => exact ⟨hR.trans h hb.1, hb.2⟩

theorem of_right {a b c : κ} {steps : List σ} (ha : Route R src dst a steps b) (h : R b c) :
    Route R src dst a steps c := by
  induction steps generalizing a with
  | nil => exact hR.trans ha h
  | cons step steps ih => exact ⟨ha.1, ih ha.2⟩

theorem append {a b c : κ} {steps others : List σ} (ha : Route R src dst a steps b)
    (hb : Route R src dst b others c) : Route R src dst a (steps ++ others) c := by
  induction steps generalizing a with
  | nil => exact of_left hR ha hb
  | cons step steps ih => exact ⟨ha.1, ih ha.2⟩

theorem concat {a b : κ} {steps : List σ} {step : σ} (ha : Route R src dst a steps b)
    (h : R b (src step)) : Route R src dst a (steps ++ [step]) (dst step) :=
  append hR ha ⟨h, hR.refl _⟩

theorem of_append {a c : κ} {steps others : List σ}
    (h : Route R src dst a (steps ++ others) c) :
    ∃ b, Route R src dst a steps b ∧ Route R src dst b others c := by
  induction steps generalizing a with
  | nil => exact ⟨a, hR.refl a, h⟩
  | cons step steps ih =>
    obtain ⟨b, hsteps, hothers⟩ := ih h.2
    exact ⟨b, ⟨h.1, hsteps⟩, hothers⟩

theorem drop_pair {a c : κ} {front back : List σ} {s t : σ}
    (h : Route R src dst a (front ++ s :: t :: back) c) (hback : R (src s) (dst t)) :
    Route R src dst a (front ++ back) c := by
  obtain ⟨b, hfront, hs, -, hrest⟩ := of_append hR h
  exact append hR hfront (of_left hR (hR.trans hs hback) hrest)

theorem reverse {inv : σ → σ} (hsrc : ∀ s, src (inv s) = dst s) (hdst : ∀ s, dst (inv s) = src s)
    {a b : κ} {steps : List σ} (h : Route R src dst a steps b) :
    Route R src dst b (steps.reverse.map inv) a := by
  induction steps generalizing a with
  | nil => exact hR.symm h
  | cons step steps ih =>
    rw [List.reverse_cons, List.map_append]
    have hstep : R (dst step) (src (inv step)) := by
      rw [hsrc]
      exact hR.refl _
    have hend := concat hR (ih h.2) hstep
    rw [hdst] at hend
    exact of_right hR hend (hR.symm h.1)

theorem map {f : σ → σ} (hsrc : ∀ s, R (src (f s)) (src s)) (hdst : ∀ s, R (dst (f s)) (dst s))
    {a b : κ} {steps : List σ} (h : Route R src dst a steps b) :
    Route R src dst a (steps.map f) b := by
  induction steps generalizing a with
  | nil => exact h
  | cons step steps ih =>
    exact ⟨hR.trans h.1 (hR.symm (hsrc step)), of_left hR (hdst step) (ih h.2)⟩

end

end Route

end Xeibe.Lib

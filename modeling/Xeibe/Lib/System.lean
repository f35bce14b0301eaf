import Mathlib.Data.List.Count

/-!
# Runs of a system

A system is a partial step function on states: `step s e` is the state after
the event `e`, or `none` where `e` cannot happen in `s`.  A run is a list of
events; what one step keeps, a run keeps.

The parties of a system are a list of their states, and a party's step sets
one entry.
-/

namespace Xeibe.Lib

section

variable {State Event : Type} {step : State → Event → Option State} {s s' : State}

/-- The state after the events, if each of them can happen in turn. -/
def run (step : State → Event → Option State) : State → List Event → Option State
  | s, [] => some s
  | s, e :: es => (step s e).bind fun s' => run step s' es

@[simp] theorem run_nil : run step s [] = some s := rfl

theorem run_cons {e : Event} {es : List Event} (h : run step s (e :: es) = some s') :
    ∃ t, step s e = some t ∧ run step t es = some s' :=
  Option.bind_eq_some_iff.1 h

theorem run_append (es es' : List Event) :
    run step s (es ++ es') = (run step s es).bind fun t => run step t es' := by
  induction es generalizing s with
  | nil => rfl
  | cons e es ih =>
    rw [List.cons_append, run, run, Option.bind_assoc]
    exact congrArg _ (funext fun t => ih)

theorem run_invariant {I : State → Prop} {es : List Event}
    (hstep : ∀ s e s', e ∈ es → I s → step s e = some s' → I s') (hs : I s)
    (hrun : run step s es = some s') : I s' := by
  induction es generalizing s with
  | nil =>
    rw [run_nil] at hrun
    rw [← Option.some.inj hrun]
    exact hs
  | cons e es ih =>
    obtain ⟨t, ht, hrun'⟩ := run_cons hrun
    exact ih (fun s e' s' he' => hstep s e' s' (List.mem_cons_of_mem e he'))
      (hstep s e t List.mem_cons_self hs ht) hrun'

/-- Every step of a run meets a condition on the state before it and the event. -/
def Along (step : State → Event → Option State) (P : State → Event → Prop) :
    State → List Event → Prop
  | _, [] => True
  | s, e :: es => P s e ∧ ∀ s', step s e = some s' → Along step P s' es

theorem run_invariant_along {I : State → Prop} {P : State → Event → Prop} {es : List Event}
    (hstep : ∀ s e s', P s e → I s → step s e = some s' → I s') (halong : Along step P s es)
    (hs : I s) (hrun : run step s es = some s') : I s' := by
  induction es generalizing s with
  | nil =>
    rw [run_nil] at hrun
    rw [← Option.some.inj hrun]
    exact hs
  | cons e es ih =>
    obtain ⟨t, ht, hrun'⟩ := run_cons hrun
    exact ih (halong.2 t ht) (hstep s e t halong.1 hs ht) hrun'

theorem along_of_invariant {I : State → Prop} {P : State → Event → Prop}
    (hP : ∀ s e, I s → P s e) (hstep : ∀ s e s', I s → step s e = some s' → I s') (hs : I s)
    (es : List Event) : Along step P s es := by
  induction es generalizing s with
  | nil => exact trivial
  | cons e es ih => exact ⟨hP s e hs, fun s' hs' => ih (hstep s e s' hs hs')⟩

end

section

variable {Party : Type} {parties : List Party} {i j : Nat} {a b c : Party}

theorem party_set (hi : parties[i]? = some a) :
    (parties.set i b)[j]? = some c ↔ (j = i ∧ c = b) ∨ (j ≠ i ∧ parties[j]? = some c) := by
  have hlt : i < parties.length := (List.getElem?_eq_some_iff.1 hi).1
  rw [List.getElem?_set]
  by_cases h : i = j
  · subst h
    simp [hlt, eq_comm]
  · have h' : j ≠ i := fun h' => h h'.symm
    simp [h, h']

theorem count_set (hi : parties[i]? = some a) (p : Party → Bool) :
    (parties.set i b).countP p + (if p a = true then 1 else 0) =
      parties.countP p + (if p b = true then 1 else 0) := by
  obtain ⟨hlt, ha⟩ := List.getElem?_eq_some_iff.1 hi
  have hpos : p a = true → 0 < parties.countP p := fun h =>
    List.countP_pos_iff.2 ⟨a, List.mem_of_getElem? hi, h⟩
  rw [List.countP_set hlt, ha]
  by_cases h : p a = true
  · have := hpos h
    rw [if_pos h]
    omega
  · rw [if_neg h]
    omega

end

end Xeibe.Lib

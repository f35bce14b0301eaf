import Mathlib.Data.List.Pairwise
import Mathlib.Data.List.Basic

/-!
# Pieces of a long sequence

A sequence of which only some pieces are known, each by where it starts: in
order, none empty, and with a gap between any two.  Then a stretch that is known
as a whole lies in one piece.
-/

namespace Xeibe.Lib

/-- A known piece: where it starts, and what is in it. -/
abbrev KnownPiece (α : Type) := Nat × List α

namespace KnownPiece

variable {α : Type}

def stop (c : KnownPiece α) : Nat := c.1 + c.2.length

/-- What the piece has at a place. -/
def value (c : KnownPiece α) (i : Nat) : Option α := if c.1 ≤ i then c.2[i - c.1]? else none

theorem isSome_value {c : KnownPiece α} {i : Nat} : (c.value i).isSome ↔ c.1 ≤ i ∧ i < c.stop := by
  rw [value, stop]
  split
  · rw [isSome_getElem?]
    omega
  · simp only [Option.isSome_none, Bool.false_eq_true, false_iff]
    omega

end KnownPiece

section

variable {α : Type}

/-- What the pieces have at a place. -/
def valueAt (cs : List (KnownPiece α)) (i : Nat) : Option α := cs.findSome? (·.value i)

/-- In order, none empty, with a gap between any two. -/
structure Separated (cs : List (KnownPiece α)) : Prop where
  ne_nil : ∀ c ∈ cs, c.2 ≠ []
  gaps : cs.Pairwise fun a b => a.stop < b.1

theorem Separated.nil : Separated ([] : List (KnownPiece α)) := ⟨by simp, List.Pairwise.nil⟩

theorem Separated.sublist {cs ds : List (KnownPiece α)} (h : Separated cs) (hsub : ds.Sublist cs) :
    Separated ds :=
  ⟨fun c hc => h.ne_nil c (hsub.mem hc), h.gaps.sublist hsub⟩

theorem Separated.start_lt_stop {cs : List (KnownPiece α)} (h : Separated cs) {c : KnownPiece α}
    (hc : c ∈ cs) : c.1 < c.stop := by
  have hlength := List.length_pos_of_ne_nil (h.ne_nil c hc)
  rw [KnownPiece.stop]
  omega

theorem Separated.eq_or_gap {cs : List (KnownPiece α)} (h : Separated cs) {c d : KnownPiece α}
    (hc : c ∈ cs) (hd : d ∈ cs) : c = d ∨ c.stop < d.1 ∨ d.stop < c.1 := by
  have hgaps := h.gaps
  induction cs with
  | nil => cases hc
  | cons e cs ih =>
    rw [List.pairwise_cons] at hgaps
    rcases List.mem_cons.1 hc with rfl | hc'
    · rcases List.mem_cons.1 hd with rfl | hd'
      · exact .inl rfl
      · exact .inr (.inl (hgaps.1 d hd'))
    · rcases List.mem_cons.1 hd with rfl | hd'
      · exact .inr (.inr (hgaps.1 c hc'))
      · exact ih (h.sublist (List.sublist_cons_self _ _)) hc' hd' hgaps.2

theorem Separated.eq_of_common {cs : List (KnownPiece α)} (h : Separated cs) {c d : KnownPiece α}
    (hc : c ∈ cs) (hd : d ∈ cs) {i : Nat} (hci : c.1 ≤ i ∧ i ≤ c.stop)
    (hdi : d.1 ≤ i ∧ i ≤ d.stop) : c = d := by
  rcases h.eq_or_gap hc hd with heq | hgap | hgap
  · exact heq
  · omega
  · omega

theorem Separated.valueAt_eq {cs : List (KnownPiece α)} (h : Separated cs) {c : KnownPiece α}
    (hc : c ∈ cs) {i : Nat} (hi : c.1 ≤ i ∧ i < c.stop) : valueAt cs i = c.value i := by
  cases hvalue : valueAt cs i with
  | none =>
    have hnone := List.findSome?_eq_none_iff.1 hvalue c hc
    exact hnone.symm
  | some x =>
    obtain ⟨d, hd, hx⟩ := List.exists_of_findSome?_eq_some hvalue
    have hdi := KnownPiece.isSome_value.1 (hx ▸ rfl : (d.value i).isSome = true)
    rw [h.eq_of_common hc hd ⟨hi.1, Nat.le_of_lt hi.2⟩ ⟨hdi.1, Nat.le_of_lt hdi.2⟩, hx]

theorem Separated.valueAt_eq_some {cs : List (KnownPiece α)} (h : Separated cs) {i : Nat} {x : α} :
    valueAt cs i = some x ↔ ∃ c ∈ cs, c.value i = some x := by
  refine ⟨List.exists_of_findSome?_eq_some, ?_⟩
  rintro ⟨c, hc, hx⟩
  rw [h.valueAt_eq hc (KnownPiece.isSome_value.1 (hx ▸ rfl : (c.value i).isSome = true)), hx]

theorem isSome_valueAt {cs : List (KnownPiece α)} {i : Nat} :
    (valueAt cs i).isSome ↔ ∃ c ∈ cs, c.1 ≤ i ∧ i < c.stop := by
  simp only [valueAt, List.findSome?_isSome_iff, KnownPiece.isSome_value]

theorem Separated.exists_piece {cs : List (KnownPiece α)} (h : Separated cs) {start n : Nat}
    (hknown : ∀ i, start ≤ i → i < start + (n + 1) → (valueAt cs i).isSome) :
    ∃ c ∈ cs, c.1 ≤ start ∧ start + (n + 1) ≤ c.stop := by
  induction n with
  | zero =>
    obtain ⟨c, hc, hfrom, hto⟩ :=
      isSome_valueAt.1 (hknown start (Nat.le_refl _) (Nat.lt_succ_self _))
    exact ⟨c, hc, hfrom, hto⟩
  | succ n ih =>
    obtain ⟨c, hc, hfrom, hto⟩ := ih fun i hi hlt => hknown i hi (by omega)
    obtain ⟨d, hd, hdfrom, hdto⟩ :=
      isSome_valueAt.1 (hknown (start + (n + 1)) (by omega) (by omega))
    -- the piece up to the next place and the one that has it meet there
    obtain rfl := h.eq_of_common hc hd ⟨by omega, hto⟩ ⟨hdfrom, Nat.le_of_lt hdto⟩
    exact ⟨c, hc, hfrom, hdto⟩

end

end Xeibe.Lib

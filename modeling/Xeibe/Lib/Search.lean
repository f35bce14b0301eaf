import Mathlib.Data.List.Basic
import Mathlib.Data.Nat.Find

/-!
# Searching a list for a pattern, all at once and piece by piece

`indexOf pattern l` is the first position of `l` at which `pattern` stands,
as `memchr` and `memmem` find it.  The characterisations
`indexOf_eq_some_iff` and `indexOf_eq_none_iff` carry the rest:

* what is found in a first part of a list is found in the whole
  (`indexOf_append_of_some`);
* what is not found in a first part can start at its last
  `pattern.length - 1` elements at the earliest, so a search may go on there
  when more has arrived (`indexOf_resume`);
* a pattern that ends a part, and stands nowhere before, is found there
  (`indexOf_terminated`).
-/

namespace Xeibe.Lib

variable {α : Type} [DecidableEq α]

/-- The index of the first occurrence of `pattern`. -/
def indexOf (pattern : List α) : List α → Option Nat
  | [] => if pattern.isEmpty then some 0 else none
  | b :: rest =>
    if pattern.isPrefixOf (b :: rest) then some 0 else (indexOf pattern rest).map (· + 1)

theorem indexOf_eq_some_iff {pattern l : List α} {i : Nat} :
    indexOf pattern l = some i ↔
      i ≤ l.length ∧ pattern <+: l.drop i ∧ ∀ j < i, ¬ pattern <+: l.drop j := by
  induction l generalizing i with
  | nil =>
    simp only [indexOf, List.length_nil, Nat.le_zero, List.drop_nil, List.prefix_nil]
    split
    · rename_i h
      have hp : pattern = [] := by simpa using h
      subst hp
      constructor
      · intro hi
        have : i = 0 := (Option.some.inj hi).symm
        subst this
        simp
      · rintro ⟨rfl, -, -⟩
        rfl
    · rename_i h
      have hp : pattern ≠ [] := by simpa using h
      simp [hp]
  | cons b rest ih =>
    rw [indexOf]
    split
    · rename_i h
      have hp : pattern <+: b :: rest := List.isPrefixOf_iff_prefix.1 h
      constructor
      · intro hi
        have : i = 0 := (Option.some.inj hi).symm
        subst this
        exact ⟨Nat.zero_le _, hp, fun j hj => absurd hj (Nat.not_lt_zero j)⟩
      · rintro ⟨-, -, hmin⟩
        cases i with
        | zero => rfl
        | succ i => exact absurd hp (hmin 0 (Nat.succ_pos i))
    · rename_i h
      have hp : ¬ pattern <+: b :: rest := fun hp => h (List.isPrefixOf_iff_prefix.2 hp)
      rw [Option.map_eq_some_iff]
      constructor
      · rintro ⟨k, hk, rfl⟩
        obtain ⟨hle, hpre, hmin⟩ := ih.1 hk
        refine ⟨by simpa using hle, by simpa using hpre, fun j hj => ?_⟩
        cases j with
        | zero => exact hp
        | succ j => simpa using hmin j (by omega)
      · rintro ⟨hle, hpre, hmin⟩
        cases i with
        | zero => exact absurd hpre hp
        | succ i =>
          refine ⟨i, ih.2 ⟨by simpa using hle, by simpa using hpre, fun j hj => ?_⟩, rfl⟩
          simpa using hmin (j + 1) (by omega)

theorem indexOf_eq_none_iff {pattern l : List α} :
    indexOf pattern l = none ↔ ∀ j ≤ l.length, ¬ pattern <+: l.drop j := by
  constructor
  · intro hnone j hj hpre
    classical
    -- The least position at which the pattern stands would have been found.
    have hex : ∃ k, k ≤ l.length ∧ pattern <+: l.drop k := ⟨j, hj, hpre⟩
    obtain ⟨hle, hfirst⟩ := Nat.find_spec hex
    have hsome : indexOf pattern l = some (Nat.find hex) :=
      indexOf_eq_some_iff.2 ⟨hle, hfirst, fun k hk hpk =>
        Nat.find_min hex hk ⟨by omega, hpk⟩⟩
    rw [hnone] at hsome
    cases hsome
  · intro h
    cases hi : indexOf pattern l with
    | none => rfl
    | some i =>
      obtain ⟨hle, hpre, -⟩ := indexOf_eq_some_iff.1 hi
      exact absurd hpre (h i hle)

theorem indexOf_add_length_le {pattern l : List α} {i : Nat} (h : indexOf pattern l = some i) :
    i + pattern.length ≤ l.length := by
  obtain ⟨hle, hpre, -⟩ := indexOf_eq_some_iff.1 h
  have := hpre.length_le
  rw [List.length_drop] at this
  omega

omit [DecidableEq α] in
/-- A pattern that stands early enough in `a ++ b` stands in `a`. -/
theorem prefix_drop_of_append {pattern a b : List α} {j : Nat}
    (hj : j + pattern.length ≤ a.length) :
    pattern <+: (a ++ b).drop j ↔ pattern <+: a.drop j := by
  rw [List.drop_append_of_le_length (by omega)]
  constructor
  · intro h
    exact List.prefix_of_prefix_length_le h (List.prefix_append _ _)
      (by rw [List.length_drop]; omega)
  · intro h
    exact h.trans (List.prefix_append _ _)

theorem exists_indexOf {pattern l : List α} (h : pattern <:+: l) :
    ∃ i, indexOf pattern l = some i := by
  obtain ⟨before, after, hl⟩ := h
  cases hi : indexOf pattern l with
  | some i => exact ⟨i, rfl⟩
  | none =>
    have hle : before.length ≤ l.length := by
      rw [← hl, List.append_assoc, List.length_append]
      omega
    refine absurd ?_ (indexOf_eq_none_iff.1 hi before.length hle)
    rw [← hl, List.append_assoc, List.drop_left]
    exact List.prefix_append _ _

theorem indexOf_append_of_some {pattern a : List α} {i : Nat}
    (h : indexOf pattern a = some i) (b : List α) : indexOf pattern (a ++ b) = some i := by
  have hlen := indexOf_add_length_le h
  obtain ⟨-, hpre, hmin⟩ := indexOf_eq_some_iff.1 h
  refine indexOf_eq_some_iff.2 ⟨?_, (prefix_drop_of_append hlen).2 hpre, fun j hj hp => ?_⟩
  · rw [List.length_append]
    omega
  · exact hmin j hj ((prefix_drop_of_append (by omega)).1 hp)

/-- A search that need not look at the first `k` positions may skip them. -/
theorem indexOf_skip {pattern l : List α} {k : Nat} (hk : k ≤ l.length)
    (hno : ∀ j < k, ¬ pattern <+: l.drop j) :
    indexOf pattern l = (indexOf pattern (l.drop k)).map (k + ·) := by
  cases hi : indexOf pattern (l.drop k) with
  | none =>
    rw [indexOf_eq_none_iff] at hi
    rw [Option.map_none, indexOf_eq_none_iff]
    intro j hj
    rcases Nat.lt_or_ge j k with hjk | hjk
    · exact hno j hjk
    · have := hi (j - k) (by rw [List.length_drop]; omega)
      rwa [List.drop_drop, Nat.add_sub_cancel' hjk] at this
  | some i =>
    obtain ⟨hle, hpre, hmin⟩ := indexOf_eq_some_iff.1 hi
    rw [List.length_drop] at hle
    rw [Option.map_some]
    refine indexOf_eq_some_iff.2 ⟨by omega, ?_, fun j hj => ?_⟩
    · rwa [List.drop_drop] at hpre
    · rcases Nat.lt_or_ge j k with hjk | hjk
      · exact hno j hjk
      · have := hmin (j - k) (by omega)
        rwa [List.drop_drop, Nat.add_sub_cancel' hjk] at this

theorem indexOf_resume {pattern a : List α} (hp : pattern ≠ [])
    (h : indexOf pattern a = none) (b : List α) :
    indexOf pattern (a ++ b) =
      (indexOf pattern ((a ++ b).drop (a.length - (pattern.length - 1)))).map
        (a.length - (pattern.length - 1) + ·) := by
  have hpos : 0 < pattern.length := List.length_pos_of_ne_nil hp
  rw [indexOf_eq_none_iff] at h
  refine indexOf_skip (by rw [List.length_append]; omega) fun j hj hpre => ?_
  exact h j (by omega) ((prefix_drop_of_append (by omega)).1 hpre)

theorem indexOf_terminated {pattern a : List α} (b : List α)
    (h : ∀ j < a.length, ¬ pattern <+: (a ++ (pattern ++ b)).drop j) :
    indexOf pattern (a ++ (pattern ++ b)) = some a.length := by
  refine indexOf_eq_some_iff.2 ⟨?_, ?_, h⟩
  · rw [List.length_append]
    omega
  · rw [List.drop_left]
    exact List.prefix_append _ _

theorem indexOf_singleton_append {a : List α} {x : α} (h : x ∉ a) (b : List α) :
    indexOf [x] (a ++ x :: b) = some a.length := by
  refine @indexOf_terminated α _ [x] a b fun j hj hpre => h ?_
  rw [List.drop_append_of_le_length (by omega), List.drop_eq_getElem_cons hj, List.cons_append,
    List.cons_prefix_cons] at hpre
  rw [hpre.1]
  exact List.getElem_mem hj

/-- A delimiter whose last element is nowhere else in it is found where the
body ends, when the body does not hold it. -/
theorem indexOf_delimiter {q body : List α} {c : α} (hc : c ∉ q)
    (hbody : ¬ (q ++ [c]) <:+: body) (more : List α) :
    indexOf (q ++ [c]) (body ++ ((q ++ [c]) ++ more)) = some body.length := by
  refine indexOf_terminated more fun j hj hpre => ?_
  by_cases hin : j + (q ++ [c]).length ≤ body.length
  · have hin' := (prefix_drop_of_append hin).1 hpre
    exact hbody (hin'.isInfix.trans (List.drop_suffix j body).isInfix)
  · -- The delimiter's last element would be one of its others.
    rw [List.length_append, List.length_singleton] at hin
    have hlast : (body ++ ((q ++ [c]) ++ more))[j + q.length]? = some c := by
      obtain ⟨rest, hrest⟩ := hpre
      rw [← List.getElem?_drop, ← hrest, List.append_assoc,
        List.getElem?_append_right (Nat.le_refl _), Nat.sub_self]
      rfl
    have hlen : j + q.length - body.length < q.length := by omega
    rw [List.getElem?_append_right (by omega), List.append_assoc,
      List.getElem?_append_left hlen] at hlast
    exact hc (List.mem_of_getElem? hlast)

theorem indexOf_singleton_eq_none {l : List α} {x : α} (h : x ∉ l) : indexOf [x] l = none := by
  rw [indexOf_eq_none_iff]
  rintro j hj ⟨rest, hrest⟩
  refine h (List.mem_of_mem_drop (i := j) ?_)
  rw [← hrest]
  exact List.mem_cons_self

end Xeibe.Lib

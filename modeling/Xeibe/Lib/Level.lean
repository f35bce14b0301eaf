import Xeibe.Lib.Binary64

/-!
# Doubles that a step of zero leaves level

A multiple of zero added to a double, or taken from it, separates it from
nothing: neither of the two, nor of their products with one factor, is below the
other.
-/

namespace Xeibe.Lib.Binary64

open Float.Model

/-- Neither of two doubles is below the other. -/
def Level (a b : Float) : Prop :=
  a.toModel.unpack = .notANumber ∨ b.toModel.unpack = .notANumber ∨ unitsOf a = unitsOf b

theorem Level.symm {a b : Float} (h : Level a b) : Level b a := by
  rcases h with h | h | h
  · exact Or.inr (Or.inl h)
  · exact Or.inl h
  · exact Or.inr (Or.inr h.symm)

theorem ne_notANumber_of_lt {a b : Float} (h : a < b) :
    a.toModel.unpack ≠ .notANumber ∧ b.toModel.unpack ≠ .notANumber := by
  have hmodel : UnpackedFloat.lt a.toModel.unpack b.toModel.unpack = true := of_decide_eq_true h
  constructor
  · intro hnan
    rw [hnan] at hmodel
    cases hb : b.toModel.unpack <;> rw [hb] at hmodel <;> cases hmodel
  · intro hnan
    rw [hnan] at hmodel
    cases ha : a.toModel.unpack <;> rw [ha] at hmodel <;> cases hmodel

theorem Level.not_lt {a b : Float} (h : Level a b) : ¬ a < b := by
  intro hlt
  obtain ⟨ha, hb⟩ := ne_notANumber_of_lt hlt
  have hunits := (lt_iff_of_ne ha hb).1 hlt
  rcases h with h | h | h
  · exact ha h
  · exact hb h
  · omega

theorem mul_zero_unpack (d : Float) :
    (d * natural 0).toModel.unpack = .notANumber ∨
      ∃ sign, (d * natural 0).toModel.unpack = .zero sign := by
  have hzero : (natural 0).toModel.unpack = .zero .positive := by rfl
  have hmul : (d * natural 0).toModel.unpack = UnpackedFloat.unpack .binary64
      (UnpackedFloat.pack .binary64
        (UnpackedFloat.mul .binary64 d.toModel.unpack (natural 0).toModel.unpack)) := rfl
  rw [hmul, hzero]
  cases d.toModel.unpack with
  | notANumber => exact Or.inl unpack_pack_notANumber
  | infinity sign => exact Or.inl unpack_pack_notANumber
  | zero sign => exact Or.inr ⟨_, unpack_pack_zero _⟩
  | finite sign m k h => exact Or.inr ⟨_, unpack_pack_zero _⟩

/-- `y` is `x` after a step of zero, or not a number. -/
def Same (x y : Float) : Prop :=
  y.toModel.unpack = .notANumber ∨ y.toModel.unpack = x.toModel.unpack ∨
    ∃ s t, x.toModel.unpack = .zero s ∧ y.toModel.unpack = .zero t

/-- An operation that keeps its left argument at a right one of zero makes a step
of zero. -/
theorem same_step {op : UnpackedFloat → UnpackedFloat → UnpackedFloat}
    (hnan : ∀ a, op a .notANumber = .notANumber)
    (hzero : ∀ s t, ∃ r, op (.zero s) (.zero t) = .zero r)
    (hkeep : ∀ a t, (∀ s, a ≠ .zero s) → op a (.zero t) = a) {x y d : Float}
    (hy : y.toModel.unpack = UnpackedFloat.unpack .binary64
      (UnpackedFloat.pack .binary64 (op x.toModel.unpack (d * natural 0).toModel.unpack))) :
    Same x y := by
  rw [Same, hy]
  rcases mul_zero_unpack d with h | ⟨t, h⟩ <;> rw [h]
  · rw [hnan]
    exact Or.inl unpack_pack_notANumber
  · by_cases hx : ∃ s, x.toModel.unpack = .zero s
    · obtain ⟨s, hs⟩ := hx
      obtain ⟨r, hr⟩ := hzero s t
      rw [hs, hr]
      exact Or.inr (Or.inr ⟨s, r, rfl, unpack_pack_zero r⟩)
    · rw [hkeep _ t fun s hs => hx ⟨s, hs⟩]
      exact Or.inr (Or.inl (unpack_pack_of_canonical (canonical x)))

theorem same_add (x d : Float) : Same x (x + d * natural 0) := by
  have hstep : (x + d * natural 0).toModel.unpack = UnpackedFloat.unpack .binary64
      (UnpackedFloat.pack .binary64
        (UnpackedFloat.add .binary64 x.toModel.unpack (d * natural 0).toModel.unpack)) := rfl
  refine same_step ?_ ?_ ?_ hstep
  · intro a
    cases a <;> rfl
  · intro s t
    cases s <;> cases t <;> exact ⟨_, rfl⟩
  · intro a t ha
    cases a with
    | zero s => exact absurd rfl (ha s)
    | _ => rfl

theorem same_sub (x d : Float) : Same x (x - d * natural 0) := by
  have hstep : (x - d * natural 0).toModel.unpack = UnpackedFloat.unpack .binary64
      (UnpackedFloat.pack .binary64
        (UnpackedFloat.sub .binary64 x.toModel.unpack (d * natural 0).toModel.unpack)) := rfl
  refine same_step ?_ ?_ ?_ hstep
  · intro a
    cases a <;> rfl
  · intro s t
    cases s <;> cases t <;> exact ⟨_, rfl⟩
  · intro a t ha
    cases a with
    | zero s => exact absurd rfl (ha s)
    | _ => rfl

/-- Products keep level what a step of zero leaves. -/
theorem Same.mul {x y : Float} (h : Same x y) (f : Float) : Level (x * f) (y * f) := by
  have hmul (a : Float) : (a * f).toModel.unpack = UnpackedFloat.unpack .binary64
      (UnpackedFloat.pack .binary64
        (UnpackedFloat.mul .binary64 a.toModel.unpack f.toModel.unpack)) := rfl
  rw [Level, unitsOf, unitsOf, hmul x, hmul y]
  rcases h with h | h | ⟨s, t, hx, hy⟩
  · rw [h]
    refine Or.inr (Or.inl ?_)
    cases f.toModel.unpack <;> exact unpack_pack_notANumber
  · rw [h]
    exact Or.inr (Or.inr rfl)
  · rw [hx, hy]
    cases f.toModel.unpack with
    | notANumber => exact Or.inl unpack_pack_notANumber
    | infinity sign => exact Or.inl unpack_pack_notANumber
    | zero sign =>
      refine Or.inr (Or.inr ?_)
      show units (UnpackedFloat.unpack _ (UnpackedFloat.pack _ (.zero (s * sign)))) =
        units (UnpackedFloat.unpack _ (UnpackedFloat.pack _ (.zero (t * sign))))
      rw [unpack_pack_zero, unpack_pack_zero]
      rfl
    | finite sign m k hm =>
      refine Or.inr (Or.inr ?_)
      show units (UnpackedFloat.unpack _ (UnpackedFloat.pack _ (.zero (s * sign)))) =
        units (UnpackedFloat.unpack _ (UnpackedFloat.pack _ (.zero (t * sign))))
      rw [unpack_pack_zero, unpack_pack_zero]
      rfl

end Xeibe.Lib.Binary64

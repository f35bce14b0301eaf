import Xeibe.Lib.Ranking
import Xeibe.Reproject.Numbers
import Xeibe.Reproject.Select.Search.Meeting

/-!
# Whether the order of candidates is one

`before` is a chain of rules over the sort keys.  One of them, the number of steps
of PROJ's pipeline, is left out where a candidate has no such number: three
candidates may then stand in a circle.  Where none do, candidates are ranked alike
whatever order the search finds them in.
-/

namespace Xeibe.Reproject.Select.Search

open Std (LawfulEqCmp LawfulEqOrd OrientedCmp TransCmp TransOrd)
open Xeibe.Geom (F64)
open Xeibe.Lib

/-! ## The rules as comparisons -/

section

variable {α β : Type} {early late cmp rest : α → α → Ordering} {count : α → Nat} {f : α → β}
  {a b : α}

theorem chained_rule [Ord β] [LawfulEqOrd β] [DecidableEq β] :
    chained (compareLex (compareOn f) early) late count a b =
      if f a ≠ f b then compare (f a) (f b) == .lt else chained early late count a b := by
  by_cases h : f a = f b
  · have heq : compare (f a) (f b) = .eq := LawfulEqOrd.compare_eq_iff_eq.2 h
    rw [if_neg (not_not.2 h), chained, chained, compareLex, compareOn, heq]
    rfl
  · rw [if_pos h, chained, compareLex, compareOn]
    cases hcmp : compare (f a) (f b) with
    | lt => rfl
    | gt => rfl
    | eq => exact absurd (LawfulEqOrd.compare_eq_iff_eq.1 hcmp) h

theorem chained_last [Ord β] [LawfulEqOrd β] [DecidableEq β] :
    chained (compareOn f) late count a b =
      if f a ≠ f b then compare (f a) (f b) == .lt else counted late count a b := by
  by_cases h : f a = f b
  · have heq : compareOn f a b = .eq := LawfulEqOrd.compare_eq_iff_eq.2 h
    rw [if_neg (not_not.2 h), chained_eq heq]
  · rw [if_pos h, chained, compareOn]
    cases hcmp : compare (f a) (f b) with
    | lt => rfl
    | gt => rfl
    | eq => exact absurd (LawfulEqOrd.compare_eq_iff_eq.1 hcmp) h

theorem lex_rule {p : Prop} [Decidable p] (h : cmp a b = .eq ↔ p) :
    (compareLex cmp rest a b == .lt) = if ¬ p then cmp a b == .lt else rest a b == .lt := by
  rw [compareLex]
  by_cases hp : p
  · rw [if_neg (not_not.2 hp), h.2 hp]
    rfl
  · rw [if_pos hp]
    cases hcmp : cmp a b with
    | lt => rfl
    | gt => rfl
    | eq => exact absurd (h.1 hcmp) hp

end

theorem compareLists_eq {α : Type} (cmp : α → α → Ordering) :
    compareLists cmp = List.compareLex cmp := by
  funext as bs
  induction as generalizing bs with
  | nil => cases bs <;> rfl
  | cons a as ih =>
    cases bs with
    | nil => rfl
    | cons b bs => rw [compareLists, List.compareLex_cons_cons, ih]

theorem compareOptions_eq : compareOptions = compare := by
  funext a b
  cases a <;> cases b <;> rfl

instance : TransCmp compareOptions := by
  rw [compareOptions_eq]
  infer_instance

instance : LawfulEqCmp compareOptions := by
  rw [compareOptions_eq]
  infer_instance

instance : TransCmp compareShapes := by
  have hlex : compareShapes = compareLex (fun a b => compareOptions a.1 b.1)
      (fun a b => compareOptions a.2 b.2) := rfl
  rw [hlex, compareOptions_eq]
  exact inferInstanceAs (TransCmp (compareLex (compareOn (Prod.fst : Option Nat × Option Nat → _))
    (compareOn Prod.snd)))

instance : LawfulEqCmp compareShapes where
  compare_self := by simp [compareShapes, compareOptions_eq]
  eq_of_compare h := by
    rw [compareShapes, Ordering.then_eq_eq] at h
    exact Prod.ext (LawfulEqCmp.eq_of_compare h.1) (LawfulEqCmp.eq_of_compare h.2)

instance : TransCmp compareUsed :=
  inferInstanceAs (TransCmp (compareLex (compareOn (Prod.fst : Nat × Nat × Bool → Nat))
    (compareLex (compareOn fun u : Nat × Nat × Bool => u.2.1)
      (compareOn fun u : Nat × Nat × Bool => u.2.2))))

instance : LawfulEqCmp compareUsed where
  compare_self := by simp [compareUsed]
  eq_of_compare h := by
    rw [compareUsed, Ordering.then_eq_eq, Ordering.then_eq_eq] at h
    exact Prod.ext (LawfulEqOrd.eq_of_compare h.1)
      (Prod.ext (LawfulEqOrd.eq_of_compare h.2.1) (LawfulEqOrd.eq_of_compare h.2.2))

instance {α : Type} {cmp : α → α → Ordering} [TransCmp cmp] : TransCmp (compareLists cmp) := by
  rw [compareLists_eq]
  infer_instance

instance {α : Type} {cmp : α → α → Ordering} [LawfulEqCmp cmp] : LawfulEqCmp (compareLists cmp) := by
  rw [compareLists_eq]
  infer_instance

/-- The other way round. -/
def flipped {α : Type} (cmp : α → α → Ordering) (a b : α) : Ordering := cmp b a

instance {α : Type} {cmp : α → α → Ordering} [TransCmp cmp] : TransCmp (flipped cmp) :=
  @TransCmp.opposite _ cmp _

/-- By a part. -/
def comparing {α β : Type} (f : α → β) (cmp : β → β → Ordering) (a b : α) : Ordering :=
  cmp (f a) (f b)

instance {α β : Type} {f : α → β} {cmp : β → β → Ordering} [TransCmp cmp] :
    TransCmp (comparing f cmp) where
  eq_swap {a b} := (OrientedCmp.eq_swap : cmp (f a) (f b) = _)
  isLE_trans {a b c} := (TransCmp.isLE_trans : (cmp (f a) (f b)).isLE → (cmp (f b) (f c)).isLE → _)

namespace Keys

/-! ## Before the number of steps, and after it -/

/-- Of an unknown accuracy. -/
def unknown (k : Keys) : Bool := decide (k.accuracy < F64.zero)

/-- The area, where there is one, the largest first. -/
def areaRank (k : Keys) : Int := -max 0 k.area.units

/-- The accuracy, where it is known. -/
def accuracyRank (k : Keys) : Int := if k.unknown then 0 else k.accuracy.units

/-- The rules on the accuracy of equal areas, and on the steps. -/
def byAccuracy : Keys → Keys → Ordering :=
  compareLex (compareOn accuracyRank)
    (compareLex (compareOn fun k => !k.unknown && k.hasGrids) (compareOn stepCount))

/-- The rules before the number of steps of the pipeline. -/
def early : Keys → Keys → Ordering :=
  compareLex (compareOn fun k => !k.exportable)
    (compareLex (compareOn nullTransformation)
      (compareLex (compareOn unknown)
        (compareLex (compareOn fun k => k.unknown && !k.hasGrids)
          (compareLex (compareOn areaRank) byAccuracy))))

/-- The rules where the counts tell nothing: routes and codes. -/
def byCodes : Keys → Keys → Ordering :=
  compareLex (comparing via (flipped (compareLists compare)))
    (compareLex (comparing shape (compareLists compareShapes))
      (compareLex (comparing (fun k => k.registry.map (·.1)) (flipped (compareLists compare)))
        (comparing registry (compareLists compareUsed))))

/-- The rules after it. -/
def late : Keys → Keys → Ordering :=
  compareLex (compareOn emulations)
    (compareLex (compareOn ownIdentities)
      (compareLex (compareOn compoundOps)
        (compareLex (compareOn replaced)
          (compareLex (compareOn inverted)
            (compareLex (compareOn offMeridian)
              (compareLex (compareOn leaves)
                (compareLex (compareOn offDimension) byCodes)))))))

instance : TransCmp byAccuracy :=
  inferInstanceAs (TransCmp (compareLex _ (compareLex _ _)))

instance : TransCmp early :=
  inferInstanceAs (TransCmp (compareLex _ (compareLex _ (compareLex _ (compareLex _
    (compareLex _ byAccuracy))))))

instance : TransCmp byCodes :=
  inferInstanceAs (TransCmp (compareLex _ (compareLex _ (compareLex _ _))))

instance : TransCmp late :=
  inferInstanceAs (TransCmp (compareLex _ (compareLex _ (compareLex _ (compareLex _
    (compareLex _ (compareLex _ (compareLex _ (compareLex _ byCodes)))))))))

/-! ## The chain -/

/-- The area and the accuracy are numbers. -/
def Numbers (k : Keys) : Prop := k.area.isNan = false ∧ k.accuracy.isNan = false

instance (k : Keys) : Decidable k.Numbers := inferInstanceAs (Decidable (_ ∧ _))

variable {a b : Keys}

theorem beforeByCodes_eq : beforeByCodes a b = (byCodes a b == .lt) := by
  have hvia : comparing via (flipped (compareLists compare)) a b = .eq ↔ a.via = b.via := by
    rw [comparing, flipped, LawfulEqCmp.compare_eq_iff_eq]
    exact eq_comm
  have hshape : comparing shape (compareLists compareShapes) a b = .eq ↔ a.shape = b.shape := by
    rw [comparing, LawfulEqCmp.compare_eq_iff_eq]
  have hvariants : comparing (fun k : Keys => k.registry.map (·.1))
      (flipped (compareLists compare)) a b = .eq ↔
        a.registry.map (·.1) = b.registry.map (·.1) := by
    rw [comparing, flipped, LawfulEqCmp.compare_eq_iff_eq]
    exact eq_comm
  rw [byCodes, lex_rule hvia, lex_rule hshape, lex_rule hvariants]
  rfl

theorem lex_rule_nat {f : Keys → Nat} {rest : Keys → Keys → Ordering} :
    (compareLex (compareOn f) rest a b == .lt) =
      if f a ≠ f b then decide (f a < f b) else rest a b == .lt := by
  have heq : compareOn f a b = .eq ↔ f a = f b := Nat.compare_eq_eq
  have hlt : (compareOn f a b == .lt) = decide (f a < f b) := by
    rw [Bool.eq_iff_iff, beq_iff_eq, decide_eq_true_iff]
    exact Nat.compare_eq_lt
  rw [lex_rule heq, hlt]

theorem beforeByCounts_eq :
    beforeByCounts a b = if a.stepCount ≠ b.stepCount then decide (a.stepCount < b.stepCount)
      else counted late projStepCount a b := by
  unfold beforeByCounts counted late
  simp only [lex_rule_nat, beforeByCodes_eq]

theorem compare_int_lt (x y : Int) : (compare x y == .lt) = decide (x < y) := by
  rw [Bool.eq_iff_iff, beq_iff_eq, decide_eq_true_iff]
  exact Int.compare_eq_lt

theorem compare_nat_lt (x y : Nat) : (compare x y == .lt) = decide (x < y) := by
  rw [Bool.eq_iff_iff, beq_iff_eq, decide_eq_true_iff]
  exact Nat.compare_eq_lt

theorem compare_bool_lt (x y : Bool) : (compare x y == .lt) = (!x && y) := by
  cases x <;> cases y <;> rfl

theorem unknown_eq_true_iff (h : a.Numbers) : a.unknown = true ↔ a.accuracy.units < 0 := by
  rw [unknown, decide_eq_true_iff, F64.lt_iff_units h.2 F64.isNan_zero, F64.units_zero]

theorem unknown_eq_false_iff (h : a.Numbers) : a.unknown = false ↔ 0 ≤ a.accuracy.units := by
  rw [← Bool.not_eq_true, unknown_eq_true_iff h, Int.not_lt]

theorem beforeByAccuracy_eq (ha : a.Numbers) (hb : b.Numbers) (h : a.unknown = b.unknown) :
    beforeByAccuracy a b = chained byAccuracy late projStepCount a b := by
  have hzeroA := F64.le_iff_units F64.isNan_zero ha.2
  have hzeroB := F64.le_iff_units F64.isNan_zero hb.2
  have hlt := F64.lt_iff_units ha.2 hb.2
  have hgt := F64.lt_iff_units hb.2 ha.2
  have heq := F64.eq_iff_units ha.2 hb.2
  rw [F64.units_zero] at hzeroA hzeroB
  rw [byAccuracy, chained_rule, chained_rule, chained_last, compare_int_lt, compare_nat_lt,
    ← beforeByCounts_eq, beforeByAccuracy]
  simp only [hzeroA, hzeroB, hlt, hgt, heq]
  cases hunknown : a.unknown with
  | true =>
    have haneg := (unknown_eq_true_iff ha).1 hunknown
    have hbneg := (unknown_eq_true_iff hb).1 (h ▸ hunknown)
    have hbunknown : b.unknown = true := h ▸ hunknown
    rw [if_neg (by omega), if_neg (by omega), if_neg (by omega)]
    simp [accuracyRank, hunknown, hbunknown]
  | false =>
    have hapos := (unknown_eq_false_iff ha).1 hunknown
    have hbunknown : b.unknown = false := h ▸ hunknown
    have hbpos := (unknown_eq_false_iff hb).1 hbunknown
    simp only [accuracyRank, hunknown, hbunknown, Bool.false_eq_true, if_false, Bool.not_false,
      Bool.true_and]
    rcases Int.lt_trichotomy a.accuracy.units b.accuracy.units with hless | hsame | hmore
    · rw [if_pos (by omega), if_pos (by omega), decide_eq_true hless]
    · rw [if_neg (by omega), if_neg (by omega), if_neg (not_not.2 hsame)]
      rw [compare_bool_lt]
      cases a.hasGrids <;> cases b.hasGrids <;> simp [← hsame, hapos]
    · rw [if_neg (by omega), if_pos (by omega), if_pos (by omega),
        decide_eq_false (by omega)]

/-- The order is the chain of the rules, the number of steps of the pipeline
between the others. -/
theorem before_eq (ha : a.Numbers) (hb : b.Numbers) :
    before a b = chained early late projStepCount a b := by
  have hzeroA := F64.le_iff_units F64.isNan_zero ha.2
  have hzeroB := F64.le_iff_units F64.isNan_zero hb.2
  have hnegA := F64.lt_iff_units ha.2 F64.isNan_zero
  have hnegB := F64.lt_iff_units hb.2 F64.isNan_zero
  have hareaA := F64.lt_iff_units F64.isNan_zero ha.1
  have hareaB := F64.lt_iff_units F64.isNan_zero hb.1
  have hsmaller := F64.lt_iff_units ha.1 hb.1
  have hlarger := F64.lt_iff_units hb.1 ha.1
  rw [F64.units_zero] at hzeroA hzeroB hnegA hnegB hareaA hareaB
  rw [early, chained_rule, chained_rule, chained_rule, chained_rule, chained_rule, compare_int_lt,
    compare_bool_lt, compare_bool_lt, compare_bool_lt, compare_bool_lt, before]
  simp only [hzeroA, hzeroB, hnegA, hnegB, hareaA, hareaB, hsmaller, hlarger]
  by_cases hexport : a.exportable = b.exportable
  case neg =>
    rw [if_pos hexport, if_pos fun h => hexport (Bool.not_inj h)]
    cases ha : a.exportable <;> cases hb : b.exportable <;> simp_all
  rw [if_neg (not_not.2 hexport), if_neg (not_not.2 (congrArg not hexport))]
  by_cases hnull : a.nullTransformation = b.nullTransformation
  case neg =>
    rw [if_pos hnull, if_pos hnull]
    cases ha : a.nullTransformation <;> cases hb : b.nullTransformation <;> simp_all
  rw [if_neg (not_not.2 hnull), if_neg (not_not.2 hnull)]
  have haunknown := unknown_eq_true_iff ha
  have hbunknown := unknown_eq_true_iff hb
  by_cases hunknown : a.unknown = b.unknown
  case neg =>
    rw [if_pos hunknown]
    cases h : a.unknown with
    | true =>
      have hbfalse : b.unknown = false := by simpa [h] using hunknown
      have haneg := haunknown.1 h
      have hbpos := (unknown_eq_false_iff hb).1 hbfalse
      rw [if_neg (by omega), if_pos (by omega), hbfalse]
      rfl
    | false =>
      have hbtrue : b.unknown = true := by simpa [h] using hunknown
      have hapos := (unknown_eq_false_iff ha).1 h
      have hbneg := hbunknown.1 hbtrue
      rw [if_pos (by omega), hbtrue]
      rfl
  have hsame : a.accuracy.units < 0 ↔ b.accuracy.units < 0 := by
    rw [← haunknown, ← hbunknown, hunknown]
  rw [if_neg (not_not.2 hunknown), if_neg (by omega), if_neg (by omega)]
  have harea : (if 0 < a.area.units then
        if b.area.units < a.area.units then true
        else if a.area.units < b.area.units then false else beforeByAccuracy a b
      else if 0 < b.area.units then false else beforeByAccuracy a b) =
        if a.areaRank ≠ b.areaRank then decide (a.areaRank < b.areaRank)
        else chained byAccuracy late projStepCount a b := by
    rw [← beforeByAccuracy_eq ha hb hunknown]
    unfold areaRank
    split
    · rcases Int.lt_trichotomy a.area.units b.area.units with hless | hequal | hmore
      · rw [if_neg (by omega), if_pos hless, if_pos (by omega), decide_eq_false (by omega)]
      · rw [if_neg (by omega), if_neg (by omega), if_neg (by omega)]
      · rw [if_pos hmore, if_pos (by omega), decide_eq_true (by omega)]
    · split
      · rw [if_pos (by omega), decide_eq_false (by omega)]
      · rw [if_neg (by omega)]
  rw [harea]
  cases h : a.unknown with
  | true =>
    have hbtrue : b.unknown = true := hunknown ▸ h
    have haneg := haunknown.1 h
    have hbneg := hbunknown.1 hbtrue
    simp only [hbtrue, Bool.true_and]
    cases a.hasGrids <;> cases b.hasGrids <;> simp [haneg, hbneg]
  | false =>
    have hbfalse : b.unknown = false := hunknown ▸ h
    have hapos := (unknown_eq_false_iff ha).1 h
    rw [if_neg (by omega)]
    simp [hbfalse]

/-! ## Equal keys -/

/-- Equal in every key.  An area that is not above zero counts as none, an accuracy
below zero as unknown. -/
structure Same (a b : Keys) : Prop where
  area : a.area.eq b.area = true ∨ ¬ F64.zero < a.area ∧ ¬ F64.zero < b.area
  accuracy : a.accuracy.eq b.accuracy = true ∨ a.accuracy < F64.zero ∧ b.accuracy < F64.zero
  others : { a with area := b.area, accuracy := b.accuracy } = b

theorem early_eq (h : early a b = .eq) :
    a.exportable = b.exportable ∧ a.nullTransformation = b.nullTransformation ∧
      a.unknown = b.unknown ∧ a.areaRank = b.areaRank ∧ a.accuracyRank = b.accuracyRank ∧
      a.hasGrids = b.hasGrids ∧ a.stepCount = b.stepCount := by
  simp only [early, byAccuracy, compareLex_eq_eq, compareOn, LawfulEqOrd.compare_eq_iff_eq,
    Bool.not_eq_eq_eq_not, Bool.not_not] at h
  obtain ⟨hexport, hnull, hunknown, hgrids, harea, haccuracy, hgrids', hsteps⟩ := h
  refine ⟨hexport, hnull, hunknown, harea, haccuracy, ?_, hsteps⟩
  rw [hunknown] at hgrids hgrids'
  cases h : b.unknown <;> simp_all

theorem late_eq (h : late a b = .eq) :
    { a with area := b.area, accuracy := b.accuracy, exportable := b.exportable,
             hasGrids := b.hasGrids, nullTransformation := b.nullTransformation,
             stepCount := b.stepCount, projStepCount := b.projStepCount } = b := by
  simp only [late, byCodes, compareLex_eq_eq, compareOn, comparing, flipped,
    LawfulEqOrd.compare_eq_iff_eq, LawfulEqCmp.compare_eq_iff_eq] at h
  obtain ⟨hemulations, hown, hcompound, hreplaced, hinverted, hmeridian, hleaves, hdimension,
    hvia, hshape, -, hregistry⟩ := h
  cases a
  cases b
  simp_all

/-- Candidates that neither goes before the other are equal in every key, but for
the number of steps of the pipeline where one has none. -/
theorem same_of_tied (ha : a.Numbers) (hb : b.Numbers)
    (h : Tied (chained early late projStepCount) a b)
    (hcount : a.projStepCount = 0 ↔ b.projStepCount = 0) : a.Same b := by
  obtain ⟨hearly, hlate, hsteps⟩ := tied_chained h
  obtain ⟨hexport, hnull, hunknown, harea, haccuracy, hgrids, hstepCount⟩ := early_eq hearly
  have hproj : a.projStepCount = b.projStepCount := by omega
  have hareaA := F64.lt_iff_units F64.isNan_zero ha.1
  have hareaB := F64.lt_iff_units F64.isNan_zero hb.1
  rw [F64.units_zero] at hareaA hareaB
  refine ⟨?_, ?_, ?_⟩
  · rw [F64.eq_iff_units ha.1 hb.1, hareaA, hareaB]
    unfold areaRank at harea
    omega
  · rw [accuracyRank, accuracyRank, ← hunknown] at haccuracy
    cases h : a.unknown with
    | true =>
      have hbunknown : b.unknown = true := hunknown ▸ h
      exact Or.inr ⟨of_decide_eq_true h, of_decide_eq_true hbunknown⟩
    | false =>
      rw [h] at haccuracy
      exact Or.inl ((F64.eq_iff_units ha.2 hb.2).2 haccuracy)
  · have hrest := late_eq hlate
    rw [← hrest]
    simp [hexport, hnull, hgrids, hstepCount, hproj]

end Keys

/-! ## The candidates -/

section

variable {r : Registry} {catalogue : Catalogue} {areas : Areas}

theorem op_of_mem_used {c : Candidate} {u : Used} (h : u ∈ c.used r) :
    r.op u.op.code = some u.op := by
  obtain ⟨s, -, hs⟩ := List.mem_filterMap.1 h
  split at hs
  · obtain ⟨op, hop, rfl⟩ := Option.map_eq_some_iff.1 hs
    exact op_eq_some (op_spec hop).1
  · cases hs

theorem used_eq_filterMap (c : Candidate) :
    c.used r = ((keys r catalogue c areas).registry.filterMap fun (_, code, inverse) =>
      (r.op code).map fun op => (⟨op, inverse⟩ : Used)) := by
  rw [keys, List.filterMap_map]
  symm
  have hsome : ∀ u ∈ c.used r, ((fun (_, code, inverse) =>
      (r.op code).map fun op => (⟨op, inverse⟩ : Used)) ∘
        fun u : Used => (u.op.variant, u.op.code, u.inverse)) u = some u := by
    intro u hu
    simp [op_of_mem_used hu]
  rw [List.filterMap_congr hsome]
  exact List.filterMap_some

theorem projStepCount_eq_zero_iff {c d : Candidate}
    (h : (keys r catalogue c areas).registry = (keys r catalogue d areas).registry) :
    (keys r catalogue c areas).projStepCount = 0 ↔
      (keys r catalogue d areas).projStepCount = 0 := by
  have hused : c.used r = d.used r := by
    rw [@used_eq_filterMap r catalogue areas c, h, ← used_eq_filterMap]
  simp only [keys, hused]
  split <;> simp

variable (r : Registry) (catalogue : Catalogue) (areas : Areas)

/-- The order is a strict weak one on the keys of the candidates, and the ranked list
does not depend on the order the search found them in, but for candidates equal in
every key. -/
structure Consistent (list : List Candidate) : Prop where
  order : WeakOrder before (list.map fun c => keys r catalogue c areas)
  ranked : ∀ found : List Candidate, found.Perm list →
    List.Forall₂ (fun c d => (keys r catalogue c areas).Same (keys r catalogue d areas))
      (sortOps r catalogue areas found) (sortOps r catalogue areas list)

/-- A candidate whose pipeline has no number of steps, and two others that the rules
up to that number leave tied with it: the first has the shorter pipeline, and by the
rules after it the first goes not before the one without, nor that one before the
second. -/
def Circle (x y z : Candidate) : Prop :=
  Astride Keys.early Keys.late Keys.projStepCount (keys r catalogue x areas)
    (keys r catalogue y areas) (keys r catalogue z areas)

variable {r catalogue areas}

theorem before_congr {list : List Candidate}
    (hnum : ∀ c ∈ list, (keys r catalogue c areas).Numbers) :
    WeakOrder before (list.map fun c => keys r catalogue c areas) ↔
      WeakOrder (chained Keys.early Keys.late Keys.projStepCount)
        (list.map fun c => keys r catalogue c areas) := by
  have hkeys : ∀ k ∈ list.map fun c => keys r catalogue c areas, k.Numbers := by
    intro k hk
    obtain ⟨c, hc, rfl⟩ := List.mem_map.1 hk
    exact hnum c hc
  exact WeakOrder.congr fun x hx y hy => Keys.before_eq (hkeys x hx) (hkeys y hy)

theorem same_of_tied {c d : Candidate} (hc : (keys r catalogue c areas).Numbers)
    (hd : (keys r catalogue d areas).Numbers)
    (h : Tied before (keys r catalogue c areas) (keys r catalogue d areas)) :
    (keys r catalogue c areas).Same (keys r catalogue d areas) := by
  rw [Tied, Keys.before_eq hc hd, Keys.before_eq hd hc] at h
  obtain ⟨-, hlate, -⟩ := tied_chained h
  have hregistry : (keys r catalogue c areas).registry = (keys r catalogue d areas).registry := by
    have hrest := congrArg Keys.registry (Keys.late_eq hlate)
    exact hrest
  exact Keys.same_of_tied hc hd h (projStepCount_eq_zero_iff hregistry)

end

/-! ## Three candidates in a circle -/

/-- An operation with one grid file. -/
def gridOperation (code method src dst : Nat) (replaced : Bool) (file : Nat × ParamValue) :
    Operation :=
  { sampleOperation code .grid src dst [] with
    method := method
    replaced := replaced
    params := [file] }

/-- From CRS 1 over CRS 3 to CRS 2: two grids both of which have been replaced, a grid
and a Helmert transformation, and a grid of geocentric translations with a grid that
has been replaced. -/
def circleRegistry : Registry where
  ops :=
    [gridOperation 11 9615 1 3 true (8656, .file "a.gsb"),
      gridOperation 12 9615 3 2 true (8656, .file "b.gsb"),
      gridOperation 21 9615 1 3 false (8656, .file "c.gsb"),
      { sampleOperation 22 .helmert 3 2 [] with params := [(8605, .number (F64.ofUsize 1))] },
      gridOperation 31 1087 1 3 false (8727, .file "d.txt"),
      gridOperation 32 9615 3 2 true (8656, .file "e.gsb"),
      sampleOperation 10 .concatenated 1 2 [11, 12],
      sampleOperation 20 .concatenated 1 2 [21, 22],
      sampleOperation 30 .concatenated 1 2 [31, 32]]
  geodetic :=
    [⟨1, "A", .geographic2d, 101, false⟩, ⟨2, "B", .geographic2d, 102, false⟩,
      ⟨3, "C", .geographic2d, 103, false⟩]
  vertical := []
  datums := []
  crsExtent := []
  records := []
  ops_nodup := by decide
  codes_nodup := by decide
  steps_known := by decide
  base_geodetic := nofun
  parts_simple := Registry.parts_simple_nil
  members_ne := Registry.members_ne_nil

def circleAreas : Areas := Areas.new sampleCatalogue none none .unlimited

/-- The registered operations between the two CRSs. -/
def circleCandidates : List Candidate :=
  [10, 20, 30].filterMap fun code => registryCandidate circleRegistry code false

theorem circleCandidates_before :
    let ks := circleCandidates.map fun c => keys circleRegistry sampleCatalogue c circleAreas
    ks.zipWith before (ks.rotate 1) = [true, true, true] := by
  decide +kernel

end Xeibe.Reproject.Select.Search

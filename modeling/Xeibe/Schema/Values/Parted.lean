import Mathlib.Data.Finset.Card
import Mathlib.Data.Finset.Dedup
import Mathlib.Data.Multiset.Fold
import Xeibe.Schema.Values.Scalar

/-!
# Statistics of parts

Every fact that the statistics keep is gathered by an operation in which neither
the order of the values nor their grouping matters.  Observing skips the parsing
of values once a column can only be text: from there the facts that are left out
are not read.
-/

namespace Xeibe.Schema.Values

open Lib Arrow

/-! ## Operations -/

/-- The types of both sets. -/
def common (a b : TypeSet) : TypeSet := a &&& b

instance : Std.Commutative common := ⟨BitVec.and_comm⟩

instance : Std.Associative common := ⟨BitVec.and_assoc⟩

instance : Std.LawfulIdentity common TypeSet.all where
  left_id _ := BitVec.allOnes_and
  right_id _ := BitVec.and_allOnes

theorem spanned_comm (a b : Int × Int) : spanned a b = spanned b a :=
  Prod.ext (min_comm a.1 b.1) (max_comm a.2 b.2)

instance : Std.Commutative spanned := ⟨spanned_comm⟩

instance : Std.Associative spanned where
  assoc a b c := Prod.ext (min_assoc a.1 b.1 c.1) (max_assoc a.2 b.2 c.2)

theorem FloatShape.merge_comm (a b : FloatShape) : a.merge b = b.merge a := by
  rw [merge, merge, max_comm, max_comm a.maxScale]

instance : Std.Commutative FloatShape.merge := ⟨FloatShape.merge_comm⟩

instance : Std.Associative FloatShape.merge where
  assoc a b c := by simp only [FloatShape.merge, max_assoc]

theorem TzShape.merge_comm (a b : TzShape) : a.merge b = b.merge a := by
  cases a with
  | fixed x =>
    cases b with
    | fixed y =>
      rw [merge, merge]
      by_cases h : x = y
      · rw [h]
      · rw [if_neg h, if_neg (Ne.symm h)]
    | _ => rfl
  | _ => cases b <;> rfl

theorem TzShape.merge_assoc (a b c : TzShape) : (a.merge b).merge c = a.merge (b.merge c) := by
  cases a <;> cases b <;> cases c <;> grind [merge]

theorem TemporalShape.merge_comm (a b : TemporalShape) : a.merge b = b.merge a := by
  rw [merge, merge, TzShape.merge_comm, max_comm]

instance : Std.Commutative TemporalShape.merge := ⟨TemporalShape.merge_comm⟩

instance : Std.Associative TemporalShape.merge where
  assoc a b c := by simp only [TemporalShape.merge, TzShape.merge_assoc, max_assoc]

section Gathered

variable {α : Type} (op : α → α → α) [Std.Commutative op] [Std.Associative op] (e : α)

/-- What an operation makes of all values, in any order. -/
def gathered (f : Bytes → α) (values : Multiset Bytes) : α := (values.map f).fold op e

theorem gathered_cons (f : Bytes → α) (value : Bytes) (values : Multiset Bytes) :
    gathered op e f (value ::ₘ values) = op (f value) (gathered op e f values) := by
  rw [gathered, Multiset.map_cons, Multiset.fold_cons_left]
  rfl

theorem gathered_add [Std.LawfulIdentity op e] (f : Bytes → α) (a b : Multiset Bytes) :
    gathered op e f (a + b) = op (gathered op e f a) (gathered op e f b) := by
  have hid : op e e = e := Std.LawfulLeftIdentity.left_id e
  have hfold := Multiset.fold_add op e e (a.map f) (b.map f)
  rwa [hid, ← Multiset.map_add] at hfold

end Gathered

/-! ## Sets of types -/

/-- A set of types has `string`. -/
def HasString (set : TypeSet) : Prop := set.getLsbD 6 = true

theorem HasString.or_left {a : TypeSet} (h : HasString a) (b : TypeSet) : HasString (a ||| b) := by
  rw [HasString, BitVec.getLsbD_or, h, Bool.true_or]

theorem HasString.and {a b : TypeSet} (ha : HasString a) (hb : HasString b) :
    HasString (a &&& b) := by
  rw [HasString, BitVec.getLsbD_and, ha, hb, Bool.true_and]

theorem getLsbD_string : ∀ i < 7, TypeSet.string.getLsbD i = decide (i = 6) := by decide

theorem eq_string {a : TypeSet} (h : HasString a) (hle : ∀ i, i < 7 → i ≠ 6 → a.getLsbD i = false) :
    a = TypeSet.string := by
  refine BitVec.eq_of_getLsbD_eq fun i hi => ?_
  rw [getLsbD_string i hi]
  by_cases h6 : i = 6
  · rw [h6]
    exact h
  · rw [hle i hi h6, decide_eq_false h6]

theorem HasString.string_and {a : TypeSet} (h : HasString a) :
    TypeSet.string &&& a = TypeSet.string := by
  refine eq_string (HasString.and rfl h) fun i hi h6 => ?_
  rw [BitVec.getLsbD_and, getLsbD_string i hi, decide_eq_false h6, Bool.false_and]

theorem eq_string_of_or {a b c : TypeSet} (ha : HasString a) (hb : HasString b) (hc : HasString c)
    (h : a ||| b ||| c = TypeSet.string) :
    a = TypeSet.string ∧ b = TypeSet.string ∧ c = TypeSet.string := by
  have hbits : ∀ i, i < 7 → i ≠ 6 →
      (a.getLsbD i || b.getLsbD i || c.getLsbD i) = false := by
    intro i hi h6
    rw [← BitVec.getLsbD_or, ← BitVec.getLsbD_or, h, getLsbD_string i hi, decide_eq_false h6]
  refine ⟨eq_string ha fun i hi h6 => ?_, eq_string hb fun i hi h6 => ?_,
    eq_string hc fun i hi h6 => ?_⟩
  all_goals
    have hnone := hbits i hi h6
    simp only [Bool.or_eq_false_iff] at hnone
    tauto

/-- All three sets have `string`. -/
structure Candidates.Texts (c : Candidates) : Prop where
  exactText : HasString c.exactText
  exactValue : HasString c.exactValue
  lossy : HasString c.lossy

section Texts

variable {analysis : Analysis}

theorem texts_addLossy (h : analysis.candidates.Texts) (set : TypeSet) :
    (analysis.addLossy set).candidates.Texts :=
  ⟨h.exactText, h.exactValue, h.lossy.or_left set⟩

theorem texts_addExactValue (h : analysis.candidates.Texts) (set : TypeSet) :
    (analysis.addExactValue set).candidates.Texts :=
  ⟨h.exactText, h.exactValue.or_left set, h.lossy⟩

theorem texts_addExactText (h : analysis.candidates.Texts) (set : TypeSet) :
    (analysis.addExactText set).candidates.Texts :=
  ⟨h.exactText.or_left set, h.exactValue, h.lossy⟩

variable {F : Type} (doubles : Doubles F)

theorem texts_analyzeInt (h : analysis.candidates.Texts) (value : Bytes) (number : Number) :
    (analyzeInt value number analysis).candidates.Texts := by
  unfold analyzeInt
  split
  · exact h
  · split
    · exact h
    · rename_i int _
      have hint := @texts_addLossy { analysis with int := some int } h .int
      simp only
      split
      · exact hint
      · split
        · exact texts_addExactText (texts_addExactValue hint .int) .int
        · exact texts_addExactValue hint .int

theorem texts_analyzeFloat (h : analysis.candidates.Texts) (value : Bytes) (number : Number) :
    (analyzeFloat doubles value number analysis).candidates.Texts := by
  unfold analyzeFloat
  split
  · exact h
  · split
    · exact h
    · have hfloat : { analysis.addLossy .float with
          float := some ⟨number.significantDigits, number.scale⟩ }.candidates.Texts :=
        texts_addLossy h .float
      simp only
      split
      · split
        · exact texts_addExactText (texts_addExactValue hfloat .float) .float
        · exact texts_addExactValue hfloat .float
      · exact hfloat

theorem texts_analyzeTemporal (h : analysis.candidates.Texts) (temporal : Temporal) :
    (analyzeTemporal temporal analysis).candidates.Texts := by
  have hkept : { analysis with
      temporal := some (temporal.tz, temporal.fractionDigits) }.candidates.Texts := h
  unfold analyzeTemporal
  simp only
  split
  · have hdate := texts_addExactValue (texts_addLossy hkept (.date ||| .datetime)) .date
    split
    · exact texts_addExactText hdate .date
    · exact hdate
  · split
    · split
      · exact texts_addExactText (texts_addExactValue (texts_addLossy hkept .datetime) .datetime) _
      · exact texts_addExactValue (texts_addLossy hkept .datetime) .datetime
    · exact texts_addLossy hkept .datetime
  · split
    · split
      · exact texts_addExactText (texts_addExactValue (texts_addLossy hkept .time) .time) .time
      · exact texts_addExactValue (texts_addLossy hkept .time) .time
    · exact texts_addLossy hkept .time

theorem texts_analyzeBool (h : analysis.candidates.Texts) (value : Bytes) :
    (analyzeBool value analysis).candidates.Texts := by
  unfold analyzeBool
  simp only
  split
  · exact texts_addLossy (texts_addExactValue (texts_addExactText h .bool) .bool) .bool
  · split
    · exact texts_addLossy h .bool
    · split
      · exact texts_addLossy h .bool
      · exact h

theorem texts_analyze (value : Bytes) : (analyze doubles value).candidates.Texts := by
  have hbool := @texts_analyzeBool ⟨⟨.string, .string, .string⟩, none, none, none⟩
    ⟨rfl, rfl, rfl⟩ value
  unfold analyze
  simp only
  split
  · exact texts_analyzeFloat doubles (texts_analyzeInt hbool value _) value _
  · split
    · exact texts_analyzeTemporal hbool _
    · exact hbool

end Texts

/-! ## What statistics stand for -/

section Represents

variable {F : Type} (doubles : Doubles F)

/-- Statistics that stand for values, in whatever order and parts these were observed. -/
structure Represents (stats : ValueStats) (values : Multiset Bytes) : Prop where
  count : stats.count = values.card
  maxLen : stats.maxLen = gathered max 0 (fun v => min (charCount v) (2 ^ 32 - 1)) values
  exactText : stats.exactText =
    gathered common TypeSet.all (fun v => (analyze doubles v).candidates.exactText) values
  exactValue : stats.exactValue =
    gathered common TypeSet.all (fun v => (analyze doubles v).candidates.exactValue) values
  lossy : stats.lossy =
    gathered common TypeSet.all (fun v => (analyze doubles v).candidates.lossy) values
  /-- As long as the column may be more than text. -/
  typed : stats.exactText ||| stats.exactValue ||| stats.lossy ≠ .string →
    stats.intRange = gathered (Option.merge spanned) none
      (fun v => (analyze doubles v).int.map fun int => (int, int)) values ∧
    stats.floatShape = gathered (Option.merge FloatShape.merge) none
      (fun v => (analyze doubles v).float) values ∧
    stats.temporal = gathered (Option.merge TemporalShape.merge) none
      (fun v => (analyze doubles v).temporal.map temporalShape) values

variable {doubles}

theorem hasString_gathered {f : Bytes → TypeSet} (h : ∀ v, HasString (f v))
    (values : Multiset Bytes) : HasString (gathered common TypeSet.all f values) := by
  induction values using Multiset.induction with
  | empty => exact (rfl : TypeSet.all.getLsbD 6 = true)
  | cons v values ih =>
    rw [gathered_cons]
    exact (h v).and ih

theorem Represents.texts {stats : ValueStats} {values : Multiset Bytes}
    (h : Represents doubles stats values) :
    HasString stats.exactText ∧ HasString stats.exactValue ∧ HasString stats.lossy := by
  rw [h.exactText, h.exactValue, h.lossy]
  exact ⟨hasString_gathered (fun v => (texts_analyze doubles v).exactText) values,
    hasString_gathered (fun v => (texts_analyze doubles v).exactValue) values,
    hasString_gathered (fun v => (texts_analyze doubles v).lossy) values⟩

theorem represents_withCapacity (capacity : Nat) :
    Represents doubles (ValueStats.withCapacity capacity) 0 :=
  ⟨rfl, rfl, rfl, rfl, rfl, fun _ => ⟨rfl, rfl, rfl⟩⟩

/-! ### One value more -/

theorem intRange_observed (old : Option (Int × Int)) (int : Option Int) :
    (match int with
      | some int => some (match old with
        | some (lo, hi) => (min lo int, max hi int)
        | none => (int, int))
      | none => old) = Option.merge spanned (int.map fun int => (int, int)) old := by
  cases int with
  | none => exact Option.merge_none_left.symm
  | some int =>
    cases old with
    | none => rfl
    | some old => exact congrArg some (spanned_comm old (int, int))

theorem floatShape_observed (old float : Option FloatShape) :
    (match float with
      | some shape => some ((old.getD ⟨0, 0⟩).merge shape)
      | none => old) = Option.merge FloatShape.merge float old := by
  cases float with
  | none => exact Option.merge_none_left.symm
  | some shape =>
    cases old with
    | none => simp [FloatShape.merge]
    | some old => exact congrArg some (FloatShape.merge_comm old shape)

theorem temporal_observed (old : Option TemporalShape) (temporal : Option (Option Int × Nat)) :
    (match temporal with
      | some temporal => some (match old with
        | some current => current.merge (temporalShape temporal)
        | none => temporalShape temporal)
      | none => old) = Option.merge TemporalShape.merge (temporal.map temporalShape) old := by
  cases temporal with
  | none => exact Option.merge_none_left.symm
  | some temporal =>
    cases old with
    | none => rfl
    | some old => exact congrArg some (TemporalShape.merge_comm old (temporalShape temporal))

theorem Represents.observe {stats : ValueStats} {values : Multiset Bytes}
    (h : Represents doubles stats values) (value : Bytes) :
    Represents doubles (stats.observe doubles value) (value ::ₘ values) := by
  obtain ⟨htext, hvalue, hlossy⟩ := h.texts
  have hcandidates := texts_analyze doubles value
  have hcount : stats.count + 1 = (value ::ₘ values).card := by
    rw [Multiset.card_cons, ← h.count]
  have hlen : max stats.maxLen (min (charCount value) (2 ^ 32 - 1)) =
      gathered max 0 (fun v => min (charCount v) (2 ^ 32 - 1)) (value ::ₘ values) := by
    rw [gathered_cons, ← h.maxLen, max_comm]
  by_cases hskip : stats.exactText ||| stats.exactValue ||| stats.lossy = .string
  · -- Nothing but text is left, and every value can be text.
    obtain ⟨htext', hvalue', hlossy'⟩ := eq_string_of_or htext hvalue hlossy hskip
    have hstays : ∀ {set : TypeSet}, HasString set → TypeSet.string = common set .string :=
      fun hset => hset.string_and.symm.trans (BitVec.and_comm ..)
    rw [ValueStats.observe]
    simp only [hskip, if_true]
    refine ⟨hcount, hlen, ?_, ?_, ?_, fun hne => absurd hskip hne⟩
    · rw [gathered_cons, ← h.exactText, htext']
      exact hstays hcandidates.exactText
    · rw [gathered_cons, ← h.exactValue, hvalue']
      exact hstays hcandidates.exactValue
    · rw [gathered_cons, ← h.lossy, hlossy']
      exact hstays hcandidates.lossy
  · obtain ⟨hint, hfloat, htemporal⟩ := h.typed hskip
    rw [ValueStats.observe]
    simp only [hskip, if_false]
    refine ⟨hcount, hlen, ?_, ?_, ?_, fun _ => ⟨?_, ?_, ?_⟩⟩
    · rw [gathered_cons, ← h.exactText]
      exact BitVec.and_comm ..
    · rw [gathered_cons, ← h.exactValue]
      exact BitVec.and_comm ..
    · rw [gathered_cons, ← h.lossy]
      exact BitVec.and_comm ..
    · rw [gathered_cons, ← hint]
      exact intRange_observed _ _
    · rw [gathered_cons, ← hfloat]
      exact floatShape_observed _ _
    · rw [gathered_cons, ← htemporal]
      exact temporal_observed _ _

theorem represents_observed (capacity : Nat) (values : List Bytes) :
    Represents doubles (ValueStats.observed doubles capacity values) values := by
  have hrun : ∀ {stats : ValueStats} {before : Multiset Bytes}, Represents doubles stats before →
      Represents doubles (values.foldl (ValueStats.observe doubles) stats) (before + values) := by
    induction values with
    | nil =>
      intro stats before h
      simpa using h
    | cons value values ih =>
      intro stats before h
      have hstep := ih (h.observe value)
      rwa [Multiset.cons_add, ← Multiset.add_cons, Multiset.cons_coe] at hstep
  have hwhole := hrun (represents_withCapacity capacity)
  rwa [Multiset.zero_add] at hwhole

/-! ### Merged -/

theorem merge_intRange (a b : ValueStats) :
    (a.merge b).intRange = Option.merge spanned a.intRange b.intRange := by
  unfold ValueStats.merge
  cases a.intRange <;> cases b.intRange <;> rfl

theorem merge_floatShape (a b : ValueStats) :
    (a.merge b).floatShape = Option.merge FloatShape.merge a.floatShape b.floatShape := by
  unfold ValueStats.merge
  cases a.floatShape <;> cases b.floatShape <;> rfl

theorem merge_temporal (a b : ValueStats) :
    (a.merge b).temporal = Option.merge TemporalShape.merge a.temporal b.temporal := by
  unfold ValueStats.merge
  cases a.temporal <;> cases b.temporal <;> rfl

theorem Represents.merge {a b : ValueStats} {values others : Multiset Bytes}
    (ha : Represents doubles a values) (hb : Represents doubles b others) :
    Represents doubles (a.merge b) (values + others) := by
  obtain ⟨htext, hvalue, hlossy⟩ := ha.texts
  obtain ⟨htext', hvalue', hlossy'⟩ := hb.texts
  refine ⟨?_, ?_, ?_, ?_, ?_, fun hne => ?_⟩
  · rw [Multiset.card_add, ← ha.count, ← hb.count]
    rfl
  · rw [gathered_add, ← ha.maxLen, ← hb.maxLen]
    rfl
  · rw [gathered_add, ← ha.exactText, ← hb.exactText]
    rfl
  · rw [gathered_add, ← ha.exactValue, ← hb.exactValue]
    rfl
  · rw [gathered_add, ← ha.lossy, ← hb.lossy]
    rfl
  · -- A part that is only text would leave the whole only text.
    have hleft : a.exactText ||| a.exactValue ||| a.lossy ≠ .string := by
      intro honly
      obtain ⟨h1, h2, h3⟩ := eq_string_of_or htext hvalue hlossy honly
      apply hne
      show a.exactText &&& b.exactText ||| a.exactValue &&& b.exactValue ||| a.lossy &&& b.lossy = _
      rw [h1, h2, h3, htext'.string_and, hvalue'.string_and, hlossy'.string_and]
      rfl
    have hright : b.exactText ||| b.exactValue ||| b.lossy ≠ .string := by
      intro honly
      obtain ⟨h1, h2, h3⟩ := eq_string_of_or htext' hvalue' hlossy' honly
      apply hne
      show a.exactText &&& b.exactText ||| a.exactValue &&& b.exactValue ||| a.lossy &&& b.lossy = _
      rw [h1, h2, h3, BitVec.and_comm, htext.string_and, BitVec.and_comm a.exactValue,
        hvalue.string_and, BitVec.and_comm a.lossy, hlossy.string_and]
      rfl
    obtain ⟨hint, hfloat, htemporal⟩ := ha.typed hleft
    obtain ⟨hint', hfloat', htemporal'⟩ := hb.typed hright
    refine ⟨?_, ?_, ?_⟩
    · rw [gathered_add, ← hint, ← hint', merge_intRange]
    · rw [gathered_add, ← hfloat, ← hfloat', merge_floatShape]
    · rw [gathered_add, ← htemporal, ← htemporal', merge_temporal]

end Represents

/-! ## What the rules read -/

section Rules

variable {F : Type} (rules : Rules F) {a b : ValueStats}

/-- Statistics that agree on everything that the type of a column depends on. -/
structure Agree (a b : ValueStats) : Prop where
  count : a.count = b.count
  exactText : a.exactText = b.exactText
  exactValue : a.exactValue = b.exactValue
  lossy : a.lossy = b.lossy
  typed : a.exactText ||| a.exactValue ||| a.lossy ≠ .string →
    a.intRange = b.intRange ∧ a.floatShape = b.floatShape ∧ a.temporal = b.temporal

theorem Represents.agree {doubles : Doubles F} {values : Multiset Bytes}
    (ha : Represents doubles a values) (hb : Represents doubles b values) : Agree a b := by
  refine ⟨ha.count.trans hb.count.symm, ha.exactText.trans hb.exactText.symm,
    ha.exactValue.trans hb.exactValue.symm, ha.lossy.trans hb.lossy.symm, fun hne => ?_⟩
  have hne' := hne
  rw [ha.exactText, ha.exactValue, ha.lossy, ← hb.exactText, ← hb.exactValue, ← hb.lossy] at hne'
  obtain ⟨hint, hfloat, htemporal⟩ := ha.typed hne
  obtain ⟨hint', hfloat', htemporal'⟩ := hb.typed hne'
  exact ⟨hint.trans hint'.symm, hfloat.trans hfloat'.symm, htemporal.trans htemporal'.symm⟩

theorem Agree.types_eq (h : Agree a b) (lossless : Lossless) :
    a.types lossless = b.types lossless := by
  cases lossless with
  | text => exact h.exactText
  | value => exact h.exactValue
  | lossy => exact h.lossy

theorem chosen_congr (hint : a.intRange = b.intRange) (hfloat : a.floatShape = b.floatShape)
    (htemporal : a.temporal = b.temporal) (candidate : TypeSet) (scalar : Scalar) :
    rules.chosen a candidate scalar = rules.chosen b candidate scalar := by
  unfold Rules.chosen Rules.intType
  rw [hint, hfloat, htemporal]

theorem firstType_congr (hint : a.intRange = b.intRange) (hfloat : a.floatShape = b.floatShape)
    (htemporal : a.temporal = b.temporal) (set : TypeSet) (candidates : List TypeSet)
    (scalar : Scalar) :
    rules.firstType a set candidates scalar = rules.firstType b set candidates scalar := by
  induction candidates generalizing scalar with
  | nil => rfl
  | cons candidate rest ih =>
    rw [Rules.firstType, Rules.firstType, chosen_congr rules hint hfloat htemporal]
    simp only [ih]

theorem firstType_skip {set : TypeSet} {candidates : List TypeSet}
    (h : ∀ candidate ∈ candidates, set.contains candidate = false) (scalar : Scalar) :
    rules.firstType a set candidates scalar = (scalar, none) := by
  induction candidates with
  | nil => rfl
  | cons candidate rest ih =>
    rw [Rules.firstType, h candidate List.mem_cons_self]
    exact ih fun other hother => h other (List.mem_cons_of_mem _ hother)

theorem firstType_string (scalar : Scalar) :
    rules.firstType a .string [.bool, .int, .float, .date, .datetime, .time] scalar =
      (scalar, none) :=
  firstType_skip rules (by decide) scalar

theorem types_eq_string {doubles : Doubles F} {values : Multiset Bytes}
    (ha : Represents doubles a values)
    (honly : a.exactText ||| a.exactValue ||| a.lossy = .string) (lossless : Lossless) :
    a.types lossless = .string := by
  obtain ⟨htext, hvalue, hlossy⟩ := ha.texts
  obtain ⟨h1, h2, h3⟩ := eq_string_of_or htext hvalue hlossy honly
  cases lossless <;> assumption

theorem candidates_congr (h : Agree a b) : rules.candidates a = rules.candidates b := by
  rw [Rules.candidates, Rules.candidates, h.count, h.types_eq]

theorem candidates_string (h : a.types rules.types.lossless = .string) :
    (rules.candidates a).2 = .string := by
  have hshrink : ∀ enabled : TypeSet, .string &&& enabled ||| .string = .string := by decide
  rw [Rules.candidates, h, hshrink]
  split
  · split
    · rfl
    · rfl
  · rfl

theorem finish_spec (stats : ValueStats) (set : TypeSet) (found : Scalar × Option ColumnType) :
    (rules.finish stats set found).dataType = found.2.getD found.1.dataType ∧
      (rules.finish stats set found).metadata = found.1.metadata := by
  obtain ⟨scalar, dataType⟩ := found
  cases dataType with
  | some dataType => exact ⟨rfl, rfl⟩
  | none =>
    rw [Rules.finish]
    simp only
    split
    · exact ⟨rfl, rfl⟩
    · exact ⟨rfl, rfl⟩

theorem scalar_congr {doubles : Doubles F} {values : Multiset Bytes}
    (ha : Represents doubles a values) (hb : Represents doubles b values) :
    (rules.scalar (some a)).dataType = (rules.scalar (some b)).dataType ∧
      (rules.scalar (some a)).metadata = (rules.scalar (some b)).metadata := by
  have hagree := ha.agree hb
  have hfirst : rules.firstType a (rules.candidates b).2
        [.bool, .int, .float, .date, .datetime, .time] (rules.candidates b).1 =
      rules.firstType b (rules.candidates b).2
        [.bool, .int, .float, .date, .datetime, .time] (rules.candidates b).1 := by
    by_cases honly : a.exactText ||| a.exactValue ||| a.lossy = .string
    · have hstring : (rules.candidates b).2 = .string := by
        rw [← candidates_congr rules hagree]
        exact candidates_string rules (types_eq_string ha honly _)
      rw [hstring, firstType_string, firstType_string]
    · obtain ⟨hint, hfloat, htemporal⟩ := hagree.typed honly
      exact firstType_congr rules hint hfloat htemporal _ _ _
  by_cases hpos : 0 < b.count
  · have hscalar : ∀ stats : ValueStats, 0 < stats.count → rules.scalar (some stats) =
        rules.finish stats (rules.candidates stats).2 (rules.firstType stats
          (rules.candidates stats).2 [.bool, .int, .float, .date, .datetime, .time]
          (rules.candidates stats).1) := by
      intro stats hstats
      rw [Rules.scalar, Option.filter_some, if_pos (decide_eq_true hstats)]
    rw [hscalar a (hagree.count ▸ hpos), hscalar b hpos, candidates_congr rules hagree, hfirst,
      (finish_spec rules a _ _).1, (finish_spec rules a _ _).2, (finish_spec rules b _ _).1,
      (finish_spec rules b _ _).2]
    exact ⟨rfl, rfl⟩
  · have hscalar : ∀ stats : ValueStats, ¬ 0 < stats.count → rules.scalar (some stats) =
        (⟨rules.allNull, [], []⟩ : Scalar).because NEVER_A_VALUE := by
      intro stats hstats
      rw [Rules.scalar, Option.filter_some, decide_eq_false hstats]
      rfl
    rw [hscalar a (hagree.count ▸ hpos), hscalar b hpos]
    exact ⟨rfl, rfl⟩

end Rules

/-! ## Distinct values -/

namespace BoundedSet

/-- A set that was given these values. -/
structure Keeps (set : BoundedSet) (values : Finset Bytes) : Prop where
  overflowed : set.overflowed = true ↔
    (∃ v ∈ values, MAX_DISTINCT_VALUE_LEN < v.length) ∨ set.capacity < values.card
  cleared : set.overflowed = true → set.values = []
  kept : set.overflowed = false → set.values.Nodup ∧ set.values.toFinset = values

variable {set other : BoundedSet} {values others : Finset Bytes}

theorem keeps_empty (capacity : Nat) : Keeps ⟨[], false, capacity⟩ ∅ := by
  refine ⟨?_, fun _ => rfl, fun _ => ⟨List.nodup_nil, rfl⟩⟩
  simp

@[simp] theorem capacity_insert (set : BoundedSet) (value : Bytes) :
    (set.insert value).capacity = set.capacity := by
  unfold insert overflow
  split
  · rfl
  · split <;> rfl

theorem overflows_mono {capacity : Nat} {few many : Finset Bytes} (hsub : few ⊆ many)
    (h : (∃ v ∈ few, MAX_DISTINCT_VALUE_LEN < v.length) ∨ capacity < few.card) :
    (∃ v ∈ many, MAX_DISTINCT_VALUE_LEN < v.length) ∨ capacity < many.card := by
  rcases h with ⟨v, hv, hlong⟩ | hcard
  · exact Or.inl ⟨v, hsub hv, hlong⟩
  · exact Or.inr (Nat.lt_of_lt_of_le hcard (Finset.card_le_card hsub))

theorem Keeps.overflow (h : (∃ v ∈ values, MAX_DISTINCT_VALUE_LEN < v.length) ∨
    set.capacity < values.card) : Keeps set.overflow values :=
  ⟨iff_of_true rfl h, fun _ => rfl, nofun⟩

theorem Keeps.insert (h : Keeps set values) (value : Bytes) :
    Keeps (set.insert value) (Insert.insert value values) := by
  have hsub := Finset.subset_insert value values
  unfold BoundedSet.insert
  cases hover : set.overflowed with
  | true =>
    rw [if_pos (Or.inl rfl)]
    refine ⟨iff_of_true hover (overflows_mono hsub (h.overflowed.1 hover)), h.cleared, ?_⟩
    rw [hover]
    nofun
  | false =>
    obtain ⟨hnodup, hvalues⟩ := h.kept hover
    have hnot := mt h.overflowed.2 (by rw [hover]; exact Bool.false_ne_true)
    rw [not_or] at hnot
    have hcard : set.values.length = values.card := by
      rw [← hvalues, List.toFinset_card_of_nodup hnodup]
    by_cases hmem : value ∈ set.values
    · have hsame : Insert.insert value values = values := by
        rw [Finset.insert_eq_self, ← hvalues]
        exact List.mem_toFinset.2 hmem
      rw [if_pos (Or.inr hmem), hsame]
      exact h
    · have hnew : value ∉ values := fun hin => by
        rw [← hvalues] at hin
        exact hmem (List.mem_toFinset.1 hin)
      have hgrown := Finset.card_insert_of_notMem hnew
      rw [if_neg (by simp [hmem])]
      by_cases hfull : set.capacity ≤ set.values.length ∨ MAX_DISTINCT_VALUE_LEN < value.length
      · rw [if_pos hfull]
        refine Keeps.overflow ?_
        rcases hfull with hfull | hlong
        · exact Or.inr (by omega)
        · exact Or.inl ⟨value, Finset.mem_insert_self value values, hlong⟩
      · rw [if_neg hfull]
        rw [not_or] at hfull
        refine ⟨iff_of_false Bool.false_ne_true ?_, nofun, fun _ => ⟨?_, ?_⟩⟩
        · rintro (⟨v, hv, hlong⟩ | hmany)
          · rcases Finset.mem_insert.1 hv with rfl | hv
            · exact hfull.2 hlong
            · exact hnot.1 ⟨v, hv, hlong⟩
          · simp only at hmany
            omega
        · show (set.values ++ [value]).Nodup
          rw [← List.concat_eq_append]
          exact hnodup.concat hmem
        · simp [hvalues]

theorem Keeps.foldl_insert (h : Keeps set values) (more : List Bytes) :
    Keeps (more.foldl BoundedSet.insert set) (values ∪ more.toFinset) := by
  induction more generalizing set values with
  | nil => simpa using h
  | cons value more ih =>
    have hstep := ih (h.insert value)
    rwa [Finset.insert_union, ← Finset.union_insert, ← List.toFinset_cons] at hstep

theorem capacity_foldl_insert (set : BoundedSet) (more : List Bytes) :
    (more.foldl BoundedSet.insert set).capacity = set.capacity := by
  induction more generalizing set with
  | nil => rfl
  | cons value more ih => rw [List.foldl_cons, ih, capacity_insert]

/-- Sets of one capacity merge to the set of all their values. -/
theorem Keeps.merge (hset : Keeps set values) (hother : Keeps other others)
    (hcapacity : set.capacity = other.capacity) :
    Keeps (set.merge other) (values ∪ others) ∧ (set.merge other).capacity = set.capacity := by
  have hwidened : { set with capacity := max set.capacity other.capacity } = set := by
    rw [← hcapacity, Nat.max_self]
  unfold BoundedSet.merge
  rw [hwidened]
  cases hover : other.overflowed with
  | true =>
    have hmany := overflows_mono (Finset.subset_union_right : others ⊆ values ∪ others)
      (hother.overflowed.1 hover)
    rw [hother.cleared hover]
    rw [← hcapacity] at hmany
    exact ⟨Keeps.overflow hmany, rfl⟩
  | false =>
    obtain ⟨-, hothers⟩ := hother.kept hover
    rw [← hothers]
    exact ⟨hset.foldl_insert other.values, capacity_foldl_insert set other.values⟩

theorem Keeps.unique (hset : Keeps set values) (hother : Keeps other values)
    (hcapacity : set.capacity = other.capacity) :
    set.overflowed = other.overflowed ∧ set.values.Perm other.values := by
  have hiff : set.overflowed = true ↔ other.overflowed = true := by
    rw [hset.overflowed, hother.overflowed, hcapacity]
  have hover := Bool.eq_iff_iff.2 hiff
  refine ⟨hover, ?_⟩
  cases h : other.overflowed with
  | true => rw [hset.cleared (hover.trans h), hother.cleared h]
  | false =>
    obtain ⟨hnodup, hvalues⟩ := hset.kept (hover.trans h)
    obtain ⟨hnodup', hvalues'⟩ := hother.kept h
    exact List.perm_of_nodup_nodup_toFinset_eq hnodup hnodup' (hvalues.trans hvalues'.symm)

end BoundedSet

/-! ## Parts -/

/-- Values observed in parts, with the statistics merged in some order. -/
inductive Parts where
  | part (capacity : Nat) (values : List Bytes)
  | merged (a b : Parts)

namespace Parts

def values : Parts → List Bytes
  | part _ values => values
  | merged a b => a.values ++ b.values

def capacities : Parts → List Nat
  | part capacity _ => [capacity]
  | merged a b => a.capacities ++ b.capacities

variable {F : Type} (doubles : Doubles F)

def stats : Parts → ValueStats
  | part capacity values => ValueStats.observed doubles capacity values
  | merged a b => (stats a).merge (stats b)

theorem represents (parts : Parts) : Represents doubles (parts.stats doubles) parts.values := by
  induction parts with
  | part capacity values => exact represents_observed capacity values
  | merged a b iha ihb =>
    rw [values, ← Multiset.coe_add]
    exact iha.merge ihb

theorem distinct_observe (stats : ValueStats) (value : Bytes) :
    (stats.observe doubles value).distinct = stats.distinct.insert value := by
  unfold ValueStats.observe
  simp only
  split
  · rfl
  · rfl

theorem distinct_observed (capacity : Nat) (values : List Bytes) :
    (ValueStats.observed doubles capacity values).distinct =
      values.foldl BoundedSet.insert ⟨[], false, capacity⟩ := by
  have hrun : ∀ stats : ValueStats, (values.foldl (ValueStats.observe doubles) stats).distinct =
      values.foldl BoundedSet.insert stats.distinct := by
    induction values with
    | nil => exact fun stats => rfl
    | cons value values ih =>
      intro stats
      rw [List.foldl_cons, ih, distinct_observe, List.foldl_cons]
  exact hrun _

theorem keeps_observed (capacity : Nat) (values : List Bytes) :
    (ValueStats.observed doubles capacity values).distinct.Keeps values.toFinset ∧
      (ValueStats.observed doubles capacity values).distinct.capacity = capacity := by
  have hkeeps := (BoundedSet.keeps_empty capacity).foldl_insert values
  rw [Finset.empty_union] at hkeeps
  rw [distinct_observed]
  exact ⟨hkeeps, BoundedSet.capacity_foldl_insert _ values⟩

theorem keeps {capacity : Nat} (parts : Parts) (h : ∀ c ∈ parts.capacities, c = capacity) :
    (parts.stats doubles).distinct.Keeps parts.values.toFinset ∧
      (parts.stats doubles).distinct.capacity = capacity := by
  induction parts with
  | part c values =>
    obtain rfl := h c List.mem_cons_self
    exact keeps_observed doubles c values
  | merged a b iha ihb =>
    obtain ⟨hkeepsa, hcapacitya⟩ := iha fun c hc => h c (List.mem_append_left _ hc)
    obtain ⟨hkeepsb, hcapacityb⟩ := ihb fun c hc => h c (List.mem_append_right _ hc)
    obtain ⟨hkeeps, hcapacity⟩ := hkeepsa.merge hkeepsb (hcapacitya.trans hcapacityb.symm)
    rw [values, List.toFinset_append]
    exact ⟨hkeeps, hcapacity.trans hcapacitya⟩

end Parts

/-- However values are parted and the parts' statistics merged, with parts of no value among them,
the column is of the type that all values in sequence give it. -/
theorem scalar_parts {F : Type} (rules : Rules F) (capacity : Nat) {parts : Parts}
    {values : List Bytes} (h : parts.values.Perm values) :
    let merged := parts.stats rules.doubles
    let whole := ValueStats.observed rules.doubles capacity values
    (rules.scalar (some merged)).dataType = (rules.scalar (some whole)).dataType ∧
      (rules.scalar (some merged)).metadata = (rules.scalar (some whole)).metadata ∧
      merged.count = whole.count ∧ merged.maxLen = whole.maxLen ∧
      ((∀ c ∈ parts.capacities, c = capacity) →
        merged.distinct.overflowed = whole.distinct.overflowed ∧
          merged.distinct.values.Perm whole.distinct.values) := by
  intro merged whole
  have hmerged : Represents rules.doubles merged values := by
    rw [← Multiset.coe_eq_coe.2 h]
    exact parts.represents rules.doubles
  have hwhole : Represents rules.doubles whole values := represents_observed capacity values
  obtain ⟨htype, hmetadata⟩ := scalar_congr rules hmerged hwhole
  refine ⟨htype, hmetadata, hmerged.count.trans hwhole.count.symm,
    hmerged.maxLen.trans hwhole.maxLen.symm, fun hcapacities => ?_⟩
  obtain ⟨hkeeps, hcapacity⟩ := parts.keeps rules.doubles hcapacities
  obtain ⟨hkeeps', hcapacity'⟩ := Parts.keeps_observed rules.doubles capacity values
  rw [List.toFinset_eq_of_perm _ _ h] at hkeeps
  exact hkeeps.unique hkeeps' (hcapacity.trans hcapacity'.symm)

/-- Rules for texts that no double is read from. -/
def plainRules : Rules Unit where
  types := ⟨.value, .all, .int64, .microsecond, .utf8View, true⟩
  sampled := none
  doubles := ⟨fun _ => none, fun _ => false, fun _ => [], fun _ => []⟩
  debug _ := ""

/-- Dates in two time zones, the later one first, and a part without a value; their sets hold one
value each. -/
theorem scalar_parts_twoZones :
    let parts : Parts := .merged (.part 1 [utf8 "2024-05-02+02:00"])
      (.merged (.part 1 []) (.part 1 [utf8 "2024-05-01Z"]))
    let merged := parts.stats plainRules.doubles
    let whole := ValueStats.observed plainRules.doubles 1
      [utf8 "2024-05-01Z", utf8 "2024-05-02+02:00"]
    (plainRules.scalar (some merged)).dataType = (plainRules.scalar (some whole)).dataType ∧
      (plainRules.scalar (some merged)).metadata = (plainRules.scalar (some whole)).metadata ∧
      merged.count = whole.count ∧ merged.maxLen = whole.maxLen ∧
      ((∀ c ∈ parts.capacities, c = 1) →
        merged.distinct.overflowed = whole.distinct.overflowed ∧
          merged.distinct.values.Perm whole.distinct.values) :=
  scalar_parts plainRules 1 (List.Perm.swap _ _ [])

end Xeibe.Schema.Values

import Mathlib.Data.List.Perm.Subperm
import Xeibe.Reproject.Equivalent.Model

/-!
# Where equivalence is an equivalence

A CRS matches itself, and matches another one as that one matches it.  The parts compare
the same both ways, but for conversions: their parameters are compared by the method of
the first one, and the standard parallels may be swapped only for one method.
-/

namespace Xeibe.Reproject.Equivalent

open Xeibe.Geom (F64)
open Xeibe.Lib
open Xeibe.Lib.Text

/-! ## Parts that compare the same both ways -/

theorem close_comm (a b : F64) : close a b = close b a := F64.within_comm _ a b

theorem closeParameter_comm (a b : F64) : closeParameter a b = closeParameter b a :=
  F64.within_comm _ a b

theorem sameMeridian_comm (a b : F64) : sameMeridian a b = sameMeridian b a :=
  F64.within_comm _ a b

theorem near_comm (a b : F64) : near a b = near b a :=
  decide_eq_decide.2 (F64.abs_sub_le_comm a b _)

theorem sameKey_comm (keyA nameA keyB nameB : String) :
    sameKey keyA nameA keyB nameB = sameKey keyB nameB keyA nameA := by
  unfold sameKey
  rw [Bool.beq_comm, equivalentNames_comm]

theorem sameEllipsoid_comm (x y : Ellipsoid) (rfX rfY : Option F64) :
    sameEllipsoid x rfX y rfY = sameEllipsoid y rfY x rfX := by
  unfold sameEllipsoid
  rw [close_comm x.a y.a]
  cases rfX with
  | none => cases rfY <;> simp only [close_comm x.b y.b]
  | some p =>
    cases rfY with
    | none => simp only [close_comm x.b y.b]
    | some q => simp only [close_comm p q]

theorem Datum.same_comm (a b : Datum) (relax : Relax) : a.same b relax = b.same a relax := by
  unfold Datum.same
  rw [sameKey_comm, sameEllipsoid_comm, sameMeridian_comm]

theorem Axis.same_comm (a b : Axis) : a.same b = b.same a := by
  unfold Axis.same
  rw [near_comm a.along.1, near_comm a.along.2, near_comm a.vertical, close_comm]

theorem Axis.sameUnit_comm (a b : Axis) : a.sameUnit b = b.sameUnit a := by
  unfold Axis.sameUnit
  rw [close_comm, Axis.same_comm]
  cases a.isHorizontal <;> cases b.isHorizontal <;> simp

theorem pairwise_comm {test : Axis → Axis → Bool} (htest : ∀ a b, test a b = test b a) :
    ∀ as bs, pairwise test as bs = pairwise test bs as
  | [], [] => rfl
  | [], _ :: _ => rfl
  | _ :: _, [] => rfl
  | a :: as, b :: bs => by
    have ih := pairwise_comm htest as bs
    unfold pairwise at ih ⊢
    rw [List.zip_cons_cons, List.zip_cons_cons, List.all_cons, List.all_cons, htest a b, ih]

theorem sameAxes_comm (relax : Relax) (as bs : List Axis) :
    sameAxes relax as bs = sameAxes relax bs as := by
  unfold sameAxes
  rw [pairwise_comm Axis.sameUnit_comm as bs, pairwise_comm Axis.same_comm as bs]
  by_cases hlength : as.length = bs.length
  · rw [if_neg (not_not.2 hlength), if_neg (not_not.2 hlength.symm)]
    split
    · rfl
    · split
      · rfl
      · match as, bs with
        | [], [] => rfl
        | [_], [_] => rfl
        | a₀ :: a₁ :: as, b₀ :: b₁ :: bs =>
          simp only [Axis.same_comm a₀ b₁, Axis.same_comm a₁ b₀, pairwise_comm Axis.same_comm as bs,
            Bool.and_comm (b₁.same a₀), Bool.and_assoc]
        | [], _ :: _ => cases hlength
        | _ :: _, [] => cases hlength
        | [_], _ :: _ :: _ => simp at hlength
        | _ :: _ :: _, [_] => simp at hlength
  · rw [if_pos hlength, if_pos (Ne.symm hlength)]

theorem sameHorizontalUnit_comm (as bs : List Axis) :
    sameHorizontalUnit as bs = sameHorizontalUnit bs as := by
  cases as with
  | nil => cases bs <;> rfl
  | cons a as =>
    cases bs with
    | nil => rfl
    | cons b bs => exact close_comm a.factor b.factor

/-! ## Conversions -/

theorem Params.same_comm (p q : Params) (method : Option Nat) :
    p.same q method = q.same p method := by
  unfold Params.same
  rw [Bool.and_comm (p.coveredBy q method), Bool.and_assoc, Bool.and_comm (p.keysIn q),
    ← Bool.and_assoc]

theorem sameMethod_comm (relax : Relax) (c d : Conversion) :
    sameMethod relax c d = sameMethod relax d c := by
  unfold sameMethod
  have hname : eqIgnoreAsciiCase c.method.toList d.method.toList =
      eqIgnoreAsciiCase d.method.toList c.method.toList := Bool.beq_comm
  rw [hname]
  cases c.methodCode with
  | none => cases d.methodCode <;> rfl
  | some x =>
    cases d.methodCode with
    | none => rfl
    | some y =>
      simp only [Bool.beq_comm (a := orientedAlike x), Bool.beq_comm (a := x)]

theorem any_any_comm {α β : Type} (x : Option α) (y : Option β) (p : α → β → Bool) :
    (x.any fun a => y.any fun b => p a b) = y.any fun b => x.any fun a => p a b := by
  cases x <;> cases y <;> rfl

section Elementary

variable (fn : Elementary)

theorem sameFormulation_comm (c d : Conversion) (a b : Datum) :
    sameFormulation fn c d a b = sameFormulation fn d c b a := by
  unfold sameFormulation
  generalize c.methodCode = x
  generalize d.methodCode = y
  split
  · rw [any_any_comm]
    simp only [Params.same_comm]
  · simp only [Params.same_comm]
  · simp only [Params.same_comm]
  · simp only [Params.same_comm]
  · simp only [Params.same_comm]
  · rename_i hsp hone hone' hmerc hmerc'
    split
    · exact (hsp rfl rfl).elim
    · exact (hone' rfl rfl).elim
    · exact (hone rfl rfl).elim
    · exact (hmerc' rfl rfl).elim
    · exact (hmerc rfl rfl).elim
    · rfl

/-! ## One way only -/

/-- Parameters that are the same for some method are so for Lambert Conic Conformal (2SP). -/
theorem Params.same_of_same {p q : Params} {method : Option Nat} (h : p.same q method = true) :
    p.same q (some 9802) = true := by
  have hcovers : ∀ p q : Params, p.coveredBy q method = true →
      p.coveredBy q (some 9802) = true := by
    intro p q h
    rw [Params.coveredBy, List.all_eq_true] at h ⊢
    intro parameter hmem
    have hcovered := h parameter hmem
    unfold Params.covers at hcovered ⊢
    split
    · rename_i v hget
      rw [hget] at hcovered
      simp only [Bool.or_eq_true, Bool.and_eq_true, beq_self_eq_true, true_and] at hcovered ⊢
      exact hcovered.imp_right And.right
    · rename_i hget
      rw [hget] at hcovered
      exact hcovered
  unfold Params.same at h ⊢
  simp only [Bool.and_eq_true] at h ⊢
  exact ⟨⟨⟨hcovers p q h.1.1.1, hcovers q p h.1.1.2⟩, h.1.2⟩, h.2⟩

theorem Params.same_eq {p q : Params} {method : Option Nat} (h : method ≠ some 9802) :
    p.same q method = p.same q none := by
  have hcovers : ∀ p q : Params, p.coveredBy q method = p.coveredBy q none := by
    intro p q
    have hmethod : (method == some 9802) = false := by simpa using h
    unfold Params.coveredBy Params.covers
    simp only [hmethod, show ((none : Option Nat) == some 9802) = false from rfl]
  unfold Params.same
  rw [hcovers p q, hcovers q p]

/-- Methods of one name, one of them Lambert Conic Conformal (2SP) by its code and the
other one not, with parameters that are the same only if the two standard parallels may be
swapped, and no other formulations of one projection. -/
structure OneWay (c d : Conversion) (a b : Datum) : Prop where
  sameName : eqIgnoreAsciiCase c.method.toList d.method.toList = true
  oneOfThem : c.methodCode = some 9802 ↔ d.methodCode ≠ some 9802
  swapped : c.params.same d.params (some 9802) = true
  notAsTheyAre : c.params.same d.params none = false
  formulation : sameFormulation fn c d a b = false

theorem OneWay.symm {c d : Conversion} {a b : Datum} (h : OneWay fn c d a b) :
    OneWay fn d c b a where
  sameName := by
    rw [← h.sameName]
    exact Bool.beq_comm
  oneOfThem := ⟨fun hd hc => h.oneOfThem.1 hc hd,
    fun hc => by_contra fun hd => hc (h.oneOfThem.2 hd)⟩
  swapped := by
    rw [Params.same_comm]
    exact h.swapped
  notAsTheyAre := by
    rw [Params.same_comm]
    exact h.notAsTheyAre
  formulation := by
    rw [sameFormulation_comm]
    exact h.formulation

/-- Methods whose codes differ, one of them Lambert Conic Conformal (2SP), are the same
only by name. -/
theorem sameMethod_of_one (relax : Relax) {c d : Conversion} (hc : c.methodCode = some 9802)
    (hd : d.methodCode ≠ some 9802) :
    sameMethod relax c d = eqIgnoreAsciiCase c.method.toList d.method.toList := by
  unfold sameMethod
  rw [hc]
  cases hcode : d.methodCode with
  | none => exact Bool.or_false _
  | some y =>
    have hne : y ≠ 9802 := fun heq => hd (by rw [hcode, heq])
    have hcodes : (9802 == y) = false := by
      rw [beq_eq_false_iff_ne]
      exact hne.symm
    have horiented : (orientedAlike 9802 == orientedAlike y) = false := by
      rw [beq_eq_false_iff_ne]
      unfold orientedAlike
      split_ifs <;> omega
    simp only [hcodes, horiented, ite_self, Bool.or_false]

theorem sameProjection_of_one (relax : Relax) {c d : Conversion} {a b : Datum}
    (hc : c.methodCode = some 9802) (hd : d.methodCode ≠ some 9802) :
    sameProjection fn relax c d a b = sameProjection fn relax d c b a ↔ ¬OneWay fn c d a b := by
  have hname := sameMethod_of_one relax hc hd
  unfold sameProjection
  rw [← sameMethod_comm relax c d, ← sameFormulation_comm fn c d a b, hname, hc,
    Params.same_eq hd, Params.same_comm d.params c.params]
  constructor
  · intro h hone
    rw [hone.sameName, hone.swapped, hone.notAsTheyAre, hone.formulation] at h
    cases h
  · intro hnot
    cases hsameName : eqIgnoreAsciiCase c.method.toList d.method.toList with
    | false => rfl
    | true =>
      cases hformulation : sameFormulation fn c d a b with
      | true => rw [Bool.or_true, Bool.or_true]
      | false =>
        cases hswapped : c.params.same d.params (some 9802) with
        | true =>
          cases hplain : c.params.same d.params none with
          | true => rfl
          | false =>
            exact absurd ⟨hsameName, by simp [hc, hd], hswapped, hplain, hformulation⟩ hnot
        | false =>
          cases hplain : c.params.same d.params none with
          | true =>
            rw [Params.same_of_same hplain] at hswapped
            cases hswapped
          | false => rfl

/-- Two conversions compare the same both ways but where one way only they are one. -/
theorem sameProjection_comm_iff (relax : Relax) (c d : Conversion) (a b : Datum) :
    sameProjection fn relax c d a b = sameProjection fn relax d c b a ↔ ¬OneWay fn c d a b := by
  by_cases hc : c.methodCode = some 9802
  · by_cases hd : d.methodCode = some 9802
    · have hnot : ¬OneWay fn c d a b := fun h => (h.oneOfThem.1 hc) hd
      refine iff_of_true ?_ hnot
      unfold sameProjection
      rw [sameMethod_comm, sameFormulation_comm, Params.same_comm, hc, hd]
    · exact sameProjection_of_one fn relax hc hd
  · by_cases hd : d.methodCode = some 9802
    · have h := sameProjection_of_one fn relax (a := b) (b := a) hd hc
      rw [eq_comm, h]
      exact not_congr ⟨OneWay.symm fn, OneWay.symm fn⟩
    · have hnot : ¬OneWay fn c d a b := fun h => hc (h.oneOfThem.2 hd)
      refine iff_of_true ?_ hnot
      unfold sameProjection
      rw [sameMethod_comm, sameFormulation_comm, Params.same_comm, Params.same_eq hc,
        Params.same_eq hd]

/-! ## Bound transformations -/

/-- A transformation whose parameters are numbers. -/
def Operation.Numbers (operation : Operation) : Prop :=
  ∀ p ∈ operation.params, ∃ x : F64, p.2 = .number x ∧ x.isNan = false

/-- A transformation that gives no parameter twice. -/
def Operation.Once (operation : Operation) : Prop := (operation.params.map Prod.fst).Nodup

theorem Operation.param_eq {operation : Operation} (honce : operation.Once) {code : Nat} {x : F64}
    (h : (code, .number x) ∈ operation.params) : operation.param code = some x := by
  unfold Operation.param
  unfold Operation.Once at honce
  generalize operation.params = params at h honce
  induction params with
  | nil => cases h
  | cons p ps ih =>
    rw [List.map_cons, List.nodup_cons] at honce
    rcases List.mem_cons.1 h with rfl | h
    · exact List.findSome?_cons_of_isSome (by simp [numberOf]) |>.trans (by simp [numberOf])
    · have hother : numberOf code p = none := by
        have hne : p.1 ≠ code := fun heq => honce.1 (List.mem_map.2 ⟨_, h, heq.symm⟩)
        obtain ⟨code', value⟩ := p
        cases value with
        | number n => exact if_neg hne
        | file name => rfl
        | missing => rfl
      rw [List.findSome?_cons, hother]
      exact ih h honce.2

theorem Operation.mem_of_param {operation : Operation} {code : Nat} {x : F64}
    (h : operation.param code = some x) : (code, .number x) ∈ operation.params := by
  obtain ⟨p, hmem, hp⟩ := List.exists_of_findSome?_eq_some h
  obtain ⟨code', value⟩ := p
  cases value with
  | number n =>
    simp only [numberOf, Option.ite_none_right_eq_some, Option.some.injEq] at hp
    obtain ⟨rfl, rfl⟩ := hp
    exact hmem
  | file name => cases hp
  | missing => cases hp

/-- The parameters of one are in the other. -/
def Operation.In (a b : Operation) : Prop :=
  ∀ code x, (code, ParamValue.number x) ∈ a.params →
    ∃ y, (code, ParamValue.number y) ∈ b.params ∧ closeParameter x y = true

theorem Operation.same_iff {a b : Operation} (ha : a.Numbers) (hb : b.Once) :
    a.same b = true ↔ a.method = b.method ∧ a.params.length = b.params.length ∧ a.In b := by
  unfold Operation.same
  simp only [Bool.and_eq_true, beq_iff_eq, List.all_eq_true, and_assoc]
  refine and_congr_right fun _ => and_congr_right fun _ => ⟨fun h code x hmem => ?_, ?_⟩
  · obtain ⟨y, hparam, hclose⟩ := (Option.any_eq_true _ _).1 (h _ hmem)
    exact ⟨y, Operation.mem_of_param hparam, hclose⟩
  · rintro h ⟨code, value⟩ hmem
    obtain ⟨x, rfl, -⟩ := ha _ hmem
    obtain ⟨y, hy, hclose⟩ := h code x hmem
    simp only [Operation.param_eq hb hy, Option.any_some, hclose]

/-- As many different parameters, each in the other: the same ones. -/
theorem Operation.In.symm {a b : Operation} (ha : a.Numbers) (hoa : a.Once) (hob : b.Once)
    (hlength : a.params.length = b.params.length) (h : a.In b) : b.In a := by
  have hsubset : a.params.map Prod.fst ⊆ b.params.map Prod.fst := by
    intro code hcode
    obtain ⟨⟨code', value⟩, hmem, rfl⟩ := List.mem_map.1 hcode
    obtain ⟨x, rfl, -⟩ := ha _ hmem
    obtain ⟨y, hy, -⟩ := h code' x hmem
    exact List.mem_map.2 ⟨_, hy, rfl⟩
  have hperm := (List.subperm_of_subset hoa hsubset).perm_of_length_le (by simp [hlength])
  intro code y hmem
  have hcode : code ∈ a.params.map Prod.fst :=
    hperm.mem_iff.2 (List.mem_map.2 ⟨_, hmem, rfl⟩)
  obtain ⟨⟨code', value⟩, hmem', rfl⟩ := List.mem_map.1 hcode
  obtain ⟨x, rfl, -⟩ := ha _ hmem'
  obtain ⟨y', hy', hclose⟩ := h code' x hmem'
  -- The parameter is given once, so it is the same one.
  have heq : y' = y := by
    have hy := Operation.param_eq hob hmem
    rw [Operation.param_eq hob hy'] at hy
    exact Option.some.inj hy
  subst heq
  exact ⟨x, hmem', by rwa [closeParameter_comm]⟩

theorem Operation.same_comm {a b : Operation} (ha : a.Numbers) (hb : b.Numbers) (hoa : a.Once)
    (hob : b.Once) : a.same b = b.same a := by
  rw [Bool.eq_iff_iff, Operation.same_iff ha hob, Operation.same_iff hb hoa]
  constructor
  · rintro ⟨hmethod, hlength, hin⟩
    exact ⟨hmethod.symm, hlength.symm, hin.symm ha hoa hob hlength⟩
  · rintro ⟨hmethod, hlength, hin⟩
    exact ⟨hmethod.symm, hlength.symm, hin.symm hb hob hoa hlength⟩

theorem Operation.same_self {a : Operation} (ha : a.Numbers) (hoa : a.Once) :
    a.same a = true := by
  rw [Operation.same_iff ha hoa]
  refine ⟨rfl, rfl, fun code x hmem => ⟨x, hmem, ?_⟩⟩
  obtain ⟨y, hy, hnan⟩ := ha _ hmem
  cases hy
  exact F64.within_self hnan _

/-! ## What the reader makes -/

/-- A direction and the size of a unit. -/
structure Axis.Read (axis : Axis) : Prop where
  along : axis.along.1.isFinite = true ∧ axis.along.2.isFinite = true
  vertical : axis.vertical.isFinite = true
  factor : axis.factor.isNan = false

/-- Numbers, but for what an ellipsoid's flattening makes of its semi-minor axis. -/
structure Datum.Read (datum : Datum) : Prop where
  semiMajor : datum.ellipsoid.a.isNan = false
  inverseFlattening : ∀ rf ∈ datum.inverseFlattening, rf.isNan = false
  primeMeridian : datum.primeMeridian.isNan = false

mutual

/-- A CRS as it is read from PROJJSON: the hub of a bound CRS is geodetic, with a
transformation by numbers, and a compound CRS is a horizontal one with a vertical one. -/
def Crs.Read : Crs → Prop
  | ⟨kind, axes, bound⟩ => kind.Read ∧ (∀ axis ∈ axes, axis.Read) ∧ axes ≠ [] ∧ bound.Read

def Kind.Read : Kind → Prop
  | .geographic datum => datum.Read
  | .geocentric datum => datum.Read
  | .projected datum _ => datum.Read
  | .vertical _ => True
  | .engineering _ => True
  | .compound horizontal vertical => horizontal.Read ∧ vertical.Read ∧
      (match horizontal.kind with
        | .geographic _ | .projected _ _ => True
        | _ => False) ∧
      (match vertical.kind with
        | .vertical _ => True
        | _ => False)

def Bound.Read : Bound → Prop
  | .unbound => True
  | .to hub operation => hub.Read ∧ operation.Numbers ∧
      (match hub.kind with
        | .geographic _ | .geocentric _ => True
        | _ => False)

end

mutual

/-- No parameter of a bound CRS's transformation is given twice. -/
def Crs.Once : Crs → Prop
  | ⟨kind, _, bound⟩ => kind.Once ∧ bound.Once

def Kind.Once : Kind → Prop
  | .compound horizontal vertical => horizontal.Once ∧ vertical.Once
  | _ => True

def Bound.Once : Bound → Prop
  | .unbound => True
  | .to hub operation => hub.Once ∧ operation.Once

end

/-! ## A CRS and itself -/

/-- A parameter that is given again agrees with the first time it is given. -/
structure Params.Consistent (params : Params) (method : Option Nat) : Prop where
  values : ∀ code value first, (code, value) ∈ params.values → params.get code = some first →
    sameValue code value first = true ∨
      method = some 9802 ∧ params.closeSwapped params code value = true
  keys : ∀ k value first, (k, value) ∈ params.keys → params.key k = some first →
    closeParameter value first = true

/-- The parameters agree, as they are or as those of the 1SP that a Lambert Conic
Conformal (2SP) equals. -/
def Conversion.Consistent (c : Conversion) (datum : Datum) : Prop :=
  c.params.Consistent c.methodCode ∨
    c.methodCode = some 9802 ∧
      ∃ p, twoSpAsOneSp fn c.params datum.ellipsoid = some p ∧ p.Consistent (some 9801)

/-- The ellipsoid is given by its inverse flattening, or its semi-minor axis is a number. -/
def Datum.Legible (datum : Datum) : Prop :=
  datum.inverseFlattening = none → datum.ellipsoid.b.isNan = false

mutual

/-- A CRS whose ellipsoids and parameters can be compared with themselves. -/
def Crs.Legible : Crs → Prop
  | ⟨kind, _, bound⟩ => kind.Legible ∧ bound.Legible

def Kind.Legible : Kind → Prop
  | .geographic datum => datum.Legible
  | .geocentric datum => datum.Legible
  | .projected datum conversion => datum.Legible ∧ conversion.Consistent fn datum
  | .vertical _ => True
  | .engineering _ => True
  | .compound horizontal vertical => horizontal.Legible ∧ vertical.Legible

def Bound.Legible : Bound → Prop
  | .unbound => True
  | .to hub _ => hub.Legible

end

theorem lookup_isSome_of_mem {κ : Type} [BEq κ] [LawfulBEq κ] {k : κ} {v : F64}
    {xs : List (κ × F64)} (h : (k, v) ∈ xs) : ∃ first, xs.lookup k = some first := by
  induction xs with
  | nil => cases h
  | cons x xs ih =>
    obtain ⟨k', v'⟩ := x
    rw [List.lookup_cons]
    cases hk : k == k' with
    | true => exact ⟨v', rfl⟩
    | false =>
      rcases List.mem_cons.1 h with heq | h
      · cases heq
        simp at hk
      · exact ih h

theorem Params.same_self_iff (params : Params) (method : Option Nat) :
    params.same params method = true ↔ params.Consistent method := by
  have hvalues : params.coveredBy params method = true ↔
      ∀ code value first, (code, value) ∈ params.values → params.get code = some first →
        sameValue code value first = true ∨
          method = some 9802 ∧ params.closeSwapped params code value = true := by
    unfold Params.coveredBy Params.covers
    rw [List.all_eq_true]
    constructor
    · intro h code value first hmem hfirst
      have hcovered := h (code, value) hmem
      simp only [hfirst, Bool.or_eq_true, Bool.and_eq_true, beq_iff_eq] at hcovered
      exact hcovered
    · rintro h ⟨code, value⟩ hmem
      obtain ⟨first, hfirst⟩ := lookup_isSome_of_mem hmem
      have hget : params.get code = some first := hfirst
      simp only [hget, Bool.or_eq_true, Bool.and_eq_true, beq_iff_eq]
      exact h code value first hmem hget
  have hkeys : params.keysIn params = true ↔
      ∀ k value first, (k, value) ∈ params.keys → params.key k = some first →
        closeParameter value first = true := by
    unfold Params.keysIn
    rw [List.all_eq_true]
    constructor
    · intro h k value first hmem hfirst
      have hin := h (k, value) hmem
      simpa only [hfirst, Option.any_some] using hin
    · rintro h ⟨k, value⟩ hmem
      obtain ⟨first, hfirst⟩ := lookup_isSome_of_mem hmem
      have hkey : params.key k = some first := hfirst
      simp only [hkey, Option.any_some]
      exact h k value first hmem hkey
  unfold Params.same
  simp only [Bool.and_eq_true, and_assoc, and_self_left]
  rw [hvalues, and_self, hkeys]
  exact ⟨fun h => ⟨h.1, h.2⟩, fun h => ⟨h.values, h.keys⟩⟩

theorem sameProjection_self_iff (relax : Relax) (c : Conversion) (datum : Datum) :
    sameProjection fn relax c c datum datum = true ↔ c.Consistent fn datum := by
  have hname : sameMethod relax c c = true := by
    unfold sameMethod
    rw [show eqIgnoreAsciiCase c.method.toList c.method.toList = true from BEq.rfl, Bool.true_or]
  have hformulation : sameFormulation fn c c datum datum = true ↔
      c.methodCode = some 9802 ∧
        ∃ p, twoSpAsOneSp fn c.params datum.ellipsoid = some p ∧ p.Consistent (some 9801) := by
    by_cases hcode : c.methodCode = some 9802
    · unfold sameFormulation
      simp only [hcode, true_and, Option.any_eq_true]
      constructor
      · rintro ⟨p, hp, q, hq, hsame⟩
        rw [hp] at hq
        cases hq
        exact ⟨p, hp, (Params.same_self_iff p _).1 hsame⟩
      · rintro ⟨p, hp, hconsistent⟩
        exact ⟨p, hp, p, hp, (Params.same_self_iff p _).2 hconsistent⟩
    · refine iff_of_false ?_ fun h => hcode h.1
      unfold sameFormulation
      split <;> simp_all
  unfold sameProjection Conversion.Consistent
  rw [Bool.or_eq_true, Bool.and_eq_true, hformulation, Params.same_self_iff]
  simp only [hname, true_and]

theorem near_self {x : F64} (hx : x.isFinite = true) : near x x = true := by
  obtain ⟨hnan, hunits⟩ := Binary64.unitsOf_sub hx hx
  rw [← F64.toFloat_sub] at hnan hunits
  have hzero : (x - x).units = 0 := by
    rw [Int.sub_self, Binary64.roundInt_zero] at hunits
    exact hunits
  have hisNan : (x - x).isNan = false := by
    rw [Bool.eq_false_iff]
    exact mt (F64.isNan_iff _).1 hnan
  refine decide_eq_true ?_
  rw [F64.le_iff_units ((F64.isNan_abs _).trans hisNan) (by decide), F64.units_abs hisNan, hzero]
  decide +kernel

theorem Axis.Read.same_self {axis : Axis} (h : axis.Read) : axis.same axis = true := by
  unfold Axis.same
  rw [near_self h.along.1, near_self h.along.2, near_self h.vertical,
    show close axis.factor axis.factor = true from F64.within_self h.factor _]
  rfl

theorem pairwise_self (test : Axis → Axis → Bool) :
    ∀ {axes : List Axis}, (∀ axis ∈ axes, test axis axis = true) → pairwise test axes axes = true
  | [], _ => rfl
  | axis :: axes, h => by
    have ih := pairwise_self test fun axis hmem => h axis (List.mem_cons_of_mem _ hmem)
    unfold pairwise at ih ⊢
    rw [List.zip_cons_cons, List.all_cons, h axis List.mem_cons_self, ih]
    rfl

theorem sameAxes_self (relax : Relax) {axes : List Axis} (h : ∀ axis ∈ axes, axis.Read) :
    sameAxes relax axes axes = true := by
  have hsame := pairwise_self Axis.same fun axis hmem => (h axis hmem).same_self
  have hunit : pairwise Axis.sameUnit axes axes = true := by
    refine pairwise_self Axis.sameUnit fun axis hmem => ?_
    unfold Axis.sameUnit
    rw [(h axis hmem).same_self,
      show close axis.factor axis.factor = true from F64.within_self (h axis hmem).factor _]
    simp
  unfold sameAxes
  rw [if_neg (not_not.2 rfl), hunit, hsame]
  simp

theorem sameHorizontalUnit_self {axes : List Axis} (hne : axes ≠ [])
    (h : ∀ axis ∈ axes, axis.Read) : sameHorizontalUnit axes axes = true := by
  cases axes with
  | nil => exact absurd rfl hne
  | cons axis axes => exact F64.within_self (h axis List.mem_cons_self).factor _

theorem sameKey_self (key name : String) : sameKey key name key name = true := by
  simp [sameKey]

theorem Datum.same_self_iff {datum : Datum} (h : datum.Read) (relax : Relax) :
    datum.same datum relax = true ↔ datum.Legible := by
  have hsemiMajor : close datum.ellipsoid.a datum.ellipsoid.a = true :=
    F64.within_self h.semiMajor _
  have hmeridian : sameMeridian datum.primeMeridian datum.primeMeridian = true :=
    F64.within_self h.primeMeridian _
  unfold Datum.same sameEllipsoid Datum.Legible
  rw [sameKey_self, hsemiMajor, hmeridian]
  simp only [Bool.or_true, Bool.true_and, Bool.and_true]
  cases hrf : datum.inverseFlattening with
  | none =>
    simp only [true_implies]
    cases hnan : datum.ellipsoid.b.isNan with
    | false => exact iff_of_true (F64.within_self hnan _) rfl
    | true =>
      refine iff_of_false (fun hclose => ?_) nofun
      have hnot := F64.not_within_of_isNan hnan datum.ellipsoid.b ⟨0x3ddb7cdfd9d7bdbb⟩
      rw [show F64.within _ _ _ = true from hclose] at hnot
      cases hnot
  | some rf => exact iff_of_true (F64.within_self (h.inverseFlattening rf hrf) _) nofun

/-! ## Reflexivity -/

mutual

theorem Crs.matchesWith_self_iff : ∀ (crs : Crs) (relax : Relax), crs.Read → crs.Once →
    (crs.matchesWith fn relax crs = true ↔ crs.Legible fn)
  | ⟨kind, axes, bound⟩, relax, hread, honce => by
    obtain ⟨hkind, haxes, hne, hbound⟩ := hread
    have ihKind := Kind.matchesWith_self_iff kind relax hkind honce.1 hne haxes
    have ihBound := Bound.same_self_iff bound hbound honce.2
    show (bound.same fn bound && kind.matchesWith fn relax axes kind axes) = true ↔
      kind.Legible fn ∧ bound.Legible fn
    rw [Bool.and_eq_true, ihKind, ihBound, and_comm]

theorem Bound.same_self_iff : ∀ bound : Bound, bound.Read → bound.Once →
    (bound.same fn bound = true ↔ bound.Legible fn)
  | .unbound, _, _ => iff_of_true rfl trivial
  | .to hub operation, hread, honce => by
    have ih := Crs.matchesWith_self_iff hub Relax.default hread.1 honce.1
    show (hub.matchesWith fn Relax.default hub && operation.same operation) = true ↔
      hub.Legible fn
    rw [Bool.and_eq_true, ih, Operation.same_self hread.2.1 honce.2]
    exact and_iff_left rfl

theorem Kind.matchesWith_self_iff : ∀ (kind : Kind) (relax : Relax) {axes : List Axis},
    kind.Read → kind.Once → axes ≠ [] → (∀ axis ∈ axes, axis.Read) →
    (kind.matchesWith fn relax axes kind axes = true ↔ kind.Legible fn)
  | .geographic datum, relax, axes, hread, _, _, haxes => by
    show (datum.same datum relax && sameAxes relax axes axes) = true ↔ datum.Legible
    rw [Bool.and_eq_true, Datum.same_self_iff hread, sameAxes_self relax haxes]
    exact and_iff_left rfl
  | .geocentric datum, relax, axes, hread, _, _, haxes => by
    show (datum.same datum relax && sameAxes relax axes axes) = true ↔ datum.Legible
    rw [Bool.and_eq_true, Datum.same_self_iff hread, sameAxes_self relax haxes]
    exact and_iff_left rfl
  | .projected datum conversion, relax, axes, hread, _, hne, haxes => by
    show (datum.same datum relax && sameProjection fn relax conversion conversion datum datum &&
      (if relax.axisDirections then sameHorizontalUnit axes axes else sameAxes relax axes axes)) =
        true ↔ datum.Legible ∧ conversion.Consistent fn datum
    rw [sameHorizontalUnit_self hne haxes, sameAxes_self relax haxes, ite_self, Bool.and_true,
      Bool.and_eq_true, Datum.same_self_iff hread, sameProjection_self_iff]
  | .vertical datum, relax, axes, _, _, _, haxes => by
    refine iff_of_true ?_ trivial
    show (sameKey datum.key datum.name datum.key datum.name && sameAxes relax axes axes) = true
    rw [sameKey_self, sameAxes_self relax haxes]
    rfl
  | .engineering datum, relax, axes, _, _, _, haxes => by
    refine iff_of_true ?_ trivial
    show (sameKey datum.key datum.name datum.key datum.name && sameAxes relax axes axes) = true
    rw [sameKey_self, sameAxes_self relax haxes]
    rfl
  | .compound horizontal vertical, relax, _, hread, honce, _, _ => by
    have ihHorizontal := Crs.matchesWith_self_iff horizontal relax hread.1 honce.1
    have ihVertical := Crs.matchesWith_self_iff vertical Relax.default hread.2.1 honce.2
    show (horizontal.matchesWith fn relax horizontal &&
      vertical.matchesWith fn Relax.default vertical) = true ↔
        horizontal.Legible fn ∧ vertical.Legible fn
    rw [Bool.and_eq_true, ihHorizontal, ihVertical]

end

/-! ## Symmetry -/

mutual

/-- Projected CRSs, or the horizontal ones of compound CRSs, that are the same but for
conversions that are one way only. -/
def Crs.Lopsided : Crs → Relax → Crs → Prop
  | ⟨kind, axes, bound⟩, relax, other =>
    bound.same fn other.bound = true ∧ kind.Lopsided relax axes other.kind other.axes

def Kind.Lopsided : Kind → Relax → List Axis → Kind → List Axis → Prop
  | .projected a c, relax, axes, .projected b d, axes' =>
    a.same b relax = true ∧ OneWay fn c d a b ∧
      (if relax.axisDirections then sameHorizontalUnit axes axes'
        else sameAxes relax axes axes') = true
  | .compound h v, relax, _, .compound h' v', _ =>
    h.Lopsided relax h' ∧ v.matchesWith fn Relax.default v' = true
  | _, _, _, _, _ => False

end

theorem and_eq_and_iff {x y z : Bool} : (x && y) = (x && z) ↔ (x = true → y = z) := by
  cases x <;> simp

theorem Kind.not_lopsided_of_geodetic {kind other : Kind} {relax : Relax} {axes axes' : List Axis}
    (h : match kind with
      | .geographic _ | .geocentric _ => True
      | _ => False) : ¬kind.Lopsided fn relax axes other axes' := by
  cases kind with
  | geographic datum => cases other <;> exact id
  | geocentric datum => cases other <;> exact id
  | projected datum conversion => exact h.elim
  | vertical datum => exact h.elim
  | compound horizontal vertical => exact h.elim
  | engineering datum => exact h.elim

theorem Kind.not_lopsided_of_vertical {kind other : Kind} {relax : Relax} {axes axes' : List Axis}
    (h : match kind with
      | .vertical _ => True
      | _ => False) : ¬kind.Lopsided fn relax axes other axes' := by
  cases kind with
  | vertical datum => cases other <;> exact id
  | geographic datum => exact h.elim
  | geocentric datum => exact h.elim
  | projected datum conversion => exact h.elim
  | compound horizontal vertical => exact h.elim
  | engineering datum => exact h.elim

mutual

theorem Crs.matchesWith_comm_iff : ∀ (crs other : Crs) (relax : Relax), crs.Read → other.Read →
    crs.Once → other.Once →
    (crs.matchesWith fn relax other = other.matchesWith fn relax crs ↔
      ¬crs.Lopsided fn relax other)
  | ⟨kind, axes, bound⟩, ⟨kind', axes', bound'⟩, relax, hread, hread', honce, honce' => by
    have ihBound := Bound.same_comm bound bound' hread.2.2.2 hread'.2.2.2 honce.2 honce'.2
    have ihKind := Kind.matchesWith_comm_iff kind kind' relax axes axes' hread.1 hread'.1 honce.1 honce'.1
    show ((bound.same fn bound' && kind.matchesWith fn relax axes kind' axes') =
      (bound'.same fn bound && kind'.matchesWith fn relax axes' kind axes)) ↔
        ¬(bound.same fn bound' = true ∧ kind.Lopsided fn relax axes kind' axes')
    rw [← ihBound, and_eq_and_iff, ihKind, not_and]

theorem Bound.same_comm : ∀ bound other : Bound, bound.Read → other.Read → bound.Once →
    other.Once → bound.same fn other = other.same fn bound
  | .unbound, .unbound, _, _, _, _ => rfl
  | .unbound, .to _ _, _, _, _, _ => rfl
  | .to _ _, .unbound, _, _, _, _ => rfl
  | .to hub operation, .to hub' operation', hread, hread', honce, honce' => by
    have ih := (Crs.matchesWith_comm_iff hub hub' Relax.default hread.1 hread'.1 honce.1
      honce'.1).2 (by
        cases hub
        exact fun h => Kind.not_lopsided_of_geodetic fn hread.2.2 h.2)
    show (hub.matchesWith fn Relax.default hub' && operation.same operation') =
      (hub'.matchesWith fn Relax.default hub && operation'.same operation)
    rw [ih, Operation.same_comm hread.2.1 hread'.2.1 honce.2 honce'.2]

theorem Kind.matchesWith_comm_iff : ∀ (kind other : Kind) (relax : Relax) (axes axes' : List Axis),
    kind.Read → other.Read → kind.Once → other.Once →
    (kind.matchesWith fn relax axes other axes' = other.matchesWith fn relax axes' kind axes ↔
      ¬kind.Lopsided fn relax axes other axes')
  | .geographic a, other, relax, axes, axes', _, _, _, _ => by
    cases other with
    | geographic b =>
      refine iff_of_true ?_ id
      show (a.same b relax && sameAxes relax axes axes') =
        (b.same a relax && sameAxes relax axes' axes)
      rw [Datum.same_comm, sameAxes_comm]
    | _ => exact iff_of_true rfl id
  | .geocentric a, other, relax, axes, axes', _, _, _, _ => by
    cases other with
    | geocentric b =>
      refine iff_of_true ?_ id
      show (a.same b relax && sameAxes relax axes axes') =
        (b.same a relax && sameAxes relax axes' axes)
      rw [Datum.same_comm, sameAxes_comm]
    | _ => exact iff_of_true rfl id
  | .projected a c, other, relax, axes, axes', _, _, _, _ => by
    cases other with
    | projected b d =>
      have hconversion := sameProjection_comm_iff fn relax c d a b
      show ((a.same b relax && sameProjection fn relax c d a b &&
          (if relax.axisDirections then sameHorizontalUnit axes axes'
            else sameAxes relax axes axes')) =
        (b.same a relax && sameProjection fn relax d c b a &&
          (if relax.axisDirections then sameHorizontalUnit axes' axes
            else sameAxes relax axes' axes))) ↔
        ¬(a.same b relax = true ∧ OneWay fn c d a b ∧
          (if relax.axisDirections then sameHorizontalUnit axes axes'
            else sameAxes relax axes axes') = true)
      rw [Datum.same_comm b a, sameHorizontalUnit_comm axes' axes, sameAxes_comm relax axes' axes,
        Bool.and_right_comm, Bool.and_right_comm (y := sameProjection fn relax d c b a),
        and_eq_and_iff, hconversion, Bool.and_eq_true]
      tauto
    | _ => exact iff_of_true rfl id
  | .vertical a, other, relax, axes, axes', _, _, _, _ => by
    cases other with
    | vertical b =>
      refine iff_of_true ?_ id
      show (sameKey a.key a.name b.key b.name && sameAxes relax axes axes') =
        (sameKey b.key b.name a.key a.name && sameAxes relax axes' axes)
      rw [sameKey_comm, sameAxes_comm]
    | _ => exact iff_of_true rfl id
  | .engineering a, other, relax, axes, axes', _, _, _, _ => by
    cases other with
    | engineering b =>
      refine iff_of_true ?_ id
      show (sameKey a.key a.name b.key b.name && sameAxes relax axes axes') =
        (sameKey b.key b.name a.key a.name && sameAxes relax axes' axes)
      rw [sameKey_comm, sameAxes_comm]
    | _ => exact iff_of_true rfl id
  | .compound h v, other, relax, _, _, hread, hread', honce, honce' => by
    cases other with
    | compound h' v' =>
      have ihHorizontal := Crs.matchesWith_comm_iff h h' relax hread.1 hread'.1 honce.1 honce'.1
      have ihVertical := (Crs.matchesWith_comm_iff v v' Relax.default hread.2.1 hread'.2.1 honce.2
        honce'.2).2 (by
          cases v
          exact fun hlopsided => Kind.not_lopsided_of_vertical fn hread.2.2.2 hlopsided.2)
      show ((h.matchesWith fn relax h' && v.matchesWith fn Relax.default v') =
        (h'.matchesWith fn relax h && v'.matchesWith fn Relax.default v)) ↔
          ¬(h.Lopsided fn relax h' ∧ v.matchesWith fn Relax.default v' = true)
      rw [← ihVertical, Bool.and_comm, Bool.and_comm (x := h'.matchesWith fn relax h),
        and_eq_and_iff, ihHorizontal]
      tauto
    | _ => exact iff_of_true rfl id

end

end Elementary

/-! ## Two methods of one name -/

def degrees (n : Nat) : F64 := (F64.ofUsize n).toRadians

/-- GRS 1980 on Greenwich. -/
def grs80 : Datum where
  key := "EPSG:6258"
  name := "European Terrestrial Reference System 1989"
  ellipsoid := ⟨F64.ofUsize 6378137, ⟨0x41583fc4141ae027⟩, ⟨0x3f7b6b90f43ee47a⟩, ⟨0x3fb4f21a3db6cd4a⟩⟩
  inverseFlattening := some ⟨0x4072a41d94ebf9a8⟩
  primeMeridian := F64.zero

/-- Easting and northing in metres. -/
def metres : List Axis :=
  [⟨(one, F64.zero), F64.zero, one⟩, ⟨(F64.zero, one), F64.zero, one⟩]

/-- A Lambert Conic Conformal (2SP) by its name, with a code and two parallels. -/
def conic (code first second : Nat) : Crs where
  kind := .projected grs80 ⟨"Lambert Conic Conformal (2SP)", some code,
    ⟨[(8821, degrees 46), (8822, degrees 3), (8823, degrees first), (8824, degrees second),
      (8826, F64.ofUsize 700000), (8827, F64.ofUsize 6600000)], []⟩⟩
  axes := metres
  bound := .unbound

theorem read_conic (code first second : Nat) : (conic code first second).Read := by
  refine ⟨⟨by decide +kernel, ?_, by decide⟩, ?_, by simp [metres], trivial⟩
  · intro rf hrf
    cases hrf
    decide
  · intro axis hmem
    simp only [metres, List.mem_cons, List.not_mem_nil, or_false] at hmem
    rcases hmem with rfl | rfl
    · exact ⟨by decide +kernel, by decide +kernel, by decide⟩
    · exact ⟨by decide +kernel, by decide +kernel, by decide⟩

theorem once_conic (code first second : Nat) : (conic code first second).Once :=
  ⟨trivial, trivial⟩

/-- Functions of their arguments alone. -/
def plain : Elementary := ⟨id, id, id, id, id, id, id, id, fun x _ => x, id⟩

end Xeibe.Reproject.Equivalent

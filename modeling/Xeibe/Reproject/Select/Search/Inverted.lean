import Xeibe.Reproject.Select.Search.Meeting
import Xeibe.Reproject.Select.Search.Names

/-!
# Candidates inverted twice

The inverse of a step swaps its ends and flips its direction, and gives it the name that the rule
for its kind of step gives: from its CRSs, from its operation, or from the name it had.  A candidate
inverted twice is the same again when every step has the name that rule leads back to.
-/

namespace Xeibe.Reproject.Select.Search

open Xeibe.Geom (F64)

section

variable (r : Registry)

/-- The name of a registry operation. -/
def registeredName (code : Nat) : String := ((r.op code).map (·.name)).getD ""

/-! ## The names that come back -/

/-- The step has the name that its inverse's inverse gets; `q` says so of the name of a combined
operation. -/
def Single.Named (q : String → Prop) (s : Single) : Prop :=
  match s.kind with
  | .registry code inverse =>
    s.name = if inverse then inverseOfName (registeredName r code) else registeredName r code
  | .projection _ inverse =>
    containsText (if inverse then bareName s.name else s.name) " + " = false ∧
      (inverse = true → startsWith s.name inverseOf = true)
  | .sameDatum => s.name = sameDatumName r s.src s.dst
  | .ensembleMember => s.name = opName r ensembleMemberName s.src s.dst
  | .verticalConversion => s.identified = true ∨ s.name = conversionName r s.src s.dst
  | .ballparkVertical => False
  | .composite _ _ => q s.name

mutual

def SingleKind.PartsNamed (q : String → Prop) : SingleKind → Prop
  | .composite parts _ => StepsNamed q parts
  | _ => True

/-- The step has such a name, and so do the parts of a combined operation. -/
def Single.AllNamed (q : String → Prop) : Single → Prop
  | ⟨kind, src, dst, name, accuracy, extent, conversion, identified, ballpark⟩ =>
    Single.Named r q ⟨kind, src, dst, name, accuracy, extent, conversion, identified, ballpark⟩ ∧
      kind.PartsNamed q

def StepsNamed (q : String → Prop) : List Single → Prop
  | [] => True
  | step :: steps => step.AllNamed q ∧ StepsNamed q steps

end

/-- A candidate of one step has its name; a registered concatenation the registered one or "Inverse
of" that; any other one its steps' names joined. -/
def Candidate.Named (c : Candidate) : Prop :=
  match c.steps with
  | [step] => c.name = step.name
  | steps =>
    match c.registry with
    | some (code, inverse) =>
      c.name = if inverse then inverseOfName (registeredName r code) else registeredName r code
    | none => c.name = concatenatedName steps

end

/-! ## Steps -/

section

variable {r : Registry}

/-- A combined operation's name is the inverse of its inverse. -/
def TwiceInverted (name : String) : Prop := inverseName (inverseName name true) true = name

theorem length_inverseOf : inverseOf.length = 11 := by decide

theorem length_quoted {name : String} :
    (inverseOf ++ quote.toString ++ name ++ quote.toString).length = name.length + 13 := by
  have hquote : quote.toString.length = 1 := by decide
  simp only [String.length_append, length_inverseOf]
  omega

theorem length_inverseOfName (name : String) : name.length < (inverseOfName name).length := by
  rw [inverseOfName]
  split
  · rw [length_quoted]
    omega
  · rw [String.length_append, length_inverseOf]
    omega

theorem inverseOfName_eq_append {name : String} :
    inverseOfName name = inverseOf ++ name ↔ containsText name " + " = false := by
  refine ⟨fun h => ?_, inverseOfName_of_not_contains⟩
  rw [← Bool.not_eq_true]
  intro hplus
  rw [inverseOfName, if_pos hplus] at h
  have hlength := congrArg String.length h
  rw [length_quoted, String.length_append, length_inverseOf] at hlength
  omega

theorem invertName_false (name : String) : invertName name false = inverseOfName name := by
  rw [invertName]
  split <;> rfl

theorem startsWith_inverseOfName (name : String) :
    startsWith (inverseOfName name) inverseOf = true := by
  rw [inverseOfName]
  split
  · rw [String.append_assoc, String.append_assoc]
    exact startsWith_append _ _
  · exact startsWith_append _ _

theorem bareName_eq {name rest : String} (h : startsWith name inverseOf = true) :
    bareName name = rest ↔ name = inverseOf ++ rest := by
  obtain ⟨back, rfl⟩ := startsWith_iff.1 h
  rw [bareName_append, String.append_right_inj]

theorem bareName_inverseOfName {name : String} :
    bareName (inverseOfName name) = name ↔ containsText name " + " = false := by
  rw [bareName_eq (startsWith_inverseOfName name), inverseOfName_eq_append]

theorem inverseOfName_bareName {name : String} :
    inverseOfName (bareName name) = name ↔
      containsText (bareName name) " + " = false ∧ startsWith name inverseOf = true := by
  by_cases hfront : startsWith name inverseOf = true
  · rw [and_iff_left hfront, ← inverseOfName_eq_append, (bareName_eq hfront).1 rfl, bareName_append]
  · rw [bareName_of_not_startsWith (Bool.not_eq_true _ ▸ hfront)]
    refine iff_of_false (fun h => ?_) (fun h => hfront h.2)
    exact absurd (congrArg String.length h) (length_inverseOfName name).ne'

theorem Single.name_inverse_inverse (s : Single) :
    ((s.inverse r).inverse r).name = s.name ↔ s.Named r TwiceInverted := by
  obtain ⟨kind, src, dst, name, accuracy, extent, conversion, identified, ballpark⟩ := s
  cases kind with
  | registry code inverse =>
    cases inverse with
    | false => exact eq_comm
    | true =>
      show invertName (registeredName r code) false = name ↔ name = inverseOfName _
      rw [invertName_false, eq_comm]
  | projection crs inverse =>
    cases inverse with
    | false =>
      show bareName (invertName name false) = name ↔ containsText name " + " = false ∧ _
      rw [invertName_false, bareName_inverseOfName]
      exact (and_iff_left Bool.noConfusion).symm
    | true =>
      show invertName (bareName name) false = name ↔ containsText (bareName name) " + " = false ∧ _
      rw [invertName_false, inverseOfName_bareName]
      exact and_congr_right fun _ => ⟨fun h _ => h, fun h => h rfl⟩
  | sameDatum => exact eq_comm
  | ensembleMember => exact eq_comm
  | verticalConversion =>
    cases identified with
    | false => exact eq_comm.trans (or_iff_right Bool.noConfusion).symm
    | true => exact iff_of_true rfl (.inl rfl)
  | ballparkVertical =>
    refine iff_of_false (fun h => ?_) id
    have htwice : inverseOfName (inverseOfName name) = name := h
    have hlength := (length_inverseOfName name).trans (length_inverseOfName _)
    rw [htwice] at hlength
    exact lt_irrefl _ hlength
  | composite parts saveHorizontal => rfl

theorem Single.inverse_inverse_eq (s : Single) :
    (s.inverse r).inverse r = s ↔
      ((s.inverse r).inverse r).name = s.name ∧ (s.kind.inverse r).inverse r = s.kind := by
  obtain ⟨kind, src, dst, name, accuracy, extent, conversion, identified, ballpark⟩ := s
  simp only [Single.inverse, Single.mk.injEq, and_true, true_and]
  exact and_comm

theorem inverseSteps_inverseSteps (steps : List Single) :
    inverseSteps r (inverseSteps r steps) = steps.map fun s => (s.inverse r).inverse r := by
  rw [inverseSteps_eq, inverseSteps_eq, ← List.map_reverse, List.reverse_reverse, List.map_map]
  rfl

mutual

theorem SingleKind.inverse_inverse_iff : ∀ kind : SingleKind,
    (kind.inverse r).inverse r = kind ↔ kind.PartsNamed r TwiceInverted
  | .registry code inverse => by simp [SingleKind.inverse, SingleKind.PartsNamed]
  | .projection crs inverse => by simp [SingleKind.inverse, SingleKind.PartsNamed]
  | .sameDatum => iff_of_true rfl trivial
  | .ensembleMember => iff_of_true rfl trivial
  | .verticalConversion => iff_of_true rfl trivial
  | .ballparkVertical => iff_of_true rfl trivial
  | .composite parts saveHorizontal => by
    rw [SingleKind.inverse, SingleKind.inverse, SingleKind.composite.injEq, and_iff_left rfl,
      SingleKind.PartsNamed]
    exact inverseSteps_inverse_iff parts

theorem Single.inverse_inverse_iff : ∀ s : Single,
    (s.inverse r).inverse r = s ↔ s.AllNamed r TwiceInverted
  | ⟨kind, src, dst, name, accuracy, extent, conversion, identified, ballpark⟩ => by
    rw [Single.inverse_inverse_eq, Single.name_inverse_inverse, Single.AllNamed]
    exact and_congr_right fun _ => SingleKind.inverse_inverse_iff kind

theorem inverseSteps_inverse_iff : ∀ steps : List Single,
    inverseSteps r (inverseSteps r steps) = steps ↔ StepsNamed r TwiceInverted steps
  | [] => iff_of_true rfl trivial
  | step :: steps => by
    rw [inverseSteps_inverseSteps, List.map_cons, List.cons.injEq, ← inverseSteps_inverseSteps,
      StepsNamed, Single.inverse_inverse_iff step, inverseSteps_inverse_iff steps]

end

/-! ## Candidates -/

theorem Candidate.name_inverse_single {c : Candidate} {s : Single} (h : c.steps = [s]) :
    (c.inverse r).name = (s.inverse r).name := by
  obtain ⟨name, src, dst, steps⟩ := c
  subst h
  rfl

/-- The name of the inverse of a candidate that has not just one step. -/
theorem Candidate.name_inverse {c : Candidate} (h : ∀ s, c.steps ≠ [s]) :
    (c.inverse r).name =
      match c.registry with
      | some (code, inverse) =>
        if inverse then registeredName r code else inverseOfName c.name
      | none => concatenatedName (inverseSteps r c.steps) := by
  rw [Candidate.inverse]
  dsimp only
  split
  · rename_i s _ _ hsteps _
    exact absurd hsteps (h s)
  · cases c.registry with
    | none => rfl
    | some op =>
      obtain ⟨code, inverse⟩ := op
      cases inverse with
      | true => rfl
      | false => exact invertName_false c.name

theorem Candidate.named_iff_single {c : Candidate} {s : Single} (h : c.steps = [s]) :
    c.Named r ↔ c.name = s.name := by
  rw [Candidate.Named, h]

theorem Candidate.named_iff {c : Candidate} (h : ∀ s, c.steps ≠ [s]) :
    c.Named r ↔
      match c.registry with
      | some (code, inverse) =>
        c.name = if inverse then inverseOfName (registeredName r code) else registeredName r code
      | none => c.name = concatenatedName c.steps := by
  rw [Candidate.Named]
  split
  · rename_i s hsteps
    exact absurd hsteps (h s)
  · rfl

theorem inverseSteps_ne {steps : List Single} (h : ∀ s, steps ≠ [s]) (s : Single) :
    inverseSteps r steps ≠ [s] := by
  intro hsteps
  have hlength : steps.length = 1 := by
    have hone := congrArg List.length hsteps
    rwa [inverseSteps_eq, List.length_map, List.length_reverse] at hone
  obtain ⟨other, hother⟩ := List.length_eq_one_iff.1 hlength
  exact h other hother

/-- The name comes back when the steps do. -/
theorem Candidate.name_inverse_inverse {c : Candidate}
    (hsteps : inverseSteps r (inverseSteps r c.steps) = c.steps) :
    ((c.inverse r).inverse r).name = c.name ↔ c.Named r := by
  by_cases hsingle : ∃ s, c.steps = [s]
  · obtain ⟨s, hs⟩ := hsingle
    rw [hs] at hsteps
    have hinverse : (c.inverse r).steps = [s.inverse r] := congrArg (inverseSteps r) hs
    rw [Candidate.name_inverse_single hinverse, Candidate.named_iff_single hs,
      (List.cons.inj hsteps).1, eq_comm]
  · rw [not_exists] at hsingle
    have hinverse : ∀ s, (c.inverse r).steps ≠ [s] := inverseSteps_ne hsingle
    have hregistry : (c.inverse r).registry = c.registry.map fun op => (op.1, !op.2) := rfl
    rw [Candidate.name_inverse hinverse, Candidate.named_iff hsingle, hregistry]
    cases h : c.registry with
    | some op =>
      obtain ⟨code, inverse⟩ := op
      cases inverse with
      | false => exact eq_comm
      | true =>
        show inverseOfName (c.inverse r).name = c.name ↔ c.name = inverseOfName _
        rw [Candidate.name_inverse hsingle, h]
        exact eq_comm
    | none =>
      show concatenatedName (inverseSteps r (inverseSteps r c.steps)) = c.name ↔ _
      rw [hsteps, eq_comm]

theorem Candidate.inverse_inverse_iff (c : Candidate) :
    (c.inverse r).inverse r = c ↔ StepsNamed r TwiceInverted c.steps ∧ c.Named r := by
  have hfields : (c.inverse r).inverse r = c ↔
      inverseSteps r (inverseSteps r c.steps) = c.steps ∧
        ((c.inverse r).inverse r).name = c.name := by
    constructor
    · intro h
      exact ⟨congrArg Candidate.steps h, congrArg Candidate.name h⟩
    · rintro ⟨hsteps, hname⟩
      have hregistry :
          ((c.registry.map fun op => (op.1, !op.2)).map fun op => (op.1, !op.2)) = c.registry := by
        cases c.registry with
        | none => rfl
        | some op => exact congrArg some (Prod.ext rfl (Bool.not_not _))
      have hinverse : (c.inverse r).inverse r =
          { c with
            name := ((c.inverse r).inverse r).name
            steps := inverseSteps r (inverseSteps r c.steps)
            registry := (c.registry.map fun op => (op.1, !op.2)).map fun op => (op.1, !op.2) } :=
        rfl
      rw [hinverse, hname, hsteps, hregistry]
  rw [hfields, inverseSteps_inverse_iff]
  exact and_congr_right fun h =>
    Candidate.name_inverse_inverse ((inverseSteps_inverse_iff c.steps).2 h)

/-! ## Marks of null transformations -/

variable (r) in
/-- A CRS's name as it stands in the name of an operation between it and another one. -/
def label (crs other : CrsRef) : String :=
  r.name crs ++
    if r.name crs = r.name other ∧ qualifier (r.kind crs) ≠ qualifier (r.kind other) then
      qualifier (r.kind crs)
    else ""

variable (r) in
/-- The joint is in the name of an operation between two CRSs whichever comes first: in one of
their names, or at the end of both. -/
def EndAlike (src dst : CrsRef) : Prop :=
  containsText (" " ++ label r src dst) " + " = true ∨
    containsText (" " ++ label r dst src) " + " = true ∨
      (" +".toList <:+ (" " ++ label r src dst).toList ↔
        " +".toList <:+ (" " ++ label r dst src).toList)

variable (r) in
/-- The name of the step's inverse marks a null transformation if the step's does. -/
def Single.KeepsMark (s : Single) : Prop :=
  match s.kind with
  | .registry code _ => isNullTransformation (registeredName r code) = false
  | .projection _ inverse =>
    isNullTransformation (if inverse then bareName s.name else s.name) = false
  | .sameDatum =>
    (r.kind s.src = .geocentric ↔ r.kind s.dst = .geocentric) → EndAlike r s.src s.dst
  | .composite _ _ => isNullTransformation (bareName s.name) = false
  | _ => True

variable (r) in
def Candidate.KeepsMark (c : Candidate) : Prop :=
  match c.steps with
  | [step] => step.KeepsMark r
  | _ =>
    match c.registry with
    | some (code, _) => isNullTransformation (registeredName r code) = false
    | none => True

theorem opName_eq (opType : String) (src dst : CrsRef) :
    opName r opType src dst =
      opType ++ " from " ++ label r src dst ++ " to " ++ label r dst src := by
  have hqualified : (r.name dst = r.name src ∧ qualifier (r.kind dst) ≠ qualifier (r.kind src)) =
      (r.name src = r.name dst ∧ qualifier (r.kind src) ≠ qualifier (r.kind dst)) := by
    rw [eq_comm (a := r.name dst), ne_comm (a := qualifier (r.kind dst))]
  rw [opName, label, label]
  simp only [hqualified, String.append_assoc]

theorem infix_append_cons {p l m : List Char} {x : Char} (hp : p ≠ []) (hx : x ∉ p) :
    p <:+: l ++ x :: m ↔ p <:+: l ∨ p <:+: m := by
  induction l with
  | nil =>
    have hprefix : ¬p <+: x :: m := by
      obtain ⟨c, p, rfl⟩ := List.exists_cons_of_ne_nil hp
      intro h
      exact hx ((List.cons_prefix_cons.1 h).1 ▸ List.mem_cons_self)
    rw [List.nil_append, List.infix_cons_iff, List.infix_nil, or_iff_right hprefix, or_iff_right hp]
  | cons y l ih =>
    have hprefix : p <+: y :: l ++ x :: m ↔ p <+: y :: l := by
      refine ⟨fun h => ?_, fun h => h.trans (List.prefix_append _ _)⟩
      rcases List.prefix_or_prefix_of_prefix h (List.prefix_append (y :: l) (x :: m)) with
        hshort | ⟨back, rfl⟩
      · exact hshort
      · cases back with
        | nil => rw [List.append_nil]
        | cons z back =>
          rw [List.prefix_append_right_inj, List.cons_prefix_cons] at h
          exact absurd (h.1 ▸ List.mem_append_right _ List.mem_cons_self) hx
    rw [List.cons_append, List.infix_cons_iff, ← List.cons_append, hprefix, ih, List.infix_cons_iff,
      or_assoc]

theorem joint_infix_concat {l : List Char} :
    joint <:+: l ++ [' '] ↔ [' ', '+'] <:+ l ∨ joint <:+: l := by
  rw [List.infix_concat_iff, List.suffix_concat_iff]
  refine or_congr_left ⟨?_, fun h => .inr ⟨[' ', '+'], rfl, h⟩⟩
  rintro (h | ⟨t, ht, hsuffix⟩)
  · cases h
  · have hfront : [' ', '+'] ++ [' '] = t ++ [' '] := ht
    rwa [List.append_cancel_right hfront]

/-- Where the joint is in the name of an operation between two CRSs. -/
theorem containsText_opName {opType : String} (hopType : ¬joint <:+: (opType ++ " fro").toList)
    (src dst : CrsRef) :
    containsText (opName r opType src dst) " + " = true ↔
      (" +".toList <:+ (" " ++ label r src dst).toList ∨
        containsText (" " ++ label r src dst) " + " = true) ∨
      containsText (" " ++ label r dst src) " + " = true := by
  have hne : joint ≠ [] := List.cons_ne_nil _ _
  have htext : (opName r opType src dst).toList =
      (opType ++ " fro").toList ++ 'm' :: ((" " ++ label r src dst).toList ++ [' '] ++
        't' :: ([] ++ 'o' :: (" " ++ label r dst src).toList)) := by
    rw [opName_eq]
    simp
  rw [containsText_iff, containsText_iff, containsText_iff, htext]
  show joint <:+: _ ↔ ([' ', '+'] <:+ _ ∨ joint <:+: _) ∨ joint <:+: _
  rw [infix_append_cons hne (show 'm' ∉ joint by decide),
    infix_append_cons hne (show 't' ∉ joint by decide),
    infix_append_cons hne (show 'o' ∉ joint by decide), joint_infix_concat,
    or_iff_right hopType, List.infix_nil, or_iff_right hne]

theorem containsText_opName_comm {opType : String} (hopType : ¬joint <:+: (opType ++ " fro").toList)
    (src dst : CrsRef) :
    containsText (opName r opType dst src) " + " = containsText (opName r opType src dst) " + " ↔
      EndAlike r src dst := by
  rw [Bool.eq_iff_iff, containsText_opName hopType, containsText_opName hopType, EndAlike]
  tauto

theorem isNullTransformation_opName {opType : String}
    (hopType : opType = nullGeocentricTranslation ∨ opType = nullGeographicOffset)
    (src dst : CrsRef) :
    isNullTransformation (opName r opType src dst) =
      !containsText (opName r opType src dst) " + " := by
  have hstarts : startsWith (opName r opType src dst) opType = true := by
    rw [opName_eq, String.append_assoc, String.append_assoc, String.append_assoc]
    exact startsWith_append _ _
  rw [isNullTransformation]
  refine (Bool.and_eq_left_iff_imp.2 fun _ => List.any_eq_true.2 ⟨opType, ?_, hstarts⟩)
  rcases hopType with rfl | rfl
  · decide
  · decide

theorem isNullTransformation_opName_comm {opType : String}
    (hopType : opType = nullGeocentricTranslation ∨ opType = nullGeographicOffset)
    (src dst : CrsRef) :
    isNullTransformation (opName r opType dst src) =
        isNullTransformation (opName r opType src dst) ↔
      EndAlike r src dst := by
  have hjoint : ¬joint <:+: (opType ++ " fro").toList := by
    rcases hopType with rfl | rfl
    · decide
    · decide
  rw [isNullTransformation_opName hopType, isNullTransformation_opName hopType,
    Bool.not_inj_iff, containsText_opName_comm hjoint]

theorem not_isNullTransformation_of_head {name : String} {c : Char} (h : name.toList.head? = some c)
    (hB : c ≠ 'B') (hN : c ≠ 'N') : isNullTransformation name = false := by
  rw [Bool.eq_false_iff]
  intro hnull
  obtain hhead | hhead := head_of_isNullTransformation hnull
  · exact hB (Option.some.inj (h.symm.trans hhead))
  · exact hN (Option.some.inj (h.symm.trans hhead))

theorem not_isNullTransformation_append {front : String} {c : Char}
    (h : front.toList.head? = some c) (hB : c ≠ 'B') (hN : c ≠ 'N') (rest : String) :
    isNullTransformation (front ++ rest) = false := by
  refine not_isNullTransformation_of_head ?_ hB hN
  rw [String.toList_append, List.head?_append, h]
  rfl

theorem not_isNullTransformation_opName {opType : String} {c : Char}
    (h : opType.toList.head? = some c) (hB : c ≠ 'B') (hN : c ≠ 'N') (src dst : CrsRef) :
    isNullTransformation (opName r opType src dst) = false := by
  rw [opName_eq, String.append_assoc, String.append_assoc, String.append_assoc]
  exact not_isNullTransformation_append h hB hN _

theorem not_isNullTransformation_conversionName (src dst : CrsRef) :
    isNullTransformation (conversionName r src dst) = false := by
  have hname : conversionName r src dst =
      "Conversion from " ++ r.name src ++ " to " ++ r.name dst := rfl
  refine not_isNullTransformation_of_head ?_ (show 'C' ≠ 'B' by decide) (by decide)
  rw [hname]
  simp

theorem isNullTransformation_sameDatumName_comm (src dst : CrsRef) :
    isNullTransformation (sameDatumName r dst src) =
        isNullTransformation (sameDatumName r src dst) ↔
      ((r.kind src = .geocentric ↔ r.kind dst = .geocentric) → EndAlike r src dst) := by
  by_cases hsrc : r.kind src = .geocentric
  · by_cases hdst : r.kind dst = .geocentric
    · rw [forall_prop_of_true (iff_of_true hsrc hdst),
        ← isNullTransformation_opName_comm (.inl rfl)]
      simp [sameDatumName, hsrc, hdst]
    · have hnull (a b : CrsRef) : isNullTransformation (opName r "Conversion" a b) = false :=
        not_isNullTransformation_opName rfl (by decide) (by decide) a b
      refine iff_of_true ?_ fun h => absurd (h.1 hsrc) hdst
      simp [sameDatumName, hsrc, hdst, hnull]
  · by_cases hdst : r.kind dst = .geocentric
    · have hnull (a b : CrsRef) : isNullTransformation (opName r "Conversion" a b) = false :=
        not_isNullTransformation_opName rfl (by decide) (by decide) a b
      refine iff_of_true ?_ fun h => absurd (h.2 hdst) hsrc
      simp [sameDatumName, hsrc, hdst, hnull]
    · rw [forall_prop_of_true (iff_of_false hsrc hdst),
        ← isNullTransformation_opName_comm (.inr rfl)]
      simp [sameDatumName, hsrc, hdst]

theorem isNullTransformation_inverseOfName (name : String) :
    isNullTransformation (inverseOfName name) = false := by
  obtain ⟨rest, hrest⟩ := startsWith_iff.1 (startsWith_inverseOfName name)
  rw [hrest, isNullTransformation_inverseOf]

/-- The mark of a step with a name that comes back. -/
theorem Single.keepsMark_iff {s : Single} (h : s.Named r TwiceInverted) :
    isNullTransformation (s.inverse r).name = isNullTransformation s.name ↔ s.KeepsMark r := by
  obtain ⟨kind, src, dst, name, accuracy, extent, conversion, identified, ballpark⟩ := s
  cases kind with
  | registry code inverse =>
    cases inverse with
    | false =>
      obtain rfl : name = registeredName r code := h
      show isNullTransformation (invertName _ false) = _ ↔ _ = false
      rw [invertName_false, isNullTransformation_inverseOfName, eq_comm]
    | true =>
      obtain rfl : name = inverseOfName (registeredName r code) := h
      show isNullTransformation (registeredName r code) = _ ↔ _ = false
      rw [isNullTransformation_inverseOfName]
  | projection crs inverse =>
    cases inverse with
    | false =>
      show isNullTransformation (invertName name false) = _ ↔ isNullTransformation name = false
      rw [invertName_false, isNullTransformation_inverseOfName, eq_comm]
    | true =>
      obtain ⟨rest, rfl⟩ := startsWith_iff.1 (h.2 rfl)
      show isNullTransformation (bareName (inverseOf ++ rest)) = _ ↔
        isNullTransformation (bareName (inverseOf ++ rest)) = false
      rw [isNullTransformation_inverseOf]
  | sameDatum =>
    obtain rfl : name = sameDatumName r src dst := h
    exact isNullTransformation_sameDatumName_comm src dst
  | ensembleMember =>
    obtain rfl : name = opName r ensembleMemberName src dst := h
    have hnull (a b : CrsRef) : isNullTransformation (opName r ensembleMemberName a b) = false :=
      not_isNullTransformation_opName rfl (by decide) (by decide) a b
    exact iff_of_true ((hnull dst src).trans (hnull src dst).symm) trivial
  | verticalConversion =>
    refine iff_of_true ?_ trivial
    cases identified with
    | false =>
      have hname : name = conversionName r src dst := h.resolve_left Bool.noConfusion
      show isNullTransformation (conversionName r dst src) = isNullTransformation name
      rw [hname, not_isNullTransformation_conversionName, not_isNullTransformation_conversionName]
    | true => rfl
  | ballparkVertical => exact h.elim
  | composite parts saveHorizontal => exact isNullTransformation_inverseName name

theorem isNullTransformation_concatenatedName {steps : List Single} (h : ∀ s, steps ≠ [s]) :
    isNullTransformation (concatenatedName steps) = false := by
  match steps with
  | [] => decide
  | [s] => exact absurd rfl (h s)
  | first :: second :: rest =>
    exact isNullTransformation_of_contains (contains_join (by simp))

theorem Single.AllNamed.named {q : String → Prop} {s : Single} (h : s.AllNamed r q) :
    s.Named r q := by
  cases s
  exact h.1

/-- The mark of a candidate that comes back. -/
theorem Candidate.keepsMark_iff {c : Candidate} (hsteps : StepsNamed r TwiceInverted c.steps)
    (hname : c.Named r) :
    isNullTransformation (c.inverse r).name = isNullTransformation c.name ↔ c.KeepsMark r := by
  by_cases hsingle : ∃ s, c.steps = [s]
  · obtain ⟨s, hs⟩ := hsingle
    rw [hs] at hsteps
    rw [Candidate.name_inverse_single hs, (Candidate.named_iff_single hs).1 hname,
      Single.keepsMark_iff hsteps.1.named, Candidate.KeepsMark, hs]
  · rw [not_exists] at hsingle
    have hmark : c.KeepsMark r ↔
        match c.registry with
        | some (code, _) => isNullTransformation (registeredName r code) = false
        | none => True := by
      rw [Candidate.KeepsMark]
      split
      · rename_i s hs
        exact absurd hs (hsingle s)
      · rfl
    rw [Candidate.named_iff hsingle] at hname
    rw [Candidate.name_inverse hsingle, hmark]
    match h : c.registry with
    | some (code, false) =>
      rw [h] at hname
      obtain hname : c.name = registeredName r code := hname
      show isNullTransformation (inverseOfName c.name) = isNullTransformation c.name ↔ _ = false
      rw [isNullTransformation_inverseOfName, hname, eq_comm]
    | some (code, true) =>
      rw [h] at hname
      obtain hname : c.name = inverseOfName (registeredName r code) := hname
      show isNullTransformation (registeredName r code) = isNullTransformation c.name ↔ _ = false
      rw [hname, isNullTransformation_inverseOfName]
    | none =>
      rw [h] at hname
      refine iff_of_true ?_ trivial
      show isNullTransformation (concatenatedName (inverseSteps r c.steps)) = _
      rw [hname, isNullTransformation_concatenatedName (inverseSteps_ne hsingle),
        isNullTransformation_concatenatedName hsingle]

/-! ## When a candidate comes back -/

mutual

theorem SingleKind.PartsNamed.mono {q q' : String → Prop} (hq : ∀ name, q name → q' name) :
    ∀ {kind : SingleKind}, kind.PartsNamed r q → kind.PartsNamed r q'
  | .composite _ _, h => StepsNamed.mono hq h
  | .registry _ _, _ => trivial
  | .projection _ _, _ => trivial
  | .sameDatum, _ => trivial
  | .ensembleMember, _ => trivial
  | .verticalConversion, _ => trivial
  | .ballparkVertical, _ => trivial

theorem Single.AllNamed.mono {q q' : String → Prop} (hq : ∀ name, q name → q' name) :
    ∀ {s : Single}, s.AllNamed r q → s.AllNamed r q'
  | ⟨kind, _, _, _, _, _, _, _, _⟩, h => by
    refine ⟨?_, SingleKind.PartsNamed.mono hq h.2⟩
    cases kind with
    | composite parts _ => exact hq _ h.1
    | _ => exact h.1

theorem StepsNamed.mono {q q' : String → Prop} (hq : ∀ name, q name → q' name) :
    ∀ {steps : List Single}, StepsNamed r q steps → StepsNamed r q' steps
  | [], _ => trivial
  | _ :: _, h => ⟨Single.AllNamed.mono hq h.1, StepsNamed.mono hq h.2⟩

end

variable (r) in
/-- Every name is the one that its rule leads back to, `q` says so of the combined operations', and
the inverse keeps the mark of a null transformation. -/
structure Candidate.Restores (q : String → Prop) (c : Candidate) : Prop where
  steps : StepsNamed r q c.steps
  name : c.Named r
  mark : c.KeepsMark r

variable (r) in
/-- A candidate inverted twice is the same candidate and its inverse keeps the mark of a null
transformation if its names come back; and only if they do, combined operations' names aside. -/
theorem Candidate.inverse_involutive (c : Candidate) :
    (c.Restores r ComesBack →
      (c.inverse r).inverse r = c ∧
        isNullTransformation (c.inverse r).name = isNullTransformation c.name) ∧
    ((c.inverse r).inverse r = c ∧
        isNullTransformation (c.inverse r).name = isNullTransformation c.name →
      c.Restores r fun _ => True) := by
  constructor
  · rintro ⟨hsteps, hname, hmark⟩
    have hnamed : StepsNamed r TwiceInverted c.steps := hsteps.mono fun _ => inverseName_inverseName
    exact ⟨(Candidate.inverse_inverse_iff c).2 ⟨hnamed, hname⟩,
      (Candidate.keepsMark_iff hnamed hname).2 hmark⟩
  · rintro ⟨hinverse, hmark⟩
    obtain ⟨hnamed, hname⟩ := (Candidate.inverse_inverse_iff c).1 hinverse
    exact ⟨hnamed.mono fun _ _ => trivial, hname, (Candidate.keepsMark_iff hnamed hname).1 hmark⟩

end

/-- A route by way of a vertical CRS, in one. -/
def throughHeights : Candidate :=
  Candidate.single sampleRegistry
    { kind := .composite
        [(sampleOperation 1001 .other 1 31 []).single false,
          (sampleOperation 1002 .other 32 2 []).single true] false
      src := .epsg 1
      dst := .epsg 2
      name := "A to B + Inverse of A to B"
      accuracy := F64.zero
      extent := some world
      isConversion := false
      identified := false
      ballpark := false }

theorem comesBack_throughHeights : ComesBack "A to B + Inverse of A to B" := by
  have hsplit : splitNames "A to B + Inverse of A to B".toList false [] =
      ["A to B", "Inverse of A to B"] := by decide
  rw [ComesBack, hsplit]
  refine ⟨?_, show splitNames _ _ _ = _ by decide, ?_⟩
  · intro part hpart
    fin_cases hpart
    · exact ⟨by decide, by decide, by decide⟩
    · exact ⟨by decide, by decide, by decide⟩
  · intro part hpart
    fin_cases hpart
    show splitNames _ _ _ = _
    decide

theorem inverse_involutive_throughHeights :
    (throughHeights.inverse sampleRegistry).inverse sampleRegistry = throughHeights ∧
      isNullTransformation (throughHeights.inverse sampleRegistry).name =
        isNullTransformation throughHeights.name :=
  (Candidate.inverse_involutive sampleRegistry throughHeights).1
    { steps := by
        refine ⟨⟨?_, ⟨?_, trivial⟩, ⟨?_, trivial⟩, trivial⟩, trivial⟩
        · exact comesBack_throughHeights
        · show "A to B" = registeredName sampleRegistry 1001
          decide
        · show invertName "A to B" false = inverseOfName (registeredName sampleRegistry 1002)
          decide
      name := rfl
      mark := by
        show isNullTransformation (bareName "A to B + Inverse of A to B") = false
        decide }

/-! ## A change of the axis order -/

/-- Two CRSs on one datum, one with the latitude first and one with the longitude first. -/
def axisRegistry : Registry where
  ops := []
  geodetic := [⟨1, "A", .geographic2d, 101, false⟩, ⟨2, "B", .geographic2d, 101, false⟩]
  vertical := []
  datums := []
  crsExtent := []
  records := [⟨1, "A", true, .geodetic⟩, ⟨2, "B", false, .geodetic⟩]
  ops_nodup := by decide
  codes_nodup := by decide
  steps_known := Registry.steps_known_nil
  base_geodetic := by
    intro record hrecord base name code hkind
    fin_cases hrecord
    · cases hkind
    · cases hkind
  parts_simple := by
    intro record hrecord h v hkind
    fin_cases hrecord
    · cases hkind
    · cases hkind
  members_ne := Registry.members_ne_nil

/-- What the search finds between the two CRSs. -/
def axisOperations : List Candidate :=
  createOperations axisRegistry sampleCatalogue (fun _ _ _ _ _ => []) (.epsg 1) (.epsg 2)
    .projData .unlimited

theorem axisOperations_names :
    axisOperations.map (fun c =>
      (c.name, (c.inverse axisRegistry).name,
        ((c.inverse axisRegistry).inverse axisRegistry).name)) =
      [("axis order change (2D)", "Null geographic offset from B to A",
        "Null geographic offset from A to B")] := by
  decide +kernel

/-- The change of the axis order becomes a null transformation. -/
theorem axisOperations_not_involutive :
    ¬∀ c ∈ axisOperations, (c.inverse axisRegistry).inverse axisRegistry = c ∧
      isNullTransformation (c.inverse axisRegistry).name = isNullTransformation c.name := by
  intro h
  have hnames := axisOperations_names
  obtain ⟨c, rest, hc, hname, -⟩ := List.map_eq_cons_iff.1 hnames
  obtain ⟨hname, -, hagain⟩ : c.name = "axis order change (2D)" ∧
      (c.inverse axisRegistry).name = "Null geographic offset from B to A" ∧
      ((c.inverse axisRegistry).inverse axisRegistry).name =
        "Null geographic offset from A to B" := by
    simpa only [Prod.mk.injEq] using hname
  obtain ⟨hsame, -⟩ := h c (hc ▸ List.mem_cons_self)
  rw [hsame, hname] at hagain
  exact absurd hagain (by decide)

end Xeibe.Reproject.Select.Search

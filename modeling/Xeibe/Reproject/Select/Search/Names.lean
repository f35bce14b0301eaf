import Xeibe.Reproject.Select.Search.Filter

/-!
# The names of inverses

What comes back when a name is inverted twice: a simple name does when `inverseOfName` does not
join it to something, a combined one when its parts' inverses, written one after the other, come
apart where they were joined.
-/

namespace Xeibe.Reproject.Select.Search

/-- What is between the names of a combined one. -/
def joint : List Char := [' ', '+', ' ']

/-! ## Fronts -/

theorem stripPrefix_eq_some {front text rest : String} :
    stripPrefix front text = some rest ↔ text = front ++ rest := by
  rw [stripPrefix, ← @String.toList_inj text, String.toList_append]
  constructor
  · intro h
    split at h
    · rename_i hprefix
      obtain ⟨back, hback⟩ := hprefix
      rw [← hback, List.drop_left, Option.some.injEq] at h
      rw [← hback, ← h, String.toList_ofList]
    · cases h
  · intro h
    rw [if_pos ⟨_, h.symm⟩, h, List.drop_left, String.ofList_toList]

@[simp] theorem stripPrefix_append (front rest : String) :
    stripPrefix front (front ++ rest) = some rest := stripPrefix_eq_some.2 rfl

theorem startsWith_iff {text front : String} :
    startsWith text front = true ↔ ∃ rest, text = front ++ rest := by
  rw [startsWith, decide_eq_true_iff]
  constructor
  · rintro ⟨back, hback⟩
    refine ⟨String.ofList back, ?_⟩
    rw [← String.toList_inj, String.toList_append, String.toList_ofList, hback]
  · rintro ⟨rest, rfl⟩
    rw [String.toList_append]
    exact List.prefix_append _ _

theorem stripPrefix_eq_none {front text : String} :
    stripPrefix front text = none ↔ startsWith text front = false := by
  rw [← Bool.not_eq_true, startsWith_iff, Option.eq_none_iff_forall_ne_some]
  simp only [ne_eq, stripPrefix_eq_some, not_exists]

theorem containsText_iff {text part : String} :
    containsText text part = true ↔ part.toList <:+: text.toList := decide_eq_true_iff

/-! ## Taking a name apart -/

/-- The text goes on with another name. -/
def GoesOn (cs : List Char) : Prop := joint <+: cs ∧ 3 < cs.length

theorem splitNames_joint (c : Char) (rest cur : List Char) :
    splitNames (' ' :: '+' :: ' ' :: c :: rest) false cur =
      String.ofList cur.reverse :: splitNames (c :: rest) false [] := rfl

theorem splitNames_cons {c : Char} {rest cur : List Char} {inString : Bool}
    (h : inString = true ∨ ¬GoesOn (c :: rest)) :
    splitNames (c :: rest) inString cur =
      splitNames rest (inString != (c == quote)) (c :: cur) := by
  rw [splitNames.eq_def]
  split
  · contradiction
  · rename_i heq
    rcases h with h | h
    · cases h
    · exact absurd ⟨heq ▸ ⟨_, rfl⟩, heq ▸ by simp⟩ h
  · rename_i heq _
    cases heq
    rfl

theorem splitNames_eq_nil {cs cur : List Char} {inString : Bool}
    (h : splitNames cs inString cur = []) : cs = [] ∧ cur = [] := by
  fun_induction splitNames cs inString cur with
  | case1 inString cur hempty => exact ⟨rfl, List.isEmpty_iff.1 hempty⟩
  | case2 => cases h
  | case3 => cases h
  | case4 c rest inString cur _ ih => exact absurd (ih h).2 (List.cons_ne_nil _ _)

theorem toList_join_splitNames (cs cur : List Char) (inString : Bool) :
    (String.intercalate " + " (splitNames cs inString cur)).toList = cur.reverse ++ cs := by
  fun_induction splitNames cs inString cur with
  | case1 inString cur hempty => rw [List.isEmpty_iff.1 hempty]; rfl
  | case2 inString cur hempty => simp
  | case3 c rest cur ih =>
    have hne : splitNames (c :: rest) false [] ≠ [] := fun h => by cases (splitNames_eq_nil h).1
    rw [String.intercalate_cons_of_ne_nil hne, String.toList_append, String.toList_append, ih]
    simp
  | case4 c rest inString cur _ ih => rw [ih]; simp

theorem join_splitNames (name : String) :
    String.intercalate " + " (splitNames name.toList false []) = name := by
  rw [← String.toList_inj, toList_join_splitNames, List.reverse_nil, List.nil_append]

/-- A name is cut off again from what it is joined to. -/
def CutsOff (name : String) : Prop :=
  splitNames (name.toList ++ joint ++ ['x']) false [] = [name, "x"]

theorem goesOn_joined {c d : Char} {text rest : List Char} :
    GoesOn (c :: text ++ joint ++ d :: rest) ↔ GoesOn (c :: text ++ joint ++ ['x']) := by
  have hprefix (back : List Char) :
      joint <+: c :: text ++ joint ++ back ↔ joint <+: c :: text ++ joint :=
    ⟨fun h => List.prefix_of_prefix_length_le h (List.prefix_append _ _) (by simp [joint]),
      fun h => h.trans (List.prefix_append _ _)⟩
  have hlength (e : Char) (back : List Char) : 3 < (c :: text ++ joint ++ e :: back).length := by
    simp only [List.cons_append, List.length_cons, List.length_append, joint]
    omega
  rw [GoesOn, GoesOn, hprefix, hprefix]
  exact and_congr_right fun _ => iff_of_true (hlength d rest) (hlength 'x' [])

/-- What a name is joined to does not matter for where it is cut off. -/
theorem splitNames_joined {text cur : List Char} {inString : Bool}
    (h : splitNames (text ++ joint ++ ['x']) inString cur =
      [String.ofList (cur.reverse ++ text), "x"]) (d : Char) (rest : List Char) :
    splitNames (text ++ joint ++ d :: rest) inString cur =
      String.ofList (cur.reverse ++ text) :: splitNames (d :: rest) false [] := by
  induction text generalizing inString cur with
  | nil =>
    cases inString with
    | false => rw [List.append_nil]; rfl
    | true => exact absurd (show 1 = 2 from congrArg List.length h) (by decide)
  | cons c text ih =>
    by_cases hstring : inString = true ∨ ¬GoesOn (c :: text ++ joint ++ ['x'])
    · have hshift : cur.reverse ++ c :: text = (c :: cur).reverse ++ text := by simp
      have hcut := (splitNames_cons hstring).symm.trans h
      have hstring' : inString = true ∨ ¬GoesOn (c :: (text ++ joint ++ d :: rest)) :=
        hstring.imp_right (mt goesOn_joined.1)
      rw [hshift] at hcut
      rw [List.cons_append, List.cons_append, hshift, splitNames_cons hstring', ih hcut]
    · -- the name would end here already
      rw [not_or, not_not, Bool.not_eq_true] at hstring
      obtain ⟨rfl, ⟨back, hback⟩, hlength⟩ := hstring
      cases back with
      | nil => rw [← hback] at hlength; exact absurd hlength (by simp [joint])
      | cons e back =>
        rw [← hback] at h
        have hhead : String.ofList cur.reverse = String.ofList (cur.reverse ++ c :: text) :=
          (List.cons.inj h).1
        have := congrArg (List.length ∘ String.toList) hhead
        simp at this

theorem CutsOff.splitNames {name : String} (h : CutsOff name) {rest : List Char}
    (hrest : rest ≠ []) :
    Search.splitNames (name.toList ++ joint ++ rest) false [] =
      name :: Search.splitNames rest false [] := by
  obtain ⟨d, rest, rfl⟩ := List.exists_cons_of_ne_nil hrest
  have hcut : Search.splitNames (name.toList ++ joint ++ ['x']) false [] =
      [String.ofList ([].reverse ++ name.toList), "x"] := by
    rw [h, List.reverse_nil, List.nil_append, String.ofList_toList]
  have hjoined := splitNames_joined hcut d rest
  rwa [List.reverse_nil, List.nil_append, String.ofList_toList] at hjoined

/-- A name is not cut. -/
def Whole (name : String) : Prop := splitNames name.toList false [] = [name]

theorem splitNames_join {names : List String} {last : String}
    (hnames : ∀ name ∈ names, CutsOff name) (hlast : Whole last) :
    splitNames (String.intercalate " + " (names ++ [last])).toList false [] = names ++ [last] := by
  induction names with
  | nil => rw [List.nil_append, String.intercalate_singleton, hlast]
  | cons name names ih =>
    have hne : names ++ [last] ≠ [] := by simp
    have hrest := ih fun other h => hnames other (List.mem_cons_of_mem _ h)
    rw [List.cons_append, String.intercalate_cons_of_ne_nil hne, String.toList_append,
      String.toList_append]
    refine ((hnames name List.mem_cons_self).splitNames ?_).trans (by rw [hrest])
    intro hempty
    rw [hempty] at hrest
    exact hne hrest.symm

theorem splitNames_cur {cs : List Char} (hcs : cs ≠ []) (inString : Bool) (cur : List Char) :
    splitNames cs inString cur =
      (splitNames cs inString []).modifyHead (String.ofList cur.reverse ++ ·) := by
  induction cs generalizing inString cur with
  | nil => exact absurd rfl hcs
  | cons c cs ih =>
    by_cases h : inString = true ∨ ¬GoesOn (c :: cs)
    · rw [splitNames_cons h, splitNames_cons h]
      cases cs with
      | nil => simp [splitNames]
      | cons d cs =>
        rw [ih (by simp), ih (by simp) _ [c], List.modifyHead_modifyHead]
        congr 1
        funext other
        rw [Function.comp_apply, ← String.append_assoc]
        simp
    · rw [not_or, not_not, Bool.not_eq_true] at h
      obtain ⟨rfl, ⟨back, hback⟩, hlength⟩ := h
      rw [← hback] at hlength ⊢
      cases back with
      | nil => exact absurd hlength (by simp [joint])
      | cons e back => simp [joint, splitNames_joint]

theorem splitNames_goesOn {cs : List Char} (h : GoesOn cs) (cur : List Char) :
    ∃ other others, splitNames cs false cur = String.ofList cur.reverse :: other :: others := by
  obtain ⟨⟨back, rfl⟩, hlength⟩ := h
  cases back with
  | nil => exact absurd hlength (by simp [joint])
  | cons c back =>
    cases hrest : splitNames (c :: back) false [] with
    | nil => cases (splitNames_eq_nil hrest).1
    | cons other others =>
      exact ⟨other, others, (splitNames_joint c back cur).trans (by rw [hrest])⟩

theorem splitNames_drop {front rest cur : List Char} (hrest : rest ≠ []) (hfront : quote ∉ front)
    (h : splitNames (front ++ rest) false cur = [String.ofList (cur.reverse ++ (front ++ rest))]) :
    splitNames rest false [] = [String.ofList rest] := by
  induction front generalizing cur with
  | nil =>
    rw [List.nil_append, splitNames_cur hrest] at h
    cases hsplit : splitNames rest false [] with
    | nil => exact absurd (splitNames_eq_nil hsplit).1 hrest
    | cons other others =>
      rw [hsplit, List.modifyHead_cons, List.cons.injEq, String.ofList_append] at h
      rw [h.2, (String.append_right_inj _).1 h.1]
  | cons c front ih =>
    rw [List.mem_cons, not_or] at hfront
    have hgoesOn : ¬GoesOn (c :: (front ++ rest)) := by
      intro hgoesOn
      obtain ⟨other, others, hmore⟩ := splitNames_goesOn hgoesOn cur
      rw [List.cons_append, hmore] at h
      cases (List.cons.inj h).2
    have hquote : (c == quote) = false := beq_eq_false_iff_ne.2 (Ne.symm hfront.1)
    rw [List.cons_append, splitNames_cons (.inr hgoesOn), hquote] at h
    exact ih hfront.2 (h.trans (by simp))

theorem Whole.drop {front rest : String} (h : Whole (front ++ rest)) (hrest : rest ≠ "")
    (hfront : quote ∉ front.toList) : Whole rest := by
  have hne : rest.toList ≠ [] := fun hempty => hrest (String.toList_eq_nil_iff.1 hempty)
  have hsplit : splitNames (front.toList ++ rest.toList) false [] =
      [String.ofList ([].reverse ++ (front.toList ++ rest.toList))] := by
    rw [← String.toList_append, h, List.reverse_nil, List.nil_append, String.ofList_toList]
  rw [Whole, splitNames_drop hne hfront hsplit, String.ofList_toList]

theorem contains_join {names : List String} (h : 1 < names.length) :
    containsText (String.intercalate " + " names) " + " = true := by
  match names, h with
  | first :: second :: rest, _ =>
    rw [String.intercalate_cons_cons, containsText_iff, String.toList_append, String.toList_append]
    exact ⟨_, _, rfl⟩

theorem contains_of_several {name : String} (h : 1 < (splitNames name.toList false []).length) :
    containsText name " + " = true := by
  rw [← join_splitNames name]
  exact contains_join h

/-! ## Names inverted twice -/

/-- The inverse of the inverse of a part of a combined name is the part. -/
def TurnsBack (part : String) : Prop :=
  startsWith part (inverseOf ++ inverseOf) = false ∧
    part ≠ inverseOf ++ "axis order change (2D)" ∧
    part ≠ inverseOf ++ "axis order change (geographic3D horizontal)"

/-- A combined name comes back when it is inverted twice: one that is not made of several does
unless it is the inverse of an inverse, or comes apart after "Inverse of"; the parts of another
one do each, and come apart where they are joined. -/
def ComesBack (name : String) : Prop :=
  match splitNames name.toList false [] with
  | [] => True
  | [part] =>
    startsWith part (inverseOf ++ inverseOf) = false ∧
      (startsWith part inverseOf = false → Whole (inverseOf ++ part))
  | first :: rest =>
    (∀ part ∈ first :: rest, TurnsBack part) ∧ Whole (invertToken first) ∧
      ∀ part ∈ rest, CutsOff (invertToken part)

theorem invertToken_append (rest : String) : invertToken (inverseOf ++ rest) = rest := by
  rw [invertToken, stripPrefix_append]

theorem invertToken_invertToken {part : String} (h : TurnsBack part) :
    invertToken (invertToken part) = part := by
  obtain ⟨htwice, h2d, h3d⟩ := h
  cases hstrip : stripPrefix inverseOf part with
  | some rest =>
    obtain rfl := stripPrefix_eq_some.1 hstrip
    rw [invertToken_append, invertToken]
    cases hagain : stripPrefix inverseOf rest with
    | some other =>
      obtain rfl := stripPrefix_eq_some.1 hagain
      rw [← String.append_assoc, Bool.eq_false_iff, ne_eq, startsWith_iff] at htwice
      exact absurd ⟨other, rfl⟩ htwice
    | none =>
      dsimp only
      rw [if_neg]
      rintro (rfl | rfl)
      · exact h2d rfl
      · exact h3d rfl
  | none =>
    by_cases haxis : part = "axis order change (2D)" ∨
        part = "axis order change (geographic3D horizontal)"
    · have hsame : invertToken part = part := by
        rw [invertToken, hstrip]
        exact if_pos haxis
      rw [hsame, hsame]
    · have hinverse : invertToken part = inverseOf ++ part := by
        rw [invertToken, hstrip]
        exact if_neg haxis
      rw [hinverse, invertToken_append]

theorem inverseOfName_of_not_contains {name : String} (h : containsText name " + " = false) :
    inverseOfName name = inverseOf ++ name := by
  rw [inverseOfName, h]
  rfl

theorem startsWith_append (front rest : String) : startsWith (front ++ rest) front = true :=
  startsWith_iff.2 ⟨rest, rfl⟩

theorem quote_notMem_inverseOf : quote ∉ inverseOf.toList := by decide

theorem inverseName_of_combined {name : String}
    (h : startsWith name inverseOf = true ∨ containsText name " + " = true) :
    inverseName name true =
      String.intercalate " + " ((splitNames name.toList false []).reverse.map invertToken) := by
  rw [inverseName, Bool.true_and, if_pos]
  simpa using h

theorem inverseName_of_whole {name : String} (hwhole : Whole name)
    (h : startsWith name inverseOf = true ∨ containsText name " + " = true) :
    inverseName name true = invertToken name := by
  rw [inverseName_of_combined h, hwhole]
  exact String.intercalate_singleton

theorem inverseName_of_not_startsWith {name : String} (hwhole : Whole name)
    (h : startsWith name inverseOf = false) : inverseName name true = inverseOf ++ name := by
  by_cases hplus : containsText name " + " = true
  · rw [inverseName_of_whole hwhole (.inr hplus), invertToken, stripPrefix_eq_none.2 h]
    dsimp only
    rw [if_neg]
    rintro (rfl | rfl)
    · exact absurd hplus (by decide)
    · exact absurd hplus (by decide)
  · rw [Bool.not_eq_true] at hplus
    rw [inverseName, h, hplus]
    exact inverseOfName_of_not_contains hplus

theorem inverseName_append {rest : String} (hwhole : Whole (inverseOf ++ rest)) :
    inverseName (inverseOf ++ rest) true = rest := by
  rw [inverseName_of_whole hwhole (.inl (startsWith_append _ _)), invertToken_append]

theorem inverseName_inverseName {name : String} (h : ComesBack name) :
    inverseName (inverseName name true) true = name := by
  rw [ComesBack] at h
  split at h
  · rename_i hsplit
    obtain rfl : name = "" := String.toList_eq_nil_iff.1 (splitNames_eq_nil hsplit).1
    decide
  · rename_i part hsplit
    obtain rfl : part = name := by
      rw [← join_splitNames name, hsplit, String.intercalate_singleton]
    obtain ⟨htwice, hwhole⟩ := h
    by_cases hfront : startsWith part inverseOf = true
    · obtain ⟨rest, rfl⟩ := startsWith_iff.1 hfront
      rw [inverseName_append hsplit]
      have hrest : startsWith rest inverseOf = false := by
        rw [Bool.eq_false_iff, ne_eq, startsWith_iff]
        rintro ⟨other, rfl⟩
        rw [← String.append_assoc, startsWith_append] at htwice
        cases htwice
      by_cases hempty : rest = ""
      · subst hempty
        decide
      · exact inverseName_of_not_startsWith (Whole.drop hsplit hempty quote_notMem_inverseOf) hrest
    · rw [Bool.not_eq_true] at hfront
      rw [inverseName_of_not_startsWith hsplit hfront, inverseName_append (hwhole hfront)]
  · rename_i first rest hne hsplit
    obtain ⟨hback, hfirst, hrest⟩ := h
    have hseveral : 1 < (first :: rest).length :=
      Nat.succ_lt_succ (List.length_pos_of_ne_nil fun hempty => hne (hempty ▸ rfl))
    have hinverse : inverseName name true =
        String.intercalate " + " (rest.reverse.map invertToken ++ [invertToken first]) := by
      rw [inverseName_of_combined (.inr (contains_of_several (hsplit ▸ hseveral))), hsplit,
        List.reverse_cons, List.map_append, List.map_singleton]
    have hcuts : ∀ part ∈ rest.reverse.map invertToken, CutsOff part := by
      intro part hpart
      obtain ⟨other, hother, rfl⟩ := List.mem_map.1 hpart
      exact hrest other (List.mem_reverse.1 hother)
    have hagain : splitNames (inverseName name true).toList false [] =
        rest.reverse.map invertToken ++ [invertToken first] := by
      rw [hinverse, splitNames_join hcuts hfirst]
    have hseveral' : 1 < (splitNames (inverseName name true).toList false []).length := by
      rw [hagain]
      simpa using hseveral
    have hturns : (first :: rest).map (invertToken ∘ invertToken) = first :: rest :=
      (List.map_congr_left fun part hpart => invertToken_invertToken (hback part hpart)).trans
        (List.map_id _)
    calc inverseName (inverseName name true) true
        = String.intercalate " + " ((first :: rest).map (invertToken ∘ invertToken)) := by
          rw [inverseName_of_combined (.inr (contains_of_several hseveral')), hagain]
          simp
      _ = String.intercalate " + " (first :: rest) := by
          rw [hturns]
      _ = name := by rw [← hsplit, join_splitNames]

/-! ## Null transformations -/

/-- A name without "Inverse of" before it. -/
def bareName (name : String) : String := (stripPrefix inverseOf name).getD name

theorem isNullTransformation_of_contains {name : String} (h : containsText name " + " = true) :
    isNullTransformation name = false := by
  rw [isNullTransformation, h]
  rfl

theorem startsWith_cons {name : String} {c : Char} {front : List Char}
    (h : startsWith name (String.ofList (c :: front)) = true) : name.toList.head? = some c := by
  rw [startsWith, decide_eq_true_iff, String.toList_ofList] at h
  obtain ⟨back, hback⟩ := h
  rw [← hback]
  rfl

theorem head_of_isNullTransformation {name : String} (h : isNullTransformation name = true) :
    name.toList.head? = some 'B' ∨ name.toList.head? = some 'N' := by
  rw [isNullTransformation, Bool.and_eq_true, List.any_eq_true] at h
  obtain ⟨-, front, hfront, hstarts⟩ := h
  simp only [List.mem_cons, List.not_mem_nil, or_false] at hfront
  obtain rfl | rfl | rfl | rfl := hfront
  · exact .inl (startsWith_cons hstarts)
  · exact .inl (startsWith_cons hstarts)
  · exact .inr (startsWith_cons hstarts)
  · exact .inr (startsWith_cons hstarts)

theorem isNullTransformation_inverseOf (rest : String) :
    isNullTransformation (inverseOf ++ rest) = false := by
  rw [Bool.eq_false_iff]
  intro hnull
  have hhead : (inverseOf ++ rest).toList.head? = some 'I' := by
    rw [String.toList_append]
    rfl
  obtain h | h := head_of_isNullTransformation hnull
  · rw [hhead] at h
    cases h
  · rw [hhead] at h
    cases h

/-- What "Inverse of" joined to it makes a combined name is no mark. -/
theorem isNullTransformation_rest {rest : String}
    (h : containsText (inverseOf ++ rest) " + " = true) : isNullTransformation rest = false := by
  rw [Bool.eq_false_iff]
  intro hnull
  rw [containsText_iff, String.toList_append] at h
  have hrest : ['+', ' '] <+: rest.toList ∨ [' ', '+', ' '] <:+: rest.toList := by
    simpa [inverseOf, List.infix_cons_iff, List.cons_prefix_cons] using h
  obtain ⟨back, hback⟩ | hinfix := hrest
  · obtain hhead | hhead := head_of_isNullTransformation hnull
    · rw [← hback] at hhead
      cases hhead
    · rw [← hback] at hhead
      cases hhead
  · have hplus : containsText rest " + " = true := containsText_iff.2 hinfix
    rw [isNullTransformation_of_contains hplus] at hnull
    cases hnull

theorem bareName_append (rest : String) : bareName (inverseOf ++ rest) = rest := by
  rw [bareName, stripPrefix_append]
  rfl

theorem bareName_of_not_startsWith {name : String} (h : startsWith name inverseOf = false) :
    bareName name = name := by
  rw [bareName, stripPrefix_eq_none.2 h]
  rfl

/-- The inverse of a combined name marks a null transformation as the name does, unless the name
that "Inverse of" comes before or goes from is such a mark. -/
theorem isNullTransformation_inverseName (name : String) :
    isNullTransformation (inverseName name true) = isNullTransformation name ↔
      isNullTransformation (bareName name) = false := by
  by_cases hseveral : 1 < (splitNames name.toList false []).length
  · have hplus := contains_of_several hseveral
    have hinverse : isNullTransformation (inverseName name true) = false := by
      rw [inverseName_of_combined (.inr hplus)]
      exact isNullTransformation_of_contains (contains_join (by simpa using hseveral))
    refine iff_of_true (hinverse.trans (isNullTransformation_of_contains hplus).symm) ?_
    by_cases hfront : startsWith name inverseOf = true
    · obtain ⟨rest, rfl⟩ := startsWith_iff.1 hfront
      rw [bareName_append]
      exact isNullTransformation_rest hplus
    · rw [bareName_of_not_startsWith (Bool.not_eq_true _ ▸ hfront)]
      exact isNullTransformation_of_contains hplus
  · by_cases hempty : name = ""
    · subst hempty
      decide
    have hwhole : Whole name := by
      match hsplit : splitNames name.toList false [] with
      | [] => exact absurd (String.toList_eq_nil_iff.1 (splitNames_eq_nil hsplit).1) hempty
      | [part] =>
        rw [Whole, hsplit, ← join_splitNames name, hsplit, String.intercalate_singleton]
      | first :: second :: rest =>
        rw [hsplit] at hseveral
        exact absurd (Nat.succ_lt_succ (Nat.succ_pos _)) hseveral
    by_cases hfront : startsWith name inverseOf = true
    · obtain ⟨rest, rfl⟩ := startsWith_iff.1 hfront
      rw [inverseName_append hwhole, isNullTransformation_inverseOf, bareName_append]
    · rw [Bool.not_eq_true] at hfront
      rw [inverseName_of_not_startsWith hwhole hfront, isNullTransformation_inverseOf,
        bareName_of_not_startsWith hfront, eq_comm]

end Xeibe.Reproject.Select.Search

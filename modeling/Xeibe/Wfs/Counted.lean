import Xeibe.Wfs.Complete
import Xeibe.Wfs.CutOff

/-!
# Counted features and features read

Two walks over the tree of a page say what a feature is: that of `inspect`, and
that of the splitter (`Content.placed`).  The first passes over the children of a
collection that are no member elements; the second enters them.  Where the names
of members and collections are the same for both (`Regular`), the features the
splitter finds are those counted and those in what is passed over
(`placed_perm`).
-/

namespace Xeibe.Wfs.Inspect

/-! ## The features of a page -/

section

variable (quickXml : Bytes → Option Bytes)

/-- The id of a feature: `gml:id`, or `fid` of GML 2. -/
def placedId (p : Placed) : Option Bytes :=
  (p.element.tag.startIn quickXml (p.scope ++ p.element.tag.declarations quickXml)).bind fun start =>
    featureId start.2

/-- The features of a child that the walk counts. -/
def countedElement (members : Bool) (name : Option QName) (p : Placed)
    (inside : Bool → List Placed) : List Placed :=
  match name with
  | none => []
  | some name =>
    match entered members name with
    | some inner => inside inner
    | none => if members then [p] else []

/-- The features the walk over a content counts. -/
def counted : Bool → List (Option Bytes × Bytes) → Nat → Content → List Placed
  | _, _, _, .nil => []
  | members, scope, offset, .aside a rest => counted members scope (offset + a.render.length) rest
  | members, scope, offset, .empty tag rest =>
    let name := resolveIn (scope ++ tag.declarations quickXml) tag.name.bytes true
    countedElement members name ⟨offset, scope, ⟨tag, none⟩⟩ (fun _ => []) ++
      counted members scope (offset + tag.renderEmpty.length) rest
  | members, scope, offset, .element tag children space rest =>
    let inner := scope ++ tag.declarations quickXml
    let name := resolveIn inner tag.name.bytes true
    let bytes := tag.renderStart ++ (children.render ++ tag.renderEnd space)
    countedElement members name ⟨offset, scope, ⟨tag, some (children, space)⟩⟩
        (fun members => counted members inner (offset + tag.renderStart.length) children) ++
      counted members scope (offset + bytes.length) rest

variable (options : SplitterOptions)

/-- The features in a child that the walk passes over: of `found`, what the
splitter finds in it. -/
def passedElement (members : Bool) (name : Option QName) (found : List Placed)
    (inside : Bool → List Placed) : List Placed :=
  match name with
  | none => []
  | some name =>
    match entered members name with
    | some inner => inside inner
    | none => if members then [] else found

/-- The features that the splitter finds in what the walk passes over. -/
def passedOver : Bool → List (Option Bytes × Bytes) → Nat → Content → List Placed
  | _, _, _, .nil => []
  | members, scope, offset, .aside a rest =>
    passedOver members scope (offset + a.render.length) rest
  | members, scope, offset, .empty tag rest =>
    let name := resolveIn (scope ++ tag.declarations quickXml) tag.name.bytes true
    passedElement members name
        (placedElement options name members ⟨offset, scope, ⟨tag, none⟩⟩ (fun _ => []))
        (fun _ => []) ++
      passedOver members scope (offset + tag.renderEmpty.length) rest
  | members, scope, offset, .element tag children space rest =>
    let inner := scope ++ tag.declarations quickXml
    let name := resolveIn inner tag.name.bytes true
    let bytes := tag.renderStart ++ (children.render ++ tag.renderEnd space)
    passedElement members name
        (placedElement options name members ⟨offset, scope, ⟨tag, some (children, space)⟩⟩
          (fun name => children.placed quickXml options inner (Xeibe.isMember options name)
            (offset + tag.renderStart.length)))
        (fun members => passedOver members inner (offset + tag.renderStart.length) children) ++
      passedOver members scope (offset + bytes.length) rest

/-- The names of a child are the same for both: in a member element, what is a
collection; in a collection, what is a member element. -/
def RegularElement (members : Bool) (name : Option QName) (inside : Bool → Prop) : Prop :=
  match name with
  | none => True
  | some name =>
    (if members then Xeibe.isCollection name = isCollection name
      else entered members name = some true → Xeibe.isMember options name = true) ∧
      match entered members name with
      | some inner => inside inner
      | none => True

/-- The names in what the walk enters are the same for both. -/
def Regular : Bool → List (Option Bytes × Bytes) → Content → Prop
  | _, _, .nil => True
  | members, scope, .aside _ rest => Regular members scope rest
  | members, scope, .empty tag rest =>
    RegularElement options members
        (resolveIn (scope ++ tag.declarations quickXml) tag.name.bytes true) (fun _ => True) ∧
      Regular members scope rest
  | members, scope, .element tag children _ rest =>
    let inner := scope ++ tag.declarations quickXml
    RegularElement options members (resolveIn inner tag.name.bytes true)
        (fun members => Regular members inner children) ∧
      Regular members scope rest

end

instance (options : SplitterOptions) (members : Bool) (name : Option QName) (inside : Bool → Prop)
    [∀ inner, Decidable (inside inner)] :
    Decidable (RegularElement options members name inside) :=
  match name with
  | none => .isTrue trivial
  | some name =>
    let _ : Decidable (match entered members name with
        | some inner => inside inner
        | none => True) :=
      match entered members name with
      | some inner => inferInstanceAs (Decidable (inside inner))
      | none => .isTrue trivial
    let _ : Decidable (if members then Xeibe.isCollection name = isCollection name
        else entered members name = some true → Xeibe.isMember options name = true) :=
      match members with
      | true => inferInstanceAs (Decidable (Xeibe.isCollection name = isCollection name))
      | false => inferInstanceAs (Decidable (entered false name = some true →
        Xeibe.isMember options name = true))
    inferInstanceAs (Decidable (_ ∧ _))

instance decidableRegular (quickXml : Bytes → Option Bytes) (options : SplitterOptions) :
    ∀ (members : Bool) (scope : List (Option Bytes × Bytes)) (c : Content),
      Decidable (Regular quickXml options members scope c)
  | _, _, .nil => .isTrue trivial
  | members, scope, .aside _ rest => decidableRegular quickXml options members scope rest
  | members, scope, .empty tag rest =>
    let _ := decidableRegular quickXml options members scope rest
    inferInstanceAs (Decidable (RegularElement options members
      (resolveIn (scope ++ tag.declarations quickXml) tag.name.bytes true) (fun _ => True) ∧
        Regular quickXml options members scope rest))
  | members, scope, .element tag children _ rest =>
    let _ := decidableRegular quickXml options members scope rest
    let _ := fun members =>
      decidableRegular quickXml options members (scope ++ tag.declarations quickXml) children
    inferInstanceAs (Decidable (RegularElement options members
      (resolveIn (scope ++ tag.declarations quickXml) tag.name.bytes true)
      (fun members => Regular quickXml options members (scope ++ tag.declarations quickXml)
        children) ∧ Regular quickXml options members scope rest))

/-! ## What the splitter finds -/

section

variable {quickXml : Bytes → Option Bytes} {options : SplitterOptions}

theorem localName_of_isMember {name : QName} (h : isMember name = true) :
    name.localName ≠ utf8 "boundedBy" := by
  intro hname
  unfold isMember QName.isGmlNamed at h
  rw [hname] at h
  have hmember : (utf8 "boundedBy" == utf8 "member") = false := by decide
  have hone : (utf8 "boundedBy" == utf8 "featureMember") = false := by decide
  have hmany : (utf8 "boundedBy" == utf8 "featureMembers") = false := by decide
  simp [hmember, hone, hmany] at h

/-- Neither a member element nor a collection is a `boundedBy`. -/
theorem isBoundedBy_of_entered {members inner : Bool} {name : QName}
    (h : entered members name = some inner) : isBoundedBy name = false := by
  have hlocal : name.localName ≠ utf8 "boundedBy" := by
    unfold entered at h
    cases members with
    | true =>
      by_cases hcollection : isCollection name = true
      · unfold isCollection at hcollection
        rw [Bool.and_eq_true] at hcollection
        rw [eq_of_beq hcollection.1]
        decide
      · simp [hcollection] at h
    | false =>
      by_cases hmember : isMember name = true
      · exact localName_of_isMember hmember
      · simp [hmember] at h
  unfold isBoundedBy
  rw [beq_false_of_ne hlocal, Bool.false_and]

theorem isMember_of_isCollection {name : QName} (hrules : options.memberRules = MemberRule.builtin)
    (h : isCollection name = true) : Xeibe.isMember options name = false := by
  unfold isCollection at h
  rw [Bool.and_eq_true] at h
  have hlocal := eq_of_beq h.1
  have hne : ∀ (ns : Option Bytes) (other : Bytes), utf8 "FeatureCollection" ≠ other →
      ((⟨ns, other⟩ : QName) == name) = false := by
    intro ns other hother
    refine beq_false_of_ne fun hname => hother ?_
    rw [← hlocal, ← hname]
  unfold Xeibe.isMember
  rw [hrules]
  simp [MemberRule.builtin, MemberRule.element, hne _ (utf8 "featureMember") (by decide),
    hne _ (utf8 "featureMembers") (by decide), hne _ (utf8 "member") (by decide)]

theorem perm_interleave {α : Type} (a b c d : List α) :
    ((a ++ b) ++ (c ++ d)).Perm ((a ++ c) ++ (b ++ d)) := by
  simp only [List.append_assoc]
  exact (List.perm_append_comm_assoc b c d).append_left a

/-- A collection in a member element is entered as a collection, and a member
element as one. -/
theorem entered_cases {members inner : Bool} {name : QName}
    (h : entered members name = some inner) :
    (members = true ∧ isCollection name = true ∧ inner = false) ∨
      (members = false ∧ isMember name = true ∧ inner = true) := by
  unfold entered at h
  cases members with
  | true =>
    by_cases hcollection : isCollection name = true
    · simp only [hcollection, if_true, Option.some.injEq] at h
      exact .inl ⟨rfl, hcollection, h.symm⟩
    · simp [hcollection] at h
  | false =>
    by_cases hmember : isMember name = true
    · simp only [hmember, if_true, Bool.false_eq_true, if_false] at h
      split at h
      · cases h
      · exact .inr ⟨rfl, hmember, (Option.some.inj h).symm⟩
    · simp [hmember] at h

variable (hrules : options.memberRules = MemberRule.builtin) (hlayers : options.layers = none)

include hrules hlayers in
theorem element_perm {members : Bool} {name : Option QName} {p : Placed}
    {found : QName → List Placed} {counts passes : Bool → List Placed} {inside : Bool → Prop}
    (hregular : RegularElement options members name inside)
    (h : ∀ name inner, Xeibe.isMember options name = inner → inside inner →
      (found name).Perm (counts inner ++ passes inner)) :
    (placedElement options name members p found).Perm
      (countedElement members name p counts ++
        passedElement members name (placedElement options name members p found) passes) := by
  cases name with
  | none => exact .nil
  | some name =>
    obtain ⟨hsame, hinside⟩ := hregular
    have hwanted : wantedIn options name = true := by
      unfold wantedIn
      rw [hlayers]
    unfold countedElement passedElement
    dsimp only
    cases hentered : entered members name with
    | none =>
      dsimp only
      cases members with
      | false => exact .refl _
      | true =>
        -- A feature.
        rw [if_pos rfl] at hsame
        have hfeature : isCollection name = false := by
          unfold entered at hentered
          by_contra hcollection
          simp [hcollection] at hentered
        unfold placedElement
        dsimp only
        rw [hsame, hfeature, if_pos (by rfl), if_pos hwanted]
        exact .refl _
    | some inner =>
      rw [hentered] at hinside
      have hmembers : (members && !Xeibe.isCollection name) = false ∧
          Xeibe.isMember options name = inner := by
        rcases entered_cases hentered with ⟨rfl, hcollection, rfl⟩ | ⟨rfl, -, rfl⟩
        · rw [if_pos rfl] at hsame
          rw [hsame, hcollection]
          exact ⟨rfl, isMember_of_isCollection hrules hcollection⟩
        · exact ⟨rfl, hsame hentered⟩
      have hfound : placedElement options (some name) members p found = found name := by
        unfold placedElement
        dsimp only
        rw [hmembers.1, isBoundedBy_of_entered hentered]
        rfl
      rw [hfound]
      exact h name inner hmembers.2 hinside

include hrules hlayers in
/-- The splitter finds what is counted and what is passed over. -/
theorem placed_perm (c : Content) : ∀ {members : Bool} {scope : List (Option Bytes × Bytes)}
    (offset : Nat), Regular quickXml options members scope c →
    (c.placed quickXml options scope members offset).Perm
      (counted quickXml members scope offset c ++
        passedOver quickXml options members scope offset c) := by
  induction c with
  | nil => exact fun _ _ => .nil
  | aside a rest ih => exact fun offset hregular => ih _ hregular
  | empty tag rest ih =>
    intro members scope offset hregular
    have helement := @element_perm options hrules hlayers members _ ⟨offset, scope, ⟨tag, none⟩⟩
      (fun _ => []) (fun _ => []) (fun _ => []) _ hregular.1 fun _ _ _ _ => .nil
    exact (helement.append (ih _ hregular.2)).trans (perm_interleave _ _ _ _)
  | element tag children space rest ihc ihr =>
    intro members scope offset hregular
    have helement := @element_perm options hrules hlayers members _
      ⟨offset, scope, ⟨tag, some (children, space)⟩⟩
      (fun name => children.placed quickXml options (scope ++ tag.declarations quickXml)
        (Xeibe.isMember options name) (offset + tag.renderStart.length))
      (fun members => counted quickXml members (scope ++ tag.declarations quickXml)
        (offset + tag.renderStart.length) children)
      (fun members => passedOver quickXml options members (scope ++ tag.declarations quickXml)
        (offset + tag.renderStart.length) children) _ hregular.1 fun name inner hinner hinside => by
        rw [hinner]
        exact ihc _ hinside
    exact (helement.append (ihr _ hregular.2)).trans (perm_interleave _ _ _ _)

end

/-! ## What the walk counts -/

/-- No declaration of the tags has a reference in its URI. -/
def Unreferenced (quickXml : Bytes → Option Bytes) (tags : List ScopedTag) : Prop :=
  ∀ t ∈ tags, t.tag.declarations quickXml = t.tag.written

/-- The information with more features counted. -/
structure Counts (quickXml : Bytes → Option Bytes) (info info' : ResponseInfo)
    (more : List Placed) : Prop where
  features : info'.features = info.features + more.length
  ids : info'.featureIds = info.featureIds ++ more.filterMap (placedId quickXml)
  returned : info'.numberReturned = info.numberReturned

section

variable {quickXml : Bytes → Option Bytes} {info info₁ info₂ : ResponseInfo} {a b : List Placed}

theorem Counts.refl (info : ResponseInfo) : Counts quickXml info info [] :=
  ⟨rfl, (List.append_nil _).symm, rfl⟩

theorem Counts.trans (h₁ : Counts quickXml info info₁ a) (h₂ : Counts quickXml info₁ info₂ b) :
    Counts quickXml info info₂ (a ++ b) where
  features := by
    rw [h₂.features, h₁.features, List.length_append, Nat.add_assoc]
  ids := by
    rw [h₂.ids, h₁.ids, List.filterMap_append, List.append_assoc]
  returned := h₂.returned.trans h₁.returned

/-- Before its content, a child that is no feature counts nothing. -/
theorem note_counts {members : Bool} {name : QName} {attrs : List (QName × Bytes)}
    (h : members = false ∨ isCollection name = true) :
    Counts quickXml info (info.note members name attrs) [] := by
  unfold ResponseInfo.note
  cases members with
  | true =>
    rw [if_pos rfl, if_pos (h.resolve_left (by simp))]
    exact ⟨rfl, (List.append_nil _).symm, rfl⟩
  | false =>
    rw [if_neg Bool.false_ne_true]
    split
    · exact ⟨rfl, (List.append_nil _).symm, rfl⟩
    · unfold ResponseInfo.noteMember
      split
      · split <;> exact ⟨rfl, (List.append_nil _).symm, rfl⟩
      · exact .refl info

theorem feature_counts {p : Placed} {start : QName × List (QName × Bytes)}
    (h : p.element.tag.startIn quickXml (p.scope ++ p.element.tag.declarations quickXml) =
      some start) :
    Counts quickXml info (info.countFeature (featureId start.2)) [p] where
  features := rfl
  ids := by
    have hid : placedId quickXml p = featureId start.2 := by
      unfold placedId
      rw [h, Option.bind_some]
    unfold ResponseInfo.countFeature
    dsimp only
    rw [← hid]
    cases hp : placedId quickXml p <;> simp [hp]
  returned := rfl

/-- A child is counted as its features are. -/
theorem element_counts {members : Bool} {p : Placed} {inside : Bool → ResponseInfo → ResponseInfo}
    {counts : Bool → List Placed}
    (hdeclared : (p.element.tag.startIn quickXml
      (p.scope ++ p.element.tag.declarations quickXml)).isSome = true)
    (h : ∀ inner info, Counts quickXml info (inside inner info) (counts inner)) :
    Counts quickXml info
      (noteElement members (p.element.tag.startIn quickXml
        (p.scope ++ p.element.tag.declarations quickXml)) inside info)
      (countedElement members (resolveIn (p.scope ++ p.element.tag.declarations quickXml)
        p.element.tag.name.bytes true) p counts) := by
  obtain ⟨⟨name, attrs⟩, hstart⟩ := Option.isSome_iff_exists.1 hdeclared
  have hname : resolveIn (p.scope ++ p.element.tag.declarations quickXml)
      p.element.tag.name.bytes true = some name := by
    have hparts := hstart
    unfold Tag.startIn at hparts
    simp only [bind, Option.bind_eq_some_iff, Option.some.injEq, Prod.mk.injEq] at hparts
    obtain ⟨_, hname, -, -, hsame, -⟩ := hparts
    rw [hname, hsame]
  rw [hname, hstart]
  unfold noteElement countedElement
  dsimp only
  cases hentered : entered members name with
  | some inner =>
    have hnote : members = false ∨ isCollection name = true := by
      rcases entered_cases hentered with ⟨-, hcollection, -⟩ | ⟨hmembers, -, -⟩
      · exact .inr hcollection
      · exact .inl hmembers
    exact (note_counts hnote).trans (h inner _)
  | none =>
    cases members with
    | false => exact note_counts (.inl rfl)
    | true =>
      have hfeature : ¬ isCollection name = true := by
        unfold entered at hentered
        intro hcollection
        simp [hcollection] at hentered
      have hcount := @feature_counts quickXml info p (name, attrs) hstart
      unfold ResponseInfo.note
      rw [if_pos rfl, if_neg hfeature]
      exact hcount

/-- The walk counts the features it should. -/
theorem inspected_counts (c : Content) : ∀ {members : Bool}
    {written : List (Option Bytes × Bytes)} {info : ResponseInfo} (offset : Nat),
    (∀ t ∈ c.tags written, t.Declared quickXml) → Unreferenced quickXml (c.tags written) →
    Counts quickXml info (inspected quickXml members written c info)
      (counted quickXml members written offset c) := by
  induction c with
  | nil => exact fun _ _ _ => .refl _
  | aside a rest ih => exact fun offset hdeclared hplain => ih _ hdeclared hplain
  | empty tag rest ih =>
    intro members written info offset hdeclared hplain
    unfold Unreferenced at hplain
    rw [Content.tags, List.forall_mem_cons] at hdeclared hplain
    have hsame : tag.declarations quickXml = tag.written := hplain.1
    have helement := @element_counts quickXml info members ⟨offset, written, ⟨tag, none⟩⟩
      (fun _ info => info) (fun _ => [])
      (by rw [hsame]; exact hdeclared.1.named) fun _ info => .refl info
    rw [inspected, counted]
    dsimp only at helement ⊢
    rw [← hsame]
    exact helement.trans (ih _ hdeclared.2 hplain.2)
  | element tag children space rest ihc ihr =>
    intro members written info offset hdeclared hplain
    unfold Unreferenced at hplain
    rw [Content.tags, List.forall_mem_cons, List.forall_mem_append] at hdeclared hplain
    have hsame : tag.declarations quickXml = tag.written := hplain.1
    have helement := @element_counts quickXml info members
      ⟨offset, written, ⟨tag, some (children, space)⟩⟩
      (fun inner info => inspected quickXml inner (written ++ tag.written) children info)
      (fun members => counted quickXml members (written ++ tag.declarations quickXml)
        (offset + tag.renderStart.length) children)
      (by rw [hsame]; exact hdeclared.1.named) fun inner info => by
        rw [hsame]
        exact ihc _ hdeclared.2.1 hplain.2.1
    rw [inspected, counted]
    dsimp only at helement ⊢
    rw [hsame] at helement ⊢
    exact helement.trans (ihr _ hdeclared.2.2 hplain.2.2)

end

/-! ## A page -/

theorem readAttribute_counts (attrs : List (QName × Bytes)) (info : ResponseInfo) :
    (attrs.foldl ResponseInfo.readAttribute info).features = info.features ∧
      (attrs.foldl ResponseInfo.readAttribute info).featureIds = info.featureIds := by
  induction attrs generalizing info with
  | nil => exact ⟨rfl, rfl⟩
  | cons attr attrs ih =>
    have hone : (info.readAttribute attr).features = info.features ∧
        (info.readAttribute attr).featureIds = info.featureIds := by
      unfold ResponseInfo.readAttribute
      dsimp only
      repeat' split
      all_goals exact ⟨rfl, rfl⟩
    rw [List.foldl_cons, (ih _).1, (ih _).2]
    exact hone

theorem isCollection_of_isCollection {name : QName} (h : isCollection name = true) :
    Xeibe.isCollection name = true := by
  unfold isCollection isWfs QName.isGml at h
  unfold Xeibe.isCollection
  rw [Bool.and_eq_true] at h
  rw [eq_of_beq h.1]
  by_cases hgml : (name.ns == some ns.GML || name.ns == some ns.GML_32) = true
  · rw [if_pos hgml]
    rfl
  · have hwfs : (name.ns == some ns.WFS || name.ns == some ns.WFS_20) = true := by
      rw [Bool.not_eq_true] at hgml
      simpa [hgml] using h.2
    rw [if_neg hgml, if_pos hwfs]
    rfl

theorem cover_sum {before : Nat} {fs : List Feature} {chunks : List FeatureChunk}
    (h : Cover before fs chunks) : (chunks.map FeatureChunk.features).sum = fs.length := by
  induction h with
  | nil => rfl
  | cons here there ih =>
    rw [List.map_cons, List.sum_cons, ih, here.count, List.length_append]

theorem afterPage_fetched (p : Pager) (page : Nat) (info : Wfs.ResponseInfo) :
    (p.afterPage page info).fetched = p.fetched + info.returned := by
  have hcourse := congrArg Course.fetched (@Pager.afterPage_course p page info)
  have hlinks : (p.takeUpLinks page info).fetched = p.fetched := by
    unfold Pager.takeUpLinks
    split <;> rfl
  rw [← hlinks]
  exact hcourse

namespace Page

variable {outside : Outside} (page : Page outside) (options : SplitterOptions)

/-- The features the splitter finds in what inspecting the page passes over. -/
def passed : List Placed :=
  passedOver outside.quickXml.unescape options false page.doc.root.tag.written
    (page.doc.rootOffset + page.doc.root.tag.renderStart.length) (childrenOf page.doc.root)

variable {page options}

section

variable (hplain : Unreferenced outside.quickXml.unescape page.doc.root.tags)

include hplain

theorem root_declarations :
    page.doc.root.tag.declarations outside.quickXml.unescape = page.doc.root.tag.written :=
  hplain _ (root_tags page.doc.root ▸ List.mem_cons_self)

theorem rootName_eq : page.doc.rootName outside.quickXml.unescape = some page.root := by
  have hnamed := page.named
  unfold Tag.startIn at hnamed
  simp only [bind, Option.bind_eq_some_iff, Option.some.injEq, Prod.mk.injEq] at hnamed
  obtain ⟨_, hname, -, -, hsame, -⟩ := hnamed
  unfold Document.rootName
  rw [root_declarations hplain, hname, hsame]

/-- The features of a collection are those in its content. -/
theorem placed_collection (hrules : options.memberRules = MemberRule.builtin)
    (hcollection : isCollection page.root = true) :
    page.doc.placed outside.quickXml.unescape options =
      (childrenOf page.doc.root).placed outside.quickXml.unescape options
        page.doc.root.tag.written false
        (page.doc.rootOffset + page.doc.root.tag.renderStart.length) := by
  have hfound : Found.container ∈ page.doc.found outside.quickXml.unescape options isBoundedBy := by
    unfold Document.found foundContainer
    rw [rootName_eq hplain]
    dsimp only
    rw [isCollection_of_isCollection hcollection, Bool.or_true, if_pos rfl]
    exact List.mem_append_left _ (List.mem_singleton_self _)
  unfold Document.placed Document.placedInside childrenOf
  rw [if_neg (fun h => h.2 hfound), rootName_eq hplain, root_declarations hplain]
  cases page.doc.root.content with
  | none => rfl
  | some content =>
    dsimp only
    rw [isMember_of_isCollection hrules hcollection]

end

end Page

open Splitter (Delivers) in
/-- A whole page is complete.  Of a collection whose names are the same for both
walks, the features of the chunks are those counted and those in what is passed
over; a bare feature counts as one, and is the one feature of the chunks where that
is allowed and nothing in it holds features.  Paging without a count of the server
goes on behind the counted features. -/
theorem inspect_counts (outside : Outside) (page : Page outside) {reader : List Read}
    (h : Delivers reader page.doc.render) (source : Nat) (options : SplitterOptions)
    (hrules : options.memberRules = MemberRule.builtin) (hlayers : options.layers = none)
    {chunks : List FeatureChunk}
    (hended : (Splitter.new reader source options).chunks outside.quickXml.unescape =
      (chunks, .ended))
    (hplain : Unreferenced outside.quickXml.unescape page.doc.root.tags)
    (hregular : isCollection page.root = true → Regular outside.quickXml.unescape options false
      page.doc.root.tag.written (childrenOf page.doc.root)) :
    ∃ info, outside.inspect page.bytes = .ok (.features info) ∧ info.complete = true ∧
      Cover 0 ((page.doc.placed outside.quickXml.unescape options).map Placed.feature) chunks ∧
      (isCollection page.root = true →
        (chunks.map FeatureChunk.features).sum = info.features + (page.passed options).length ∧
        ((page.doc.placed outside.quickXml.unescape options).filterMap
            (placedId outside.quickXml.unescape)).Perm
          (info.featureIds ++
            (page.passed options).filterMap (placedId outside.quickXml.unescape))) ∧
      (isCollection page.root = false → info.features = 1 ∧
        (options.allowSingleFeatureRoot = true →
          Found.container ∉ page.doc.found outside.quickXml.unescape options isBoundedBy →
          (chunks.map FeatureChunk.features).sum = 1)) ∧
      (info.numberReturned = none → ∀ (pager : Pager) (n : Nat) (text : Bytes → String),
        (pager.afterPage n (info.paged text)).fetched = pager.fetched + info.features) := by
  have hcover := (Splitter.chunks_emit page.doc h source hended).2 rfl
  rw [← Document.placed_features] at hcover
  have hsum : (chunks.map FeatureChunk.features).sum =
      (page.doc.placed outside.quickXml.unescape options).length := by
    rw [cover_sum hcover, List.length_map]
  have hpaging : ∀ info : ResponseInfo, info.numberReturned = none →
      ∀ (pager : Pager) (n : Nat) (text : Bytes → String),
        (pager.afterPage n (info.paged text)).fetched = pager.fetched + info.features := by
    intro info hreturned pager n text
    rw [afterPage_fetched]
    unfold ResponseInfo.paged Wfs.ResponseInfo.returned
    rw [hreturned]
    rfl
  cases hcollection : isCollection page.root with
  | true =>
    have hcounts := @inspected_counts outside.quickXml.unescape (childrenOf page.doc.root) false
      page.doc.root.tag.written page.attributes
      (page.doc.rootOffset + page.doc.root.tag.renderStart.length) page.declared_inside
      fun t ht => hplain t (root_tags page.doc.root ▸ List.mem_cons_of_mem _ ht)
    obtain ⟨hnone, hids⟩ := readAttribute_counts page.attrs .default
    have hperm := @placed_perm outside.quickXml.unescape options hrules hlayers
      (childrenOf page.doc.root) _ _
      (page.doc.rootOffset + page.doc.root.tag.renderStart.length) (hregular hcollection)
    rw [← Page.placed_collection hplain hrules hcollection] at hperm
    have hfeatures : page.info.features = (counted outside.quickXml.unescape false
        page.doc.root.tag.written (page.doc.rootOffset + page.doc.root.tag.renderStart.length)
        (childrenOf page.doc.root)).length := by
      rw [show page.info.features = page.attributes.features + _ from hcounts.features,
        show page.attributes.features = 0 from hnone, Nat.zero_add]
    have hnames : page.info.featureIds = (counted outside.quickXml.unescape false
        page.doc.root.tag.written (page.doc.rootOffset + page.doc.root.tag.renderStart.length)
        (childrenOf page.doc.root)).filterMap (placedId outside.quickXml.unescape) := by
      rw [show page.info.featureIds = page.attributes.featureIds ++ _ from hcounts.ids,
        show page.attributes.featureIds = [] from hids, List.nil_append]
    refine ⟨_, page.inspect_collection hcollection, rfl, hcover, fun _ => ⟨?_, ?_⟩, nofun,
      hpaging _⟩
    · rw [hsum, hperm.length_eq, List.length_append]
      exact congrArg (· + _) hfeatures.symm
    · show List.Perm _ (page.info.featureIds ++ _)
      rw [hnames, ← List.filterMap_append]
      exact hperm.filterMap _
  | false =>
    refine ⟨_, page.inspect_bare hcollection, rfl, hcover, nofun, fun _ => ⟨rfl, ?_⟩, hpaging _⟩
    intro hallowed hfound
    rw [hsum]
    unfold Document.placed Document.placedRoot
    rw [if_pos ⟨hallowed, hfound⟩, Page.rootName_eq hplain]
    have hwanted : wantedIn options page.root = true := by
      unfold wantedIn
      rw [hlayers]
    dsimp only
    rw [if_pos hwanted]
    rfl

/-! ## Two pages -/

open Splitter (noSpace plainTag collectionIn gmlCollection tagF memberOfF Delivers)

/-- The page of a collection of one feature. -/
def onePage : Page (outsideOf (gmlCollection memberOfF)) where
  doc := gmlCollection memberOfF
  marked := false
  root := ⟨some ns.GML, utf8 "FeatureCollection"⟩
  attrs := []
  named := by decide +kernel
  noReport := noReport_collection
  declared := by decide +kernel
  before := nofun
  inside := by
    rintro children space hcontent
    cases hcontent
    exact nofun
  unmarked := by decide
  encoding := by decide +kernel
  reads := partsOf_reads _

theorem delivers_whole {bytes : Bytes} (h : bytes ≠ []) : Delivers [.bytes bytes] bytes := by
  have hread : Delivers [.bytes bytes] (bytes ++ []) := .bytes h .done
  rwa [List.append_nil] at hread

/-- It is counted, and read. -/
theorem inspect_counts_one :
    ∃ (chunks : List FeatureChunk) (info : ResponseInfo),
      (outsideOf (gmlCollection memberOfF)).inspect onePage.bytes = .ok (.features info) ∧
      (chunks.map FeatureChunk.features).sum = info.features + 0 ∧
      chunks.map FeatureChunk.bytes = [utf8 "<F/>"] := by
  obtain ⟨chunks, hended, hbytes⟩ : ∃ chunks,
      (Splitter.new [.bytes onePage.doc.render] 0 .default).chunks some = (chunks, .ended) ∧
        chunks.map FeatureChunk.bytes = [utf8 "<F/>"] := by
    have hrun : ((Splitter.new [.bytes onePage.doc.render] 0 .default).chunks some).2 = .ended ∧
        ((Splitter.new [.bytes onePage.doc.render] 0 .default).chunks some).1.map
          FeatureChunk.bytes = [utf8 "<F/>"] := by
      decide +kernel
    exact ⟨_, Prod.ext rfl hrun.1, hrun.2⟩
  have hregular : Regular some .default false onePage.doc.root.tag.written
      (childrenOf onePage.doc.root) := by
    decide +kernel
  have hplain : Unreferenced some onePage.doc.root.tags := by
    unfold Unreferenced
    decide +kernel
  obtain ⟨info, hinspect, -, -, hcollection, -⟩ := inspect_counts (outsideOf (gmlCollection memberOfF)) onePage
    (delivers_whole (by decide +kernel)) 0 .default rfl rfl hended hplain fun _ => hregular
  have hpassed : (onePage.passed .default).length = 0 := by decide +kernel
  have hsum := (hcollection (by decide)).1
  rw [hpassed] at hsum
  exact ⟨chunks, info, hinspect, hsum, hbytes⟩

/-- `<additionalObjects><member><F/></member></additionalObjects>` in a collection
of WFS 2.0, its namespace the default one. -/
def additionalObjects : Document :=
  collectionIn ns.WFS_20 (by decide)
    (.element (plainTag (utf8 "additionalObjects") (by decide))
      (.element (plainTag (utf8 "member") (by decide)) (.empty tagF .nil) noSpace .nil) noSpace .nil)

def additionalPage : Page (outsideOf additionalObjects) where
  doc := additionalObjects
  marked := false
  root := ⟨some ns.WFS_20, utf8 "FeatureCollection"⟩
  attrs := []
  named := by decide +kernel
  noReport := noReport_collection
  declared := by decide +kernel
  before := nofun
  inside := by
    rintro children space hcontent
    cases hcontent
    exact nofun
  unmarked := by decide
  encoding := by decide +kernel
  reads := partsOf_reads _

/-- The splitter finds the additional objects, and inspecting counts none. -/
theorem not_counts_additional :
    ¬ ∀ (outside : Outside) (page : Page outside) (reader : List Read) (source : Nat)
      (options : SplitterOptions) (chunks : List FeatureChunk),
      Delivers reader page.doc.render → options.memberRules = MemberRule.builtin →
      options.layers = none →
      (Splitter.new reader source options).chunks outside.quickXml.unescape = (chunks, .ended) →
      ∃ info, outside.inspect page.bytes = .ok (.features info) ∧
        (chunks.map FeatureChunk.features).sum = info.features ∧
        ((page.doc.placed outside.quickXml.unescape options).filterMap
          (placedId outside.quickXml.unescape)).Perm info.featureIds := by
  intro h
  obtain ⟨chunks, hended, hfound⟩ : ∃ chunks,
      (Splitter.new [.bytes additionalPage.doc.render] 0 .default).chunks some =
        (chunks, .ended) ∧ (chunks.map FeatureChunk.features).sum = 1 := by
    have hrun : ((Splitter.new [.bytes additionalPage.doc.render] 0 .default).chunks some).2 =
          .ended ∧
        (((Splitter.new [.bytes additionalPage.doc.render] 0 .default).chunks some).1.map
          FeatureChunk.features).sum = 1 := by
      decide +kernel
    generalize (Splitter.new [.bytes additionalPage.doc.render] 0 .default).chunks some = run at *
    exact ⟨run.1, Prod.ext rfl hrun.1, hrun.2⟩
  obtain ⟨info, hinspect, hsum, -⟩ := h _ additionalPage [.bytes additionalPage.doc.render] 0
    .default chunks (delivers_whole (by decide +kernel)) rfl rfl hended
  have hnone : additionalPage.info.features = 0 := by decide +kernel
  have hwhole := additionalPage.inspect_collection (by decide)
  rw [hinspect, Except.ok.injEq, Response.features.injEq] at hwhole
  rw [hfound, hwhole] at hsum
  exact absurd (hsum.trans hnone) (by decide)

end Xeibe.Wfs.Inspect

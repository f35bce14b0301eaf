import Xeibe.Core.Splitter.Document

/-!
# Features with their scope

The walk again, and for each feature the declarations it stands under: what a
reader of the feature alone has to be told.
-/

namespace Xeibe

/-- A feature of a document with its element, and the declarations of the
elements around it, the innermost last. -/
structure Placed where
  offset : Nat
  scope : List (Option Bytes × Bytes)
  element : Root

namespace Placed

def feature (p : Placed) : Feature := ⟨p.offset, p.element.render⟩

/-- The name of the feature. -/
def name (quickXml : Bytes → Option Bytes) (p : Placed) : Option QName :=
  resolveIn (p.scope ++ p.element.tag.declarations quickXml) p.element.tag.name.bytes true

end Placed

section

variable (quickXml : Bytes → Option Bytes) (options : SplitterOptions)

/-- What an element of a content is or holds; see `foundElement`. -/
def placedElement (name : Option QName) (members : Bool) (p : Placed)
    (inside : QName → List Placed) : List Placed :=
  match name with
  | none => []
  | some name =>
    if members && !isCollection name then if wantedIn options name then [p] else []
    else if isBoundedBy name then []
    else inside name

def Content.placed : List (Option Bytes × Bytes) → Bool → Nat → Content → List Placed
  | _, _, _, .nil => []
  | scope, members, offset, .aside a rest =>
    rest.placed scope members (offset + a.render.length)
  | scope, members, offset, .empty tag rest =>
    let name := resolveIn (scope ++ tag.declarations quickXml) tag.name.bytes true
    placedElement options name members ⟨offset, scope, ⟨tag, none⟩⟩ (fun _ => []) ++
      rest.placed scope members (offset + tag.renderEmpty.length)
  | scope, members, offset, .element tag children space rest =>
    let inner := scope ++ tag.declarations quickXml
    let name := resolveIn inner tag.name.bytes true
    let bytes := tag.renderStart ++ (children.render ++ tag.renderEnd space)
    placedElement options name members ⟨offset, scope, ⟨tag, some (children, space)⟩⟩
        (fun name =>
          children.placed inner (isMember options name) (offset + tag.renderStart.length)) ++
      rest.placed scope members (offset + bytes.length)

namespace Document

variable (doc : Document)

/-- The features in the content of the root. -/
def placedInside : List Placed :=
  match doc.rootName quickXml, doc.root.content with
  | some name, some (children, _) =>
    children.placed quickXml options (doc.root.tag.declarations quickXml) (isMember options name)
      (doc.rootOffset + doc.root.tag.renderStart.length)
  | _, _ => []

/-- The root where it is the only feature of the document. -/
def placedRoot : List Placed :=
  match doc.rootName quickXml with
  | none => []
  | some name => if wantedIn options name then [⟨doc.rootOffset, [], doc.root⟩] else []

/-- The features of a document with their scope. -/
def placed : List Placed :=
  if options.allowSingleFeatureRoot ∧ .container ∉ doc.found quickXml options isBoundedBy then
    doc.placedRoot quickXml options
  else doc.placedInside quickXml options

end Document

end

/-! ## The same features -/

section

variable {quickXml : Bytes → Option Bytes} {options : SplitterOptions}

theorem foundContainer_features (name : QName) :
    (foundContainer options name).filterMap Found.feature? = [] := by
  unfold foundContainer
  split <;> rfl

theorem placedElement_features {name : Option QName} {members : Bool} {p : Placed}
    {inside : QName → List Placed} {found : QName → List Found}
    (h : ∀ name, (inside name).map Placed.feature = (found name).filterMap Found.feature?) :
    (placedElement options name members p inside).map Placed.feature =
      (foundElement options isBoundedBy name members p.offset p.element.render
        found).filterMap Found.feature? := by
  cases name with
  | none => rfl
  | some name =>
    unfold placedElement foundElement
    dsimp only
    split
    · unfold foundFeature
      split <;> rfl
    · split
      · rfl
      · rw [List.filterMap_append, foundContainer_features, List.nil_append]
        exact h name

theorem Content.placed_features (c : Content) : ∀ (scope : List (Option Bytes × Bytes))
    (members : Bool) (offset : Nat),
    (c.placed quickXml options scope members offset).map Placed.feature =
      (c.walk quickXml options isBoundedBy scope members offset).filterMap Found.feature? := by
  induction c with
  | nil =>
    intro scope members offset
    rfl
  | aside a rest ih =>
    intro scope members offset
    exact ih scope members _
  | empty tag rest ih =>
    intro scope members offset
    rw [Content.placed, Content.walk, List.map_append, List.filterMap_append, ih]
    congr 1
    exact placedElement_features fun _ => rfl
  | element tag children space rest ihc ihr =>
    intro scope members offset
    rw [Content.placed, Content.walk, List.map_append, List.filterMap_append, ihr]
    congr 1
    exact placedElement_features fun _ => ihc _ _ _

theorem Document.placedInside_features (quickXml : Bytes → Option Bytes)
    (options : SplitterOptions) (doc : Document) :
    (doc.placedInside quickXml options).map Placed.feature =
      (doc.found quickXml options isBoundedBy).filterMap Found.feature? := by
  unfold Document.placedInside Document.found
  cases doc.rootName quickXml with
  | none => rfl
  | some name =>
    dsimp only
    rw [List.filterMap_append, foundContainer_features, List.nil_append]
    cases doc.root.content with
    | none => rfl
    | some content => exact content.1.placed_features _ _ _

theorem Document.placed_features (doc : Document) :
    (doc.placed quickXml options).map Placed.feature =
      doc.features quickXml options isBoundedBy := by
  unfold Document.placed Document.features
  split
  · unfold Document.placedRoot
    cases doc.rootName quickXml with
    | none => rfl
    | some name =>
      dsimp only
      split <;> rfl
  · exact doc.placedInside_features quickXml options

end

/-! ## Names -/

section

variable {quickXml : Bytes → Option Bytes} {options : SplitterOptions}

/-- The name of a feature is one that the layer filter keeps, and of a member
that is no collection. -/
theorem placedElement_name {name : Option QName} {members : Bool} {p q : Placed}
    {inside : QName → List Placed} (hp : name = p.name quickXml)
    (hinside : ∀ name, ∀ q ∈ inside name, ∃ name, q.name quickXml = some name ∧
      wantedIn options name = true ∧ isCollection name = false)
    (hq : q ∈ placedElement options name members p inside) :
    ∃ name, q.name quickXml = some name ∧ wantedIn options name = true ∧
      isCollection name = false := by
  cases name with
  | none => cases hq
  | some name =>
    unfold placedElement at hq
    dsimp only at hq
    split at hq
    · rename_i hmember
      split at hq
      · rename_i hwanted
        rw [List.mem_singleton.1 hq]
        simp only [Bool.and_eq_true, Bool.not_eq_true'] at hmember
        exact ⟨name, hp.symm, hwanted, hmember.2⟩
      · cases hq
    · split at hq
      · cases hq
      · exact hinside name q hq

theorem Content.placed_name (c : Content) : ∀ (scope : List (Option Bytes × Bytes))
    (members : Bool) (offset : Nat), ∀ q ∈ c.placed quickXml options scope members offset,
      ∃ name, q.name quickXml = some name ∧ wantedIn options name = true ∧
        isCollection name = false := by
  induction c with
  | nil =>
    intro scope members offset q hq
    cases hq
  | aside a rest ih =>
    intro scope members offset q hq
    exact ih _ _ _ q hq
  | empty tag rest ih =>
    intro scope members offset q hq
    rw [Content.placed] at hq
    rcases List.mem_append.1 hq with hq | hq
    · exact placedElement_name (p := ⟨offset, scope, ⟨tag, none⟩⟩) rfl
        (fun _ _ h => absurd h List.not_mem_nil) hq
    · exact ih _ _ _ q hq
  | element tag children space rest ihc ihr =>
    intro scope members offset q hq
    rw [Content.placed] at hq
    rcases List.mem_append.1 hq with hq | hq
    · exact placedElement_name (p := ⟨offset, scope, ⟨tag, some (children, space)⟩⟩) rfl
        (fun _ => ihc _ _ _) hq
    · exact ihr _ _ _ q hq

/-- The splitter judges a feature by its name in the document. -/
theorem Document.placed_name (doc : Document) {q : Placed}
    (hq : q ∈ doc.placed quickXml options) :
    ∃ name, q.name quickXml = some name ∧ wantedIn options name = true := by
  unfold Document.placed at hq
  split at hq
  · unfold Document.placedRoot at hq
    cases hname : doc.rootName quickXml with
    | none =>
      rw [hname] at hq
      cases hq
    | some name =>
      rw [hname] at hq
      dsimp only at hq
      split at hq
      · rename_i hwanted
        rw [List.mem_singleton.1 hq]
        exact ⟨name, hname, hwanted⟩
      · cases hq
  · unfold Document.placedInside at hq
    split at hq
    · obtain ⟨name, hname, hwanted, -⟩ := Content.placed_name _ _ _ _ q hq
      exact ⟨name, hname, hwanted⟩
    · cases hq

end

end Xeibe

import Mathlib.Data.List.Nodup
import Xeibe.Core.Splitter.Placed

/-!
# Features with their box, and where a chunk ends

What the chunks of a document are cut by, stated without the splitter.  The
walk again, now with the `boundedBy` of collections: `marks` are the features
and the completed boxes of a document, in the order in which the splitter sees
them.  A feature's box is that of its innermost open ancestor that has one.

`ChunkOf target seg chunk` says what a chunk is to the features of a segment of
the marks, and `CutBefore` what comes after a chunk that is below the target.
-/

namespace Xeibe

/-- The table of some declarations, the innermost last: a later declaration of
a prefix replaces an earlier one. -/
def Splitter.flatten (bindings : List (Option Bytes × Bytes)) : NamespaceContext :=
  bindings.foldl (fun c (b : Option Bytes × Bytes) => c.declare b.1 b.2) NamespaceContext.new

open Splitter (flatten)

/-- A `boundedBy` of a document, with the declarations of the elements around
it. -/
structure Box where
  source : Nat
  byteOffset : Nat
  bytes : Bytes
  namespaces : NamespaceContext
  deriving DecidableEq

/-- A feature with the box of its innermost open ancestor that has one. -/
structure Located where
  placed : Placed
  box : Option Box

/-- What the splitter sees of a document outside features: a `boundedBy` ends,
or a feature that enters a chunk. -/
inductive Mark where
  | bounded (box : Box)
  | feature (l : Located)

namespace Mark

def box? : Mark → Option Box
  | bounded box => some box
  | feature _ => none

def located? : Mark → Option Located
  | bounded _ => none
  | feature l => some l

/-- The features among some marks. -/
def located (marks : List Mark) : List Located := marks.filterMap located?

def features (marks : List Mark) : List Feature :=
  (located marks).map fun l => l.placed.feature

/-- The boxes that end among some marks. -/
def boxes (marks : List Mark) : List Box := marks.filterMap box?

@[simp] theorem located_append (a b : List Mark) : located (a ++ b) = located a ++ located b :=
  List.filterMap_append

@[simp] theorem features_append (a b : List Mark) :
    features (a ++ b) = features a ++ features b := by
  simp [features]

@[simp] theorem boxes_append (a b : List Mark) : boxes (a ++ b) = boxes a ++ boxes b :=
  List.filterMap_append

@[simp] theorem located_feature (l : Located) (marks : List Mark) :
    located (.feature l :: marks) = l :: located marks := rfl

@[simp] theorem located_bounded (box : Box) (marks : List Mark) :
    located (.bounded box :: marks) = located marks := rfl

@[simp] theorem features_feature (l : Located) (marks : List Mark) :
    features (.feature l :: marks) = l.placed.feature :: features marks := rfl

@[simp] theorem features_bounded (box : Box) (marks : List Mark) :
    features (.bounded box :: marks) = features marks := rfl

@[simp] theorem features_nil : features [] = [] := rfl

end Mark

/-! ## The walk -/

section

variable (quickXml : Bytes → Option Bytes) (options : SplitterOptions) (source : Nat)

/-- A feature, if the layer filter keeps it. -/
def wantedMark (wanted : Bool) (l : Located) : List Mark := if wanted then [.feature l] else []

/-- What an element of a content adds: `box` is the box that it is when it is
the `boundedBy` of its parent; see `foundElement`. -/
def markedElement (name : Option QName) (members : Bool) (l : Located) (box : Option Box)
    (inside : QName → List Mark) : List Mark :=
  match name with
  | none => []
  | some name =>
    if members && !isCollection name then wantedMark (wantedIn options name) l
    else if isBoundedBy name then box.toList.map Mark.bounded
    else inside name

/-- The box that the parent of an element has after it. -/
def boxAfter (name : Option QName) (members : Bool) (box own : Option Box) : Option Box :=
  match name with
  | none => own
  | some name =>
    if members && !isCollection name then own
    else if isBoundedBy name then box.or own
    else own

/-- The marks of a content: `own` is the box its element has so far, `outer`
that of the innermost element around it that has one.  A `boundedBy` without
content is no box. -/
def Content.marks : List (Option Bytes × Bytes) → Bool → Nat → Option Box → Option Box →
    Content → List Mark
  | _, _, _, _, _, .nil => []
  | scope, members, offset, own, outer, .aside a rest =>
    rest.marks scope members (offset + a.render.length) own outer
  | scope, members, offset, own, outer, .empty tag rest =>
    let name := resolveIn (scope ++ tag.declarations quickXml) tag.name.bytes true
    markedElement options name members ⟨⟨offset, scope, ⟨tag, none⟩⟩, own.or outer⟩ none
        (fun _ => []) ++
      rest.marks scope members (offset + tag.renderEmpty.length) own outer
  | scope, members, offset, own, outer, .element tag children space rest =>
    let inner := scope ++ tag.declarations quickXml
    let name := resolveIn inner tag.name.bytes true
    let bytes := tag.renderStart ++ (children.render ++ tag.renderEnd space)
    let box : Box := ⟨source, offset, bytes, flatten scope⟩
    markedElement options name members
        ⟨⟨offset, scope, ⟨tag, some (children, space)⟩⟩, own.or outer⟩ (some box)
        (fun name => children.marks inner (isMember options name)
          (offset + tag.renderStart.length) none (own.or outer)) ++
      rest.marks scope members (offset + bytes.length) (boxAfter name members (some box) own) outer

/-- The box an element has after a content of its. -/
def Content.ownBox : List (Option Bytes × Bytes) → Bool → Nat → Option Box → Content → Option Box
  | _, _, _, own, .nil => own
  | scope, members, offset, own, .aside a rest =>
    rest.ownBox scope members (offset + a.render.length) own
  | scope, members, offset, own, .empty tag rest =>
    rest.ownBox scope members (offset + tag.renderEmpty.length) own
  | scope, members, offset, own, .element tag children space rest =>
    let name := resolveIn (scope ++ tag.declarations quickXml) tag.name.bytes true
    let bytes := tag.renderStart ++ (children.render ++ tag.renderEnd space)
    rest.ownBox scope members (offset + bytes.length)
      (boxAfter name members (some ⟨source, offset, bytes, flatten scope⟩) own)

namespace Document

variable (doc : Document)

/-- The marks in the content of the root. -/
def marksInside : List Mark :=
  match doc.rootName quickXml, doc.root.content with
  | some name, some (children, _) =>
    children.marks quickXml options source (doc.root.tag.declarations quickXml)
      (isMember options name) (doc.rootOffset + doc.root.tag.renderStart.length) none none
  | _, _ => []

/-- The root where it is the only feature of the document: it ends last, and no
element is open around it. -/
def marksRoot : List Mark :=
  if options.allowSingleFeatureRoot ∧ .container ∉ doc.found quickXml options isBoundedBy then
    (doc.placedRoot quickXml options).map fun p => .feature ⟨p, none⟩
  else []

def marks : List Mark :=
  doc.marksInside quickXml options source ++ doc.marksRoot quickXml options

end Document

end

/-! ## Chunks -/

/-- A stretch of marks: the features of a chunk but the last, the last one, and
what stands before and after them. -/
structure Segment where
  before : List Mark
  first : List Mark
  last : Located
  later : List Mark

namespace Segment

def marks (seg : Segment) : List Mark :=
  seg.before ++ (seg.first ++ .feature seg.last :: seg.later)

/-- The features of the chunk. -/
def located (seg : Segment) : List Located := Mark.located seg.first ++ [seg.last]

def features (seg : Segment) : List Feature :=
  Mark.features seg.first ++ [seg.last.placed.feature]

end Segment

/-- A copied `boundedBy` as a box of the document. -/
def RawElement.box (element : RawElement) : Box :=
  ⟨element.source, element.byteOffset, element.bytes, element.namespaces.val⟩

/-- The box that a chunk, or an open element, has. -/
def boxOf (boundedBy : Option (Arc RawElement)) : Option Box :=
  boundedBy.map fun element => element.val.box

/-- What ends a chunk of a context and a box before `marks`: the end of the
input, a feature of another context or another box, or a `boundedBy` that ends
in another context. -/
def CutBefore (context : NamespaceContext) (box : Option Box) : List Mark → Prop
  | [] => True
  | .bounded b :: marks => b.namespaces ≠ context ∨ CutBefore context box marks
  | .feature l :: _ => flatten l.placed.scope ≠ context ∨ l.box ≠ box

/-- A chunk holds the features of a segment, which share its context and its
box; without the last of them it is below the target size, and it is so with it
only before a cut. -/
structure ChunkOf (target : Nat) (seg : Segment) (chunk : FeatureChunk) : Prop where
  describes : Describes (Mark.features seg.before).length seg.features chunk
  context : ∀ l ∈ seg.located, flatten l.placed.scope = chunk.namespaces.val
  box : ∀ l ∈ seg.located, l.box = boxOf chunk.collectionBoundedBy
  small : Mark.features seg.first = [] ∨
    ((Mark.features seg.first).flatMap Feature.bytes).length < target
  cut : chunk.bytes.length < target →
    CutBefore chunk.namespaces.val (boxOf chunk.collectionBoundedBy) seg.later

theorem Segment.features_eq (seg : Segment) :
    seg.features = seg.located.map fun l => l.placed.feature := by
  simp [Segment.features, Segment.located, Mark.features]

theorem Segment.features_ne_nil (seg : Segment) : seg.features ≠ [] := by
  simp [Segment.features]

theorem Root.render_ne_nil (root : Root) : root.render ≠ [] := by
  unfold Root.render
  cases root.content <;> exact List.cons_ne_nil _ _

theorem Segment.bytes_ne_nil (seg : Segment) : seg.features.flatMap Feature.bytes ≠ [] := by
  intro hnil
  have hlast : seg.last.placed.feature.bytes = [] :=
    List.flatMap_eq_nil_iff.1 hnil _ (List.mem_append_right _ (List.mem_singleton_self _))
  exact Root.render_ne_nil _ hlast

theorem Segment.features_marks (seg : Segment) :
    Mark.features seg.marks = Mark.features seg.before ++ seg.features ++
      Mark.features seg.later := by
  simp [Segment.marks, Segment.features]

theorem CutBefore.skip {context : NamespaceContext} {box : Option Box} {later rest : List Mark}
    (hlater : Mark.features later = []) (h : CutBefore context box rest) :
    CutBefore context box (later ++ rest) := by
  induction later with
  | nil => exact h
  | cons mark later ih =>
    cases mark with
    | bounded b => exact .inr (ih hlater)
    | feature l => cases hlater

/-- A box that ends in another context cuts a chunk. -/
theorem CutBefore.crossed {context : NamespaceContext} {box : Option Box} {later : List Mark}
    (rest : List Mark) (hlater : Mark.features later = [])
    (h : ∃ b ∈ Mark.boxes later, b.namespaces ≠ context) :
    CutBefore context box (later ++ rest) := by
  induction later with
  | nil =>
    obtain ⟨b, hb, -⟩ := h
    cases hb
  | cons mark later ih =>
    cases mark with
    | bounded b =>
      obtain ⟨b', hb', hne⟩ := h
      rcases List.mem_cons.1 hb' with rfl | hb'
      · exact .inl hne
      · exact .inr (ih hlater ⟨b', hb', hne⟩)
    | feature l => cases hlater

/-! ## The same features -/

section

variable {quickXml : Bytes → Option Bytes} {options : SplitterOptions} {source : Nat}

theorem markedElement_located {name : Option QName} {members : Bool} {l : Located}
    {box : Option Box} {inside : QName → List Mark} {placed : QName → List Placed}
    (h : ∀ name, (Mark.located (inside name)).map Located.placed = placed name) :
    (Mark.located (markedElement options name members l box inside)).map Located.placed =
      placedElement options name members l.placed placed := by
  cases name with
  | none => rfl
  | some name =>
    unfold markedElement placedElement wantedMark
    dsimp only
    split
    · split <;> rfl
    · split
      · cases box <;> rfl
      · exact h name

theorem Content.marks_located (c : Content) : ∀ (scope : List (Option Bytes × Bytes))
    (members : Bool) (offset : Nat) (own outer : Option Box),
    (Mark.located (c.marks quickXml options source scope members offset own outer)).map
      Located.placed = c.placed quickXml options scope members offset := by
  induction c with
  | nil =>
    intro scope members offset own outer
    rfl
  | aside a rest ih =>
    intro scope members offset own outer
    exact ih scope members _ own outer
  | empty tag rest ih =>
    intro scope members offset own outer
    rw [Content.marks, Content.placed, Mark.located_append, List.map_append, ih]
    congr 1
    exact markedElement_located fun _ => rfl
  | element tag children space rest ihc ihr =>
    intro scope members offset own outer
    rw [Content.marks, Content.placed, Mark.located_append, List.map_append, ihr]
    congr 1
    exact markedElement_located fun _ => ihc _ _ _ _ _

theorem Document.marksInside_located (doc : Document) :
    (Mark.located (doc.marksInside quickXml options source)).map Located.placed =
      doc.placedInside quickXml options := by
  unfold Document.marksInside Document.placedInside
  cases doc.rootName quickXml with
  | none => rfl
  | some name =>
    cases doc.root.content with
    | none => rfl
    | some content => exact content.1.marks_located _ _ _ _ _

/-- Where nothing holds features, nothing is found. -/
theorem Content.walk_eq_nil (c : Content) : ∀ {scope : List (Option Bytes × Bytes)} {off : Nat},
    Found.container ∉ c.walk quickXml options isBoundedBy scope false off →
    c.walk quickXml options isBoundedBy scope false off = [] := by
  have helement : ∀ {name : Option QName} {bytes : Bytes} {inside : QName → List Found}
      {off : Nat},
      (∀ n, isMember options n = false → Found.container ∉ inside n → inside n = []) →
      Found.container ∉ foundElement options isBoundedBy name false off bytes inside →
      foundElement options isBoundedBy name false off bytes inside = [] := by
    intro name bytes inside off hinside hnone
    cases name with
    | none => rfl
    | some n =>
      unfold foundElement at *
      simp only [Bool.false_and, Bool.false_eq_true, if_false] at *
      split
      · rfl
      · rename_i hopen
        rw [if_neg hopen, List.mem_append, not_or] at hnone
        have hcontainer : ¬ (isMember options n || isCollection n) = true := by
          intro h
          refine hnone.1 ?_
          unfold foundContainer
          rw [if_pos h]
          exact List.mem_singleton_self _
        have hmember : isMember options n = false := by
          cases hmember : isMember options n with
          | false => rfl
          | true => exact absurd (by rw [hmember]; rfl) hcontainer
        unfold foundContainer
        rw [if_neg hcontainer, List.nil_append]
        exact hinside n hmember hnone.2
  induction c with
  | nil => intro scope off _; rfl
  | aside a rest ih => intro scope off hnone; exact ih hnone
  | empty tag rest ih =>
    intro scope off hnone
    rw [Content.walk, List.mem_append, not_or] at hnone
    rw [Content.walk, helement (fun _ _ _ => rfl) hnone.1, ih hnone.2]
    rfl
  | element tag children space rest ihc ihr =>
    intro scope off hnone
    rw [Content.walk, List.mem_append, not_or] at hnone
    have hinside : ∀ n, isMember options n = false →
        Found.container ∉ children.walk quickXml options isBoundedBy
          (scope ++ tag.declarations quickXml) (isMember options n)
          (off + tag.renderStart.length) →
        children.walk quickXml options isBoundedBy (scope ++ tag.declarations quickXml)
          (isMember options n) (off + tag.renderStart.length) = [] := by
      intro n hn hno
      rw [hn] at hno ⊢
      exact ihc hno
    rw [Content.walk, helement hinside hnone.1, ihr hnone.2]
    rfl

/-- Where no element holds features, the walk has found none. -/
theorem Document.found_eq_nil (doc : Document) {name : QName}
    (hname : doc.rootName quickXml = some name)
    (hcontainer : Found.container ∉ doc.found quickXml options isBoundedBy) :
    doc.found quickXml options isBoundedBy = [] := by
  unfold Document.found at hcontainer ⊢
  rw [hname] at hcontainer ⊢
  dsimp only at hcontainer ⊢
  rw [List.mem_append, not_or] at hcontainer
  have hroot : ¬ (isMember options name || isCollection name) = true := by
    intro h
    refine hcontainer.1 ?_
    unfold foundContainer
    rw [if_pos h]
    exact List.mem_singleton_self _
  have hmember : isMember options name = false := by
    cases hmember : isMember options name with
    | false => rfl
    | true => exact absurd (by rw [hmember]; rfl) hroot
  unfold foundContainer
  rw [if_neg hroot, List.nil_append]
  cases hcontent : doc.root.content with
  | none => rfl
  | some content =>
    rw [hcontent, hmember] at hcontainer
    dsimp only
    rw [hmember]
    exact content.1.walk_eq_nil hcontainer.2

theorem Document.placedInside_eq_nil (doc : Document)
    (hcontainer : Found.container ∉ doc.found quickXml options isBoundedBy) :
    doc.placedInside quickXml options = [] := by
  cases hname : doc.rootName quickXml with
  | none =>
    unfold Document.placedInside
    rw [hname]
  | some name =>
    have hfeatures := doc.placedInside_features quickXml options
    rw [doc.found_eq_nil hname hcontainer, List.filterMap_nil] at hfeatures
    exact List.map_eq_nil_iff.1 hfeatures

theorem Document.marks_located (doc : Document) :
    (Mark.located (doc.marks quickXml options source)).map Located.placed =
      doc.placed quickXml options := by
  have hroot : ∀ ps : List Placed,
      (Mark.located (ps.map fun p => .feature ⟨p, none⟩)).map Located.placed = ps := by
    intro ps
    induction ps with
    | nil => rfl
    | cons p ps ih => exact congrArg (p :: ·) ih
  unfold Document.marks Document.marksRoot Document.placed
  rw [Mark.located_append, List.map_append, doc.marksInside_located]
  split
  · rename_i hsingle
    rw [doc.placedInside_eq_nil hsingle.2, List.nil_append, hroot]
  · exact List.append_nil _

theorem Document.marks_features (doc : Document) :
    Mark.features (doc.marks quickXml options source) =
      doc.features quickXml options isBoundedBy := by
  have hlocated : (Mark.located (doc.marks quickXml options source)).map Located.placed =
      doc.placed quickXml options := doc.marks_located
  rw [← doc.placed_features, ← hlocated, List.map_map]
  rfl

end

/-! ## The order of boxes -/

/-- The boxes start one after the other, from `lo` on and before `hi`. -/
structure Ascending (lo hi : Nat) (boxes : List Box) : Prop where
  bounds : ∀ b ∈ boxes, lo ≤ b.byteOffset ∧ b.byteOffset < hi
  pairwise : boxes.Pairwise fun a b => a.byteOffset < b.byteOffset

section

variable {lo mid hi : Nat} {as bs : List Box}

theorem Ascending.nil (lo hi : Nat) : Ascending lo hi [] := ⟨nofun, .nil⟩

theorem Ascending.append (h : Ascending lo mid as) (h' : Ascending mid hi bs) (hlo : lo ≤ mid)
    (hhi : mid ≤ hi) : Ascending lo hi (as ++ bs) := by
  refine ⟨fun b hb => ?_, List.pairwise_append.2 ⟨h.pairwise, h'.pairwise, fun a ha b hb => ?_⟩⟩
  · rcases List.mem_append.1 hb with hb | hb
    · have := h.bounds b hb
      omega
    · have := h'.bounds b hb
      omega
  · have := (h.bounds a ha).2
    have := (h'.bounds b hb).1
    omega

theorem Ascending.widen (h : Ascending lo hi as) {lo' hi' : Nat} (hlo : lo' ≤ lo)
    (hhi : hi ≤ hi') : Ascending lo' hi' as := by
  refine ⟨fun b hb => ?_, h.pairwise⟩
  have := h.bounds b hb
  omega

theorem Ascending.nodup (h : Ascending lo hi as) : as.Nodup := by
  refine List.Pairwise.imp ?_ h.pairwise
  rintro a b hlt rfl
  omega

end

section

variable {quickXml : Bytes → Option Bytes} {options : SplitterOptions} {source : Nat}

theorem markedElement_boxes {name : Option QName} {members : Bool} {l : Located}
    {box : Option Box} {inside : QName → List Mark} {lo hi : Nat} (hlt : lo < hi)
    (hbox : ∀ b ∈ box, b.byteOffset = lo)
    (hinside : ∀ name, Ascending lo hi (Mark.boxes (inside name))) :
    Ascending lo hi (Mark.boxes (markedElement options name members l box inside)) := by
  cases name with
  | none => exact .nil _ _
  | some name =>
    unfold markedElement wantedMark
    dsimp only
    split
    · split
      · exact .nil _ _
      · exact .nil _ _
    · split
      · cases box with
        | none => exact .nil _ _
        | some b =>
          refine ⟨fun c hc => ?_, List.pairwise_singleton _ b⟩
          rw [List.mem_singleton.1 hc]
          have := hbox b rfl
          omega
      · exact hinside name

theorem Content.marks_boxes (c : Content) : ∀ (scope : List (Option Bytes × Bytes))
    (members : Bool) (offset : Nat) (own outer : Option Box),
    Ascending offset (offset + c.render.length)
      (Mark.boxes (c.marks quickXml options source scope members offset own outer)) := by
  induction c with
  | nil =>
    intro scope members offset own outer
    exact .nil _ _
  | aside a rest ih =>
    intro scope members offset own outer
    rw [Content.render, List.length_append, ← Nat.add_assoc]
    exact (ih scope members _ own outer).widen (Nat.le_add_right _ _) (Nat.le_refl _)
  | empty tag rest ih =>
    intro scope members offset own outer
    have hpos : 0 < tag.renderEmpty.length := Nat.succ_pos _
    rw [Content.render, List.length_append, ← Nat.add_assoc, Content.marks, Mark.boxes_append]
    refine (markedElement_boxes ?_ ?_ fun _ => .nil _ _).append (ih scope members _ own outer)
      (Nat.le_add_right _ _) (Nat.le_add_right _ _)
    · omega
    · exact fun b hb => absurd hb (Option.not_mem_none b)
  | element tag children space rest ihc ihr =>
    intro scope members offset own outer
    have hpos : 0 < tag.renderStart.length := Nat.succ_pos _
    have hbytes : (tag.renderStart ++ (children.render ++ tag.renderEnd space)).length =
        tag.renderStart.length + (children.render.length + (tag.renderEnd space).length) := by
      rw [List.length_append, List.length_append]
    have hlen : offset + (Content.element tag children space rest).render.length =
        offset + (tag.renderStart ++ (children.render ++ tag.renderEnd space)).length +
          rest.render.length := by
      simp only [Content.render, List.length_append]
      omega
    rw [hlen, Content.marks, Mark.boxes_append]
    refine (markedElement_boxes ?_ ?_ fun name => ?_).append (ihr scope members _ _ outer)
      (Nat.le_add_right _ _) (Nat.le_add_right _ _)
    · omega
    · intro b hb
      rw [← Option.some.inj hb]
    · refine (ihc _ _ _ _ _).widen (Nat.le_add_right _ _) ?_
      omega

/-- The boxes of a document are different ones. -/
theorem Document.marks_boxes_nodup (doc : Document) :
    (Mark.boxes (doc.marks quickXml options source)).Nodup := by
  have hroot : Mark.boxes (doc.marksRoot quickXml options) = [] := by
    unfold Document.marksRoot
    split
    · simp [Mark.boxes, Mark.box?]
    · rfl
  unfold Document.marks
  rw [Mark.boxes_append, hroot, List.append_nil]
  unfold Document.marksInside
  cases doc.rootName quickXml with
  | none => exact List.nodup_nil
  | some name =>
    cases doc.root.content with
    | none => exact List.nodup_nil
    | some content => exact (content.1.marks_boxes _ _ _ _ _).nodup

end

end Xeibe

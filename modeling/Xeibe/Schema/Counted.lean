import Mathlib.Algebra.Ring.Nat
import Xeibe.Schema.Tree
import Xeibe.Schema.Merges

/-!
# What a scan counts

The walk counts the children of an open element in its frame and adds them to the
nodes when the element ends.  `Tallied` says that a node holds the counts of the
tree; an open element has the counts of the instances that were closed before it
in the nodes, and its own in its frame (`Open`).

A node whose `truncated` is set says nothing: a limit kept elements out of it.
-/

namespace Xeibe.Schema

open Lib

/-! ## Start tags -/

section

variable {V G B S ε : Type} {stats : Statistics V G B S ε} {limits : Limits}

/-- Two nodes' facts with the same counts. -/
structure NodeFacts.SameCounts (a b : NodeFacts V G) : Prop where
  instances : a.instances = b.instances
  maxOccurs : a.maxOccurs = b.maxOccurs
  text : a.text = b.text
  mixed : a.mixed = b.mixed
  singleChild : a.singleChild = b.singleChild
  empty : a.empty = b.empty
  geometry : a.geometry = b.geometry
  byReference : a.byReference = b.byReference

namespace NodeFacts.SameCounts

variable {a b c : NodeFacts V G}

theorem refl (a : NodeFacts V G) : a.SameCounts a := ⟨rfl, rfl, rfl, rfl, rfl, rfl, rfl, rfl⟩

theorem trans (hab : a.SameCounts b) (hbc : b.SameCounts c) : a.SameCounts c where
  instances := hab.instances.trans hbc.instances
  maxOccurs := hab.maxOccurs.trans hbc.maxOccurs
  text := hab.text.trans hbc.text
  mixed := hab.mixed.trans hbc.mixed
  singleChild := hab.singleChild.trans hbc.singleChild
  empty := hab.empty.trans hbc.empty
  geometry := hab.geometry.trans hbc.geometry
  byReference := hab.byReference.trans hbc.byReference

end NodeFacts.SameCounts

/-- The counts stay, and the names are those of the attributes before and these, unless a
limit keeps some out. -/
structure NodeFacts.Takes (names : QName → Prop) (a b : NodeFacts V G) : Prop where
  counts : a.SameCounts b
  known : ∀ name ∈ Keyed.keys b.attributes, name ∈ Keyed.keys a.attributes ∨ names name
  all : b.truncated = false → a.truncated = false ∧
    ∀ name, name ∈ Keyed.keys a.attributes ∨ names name → name ∈ Keyed.keys b.attributes

namespace NodeFacts.Takes

variable {a b c : NodeFacts V G} {names names' : QName → Prop}

theorem refl (a : NodeFacts V G) (hnone : ∀ name, ¬ names name) : a.Takes names a where
  counts := .refl a
  known _ h := .inl h
  all h := ⟨h, fun name hname => hname.resolve_right (hnone name)⟩

theorem trans (hab : a.Takes names b) (hbc : b.Takes names' c) :
    a.Takes (fun name => names name ∨ names' name) c where
  counts := hab.counts.trans hbc.counts
  known name h := by
    rcases hbc.known name h with h | h
    · exact (hab.known name h).imp_right .inl
    · exact .inr (.inr h)
  all h := by
    obtain ⟨hb, hall⟩ := hbc.all h
    obtain ⟨ha, hall'⟩ := hab.all hb
    refine ⟨ha, fun name hname => hall name ?_⟩
    rcases hname with hname | hname | hname
    · exact .inl (hall' name (.inl hname))
    · exact .inl (hall' name (.inr hname))
    · exact .inr hname

theorem congr (h : a.Takes names b) (hnames : ∀ name, names name ↔ names' name) :
    a.Takes names' b := by
  have heq : names = names' := funext fun name => propext (hnames name)
  exact heq ▸ h

end NodeFacts.Takes

theorem addAttribute_takes (node : NodeFacts V G) (name : QName) (value : Bytes) :
    node.Takes (· = name) (addAttribute stats limits node name value) := by
  have hsame : ∀ attributes truncated,
      node.SameCounts { node with attributes := attributes, truncated := truncated } :=
    fun _ _ => ⟨rfl, rfl, rfl, rfl, rfl, rfl, rfl, rfl⟩
  rw [addAttribute]
  split_ifs with hknown hroom
  · refine ⟨hsame _ _, fun n hn => .inl ?_, fun h => ⟨h, fun n hn => ?_⟩⟩
    · rwa [Keyed.keys_update] at hn
    · dsimp only
      rw [Keyed.keys_update]
      exact hn.elim id fun hn => hn ▸ Keyed.lookup_isSome.mp hknown
  · refine ⟨hsame _ _, fun n hn => ?_, fun h => ⟨h, fun n hn => ?_⟩⟩
    · have hn : n ∈ Keyed.keys (node.attributes ++ [_]) := hn
      rw [Keyed.keys_append, List.mem_append] at hn
      exact hn.imp_right List.mem_singleton.mp
    · show n ∈ Keyed.keys (node.attributes ++ [_])
      rw [Keyed.keys_append, List.mem_append]
      exact hn.imp_right List.mem_singleton.mpr
  · refine ⟨hsame _ _, fun n hn => .inl hn, fun h => ?_⟩
    cases h

def nilReason : QName := ⟨none, utf8 "nilReason"⟩

theorem startAttribute_takes (s : Started V G) (attr : QName × Bytes) :
    s.node.Takes (fun name => name = attr.1 ∧ attr.1.ns ≠ some ns.XSI ∧ attr.1 ≠ nilReason)
      (startAttribute stats limits s attr).node := by
  obtain ⟨name, value⟩ := attr
  have hadd : ∀ facts : NodeFacts V G, name.ns ≠ some ns.XSI → name ≠ nilReason →
      facts.Takes (fun n => n = name ∧ name.ns ≠ some ns.XSI ∧ name ≠ nilReason)
        (addAttribute stats limits facts name value) := fun facts hxsi hreason =>
    (addAttribute_takes facts name value).congr fun n => by simp [hxsi, hreason]
  rw [startAttribute]
  split_ifs with hxsi hnil hhref hid hreason
  · exact .refl _ fun n hn => hn.2.1 hxsi
  · exact .refl _ fun n hn => hn.2.1 hxsi
  · refine hadd s.node hxsi fun heq => ?_
    rw [heq] at hhref
    cases hhref.1
  · have hne : name ≠ nilReason := by
      rintro rfl
      revert hid
      decide
    have hcounted : s.node.Takes (fun _ => False) { s.node with hasGmlId := s.node.hasGmlId + 1 } :=
      ⟨⟨rfl, rfl, rfl, rfl, rfl, rfl, rfl, rfl⟩, fun _ h => .inl h,
        fun h => ⟨h, fun _ hn => hn.resolve_right id⟩⟩
    exact (hcounted.trans (hadd _ hxsi hne)).congr fun n => false_or _ ▸ Iff.rfl
  · exact .refl _ fun n hn => hn.2.2 hreason
  · exact hadd s.node hxsi hreason

theorem startAttribute_nil (s : Started V G) (attr : QName × Bytes) :
    (startAttribute stats limits s attr).nil =
      if attr.1 = ⟨some ns.XSI, utf8 "nil"⟩ then
        trim attr.2 == utf8 "true" || trim attr.2 == utf8 "1"
      else s.nil := by
  obtain ⟨⟨ns, localName⟩, value⟩ := attr
  rw [startAttribute]
  simp only [QName.mk.injEq]
  split_ifs <;> first | rfl | grind

theorem startAttribute_nilReason (s : Started V G) (attr : QName × Bytes) :
    (startAttribute stats limits s attr).nilReason.isSome =
      (s.nilReason.isSome || decide (attr.1 = nilReason)) := by
  obtain ⟨name, value⟩ := attr
  rw [startAttribute]
  by_cases hreason : name = nilReason
  · subst hreason
    have hid : ¬ isGmlId nilReason = true := by decide
    have hxsi : ¬ nilReason.ns = some ns.XSI := by decide
    have hhref : ¬ (nilReason.ns = some ns.XLINK ∧ nilReason.localName = utf8 "href") := by decide
    simp only [if_neg hxsi, if_neg hhref, if_neg hid]
    simp [nilReason]
  · simp only [hreason, decide_false, Bool.or_false]
    split_ifs with _ _ _ _ h
    · rfl
    · rfl
    · rfl
    · rfl
    · exact absurd h hreason
    · rfl

variable (stats limits) in
/-- The attributes of a start tag, one after the other. -/
theorem foldl_startAttribute (attrs : List (QName × Bytes)) (s : Started V G) :
    s.node.Takes (fun name => ∃ attr ∈ attrs, name = attr.1 ∧ attr.1.ns ≠ some ns.XSI ∧
        attr.1 ≠ nilReason) (attrs.foldl (startAttribute stats limits) s).node ∧
      (attrs.foldl (startAttribute stats limits) s).nil =
        attrs.foldl (fun nil (name, value) =>
          if name = ⟨some ns.XSI, utf8 "nil"⟩ then
            trim value == utf8 "true" || trim value == utf8 "1"
          else nil) s.nil ∧
      (attrs.foldl (startAttribute stats limits) s).nilReason.isSome =
        (s.nilReason.isSome || attrs.any fun attr => attr.1 = nilReason) := by
  induction attrs generalizing s with
  | nil => exact ⟨.refl _ fun name ⟨attr, hattr, _⟩ => List.not_mem_nil hattr, rfl, by simp⟩
  | cons attr attrs ih =>
    obtain ⟨htakes, hnil, hreason⟩ := ih (startAttribute stats limits s attr)
    refine ⟨?_, ?_, ?_⟩
    · refine ((startAttribute_takes s attr).trans htakes).congr fun name => ?_
      simp only [List.mem_cons, exists_eq_or_imp]
    · rw [List.foldl_cons, hnil, startAttribute_nil, List.foldl_cons]
    · rw [List.foldl_cons, hreason, startAttribute_nilReason, List.any_cons, Bool.or_assoc]

variable (stats limits) in
/-- A start tag adds the attributes that say something of the element. -/
theorem startFacts_takes (facts : NodeFacts V G) (tag : StartTag) :
    facts.Takes (· ∈ tag.facts) (startFacts stats limits facts tag).1 := by
  obtain ⟨htakes, hnil, hreason⟩ :=
    foldl_startAttribute stats limits tag.attrs { node := facts }
  have hfacts : ∀ name, name ∈ tag.facts ↔ (∃ attr ∈ tag.attrs, name = attr.1) ∧
      name.ns ≠ some ns.XSI ∧ ¬ (name = nilReason ∧ tag.isNil = true) := by
    intro name
    simp only [StartTag.facts, nilReason, List.mem_filter, List.mem_map, decide_eq_true_eq,
      @eq_comm _ name]
  have hnames : ∀ name, (∃ attr ∈ tag.attrs, name = attr.1 ∧ attr.1.ns ≠ some ns.XSI ∧
      attr.1 ≠ nilReason) ↔ (∃ attr ∈ tag.attrs, name = attr.1) ∧ name.ns ≠ some ns.XSI ∧
        name ≠ nilReason := by
    intro name
    constructor
    · rintro ⟨attr, hattr, rfl, hrest⟩
      exact ⟨⟨attr, hattr, rfl⟩, hrest⟩
    · rintro ⟨⟨attr, hattr, rfl⟩, hrest⟩
      exact ⟨attr, hattr, rfl, hrest⟩
  have hcounted : ∀ (f : NodeFacts V G) (nil : NilStats),
      f.Takes (fun _ => False) { f with nil := nil } := fun f nil =>
    ⟨⟨rfl, rfl, rfl, rfl, rfl, rfl, rfl, rfl⟩, fun _ h => .inl h,
      fun h => ⟨h, fun _ hn => hn.resolve_right id⟩⟩
  have hisNil : (tag.attrs.foldl (startAttribute stats limits) { node := facts }).nil =
      tag.isNil := hnil
  rw [startFacts]
  split
  · rename_i hn hr
    refine (htakes.trans (hcounted _ _)).congr fun name => ?_
    rw [or_false, hnames, hfacts, ← hisNil, hn]
    simp
  · rename_i hn hr
    refine (htakes.trans (hcounted _ _)).congr fun name => ?_
    rw [or_false, hnames, hfacts, ← hisNil, hn]
    simp
  · rename_i reason hn hr
    refine (htakes.trans (addAttribute_takes _ _ _)).congr fun name => ?_
    rw [hr] at hreason
    have hmem : ∃ attr ∈ tag.attrs, attr.1 = nilReason := by simpa using hreason
    rw [hnames, hfacts, ← hisNil, hn]
    constructor
    · rintro (⟨hname, hxsi, -⟩ | rfl)
      · exact ⟨hname, hxsi, fun h => by cases h.2⟩
      · obtain ⟨attr, hattr, heq⟩ := hmem
        exact ⟨⟨attr, hattr, heq.symm⟩, (fun h => by cases h), fun h => by cases h.2⟩
    · rintro ⟨hname, hxsi, -⟩
      by_cases heq : name = nilReason
      · exact .inr heq
      · exact .inl ⟨hname, hxsi, heq⟩
  · rename_i hn hr
    refine htakes.congr fun name => ?_
    rw [hr] at hreason
    have hnone : ∀ attr ∈ tag.attrs, attr.1 ≠ nilReason := by simpa using hreason
    rw [hnames, hfacts, ← hisNil, hn]
    constructor
    · rintro ⟨hname, hxsi, -⟩
      exact ⟨hname, hxsi, fun h => by cases h.2⟩
    · rintro ⟨⟨attr, hattr, rfl⟩, hxsi, -⟩
      exact ⟨⟨attr, hattr, rfl⟩, hxsi, hnone attr hattr⟩

/-! ## Content -/

variable [Merge B] {w : WalkState B} {node : ElementNode V G} {frame : Frame S} {depth : Nat}
  {inst : Instance}

/-- What becomes of a child element: it is sniffed, kept out or walked through. -/
theorem content_element {tag : StartTag} {inner rest : Body ε}
    {result : WalkState B × ElementNode V G × Frame S}
    (h : content stats w node frame depth inst (.element (.ok tag) inner rest) = .ok result) :
    (isInside stats depth tag.name = true ∧ ∃ w₁ sniff, content stats w₁ node
      { frame with hadChildren := true, geometries := frame.geometries ++ [sniff] }
      depth inst rest = .ok result) ∨
    (isInside stats depth tag.name = false ∧
      content stats w node.truncate { frame with hadChildren := true } depth inst rest =
        .ok result) ∨
    (isInside stats depth tag.name = false ∧ ∃ w₂ child childFrame,
      content stats (openChild stats w node tag).1 (openChild stats w node tag).2.1 {} (depth + 1)
        (openChild stats w node tag).2.2 inner = .ok (w₂, child, childFrame) ∧
      content stats w₂ (node.setChild tag.name
          (close stats w₂ child childFrame (openChild stats w node tag).2.2))
        (({ frame with hadChildren := true } : Frame S).count
          ((node.children.findIdx? fun e => e.1 == tag.name).getD node.children.length)
          (w.evidence tag.location)) depth inst rest = .ok result) := by
  have hinside : (1 ≤ depth ∧ isGeometryElement stats tag.name = true) ↔
      isInside stats depth tag.name = true := by
    simp [isInside]
  rw [content] at h
  dsimp only at h
  split_ifs at h with hgeometry hlimit
  · obtain ⟨⟨w₁, sniff⟩, -, h⟩ := bind_eq_ok.1 h
    exact .inl ⟨hinside.mp hgeometry, w₁, sniff, h⟩
  · obtain ⟨_, -, h⟩ := bind_eq_ok.1 h
    exact .inr (.inl ⟨Bool.eq_false_iff.mpr (mt hinside.mpr hgeometry), h⟩)
  · obtain ⟨⟨w₂, child, childFrame⟩, hinner, h⟩ := bind_eq_ok.1 h
    exact .inr (.inr ⟨Bool.eq_false_iff.mpr (mt hinside.mpr hgeometry), w₂, child, childFrame,
      hinner, h⟩)

/-- What a walk reads apart from the children: the node's own facts stay, but for the mark
of a limit. -/
structure Reads (stats : Statistics V G B S ε) (depth : Nat) (body : Body ε)
    (node node' : ElementNode V G) (frame frame' : Frame S) : Prop where
  counts : node.facts.SameCounts node'.facts
  attributes : node'.facts.attributes = node.facts.attributes
  untruncated : node'.facts.truncated = false → node.facts.truncated = false
  hadText : frame'.hadText = (frame.hadText || body.hasText)
  hadChildren : frame'.hadChildren = (frame.hadChildren || !body.elements.isEmpty)
  geometries : frame'.geometries.isEmpty = (frame.geometries.isEmpty &&
    !body.elements.any fun child => isInside stats depth child.1.name)

theorem content_reads {body : Body ε} {w' : WalkState B} {node' : ElementNode V G}
    {frame' : Frame S}
    (h : content stats w node frame depth inst body = .ok (w', node', frame')) :
    Reads stats depth body node node' frame frame' := by
  induction body generalizing w node frame with
  | done =>
    cases h
    exact ⟨.refl _, rfl, id, by simp [Body.hasText], by simp [Body.elements],
      by simp [Body.elements]⟩
  | text s rest ih =>
    have hrest := ih h
    refine { hrest with
      hadText := hrest.hadText.trans ?_
      hadChildren := hrest.hadChildren.trans ?_
      geometries := hrest.geometries.trans ?_ }
    · rw [Body.hasText, Frame.addText]
      cases (trim s).isEmpty <;> simp
    · rw [Frame.addText, Body.elements]
      split <;> rfl
    · rw [Frame.addText, Body.elements]
      split <;> rfl
  | unreadable error rest => cases h
  | broken error => cases h
  | element tag inner rest _ ih =>
    cases tag with
    | error error => cases h
    | ok tag =>
      rcases content_element h with ⟨hinside, w₁, sniff, h⟩ | ⟨hinside, h⟩ |
        ⟨hinside, w₂, child, childFrame, -, h⟩
      · have hrest := ih h
        exact { hrest with
          hadChildren := hrest.hadChildren.trans (by simp [Body.elements])
          geometries := hrest.geometries.trans (by simp [Body.elements, hinside]) }
      · have hrest := ih h
        exact { hrest with
          counts := .trans (b := node.truncate.facts)
            ⟨rfl, rfl, rfl, rfl, rfl, rfl, rfl, rfl⟩ hrest.counts
          untruncated := fun hn => absurd (hrest.untruncated hn) Bool.noConfusion
          hadChildren := hrest.hadChildren.trans (by simp [Body.elements])
          geometries := hrest.geometries.trans (by simp [Body.elements, hinside]) }
      · have hrest := ih h
        exact { hrest with
          hadChildren := hrest.hadChildren.trans (by simp [Body.elements, Frame.count])
          geometries := hrest.geometries.trans (by simp [Body.elements, hinside, Frame.count]) }

end

/-! ## Tallies -/

section

variable {R G B S ε : Type} (stats : Statistics R G B S ε)

/-- The facts of a node with instances of these start tags and these contents. -/
structure Tally (depth : Nat) (tags : List StartTag) (bodies : List (Body ε))
    (facts : NodeFacts (ValueStats R) G) : Prop where
  instances : facts.instances = tags.length
  attributes : ∀ name, name ∈ Keyed.keys facts.attributes ↔ ∃ tag ∈ tags, name ∈ tag.facts
  text : facts.text.elim 0 ValueStats.count =
    bodies.countP fun body => body.hasText && body.elements.isEmpty
  mixed : facts.mixed = bodies.any fun body => body.hasText && !body.elements.isEmpty
  singleChild : facts.singleChild = bodies.countP fun body => !body.hasText &&
    (body.elements.filter fun child => !isInside stats depth child.1.name).length == 1
  noContent : facts.empty + facts.byReference = bodies.countP Body.isEmpty
  geometry : facts.geometry.isSome = bodies.any fun body =>
    body.elements.any fun child => isInside stats depth child.1.name

/-- A node that holds the counts of these elements, and so do its children, unless a limit
kept elements out. -/
inductive Tallied : Nat → List (Element ε) → ElementNode (ValueStats R) G → Prop where
  | mk {depth : Nat} {elements : List (Element ε)} {node : ElementNode (ValueStats R) G} :
    (Keyed.keys node.children).Nodup →
    (node.facts.truncated = false →
      Tally stats depth (elements.map Prod.fst) (elements.map Prod.snd) node.facts) →
    (node.facts.truncated = false → ∀ e ∈ elements, ∀ child ∈ e.2.elements,
      isInside stats depth child.1.name = false → child.1.name ∈ Keyed.keys node.children) →
    (node.facts.truncated = false → ∀ e ∈ node.children, isInside stats depth e.1 = false ∧
      childrenNamed e.1 elements ≠ [] ∧ e.2.facts.maxOccurs = mostOccurrences e.1 elements) →
    (node.facts.truncated = false → ∀ e ∈ node.children,
      Tallied (depth + 1) (childrenNamed e.1 elements) e.2) →
    Tallied depth elements node

/-- What the frame of an open element counts of its children. -/
def countAt (childCounts : List (Nat × Nat × Option Location)) (index : Nat) : Nat :=
  (childCounts.map fun c => if c.1 = index then c.2.1 else 0).foldr max 0

/-- The children of an open element: the nodes hold the counts of the instances that were
closed, the frame those of the children so far. -/
structure Counts (depth : Nat) (closed : List (Element ε)) (children : List (Element ε))
    (node : ElementNode (ValueStats R) G) (frame : Frame S) : Prop where
  covered : ∀ child, (∃ e ∈ closed, child ∈ e.2.elements) ∨ child ∈ children →
    isInside stats depth child.1.name = false → child.1.name ∈ Keyed.keys node.children
  known : ∀ e ∈ node.children, isInside stats depth e.1 = false ∧
    childrenNamed e.1 closed ++ (children.filter fun child => child.1.name = e.1) ≠ [] ∧
    e.2.facts.maxOccurs = mostOccurrences e.1 closed
  below : ∀ e ∈ node.children, Tallied stats (depth + 1)
    (childrenNamed e.1 closed ++ children.filter fun child => child.1.name = e.1) e.2
  counted : ∀ index, countAt frame.childCounts index =
    ((Keyed.keys node.children)[index]?).elim 0 fun name => occurrences name children
  total : (frame.childCounts.map fun c => c.2.1).sum =
    (children.filter fun child => !isInside stats depth child.1.name).length
  positive : ∀ c ∈ frame.childCounts, 1 ≤ c.2.1
  indices : (frame.childCounts.map fun c => c.1).Nodup

/-- An element whose content is being walked. -/
structure Open (depth : Nat) (closed : List (Element ε)) (children : List (Element ε))
    (node : ElementNode (ValueStats R) G) (frame : Frame S) : Prop where
  distinct : (Keyed.keys node.children).Nodup
  counts : node.facts.truncated = false → Counts stats depth closed children node frame

variable {stats} {depth : Nat} {tags : List StartTag} {bodies : List (Body ε)}
  {facts facts' : NodeFacts (ValueStats R) G}

namespace Tally

theorem congr (h : Tally stats depth tags bodies facts) (hcounts : facts.SameCounts facts')
    (hattributes : facts'.attributes = facts.attributes) :
    Tally stats depth tags bodies facts' where
  instances := by rw [← hcounts.instances, h.instances]
  attributes := by rw [hattributes]; exact h.attributes
  text := by rw [← hcounts.text, h.text]
  mixed := by rw [← hcounts.mixed, h.mixed]
  singleChild := by rw [← hcounts.singleChild, h.singleChild]
  noContent := by rw [← hcounts.empty, ← hcounts.byReference, h.noContent]
  geometry := by rw [← hcounts.geometry, h.geometry]

/-- One more start tag. -/
theorem start (h : Tally stats depth tags bodies facts) {tag : StartTag}
    (htakes : NodeFacts.Takes (· ∈ tag.facts) { facts with instances := facts.instances + 1 } facts')
    (huntruncated : facts'.truncated = false) :
    Tally stats depth (tags ++ [tag]) bodies facts' where
  instances := by
    rw [← htakes.counts.instances, List.length_append, List.length_singleton]
    exact congrArg (· + 1) h.instances
  attributes name := by
    have hknown := htakes.known name
    have hall := (htakes.all huntruncated).2 name
    have hbefore := h.attributes name
    constructor
    · intro hname
      rcases hknown hname with hname | hname
      · obtain ⟨tag', htag', hname⟩ := hbefore.mp hname
        exact ⟨tag', List.mem_append_left _ htag', hname⟩
      · exact ⟨tag, List.mem_append_right _ (List.mem_singleton_self _), hname⟩
    · rintro ⟨tag', htag', hname⟩
      rcases List.mem_append.mp htag' with htag' | htag'
      · exact hall (.inl (hbefore.mpr ⟨tag', htag', hname⟩))
      · rw [List.mem_singleton.mp htag'] at hname
        exact hall (.inr hname)
  text := by rw [← htakes.counts.text]; exact h.text
  mixed := by rw [← htakes.counts.mixed]; exact h.mixed
  singleChild := by rw [← htakes.counts.singleChild]; exact h.singleChild
  noContent := by
    rw [← htakes.counts.empty, ← htakes.counts.byReference]
    exact h.noContent
  geometry := by rw [← htakes.counts.geometry]; exact h.geometry

/-- One child was counted, and it was counted once. -/
theorem singleChild_eq_one (hadText : Bool) (childCounts : List (Nat × Nat × Option Location))
    (n : Nat) : (∀ c ∈ childCounts, 1 ≤ c.2.1) →
    (match hadText, childCounts with
      | false, [(_, 1, _)] => n + 1
      | _, _ => n) =
      n + if !hadText && (childCounts.map fun c => c.2.1).sum == 1 then 1 else 0 := by
  intro hpositive
  cases hadText with
  | true => simp
  | false =>
    rcases childCounts with _ | ⟨⟨i, count, second⟩, _ | ⟨⟨j, count', second'⟩, rest⟩⟩
    · simp
    · rcases count with _ | _ | count <;> simp
    · have hfirst : 1 ≤ count := hpositive _ List.mem_cons_self
      have hsecond : 1 ≤ count' := hpositive _ (List.mem_cons_of_mem _ List.mem_cons_self)
      have hne : count + (count' + (rest.map fun c => c.2.1).sum) ≠ 1 := by omega
      simp [hne]

/-- The end of an element whose frame read its content. -/
theorem close (h : Tally stats depth tags bodies facts) (w : WalkState B) {frame : Frame S}
    (inst : Instance) {body : Body ε} (hadText : frame.hadText = body.hasText)
    (hadChildren : frame.hadChildren = !body.elements.isEmpty)
    (hgeometries : frame.geometries.isEmpty =
      !body.elements.any fun child => isInside stats depth child.1.name)
    (htotal : (frame.childCounts.map fun c => c.2.1).sum =
      (body.elements.filter fun child => !isInside stats depth child.1.name).length)
    (hpositive : ∀ c ∈ frame.childCounts, 1 ≤ c.2.1) :
    Tally stats depth tags (bodies ++ [body]) (closeFacts stats.counted w facts frame inst) where
  instances := h.instances
  attributes := h.attributes
  text := by
    rw [List.countP_append, ← h.text, List.countP_singleton, closeFacts]
    simp only [hadText, hadChildren, Bool.not_not]
    cases hcase : body.hasText && body.elements.isEmpty with
    | false => simp
    | true => cases facts.text <;> simp [Statistics.counted]
  mixed := by
    rw [List.any_append, ← h.mixed, closeFacts]
    simp [hadText, hadChildren]
  singleChild := by
    rw [List.countP_append, ← h.singleChild, List.countP_singleton, closeFacts]
    refine (singleChild_eq_one frame.hadText frame.childCounts _ hpositive).trans ?_
    rw [hadText, htotal]
  noContent := by
    rw [List.countP_append, ← h.noContent, List.countP_singleton, closeFacts]
    have hcontent : (frame.hadText || frame.hadChildren) = !body.isEmpty := by
      rw [hadText, hadChildren, Body.isEmpty]
      cases body.hasText <;> cases body.elements.isEmpty <;> rfl
    simp only [hcontent]
    cases inst.href <;> cases body.isEmpty <;> simp <;> omega
  geometry := by
    rw [List.any_append, ← h.geometry, closeFacts]
    simp only [hgeometries, List.any_cons, List.any_nil, Bool.or_false]
    cases body.elements.any fun child => isInside stats depth child.1.name with
    | false => simp
    | true => cases inst.array <;> simp

end Tally

/-! ### The counters of a frame -/

theorem countAt_cons (c : Nat × Nat × Option Location)
    (childCounts : List (Nat × Nat × Option Location)) (index : Nat) :
    countAt (c :: childCounts) index =
      max (if c.1 = index then c.2.1 else 0) (countAt childCounts index) := rfl

theorem countAt_append (childCounts more : List (Nat × Nat × Option Location)) (index : Nat) :
    countAt (childCounts ++ more) index =
      max (countAt childCounts index) (countAt more index) := by
  rw [countAt, List.map_append, foldr_max_append]
  rfl

theorem countAt_eq_zero {childCounts : List (Nat × Nat × Option Location)} {index : Nat}
    (h : ∀ c ∈ childCounts, c.1 ≠ index) : countAt childCounts index = 0 := by
  induction childCounts with
  | nil => rfl
  | cons c childCounts ih =>
    rw [countAt_cons, if_neg (h c List.mem_cons_self),
      ih fun c hc => h c (List.mem_cons_of_mem _ hc)]
    rfl

/-- Another instance at an index that was counted before. -/
def countOnce (index : Nat) (evidence : Location) (c : Nat × Nat × Option Location) :
    Nat × Nat × Option Location :=
  if c.1 = index then (c.1, c.2.1 + 1, c.2.2.or (some evidence)) else c

theorem childCounts_count (frame : Frame S) (index : Nat) (evidence : Location) :
    (frame.count index evidence).childCounts =
      if frame.childCounts.any (·.1 == index) then
        frame.childCounts.map (countOnce index evidence)
      else frame.childCounts ++ [(index, 1, none)] := rfl

section

variable {childCounts : List (Nat × Nat × Option Location)} {index : Nat} {evidence : Location}

theorem countAt_map_countOnce (h : ∃ c ∈ childCounts, c.1 = index) (i : Nat) :
    countAt (childCounts.map (countOnce index evidence)) i =
      countAt childCounts i + if i = index then 1 else 0 := by
  induction childCounts with
  | nil =>
    obtain ⟨c, hc, -⟩ := h
    exact absurd hc List.not_mem_nil
  | cons c rest ih =>
    have hfst : (countOnce index evidence c).1 = c.1 := by
      rw [countOnce]
      split <;> rfl
    have hcount : (countOnce index evidence c).2.1 = c.2.1 + if c.1 = index then 1 else 0 := by
      rw [countOnce]
      split <;> rfl
    rw [List.map_cons, countAt_cons, countAt_cons, hfst, hcount]
    by_cases hrest : ∃ c ∈ rest, c.1 = index
    · rw [ih hrest]
      split_ifs <;> omega
    · have hnone : ∀ c ∈ rest, c.1 ≠ index := fun c hc heq => hrest ⟨c, hc, heq⟩
      have hsame : rest.map (countOnce index evidence) = rest :=
        (List.map_congr_left fun c hc => if_neg (hnone c hc)).trans (List.map_id _)
      have hhere : c.1 = index := by
        obtain ⟨d, hd, heq⟩ := h
        rcases List.mem_cons.mp hd with rfl | hd
        · exact heq
        · exact absurd heq (hnone d hd)
      rw [hsame, hhere]
      by_cases hi : i = index
      · subst hi
        rw [countAt_eq_zero hnone]
        simp
      · simp [hi, Ne.symm hi]

theorem sum_map_countOnce (h : ∃ c ∈ childCounts, c.1 = index)
    (hnodup : (childCounts.map fun c => c.1).Nodup) :
    ((childCounts.map (countOnce index evidence)).map fun c => c.2.1).sum =
      (childCounts.map fun c => c.2.1).sum + 1 := by
  induction childCounts with
  | nil =>
    obtain ⟨c, hc, -⟩ := h
    exact absurd hc List.not_mem_nil
  | cons c rest ih =>
    obtain ⟨hnew, hrest⟩ := List.nodup_cons.mp hnodup
    by_cases hhere : c.1 = index
    · have hsame : rest.map (countOnce index evidence) = rest := by
        refine (List.map_congr_left fun d hd => if_neg fun heq => hnew ?_).trans (List.map_id _)
        exact List.mem_map.mpr ⟨d, hd, heq.trans hhere.symm⟩
      simp only [List.map_cons, List.sum_cons, hsame, countOnce, if_pos hhere]
      omega
    · have hlater : ∃ d ∈ rest, d.1 = index := by
        obtain ⟨d, hd, heq⟩ := h
        rcases List.mem_cons.mp hd with rfl | hd
        · exact absurd heq hhere
        · exact ⟨d, hd, heq⟩
      have hone : countOnce index evidence c = c := if_neg hhere
      simp only [List.map_cons, List.sum_cons, hone, ih hlater hrest]
      omega

end

theorem ne_of_not_any {childCounts : List (Nat × Nat × Option Location)} {index : Nat}
    (h : ¬ childCounts.any (·.1 == index) = true) : ∀ c ∈ childCounts, c.1 ≠ index :=
  fun c hc heq => h (List.any_eq_true.mpr ⟨c, hc, beq_iff_eq.mpr heq⟩)

theorem countAt_count (frame : Frame S) (index : Nat) (evidence : Location) (i : Nat) :
    countAt (frame.count index evidence).childCounts i =
      countAt frame.childCounts i + if i = index then 1 else 0 := by
  rw [childCounts_count]
  split
  · rename_i h
    exact countAt_map_countOnce (by simpa using h) i
  · rename_i h
    have hnone := ne_of_not_any h
    rw [countAt_append, countAt_cons]
    by_cases hi : i = index
    · subst hi
      rw [countAt_eq_zero hnone]
      simp [countAt]
    · simp [hi, Ne.symm hi, countAt]

theorem sum_count (frame : Frame S) (index : Nat) (evidence : Location)
    (hnodup : (frame.childCounts.map fun c => c.1).Nodup) :
    ((frame.count index evidence).childCounts.map fun c => c.2.1).sum =
      (frame.childCounts.map fun c => c.2.1).sum + 1 := by
  rw [childCounts_count]
  split
  · rename_i h
    exact sum_map_countOnce (by simpa using h) hnodup
  · simp

theorem nodup_count (frame : Frame S) (index : Nat) (evidence : Location)
    (hnodup : (frame.childCounts.map fun c => c.1).Nodup) :
    ((frame.count index evidence).childCounts.map fun c => c.1).Nodup := by
  rw [childCounts_count]
  split
  · have hfst : (frame.childCounts.map (countOnce index evidence)).map (fun c => c.1) =
        frame.childCounts.map fun c => c.1 := by
      rw [List.map_map]
      refine List.map_congr_left fun c _ => ?_
      simp only [Function.comp_apply, countOnce]
      split <;> rfl
    rw [hfst]
    exact hnodup
  · rename_i h
    have hnone := ne_of_not_any h
    rw [List.map_append, List.map_singleton]
    refine hnodup.append (List.nodup_singleton _) fun i hi hi' => ?_
    obtain ⟨c, hc, rfl⟩ := List.mem_map.mp hi
    exact hnone c hc (List.mem_singleton.mp hi')

theorem positive_count (frame : Frame S) (index : Nat) (evidence : Location)
    (hpositive : ∀ c ∈ frame.childCounts, 1 ≤ c.2.1) :
    ∀ c ∈ (frame.count index evidence).childCounts, 1 ≤ c.2.1 := by
  rw [childCounts_count]
  intro c hc
  split at hc
  · obtain ⟨d, hd, rfl⟩ := List.mem_map.mp hc
    have hd := hpositive d hd
    rw [countOnce]
    split
    · exact Nat.le_add_left 1 _
    · exact hd
  · rcases List.mem_append.mp hc with hc | hc
    · exact hpositive c hc
    · rw [List.mem_singleton.mp hc]

/-! ### Closing -/

/-- The children of an element that ends, with the counts of its frame. -/
theorem mem_closeChildren_counted {V : Type} {children : List (QName × ElementNode V G)}
    {childCounts : List (Nat × Nat × Option Location)} {e : QName × ElementNode V G}
    (he : e ∈ closeChildren children childCounts) :
    ∃ (index : Nat) (known : QName × ElementNode V G) (parentsWith : Nat)
        (firstMulti : Option Location), children[index]? = some known ∧
      e = (known.1, known.2.mapFacts fun facts => { facts with
        parentsWith := parentsWith
        maxOccurs := max facts.maxOccurs (countAt childCounts index)
        firstMulti := firstMulti }) := by
  induction childCounts generalizing children with
  | nil =>
    obtain ⟨index, hindex⟩ := List.mem_iff_getElem?.mp he
    refine ⟨index, e, e.2.facts.parentsWith, e.2.facts.firstMulti, hindex, ?_⟩
    obtain ⟨name, facts, children⟩ := e
    simp [ElementNode.mapFacts, countAt]
  | cons c rest ih =>
    obtain ⟨at', count, second⟩ := c
    rw [closeChildren, List.foldl_cons] at he
    obtain ⟨index, known, parentsWith, firstMulti, hknown, rfl⟩ := ih he
    rw [List.getElem?_modify] at hknown
    obtain ⟨old, hold, hknown⟩ := Option.map_eq_some_iff.mp hknown
    refine ⟨index, old, parentsWith, firstMulti, hold, ?_⟩
    rw [countAt_cons]
    by_cases hindex : at' = index
    · rw [if_pos hindex] at hknown
      subst hknown
      simp [ElementNode.mapFacts, hindex, Nat.max_assoc]
    · rw [if_neg hindex] at hknown
      subst hknown
      simp [hindex]

theorem keys_closeChildren {V : Type} (children : List (QName × ElementNode V G))
    (childCounts : List (Nat × Nat × Option Location)) :
    Keyed.keys (closeChildren children childCounts) = Keyed.keys children := by
  rw [← keys_outlineOf ElementNode.seen, outline_closeChildren, keys_outlineOf]

variable {closed children : List (Element ε)} {node : ElementNode (ValueStats R) G}
  {frame : Frame S}

theorem Tallied.recount {elements : List (Element ε)} (h : Tallied stats depth elements node)
    (parentsWith maxOccurs : Nat) (firstMulti : Option Location) :
    Tallied stats depth elements (node.mapFacts fun facts => { facts with
      parentsWith := parentsWith, maxOccurs := maxOccurs, firstMulti := firstMulti }) := by
  obtain ⟨hdistinct, htally, hcovered, hknown, hbelow⟩ := h
  refine .mk hdistinct (fun hn => ?_) hcovered hknown hbelow
  obtain ⟨hinstances, hattributes, htext, hmixed, hsingle, hcontent, hgeometry⟩ := htally hn
  exact ⟨hinstances, hattributes, htext, hmixed, hsingle, hcontent, hgeometry⟩

theorem Tallied.close {tag : StartTag} {inner : Body ε} (w : WalkState B) (inst : Instance)
    (h : Open stats depth closed inner.elements node frame)
    (htally : node.facts.truncated = false →
      Tally stats depth (closed.map Prod.fst ++ [tag]) (closed.map Prod.snd) node.facts)
    (hadText : frame.hadText = inner.hasText)
    (hadChildren : frame.hadChildren = !inner.elements.isEmpty)
    (hgeometries : frame.geometries.isEmpty =
      !inner.elements.any fun child => isInside stats depth child.1.name) :
    Tallied stats depth (closed ++ [(tag, inner)]) (close stats.counted w node frame inst) := by
  have hnamed : ∀ name, childrenNamed name (closed ++ [(tag, inner)]) =
      childrenNamed name closed ++ inner.elements.filter fun child => child.1.name = name :=
    fun name => by rw [childrenNamed_append, childrenNamed_singleton]
  refine .mk ?_ (fun hn => ?_) (fun hn e he child hchild hinside => ?_) (fun hn e he => ?_)
    (fun hn e he => ?_)
  · rw [Schema.close, ElementNode.children_mk, keys_closeChildren]
    exact h.distinct
  · have hcounts := h.counts hn
    rw [List.map_append, List.map_append]
    exact (htally hn).close w inst hadText hadChildren hgeometries hcounts.total hcounts.positive
  · rw [Schema.close, ElementNode.children_mk, keys_closeChildren]
    refine (h.counts hn).covered child ?_ hinside
    rcases List.mem_append.mp he with he | he
    · exact .inl ⟨e, he, hchild⟩
    · rw [List.mem_singleton.mp he] at hchild
      exact .inr hchild
  · have hcounts := h.counts hn
    obtain ⟨index, known, parentsWith, firstMulti, hindex, rfl⟩ := mem_closeChildren_counted he
    obtain ⟨hinside, hused, hmax⟩ := hcounts.known known (List.mem_of_getElem? hindex)
    refine ⟨hinside, ?_, ?_⟩
    · rw [hnamed]
      exact hused
    · have hkey : (Keyed.keys node.children)[index]? = some known.1 := by
        rw [Keyed.keys, List.getElem?_map, hindex]
        rfl
      have hcount := hcounts.counted index
      rw [hkey] at hcount
      rw [mostOccurrences_append, mostOccurrences_singleton, ← hmax]
      exact congrArg (max _) hcount
  · obtain ⟨index, known, parentsWith, firstMulti, hindex, rfl⟩ := mem_closeChildren_counted he
    rw [hnamed]
    exact ((h.counts hn).below known (List.mem_of_getElem? hindex)).recount _ _ _

/-! ### Opening -/

theorem Tallied.new (facts : NodeFacts (ValueStats R) G)
    (h : facts.truncated = false → Tally stats depth [] [] facts) :
    Tallied stats depth [] (.mk facts []) :=
  .mk List.nodup_nil h (fun _ _ he => absurd he List.not_mem_nil)
    (fun _ _ he => absurd he List.not_mem_nil) fun _ _ he => absurd he List.not_mem_nil

theorem tally_default (firstSeen : Option Position) :
    Tally stats depth [] [] ({ firstSeen := firstSeen } : NodeFacts (ValueStats R) G) :=
  ⟨rfl, fun name => by simp, rfl, rfl, rfl, rfl, rfl⟩

/-- The start of another instance. -/
theorem Tallied.start {elements : List (Element ε)} (h : Tallied stats depth elements node)
    {opened : ElementNode (ValueStats R) G} (hchildren : opened.children = node.children)
    (huntruncated : opened.facts.truncated = false → node.facts.truncated = false) :
    Open stats depth elements [] opened ({} : Frame S) := by
  obtain ⟨hdistinct, -, hcovered, hknown, hbelow⟩ := h
  refine ⟨hchildren ▸ hdistinct, fun hn => ?_⟩
  have hn := huntruncated hn
  refine ⟨fun child hchild hinside => ?_, fun e he => ?_, fun e he => ?_, fun index => ?_, rfl,
    fun c hc => absurd hc List.not_mem_nil, List.nodup_nil⟩
  · rw [hchildren]
    rcases hchild with ⟨e, he, hchild⟩ | hchild
    · exact hcovered hn e he child hchild hinside
    · exact absurd hchild List.not_mem_nil
  · rw [hchildren] at he
    rw [List.filter_nil, List.append_nil]
    exact hknown hn e he
  · rw [hchildren] at he
    rw [List.filter_nil, List.append_nil]
    exact hbelow hn e he
  · show 0 = _
    cases (Keyed.keys opened.children)[index]? <;> rfl

theorem enter_takes {V : Type} (stats : Statistics V G B S ε) (w : WalkState B)
    (node : ElementNode V G) (tag : StartTag) :
    (w.enter stats node tag).2.1.children = node.children ∧
      node.facts.Takes (· ∈ tag.facts) (w.enter stats node tag).2.1.facts := by
  refine ⟨rfl, ?_⟩
  have hstart := startFacts_takes stats w.limits node.facts tag
  refine ⟨hstart.counts.trans ⟨rfl, rfl, rfl, rfl, rfl, rfl, rfl, rfl⟩, hstart.known, hstart.all⟩

/-! ### One more child -/

/-- The place of a name is where it stands, or the next one. -/
theorem getElem?_keys_put {α : Type} {xs : List (QName × α)} {name : QName} (x : α) {place : Nat}
    (hplace : place = (xs.findIdx? fun e => e.1 == name).getD xs.length) :
    (Keyed.keys (Keyed.put name x xs))[place]? = some name ∧
      (Keyed.keys xs)[place]? = (if name ∈ Keyed.keys xs then some name else none) ∧
      ∀ index, index ≠ place →
        (Keyed.keys (Keyed.put name x xs))[index]? = (Keyed.keys xs)[index]? := by
  by_cases hknown : name ∈ Keyed.keys xs
  · rw [Keyed.put_of_mem hknown, Keyed.keys_update, if_pos hknown]
    suffices hfound : (Keyed.keys xs)[place]? = some name from ⟨hfound, hfound, fun _ _ => rfl⟩
    cases hfind : xs.findIdx? fun e => e.1 == name with
    | none =>
      obtain ⟨x, hx⟩ := Keyed.mem_keys.mp hknown
      have hne := List.findIdx?_eq_none_iff.mp hfind _ hx
      simp at hne
    | some found =>
      rw [hfind, Option.getD_some] at hplace
      obtain ⟨hlt, hname, -⟩ := List.findIdx?_eq_some_iff_getElem.mp hfind
      rw [hplace, Keyed.keys, List.getElem?_map, List.getElem?_eq_getElem hlt]
      exact congrArg some (beq_iff_eq.mp hname)
  · have hfind : xs.findIdx? (fun e => e.1 == name) = none := by
      refine List.findIdx?_eq_none_iff.mpr fun e he => ?_
      exact beq_eq_false_iff_ne.mpr fun heq => hknown (heq ▸ Keyed.mem_keys_of_mem he)
    rw [hfind, Option.getD_none, ← Keyed.length_keys] at hplace
    rw [Keyed.put_of_notMem hknown, Keyed.keys_append, hplace, if_neg hknown]
    refine ⟨List.getElem?_concat_length, List.getElem?_eq_none (Nat.le_refl _),
      fun index hne => ?_⟩
    rcases Nat.lt_or_gt_of_ne hne with hlt | hgt
    · exact List.getElem?_append_left hlt
    · rw [List.getElem?_eq_none (by rw [List.length_append]; exact hgt),
        List.getElem?_eq_none (by omega)]

theorem occurrences_snoc (name : QName) (children : List (Element ε)) (tag : StartTag)
    (inner : Body ε) : occurrences name (children ++ [(tag, inner)]) =
      occurrences name children + if tag.name = name then 1 else 0 := by
  rw [occurrences_append]
  simp [occurrences, List.countP_singleton]

theorem filter_snoc_of_ne {name : QName} {tag : StartTag} (h : tag.name ≠ name)
    (children : List (Element ε)) (inner : Body ε) :
    (children ++ [(tag, inner)]).filter (fun child => child.1.name = name) =
      children.filter fun child => child.1.name = name := by
  simp [h]

namespace Open

theorem congr {frame' : Frame S} (h : Open stats depth closed children node frame)
    (hframe : frame'.childCounts = frame.childCounts) :
    Open stats depth closed children node frame' := by
  refine ⟨h.distinct, fun hn => ?_⟩
  obtain ⟨hcovered, hknown, hbelow, hcounted, htotal, hpositive, hindices⟩ := h.counts hn
  exact ⟨hcovered, hknown, hbelow, hframe ▸ hcounted, hframe ▸ htotal, hframe ▸ hpositive,
    hframe ▸ hindices⟩

/-- A geometry element inside a property is no child of its own. -/
theorem geometry (h : Open stats depth closed children node frame) {tag : StartTag}
    (inner : Body ε) (hinside : isInside stats depth tag.name = true) :
    Open stats depth closed (children ++ [(tag, inner)]) node frame := by
  refine ⟨h.distinct, fun hn => ?_⟩
  obtain ⟨hcovered, hknown, hbelow, hcounted, htotal, hpositive, hindices⟩ := h.counts hn
  have hne : ∀ e ∈ node.children, tag.name ≠ e.1 := by
    intro e he heq
    rw [heq, (hknown e he).1] at hinside
    cases hinside
  refine ⟨fun child hchild hn' => ?_, fun e he => ?_, fun e he => ?_, fun index => ?_, ?_,
    hpositive, hindices⟩
  · rcases hchild with hchild | hchild
    · exact hcovered child (.inl hchild) hn'
    · rcases List.mem_append.mp hchild with hchild | hchild
      · exact hcovered child (.inr hchild) hn'
      · rw [List.mem_singleton.mp hchild, hinside] at hn'
        cases hn'
  · rw [filter_snoc_of_ne (hne e he)]
    exact hknown e he
  · rw [filter_snoc_of_ne (hne e he)]
    exact hbelow e he
  · rw [hcounted]
    cases hkey : (Keyed.keys node.children)[index]? with
    | none => rfl
    | some name =>
      obtain ⟨e, he, rfl⟩ := List.mem_map.mp (List.mem_of_getElem? hkey)
      show occurrences e.1 _ = occurrences e.1 _
      rw [occurrences_snoc, if_neg (hne e he), Nat.add_zero]
  · rw [htotal]
    simp [hinside]

/-- A child was closed: it takes its place, and the frame counts it. -/
theorem setChild (h : Open stats depth closed children node frame) {tag : StartTag}
    {inner : Body ε} (hinside : isInside stats depth tag.name = false)
    {child : ElementNode (ValueStats R) G}
    (hchild : node.facts.truncated = false → Tallied stats (depth + 1)
      (childrenNamed tag.name closed ++
        (children ++ [(tag, inner)]).filter fun child => child.1.name = tag.name) child)
    (hmax : node.facts.truncated = false →
      child.facts.maxOccurs = mostOccurrences tag.name closed) (evidence : Location) :
    Open stats depth closed (children ++ [(tag, inner)]) (node.setChild tag.name child)
      (frame.count ((node.children.findIdx? fun e => e.1 == tag.name).getD node.children.length)
        evidence) := by
  refine ⟨Keyed.nodup_put h.distinct _ _, fun hn => ?_⟩
  obtain ⟨hcovered, hknown, hbelow, hcounted, htotal, hpositive, hindices⟩ := h.counts hn
  obtain ⟨hhere, hbefore, helsewhere⟩ := getElem?_keys_put child
    (rfl : (node.children.findIdx? fun e => e.1 == tag.name).getD node.children.length = _)
  refine ⟨fun other hother hn' => ?_, fun e he => ?_, fun e he => ?_, fun index => ?_, ?_,
    positive_count _ _ _ hpositive, nodup_count _ _ _ hindices⟩
  · refine Keyed.mem_keys_put.mpr ?_
    rcases hother with hother | hother
    · exact .inl (hcovered other (.inl hother) hn')
    · rcases List.mem_append.mp hother with hother | hother
      · exact .inl (hcovered other (.inr hother) hn')
      · exact .inr (by rw [List.mem_singleton.mp hother])
  · rcases Keyed.mem_put he with rfl | ⟨hne, he⟩
    · exact ⟨hinside, by simp, hmax hn⟩
    · rw [filter_snoc_of_ne hne.symm]
      exact hknown e he
  · rcases Keyed.mem_put he with rfl | ⟨hne, he⟩
    · exact hchild hn
    · rw [filter_snoc_of_ne hne.symm]
      exact hbelow e he
  · rw [countAt_count, hcounted]
    show _ = ((Keyed.keys (Keyed.put tag.name child node.children))[index]?).elim 0 _
    have hnodup := Keyed.nodup_put h.distinct tag.name child
    by_cases hindex : index = (node.children.findIdx? fun e => e.1 == tag.name).getD
        node.children.length
    · rw [hindex, hhere, hbefore, if_pos rfl]
      show _ = occurrences tag.name _
      rw [occurrences_snoc, if_pos rfl]
      split_ifs with hname
      · rfl
      · -- A name without a node was not among the children so far.
        rw [occurrences_eq_zero]
        · rfl
        · intro other hother heq
          exact hname (heq ▸ hcovered other (.inr hother) (heq ▸ hinside))
    · rw [if_neg hindex, helsewhere index hindex, Nat.add_zero]
      cases hkey : (Keyed.keys node.children)[index]? with
      | none => rfl
      | some name =>
        have hne : tag.name ≠ name := by
          rintro rfl
          rw [← helsewhere index hindex] at hkey
          obtain ⟨hlt, -⟩ := List.getElem?_eq_some_iff.mp hkey
          exact hindex ((List.getElem?_inj hlt hnodup).mp (hkey.trans hhere.symm))
        show occurrences name _ = occurrences name _
        rw [occurrences_snoc, if_neg hne, Nat.add_zero]
  · rw [sum_count _ _ _ hindices, htotal]
    simp [hinside]

theorem truncate (h : Open stats depth closed children node frame) (frame' : Frame S)
    (children' : List (Element ε)) : Open stats depth closed children' node.truncate frame' :=
  ⟨h.distinct, fun hn => nomatch hn⟩

theorem of_truncated {children' : List (Element ε)} {frame' : Frame S}
    (hdistinct : (Keyed.keys node.children).Nodup) (h : node.facts.truncated = true) :
    Open stats depth closed children' node frame' :=
  ⟨hdistinct, fun hn => absurd (h.symm.trans hn) Bool.noConfusion⟩

end Open

variable {w w' : WalkState B} {node' : ElementNode (ValueStats R) G} {frame' : Frame S}
  {inst : Instance}

/-- A walk through another instance of an element. -/
theorem Tallied.instance {elements : List (Element ε)} {opened : ElementNode (ValueStats R) G}
    {tag : StartTag} {inner : Body ε} {depth : Nat}
    (h : Tallied stats depth elements node) (hchildren : opened.children = node.children)
    (htakes : NodeFacts.Takes (· ∈ tag.facts)
      { node.facts with instances := node.facts.instances + 1 } opened.facts)
    (hopen : Open stats depth elements [] opened ({} : Frame S) →
      Open stats depth elements inner.elements node' frame')
    (hreads : Reads stats.counted depth inner opened node' ({} : Frame S) frame')
    (w : WalkState B) (inst : Instance) :
    Tallied stats depth (elements ++ [(tag, inner)])
      (Schema.close stats.counted w node' frame' inst) := by
  have huntruncated : opened.facts.truncated = false → node.facts.truncated = false :=
    fun hn => (htakes.all hn).1
  refine Tallied.close w inst (hopen (h.start hchildren huntruncated)) (fun hn => ?_) ?_ ?_ ?_
  · have hn' := hreads.untruncated hn
    obtain ⟨-, htally, -⟩ := h
    exact ((htally (huntruncated hn')).start htakes hn').congr hreads.counts hreads.attributes
  · rw [hreads.hadText, Bool.false_or]
  · rw [hreads.hadChildren, Bool.false_or]
  · exact hreads.geometries

/-- The node that a start tag opens holds the counts of the elements of its name so far. -/
theorem Open.child (h : Open stats depth closed children node frame) {name : QName}
    (hinside : isInside stats depth name = false) (huntruncated : node.facts.truncated = false) :
    Tallied stats (depth + 1)
        (childrenNamed name closed ++ children.filter fun child => child.1.name = name)
        ((node.children.lookup name).getD (.new none)) ∧
      ((node.children.lookup name).getD (.new none)).facts.maxOccurs =
        mostOccurrences name closed := by
  have hcounts := h.counts huntruncated
  cases hlookup : node.children.lookup name with
  | some known =>
    have hmem := Keyed.mem_of_lookup hlookup
    exact ⟨hcounts.below _ hmem, (hcounts.known _ hmem).2.2⟩
  | none =>
    have hnew := Keyed.lookup_eq_none.mp hlookup
    have hclosed : ∀ e ∈ closed, ∀ child ∈ e.2.elements, child.1.name ≠ name := by
      rintro e he child hchild rfl
      exact hnew (hcounts.covered child (.inl ⟨e, he, hchild⟩) hinside)
    have hchildren : ∀ child ∈ children, child.1.name ≠ name := by
      rintro child hchild rfl
      exact hnew (hcounts.covered child (.inr hchild) hinside)
    have hnone : (children.filter fun child => child.1.name = name) = [] :=
      List.filter_eq_nil_iff.mpr fun child hchild => by simpa using hchildren child hchild
    rw [childrenNamed_eq_nil hclosed, hnone, mostOccurrences_eq_zero hclosed]
    exact ⟨.new _ fun _ => tally_default none, rfl⟩

variable [Merge B]

/-- The loop over the content of an element adds its child elements to those so far. -/
theorem content_open {body : Body ε} (h : Open stats depth closed children node frame)
    (hcontent : content stats.counted w node frame depth inst body = .ok (w', node', frame')) :
    Open stats depth closed (children ++ body.elements) node' frame' := by
  induction body generalizing w node frame depth inst closed children w' node' frame' with
  | done =>
    cases hcontent
    rw [Body.elements, List.append_nil]
    exact h
  | text s rest ih =>
    refine ih (h.congr ?_) hcontent
    rw [Frame.addText]
    split <;> rfl
  | unreadable error rest => cases hcontent
  | broken error => cases hcontent
  | element tag inner rest ihInner ihRest =>
    cases tag with
    | error error => cases hcontent
    | ok tag =>
      have hsnoc : children ++ (Body.element (.ok tag) inner rest).elements =
          (children ++ [(tag, inner)]) ++ rest.elements := by
        rw [List.append_assoc]
        rfl
      rw [hsnoc]
      rcases content_element hcontent with ⟨hinside, w₁, sniff, hcontent⟩ | ⟨hinside, hcontent⟩ |
        ⟨hinside, w₂, child, childFrame, hinner, hcontent⟩
      · refine ihRest ?_ hcontent
        exact (h.geometry inner hinside).congr rfl
      · exact ihRest (h.truncate _ _) hcontent
      · refine ihRest ?_ hcontent
        cases htruncated : node.facts.truncated with
        | true => exact .of_truncated (Keyed.nodup_put h.distinct _ _) htruncated
        | false =>
          obtain ⟨htallied, hmax⟩ := h.child hinside htruncated
          obtain ⟨hopened, htakes⟩ := enter_takes stats.counted w
            (((node.children.lookup tag.name).getD (.new none)).mapFacts fun facts =>
              { facts with instances := facts.instances + 1 }) tag
          have hreads := content_reads hinner
          have hclosed := htallied.instance hopened htakes (fun hstart => ihInner hstart hinner)
            hreads w₂ (openChild stats.counted w node tag).2.2
          refine (h.setChild hinside (fun _ => ?_) (fun _ => ?_) _).congr rfl
          · rw [List.filter_append, ← List.append_assoc]
            simpa using hclosed
          · have hcounts := htakes.counts.maxOccurs.trans hreads.counts.maxOccurs
            exact hcounts.symm.trans hmax

/-! ## Features -/

/-- The features of a chunk that a scan takes. -/
def Body.features (layers : Option (List QName)) : Option Nat → Body ε → List (Element ε)
  | _, .done => []
  | budget, .text _ rest => rest.features layers budget
  | _, .unreadable _ _ => []
  | _, .broken _ => []
  | _, .element (.error _) _ _ => []
  | budget, .element (.ok tag) inner rest =>
    if layers.any fun layers => !layers.contains tag.name then rest.features layers budget
    else if budget = some 0 then []
    else (tag, inner) :: rest.features layers (budget.map (· - 1))

/-- The features of a layer. -/
def featuresOf (layer : QName) (features : List (Element ε)) : List (Element ε) :=
  features.filter fun e => e.1.name = layer

variable (stats) in
/-- An observation whose layers hold the counts of these features. -/
structure TalliedLayers (features : List (Element ε))
    (o : DatasetObservation (ValueStats R) G B) : Prop where
  distinct : (Keyed.keys o.layers).Nodup
  covered : ∀ e ∈ features, e.1.name ∈ Keyed.keys o.layers
  roots : ∀ e ∈ o.layers, Tallied stats 0 (featuresOf e.1 features) e.2.root

variable {features : List (Element ε)} {o : DatasetObservation (ValueStats R) G B}

theorem featuresOf_append (layer : QName) (features more : List (Element ε)) :
    featuresOf layer (features ++ more) = featuresOf layer features ++ featuresOf layer more :=
  List.filter_append ..

theorem featuresOf_eq_nil {layer : QName} (h : ∀ e ∈ features, e.1.name ≠ layer) :
    featuresOf layer features = [] :=
  List.filter_eq_nil_iff.mpr fun e he => by simpa using h e he

omit [Merge B] in
theorem TalliedLayers.congr {o' : DatasetObservation (ValueStats R) G B}
    (h : TalliedLayers stats features o) (hlayers : o'.layers = o.layers) :
    TalliedLayers stats features o' := by
  obtain ⟨hdistinct, hcovered, hroots⟩ := h
  rw [← hlayers] at hdistinct hcovered hroots
  exact ⟨hdistinct, hcovered, hroots⟩

omit [Merge B] in
/-- A layer that one more feature was scanned into. -/
theorem TalliedLayers.setLayer (h : TalliedLayers stats features o) {tag : StartTag}
    {inner : Body ε} {layer : LayerObservation (ValueStats R) G B}
    (hroot : Tallied stats 0 (featuresOf tag.name features ++ [(tag, inner)]) layer.root) :
    TalliedLayers stats (features ++ [(tag, inner)]) (o.setLayer tag.name layer) where
  distinct := Keyed.nodup_put h.distinct _ _
  covered e he := by
    refine Keyed.mem_keys_put.mpr ?_
    rcases List.mem_append.mp he with he | he
    · exact .inl (h.covered e he)
    · exact .inr (by rw [List.mem_singleton.mp he])
  roots e he := by
    rw [featuresOf_append]
    rcases Keyed.mem_put he with rfl | ⟨hne, he⟩
    · have hone : featuresOf tag.name [(tag, inner)] = [(tag, inner)] := by simp [featuresOf]
      rw [hone]
      exact hroot
    · have hother : featuresOf e.1 [(tag, inner)] = [] :=
        featuresOf_eq_nil fun _ he' => List.mem_singleton.mp he' ▸ hne.symm
      rw [hother, List.append_nil]
      exact h.roots e he

omit [Merge B] in
theorem TalliedLayers.layer (h : TalliedLayers stats features o) (name : QName) :
    Tallied stats 0 (featuresOf name features) ((o.layers.lookup name).getD
      { featureCount := 0, root := .new none, extent := none }).root := by
  cases hlookup : o.layers.lookup name with
  | some known => exact h.roots _ (Keyed.mem_of_lookup hlookup)
  | none =>
    have hnew := Keyed.lookup_eq_none.mp hlookup
    have hnone : featuresOf name features = [] := by
      refine featuresOf_eq_nil ?_
      rintro e he rfl
      exact hnew (h.covered e he)
    rw [hnone]
    exact .new _ fun _ => tally_default none

/-- A feature adds to the layer of its name. -/
theorem scanFeature_tallied {builder builder' : Builder (ValueStats R) G B}
    {inherited : Inherited B} {seq : Nat} {tag : StartTag} {inner : Body ε}
    (h : TalliedLayers stats features builder.observation)
    (hscan : scanFeature stats.counted inherited seq builder tag inner = .ok builder') :
    TalliedLayers stats (features ++ [(tag, inner)]) builder'.observation := by
  have hlayer := h.layer tag.name
  rw [scanFeature] at hscan
  generalize (builder.observation.layers.lookup tag.name).getD
    { featureCount := 0, root := .new none, extent := none } = layer at hlayer hscan
  dsimp only at hscan
  obtain ⟨⟨w₂, root, frame⟩, hcontent, hscan⟩ := bind_eq_ok.1 hscan
  cases hscan
  have hcounted := hlayer.recount (layer.root.facts.parentsWith + 1) layer.root.facts.maxOccurs
    layer.root.facts.firstMulti
  obtain ⟨hopened, htakes⟩ := enter_takes stats.counted builder.walk
    (layer.root.mapFacts fun facts =>
      { facts with instances := facts.instances + 1, parentsWith := facts.parentsWith + 1 }) tag
  refine h.setLayer ?_
  exact hcounted.instance hopened htakes (fun hstart => content_open hstart hcontent)
    (content_reads hcontent) w₂ _

theorem scanFeatures_tallied {builder builder' : Builder (ValueStats R) G B}
    {layers : Option (List QName)} {inherited : Inherited B} {seq : Nat}
    {budget budget' : Option Nat} {body : Body ε} {stopped : Bool}
    (h : TalliedLayers stats features builder.observation)
    (hscan : scanFeatures stats.counted layers inherited seq builder budget body =
      .ok (builder', budget', stopped)) :
    TalliedLayers stats (features ++ body.features layers budget) builder'.observation := by
  induction body generalizing builder seq budget features with
  | done =>
    cases hscan
    rw [Body.features, List.append_nil]
    exact h
  | text s rest ih => exact ih h hscan
  | unreadable error rest => cases hscan
  | broken error => cases hscan
  | element tag inner rest _ ih =>
    cases tag with
    | error error => cases hscan
    | ok tag =>
      rw [scanFeatures] at hscan
      rw [Body.features]
      split_ifs at hscan ⊢ with hother hbudget
      · obtain ⟨_, -, hscan⟩ := bind_eq_ok.1 hscan
        exact ih h hscan
      · cases hscan
        rw [List.append_nil]
        exact h
      · obtain ⟨builder₁, hfeature, hscan⟩ := bind_eq_ok.1 hscan
        rw [← List.singleton_append, ← List.append_assoc]
        exact ih (scanFeature_tallied h hfeature) hscan

/-- A scan of a chunk. -/
theorem scanChunk_tallied {chunk : Features ε} {boundedBy : Except ε (Inherited B)}
    {limits : Limits} {layers : Option (List QName)} {budget budget' : Option Nat} {stopped : Bool}
    (hscan : scanChunk stats.counted limits layers chunk boundedBy budget =
      .ok (o, budget', stopped)) :
    TalliedLayers stats (chunk.body.features layers budget) o := by
  obtain ⟨inherited, -, hscan⟩ := bind_eq_ok.1 hscan
  obtain ⟨⟨builder, budget₁, stopped₁⟩, hfeatures, hscan⟩ := bind_eq_ok.1 hscan
  cases hscan
  have hempty : TalliedLayers stats ([] : List (Element ε))
      ({} : DatasetObservation (ValueStats R) G B) :=
    ⟨List.nodup_nil, fun e he => absurd he List.not_mem_nil, fun e he => absurd he List.not_mem_nil⟩
  have hstart : TalliedLayers stats ([] : List (Element ε))
      { (notePrefixes {} chunk.namespaces : DatasetObservation (ValueStats R) G B) with
        extent := inherited.extent } := by
    refine hempty.congr (layers_foldl (fun o binding => ?_) _ _)
    obtain ⟨pre, uri⟩ := binding
    cases pre with
    | none => rfl
    | some pre => exact layers_notePrefix o uri pre
  refine TalliedLayers.congr (scanFeatures_tallied hstart hfeatures)
    (layers_foldl (fun o entry => ?_) _ _)
  exact layers_notePrefix o entry.1 entry.2

end

end Xeibe.Schema

import Mathlib.Data.List.Infix
import Xeibe.Schema.Counted
import Xeibe.Schema.Width

/-!
# Occurrences in a whole scan

Chunks are scanned by themselves and their observations merged: the counts of two
parts add up to those of both, and the most occurrences are the larger of two.
What a node then says of repetition and of type wrappers is what its elements say,
in whatever order the chunks were merged.
-/

namespace Xeibe.Schema

open Lib

variable {R G B S ε : Type} [Merge R] [Merge G] {stats : Statistics R G B S ε} {depth : Nat}

/-! ## Merging -/

theorem keys_mergeWith_iff {α : Type} (f : α → α → α) {name : QName} {xs ys : List (QName × α)} :
    name ∈ Keyed.keys (Keyed.mergeWith f xs ys) ↔
      name ∈ Keyed.keys xs ∨ name ∈ Keyed.keys ys := by
  induction ys generalizing xs with
  | nil => simp [Keyed.mergeWith]
  | cons e ys ih =>
    obtain ⟨key, y⟩ := e
    rw [Keyed.mergeWith, Keyed.keys_cons, List.mem_cons]
    split
    · rename_i hknown
      have hknown := Keyed.lookup_isSome.mp hknown
      rw [ih, Keyed.keys_update]
      constructor
      · exact fun h => h.imp_right .inr
      · rintro (h | rfl | h)
        · exact .inl h
        · exact .inl hknown
        · exact .inr h
    · rw [ih, Keyed.keys_append, List.mem_append, Keyed.keys_cons, Keyed.keys_nil,
        List.mem_singleton, or_assoc]

theorem Tally.merge {tags tags' : List StartTag} {bodies bodies' : List (Body ε)}
    {a b : NodeFacts (ValueStats R) G} (ha : Tally stats depth tags bodies a)
    (hb : Tally stats depth tags' bodies' b) :
    Tally stats depth (tags ++ tags') (bodies ++ bodies') (a.merge b) where
  instances := by
    rw [List.length_append, ← ha.instances, ← hb.instances]
    rfl
  attributes name := by
    show name ∈ Keyed.keys (Keyed.mergeWith _ _ _) ↔ _
    rw [keys_mergeWith_iff, ha.attributes, hb.attributes]
    simp only [List.mem_append, or_and_right, exists_or]
  text := by
    rw [List.countP_append, ← ha.text, ← hb.text]
    show (mergeOption a.text b.text).elim 0 _ = _
    cases a.text <;> cases b.text <;> simp [mergeOption, Merge.merge]
  mixed := by
    rw [List.any_append, ← ha.mixed, ← hb.mixed]
    rfl
  singleChild := by
    rw [List.countP_append, ← ha.singleChild, ← hb.singleChild]
    rfl
  noContent := by
    rw [List.countP_append, ← ha.noContent, ← hb.noContent]
    show a.empty + b.empty + (a.byReference + b.byReference) = _
    omega
  geometry := by
    rw [List.any_append, ← ha.geometry, ← hb.geometry]
    show (mergeOption a.geometry b.geometry).isSome = _
    cases a.geometry <;> cases b.geometry <;> rfl

theorem facts_merge (a b : ElementNode (ValueStats R) G) :
    (a.merge b).facts = a.facts.merge b.facts := by
  cases b with
  | mk facts children => rw [ElementNode.merge]; rfl

omit [Merge R] [Merge G] in
/-- What the elements of a part without a node have of its name. -/
theorem Tallied.lacks {elements : List (Element ε)} {node : ElementNode (ValueStats R) G}
    {name : QName} (h : Tallied stats depth elements node)
    (huntruncated : node.facts.truncated = false) (hinside : isInside stats depth name = false)
    (hname : name ∉ Keyed.keys node.children) :
    childrenNamed name elements = [] ∧ mostOccurrences name elements = 0 := by
  obtain ⟨-, -, hcovered, -, -⟩ := h
  have hne : ∀ e ∈ elements, ∀ child ∈ e.2.elements, child.1.name ≠ name := by
    rintro e he child hchild rfl
    exact hname (hcovered huntruncated e he child hchild hinside)
  exact ⟨childrenNamed_eq_nil hne, mostOccurrences_eq_zero hne⟩

/-- A merged node holds the counts of both. -/
theorem Tallied.merge {elements elements' : List (Element ε)} {a b : ElementNode (ValueStats R) G}
    (ha : Tallied stats depth elements a) (hb : Tallied stats depth elements' b) :
    Tallied stats depth (elements ++ elements') (a.merge b) := by
  induction b using ElementNode.induct generalizing a depth elements elements' with
  | mk facts children ih =>
    have haWhole := ha
    have hbWhole := hb
    obtain ⟨haDistinct, haTally, haCovered, haKnown, haBelow⟩ := ha
    obtain ⟨hbDistinct, hbTally, hbCovered, hbKnown, hbBelow⟩ := hb
    have huntruncated : (a.merge (.mk facts children)).facts.truncated = false →
        a.facts.truncated = false ∧ facts.truncated = false := by
      rw [ElementNode.truncated_merge, Bool.or_eq_false_iff]
      exact id
    have hkeys : ∀ {name}, name ∈ Keyed.keys (a.merge (.mk facts children)).children ↔
        name ∈ Keyed.keys a.children ∨ name ∈ Keyed.keys children := fun {name} =>
      (ElementNode.keys_children_merge a (.mk facts children)).mem_iff.trans
        (keys_mergeWith_iff ElementNode.merge)
    have hcases : ∀ {name z}, (name, z) ∈ (a.merge (.mk facts children)).children →
        (∃ x y, (name, x) ∈ a.children ∧ (name, y) ∈ children ∧ z = x.merge y) ∨
        ((name, z) ∈ a.children ∧ name ∉ Keyed.keys children) ∨
        (name ∉ Keyed.keys a.children ∧ (name, z) ∈ children) := fun he =>
      Keyed.mem_mergeWith ElementNode.merge hbDistinct (ElementNode.mem_children_merge.1 he)
    refine .mk ?_ (fun hn => ?_) (fun hn e he child hchild hinside => ?_) (fun hn e he => ?_)
      (fun hn e he => ?_)
    · exact (ElementNode.keys_children_merge a _).nodup_iff.2
        (Keyed.nodup_mergeWith _ haDistinct hbDistinct)
    · rw [facts_merge, List.map_append, List.map_append]
      exact (haTally (huntruncated hn).1).merge (hbTally (huntruncated hn).2)
    · rw [hkeys]
      rcases List.mem_append.mp he with he | he
      · exact .inl (haCovered (huntruncated hn).1 e he child hchild hinside)
      · exact .inr (hbCovered (huntruncated hn).2 e he child hchild hinside)
    · obtain ⟨name, z⟩ := e
      rw [childrenNamed_append, mostOccurrences_append]
      rcases hcases he with ⟨x, y, hx, hy, rfl⟩ | ⟨hx, hnew⟩ | ⟨hnew, hy⟩
      · obtain ⟨hinside, hused, hmax⟩ := haKnown (huntruncated hn).1 _ hx
        obtain ⟨-, -, hmax'⟩ := hbKnown (huntruncated hn).2 _ hy
        refine ⟨hinside, List.append_ne_nil_of_left_ne_nil hused _, ?_⟩
        rw [facts_merge, ← hmax, ← hmax']
        rfl
      · obtain ⟨hinside, hused, hmax⟩ := haKnown (huntruncated hn).1 _ hx
        obtain ⟨hnil, hzero⟩ := hbWhole.lacks (huntruncated hn).2 hinside hnew
        rw [hnil, hzero, List.append_nil, Nat.max_zero]
        exact ⟨hinside, hused, hmax⟩
      · obtain ⟨hinside, hused, hmax⟩ := hbKnown (huntruncated hn).2 _ hy
        obtain ⟨hnil, hzero⟩ := haWhole.lacks (huntruncated hn).1 hinside hnew
        rw [hnil, hzero, List.nil_append, Nat.zero_max]
        exact ⟨hinside, hused, hmax⟩
    · obtain ⟨name, z⟩ := e
      rw [childrenNamed_append]
      rcases hcases he with ⟨x, y, hx, hy, rfl⟩ | ⟨hx, hnew⟩ | ⟨hnew, hy⟩
      · exact ih (name, y) hy (haBelow (huntruncated hn).1 _ hx) (hbBelow (huntruncated hn).2 _ hy)
      · obtain ⟨hinside, -, -⟩ := haKnown (huntruncated hn).1 _ hx
        rw [(hbWhole.lacks (huntruncated hn).2 hinside hnew).1, List.append_nil]
        exact haBelow (huntruncated hn).1 _ hx
      · obtain ⟨hinside, -, -⟩ := hbKnown (huntruncated hn).2 _ hy
        rw [(haWhole.lacks (huntruncated hn).1 hinside hnew).1, List.nil_append]
        exact hbBelow (huntruncated hn).2 _ hy

variable [Merge B]

theorem TalliedLayers.merge {features features' : List (Element ε)}
    {a b : DatasetObservation (ValueStats R) G B} (ha : TalliedLayers stats features a)
    (hb : TalliedLayers stats features' b) :
    TalliedLayers stats (features ++ features') (a.merge b) := by
  have hperm := DatasetObservation.perm_layers_merge a b
  have hlacks : ∀ {features : List (Element ε)} {o : DatasetObservation (ValueStats R) G B} {name},
      TalliedLayers stats features o → name ∉ Keyed.keys o.layers →
        featuresOf name features = [] := by
    intro features o name h hname
    refine featuresOf_eq_nil ?_
    rintro e he rfl
    exact hname (h.covered e he)
  refine ⟨(hperm.map Prod.fst).nodup_iff.2 (Keyed.nodup_mergeWith _ ha.distinct hb.distinct),
    fun e he => (hperm.map Prod.fst).mem_iff.2 ?_, fun e he => ?_⟩
  · exact (keys_mergeWith_iff _).mpr ((List.mem_append.1 he).imp (ha.covered e) (hb.covered e))
  · obtain ⟨name, z⟩ := e
    rw [featuresOf_append]
    rcases Keyed.mem_mergeWith _ hb.distinct (hperm.mem_iff.1 he) with
      ⟨x, y, hx, hy, rfl⟩ | ⟨hx, hnew⟩ | ⟨hnew, hy⟩
    · exact (ha.roots _ hx).merge (hb.roots _ hy)
    · rw [hlacks hb hnew, List.append_nil]
      exact ha.roots _ hx
    · rw [hlacks ha hnew, List.nil_append]
      exact hb.roots _ hy

/-- The features the scans take, with their tags. -/
def Merges.features {V G : Type} (layers : Option (List QName)) : Merges V G B ε → List (Element ε)
  | headers _ _ => []
  | scan chunk _ budget => chunk.body.features layers budget
  | merge left right => left.features layers ++ right.features layers

theorem Merges.tallied {limits : Limits} {layers : Option (List QName)}
    {m : Merges (ValueStats R) G B ε} {o : DatasetObservation (ValueStats R) G B}
    (h : m.observe stats.counted limits layers = .ok o) :
    TalliedLayers stats (m.features layers) o := by
  induction m generalizing o with
  | headers o' hnone =>
    cases h
    refine ⟨?_, fun e he => absurd he List.not_mem_nil, fun e he => ?_⟩
    · rw [hnone]
      exact List.nodup_nil
    · rw [hnone] at he
      exact absurd he List.not_mem_nil
  | scan chunk boundedBy budget =>
    obtain ⟨⟨o', budget', stopped⟩, hscan, h⟩ := bind_eq_ok.1 h
    cases h
    exact scanChunk_tallied hscan
  | merge left right ihLeft ihRight =>
    obtain ⟨a, ha, h⟩ := bind_eq_ok.1 h
    obtain ⟨b, hb, h⟩ := bind_eq_ok.1 h
    cases h
    exact (ihLeft ha).merge (ihRight hb)

/-! ## At a path -/

section

omit [Merge R] [Merge G] [Merge B]

variable {elements : List (Element ε)} {root node : ElementNode (ValueStats R) G}

/-- The node at a path that no limit was hit on stands for the elements there. -/
theorem Tallied.nodeAt {path : List QName} (h : Tallied stats depth elements root)
    (hnode : root.nodeAt path = some node)
    (hwhole : ∀ way, way <+: path → ∀ n, root.nodeAt way = some n → n.facts.truncated = false) :
    Tallied stats (depth + path.length) (elementsAt elements path) node := by
  induction path generalizing root depth elements with
  | nil =>
    cases hnode
    exact h
  | cons name path ih =>
    obtain ⟨child, hchild, hbelow⟩ := Option.bind_eq_some_iff.mp hnode
    have hroot : root.facts.truncated = false := hwhole [] List.nil_prefix root rfl
    have hmem := Keyed.mem_of_lookup hchild
    obtain ⟨-, -, -, -, hchildren⟩ := h
    have hnext := ih (hchildren hroot _ hmem) hbelow fun way hway n hn =>
      hwhole (name :: way) (List.cons_prefix_cons.mpr ⟨rfl, hway⟩) n (by
        rw [ElementNode.nodeAt, hchild]
        exact hn)
    rw [List.length_cons, Nat.add_comm path.length, ← Nat.add_assoc]
    exact hnext

variable (stats) in
/-- No element is a geometry inside a property. -/
def NoGeometry (depth : Nat) (elements : List (Element ε)) : Prop :=
  ∀ e ∈ elements, ∀ child ∈ e.2.elements, isInside stats depth child.1.name = false

theorem Tally.noGeometry {tags : List StartTag} {facts : NodeFacts (ValueStats R) G}
    (h : Tally stats depth tags (elements.map Prod.snd) facts) :
    facts.geometry = none ↔ NoGeometry stats depth elements := by
  have hgeometry := h.geometry
  rw [← Option.isNone_iff_eq_none, ← Option.not_isSome, Bool.not_eq_true', hgeometry]
  simp [NoGeometry]

theorem Tally.singleChild_eq {tags : List StartTag} {facts : NodeFacts (ValueStats R) G}
    (h : Tally stats depth tags (elements.map Prod.snd) facts) (hnone : facts.geometry = none) :
    facts.singleChild = elements.countP fun e => e.2.isSingleChild := by
  have hplain := h.noGeometry.mp hnone
  rw [h.singleChild, List.countP_map]
  refine List.countP_congr fun e he => ?_
  have hall : e.2.elements.filter (fun child => !isInside stats depth child.1.name) =
      e.2.elements :=
    List.filter_eq_self.mpr fun child hchild => by simp [hplain e he child hchild]
  simp [hall, Body.isSingleChild]

/-- The conditions of `is_type_wrapper`, one by one. -/
theorem isTypeWrapper_iff {shape : Bytes → NameShape} {node : ElementNode (ValueStats R) G} :
    node.isTypeWrapper shape = true ↔
      node.children ≠ [] ∧ node.facts.geometry = none ∧ node.facts.truncated = false ∧
      node.facts.mixed = false ∧ node.textCount = 0 ∧ node.dataAttributes = [] ∧
      node.facts.singleChild =
        node.facts.instances - (node.facts.empty + node.facts.byReference) ∧
      ∀ e ∈ node.children, shape e.1.localName = .upperCamel ∧ e.2.facts.maxOccurs = 1 ∧
        ∀ name ∈ Keyed.keys e.2.facts.attributes, isGmlId name = true := by
  rw [ElementNode.isTypeWrapper]
  split
  · rename_i hblocked
    constructor
    · nofun
    · rintro ⟨hchildren, hgeometry, htruncated, hmixed, htext, hdata, -⟩
      simp [hchildren, hgeometry, htruncated, hmixed, htext, hdata] at hblocked
  · rename_i hfree
    simp only [Bool.or_eq_true, not_or, List.isEmpty_iff, Option.isSome_iff_ne_none, not_not,
      Bool.not_eq_true, decide_eq_false_iff_not, Nat.not_lt, Nat.le_zero,
      Bool.not_eq_eq_eq_not, Bool.not_true] at hfree
    obtain ⟨⟨⟨⟨⟨hchildren, hgeometry⟩, htruncated⟩, hmixed⟩, htext⟩, hdata⟩ := hfree
    have hdata : node.dataAttributes = [] := by simpa using hdata
    simp [hchildren, hgeometry, htruncated, hmixed, htext, hdata, Keyed.keys, and_assoc]

theorem mostOccurrences_le {name : QName} {n : Nat}
    (h : ∀ e ∈ elements, occurrences name e.2.elements ≤ n) : mostOccurrences name elements ≤ n := by
  induction elements with
  | nil => exact Nat.zero_le n
  | cons e rest ih =>
    rw [← List.singleton_append, mostOccurrences_append, mostOccurrences_singleton]
    exact Nat.max_le.mpr ⟨h e List.mem_cons_self, ih fun e he => h e (List.mem_cons_of_mem _ he)⟩

theorem mostOccurrences_pos {name : QName} (h : childrenNamed name elements ≠ []) :
    1 ≤ mostOccurrences name elements := by
  by_contra hnone
  refine h (childrenNamed_eq_nil fun e he child hchild hname => hnone ?_)
  obtain ⟨before, after, rfl⟩ := List.append_of_mem he
  have hone : 1 ≤ occurrences name e.2.elements :=
    List.countP_pos_iff.mpr ⟨child, hchild, by simpa using hname⟩
  rw [← List.singleton_append, mostOccurrences_append, mostOccurrences_append,
    mostOccurrences_singleton]
  omega

theorem countP_eq_of_le {α : Type} {p q : α → Bool} (hpq : ∀ a, p a = true → q a = true)
    (xs : List α) : xs.countP p = xs.countP q ↔ ∀ a ∈ xs, q a = true → p a = true := by
  induction xs with
  | nil => simp
  | cons x xs ih =>
    have hle : xs.countP p ≤ xs.countP q := List.countP_mono_left fun a _ => hpq a
    rw [List.countP_cons, List.countP_cons, List.forall_mem_cons, ← ih]
    cases hp : p x with
    | true => simp [hpq x hp]
    | false =>
      cases hq : q x with
      | true =>
        simp
        omega
      | false => simp

theorem Body.isEmpty_eq_false_of_isSingleChild {body : Body ε} (h : body.isSingleChild = true) :
    body.isEmpty = false := by
  simp only [Body.isSingleChild, Bool.and_eq_true, beq_iff_eq] at h
  cases helements : body.elements with
  | nil =>
    rw [helements] at h
    exact absurd h.2 Nat.zero_ne_one
  | cons child rest => simp [Body.isEmpty, helements]

theorem Tally.single_iff {tags : List StartTag} {facts : NodeFacts (ValueStats R) G}
    (h : Tally stats depth tags (elements.map Prod.snd) facts) (htags : tags.length = elements.length)
    (hnone : facts.geometry = none) :
    facts.singleChild = facts.instances - (facts.empty + facts.byReference) ↔
      ∀ e ∈ elements, e.2.isEmpty = false → e.2.isSingleChild = true := by
  have hcontent : elements.countP (fun e => !e.2.isEmpty) =
      facts.instances - (facts.empty + facts.byReference) := by
    rw [h.noContent, h.instances, htags, List.countP_map,
      List.length_eq_countP_add_countP fun e : Element ε => e.2.isEmpty]
    simp [Function.comp_def]
  rw [← hcontent, h.singleChild_eq hnone, countP_eq_of_le]
  · simp
  · intro e he
    simp [Body.isEmpty_eq_false_of_isSingleChild he]

theorem TypeWrapper.noText {shape : Bytes → NameShape} (h : TypeWrapper shape elements) :
    ∀ e ∈ elements, e.2.hasText = false := by
  intro e he
  by_contra htext
  rw [Bool.not_eq_false] at htext
  have hsingle := h.single e he (by simp [Body.isEmpty, htext])
  simp [Body.isSingleChild, htext] at hsingle

theorem TypeWrapper.occurrences_le {shape : Bytes → NameShape} (h : TypeWrapper shape elements)
    (name : QName) : ∀ e ∈ elements, occurrences name e.2.elements ≤ 1 := by
  intro e he
  refine List.countP_le_length.trans ?_
  cases hempty : e.2.isEmpty with
  | true =>
    simp only [Body.isEmpty, Bool.and_eq_true, List.isEmpty_iff] at hempty
    rw [hempty.2]
    exact Nat.zero_le 1
  | false =>
    have hsingle := h.single e he hempty
    simp only [Body.isSingleChild, Bool.and_eq_true, beq_iff_eq] at hsingle
    rw [hsingle.2]

/-- A node is a type wrapper if its elements are, and hold no geometry. -/
theorem Tallied.isTypeWrapper_iff (shape : Bytes → NameShape)
    (h : Tallied stats depth elements node) (hwhole : node.facts.truncated = false)
    (hchildren : ∀ e ∈ node.children, e.2.facts.truncated = false) :
    node.isTypeWrapper shape = true ↔
      TypeWrapper shape elements ∧ NoGeometry stats depth elements := by
  obtain ⟨-, htally, hcovered, hknown, hbelow⟩ := h
  replace htally := htally hwhole
  replace hcovered := hcovered hwhole
  replace hknown := hknown hwhole
  replace hbelow := hbelow hwhole
  have hattributes : ∀ e ∈ node.children, ∀ name, name ∈ Keyed.keys e.2.facts.attributes ↔
      ∃ child ∈ childrenNamed e.1 elements, name ∈ child.1.facts := by
    intro e he name
    obtain ⟨-, hchild, -, -, -⟩ := hbelow e he
    rw [(hchild (hchildren e he)).attributes]
    simp
  have hdata : node.dataAttributes = [] ↔
      ∀ e ∈ elements, ∀ name ∈ e.1.facts, isLinkOrNilAttribute name = true := by
    rw [ElementNode.dataAttributes, List.filter_eq_nil_iff]
    have hnames := htally.attributes
    constructor
    · intro hnone e he name hname
      obtain ⟨value, hvalue⟩ := Keyed.mem_keys.mp ((hnames name).mpr ⟨e.1, by
        exact List.mem_map_of_mem he, hname⟩)
      simpa using hnone _ hvalue
    · intro hplain attr hattr
      obtain ⟨tag, htag, hname⟩ := (hnames attr.1).mp (Keyed.mem_keys_of_mem hattr)
      obtain ⟨e, he, rfl⟩ := List.mem_map.mp htag
      simp [hplain e he attr.1 hname]
  rw [Schema.isTypeWrapper_iff, hdata, htally.noGeometry]
  constructor
  · rintro ⟨hsome, hgeometry, -, hmixed, htext, hplain, hsingle, hall⟩
    have hobject : ∀ e ∈ elements, ∀ child ∈ e.2.elements,
        shape child.1.name.localName = .upperCamel ∧
          ∀ name ∈ child.1.facts, isGmlId name = true := by
      intro e he child hchild
      obtain ⟨x, hx⟩ := Keyed.mem_keys.mp (hcovered e he child hchild (hgeometry e he child hchild))
      obtain ⟨hshape, -, hids⟩ := hall _ hx
      refine ⟨hshape, fun name hname => hids name ((hattributes _ hx name).mpr ⟨child, ?_, hname⟩)⟩
      exact List.mem_flatMap.mpr ⟨e, he, List.mem_filter.mpr ⟨hchild, by simp⟩⟩
    obtain ⟨first, hfirst⟩ := List.exists_mem_of_ne_nil _ hsome
    obtain ⟨child, hchild⟩ := List.exists_mem_of_ne_nil _ (hknown first hfirst).2.1
    obtain ⟨e, he, hchild⟩ := List.mem_flatMap.mp hchild
    refine ⟨⟨⟨e, he, List.ne_nil_of_mem (List.mem_filter.mp hchild).1⟩, ?_, hplain, hobject⟩,
      hgeometry⟩
    exact (htally.single_iff (List.length_map _) (htally.noGeometry.mpr hgeometry)).mp hsingle
  · rintro ⟨hwrapper, hgeometry⟩
    have htext := hwrapper.noText
    refine ⟨?_, hgeometry, hwhole, ?_, ?_, hwrapper.plain, ?_, fun e he => ⟨?_, ?_, ?_⟩⟩
    · obtain ⟨e, he, hused⟩ := hwrapper.used
      obtain ⟨child, hchild⟩ := List.exists_mem_of_ne_nil _ hused
      obtain ⟨x, hx⟩ := Keyed.mem_keys.mp (hcovered e he child hchild (hgeometry e he child hchild))
      exact List.ne_nil_of_mem hx
    · rw [htally.mixed, List.any_map, List.any_eq_false]
      intro e he
      simp [htext e he]
    · refine htally.text.trans ?_
      rw [List.countP_map, List.countP_eq_zero]
      intro e he
      simp [htext e he]
    · exact (htally.single_iff (List.length_map _) (htally.noGeometry.mpr hgeometry)).mpr
        hwrapper.single
    · obtain ⟨child, hchild⟩ := List.exists_mem_of_ne_nil _ (hknown e he).2.1
      obtain ⟨parent, hparent, hchild⟩ := List.mem_flatMap.mp hchild
      obtain ⟨hchild, hname⟩ := List.mem_filter.mp hchild
      have hname : child.1.name = e.1 := by simpa using hname
      exact hname ▸ (hwrapper.object parent hparent child hchild).1
    · rw [(hknown e he).2.2]
      have hmost := mostOccurrences_le (hwrapper.occurrences_le e.1)
      have hpos := mostOccurrences_pos (hknown e he).2.1
      omega
    · intro name hname
      obtain ⟨child, hchild, hname⟩ := (hattributes e he name).mp hname
      obtain ⟨parent, hparent, hchild⟩ := List.mem_flatMap.mp hchild
      exact (hwrapper.object parent hparent child (List.mem_filter.mp hchild).1).2 name hname

end

/-! ## The whole scan -/

/-- A node says of repetition and wrapping what these elements say. -/
structure ElementNode.Agrees (stats : Statistics R G B S ε) (shape : Bytes → NameShape)
    (depth : Nat) (elements : List (Element ε)) (node : ElementNode (ValueStats R) G) : Prop where
  occurrences : ∀ name child, (name, child) ∈ node.children →
    child.facts.maxOccurs = mostOccurrences name elements
  singleChild : node.facts.geometry = none →
    node.facts.singleChild = elements.countP fun e => e.2.isSingleChild
  wrapper : (∀ e ∈ node.children, e.2.facts.truncated = false) →
    (node.isTypeWrapper shape = true ↔
      TypeWrapper shape elements ∧ NoGeometry stats depth elements)

/-- Whatever chunks are scanned and in whatever order they are merged: the node at a path
that no limit was hit on agrees with the elements at that path of all features. -/
theorem occurrence_counts_of_tree (shape : Bytes → NameShape) {limits : Limits}
    {layers : Option (List QName)} {m : Merges (ValueStats R) G B ε}
    {o : DatasetObservation (ValueStats R) G B}
    (h : m.observe stats.counted limits layers = .ok o) {layer : QName} {path : List QName}
    {node : ElementNode (ValueStats R) G} (hnode : o.nodeAt layer path = some node)
    (hwhole : ∀ way, way <+: path → ∀ n, o.nodeAt layer way = some n →
      n.facts.truncated = false) :
    node.Agrees stats shape path.length
      (elementsAt (featuresOf layer (m.features layers)) path) := by
  obtain ⟨known, hlayer, hpath⟩ := Option.bind_eq_some_iff.mp hnode
  have hroot := (Merges.tallied h).roots _ (Keyed.mem_of_lookup hlayer)
  have htallied := hroot.nodeAt hpath fun way hway n hn => hwhole way hway n (by
    rw [DatasetObservation.nodeAt, hlayer]
    exact hn)
  rw [Nat.zero_add] at htallied
  have huntruncated : node.facts.truncated = false := hwhole path (List.prefix_refl path) node hnode
  have hwrapper := fun hchildren => htallied.isTypeWrapper_iff shape huntruncated hchildren
  obtain ⟨-, htally, -, hknown, -⟩ := htallied
  exact ⟨fun name child hchild => (hknown huntruncated _ hchild).2.2,
    fun hnone => (htally huntruncated).singleChild_eq hnone, hwrapper⟩

def countedChunk (body : Body Unit) (ascending : body.offsets.Pairwise (· ≤ ·)) :
    Merges (ValueStats Unit) Unit Unit Unit :=
  .scan { source := 0, firstFeatureSeq := 0, namespaces := .new, body, ascending } (.ok {}) none

/-- A `gml:Point` that nothing is read of. -/
def pointAt (offset : Nat) (rest : Body Unit) : Body Unit :=
  .element (.ok {
    name := ⟨some ns.GML, utf8 "Point"⟩
    declarations := []
    attrs := []
    location := { source := 0, byteOffset := offset, featureSeq := none, gmlId := none } })
    .done rest

/-- `<F><p><T/></p></F>`, and behind it `<F><p><T/></p><p/></F>` in a chunk of its own. -/
def wrapped : Merges (ValueStats Unit) Unit Unit Unit :=
  .merge
    (countedChunk (elementAt 0x46 10 (elementAt 0x70 20 (elementAt 0x54 30 .done .done) .done)
      .done) (by decide))
    (countedChunk (elementAt 0x46 40 (elementAt 0x70 50 (elementAt 0x54 60 .done .done)
      (elementAt 0x70 70 .done .done)) .done) (by decide))

theorem occurrence_counts_of_tree_wrapped :
    ∃ o node, wrapped.observe plain.counted .default none = .ok o ∧
      o.nodeAt ⟨none, [0x46]⟩ [⟨none, [0x70]⟩] = some node ∧
      node.Agrees plain (fun _ => .upperCamel) 1
        (elementsAt (featuresOf ⟨none, [0x46]⟩ (wrapped.features none)) [⟨none, [0x70]⟩]) := by
  have h : (match wrapped.observe plain.counted .default none with
      | .ok o =>
        match o.nodeAt ⟨none, [0x46]⟩ [⟨none, [0x70]⟩] with
        | some _ => (List.inits [(⟨none, [0x70]⟩ : QName)]).all fun way =>
          (o.nodeAt ⟨none, [0x46]⟩ way).all fun n => !n.facts.truncated
        | none => false
      | .error _ => false) = true := by decide +kernel
  split at h
  · rename_i o ho
    split at h
    · rename_i node hnode
      refine ⟨o, node, ho, hnode,
        occurrence_counts_of_tree (fun _ => .upperCamel) ho hnode fun way hway n hn => ?_⟩
      have hall := List.all_eq_true.mp h way ((List.mem_inits _ _).mpr hway)
      rw [hn] at hall
      simpa using hall
    · exact absurd h Bool.false_ne_true
  · exact absurd h Bool.false_ne_true

/-- `<F><p><gml:Point/><a/></p></F>`. -/
def besideGeometry : Merges (ValueStats Unit) Unit Unit Unit :=
  countedChunk (elementAt 0x46 10 (elementAt 0x70 20 (pointAt 30 (elementAt 0x61 40 .done .done))
    .done) .done) (by decide)

/-- `<F><a/></F>`, and `<F><b/><a/><a/></F>` in a chunk of its own. -/
def pastLimit : Merges (ValueStats Unit) Unit Unit Unit :=
  .merge
    (countedChunk (elementAt 0x46 10 (elementAt 0x61 20 .done .done) .done) ascending₁)
    (countedChunk (elementAt 0x46 30 (elementAt 0x62 40 .done (elementAt 0x61 50 .done
      (elementAt 0x61 60 .done .done))) .done) (by decide))

/-- The element beside a geometry counts as a single child, and a name that was past the limit
in one chunk is counted in the other only. -/
theorem counts_differ :
    (∃ o node, besideGeometry.observe plain.counted .default none = .ok o ∧
      o.nodeAt ⟨none, [0x46]⟩ [⟨none, [0x70]⟩] = some node ∧ node.facts.singleChild = 1 ∧
      (elementsAt (featuresOf ⟨none, [0x46]⟩ (besideGeometry.features none)) [⟨none, [0x70]⟩]).countP
        (fun e => e.2.isSingleChild) = 0) ∧
    ∃ o node, pastLimit.observe plain.counted { Limits.default with maxChildren := 1 } none =
        .ok o ∧
      o.nodeAt ⟨none, [0x46]⟩ [⟨none, [0x61]⟩] = some node ∧ node.facts.maxOccurs = 1 ∧
      mostOccurrences ⟨none, [0x61]⟩ (featuresOf ⟨none, [0x46]⟩ (pastLimit.features none)) = 2 := by
  have h₁ : (match besideGeometry.observe plain.counted .default none with
      | .ok o =>
        (o.nodeAt ⟨none, [0x46]⟩ [⟨none, [0x70]⟩]).any fun node => node.facts.singleChild == 1
      | .error _ => false) = true := by decide +kernel
  have h₂ : (match pastLimit.observe plain.counted { Limits.default with maxChildren := 1 } none with
      | .ok o =>
        (o.nodeAt ⟨none, [0x46]⟩ [⟨none, [0x61]⟩]).any fun node => node.facts.maxOccurs == 1
      | .error _ => false) = true := by decide +kernel
  constructor
  · split at h₁
    · rename_i o ho
      obtain ⟨node, hnode, hcount⟩ := (Option.any_eq_true _ _).mp h₁
      exact ⟨o, node, ho, hnode, beq_iff_eq.mp hcount, by decide +kernel⟩
    · exact absurd h₁ Bool.false_ne_true
  · split at h₂
    · rename_i o ho
      obtain ⟨node, hnode, hcount⟩ := (Option.any_eq_true _ _).mp h₂
      exact ⟨o, node, ho, hnode, beq_iff_eq.mp hcount, by decide +kernel⟩
    · exact absurd h₂ Bool.false_ne_true

end Xeibe.Schema

import Xeibe.Core.Reader.Model
import Xeibe.Core.Splitter.Placed

/-!
# The names a reader gives

`Placed.names` are the names that the tags of a feature have in the whole
document: every declaration around the feature and in it is in force, with its
references expanded.  `ScopedTag.read` is what the reader makes of a tag, given
the bindings it has from outside the feature.

`read_element` takes the event loop to the tags one by one: after every element
the reader stands in the scope it stood in before.
-/

namespace Xeibe

/-- The name of an element, and those of its attributes. -/
abbrev Names := QName × List QName

/-- A tag in a feature, with the declarations of the elements from the feature
down to it, as written, the innermost last. -/
structure ScopedTag where
  written : List (Option Bytes × Bytes)
  tag : Tag

def Content.tags : List (Option Bytes × Bytes) → Content → List ScopedTag
  | _, .nil => []
  | written, .aside _ rest => rest.tags written
  | written, .empty tag rest => ⟨written ++ tag.written, tag⟩ :: rest.tags written
  | written, .element tag children _ rest =>
    ⟨written ++ tag.written, tag⟩ ::
      (children.tags (written ++ tag.written) ++ rest.tags written)

/-- The tags of an element, in their order. -/
def Root.tags (element : Root) : List ScopedTag :=
  ⟨element.tag.written, element.tag⟩ ::
    match element.content with
    | none => []
    | some (children, _) => children.tags element.tag.written

/-- A declaration with the references in its URI expanded. -/
def expanded (quickXml : Bytes → Option Bytes) (d : Option Bytes × Bytes) :
    Option Bytes × Bytes :=
  (d.1, unescape quickXml d.2)

theorem declarations_eq (quickXml : Bytes → Option Bytes) (tag : Tag) :
    tag.declarations quickXml = tag.written.map (expanded quickXml) := by
  unfold Tag.written Tag.declarations
  rw [List.map_filterMap]
  congr 1
  funext attr
  unfold declaration
  by_cases hdefault : attr.1 = utf8 "xmlns"
  · simp [hdefault, expanded, unescape]
  · cases stripPrefix (utf8 "xmlns:") attr.1 <;> simp [hdefault, expanded, unescape]

/-! ## Names in the document -/

/-- The names of a tag under the declarations `scope`, if every prefix has one. -/
def Tag.names (scope : List (Option Bytes × Bytes)) (tag : Tag) : Option Names := do
  let element ← resolveIn scope tag.name.bytes true
  let attributes ← tag.attributes.mapM fun attr => resolveIn scope attr.1 false
  some (element, attributes)

/-- The names of the tags of a feature in the whole document. -/
def Placed.names (quickXml : Bytes → Option Bytes) (p : Placed) : Option (List Names) :=
  p.element.tags.mapM fun t => t.tag.names (p.scope ++ t.written.map (expanded quickXml))

theorem Placed.names_head {quickXml : Bytes → Option Bytes} {p : Placed} {names : List Names}
    (h : p.names quickXml = some names) :
    ∃ first rest, names = first :: rest ∧ p.name quickXml = some first.1 := by
  unfold Placed.names Root.tags at h
  rw [List.mapM_cons] at h
  simp only [bind, Option.bind_eq_some_iff] at h
  obtain ⟨first, hfirst, rest, -, hnames⟩ := h
  refine ⟨first, rest, (Option.some.inj hnames).symm, ?_⟩
  unfold Tag.names at hfirst
  simp only [bind, Option.bind_eq_some_iff] at hfirst
  obtain ⟨element, helement, attributes, -, hpair⟩ := hfirst
  rw [← Option.some.inj hpair]
  unfold Placed.name
  rw [declarations_eq]
  exact helement

/-! ## Names for the reader -/

/-- The bindings that declarations make. -/
def kept (declarations : List (Option Bytes × Bytes)) : List (Option Bytes × Bytes) :=
  declarations.filter fun d => !misuses d && d.1 != some (utf8 "xml")

/-- What the reader makes of a tag, where `base` are the bindings it has from
outside the feature. -/
def ScopedTag.read (base : List (Option Bytes × Bytes)) (t : ScopedTag) :
    Except ReaderError Names :=
  if t.written.any misuses then .error .namespaceMisuse
  else do
    let resolver : Resolver := ⟨base ++ kept t.written, []⟩
    let element ← GmlReader.resolveElement resolver t.tag.name.bytes
    .ok (element, t.tag.attributes.filterMap fun attr =>
      GmlReader.resolveAttribute resolver attr.1)

/-- The names in what the reader returns. -/
def startNames (events : List XmlEvent) : List Names :=
  events.filterMap fun
    | .start name attrs => some (name, attrs.map Prod.fst)
    | .endTag _ => none

section

variable {quickXml : Bytes → Option Bytes} {base written : List (Option Bytes × Bytes)}

/-! ### The resolver -/

theorem add_eq (r : Resolver) (d : Option Bytes × Bytes) :
    r.add d = if misuses d then none else some { r with bindings := r.bindings ++ kept [d] } := by
  unfold Resolver.add kept
  by_cases hmisuse : misuses d = true
  · simp [hmisuse]
  · by_cases hxml : d.1 = some (utf8 "xml") <;> simp [hmisuse, hxml]

theorem kept_cons (d : Option Bytes × Bytes) (ds : List (Option Bytes × Bytes)) :
    kept (d :: ds) = kept [d] ++ kept ds := List.filter_append (p := _) [d] ds

theorem push_eq (r : Resolver) (declarations : List (Option Bytes × Bytes)) :
    r.push declarations =
      if declarations.any misuses then none
      else some ⟨r.bindings ++ kept declarations, r.bindings.length :: r.levels⟩ := by
  have hfold : ∀ (ds : List (Option Bytes × Bytes)) (q : Resolver), ds.foldlM Resolver.add q =
      if ds.any misuses then none else some { q with bindings := q.bindings ++ kept ds } := by
    intro ds
    induction ds with
    | nil =>
      intro q
      simp [kept]
    | cons d ds ih =>
      intro q
      rw [List.foldlM_cons, kept_cons d ds, ← List.append_assoc, add_eq, List.any_cons]
      cases misuses d with
      | true => simp
      | false =>
        simp only [Bool.false_eq_true, if_false, Option.bind_eq_bind, Option.bind_some,
          Bool.false_or]
        exact ih _
  exact hfold declarations _

theorem pop_push {r : Resolver} {bindings : List (Option Bytes × Bytes)} :
    Resolver.pop ⟨r.bindings ++ bindings, r.bindings.length :: r.levels⟩ = r := by
  simp [Resolver.pop]

/-! ### The event loop -/

theorem read_append (r : GmlReader) (a b : List RawEvent) :
    r.read quickXml (a ++ b) = (do
      let (events, r) ← r.read quickXml a
      let (more, r) ← r.read quickXml b
      .ok (events ++ more, r)) := by
  induction a generalizing r with
  | nil =>
    simp only [List.nil_append, GmlReader.read, bind, Except.bind]
    cases r.read quickXml b <;> rfl
  | cons event a ih =>
    simp only [List.cons_append, GmlReader.read, ih, bind, Except.bind]
    cases r.nextEvent quickXml event with
    | error e => rfl
    | ok next =>
      dsimp only
      cases next.2.read quickXml a with
      | error e => rfl
      | ok read =>
        dsimp only
        cases read.2.read quickXml b <;> rfl

/-- The reader does the same as reading the tags one by one, and stands in the
scope it stood in before. -/
inductive Simulates (r : GmlReader) :
    Except ReaderError (List XmlEvent × GmlReader) → Except ReaderError (List Names) → Prop where
  | error (e : ReaderError) : Simulates r (.error e) (.error e)
  | ok {events : List XmlEvent} {r' : GmlReader} {names : List Names}
      (hnames : startNames events = names)
      (hresolver : r'.popPending.resolver = r.popPending.resolver)
      (hopened : r'.opened = r.opened) : Simulates r (.ok (events, r')) (.ok names)

/-- What follows an element that has been read is read from the same scope. -/
theorem Simulates.andThen {r : GmlReader} {first : List RawEvent}
    {names more : Except ReaderError (List Names)}
    (h : Simulates r (r.read quickXml first) names) (next : List RawEvent)
    (hnext : ∀ r' : GmlReader, r'.popPending.resolver = r.popPending.resolver →
      r'.opened = r.opened → Simulates r' (r'.read quickXml next) more) :
    Simulates r (r.read quickXml (first ++ next)) (do return (← names) ++ (← more)) := by
  rw [read_append]
  generalize r.read quickXml first = read at h
  cases h with
  | error e => exact .error e
  | @ok events r' _ hnames hresolver hopened =>
    have hmore := hnext r' hresolver hopened
    simp only [bind, Except.bind]
    generalize r'.read quickXml next = read at hmore
    cases hmore with
    | error e => exact .error e
    | @ok events' r'' _ hnames' hresolver' hopened' =>
      refine .ok ?_ (hresolver'.trans hresolver) (hopened'.trans hopened)
      rw [startNames, List.filterMap_append]
      exact congrArg₂ _ hnames hnames'

variable (quickXml) in
/-- The start tag of an element: an error, or its names and the scope of its
content. -/
theorem nextEvent_start {r : GmlReader} {tag : Tag}
    (hbindings : r.popPending.resolver.bindings = base ++ kept written)
    (hwritten : written.any misuses = false) :
    (∃ e, r.nextEvent quickXml (.start tag) = .error e ∧
      (⟨written ++ tag.written, tag⟩ : ScopedTag).read base = .error e) ∨
    ∃ name attrs r', r.nextEvent quickXml (.start tag) = .ok (.start name attrs, r') ∧
      (⟨written ++ tag.written, tag⟩ : ScopedTag).read base = .ok (name, attrs.map Prod.fst) ∧
      r'.popPending = r' ∧ r'.resolver.bindings = base ++ kept (written ++ tag.written) ∧
      (written ++ tag.written).any misuses = false ∧
      r'.resolver.pop = r.popPending.resolver ∧ r'.opened = name :: r.opened := by
  have hopened : r.popPending.opened = r.opened := by
    unfold GmlReader.popPending
    split <;> rfl
  have hpending : r.popPending.pendingPop = false := by
    unfold GmlReader.popPending
    by_cases h : r.pendingPop = true <;> simp [h]
  unfold GmlReader.nextEvent ScopedTag.read
  dsimp only
  generalize r.popPending = q at *
  rw [push_eq, List.any_append, hwritten, Bool.false_or, hbindings]
  cases hmisuse : tag.written.any misuses with
  | true => exact .inl ⟨_, rfl, rfl⟩
  | false =>
    have hkept : kept written ++ kept tag.written = kept (written ++ tag.written) :=
      (List.filter_append _ _).symm
    simp only [Bool.false_eq_true, if_false, bind, Except.bind, List.append_assoc, hkept]
    have hname : GmlReader.resolveElement
        ⟨base ++ kept (written ++ tag.written),
          (base ++ kept written).length :: q.resolver.levels⟩ tag.name.bytes =
        GmlReader.resolveElement ⟨base ++ kept (written ++ tag.written), []⟩ tag.name.bytes := rfl
    rw [hname]
    cases GmlReader.resolveElement ⟨base ++ kept (written ++ tag.written), []⟩ tag.name.bytes with
    | error e => exact .inl ⟨e, rfl, rfl⟩
    | ok name =>
      refine .inr ⟨name, _, _, rfl, ?_, ?_, rfl, trivial, ?_, ?_⟩
      · dsimp only
        congr 2
        unfold GmlReader.attributes
        rw [List.map_filterMap]
        congr 1
        funext attr
        have hattr : GmlReader.resolveAttribute
            ⟨base ++ kept (written ++ tag.written),
              (base ++ kept written).length :: q.resolver.levels⟩ attr.1 =
            GmlReader.resolveAttribute ⟨base ++ kept (written ++ tag.written), []⟩ attr.1 := rfl
        rw [hattr]
        cases GmlReader.resolveAttribute ⟨base ++ kept (written ++ tag.written), []⟩ attr.1 with
        | none => rfl
        | some name => rfl
      · unfold GmlReader.popPending
        dsimp only
        rw [hpending]
        rfl
      · unfold Resolver.pop
        dsimp only
        rw [← hkept, ← List.append_assoc, List.take_left, ← hbindings]
      · exact congrArg _ hopened

variable (quickXml) in
/-- The end tag of the innermost open element. -/
theorem nextEvent_end {r : GmlReader} {name : QName} {opened : List QName}
    (hopened : r.opened = name :: opened) :
    ∃ r', r.nextEvent quickXml .endTag = .ok (.endTag name, r') ∧
      r'.popPending.resolver = r.popPending.resolver.pop ∧ r'.opened = opened := by
  have hsame : r.popPending.opened = name :: opened := by
    rw [← hopened]
    unfold GmlReader.popPending
    split <;> rfl
  unfold GmlReader.nextEvent
  dsimp only
  rw [hsame]
  exact ⟨_, rfl, rfl, rfl⟩

variable (quickXml) in
/-- An element, where its content is read tag by tag. -/
theorem read_around {r : GmlReader} (tag : Tag) {content : List RawEvent}
    {names : Except ReaderError (List Names)}
    (hbindings : r.popPending.resolver.bindings = base ++ kept written)
    (hwritten : written.any misuses = false)
    (hcontent : ∀ r' : GmlReader,
      r'.popPending.resolver.bindings = base ++ kept (written ++ tag.written) →
      (written ++ tag.written).any misuses = false → Simulates r' (r'.read quickXml content) names) :
    Simulates r (r.read quickXml (.start tag :: (content ++ [.endTag])))
      (do return (← (⟨written ++ tag.written, tag⟩ : ScopedTag).read base) :: (← names)) := by
  rw [GmlReader.read]
  rcases nextEvent_start quickXml hbindings hwritten with
    ⟨e, hstart, hread⟩ | ⟨name, attrs, r₁, hstart, hread, hpop, hscope, hmisuse, hback, hopen⟩
  · rw [hstart, hread]
    exact .error e
  · rw [hstart, hread]
    have hinner := hcontent r₁ (by rw [hpop]; exact hscope) hmisuse
    simp only [bind, Except.bind, read_append]
    generalize r₁.read quickXml content = read at hinner
    cases hinner with
    | error e => exact .error e
    | @ok events r₂ names hnames hresolver hopened =>
      obtain ⟨r₃, hend, hpopped, hclosed⟩ := nextEvent_end quickXml
        (hopened.trans hopen)
      simp only [GmlReader.read, hend, bind, Except.bind]
      refine .ok ?_ ?_ hclosed
      · rw [← hnames]
        simp [startNames]
      · rw [hpopped, hresolver, hpop, hback]

theorem read_cons (base : List (Option Bytes × Bytes)) (t : ScopedTag) (inside rest : List ScopedTag) :
    (t :: (inside ++ rest)).mapM (ScopedTag.read base) = (do
      return (← (do return (← t.read base) :: (← inside.mapM (ScopedTag.read base)))) ++
        (← rest.mapM (ScopedTag.read base))) := by
  rw [List.mapM_cons, List.mapM_append]
  cases t.read base with
  | error e => rfl
  | ok names =>
    cases inside.mapM (ScopedTag.read base) with
    | error e => rfl
    | ok more => cases rest.mapM (ScopedTag.read base) <;> rfl

/-- A content is read tag by tag. -/
theorem read_content (c : Content) : ∀ {r : GmlReader} {written : List (Option Bytes × Bytes)},
    r.popPending.resolver.bindings = base ++ kept written → written.any misuses = false →
    Simulates r (r.read quickXml c.events) ((c.tags written).mapM (ScopedTag.read base)) := by
  induction c with
  | nil =>
    intro r written _ _
    exact .ok rfl rfl rfl
  | aside a rest ih => exact ih
  | empty tag rest ih =>
    intro r written hbindings hwritten
    have helement := read_around quickXml tag hbindings hwritten
      fun r' _ _ => show Simulates r' (r'.read quickXml []) (.ok []) from .ok rfl rfl rfl
    have hall := helement.andThen rest.events fun r' hresolver _ =>
      ih (hresolver ▸ hbindings) hwritten
    have hread := read_cons base ⟨written ++ tag.written, tag⟩ [] (rest.tags written)
    rw [List.nil_append] at hread
    rw [Content.tags, hread]
    exact hall
  | element tag children space rest ihc ihr =>
    intro r written hbindings hwritten
    have helement := read_around quickXml tag hbindings hwritten
      fun r' hscope hmisuse => ihc hscope hmisuse
    have hall := helement.andThen rest.events fun r' hresolver _ =>
      ihr (hresolver ▸ hbindings) hwritten
    rw [List.cons_append, List.append_assoc] at hall
    rw [Content.tags, read_cons]
    exact hall

/-- A feature is read tag by tag. -/
theorem read_element (element : Root) {r : GmlReader}
    (hbindings : r.popPending.resolver.bindings = base) :
    Simulates r (r.read quickXml element.events) (element.tags.mapM (ScopedTag.read base)) := by
  have hempty : r.popPending.resolver.bindings = base ++ kept [] := by
    rw [hbindings]
    exact (List.append_nil base).symm
  unfold Root.events Root.tags
  cases element.content with
  | none =>
    have helement := read_around quickXml element.tag hempty rfl
      fun r' _ _ => show Simulates r' (r'.read quickXml []) (.ok []) from .ok rfl rfl rfl
    rw [List.mapM_cons]
    exact helement
  | some content =>
    have helement := read_around quickXml element.tag hempty rfl
      fun r' hscope hmisuse => read_content content.1 hscope hmisuse
    rw [List.mapM_cons]
    exact helement

end

end Xeibe

import Xeibe.Core.Reader.Agree
import Xeibe.Core.Reader.Events

/-!
# Reading a document by the rules

In a document that keeps to the rules of namespaces (`ScopedTag.Declared`) the
reader gives every tag its names in the document (`nextEvent_start_declared`),
and passing over an element leaves it in the scope it was in before
(`skip_content`).
-/

namespace Xeibe

/-- The name and the attributes of a start tag, under the declarations `scope`. -/
def Tag.startIn (quickXml : Bytes → Option Bytes) (scope : List (Option Bytes × Bytes))
    (tag : Tag) : Option (QName × List (QName × Bytes)) := do
  let name ← resolveIn scope tag.name.bytes true
  let attrs ← tag.attributes.mapM fun attr =>
    (resolveIn scope attr.1 false).map fun name => (name, unescape quickXml attr.2)
  some (name, attrs)

/-- No declaration misuses `xml` or `xmlns`, and every prefix is declared. -/
structure ScopedTag.Declared (quickXml : Bytes → Option Bytes) (t : ScopedTag) : Prop where
  rules : t.written.any misuses = false
  named : (t.tag.startIn quickXml t.written).isSome = true

/-- The bindings of a reader that has nothing from outside. -/
def baseBindings : List (Option Bytes × Bytes) := contextBindings NamespaceContext.new

section

variable {quickXml : Bytes → Option Bytes} {written : List (Option Bytes × Bytes)}

theorem readName_declared {raw : Bytes} {element : Bool} {name : QName}
    (hrules : written.any misuses = false) (h : resolveIn written raw element = some name) :
    readName (baseBindings ++ kept written) raw element = some name := by
  have hmap : written.map (expanded fun _ => none) = written :=
    List.map_id'' (fun _ => rfl) written
  have hiff := @readName_eq (fun _ => none) [] written raw element name hrules
    (by rw [hmap]; exact h)
  refine hiff.2 (.inr (.inr ?_))
  unfold PlainPrefix
  cases inForce written (splitName raw).1 with
  | some value => rfl
  | none => trivial

theorem attributes_declared {tag : Tag} {levels : List Nat} {attrs : List (QName × Bytes)}
    (hrules : written.any misuses = false)
    (h : (tag.attributes.mapM fun attr =>
      (resolveIn written attr.1 false).map fun name => (name, unescape quickXml attr.2)) =
        some attrs) :
    GmlReader.attributes quickXml ⟨baseBindings ++ kept written, levels⟩ tag = attrs := by
  unfold GmlReader.attributes
  refine (filterMap_eq_iff h).2 fun attr hattr => ?_
  obtain ⟨named, hnamed⟩ := (mapM_some h).2 attr hattr
  obtain ⟨name, hname, -⟩ := Option.map_eq_some_iff.1 hnamed
  have hread := (resolveAttribute_eq (baseBindings ++ kept written) attr.1).trans
    (readName_declared hrules hname)
  have hlevels : GmlReader.resolveAttribute ⟨baseBindings ++ kept written, levels⟩ attr.1 =
      GmlReader.resolveAttribute ⟨baseBindings ++ kept written, []⟩ attr.1 := rfl
  rw [hlevels, hread, hname]

end

/-! ## Scopes -/

namespace GmlReader

/-- The reader stands in the scope of the declarations `written`. -/
def InScope (r : GmlReader) (written : List (Option Bytes × Bytes)) : Prop :=
  r.popPending.resolver.bindings = baseBindings ++ kept written

/-- `r'` stands where `r` does. -/
structure Same (r r' : GmlReader) : Prop where
  resolver : r'.popPending.resolver = r.popPending.resolver
  opened : r'.opened = r.opened

/-- `r'` stands where `r` does, in an element more. -/
structure Within (r r' : GmlReader) (tag : Tag) (written : List (Option Bytes × Bytes)) :
    Prop where
  scope : r'.InScope (written ++ tag.written)
  back : r'.popPending.resolver.pop = r.popPending.resolver

theorem Same.refl (r : GmlReader) : Same r r := ⟨rfl, rfl⟩

theorem Same.trans {r₁ r₂ r₃ : GmlReader} (h₁ : Same r₁ r₂) (h₂ : Same r₂ r₃) : Same r₁ r₃ :=
  ⟨h₂.resolver.trans h₁.resolver, h₂.opened.trans h₁.opened⟩

theorem Same.inScope {r r' : GmlReader} {written : List (Option Bytes × Bytes)} (h : Same r r')
    (hscope : r.InScope written) : r'.InScope written := by
  unfold InScope
  rw [h.resolver, hscope]

theorem popPending_opened (r : GmlReader) : r.popPending.opened = r.opened := by
  unfold popPending
  split <;> rfl

theorem popPending_pending (r : GmlReader) : r.popPending.pendingPop = false := by
  unfold popPending
  by_cases h : r.pendingPop = true <;> simp [h]

theorem popPending_of_not {r : GmlReader} (h : r.pendingPop = false) : r.popPending = r := by
  unfold popPending
  rw [h]
  rfl

section

variable {r : GmlReader} {tag : Tag} {written : List (Option Bytes × Bytes)}

theorem push_inScope (hscope : r.InScope written)
    (hrules : (written ++ tag.written).any misuses = false) :
    r.popPending.resolver.push tag.written =
      some ⟨baseBindings ++ kept (written ++ tag.written),
        r.popPending.resolver.bindings.length :: r.popPending.resolver.levels⟩ := by
  have hkept : kept (written ++ tag.written) = kept written ++ kept tag.written :=
    List.filter_append _ _
  rw [List.any_append, Bool.or_eq_false_iff] at hrules
  rw [push_eq, hrules.2, hkept, ← List.append_assoc, ← hscope]
  rfl

theorem within_of_resolver {r' : GmlReader} (hscope : r.InScope written)
    (hpending : r'.pendingPop = false)
    (hresolver : r'.resolver = ⟨baseBindings ++ kept (written ++ tag.written),
      r.popPending.resolver.bindings.length :: r.popPending.resolver.levels⟩) :
    r.Within r' tag written where
  scope := by
    unfold InScope
    rw [popPending_of_not hpending, hresolver]
  back := by
    have hkept : kept (written ++ tag.written) = kept written ++ kept tag.written :=
      List.filter_append _ _
    rw [popPending_of_not hpending, hresolver, hkept, ← List.append_assoc, ← hscope]
    exact pop_push

/-- The start tag of an element that keeps to the rules. -/
theorem nextEvent_start_declared {quickXml : Bytes → Option Bytes} {name : QName}
    {attrs : List (QName × Bytes)} (hscope : r.InScope written)
    (hrules : (written ++ tag.written).any misuses = false)
    (hstart : tag.startIn quickXml (written ++ tag.written) = some (name, attrs)) :
    ∃ r', r.nextEvent quickXml (.start tag) = .ok (.start name attrs, r') ∧
      r.Within r' tag written ∧ r'.opened = name :: r.opened := by
  unfold Tag.startIn at hstart
  simp only [bind, Option.bind_eq_some_iff, Option.some.injEq, Prod.mk.injEq] at hstart
  obtain ⟨_, hname, _, hattrs, rfl, rfl⟩ := hstart
  have hread := (resolveElement_ok _ _ _).2 (readName_declared hrules hname)
  unfold nextEvent
  dsimp only
  rw [push_inScope hscope hrules]
  have hlevels : ∀ levels, resolveElement
      ⟨baseBindings ++ kept (written ++ tag.written), levels⟩ tag.name.bytes =
      resolveElement ⟨baseBindings ++ kept (written ++ tag.written), []⟩ tag.name.bytes :=
    fun _ => rfl
  simp only [hlevels, hread, bind, Except.bind, attributes_declared hrules hattrs]
  refine ⟨_, rfl, within_of_resolver hscope (popPending_pending r) rfl, ?_⟩
  show _ :: r.popPending.opened = _
  rw [popPending_opened]

theorem enter_declared (hscope : r.InScope written)
    (hrules : (written ++ tag.written).any misuses = false) :
    ∃ r', r.enter tag = .ok r' ∧ r.Within r' tag written ∧ r'.opened = r.opened := by
  unfold enter
  dsimp only
  rw [push_inScope hscope hrules]
  exact ⟨_, rfl, within_of_resolver hscope (popPending_pending r) rfl, popPending_opened r⟩

theorem leave_resolver (r : GmlReader) :
    r.leave.popPending.resolver = r.popPending.resolver.pop := by
  unfold leave popPending
  rfl

theorem leave_opened (r : GmlReader) : r.leave.opened = r.opened := popPending_opened r

theorem Within.leave {r₁ r₂ : GmlReader} (hin : r.Within r₁ tag written) (hsame : Same r₁ r₂) :
    r₂.leave.popPending.resolver = r.popPending.resolver := by
  rw [leave_resolver, hsame.resolver, hin.back]

end

end GmlReader

/-! ## Passing over a content -/

namespace EventReader

theorem skip_zero {ending : EventsEnd} {depth : Nat} {names : GmlReader} {first : List Event}
    (h : ∀ e ∈ first, e.isText = true ∨ e = .other) (events : List Event) :
    skip ending depth names (first ++ events) = skip ending depth names events := by
  induction first with
  | nil => rfl
  | cons event first ih =>
    rw [List.forall_mem_cons] at h
    rw [List.cons_append]
    cases event with
    | tag event => exact absurd h.1 (by simp [Event.isText])
    | docType => exact absurd h.1 (by simp [Event.isText])
    | text bytes => rw [skip, ih h.2]
    | cdata bytes => rw [skip, ih h.2]
    | reference name => rw [skip, ih h.2]
    | other => rw [skip, ih h.2]

end EventReader

/-- `skip_element` passes over a content whose declarations keep to the rules. -/
theorem skip_content (c : Content) : ∀ {depth : Nat} {names : GmlReader} {offset : Nat}
    {written : List (Option Bytes × Bytes)} (ending : EventsEnd) (events : List Event),
    names.InScope written → (∀ t ∈ c.tags written, t.written.any misuses = false) →
    ∃ names', names.Same names' ∧
      EventReader.skip ending depth names ((c.placedEvents offset).map Prod.fst ++ events) =
        EventReader.skip ending depth names' events := by
  induction c with
  | nil =>
    intro depth names offset written ending events hscope hrules
    exact ⟨names, .refl names, rfl⟩
  | aside a rest ih =>
    intro depth names offset written ending events hscope hrules
    obtain ⟨names', hsame, hskip⟩ := @ih depth names (offset + a.render.length) written ending events
      hscope hrules
    refine ⟨names', hsame, ?_⟩
    rw [Content.placedEvents, List.map_append, List.map_map, List.append_assoc]
    rw [show (Prod.fst ∘ fun e : Event => (e, offset + a.render.length)) = id from rfl, List.map_id,
      EventReader.skip_zero a.events_isText, hskip]
  | empty tag rest ih =>
    intro depth names offset written ending events hscope hrules
    rw [Content.tags, List.forall_mem_cons] at hrules
    obtain ⟨inside, henter, hin, hopened⟩ := GmlReader.enter_declared hscope hrules.1
    have hback : names.Same inside.leave :=
      ⟨hin.leave (.refl inside), (inside.leave_opened).trans hopened⟩
    obtain ⟨names', hsame, hskip⟩ := @ih depth inside.leave (offset + tag.renderEmpty.length)
      written ending events (hback.inScope hscope) hrules.2
    refine ⟨names', hback.trans hsame, ?_⟩
    rw [← hskip, Content.placedEvents, List.map_cons, List.map_cons, List.cons_append,
      List.cons_append, EventReader.skip, henter]
    dsimp only
    rw [EventReader.skip]
  | element tag children space rest ihc ihr =>
    intro depth names offset written ending events hscope hrules
    rw [Content.tags, List.forall_mem_cons, List.forall_mem_append] at hrules
    obtain ⟨inside, henter, hin, hopened⟩ := GmlReader.enter_declared hscope hrules.1
    obtain ⟨done, hdone, hchildren⟩ := @ihc (depth + 1) inside (offset + tag.renderStart.length)
      (written ++ tag.written) ending (.tag .endTag :: ((rest.placedEvents
        (offset + tag.renderStart.length + children.render.length +
          (tag.renderEnd space).length)).map Prod.fst ++ events)) hin.scope hrules.2.1
    have hback : names.Same done.leave :=
      ⟨hin.leave hdone, (done.leave_opened).trans (hdone.opened.trans hopened)⟩
    obtain ⟨names', hsame, hskip⟩ := @ihr depth done.leave
      (offset + tag.renderStart.length + children.render.length + (tag.renderEnd space).length)
      written ending events (hback.inScope hscope) hrules.2.2
    refine ⟨names', hback.trans hsame, ?_⟩
    rw [Content.placedEvents, List.map_cons, List.map_append, List.map_cons, List.cons_append,
      List.append_assoc, List.cons_append, EventReader.skip, henter]
    dsimp only
    rw [hchildren, EventReader.skip, hskip]

end Xeibe

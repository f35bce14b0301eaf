import Xeibe.Core.Reader.CutOff
import Xeibe.Core.Reader.Passed
import Xeibe.Wfs.Response

/-!
# What the walk of a page sees

The two walks are one (`walk`, by what the element they are in is), and what they
make of a content is a walk over the tree (`Content.inspected`): `walk_content`
takes the walk over events to it.  A walk that comes to its end has gone out of
the element it started in (`walk_moves`).
-/

namespace Xeibe.Wfs.Inspect

open Lib (level)

/-! ## One walk -/

/-- The walk in a member element, or in a collection. -/
def walk (q : QuickXml) (members : Bool) (fuel : Nat) (reader : EventReader)
    (info : ResponseInfo) : ResponseInfo × Except ReadError EventReader :=
  if members then walkMember q fuel reader info else walkCollection q fuel reader info

/-- The children that are walked themselves: collections in a member element,
and member elements in a collection. -/
def entered (members : Bool) (name : QName) : Option Bool :=
  if members then if isCollection name then some false else none
  else if isWfs name && name.localName == utf8 "truncatedResponse" then none
  else if isMember name then some true else none

/-- What a child says, before its content. -/
def ResponseInfo.note (members : Bool) (name : QName) (attrs : List (QName × Bytes))
    (info : ResponseInfo) : ResponseInfo :=
  if members then
    if isCollection name then { info with nestedCollections := info.nestedCollections + 1 }
    else info.countFeature (featureId attrs)
  else if isWfs name && name.localName == utf8 "truncatedResponse" then
    { info with truncated := true }
  else if isMember name then info.noteMember attrs
  else info

section

variable {q : QuickXml} {members : Bool}

theorem walk_error {fuel : Nat} {reader : EventReader} {info : ResponseInfo} {e : ReadError}
    (h : reader.nextEvent q = .error e) : walk q members (fuel + 1) reader info = (info, .error e) := by
  unfold walk
  cases members <;> simp [walkMember, walkCollection, h]

theorem walk_text {fuel : Nat} {reader next : EventReader} {info : ResponseInfo}
    (h : reader.nextEvent q = .ok (.text, next)) :
    walk q members (fuel + 1) reader info = walk q members fuel next info := by
  unfold walk
  cases members <;> simp [walkMember, walkCollection, h]

theorem walk_eof {fuel : Nat} {reader next : EventReader} {info : ResponseInfo}
    (h : reader.nextEvent q = .ok (.eof, next)) :
    walk q members (fuel + 1) reader info = (info, .error .unexpectedEnd) := by
  unfold walk
  cases members <;> simp [walkMember, walkCollection, h]

theorem walk_endTag {fuel : Nat} {reader next : EventReader} {info : ResponseInfo} {name : QName}
    (h : reader.nextEvent q = .ok (.element (.endTag name), next)) :
    walk q members (fuel + 1) reader info = (info, .ok next) := by
  unfold walk
  cases members <;> simp [walkMember, walkCollection, h]

/-- A child that is passed over. -/
theorem walk_passed {fuel : Nat} {reader next : EventReader} {info : ResponseInfo} {name : QName}
    {attrs : List (QName × Bytes)}
    (h : reader.nextEvent q = .ok (.element (.start name attrs), next))
    (hentered : entered members name = none) :
    walk q members (fuel + 1) reader info =
      match next.skipElement with
      | .error e => (info.note members name attrs, .error e)
      | .ok reader => walk q members fuel reader (info.note members name attrs) := by
  unfold walk ResponseInfo.note
  unfold entered at hentered
  cases members with
  | true =>
    by_cases hcollection : isCollection name = true
    · simp [hcollection] at hentered
    · cases hskip : next.skipElement <;>
        simp only [walkMember, h, hcollection, hskip, if_true, Bool.false_eq_true, if_false]
  | false =>
    by_cases htruncated : (isWfs name && name.localName == utf8 "truncatedResponse") = true
    · cases hskip : next.skipElement <;>
        simp only [walkCollection, h, htruncated, hskip, if_true, Bool.false_eq_true, if_false]
    · by_cases hmember : isMember name = true
      · simp [htruncated, hmember] at hentered
      · cases hskip : next.skipElement <;>
          simp only [walkCollection, h, htruncated, hmember, hskip, Bool.false_eq_true, if_false]

/-- A child that is walked. -/
theorem walk_entered {fuel : Nat} {reader next : EventReader} {info : ResponseInfo} {name : QName}
    {attrs : List (QName × Bytes)} {inner : Bool}
    (h : reader.nextEvent q = .ok (.element (.start name attrs), next))
    (hentered : entered members name = some inner) :
    walk q members (fuel + 1) reader info =
      match walk q inner fuel next (info.note members name attrs) with
      | (info, .error e) => (info, .error e)
      | (info, .ok reader) => walk q members fuel reader info := by
  unfold walk ResponseInfo.note
  unfold entered at hentered
  cases members with
  | true =>
    by_cases hcollection : isCollection name = true
    · simp only [hcollection, if_true, Option.some.injEq] at hentered
      simp only [walkMember, h, hcollection, ← hentered, if_true, Bool.false_eq_true,
        if_false] <;> rcases walkCollection q fuel next _ with ⟨info, _ | _⟩ <;> rfl
    · simp [hcollection] at hentered
  | false =>
    by_cases htruncated : (isWfs name && name.localName == utf8 "truncatedResponse") = true
    · simp [htruncated] at hentered
    · by_cases hmember : isMember name = true
      · simp only [htruncated, hmember, if_true, Bool.false_eq_true, if_false,
          Option.some.injEq] at hentered
        simp only [walkCollection, h, htruncated, hmember, ← hentered, if_true,
          Bool.false_eq_true, if_false] <;>
          rcases walkMember q fuel next _ with ⟨info, _ | _⟩ <;> rfl
      · simp [htruncated, hmember] at hentered

/-- A walk that comes to its end has gone out of the element it was in. -/
theorem walk_moves {fuel : Nat} : ∀ {members : Bool} {reader reader' : EventReader}
    {info info' : ResponseInfo}, walk q members fuel reader info = (info', .ok reader') →
    reader.Moves reader' (-1) := by
  induction fuel with
  | zero =>
    intro members reader reader' info info' h
    unfold walk at h
    cases members <;> simp [walkMember, walkCollection] at h
  | succ fuel ih =>
    intro members reader reader' info info' h
    cases hnext : reader.nextEvent q with
    | error e =>
      rw [walk_error hnext] at h
      cases h
    | ok result =>
      obtain ⟨result, next⟩ := result
      have hmoves := EventReader.nextEvent_moves hnext
      cases result with
      | text =>
        rw [walk_text hnext] at h
        exact hmoves.trans (ih h)
      | eof =>
        rw [walk_eof hnext] at h
        cases h
      | element event =>
        cases event with
        | endTag name =>
          rw [walk_endTag hnext, Prod.mk.injEq, Except.ok.injEq] at h
          rw [← h.2]
          exact hmoves
        | start name attrs =>
          -- Into the child, out of it, and on.
          cases hentered : entered members name with
          | none =>
            rw [walk_passed hnext hentered] at h
            cases hskip : next.skipElement with
            | error e =>
              rw [hskip] at h
              cases h
            | ok after =>
              rw [hskip] at h
              exact (hmoves.trans (EventReader.skipElement_moves hskip)).trans (ih h)
          | some inner =>
            rw [walk_entered hnext hentered] at h
            cases hinner : walk q inner fuel next (info.note members name attrs) with
            | mk noted outcome =>
              rw [hinner] at h
              cases outcome with
              | error e => cases h
              | ok after => exact (hmoves.trans (ih hinner)).trans (ih h)

end

/-! ## The walk over a tree -/

/-- What a child says, its content with it: `inside` is what the walk of its
content makes of the information. -/
def noteElement (members : Bool) (start : Option (QName × List (QName × Bytes)))
    (inside : Bool → ResponseInfo → ResponseInfo) (info : ResponseInfo) : ResponseInfo :=
  match start with
  | none => info
  | some (name, attrs) =>
    match entered members name with
    | some inner => inside inner (info.note members name attrs)
    | none => info.note members name attrs

/-- The walk over a content in the scope of the declarations `written`. -/
def inspected (quickXml : Bytes → Option Bytes) :
    Bool → List (Option Bytes × Bytes) → Content → ResponseInfo → ResponseInfo
  | _, _, .nil, info => info
  | members, written, .aside _ rest, info => inspected quickXml members written rest info
  | members, written, .empty tag rest, info =>
    inspected quickXml members written rest
      (noteElement members (tag.startIn quickXml (written ++ tag.written)) (fun _ info => info) info)
  | members, written, .element tag children _ rest, info =>
    inspected quickXml members written rest
      (noteElement members (tag.startIn quickXml (written ++ tag.written))
        (fun inner info => inspected quickXml inner (written ++ tag.written) children info) info)

/-- Every reference of the text is a character reference or a predefined
entity. -/
def Defined (q : QuickXml) (a : Aside) : Prop :=
  ∀ name, Event.reference name ∈ a.events → EventReader.expandReference q name = .ok ()

/-- What stands beside the elements of a content, at any depth. -/
def asides : Content → List Aside
  | .nil => []
  | .aside a rest => a :: asides rest
  | .empty _ rest => asides rest
  | .element _ children _ rest => asides children ++ asides rest

/-- The walk comes to its end, and takes no more turns than it reads events. -/
structure Walks (q : QuickXml) (members : Bool) (reader : EventReader) (info : ResponseInfo)
    (info' : ResponseInfo) (reader' : EventReader) : Prop where
  reads : reader'.events.length ≤ reader.events.length
  walked : ∀ fuel, reader.events.length < fuel + reader'.events.length →
    walk q members fuel reader info = (info', .ok reader')

section

variable {q : QuickXml} {members : Bool} {names : GmlReader} {ending : EventsEnd}
  {events : List Event} {info info' : ResponseInfo} {reader' : EventReader}

/-- A turn that reads one event and goes on. -/
theorem Walks.turn {event : Event} {next : EventReader} {noted : ResponseInfo}
    (h : Walks q members next noted info' reader') (hle : next.events.length ≤ events.length)
    (hturn : ∀ fuel, next.events.length < fuel + reader'.events.length →
      events.length < fuel + reader'.events.length →
      walk q members (fuel + 1) ⟨names, event :: events, ending⟩ info =
        walk q members fuel next noted) :
    Walks q members ⟨names, event :: events, ending⟩ info info' reader' where
  reads := by
    have hreads := h.reads
    show reader'.events.length ≤ events.length + 1
    omega
  walked fuel hfuel := by
    have hreads := h.reads
    have hlong : events.length + 1 < fuel + reader'.events.length := hfuel
    cases fuel with
    | zero => omega
    | succ fuel =>
      rw [hturn fuel (by omega) (by omega)]
      exact h.walked fuel (by omega)

/-- Text is passed over. -/
theorem Walks.beside {first : List Event} (hfirst : ∀ e ∈ first, e.isText = true ∨ e = .other)
    (hdefined : ∀ name, Event.reference name ∈ first →
      EventReader.expandReference q name = .ok ())
    (h : Walks q members ⟨names, events, ending⟩ info info' reader') :
    Walks q members ⟨names, first ++ events, ending⟩ info info' reader' := by
  induction first with
  | nil => exact h
  | cons event first ih =>
    rw [List.forall_mem_cons] at hfirst
    have hrest := ih hfirst.2 fun name hname => hdefined name (List.mem_cons_of_mem _ hname)
    have htext : (∀ fuel, walk q members (fuel + 1) ⟨names, event :: (first ++ events), ending⟩ info =
        walk q members fuel ⟨names, first ++ events, ending⟩ info) →
        Walks q members ⟨names, event :: (first ++ events), ending⟩ info info' reader' :=
      fun hturn => hrest.turn (Nat.le_refl _) fun fuel _ _ => hturn fuel
    cases event with
    | tag event => exact absurd hfirst.1 (by simp [Event.isText])
    | docType => exact absurd hfirst.1 (by simp [Event.isText])
    | text bytes => exact htext fun fuel => walk_text rfl
    | cdata bytes => exact htext fun fuel => walk_text rfl
    | reference name =>
      refine htext fun fuel => walk_text ?_
      have hname := hdefined name List.mem_cons_self
      unfold EventReader.nextEvent EventReader.next
      rw [hname]
      rfl
    | other =>
      -- It is read together with what follows.
      have hsame : ∀ fuel, walk q members fuel ⟨names, .other :: (first ++ events), ending⟩ info =
          walk q members fuel ⟨names, first ++ events, ending⟩ info := by
        intro fuel
        cases members <;> cases fuel <;> rfl
      refine ⟨Nat.le_succ_of_le hrest.reads, fun fuel hfuel => ?_⟩
      have hlong : (first ++ events).length + 1 < fuel + reader'.events.length := hfuel
      show walk q members fuel ⟨names, .other :: (first ++ events), ending⟩ info = _
      rw [hsame]
      exact hrest.walked fuel (Nat.lt_of_succ_lt hlong)

theorem walks_endTag {name : QName} {opened : List QName} (hopened : names.opened = name :: opened) :
    ∃ names', Walks q members ⟨names, .tag .endTag :: events, ending⟩ info info
        ⟨names', events, ending⟩ ∧
      names'.popPending.resolver = names.popPending.resolver.pop ∧ names'.opened = opened := by
  obtain ⟨names', hread, hresolver, hclosed⟩ := nextEvent_end q.unescape hopened
  refine ⟨names', ⟨Nat.le_succ _, fun fuel hfuel => ?_⟩, hresolver, hclosed⟩
  have hlong : events.length + 1 < fuel + events.length := hfuel
  cases fuel with
  | zero => omega
  | succ fuel =>
    refine @walk_endTag _ _ _ _ _ _ name ?_
    unfold EventReader.nextEvent EventReader.next
    rw [hread]

/-- An element, where its content, `body`, is passed over or walked. -/
theorem walks_element {tag : Tag} {body : List Event} {written : List (Option Bytes × Bytes)}
    {inside : Bool → ResponseInfo → ResponseInfo} (hscope : names.InScope written)
    (hdeclared : (⟨written ++ tag.written, tag⟩ : ScopedTag).Declared q.unescape)
    (hskip : ∀ within : GmlReader, within.InScope (written ++ tag.written) →
      ∃ done, within.Same done ∧
        EventReader.skip ending 0 within (body ++ .tag .endTag :: events) =
          EventReader.skip ending 0 done (.tag .endTag :: events))
    (hwalk : ∀ (inner : Bool) (within : GmlReader) (noted : ResponseInfo),
      within.InScope (written ++ tag.written) →
      ∃ done, within.Same done ∧ ∀ info' reader',
        Walks q inner ⟨done, .tag .endTag :: events, ending⟩ (inside inner noted) info' reader' →
        Walks q inner ⟨within, body ++ .tag .endTag :: events, ending⟩ noted info' reader') :
    ∃ names', names.Same names' ∧ ∀ info' reader',
      Walks q members ⟨names', events, ending⟩
        (noteElement members (tag.startIn q.unescape (written ++ tag.written)) inside info)
        info' reader' →
      Walks q members
        ⟨names, .tag (.start tag) :: (body ++ .tag .endTag :: events), ending⟩ info info'
        reader' := by
  obtain ⟨⟨name, attrs⟩, hstart⟩ := Option.isSome_iff_exists.1 hdeclared.named
  obtain ⟨within, hread, hin, hopened⟩ :=
    GmlReader.nextEvent_start_declared hscope hdeclared.rules hstart
  have hnext : (⟨names, .tag (.start tag) :: (body ++ .tag .endTag :: events), ending⟩ :
      EventReader).nextEvent q =
      .ok (.element (.start name attrs), ⟨within, body ++ .tag .endTag :: events, ending⟩) := by
    unfold EventReader.nextEvent EventReader.next
    rw [hread]
  have hlonger : events.length ≤ (body ++ .tag .endTag :: events).length := by
    rw [List.length_append, List.length_cons]
    omega
  have hnote : noteElement members (tag.startIn q.unescape (written ++ tag.written)) inside info =
      match entered members name with
      | some inner => inside inner (info.note members name attrs)
      | none => info.note members name attrs := by
    show noteElement members (tag.startIn q.unescape (written ++ tag.written)) inside info = _
    rw [show tag.startIn q.unescape (written ++ tag.written) = some (name, attrs) from hstart]
    rfl
  rw [hnote]
  cases hentered : entered members name with
  | none =>
    obtain ⟨done, hdone, hskipped⟩ := hskip within hin.scope
    rw [EventReader.skip] at hskipped
    have hback : names.Same { done.leave with opened := done.opened.tail } := by
      refine ⟨hin.leave hdone, ?_⟩
      show done.opened.tail = names.opened
      rw [hdone.opened, hopened, List.tail_cons]
    refine ⟨_, hback, fun info' reader' hrest => hrest.turn hlonger fun fuel _ _ => ?_⟩
    have helement : (⟨within, body ++ .tag .endTag :: events, ending⟩ :
        EventReader).skipElement =
        .ok ⟨{ done.leave with opened := done.opened.tail }, events, ending⟩ := hskipped
    rw [walk_passed hnext hentered, helement]
  | some inner =>
    obtain ⟨done, hdone, hwalked⟩ := hwalk inner within (info.note members name attrs) hin.scope
    obtain ⟨names', hend, hresolver, hclosed⟩ := @walks_endTag q inner done ending events
      (inside inner (info.note members name attrs)) name names.opened (hdone.opened.trans hopened)
    have hinner := hwalked _ _ hend
    have hback : names.Same names' := by
      refine ⟨?_, hclosed⟩
      rw [hresolver, hdone.resolver, hin.back]
    refine ⟨names', hback, fun info' reader' hrest => hrest.turn hlonger fun fuel hfuel hlong => ?_⟩
    have hreads := hrest.reads
    have hpart : reader'.events.length ≤ events.length := hreads
    have hdepth := hinner.walked fuel (show (body ++ .tag .endTag :: events).length <
      fuel + events.length by omega)
    rw [walk_entered hnext hentered, hdepth]

end

/-- The walk of a content is the walk over its tree. -/
theorem walk_content {q : QuickXml} {ending : EventsEnd} (c : Content) :
    ∀ {members : Bool} {names : GmlReader} {offset : Nat} {written : List (Option Bytes × Bytes)}
      {info : ResponseInfo} (events : List Event), names.InScope written →
    (∀ t ∈ c.tags written, t.Declared q.unescape) → (∀ a ∈ asides c, Defined q a) →
    ∃ names', names.Same names' ∧ ∀ info' reader',
      Walks q members ⟨names', events, ending⟩ (inspected q.unescape members written c info)
        info' reader' →
      Walks q members ⟨names, (c.placedEvents offset).map Prod.fst ++ events, ending⟩ info info'
        reader' := by
  induction c with
  | nil =>
    intro members names offset written info events hscope hdeclared hdefined
    exact ⟨names, .refl names, fun _ _ h => h⟩
  | aside a rest ih =>
    intro members names offset written info events hscope hdeclared hdefined
    rw [asides, List.forall_mem_cons] at hdefined
    obtain ⟨names', hsame, hrest⟩ := @ih members names (offset + a.render.length) written info
      events hscope hdeclared hdefined.2
    refine ⟨names', hsame, fun info' reader' h => ?_⟩
    have hbeside := (hrest info' reader' h).beside a.events_isText hdefined.1
    rw [Content.placedEvents, List.map_append, List.map_map, List.append_assoc]
    rw [show (Prod.fst ∘ fun e : Event => (e, offset + a.render.length)) = id from rfl, List.map_id]
    exact hbeside
  | empty tag rest ih =>
    intro members names offset written info events hscope hdeclared hdefined
    rw [Content.tags, List.forall_mem_cons] at hdeclared
    obtain ⟨after, hsame, helement⟩ := @walks_element q members names ending
      ((rest.placedEvents (offset + tag.renderEmpty.length)).map Prod.fst ++ events) info tag []
      written (fun _ info => info) hscope hdeclared.1
      (fun within _ => ⟨within, .refl within, rfl⟩)
      (fun _ within _ _ => ⟨within, .refl within, fun _ _ h => h⟩)
    obtain ⟨names', hsame', hrest⟩ := @ih members after (offset + tag.renderEmpty.length) written
      _ events (hsame.inScope hscope) hdeclared.2 hdefined
    exact ⟨names', hsame.trans hsame', fun info' reader' h =>
      helement info' reader' (hrest info' reader' h)⟩
  | element tag children space rest ihc ihr =>
    intro members names offset written info events hscope hdeclared hdefined
    rw [Content.tags, List.forall_mem_cons, List.forall_mem_append] at hdeclared
    rw [asides, List.forall_mem_append] at hdefined
    obtain ⟨after, hsame, helement⟩ := @walks_element q members names ending
      ((rest.placedEvents (offset + tag.renderStart.length + children.render.length +
        (tag.renderEnd space).length)).map Prod.fst ++ events) info tag
      ((children.placedEvents (offset + tag.renderStart.length)).map Prod.fst) written
      (fun inner info => inspected q.unescape inner (written ++ tag.written) children info)
      hscope hdeclared.1
      (fun within hin => skip_content children ending _ hin fun t ht => (hdeclared.2.1 t ht).rules)
      (fun _ within _ hin => ihc _ hin hdeclared.2.1 hdefined.1)
    obtain ⟨names', hsame', hrest⟩ := @ihr members after (offset + tag.renderStart.length +
      children.render.length + (tag.renderEnd space).length) written _ events
      (hsame.inScope hscope) hdeclared.2.2 hdefined.2
    refine ⟨names', hsame.trans hsame', fun info' reader' h => ?_⟩
    have hall := helement info' reader' (hrest info' reader' h)
    rw [Content.placedEvents, List.map_cons, List.map_append, List.map_cons, List.cons_append,
      List.append_assoc, List.cons_append]
    exact hall

end Xeibe.Wfs.Inspect

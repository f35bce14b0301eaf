import Xeibe.Core.Reader.Events
import Xeibe.Lib.Nesting

/-!
# What a break leaves open

Reading takes events from the front and says by how much it went in or out
(`next_level`, `skip_level`).  The content of an element is nested, so no part of
it closes the element: a break inside the root leaves the root open
(`eventsWithin_root`).
-/

namespace Xeibe

open Lib (level Nested)

/-- A start tag goes in, an end tag out. -/
def Event.step : Event → Int
  | .tag (.start _) => 1
  | .tag .endTag => -1
  | .text _ | .cdata _ | .reference _ | .docType | .other => 0

/-- What the reader returns says the same. -/
def NextEvent.step : NextEvent → Int
  | .element (.start ..) => 1
  | .element (.endTag _) => -1
  | .text | .eof => 0

namespace EventReader

/-- The events that a reader has read to become another: `n` levels further in. -/
def Moves (r r' : EventReader) (n : Int) : Prop :=
  ∃ used, r.events = used ++ r'.events ∧ level Event.step used = n

theorem Moves.trans {r₁ r₂ r₃ : EventReader} {m n : Int} (h₁ : r₁.Moves r₂ m)
    (h₂ : r₂.Moves r₃ n) : r₁.Moves r₃ (m + n) := by
  obtain ⟨used, hused, hm⟩ := h₁
  obtain ⟨more, hmore, hn⟩ := h₂
  refine ⟨used ++ more, ?_, ?_⟩
  · rw [hused, hmore, List.append_assoc]
  · rw [Lib.level_append, hm, hn]

section

variable {q : QuickXml} {names : GmlReader} {ending : EventsEnd} {events : List Event}

theorem moves_cons {r' : EventReader} {event : Event} {n : Int}
    (h : (⟨names, events, ending⟩ : EventReader).Moves r' n) :
    (⟨names, event :: events, ending⟩ : EventReader).Moves r' (event.step + n) := by
  obtain ⟨used, hused, hn⟩ := h
  refine ⟨event :: used, ?_, ?_⟩
  · show event :: events = event :: used ++ r'.events
    rw [List.cons_append, ← hused]
  · rw [Lib.level_cons, hn]

theorem moves_refl (names' : GmlReader) (ending' : EventsEnd) :
    (⟨names, events, ending⟩ : EventReader).Moves ⟨names', events, ending'⟩ 0 :=
  ⟨[], rfl, Lib.level_nil⟩

theorem nextEvent_step {names' : GmlReader} {event : RawEvent} {result : XmlEvent}
    (h : names.nextEvent q.unescape event = .ok (result, names')) :
    (NextEvent.element result).step = (Event.tag event).step := by
  cases event with
  | start tag =>
    unfold GmlReader.nextEvent at h
    dsimp only at h
    split at h
    · cases h
    · simp only [bind, Except.bind] at h
      split at h
      · cases h
      · rw [Except.ok.injEq, Prod.mk.injEq] at h
        rw [← h.1]
        rfl
  | endTag =>
    unfold GmlReader.nextEvent at h
    dsimp only at h
    split at h
    · cases h
    · rw [Except.ok.injEq, Prod.mk.injEq] at h
      rw [← h.1]
      rfl

/-- What `next_event` returns is how far it has gone in. -/
theorem next_level {result : NextEvent} {r' : EventReader}
    (h : next q names ending events = .ok (result, r')) :
    (⟨names, events, ending⟩ : EventReader).Moves r' result.step := by
  induction events with
  | nil =>
    cases ending with
    | eof =>
      rw [next, Except.ok.injEq, Prod.mk.injEq] at h
      rw [← h.1, ← h.2]
      exact moves_refl names .eof
    | failed message => cases h
  | cons event events ih =>
    cases event with
    | tag event =>
      rw [next] at h
      split at h
      · cases h
      · rename_i result' names' hread
        rw [Except.ok.injEq, Prod.mk.injEq] at h
        rw [← h.1, ← h.2, nextEvent_step hread, ← Int.add_zero (Event.step _)]
        exact moves_cons (moves_refl names' ending)
    | text bytes =>
      rw [next, Except.ok.injEq, Prod.mk.injEq] at h
      rw [← h.1, ← h.2]
      exact moves_cons (moves_refl names ending)
    | cdata bytes =>
      rw [next, Except.ok.injEq, Prod.mk.injEq] at h
      rw [← h.1, ← h.2]
      exact moves_cons (moves_refl names ending)
    | reference name =>
      rw [next] at h
      simp only [bind, Except.bind] at h
      split at h
      · cases h
      · rw [Except.ok.injEq, Prod.mk.injEq] at h
        rw [← h.1, ← h.2]
        exact moves_cons (moves_refl names ending)
    | docType => cases h
    | other =>
      rw [next] at h
      have hmoves := @moves_cons _ _ _ _ .other _ (ih h)
      rwa [show Event.other.step = 0 from rfl, Int.zero_add] at hmoves

/-- `skip_element` goes out of the elements it is in, and of one more. -/
theorem skip_level {depth : Nat} {r' : EventReader}
    (h : skip ending depth names events = .ok r') :
    (⟨names, events, ending⟩ : EventReader).Moves r' (-(depth + 1)) := by
  induction events generalizing depth names with
  | nil => cases ending <;> cases h
  | cons event events ih =>
    have hpass : ∀ {event : Event}, event.step = 0 → skip ending depth names events = .ok r' →
        (⟨names, event :: events, ending⟩ : EventReader).Moves r' (-(depth + 1)) := by
      intro event hstep hskip
      have hmoves := @moves_cons _ _ _ _ event _ (ih hskip)
      rwa [hstep, Int.zero_add] at hmoves
    cases event with
    | tag event =>
      cases event with
      | start tag =>
        rw [skip] at h
        split at h
        · cases h
        · rename_i names' _
          have hmoves := ih h
          have hstart := @moves_cons names ending events _ (.tag (.start tag)) _
            (show (⟨names, events, ending⟩ : EventReader).Moves r' _ from hmoves)
          have hlevel : (Event.tag (.start tag)).step + -((↑(depth + 1) : Int) + 1) =
              -(↑depth + 1) := by
            show (1 : Int) + _ = _
            omega
          rwa [hlevel] at hstart
      | endTag =>
        cases depth with
        | zero =>
          rw [skip, Except.ok.injEq] at h
          rw [← h]
          exact moves_cons (moves_refl _ ending)
        | succ depth =>
          rw [skip] at h
          have hmoves := ih h
          have hend := @moves_cons names ending events _ (.tag .endTag) _
            (show (⟨names, events, ending⟩ : EventReader).Moves r' _ from hmoves)
          have hlevel : (Event.tag .endTag).step + -((↑depth : Int) + 1) =
              -(↑(depth + 1) + 1) := by
            show (-1 : Int) + _ = _
            omega
          rwa [hlevel] at hend
    | docType => cases depth <;> cases h
    | text bytes => exact hpass rfl (by rwa [skip] at h)
    | cdata bytes => exact hpass rfl (by rwa [skip] at h)
    | reference name => exact hpass rfl (by rwa [skip] at h)
    | other => exact hpass rfl (by rwa [skip] at h)

end

theorem nextEvent_moves {q : QuickXml} {r r' : EventReader} {result : NextEvent}
    (h : r.nextEvent q = .ok (result, r')) : r.Moves r' result.step := next_level h

theorem skipElement_moves {r r' : EventReader} (h : r.skipElement = .ok r') : r.Moves r' (-1) :=
  skip_level h

/-- No part of what the reader has yet to read goes out of the element it is in. -/
def Inside (r : EventReader) : Prop := ∀ used, used <+: r.events → 0 ≤ level Event.step used

theorem Inside.not_moves {r r' : EventReader} (h : r.Inside) : ¬ r.Moves r' (-1) := by
  rintro ⟨used, hused, hlevel⟩
  have hopen := h used (hused ▸ List.prefix_append _ _)
  omega

end EventReader

/-! ## Documents -/

theorem Event.step_of_isText {e : Event} (h : e.isText = true ∨ e = .other) : e.step = 0 := by
  cases e with
  | tag event => exact absurd h (by simp [Event.isText])
  | text bytes => rfl
  | cdata bytes => rfl
  | reference name => rfl
  | docType => rfl
  | other => rfl

theorem Aside.events_step (a : Aside) : ∀ e ∈ a.events, e.step = 0 :=
  fun e he => Event.step_of_isText (a.events_isText e he)

/-- The content of an element is nested. -/
theorem Content.nested (c : Content) (offset : Nat) :
    Nested Event.step ((c.placedEvents offset).map Prod.fst) := by
  induction c generalizing offset with
  | nil => exact .nil
  | aside a rest ih =>
    rw [Content.placedEvents, List.map_append, List.map_map]
    refine .append (.of_zero ?_) (ih _)
    rw [show (Prod.fst ∘ fun e : Event => (e, offset + a.render.length)) = id from rfl, List.map_id]
    exact a.events_step
  | empty tag rest ih =>
    have hboth := (@Nested.nil _ Event.step).around (a := .tag (.start tag)) (b := .tag .endTag)
      rfl rfl
    exact hboth.append (ih _)
  | element tag children space rest ihc ihr =>
    rw [Content.placedEvents, List.map_cons, List.map_append, List.map_cons]
    have haround := (ihc (offset + tag.renderStart.length)).around (a := .tag (.start tag))
      (b := .tag .endTag) rfl rfl
    have hall := haround.append (ihr (offset + tag.renderStart.length + children.render.length +
      (tag.renderEnd space).length))
    rw [List.cons_append, List.append_assoc] at hall
    exact hall

theorem takeWhile_before {α : Type} {p : α → Bool} (a : List α) {x : α} (b : List α)
    (h : p x = false) : (a ++ x :: b).takeWhile p <+: a := by
  induction a with
  | nil =>
    rw [List.nil_append, List.takeWhile_cons, h]
    exact List.prefix_refl []
  | cons y a ih =>
    rw [List.cons_append, List.takeWhile_cons]
    split
    · exact List.cons_prefix_cons.2 ⟨rfl, ih⟩
    · exact List.nil_prefix

theorem asideEvents_events (asides : List Aside) (offset : Nat) :
    (asideEvents offset asides).map Prod.fst = asides.flatMap Aside.events := by
  induction asides generalizing offset with
  | nil => rfl
  | cons a asides ih =>
    rw [asideEvents, List.map_append, ih, List.map_map, List.flatMap_cons]
    congr 1
    exact List.map_id _

theorem asideEvents_le {asides : List Aside} {offset : Nat} {e : Event × Nat}
    (h : e ∈ asideEvents offset asides) :
    e.2 ≤ offset + (asides.flatMap Aside.render).length := by
  induction asides generalizing offset with
  | nil => cases h
  | cons a asides ih =>
    rw [List.flatMap_cons, List.length_append]
    rw [asideEvents, List.mem_append, List.mem_map] at h
    rcases h with ⟨event, -, he⟩ | h
    · rw [← he]
      show offset + a.render.length ≤ _
      omega
    · have hle := ih h
      omega

/-- A break inside the root: what is before the root, its start tag, and a part
of its content. -/
theorem Document.eventsWithin_root (doc : Document) {n : Nat} {children : Content} {space : Space}
    (hcontent : doc.root.content = some (children, space))
    (hstart : doc.rootOffset + doc.root.tag.renderStart.length ≤ n)
    (hend : n < doc.rootOffset + doc.root.render.length) :
    ∃ first, first <+: (children.placedEvents
        (doc.rootOffset + doc.root.tag.renderStart.length)).map Prod.fst ∧
      doc.eventsWithin n =
        doc.before.flatMap Aside.events ++ .tag (.start doc.root.tag) :: first := by
  have hbefore : ∀ e ∈ asideEvents 0 doc.before, decide (e.2 ≤ n) = true := by
    intro e he
    have hle := asideEvents_le he
    rw [Nat.zero_add] at hle
    have hroot : (doc.before.flatMap Aside.render).length = doc.rootOffset := rfl
    rw [decide_eq_true_eq]
    omega
  have hroot : doc.root.placedEvents doc.rootOffset =
      (.tag (.start doc.root.tag), doc.rootOffset + doc.root.tag.renderStart.length) ::
        (children.placedEvents (doc.rootOffset + doc.root.tag.renderStart.length) ++
          [(.tag .endTag, doc.rootOffset + doc.root.render.length)]) := by
    unfold Root.placedEvents
    rw [hcontent]
  unfold Document.eventsWithin Document.placedEvents
  rw [hroot, List.takeWhile_append_of_pos hbefore, List.cons_append, List.takeWhile_cons,
    if_pos (decide_eq_true hstart), List.map_append, asideEvents_events, List.map_cons,
    List.append_assoc]
  refine ⟨_, List.IsPrefix.map Prod.fst ?_, rfl⟩
  refine takeWhile_before _ _ ?_
  exact decide_eq_false (Nat.not_le.2 hend)

end Xeibe

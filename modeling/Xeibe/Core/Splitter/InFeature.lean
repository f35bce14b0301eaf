import Xeibe.Core.Splitter.Markup

/-!
# Inside a feature

Inside a feature the splitter looks at the tags that are named like it, and
passes over the others at their `<`.  `feature_content` says that this is
enough: from the start of a content to its end the nesting count comes back to
what it was, and nothing but the place in the window has changed.

`Ends outcome s cs` says that a run from `s` makes the chunks `cs` and ends
with `outcome`, without an error or with one.
-/

namespace Xeibe

open Lib

namespace Splitter

section

variable {quickXml : Bytes → Option Bytes} {outcome : Outcome} {s s' : Splitter}
  {cs : List FeatureChunk}

/-! ## Runs that end -/

/-- The run from `s` makes the chunks `cs` and ends with `outcome`, its turns
not used up. -/
def Ends (quickXml : Bytes → Option Bytes) (outcome : Outcome) (s : Splitter)
    (cs : List FeatureChunk) : Prop :=
  outcome ≠ .outOfTurns ∧ ∃ fuel, chunksLoop quickXml fuel s = (cs, outcome)

theorem drain_self (hready : s.ready = []) : s.drain = s := by
  rw [drain, ← hready]

/-- A run that ends has made its next step, or that step is the error it ends
with. -/
theorem Ends.next (h : Ends quickXml outcome s cs) (hrunning : s.finished = false)
    (hready : s.ready = []) :
    (∃ e, s.step quickXml = .error e ∧ outcome = .failed e ∧ cs = []) ∨
      ∃ s', s.step quickXml = .ok s' ∧ Ends quickXml outcome s' cs := by
  obtain ⟨hturns, fuel, hfuel⟩ := h
  cases fuel with
  | zero => exact absurd (congrArg Prod.snd hfuel).symm hturns
  | succ fuel =>
    rw [chunksLoop, if_neg (by simp [hrunning]), drain_self hready] at hfuel
    cases hstep : s.step quickXml with
    | error e =>
      rw [hstep, hready] at hfuel
      exact .inl ⟨e, rfl, (congrArg Prod.snd hfuel).symm, (congrArg Prod.fst hfuel).symm⟩
    | ok next =>
      rw [hstep, hready] at hfuel
      exact .inr ⟨next, rfl, hturns, fuel, hfuel⟩

theorem Ends.of_step (h : Ends quickXml outcome s cs) (hrunning : s.finished = false)
    (hready : s.ready = []) (hstep : s.step quickXml = .ok s') : Ends quickXml outcome s' cs := by
  rcases h.next hrunning hready with ⟨e, herror, -⟩ | ⟨next, hnext, hends⟩
  · rw [hstep] at herror
    cases herror
  · rw [hstep] at hnext
    rw [Except.ok.inj hnext]
    exact hends

/-- What is ready comes out first. -/
theorem Ends.drain (h : Ends quickXml outcome s cs) :
    ∃ rest, cs = s.ready ++ rest ∧ Ends quickXml outcome s.drain rest := by
  obtain ⟨hturns, fuel, hfuel⟩ := h
  cases fuel with
  | zero => exact absurd (congrArg Prod.snd hfuel).symm hturns
  | succ fuel =>
    have hdrained : s.drain.drain = s.drain := rfl
    rw [chunksLoop] at hfuel
    by_cases hfinished : s.finished = true
    · rw [if_pos hfinished] at hfuel
      refine ⟨[], ?_, hturns, 1, ?_⟩
      · rw [List.append_nil]
        exact (Prod.mk.inj hfuel).1.symm
      · rw [chunksLoop, ← (Prod.mk.inj hfuel).2]
        exact if_pos hfinished
    · have hfinished' : ¬ s.drain.finished = true := hfinished
      rw [if_neg hfinished] at hfuel
      cases hstep : s.drain.step quickXml with
      | error e =>
        rw [hstep] at hfuel
        obtain ⟨hcs, houtcome⟩ := Prod.mk.inj hfuel
        refine ⟨[], by rw [List.append_nil]; exact hcs.symm, hturns, 1, ?_⟩
        rw [chunksLoop, if_neg hfinished', hdrained, hstep]
        dsimp only
        rw [← houtcome]
        rfl
      | ok next =>
        rw [hstep] at hfuel
        obtain ⟨hcs, houtcome⟩ := Prod.mk.inj hfuel
        refine ⟨(chunksLoop quickXml fuel next).1, hcs.symm, hturns, fuel + 1, ?_⟩
        rw [chunksLoop, if_neg hfinished', hdrained, hstep]
        dsimp only
        rw [← houtcome]
        rfl

theorem Ends.of_step_eq (h : Ends quickXml outcome s cs) (hrunning : s.finished = false)
    (hready : s.ready = []) (hrunning' : s'.finished = false) (hready' : s'.ready = [])
    (hstep : s.step quickXml = s'.step quickXml) : Ends quickXml outcome s' cs := by
  obtain ⟨hturns, fuel, hfuel⟩ := h
  cases fuel with
  | zero => exact absurd (congrArg Prod.snd hfuel).symm hturns
  | succ fuel =>
    refine ⟨hturns, fuel + 1, ?_⟩
    rw [chunksLoop, if_neg (by simp [hrunning]), drain_self hready, hready, hstep] at hfuel
    rw [chunksLoop, if_neg (by simp [hrunning']), drain_self hready', hready']
    exact hfuel

/-! ## The next markup inside a feature -/

/-- Turns enough are turns enough. -/
theorem nextFeatureMarkupLoop_fuel (heof : s.eof = true) : ∀ (fuel fuel' : Nat) (p : Nat),
    (s.moveTo p).turns ≤ fuel → (s.moveTo p).turns ≤ fuel' →
    nextFeatureMarkupLoop fuel (s.moveTo p) = nextFeatureMarkupLoop fuel' (s.moveTo p) := by
  intro fuel
  induction fuel with
  | zero => intro fuel' p hfuel _; exact absurd hfuel (by unfold turns; omega)
  | succ fuel ih =>
    intro fuel' p hfuel hfuel'
    cases fuel' with
    | zero => exact absurd hfuel' (by unfold turns; omega)
    | succ fuel' =>
      rw [nextFeatureMarkupLoop, nextFeatureMarkupLoop]
      cases hi : indexOf (utf8 "<") ((s.moveTo p).buf.drop (s.moveTo p).pos) with
      | none =>
        dsimp only
        have heof' : ((s.moveTo p).moveTo (s.moveTo p).buf.length).eof = true := heof
        rw [fill_eof heof']
        rfl
      | some i =>
        have hlt := indexOf_add_length_le hi
        have hone : (utf8 "<").length = 1 := rfl
        rw [List.length_drop, hone, moveTo_pos, moveTo_buf] at hlt
        have heof' : ((s.moveTo p).moveTo ((s.moveTo p).pos + i)).eof = true := heof
        have hnext : ∀ q, (s.moveTo p).pos + i < q →
            nextFeatureMarkupLoop fuel (s.moveTo q) = nextFeatureMarkupLoop fuel' (s.moveTo q) := by
          intro q hq
          unfold turns at hfuel hfuel'
          simp only [moveTo_buf, moveTo_pos, moveTo_reader] at hfuel hfuel' hq
          refine ih fuel' q ?_ ?_
          all_goals
            unfold turns
            simp only [moveTo_buf, moveTo_pos, moveTo_reader]
            omega
        dsimp only
        cases hneed : ((s.moveTo p).moveTo ((s.moveTo p).pos + i)).need 2 with
        | error e => rfl
        | ok t =>
          have ht := need_ok heof' hneed
          subst ht
          simp only [bind, Except.bind]
          split
          · rfl
          · generalize (if ((s.moveTo p).moveTo ((s.moveTo p).pos + i)).byte
                (((s.moveTo p).moveTo ((s.moveTo p).pos + i)).pos + 1) = 47 then 2 else 1) = nameAt
            cases hname : ((s.moveTo p).moveTo ((s.moveTo p).pos + i)).need (nameAt +
                ((s.moveTo p).moveTo ((s.moveTo p).pos + i)).featureName.length + 1) with
            | error e => rfl
            | ok t =>
              have ht := need_ok heof' hname
              subst ht
              dsimp only
              split
              · rfl
              · exact hnext _ (Nat.lt_succ_self _)

/-- At a `<` the search looks at the byte after it, and then at the name. -/
theorem nextFeatureMarkup_at (heof : s.eof = true) {off : Nat} {b : UInt8} {more : Bytes}
    (h : Stands off (0x3c :: b :: more) s)
    (hroom : s.featureName.length + 3 ≤ (0x3c :: b :: more : Bytes).length) :
    s.nextFeatureMarkup =
      if b = 0x21 ∨ b = 0x3f ∨
          (s.moveTo off).namedLikeFeature (if b = 0x2f then 2 else 1) = true then
        (s.moveTo off).nextMarkup
      else (s.moveTo (off + 1)).nextFeatureMarkup := by
  obtain ⟨i, hi, hoff⟩ := h.indexOf
  have hdrop := h.moveTo
  have heof' : (s.moveTo off).eof = true := heof
  have hbyte : (s.moveTo off).byte ((s.moveTo off).pos + 1) = b := byte_at hdrop 1
  have hneed : ∀ n ≤ s.featureName.length + 3, (s.moveTo off).need n = .ok (s.moveTo off) :=
    fun n hn => need_at heof' hdrop (Nat.le_trans hn hroom)
  obtain ⟨fuel, hfuel⟩ : ∃ fuel, s.turns = fuel + 1 := ⟨_, rfl⟩
  have hnameAt : (if b = 0x2f then 2 else 1) + s.featureName.length + 1 ≤
      s.featureName.length + 3 := by split <;> omega
  unfold nextFeatureMarkup
  rw [hfuel, nextFeatureMarkupLoop, hi]
  simp only [bind, Except.bind, hoff, hneed 2 (by omega), hbyte]
  generalize (if b = 0x2f then 2 else 1) = nameAt at *
  by_cases hmarkup : b = 0x21 ∨ b = 0x3f
  · have hany : b = 0x21 ∨ b = 0x3f ∨ (s.moveTo off).namedLikeFeature nameAt = true := by
      rcases hmarkup with h | h
      · exact .inl h
      · exact .inr (.inl h)
    rw [if_pos hmarkup, if_pos hany]
  · rw [not_or] at hmarkup
    rw [if_neg (by simp [hmarkup])]
    simp only [moveTo_featureName, hneed _ hnameAt, hmarkup, false_or]
    by_cases hnamed : (s.moveTo off).namedLikeFeature nameAt = true
    · rw [if_pos hnamed, if_pos hnamed]
    · rw [if_neg hnamed, if_neg hnamed]
      have hlt := indexOf_add_length_le hi
      have hone : (utf8 "<").length = 1 := rfl
      rw [List.length_drop, hone] at hlt
      rw [moveTo_pos, moveTo_moveTo]
      refine nextFeatureMarkupLoop_fuel heof _ _ _ ?_ (Nat.le_refl _)
      unfold turns at hfuel ⊢
      simp only [moveTo_buf, moveTo_pos, moveTo_reader]
      omega

/-- The name of a tag decides whether the tag is named like the feature. -/
theorem namedLikeFeature_iff {front more : Bytes} {name feature : Name} {x : UInt8}
    (hfeature : s.featureName = feature.bytes)
    (h : s.buf.drop s.pos = front ++ (name.bytes ++ x :: more))
    (hx : isNameEnd x = true) (hslash : front.length ≠ 1 → x ≠ 0x2f) :
    s.namedLikeFeature front.length = true ↔ name.bytes = feature.bytes := by
  have hafter : s.byte (s.pos + front.length + feature.bytes.length) =
      (name.bytes ++ x :: more).getD feature.bytes.length 0 := by
    rw [Nat.add_assoc, byte_at h, List.getD_eq_getElem?_getD, List.getD_eq_getElem?_getD,
      List.getElem?_append_right (Nat.le_add_right _ _), Nat.add_sub_cancel_left]
  have hslice : slice s.buf (s.pos + front.length)
      (s.pos + front.length + feature.bytes.length) =
      (name.bytes ++ x :: more).take feature.bytes.length := by
    rw [Nat.add_assoc, slice_at h, slice, List.drop_left, Nat.add_sub_cancel_left]
  unfold namedLikeFeature
  simp only [hfeature, hafter, hslice, Bool.and_eq_true, beq_iff_eq]
  constructor
  · rintro ⟨hend, htake⟩
    -- Both names end at the first byte that ends a name.
    have hend' : isNameEnd ((name.bytes ++ x :: more).getD feature.bytes.length 0) = true := by
      simp only [Bool.or_eq_true, Bool.and_eq_true, beq_iff_eq] at hend
      simp only [isNameEnd, Bool.or_eq_true, beq_iff_eq]
      rcases hend with (h | h) | ⟨-, h⟩
      · exact .inl (.inl h)
      · exact .inr h
      · exact .inl (.inr h)
    have hlen : feature.bytes.length < (name.bytes ++ x :: more).length := by
      by_contra hge
      have hzero : (name.bytes ++ x :: more).getD feature.bytes.length 0 = 0 := by
        rw [List.getD_eq_getElem?_getD, List.getElem?_eq_none (by omega), Option.getD_none]
      rw [hzero] at hend'
      exact absurd hend' (by decide)
    have hsplit : name.bytes ++ x :: more = feature.bytes ++
        (name.bytes ++ x :: more).getD feature.bytes.length 0 ::
          (name.bytes ++ x :: more).drop (feature.bytes.length + 1) := by
      have hget : (name.bytes ++ x :: more).getD feature.bytes.length 0 =
          (name.bytes ++ x :: more)[feature.bytes.length] := by
        rw [List.getD_eq_getElem?_getD, List.getElem?_eq_getElem hlen, Option.getD_some]
      rw [hget]
      nth_rewrite 1 [← List.take_append_drop feature.bytes.length (name.bytes ++ x :: more)]
      rw [htake, List.drop_eq_getElem_cons hlen]
    have hname := name.findIdx?_end hx more
    rw [hsplit, feature.findIdx?_end hend'] at hname
    have hlen' : feature.bytes.length = name.bytes.length := Option.some.inj hname
    rw [← htake, hlen', List.take_left]
  · rintro hname
    rw [← hname, List.take_left]
    refine ⟨?_, rfl⟩
    have hget : (name.bytes ++ x :: more).getD name.bytes.length 0 = x := by
      rw [List.getD_eq_getElem?_getD, List.getElem?_append_right (Nat.le_refl _), Nat.sub_self]
      rfl
    rw [hget]
    simp only [isNameEnd, Bool.or_eq_true, beq_iff_eq] at hx
    simp only [Bool.or_eq_true, Bool.and_eq_true, beq_iff_eq]
    rcases hx with (h | h) | h
    · exact .inl (.inl h)
    · refine .inr ⟨?_, h⟩
      by_contra hne
      exact hslash hne h
    · exact .inl (.inr h)

theorem Stands.here {off : Nat} {tail : Bytes} (h : Stands off tail s) :
    Stands off tail (s.moveTo off) := ⟨[], List.not_mem_nil, h.moveTo, rfl⟩

/-- A tag named like the feature is the next markup; any other is passed over
at its `<`. -/
theorem nextFeatureMarkup_tag (heof : s.eof = true) {off : Nat}
    {piece tail front more : Bytes} {name feature : Name} {x : UInt8} {kind : Kind}
    (hfeature : s.featureName = feature.bytes) (h : Stands off (piece ++ tail) s)
    (hpiece : piece ++ tail = front ++ (name.bytes ++ x :: more))
    (hfront : front = [0x3c] ∨ front = [0x3c, 0x2f])
    (hx : isNameEnd x = true) (hslash : front.length ≠ 1 → x ≠ 0x2f)
    (hroom : feature.bytes.length + 3 ≤ (piece ++ tail).length)
    (hmarkup : (s.moveTo off).markupAt = .ok ((kind, piece.length), s.moveTo off)) :
    s.nextFeatureMarkup =
      if name.bytes = feature.bytes then
        .ok (some { kind, start := off, stop := off + piece.length },
          s.moveTo (off + piece.length))
      else (s.moveTo (off + 1)).nextFeatureMarkup := by
  have hdrop := h.moveTo
  have hnext : ∀ rest, piece ++ tail = 0x3c :: rest → (s.moveTo off).nextMarkup =
      .ok (some { kind, start := off, stop := off + piece.length },
        s.moveTo (off + piece.length)) := by
    intro rest hrest
    rw [hrest] at h
    exact nextMarkup_at (s := s.moveTo off) heof h.here hmarkup
  rw [hpiece] at hdrop h hroom
  rw [← hfeature] at hroom
  have hnamed := namedLikeFeature_iff (s := s.moveTo off) hfeature hdrop hx hslash
  rcases hfront with rfl | rfl
  · obtain ⟨b, bs, hb⟩ := List.exists_cons_of_ne_nil name.nonempty
    have hbyte : isNameByte b = true := name.byte (by rw [hb]; exact List.mem_cons_self)
    obtain ⟨-, -, -, -, -, -, hnoslash, hbang, hquestion, -⟩ := isNameByte_spec hbyte
    have hbytes : [0x3c] ++ (name.bytes ++ x :: more) = 0x3c :: b :: (bs ++ x :: more) := by
      rw [hb]
      rfl
    rw [hbytes] at h hroom
    rw [nextFeatureMarkup_at heof h hroom, if_neg hnoslash, hnext _ hpiece]
    simp only [hbang, hquestion, false_or, ← hnamed]
    rfl
  · have hbytes : [0x3c, 0x2f] ++ (name.bytes ++ x :: more) =
        0x3c :: 0x2f :: (name.bytes ++ x :: more) := rfl
    rw [hbytes] at h hroom
    rw [nextFeatureMarkup_at heof h hroom, if_pos rfl, hnext _ hpiece]
    have hbang : (0x2f : UInt8) ≠ 0x21 := by decide
    have hquestion : (0x2f : UInt8) ≠ 0x3f := by decide
    simp only [hbang, hquestion, false_or, ← hnamed]
    rfl

theorem nextFeatureMarkup_aside (heof : s.eof = true) {off : Nat} {a : Aside} {tail : Bytes}
    (ha : IsMarkup a) (h : Stands off (a.render ++ tail) s)
    (hroom : s.featureName.length + 3 ≤ (a.render ++ tail).length) :
    s.nextFeatureMarkup =
      .ok (some { kind := .other, start := off, stop := off + a.render.length },
        s.moveTo (off + a.render.length)) := by
  have hmarkup := markupAt_aside (s := s.moveTo off) heof a ha tail h.moveTo
  obtain ⟨b, more, hb, hbang⟩ : ∃ b more, a.render ++ tail = 0x3c :: b :: more ∧
      (b = 0x21 ∨ b = 0x3f) := by
    cases a with
    | text bytes noTag => exact ha.elim
    | comment body closed => exact ⟨0x21, _, rfl, .inl rfl⟩
    | cdata body closed => exact ⟨0x21, _, rfl, .inl rfl⟩
    | pi body closed => exact ⟨0x3f, _, rfl, .inr rfl⟩
  rw [hb] at h hroom
  have hany : b = 0x21 ∨ b = 0x3f ∨
      (s.moveTo off).namedLikeFeature (if b = 0x2f then 2 else 1) = true := by
    rcases hbang with h | h
    · exact .inl h
    · exact .inr (.inl h)
  rw [nextFeatureMarkup_at heof h hroom, if_pos hany]
  exact nextMarkup_at (s := s.moveTo off) heof h.here hmarkup

/-! ## The content of a feature -/

theorem step_feature {depth : Nat} {emit boundedBy : Bool} {start : Nat} {markup : Markup}
    {p : Nat} (hmode : s.mode = .feature depth emit start boundedBy)
    (h : s.nextFeatureMarkup = .ok (some markup, s.moveTo p)) :
    s.step quickXml = (s.moveTo p).onMarkup quickXml markup := by
  unfold step stepMarkup
  rw [hmode]
  dsimp only
  rw [h]
  rfl

theorem step_feature_eq {depth : Nat} {emit boundedBy : Bool} {start p : Nat}
    (hmode : s.mode = .feature depth emit start boundedBy)
    (h : s.nextFeatureMarkup = (s.moveTo p).nextFeatureMarkup) :
    s.step quickXml = (s.moveTo p).step quickXml := by
  have hmode' : (s.moveTo p).mode = .feature depth emit start boundedBy := hmode
  unfold step stepMarkup
  rw [hmode, hmode']
  dsimp only
  rw [h]

theorem Stands.skip {off : Nat} {inner tail : Bytes} (h : Stands off (0x3c :: (inner ++ tail)) s)
    (hinner : 0x3c ∉ inner) :
    Stands (off + (inner.length + 1)) tail (s.moveTo (off + 1)) := by
  have hafter : Stands (off + 1) (inner ++ tail) (s.moveTo (off + 1)) :=
    (show Stands off ([0x3c] ++ (inner ++ tail)) s from h).after
  have := hafter.pass hinner
  rwa [Nat.add_assoc, Nat.add_comm 1] at this

/-- A splitter inside the feature `feature`, between steps. -/
structure Within (feature : Name) (mode : Mode) (s : Splitter) : Prop where
  eof : s.eof = true
  running : s.finished = false
  ready : s.ready = []
  mode_eq : s.mode = mode
  name : s.featureName = feature.bytes

theorem Within.moveTo {feature : Name} {mode : Mode} (h : Within feature mode s) (p : Nat) :
    Within feature mode (s.moveTo p) := ⟨h.eof, h.running, h.ready, h.mode_eq, h.name⟩

theorem Within.setMode {feature : Name} {mode : Mode} (h : Within feature mode s)
    (mode' : Mode) : Within feature mode' (s.setMode mode') :=
  ⟨h.eof, h.running, h.ready, rfl, h.name⟩

theorem setMode_self {mode : Mode} (h : s.mode = mode) : s.setMode mode = s := by
  rw [Splitter.setMode, ← h]

/-- One tag inside a feature: it is passed over, or its name is the feature's
and it is the markup of the next step. -/
theorem feature_tag {feature : Name} {depth off : Nat} {emit boundedBy : Bool} {start : Nat}
    (hs : Within feature (.feature depth emit start boundedBy) s)
    {inner tail front more : Bytes} {name : Name} {x : UInt8} {kind : Kind}
    (hstand : Stands off ((0x3c :: inner) ++ tail) s) (hinner : 0x3c ∉ inner)
    (hpiece : (0x3c :: inner) ++ tail = front ++ (name.bytes ++ x :: more))
    (hfront : front = [0x3c] ∨ front = [0x3c, 0x2f])
    (hx : isNameEnd x = true) (hslash : front.length ≠ 1 → x ≠ 0x2f)
    (hroom : feature.bytes.length + 3 ≤ ((0x3c :: inner) ++ tail).length)
    (hmarkup : (s.moveTo off).markupAt =
      .ok ((kind, (0x3c :: inner : Bytes).length), s.moveTo off))
    (hends : Ends quickXml outcome s cs) :
    ∃ p, Stands (off + (0x3c :: inner : Bytes).length) tail (s.moveTo p) ∧
      if name.bytes = feature.bytes then
        ∀ next, (s.moveTo p).onMarkup quickXml
          { kind, start := off, stop := off + (0x3c :: inner : Bytes).length } = .ok next →
          Ends quickXml outcome next cs
      else Ends quickXml outcome (s.moveTo p) cs := by
  have hnext := nextFeatureMarkup_tag hs.eof hs.name hstand hpiece hfront hx hslash hroom hmarkup
  by_cases hname : name.bytes = feature.bytes
  · rw [if_pos hname] at hnext
    refine ⟨off + (0x3c :: inner : Bytes).length, hstand.after, ?_⟩
    rw [if_pos hname]
    intro next hstep
    rw [← step_feature hs.mode_eq hnext] at hstep
    exact hends.of_step hs.running hs.ready hstep
  · rw [if_neg hname] at hnext
    refine ⟨off + 1, hstand.skip hinner, ?_⟩
    rw [if_neg hname]
    exact hends.of_step_eq hs.running hs.ready hs.running hs.ready
      (step_feature_eq hs.mode_eq hnext)

theorem feature_endTag {feature : Name} {depth off : Nat} {emit boundedBy : Bool} {start : Nat}
    (hs : Within feature (.feature depth emit start boundedBy) s) {tag : Tag} {space : Space}
    {tail : Bytes} (hstand : Stands off (tag.renderEnd space ++ tail) s)
    (hroom : feature.bytes.length + 3 ≤ (tag.renderEnd space ++ tail).length)
    (hends : Ends quickXml outcome s cs) :
    ∃ p, Stands (off + (tag.renderEnd space).length) tail (s.moveTo p) ∧
      if tag.name.bytes = feature.bytes then
        ∀ next, (s.moveTo p).onMarkup quickXml
          { kind := .endTag, start := off, stop := off + (tag.renderEnd space).length } =
            .ok next → Ends quickXml outcome next cs
      else Ends quickXml outcome (s.moveTo p) cs := by
  obtain ⟨x, xs, hxs, hx, hslash⟩ := space.append tail
  refine feature_tag hs hstand ?_ (show _ = _ ++ (_ ++ x :: xs) from ?_) (.inr rfl) hx (fun _ => hslash) hroom
    (markupAt_end (s := s.moveTo off) hs.eof tag space tail hstand.moveTo) hends
  · have hspace : (0x3c : UInt8) ∉ space.bytes := fun h =>
      (isAsciiWhitespace_spec (space.byte h)).2.2.2.1 rfl
    simp [tag.noTag_name, hspace]
  · rw [← hxs]
    simp

/-- From the start of a content inside a feature to its end: the run goes on
from the end of the content, with the nesting count as it was. -/
theorem feature_content {feature : Name} {emit boundedBy : Bool} {start : Nat} (c : Content) :
    ∀ {depth off : Nat} {tail : Bytes} {s : Splitter},
    Within feature (.feature (depth + 1) emit start boundedBy) s →
    Stands off (c.render ++ tail) s → feature.bytes.length + 3 ≤ tail.length →
    Ends quickXml outcome s cs →
    ∃ p, Ends quickXml outcome (s.moveTo p) cs ∧ Stands (off + c.render.length) tail (s.moveTo p) := by
  induction c with
  | nil =>
    intro depth off tail s hs hstand hroom hends
    exact ⟨s.pos, hends, hstand⟩
  | aside a rest ih =>
    intro depth off tail s hs hstand hroom hends
    rw [Content.render, List.append_assoc] at hstand
    rw [Content.render, List.length_append, ← Nat.add_assoc]
    by_cases ha : IsMarkup a
    · have hmarkup := nextFeatureMarkup_aside hs.eof ha hstand (by
        rw [hs.name, List.length_append, List.length_append]
        omega)
      have hmode : (s.moveTo (off + a.render.length)).mode =
          .feature (depth + 1) emit start boundedBy := hs.mode_eq
      have hnext : s.step quickXml = .ok (s.moveTo (off + a.render.length)) := by
        rw [step_feature hs.mode_eq hmarkup, onMarkup, hmode]
      exact ih (s := s.moveTo (off + a.render.length)) (hs.moveTo _) hstand.after hroom
        (hends.of_step hs.running hs.ready hnext)
    · cases a with
      | text bytes noTag => exact ih hs (hstand.pass noTag) hroom hends
      | comment body closed => exact absurd trivial ha
      | cdata body closed => exact absurd trivial ha
      | pi body closed => exact absurd trivial ha
  | empty tag rest ih =>
    intro depth off tail s hs hstand hroom hends
    rw [Content.render, List.append_assoc] at hstand
    rw [Content.render, List.length_append, ← Nat.add_assoc]
    obtain ⟨x, xs, hxs, hx⟩ := tag.rest_append (y := 0x2f) (by decide)
      (0x3e :: (rest.render ++ tail))
    obtain ⟨p, hstand', hend⟩ := feature_tag hs hstand
      (by simp [tag.noTag_name, tag.noTag_rest])
      (by rw [List.cons_append, List.append_assoc, List.append_assoc]
          exact congrArg (fun l => 0x3c :: (tag.name.bytes ++ l)) hxs)
      (.inl rfl) hx (fun h => absurd rfl h)
      (by simp only [List.length_append]; omega)
      (markupAt_empty (s := s.moveTo off) hs.eof tag _ hstand.moveTo) hends
    refine ih (s := s.moveTo p) (hs.moveTo p) hstand' hroom ?_
    split at hend
    · refine hend _ ?_
      have hmode : (s.moveTo p).mode = .feature (depth + 1) emit start boundedBy := hs.mode_eq
      rw [onMarkup, hmode]
    · exact hend
  | element tag children space rest ihc ihr =>
    intro depth off tail s hs hstand hroom hends
    rw [Content.render, List.append_assoc, List.append_assoc, List.append_assoc] at hstand
    rw [Content.render, List.length_append, List.length_append, List.length_append,
      ← Nat.add_assoc, ← Nat.add_assoc, ← Nat.add_assoc]
    obtain ⟨x, xs, hxs, hx⟩ := tag.rest_append (y := 0x3e) (by decide)
      (children.render ++ (tag.renderEnd space ++ (rest.render ++ tail)))
    obtain ⟨p, hstand₁, hend₁⟩ := feature_tag hs hstand
      (by simp [tag.noTag_name, tag.noTag_rest])
      (by rw [List.cons_append, List.append_assoc, List.append_assoc]
          exact congrArg (fun l => 0x3c :: (tag.name.bytes ++ l)) hxs)
      (.inl rfl) hx (fun h => absurd rfl h)
      (by simp only [List.length_append]; omega)
      (markupAt_start (s := s.moveTo off) hs.eof tag _ hstand.moveTo) hends
    have hroom₂ : feature.bytes.length + 3 ≤
        (tag.renderEnd space ++ (rest.render ++ tail)).length := by
      simp only [List.length_append]
      omega
    by_cases hname : tag.name.bytes = feature.bytes
    · -- An element named like the feature: its end tag is not the feature's.
      rw [if_pos hname] at hend₁
      have hmode : (s.moveTo p).mode = .feature (depth + 1) emit start boundedBy := hs.mode_eq
      have hends₁ := hend₁ ((s.moveTo p).setMode (.feature (depth + 1 + 1) emit start boundedBy))
        (by rw [onMarkup, hmode])
      obtain ⟨p₂, hends₂, hstand₂⟩ := ihc ((hs.moveTo p).setMode _) hstand₁ hroom₂ hends₁
      obtain ⟨p₃, hstand₃, hend₃⟩ := feature_endTag (((hs.moveTo p).setMode _).moveTo p₂)
        hstand₂ hroom₂ hends₂
      rw [if_pos hname] at hend₃
      have hmode : ((((s.moveTo p).setMode (.feature (depth + 1 + 1) emit start
          boundedBy)).moveTo p₂).moveTo p₃).mode =
          .feature (depth + 1 + 1) emit start boundedBy := rfl
      have hends₃ := hend₃ ((((s.moveTo p).setMode (.feature (depth + 1 + 1) emit start
          boundedBy)).moveTo p₂).moveTo p₃ |>.setMode (.feature (depth + 1 + 1 - 1) emit start
          boundedBy)) (by
        rw [onMarkup, hmode]
        simp only [if_neg (Nat.succ_ne_succ_iff.2 (Nat.succ_ne_zero depth))])
      have hself : ((((s.moveTo p).setMode (.feature (depth + 1 + 1) emit start
          boundedBy)).moveTo p₂).moveTo p₃).setMode (.feature (depth + 1) emit start boundedBy) =
          s.moveTo p₃ := setMode_self (s := s.moveTo p₃) hs.mode_eq
      rw [Nat.add_sub_cancel, hself] at hends₃
      exact ihr (s := s.moveTo p₃) (hs.moveTo p₃) hstand₃ hroom hends₃
    · rw [if_neg hname] at hend₁
      obtain ⟨p₂, hends₂, hstand₂⟩ := ihc (hs.moveTo p) hstand₁ hroom₂ hend₁
      obtain ⟨p₃, hstand₃, hend₃⟩ := feature_endTag ((hs.moveTo p).moveTo p₂) hstand₂ hroom₂
        hends₂
      rw [if_neg hname] at hend₃
      exact ihr (s := s.moveTo p₃) (hs.moveTo p₃) hstand₃ hroom hend₃

/-- From after the start tag of a feature, or of a `boundedBy`, to after its
end tag. -/
theorem feature_whole {tag : Tag} {space : Space} {emit boundedBy : Bool} {start off : Nat}
    {children : Content} {tail : Bytes}
    (hs : Within tag.name (.feature 1 emit start boundedBy) s)
    (hstand : Stands off (children.render ++ (tag.renderEnd space ++ tail)) s)
    (hends : Ends quickXml outcome s cs) :
    ∃ p, Stands (off + children.render.length + (tag.renderEnd space).length) tail (s.moveTo p) ∧
      Ends quickXml outcome
        (if boundedBy = true then ((s.moveTo p).setMode .outside).endBoundedBy start
            (off + children.render.length + (tag.renderEnd space).length)
          else ((s.moveTo p).setMode .outside).endFeature emit start
            (off + children.render.length + (tag.renderEnd space).length)) cs := by
  have hroom : tag.name.bytes.length + 3 ≤ (tag.renderEnd space ++ tail).length := by
    simp only [Tag.renderEnd, List.length_append, List.length_cons, List.length_nil]
    omega
  obtain ⟨p₁, hends₁, hstand₁⟩ := feature_content children hs hstand hroom hends
  obtain ⟨p, hstand₂, hend⟩ := feature_endTag (hs.moveTo p₁) hstand₁ hroom hends₁
  rw [if_pos rfl] at hend
  have hmode : ((s.moveTo p₁).moveTo p).mode = .feature 1 emit start boundedBy := hs.mode_eq
  refine ⟨p, hstand₂, hend _ ?_⟩
  rw [onMarkup, hmode]
  simp only [if_true]
  rfl

end

end Splitter

end Xeibe

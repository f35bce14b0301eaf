import Xeibe.Core.Splitter.Marks
import Xeibe.Core.Splitter.ReadSize

/-!
# What has been emitted

`Emits all out rest s`: with the chunks `out` returned and those ready, and with
the chunk being filled, the splitter has emitted the features of the marks `all`
up to `rest`, the marks still to come.  The chunk functions keep it: a flush
moves the features of the chunk being filled to a chunk that describes them,
`endFeature` takes one feature from `rest`, `endBoundedBy` one box.  `Steady` is
what they leave alone.
-/

namespace Xeibe

theorem Cover.snoc {before : Nat} {features part : List Feature} {chunks : List FeatureChunk}
    {chunk : FeatureChunk} (h : Cover before features chunks)
    (hlast : Describes (before + features.length) part chunk) :
    Cover before (features ++ part) (chunks ++ [chunk]) := by
  induction h with
  | nil before =>
    have := Cover.cons hlast (.nil _)
    rwa [List.append_nil] at this
  | @cons before first rest chunk chunks here there ih =>
    rw [List.append_assoc, List.cons_append]
    refine .cons here (ih ?_)
    rwa [List.length_append, ← Nat.add_assoc] at hlast

theorem offsetsFrom_append (inChunk : Nat) (a b : List Feature) :
    offsetsFrom inChunk (a ++ b) =
      offsetsFrom inChunk a ++ offsetsFrom (inChunk + (a.flatMap Feature.bytes).length) b := by
  induction a generalizing inChunk with
  | nil => rfl
  | cons f a ih =>
    simp only [List.cons_append, offsetsFrom, ih, List.flatMap_cons, List.length_append,
      Nat.add_assoc]

namespace Splitter

section

variable {s s' : Splitter} {all rest : List Mark} {out : List FeatureChunk}

/-! ## The remembered context -/

/-- The remembered context is the one of the declarations in scope, and an
allocation is one context. -/
structure Remembers (bindings : List (Option Bytes × Bytes)) (bindingsGeneration : Nat)
    (context : Arc NamespaceContext) (contextGeneration : Nat)
    (chunkContext : Arc NamespaceContext) (allocated : Nat) : Prop where
  generation : contextGeneration ≤ bindingsGeneration
  current : contextGeneration = bindingsGeneration → context.val = flatten bindings
  context_allocated : context.id < allocated
  chunk_allocated : chunkContext.id < allocated
  shared : chunkContext.id = context.id → chunkContext.val = context.val

def ContextOk (s : Splitter) : Prop :=
  Remembers s.bindings s.bindingsGeneration s.context s.contextGeneration s.chunkContext
    s.allocated

/-- The context of the open elements. -/
theorem ContextOk.currentContext (h : ContextOk s) :
    ContextOk s.currentContext.2 ∧ s.currentContext.2.context = s.currentContext.1 ∧
      s.currentContext.1.val = flatten s.bindings := by
  unfold Splitter.currentContext
  split
  · rename_i hsame
    exact ⟨h, rfl, h.current hsame⟩
  · dsimp only
    split
    · rename_i hval
      exact ⟨⟨Nat.le_refl _, fun _ => hval, h.context_allocated, h.chunk_allocated, h.shared⟩, rfl, hval⟩
    · refine ⟨⟨Nat.le_refl _, fun _ => rfl, Nat.lt_succ_self _, ?_, ?_⟩, rfl, rfl⟩
      · exact Nat.lt_succ_of_lt h.chunk_allocated
      · intro hid
        have hlt := h.chunk_allocated
        dsimp only at hid
        omega

/-! ## What the chunk functions leave alone -/

/-- The open elements, the declarations in scope, the remembered names, the
header and the options stay as they are, and the remembered context is still
right. -/
structure Steady (s s' : Splitter) : Prop where
  source : s'.source = s.source
  options : s'.options = s.options
  header : s'.header = s.header
  stack : s'.stack = s.stack
  bindings : s'.bindings = s.bindings
  bindingsGeneration : s'.bindingsGeneration = s.bindingsGeneration
  names : s'.names = s.names
  namesGeneration : s'.namesGeneration = s.namesGeneration
  finished : s'.finished = s.finished
  contexts : ContextOk s → ContextOk s'

theorem Steady.refl (s : Splitter) : Steady s s := ⟨rfl, rfl, rfl, rfl, rfl, rfl, rfl, rfl, rfl, id⟩

theorem Steady.trans {s'' : Splitter} (h : Steady s s') (h' : Steady s' s'') : Steady s s'' :=
  ⟨h'.source.trans h.source, h'.options.trans h.options, h'.header.trans h.header, h'.stack.trans h.stack,
    h'.bindings.trans h.bindings, h'.bindingsGeneration.trans h.bindingsGeneration,
    h'.names.trans h.names, h'.namesGeneration.trans h.namesGeneration,
    h'.finished.trans h.finished, fun hs => h'.contexts (h.contexts hs)⟩

theorem flushChunk_steady (s : Splitter) : Steady s s.flushChunk := by
  unfold flushChunk
  split
  · exact .refl s
  · exact ⟨rfl, rfl, rfl, rfl, rfl, rfl, rfl, rfl, rfl, id⟩

theorem flushChunk_context (s : Splitter) : s.flushChunk.context = s.context := by
  unfold flushChunk
  split <;> rfl

theorem flushChunk_chunk (s : Splitter) : s.flushChunk.chunk = [] := by
  unfold flushChunk
  split
  · rename_i hempty
    exact List.isEmpty_iff.1 hempty
  · rfl

theorem currentContext_steady (s : Splitter) : Steady s s.currentContext.2 := by
  have hcontexts : ContextOk s → ContextOk s.currentContext.2 := fun h => h.currentContext.1
  unfold currentContext at *
  split
  · exact .refl s
  · rename_i hsame
    rw [if_neg hsame] at hcontexts
    dsimp only at *
    split
    · rename_i hval
      rw [if_pos hval] at hcontexts
      exact ⟨rfl, rfl, rfl, rfl, rfl, rfl, rfl, rfl, rfl, hcontexts⟩
    · rename_i hval
      rw [if_neg hval] at hcontexts
      exact ⟨rfl, rfl, rfl, rfl, rfl, rfl, rfl, rfl, rfl, hcontexts⟩

theorem flushForeign_steady (s : Splitter) (context : Arc NamespaceContext) :
    Steady s (s.flushForeign context) := by
  unfold flushForeign
  split
  · exact s.flushChunk_steady
  · exact .refl s

theorem flushForeign_context (s : Splitter) (context : Arc NamespaceContext) :
    (s.flushForeign context).context = s.context := by
  unfold flushForeign flushChunk
  split
  · split <;> rfl
  · rfl

theorem openChunk_steady {context : Arc NamespaceContext} (h : s.context = context)
    (start : Nat) : Steady s (s.openChunk context start) := by
  unfold openChunk
  split
  · refine ⟨rfl, rfl, rfl, rfl, rfl, rfl, rfl, rfl, rfl, fun hs => ?_⟩
    rw [← h]
    exact ⟨hs.generation, hs.current, hs.context_allocated, hs.context_allocated, fun _ => rfl⟩
  · exact .refl s

theorem currentContext_context (s : Splitter) :
    s.currentContext.2.context = s.currentContext.1 := by
  unfold currentContext
  split
  · rfl
  · dsimp only
    split <;> rfl

theorem beginWanted_steady (s : Splitter) (emit : Bool) (start : Nat) :
    Steady s (s.beginWanted emit start) := by
  unfold beginWanted
  split
  · refine (s.currentContext_steady.trans (flushForeign_steady _ _)).trans (openChunk_steady ?_ _)
    exact (flushForeign_context _ _).trans s.currentContext_context
  · exact .refl s

theorem endFeature_steady (s : Splitter) (emit : Bool) (start stop : Nat) :
    Steady s (s.endFeature emit start stop) := by
  unfold endFeature
  split
  · have hcopy : Steady s (s.copyFeature start (slice s.buf (start - s.base) stop)) :=
      ⟨rfl, rfl, rfl, rfl, rfl, rfl, rfl, rfl, rfl, id⟩
    refine hcopy.trans ?_
    unfold flushFull
    split
    · exact flushChunk_steady _
    · exact .refl _
  · exact .refl s

/-! ## The features emitted -/

/-- The copied boxes that the splitter holds: of the open elements, and of the
chunk. -/
def held (s : Splitter) : List (Arc RawElement) :=
  s.stack.filterMap Frame.boundedBy ++ s.chunkBoundedBy.toList

/-- The boxes held are boxes of the marks `seen`, and an allocation is one
box. -/
structure Boxes (seen : List Mark) (s : Splitter) : Prop where
  allocated : ∀ a ∈ s.held, a.id < s.allocated
  seen : ∀ a ∈ s.held, a.val.box ∈ Mark.boxes seen
  same : ∀ a ∈ s.held, ∀ b ∈ s.held, a.id = b.id ↔ a.val.box = b.val.box

/-- The chunk being filled holds the features of the segment, and after the last
of them only boxes have ended. -/
structure Filling (seg : Segment) (s : Splitter) : Prop where
  bytes : s.chunk = seg.features.flatMap Feature.bytes
  offsets : s.chunkFeatures = offsetsFrom 0 seg.features
  emitted : s.featuresEmitted = (Mark.features seg.before).length + seg.features.length
  first : s.chunkFirstFeature = (Mark.features seg.before).length
  start : seg.features.head?.map Feature.offset = some s.chunkOffset
  context : ∀ l ∈ seg.located, flatten l.placed.scope = s.chunkContext.val
  box : ∀ l ∈ seg.located, l.box = boxOf s.chunkBoundedBy
  small : Mark.features seg.first = [] ∨
    ((Mark.features seg.first).flatMap Feature.bytes).length < s.options.targetChunkBytes
  later : Mark.features seg.later = []

/-- The remembered context is the chunk's, unless one of the boxes that ended
after its last feature did so in another context. -/
def Shared (seg : Segment) (s : Splitter) : Prop :=
  s.context.id = s.chunkContext.id ∨
    ∃ b ∈ Mark.boxes seg.later, b.namespaces ≠ s.chunkContext.val

/-- What the chunks are to the marks `seen`. -/
inductive Current (seen : List Mark) (out : List FeatureChunk) (s : Splitter) : Prop where
  | empty (chunk : s.chunk = []) (offsets : s.chunkFeatures = [])
      (emitted : s.featuresEmitted = (Mark.features seen).length)
      (cover : Cover 0 (Mark.features seen) (out ++ s.ready))
  | filling (seg : Segment) (marks : seg.marks = seen) (fills : Filling seg s)
      (shared : Shared seg s) (room : s.chunk.length < s.options.targetChunkBytes)
      (cover : Cover 0 (Mark.features seg.before) (out ++ s.ready))

/-- A chunk of the marks `all`. -/
def Made (all : List Mark) (target : Nat) (chunk : FeatureChunk) : Prop :=
  ∃ seg : Segment, seg.marks = all ∧ ChunkOf target seg chunk

def Emits (all : List Mark) (out : List FeatureChunk) (rest : List Mark) (s : Splitter) : Prop :=
  ∃ seen, all = seen ++ rest ∧ Current seen out s ∧ Boxes seen s ∧
    ∀ chunk ∈ out ++ s.ready, Made all s.options.targetChunkBytes chunk

/-- What `Emits` speaks of stays as it is. -/
structure SameChunk (s s' : Splitter) : Prop where
  ready : s'.ready = s.ready
  chunk : s'.chunk = s.chunk
  chunkFeatures : s'.chunkFeatures = s.chunkFeatures
  chunkFirstFeature : s'.chunkFirstFeature = s.chunkFirstFeature
  chunkOffset : s'.chunkOffset = s.chunkOffset
  featuresEmitted : s'.featuresEmitted = s.featuresEmitted
  chunkContext : s'.chunkContext = s.chunkContext
  chunkBoundedBy : s'.chunkBoundedBy = s.chunkBoundedBy
  context : s'.context = s.context
  options : s'.options = s.options
  allocated : s'.allocated = s.allocated
  held : ∀ a ∈ s'.held, a ∈ s.held

theorem SameChunk.refl (s : Splitter) : SameChunk s s :=
  ⟨rfl, rfl, rfl, rfl, rfl, rfl, rfl, rfl, rfl, rfl, rfl, fun _ => id⟩

theorem SameChunk.trans {s'' : Splitter} (h : SameChunk s s') (h' : SameChunk s' s'') :
    SameChunk s s'' :=
  ⟨h'.ready.trans h.ready, h'.chunk.trans h.chunk, h'.chunkFeatures.trans h.chunkFeatures,
    h'.chunkFirstFeature.trans h.chunkFirstFeature, h'.chunkOffset.trans h.chunkOffset,
    h'.featuresEmitted.trans h.featuresEmitted, h'.chunkContext.trans h.chunkContext,
    h'.chunkBoundedBy.trans h.chunkBoundedBy, h'.context.trans h.context,
    h'.options.trans h.options, h'.allocated.trans h.allocated,
    fun a ha => h.held a (h'.held a ha)⟩

theorem Boxes.mono {seen : List Mark} (h : Boxes seen s) (hheld : ∀ a ∈ s'.held, a ∈ s.held)
    (hallocated : s.allocated ≤ s'.allocated) : Boxes seen s' where
  allocated a ha := Nat.lt_of_lt_of_le (h.allocated a (hheld a ha)) hallocated
  seen a ha := h.seen a (hheld a ha)
  same a ha b hb := h.same a (hheld a ha) b (hheld b hb)

theorem Filling.same {seg : Segment} (h : Filling seg s) (hsame : SameChunk s s') :
    Filling seg s' := by
  constructor
  · rw [hsame.chunk]
    exact h.bytes
  · rw [hsame.chunkFeatures]
    exact h.offsets
  · rw [hsame.featuresEmitted]
    exact h.emitted
  · rw [hsame.chunkFirstFeature]
    exact h.first
  · rw [hsame.chunkOffset]
    exact h.start
  · rw [hsame.chunkContext]
    exact h.context
  · rw [hsame.chunkBoundedBy]
    exact h.box
  · rw [hsame.options]
    exact h.small
  · exact h.later

theorem Current.same {seen : List Mark} (h : Current seen out s) (hsame : SameChunk s s') :
    Current seen out s' := by
  cases h with
  | empty chunk offsets emitted cover =>
    refine .empty (hsame.chunk.trans chunk) (hsame.chunkFeatures.trans offsets)
      (hsame.featuresEmitted.trans emitted) ?_
    rw [hsame.ready]
    exact cover
  | filling seg marks fills shared room cover =>
    refine .filling seg marks (fills.same hsame) ?_ ?_ ?_
    · unfold Shared
      rw [hsame.chunkContext, hsame.context]
      exact shared
    · rw [hsame.chunk, hsame.options]
      exact room
    · rw [hsame.ready]
      exact cover

theorem Emits.same (h : Emits all out rest s) (hsame : SameChunk s s') :
    Emits all out rest s' := by
  obtain ⟨seen, hall, hcurrent, hboxes, hmade⟩ := h
  refine ⟨seen, hall, hcurrent.same hsame, hboxes.mono hsame.held (Nat.le_of_eq hsame.allocated.symm), ?_⟩
  rw [hsame.ready, hsame.options]
  exact hmade

theorem Emits.drain (h : Emits all out rest s) : Emits all (out ++ s.ready) rest s.drain := by
  obtain ⟨seen, hall, hcurrent, hboxes, hmade⟩ := h
  have hready : out ++ s.ready ++ s.drain.ready = out ++ s.ready := List.append_nil _
  refine ⟨seen, hall, ?_, ⟨hboxes.allocated, hboxes.seen, hboxes.same⟩, ?_⟩
  · cases hcurrent with
    | empty chunk offsets emitted cover =>
      refine .empty chunk offsets emitted ?_
      rw [hready]
      exact cover
    | filling seg marks fills shared room cover =>
      refine .filling seg marks ⟨fills.bytes, fills.offsets, fills.emitted, fills.first,
        fills.start, fills.context, fills.box, fills.small, fills.later⟩ shared room ?_
      rw [hready]
      exact cover
  · rw [hready]
    exact hmade

/-! ## A flush -/

theorem Filling.chunk_ne_nil {seg : Segment} (h : Filling seg s) : s.chunk ≠ [] := by
  rw [h.bytes]
  exact seg.bytes_ne_nil

/-- The chunk that a flush makes of the features of a segment, `rest` the marks
still to come. -/
theorem Filling.chunkOf {seg : Segment} (h : Filling seg s)
    (hcut : s.chunk.length < s.options.targetChunkBytes →
      CutBefore s.chunkContext.val (boxOf s.chunkBoundedBy) (seg.later ++ rest)) :
    ChunkOf s.options.targetChunkBytes { seg with later := seg.later ++ rest }
      { source := s.source, seq := s.nextSeq, byteOffset := s.chunkOffset, bytes := s.chunk,
        namespaces := s.chunkContext, firstFeatureSeq := s.chunkFirstFeature,
        features := s.featuresEmitted - s.chunkFirstFeature,
        featureOffsets := s.chunkFeatures, collectionBoundedBy := s.chunkBoundedBy } where
  describes := by
    refine ⟨h.bytes, h.offsets, ?_, h.first, h.start⟩
    show s.featuresEmitted - s.chunkFirstFeature = _
    rw [h.emitted, h.first, Nat.add_sub_cancel_left]
    rfl
  context := h.context
  box := h.box
  small := h.small
  cut := hcut

/-- A flush of a chunk that is full, or that a cut follows. -/
theorem Emits.flushChunk {seen : List Mark} {seg : Segment} (hall : all = seen ++ rest)
    (hmarks : seg.marks = seen) (hfills : Filling seg s) (hboxes : Boxes seen s)
    (hcover : Cover 0 (Mark.features seg.before) (out ++ s.ready))
    (hmade : ∀ chunk ∈ out ++ s.ready, Made all s.options.targetChunkBytes chunk)
    (hcut : s.chunk.length < s.options.targetChunkBytes →
      CutBefore s.chunkContext.val (boxOf s.chunkBoundedBy) (seg.later ++ rest)) :
    Emits all out rest s.flushChunk := by
  have hchunk := hfills.chunkOf hcut
  have hnonempty : ¬ s.chunk.isEmpty = true :=
    fun h => hfills.chunk_ne_nil (List.isEmpty_iff.1 h)
  have hfeatures : Mark.features seen = Mark.features seg.before ++ seg.features := by
    rw [← hmarks, seg.features_marks, hfills.later, List.append_nil]
  unfold Splitter.flushChunk
  rw [if_neg hnonempty]
  refine ⟨seen, hall, .empty rfl rfl ?_ ?_, ⟨hboxes.allocated, hboxes.seen, hboxes.same⟩, ?_⟩
  · rw [hfeatures, List.length_append]
    exact hfills.emitted
  · rw [hfeatures, ← List.append_assoc]
    refine hcover.snoc ?_
    rw [Nat.zero_add]
    exact hchunk.describes
  · intro chunk hmem
    rw [← List.append_assoc, List.mem_append, List.mem_singleton] at hmem
    rcases hmem with hmem | rfl
    · exact hmade chunk hmem
    · refine ⟨_, ?_, hchunk⟩
      rw [hall, ← hmarks]
      simp [Segment.marks]

/-! ## A feature begins -/

/-- The chunk is open for the feature `l`. -/
structure Opened (l : Located) (s : Splitter) : Prop where
  first : s.chunk = [] →
    s.chunkFirstFeature = s.featuresEmitted ∧ s.chunkOffset = l.placed.offset
  context : flatten l.placed.scope = s.chunkContext.val
  box : l.box = boxOf s.chunkBoundedBy
  shared : s.context.id = s.chunkContext.id

theorem Opened.same {l : Located} (h : Opened l s) (hsame : SameChunk s s') : Opened l s' := by
  refine ⟨?_, ?_, ?_, ?_⟩
  · rw [hsame.chunk, hsame.chunkFirstFeature, hsame.featuresEmitted, hsame.chunkOffset]
    exact h.first
  · rw [hsame.chunkContext]
    exact h.context
  · rw [hsame.chunkBoundedBy]
    exact h.box
  · rw [hsame.context, hsame.chunkContext]
    exact h.shared

theorem currentContext_id (s : Splitter) :
    s.currentContext.1 = s.context ∨ s.currentContext.1.val ≠ s.context.val := by
  unfold currentContext
  split
  · exact .inl rfl
  · dsimp only
    split
    · exact .inl rfl
    · rename_i hval
      exact .inr (Ne.symm hval)

theorem currentContext_eq (s : Splitter) :
    ∃ generation allocated, s.allocated ≤ allocated ∧ s.currentContext.2 =
      { s with contextGeneration := generation, context := s.currentContext.1, allocated } := by
  unfold currentContext
  split
  · exact ⟨_, _, Nat.le_refl _, rfl⟩
  · dsimp only
    split
    · exact ⟨_, _, Nat.le_refl _, rfl⟩
    · exact ⟨_, _, Nat.le_succ _, rfl⟩

theorem collectionBoundedBy_held {a : Arc RawElement} (h : s.collectionBoundedBy = some a) :
    a ∈ s.held := by
  obtain ⟨frame, hframe, hbox⟩ := List.exists_of_findSome?_eq_some h
  exact List.mem_append_left _ (List.mem_filterMap.2 ⟨frame, hframe, hbox⟩)

/-- Boxes are compared by their allocation, and that is to compare them. -/
theorem Boxes.sameBounds {seen : List Mark} (h : Boxes seen s) :
    sameBounds s.collectionBoundedBy s.chunkBoundedBy = true ↔
      boxOf s.collectionBoundedBy = boxOf s.chunkBoundedBy := by
  cases ha : s.collectionBoundedBy with
  | none => cases s.chunkBoundedBy <;> simp [Splitter.sameBounds, boxOf]
  | some a =>
    cases hb : s.chunkBoundedBy with
    | none => simp [Splitter.sameBounds, boxOf]
    | some b =>
      have hheld : b ∈ s.held := by
        refine List.mem_append_right _ ?_
        rw [hb]
        exact List.mem_singleton_self b
      have hsame := h.same a (collectionBoundedBy_held ha) b hheld
      simp only [Splitter.sameBounds, Arc.ptrEq, beq_iff_eq, boxOf, Option.map_some,
        Option.some.injEq]
      exact hsame

/-- An open chunk has the context and the box of the feature it is open for. -/
theorem openChunk_emits {l : Located} {context : Arc NamespaceContext}
    (h : Emits all out rest s) (hcontext : s.context = context)
    (hval : flatten l.placed.scope = context.val) (hbox : l.box = boxOf s.collectionBoundedBy)
    (hsame : s.chunk ≠ [] → context.id = s.chunkContext.id ∧
      context.val = s.chunkContext.val ∧ l.box = boxOf s.chunkBoundedBy) :
    Emits all out rest (s.openChunk context l.placed.offset) ∧
      Opened l (s.openChunk context l.placed.offset) := by
  unfold openChunk
  split
  · rename_i hempty
    have hnil : s.chunk = [] := List.isEmpty_iff.1 hempty
    obtain ⟨seen, hall, hcurrent, hboxes, hmade⟩ := h
    cases hcurrent with
    | filling seg marks fills shared room cover => exact absurd hnil fills.chunk_ne_nil
    | empty chunk offsets emitted cover =>
      refine ⟨⟨seen, hall, .empty chunk offsets emitted cover, ?_, hmade⟩,
        fun _ => ⟨rfl, rfl⟩, hval, hbox, ?_⟩
      · refine hboxes.mono (fun a ha => ?_) (Nat.le_refl _)
        rcases List.mem_append.1 ha with ha | ha
        · exact List.mem_append_left _ ha
        · exact collectionBoundedBy_held (Option.mem_toList.1 ha)
      · show s.context.id = context.id
        rw [hcontext]
  · rename_i hempty
    have hne : s.chunk ≠ [] := fun hnil => hempty (List.isEmpty_iff.2 hnil)
    obtain ⟨hid, hvalue, hbounds⟩ := hsame hne
    exact ⟨h, fun hnil => absurd hnil hne, hval.trans hvalue, hbounds, by rw [hcontext, hid]⟩

/-- A feature begins: a chunk of another context or another box is flushed. -/
theorem Emits.beginFeature {l : Located} (h : Emits all out (.feature l :: rest) s)
    (hok : ContextOk s) (hscope : s.bindings = l.placed.scope)
    (hbox : l.box = boxOf s.collectionBoundedBy) :
    Emits all out (.feature l :: rest) (s.beginFeature l.placed.offset) ∧
      Opened l (s.beginFeature l.placed.offset) := by
  obtain ⟨hok', hcontext, hval⟩ := hok.currentContext
  have hid := s.currentContext_id
  obtain ⟨generation, allocated, hle, heq⟩ := s.currentContext_eq
  unfold Splitter.beginFeature
  dsimp only
  have hshared := hok.shared
  generalize s.currentContext.1 = context at *
  generalize s.currentContext.2 = u at *
  rw [hscope] at hval
  have hboxU : l.box = boxOf u.collectionBoundedBy := by
    rw [heq]
    exact hbox
  obtain ⟨seen, hall, hcurrent, hboxes, hmade⟩ := h
  have hboxesU : Boxes seen u := by
    rw [heq]
    exact hboxes.mono (fun _ => id) hle
  have hmadeU : ∀ chunk ∈ out ++ u.ready, Made all u.options.targetChunkBytes chunk := by
    rw [heq]
    exact hmade
  unfold flushForeign
  cases hcurrent with
  | empty chunk offsets emitted cover =>
    have hnil : u.chunk = [] := by
      rw [heq]
      exact chunk
    rw [if_neg (by simp [hnil])]
    refine openChunk_emits ⟨seen, hall, ?_, hboxesU, hmadeU⟩ hcontext hval.symm hboxU
      fun hne => absurd hnil hne
    rw [heq]
    exact .empty chunk offsets emitted cover
  | filling seg marks fills shared room cover =>
    have hfills : Filling seg u := by
      rw [heq]
      exact ⟨fills.bytes, fills.offsets, fills.emitted, fills.first, fills.start, fills.context,
        fills.box, fills.small, fills.later⟩
    have hcoverU : Cover 0 (Mark.features seg.before) (out ++ u.ready) := by
      rw [heq]
      exact cover
    have hchunkContext : u.chunkContext = s.chunkContext := by rw [heq]
    by_cases hsame : context.id = u.chunkContext.id ∧
        Splitter.sameBounds u.collectionBoundedBy u.chunkBoundedBy = true
    · -- The chunk stays open: it has the context and the box of the feature.
      rw [if_neg (by simp [Arc.ptrEq, hsame])]
      have hvalue : context.val = u.chunkContext.val := by
        rw [← hcontext] at hsame ⊢
        exact (hok'.shared hsame.1.symm).symm
      have hroom : u.chunk.length < u.options.targetChunkBytes := by
        rw [heq]
        exact room
      refine openChunk_emits ⟨seen, hall, .filling seg marks hfills (.inl ?_) hroom hcoverU,
        hboxesU, hmadeU⟩ hcontext hval.symm hboxU fun _ => ⟨hsame.1, hvalue, ?_⟩
      · rw [hcontext]
        exact hsame.1
      · rw [hboxU]
        exact hboxesU.sameBounds.1 hsame.2
    · -- The chunk is flushed: the feature, or a box before it, is what cuts it.
      have hforeign : (!u.chunk.isEmpty && (!context.ptrEq u.chunkContext ||
          !Splitter.sameBounds u.collectionBoundedBy u.chunkBoundedBy)) = true := by
        have hchunk : u.chunk.isEmpty = false := by
          simpa using hfills.chunk_ne_nil
        rw [hchunk, Bool.not_false, Bool.true_and, ← Bool.not_and, Bool.not_eq_true',
          Bool.eq_false_iff]
        simpa [Arc.ptrEq] using hsame
      rw [if_pos hforeign]
      have hcut : CutBefore u.chunkContext.val (boxOf u.chunkBoundedBy)
          (seg.later ++ .feature l :: rest) := by
        rcases shared with hremembered | hcrossed
        · refine CutBefore.skip fills.later ?_
          rcases not_and_or.1 hsame with hother | hbounds
          · left
            rw [← hval, hchunkContext, hshared hremembered.symm]
            refine hid.resolve_left fun hsameContext => hother ?_
            rw [hsameContext, hchunkContext]
            exact hremembered
          · right
            rw [hboxU]
            exact fun hbox => hbounds (hboxesU.sameBounds.2 hbox)
        · rw [hchunkContext]
          exact CutBefore.crossed _ fills.later hcrossed
      have hflushed := Emits.flushChunk hall marks hfills hboxesU hcoverU hmadeU fun _ => hcut
      refine openChunk_emits hflushed (u.flushChunk_context.trans hcontext) hval.symm ?_
        fun hne => absurd u.flushChunk_chunk hne
      rw [hboxU]
      unfold collectionBoundedBy
      rw [u.flushChunk_steady.stack]

theorem Emits.beginWanted {emit : Bool} {l : Located} (h : Emits all out (wantedMark emit l ++ rest) s)
    (hok : ContextOk s) (hscope : s.bindings = l.placed.scope)
    (hbox : l.box = boxOf s.collectionBoundedBy) :
    Emits all out (wantedMark emit l ++ rest) (s.beginWanted emit l.placed.offset) ∧
      (emit = true → Opened l (s.beginWanted emit l.placed.offset)) := by
  unfold Splitter.beginWanted
  cases emit with
  | false => exact ⟨h, nofun⟩
  | true =>
    obtain ⟨hemits, hopened⟩ := h.beginFeature hok hscope hbox
    exact ⟨hemits, fun _ => hopened⟩

/-! ## A feature ends -/

/-- The chunk once the feature it is open for has been copied. -/
theorem Current.copyFeature {l : Located} {seen : List Mark} (h : Current seen out s)
    (hopened : Opened l s) :
    ∃ seg : Segment, seg.marks = seen ++ [.feature l] ∧
      Filling seg (s.copyFeature l.placed.offset l.placed.feature.bytes) ∧
      Shared seg (s.copyFeature l.placed.offset l.placed.feature.bytes) ∧
      Cover 0 (Mark.features seg.before) (out ++ s.ready) := by
  cases h with
  | empty chunk offsets emitted cover =>
    obtain ⟨hfirst, hoffset⟩ := hopened.first chunk
    refine ⟨⟨seen, [], l, []⟩, rfl, ?_, .inl hopened.shared, cover⟩
    constructor
    · simp [Splitter.copyFeature, chunk, Segment.features]
    · simp only [Splitter.copyFeature, chunk, offsets, Segment.features, Mark.features_nil,
        List.nil_append, List.length_nil]
      rfl
    · simp [Splitter.copyFeature, emitted, Segment.features]
    · exact hfirst.trans emitted
    · exact congrArg some hoffset.symm
    · exact List.forall_mem_singleton.2 hopened.context
    · exact List.forall_mem_singleton.2 hopened.box
    · exact .inl rfl
    · rfl
  | filling seg marks fills shared room cover =>
    have hlocated : (⟨seg.before, seg.first ++ .feature seg.last :: seg.later, l, []⟩ :
        Segment).located = seg.located ++ [l] := by
      have hnone : Mark.located seg.later = [] := List.map_eq_nil_iff.1 fills.later
      simp [Segment.located, hnone]
    have hfeatures : (⟨seg.before, seg.first ++ .feature seg.last :: seg.later, l, []⟩ :
        Segment).features = seg.features ++ [l.placed.feature] := by
      simp [Segment.features, fills.later]
    refine ⟨⟨seg.before, seg.first ++ .feature seg.last :: seg.later, l, []⟩, ?_, ?_,
      .inl hopened.shared, cover⟩
    · rw [← marks]
      simp [Segment.marks]
    · constructor
      · rw [hfeatures, List.flatMap_append, ← fills.bytes]
        simp [Splitter.copyFeature]
      · rw [hfeatures, offsetsFrom_append, ← fills.offsets, ← fills.bytes, Nat.zero_add]
        rfl
      · rw [hfeatures, List.length_append, ← Nat.add_assoc, ← fills.emitted]
        rfl
      · exact fills.first
      · rw [hfeatures, List.head?_append_of_ne_nil _ seg.features_ne_nil]
        exact fills.start
      · rw [hlocated]
        intro k hk
        rcases List.mem_append.1 hk with hk | hk
        · exact fills.context k hk
        · rw [List.mem_singleton.1 hk]
          exact hopened.context
      · rw [hlocated]
        intro k hk
        rcases List.mem_append.1 hk with hk | hk
        · exact fills.box k hk
        · rw [List.mem_singleton.1 hk]
          exact hopened.box
      · right
        show _ < s.options.targetChunkBytes
        rw [fills.bytes] at room
        simpa [Segment.features, fills.later] using room
      · rfl

/-- The feature that ends is the next one emitted. -/
theorem Emits.endFeature {emit : Bool} {l : Located} {stop : Nat}
    (h : Emits all out (wantedMark emit l ++ rest) s) (hopened : emit = true → Opened l s)
    (hbytes : slice s.buf (l.placed.offset - s.base) stop = l.placed.element.render) :
    Emits all out rest (s.endFeature emit l.placed.offset stop) := by
  unfold Splitter.endFeature
  cases emit with
  | false => exact h
  | true =>
    rw [if_pos rfl, hbytes]
    obtain ⟨seen, hall, hcurrent, hboxes, hmade⟩ := h
    obtain ⟨seg, hmarks, hfills, hshared, hcover⟩ := hcurrent.copyFeature (hopened rfl)
    have hall' : all = (seen ++ [.feature l]) ++ rest := by
      rw [hall, List.append_assoc]
      rfl
    have hboxes' : Boxes (seen ++ [.feature l])
        (s.copyFeature l.placed.offset l.placed.feature.bytes) := by
      refine ⟨hboxes.allocated, fun a ha => ?_, hboxes.same⟩
      rw [Mark.boxes_append]
      exact List.mem_append_left _ (hboxes.seen a ha)
    unfold flushFull
    split
    · rename_i hfull
      exact Emits.flushChunk hall' hmarks hfills hboxes' hcover hmade
        fun hlt => absurd hlt (Nat.not_lt.2 hfull)
    · rename_i hroom
      exact ⟨_, hall', .filling seg hmarks hfills hshared (Nat.lt_of_not_le hroom) hcover, hboxes',
        hmade⟩

/-! ## A box ends -/

theorem endBoundedBy_eq (s : Splitter) (start stop : Nat) :
    ∃ generation allocated, s.allocated ≤ allocated ∧ s.endBoundedBy start stop =
      { s with
        contextGeneration := generation
        context := s.currentContext.1
        stack := modifyTop (fun frame => { frame with boundedBy := some ⟨allocated,
          { source := s.source, byteOffset := start,
            bytes := slice s.buf (start - s.base) stop, namespaces := s.currentContext.1 }⟩ })
          s.stack
        allocated := allocated + 1 } := by
  obtain ⟨generation, allocated, hle, heq⟩ := s.currentContext_eq
  refine ⟨generation, allocated, hle, ?_⟩
  unfold Splitter.endBoundedBy
  dsimp only
  rw [heq]

theorem held_modifyTop {f : Frame → Frame} {a : Arc RawElement} {stack : List Frame}
    {new : Arc RawElement} (hf : ∀ frame, (f frame).boundedBy = some new)
    (h : a ∈ (modifyTop f stack).filterMap Frame.boundedBy) :
    a = new ∨ a ∈ stack.filterMap Frame.boundedBy := by
  cases stack with
  | nil => cases h
  | cons frame stack =>
    obtain ⟨other, hother, hbox⟩ := List.mem_filterMap.1 h
    rcases List.mem_cons.1 hother with rfl | hother
    · rw [hf] at hbox
      exact .inl (Option.some.inj hbox).symm
    · exact .inr (List.mem_filterMap.2 ⟨other, List.mem_cons_of_mem _ hother, hbox⟩)

/-- The box that ends is the next mark. -/
theorem Emits.endBoundedBy {box : Box} {start stop : Nat}
    (h : Emits all out (.bounded box :: rest) s) (hok : ContextOk s)
    (hdistinct : (Mark.boxes all).Nodup)
    (hbox : box = ⟨s.source, start, slice s.buf (start - s.base) stop, flatten s.bindings⟩) :
    Emits all out rest (s.endBoundedBy start stop) := by
  obtain ⟨-, -, hval⟩ := hok.currentContext
  have hid := s.currentContext_id
  obtain ⟨generation, allocated, hle, heq⟩ := s.endBoundedBy_eq start stop
  rw [heq]
  generalize s.currentContext.1 = context at *
  obtain ⟨seen, hall, hcurrent, hboxes, hmade⟩ := h
  refine ⟨seen ++ [.bounded box], ?_, ?_, ?_, hmade⟩
  · rw [hall, List.append_assoc]
    rfl
  · cases hcurrent with
    | empty chunk offsets emitted cover =>
      refine .empty chunk offsets ?_ ?_
      · simpa using emitted
      · simpa using cover
    | filling seg marks fills shared room cover =>
      refine .filling { seg with later := seg.later ++ [.bounded box] } ?_ ⟨fills.bytes,
        fills.offsets, fills.emitted, fills.first, fills.start, fills.context, fills.box,
        fills.small, ?_⟩ ?_ room cover
      · rw [← marks]
        simp [Segment.marks]
      · simpa using fills.later
      · rcases shared with hremembered | ⟨b, hb, hne⟩
        · rcases hid with hsame | hother
          · left
            show context.id = _
            rw [hsame]
            exact hremembered
          · right
            refine ⟨box, by simp [Mark.boxes, Mark.box?], ?_⟩
            show box.namespaces ≠ s.chunkContext.val
            rw [hbox, hok.shared hremembered.symm]
            exact hval ▸ hother
        · exact .inr ⟨b, by rw [Mark.boxes_append]; exact List.mem_append_left _ hb, hne⟩
  · -- The box is a new one, and so is its allocation.
    have hfresh : box ∉ Mark.boxes seen := by
      rw [hall, Mark.boxes_append, List.nodup_append] at hdistinct
      exact fun hmem => hdistinct.2.2 box hmem box List.mem_cons_self rfl
    generalize hnew : (⟨allocated, ⟨s.source, start, slice s.buf (start - s.base) stop,
      context⟩⟩ : Arc RawElement) = new
    have hnewBox : new.val.box = box := by
      rw [← hnew, hbox, ← hval]
      rfl
    have hnewId : new.id = allocated := by rw [← hnew]
    have hheld : ∀ a ∈ held { s with
        contextGeneration := generation
        context
        stack := modifyTop (fun frame => { frame with boundedBy := some new }) s.stack
        allocated := allocated + 1 }, a = new ∨ a ∈ s.held := by
      intro a ha
      rcases List.mem_append.1 ha with ha | ha
      · exact (held_modifyTop (fun _ => rfl) ha).imp_right (List.mem_append_left _)
      · exact .inr (List.mem_append_right _ ha)
    constructor
    · intro a ha
      rcases hheld a ha with rfl | ha
      · exact hnewId ▸ Nat.lt_succ_self _
      · exact Nat.lt_succ_of_lt (Nat.lt_of_lt_of_le (hboxes.allocated a ha) hle)
    · intro a ha
      rw [Mark.boxes_append]
      rcases hheld a ha with rfl | ha
      · rw [hnewBox]
        exact List.mem_append_right _ (List.mem_singleton_self box)
      · exact List.mem_append_left _ (hboxes.seen a ha)
    · have hother : ∀ a ∈ s.held, a.id ≠ new.id ∧ a.val.box ≠ new.val.box := by
        intro a ha
        have hlt := Nat.lt_of_lt_of_le (hboxes.allocated a ha) hle
        refine ⟨by omega, fun hsame => hfresh ?_⟩
        rw [← hnewBox, ← hsame]
        exact hboxes.seen a ha
      intro a ha b hb
      rcases hheld a ha with hnewA | holdA
      · rcases hheld b hb with hnewB | holdB
        · exact iff_of_true (by rw [hnewA, hnewB]) (by rw [hnewA, hnewB])
        · rw [hnewA]
          exact iff_of_false (hother b holdB).1.symm (hother b holdB).2.symm
      · rcases hheld b hb with hnewB | holdB
        · rw [hnewB]
          exact iff_of_false (hother a holdA).1 (hother a holdA).2
        · exact hboxes.same a holdA b holdB

/-! ## The end of the input -/

/-- At the end of the input what is left is flushed, and nothing comes after
it. -/
theorem Emits.finish (h : Emits all out [] s) :
    Cover 0 (Mark.features all) (out ++ s.flushChunk.ready) ∧
      ∀ chunk ∈ out ++ s.flushChunk.ready, Made all s.options.targetChunkBytes chunk := by
  have hflushed : Emits all out [] s.flushChunk := by
    obtain ⟨seen, hall, hcurrent, hboxes, hmade⟩ := h
    cases hcurrent with
    | empty chunk offsets emitted cover =>
      have hself : s.flushChunk = s := by
        unfold Splitter.flushChunk
        exact if_pos (List.isEmpty_iff.2 chunk)
      rw [hself]
      exact ⟨seen, hall, .empty chunk offsets emitted cover, hboxes, hmade⟩
    | filling seg marks fills shared room cover =>
      exact Emits.flushChunk hall marks fills hboxes cover hmade
        fun _ => CutBefore.skip fills.later trivial
  obtain ⟨seen, hall, hcurrent, -, hmade⟩ := hflushed
  rw [List.append_nil] at hall
  rw [s.flushChunk_steady.options] at hmade
  refine ⟨?_, hmade⟩
  cases hcurrent with
  | empty chunk offsets emitted cover =>
    rw [hall]
    exact cover
  | filling seg marks fills shared room cover => exact absurd s.flushChunk_chunk fills.chunk_ne_nil

end

end Splitter

end Xeibe

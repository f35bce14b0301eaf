import Xeibe.Geom.CurveJoined

/-!
# When a curve is well joined

`CurveBuilder::finish` over all pieces.  Pieces of different dimensions never meet: the positions
they share differ in their number of ordinates.  Two computed ends that meet lose their mark.
-/

namespace Xeibe.Geom

/-! ## Any dimensions -/

/-- A part with positions of one dimension. -/
def Shaped (dim : Dim) (part : CurvePart) : Prop :=
  ∃ positions, part.coords.Holds dim positions ∧ positions ≠ []

theorem CurvePart.Sound.shaped {dim : Dim} {part : CurvePart} (h : part.Sound dim) :
    Shaped dim part := by
  obtain ⟨_, _, hcons, -⟩ := h.exists_first
  refine ⟨_, h.holds, ?_⟩
  rw [hcons]
  exact List.cons_ne_nil _ _

/-- Every dimension of some parts is one of the others' too. -/
def DimsKept (parts next : List CurvePart) : Prop :=
  ∀ dim, (∃ part ∈ parts, Shaped dim part) → ∃ part ∈ next, Shaped dim part

/-- All parts have positions. -/
def AllShaped (parts : List CurvePart) : Prop := ∀ part ∈ parts, ∃ dim, Shaped dim part

theorem AllShaped.concat {parts : List CurvePart} {dim : Dim} {part : CurvePart}
    (h : AllShaped parts) (hp : Shaped dim part) : AllShaped (parts ++ [part]) := by
  intro x hx
  rcases List.mem_append.mp hx with hx | hx
  · exact h x hx
  · rw [List.mem_singleton.mp hx]
    exact ⟨dim, hp⟩

theorem AllShaped.left {parts behind : List CurvePart} (h : AllShaped (parts ++ behind)) :
    AllShaped parts := fun x hx => h x (List.mem_append_left _ hx)

theorem dimsKept_append (parts behind : List CurvePart) : DimsKept parts (parts ++ behind) :=
  fun _ ⟨part, hpart, hshaped⟩ => ⟨part, List.mem_append_left _ hpart, hshaped⟩

theorem dimsKept_replaceLast (before : List CurvePart) {dim : Dim} {last next : CurvePart}
    (hl : Shaped dim last) (hn : Shaped dim next) :
    DimsKept (before ++ [last]) (before ++ [next]) := by
  rintro other ⟨part, hpart, hshaped⟩
  rcases List.mem_append.mp hpart with hpart | hpart
  · exact ⟨part, List.mem_append_left _ hpart, hshaped⟩
  · rw [List.mem_singleton.mp hpart] at hshaped
    obtain ⟨_, hl, -⟩ := hl
    obtain ⟨_, hother, -⟩ := hshaped
    obtain rfl : other = dim := Option.some.inj (hother.known.symm.trans hl.known)
    exact ⟨next, List.mem_append_right _ List.mem_cons_self, hn⟩

theorem Dim.size_inj {a b : Dim} (h : a.size = b.size) : a = b := by
  cases a <;> cases b <;> first | rfl | cases h

section Shapes

variable {dim other : Dim} {last piece part : CurvePart}

theorem Shaped.last_some (h : Shaped dim part) : ∃ ending, part.coords.last = some ending ∧
    ending.length = dim.size := by
  obtain ⟨positions, hholds, hne⟩ := h
  refine ⟨positions.getLast hne, ?_, hholds.lengths _ (List.getLast_mem hne)⟩
  rw [hholds.last, List.getLast?_eq_some_getLast hne]

theorem Shaped.first_some (h : Shaped dim part) : ∃ start, part.coords.first = some start ∧
    start.length = dim.size := by
  obtain ⟨positions, hholds, hne⟩ := h
  refine ⟨positions.head hne, ?_, hholds.lengths _ (List.head_mem hne)⟩
  rw [hholds.first, List.head?_eq_some_head hne]

theorem shaped_merged (hl : Shaped dim last) (hp : Shaped other piece) :
    Shaped dim (merged last piece) := by
  obtain ⟨positions, hl, hne⟩ := hl
  obtain ⟨_, hp, -⟩ := hp
  have hmerged := hl.appendJoined hp coincide
  rw [← merged_coords] at hmerged
  exact ⟨_, hmerged, List.append_ne_nil_of_left_ne_nil hne _⟩

theorem shaped_setLast (h : Shaped dim part) (kept : List F64) :
    Shaped dim (setLast part kept) := by
  obtain ⟨positions, hholds, hne⟩ := h
  obtain hnil | ⟨before, last, rfl⟩ := List.eq_nil_or_concat positions
  · exact absurd hnil hne
  · rw [List.concat_eq_append] at hholds
    exact ⟨_, holds_setLast hholds kept, by simp⟩

theorem shaped_setFirst (h : Shaped dim part) (kept : List F64) :
    Shaped dim (setFirst part kept) := by
  obtain ⟨positions, hholds, hne⟩ := h
  obtain ⟨first, rest, rfl⟩ := List.exists_cons_of_ne_nil hne
  exact ⟨_, holds_setFirst hholds kept, List.cons_ne_nil _ _⟩

theorem mergeOrPush_cases (before : List CurvePart) (last piece : CurvePart) :
    mergeOrPush (before ++ [last]) piece = before ++ [last] ++ [piece] ∨
      sharesStart (before ++ [last]) piece = true ∧
        mergeOrPush (before ++ [last]) piece = before ++ [merged last piece] := by
  cases hshares : sharesStart (before ++ [last]) piece with
  | false => exact .inl (by simp [mergeOrPush, hshares])
  | true => cases last <;> cases piece <;> simp [mergeOrPush, hshares, merged, CurvePart.withCoords,
      CurvePart.coords]

/-- Nothing of another dimension is merged. -/
theorem mergeOrPush_shaped {before : List CurvePart} (h : AllShaped (before ++ [last]))
    (hp : Shaped dim piece) : AllShaped (mergeOrPush (before ++ [last]) piece) ∧
      DimsKept (before ++ [last]) (mergeOrPush (before ++ [last]) piece) ∧
      ∃ part ∈ mergeOrPush (before ++ [last]) piece, Shaped dim part := by
  rcases mergeOrPush_cases before last piece with hpush | ⟨hshares, hmerge⟩
  · rw [hpush]
    exact ⟨h.concat hp, dimsKept_append _ _, piece,
      List.mem_append_right _ List.mem_cons_self, hp⟩
  · obtain ⟨other, hl⟩ := h last (List.mem_append_right _ List.mem_cons_self)
    have hm := shaped_merged hl hp
    have hsame : other = dim := by
      obtain ⟨ending, hlast, hending⟩ := hl.last_some
      obtain ⟨start, hfirst, hstart⟩ := hp.first_some
      simp only [sharesStart, List.getLast?_concat, Option.bind_some, hlast, hfirst] at hshares
      have hlength := length_of_samePosition hshares
      exact Dim.size_inj (hending.symm.trans (hlength.trans hstart))
    rw [hmerge]
    refine ⟨h.left.concat hm, dimsKept_replaceLast before hl hm, _,
      List.mem_append_right _ List.mem_cons_self, ?_⟩
    rwa [← hsame]

/-- Bridging keeps every part's dimension. -/
theorem bridgeGap_shaped {before : List CurvePart} (h : AllShaped (before ++ [last]))
    (hp : Shaped dim piece) (ending start : List F64) :
    ∃ before' last', before ++ (bridgeGap last piece ending start).1 = before' ++ [last'] ∧
      AllShaped (before' ++ [last']) ∧ DimsKept (before ++ [last]) (before' ++ [last']) ∧
      Shaped dim (bridgeGap last piece ending start).2 := by
  obtain ⟨other, hl⟩ := h last (List.mem_append_right _ List.mem_cons_self)
  obtain ⟨behind, hbehind, hne⟩ := id hp
  have hempty : Coords.Holds dim [] { dim := piece.coords.dim, values := [] } := by
    rw [hbehind.known]
    exact .nil dim
  cases last with
  | linear line =>
    obtain ⟨positions, hholds, -⟩ := id hl
    have hpushed : Shaped other (.linear { coords := line.coords.push start }) :=
      ⟨_, hholds.push start, by simp⟩
    exact ⟨before, _, rfl, h.left.concat hpushed, dimsKept_replaceLast before hl hpushed, hp⟩
  | circular arc =>
    cases piece with
    | linear line =>
      refine ⟨before, _, rfl, h, fun _ hpart => hpart, ?_⟩
      exact ⟨_, (hempty.push ending).appendJoined hbehind coincide, by simp⟩
    | circular next =>
      have hbridge : Shaped dim (.linear { coords :=
          (Coords.push { dim := next.coords.dim, values := [] } ending).push start }) :=
        ⟨_, (hempty.push ending).push start, by simp⟩
      exact ⟨before ++ [.circular arc], _, by simp [bridgeGap], h.concat hbridge,
        dimsKept_append _ _, hp⟩

/-- One more piece: the dimensions of the parts are those of the pieces. -/
theorem joinPiece_shaped (ruler : Ruler) {parts : List CurvePart} (h : AllShaped parts)
    (hp : Shaped dim piece) : ∃ next warnings, joinPiece ruler parts piece = some (next, warnings) ∧
      AllShaped next ∧ DimsKept parts next ∧ ∃ part ∈ next, Shaped dim part := by
  obtain rfl | ⟨before, last, rfl⟩ := List.eq_nil_or_concat parts
  · exact ⟨[piece], [], rfl, h.concat hp, dimsKept_append _ _, piece, List.mem_cons_self, hp⟩
  rw [List.concat_eq_append] at h ⊢
  obtain ⟨other, hl⟩ := h last (List.mem_append_right _ List.mem_cons_self)
  obtain ⟨ending, hlast, -⟩ := hl.last_some
  obtain ⟨start, hfirst, -⟩ := hp.first_some
  cases hgap : ruler.exceeds ending start with
  | true =>
    obtain ⟨before', last', hbridged, hshaped, hkept, hpiece⟩ :=
      bridgeGap_shaped h hp ending start
    obtain ⟨hnext, hkept', hpart⟩ := mergeOrPush_shaped hshaped hpiece
    refine ⟨_, _, joinPiece_of_gap hlast hfirst hgap, ?_⟩
    rw [hbridged]
    exact ⟨hnext, fun dim hdim => hkept' dim (hkept dim hdim), hpart⟩
  | false =>
    obtain ⟨warnings, hstep⟩ := joinPiece_of_near before hlast hfirst hgap
    have hset := shaped_setLast hl (keptEnd last piece ending start)
    have hpiece := shaped_setFirst hp (keptEnd last piece ending start)
    obtain ⟨hnext, hkept, hpart⟩ := mergeOrPush_shaped (h.left.concat hset) hpiece
    have hreplaced := dimsKept_replaceLast before hl hset
    exact ⟨_, warnings, hstep, hnext, fun dim hdim => hkept dim (hreplaced dim hdim), hpart⟩

end Shapes

/-! ## All pieces -/

/-- The pieces joined without the marks of joined positions. -/
def unmarkedPositions (ruler : Ruler) (pieces : List CurvePart) : List Marked :=
  pieces.foldl (fun before piece => joinUnmarked ruler before piece.marked) []

theorem joinedPositions_concat (ruler : Ruler) (pieces : List CurvePart) (piece : CurvePart) :
    joinedPositions ruler (pieces ++ [piece]) =
      joinMarked ruler (joinedPositions ruler pieces) piece.marked := by
  simp [joinedPositions]

theorem unmarkedPositions_concat (ruler : Ruler) (pieces : List CurvePart) (piece : CurvePart) :
    unmarkedPositions ruler (pieces ++ [piece]) =
      joinUnmarked ruler (unmarkedPositions ruler pieces) piece.marked := by
  simp [unmarkedPositions]

theorem Piece.isEmpty (piece : Piece) : piece.part.coords.isEmpty = false := by
  obtain ⟨_, hholds, hne⟩ := piece.sound.shaped
  exact isEmpty_of_holds hholds hne

/-- Nothing of any piece's dimension goes away. -/
theorem joinPieces_shaped (ruler : Ruler) (pieces : List Piece) : ∃ parts warnings,
    CurveBuilder.joinPieces ruler (pieces.map Piece.part) = some (parts, warnings) ∧
      AllShaped parts ∧ ∀ piece ∈ pieces, ∃ part ∈ parts, Shaped piece.dim part := by
  induction pieces using List.reverseRecOn with
  | nil => exact ⟨[], [], rfl, fun _ h => absurd h List.not_mem_nil,
      fun _ h => absurd h List.not_mem_nil⟩
  | append_singleton pieces piece ih =>
    obtain ⟨parts, warnings, hrun, hshaped, hdims⟩ := ih
    obtain ⟨next, more, hstep, hnext, hkept, hpart⟩ :=
      joinPiece_shaped ruler hshaped piece.sound.shaped
    refine ⟨next, warnings ++ more, ?_, hnext, fun other hother => ?_⟩
    · rw [List.map_append, List.map_singleton, joinPieces_concat ruler _ piece.isEmpty, hrun]
      simp [hstep]
    · rcases List.mem_append.mp hother with hother | hother
      · exact hkept _ (hdims other hother)
      · rwa [List.mem_singleton.mp hother]

/-- Pieces of one dimension join as they should, but for the lost marks. -/
theorem joinPieces_joined (ruler : Ruler) {dim : Dim} (pieces : List Piece)
    (h : ∀ piece ∈ pieces, piece.dim = dim) : ∃ parts warnings,
    CurveBuilder.joinPieces ruler (pieces.map Piece.part) = some (parts, warnings) ∧
      Joined dim parts ∧ outline parts = unmarkedPositions ruler (pieces.map Piece.part) := by
  induction pieces using List.reverseRecOn with
  | nil => exact ⟨[], [], rfl, ⟨fun _ h => absurd h List.not_mem_nil, .nil, .nil⟩, rfl⟩
  | append_singleton pieces piece ih =>
    obtain ⟨parts, warnings, hrun, hjoined, houtline⟩ :=
      ih fun p hp => h p (List.mem_append_left _ hp)
    have hdim : piece.dim = dim := h piece (List.mem_append_right _ List.mem_cons_self)
    obtain ⟨next, more, hstep, hnext, hmarked⟩ :=
      joinPiece_joined ruler hjoined (hdim ▸ piece.sound)
    refine ⟨next, warnings ++ more, ?_, hnext, ?_⟩
    · rw [List.map_append, List.map_singleton, joinPieces_concat ruler _ piece.isEmpty, hrun]
      simp [hstep]
    · rw [List.map_append, List.map_singleton, unmarkedPositions_concat, hmarked, houtline]

/-- The end of one piece and the start of the next one are joined, and both were computed. -/
def computedEndsMeet (ruler : Ruler) (piece next : Piece) : Prop :=
  ∃ ending start, piece.part.coords.last = some ending ∧ next.part.coords.first = some start ∧
    ruler.exceeds ending start = false ∧ piece.part.isLastComputed = true ∧
    next.part.isFirstComputed = true

theorem computedEndsMeet_iff {ruler : Ruler} {piece next : Piece} {ending start : List F64}
    (hlast : piece.part.coords.last = some ending) (hfirst : next.part.coords.first = some start) :
    computedEndsMeet ruler piece next ↔ ruler.exceeds ending start = false ∧
      (piece.part.isLastComputed && next.part.isFirstComputed) = true := by
  simp [computedEndsMeet, hlast, hfirst]

theorem isChain_concat_iff {α : Type} {R : α → α → Prop} {l : List α} {a b : α} :
    (l ++ [a] ++ [b]).IsChain R ↔ (l ++ [a]).IsChain R ∧ R a b := by
  rw [List.isChain_append]
  simp

theorem append_cons_inj {α : Type} {l l' r : List α} {a b : α} :
    l ++ a :: r = l' ++ b :: r ↔ l = l' ∧ a = b := by
  constructor
  · intro h
    obtain ⟨hl, hr⟩ := List.append_inj' h rfl
    exact ⟨hl, (List.cons.inj hr).1⟩
  · rintro ⟨rfl, rfl⟩
    rfl

theorem joinMarked_last (ruler : Ruler) (before : List Marked) {marks : List Marked}
    (h : marks ≠ []) (x : Marked) :
    ∃ front, joinMarked ruler before (marks ++ [x]) = front ++ [x] := by
  obtain ⟨⟨start, b⟩, marks, rfl⟩ := List.exists_cons_of_ne_nil h
  obtain rfl | ⟨before, ⟨ending, a⟩, rfl⟩ := List.eq_nil_or_concat before
  · exact ⟨_, rfl⟩
  rw [List.concat_eq_append, List.cons_append, joinMarked_concat]
  split
  · exact ⟨before ++ (ending, a) :: (start, b) :: marks, by simp⟩
  · exact ⟨before ++ (_, a && b) :: marks, by rw [List.append_assoc]; rfl⟩

theorem joinUnmarked_last (ruler : Ruler) (before : List Marked) {marks : List Marked}
    (h : marks ≠ []) (x : Marked) :
    ∃ front, joinUnmarked ruler before (marks ++ [x]) = front ++ [x] := by
  obtain ⟨⟨start, b⟩, marks, rfl⟩ := List.exists_cons_of_ne_nil h
  obtain rfl | ⟨before, ⟨ending, a⟩, rfl⟩ := List.eq_nil_or_concat before
  · exact ⟨_, rfl⟩
  rw [List.concat_eq_append, List.cons_append, joinUnmarked_concat]
  split
  · exact ⟨before ++ (ending, a) :: (start, b) :: marks, by simp⟩
  · exact ⟨before ++ (_, false) :: marks, by rw [List.append_assoc]; rfl⟩

theorem positions_last (ruler : Ruler) (pieces : List CurvePart) {dim : Dim} {piece : CurvePart}
    (h : piece.Sound dim) : ∃ unmarked marked ending, piece.coords.last = some ending ∧
      unmarkedPositions ruler (pieces ++ [piece]) =
        unmarked ++ [(ending, piece.isLastComputed)] ∧
      joinedPositions ruler (pieces ++ [piece]) = marked ++ [(ending, piece.isLastComputed)] := by
  obtain ⟨marks, ending, hne, hmarked, hlast, -⟩ := h.marked_last
  rw [unmarkedPositions_concat, joinedPositions_concat, hmarked]
  obtain ⟨unmarked, hunmarked⟩ := joinUnmarked_last ruler (unmarkedPositions ruler pieces) hne
    (ending, piece.isLastComputed)
  obtain ⟨marked, hjoined⟩ := joinMarked_last ruler (joinedPositions ruler pieces) hne
    (ending, piece.isLastComputed)
  exact ⟨unmarked, marked, ending, hlast, hunmarked, hjoined⟩

/-- No mark is lost exactly if no two computed ends meet. -/
theorem unmarkedPositions_eq_iff (ruler : Ruler) (pieces : List Piece) :
    unmarkedPositions ruler (pieces.map Piece.part) =
        joinedPositions ruler (pieces.map Piece.part) ↔
      pieces.IsChain fun piece next => ¬ computedEndsMeet ruler piece next := by
  induction pieces using List.reverseRecOn with
  | nil => exact iff_of_true rfl .nil
  | append_singleton pieces piece ih =>
    obtain rfl | ⟨others, previous, rfl⟩ := List.eq_nil_or_concat pieces
    · exact iff_of_true rfl (List.isChain_singleton _)
    obtain ⟨start, rest, -, hfirstMarked, hfirst, -⟩ := piece.sound.marked_first
    rw [List.concat_eq_append, List.map_append, List.map_singleton] at ih
    obtain ⟨unmarked, marked, ending, hending, hu, hm⟩ :=
      positions_last ruler (others.map Piece.part) previous.sound
    rw [List.concat_eq_append, List.map_append, List.map_append, List.map_singleton,
      List.map_singleton, unmarkedPositions_concat, joinedPositions_concat, hfirstMarked,
      isChain_concat_iff, ← ih, computedEndsMeet_iff hending hfirst, hu, hm, joinUnmarked_concat,
      joinMarked_concat]
    cases ruler.exceeds ending start <;> simp [append_cons_inj]

/-! ## The joined curve -/

/-- All pieces have one dimension, and no two computed ends meet. -/
structure Joinable (ruler : Ruler) (pieces : List Piece) : Prop where
  oneDim : ∀ piece ∈ pieces, ∀ other ∈ pieces, piece.dim = other.dim
  endsRead : pieces.IsChain fun piece next => ¬ computedEndsMeet ruler piece next

/-- Parts that meet have one dimension. -/
theorem dim_eq_of_starts {parts : List CurvePart} (h : AllShaped parts)
    (hstarts : parts.IsChain fun part next => part.coords.last = next.coords.first)
    {a b : Dim} (ha : ∃ part ∈ parts, Shaped a part) (hb : ∃ part ∈ parts, Shaped b part) :
    a = b := by
  have hsame : ∀ parts : List CurvePart, AllShaped parts →
      (parts.IsChain fun part next => part.coords.last = next.coords.first) →
      ∃ dim, ∀ part ∈ parts, Shaped dim part := by
    intro parts
    induction parts with
    | nil => exact fun _ _ => ⟨.xy, fun _ h => absurd h List.not_mem_nil⟩
    | cons part rest ih =>
      intro hshaped hchain
      obtain ⟨dim, hpart⟩ := hshaped part List.mem_cons_self
      obtain ⟨other, hrest⟩ := ih (fun p hp => hshaped p (List.mem_cons_of_mem _ hp)) hchain.tail
      refine ⟨dim, fun p hp => ?_⟩
      rcases List.mem_cons.mp hp with rfl | hp
      · exact hpart
      cases rest with
      | nil => cases hp
      | cons next rest =>
        obtain ⟨ending, hlast, hending⟩ := hpart.last_some
        obtain ⟨start, hfirst, hstart⟩ := (hrest next List.mem_cons_self).first_some
        have hmeet := (List.isChain_cons_cons.mp hchain).1
        rw [hlast, hfirst] at hmeet
        obtain rfl := Option.some.inj hmeet
        obtain rfl := Dim.size_inj (hending.symm.trans hstart)
        exact hrest p hp
  obtain ⟨dim, hall⟩ := hsame parts h hstarts
  have hdim : ∀ c, (∃ part ∈ parts, Shaped c part) → c = dim := by
    rintro c ⟨part, hpart, _, hc, -⟩
    obtain ⟨_, hd, -⟩ := hall part hpart
    exact Option.some.inj (hc.known.symm.trans hd.known)
  rw [hdim a ha, hdim b hb]

/-- The parts of what `finish` gives. -/
def JoinedCurve.parts (joined : JoinedCurve) : List CurvePart :=
  (joined.curve.map Curve.parts).getD []

theorem parts_curveOf (parts : List CurvePart) (warnings : List String) :
    (JoinedCurve.mk (CurveBuilder.curveOf parts) warnings).parts = parts := by
  match parts with
  | [] => rfl
  | [.linear _] => rfl
  | [.circular _] => rfl
  | .linear _ :: _ :: _ => rfl
  | .circular _ :: _ :: _ => rfl

theorem wellJoined_of_joined {ruler : Ruler} {pieces parts : List CurvePart} {dim : Dim}
    (h : Joined dim parts) (hpositions : outline parts = joinedPositions ruler pieces) :
    WellJoined ruler pieces parts where
  nonEmpty part hpart := by
    obtain ⟨_, _, hcons, -⟩ := (h.sound part hpart).exists_first
    rw [hcons]
    exact List.cons_ne_nil _ _
  starts := h.starts
  alternates := h.alternates
  odd part hpart := (h.sound part hpart).odd
  computed part hpart := (h.sound part hpart).computed
  positions := hpositions

/-- `finish` joins the pieces as it should exactly if they have one dimension and no two computed
ends meet. -/
theorem finish_wellJoined_iff (ruler : List Coords → Ruler) (pieces : List Piece) :
    (∃ joined, CurveBuilder.finish ruler { pieces := pieces.map Piece.part } = some joined ∧
      WellJoined (ruler (pieces.map fun piece => piece.part.coords)) (pieces.map Piece.part)
        joined.parts) ↔
      Joinable (ruler (pieces.map fun piece => piece.part.coords)) pieces := by
  have hcoords : (pieces.map Piece.part).map CurvePart.coords =
      pieces.map fun piece => piece.part.coords := by rw [List.map_map]; rfl
  simp only [CurveBuilder.finish, hcoords]
  generalize ruler (pieces.map fun piece => piece.part.coords) = ruler
  constructor
  · rintro ⟨joined, hfinish, hwell⟩
    obtain ⟨parts, warnings, hrun, hshaped, hdims⟩ := joinPieces_shaped ruler pieces
    rw [hrun] at hfinish
    obtain rfl := Option.some.inj hfinish
    rw [parts_curveOf] at hwell
    have honeDim : ∀ piece ∈ pieces, ∀ other ∈ pieces, piece.dim = other.dim :=
      fun piece hpiece other hother =>
        dim_eq_of_starts hshaped hwell.starts (hdims piece hpiece) (hdims other hother)
    refine ⟨honeDim, ?_⟩
    cases pieces with
    | nil => exact .nil
    | cons first rest =>
      obtain ⟨parts', warnings', hrun', -, houtline⟩ := joinPieces_joined ruler (first :: rest)
        fun piece hpiece => honeDim piece hpiece first List.mem_cons_self
      obtain ⟨rfl, rfl⟩ := Prod.mk.inj (Option.some.inj (hrun.symm.trans hrun'))
      rw [← unmarkedPositions_eq_iff, ← houtline]
      exact hwell.positions
  · intro h
    have honeDim : ∃ dim, ∀ piece ∈ pieces, piece.dim = dim := by
      cases pieces with
      | nil => exact ⟨.xy, fun _ h => absurd h List.not_mem_nil⟩
      | cons first rest => exact ⟨first.dim, fun p hp => h.oneDim p hp first List.mem_cons_self⟩
    obtain ⟨dim, hdim⟩ := honeDim
    obtain ⟨parts, warnings, hrun, hjoined, houtline⟩ := joinPieces_joined ruler pieces hdim
    refine ⟨⟨CurveBuilder.curveOf parts, warnings⟩, by rw [hrun]; rfl, ?_⟩
    rw [parts_curveOf]
    refine wellJoined_of_joined hjoined ?_
    rw [houtline]
    exact (unmarkedPositions_eq_iff ruler pieces).mpr h.endsRead

/-- Only positions that coincide are joined. -/
def exactRuler : Ruler where
  exceeds a b := !coincide a b
  distance _ _ := ""
  exact a b h := by rw [h]; rfl

/-- A line of positions, from the bits of their ordinates. -/
def lineOf (dim : Dim) (bits : List UInt64) : CurvePart :=
  .linear { coords := { dim := some dim, values := bits.map F64.mk } }

def lowLine : Piece where
  part := lineOf .xy [0, 0, 0x3ff0000000000000, 0]
  dim := .xy
  sound := ⟨rfl, ⟨by decide, by decide⟩, by decide, by decide, by decide, fun _ h => by cases h⟩

def highLine : Piece where
  part := lineOf .xyz [0x3ff0000000000000, 0, 0x4014000000000000, 0x4000000000000000, 0,
    0x4014000000000000]
  dim := .xyz
  sound := ⟨rfl, ⟨by decide, by decide⟩, by decide, by decide, by decide, fun _ h => by cases h⟩

/-- A line in the plane, and one in space that starts over its end: the start loses its height, and
the two lines stay apart. -/
theorem finish_not_wellJoined : ¬ ∀ (ruler : List Coords → Ruler) (pieces : List Piece),
    ∃ joined, CurveBuilder.finish ruler { pieces := pieces.map Piece.part } = some joined ∧
      WellJoined (ruler (pieces.map fun piece => piece.part.coords)) (pieces.map Piece.part)
        joined.parts := by
  intro h
  obtain ⟨joined, hfinish, hwell⟩ := h (fun _ => exactRuler) [lowLine, highLine]
  have hjoined : (CurveBuilder.finish (fun _ => exactRuler)
      { pieces := [lowLine.part, highLine.part] }).map JoinedCurve.parts = some [lowLine.part,
        lineOf .xyz [0x3ff0000000000000, 0, 0x7ff8000000000000, 0x4000000000000000, 0,
          0x4014000000000000]] := by decide
  have hparts : joined.parts = [lowLine.part, lineOf .xyz [0x3ff0000000000000, 0,
      0x7ff8000000000000, 0x4000000000000000, 0, 0x4014000000000000]] := by
    have hpieces : [lowLine.part, highLine.part] = [lowLine, highLine].map Piece.part := rfl
    rw [hpieces, hfinish] at hjoined
    exact Option.some.inj hjoined
  have halternates := hwell.alternates
  rw [hparts, List.isChain_cons_cons] at halternates
  exact halternates.1 rfl

end Xeibe.Geom

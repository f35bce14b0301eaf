import Mathlib.Data.List.Chain
import Xeibe.Geom.CurveBuilder

/-!
# What a joined curve is

The positions of a curve are those of its pieces with every shared position once, and a curve part
names the ones that were computed.  `CurveBuilder::finish` returns such a curve exactly if all
pieces have the same dimension and no two computed ends meet.
-/

namespace Xeibe.Geom

namespace Coords

/-! ## Sequences by their positions -/

/-- These positions, in a known dimension. -/
structure Holds (dim : Dim) (positions : List (List F64)) (coords : Coords) : Prop where
  known : coords.dim = some dim
  values : coords.values = positions.flatten
  lengths : ∀ position ∈ positions, position.length = dim.size

namespace Holds

variable {dim other : Dim} {positions behind : List (List F64)} {coords next : Coords}

theorem size (h : coords.Holds dim positions) : coords.size = dim.size := size_of_dim h.known

theorem positions_eq (h : coords.Holds dim positions) : coords.positions = positions := by
  refine positions_of_flatten h.values fun p hp => ?_
  rw [h.size]
  exact h.lengths p hp

theorem flat (h : coords.Holds dim positions) : coords.Flat := by
  refine flat_of_positions (fun hnone => ?_) h.values fun p hp => ?_
  · rw [h.known] at hnone
    cases hnone
  · rw [h.size]
    exact h.lengths p hp

theorem len (h : coords.Holds dim positions) : coords.len = positions.length := by
  rw [← positions_length, h.positions_eq]

theorem first (h : coords.Holds dim positions) : coords.first = positions.head? := by
  rw [first_eq h.flat, h.positions_eq]

theorem last (h : coords.Holds dim positions) : coords.last = positions.getLast? := by
  rw [last_eq h.flat, h.positions_eq]

theorem of_flat (hknown : coords.dim = some dim) (hflat : coords.Flat) :
    coords.Holds dim coords.positions := by
  refine ⟨hknown, hflat.flatten.symm, fun p hp => ?_⟩
  rw [length_of_mem_positions hp, size_of_dim hknown]

theorem nil (dim : Dim) : Holds dim [] { dim := some dim, values := [] } :=
  ⟨rfl, rfl, fun _ hp => absurd hp List.not_mem_nil⟩

theorem push (h : coords.Holds dim positions) (position : List F64) :
    (coords.push position).Holds dim (positions ++ [resize dim.size position]) := by
  have hpush : coords.push position =
      { dim := some dim, values := coords.values ++ resize dim.size position } := by
    simp [Coords.push, h.known]
  rw [hpush]
  refine ⟨rfl, ?_, fun p hp => ?_⟩
  · rw [h.values]
    simp
  · rcases List.mem_append.mp hp with hp | hp
    · exact h.lengths p hp
    · rw [List.mem_singleton.mp hp, resize_length]

theorem appendJoined (h : coords.Holds dim positions) (hn : next.Holds other behind)
    (joins : List F64 → List F64 → Bool) :
    (coords.appendJoined joins next).Holds dim (positions ++
      (behind.drop (overlap joins positions behind)).map (resize dim.size)) := by
  have hdim : coords.orDim next = coords := orDim_of_known h.known
  have happended : appended joins coords next =
      (behind.drop (overlap joins positions behind)).map (resize dim.size) := by
    rw [appended, hdim, h.size, h.positions_eq, hn.positions_eq]
  rw [appendJoined_eq h.flat hn.flat, hdim, happended]
  refine ⟨h.known, ?_, fun p hp => ?_⟩
  · rw [List.flatten_append, h.values]
  · rcases List.mem_append.mp hp with hp | hp
    · exact h.lengths p hp
    · obtain ⟨_, _, rfl⟩ := List.mem_map.mp hp
      exact resize_length _ _

end Holds

end Coords

theorem overwrite_eq (target source : List F64) :
    overwrite target source = resize target.length source := by
  unfold overwrite resize
  refine List.ext_getElem ?_ fun i hi _ => ?_
  · simp
    omega
  · rw [List.length_mapIdx] at hi
    rw [List.getElem_mapIdx, List.getElem_append]
    by_cases hs : i < source.length
    · have hin : i < (source.take target.length).length := by
        rw [List.length_take]
        omega
      rw [dif_pos hin, List.getElem_take, List.getD_eq_getElem?_getD, List.getElem?_eq_getElem hs,
        Option.getD_some]
    · have hout : ¬ i < (source.take target.length).length := by
        rw [List.length_take]
        omega
      rw [dif_neg hout, List.getElem_replicate, List.getD_eq_getElem?_getD,
        List.getElem?_eq_none (Nat.le_of_not_lt hs), Option.getD_none]

namespace CurvePart

@[simp] theorem withCoords_coords (part : CurvePart) (coords : Coords) :
    (part.withCoords coords).coords = coords := by
  cases part <;> rfl

@[simp] theorem withCoords_isCircular (part : CurvePart) (coords : Coords) :
    (part.withCoords coords).isCircular = part.isCircular := by
  cases part <;> rfl

@[simp] theorem withCoords_isComputed (part : CurvePart) (coords : Coords) (i : Nat) :
    (part.withCoords coords).isComputed i = part.isComputed i := by
  cases part <;> rfl

@[simp] theorem retainComputed_coords (part : CurvePart) (keep : Nat → Bool) :
    (part.retainComputed keep).coords = part.coords := by
  cases part <;> rfl

@[simp] theorem retainComputed_isCircular (part : CurvePart) (keep : Nat → Bool) :
    (part.retainComputed keep).isCircular = part.isCircular := by
  cases part <;> rfl

@[simp] theorem retainComputed_isComputed (part : CurvePart) (keep : Nat → Bool) (i : Nat) :
    (part.retainComputed keep).isComputed i = (part.isComputed i && keep i) := by
  cases part with
  | linear line => rfl
  | circular arc =>
    rw [Bool.eq_iff_iff]
    simp [retainComputed, isComputed]

end CurvePart

section Ends

variable {dim : Dim} {part : CurvePart} {positions : List (List F64)} {first last : List F64}

/-- Only the last position is another one. -/
theorem holds_setLast (h : part.coords.Holds dim (positions ++ [last])) (kept : List F64) :
    (setLast part kept).coords.Holds dim (positions ++ [resize dim.size kept]) := by
  have hlast : last.length = dim.size := h.lengths last (by simp)
  have hsplit : part.coords.values = positions.flatten ++ last := by
    rw [h.values]
    simp
  have hstart : part.coords.values.length - part.coords.size = positions.flatten.length := by
    rw [hsplit, h.size, List.length_append, hlast]
    omega
  refine ⟨?_, ?_, fun p hp => ?_⟩
  · simp [setLast, h.known]
  · simp only [setLast, CurvePart.retainComputed_coords, CurvePart.withCoords_coords]
    rw [hstart, hsplit, List.take_left, List.drop_left, overwrite_eq, hlast]
    simp
  · rcases List.mem_append.mp hp with hp | hp
    · exact h.lengths p (List.mem_append_left _ hp)
    · rw [List.mem_singleton.mp hp, resize_length]

theorem holds_setFirst (h : part.coords.Holds dim (first :: positions)) (kept : List F64) :
    (setFirst part kept).coords.Holds dim (resize dim.size kept :: positions) := by
  have hfirst : first.length = dim.size := h.lengths first List.mem_cons_self
  have hsplit : part.coords.values = first ++ positions.flatten := by
    rw [h.values, List.flatten_cons]
  refine ⟨?_, ?_, fun p hp => ?_⟩
  · simp [setFirst, h.known]
  · simp only [setFirst, CurvePart.retainComputed_coords, CurvePart.withCoords_coords]
    rw [hsplit, h.size, ← hfirst, List.take_left, List.drop_left, overwrite_eq]
    rfl
  · rcases List.mem_cons.mp hp with rfl | hp
    · exact resize_length _ _
    · exact h.lengths p (List.mem_cons_of_mem _ hp)

end Ends

/-! ## Pieces -/

/-- A line of at least two positions, or an arc of an odd number of at least three. -/
structure CurvePart.Sound (dim : Dim) (part : CurvePart) : Prop where
  known : part.coords.dim = some dim
  flat : part.coords.Flat
  two : 2 ≤ part.coords.len
  odd : part.isCircular = true → part.coords.len % 2 = 1
  finite : ∀ position ∈ part.coords.positions, ∀ value ∈ position, value.finiteBits = true
  computed : ∀ i, part.isComputed i = true → i < part.coords.len

/-- A piece of a curve, of its own dimension. -/
structure Piece where
  part : CurvePart
  dim : Dim
  sound : part.Sound dim

/-- A position, and whether it was computed rather than read. -/
abbrev Marked := List F64 × Bool

/-- The positions of a part with what was computed of them. -/
def CurvePart.marked (part : CurvePart) : List Marked :=
  part.coords.positions.mapIdx fun i position => (position, part.isComputed i)

/-- Positions behind others that end where they start. -/
def share (before behind : List Marked) : List Marked :=
  match before.getLast?, behind with
  | some (ending, computed), (_, alsoComputed) :: behind =>
    before.dropLast ++ (ending, computed || alsoComputed) :: behind
  | _, behind => before ++ behind

/-- The positions of a curve, those where one part ends and the next one starts once. -/
def outline (parts : List CurvePart) : List Marked :=
  parts.foldl (fun before part => share before part.marked) []

/-- One piece behind others.  A gap keeps both ends; else one position is left of them, the one that
was read. -/
def joinMarked (ruler : Ruler) (before behind : List Marked) : List Marked :=
  match before.getLast?, behind with
  | some (ending, endComputed), (start, startComputed) :: rest =>
    if ruler.exceeds ending start then before ++ behind
    else
      let kept := if endComputed && !startComputed then start else ending
      before.dropLast ++ (kept, endComputed && startComputed) :: rest
  | _, behind => before ++ behind

/-- The positions that are to come out of the pieces. -/
def joinedPositions (ruler : Ruler) (pieces : List CurvePart) : List Marked :=
  pieces.foldl (fun before piece => joinMarked ruler before piece.marked) []

/-- What joining promises of the parts it gives. -/
structure WellJoined (ruler : Ruler) (pieces parts : List CurvePart) : Prop where
  nonEmpty : ∀ part ∈ parts, part.coords.positions ≠ []
  starts : parts.IsChain fun part next => part.coords.last = next.coords.first
  alternates : parts.IsChain fun part next => part.isCircular ≠ next.isCircular
  odd : ∀ part ∈ parts, part.isCircular = true → part.coords.len % 2 = 1
  computed : ∀ part ∈ parts, ∀ i, part.isComputed i = true → i < part.coords.len
  positions : outline parts = joinedPositions ruler pieces

/-! ## The positions of a part -/

theorem mapIdx_congr {α β : Type} {f g : Nat → α → β} {l : List α}
    (h : ∀ i a, i < l.length → f i a = g i a) : l.mapIdx f = l.mapIdx g := by
  refine List.ext_getElem (by simp) fun i hi _ => ?_
  rw [List.length_mapIdx] at hi
  rw [List.getElem_mapIdx, List.getElem_mapIdx, h _ _ hi]

/-- A position of finite ordinates. -/
def FinitePosition (dim : Dim) (position : List F64) : Prop :=
  position.length = dim.size ∧ ∀ value ∈ position, value.finiteBits = true

theorem FinitePosition.coincide {dim : Dim} {position : List F64} (h : FinitePosition dim position) :
    coincide position position = true := by
  have hordinate : ∀ i < 2, (position.getD i .nan).differenceIsZero (position.getD i .nan) = true := by
    intro i hi
    have hlt : i < position.length := by
      rw [h.1]
      cases dim <;> simp only [Dim.size] <;> omega
    have hfinite := h.2 _ (List.getElem_mem hlt)
    rw [List.getD_eq_getElem?_getD, List.getElem?_eq_getElem hlt]
    simp [F64.differenceIsZero, hfinite]
  rw [Geom.coincide, hordinate 0 (by omega), hordinate 1 (by omega)]
  rfl

namespace CurvePart

theorem marked_append {part : CurvePart} {positions behind : List (List F64)}
    (h : part.coords.positions = positions ++ behind) :
    part.marked = (positions.mapIdx fun i p => (p, part.isComputed i)) ++
      behind.mapIdx fun i p => (p, part.isComputed (i + positions.length)) := by
  rw [marked, h, List.mapIdx_append]

namespace Sound

variable {dim : Dim} {part : CurvePart}

theorem holds (h : part.Sound dim) : part.coords.Holds dim part.coords.positions :=
  .of_flat h.known h.flat

theorem of_holds {positions : List (List F64)} (h : part.coords.Holds dim positions)
    (htwo : 2 ≤ positions.length)
    (hodd : part.isCircular = true → positions.length % 2 = 1)
    (hfinite : ∀ position ∈ positions, FinitePosition dim position)
    (hcomputed : ∀ i, part.isComputed i = true → i < positions.length) : part.Sound dim := by
  refine ⟨h.known, h.flat, ?_, ?_, ?_, ?_⟩
  · rwa [h.len]
  · rwa [h.len]
  · rw [h.positions_eq]
    exact fun p hp => (hfinite p hp).2
  · rwa [h.len]

theorem finite_positions (h : part.Sound dim) : ∀ p ∈ part.coords.positions, FinitePosition dim p :=
  fun p hp => ⟨h.holds.lengths p hp, h.finite p hp⟩

theorem computed_lt (h : part.Sound dim) {i : Nat} (hi : part.isComputed i = true) :
    i < part.coords.positions.length := by
  rw [Coords.positions_length]
  exact h.computed i hi

theorem odd_positions (h : part.Sound dim) (hc : part.isCircular = true) :
    part.coords.positions.length % 2 = 1 := by
  rw [Coords.positions_length]
  exact h.odd hc

theorem replace {other : CurvePart} {positions : List (List F64)} (h : part.Sound dim)
    (hholds : other.coords.Holds dim positions)
    (hlength : positions.length = part.coords.positions.length)
    (hkind : other.isCircular = part.isCircular)
    (hfinite : ∀ position ∈ positions, FinitePosition dim position)
    (hcomputed : ∀ i, other.isComputed i = true → part.isComputed i = true) :
    other.Sound dim := by
  refine .of_holds hholds ?_ (fun hc => ?_) hfinite fun i hi => ?_
  · rw [hlength, Coords.positions_length]
    exact h.two
  · rw [hlength]
    exact h.odd_positions (hkind ▸ hc)
  · rw [hlength]
    exact h.computed_lt (hcomputed i hi)

theorem exists_last (h : part.Sound dim) : ∃ positions last,
    part.coords.positions = positions ++ [last] ∧ positions ≠ [] := by
  have htwo := h.two
  rw [← Coords.positions_length] at htwo
  obtain hnil | ⟨positions, last, heq⟩ := List.eq_nil_or_concat part.coords.positions
  · simp [hnil] at htwo
  · rw [List.concat_eq_append] at heq
    refine ⟨positions, last, heq, ?_⟩
    rintro rfl
    simp [heq] at htwo

theorem exists_first (h : part.Sound dim) : ∃ first positions,
    part.coords.positions = first :: positions ∧ positions ≠ [] := by
  have htwo := h.two
  rw [← Coords.positions_length] at htwo
  cases heq : part.coords.positions with
  | nil => simp [heq] at htwo
  | cons first positions =>
    refine ⟨first, positions, rfl, ?_⟩
    rintro rfl
    simp [heq] at htwo

end Sound

end CurvePart

/-! ## What a join does to the ends -/

section Ends

variable {dim : Dim} {part : CurvePart} {positions : List (List F64)} {first last kept : List F64}

theorem isCircular_setLast (part : CurvePart) (kept : List F64) :
    (setLast part kept).isCircular = part.isCircular := by
  simp [setLast]

theorem isCircular_setFirst (part : CurvePart) (kept : List F64) :
    (setFirst part kept).isCircular = part.isCircular := by
  simp [setFirst]

theorem isComputed_setLast (part : CurvePart) (kept : List F64) (i : Nat) :
    (setLast part kept).isComputed i = (part.isComputed i && i != part.coords.len - 1) := by
  simp [setLast]

theorem isComputed_setFirst (part : CurvePart) (kept : List F64) (i : Nat) :
    (setFirst part kept).isComputed i = (part.isComputed i && i != 0) := by
  simp [setFirst]

theorem positions_setLast (h : part.Sound dim) (hpositions : part.coords.positions = positions ++ [last])
    (hk : FinitePosition dim kept) : (setLast part kept).coords.Holds dim (positions ++ [kept]) := by
  have hholds := h.holds
  rw [hpositions] at hholds
  have hset := holds_setLast hholds kept
  rwa [resize_of_length hk.1] at hset

theorem positions_setFirst (h : part.Sound dim) (hpositions : part.coords.positions = first :: positions)
    (hk : FinitePosition dim kept) : (setFirst part kept).coords.Holds dim (kept :: positions) := by
  have hholds := h.holds
  rw [hpositions] at hholds
  have hset := holds_setFirst hholds kept
  rwa [resize_of_length hk.1] at hset

theorem sound_setLast (h : part.Sound dim) (hk : FinitePosition dim kept) :
    (setLast part kept).Sound dim := by
  obtain ⟨positions, last, hpositions, -⟩ := h.exists_last
  refine h.replace (positions_setLast h hpositions hk) ?_ (isCircular_setLast _ _) (fun p hp => ?_)
    fun i hi => ?_
  · rw [hpositions, List.length_append, List.length_append]
    rfl
  · rcases List.mem_append.mp hp with hp | hp
    · refine h.finite_positions p ?_
      rw [hpositions]
      exact List.mem_append_left _ hp
    · rwa [List.mem_singleton.mp hp]
  · rw [isComputed_setLast, Bool.and_eq_true] at hi
    exact hi.1

theorem sound_setFirst (h : part.Sound dim) (hk : FinitePosition dim kept) :
    (setFirst part kept).Sound dim := by
  obtain ⟨first, positions, hpositions, -⟩ := h.exists_first
  refine h.replace (positions_setFirst h hpositions hk) ?_ (isCircular_setFirst _ _) (fun p hp => ?_)
    fun i hi => ?_
  · rw [hpositions, List.length_cons, List.length_cons]
  · rcases List.mem_cons.mp hp with rfl | hp
    · exact hk
    · refine h.finite_positions p ?_
      rw [hpositions]
      exact List.mem_cons_of_mem _ hp
  · rw [isComputed_setFirst, Bool.and_eq_true] at hi
    exact hi.1

theorem marked_setLast (h : part.Sound dim) (hk : FinitePosition dim kept) :
    (setLast part kept).marked = part.marked.dropLast ++ [(kept, false)] := by
  obtain ⟨positions, last, hpositions, -⟩ := h.exists_last
  have hset := (positions_setLast h hpositions hk).positions_eq
  have hlen : part.coords.len = positions.length + 1 := by
    rw [← Coords.positions_length, hpositions, List.length_append, List.length_singleton]
  rw [CurvePart.marked_append hset, CurvePart.marked_append hpositions]
  simp only [isComputed_setLast, hlen, List.mapIdx_singleton, List.dropLast_concat]
  congr 1
  · refine mapIdx_congr fun i p hi => ?_
    have hne : (i != positions.length) = true := bne_iff_ne.mpr (by omega)
    simp [hne]
  · simp

theorem marked_setFirst (h : part.Sound dim) (hk : FinitePosition dim kept) :
    (setFirst part kept).marked = (kept, false) :: part.marked.tail := by
  obtain ⟨first, positions, hpositions, -⟩ := h.exists_first
  have hset := (positions_setFirst h hpositions hk).positions_eq
  rw [CurvePart.marked, CurvePart.marked, hset, hpositions]
  simp [isComputed_setFirst, List.mapIdx_cons]

end Ends

/-! ## Outlines -/

theorem share_nil (behind : List Marked) : share [] behind = behind := by
  cases behind <;> rfl

theorem share_concat (before : List Marked) (p q : List F64) (a b : Bool) (behind : List Marked) :
    share (before ++ [(p, a)]) ((q, b) :: behind) = before ++ (p, a || b) :: behind := by
  simp [share]

theorem share_append (before : List Marked) {middle : List Marked} (h : middle ≠ [])
    (behind : List Marked) : share before (middle ++ behind) = share before middle ++ behind := by
  obtain ⟨⟨q, b⟩, middle, rfl⟩ := List.exists_cons_of_ne_nil h
  obtain rfl | ⟨before, ⟨p, a⟩, rfl⟩ := List.eq_nil_or_concat before
  · rw [share_nil, share_nil]
  · rw [List.concat_eq_append, List.cons_append, share_concat, share_concat, List.append_assoc,
      List.cons_append]

theorem outline_concat (parts : List CurvePart) (part : CurvePart) :
    outline (parts ++ [part]) = share (outline parts) part.marked := by
  simp [outline]

namespace CurvePart.Sound

variable {dim : Dim} {part : CurvePart}

theorem marked_last (h : part.Sound dim) : ∃ marks ending, marks ≠ [] ∧
    part.marked = marks ++ [(ending, part.isLastComputed)] ∧ part.coords.last = some ending ∧
    FinitePosition dim ending := by
  obtain ⟨positions, last, hpositions, hne⟩ := h.exists_last
  have hlen : part.coords.len = positions.length + 1 := by
    rw [← Coords.positions_length, hpositions, List.length_append, List.length_singleton]
  refine ⟨positions.mapIdx fun i p => (p, part.isComputed i), last, ?_, ?_, ?_, ?_⟩
  · rw [Ne, List.mapIdx_eq_nil_iff]
    exact hne
  · rw [CurvePart.marked_append hpositions]
    simp [isLastComputed, hlen]
  · rw [h.holds.last, hpositions, List.getLast?_concat]
  · refine h.finite_positions last ?_
    rw [hpositions]
    exact List.mem_append_right _ List.mem_cons_self

theorem marked_first (h : part.Sound dim) : ∃ start marks, marks ≠ [] ∧
    part.marked = (start, part.isFirstComputed) :: marks ∧ part.coords.first = some start ∧
    FinitePosition dim start := by
  obtain ⟨first, positions, hpositions, hne⟩ := h.exists_first
  refine ⟨first, positions.mapIdx fun i p => (p, part.isComputed (i + 1)), ?_, ?_, ?_, ?_⟩
  · rw [Ne, List.mapIdx_eq_nil_iff]
    exact hne
  · rw [marked, hpositions, List.mapIdx_cons]
    rfl
  · rw [h.holds.first, hpositions, List.head?_cons]
  · refine h.finite_positions first ?_
    rw [hpositions]
    exact List.mem_cons_self

theorem first_setLast (h : part.Sound dim) {kept : List F64} (hk : FinitePosition dim kept) :
    (setLast part kept).coords.first = part.coords.first := by
  obtain ⟨positions, last, hpositions, hne⟩ := h.exists_last
  rw [(positions_setLast h hpositions hk).first, h.holds.first, hpositions,
    List.head?_append_of_ne_nil _ hne, List.head?_append_of_ne_nil _ hne]

theorem last_setLast (h : part.Sound dim) {kept : List F64} (hk : FinitePosition dim kept) :
    (setLast part kept).coords.last = some kept := by
  obtain ⟨positions, last, hpositions, -⟩ := h.exists_last
  rw [(positions_setLast h hpositions hk).last, List.getLast?_concat]

theorem first_setFirst (h : part.Sound dim) {kept : List F64} (hk : FinitePosition dim kept) :
    (setFirst part kept).coords.first = some kept := by
  obtain ⟨first, positions, hpositions, -⟩ := h.exists_first
  rw [(positions_setFirst h hpositions hk).first, List.head?_cons]

end CurvePart.Sound

/-! ## Merging -/

/-- The parts of a curve whose pieces have one dimension. -/
structure Joined (dim : Dim) (parts : List CurvePart) : Prop where
  sound : ∀ part ∈ parts, part.Sound dim
  starts : parts.IsChain fun part next => part.coords.last = next.coords.first
  alternates : parts.IsChain fun part next => part.isCircular ≠ next.isCircular

namespace Joined

variable {dim : Dim} {before : List CurvePart} {last next : CurvePart}

theorem concat (h : Joined dim (before ++ [last])) (hn : next.Sound dim)
    (hmeet : last.coords.last = next.coords.first) (hkind : last.isCircular ≠ next.isCircular) :
    Joined dim (before ++ [last] ++ [next]) := by
  refine ⟨fun part hpart => ?_, ?_, ?_⟩
  · rcases List.mem_append.mp hpart with hpart | hpart
    · exact h.sound part hpart
    · rwa [List.mem_singleton.mp hpart]
  · rw [List.isChain_append]
    exact ⟨h.starts, List.isChain_singleton _, by simpa using hmeet⟩
  · rw [List.isChain_append]
    exact ⟨h.alternates, List.isChain_singleton _, by simpa using hkind⟩

/-- Another last part that starts where the one before it ends. -/
theorem replaceLast (h : Joined dim (before ++ [last])) (hn : next.Sound dim)
    (hfirst : next.coords.first = last.coords.first) (hkind : next.isCircular = last.isCircular) :
    Joined dim (before ++ [next]) := by
  obtain ⟨hsound, hstarts, halternates⟩ := h
  rw [List.isChain_append] at hstarts halternates
  refine ⟨fun part hpart => ?_, ?_, ?_⟩
  · rcases List.mem_append.mp hpart with hpart | hpart
    · exact hsound part (List.mem_append_left _ hpart)
    · rwa [List.mem_singleton.mp hpart]
  · rw [List.isChain_append]
    refine ⟨hstarts.1, List.isChain_singleton _, fun x hx y hy => ?_⟩
    have hy : y = next := by simpa using hy.symm
    rw [hy, hfirst]
    exact hstarts.2.2 x hx last (by simp)
  · rw [List.isChain_append]
    refine ⟨halternates.1, List.isChain_singleton _, fun x hx y hy => ?_⟩
    have hy : y = next := by simpa using hy.symm
    rw [hy, hkind]
    exact halternates.2.2 x hx last (by simp)

theorem last_sound (h : Joined dim (before ++ [last])) : last.Sound dim :=
  h.sound last (List.mem_append_right _ List.mem_cons_self)

end Joined

theorem mergeOrPush_of_ne (before : List CurvePart) {last piece : CurvePart}
    (h : last.isCircular ≠ piece.isCircular) :
    mergeOrPush (before ++ [last]) piece = before ++ [last] ++ [piece] := by
  unfold mergeOrPush
  rw [List.getLast?_concat]
  cases last <;> cases piece <;> first | exact absurd rfl h | exact ite_self _

/-- What two parts of one kind become. -/
def merged (last piece : CurvePart) : CurvePart :=
  match last, piece with
  | .circular last, .circular arc => .circular {
      coords := last.coords.appendJoined coincide arc.coords
      computed := last.computed ++
        (arc.computed.filter fun i => i > 0).map fun i => i + (last.coords.len - 1) }
  | last, piece => last.withCoords (last.coords.appendJoined coincide piece.coords)

theorem merged_coords (last piece : CurvePart) :
    (merged last piece).coords = last.coords.appendJoined coincide piece.coords := by
  cases last <;> cases piece <;> rfl

theorem isCircular_merged (last piece : CurvePart) :
    (merged last piece).isCircular = last.isCircular := by
  cases last <;> cases piece <;> rfl

theorem isComputed_merged {last piece : CurvePart} (h : last.isCircular = piece.isCircular)
    (i : Nat) : (merged last piece).isComputed i =
      (last.isComputed i || (decide (last.coords.len - 1 < i) &&
        piece.isComputed (i - (last.coords.len - 1)))) := by
  cases last with
  | linear last =>
    cases piece with
    | linear line => simp [merged, CurvePart.isComputed, CurvePart.withCoords]
    | circular arc => cases h
  | circular last =>
    cases piece with
    | linear line => cases h
    | circular arc =>
      have hlen : (CurvePart.circular last).coords.len = last.coords.len := rfl
      rw [Bool.eq_iff_iff, hlen]
      simp only [merged, CurvePart.isComputed, List.contains_eq_mem,
        List.mem_append, List.mem_map, List.mem_filter, decide_eq_true_eq, Bool.or_eq_true,
        Bool.and_eq_true]
      refine or_congr_right ⟨?_, ?_⟩
      · rintro ⟨j, ⟨hj, hpos⟩, rfl⟩
        rw [Nat.add_sub_cancel]
        exact ⟨by omega, hj⟩
      · rintro ⟨hlt, hmem⟩
        exact ⟨_, ⟨hmem, by omega⟩, by omega⟩

theorem mergeOrPush_of_eq (before : List CurvePart) {last piece : CurvePart}
    (hkind : last.isCircular = piece.isCircular) {ending : List F64}
    (hlast : last.coords.last = some ending) (hfirst : piece.coords.first = some ending)
    (hsame : samePosition ending ending = true) :
    mergeOrPush (before ++ [last]) piece = before ++ [merged last piece] := by
  have hshares : sharesStart (before ++ [last]) piece = true := by
    simp [sharesStart, hlast, hfirst, hsame]
  unfold mergeOrPush
  rw [if_pos hshares, List.getLast?_concat, List.dropLast_concat]
  cases last <;> cases piece <;> first | rfl | cases hkind

section Merge

variable {dim : Dim} {last piece : CurvePart} {ending : List F64}

theorem holds_merged (hl : last.Sound dim) (hp : piece.Sound dim)
    (hlast : last.coords.last = some ending) (hfirst : piece.coords.first = some ending) :
    (merged last piece).coords.Holds dim
      (last.coords.positions ++ piece.coords.positions.tail) := by
  have hending : FinitePosition dim ending := by
    obtain ⟨_, last', -, -, heq, hfinite⟩ := hl.marked_last
    rw [hlast] at heq
    rwa [Option.some.inj heq]
  have hoverlap : Coords.overlap coincide last.coords.positions piece.coords.positions = 1 := by
    rw [hl.holds.last] at hlast
    rw [hp.holds.first] at hfirst
    simp [Coords.overlap, hlast, hfirst, hending.coincide]
  have hresize : piece.coords.positions.tail.map (resize dim.size) = piece.coords.positions.tail :=
    Coords.map_resize_eq fun p hmem => hp.holds.lengths p (List.mem_of_mem_tail hmem)
  have happend := hl.holds.appendJoined hp.holds coincide
  rw [merged_coords]
  rwa [hoverlap, List.drop_one, hresize] at happend

theorem sound_merged (hl : last.Sound dim) (hp : piece.Sound dim)
    (hkind : last.isCircular = piece.isCircular)
    (hlast : last.coords.last = some ending) (hfirst : piece.coords.first = some ending) :
    (merged last piece).Sound dim := by
  have hltwo := hl.two
  have hptwo := hp.two
  rw [← Coords.positions_length] at hltwo hptwo
  refine .of_holds (holds_merged hl hp hlast hfirst) ?_ (fun hc => ?_) (fun p hmem => ?_)
    fun i hi => ?_
  · rw [List.length_append]
    omega
  · rw [isCircular_merged] at hc
    have hlodd := hl.odd_positions hc
    have hpodd := hp.odd_positions (hkind ▸ hc)
    rw [List.length_append, List.length_tail]
    omega
  · rcases List.mem_append.mp hmem with hmem | hmem
    · exact hl.finite_positions p hmem
    · exact hp.finite_positions p (List.mem_of_mem_tail hmem)
  · rw [isComputed_merged hkind, Bool.or_eq_true, Bool.and_eq_true] at hi
    rw [List.length_append, List.length_tail]
    rcases hi with hi | ⟨-, hi⟩
    · have hlt := hl.computed_lt hi
      omega
    · have hlt := hp.computed_lt hi
      rw [← Coords.positions_length] at hlt
      omega

theorem marked_merged (hl : last.Sound dim) (hp : piece.Sound dim)
    (hkind : last.isCircular = piece.isCircular)
    (hlast : last.coords.last = some ending) (hfirst : piece.coords.first = some ending) :
    (merged last piece).marked = last.marked ++ piece.marked.tail := by
  obtain ⟨first, rest, hpositions, -⟩ := hp.exists_first
  have htwo := hl.two
  rw [CurvePart.marked_append (holds_merged hl hp hlast hfirst).positions_eq]
  rw [CurvePart.marked, CurvePart.marked, hpositions, List.mapIdx_cons, List.tail_cons,
    List.tail_cons]
  congr 1
  · refine mapIdx_congr fun i p hi => ?_
    rw [Coords.positions_length] at hi
    have hle : ¬ last.coords.len - 1 < i := by omega
    rw [isComputed_merged hkind, decide_eq_false hle]
    simp
  · refine mapIdx_congr fun i p hi => ?_
    have hnot : last.isComputed (i + last.coords.len) = false := by
      rw [Bool.eq_false_iff]
      intro hc
      have hlt := hl.computed _ hc
      omega
    have hlt : last.coords.len - 1 < i + last.coords.len := by omega
    have hindex : i + last.coords.len - (last.coords.len - 1) = i + 1 := by omega
    rw [Coords.positions_length, isComputed_merged hkind, hnot, decide_eq_true hlt, hindex]
    rfl

theorem first_merged (hl : last.Sound dim) (hp : piece.Sound dim)
    (hlast : last.coords.last = some ending) (hfirst : piece.coords.first = some ending) :
    (merged last piece).coords.first = last.coords.first := by
  obtain ⟨first, rest, hpositions, -⟩ := hl.exists_first
  rw [(holds_merged hl hp hlast hfirst).first, hl.holds.first, hpositions]
  rfl

end Merge

/-- A piece that starts where the last part ends comes behind it, merged with it or not. -/
theorem mergeOrPush_joined {dim : Dim} {before : List CurvePart} {last piece : CurvePart}
    {ending : List F64} (h : Joined dim (before ++ [last])) (hp : piece.Sound dim)
    (hlast : last.coords.last = some ending) (hfirst : piece.coords.first = some ending)
    (hmark : last.isCircular = true → piece.isFirstComputed = false) :
    Joined dim (mergeOrPush (before ++ [last]) piece) ∧
      outline (mergeOrPush (before ++ [last]) piece) =
        share (outline (before ++ [last])) piece.marked := by
  have hl := h.last_sound
  by_cases hkind : last.isCircular = piece.isCircular
  · obtain ⟨marks, ending', hne, hmarked, hlast', hfinite⟩ := hl.marked_last
    obtain ⟨start, rest, -, hpmarked, hfirst', -⟩ := hp.marked_first
    obtain rfl : ending' = ending := Option.some.inj (hlast'.symm.trans hlast)
    have hfalse : piece.isFirstComputed = false := by
      cases hc : last.isCircular with
      | true => exact hmark hc
      | false =>
        rw [hc] at hkind
        cases piece with
        | linear line => rfl
        | circular arc => cases hkind
    rw [mergeOrPush_of_eq before hkind hlast hfirst (samePosition_self hfinite.2)]
    constructor
    · exact h.replaceLast (sound_merged hl hp hkind hlast hfirst)
        (first_merged hl hp hlast hfirst) (isCircular_merged _ _)
    · rw [outline_concat, outline_concat, marked_merged hl hp hkind hlast hfirst, hmarked,
        share_append _ hne, hpmarked, share_concat, hfalse, Bool.or_false, List.tail_cons,
        List.append_assoc, share_append _ hne]
      rfl
  · rw [mergeOrPush_of_ne before hkind]
    refine ⟨h.concat hp ?_ hkind, outline_concat _ _⟩
    rw [hlast, hfirst]

/-! ## Bridging a gap -/

section Lines

variable {dim : Dim} {coords : Coords} {positions : List (List F64)}

theorem sound_linear (h : coords.Holds dim positions) (htwo : 2 ≤ positions.length)
    (hfinite : ∀ position ∈ positions, FinitePosition dim position) :
    (CurvePart.linear { coords }).Sound dim :=
  .of_holds h htwo (fun hc => by cases hc) hfinite fun _ hi => by cases hi

theorem marked_linear (h : coords.Holds dim positions) :
    (CurvePart.linear { coords }).marked = positions.map fun position => (position, false) := by
  have hpositions : (CurvePart.linear { coords }).coords.positions = positions := h.positions_eq
  rw [CurvePart.marked, hpositions]
  refine List.ext_getElem (by simp) fun i hi _ => ?_
  simp [CurvePart.isComputed]

end Lines

theorem coincide_of_exceeds {ruler : Ruler} {ending start : List F64}
    (h : ruler.exceeds ending start = true) : coincide ending start = false := by
  cases hc : coincide ending start with
  | false => rfl
  | true => rw [ruler.exact _ _ hc] at h; cases h

/-- The last part and the piece meet after a straight line between them, and nothing is dropped. -/
structure Bridged (dim : Dim) (parts : List CurvePart) (piece : CurvePart)
    (bridged : List CurvePart × CurvePart) : Prop where
  meets : ∃ before last ending, bridged.1 = before ++ [last] ∧
    last.coords.last = some ending ∧ bridged.2.coords.first = some ending ∧
    (last.isCircular = true → bridged.2.isFirstComputed = false)
  joined : Joined dim bridged.1
  sound : bridged.2.Sound dim
  marked : share (outline bridged.1) bridged.2.marked = outline parts ++ piece.marked

section Bridge

variable {dim : Dim} {before : List CurvePart} {piece : CurvePart} {ruler : Ruler}
  {ending start : List F64}

theorem bridged_linear {line : LineString} (h : Joined dim (before ++ [.linear line]))
    (hp : piece.Sound dim) (hfirst : piece.coords.first = some start) :
    Bridged dim (before ++ [.linear line]) piece
      (before ++ [.linear { coords := line.coords.push start }], piece) := by
  have hl := h.last_sound
  obtain ⟨start', rest, -, hpmarked, hfirst', hfinite⟩ := hp.marked_first
  obtain rfl : start' = start := Option.some.inj (hfirst'.symm.trans hfirst)
  have hne : line.coords.positions ≠ [] := by
    obtain ⟨_, _, hcons, -⟩ := hl.exists_first
    exact fun hnil => List.cons_ne_nil _ _ (hcons.symm.trans hnil)
  have hholds : (line.coords.push start').Holds dim (line.coords.positions ++ [start']) := by
    have hpush := hl.holds.push start'
    rwa [resize_of_length hfinite.1] at hpush
  have hline : (CurvePart.linear { coords := line.coords.push start' }).Sound dim := by
    refine sound_linear hholds ?_ fun p hmem => ?_
    · rw [List.length_append, Coords.positions_length]
      exact Nat.le_add_right_of_le hl.two
    · rcases List.mem_append.mp hmem with hmem | hmem
      · exact hl.finite_positions p hmem
      · rwa [List.mem_singleton.mp hmem]
  have hlmarked : (CurvePart.linear line).marked =
      line.coords.positions.map fun position => (position, false) := marked_linear hl.holds
  have hmarked : (CurvePart.linear { coords := line.coords.push start' }).marked =
      (CurvePart.linear line).marked ++ [(start', false)] := by
    rw [marked_linear hholds, hlmarked, List.map_append]
    rfl
  refine ⟨⟨before, _, start', rfl, ?_, hfirst, fun hc => by cases hc⟩, ?_, hp, ?_⟩
  · exact hholds.last.trans List.getLast?_concat
  · refine h.replaceLast hline ?_ rfl
    exact hholds.first.trans ((List.head?_append_of_ne_nil _ hne).trans hl.holds.first.symm)
  · have hnil : (CurvePart.linear line).marked ≠ [] := by
      rw [hlmarked]
      exact fun hmap => hne (List.map_eq_nil_iff.mp hmap)
    rw [outline_concat, outline_concat, hmarked, share_append _ hnil, hpmarked, share_concat]
    simp

theorem bridged_circular_linear {arc : CircularString} {line : LineString}
    (h : Joined dim (before ++ [.circular arc])) (hp : (CurvePart.linear line).Sound dim)
    (hlast : arc.coords.last = some ending) (hfirst : line.coords.first = some start)
    (hgap : ruler.exceeds ending start = true) :
    Bridged dim (before ++ [.circular arc]) (.linear line)
      (before ++ (bridgeGap (.circular arc) (.linear line) ending start).1,
        (bridgeGap (.circular arc) (.linear line) ending start).2) := by
  have hl := h.last_sound
  obtain ⟨marks, ending', hne, hlmarked, hlast', hfinite⟩ := hl.marked_last
  obtain rfl : ending' = ending := Option.some.inj (hlast'.symm.trans hlast)
  have hempty : Coords.Holds dim [] { dim := line.coords.dim, values := [] } := by
    have hknown : line.coords.dim = some dim := hp.known
    rw [hknown]
    exact .nil dim
  have hoverlap : Coords.overlap coincide [ending'] line.coords.positions = 0 := by
    have hhead : line.coords.positions.head? = some start := hp.holds.first.symm.trans hfirst
    simp [Coords.overlap, hhead, coincide_of_exceeds hgap]
  have hresize : line.coords.positions.map (resize dim.size) = line.coords.positions :=
    Coords.map_resize_eq hp.holds.lengths
  have hpush := hempty.push ending'
  rw [resize_of_length hfinite.1, List.nil_append] at hpush
  have hholds := hpush.appendJoined hp.holds coincide
  have hholds' : Coords.Holds dim ([ending'] ++ line.coords.positions)
      ((Coords.push { dim := line.coords.dim, values := [] } ending').appendJoined coincide
        line.coords) := by
    have hpositions : (CurvePart.linear line).coords.positions = line.coords.positions := rfl
    rwa [hpositions, hoverlap, List.drop_zero, hresize] at hholds
  have hpmarked : (CurvePart.linear line).marked =
      line.coords.positions.map fun position => (position, false) := marked_linear hp.holds
  simp only [bridgeGap]
  refine ⟨⟨before, _, ending', rfl, hlast, hholds'.first, fun _ => rfl⟩, h, ?_, ?_⟩
  · refine sound_linear hholds' ?_ fun p hmem => ?_
    · have htwo := hp.two
      rw [← Coords.positions_length] at htwo
      rw [List.length_append]
      exact Nat.le_add_left_of_le htwo
    · rcases List.mem_append.mp hmem with hmem | hmem
      · rwa [List.mem_singleton.mp hmem]
      · exact hp.finite_positions p hmem
  · rw [marked_linear hholds', hpmarked, outline_concat, hlmarked,
      share_append _ hne, List.map_append, List.map_singleton, List.singleton_append, share_concat]
    simp

theorem bridged_circular_circular {arc next : CircularString}
    (h : Joined dim (before ++ [.circular arc])) (hp : (CurvePart.circular next).Sound dim)
    (hlast : arc.coords.last = some ending) (hfirst : next.coords.first = some start) :
    Bridged dim (before ++ [.circular arc]) (.circular next)
      (before ++ (bridgeGap (.circular arc) (.circular next) ending start).1,
        (bridgeGap (.circular arc) (.circular next) ending start).2) := by
  have hl := h.last_sound
  obtain ⟨marks, ending', hne, hlmarked, hlast', hfinite⟩ := hl.marked_last
  obtain rfl : ending' = ending := Option.some.inj (hlast'.symm.trans hlast)
  obtain ⟨start', rest, -, hpmarked, hfirst', hsfinite⟩ := hp.marked_first
  obtain rfl : start' = start := Option.some.inj (hfirst'.symm.trans hfirst)
  have hempty : Coords.Holds dim [] { dim := next.coords.dim, values := [] } := by
    have hknown : next.coords.dim = some dim := hp.known
    rw [hknown]
    exact .nil dim
  have hholds := (hempty.push ending').push start'
  rw [resize_of_length hfinite.1, resize_of_length hsfinite.1] at hholds
  have hbridge : (CurvePart.linear { coords :=
      (Coords.push { dim := next.coords.dim, values := [] } ending').push start' }).Sound dim := by
    refine sound_linear hholds (by simp) fun p hmem => ?_
    have hor : p = ending' ∨ p = start' := by simpa using hmem
    rcases hor with rfl | rfl
    · exact hfinite
    · exact hsfinite
  simp only [bridgeGap]
  rw [List.append_cons before (.circular arc) [.linear _]]
  refine ⟨⟨_, .linear _, start', rfl, hholds.last, hfirst, fun hc => by cases hc⟩, ?_, hp, ?_⟩
  · refine h.concat hbridge ?_ (by simp [CurvePart.isCircular])
    exact hlast.trans hholds.first.symm
  · rw [outline_concat, marked_linear hholds, hpmarked, outline_concat, hlmarked,
      share_append _ hne, List.nil_append, List.map_append, List.map_singleton, List.map_singleton,
      List.singleton_append, share_concat, List.append_cons, share_concat]
    simp

theorem bridgeGap_bridged {last : CurvePart} (h : Joined dim (before ++ [last]))
    (hp : piece.Sound dim) (hlast : last.coords.last = some ending)
    (hfirst : piece.coords.first = some start) (hgap : ruler.exceeds ending start = true) :
    Bridged dim (before ++ [last]) piece
      (before ++ (bridgeGap last piece ending start).1, (bridgeGap last piece ending start).2) := by
  cases last with
  | linear line => exact bridged_linear h hp hfirst
  | circular arc =>
    cases piece with
    | linear line => exact bridged_circular_linear h hp hlast hfirst hgap
    | circular next => exact bridged_circular_circular h hp hlast hfirst

end Bridge

/-! ## Pieces of one dimension -/

/-- As the code joins two ends: it forgets that both were computed. -/
def joinUnmarked (ruler : Ruler) (before behind : List Marked) : List Marked :=
  match before.getLast?, behind with
  | some (ending, endComputed), (start, startComputed) :: rest =>
    if ruler.exceeds ending start then before ++ behind
    else
      let kept := if endComputed && !startComputed then start else ending
      before.dropLast ++ (kept, false) :: rest
  | _, behind => before ++ behind

theorem joinMarked_concat (ruler : Ruler) (before rest : List Marked) (ending start : List F64)
    (a b : Bool) : joinMarked ruler (before ++ [(ending, a)]) ((start, b) :: rest) =
      if ruler.exceeds ending start then before ++ (ending, a) :: (start, b) :: rest
      else before ++ (if a && !b then start else ending, a && b) :: rest := by
  simp [joinMarked]

theorem joinUnmarked_concat (ruler : Ruler) (before rest : List Marked) (ending start : List F64)
    (a b : Bool) : joinUnmarked ruler (before ++ [(ending, a)]) ((start, b) :: rest) =
      if ruler.exceeds ending start then before ++ (ending, a) :: (start, b) :: rest
      else before ++ (if a && !b then start else ending, false) :: rest := by
  simp [joinUnmarked]

section Step

variable {dim : Dim} {ruler : Ruler} {before parts : List CurvePart} {last piece : CurvePart}
  {ending start : List F64}

theorem joinPiece_of_gap (hlast : last.coords.last = some ending)
    (hfirst : piece.coords.first = some start) (hgap : ruler.exceeds ending start = true) :
    joinPiece ruler (before ++ [last]) piece =
      some (mergeOrPush (before ++ (bridgeGap last piece ending start).1)
        (bridgeGap last piece ending start).2, [gapWarning (ruler.distance ending start)]) := by
  simp [joinPiece, hlast, hfirst, hgap]

/-- The position that is left of two ends within the tolerance. -/
def keptEnd (last piece : CurvePart) (ending start : List F64) : List F64 :=
  if last.isLastComputed && !piece.isFirstComputed then start else ending

theorem joinPiece_of_near (before : List CurvePart) (hlast : last.coords.last = some ending)
    (hfirst : piece.coords.first = some start) (hgap : ruler.exceeds ending start = false) :
    ∃ warnings, joinPiece ruler (before ++ [last]) piece =
      some (mergeOrPush (before ++ [setLast last (keptEnd last piece ending start)])
        (setFirst piece (keptEnd last piece ending start)), warnings) := by
  simp [joinPiece, hlast, hfirst, hgap, keptEnd]

theorem isFirstComputed_setFirst (piece : CurvePart) (kept : List F64) :
    (setFirst piece kept).isFirstComputed = false := by
  simp [CurvePart.isFirstComputed, isComputed_setFirst]

/-- One more piece of the same dimension. -/
theorem joinPiece_joined (ruler : Ruler) (h : Joined dim parts) (hp : piece.Sound dim) :
    ∃ next warnings, joinPiece ruler parts piece = some (next, warnings) ∧ Joined dim next ∧
      outline next = joinUnmarked ruler (outline parts) piece.marked := by
  obtain rfl | ⟨before, last, rfl⟩ := List.eq_nil_or_concat parts
  · refine ⟨[piece], [], rfl, ⟨?_, List.isChain_singleton _, List.isChain_singleton _⟩, rfl⟩
    simpa using hp
  rw [List.concat_eq_append] at h ⊢
  have hl := h.last_sound
  obtain ⟨marks, ending, hne, hlmarked, hlast, hefinite⟩ := hl.marked_last
  obtain ⟨start, rest, -, hpmarked, hfirst, hsfinite⟩ := hp.marked_first
  have houtline : outline (before ++ [last]) =
      share (outline before) marks ++ [(ending, last.isLastComputed)] := by
    rw [outline_concat, hlmarked, share_append _ hne]
  cases hgap : ruler.exceeds ending start with
  | true =>
    obtain ⟨⟨before', last', ending', hbridged, hlast', hfirst', hmark⟩, hjoined, hsound, hmarked⟩ :=
      bridgeGap_bridged h hp hlast hfirst hgap
    simp only at hbridged hmarked hjoined
    rw [hbridged] at hjoined hmarked
    obtain ⟨hjoined', houtline'⟩ := mergeOrPush_joined hjoined hsound hlast' hfirst' hmark
    refine ⟨_, _, joinPiece_of_gap hlast hfirst hgap, ?_, ?_⟩
    · rw [hbridged]
      exact hjoined'
    · rw [hbridged, houtline', hmarked, houtline, hpmarked, joinUnmarked_concat, if_pos hgap,
        List.append_assoc]
      rfl
  | false =>
    have hkept : FinitePosition dim (keptEnd last piece ending start) := by
      unfold keptEnd
      split
      · exact hsfinite
      · exact hefinite
    obtain ⟨warnings, hstep⟩ := joinPiece_of_near before hlast hfirst hgap
    have hjoined := h.replaceLast (sound_setLast hl hkept) (hl.first_setLast hkept)
      (isCircular_setLast _ _)
    obtain ⟨hjoined', houtline'⟩ := mergeOrPush_joined hjoined (sound_setFirst hp hkept)
      (hl.last_setLast hkept) (hp.first_setFirst hkept) fun _ => isFirstComputed_setFirst _ _
    refine ⟨_, warnings, hstep, hjoined', ?_⟩
    have hnot : ¬ ruler.exceeds ending start = true := by
      rw [hgap]
      exact Bool.false_ne_true
    rw [houtline', outline_concat, marked_setLast hl hkept, marked_setFirst hp hkept, hlmarked,
      List.dropLast_concat, share_append _ hne, share_concat, houtline, hpmarked,
      joinUnmarked_concat, if_neg hnot]
    rfl

end Step

theorem isEmpty_of_holds {dim : Dim} {positions : List (List F64)} {coords : Coords}
    (h : coords.Holds dim positions) (hne : positions ≠ []) : coords.isEmpty = false := by
  rw [Bool.eq_false_iff]
  intro hempty
  rw [h.flat.isEmpty_iff, h.positions_eq] at hempty
  exact hne hempty

theorem joinPieces_concat (ruler : Ruler) (pieces : List CurvePart) {piece : CurvePart}
    (h : piece.coords.isEmpty = false) : CurveBuilder.joinPieces ruler (pieces ++ [piece]) =
      (CurveBuilder.joinPieces ruler pieces).bind fun (parts, warnings) =>
        (joinPiece ruler parts piece).bind fun (parts, more) => some (parts, warnings ++ more) := by
  unfold CurveBuilder.joinPieces
  simp [List.foldlM_append, h]

end Xeibe.Geom

import Mathlib.Data.Finset.Lattice.Lemmas
import Xeibe.Geom.Axis
import Xeibe.Reproject.Numbers

/-!
# Evidence gathered in any order

What a decision sees of the evidence: where the edges of the boxes are among
the numbers, how many samples there are, which labels.  Merging joins what is
seen, whichever part comes first; so the decision to swap is a function of the
pieces of evidence, not of the order they are merged in.
-/

namespace Xeibe.Geom

open Xeibe.Lib.Text

/-! ## Edges -/

/-- Where a double is among the numbers. -/
def F64.place (x : F64) : Option Int := if x.isNan then none else some x.units

namespace F64

/-- The other one where one is no number, else the one that `p` picks. -/
theorem place_pick {a b : F64} {p : Prop} [Decidable p] {pick : Int → Int → Int}
    (h : a.isNan = false → b.isNan = false →
      (if p then b.units else a.units) = pick a.units b.units) :
    (if a.isNan then b else if b.isNan then a else if p then b else a).place =
      a.place.merge pick b.place := by
  cases ha : a.isNan with
  | true => simp [place, ha]
  | false =>
    cases hb : b.isNan with
    | true => simp [place, ha, hb]
    | false =>
      have hpick := h ha hb
      simp only [Bool.false_eq_true, if_false]
      have hplaces : a.place.merge pick b.place = some (pick a.units b.units) := by
        simp only [place, ha, hb, Bool.false_eq_true, if_false, Option.merge_some_some]
      rw [hplaces, ← hpick]
      split
      · rw [place, hb, if_neg Bool.false_ne_true]
      · rw [place, ha, if_neg Bool.false_ne_true]

theorem place_min (a b : F64) : (a.min b).place = a.place.merge Min.min b.place := by
  refine place_pick fun ha hb => ?_
  have hlt := lt_iff_units hb ha
  split
  · have hunits := hlt.1 ‹_›
    omega
  · have hunits := mt hlt.2 ‹_›
    omega

theorem place_max (a b : F64) : (a.max b).place = a.place.merge Max.max b.place := by
  refine place_pick fun ha hb => ?_
  have hlt := lt_iff_units ha hb
  split
  · have hunits := hlt.1 ‹_›
    omega
  · have hunits := mt hlt.2 ‹_›
    omega

theorem isNan_of_place {a b : F64} (h : a.place = b.place) : a.isNan = b.isNan := by
  unfold place at h
  cases ha : a.isNan <;> cases hb : b.isNan <;> simp_all

/-- Doubles in one place compare alike. -/
theorem le_congr {x y a b : F64} (hx : x.place = y.place) (ha : a.place = b.place) :
    x ≤ a ↔ y ≤ b := by
  have hxnan := isNan_of_place hx
  have hanan := isNan_of_place ha
  constructor
  · intro h
    obtain ⟨hxn, han⟩ := isNan_of_le h
    have hyn : y.isNan = false := hxnan ▸ hxn
    have hbn : b.isNan = false := hanan ▸ han
    simp only [place, hxn, han, hyn, hbn, Bool.false_eq_true, if_false, Option.some.injEq] at hx ha
    have hunits := (le_iff_units hxn han).1 h
    exact (le_iff_units hyn hbn).2 (by omega)
  · intro h
    obtain ⟨hyn, hbn⟩ := isNan_of_le h
    have hxn : x.isNan = false := hxnan ▸ hyn
    have han : a.isNan = false := hanan ▸ hbn
    simp only [place, hxn, han, hyn, hbn, Bool.false_eq_true, if_false, Option.some.injEq] at hx ha
    have hunits := (le_iff_units hyn hbn).1 h
    exact (le_iff_units hxn han).2 (by omega)

end F64

/-! ## What a decision sees -/

/-- The places of the four edges of a box. -/
structure Places where
  minFirst : Option Int
  minSecond : Option Int
  maxFirst : Option Int
  maxSecond : Option Int

def BBox.places (b : BBox) : Places :=
  ⟨b.minFirst.place, b.minSecond.place, b.maxFirst.place, b.maxSecond.place⟩

/-- The places of the edges of two boxes together. -/
def Places.join (a b : Places) : Places where
  minFirst := a.minFirst.merge min b.minFirst
  minSecond := a.minSecond.merge min b.minSecond
  maxFirst := a.maxFirst.merge max b.maxFirst
  maxSecond := a.maxSecond.merge max b.maxSecond

theorem merge_comm {α : Type} (f : α → α → α) [Std.Commutative f] (a b : Option α) :
    a.merge f b = b.merge f a := (Option.commutative_merge f).comm a b

theorem merge_assoc {α : Type} (f : α → α → α) [Std.Associative f] (a b c : Option α) :
    (a.merge f b).merge f c = a.merge f (b.merge f c) := (Option.associative_merge f).assoc a b c

instance : Std.Commutative Places.join where
  comm a b := by
    simp only [Places.join, merge_comm min a.minFirst, merge_comm min a.minSecond,
      merge_comm max a.maxFirst, merge_comm max a.maxSecond]

instance : Std.Associative Places.join where
  assoc a b c := by
    simp only [Places.join, merge_assoc]

/-- What is seen of the evidence. -/
structure Seen where
  sampled : Option Places
  samples : UInt64
  labels : Finset Text
  envelope : Option Places

namespace Seen

/-- What is seen of two pieces of evidence together. -/
def join (a b : Seen) : Seen where
  sampled := a.sampled.merge Places.join b.sampled
  samples := a.samples + b.samples
  labels := a.labels ∪ b.labels
  envelope := a.envelope.merge Places.join b.envelope

/-- Nothing is seen. -/
def nothing : Seen := ⟨none, 0, ∅, none⟩

theorem join_comm (a b : Seen) : a.join b = b.join a := by
  simp only [join, merge_comm Places.join a.sampled, merge_comm Places.join a.envelope,
    UInt64.add_comm a.samples, Finset.union_comm a.labels]

theorem join_assoc (a b c : Seen) : (a.join b).join c = a.join (b.join c) := by
  simp only [join, merge_assoc, UInt64.add_assoc, Finset.union_assoc]

instance : Std.Commutative join := ⟨join_comm⟩

instance : Std.Associative join := ⟨join_assoc⟩

theorem nothing_join (a : Seen) : nothing.join a = a := by
  simp [join, nothing]

end Seen

namespace AxisEvidence

def seen (e : AxisEvidence) : Seen where
  sampled := e.sampledBbox.map BBox.places
  samples := e.samples
  labels := e.axisLabels.toFinset
  envelope := e.envelopeBbox.map BBox.places

theorem places_unionBbox (a b : Option BBox) :
    (unionBbox a b).map BBox.places = (a.map BBox.places).merge Places.join (b.map BBox.places) := by
  cases a with
  | none => cases b <;> rfl
  | some a =>
    cases b with
    | none => rfl
    | some b =>
      simp [unionBbox, BBox.places, Places.join, F64.place_min, F64.place_max]

theorem mem_mergeLabels {seen labels : List Text} {label : Text} :
    label ∈ mergeLabels seen labels ↔ label ∈ seen ∨ label ∈ labels := by
  induction labels generalizing seen with
  | nil => simp [mergeLabels]
  | cons first rest ih =>
    rw [mergeLabels, List.foldl_cons]
    have hrest := @ih (if first ∈ seen then seen else seen ++ [first])
    rw [mergeLabels] at hrest
    rw [hrest]
    split
    · rename_i hmem
      constructor
      · rintro (h | h)
        · exact Or.inl h
        · exact Or.inr (List.mem_cons_of_mem _ h)
      · rintro (h | h)
        · exact Or.inl h
        · rcases List.mem_cons.1 h with rfl | h
          · exact Or.inl hmem
          · exact Or.inr h
    · simp [or_assoc]

theorem seen_merge (a b : AxisEvidence) : (a.merge b).seen = a.seen.join b.seen := by
  have hlabels : (mergeLabels a.axisLabels b.axisLabels).toFinset =
      a.axisLabels.toFinset ∪ b.axisLabels.toFinset := by
    ext label
    simp [mem_mergeLabels]
  simp only [seen, merge, Seen.join, places_unionBbox, hlabels]

end AxisEvidence

/-! ## Merging in any order -/

/-- How the pieces of evidence of a key come together. -/
inductive Merging where
  | nothing
  | piece (evidence : AxisEvidence)
  | merged (first second : Merging)

namespace Merging

/-- The evidence that comes of it. -/
def gather : Merging → AxisEvidence
  | nothing => .empty
  | piece evidence => evidence
  | merged first second => first.gather.merge second.gather

/-- The pieces, in order. -/
def pieces : Merging → List AxisEvidence
  | nothing => []
  | piece evidence => [evidence]
  | merged first second => first.pieces ++ second.pieces

/-- All that is seen of some pieces. -/
def seenOf (pieces : List AxisEvidence) : Seen :=
  (pieces.map AxisEvidence.seen).foldr Seen.join .nothing

theorem seenOf_append (a b : List AxisEvidence) :
    seenOf (a ++ b) = (seenOf a).join (seenOf b) := by
  induction a with
  | nil => exact (Seen.nothing_join _).symm
  | cons first rest ih =>
    calc first.seen.join (seenOf (rest ++ b))
        = first.seen.join ((seenOf rest).join (seenOf b)) := by rw [ih]
      _ = (first.seen.join (seenOf rest)).join (seenOf b) := (Seen.join_assoc _ _ _).symm

theorem seenOf_perm {a b : List AxisEvidence} (h : a.Perm b) : seenOf a = seenOf b :=
  (h.map AxisEvidence.seen).foldr_op_eq

theorem seen_gather (m : Merging) : m.gather.seen = seenOf m.pieces := by
  induction m with
  | nothing => rfl
  | piece evidence =>
    have hnothing := Seen.join_comm evidence.seen .nothing
    rw [Seen.nothing_join] at hnothing
    exact hnothing.symm
  | merged first second ihFirst ihSecond =>
    rw [gather, AxisEvidence.seen_merge, ihFirst, ihSecond, pieces, seenOf_append]

end Merging

/-! ## Deciding by what is seen -/

section

variable {record : Nat → Option CrsInfo} {quoted : Text → String} {d : Decider}
  {e : AxisEvidence}

theorem inRange_congr {lo hi v w : F64} (h : v.place = w.place) :
    inRange lo hi v = inRange lo hi w := by
  have hlow := F64.le_congr (rfl : (lo - slack).place = _) h
  have hhigh := F64.le_congr h (rfl : (hi + slack).place = _)
  unfold inRange
  rw [decide_eq_decide.2 hlow, decide_eq_decide.2 hhigh]

theorem within_congr {a b a' b' lo hi : F64} (ha : a.place = a'.place) (hb : b.place = b'.place) :
    within a b lo hi = within a' b' lo hi := by
  rw [within, within, inRange_congr ha, inRange_congr hb]

namespace Decider

theorem fittingSwap_congr {info : CrsInfo} {area b b' : BBox} (h : b.places = b'.places) :
    fittingSwap info area b = fittingSwap info area b' := by
  have hfirst := congrArg Places.minFirst h
  have hsecond := congrArg Places.minSecond h
  have hfirst' := congrArg Places.maxFirst h
  have hsecond' := congrArg Places.maxSecond h
  simp only [BBox.places] at hfirst hsecond hfirst' hsecond'
  unfold fittingSwap BBox.fits
  rw [within_congr hfirst hfirst', within_congr hsecond hsecond', within_congr hsecond hsecond',
    within_congr hfirst hfirst']

theorem mem_directions {labels : Text} {axis : FirstAxis} :
    (labels, axis) ∈ d.directions ↔
      labels ∈ d.evidence.axisLabels ∧ firstAxisFromLabels labels = some axis ∧ axis ≠ .other := by
  simp only [directions, List.mem_filterMap, Option.map_eq_some_iff, Option.filter_eq_some_iff,
    Prod.mk.injEq]
  constructor
  · rintro ⟨l, hl, a, ⟨ha, hne⟩, rfl, rfl⟩
    exact ⟨hl, ha, by simpa using hne⟩
  · rintro ⟨hl, ha, hne⟩
    exact ⟨labels, hl, axis, ⟨ha, by simpa using hne⟩, rfl, rfl⟩

/-- The labels vote where they name one direction. -/
theorem labelsVote_swap_iff {swap : Bool} :
    (d.labelsVote quoted).1.map (·.swap) = some swap ↔
      ∃ axis, (∃ labels, (labels, axis) ∈ d.directions) ∧
        (∀ p ∈ d.directions, p.2 = axis) ∧ swap = decide (axis = .northOrLat) := by
  unfold labelsVote
  cases hdir : d.directions with
  | nil => simp
  | cons first rest =>
    obtain ⟨labels, axis⟩ := first
    by_cases hany : rest.any fun p => decide (p.2 ≠ axis)
    · have hnone : ¬ ∃ same, (∃ l, (l, same) ∈ (labels, axis) :: rest) ∧
          (∀ p ∈ (labels, axis) :: rest, p.2 = same) ∧ swap = decide (same = .northOrLat) := by
        rintro ⟨same, -, hall, -⟩
        obtain ⟨p, hp, hne⟩ := List.any_eq_true.1 hany
        have hfirst : axis = same := hall (labels, axis) (List.mem_cons_self ..)
        have hsecond : p.2 = same := hall p (List.mem_cons_of_mem _ hp)
        rw [hfirst, hsecond] at hne
        simp at hne
      simp only [hany, if_true]
      constructor
      · nofun
      · exact fun h => absurd h hnone
    · have hall : ∀ p ∈ rest, p.2 = axis := by
        intro p hp
        by_contra hne
        exact hany (List.any_eq_true.2 ⟨p, hp, by simpa using hne⟩)
      rw [Bool.not_eq_true] at hany
      simp only [hany, Bool.false_eq_true, if_false, Option.map_some, Option.some.injEq]
      constructor
      · rintro rfl
        refine ⟨axis, ⟨labels, List.mem_cons_self ..⟩, fun p hp => ?_, rfl⟩
        rcases List.mem_cons.1 hp with rfl | hp
        · rfl
        · exact hall p hp
      · rintro ⟨same, -, hsame, rfl⟩
        have hfirst : axis = same := hsame (labels, axis) (List.mem_cons_self ..)
        rw [hfirst]

/-- The same decision on other evidence. -/
def on (d : Decider) (e : AxisEvidence) : Decider := { d with evidence := e }

variable {e e' : AxisEvidence}

theorem labelsVote_swap_congr (h : e.seen = e'.seen) :
    ((d.on e).labelsVote quoted).1.map (·.swap) = ((d.on e').labelsVote quoted).1.map (·.swap) := by
  have hlabels : e.axisLabels.toFinset = e'.axisLabels.toFinset := congrArg Seen.labels h
  have hmem : ∀ labels, labels ∈ e.axisLabels ↔ labels ∈ e'.axisLabels := by
    intro labels
    rw [← List.mem_toFinset, hlabels, List.mem_toFinset]
  have hdir : ∀ p, p ∈ (d.on e).directions ↔ p ∈ (d.on e').directions := by
    intro p
    rw [mem_directions, mem_directions]
    exact and_congr_left fun _ => hmem p.1
  apply Option.ext
  intro swap
  rw [labelsVote_swap_iff, labelsVote_swap_iff]
  simp only [hdir]

theorem rangeVote_congr (h : e.seen = e'.seen) :
    (d.on e).rangeVote record = (d.on e').rangeVote record := by
  have hsamples : e.samples = e'.samples := congrArg Seen.samples h
  have hbox : e.sampledBbox.map BBox.places = e'.sampledBbox.map BBox.places :=
    congrArg Seen.sampled h
  simp only [rangeVote, on, hsamples]
  cases hb : e.sampledBbox with
  | none =>
    rw [hb] at hbox
    rw [Option.map_eq_none_iff.1 hbox.symm]
    rfl
  | some b =>
    rw [hb] at hbox
    obtain ⟨b', hb', hplaces⟩ := Option.map_eq_some_iff.1 hbox.symm
    rw [hb']
    simp only [Option.bind_eq_bind, Option.bind_some, fittingSwap_congr hplaces]
    rfl

theorem toList_swap (vote : Option Vote) :
    vote.toList.map (·.swap) = (vote.map (·.swap)).toList := by
  cases vote <;> rfl

theorem votes_swap_congr (h : e.seen = e'.seen) :
    ((d.on e).votes record quoted).map (·.swap) = ((d.on e').votes record quoted).map (·.swap) := by
  have hquirk : (d.on e).quirkVote record quoted = (d.on e').quirkVote record quoted := rfl
  have hdialect : (d.on e).dialectVote = (d.on e').dialectVote := rfl
  have hwfs : (d.on e).wfsVote record quoted = (d.on e').wfsVote record quoted := rfl
  simp only [votes, List.map_append, toList_swap, labelsVote_swap_congr h, rangeVote_congr h, hquirk,
    hdialect, hwfs]

theorem fallbackVote_swap (alone : Bool) :
    (d.fallbackVote record quoted alone).swap = (d.fallbackVote record quoted true).swap := by
  unfold fallbackVote
  cases d.heuristic record quoted <;> cases alone <;> rfl

theorem headD_swap (votes : List Vote) (fallback : Vote) :
    (votes.headD fallback).swap = (votes.map (·.swap)).headD fallback.swap := by
  cases votes <;> rfl

theorem auto_swap_congr (h : e.seen = e'.seen) :
    ((d.on e).auto record quoted).swap = ((d.on e').auto record quoted).swap := by
  have hfallback : ∀ alone, ((d.on e).fallbackVote record quoted alone).swap =
      ((d.on e').fallbackVote record quoted true).swap := by
    intro alone
    rw [fallbackVote_swap]
    rfl
  show (((d.on e).votes record quoted).headD _).swap = (((d.on e').votes record quoted).headD _).swap
  rw [headD_swap, headD_swap, votes_swap_congr h, hfallback,
    fallbackVote_swap ((d.on e').votes record quoted).isEmpty]

theorem apply_swap_congr (h : e.seen = e'.seen) (mode : AxisOrderMode) :
    ((d.on e).apply record quoted mode).swap = ((d.on e').apply record quoted mode).swap := by
  induction mode with
  | xy => rfl
  | yx => rfl
  | crs => rfl
  | crsHeuristic => rfl
  | gmlVersion gml2 gml3 ih2 ih3 =>
    unfold apply
    have hkey : ∀ e, (d.on e).key = d.key := fun _ => rfl
    rw [hkey, hkey]
    cases d.key.dialect with
    | gml2 => exact ih2
    | gml3 => exact ih3
  | auto => exact auto_swap_congr h

end Decider

/-- The decision to swap depends on what is seen of the evidence alone. -/
theorem decideAxis_swap_congr {epsgAlias : Text → Option UInt32} {key : AxisKey}
    {e e' : AxisEvidence} {context : AxisContext} {options : AxisOrderOptions}
    (h : e.seen = e'.seen) :
    (decideAxis record quoted epsgAlias key e context options).swap =
      (decideAxis record quoted epsgAlias key e' context options).swap := by
  let d : Decider :=
    { key := key
      srs := key.srsName.map (SrsName.parse epsgAlias)
      evidence := .empty
      context := context
      table := options.crsTable.getD .builtin }
  have hmode := @Decider.apply_swap_congr record quoted d e e' h
  unfold decideAxis
  dsimp only
  split
  · exact hmode _
  · exact hmode _

/-- However the pieces of evidence of a key come together, the decision to swap is the
same. -/
theorem decideAxis_swap_gather (epsgAlias : Text → Option UInt32) (key : AxisKey)
    (context : AxisContext) (options : AxisOrderOptions) {m n : Merging}
    (h : m.pieces.Perm n.pieces) :
    (decideAxis record quoted epsgAlias key m.gather context options).swap =
      (decideAxis record quoted epsgAlias key n.gather context options).swap := by
  apply decideAxis_swap_congr
  rw [m.seen_gather, n.seen_gather, Merging.seenOf_perm h]

end

/-- One sample of a geometry with labels, and one without. -/
def sampleLabelled : AxisEvidence :=
  ⟨some ⟨F64.ofUsize 1, F64.ofUsize 2, F64.ofUsize 3, F64.ofUsize 4⟩, 5, ["lat long".toList], none⟩

def samplePlain : AxisEvidence :=
  ⟨some ⟨F64.ofUsize 2, F64.ofUsize 1, F64.ofUsize 4, F64.ofUsize 3⟩, 7, [], none⟩

theorem decideAxis_swap_sample :
    (decideAxis (fun _ => none) shown (fun _ => none) ⟨0, some "EPSG:2180".toList, .gml3⟩
      (Merging.merged (.piece sampleLabelled) (.piece samplePlain)).gather
      ⟨false, none, none, none, none⟩ ⟨.auto, [], none⟩).swap =
    (decideAxis (fun _ => none) shown (fun _ => none) ⟨0, some "EPSG:2180".toList, .gml3⟩
      (Merging.merged (.piece samplePlain) (.merged .nothing (.piece sampleLabelled))).gather
      ⟨false, none, none, none, none⟩ ⟨.auto, [], none⟩).swap :=
  decideAxis_swap_gather (fun _ => none) _ _ _ (List.Perm.swap samplePlain sampleLabelled [])

end Xeibe.Geom

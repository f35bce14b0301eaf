import Xeibe.Schema.Node

/-!
# Outlines

The outline of a node is what the order and the number of its columns depend on:
its children's names and first positions.  A property of outlines holds of a tree
if it holds at every node.  What a merge makes of an outline depends on the two
outlines only, and on whether the children are sorted again.
-/

namespace Xeibe.Schema

open Lib

abbrev Outline := List (QName × Option Position)

namespace Outline

def Distinct (o : Outline) : Prop := (Keyed.keys o).Nodup

/-- In increasing order of the first positions; what was never seen is last. -/
def InOrder (o : Outline) : Prop := o.Pairwise fun a b => seenKey a.2 ≤ seenKey b.2

instance (o : Outline) : Decidable o.InOrder := inferInstanceAs (Decidable (List.Pairwise _ o))

/-- The first positions with those of a second outline taken into account. -/
def earlier (o other : Outline) : Outline :=
  o.map fun e => (e.1, earlierSeen e.2 (other.lookup e.1).join)

/-- What a second outline adds to the first one. -/
def added (o other : Outline) : Outline := other.filter fun e => decide (e.1 ∉ Keyed.keys o)

/-- The outline of two entries merged one with the other, before they are sorted. -/
def merge (o other : Outline) : Outline := o.earlier other ++ o.added other

end Outline

theorem earlierSeen_none (a : Option Position) : earlierSeen a none = a := by
  cases a <;> rfl

/-- What the entries of a keyed list were first seen at. -/
def outlineOf {α : Type} (seen : α → Option Position) (xs : List (QName × α)) : Outline :=
  xs.map fun e => (e.1, seen e.2)

section

variable {α : Type} (seen : α → Option Position)

@[simp] theorem keys_outlineOf (xs : List (QName × α)) :
    Keyed.keys (outlineOf seen xs) = Keyed.keys xs := by
  simp [Keyed.keys, outlineOf]

@[simp] theorem length_outlineOf (xs : List (QName × α)) :
    (outlineOf seen xs).length = xs.length :=
  List.length_map ..

theorem outlineOf_append (xs ys : List (QName × α)) :
    outlineOf seen (xs ++ ys) = outlineOf seen xs ++ outlineOf seen ys :=
  List.map_append

theorem lookup_outlineOf (name : QName) (xs : List (QName × α)) :
    (outlineOf seen xs).lookup name = (xs.lookup name).map seen := by
  induction xs with
  | nil => rfl
  | cons e xs ih =>
    rw [outlineOf, List.map_cons, List.lookup_cons, List.lookup_cons]
    cases name == e.1 with
    | true => rfl
    | false => exact ih

/-- A merge of keyed lists merges their outlines. -/
theorem outlineOf_mergeWith {f : α → α → α}
    (hf : ∀ x y, seen (f x y) = earlierSeen (seen x) (seen y)) {xs ys : List (QName × α)}
    (hys : (Keyed.keys ys).Nodup) :
    outlineOf seen (Keyed.mergeWith f xs ys) = (outlineOf seen xs).merge (outlineOf seen ys) := by
  rw [Keyed.mergeWith_eq f hys, outlineOf_append, Outline.merge]
  congr 1
  · show List.map _ (List.map _ xs) = List.map _ (List.map _ xs)
    rw [List.map_map, List.map_map]
    refine List.map_congr_left fun e _ => ?_
    show (e.1, _) = (e.1, earlierSeen (seen e.2) ((outlineOf seen ys).lookup e.1).join)
    rw [lookup_outlineOf]
    cases hy : ys.lookup e.1 with
    | none => simp [hy, earlierSeen_none]
    | some y => simp [hy, hf]
  · rw [Outline.added, keys_outlineOf]
    show List.map _ _ = List.filter _ (List.map _ ys)
    rw [List.filter_map]
    rfl

theorem outlineOf_mergeWith_of_subset {f : α → α → α}
    (hf : ∀ x y, seen (f x y) = earlierSeen (seen x) (seen y)) {xs ys : List (QName × α)}
    (hys : (Keyed.keys ys).Nodup) (hsub : ∀ name ∈ Keyed.keys ys, name ∈ Keyed.keys xs) :
    outlineOf seen (Keyed.mergeWith f xs ys) = (outlineOf seen xs).earlier (outlineOf seen ys) := by
  have hadded : (outlineOf seen xs).added (outlineOf seen ys) = [] := by
    refine List.filter_eq_nil_iff.2 fun e he => ?_
    have hkey := Keyed.mem_keys_of_mem he
    rw [keys_outlineOf] at hkey ⊢
    simpa using hsub _ hkey
  rw [outlineOf_mergeWith seen hf hys, Outline.merge, hadded, List.append_nil]

theorem outlineOf_update {name : QName} {known x : α} {xs : List (QName × α)}
    (hnodup : (Keyed.keys xs).Nodup) (hknown : xs.lookup name = some known)
    (hx : seen x = seen known) :
    outlineOf seen (Keyed.update name (fun _ => x) xs) = outlineOf seen xs := by
  show List.map _ (List.map _ xs) = List.map _ xs
  rw [List.map_map]
  refine List.map_congr_left fun e he => ?_
  by_cases hname : e.1 = name
  · have hlookup := Keyed.lookup_of_mem hnodup (show (e.1, e.2) ∈ xs from he)
    rw [hname, hknown] at hlookup
    simp [hname, hx, Option.some.inj hlookup]
  · simp [hname]

/-- The relation the entries are sorted by. -/
def seenLe (a b : QName × α) : Prop := seenKey (seen a.2) ≤ seenKey (seen b.2)

instance : DecidableRel (seenLe seen) := fun _ _ => inferInstanceAs (Decidable (_ ≤ _))

instance : Std.Total (seenLe seen) := ⟨fun _ _ => le_total _ _⟩

instance : IsTrans _ (seenLe seen) := ⟨fun _ _ _ hab hbc => le_trans hab hbc⟩

theorem inOrder_outlineOf {xs : List (QName × α)} :
    (outlineOf seen xs).InOrder ↔ xs.Pairwise (seenLe seen) := by
  rw [Outline.InOrder, outlineOf, List.pairwise_map]
  rfl

theorem inOrder_insertionSort (xs : List (QName × α)) :
    (outlineOf seen (xs.insertionSort (seenLe seen))).InOrder :=
  (inOrder_outlineOf seen).2 (List.pairwise_insertionSort _ _)

end

/-! ## Trees -/

namespace ElementNode

variable {V G : Type}

/-- A child's first position. -/
def seen (node : ElementNode V G) : Option Position := node.facts.firstSeen

def outline (node : ElementNode V G) : Outline := outlineOf seen node.children

/-- A property of outlines at every node. -/
inductive AtEvery (P : Outline → Prop) : ElementNode V G → Prop where
  | mk {facts : NodeFacts V G} {children : List (QName × ElementNode V G)} :
    P (outlineOf seen children) → (∀ e ∈ children, AtEvery P e.2) → AtEvery P (.mk facts children)

theorem atEvery_iff {P : Outline → Prop} {node : ElementNode V G} :
    node.AtEvery P ↔ P node.outline ∧ ∀ e ∈ node.children, e.2.AtEvery P := by
  cases node with
  | mk facts children =>
    constructor
    · rintro (⟨hP, hchildren⟩)
      exact ⟨hP, hchildren⟩
    · rintro ⟨hP, hchildren⟩
      exact .mk hP hchildren

theorem distinct_keys {node : ElementNode V G} (h : node.AtEvery Outline.Distinct) :
    (Keyed.keys node.children).Nodup := by
  have hdistinct := (atEvery_iff.1 h).1
  rwa [Outline.Distinct, outline, keys_outlineOf] at hdistinct

end ElementNode

namespace LayerObservation

variable {V G B : Type}

/-- A layer's first position. -/
def seen (layer : LayerObservation V G B) : Option Position := layer.root.seen

end LayerObservation

namespace DatasetObservation

variable {V G B : Type}

def outline (o : DatasetObservation V G B) : Outline := outlineOf LayerObservation.seen o.layers

/-- A property of outlines, of the layers and at every node. -/
def AtEvery (P : Outline → Prop) (o : DatasetObservation V G B) : Prop :=
  P o.outline ∧ ∀ e ∈ o.layers, e.2.root.AtEvery P

end DatasetObservation

/-! ## Merging -/

section

variable {V G B : Type} [Merge V] [Merge G] [Merge B]

namespace ElementNode

/-- The children are sorted again after the merge. -/
def Resorts (a b : ElementNode V G) : Prop :=
  (∃ name ∈ Keyed.keys b.children, name ∉ Keyed.keys a.children) ∨ seenBefore b.seen a.seen = true

instance (a b : ElementNode V G) : Decidable (a.Resorts b) := inferInstanceAs (Decidable (_ ∨ _))

theorem seen_merge (a b : ElementNode V G) : (a.merge b).seen = earlierSeen a.seen b.seen := by
  cases b with
  | mk facts children => rw [merge]; rfl

theorem truncated_merge (a b : ElementNode V G) :
    (a.merge b).facts.truncated = (a.facts.truncated || b.facts.truncated) := by
  cases b with
  | mk facts children => rw [merge]; rfl

/-- The children of a merged node are those of both, one merged with the other. -/
theorem children_merge (a b : ElementNode V G) :
    (a.merge b).children =
      if a.Resorts b then sortChildren (Keyed.mergeWith merge a.children b.children)
      else Keyed.mergeWith merge a.children b.children := by
  cases b with
  | mk facts children =>
    rw [merge, mergeChildren_eq, Keyed.mergeNoting_eq, children_mk, children_mk]
    refine if_congr ?_ rfl rfl
    rw [Resorts, Bool.or_eq_true, Bool.false_or, List.any_eq_true]
    refine or_congr ?_ Iff.rfl
    constructor
    · rintro ⟨e, he, hnew⟩
      exact ⟨e.1, Keyed.mem_keys_of_mem he, by simpa using hnew⟩
    · rintro ⟨name, hname, hnew⟩
      obtain ⟨child, hchild⟩ := Keyed.mem_keys.1 hname
      exact ⟨(name, child), hchild, by simpa using hnew⟩

theorem perm_children_merge (a b : ElementNode V G) :
    (a.merge b).children.Perm (Keyed.mergeWith merge a.children b.children) := by
  rw [children_merge]
  split
  · exact List.perm_insertionSort _ _
  · exact List.Perm.refl _

theorem mem_children_merge {a b : ElementNode V G} {e : QName × ElementNode V G} :
    e ∈ (a.merge b).children ↔ e ∈ Keyed.mergeWith merge a.children b.children :=
  (perm_children_merge a b).mem_iff

theorem keys_children_merge (a b : ElementNode V G) :
    (Keyed.keys (a.merge b).children).Perm
      (Keyed.keys (Keyed.mergeWith merge a.children b.children)) :=
  (perm_children_merge a b).map _

/-- What holds at every node of two trees, and is kept where they meet, holds at
every node of the merged tree. -/
theorem atEvery_merge {P : Outline → Prop} {R : ElementNode V G → ElementNode V G → Prop}
    (hdistinct : ∀ {a b}, R a b → (Keyed.keys b.children).Nodup)
    (hbelow : ∀ {a b name x y}, R a b → (name, x) ∈ a.children → (name, y) ∈ b.children →
      R x y)
    (hP : ∀ {a b}, R a b → P a.outline → P b.outline → P (a.merge b).outline)
    {a b : ElementNode V G} (hmeets : R a b) (ha : a.AtEvery P) (hb : b.AtEvery P) :
    (a.merge b).AtEvery P := by
  induction b using ElementNode.induct generalizing a with
  | mk facts children ih =>
    rw [atEvery_iff] at ha
    have hb' := atEvery_iff.1 hb
    refine atEvery_iff.2 ⟨hP hmeets ha.1 hb'.1, fun e he => ?_⟩
    obtain ⟨name, z⟩ := e
    rcases Keyed.mem_mergeWith merge (hdistinct hmeets) (mem_children_merge.1 he) with
      ⟨x, y, hx, hy, rfl⟩ | ⟨hx, -⟩ | ⟨-, hy⟩
    · exact ih (name, y) hy (hbelow hmeets hx hy) (ha.2 _ hx) (hb'.2 _ hy)
    · exact ha.2 _ hx
    · exact hb'.2 _ hy

end ElementNode

end

end Xeibe.Schema

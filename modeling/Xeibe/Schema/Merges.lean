import Xeibe.Schema.Scanned

/-!
# Trees of merges

A scan merges the partial observations of its chunks in an order that depends on
its threads: each worker merges the chunks it was given, and the workers'
partials are merged at the end.  Any of these orders is a tree whose leaves are
scans of chunks.
-/

namespace Xeibe.Schema

open Lib

/-- A tree of merges of partial scans. -/
inductive Merges (V G B ε : Type) where
  /-- Without layers: a new observation, or what the sources' headers say. -/
  | headers (o : DatasetObservation V G B) (noLayers : o.layers = [])
  | scan (features : Features ε) (boundedBy : Except ε (Inherited B)) (budget : Option Nat)
  | merge (left right : Merges V G B ε)

namespace Merges

variable {V G B S ε : Type}

/-- The tree and the trees in it. -/
def parts : Merges V G B ε → List (Merges V G B ε)
  | headers o h => [headers o h]
  | scan features boundedBy budget => [scan features boundedBy budget]
  | merge left right => merge left right :: (left.parts ++ right.parts)

theorem self_mem_parts (m : Merges V G B ε) : m ∈ m.parts := by
  cases m with
  | headers o h => exact List.mem_cons_self
  | scan features boundedBy budget => exact List.mem_cons_self
  | merge left right => exact List.mem_cons_self

theorem parts_trans {m t u : Merges V G B ε} (ht : t ∈ m.parts) (hu : u ∈ t.parts) :
    u ∈ m.parts := by
  induction m with
  | headers o h =>
    rw [parts, List.mem_singleton] at ht
    exact ht ▸ hu
  | scan features boundedBy budget =>
    rw [parts, List.mem_singleton] at ht
    exact ht ▸ hu
  | merge left right ihLeft ihRight =>
    rcases List.mem_cons.1 ht with rfl | ht
    · exact hu
    · refine List.mem_cons_of_mem _ (List.mem_append.2 ?_)
      exact (List.mem_append.1 ht).imp ihLeft ihRight

variable [Merge V] [Merge G] [Merge B] (stats : Statistics V G B S ε) (limits : Limits)
  (layers : Option (List QName))

/-- What the merges come to, if no scan fails. -/
def observe : Merges V G B ε → Except ε (DatasetObservation V G B)
  | headers o _ => .ok o
  | scan features boundedBy budget => do
    let (o, _) ← scanChunk stats limits layers features boundedBy budget
    .ok o
  | merge left right => do
    let a ← left.observe
    let b ← right.observe
    .ok (a.merge b)

/-- A property of the observations that merges make, and of the scans'. -/
theorem observe_induct {I : Merges V G B ε → DatasetObservation V G B → Prop}
    (headers : ∀ o h, I (headers o h) o)
    (scan : ∀ features boundedBy budget budget' stopped o,
      scanChunk stats limits layers features boundedBy budget = .ok (o, budget', stopped) →
      I (scan features boundedBy budget) o)
    (merge : ∀ left right a b, left.observe stats limits layers = .ok a →
      right.observe stats limits layers = .ok b → I left a → I right b →
      I (merge left right) (a.merge b))
    {m : Merges V G B ε} {o : DatasetObservation V G B}
    (h : m.observe stats limits layers = .ok o) : I m o := by
  induction m generalizing o with
  | headers o' h' =>
    cases h
    exact headers o' h'
  | scan features boundedBy budget =>
    obtain ⟨⟨o', budget', stopped⟩, hscan, h⟩ := bind_eq_ok.1 h
    cases h
    exact scan features boundedBy budget budget' stopped _ hscan
  | merge left right ihLeft ihRight =>
    obtain ⟨a, ha, h⟩ := bind_eq_ok.1 h
    obtain ⟨b, hb, h⟩ := bind_eq_ok.1 h
    cases h
    exact merge left right a b ha hb (ihLeft ha) (ihRight hb)

end Merges

/-! ## Merging observations -/

section

variable {V G B : Type} [Merge V] [Merge G] [Merge B]

namespace DatasetObservation

/-- The layers are sorted again after the merge. -/
def Inserts (a b : DatasetObservation V G B) : Prop :=
  ∃ name ∈ Keyed.keys b.layers, name ∉ Keyed.keys a.layers

instance (a b : DatasetObservation V G B) : Decidable (a.Inserts b) :=
  inferInstanceAs (Decidable (∃ name ∈ _, _))

theorem layers_merge (a b : DatasetObservation V G B) :
    (a.merge b).layers =
      if a.Inserts b then sortLayers (Keyed.mergeWith LayerObservation.merge a.layers b.layers)
      else Keyed.mergeWith LayerObservation.merge a.layers b.layers := by
  rw [merge, Keyed.mergeNoting_eq]
  refine (layers_foldl ?_ _ _).trans ?_
  · exact fun o entry => layers_notePrefix o entry.1 entry.2
  refine if_congr ?_ rfl rfl
  rw [Inserts, Bool.false_or, List.any_eq_true]
  constructor
  · rintro ⟨e, he, hnew⟩
    exact ⟨e.1, Keyed.mem_keys_of_mem he, by simpa using hnew⟩
  · rintro ⟨name, hname, hnew⟩
    obtain ⟨layer, hlayer⟩ := Keyed.mem_keys.1 hname
    exact ⟨(name, layer), hlayer, by simpa using hnew⟩

theorem perm_layers_merge (a b : DatasetObservation V G B) :
    (a.merge b).layers.Perm (Keyed.mergeWith LayerObservation.merge a.layers b.layers) := by
  rw [layers_merge]
  split
  · exact List.perm_insertionSort _ _
  · exact List.Perm.refl _

/-- What holds of the outlines of two observations, and is kept where they meet,
holds of the merged one's. -/
theorem atEvery_merge {P : Outline → Prop} {R : ElementNode V G → ElementNode V G → Prop}
    (hdistinct : ∀ {a b}, R a b → (Keyed.keys b.children).Nodup)
    (hbelow : ∀ {a b name x y}, R a b → (name, x) ∈ a.children → (name, y) ∈ b.children →
      R x y)
    (hP : ∀ {a b}, R a b → P a.outline → P b.outline → P (a.merge b).outline)
    {a b : DatasetObservation V G B} (hlayers : (Keyed.keys b.layers).Nodup)
    (hmeets : ∀ name x y, (name, x) ∈ a.layers → (name, y) ∈ b.layers → R x.root y.root)
    (houtline : P (a.merge b).outline) (ha : a.AtEvery P) (hb : b.AtEvery P) :
    (a.merge b).AtEvery P := by
  refine ⟨houtline, fun e he => ?_⟩
  obtain ⟨name, z⟩ := e
  rcases Keyed.mem_mergeWith _ hlayers ((perm_layers_merge a b).mem_iff.1 he) with
    ⟨x, y, hx, hy, rfl⟩ | ⟨hx, -⟩ | ⟨-, hy⟩
  · exact ElementNode.atEvery_merge hdistinct hbelow hP (hmeets name x y hx hy) (ha.2 _ hx)
      (hb.2 _ hy)
  · exact ha.2 _ hx
  · exact hb.2 _ hy

end DatasetObservation

/-! ## Distinct names -/

theorem distinct_outline_merge (a b : ElementNode V G)
    (ha : a.outline.Distinct) (hb : b.outline.Distinct) : (a.merge b).outline.Distinct := by
  rw [Outline.Distinct, ElementNode.outline, keys_outlineOf] at *
  exact (ElementNode.keys_children_merge a b).nodup_iff.2 (Keyed.nodup_mergeWith _ ha hb)

variable {S ε : Type} {stats : Statistics V G B S ε} {limits : Limits}
  {layers : Option (List QName)} {m : Merges V G B ε} {o : DatasetObservation V G B}

/-- The names are distinct, of the layers and of the children of every node. -/
theorem Merges.distinct (h : m.observe stats limits layers = .ok o) :
    o.AtEvery Outline.Distinct := by
  refine Merges.observe_induct stats limits layers (I := fun _ o => o.AtEvery Outline.Distinct)
    (fun o hnone => ?_) (fun features boundedBy budget budget' stopped o hscan => ?_)
    (fun left right a b _ _ ha hb => ?_) h
  · rw [DatasetObservation.AtEvery, DatasetObservation.outline, hnone]
    exact ⟨List.nodup_nil, fun e he => absurd he List.not_mem_nil⟩
  · have hscanned := scanChunk_spec hscan
    refine ⟨?_, fun e he => (hscanned.roots e he).atEvery fun hkept => hkept.distinct⟩
    rw [Outline.Distinct, DatasetObservation.outline, keys_outlineOf]
    exact hscanned.distinct
  · have hkeys := ha.1
    have hkeys' := hb.1
    rw [Outline.Distinct, DatasetObservation.outline, keys_outlineOf] at hkeys hkeys'
    have houtline : (a.merge b).outline.Distinct := by
      rw [Outline.Distinct, DatasetObservation.outline, keys_outlineOf]
      exact ((DatasetObservation.perm_layers_merge a b).map _).nodup_iff.2
        (Keyed.nodup_mergeWith _ hkeys hkeys')
    refine DatasetObservation.atEvery_merge
      (R := fun a b => a.AtEvery Outline.Distinct ∧ b.AtEvery Outline.Distinct)
      ?_ ?_ ?_ hkeys' ?_ houtline ha hb
    · exact fun hmeets => ElementNode.distinct_keys hmeets.2
    · exact fun hmeets hx hy =>
        ⟨(ElementNode.atEvery_iff.1 hmeets.1).2 _ hx, (ElementNode.atEvery_iff.1 hmeets.2).2 _ hy⟩
    · exact fun _ => distinct_outline_merge _ _
    · exact fun name x y hx hy => ⟨ha.2 _ hx, hb.2 _ hy⟩

end

end Xeibe.Schema

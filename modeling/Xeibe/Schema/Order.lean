import Xeibe.Schema.Merges

/-!
# The order of the columns

The children of a node are meant to be in the order of their first appearance,
whatever the order of the merges.  They are sorted again where a merge inserts a
child or brings in a node that was seen before; the layers only where one is
inserted.  A merge that does neither can still lower the first position of an
entry that is there.  Where it leaves the order is a condition on the two
observations (`Keeps`), and the observations of a tree of merges are all in order
exactly if each merge meets it.
-/

namespace Xeibe.Schema

open Lib

section

variable {V G B S ε : Type}

namespace ElementNode

/-- The children are sorted again, or the earlier of both nodes' positions are in
order as the children stand; and so for the children both nodes have. -/
inductive Keeps : ElementNode V G → ElementNode V G → Prop where
  | mk {a b : ElementNode V G} :
    (a.Resorts b ∨ (a.outline.earlier b.outline).InOrder) →
    (∀ name x y, (name, x) ∈ a.children → (name, y) ∈ b.children → Keeps x y) → Keeps a b

variable {a b : ElementNode V G}

theorem Keeps.here (h : a.Keeps b) : a.Resorts b ∨ (a.outline.earlier b.outline).InOrder := by
  cases h with
  | mk hhere _ => exact hhere

theorem Keeps.child (h : a.Keeps b) {name : QName} {x y : ElementNode V G}
    (hx : (name, x) ∈ a.children) (hy : (name, y) ∈ b.children) : x.Keeps y := by
  cases h with
  | mk _ hbelow => exact hbelow name x y hx hy

variable [Merge V] [Merge G]

theorem inOrder_merge_iff (hb : (Keyed.keys b.children).Nodup) :
    (a.merge b).outline.InOrder ↔ a.Resorts b ∨ (a.outline.earlier b.outline).InOrder := by
  by_cases h : a.Resorts b
  · rw [outline, children_merge, if_pos h]
    exact iff_of_true (inOrder_insertionSort seen _) (.inl h)
  · have hsub : ∀ name ∈ Keyed.keys b.children, name ∈ Keyed.keys a.children := by
      intro name hname
      by_contra hnew
      exact h (.inl ⟨name, hname, hnew⟩)
    rw [outline, children_merge, if_neg h, outlineOf_mergeWith_of_subset seen seen_merge hb hsub]
    exact (or_iff_right h).symm

/-- A merge of two trees in order is in order exactly if it meets the condition. -/
theorem inOrder_iff_keeps (hb : b.AtEvery Outline.Distinct) (haOrder : a.AtEvery Outline.InOrder)
    (hbOrder : b.AtEvery Outline.InOrder) :
    (a.merge b).AtEvery Outline.InOrder ↔ a.Keeps b := by
  constructor
  · intro h
    clear haOrder hbOrder
    induction b using ElementNode.induct generalizing a with
    | mk facts children ih =>
      have hdistinct := distinct_keys hb
      rw [atEvery_iff] at h
      refine .mk ((inOrder_merge_iff hdistinct).1 h.1) fun name x y hx hy => ?_
      have hmem := Keyed.mem_mergeWith_of_mem merge hdistinct hx hy
      exact ih (name, y) hy ((atEvery_iff.1 hb).2 _ hy) (h.2 _ (mem_children_merge.2 hmem))
  · intro h
    refine atEvery_merge (R := fun a b => a.Keeps b ∧ b.AtEvery Outline.Distinct) ?_ ?_ ?_ ⟨h, hb⟩
      haOrder hbOrder
    · exact fun hmeets => distinct_keys hmeets.2
    · exact fun hmeets hx hy => ⟨hmeets.1.child hx hy, (atEvery_iff.1 hmeets.2).2 _ hy⟩
    · exact fun hmeets _ _ => (inOrder_merge_iff (distinct_keys hmeets.2)).2 hmeets.1.here

end ElementNode

namespace DatasetObservation

/-- The layers are sorted again, or the earlier of both observations' positions are
in order as the layers stand; and so for the layers both observations have. -/
def Keeps (a b : DatasetObservation V G B) : Prop :=
  (a.Inserts b ∨ (a.outline.earlier b.outline).InOrder) ∧
    ∀ name x y, (name, x) ∈ a.layers → (name, y) ∈ b.layers → x.root.Keeps y.root

variable [Merge V] [Merge G] [Merge B]

theorem inOrder_merge_iff {a b : DatasetObservation V G B} (hb : (Keyed.keys b.layers).Nodup) :
    (a.merge b).outline.InOrder ↔ a.Inserts b ∨ (a.outline.earlier b.outline).InOrder := by
  by_cases h : a.Inserts b
  · rw [outline, layers_merge, if_pos h]
    exact iff_of_true (inOrder_insertionSort LayerObservation.seen _) (.inl h)
  · have hsub : ∀ name ∈ Keyed.keys b.layers, name ∈ Keyed.keys a.layers := by
      intro name hname
      by_contra hnew
      exact h ⟨name, hname, hnew⟩
    have hseen : ∀ x y : LayerObservation V G B,
        (x.merge y).seen = earlierSeen x.seen y.seen := fun x y =>
      ElementNode.seen_merge x.root y.root
    rw [outline, layers_merge, if_neg h,
      outlineOf_mergeWith_of_subset LayerObservation.seen hseen hb hsub]
    exact (or_iff_right h).symm

theorem inOrder_iff_keeps {a b : DatasetObservation V G B} (hb : b.AtEvery Outline.Distinct)
    (haOrder : a.AtEvery Outline.InOrder) (hbOrder : b.AtEvery Outline.InOrder) :
    (a.merge b).AtEvery Outline.InOrder ↔ a.Keeps b := by
  have hkeys : (Keyed.keys b.layers).Nodup := by
    have hdistinct := hb.1
    rwa [Outline.Distinct, outline, keys_outlineOf] at hdistinct
  have hroots : ∀ {name x y}, (name, x) ∈ a.layers → (name, y) ∈ b.layers →
      ((x.root.merge y.root).AtEvery Outline.InOrder ↔ x.root.Keeps y.root) := fun hx hy =>
    ElementNode.inOrder_iff_keeps (hb.2 _ hy) (haOrder.2 _ hx) (hbOrder.2 _ hy)
  constructor
  · intro h
    refine ⟨(inOrder_merge_iff hkeys).1 h.1, fun name x y hx hy => (hroots hx hy).1 ?_⟩
    have hmem := Keyed.mem_mergeWith_of_mem LayerObservation.merge hkeys hx hy
    exact h.2 _ ((perm_layers_merge a b).mem_iff.2 hmem)
  · intro h
    refine ⟨(inOrder_merge_iff hkeys).2 h.1, fun e he => ?_⟩
    obtain ⟨name, z⟩ := e
    rcases Keyed.mem_mergeWith _ hkeys ((perm_layers_merge a b).mem_iff.1 he) with
      ⟨x, y, hx, hy, rfl⟩ | ⟨hx, -⟩ | ⟨-, hy⟩
    · exact (hroots hx hy).2 (h.2 name x y hx hy)
    · exact haOrder.2 _ hx
    · exact hbOrder.2 _ hy

end DatasetObservation

namespace Merges

variable [Merge V] [Merge G] [Merge B] (stats : Statistics V G B S ε) (limits : Limits) (layers : Option (List QName))
  (m : Merges V G B ε)

/-- Every observation on the way is in order. -/
def InOrder : Prop :=
  ∀ t ∈ m.parts, ∀ o, t.observe stats limits layers = .ok o → o.AtEvery Outline.InOrder

/-- Every merge leaves the order. -/
def Keeps : Prop :=
  ∀ left right, merge left right ∈ m.parts → ∀ a b,
    left.observe stats limits layers = .ok a → right.observe stats limits layers = .ok b →
      a.Keeps b

/-- The layers, and the children of every node, are in the order of their first
positions in every observation of a tree of merges, exactly if each of the merges
either sorts them again or finds them in the order of the earlier positions. -/
theorem order_survives_iff : m.InOrder stats limits layers ↔ m.Keeps stats limits layers := by
  constructor
  · intro h left right hmem a b ha hb
    have hleft : left ∈ m.parts := parts_trans hmem (List.mem_cons_of_mem _
      (List.mem_append_left _ left.self_mem_parts))
    have hright : right ∈ m.parts := parts_trans hmem (List.mem_cons_of_mem _
      (List.mem_append_right _ right.self_mem_parts))
    refine (DatasetObservation.inOrder_iff_keeps (distinct hb) (h left hleft a ha)
      (h right hright b hb)).1 (h _ hmem _ ?_)
    rw [observe, ha, hb]
    rfl
  · intro h t ht o ho
    have hparts : ∀ left right, merge left right ∈ t.parts → merge left right ∈ m.parts :=
      fun left right hmem => parts_trans ht hmem
    clear ht
    induction t generalizing o with
    | headers o' hnone =>
      cases ho
      rw [DatasetObservation.AtEvery, DatasetObservation.outline, hnone]
      exact ⟨List.Pairwise.nil, fun e he => absurd he List.not_mem_nil⟩
    | scan features boundedBy budget =>
      obtain ⟨⟨o', budget', stopped⟩, hscan, ho⟩ := bind_eq_ok.1 ho
      cases ho
      have hscanned := scanChunk_spec hscan
      exact ⟨hscanned.ascending.2,
        fun e he => (hscanned.roots e he).atEvery fun hkept => hkept.ascending.2⟩
    | merge left right ihLeft ihRight =>
      obtain ⟨a, ha, ho⟩ := bind_eq_ok.1 ho
      obtain ⟨b, hb, ho⟩ := bind_eq_ok.1 ho
      cases ho
      have haOrder := ihLeft a ha fun l r hmem => hparts l r (List.mem_cons_of_mem _
        (List.mem_append_left _ hmem))
      have hbOrder := ihRight b hb fun l r hmem => hparts l r (List.mem_cons_of_mem _
        (List.mem_append_right _ hmem))
      exact (DatasetObservation.inOrder_iff_keeps (distinct hb) haOrder hbOrder).2
        (h left right (hparts left right List.mem_cons_self) a b ha hb)

end Merges

end

/-! A dataset of three chunks: layers `F`, then `G` and `F`, then `H`, `G` and `F`.
The worker that was given the first and the third chunk knows all names, at later
positions than the second chunk's. -/

instance : Merge Unit := ⟨fun _ _ => ()⟩

/-- Values and geometries are not looked at. -/
def plain : Statistics Unit Unit Unit Unit Unit where
  withCapacity _ := ()
  observe _ _ := ()
  geometryDefault := ()
  observeGeometry _ _ _ := ()
  observeParts _ _ _ := ()
  isGml33Geometry _ := false
  sniff _ _ _ _ := .ok ()
  isEnvelope _ := false
  srsName _ := none
  srsDimension _ := none
  firstPosition _ := none

def Limits.default : Limits where
  maxDepth := 16
  maxChildren := 512
  distinctValues := 64

/-- An element without attributes, its start tag ending at an offset. -/
def elementAt (name : UInt8) (offset : Nat) (inner rest : Body Unit) : Body Unit :=
  .element (.ok {
    name := ⟨none, [name]⟩
    declarations := []
    attrs := []
    location := { source := 0, byteOffset := offset, featureSeq := none, gmlId := none } })
    inner rest

def chunkOf (body : Body Unit) (ascending : body.offsets.Pairwise (· ≤ ·)) :
    Merges Unit Unit Unit Unit :=
  .scan { source := 0, firstFeatureSeq := 0, namespaces := .new, body, ascending } (.ok {}) none

theorem ascending₁ :
    (elementAt 0x46 10 (elementAt 0x61 20 .done .done) .done).offsets.Pairwise (· ≤ ·) := by
  decide

/-- `<F><a/></F>`. -/
def chunk₁ : Merges Unit Unit Unit Unit :=
  chunkOf (elementAt 0x46 10 (elementAt 0x61 20 .done .done) .done) ascending₁

/-- `<G/><F><b/></F>`. -/
def chunk₂ : Merges Unit Unit Unit Unit :=
  chunkOf (elementAt 0x47 30 .done
    (elementAt 0x46 40 (elementAt 0x62 50 .done .done) .done)) (by decide)

/-- `<H/><G/><F><c/><b/></F>`. -/
def chunk₃ : Merges Unit Unit Unit Unit :=
  chunkOf (elementAt 0x48 60 .done (elementAt 0x47 70 .done
    (elementAt 0x46 80 (elementAt 0x63 90 .done (elementAt 0x62 100 .done .done)) .done)))
    (by decide)

/-- The layer `G` ends up behind `H`, and in the layer `F` the child `b` behind `c`,
though each comes first in the input. -/
theorem tangled_out_of_order :
    ∃ o, (Merges.merge (.merge chunk₁ chunk₃) chunk₂).observe plain .default none = .ok o ∧
      ¬ o.outline.InOrder ∧ ∃ e ∈ o.layers, ¬ e.2.root.outline.InOrder := by
  have h : (match (Merges.merge (.merge chunk₁ chunk₃) chunk₂).observe plain .default none with
      | .ok o => !decide o.outline.InOrder && o.layers.any fun e => !decide e.2.root.outline.InOrder
      | .error _ => false) = true := by decide +kernel
  split at h
  · rename_i o ho
    rw [Bool.and_eq_true, List.any_eq_true] at h
    obtain ⟨hlayers, e, he, hchildren⟩ := h
    exact ⟨o, ho, by simpa using hlayers, e, he, by simpa using hchildren⟩
  · exact absurd h Bool.false_ne_true

end Xeibe.Schema

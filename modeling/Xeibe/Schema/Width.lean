import Xeibe.Schema.Order
import Mathlib.Data.Finset.Card

/-!
# The width limit

A scan gives a node no more children than the limit and marks it where it met
more.  A merge unites the children of two nodes and counts neither.  A tree of
merges keeps the limit exactly if the names of the two nodes together never
exceed it (`Fits`); then a node that met more names than the limit is marked,
in whatever chunks they were.
-/

namespace Xeibe.Schema

open Lib

section

variable {V G B S ε : Type}

/-- An outline of no more entries than the limit. -/
def Outline.Narrow (maxChildren : Nat) (o : Outline) : Prop := o.length ≤ maxChildren

namespace ElementNode

variable (maxChildren : Nat)

/-- The names both nodes have together, here and below, are no more than the limit. -/
inductive Fits : ElementNode V G → ElementNode V G → Prop where
  | mk {a b : ElementNode V G} :
    (Keyed.keys a.children ++
      (Keyed.keys b.children).filter (· ∉ Keyed.keys a.children)).length ≤ maxChildren →
    (∀ name x y, (name, x) ∈ a.children → (name, y) ∈ b.children → Fits x y) → Fits a b

variable {maxChildren} {a b : ElementNode V G}

theorem Fits.here (h : Fits maxChildren a b) :
    (Keyed.keys a.children ++
      (Keyed.keys b.children).filter (· ∉ Keyed.keys a.children)).length ≤ maxChildren := by
  cases h with
  | mk hhere _ => exact hhere

theorem Fits.child (h : Fits maxChildren a b) {name : QName} {x y : ElementNode V G}
    (hx : (name, x) ∈ a.children) (hy : (name, y) ∈ b.children) : Fits maxChildren x y := by
  cases h with
  | mk _ hbelow => exact hbelow name x y hx hy

theorem Fits.length_le (h : Fits maxChildren a b) {names : List QName} (hnodup : names.Nodup)
    (hnames : ∀ name ∈ names, name ∈ Keyed.keys a.children ∨ name ∈ Keyed.keys b.children) :
    names.length ≤ maxChildren := by
  have hsub : names ⊆ Keyed.keys a.children ++
      (Keyed.keys b.children).filter (· ∉ Keyed.keys a.children) := by
    intro name hname
    rw [List.mem_append, List.mem_filter, decide_eq_true_eq]
    by_cases hknown : name ∈ Keyed.keys a.children
    · exact .inl hknown
    · exact .inr ⟨(hnames name hname).resolve_left hknown, hknown⟩
  exact (hnodup.subperm hsub).length_le.trans h.here

end ElementNode

/-! ## What a node stands for -/

section

variable (stats : Statistics V G B S ε) (limits : Limits)

/-- A node that stands for the items met at its place, in whatever chunks: each has
its child, unless the node is full or too deep, and says so. -/
inductive Covers : Nat → List (QName × Body ε) → ElementNode V G → Prop where
  | mk {depth : Nat} {items : List (QName × Body ε)} {node : ElementNode V G} :
    (limits.maxDepth ≤ depth → node.children = []) →
    (∀ e ∈ items, e.1 ∈ Keyed.keys node.children ∨ (node.facts.truncated = true ∧
      (limits.maxDepth ≤ depth ∨ node.children.length = limits.maxChildren))) →
    (∀ e ∈ node.children, Covers (depth + 1) (itemsOf stats true e.1 items) e.2) →
    Covers depth items node

variable {stats limits} {depth : Nat} {items items' : List (QName × Body ε)}
  {a b : ElementNode V G}

theorem covers_iff :
    Covers stats limits depth items a ↔
      (limits.maxDepth ≤ depth → a.children = []) ∧
      (∀ e ∈ items, e.1 ∈ Keyed.keys a.children ∨ (a.facts.truncated = true ∧
        (limits.maxDepth ≤ depth ∨ a.children.length = limits.maxChildren))) ∧
      ∀ e ∈ a.children, Covers stats limits (depth + 1) (itemsOf stats true e.1 items) e.2 :=
  ⟨fun ⟨hdeep, hcovered, hbelow⟩ => ⟨hdeep, hcovered, hbelow⟩,
    fun ⟨hdeep, hcovered, hbelow⟩ => .mk hdeep hcovered hbelow⟩

theorem Scanned.covers {source : Nat} {later : List Nat}
    (h : Scanned stats limits source later depth items a) : Covers stats limits depth items a := by
  induction h with
  | mk hkept _ ih =>
    refine .mk (fun hdeep => List.map_eq_nil_iff.1 (hkept.deep hdeep)) (fun e he => ?_) ih
    have hcovered := hkept.covered e he
    rwa [keys_outlineOf, length_outlineOf] at hcovered

theorem itemsOf_of_fits {name : QName} (hcovers : Covers stats limits depth items a)
    (hname : name ∉ Keyed.keys a.children)
    (hroom : ¬ limits.maxDepth ≤ depth) (hfits : a.children.length < limits.maxChildren) :
    itemsOf stats true name items = [] := by
  refine itemsOf_of_notMem stats true fun e he heq => ?_
  rcases (covers_iff.1 hcovers).2.1 e he with hmem | ⟨-, hdeep | hfull⟩
  · exact hname (heq ▸ hmem)
  · exact hroom hdeep
  · omega

/-- The items at a path. -/
def itemsAt (stats : Statistics V G B S ε) :
    List (QName × Body ε) → List QName → List (QName × Body ε)
  | items, [] => items
  | items, name :: path => itemsAt stats (itemsOf stats true name items) path

end

/-! ## Places -/

namespace ElementNode

/-- The node at a path of names. -/
def nodeAt : ElementNode V G → List QName → Option (ElementNode V G)
  | node, [] => some node
  | node, name :: path => (node.children.lookup name).bind fun child => child.nodeAt path

variable {root node : ElementNode V G} {P : Outline → Prop}

theorem nodeAt_cons {name : QName} {path : List QName}
    (h : root.nodeAt (name :: path) = some node) :
    ∃ child, (name, child) ∈ root.children ∧ child.nodeAt path = some node := by
  obtain ⟨child, hchild, h⟩ := Option.bind_eq_some_iff.1 h
  exact ⟨child, Keyed.mem_of_lookup hchild, h⟩

theorem AtEvery.nodeAt (h : root.AtEvery P) {path : List QName}
    (hnode : root.nodeAt path = some node) : node.AtEvery P := by
  induction path generalizing root with
  | nil =>
    cases hnode
    exact h
  | cons name path ih =>
    obtain ⟨child, hchild, hnode⟩ := nodeAt_cons hnode
    exact ih ((atEvery_iff.1 h).2 _ hchild) hnode

theorem atEvery_of_nodeAt (hroot : root.AtEvery Outline.Distinct)
    (h : ∀ path node, root.nodeAt path = some node → P node.outline) : root.AtEvery P := by
  induction root using ElementNode.induct with
  | mk facts children ih =>
    have hdistinct := distinct_keys hroot
    refine atEvery_iff.2 ⟨h [] _ rfl, fun e he => ?_⟩
    refine ih e he ((atEvery_iff.1 hroot).2 e he) fun path node hnode => ?_
    refine h (e.1 :: path) node ?_
    rw [ElementNode.nodeAt, Keyed.lookup_of_mem hdistinct he, Option.bind_some]
    exact hnode

end ElementNode

theorem Covers.nodeAt {stats : Statistics V G B S ε} {limits : Limits} {depth : Nat}
    {items : List (QName × Body ε)} {root node : ElementNode V G} {path : List QName}
    (h : Covers stats limits depth items root) (hnode : root.nodeAt path = some node) :
    ∃ depth', Covers stats limits depth' (itemsAt stats items path) node := by
  induction path generalizing root depth items with
  | nil =>
    cases hnode
    exact ⟨depth, h⟩
  | cons name path ih =>
    obtain ⟨child, hchild, hnode⟩ := ElementNode.nodeAt_cons hnode
    exact ih ((covers_iff.1 h).2.2 _ hchild) hnode

namespace DatasetObservation

/-- The node at a path below a layer's feature element. -/
def nodeAt (o : DatasetObservation V G B) (layer : QName) (path : List QName) :
    Option (ElementNode V G) :=
  (o.layers.lookup layer).bind fun layer => layer.root.nodeAt path

/-- The nodes that two observations share fit. -/
def Fits (maxChildren : Nat) (a b : DatasetObservation V G B) : Prop :=
  ∀ name x y, (name, x) ∈ a.layers → (name, y) ∈ b.layers →
    ElementNode.Fits maxChildren x.root y.root

end DatasetObservation

/-- An observation that stands for the features taken, in whatever chunks. -/
def CoversLayers (stats : Statistics V G B S ε) (limits : Limits)
    (taken : List (QName × Body ε)) (o : DatasetObservation V G B) : Prop :=
  (∀ e ∈ taken, e.1 ∈ Keyed.keys o.layers) ∧
    ∀ e ∈ o.layers, Covers stats limits 0 (itemsOf stats false e.1 taken) e.2.root

theorem DatasetObservation.distinct_keys {o : DatasetObservation V G B}
    (h : o.AtEvery Outline.Distinct) : (Keyed.keys o.layers).Nodup := by
  have hdistinct := h.1
  rwa [Outline.Distinct, DatasetObservation.outline, keys_outlineOf] at hdistinct

theorem itemsOf_of_lacks {stats : Statistics V G B S ε} {limits : Limits} {name : QName}
    {taken : List (QName × Body ε)} {o : DatasetObservation V G B}
    (h : CoversLayers stats limits taken o) (hname : name ∉ Keyed.keys o.layers) :
    itemsOf stats false name taken = [] :=
  itemsOf_of_notMem stats false fun e he heq => hname (heq ▸ h.1 e he)

/-- A node that covers what it met is marked if that is more than the limit. -/
theorem truncated_of_covers {stats : Statistics V G B S ε} {limits : Limits} {depth : Nat}
    {items : List (QName × Body ε)} {node : ElementNode V G}
    (hcovers : Covers stats limits depth items node)
    (hwidth : node.children.length ≤ limits.maxChildren)
    (hmet : limits.maxChildren < (items.map Prod.fst).toFinset.card) :
    node.facts.truncated = true := by
  by_contra hnot
  have hsub : (items.map Prod.fst).toFinset ⊆ (Keyed.keys node.children).toFinset := by
    intro name hname
    obtain ⟨e, he, rfl⟩ := List.mem_map.1 (List.mem_toFinset.1 hname)
    refine List.mem_toFinset.2 ?_
    rcases (covers_iff.1 hcovers).2.1 e he with hmem | ⟨htruncated, -⟩
    · exact hmem
    · exact absurd htruncated hnot
  have hcard := (Finset.card_le_card hsub).trans (List.toFinset_card_le _)
  rw [Keyed.length_keys] at hcard
  omega

/-! ## Merging -/

variable [Merge V] [Merge G]

namespace ElementNode

variable {maxChildren : Nat} {a b : ElementNode V G}

theorem length_children_merge (hb : (Keyed.keys b.children).Nodup) :
    (a.merge b).children.length =
      (Keyed.keys a.children ++
        (Keyed.keys b.children).filter (· ∉ Keyed.keys a.children)).length := by
  rw [(perm_children_merge a b).length_eq, Keyed.length_mergeWith merge hb, List.length_append,
    Keyed.length_keys]

theorem fits_of_narrow (hb : b.AtEvery Outline.Distinct)
    (h : (a.merge b).AtEvery (Outline.Narrow maxChildren)) : Fits maxChildren a b := by
  induction b using ElementNode.induct generalizing a with
  | mk facts children ih =>
    have hdistinct := distinct_keys hb
    rw [atEvery_iff] at h
    refine .mk ?_ fun name x y hx hy => ?_
    · rw [← length_children_merge hdistinct, ← length_outlineOf seen]
      exact h.1
    · have hmem := Keyed.mem_mergeWith_of_mem merge hdistinct hx hy
      exact ih (name, y) hy ((atEvery_iff.1 hb).2 _ hy) (h.2 _ (mem_children_merge.2 hmem))

theorem narrow_merge (hfits : Fits maxChildren a b) (hb : b.AtEvery Outline.Distinct)
    (haNarrow : a.AtEvery (Outline.Narrow maxChildren))
    (hbNarrow : b.AtEvery (Outline.Narrow maxChildren)) :
    (a.merge b).AtEvery (Outline.Narrow maxChildren) := by
  refine atEvery_merge (R := fun a b => Fits maxChildren a b ∧ b.AtEvery Outline.Distinct)
    ?_ ?_ ?_ ⟨hfits, hb⟩ haNarrow hbNarrow
  · exact fun hmeets => distinct_keys hmeets.2
  · exact fun hmeets hx hy => ⟨hmeets.1.child hx hy, (atEvery_iff.1 hmeets.2).2 _ hy⟩
  · intro a b hmeets _ _
    rw [Outline.Narrow, outline, length_outlineOf,
      length_children_merge (distinct_keys hmeets.2)]
    exact hmeets.1.here

end ElementNode

/-- Two nodes that fit cover together what they covered. -/
theorem Covers.merge {stats : Statistics V G B S ε} {limits : Limits} {depth : Nat}
    {items items' : List (QName × Body ε)} {a b : ElementNode V G}
    (ha : Covers stats limits depth items a)
    (hb : Covers stats limits depth items' b) (hfits : ElementNode.Fits limits.maxChildren a b)
    (haDistinct : a.AtEvery Outline.Distinct) (hbDistinct : b.AtEvery Outline.Distinct) :
    Covers stats limits depth (items ++ items') (a.merge b) := by
  induction b using ElementNode.induct generalizing a depth items items' with
  | mk facts children ih =>
    have haKeys := ElementNode.distinct_keys haDistinct
    have hbKeys := ElementNode.distinct_keys hbDistinct
    have ha' := covers_iff.1 ha
    have hb' := covers_iff.1 hb
    have hlength : (a.merge (.mk facts children)).children.length ≤ limits.maxChildren := by
      rw [ElementNode.length_children_merge hbKeys]
      exact hfits.here
    have hkeys : ∀ {name}, name ∈ Keyed.keys (a.merge (.mk facts children)).children ↔
        name ∈ Keyed.keys a.children ∨ name ∈ Keyed.keys children := fun {name} =>
      (ElementNode.keys_children_merge a (.mk facts children)).mem_iff.trans
        (Keyed.mem_keys_mergeWith ElementNode.merge hbKeys)
    have hfull : ∀ {names : List QName}, names.Nodup →
        (∀ name ∈ names, name ∈ Keyed.keys a.children ∨ name ∈ Keyed.keys children) →
        names.length ≤ (a.merge (.mk facts children)).children.length := by
      intro names hnodup hnames
      rw [← Keyed.length_keys]
      exact (hnodup.subperm fun name hname => hkeys.2 (hnames name hname)).length_le
    have hmore : (a.merge (.mk facts children)).facts.truncated =
        (a.facts.truncated || facts.truncated) := ElementNode.truncated_merge a _
    refine .mk (fun hdeep => ?_) (fun e he => ?_) fun e he => ?_
    · rw [← List.length_eq_zero_iff, ElementNode.length_children_merge hbKeys, ha'.1 hdeep,
        hb'.1 hdeep]
      rfl
    · rw [hkeys, hmore]
      rcases List.mem_append.1 he with he | he
      · rcases ha'.2.1 e he with hmem | ⟨htruncated, hlimit⟩
        · exact .inl (.inl hmem)
        · refine .inr ⟨by rw [htruncated, Bool.true_or], hlimit.imp_right fun hmax => ?_⟩
          have := hfull haKeys fun name hname => .inl hname
          rw [Keyed.length_keys] at this
          omega
      · rcases hb'.2.1 e he with hmem | ⟨htruncated, hlimit⟩
        · exact .inl (.inr hmem)
        · have htruncated : facts.truncated = true := htruncated
          refine .inr ⟨by rw [htruncated, Bool.or_true], hlimit.imp_right fun hmax => ?_⟩
          have := hfull hbKeys fun name hname => .inr hname
          rw [Keyed.length_keys] at this
          omega
    · obtain ⟨name, z⟩ := e
      rw [itemsOf_append]
      rcases Keyed.mem_mergeWith ElementNode.merge hbKeys (ElementNode.mem_children_merge.1 he) with
        ⟨x, y, hx, hy, rfl⟩ | ⟨hx, hnew⟩ | ⟨hnew, hy⟩
      · exact ih (name, y) hy (ha'.2.2 _ hx) (hb'.2.2 _ hy) (hfits.child hx hy)
          ((ElementNode.atEvery_iff.1 haDistinct).2 _ hx)
          ((ElementNode.atEvery_iff.1 hbDistinct).2 _ hy)
      · have hroom : ¬ limits.maxDepth ≤ depth := by
          intro hdeep
          rw [ha'.1 hdeep] at hx
          exact List.not_mem_nil hx
        have hnames : ∀ name' ∈ name :: Keyed.keys children,
            name' ∈ Keyed.keys a.children ∨ name' ∈ Keyed.keys children := by
          intro name' hname'
          rcases List.mem_cons.1 hname' with rfl | hname'
          · exact .inl (Keyed.mem_keys_of_mem hx)
          · exact .inr hname'
        have hless := hfits.length_le (List.nodup_cons.2 ⟨hnew, hbKeys⟩) hnames
        rw [List.length_cons, Keyed.length_keys] at hless
        rw [itemsOf_of_fits hb hnew hroom hless, List.append_nil]
        exact ha'.2.2 _ hx
      · have hroom : ¬ limits.maxDepth ≤ depth := by
          intro hdeep
          rw [hb'.1 hdeep] at hy
          exact List.not_mem_nil hy
        have hnames : ∀ name' ∈ name :: Keyed.keys a.children,
            name' ∈ Keyed.keys a.children ∨ name' ∈ Keyed.keys children := by
          intro name' hname'
          rcases List.mem_cons.1 hname' with rfl | hname'
          · exact .inr (Keyed.mem_keys_of_mem hy)
          · exact .inl hname'
        have hless := hfits.length_le (List.nodup_cons.2 ⟨hnew, haKeys⟩) hnames
        rw [List.length_cons, Keyed.length_keys] at hless
        rw [itemsOf_of_fits ha hnew hroom hless, List.nil_append]
        exact hb'.2.2 _ hy

theorem CoversLayers.merge [Merge B] {stats : Statistics V G B S ε} {limits : Limits}
    {taken taken' : List (QName × Body ε)} {a b : DatasetObservation V G B}
    (ha : CoversLayers stats limits taken a) (hb : CoversLayers stats limits taken' b)
    (hfits : a.Fits limits.maxChildren b) (haDistinct : a.AtEvery Outline.Distinct)
    (hbDistinct : b.AtEvery Outline.Distinct) :
    CoversLayers stats limits (taken ++ taken') (a.merge b) := by
  have hkeys := DatasetObservation.distinct_keys hbDistinct
  have hperm := DatasetObservation.perm_layers_merge a b
  refine ⟨fun e he => ?_, fun e he => ?_⟩
  · refine (hperm.map Prod.fst).mem_iff.2 ((Keyed.mem_keys_mergeWith _ hkeys).2 ?_)
    exact (List.mem_append.1 he).imp (ha.1 e) (hb.1 e)
  · obtain ⟨name, z⟩ := e
    rw [itemsOf_append]
    rcases Keyed.mem_mergeWith _ hkeys (hperm.mem_iff.1 he) with
      ⟨x, y, hx, hy, rfl⟩ | ⟨hx, hnew⟩ | ⟨hnew, hy⟩
    · exact (ha.2 _ hx).merge (hb.2 _ hy) (hfits name x y hx hy) (haDistinct.2 _ hx)
        (hbDistinct.2 _ hy)
    · rw [itemsOf_of_lacks hb hnew, List.append_nil]
      exact ha.2 _ hx
    · rw [itemsOf_of_lacks ha hnew, List.nil_append]
      exact hb.2 _ hy

/-! ## Runs -/

namespace Merges

variable [Merge B] (stats : Statistics V G B S ε) (limits : Limits) (layers : Option (List QName))

/-- The features the scans take. -/
def taken : Merges V G B ε → List (QName × Body ε)
  | headers _ _ => []
  | scan features _ budget => features.body.taken layers budget
  | merge left right => left.taken ++ right.taken

/-- The names of the children met at a place, in the whole input. -/
def met (m : Merges V G B ε) (layer : QName) (path : List QName) : Finset QName :=
  ((itemsAt stats (itemsOf stats false layer (m.taken layers)) path).map Prod.fst).toFinset

/-- Every observation on the way keeps the limit at every node, and marks a node that
met more. -/
def InWidth (m : Merges V G B ε) : Prop :=
  ∀ t ∈ m.parts, ∀ o, t.observe stats limits layers = .ok o →
    ∀ layer path node, o.nodeAt layer path = some node →
      node.children.length ≤ limits.maxChildren ∧
        (limits.maxChildren < (t.met stats layers layer path).card →
          node.facts.truncated = true)

/-- Every merge unites nodes that fit. -/
def Fits (m : Merges V G B ε) : Prop :=
  ∀ left right, merge left right ∈ m.parts → ∀ a b,
    left.observe stats limits layers = .ok a → right.observe stats limits layers = .ok b →
      a.Fits limits.maxChildren b

variable {stats limits layers} {m : Merges V G B ε}

theorem covers_of_fits {o : DatasetObservation V G B} (hfits : m.Fits stats limits layers)
    (h : m.observe stats limits layers = .ok o) :
    CoversLayers stats limits (m.taken layers) o ∧
      ∀ e ∈ o.layers, e.2.root.AtEvery (Outline.Narrow limits.maxChildren) := by
  induction m generalizing o with
  | headers o' hnone =>
    cases h
    rw [CoversLayers, hnone]
    exact ⟨⟨fun e he => absurd he List.not_mem_nil, fun e he => absurd he List.not_mem_nil⟩,
      fun e he => absurd he List.not_mem_nil⟩
  | scan features boundedBy budget =>
    obtain ⟨⟨o', budget', stopped⟩, hscan, h⟩ := bind_eq_ok.1 h
    cases h
    have hscanned := scanChunk_spec hscan
    exact ⟨⟨hscanned.covered, fun e he => (hscanned.roots e he).covers⟩,
      fun e he => (hscanned.roots e he).atEvery fun hkept => hkept.width⟩
  | merge left right ihLeft ihRight =>
    obtain ⟨a, ha, h⟩ := bind_eq_ok.1 h
    obtain ⟨b, hb, h⟩ := bind_eq_ok.1 h
    cases h
    obtain ⟨haCovers, haNarrow⟩ := ihLeft (fun l r hmem => hfits l r
      (List.mem_cons_of_mem _ (List.mem_append_left _ hmem))) ha
    obtain ⟨hbCovers, hbNarrow⟩ := ihRight (fun l r hmem => hfits l r
      (List.mem_cons_of_mem _ (List.mem_append_right _ hmem))) hb
    have hhere := hfits left right List.mem_cons_self a b ha hb
    refine ⟨haCovers.merge hbCovers hhere (distinct ha) (distinct hb), fun e he => ?_⟩
    obtain ⟨name, z⟩ := e
    have hkeys := DatasetObservation.distinct_keys (distinct hb)
    rcases Keyed.mem_mergeWith _ hkeys
        ((DatasetObservation.perm_layers_merge a b).mem_iff.1 he) with
      ⟨x, y, hx, hy, rfl⟩ | ⟨hx, -⟩ | ⟨-, hy⟩
    · exact ElementNode.narrow_merge (hhere name x y hx hy) ((distinct hb).2 _ hy)
        (haNarrow _ hx) (hbNarrow _ hy)
    · exact haNarrow _ hx
    · exact hbNarrow _ hy

theorem fits_part {t : Merges V G B ε} (hfits : m.Fits stats limits layers) (ht : t ∈ m.parts) :
    t.Fits stats limits layers :=
  fun left right hmem => hfits left right (parts_trans ht hmem)

/-- The width limit holds in every observation of a tree of merges, and every node that
met more names is marked, exactly if each merge unites nodes whose names together
are no more than the limit. -/
theorem inWidth_iff_fits (m : Merges V G B ε) :
    m.InWidth stats limits layers ↔ m.Fits stats limits layers := by
  constructor
  · intro h left right hmem a b ha hb name x y hx hy
    have hobserve : (merge left right).observe stats limits layers = .ok (a.merge b) := by
      rw [observe, ha, hb]
      rfl
    have hdistinct := distinct hobserve
    have hkeys := DatasetObservation.distinct_keys (distinct hb)
    have hlayer : (name, x.merge y) ∈ (a.merge b).layers :=
      (DatasetObservation.perm_layers_merge a b).mem_iff.2
        (Keyed.mem_mergeWith_of_mem LayerObservation.merge hkeys hx hy)
    refine ElementNode.fits_of_narrow ((distinct hb).2 _ hy) ?_
    refine ElementNode.atEvery_of_nodeAt (hdistinct.2 _ hlayer) fun path node hnode => ?_
    rw [Outline.Narrow, ElementNode.outline, length_outlineOf]
    refine (h _ hmem _ hobserve name path node ?_).1
    rw [DatasetObservation.nodeAt,
      Keyed.lookup_of_mem (DatasetObservation.distinct_keys hdistinct) hlayer, Option.bind_some]
    exact hnode
  · intro h t ht o ho layer path node hnode
    obtain ⟨hcovers, hnarrow⟩ := covers_of_fits (fits_part h ht) ho
    obtain ⟨root, hroot, hnode⟩ := Option.bind_eq_some_iff.1 hnode
    have hlayer := Keyed.mem_of_lookup hroot
    have hwidth := (ElementNode.atEvery_iff.1 ((hnarrow _ hlayer).nodeAt hnode)).1
    rw [Outline.Narrow, ElementNode.outline, length_outlineOf] at hwidth
    obtain ⟨depth, hnodeCovers⟩ := (hcovers.2 _ hlayer).nodeAt hnode
    exact ⟨hwidth, truncated_of_covers hnodeCovers hwidth⟩

end Merges

end

/-- Under a limit of one, the two chunks' features have a child each, and the merged
node has both. -/
theorem united_too_wide :
    ∃ o node, (Merges.merge chunk₁ chunk₂).observe plain { Limits.default with maxChildren := 1 }
        none = .ok o ∧
      o.nodeAt ⟨none, [0x46]⟩ [] = some node ∧ 1 < node.children.length ∧
      1 < ((Merges.merge chunk₁ chunk₂).met plain none ⟨none, [0x46]⟩ []).card ∧
      node.facts.truncated = false := by
  have h : (match (Merges.merge chunk₁ chunk₂).observe plain
        { Limits.default with maxChildren := 1 } none with
      | .ok o =>
        match o.nodeAt ⟨none, [0x46]⟩ [] with
        | some node => decide (1 < node.children.length) && !node.facts.truncated
        | none => false
      | .error _ => false) = true := by decide +kernel
  split at h
  · rename_i o ho
    split at h
    · rename_i node hnode
      rw [Bool.and_eq_true, decide_eq_true_eq] at h
      exact ⟨o, node, ho, hnode, h.1, by decide +kernel, by simpa using h.2⟩
    · exact absurd h Bool.false_ne_true
  · exact absurd h Bool.false_ne_true

end Xeibe.Schema

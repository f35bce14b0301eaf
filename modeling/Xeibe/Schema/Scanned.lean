import Xeibe.Schema.Scan
import Xeibe.Schema.Outline
import Xeibe.Lib.Checked

/-!
# What a scan leaves

A node that scans have filled stands for the elements they met at its place, its
items.  Its children have distinct names, are no more than the limit and in the
order of their first positions, and an item without a child is one the depth or
the width limit kept out, which the node says.  Each child stands for what its
elements among the items hold.
-/

namespace Xeibe.Schema

open Lib

section

variable {V G B S ε : Type} (stats : Statistics V G B S ε)

/-! ## Items -/

/-- The elements directly in a body, as far as they can be children: a geometry
element `inside` a property is none. -/
def Body.items (inside : Bool) : Body ε → List (QName × Body ε)
  | .done => []
  | .text _ rest => rest.items inside
  | .unreadable _ rest => rest.items inside
  | .broken _ => []
  | .element (.error _) _ rest => rest.items inside
  | .element (.ok tag) inner rest =>
    if inside && isGeometryElement stats tag.name then rest.items inside
    else (tag.name, inner) :: rest.items inside

/-- What the items of a name hold. -/
def itemsOf (inside : Bool) (name : QName) (items : List (QName × Body ε)) :
    List (QName × Body ε) :=
  (items.filter fun e => e.1 == name).flatMap fun e => e.2.items stats inside

theorem itemsOf_append (inside : Bool) (name : QName) (items more : List (QName × Body ε)) :
    itemsOf stats inside name (items ++ more) =
      itemsOf stats inside name items ++ itemsOf stats inside name more := by
  rw [itemsOf, List.filter_append, List.flatMap_append]
  rfl

theorem itemsOf_singleton (inside : Bool) (name : QName) (inner : Body ε) :
    itemsOf stats inside name [(name, inner)] = inner.items stats inside := by
  simp [itemsOf]

theorem itemsOf_of_notMem (inside : Bool) {name : QName} {items : List (QName × Body ε)}
    (h : ∀ e ∈ items, e.1 ≠ name) : itemsOf stats inside name items = [] := by
  rw [itemsOf, List.filter_eq_nil_iff.2 fun e he => by simpa using h e he]
  rfl

theorem itemsOf_snoc_of_ne (inside : Bool) {name name' : QName} (h : name ≠ name')
    (items : List (QName × Body ε)) (inner : Body ε) :
    itemsOf stats inside name (items ++ [(name', inner)]) = itemsOf stats inside name items := by
  have hnil : itemsOf stats inside name [(name', inner)] = [] :=
    itemsOf_of_notMem stats inside fun e he => List.mem_singleton.1 he ▸ h.symm
  rw [itemsOf_append, hnil, List.append_nil]

end

/-! ## The invariant -/

/-- First positions in one source, in the order of the entries, none after those that
are `later`. -/
def Ascending (source : Nat) (later : List Nat) (o : Outline) : Prop :=
  (∀ e ∈ o, ∃ offset, e.2 = some (toLex (source, offset)) ∧ ∀ x ∈ later, offset ≤ x) ∧
    o.InOrder

theorem Ascending.mono {source : Nat} {later later' : List Nat} {o : Outline}
    (h : Ascending source later o) (hsub : ∀ x ∈ later', x ∈ later) :
    Ascending source later' o :=
  ⟨fun e he => (h.1 e he).imp fun _ ho => ⟨ho.1, fun x hx => ho.2 x (hsub x hx)⟩, h.2⟩

/-- An entry that is first seen now goes to the end. -/
theorem Ascending.snoc {source offset : Nat} {later : List Nat} {o : Outline}
    (h : Ascending source (offset :: later) o) (hlater : ∀ x ∈ later, offset ≤ x) (name : QName) :
    Ascending source later (o ++ [(name, some (toLex (source, offset)))]) := by
  refine ⟨fun e he => ?_, ?_⟩
  · rcases List.mem_append.1 he with he | he
    · obtain ⟨first, hfirst, hle⟩ := h.1 e he
      exact ⟨first, hfirst, fun x hx => hle x (List.mem_cons_of_mem _ hx)⟩
    · rw [List.mem_singleton.1 he]
      exact ⟨offset, rfl, hlater⟩
  · refine List.pairwise_append.2 ⟨h.2, List.pairwise_singleton _ _, fun e he e' he' => ?_⟩
    obtain ⟨first, hfirst, hle⟩ := h.1 e he
    have hfirst' : first ≤ offset := hle offset List.mem_cons_self
    rw [List.mem_singleton.1 he', hfirst]
    show toLex ((0 : Nat), _) ≤ toLex ((0 : Nat), _)
    refine Prod.Lex.toLex_le_toLex.2 (.inr ⟨rfl, ?_⟩)
    exact Prod.Lex.toLex_le_toLex.2 (.inr ⟨rfl, hfirst'⟩)

/-- An entry that was scanned further takes its place, one that is first seen now goes
to the end. -/
theorem Ascending.put {α : Type} {seen : α → Option Position} {source offset : Nat}
    {later : List Nat} {xs : List (QName × α)} {name : QName} {x : α}
    (hnodup : (Keyed.keys xs).Nodup)
    (h : Ascending source (offset :: later) (outlineOf seen xs)) (hlater : ∀ y ∈ later, offset ≤ y)
    (hx : seen x = ((xs.lookup name).map seen).getD (some (toLex (source, offset)))) :
    Ascending source later (outlineOf seen (Keyed.put name x xs)) := by
  by_cases hknown : name ∈ Keyed.keys xs
  · obtain ⟨known, hlookup⟩ := Option.isSome_iff_exists.1 (Keyed.lookup_isSome.2 hknown)
    rw [hlookup, Option.map_some, Option.getD_some] at hx
    rw [Keyed.put_of_mem hknown, outlineOf_update seen hnodup hlookup hx]
    exact h.mono fun y hy => List.mem_cons_of_mem _ hy
  · rw [Keyed.lookup_eq_none.2 hknown, Option.map_none, Option.getD_none] at hx
    rw [Keyed.put_of_notMem hknown, outlineOf_append]
    show Ascending source later (_ ++ [(name, seen x)])
    rw [hx]
    exact h.snoc hlater name

section

variable {V G B S ε : Type} (stats : Statistics V G B S ε) (limits : Limits) (source : Nat)
  (later : List Nat)

/-- What holds of a node's outline after a scan of its items. -/
structure Kept (depth : Nat) (items : List (QName × Body ε)) (truncated : Bool) (o : Outline) :
    Prop where
  distinct : o.Distinct
  width : o.length ≤ limits.maxChildren
  deep : limits.maxDepth ≤ depth → o = []
  ascending : Ascending source later o
  covered : ∀ e ∈ items, e.1 ∈ Keyed.keys o ∨
    (truncated = true ∧ (limits.maxDepth ≤ depth ∨ o.length = limits.maxChildren))

/-- A tree after a scan of the items of its root. -/
inductive Scanned : Nat → List (QName × Body ε) → ElementNode V G → Prop where
  | mk {depth : Nat} {items : List (QName × Body ε)} {facts : NodeFacts V G}
    {children : List (QName × ElementNode V G)} :
    Kept limits source later depth items facts.truncated (outlineOf ElementNode.seen children) →
    (∀ e ∈ children, Scanned (depth + 1) (itemsOf stats true e.1 items) e.2) →
    Scanned depth items (.mk facts children)

variable {stats limits source later} {depth : Nat} {items : List (QName × Body ε)}
  {node : ElementNode V G}

theorem scanned_iff :
    Scanned stats limits source later depth items node ↔
      Kept limits source later depth items node.facts.truncated node.outline ∧
        ∀ e ∈ node.children,
          Scanned stats limits source later (depth + 1) (itemsOf stats true e.1 items) e.2 := by
  cases node with
  | mk facts children =>
    constructor
    · rintro (⟨hkept, hchildren⟩)
      exact ⟨hkept, hchildren⟩
    · rintro ⟨hkept, hchildren⟩
      exact .mk hkept hchildren

theorem Scanned.atEvery {P : Outline → Prop}
    (hP : ∀ {depth items truncated o},
      Kept (ε := ε) limits source later depth items truncated o → P o)
    (h : Scanned stats limits source later depth items node) : node.AtEvery P := by
  induction h with
  | mk hkept _ ih => exact .mk (hP hkept) ih

theorem Scanned.mono {later' : List Nat} (h : Scanned stats limits source later depth items node)
    (hsub : ∀ x ∈ later', x ∈ later) : Scanned stats limits source later' depth items node := by
  induction h with
  | mk hkept _ ih => exact .mk { hkept with ascending := hkept.ascending.mono hsub } ih

theorem scanned_new (hitems : items = []) (facts : NodeFacts V G) :
    Scanned stats limits source later depth items (.mk facts []) := by
  subst hitems
  refine .mk ⟨List.nodup_nil, Nat.zero_le _, fun _ => rfl, ⟨fun e he => ?_, List.Pairwise.nil⟩,
    fun e he => ?_⟩ fun e he => ?_
  · exact absurd he List.not_mem_nil
  · exact absurd he List.not_mem_nil
  · exact absurd he List.not_mem_nil

theorem Scanned.mapFacts (h : Scanned stats limits source later depth items node)
    {f : NodeFacts V G → NodeFacts V G}
    (hf : node.facts.truncated = true → (f node.facts).truncated = true) :
    Scanned stats limits source later depth items (node.mapFacts f) := by
  rw [scanned_iff] at h ⊢
  refine ⟨{ h.1 with covered := fun e he => ?_ }, h.2⟩
  exact (h.1.covered e he).imp_right fun hfull => ⟨hf hfull.1, hfull.2⟩

/-- An element that a limit keeps out. -/
theorem Scanned.truncate (h : Scanned stats limits source later depth items node) {name : QName}
    (inner : Body ε)
    (hlimit : limits.maxDepth ≤ depth ∨
      (name ∉ Keyed.keys node.children ∧ limits.maxChildren ≤ node.children.length)) :
    Scanned stats limits source later depth (items ++ [(name, inner)]) node.truncate := by
  rw [scanned_iff] at h ⊢
  have hlength : node.outline.length = node.children.length := length_outlineOf _ _
  refine ⟨{ h.1 with covered := fun e he => ?_ }, fun e he => ?_⟩
  · rcases List.mem_append.1 he with he | he
    · exact (h.1.covered e he).imp_right fun hfull => ⟨rfl, hfull.2⟩
    · refine .inr ⟨rfl, hlimit.imp_right fun hfull => ?_⟩
      have hwidth := h.1.width
      show node.outline.length = limits.maxChildren
      omega
  · -- No child of a node that is full has the name; one that is too deep has no child.
    have hne : e.1 ≠ name := by
      rintro rfl
      rcases hlimit with hdeep | ⟨hnew, -⟩
      · have hnil : node.outline = [] := h.1.deep hdeep
        have hnil : node.children = [] := List.map_eq_nil_iff.1 hnil
        have he : e ∈ node.children := he
        rw [hnil] at he
        exact List.not_mem_nil he
      · exact hnew (Keyed.mem_keys_of_mem he)
    rw [itemsOf_snoc_of_ne stats true hne]
    exact h.2 e he

theorem map_modify_of_eq {α β : Type} {f : α → β} {g : α → α} (h : ∀ x, f (g x) = f x)
    (i : Nat) (xs : List α) : (xs.modify i g).map f = xs.map f := by
  induction xs generalizing i with
  | nil => rw [List.modify_nil]
  | cons x xs ih =>
    cases i with
    | zero => rw [List.modify_zero_cons, List.map_cons, List.map_cons, h]
    | succ i => rw [List.modify_succ_cons, List.map_cons, List.map_cons, ih]

theorem mem_of_mem_modify {α : Type} {g : α → α} {i : Nat} {xs : List α} {x : α}
    (h : x ∈ xs.modify i g) : x ∈ xs ∨ ∃ y ∈ xs, x = g y := by
  induction xs generalizing i with
  | nil =>
    rw [List.modify_nil] at h
    exact .inl h
  | cons y xs ih =>
    cases i with
    | zero =>
      rw [List.modify_zero_cons] at h
      rcases List.mem_cons.1 h with rfl | h
      · exact .inr ⟨y, List.mem_cons_self, rfl⟩
      · exact .inl (List.mem_cons_of_mem _ h)
    | succ i =>
      rw [List.modify_succ_cons] at h
      rcases List.mem_cons.1 h with rfl | h
      · exact .inl List.mem_cons_self
      · exact (ih h).imp (List.mem_cons_of_mem _) fun ⟨z, hz, hx⟩ =>
          ⟨z, List.mem_cons_of_mem _ hz, hx⟩

/-- Two nodes that differ in what the invariant does not read. -/
def ElementNode.Alike (a b : ElementNode V G) : Prop :=
  a.children = b.children ∧ a.seen = b.seen ∧ a.facts.truncated = b.facts.truncated

theorem Scanned.alike {node' : ElementNode V G}
    (h : Scanned stats limits source later depth items node) (halike : node.Alike node') :
    Scanned stats limits source later depth items node' := by
  rw [scanned_iff] at h ⊢
  rw [← halike.2.2, ElementNode.outline, ← halike.1]
  exact h

theorem ElementNode.Alike.trans {a b c : ElementNode V G} (hab : a.Alike b) (hbc : b.Alike c) :
    a.Alike c :=
  ⟨hab.1.trans hbc.1, hab.2.1.trans hbc.2.1, hab.2.2.trans hbc.2.2⟩

theorem outline_closeChildren (children : List (QName × ElementNode V G))
    (childCounts : List (Nat × Nat × Option Location)) :
    outlineOf ElementNode.seen (closeChildren children childCounts) =
      outlineOf ElementNode.seen children := by
  induction childCounts generalizing children with
  | nil => rfl
  | cons c childCounts ih =>
    obtain ⟨index, count, second⟩ := c
    refine (ih _).trans ?_
    refine map_modify_of_eq ?_ index children
    exact fun _ => rfl

theorem mem_closeChildren {children : List (QName × ElementNode V G)}
    {childCounts : List (Nat × Nat × Option Location)} {e : QName × ElementNode V G}
    (he : e ∈ closeChildren children childCounts) :
    ∃ known, (e.1, known) ∈ children ∧ known.Alike e.2 := by
  induction childCounts generalizing children with
  | nil => exact ⟨e.2, he, rfl, rfl, rfl⟩
  | cons c childCounts ih =>
    rw [closeChildren, List.foldl_cons] at he
    obtain ⟨known, hknown, halike⟩ := ih he
    rcases mem_of_mem_modify hknown with hmem | ⟨old, hold, heq⟩
    · exact ⟨known, hmem, halike⟩
    · obtain ⟨hname, rfl⟩ := Prod.mk.inj heq
      rw [hname]
      exact ⟨old.2, hold, .trans ⟨rfl, rfl, rfl⟩ halike⟩

theorem Scanned.close (h : Scanned stats limits source later depth items node) (w : WalkState B)
    (frame : Frame S) (inst : Instance) :
    Scanned stats limits source later depth items (close stats w node frame inst) := by
  rw [scanned_iff] at h
  refine .mk ?_ fun e he => ?_
  · rw [outline_closeChildren]
    exact h.1
  · obtain ⟨known, hknown, halike⟩ := mem_closeChildren he
    exact (h.2 _ hknown).alike halike

/-- A child that has been scanned further takes its place, a new one at the end. -/
theorem Scanned.setChild {offset : Nat} {name : QName} {child : ElementNode V G} {inner : Body ε}
    {later' : List Nat}
    (h : Scanned stats limits source (offset :: later) depth items node)
    (hlater : ∀ x ∈ later', x ∈ later) (hoffset : ∀ x ∈ later, offset ≤ x)
    (hroom : depth < limits.maxDepth)
    (hwidth : name ∉ Keyed.keys node.children → node.children.length < limits.maxChildren)
    (hchild : Scanned stats limits source later' (depth + 1)
      (itemsOf stats true name (items ++ [(name, inner)])) child)
    (hseen : child.seen =
      ((node.children.lookup name).map ElementNode.seen).getD (some (toLex (source, offset)))) :
    Scanned stats limits source later' depth (items ++ [(name, inner)])
      (node.setChild name child) := by
  rw [scanned_iff] at h
  have hkeys : Keyed.keys node.outline = Keyed.keys node.children := keys_outlineOf _ _
  have hlength : node.outline.length = node.children.length := length_outlineOf _ _
  have hdistinct : (Keyed.keys node.children).Nodup := hkeys ▸ h.1.distinct
  refine .mk ⟨?_, ?_, fun hdeep => absurd hdeep (Nat.not_le_of_lt hroom), ?_, fun e he => ?_⟩
    fun e he => ?_
  · rw [Outline.Distinct, keys_outlineOf]
    exact Keyed.nodup_put hdistinct _ _
  · rw [length_outlineOf]
    by_cases hknown : name ∈ Keyed.keys node.children
    · rw [Keyed.put_of_mem hknown, Keyed.length_update, ← hlength]
      exact h.1.width
    · have := hwidth hknown
      rw [Keyed.put_of_notMem hknown, List.length_append, List.length_singleton]
      omega
  · exact (Ascending.put hdistinct h.1.ascending hoffset hseen).mono hlater
  · rw [keys_outlineOf, Keyed.mem_keys_put]
    rcases List.mem_append.1 he with he | he
    · rcases h.1.covered e he with hmem | ⟨htruncated, hfull⟩
      · exact .inl (.inl (hkeys ▸ hmem))
      · -- The node may be full, but then it has the child.
        have hknown : name ∈ Keyed.keys node.children := by
          by_contra hnew
          have := hwidth hnew
          omega
        rw [length_outlineOf, Keyed.put_of_mem hknown, Keyed.length_update, ← hlength]
        exact .inr ⟨htruncated, hfull⟩
    · exact .inl (.inr (List.mem_singleton.1 he ▸ rfl))
  · rcases Keyed.mem_put he with rfl | ⟨hne, hmem⟩
    · exact hchild
    · rw [itemsOf_snoc_of_ne stats true hne]
      exact (h.2 e hmem).mono fun x hx => List.mem_cons_of_mem _ (hlater x hx)

/-! ## The walk -/

/-- What a start tag leaves of a node's facts. -/
def NodeFacts.Grows (a b : NodeFacts V G) : Prop :=
  b.firstSeen = a.firstSeen ∧ (a.truncated = true → b.truncated = true)

theorem NodeFacts.Grows.trans {a b c : NodeFacts V G} (hab : a.Grows b) (hbc : b.Grows c) :
    a.Grows c :=
  ⟨hbc.1.trans hab.1, fun h => hbc.2 (hab.2 h)⟩

theorem addAttribute_grows (node : NodeFacts V G) (name : QName) (value : Bytes) :
    node.Grows (addAttribute stats limits node name value) := by
  rw [addAttribute]
  split_ifs
  · exact ⟨rfl, id⟩
  · exact ⟨rfl, id⟩
  · exact ⟨rfl, fun _ => rfl⟩

theorem startAttribute_grows (s : Started V G) (attr : QName × Bytes) :
    s.node.Grows (startAttribute stats limits s attr).node := by
  have hrefl : s.node.Grows s.node := ⟨rfl, id⟩
  rw [startAttribute]
  split_ifs
  · exact hrefl
  · exact hrefl
  · exact addAttribute_grows _ _ _
  · exact .trans ⟨rfl, id⟩ (addAttribute_grows _ _ _)
  · exact hrefl
  · exact addAttribute_grows _ _ _

theorem startFacts_grows (node : NodeFacts V G) (tag : StartTag) :
    node.Grows (startFacts stats limits node tag).1 := by
  have hfold : ∀ (attrs : List (QName × Bytes)) (s : Started V G),
      s.node.Grows (attrs.foldl (startAttribute stats limits) s).node := by
    intro attrs
    induction attrs with
    | nil => exact fun s => ⟨rfl, id⟩
    | cons attr attrs ih => exact fun s => (startAttribute_grows s attr).trans (ih _)
  have hattrs := hfold tag.attrs { node }
  rw [startFacts]
  split
  · exact hattrs.trans ⟨rfl, id⟩
  · exact hattrs.trans ⟨rfl, id⟩
  · exact hattrs.trans (addAttribute_grows _ _ _)
  · exact hattrs

theorem declare_kept (w : WalkState B) (declarations : List (Option Bytes × Bytes)) :
    (declarations.foldl WalkState.declare w).limits = w.limits ∧
      (declarations.foldl WalkState.declare w).source = w.source := by
  induction declarations generalizing w with
  | nil => exact ⟨rfl, rfl⟩
  | cons declaration declarations ih =>
    have hone : (w.declare declaration).limits = w.limits ∧
        (w.declare declaration).source = w.source := by
      obtain ⟨pre, uri⟩ := declaration
      cases pre with
      | none => exact ⟨rfl, rfl⟩
      | some pre =>
        rw [WalkState.declare]
        split_ifs
        · exact ⟨rfl, rfl⟩
        · exact ⟨rfl, rfl⟩
    exact ⟨(ih _).1.trans hone.1, (ih _).2.trans hone.2⟩

/-- A walk in a source under limits. -/
def WalkState.In (limits : Limits) (source : Nat) (w : WalkState B) : Prop :=
  w.limits = limits ∧ w.source = source

theorem geometry_in [Merge B] {w w' : WalkState B} {tag : StartTag} {inner : Body ε}
    {featureBounds : Bool} {sniff : S} (hw : w.In limits source)
    (h : w.geometry stats tag inner featureBounds = .ok (w', sniff)) : w'.In limits source := by
  rw [WalkState.geometry] at h
  cases hsniff : stats.sniff tag inner w.feature.srsName w.feature.srsDimension with
  | error e =>
    rw [hsniff] at h
    cases h
  | ok found =>
    rw [hsniff] at h
    simp only [bind, Except.bind] at h
    split at h
    · split at h
      · cases h
        exact hw
      · cases h
        exact hw
    · split at h
      · cases h
        exact hw
      · cases h
        exact hw

theorem enter_spec {w : WalkState B} (hw : w.In limits source)
    (h : Scanned stats limits source later depth items node) (tag : StartTag) :
    (w.enter stats node tag).1.In limits source ∧
      Scanned stats limits source later depth items (w.enter stats node tag).2.1 ∧
      (w.enter stats node tag).2.1.seen =
        node.seen.or (some (toLex (source, tag.location.byteOffset))) := by
  have hdeclare := declare_kept w tag.declarations
  have hgrows : node.facts.Grows (startFacts stats w.limits node.facts tag).1 :=
    startFacts_grows node.facts tag
  have hw' : (w.start stats node tag).1.In limits source :=
    ⟨hdeclare.1.trans hw.1, hdeclare.2.trans hw.2⟩
  have hstart : (w.start stats node tag).2.1 =
      node.mapFacts fun _ => (startFacts stats w.limits node.facts tag).1 := rfl
  have henter : (w.enter stats node tag).2.1 =
      (w.start stats node tag).2.1.mapFacts fun facts => { facts with
        firstSeen := facts.firstSeen.or (some (toLex
          ((w.start stats node tag).1.source, tag.location.byteOffset))) } := rfl
  refine ⟨hw', ?_, ?_⟩
  · rw [henter, hstart]
    refine Scanned.mapFacts (Scanned.mapFacts h ?_) ?_
    · exact hgrows.2
    · exact id
  · show Option.or _ (some (toLex ((w.start stats node tag).1.source, _))) = _
    rw [hw'.2]
    exact congrArg (Option.or · _) hgrows.1

theorem or_seen {α : Type} {seen : α → Option Position} {xs : List (QName × α)} {name : QName}
    {known : α} (h : Ascending source later (outlineOf seen xs))
    (hlookup : xs.lookup name = some known) (p : Option Position) :
    (seen known).or p = ((xs.lookup name).map seen).getD p := by
  have hmem : (name, seen known) ∈ outlineOf seen xs :=
    List.mem_map_of_mem (f := fun e => (e.1, seen e.2)) (Keyed.mem_of_lookup hlookup)
  obtain ⟨offset, hoffset, -⟩ := h.1 _ hmem
  have hoffset : seen known = some (toLex (source, offset)) := hoffset
  rw [hlookup, Option.map_some, Option.getD_some, hoffset, Option.some_or]

/-- The child of a start tag stands for what the elements of its name hold so far. -/
theorem openChild_spec {w : WalkState B} {tag : StartTag} (hw : w.In limits source)
    (h : Scanned stats limits source later depth items node)
    (hroom : depth < limits.maxDepth)
    (hwidth : tag.name ∉ Keyed.keys node.children →
      node.children.length < limits.maxChildren) :
    (openChild stats w node tag).1.In limits source ∧
      Scanned stats limits source later (depth + 1) (itemsOf stats true tag.name items)
        (openChild stats w node tag).2.1 ∧
      (openChild stats w node tag).2.1.seen =
        ((node.children.lookup tag.name).map ElementNode.seen).getD
          (some (toLex (source, tag.location.byteOffset))) := by
  rw [scanned_iff] at h
  rw [openChild]
  cases hlookup : node.children.lookup tag.name with
  | some known =>
    have hcounted : Scanned stats limits source later (depth + 1)
        (itemsOf stats true tag.name items) (known.mapFacts fun facts =>
          { facts with instances := facts.instances + 1 }) :=
      (h.2 _ (Keyed.mem_of_lookup hlookup)).mapFacts id
    obtain ⟨hw', hscanned, hseen⟩ := enter_spec hw hcounted tag
    have hor := or_seen h.1.ascending hlookup (some (toLex (source, tag.location.byteOffset)))
    rw [hlookup] at hor
    exact ⟨hw', hscanned, hseen.trans hor⟩
  | none =>
    have hnew := Keyed.lookup_eq_none.1 hlookup
    -- The node is not full, so an item of the name would have its child.
    have hitems : itemsOf stats true tag.name items = [] := by
      refine itemsOf_of_notMem stats true fun e he hname => ?_
      have hkeys : Keyed.keys node.outline = Keyed.keys node.children := keys_outlineOf _ _
      have hlength : node.outline.length = node.children.length := length_outlineOf _ _
      have hroom' := hwidth hnew
      rcases h.1.covered e he with hmem | ⟨-, hfull⟩
      · rw [hkeys, hname] at hmem
        exact hnew hmem
      · omega
    have hcounted : Scanned stats limits source later (depth + 1)
        (itemsOf stats true tag.name items)
        ((ElementNode.new none : ElementNode V G).mapFacts fun facts =>
          { facts with instances := facts.instances + 1 }) := scanned_new hitems _
    obtain ⟨hw', hscanned, hseen⟩ := enter_spec hw hcounted tag
    exact ⟨hw', hscanned, hseen⟩

/-- The content of an element adds its items to those of the node. -/
theorem content_spec [Merge B] {w w' : WalkState B} {node node' : ElementNode V G} {frame frame' : Frame S}
    {inst : Instance} {body : Body ε} (hw : w.In limits source)
    (hbody : (body.offsets ++ later).Pairwise (· ≤ ·))
    (h : Scanned stats limits source (body.offsets ++ later) depth items node)
    (hcontent : content stats w node frame depth inst body = .ok (w', node', frame')) :
    w'.In limits source ∧ node'.seen = node.seen ∧
      Scanned stats limits source later depth
        (items ++ body.items stats (decide (1 ≤ depth))) node' := by
  induction body generalizing w node frame depth inst items later w' node' frame' with
  | done =>
    cases hcontent
    rw [Body.items, List.append_nil]
    exact ⟨hw, rfl, h⟩
  | text s rest ih => exact ih hw hbody h hcontent
  | unreadable error rest => cases hcontent
  | broken error => cases hcontent
  | element tag inner rest ihInner ihRest =>
    cases tag with
    | error error => cases hcontent
    | ok tag =>
      rw [Body.offsets, List.cons_append] at hbody h
      obtain ⟨hoffset, hbody⟩ := List.pairwise_cons.1 hbody
      rw [List.append_assoc] at hbody hoffset h
      have hrest : (rest.offsets ++ later).Pairwise (· ≤ ·) := (List.pairwise_append.1 hbody).2.1
      have hlater : ∀ x ∈ rest.offsets ++ later,
          x ∈ inner.offsets ++ (rest.offsets ++ later) :=
        fun x hx => List.mem_append_right _ hx
      rw [content] at hcontent
      dsimp only at hcontent
      split_ifs at hcontent with hgeometry hlimit
      · -- A geometry element inside a property: no child.
        cases hgeo : w.geometry stats tag inner (depth == 1 && inst.boundedBy) with
        | error error =>
          rw [hgeo] at hcontent
          cases hcontent
        | ok found =>
          obtain ⟨w₁, sniff⟩ := found
          rw [hgeo] at hcontent
          have hitems : (Body.element (.ok tag) inner rest).items stats (decide (1 ≤ depth)) =
              rest.items stats (decide (1 ≤ depth)) := by
            rw [Body.items, if_pos]
            simpa using hgeometry
          rw [hitems]
          exact ihRest (geometry_in hw hgeo) hrest
            (h.mono fun x hx => List.mem_cons_of_mem _ (hlater x hx)) hcontent
      all_goals
        have hitems : items ++ (Body.element (.ok tag) inner rest).items stats (decide (1 ≤ depth)) =
            (items ++ [(tag.name, inner)]) ++ rest.items stats (decide (1 ≤ depth)) := by
          rw [Body.items, if_neg (by simpa using hgeometry), List.append_assoc]
          rfl
        rw [hw.1, List.findIdx?_eq_none_iff] at hlimit
        have hnone : (∀ e ∈ node.children, (e.1 == tag.name) = false) ↔
            tag.name ∉ Keyed.keys node.children := by
          rw [Keyed.mem_keys, not_exists]
          constructor
          · intro hall child hmem
            simpa using hall _ hmem
          · intro hnew e he
            exact beq_eq_false_iff_ne.2 fun hname => hnew e.2 (hname ▸ he)
        rw [hnone] at hlimit
        rw [hitems]
      · -- The depth or the width limit keeps the element out.
        cases hskip : inner.skip with
        | error error =>
          rw [hskip] at hcontent
          cases hcontent
        | ok =>
          rw [hskip] at hcontent
          have htruncate := (h.truncate inner hlimit).mono
            fun x hx => List.mem_cons_of_mem _ (hlater x hx)
          obtain ⟨hw', hseen, hscanned⟩ := ihRest hw hrest htruncate hcontent
          exact ⟨hw', hseen, hscanned⟩
      · obtain ⟨hroom, hwidth⟩ := not_or.1 hlimit
        have hroom : depth < limits.maxDepth := Nat.lt_of_not_le hroom
        have hwidth : tag.name ∉ Keyed.keys node.children →
            node.children.length < limits.maxChildren :=
          fun hnew => Nat.lt_of_not_le fun hfull => hwidth ⟨hnew, hfull⟩
        obtain ⟨hw₁, hchild, hseen⟩ := openChild_spec hw h hroom hwidth
        cases hinner : content stats (openChild stats w node tag).1 (openChild stats w node tag).2.1
            {} (depth + 1) (openChild stats w node tag).2.2 inner with
        | error error =>
          rw [hinner] at hcontent
          cases hcontent
        | ok found =>
          obtain ⟨w₂, child', childFrame⟩ := found
          rw [hinner] at hcontent
          obtain ⟨hw₂, hseen₂, hchild₂⟩ := ihInner hw₁ hbody
            (hchild.mono fun x hx => List.mem_cons_of_mem _ hx) hinner
          have hinside : decide (1 ≤ depth + 1) = true := decide_eq_true (Nat.le_add_left 1 depth)
          rw [hinside, ← itemsOf_singleton stats true tag.name inner, ← itemsOf_append] at hchild₂
          have hclosed := hchild₂.close w₂ childFrame (openChild stats w node tag).2.2
          have hset := h.setChild hlater hoffset hroom hwidth hclosed (hseen₂.trans hseen)
          obtain ⟨hw', hseen', hscanned⟩ := ihRest hw₂ hrest hset hcontent
          exact ⟨hw', hseen', hscanned⟩

/-! ## Features -/

/-- The features of a chunk that a scan takes. -/
def Body.taken (layers : Option (List QName)) : Option Nat → Body ε → List (QName × Body ε)
  | _, .done => []
  | budget, .text _ rest => rest.taken layers budget
  | _, .unreadable _ _ => []
  | _, .broken _ => []
  | _, .element (.error _) _ _ => []
  | budget, .element (.ok tag) inner rest =>
    if layers.any fun layers => !layers.contains tag.name then rest.taken layers budget
    else if budget = some 0 then []
    else (tag.name, inner) :: rest.taken layers (budget.map (· - 1))

variable (stats limits source later)

/-- An observation after a scan of features of one source. -/
structure ScannedLayers (taken : List (QName × Body ε)) (o : DatasetObservation V G B) : Prop where
  distinct : (Keyed.keys o.layers).Nodup
  ascending : Ascending source later o.outline
  covered : ∀ e ∈ taken, e.1 ∈ Keyed.keys o.layers
  roots : ∀ e ∈ o.layers, Scanned stats limits source later 0 (itemsOf stats false e.1 taken) e.2.root

variable {stats limits source later} {taken : List (QName × Body ε)}
  {o : DatasetObservation V G B}

theorem ScannedLayers.mono {later' : List Nat}
    (h : ScannedLayers stats limits source later taken o) (hsub : ∀ x ∈ later', x ∈ later) :
    ScannedLayers stats limits source later' taken o where
  distinct := h.distinct
  ascending := h.ascending.mono hsub
  covered := h.covered
  roots e he := (h.roots e he).mono hsub

theorem ScannedLayers.congr {o' : DatasetObservation V G B}
    (h : ScannedLayers stats limits source later taken o) (hlayers : o'.layers = o.layers) :
    ScannedLayers stats limits source later taken o' := by
  obtain ⟨hdistinct, hascending, hcovered, hroots⟩ := h
  rw [DatasetObservation.outline, ← hlayers] at hascending
  rw [← hlayers] at hdistinct hcovered hroots
  exact ⟨hdistinct, hascending, hcovered, hroots⟩

theorem layers_foldl {α : Type} {f : DatasetObservation V G B → α → DatasetObservation V G B}
    (hf : ∀ o x, (f o x).layers = o.layers) (xs : List α) (o : DatasetObservation V G B) :
    (xs.foldl f o).layers = o.layers := by
  induction xs generalizing o with
  | nil => rfl
  | cons x xs ih => exact (ih _).trans (hf o x)

theorem layers_notePrefix (o : DatasetObservation V G B) (uri pre : Bytes) :
    (o.notePrefix uri pre).layers = o.layers := by
  rw [DatasetObservation.notePrefix]
  split_ifs
  · rfl
  · rfl

/-- A layer that has been scanned further takes its place, a new one at the end. -/
theorem ScannedLayers.setLayer {offset : Nat} {name : QName} {layer : LayerObservation V G B}
    {inner : Body ε} {later' : List Nat}
    (h : ScannedLayers stats limits source (offset :: later) taken o)
    (hlater : ∀ x ∈ later', x ∈ later) (hoffset : ∀ x ∈ later, offset ≤ x)
    (hroot : Scanned stats limits source later' 0
      (itemsOf stats false name (taken ++ [(name, inner)])) layer.root)
    (hseen : layer.seen =
      ((o.layers.lookup name).map LayerObservation.seen).getD (some (toLex (source, offset)))) :
    ScannedLayers stats limits source later' (taken ++ [(name, inner)]) (o.setLayer name layer) where
  distinct := Keyed.nodup_put h.distinct _ _
  ascending := (Ascending.put h.distinct h.ascending hoffset hseen).mono hlater
  covered e he := by
    refine Keyed.mem_keys_put.2 ?_
    rcases List.mem_append.1 he with he | he
    · exact .inl (h.covered e he)
    · exact .inr (List.mem_singleton.1 he ▸ rfl)
  roots e he := by
    rcases Keyed.mem_put he with rfl | ⟨hne, hmem⟩
    · exact hroot
    · rw [itemsOf_snoc_of_ne stats false hne]
      exact (h.roots e hmem).mono fun x hx => List.mem_cons_of_mem _ (hlater x hx)

variable [Merge B]

/-- A feature adds to the layer of its name. -/
theorem scanFeature_spec {builder builder' : Builder V G B} {inherited : Inherited B} {seq : Nat}
    {tag : StartTag} {inner : Body ε} (hw : builder.walk.In limits source)
    (hbody : (tag.location.byteOffset :: (inner.offsets ++ later)).Pairwise (· ≤ ·))
    (h : ScannedLayers stats limits source (tag.location.byteOffset :: (inner.offsets ++ later))
      taken builder.observation)
    (hscan : scanFeature stats inherited seq builder tag inner = .ok builder') :
    builder'.walk.In limits source ∧
      ScannedLayers stats limits source later (taken ++ [(tag.name, inner)])
        builder'.observation := by
  have hroot : ∀ layer : LayerObservation V G B,
      Scanned stats limits source (tag.location.byteOffset :: (inner.offsets ++ later)) 0
        (itemsOf stats false tag.name taken) layer.root →
      (builder.observation.layers.lookup tag.name).getD
        { featureCount := 0, root := .new none, extent := none } = layer →
      layer.seen.or (some (toLex (source, tag.location.byteOffset))) =
        ((builder.observation.layers.lookup tag.name).map LayerObservation.seen).getD
          (some (toLex (source, tag.location.byteOffset))) →
      builder'.walk.In limits source ∧
        ScannedLayers stats limits source later (taken ++ [(tag.name, inner)])
          builder'.observation := by
    intro layer hlayer hlookup hor
    let opened := openFeature stats builder.walk layer tag
    have heq : scanFeature stats inherited seq builder tag inner =
        content stats { opened.1 with
            feature := {
              seq
              gmlId := opened.2.2.gmlId
              srsName := inherited.srsName
              srsDimension := inherited.srsDimension } }
          opened.2.1.root {} 0 opened.2.2 inner >>= fun r => .ok {
            observation := builder.observation.setLayer tag.name { opened.2.1 with
              root := close stats r.1 r.2.1 r.2.2 opened.2.2
              extent := mergeOption opened.2.1.extent r.1.feature.extent }
            walk := { r.1 with feature := { r.1.feature with extent := none } } } := by
      rw [scanFeature, hlookup]
    rw [heq] at hscan
    have hcounted : Scanned stats limits source
        (tag.location.byteOffset :: (inner.offsets ++ later)) 0
        (itemsOf stats false tag.name taken) (layer.root.mapFacts fun facts =>
          { facts with
            instances := facts.instances + 1
            parentsWith := facts.parentsWith + 1 }) := hlayer.mapFacts id
    obtain ⟨hw₁, hentered, hseen⟩ := enter_spec hw hcounted tag
    have hopened : Scanned stats limits source (inner.offsets ++ later) 0
        (itemsOf stats false tag.name taken) opened.2.1.root :=
      hentered.mono fun x hx => List.mem_cons_of_mem _ hx
    have hwalk : ∀ feature : FeatureState B,
        WalkState.In limits source { opened.1 with feature := feature } := fun _ => hw₁
    obtain ⟨⟨w₂, root, frame⟩, hcontent, hscan⟩ := bind_eq_ok.1 hscan
    obtain ⟨hw₂, hseen₂, hscanned⟩ :=
      content_spec (hwalk _) (List.pairwise_cons.1 hbody).2 hopened hcontent
    cases hscan
    rw [show decide (1 ≤ 0) = false from rfl, ← itemsOf_singleton stats false tag.name inner,
      ← itemsOf_append] at hscanned
    refine ⟨hw₂, h.setLayer (fun x hx => List.mem_append_right _ hx)
      (List.pairwise_cons.1 hbody).1 (hscanned.close w₂ frame _) ?_⟩
    exact (hseen₂.trans hseen).trans hor
  cases hlookup : builder.observation.layers.lookup tag.name with
  | some known =>
    refine hroot known (h.roots _ (Keyed.mem_of_lookup hlookup))
      (by rw [hlookup, Option.getD_some]) ?_
    exact or_seen h.ascending hlookup _
  | none =>
    have hnew := Keyed.lookup_eq_none.1 hlookup
    have hitems : itemsOf stats false tag.name taken = [] :=
      itemsOf_of_notMem stats false fun e he hname => hnew (hname ▸ h.covered e he)
    exact hroot _ (scanned_new hitems _) (by rw [hlookup, Option.getD_none]) (by rw [hlookup]; rfl)


theorem scanFeatures_spec {builder builder' : Builder V G B} {layers : Option (List QName)}
    {inherited : Inherited B} {seq : Nat} {budget budget' : Option Nat} {body : Body ε}
    {stopped : Bool} (hw : builder.walk.In limits source)
    (hbody : (body.offsets ++ later).Pairwise (· ≤ ·))
    (h : ScannedLayers stats limits source (body.offsets ++ later) taken builder.observation)
    (hscan : scanFeatures stats layers inherited seq builder budget body =
      .ok (builder', budget', stopped)) :
    ScannedLayers stats limits source later (taken ++ body.taken layers budget)
      builder'.observation := by
  induction body generalizing builder seq budget taken with
  | done =>
    cases hscan
    rw [Body.taken, List.append_nil]
    exact h
  | text s rest ih => exact ih hw hbody h hscan
  | unreadable error rest => cases hscan
  | broken error => cases hscan
  | element tag inner rest _ ih =>
    cases tag with
    | error error => cases hscan
    | ok tag =>
      rw [Body.offsets, List.cons_append, List.append_assoc] at hbody h
      have hrest : (rest.offsets ++ later).Pairwise (· ≤ ·) :=
        (List.pairwise_append.1 (List.pairwise_cons.1 hbody).2).2.1
      have hlater : ∀ x ∈ rest.offsets ++ later,
          x ∈ tag.location.byteOffset :: (inner.offsets ++ (rest.offsets ++ later)) :=
        fun x hx => List.mem_cons_of_mem _ (List.mem_append_right _ hx)
      rw [scanFeatures] at hscan
      rw [Body.taken]
      split_ifs at hscan ⊢ with hother hbudget
      · cases hskip : inner.skip with
        | error error =>
          rw [hskip] at hscan
          cases hscan
        | ok =>
          rw [hskip] at hscan
          exact ih hw hrest (h.mono hlater) hscan
      · cases hscan
        rw [List.append_nil]
        exact h.mono fun x hx => hlater x (List.mem_append_right _ hx)
      · cases hfeature : scanFeature stats inherited seq builder tag inner with
        | error error =>
          rw [hfeature] at hscan
          cases hscan
        | ok builder₁ =>
          rw [hfeature] at hscan
          obtain ⟨hw₁, h₁⟩ := scanFeature_spec hw hbody h hfeature
          rw [← List.singleton_append, ← List.append_assoc]
          exact ih hw₁ hrest h₁ hscan

/-- A scan of a chunk. -/
theorem scanChunk_spec {features : Features ε} {boundedBy : Except ε (Inherited B)}
    {layers : Option (List QName)} {budget budget' : Option Nat} {stopped : Bool}
    (hscan : scanChunk stats limits layers features boundedBy budget =
      .ok (o, budget', stopped)) :
    ScannedLayers stats limits features.source [] (features.body.taken layers budget) o := by
  obtain ⟨inherited, -, hscan⟩ := bind_eq_ok.1 hscan
  obtain ⟨⟨builder, budget₁, stopped₁⟩, hfeatures, hscan⟩ := bind_eq_ok.1 hscan
  cases hscan
  have hstart : ScannedLayers (V := V) (G := G) stats limits features.source
      (features.body.offsets ++ []) [] {
        notePrefixes {} features.namespaces with extent := inherited.extent } := by
    refine ScannedLayers.congr (o := {}) ⟨List.nodup_nil, ⟨?_, List.Pairwise.nil⟩, ?_, ?_⟩ ?_
    · exact fun e he => absurd he List.not_mem_nil
    · exact fun e he => absurd he List.not_mem_nil
    · exact fun e he => absurd he List.not_mem_nil
    · refine layers_foldl (fun o binding => ?_) _ _
      cases binding with
      | mk pre uri =>
        cases pre with
        | none => rfl
        | some pre => exact layers_notePrefix o uri pre
  have hascending : (features.body.offsets ++ []).Pairwise (· ≤ ·) := by
    rw [List.append_nil]
    exact features.ascending
  have hdone := scanFeatures_spec ⟨rfl, rfl⟩ hascending hstart hfeatures
  refine hdone.congr (layers_foldl (fun o entry => ?_) _ _)
  exact layers_notePrefix o entry.1 entry.2

end

end Xeibe.Schema

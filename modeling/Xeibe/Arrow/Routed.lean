import Mathlib.Data.List.Nodup
import Xeibe.Arrow.Route

/-!
# What a route tree holds

The tree of a schema's routes holds at every path of steps what the routes with this
path fill, and the elements that a feature's reader follows the tree to are those whose
names the routes' steps take.
-/

namespace Xeibe.Arrow

variable {step s : Step}

/-! ## Below a node -/

namespace RouteNode

def steps (node : RouteNode) : List Step := node.children.map RouteNode.step

/-- The child with a step, a new one if there is none. -/
def childAt (node : RouteNode) (step : Step) : RouteNode :=
  (node.children.find? fun child => child.step == step).getD (new step)

/-- The node that a path of steps leads to. -/
def under (node : RouteNode) (path : List Step) : RouteNode := path.foldl childAt node

theorem find?_set {children : List RouteNode} {index : Nat} {child : RouteNode}
    (h : (children.findIdx? fun child => child.step == step) = some index)
    (hchild : child.step = step) :
    (children.getD index (new step) =
      (children.find? fun child => child.step == step).getD (new step)) ∧
    ((children.set index child).find? (fun child => child.step == s) =
      if s = step then some child else children.find? fun child => child.step == s) ∧
    (children.set index child).map RouteNode.step = children.map RouteNode.step ∧
    step ∈ children.map RouteNode.step := by
  induction children generalizing index with
  | nil => simp at h
  | cons first children ih =>
    rw [List.findIdx?_cons] at h
    split at h
    · rename_i hfirst
      obtain rfl := Option.some.inj h
      have hstep : first.step = step := by simpa using hfirst
      by_cases hs : s = step
      · simp [hs, hchild, hstep]
      · simp [hs, hchild, hstep, Ne.symm hs]
    · rename_i hfirst
      obtain ⟨index, hindex, rfl⟩ := Option.map_eq_some_iff.1 h
      obtain ⟨hget, hfind, hmap, hmem⟩ := ih hindex
      have hne : first.step ≠ step := by simpa using hfirst
      refine ⟨?_, ?_, ?_, List.mem_cons_of_mem _ hmem⟩
      · simpa [hne] using hget
      · rw [List.set_cons_succ, List.find?_cons, List.find?_cons, hfind]
        by_cases hs : first.step = s
        · subst hs
          simp [hne]
        · simp only [beq_eq_false_iff_ne.2 hs]
      · rw [List.set_cons_succ, List.map_cons, hmap, List.map_cons]

/-- A child is changed, or made and changed, and the others stay. -/
theorem child_spec {α : Type} (node : RouteNode) {change : RouteNode → RouteNode × α}
    (hchange : (change (node.childAt step)).1.step = step) :
    ∃ children, node.child step change =
        ({ node with children }, (change (node.childAt step)).2) ∧
      (∀ s, ({ node with children } : RouteNode).childAt s =
        if s = step then (change (node.childAt step)).1 else node.childAt s) ∧
      (∀ s, s ∈ children.map RouteNode.step ↔ s ∈ node.steps ∨ s = step) ∧
      (node.steps.Nodup → (children.map RouteNode.step).Nodup) := by
  rw [child]
  split
  · rename_i index hindex
    obtain ⟨hget, -, hmap, hmem⟩ := find?_set (s := step) hindex hchange
    refine ⟨node.children.set index (change (node.childAt step)).1, by rw [hget]; rfl,
      fun s => ?_, fun s => ?_, fun h => ?_⟩
    · rw [childAt, (find?_set hindex hchange).2.1]
      split
      · rfl
      · rfl
    · rw [hmap]
      exact ⟨Or.inl, fun h => h.elim id fun h => h ▸ hmem⟩
    · rw [hmap]
      exact h
  · rename_i hindex
    have hnone : ∀ child ∈ node.children, child.step ≠ step := by
      simpa using List.findIdx?_eq_none_iff.1 hindex
    have hnew : node.childAt step = new step := by
      rw [childAt, List.find?_eq_none.2 (by simpa using hnone), Option.getD_none]
    rw [hnew] at hchange ⊢
    refine ⟨_, rfl, fun s => ?_, fun s => ?_, fun h => ?_⟩
    · rw [childAt, List.find?_append]
      by_cases hs : s = step
      · rw [hs, List.find?_eq_none.2 (by simpa using hnone)]
        simp [hchange]
      · simp [hs, hchange, Ne.symm hs, childAt]
    · simp [steps, hchange]
    · rw [List.map_append, List.map_singleton, hchange, List.nodup_append]
      refine ⟨h, List.nodup_singleton _, ?_⟩
      simpa using hnone

theorem childAt_step (node : RouteNode) (step : Step) : (node.childAt step).step = step := by
  rw [childAt]
  cases h : node.children.find? fun child => child.step == step with
  | none => rfl
  | some child => simpa using List.find?_some h

/-! ## One route -/

/-- What a route puts into the node at a path. -/
structure Given (route : FieldRoute) (target : Target) (steps path : List Step)
    (before after : RouteNode) : Prop where
  step : after.step = before.step
  targets : after.targets =
    before.targets ++ if path = steps ∧ route.attr = none then [target] else []
  attributes : after.attributes = before.attributes ++
    if path = steps then (route.attr.map fun attr => (Step.of attr, target)).toList else []
  steps : ∀ s, s ∈ after.steps ↔ s ∈ before.steps ∨ path ++ [s] <+: steps
  nodup : before.steps.Nodup → after.steps.Nodup

variable {route : FieldRoute} {target : Target} {steps path : List Step}

theorem given_self (hpath : path ≠ steps) (hsteps : ∀ s, ¬ path ++ [s] <+: steps)
    (node : RouteNode) : Given route target steps path node node where
  step := rfl
  targets := by simp [hpath]
  attributes := by simp [hpath]
  steps s := by simp [hsteps]
  nodup := id

theorem Given.cons {before after : RouteNode} (h : Given route target steps path before after) :
    Given route target (step :: steps) (step :: path) before after where
  step := h.step
  targets := by simpa using h.targets
  attributes := by simpa using h.attributes
  steps s := by simpa [List.cons_prefix_cons] using h.steps s
  nodup := h.nodup

/-- A child is given what the route has for it, and the other children nothing. -/
theorem given_child {α : Type} (node : RouteNode) {change : RouteNode → RouteNode × α}
    (h : ∀ path, Given route target steps path ((node.childAt step).under path)
      ((change (node.childAt step)).1.under path)) (path : List Step) :
    Given route target (step :: steps) path (node.under path)
      ((node.child step change).1.under path) := by
  obtain ⟨children, hchild, hat, hsteps, hnodup⟩ :=
    node.child_spec ((h []).step.trans (node.childAt_step step))
  rw [hchild]
  cases path with
  | nil =>
    refine ⟨rfl, by simp [under], by simp [under], fun s => ?_, hnodup⟩
    have hfirst : [] ++ [s] <+: step :: steps ↔ s = step := by simp [List.cons_prefix_cons]
    rw [hfirst]
    exact hsteps s
  | cons s path =>
    show Given route target (step :: steps) (s :: path) ((node.childAt s).under path)
      ((({ node with children } : RouteNode).childAt s).under path)
    rw [hat]
    split
    · rename_i hs
      subst hs
      exact (h path).cons
    · rename_i hs
      exact given_self (by simp [hs]) (by simp [hs]) _

theorem Given.of_anchored {node after : RouteNode} {anchors : Nat}
    (h : Given route target steps path ((node.anchored anchors).1.under path) after) :
    Given route target steps path (node.under path) after := by
  rw [anchored] at h
  split at h
  · exact h
  · cases path with
    | nil => exact ⟨h.step, h.targets, h.attributes, h.steps, h.nodup⟩
    | cons s path => exact h

theorem given_insert (route : FieldRoute) (target : Target) (names : List QName)
    (index anchors : Nat) (node : RouteNode) (path : List Step) :
    Given route target (names.map Step.of) path (node.under path)
      ((insert route target index names anchors node).1.under path) := by
  induction names generalizing index anchors node path with
  | nil =>
    rw [List.map_nil, insert]
    cases hattr : route.attr with
    | none =>
      cases path with
      | nil => exact ⟨rfl, by simp [fill, under, hattr], by simp [fill, under, hattr],
          by simp [fill, under, RouteNode.steps], id⟩
      | cons s path => exact given_self (List.cons_ne_nil s path) (by simp) _
    | some attr =>
      cases path with
      | nil => exact ⟨rfl, by simp [fill, under, hattr], by simp [fill, under, hattr],
          by simp [fill, under, RouteNode.steps], id⟩
      | cons s path => exact given_self (List.cons_ne_nil s path) (by simp) _
  | cons name names ih =>
    rw [List.map_cons, insert]
    refine given_child node (fun path => ?_) path
    split
    · exact (ih _ _ _ path).of_anchored
    · exact ih _ _ _ path

end RouteNode

/-! ## All routes -/

namespace FieldRoute

def steps (route : FieldRoute) : List Step := route.sourcePath.map Step.of

/-- What a route fills, if its column is read. -/
def target (columns : List (Option Nat)) (route : FieldRoute) : Option Target :=
  (route.fieldPath.head?.bind fun index => (columns[index]?).join).map fun column =>
    { column, value := route.value }

end FieldRoute

variable {P : Type} {columns : List (Option Nat)} {routes : List FieldRoute} {tree : RouteTree P}

/-- Some route that is read goes by a path. -/
def On (columns : List (Option Nat)) (routes : List FieldRoute) (path : List Step) : Prop :=
  ∃ route ∈ routes, (route.target columns).isSome ∧ path <+: route.steps

/-- The tree holds at every path what the routes with this path fill. -/
structure Holds (columns : List (Option Nat)) (routes : List FieldRoute) (tree : RouteTree P) :
    Prop where
  targets : ∀ path, (tree.root.under path).targets = routes.filterMap fun route =>
    if path = route.steps ∧ route.attr = none then route.target columns else none
  attributes : ∀ path, (tree.root.under path).attributes = routes.filterMap fun route =>
    if path = route.steps then
      route.attr.bind fun attr => (route.target columns).map (Step.of attr, ·)
    else none
  steps : ∀ path s, s ∈ (tree.root.under path).steps ↔ On columns routes (path ++ [s])
  nodup : ∀ path, (tree.root.under path).steps.Nodup

theorem under_new (path : List Step) :
    ∀ step, ∃ step', (RouteNode.new step).under path = RouteNode.new step' := by
  induction path with
  | nil => exact fun step => ⟨step, rfl⟩
  | cons s path ih => exact fun _ => ih s

theorem holds_nil (plans : List (ColumnPlan P)) :
    Holds columns [] { root := .new .any, columns := plans, anchors := 0 } := by
  refine ⟨fun path => ?_, fun path => ?_, fun path s => ?_, fun path => ?_⟩
  all_goals
    obtain ⟨step, hstep⟩ := under_new path .any
    rw [hstep]
  · rfl
  · rfl
  · simp [RouteNode.steps, RouteNode.new, On]
  · exact List.nodup_nil

/-- A turn of the loop. -/
theorem Holds.add (h : Holds columns routes tree) (route : FieldRoute) :
    Holds columns (routes ++ [route]) (tree.add columns route) := by
  have hon : ∀ path, On columns (routes ++ [route]) path ↔ On columns routes path ∨
      ((route.target columns).isSome ∧ path <+: route.steps) := by
    intro path
    simp [On, or_and_right, exists_or]
  rw [RouteTree.add]
  split
  · rename_i hnone
    have htarget : route.target columns = none := by rw [FieldRoute.target, hnone]; rfl
    refine ⟨fun path => ?_, fun path => ?_, fun path s => ?_, h.nodup⟩
    · rw [h.targets, List.filterMap_append]
      simp [htarget]
    · rw [h.attributes, List.filterMap_append]
      simp [htarget]
    · rw [h.steps, hon]
      simp [htarget]
  · rename_i column hcolumn
    have htarget : route.target columns = some { column, value := route.value } := by
      rw [FieldRoute.target, hcolumn]; rfl
    have hgiven := RouteNode.given_insert route { column, value := route.value } route.sourcePath 0
      tree.anchors tree.root
    refine ⟨fun path => ?_, fun path => ?_, fun path s => ?_,
      fun path => (hgiven path).nodup (h.nodup path)⟩
    · refine (hgiven path).targets.trans ?_
      rw [h.targets, List.filterMap_append, List.filterMap_cons, htarget, ← FieldRoute.steps]
      split <;> rfl
    · refine (hgiven path).attributes.trans ?_
      rw [h.attributes, List.filterMap_append, List.filterMap_cons, htarget, ← FieldRoute.steps]
      split
      · cases route.attr with
        | none => rfl
        | some attr => rfl
      · rfl
    · refine ((hgiven path).steps s).trans ?_
      rw [h.steps, hon, htarget, ← FieldRoute.steps]
      simp

theorem holds_new (routes : List FieldRoute) (columns : List (Option Nat))
    (plans : List (ColumnPlan P)) : Holds columns routes (RouteTree.new routes columns plans) := by
  suffices h : ∀ (before : List FieldRoute) (tree : RouteTree P), Holds columns before tree →
      Holds columns (before ++ routes) (routes.foldl (RouteTree.add columns) tree) from
    h [] _ (holds_nil plans)
  induction routes with
  | nil =>
    intro before tree h
    rw [List.append_nil]
    exact h
  | cons route routes ih =>
    intro before tree h
    have hnext := ih (before ++ [route]) _ (h.add route)
    rwa [List.append_assoc] at hnext

/-! ## The columns of an element -/

/-- The nodes that an element is read with, by the names on the way to it. -/
def reached (nodes : List RouteNode) (names : List QName) : List RouteNode :=
  names.foldl (fun nodes name => nodes.flatMap (·.matchingChildren name)) nodes

/-- A step takes a name, and where it does in any namespace no other step names it exactly. -/
def Step.Takes (there : Step → Prop) (name : QName) (step : Step) : Prop :=
  there step ∧ (step = .any ∨ step.isExact name = true ∨
    ((∀ s, there s → s.isExact name = false) ∧ step.isAnyNamespace name = true))

/-- The steps behind `before` take the names. -/
def Leads (there : List Step → Prop) : List Step → List QName → List Step → Prop
  | _, [], [] => True
  | before, name :: names, step :: steps =>
    step.Takes (fun s => there (before ++ [s])) name ∧ Leads there (before ++ [step]) names steps
  | _, _, _ => False

theorem find?_of_mem {children : List RouteNode} {node : RouteNode}
    (h : (children.map RouteNode.step).Nodup) (hmem : node ∈ children) :
    (children.find? fun child => child.step == node.step) = some node := by
  induction children with
  | nil => cases hmem
  | cons first children ih =>
    rw [List.map_cons, List.nodup_cons] at h
    rcases List.mem_cons.1 hmem with rfl | hmem
    · simp
    · have hne : first.step ≠ node.step := fun heq => h.1 (heq ▸ List.mem_map_of_mem hmem)
      rw [List.find?_cons_of_neg (by simpa using hne)]
      exact ih h.2 hmem

theorem mem_matchingChildren {node child : RouteNode} (h : node.steps.Nodup) (name : QName) :
    child ∈ node.matchingChildren name ↔
      ∃ step : Step, step.Takes (· ∈ node.steps) name ∧ child = node.childAt step := by
  have hat : ∀ child ∈ node.children, node.childAt child.step = child := fun child hmem => by
    rw [RouteNode.childAt, find?_of_mem h hmem, Option.getD_some]
  have hexact : (node.children.any fun child => child.step.isExact name) = false ↔
      ∀ s ∈ node.steps, s.isExact name = false := by
    simp [RouteNode.steps]
  rw [RouteNode.matchingChildren, List.mem_filter]
  simp only [Bool.or_eq_true, Bool.and_eq_true, Bool.not_eq_true', hexact, beq_iff_eq, or_assoc]
  constructor
  · rintro ⟨hmem, htakes⟩
    exact ⟨child.step, ⟨List.mem_map_of_mem hmem, htakes⟩, (hat child hmem).symm⟩
  · rintro ⟨_, ⟨hmem, htakes⟩, rfl⟩
    obtain ⟨child, hchild, rfl⟩ := List.mem_map.1 hmem
    rw [hat child hchild]
    exact ⟨hchild, htakes⟩

theorem mem_reached {nodes : List RouteNode} {node : RouteNode} (names : List QName) :
    node ∈ reached nodes names ↔ ∃ n ∈ nodes, node ∈ reached [n] names := by
  induction names generalizing nodes with
  | nil => simp [reached]
  | cons name names ih =>
    show node ∈ reached (nodes.flatMap _) names ↔ ∃ n ∈ nodes, node ∈ reached ([n].flatMap _) names
    rw [ih]
    simp only [List.mem_flatMap, List.flatMap_singleton]
    constructor
    · rintro ⟨child, ⟨n, hn, hchild⟩, hnode⟩
      exact ⟨n, hn, ih.2 ⟨child, hchild, hnode⟩⟩
    · rintro ⟨n, hn, hnode⟩
      obtain ⟨child, hchild, hnode⟩ := ih.1 hnode
      exact ⟨child, ⟨n, hn, hchild⟩, hnode⟩

/-- By induction on the names, a step for each. -/
theorem Holds.mem_reached (h : Holds columns routes tree) (names : List QName)
    (before : List Step) (node : RouteNode) :
    node ∈ reached [tree.root.under before] names ↔ ∃ steps,
      Leads (On columns routes) before names steps ∧ node = tree.root.under (before ++ steps) := by
  induction names generalizing before with
  | nil =>
    rw [reached, List.foldl_nil, List.mem_singleton]
    constructor
    · exact fun heq => ⟨[], trivial, by rw [List.append_nil, heq]⟩
    · rintro ⟨steps, hleads, rfl⟩
      cases steps with
      | nil => rw [List.append_nil]
      | cons step steps => exact hleads.elim
  | cons name names ih =>
    have hchildren : ∀ child, child ∈ (tree.root.under before).matchingChildren name ↔
        ∃ step : Step, step.Takes (fun s => On columns routes (before ++ [s])) name ∧
          child = tree.root.under (before ++ [step]) := by
      intro child
      have hthere : (· ∈ (tree.root.under before).steps) =
          fun s => On columns routes (before ++ [s]) := funext fun s => propext (h.steps before s)
      rw [mem_matchingChildren (h.nodup before), hthere]
      simp only [RouteNode.under, List.foldl_append, List.foldl_cons, List.foldl_nil]
    show node ∈ reached ([_].flatMap _) names ↔ _
    rw [List.flatMap_singleton, Arrow.mem_reached]
    constructor
    · rintro ⟨child, hchild, hnode⟩
      obtain ⟨step, htakes, rfl⟩ := (hchildren child).1 hchild
      obtain ⟨steps, hleads, rfl⟩ := (ih _).1 hnode
      exact ⟨step :: steps, ⟨htakes, hleads⟩, by rw [List.append_assoc, List.singleton_append]⟩
    · rintro ⟨steps, hleads, rfl⟩
      cases steps with
      | nil => exact hleads.elim
      | cons step steps =>
        refine ⟨_, (hchildren _).2 ⟨step, hleads.1, rfl⟩, (ih _).2 ⟨steps, hleads.2, ?_⟩⟩
        rw [List.append_assoc, List.singleton_append]

theorem Holds.exists_reached (h : Holds columns routes tree) (names : List QName)
    (Q : RouteNode → Prop) :
    (∃ node ∈ reached [tree.root] names, Q node) ↔
      ∃ steps, Leads (On columns routes) [] names steps ∧ Q (tree.root.under steps) := by
  constructor
  · rintro ⟨node, hmem, hQ⟩
    obtain ⟨steps, hleads, rfl⟩ := (h.mem_reached names [] node).1 hmem
    exact ⟨steps, hleads, hQ⟩
  · rintro ⟨steps, hleads, hQ⟩
    exact ⟨_, (h.mem_reached names [] _).2 ⟨steps, hleads, rfl⟩, hQ⟩

theorem Holds.mem_attributes (h : Holds columns routes tree) (path : List Step)
    (entry : Step × Target) :
    entry ∈ (tree.root.under path).attributes ↔ ∃ route ∈ routes, path = route.steps ∧
      ∃ attr, route.attr = some attr ∧ route.target columns = some entry.2 ∧
        Step.of attr = entry.1 := by
  obtain ⟨step, target⟩ := entry
  rw [h.attributes, List.mem_filterMap]
  refine exists_congr fun route => and_congr_right fun _ => ?_
  split
  · rename_i hsteps
    simp [hsteps, Option.bind_eq_some_iff]
  · rename_i hsteps
    simp [hsteps]

/-- No attribute at a path is named exactly. -/
theorem Holds.attributes_not_exact (h : Holds columns routes tree) (path : List Step)
    (name : QName) :
    ((tree.root.under path).attributes.any fun attr => attr.1.isExact name) = false ↔
      ∀ other ∈ routes, other.steps = path → (other.target columns).isSome →
        ∀ attr, other.attr = some attr → (Step.of attr).isExact name = false := by
  rw [List.any_eq_false]
  simp only [h.mem_attributes, Bool.not_eq_true]
  constructor
  · intro hnone other hother hsteps hread attr hattr
    obtain ⟨target, htarget⟩ := Option.isSome_iff_exists.1 hread
    exact hnone (Step.of attr, target) ⟨other, hother, hsteps.symm, attr, hattr, htarget, rfl⟩
  · rintro hnone _ ⟨other, hother, hsteps, attr, hattr, htarget, heq⟩
    rw [← heq]
    exact hnone other hother hsteps.symm (by rw [htarget]; rfl) attr hattr

/-- An element fills the columns of the routes whose steps take the names down to it, and
its attributes those of the routes that go on to them. -/
theorem mem_targets (routes : List FieldRoute) (columns : List (Option Nat))
    (plans : List (ColumnPlan P)) (names : List QName) (target : Target) :
    let nodes := reached [(RouteTree.new routes columns plans).root] names
    (target ∈ nodes.flatMap RouteNode.targets ↔ ∃ route ∈ routes, route.attr = none ∧
      route.target columns = some target ∧ Leads (On columns routes) [] names route.steps) ∧
    ∀ name, target ∈ nodes.flatMap (·.attributeTargets name) ↔
      ∃ route ∈ routes, ∃ attr, route.attr = some attr ∧ route.target columns = some target ∧
        Leads (On columns routes) [] names route.steps ∧
        ((Step.of attr).isExact name = true ∨
          ((∀ other ∈ routes, other.steps = route.steps → (other.target columns).isSome →
            ∀ attr, other.attr = some attr → (Step.of attr).isExact name = false) ∧
          (Step.of attr).isAnyNamespace name = true)) := by
  have h := holds_new routes columns plans
  intro nodes
  refine ⟨?_, fun name => ?_⟩
  · rw [List.mem_flatMap, h.exists_reached]
    simp only [h.targets, List.mem_filterMap]
    constructor
    · rintro ⟨steps, hleads, route, hroute, htarget⟩
      split at htarget
      · rename_i hsteps
        obtain ⟨rfl, hattr⟩ := hsteps
        exact ⟨route, hroute, hattr, htarget, hleads⟩
      · cases htarget
    · rintro ⟨route, hroute, hattr, htarget, hleads⟩
      exact ⟨route.steps, hleads, route, hroute, by rw [if_pos ⟨rfl, hattr⟩, htarget]⟩
  · rw [List.mem_flatMap, h.exists_reached]
    simp only [RouteNode.attributeTargets, List.mem_map, List.mem_filter, h.mem_attributes,
      Bool.or_eq_true, Bool.and_eq_true, Bool.not_eq_true', h.attributes_not_exact]
    constructor
    · rintro ⟨_, hleads, ⟨step, target⟩,
        ⟨⟨route, hroute, rfl, attr, hattr, htarget, rfl⟩, h⟩, rfl⟩
      exact ⟨route, hroute, attr, hattr, htarget, hleads, h⟩
    · rintro ⟨route, hroute, attr, hattr, htarget, hleads, h⟩
      exact ⟨_, hleads, (Step.of attr, target),
        ⟨⟨route, hroute, rfl, attr, hattr, htarget, rfl⟩, h⟩, rfl⟩

end Xeibe.Arrow

import Xeibe.Arrow.Value

/-!
# The route tree

`xeibe-arrow/src/route.rs`: the paths of a schema's columns as a tree of steps,
with the columns that each element and attribute fills.  Nodes are values here:
following a path from the root gives the root back with the path in it.

The plan of a column comes from its Arrow field; the type of a geometry column is a
parameter.
-/

namespace Xeibe.Arrow

/-! ## Schemas -/

/-- What a route takes from its element. -/
inductive RouteValue where
  | text
  | innerText
  | geometry
  | map
  | boundingBox
  deriving DecidableEq

/-- Where one column gets its values. -/
structure FieldRoute where
  sourcePath : List QName
  /-- `attribute`. -/
  attr : Option QName
  value : RouteValue
  fieldPath : List Nat
  /-- List columns: the index in `sourcePath` of the element whose occurrences the
  list follows. -/
  anchor : Option Nat
  deriving DecidableEq

/-! ## Columns -/

/-- One value of a column.  `P` is `GeometrySpec`. -/
inductive Item (P : Type) where
  | scalar (dataType : DataType)
  | geometry (spec : P) (axis : Nat)
  | map
  | box (axis : Nat)

/-- How one output column is filled. -/
structure ColumnPlan (P : Type) where
  name : Bytes
  nullable : Bool
  list : Bool
  /-- The anchor's counter (list columns). -/
  anchor : Nat
  itemNullable : Bool
  item : Item P
  srsName : Option Bytes

/-- What a node fills. -/
structure Target where
  column : Nat
  value : RouteValue
  deriving DecidableEq

/-! ## Steps -/

inductive Step where
  /-- `*`: any element. -/
  | any
  /-- A local name; without a namespace it matches in any. -/
  | name (ns : Option Bytes) (localName : Bytes)
  deriving DecidableEq

namespace Step

def of (name : QName) : Step :=
  if name.ns = none ∧ name.localName = utf8 "*" then .any else .name name.ns name.localName

/-- Exactly this namespace and local name. -/
def isExact (name : QName) : Step → Bool
  | .name (some uri) localName => some uri == name.ns && localName == name.localName
  | _ => false

/-- The local name in any namespace. -/
def isAnyNamespace (name : QName) : Step → Bool
  | .name none localName => localName == name.localName
  | _ => false

end Step

/-! ## Nodes -/

/-- An element some path leads to or through. -/
structure RouteNode where
  step : Step
  children : List RouteNode
  attributes : List (Step × Target)
  targets : List Target
  /-- The counter of the lists anchored on this element. -/
  anchor : Option Nat

namespace RouteNode

def new (step : Step) : RouteNode where
  step
  children := []
  attributes := []
  targets := []
  anchor := none

/-- `matching_children`: `*`, the exact namespace, and a step without a namespace
unless a sibling names this exact one. -/
def matchingChildren (node : RouteNode) (name : QName) : List RouteNode :=
  let exact := node.children.any fun child => child.step.isExact name
  node.children.filter fun child =>
    child.step == .any || child.step.isExact name || (!exact && child.step.isAnyNamespace name)

/-- The targets of an attribute, matched like elements. -/
def attributeTargets (node : RouteNode) (name : QName) : List Target :=
  let exact := node.attributes.any fun attr => attr.1.isExact name
  (node.attributes.filter fun attr =>
    attr.1.isExact name || (!exact && attr.1.isAnyNamespace name)).map Prod.snd

def isLeaf (node : RouteNode) : Bool := node.children.isEmpty

/-- `child_mut`: the child with a step, made if there is none, given to `change`. -/
def child {α : Type} (node : RouteNode) (step : Step) (change : RouteNode → RouteNode × α) :
    RouteNode × α :=
  match node.children.findIdx? fun child => child.step == step with
  | some index =>
    let (child, a) := change (node.children.getD index (new step))
    ({ node with children := node.children.set index child }, a)
  | none =>
    let (child, a) := change (new step)
    ({ node with children := node.children ++ [child] }, a)

/-- The node's counter, the next of `anchors` if it has none. -/
def anchored (node : RouteNode) (anchors : Nat) : RouteNode × Nat × Nat :=
  match node.anchor with
  | some counter => (node, anchors, counter)
  | none => ({ node with anchor := some anchors }, anchors + 1, anchors)

/-- Where the path of a route ends. -/
def fill (node : RouteNode) (attr : Option QName) (target : Target) : RouteNode :=
  match attr with
  | some attr => { node with attributes := node.attributes ++ [(Step.of attr, target)] }
  | none => { node with targets := node.targets ++ [target] }

/-- Follow the path of a route from step `index` on.  `anchors` counts the counters
given out; the counter of the route's anchor comes back if the anchor is on the way. -/
def insert (route : FieldRoute) (target : Target) :
    Nat → List QName → Nat → RouteNode → RouteNode × Nat × Option Nat
  | _, [], anchors, node => (node.fill route.attr target, anchors, none)
  | index, name :: path, anchors, node =>
    node.child (Step.of name) fun node =>
      if route.anchor = some index then
        let (node, anchors, counter) := node.anchored anchors
        let (node, anchors, _) := insert route target (index + 1) path anchors node
        (node, anchors, some counter)
      else insert route target (index + 1) path anchors node

end RouteNode

/-! ## The tree -/

/-- The feature's route tree and the output columns. -/
structure RouteTree (P : Type) where
  root : RouteNode
  columns : List (ColumnPlan P)
  /-- Anchor counters (one per anchoring node). -/
  anchors : Nat

namespace RouteTree

variable {P : Type}

/-- `plans[column].anchor = counter`. -/
def setAnchor (plans : List (ColumnPlan P)) (column : Nat) (counter : Option Nat) :
    List (ColumnPlan P) :=
  match counter, plans[column]? with
  | some counter, some plan => plans.set column { plan with anchor := counter }
  | _, _ => plans

/-- A turn of the loop of `RouteTree::new`. -/
def add (columns : List (Option Nat)) (tree : RouteTree P) (route : FieldRoute) : RouteTree P :=
  match route.fieldPath.head?.bind fun index => (columns[index]?).join with
  | none => tree
  | some column =>
    let target := { column, value := route.value }
    let (root, anchors, counter) :=
      tree.root.insert route target 0 route.sourcePath tree.anchors
    { root, anchors, columns := setAnchor tree.columns column counter }

/-- `columns[i]` is the output index of the schema's column `i`, if it is read; `plans`
are the output columns. -/
def new (routes : List FieldRoute) (columns : List (Option Nat)) (plans : List (ColumnPlan P)) :
    RouteTree P :=
  routes.foldl (add columns) { root := .new .any, columns := plans, anchors := 0 }

end RouteTree

end Xeibe.Arrow

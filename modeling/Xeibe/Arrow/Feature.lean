import Xeibe.Arrow.Route
import Xeibe.Schema.Scan

/-!
# Reading a feature

`xeibe-arrow/src/feature.rs`: a feature element as a row of values.  The events come
as a body, with the bytes they are written with: what a reader that stands in an
element's content reads up to the element's end tag.

The reader changes the row being read only by the operations of `RowOps`; `RowState`
is the row of the source.

Parameters are the types of geometries (`G`), envelopes (`E`) and geometry columns
(`P`), the parser of geometries, the conversion to another CRS, and the builders of
the columns.  A text that would make `parse_scalar` panic counts as one that does
not parse.
-/

namespace Xeibe.Arrow

open Lib
open Schema (trim isArrayProperty)

/-! ## Events -/

structure StartTag where
  name : QName
  attrs : List (QName × Bytes)
  deriving DecidableEq

/-- What follows up to an end tag, as written and as read.  A comment is a text that
stands for nothing.  `unreadable` is what `next_event` fails at and `skip_element`
passes over (an entity that is not defined), as a tag whose name has no namespace. -/
inductive Body (ε : Type) where
  | done
  | text (written s : Bytes) (rest : Body ε)
  | unreadable (written : Bytes) (error : ε) (rest : Body ε)
  | element (tag : Except ε StartTag) (written : Bytes) (content : Body ε) (close : Bytes)
      (rest : Body ε)

namespace Body

variable {ε : Type}

/-- The body as written. -/
def render : Body ε → Bytes
  | done => []
  | text written _ rest => written ++ rest.render
  | unreadable written _ rest => written ++ rest.render
  | element _ written content close rest =>
    written ++ (content.render ++ (close ++ rest.render))

/-- What `next_event` fails at in it. -/
def errors : Body ε → List ε
  | done => []
  | text _ _ rest => rest.errors
  | unreadable _ error rest => error :: rest.errors
  | element (.error error) _ content _ rest => error :: (content.errors ++ rest.errors)
  | element (.ok _) _ content _ rest => content.errors ++ rest.errors

/-- `inner_text`. -/
def innerText : Body ε → Except ε Bytes
  | done => .ok []
  | text _ s rest => do .ok (s ++ (← rest.innerText))
  | unreadable _ error _ => .error error
  | element (.error error) _ _ _ _ => .error error
  | element (.ok _) _ content _ rest => do
    let s ← content.innerText
    .ok (s ++ (← rest.innerText))

end Body

/-! ## Values -/

/-- One field's value in a row being read. -/
inductive Value (F G E : Type) where
  | null
  | scalar (s : Scalar F)
  | geometry (g : G)
  | box (e : E)
  | list (items : List (Value F G E))
  | map (pairs : List (Bytes × Bytes))

/-- What `geometries` inherit. -/
structure ParseContext where
  srsName : Option Bytes := none
  srsDimension : Option Nat := none
  deriving DecidableEq

/-- A piece of a message: fixed text, an interpolated `str`, one shown with `{:?}`, a
type. -/
inductive Part where
  | text (s : String)
  | str (s : Bytes)
  | quoted (s : Bytes)
  | type (dataType : DataType)
  deriving DecidableEq

abbrev Text := List Part

/-! ## Parameters -/

/-- An error of the geometry parser: the reader's, at something in the body it reads, or
one of the geometry. -/
inductive GeomError {ε : Type} (body : Body ε) where
  | core (error : ε) (inside : error ∈ body.errors)
  | geometry (message : Text)

structure ParsedGeometry (G : Type) where
  geometry : Option G
  srsName : Option Bytes
  warnings : List Bytes

/-- What is known of geometries. -/
structure Geometries (ε A G E P : Type) where
  isGml33 : QName → Bool
  /-- `GeometryParser::parse`, for a column's axis resolver. -/
  parse : ParseContext → Nat → StartTag → (body : Body ε) →
    Except (GeomError body) (ParsedGeometry G)
  /-- `parse_bounded_by_inherited`. -/
  parseBoundedBy : ParseContext → (body : Body ε) →
    Except (GeomError body) (Option E × ParseContext)
  /-- `Geometry::from_parts`. -/
  fromParts : List G → G
  /-- `GeometrySpec::prepare`. -/
  prepare : P → G → Except G G
  /-- Kind and dimension of a geometry that does not fit, as the message shows them. -/
  shape : G → Bytes
  /-- `GeometrySpec::describe`. -/
  describe : P → Bytes
  /-- The CRS of an srsName, or the name itself, as `other_crs` compares them. -/
  crs : Bytes → Bytes
  /-- The corners of an envelope as a column's axis resolver has them. -/
  orient : Nat → E → E
  /-- With `target_crs`: `Conversions::convert`. -/
  convert : Option (G → Option Bytes → Except A (Except Text G))
  convertEnvelope : Option (E → Except A (Except Text E))

inductive OnFeatureError where
  | error
  | skip
  | nullGeometry
  deriving DecidableEq

/-- What `ReadPlan` says of the features. -/
structure FeaturePlan (P : Type) where
  routes : RouteTree P
  hasGeometry : Bool
  /-- `geometry.crs_override` is set. -/
  crsOverride : Bool
  onFeatureError : OnFeatureError
  stripLocalHrefHash : Bool
  emptyAsNull : Bool

/-! ## The row being read -/

/-- What the reader does to a row. -/
structure RowOps (F G E σ : Type) where
  inherited : σ → ParseContext
  /-- The feature's `boundedBy` hands this down. -/
  boundedBy : ParseContext → σ → σ
  /-- An anchor occurs. -/
  count : Nat → σ → σ
  put : Nat → Value F G E → σ → σ
  fail : Text → σ → σ
  failGeometry : Text → σ → σ
  warn : Bytes → σ → σ

def isString : DataType → Bool
  | .utf8 | .largeUtf8 | .utf8View => true
  | _ => false

/-- The index of the last place of a pattern. -/
def rfind (pattern s : Bytes) : Option Nat :=
  (List.range (s.length + 1)).reverse.find? fun i => pattern.isPrefixOf (s.drop i)

/-- An element's raw XML without the end tag. -/
def innerRaw (raw : Bytes) : Bytes :=
  match rfind (utf8 "</") raw with
  | some stop => raw.take stop
  | none => raw

/-- `parent/child`, or `child` at the top. -/
def joinPath (parent : Bytes) (child : QName) : Bytes :=
  if parent.isEmpty then child.localName else parent ++ utf8 "/" ++ child.localName

/-- The entry of an element in a map, when it ends. -/
def mapEntry (path text : Bytes) : List (Bytes × Bytes) :=
  let text := trim text
  if text.isEmpty then [] else [(if path.isEmpty then utf8 "#text" else path, text)]

/-- `subtree_map` inside the element at `path`: the entries below it, and its text. -/
def subtreePairs {ε : Type} (path : Bytes) : Body ε → Except ε (List (Bytes × Bytes) × Bytes)
  | .done => .ok ([], [])
  | .text _ s rest => do
    let (pairs, text) ← subtreePairs path rest
    .ok (pairs, s ++ text)
  | .unreadable _ error _ => .error error
  | .element (.error error) _ _ _ _ => .error error
  | .element (.ok tag) _ content _ rest => do
    let childPath := joinPath path tag.name
    let attrs := tag.attrs.map fun (name, value) =>
      (childPath ++ utf8 "/@" ++ name.localName, value)
    let (below, text) ← subtreePairs childPath content
    let (pairs, restText) ← subtreePairs path rest
    .ok (attrs ++ below ++ mapEntry childPath text ++ pairs, restText)

def subtreeMap {ε : Type} (body : Body ε) : Except ε (List (Bytes × Bytes)) := do
  let (pairs, text) ← subtreePairs [] body
  .ok (pairs ++ mapEntry [] text)

/-- An element whose start tag was read. -/
structure Opened where
  /-- The feature is 0. -/
  depth : Nat
  nil : Bool
  /-- A GML array property: its geometries are one value. -/
  array : Bool

/-- Why a feature is not read to its end: the reader's error, or one of the conversion
to another CRS. -/
inductive ReadError (ε A : Type) where
  | core (error : ε)
  | other (error : A)

/-- What the loop over an element's content has. -/
structure Gathered (G σ : Type) where
  row : σ
  text : Bytes := []
  hadChildren : Bool := false
  /-- `none` once a geometry failed. -/
  parts : Option (List G) := some []
  geometries : Nat := 0

def geometryTargets (nodes : List RouteNode) : List Target :=
  (nodes.flatMap RouteNode.targets).filter fun target => target.value == .geometry

/-- A target that takes the element whole. -/
def takesWhole (target : Target) : Bool :=
  target.value == .map || target.value == .innerText || target.value == .boundingBox

def wants (value : RouteValue) (nodes : List RouteNode) : Bool :=
  (nodes.flatMap RouteNode.targets).any fun target => target.value == value

section

variable {F G E P σ ε A : Type} (floats : Floats F) (geo : Geometries ε A G E P)
  (plan : FeaturePlan P) (ops : RowOps F G E σ)

/-! ## Values -/

/-- Parse a text as the column's type and put it. -/
def putText (target : Target) (text : Bytes) (row : σ) : σ :=
  match plan.routes.columns[target.column]? with
  | some column =>
    match column.item with
    | .scalar dataType =>
      if text.isEmpty && (plan.emptyAsNull || !isString dataType) then row
      else
        match parseScalar floats dataType text with
        | .ok scalar => ops.put target.column (.scalar scalar) row
        | .error _ =>
          ops.fail [.text "column ", .str column.name, .text ": ", .quoted text,
            .text " is not a valid ", .type dataType] row
    | _ => row
  | none => row

/-- An element's text into a `Text` target.  A string column at an element with child
elements takes its raw XML. -/
def textInto (target : Target) (text : Bytes) (raw : Option Bytes) (row : σ) : σ :=
  match plan.routes.columns[target.column]? with
  | some column =>
    match column.item with
    | .scalar dataType =>
      let value := match raw with
        | some raw => if isString dataType then trim raw else trim text
        | none => trim text
      if value.isEmpty && (plan.emptyAsNull || !isString dataType) then row
      else putText floats plan ops target value row
    | _ => row
  | none => row

/-- The start tag of an element that `nodes` match: count the anchors among them, then
put the attributes.  Returns whether it is `xsi:nil`. -/
def start (nodes : List RouteNode) (attrs : List (QName × Bytes)) (row : σ) : Bool × σ :=
  let counted := nodes.foldl (fun row node =>
    match node.anchor with
    | some anchor => ops.count anchor row
    | none => row) row
  attrs.foldl (fun (nil, row) (name, value) =>
    if name.ns = some ns.XSI then
      (if name.localName = utf8 "nil" then
        trim value = utf8 "true" ∨ trim value = utf8 "1" else nil, row)
    else
      let value := trim value
      let value :=
        if name.ns = some ns.XLINK ∧ name.localName = utf8 "href" ∧ plan.stripLocalHrefHash then
          (stripPrefix (utf8 "#") value).getD value
        else value
      (nil, (nodes.flatMap (·.attributeTargets name)).foldl
        (fun row target => putText floats plan ops target value row) row)) (false, counted)

/-! ## Geometries -/

/-- `other_crs`: the geometry is in another CRS than the column. -/
def otherCrs (column : ColumnPlan P) (srsName : Option Bytes) : Option Text :=
  if plan.crsOverride ∨ geo.convert.isSome then none
  else
    match column.srsName, srsName with
    | some columnSrs, some srsName =>
      if columnSrs = srsName ∨ geo.crs columnSrs = geo.crs srsName then none
      else
        some [.text "column ", .str column.name, .text ": srsName ", .quoted srsName,
          .text " is another CRS than the column's (", .quoted columnSrs, .text ")"]
    | _, _ => none

/-- The geometry element whose start was read, inside a property that `nodes` match.
`none` if it is a geometry error, or in a CRS one of the columns can't take. -/
def geometry (nodes : List RouteNode) (tag : StartTag) (body : Body ε) (row : σ) :
    Except (ReadError ε A) (Option G × σ) :=
  let columns := (geometryTargets nodes).filterMap fun target =>
    plan.routes.columns[target.column]?
  match columns.head?.map ColumnPlan.item with
  | some (.geometry _ axis) =>
    match geo.parse (ops.inherited row) axis tag body with
    | .ok parsed =>
      let row := parsed.warnings.foldl (fun row warning => ops.warn warning row) row
      match columns.findSome? fun column => otherCrs geo plan column parsed.srsName with
      | some message => .ok (none, ops.failGeometry message row)
      | none =>
        match geo.convert, parsed.geometry with
        | some convert, some geometry =>
          match convert geometry parsed.srsName with
          | .error error => .error (.other error)
          | .ok (.error message) => .ok (none, ops.failGeometry message row)
          | .ok (.ok geometry) => .ok (some geometry, row)
        | _, _ => .ok (parsed.geometry, row)
    | .error (.core error _) => .error (.core error)
    | .error (.geometry message) => .ok (none, ops.failGeometry message row)
  | _ => .ok (none, row)

/-- A property's geometry into each of its geometry columns, in the column's form. -/
def putGeometry (nodes : List RouteNode) (geometry : G) (row : σ) : σ :=
  (geometryTargets nodes).foldl (fun row target =>
    match plan.routes.columns[target.column]? with
    | some column =>
      match column.item with
      | .geometry spec _ =>
        match geo.prepare spec geometry with
        | .ok geometry => ops.put target.column (.geometry geometry) row
        | .error geometry =>
          ops.failGeometry [.text "column ", .str column.name, .text ": a ",
            .str (geo.shape geometry), .text " doesn't fit ", .str (geo.describe spec)] row
      | _ => row
    | none => row) row

/-- A `boundedBy` routed to a box column. -/
def boundingBox (target : Target) (depth : Nat) (body : Body ε) (row : σ) :
    Except (ReadError ε A) σ :=
  match geo.parseBoundedBy (ops.inherited row) body with
  | .ok (some envelope, inherited) =>
    let row := if depth = 0 then ops.boundedBy inherited row else row
    let envelope :=
      match (plan.routes.columns[target.column]?).map ColumnPlan.item with
      | some (.box axis) => geo.orient axis envelope
      | _ => envelope
    match geo.convertEnvelope with
    | none => .ok (ops.put target.column (.box envelope) row)
    | some convert =>
      match convert envelope with
      | .error error => .error (.other error)
      | .ok (.error message) => .ok (ops.failGeometry message row)
      | .ok (.ok envelope) => .ok (ops.put target.column (.box envelope) row)
  | .ok (none, _) => .ok row
  | .error (.core error _) => .error (.core error)
  | .error (.geometry message) => .ok (ops.failGeometry message row)

/-- Read a feature's `boundedBy` only for what it hands down. -/
def boundedBySrs (body : Body ε) (row : σ) : Except (ReadError ε A) σ :=
  match geo.parseBoundedBy (ops.inherited row) body with
  | .ok (_, inherited) => .ok (ops.boundedBy inherited row)
  | .error (.core error _) => .error (.core error)
  | .error (.geometry _) => .ok row

/-! ## Elements -/

/-- A target that takes the element whole: a map, the text without its markup, or a
box. -/
def whole (target : Target) (depth : Nat) (body : Body ε) (row : σ) : Except (ReadError ε A) σ :=
  match target.value with
  | .map =>
    match subtreeMap body with
    | .error error => .error (.core error)
    | .ok [] => .ok row
    | .ok pairs => .ok (ops.put target.column (.map pairs) row)
  | .boundingBox => boundingBox geo plan ops target depth body row
  | _ =>
    match body.innerText with
    | .error error => .error (.core error)
    | .ok text => .ok (textInto floats plan ops target text none row)

/-- What is put at the end tag of an element that `nodes` match. -/
def atEnd (nodes : List RouteNode) (opened : Opened) (raw : Bytes) (g : Gathered G σ) : σ :=
  let row := match g.parts with
    | some (part :: parts) =>
      let geometry := if opened.array then geo.fromParts (part :: parts) else part
      putGeometry geo plan ops nodes geometry g.row
    | _ => g.row
  let raw := if g.hadChildren then some (innerRaw raw) else none
  ((nodes.flatMap RouteNode.targets).filter fun target => target.value == .text).foldl
    (fun row target => textInto floats plan ops target g.text raw row) row

/-- The content of an element that `nodes` match, up to and including its end tag;
`read` is the loop over its events, `raw` its raw XML. -/
def content (nodes : List RouteNode) (opened : Opened) (body : Body ε) (raw : Bytes)
    (read : Gathered G σ → Except (ReadError ε A) (Gathered G σ)) (row : σ) :
    Except (ReadError ε A) σ :=
  -- Null: whatever it holds is not read.
  if opened.nil then .ok row
  else
    match (nodes.flatMap RouteNode.targets).find? takesWhole with
    | some target => whole floats geo plan ops target opened.depth body row
    | none =>
      if !wants .text nodes && !wants .geometry nodes && nodes.all RouteNode.isLeaf then .ok row
      else do
        let gathered ← read { row }
        .ok (atEnd floats geo plan ops nodes opened raw gathered)

/-- A geometry element inside a property. -/
def part (nodes : List RouteNode) (opened : Opened) (tag : StartTag) (body : Body ε)
    (g : Gathered G σ) : Except (ReadError ε A) (Gathered G σ) :=
  let g := { g with geometries := g.geometries + 1 }
  if 1 < g.geometries && !opened.array then
    -- A second value where the column holds one.
    let name := match (geometryTargets nodes).head? with
      | some target => ((plan.routes.columns[target.column]?).map ColumnPlan.name).getD []
      | none => []
    .ok { g with row := ops.fail [.text "column ", .str name,
      .text ": a second geometry in one property; only GML's array properties (pointArrayProperty, …) hold several"] g.row }
  else do
    let (part, row) ← geometry geo plan ops nodes tag body g.row
    .ok { g with
      row
      parts := match g.parts, part with
        | some parts, some part => some (parts ++ [part])
        | _, _ => none }

/-- The loop over an element's content. -/
def loop (nodes : List RouteNode) (opened : Opened) :
    Body ε → Gathered G σ → Except (ReadError ε A) (Gathered G σ)
  | .done, g => .ok g
  | .text _ s rest, g =>
    loop nodes opened rest (if wants .text nodes then { g with text := g.text ++ s } else g)
  | .unreadable _ error _, _ => .error (.core error)
  | .element (.error error) _ _ _ _, _ => .error (.core error)
  | .element (.ok tag) _ inner close rest, g => do
    let g := { g with hadChildren := true }
    let g ← (
      if wants .geometry nodes && (tag.name.isGml || geo.isGml33 tag.name) then
        part geo plan ops nodes opened tag inner g
      else
        match nodes.flatMap (·.matchingChildren tag.name) with
        | [] =>
          if opened.depth = 0 && tag.name.isGmlNamed (utf8 "boundedBy") && plan.hasGeometry then do
            -- The feature's envelope gives its geometries their srsName.
            let row ← boundedBySrs geo ops inner g.row
            .ok { g with row }
          else .ok g
        | matched => do
          let (nil, row) := start floats plan ops matched tag.attrs g.row
          let child : Opened :=
            { depth := opened.depth + 1, nil, array := isArrayProperty tag.name }
          let row ← content floats geo plan ops matched child inner (inner.render ++ close)
            (fun g => loop matched child inner g) row
          .ok { g with row })
    loop nodes opened rest g

/-- The feature's start tag and content. -/
def element (tag : StartTag) (body : Body ε) (close : Bytes) (row : σ) :
    Except (ReadError ε A) σ :=
  let nodes := [plan.routes.root]
  let (nil, row) := start floats plan ops nodes tag.attrs row
  let opened : Opened := { depth := 0, nil, array := false }
  content floats geo plan ops nodes opened body (body.render ++ close)
    (loop floats geo plan ops nodes opened body) row

end

end Xeibe.Arrow

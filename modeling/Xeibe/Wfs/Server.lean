import Xeibe.Wfs.Model
import Mathlib.Data.List.Perm.Basic

/-!
# Servers and reads

A server holds the features of a layer in a fixed order for each sort order,
and `Serves` says which answers it may give for a URL: the right slice, with
exact counts and a link that continues the list, a truncated response, or the
exception of an expired cache.

A read is what the client does with the answers, one request after the other.
-/

namespace Xeibe.Wfs

variable {Feature : Type}

/-- What a server serves. -/
structure Server (Feature : Type) where
  /-- The features, in the order that a sort order gives them. -/
  features : SortBy → List Feature
  perm : ∀ order order', (features order).Perm (features order')
  /-- What a link continues: a sort order, and where. -/
  resolve : String → SortBy × Nat

/-- The part of a list that a URL asks for. -/
structure Range where
  order : SortBy
  start : Nat
  count : Option Nat

namespace Server

variable (server : Server Feature)

def range : Url → Range
  | .query query => {
      order := query.sortBy
      start := query.startIndex.getD 0
      count := query.count }
  | .link uri => {
      order := (server.resolve uri).1
      start := (server.resolve uri).2
      count := none }

/-- The features from the start of a range on. -/
def rest (range : Range) : List Feature := (server.features range.order).drop range.start

/-- The features of a range. -/
def slice (range : Range) : List Feature :=
  match range.count with
  | some count => (server.rest range).take count
  | none => server.rest range

/-- An offset is asked for. -/
def isOffset : Url → Bool
  | .query query => query.startIndex.isSome
  | .link _ => false

/-- A page of the features that `url` asks for: all of them, or the first few
where `numberMatched` says how many there are or where the server makes up the
pages itself. -/
structure Page (url : Url) (info : ResponseInfo) (members : List Feature) : Prop where
  part : members <+: server.slice (server.range url)
  filled : server.slice (server.range url) ≠ [] → members ≠ []
  returned : info.returned = members.length
  matched : info.numberMatched = none ∨
    info.numberMatched = some (server.features (server.range url).order).length
  /-- No cap without the total. -/
  whole : info.numberMatched = none → isOffset url = true →
    members = server.slice (server.range url)
  /-- A link continues the list. -/
  next : ∀ uri, info.next = some uri →
    server.resolve uri =
        ((server.range url).order, (server.range url).start + members.length) ∧
      (server.range url).start + members.length < (server.features (server.range url).order).length
  /-- Where the server makes up the pages, there is a link while there is more. -/
  more : isOffset url = false →
    (server.range url).start + members.length <
      (server.features (server.range url).order).length → info.next.isSome = true

/-- The answers a server may give. -/
inductive Serves : Url → Answer Feature → Prop where
  | page {url : Url} {info : ResponseInfo} {members : List Feature} (hcomplete : info.complete = true)
      (htruncated : info.truncated = false) (h : server.Page url info members) :
      Serves url (.features info members)
  | truncated (url : Url) {info : ResponseInfo} (members : List Feature)
      (h : info.complete = false ∨ info.truncated = true) : Serves url (.features info members)
  | expired (url : Url) {report : ExceptionReport} (h : report.isCacheExpired = true) :
      Serves url (.exception report)

end Server

/-! ## Reads -/

/-- The pager with the pages it has yielded.  An error ends the pages. -/
structure Reading (Feature : Type) where
  pager : Pager
  pages : List (List Feature)
  error : Option Error

namespace Reading

def start (pager : Pager) : Reading Feature := { pager, pages := [], error := none }

/-- The URL that is asked for next. -/
def url (r : Reading Feature) : Option Url :=
  match r.error with
  | some _ => none
  | none => r.pager.url

/-- The features of the pages, in the order in which they are yielded. -/
def features (r : Reading Feature) : List Feature := r.pages.flatten

def receive (r : Reading Feature) (answer : Answer Feature) : Reading Feature :=
  match r.pager.receive answer with
  | .ok (pager, page) => { r with pager, pages := r.pages ++ page.toList }
  | .error e => { r with error := some e }

end Reading

/-- Truncated responses stay within `max_retries` for a page, and the cache
expires only while links are followed. -/
def Pager.Within (p : Pager) : Answer Feature → Prop
  | .exception _ => p.strategy = .nextLink
  | .features info _ => info.complete = false ∨ info.truncated = true → p.attempts < p.maxRetries

/-- The reads of `pager` on `server` with `n` requests, every one of which
meets `meets`. -/
inductive Reads (server : Server Feature) (pager : Pager) (meets : Pager → Answer Feature → Prop) :
    Nat → Reading Feature → Prop where
  | start : Reads server pager meets 0 (.start pager)
  | request {n : Nat} {r : Reading Feature} {url : Url} {answer : Answer Feature}
      (h : Reads server pager meets n r) (hurl : r.url = some url)
      (hserves : server.Serves url answer) (hwithin : r.pager.Within answer)
      (hmeets : meets r.pager answer) : Reads server pager meets (n + 1) (r.receive answer)

/-- The read follows offsets, or links from its first page on. -/
def Pager.Follows (p : Pager) : Prop :=
  match p.strategy with
  | .startIndex _ | .vendorStartIndex _ | .nextLink => True
  | .single => p.automatic = true ∧ p.version.is2 = true
  | .spatialTiling _ => False

/-- The sort order that the offset requests of a template name. -/
def offsetOrder (template : GetFeature) (sortBy : Option String) : SortBy :=
  if template.version = .v1_0_0 then []
  else
    match sortBy with
    | some property => [(property, .asc)]
    | none => template.sortBy

/-- The sort order of an offset request. -/
def Pager.offsetOrder (p : Pager) : SortBy := Wfs.offsetOrder p.template p.sortBy

/-- The sort order of the first request of a read. -/
def Pager.firstOrder (p : Pager) : SortBy :=
  match p.strategy with
  | .startIndex _ | .vendorStartIndex _ => p.offsetOrder
  | _ => []

/-- The read can go on after `ResponseCacheExpired`: the service declares that
it can be paged, and a read that goes on in the order of offset requests is in
one order, because it has got the first features of that order or because the
others are the same. -/
def Pager.Resumes (server : Server Feature) (first : SortBy) (p : Pager) : Answer Feature → Prop
  | .exception _ =>
    p.resumePageSize.isSome = true ∧
      ((server.features first).take p.fetched = (server.features p.offsetOrder).take p.fetched ∨
        (server.features first).drop p.fetched = (server.features p.offsetOrder).drop p.fetched)
  | .features .. => True

end Xeibe.Wfs

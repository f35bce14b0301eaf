import Mathlib.Data.List.Basic

/-!
# Reading a WFS layer page by page

`WfsClient::pages` chooses a paging strategy and makes a pager, which turns the
answers of a server into pages.  The pager is a state machine: it asks for one
URL at a time and goes on with what comes back.

A URL is what the server makes of it: the parameters in which the requests of
one read differ, or a link that the server has made up itself (an absolute
URI).  The other parameters are the same in every request of a read and are
left out.
-/

namespace Xeibe.Wfs

/-! ## Requests -/

inductive WfsVersion where
  | v1_0_0
  | v1_1_0
  | v2_0_0
  | v2_0_2
deriving DecidableEq, Repr

/-- `self >= V2_0_0`. -/
def WfsVersion.is2 : WfsVersion → Bool
  | .v1_0_0 | .v1_1_0 => false
  | .v2_0_0 | .v2_0_2 => true

inductive SortOrder where
  | asc
  | desc
deriving DecidableEq, Repr

abbrev SortBy := List (String × SortOrder)

structure GetFeature where
  version : WfsVersion
  sortBy : SortBy
  count : Option Nat
  startIndex : Option Nat
deriving DecidableEq, Repr

/-- `SORTBY`, `COUNT` or `MAXFEATURES`, and `STARTINDEX`. -/
structure Query where
  sortBy : SortBy
  count : Option Nat
  startIndex : Option Nat
deriving DecidableEq, Repr

inductive Url where
  | query (query : Query)
  | link (uri : String)
deriving DecidableEq, Repr

/-- WFS 1.0 has no `SORTBY`. -/
def GetFeature.toUrl (request : GetFeature) : Url :=
  .query {
    sortBy := if request.version = .v1_0_0 then [] else request.sortBy
    count := request.count
    startIndex := request.startIndex }

/-! ## Responses -/

/-- The codes of an exception report. -/
structure ExceptionReport where
  exceptions : List (Option String)
deriving DecidableEq, Repr

def ExceptionReport.hasCode (report : ExceptionReport) (code : String) : Bool :=
  report.exceptions.any fun c => c = some code

/-- Resume with `startIndex`. -/
def ExceptionReport.isCacheExpired (report : ExceptionReport) : Bool :=
  report.hasCode "ResponseCacheExpired"

structure ResponseInfo where
  /-- `none` for "unknown". -/
  numberMatched : Option Nat
  numberReturned : Option Nat
  next : Option String
  truncated : Bool
  /-- The closing collection element is there. -/
  complete : Bool
  /-- Features counted in the members. -/
  features : Nat
  featureIds : List String
deriving DecidableEq, Repr

/-- Features in this response: the server's count, else the counted members. -/
def ResponseInfo.returned (info : ResponseInfo) : Nat :=
  info.numberReturned.getD info.features

/-- What comes back for a URL: an exception report, or a response with the
features in it. -/
inductive Answer (Feature : Type) where
  | exception (report : ExceptionReport)
  | features (info : ResponseInfo) (members : List Feature)

inductive Error where
  | exception (report : ExceptionReport)
  | truncated (page : Nat)
  | unsupported (message : String)
deriving DecidableEq, Repr

/-! ## Paging -/

inductive PagingStrategy where
  | nextLink
  | startIndex (pageSize : Nat)
  | vendorStartIndex (pageSize : Nat)
  | spatialTiling (maxPerTile : Nat)
  | single
deriving DecidableEq, Repr

def DEFAULT_PAGE_SIZE : Nat := 5000

structure Constraints where
  implementsResultPaging : Option Bool
  countDefault : Option Nat
  pagingIsTransactionSafe : Option Bool
deriving DecidableEq, Repr

structure Capabilities where
  version : WfsVersion
  constraints : Constraints
deriving DecidableEq, Repr

/-- `min(requested, CountDefault)`, or whichever is given, or the default. -/
def pageSize (capabilities : Capabilities) (requested : Option Nat) : Nat :=
  let countDefault := capabilities.constraints.countDefault.filter (· > 0)
  let size :=
    match requested, countDefault with
    | some requested, some limit => min requested limit
    | some requested, none => requested
    | none, some limit => limit
    | none, none => DEFAULT_PAGE_SIZE
  max size 1

/-- The page size of a forced strategy, capped by `CountDefault`. -/
def capPageSize (capabilities : Capabilities) (pageSize : Nat) : Nat :=
  let size :=
    match capabilities.constraints.countDefault with
    | some limit => if limit > 0 then min pageSize limit else pageSize
    | none => pageSize
  max size 1

/-- Choose a strategy from the capabilities, before the first request. -/
def choose (capabilities : Capabilities) (requestedPageSize : Option Nat)
    (forced : Option PagingStrategy) : PagingStrategy :=
  match forced with
  | some (.startIndex size) => .startIndex (capPageSize capabilities size)
  | some (.vendorStartIndex size) => .vendorStartIndex (capPageSize capabilities size)
  | some forced => forced
  | none =>
    if capabilities.version.is2 ∧ capabilities.constraints.implementsResultPaging = some true then
      .startIndex (pageSize capabilities requestedPageSize)
    else
      .single

/-- Where to continue after a page (or after `ResponseCacheExpired`). -/
inductive NextPage where
  | url (url : Url)
  | startIndex (start : Nat)
  | done
deriving DecidableEq, Repr

/-- Offset paging stops at a short (or empty) page, or once `numberMatched`
features have arrived; `next`-link paging stops at the page without one. -/
def nextPage (strategy : PagingStrategy) (fetchedSoFar : Nat) (last : ResponseInfo) : NextPage :=
  match strategy with
  | .nextLink =>
    match last.next with
    | some next => .url (.link next)
    | none => .done
  | .startIndex pageSize | .vendorStartIndex pageSize =>
    let returned := last.returned
    let done : Bool :=
      match last.numberMatched with
      | some matched => returned = 0 ∨ fetchedSoFar ≥ matched
      | none => returned = 0 ∨ returned < pageSize
    if done then .done else .startIndex fetchedSoFar
  | .spatialTiling _ | .single => .done

/-! ## The pager -/

/-- Sent after every page. -/
structure Progress where
  pages : Nat
  features : Nat
  numberMatched : Option Nat
  warnings : List String
deriving DecidableEq, Repr

structure Pager where
  template : GetFeature
  sortBy : Option String
  version : WfsVersion
  /-- The strategy was chosen, not forced: a `next` link may take over. -/
  automatic : Bool
  strategy : PagingStrategy
  next : NextPage
  resumePageSize : Option Nat
  pagingIsTransactionSafe : Option Bool
  maxRetries : Nat
  /-- Truncated responses of the current page so far. -/
  attempts : Nat
  fetched : Nat
  pages : Nat
  firstMatched : Option Nat
  matchedWarned : Bool
  unsafeWarned : Bool
  /-- Ids of the previous page. -/
  previousIds : List String
  /-- Warnings for the next progress report. -/
  warnings : List String
  /-- The reports so far. -/
  progress : List Progress

namespace Pager

def offsetUrl (p : Pager) (start : Nat) : Url :=
  let pageSize :=
    match p.strategy with
    | .startIndex pageSize | .vendorStartIndex pageSize => pageSize
    | _ => DEFAULT_PAGE_SIZE
  let request := { p.template with count := some pageSize, startIndex := some start }
  let request :=
    match p.sortBy with
    | some property => { request with sortBy := [(property, .asc)] }
    | none => request
  request.toUrl

/-- The URL that is asked for next; `none` at the end. -/
def url (p : Pager) : Option Url :=
  match p.next with
  | .done => none
  | .url url => some url
  | .startIndex start => some (p.offsetUrl start)

/-- `ResponseCacheExpired` while following `next` links continues at the
current offset if the server implements paging; any other exception ends the
read. -/
def resumeAfter (p : Pager) (report : ExceptionReport) : Except Error Pager :=
  match p.resumePageSize with
  | some pageSize =>
    if report.isCacheExpired ∧ p.strategy = .nextLink then
      .ok {
        p with
        strategy := .startIndex pageSize
        next := .startIndex p.fetched
        warnings := p.warnings ++
          [s!"the server's result cache expired; continuing with startIndex={p.fetched}"] }
    else
      .error (.exception report)
  | none => .error (.exception report)

/-- Half the page size under offset paging, and the new page size. -/
def halvePageSize (p : Pager) : Pager × Option Nat :=
  match p.strategy with
  | .startIndex pageSize =>
    let size := max (pageSize / 2) 1
    ({ p with strategy := .startIndex size }, some size)
  | .vendorStartIndex pageSize =>
    let size := max (pageSize / 2) 1
    ({ p with strategy := .vendorStartIndex size }, some size)
  | _ => (p, none)

/-- A truncated response, retried with half the page size under offset paging. -/
def retry (p : Pager) (page : Nat) : Except Error Pager :=
  let p := { p with attempts := p.attempts + 1 }
  if p.attempts > p.maxRetries then
    .error (.truncated page)
  else
    let (p, halved) := p.halvePageSize
    let warning :=
      match halved with
      | some size => s!"page {page} was truncated; retrying with {size} features per page"
      | none => s!"page {page} was truncated; retrying"
    .ok { p with warnings := p.warnings ++ [warning] }

/-- An automatic choice defers to server-generated `next` links (2.0). -/
def takeUpLinks (p : Pager) (page : Nat) (info : ResponseInfo) : Pager :=
  if p.automatic ∧ page = 1 ∧ p.version.is2 ∧ info.next.isSome ∧ p.strategy ≠ .nextLink then
    { p with strategy := .nextLink }
  else
    p

/-- A changed `numberMatched` is warned of once. -/
def checkMatched (p : Pager) (page : Nat) (info : ResponseInfo) : Pager :=
  if page = 1 then
    { p with firstMatched := info.numberMatched }
  else
    match p.firstMatched, info.numberMatched with
    | some first, some now =>
      if first ≠ now ∧ !p.matchedWarned then
        { p with
          matchedWarned := true
          warnings := p.warnings ++
            [s!"numberMatched changed from {first} to {now}: the data changed during the read"] }
      else
        p
    | _, _ => p

/-- A single request that did not return everything is warned of. -/
def checkSingle (p : Pager) (info : ResponseInfo) : Pager :=
  match p.strategy, info.numberMatched with
  | .single, some matched =>
    if info.returned < matched then
      { p with
        warnings := p.warnings ++
          [s!"a single request returned {info.returned} of {matched} features; " ++
            "the server does not page this layer"] }
    else
      p
  | _, _ => p

/-- Paging that is not declared transaction-safe is warned of once. -/
def checkSafe (p : Pager) : Pager :=
  if p.version.is2 ∧ p.next ≠ .done ∧ p.pagingIsTransactionSafe ≠ some true ∧ !p.unsafeWarned then
    { p with
      unsafeWarned := true
      warnings := p.warnings ++
        ["the server does not declare PagingIsTransactionSafe: features " ++
          "may be skipped or repeated if the data changes during the read"] }
  else
    p

/-- The ids of a page as a set, and how many of them were seen before. -/
def countRepeated (previous : List String) : List String → List String × Nat
  | [] => ([], 0)
  | id :: rest =>
    let (ids, repeated) := countRepeated previous rest
    if previous.contains id then (ids, repeated + 1)
    else if ids.contains id then (ids, repeated + 1)
    else (id :: ids, repeated)

/-- Repeated ids are warned of. -/
def checkRepeated (p : Pager) (page : Nat) (info : ResponseInfo) : Pager :=
  let (ids, repeated) := countRepeated p.previousIds info.featureIds
  let p := { p with previousIds := ids }
  if repeated > 0 then
    { p with
      warnings := p.warnings ++
        [s!"{repeated} features on page {page} repeat a gml:id of this or the previous page"] }
  else
    p

/-- The progress report for a page. -/
def report (p : Pager) (info : ResponseInfo) : Pager :=
  { p with
    warnings := []
    progress := p.progress ++ [{
      pages := p.pages
      features := p.fetched
      numberMatched := info.numberMatched.or p.firstMatched
      warnings := p.warnings }] }

/-- Book-keeping, checks and the progress report for a complete page. -/
def afterPage (p : Pager) (page : Nat) (info : ResponseInfo) : Pager :=
  let p := p.takeUpLinks page info
  let fetched := p.fetched + info.returned
  let p := { p with fetched, pages := page, next := nextPage p.strategy fetched info }
  ((((p.checkMatched page info).checkSingle info).checkSafe).checkRepeated page info).report info

/-- One round of `next_page`: the answer to the request, and the page if it is
one. -/
def receive {Feature : Type} (p : Pager) :
    Answer Feature → Except Error (Pager × Option (List Feature))
  | .exception report => (p.resumeAfter report).map fun p => (p, none)
  | .features info members =>
    let page := p.pages + 1
    if !info.complete || info.truncated then
      (p.retry page).map fun p => (p, none)
    else
      .ok (({ p with attempts := 0 } : Pager).afterPage page info, some members)

end Pager

/-! ## The client -/

structure WfsOptions where
  version : Option WfsVersion
  pageSize : Option Nat
  /-- Forced paging strategy. -/
  strategy : Option PagingStrategy
  sortBy : Option String
  maxRetries : Nat
  dedupe : Bool
deriving DecidableEq, Repr

/-- `WfsClient::pages`, before the first request. -/
def pages (options : WfsOptions) (capabilities : Capabilities) : Except Error Pager :=
  if options.dedupe then
    .error (.unsupported
      "removing duplicate features across pages is not implemented; they are reported")
  else
    let version := options.version.getD capabilities.version
    let strategy := choose capabilities options.pageSize options.strategy
    match strategy with
    | .spatialTiling _ => .error (.unsupported "spatial tiling is not implemented")
    | _ =>
      let template : GetFeature := { version, sortBy := [], count := none, startIndex := none }
      -- A forced next-link strategy asks the server to page by setting `count`.
      let template :=
        if strategy = .nextLink then
          { template with count := options.pageSize.map fun size => pageSize capabilities (some size) }
        else
          template
      let next :=
        match strategy with
        | .startIndex _ | .vendorStartIndex _ => NextPage.startIndex 0
        | _ => .url template.toUrl
      let constraints := capabilities.constraints
      .ok {
        template
        sortBy := options.sortBy
        version
        automatic := options.strategy.isNone
        strategy
        next
        resumePageSize :=
          if version.is2 ∧ constraints.implementsResultPaging = some true then
            some (pageSize capabilities options.pageSize)
          else
            none
        pagingIsTransactionSafe := constraints.pagingIsTransactionSafe
        maxRetries := options.maxRetries
        attempts := 0
        fetched := 0
        pages := 0
        firstMatched := none
        matchedWarned := false
        unsafeWarned := false
        previousIds := []
        warnings := []
        progress := [] }

end Xeibe.Wfs

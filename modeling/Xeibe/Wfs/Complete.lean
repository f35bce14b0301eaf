import Xeibe.Wfs.Server
import Mathlib.Tactic.Cases

/-!
# Reading page by page is complete

The pages so far and what the next URL stands for are together the list of one
sort order (`Standing`): the first pages come from the sort order of the first
request, and only the way from a link to an offset may change it.  Every answer
keeps this and brings the read nearer to its end (`Pager.left`).
-/

namespace Xeibe.Wfs

variable {Feature : Type} {server : Server Feature}

/-! ## What a page changes -/

/-- What the course of a read depends on. -/
structure Course where
  template : GetFeature
  sortBy : Option String
  version : WfsVersion
  automatic : Bool
  strategy : PagingStrategy
  next : NextPage
  resumePageSize : Option Nat
  maxRetries : Nat
  attempts : Nat
  fetched : Nat
  pages : Nat

namespace Pager

variable (p : Pager) (page : Nat) (info : ResponseInfo)

def course : Course where
  template := p.template
  sortBy := p.sortBy
  version := p.version
  automatic := p.automatic
  strategy := p.strategy
  next := p.next
  resumePageSize := p.resumePageSize
  maxRetries := p.maxRetries
  attempts := p.attempts
  fetched := p.fetched
  pages := p.pages

theorem checkMatched_course : (p.checkMatched page info).course = p.course := by
  unfold checkMatched
  split
  · rfl
  · split
    · split <;> rfl
    · rfl

theorem checkSingle_course : (p.checkSingle info).course = p.course := by
  unfold checkSingle
  split
  · split <;> rfl
  · rfl

theorem checkSafe_course : p.checkSafe.course = p.course := by
  unfold checkSafe
  split <;> rfl

theorem checkRepeated_course : (p.checkRepeated page info).course = p.course := by
  unfold checkRepeated
  dsimp only
  split <;> rfl

theorem report_course : (p.report info).course = p.course := rfl

theorem afterPage_course : (p.afterPage page info).course =
    { (p.takeUpLinks page info).course with
      fetched := (p.takeUpLinks page info).fetched + info.returned
      pages := page
      next := nextPage (p.takeUpLinks page info).strategy
        ((p.takeUpLinks page info).fetched + info.returned) info } := by
  unfold afterPage
  dsimp only
  rw [report_course, checkRepeated_course, checkSafe_course, checkSingle_course,
    checkMatched_course]
  rfl

theorem takeUpLinks_cases :
    (p.takeUpLinks page info = { p with strategy := .nextLink } ∧ p.automatic = true ∧ page = 1 ∧
        p.version.is2 = true ∧ info.next.isSome = true ∧ p.strategy ≠ .nextLink) ∨
      (p.takeUpLinks page info = p ∧
        ¬ (p.automatic = true ∧ page = 1 ∧ p.version.is2 = true ∧ info.next.isSome = true ∧
          p.strategy ≠ .nextLink)) := by
  unfold takeUpLinks
  split
  · rename_i h
    exact .inl ⟨rfl, h⟩
  · rename_i h
    exact .inr ⟨rfl, h⟩

/-- The URL of an offset request. -/
def offsetQuery (order : SortBy) (size start : Nat) : Url :=
  .query { sortBy := order, count := some size, startIndex := some start }

theorem offsetUrl_eq {p : Pager} {size : Nat} (start : Nat)
    (h : p.strategy = .startIndex size ∨ p.strategy = .vendorStartIndex size) :
    p.offsetUrl start = offsetQuery p.offsetOrder size start := by
  unfold offsetQuery
  rcases h with h | h
  · cases hs : p.sortBy <;>
      simp [offsetUrl, offsetOrder, Wfs.offsetOrder, GetFeature.toUrl, h, hs]
  · cases hs : p.sortBy <;>
      simp [offsetUrl, offsetOrder, Wfs.offsetOrder, GetFeature.toUrl, h, hs]

end Pager

/-! ## Where a read stands -/

/-- The sort order of the offset requests of a read. -/
def Course.offsets (c : Course) : SortBy := offsetOrder c.template c.sortBy

/-- What the pages so far, `got`, and the next URL have to do with the lists of
the server.  `first` is the sort order of the first request. -/
inductive Standing (server : Server Feature) (first : SortBy) (c : Course) (got : List Feature) :
    Prop where
  /-- The next page is asked for by its offset. -/
  | offset (size : Nat)
      (hstrategy : c.strategy = .startIndex size ∨ c.strategy = .vendorStartIndex size)
      (hsize : 0 < size) (hnext : c.next = .startIndex c.fetched) (order : SortBy)
      (horder : order = first ∨ order = c.offsets)
      (hlist : got ++ (server.features c.offsets).drop c.fetched = server.features order)
      (hfirst : c.automatic = true → c.pages = 0 → first = c.offsets)
  /-- The first page is asked for without an offset. -/
  | begun
      (hstrategy : c.strategy = .nextLink ∧ c.automatic = false ∨
        c.strategy = .single ∧ c.automatic = true ∧ c.version.is2 = true)
      (hnext : c.next = .url c.template.toUrl) (hpages : c.pages = 0) (hgot : got = [])
      (hfirst : first = [])
  /-- A link is followed. -/
  | link (uri : String) (hstrategy : c.strategy = .nextLink) (hnext : c.next = .url (.link uri))
      (hpages : c.pages ≠ 0) (hresolve : server.resolve uri = (first, c.fetched))
      (hlist : got ++ (server.features first).drop c.fetched = server.features first)
  | ended (hnext : c.next = .done) (order : SortBy) (horder : order = first ∨ order = c.offsets)
      (hgot : got = server.features order)

/-- What holds of a read after every answer. -/
structure Sound (server : Server Feature) (first : SortBy) (c : Course) (got : List Feature) :
    Prop where
  sortBy : c.template.sortBy = []
  startIndex : c.template.startIndex = none
  count : ∀ n, c.template.count = some n → 0 < n
  resume : ∀ n, c.resumePageSize = some n → 0 < n
  fetched : c.fetched = got.length
  attempts : c.attempts ≤ c.maxRetries
  standing : Standing server first c got

/-! ## Pages -/

/-- Offset paging takes a page to be the last. -/
def AtEnd (size fetched : Nat) (info : ResponseInfo) : Prop :=
  info.returned = 0 ∨
    match info.numberMatched with
    | some matched => fetched ≥ matched
    | none => info.returned < size

theorem nextPage_offset (size fetched : Nat) (info : ResponseInfo) :
    (nextPage (.startIndex size) fetched info = .done ∧ AtEnd size fetched info) ∨
      (nextPage (.startIndex size) fetched info = .startIndex fetched ∧
        ¬ AtEnd size fetched info) := by
  unfold nextPage AtEnd
  cases info.numberMatched with
  | none =>
    by_cases h : info.returned = 0 ∨ info.returned < size
    · exact .inl ⟨if_pos (decide_eq_true h), h⟩
    · exact .inr ⟨if_neg (by rwa [decide_eq_true_iff]), h⟩
  | some matched =>
    by_cases h : info.returned = 0 ∨ fetched ≥ matched
    · exact .inl ⟨if_pos (decide_eq_true h), h⟩
    · exact .inr ⟨if_neg (by rwa [decide_eq_true_iff]), h⟩

/-- A page that is taken to be the last leaves nothing. -/
theorem nothing_left {order : SortBy} {size start : Nat} {info : ResponseInfo}
    {members : List Feature} (hsize : 0 < size)
    (h : server.Page (Pager.offsetQuery order size start) info members)
    (hend : AtEnd size (start + members.length) info) :
    (server.features order).drop (start + members.length) = [] := by
  have hslice : members = [] → ((server.features order).drop start).take size = [] := by
    intro hmembers
    by_contra hne
    exact h.filled hne hmembers
  rcases hend with hzero | hend
  · rw [h.returned] at hzero
    have hmembers : members = [] := List.eq_nil_of_length_eq_zero hzero
    rcases List.take_eq_nil_iff.1 (hslice hmembers) with hsize' | hnil
    · omega
    · rw [hmembers, List.length_nil, Nat.add_zero]
      exact hnil
  · apply List.drop_of_length_le
    rcases h.matched with hmatched | hmatched
    · have hwhole : members = ((server.features order).drop start).take size :=
        h.whole hmatched rfl
      rw [hmatched] at hend
      have hshort : members.length < size := by rwa [h.returned] at hend
      have hlength := congrArg List.length hwhole
      rw [List.length_take, List.length_drop] at hlength
      omega
    · rw [hmatched] at hend
      exact hend

theorem append_drop {list members : List Feature} {start : Nat} (h : members <+: list.drop start) :
    members ++ list.drop (start + members.length) = list.drop start := by
  obtain ⟨others, hothers⟩ := h
  rw [← List.drop_drop, ← hothers, List.drop_left]

theorem Server.Page.rest {url : Url} {info : ResponseInfo} {members : List Feature}
    (h : server.Page url info members) : members <+: server.rest (server.range url) := by
  have hpart := h.part
  unfold Server.slice at hpart
  cases hcount : (server.range url).count with
  | none =>
    rw [hcount] at hpart
    exact hpart
  | some count =>
    rw [hcount] at hpart
    exact hpart.trans (List.take_prefix _ _)

theorem Server.Page.last {url : Url} {info : ResponseInfo} {members : List Feature}
    (h : server.Page url info members) (hoffset : Server.isOffset url = false)
    (hnext : info.next = none) :
    (server.features (server.range url).order).drop
      ((server.range url).start + members.length) = [] := by
  apply List.drop_of_length_le
  by_contra hlt
  have hmore := h.more hoffset (by omega)
  rw [hnext] at hmore
  cases hmore

theorem complete_of_drop {list got members : List Feature} {start : Nat} {whole : List Feature}
    (hlist : got ++ list.drop start = whole) (hpart : members <+: list.drop start)
    (hrest : list.drop (start + members.length) = []) : got ++ members = whole := by
  rw [← hlist, ← append_drop hpart, hrest, List.append_nil]

section Page

variable {p : Pager} {first : SortBy} {got members : List Feature} {info : ResponseInfo} {url : Url}

/-- The course after a page, before the next one is decided on. -/
theorem page_course (p : Pager) (info : ResponseInfo) :
    ((({ p with attempts := 0 } : Pager).afterPage (p.pages + 1) info).course =
        { p.course with
          attempts := 0
          strategy := .nextLink
          fetched := p.fetched + info.returned
          pages := p.pages + 1
          next := nextPage .nextLink (p.fetched + info.returned) info } ∧
        p.automatic = true ∧ p.pages = 0 ∧ info.next.isSome = true ∧ p.strategy ≠ .nextLink) ∨
      ((({ p with attempts := 0 } : Pager).afterPage (p.pages + 1) info).course =
        { p.course with
          attempts := 0
          fetched := p.fetched + info.returned
          pages := p.pages + 1
          next := nextPage p.strategy (p.fetched + info.returned) info } ∧
        ¬ (p.automatic = true ∧ p.pages = 0 ∧ p.version.is2 = true ∧ info.next.isSome = true ∧
          p.strategy ≠ .nextLink)) := by
  rw [Pager.afterPage_course]
  rcases Pager.takeUpLinks_cases { p with attempts := 0 } (p.pages + 1) info with
    ⟨htake, hautomatic, hpages, -, hnext, hstrategy⟩ | ⟨htake, hnot⟩
  · refine .inl ⟨?_, hautomatic, by omega, hnext, hstrategy⟩
    rw [htake]
    rfl
  · refine .inr ⟨?_, ?_⟩
    · rw [htake]
      rfl
    · rintro ⟨hautomatic, hpages, h2, hnext, hstrategy⟩
      exact hnot ⟨hautomatic, by rw [hpages], h2, hnext, hstrategy⟩

/-- A course that follows links, after a page of a range that starts where the
read stands in the list of `first`. -/
theorem standing_links {c : Course} {fetched : Nat} (hpage : server.Page url info members)
    (hoffset : Server.isOffset url = false) (horder : (server.range url).order = first)
    (hstart : (server.range url).start = fetched)
    (hlist : got ++ (server.features first).drop fetched = server.features first)
    (hnext : c.next = nextPage .nextLink (fetched + members.length) info)
    (hstrategy : c.strategy = .nextLink) (hpages : c.pages ≠ 0)
    (hfetched : c.fetched = fetched + members.length) :
    Standing server first c (got ++ members) := by
  have hpart : members <+: (server.features first).drop fetched := by
    have h := hpage.rest
    rw [Server.rest, horder, hstart] at h
    exact h
  cases hlink : info.next with
  | none =>
    have hrest := hpage.last hoffset hlink
    rw [horder, hstart] at hrest
    rw [nextPage, hlink] at hnext
    exact .ended hnext first (.inl rfl) (complete_of_drop hlist hpart hrest)
  | some uri =>
    obtain ⟨hresolve, -⟩ := hpage.next uri hlink
    rw [horder, hstart] at hresolve
    rw [nextPage, hlink] at hnext
    refine .link uri hstrategy hnext hpages (by rw [hresolve, hfetched]) ?_
    rw [hfetched, List.append_assoc, append_drop hpart, hlist]

theorem standing_page (hs : Sound server first p.course got) (hurl : p.url = some url)
    (hpage : server.Page url info members) :
    Standing server first (({ p with attempts := 0 } : Pager).afterPage (p.pages + 1) info).course
      (got ++ members) := by
  cases hs.standing with
  | offset size hstrategy hsize hnext order horder hlist hfirst =>
    have hurl' : url = Pager.offsetQuery p.offsetOrder size p.fetched := by
      rw [← Pager.offsetUrl_eq p.fetched hstrategy]
      have hnext' : p.next = .startIndex p.fetched := hnext
      rw [Pager.url, hnext'] at hurl
      exact (Option.some.inj hurl).symm
    subst hurl'
    have hpart : members <+: (server.features p.course.offsets).drop p.fetched := hpage.rest
    rcases page_course p info with ⟨hc, hautomatic, hpages, hlink, -⟩ | ⟨hc, -⟩
    · rw [hc]
      have hoffsets : first = p.course.offsets := hfirst hautomatic hpages
      have horder' : order = first := by
        rcases horder with h | h
        · exact h
        · rw [h, hoffsets]
      rw [horder', ← hoffsets] at hlist
      obtain ⟨uri, huri⟩ := Option.isSome_iff_exists.1 hlink
      obtain ⟨hresolve, -⟩ := hpage.next uri huri
      have hresolve : server.resolve uri = (first, p.fetched + members.length) := by
        rw [hresolve, hoffsets]
        rfl
      rw [hpage.returned]
      refine .link uri rfl ?_ (Nat.succ_ne_zero _) hresolve ?_
      · show nextPage .nextLink (p.fetched + members.length) info = .url (.link uri)
        rw [nextPage, huri]
      · show got ++ members ++ (server.features first).drop (p.fetched + members.length) = _
        rw [hoffsets, List.append_assoc, append_drop hpart, ← hoffsets]
        exact hlist
    · rw [hc, hpage.returned]
      have hnextPage : nextPage p.strategy (p.fetched + members.length) info =
          nextPage (.startIndex size) (p.fetched + members.length) info := by
        rcases hstrategy with h | h
        · rw [show p.strategy = .startIndex size from h]
        · rw [show p.strategy = .vendorStartIndex size from h]
          rfl
      rw [hnextPage]
      rcases nextPage_offset size (p.fetched + members.length) info with ⟨hdone, hend⟩ | ⟨hgo, -⟩
      · have hrest := nothing_left hsize hpage hend
        exact .ended hdone order horder (complete_of_drop hlist hpart hrest)
      · refine .offset size hstrategy hsize hgo order horder ?_ nofun
        show got ++ members ++ (server.features p.course.offsets).drop
          (p.fetched + members.length) = _
        rw [List.append_assoc, append_drop hpart]
        exact hlist
  | begun hstrategy hnext hpages hgot hfirst =>
    have hurl' : url = p.template.toUrl := by
      have hnext' : p.next = .url p.template.toUrl := hnext
      rw [Pager.url, hnext'] at hurl
      exact (Option.some.inj hurl).symm
    have hoffset : Server.isOffset url = false := by
      rw [hurl', GetFeature.toUrl, Server.isOffset]
      have hstart : p.template.startIndex = none := hs.startIndex
      rw [hstart]
      rfl
    have horder : (server.range url).order = first := by
      rw [hurl', GetFeature.toUrl, Server.range, hfirst]
      have hsort : p.template.sortBy = [] := hs.sortBy
      simp [hsort]
    have hfetched : p.fetched = 0 := by
      have h : p.fetched = got.length := hs.fetched
      rw [h, hgot]
      rfl
    have hstart : (server.range url).start = p.fetched := by
      rw [hurl', GetFeature.toUrl, Server.range, hfetched]
      have hstart : p.template.startIndex = none := hs.startIndex
      simp [hstart]
    have hlist : got ++ (server.features first).drop p.fetched = server.features first := by
      rw [hgot, hfetched]
      rfl
    rcases page_course p info with ⟨hc, -⟩ | ⟨hc, hnot⟩
    · rw [hc, hpage.returned]
      exact standing_links hpage hoffset horder hstart hlist rfl rfl (Nat.succ_ne_zero _) rfl
    · rw [hc, hpage.returned]
      rcases hstrategy with ⟨hlinks, -⟩ | ⟨hsingle, hautomatic, h2⟩
      · have hlinks : p.strategy = .nextLink := hlinks
        rw [hlinks]
        exact standing_links hpage hoffset horder hstart hlist rfl hlinks (Nat.succ_ne_zero _) rfl
      · have hsingle : p.strategy = .single := hsingle
        have hlink : info.next = none := by
          by_contra h
          refine hnot ⟨hautomatic, hpages, h2, Option.isSome_iff_ne_none.2 h, ?_⟩
          rw [hsingle]
          nofun
        have hrest := hpage.last hoffset hlink
        rw [horder, hstart] at hrest
        have hpart : members <+: (server.features first).drop p.fetched := by
          have h := hpage.rest
          rw [Server.rest, horder, hstart] at h
          exact h
        refine .ended ?_ first (.inl rfl) (complete_of_drop hlist hpart hrest)
        show nextPage p.strategy (p.fetched + members.length) info = .done
        rw [hsingle]
        rfl
  | link uri hstrategy hnext hpages hresolve hlist =>
    have hurl' : url = .link uri := by
      have hnext' : p.next = .url (.link uri) := hnext
      rw [Pager.url, hnext'] at hurl
      exact (Option.some.inj hurl).symm
    subst hurl'
    have horder : (server.range (.link uri)).order = first := by
      rw [Server.range, hresolve]
    have hstart : (server.range (.link uri)).start = p.fetched := by
      rw [Server.range, hresolve]
      rfl
    rcases page_course p info with ⟨-, -, -, -, hne⟩ | ⟨hc, -⟩
    · exact absurd hstrategy hne
    · have hlinks : p.strategy = .nextLink := hstrategy
      rw [hc, hpage.returned, hlinks]
      exact standing_links hpage rfl horder hstart hlist rfl hlinks (Nat.succ_ne_zero _) rfl
  | ended hnext =>
    have hnext' : p.next = .done := hnext
    rw [Pager.url, hnext'] at hurl
    cases hurl

theorem Sound.page (hs : Sound server first p.course got) (hurl : p.url = some url)
    (hpage : server.Page url info members) :
    Sound server first (({ p with attempts := 0 } : Pager).afterPage (p.pages + 1) info).course
      (got ++ members) := by
  have hstanding := standing_page hs hurl hpage
  have hfetched : p.fetched + info.returned = (got ++ members).length := by
    have h : p.fetched = got.length := hs.fetched
    rw [h, hpage.returned, List.length_append]
  rcases page_course p info with ⟨hc, -⟩ | ⟨hc, -⟩
  · rw [hc] at hstanding ⊢
    exact ⟨hs.sortBy, hs.startIndex, hs.count, hs.resume, hfetched, Nat.zero_le _, hstanding⟩
  · rw [hc] at hstanding ⊢
    exact ⟨hs.sortBy, hs.startIndex, hs.count, hs.resume, hfetched, Nat.zero_le _, hstanding⟩

end Page

/-! ## Truncated responses and an expired cache -/

section Other

variable {p : Pager} {first : SortBy} {got : List Feature}

/-- Half the page size under offset paging, or the same strategy. -/
inductive Halved : PagingStrategy → PagingStrategy → Prop where
  | same (strategy : PagingStrategy) : Halved strategy strategy
  | startIndex (size : Nat) : Halved (.startIndex size) (.startIndex (max (size / 2) 1))
  | vendorStartIndex (size : Nat) :
      Halved (.vendorStartIndex size) (.vendorStartIndex (max (size / 2) 1))

theorem halvePageSize_course (p : Pager) :
    ∃ strategy, p.halvePageSize.1.course = { p.course with strategy } ∧
      Halved p.strategy strategy := by
  have hsame (h : p.halvePageSize = (p, none)) :
      ∃ strategy, p.halvePageSize.1.course = { p.course with strategy } ∧
        Halved p.strategy strategy := by
    rw [h]
    exact ⟨p.strategy, rfl, .same _⟩
  unfold Pager.halvePageSize at hsame ⊢
  cases hstrategy : p.strategy with
  | startIndex size => exact ⟨_, rfl, .startIndex size⟩
  | vendorStartIndex size => exact ⟨_, rfl, .vendorStartIndex size⟩
  | _ =>
    rw [hstrategy] at hsame
    exact hsame rfl

theorem retry_course (p : Pager) (page : Nat) (h : p.attempts < p.maxRetries) :
    ∃ q strategy, p.retry page = .ok q ∧
      q.course = { p.course with attempts := p.attempts + 1, strategy } ∧
      Halved p.strategy strategy := by
  obtain ⟨strategy, hcourse, hhalved⟩ := halvePageSize_course { p with attempts := p.attempts + 1 }
  unfold Pager.retry
  dsimp only
  rw [if_neg (by omega)]
  exact ⟨_, strategy, rfl, hcourse, hhalved⟩

theorem Sound.retry (hs : Sound server first p.course got) (page : Nat)
    (h : p.attempts < p.maxRetries) :
    ∃ q strategy, p.retry page = .ok q ∧
      q.course = { p.course with attempts := p.attempts + 1, strategy } ∧
      Sound server first q.course got := by
  obtain ⟨q, strategy, hq, hcourse, hhalved⟩ := retry_course p page h
  refine ⟨q, strategy, hq, hcourse, ?_⟩
  rw [hcourse]
  refine ⟨hs.sortBy, hs.startIndex, hs.count, hs.resume, hs.fetched, h, ?_⟩
  have hsame : ∀ s, p.strategy = s → (∀ size, s ≠ .startIndex size) →
      (∀ size, s ≠ .vendorStartIndex size) → strategy = s := by
    intro s hs hoffset hvendor
    rw [hs] at hhalved
    cases hhalved with
    | same => rfl
    | startIndex size => exact absurd rfl (hoffset size)
    | vendorStartIndex size => exact absurd rfl (hvendor size)
  cases hs.standing with
  | offset size hstrategy hsize hnext order horder hlist hfirst =>
    have hhalf : ∃ size, 0 < size ∧
        (strategy = .startIndex size ∨ strategy = .vendorStartIndex size) := by
      have hstrategy : p.strategy = .startIndex size ∨ p.strategy = .vendorStartIndex size :=
        hstrategy
      generalize p.strategy = before at hhalved hstrategy
      cases hhalved with
      | same => exact ⟨size, hsize, hstrategy⟩
      | startIndex old => exact ⟨max (old / 2) 1, by omega, .inl rfl⟩
      | vendorStartIndex old => exact ⟨max (old / 2) 1, by omega, .inr rfl⟩
    obtain ⟨size, hsize, hstrategy⟩ := hhalf
    exact .offset size hstrategy hsize hnext order horder hlist hfirst
  | begun hstrategy hnext hpages hgot hfirst =>
    refine .begun ?_ hnext hpages hgot hfirst
    rcases hstrategy with ⟨hlinks, hforced⟩ | ⟨hsingle, htaken⟩
    · exact .inl ⟨hsame _ hlinks nofun nofun, hforced⟩
    · exact .inr ⟨hsame _ hsingle nofun nofun, htaken⟩
  | link uri hstrategy hnext hpages hresolve hlist =>
    exact .link uri (hsame _ hstrategy nofun nofun) hnext hpages hresolve hlist
  | ended hnext order horder hgot => exact .ended hnext order horder hgot

/-- The features so far, when a link or the first request is next. -/
theorem Sound.resume_course (hs : Sound server first p.course got) {url : Url}
    (hurl : p.url = some url) (hlinks : p.strategy = .nextLink) {report : ExceptionReport}
    (hexpired : report.isCacheExpired = true)
    (hresumes : p.Resumes server first (.exception report : Answer Feature)) :
    ∃ q size, p.resumeAfter report = .ok q ∧
      q.course = { p.course with strategy := .startIndex size, next := .startIndex p.fetched } ∧
      Sound server first q.course got := by
  obtain ⟨hresume, horders⟩ := hresumes
  obtain ⟨size, hsize⟩ := Option.isSome_iff_exists.1 hresume
  have hq : ∃ q, p.resumeAfter report = .ok q ∧
      q.course = { p.course with strategy := .startIndex size, next := .startIndex p.fetched } := by
    unfold Pager.resumeAfter
    split
    · rename_i size' hsize'
      rw [hsize] at hsize'
      rw [if_pos ⟨hexpired, hlinks⟩, ← Option.some.inj hsize']
      exact ⟨_, rfl, rfl⟩
    · rename_i hnone
      rw [hsize] at hnone
      cases hnone
  obtain ⟨q, hq, hcourse⟩ := hq
  refine ⟨q, size, hq, hcourse, ?_⟩
  rw [hcourse]
  refine ⟨hs.sortBy, hs.startIndex, hs.count, hs.resume, hs.fetched, hs.attempts, ?_⟩
  have hpos : 0 < size := hs.resume size hsize
  have hfetched : p.fetched = got.length := hs.fetched
  cases hs.standing with
  | offset old hstrategy =>
    have hlinks : p.course.strategy = .nextLink := hlinks
    rcases hstrategy with h | h
    · rw [hlinks] at h
      cases h
    · rw [hlinks] at h
      cases h
  | begun hstrategy hnext hpages hgot hfirst =>
    have hforced : p.automatic = false := by
      rcases hstrategy with ⟨-, hforced⟩ | ⟨hsingle, -⟩
      · exact hforced
      · have hsingle : p.strategy = .single := hsingle
        rw [hlinks] at hsingle
        cases hsingle
    refine .offset size (.inl rfl) hpos rfl p.course.offsets (.inr rfl) ?_ fun hautomatic => ?_
    · show got ++ (server.features p.course.offsets).drop p.fetched = _
      rw [hfetched, hgot]
      rfl
    · have hautomatic : p.automatic = true := hautomatic
      rw [hforced] at hautomatic
      cases hautomatic
  | link uri hstrategy hnext hpages hresolve hlist =>
    have hgot : (server.features first).take p.fetched = got := by
      have hlist : got ++ (server.features first).drop p.fetched = server.features first := hlist
      rw [← hlist, hfetched, List.take_left]
    rcases horders with htake | hdrop
    · refine .offset size (.inl rfl) hpos rfl p.course.offsets (.inr rfl) ?_ fun _ h =>
        absurd h hpages
      show got ++ (server.features p.offsetOrder).drop p.fetched = server.features p.offsetOrder
      rw [← hgot, htake, List.take_append_drop]
    · refine .offset size (.inl rfl) hpos rfl first (.inl rfl) ?_ fun _ h => absurd h hpages
      show got ++ (server.features p.offsetOrder).drop p.fetched = server.features first
      rw [← hdrop]
      exact hlist
  | ended hnext =>
    have hnext' : p.next = .done := hnext
    rw [Pager.url, hnext'] at hurl
    cases hurl

end Other

/-! ## How much is left -/

/-- A bound on the requests still to be made, of a layer of `total` features. -/
def Course.left (total : Nat) (c : Course) : Nat :=
  let page := c.maxRetries + 2
  match c.next with
  | .done => 0
  | .startIndex _ => (total - c.fetched + 1) * page + (c.maxRetries - c.attempts)
  | .url _ => (total - c.fetched + 1) * page + (c.maxRetries - c.attempts) + 1

theorem Course.left_le (total : Nat) (c : Course) :
    c.left total ≤ (total - c.fetched + 1) * (c.maxRetries + 2) + (c.maxRetries - c.attempts) + 1 := by
  unfold Course.left
  cases c.next <;> dsimp only <;> omega

theorem Course.le_left (total : Nat) {c : Course} (h : c.next ≠ .done) :
    (total - c.fetched + 1) * (c.maxRetries + 2) + (c.maxRetries - c.attempts) ≤ c.left total := by
  unfold Course.left
  cases hnext : c.next with
  | done => exact absurd hnext h
  | startIndex start => exact Nat.le_refl _
  | url url => exact Nat.le_succ _

theorem Course.left_retry (total : Nat) {c : Course} (hnext : c.next ≠ .done)
    (hattempts : c.attempts < c.maxRetries) (strategy : PagingStrategy) :
    Course.left total { c with attempts := c.attempts + 1, strategy } + 1 ≤ c.left total := by
  unfold Course.left
  cases h : c.next with
  | done => exact absurd h hnext
  | startIndex start =>
    dsimp only
    omega
  | url url =>
    dsimp only
    omega

section Left

variable {p : Pager} {first : SortBy} {got members : List Feature} {info : ResponseInfo} {url : Url}

theorem url_ne_done (hurl : p.url = some url) : p.course.next ≠ .done := by
  intro hdone
  have hdone : p.next = .done := hdone
  rw [Pager.url, hdone] at hurl
  cases hurl

/-- No more is read than there is. -/
theorem Sound.length_le {c : Course} (hs : Sound server first c got) :
    got.length ≤ (server.features []).length := by
  have hle : ∃ order, got.length ≤ (server.features order).length := by
    cases hs.standing with
    | offset size hstrategy hsize hnext order horder hlist =>
      refine ⟨order, ?_⟩
      rw [← hlist, List.length_append]
      exact Nat.le_add_right _ _
    | begun hstrategy hnext hpages hgot =>
      rw [hgot]
      exact ⟨[], Nat.zero_le _⟩
    | link uri hstrategy hnext hpages hresolve hlist =>
      refine ⟨first, ?_⟩
      rw [← hlist, List.length_append]
      exact Nat.le_add_right _ _
    | ended hnext order horder hgot =>
      rw [hgot]
      exact ⟨order, Nat.le_refl _⟩
  obtain ⟨order, hle⟩ := hle
  rwa [(server.perm order []).length_eq] at hle

/-- The count of a request is positive. -/
theorem Sound.count_pos (hs : Sound server first p.course got) (hurl : p.url = some url) (n : Nat)
    (hn : (server.range url).count = some n) : 0 < n := by
  cases hs.standing with
  | offset size hstrategy hsize hnext =>
    have hnext' : p.next = .startIndex p.fetched := hnext
    rw [Pager.url, hnext'] at hurl
    rw [← Option.some.inj hurl, Pager.offsetUrl_eq p.fetched hstrategy] at hn
    have hsize' : size = n := Option.some.inj hn
    omega
  | begun hstrategy hnext =>
    have hnext' : p.next = .url p.template.toUrl := hnext
    rw [Pager.url, hnext'] at hurl
    rw [← Option.some.inj hurl] at hn
    exact hs.count n hn
  | link uri hstrategy hnext =>
    have hnext' : p.next = .url (.link uri) := hnext
    rw [Pager.url, hnext'] at hurl
    rw [← Option.some.inj hurl] at hn
    cases hn
  | ended hnext => exact absurd hnext (url_ne_done hurl)

/-- A page with a link behind it has a feature. -/
theorem Server.Page.ne_nil (hpage : server.Page url info members)
    (hcount : ∀ n, (server.range url).count = some n → 0 < n) (hlink : info.next.isSome = true) :
    members ≠ [] := by
  obtain ⟨uri, huri⟩ := Option.isSome_iff_exists.1 hlink
  obtain ⟨-, hlt⟩ := hpage.next uri huri
  have hrest : server.rest (server.range url) ≠ [] := by
    intro hnil
    have hlength := congrArg List.length hnil
    rw [Server.rest, List.length_drop, List.length_nil] at hlength
    omega
  apply hpage.filled
  unfold Server.slice
  cases hn : (server.range url).count with
  | none => exact hrest
  | some n =>
    have hpos := hcount n hn
    intro hnil
    rcases List.take_eq_nil_iff.1 hnil with hzero | hnil
    · omega
    · exact hrest hnil

/-- A page that is not the last has a feature. -/
theorem page_ne_nil (hs : Sound server first p.course got) (hurl : p.url = some url)
    (hpage : server.Page url info members)
    (hmore : (({ p with attempts := 0 } : Pager).afterPage (p.pages + 1) info).course.next ≠ .done) :
    members ≠ [] := by
  rcases page_course p info with ⟨-, -, -, hlink, -⟩ | ⟨hc, -⟩
  · exact hpage.ne_nil (hs.count_pos hurl) hlink
  · rw [hc] at hmore
    have hmore : nextPage p.strategy (p.fetched + info.returned) info ≠ .done := hmore
    have hoffset : ∀ size, nextPage (.startIndex size) (p.fetched + info.returned) info ≠ .done →
        members ≠ [] := by
      rintro size hne rfl
      rcases nextPage_offset size (p.fetched + info.returned) info with ⟨hdone, -⟩ | ⟨-, hend⟩
      · exact hne hdone
      · exact hend (.inl hpage.returned)
    cases hstrategy : p.strategy with
    | nextLink =>
      apply hpage.ne_nil (hs.count_pos hurl)
      rw [hstrategy, nextPage] at hmore
      cases hlink : info.next with
      | none =>
        rw [hlink] at hmore
        exact absurd rfl hmore
      | some uri => rfl
    | startIndex size =>
      rw [hstrategy] at hmore
      exact hoffset size hmore
    | vendorStartIndex size =>
      rw [hstrategy] at hmore
      exact hoffset size hmore
    | spatialTiling limit =>
      rw [hstrategy] at hmore
      exact absurd rfl hmore
    | single =>
      rw [hstrategy] at hmore
      exact absurd rfl hmore

/-- A page brings the read nearer to its end. -/
theorem left_page (hs : Sound server first p.course got) (hurl : p.url = some url)
    (hpage : server.Page url info members) {total : Nat}
    (htotal : total = (server.features []).length) :
    (({ p with attempts := 0 } : Pager).afterPage (p.pages + 1) info).course.left total <
      p.course.left total := by
  have hs' := hs.page hurl hpage
  have hle := Course.le_left total (url_ne_done hurl)
  have hretries : (({ p with attempts := 0 } : Pager).afterPage (p.pages + 1)
      info).course.maxRetries = p.course.maxRetries := by
    rcases page_course p info with ⟨hc, -⟩ | ⟨hc, -⟩ <;> rw [hc]
  have hne := page_ne_nil hs hurl hpage
  generalize (({ p with attempts := 0 } : Pager).afterPage (p.pages + 1) info).course = c at *
  by_cases hdone : c.next = .done
  · have hzero : c.left total = 0 := by rw [Course.left, hdone]
    rw [hzero]
    have hpos : 0 < (total - p.course.fetched + 1) * (p.course.maxRetries + 2) :=
      Nat.mul_pos (Nat.succ_pos _) (Nat.succ_pos _)
    omega
  · have hmembers : 0 < members.length := List.length_pos_iff.2 (hne hdone)
    have hfetched : c.fetched = p.course.fetched + members.length := by
      rw [hs'.fetched, hs.fetched, List.length_append]
    have hbound : c.fetched ≤ total := by
      rw [hs'.fetched, htotal]
      exact hs'.length_le
    have hle' := c.left_le total
    have hfewer : total - c.fetched + 1 + 1 ≤ total - p.course.fetched + 1 := by omega
    have hproduct := Nat.mul_le_mul_right (c.maxRetries + 2) hfewer
    rw [Nat.succ_mul] at hproduct
    rw [hretries] at hproduct hle'
    have hattempts := hs.attempts
    omega

end Left

/-! ## Whole reads -/

theorem pageSize_pos (capabilities : Capabilities) (requested : Option Nat) :
    0 < pageSize capabilities requested :=
  Nat.le_max_right _ 1

theorem capPageSize_pos (capabilities : Capabilities) (size : Nat) :
    0 < capPageSize capabilities size :=
  Nat.le_max_right _ 1

/-- An offset strategy that is chosen has a page size. -/
theorem choose_pos {capabilities : Capabilities} {requested : Option Nat}
    {forced : Option PagingStrategy} {size : Nat}
    (h : choose capabilities requested forced = .startIndex size ∨
      choose capabilities requested forced = .vendorStartIndex size) : 0 < size := by
  unfold choose at h
  split at h
  · rcases h with h | h
    · cases h
      exact capPageSize_pos _ _
    · cases h
  · rcases h with h | h
    · cases h
    · cases h
      exact capPageSize_pos _ _
  · rename_i forced hstart hvendor
    rcases h with h | h
    · exact absurd h (hstart size)
    · exact absurd h (hvendor size)
  · split at h
    · rcases h with h | h
      · cases h
        exact pageSize_pos _ _
      · cases h
    · rcases h with h | h <;> cases h

theorem choose_nextLink {capabilities : Capabilities} {requested : Option Nat}
    {forced : Option PagingStrategy} (h : choose capabilities requested forced = .nextLink) :
    forced.isNone = false := by
  cases forced with
  | some strategy => rfl
  | none =>
    rw [choose] at h
    split at h <;> cases h

/-- A pager that has just been made. -/
structure Begins (options : WfsOptions) (capabilities : Capabilities) (p : Pager) : Prop where
  sortBy : p.template.sortBy = []
  startIndex : p.template.startIndex = none
  count : ∀ n, p.template.count = some n → 0 < n
  strategy : p.strategy = choose capabilities options.pageSize options.strategy
  automatic : p.automatic = options.strategy.isNone
  next : p.next = match p.strategy with
    | .startIndex _ | .vendorStartIndex _ => .startIndex 0
    | _ => .url p.template.toUrl
  resume : ∀ n, p.resumePageSize = some n → 0 < n
  maxRetries : p.maxRetries = options.maxRetries
  fetched : p.fetched = 0
  attempts : p.attempts = 0
  pages : p.pages = 0

theorem begins_pages {options : WfsOptions} {capabilities : Capabilities} {p : Pager}
    (h : pages options capabilities = .ok p) : Begins options capabilities p := by
  unfold pages at h
  split at h
  · cases h
  · dsimp only at h
    split at h
    · cases h
    · cases h
      refine ⟨?_, ?_, ?_, rfl, rfl, rfl, ?_, rfl, rfl, rfl, rfl⟩
      · dsimp only
        split <;> rfl
      · dsimp only
        split <;> rfl
      · dsimp only
        intro n hn
        split at hn
        · obtain ⟨size, -, rfl⟩ := Option.map_eq_some_iff.1 hn
          exact pageSize_pos _ _
        · cases hn
      · dsimp only
        intro n hn
        split at hn
        · cases hn
          exact pageSize_pos _ _
        · cases hn

/-- A read is sound from the start. -/
theorem Begins.sound {options : WfsOptions} {capabilities : Capabilities} {p : Pager}
    (h : Begins options capabilities p) (hfollows : p.Follows) :
    Sound server p.firstOrder p.course [] := by
  refine ⟨h.sortBy, h.startIndex, h.count, h.resume, h.fetched, ?_, ?_⟩
  · show p.attempts ≤ p.maxRetries
    rw [h.attempts]
    exact Nat.zero_le _
  have hnext := h.next
  have hoffset : ∀ size, (p.strategy = .startIndex size ∨ p.strategy = .vendorStartIndex size) →
      p.next = .startIndex 0 → p.firstOrder = p.offsetOrder →
      Standing server p.firstOrder p.course [] := by
    intro size hstrategy hnext hfirst
    have hsize : 0 < size := by
      rw [h.strategy] at hstrategy
      exact choose_pos hstrategy
    refine .offset size hstrategy hsize (hnext.trans (by rw [← h.fetched]; rfl)) p.offsetOrder
      (.inr rfl) ?_ fun _ _ => hfirst
    show [] ++ (server.features p.offsetOrder).drop p.fetched = _
    rw [h.fetched]
    rfl
  unfold Pager.Follows at hfollows
  cases hstrategy : p.strategy with
  | startIndex size =>
    rw [hstrategy] at hnext
    exact hoffset size (.inl hstrategy) hnext (by rw [Pager.firstOrder, hstrategy])
  | vendorStartIndex size =>
    rw [hstrategy] at hnext
    exact hoffset size (.inr hstrategy) hnext (by rw [Pager.firstOrder, hstrategy])
  | nextLink =>
    rw [hstrategy] at hnext
    have hforced : p.automatic = false := by
      rw [h.automatic]
      exact choose_nextLink (h.strategy.symm.trans hstrategy)
    exact .begun (.inl ⟨hstrategy, hforced⟩) hnext h.pages rfl (by rw [Pager.firstOrder, hstrategy])
  | single =>
    rw [hstrategy] at hnext hfollows
    exact .begun (.inr ⟨hstrategy, hfollows⟩) hnext h.pages rfl
      (by rw [Pager.firstOrder, hstrategy])
  | spatialTiling limit =>
    rw [hstrategy] at hfollows
    exact absurd hfollows id

/-- What holds of a read after `n` requests. -/
structure Kept (server : Server Feature) (pager : Pager) (n : Nat) (r : Reading Feature) : Prop where
  error : r.error = none
  sound : Sound server pager.firstOrder r.pager.course r.features
  template : r.pager.template = pager.template
  sortBy : r.pager.sortBy = pager.sortBy
  left : n + r.pager.course.left (server.features []).length ≤
    pager.course.left (server.features []).length

theorem kept_receive {pager : Pager} {n : Nat} {r : Reading Feature} {url : Url}
    {answer : Answer Feature} (hk : Kept server pager n r) (hurl : r.url = some url)
    (hserves : server.Serves url answer) (hwithin : r.pager.Within answer)
    (hresumes : r.pager.Resumes server pager.firstOrder answer) :
    Kept server pager (n + 1) (r.receive answer) := by
  have hurl' : r.pager.url = some url := by
    rw [Reading.url, hk.error] at hurl
    exact hurl
  have hattempts := hk.sound.attempts
  -- What an answer that is no page does.
  have hother : ∀ q strategy next attempts, r.pager.receive answer = .ok (q, none) →
      q.course = { r.pager.course with strategy, next, attempts } →
      Sound server pager.firstOrder q.course r.features →
      q.course.left (server.features []).length + 1 ≤
        r.pager.course.left (server.features []).length →
      Kept server pager (n + 1) (r.receive answer) := by
    intro q strategy next attempts hq hcourse hsound hleft
    have hreceive : r.receive answer = { r with pager := q } := by
      rw [Reading.receive, hq]
      simp
    rw [hreceive]
    refine ⟨hk.error, hsound, ?_, ?_, ?_⟩
    · exact (congrArg Course.template hcourse).trans hk.template
    · exact (congrArg Course.sortBy hcourse).trans hk.sortBy
    · have h := hk.left
      show n + 1 + q.course.left _ ≤ _
      omega
  cases hserves with
  | @page info members hcomplete htruncated hpage =>
    have hreceive : r.pager.receive (.features info members) =
        .ok (({ r.pager with attempts := 0 } : Pager).afterPage (r.pager.pages + 1) info,
          some members) := by
      rw [Pager.receive]
      simp [hcomplete, htruncated]
    have hfeatures : (r.receive (.features info members)).features = r.features ++ members := by
      rw [Reading.receive, hreceive]
      simp [Reading.features]
    have hpager : (r.receive (.features info members)).pager =
        ({ r.pager with attempts := 0 } : Pager).afterPage (r.pager.pages + 1) info := by
      rw [Reading.receive, hreceive]
    have herror : (r.receive (.features info members)).error = none := by
      rw [Reading.receive, hreceive]
      exact hk.error
    have hsame : (r.receive (.features info members)).pager.template = r.pager.template ∧
        (r.receive (.features info members)).pager.sortBy = r.pager.sortBy := by
      rw [hpager]
      rcases page_course r.pager info with ⟨hc, -⟩ | ⟨hc, -⟩
      · exact ⟨congrArg Course.template hc, congrArg Course.sortBy hc⟩
      · exact ⟨congrArg Course.template hc, congrArg Course.sortBy hc⟩
    refine ⟨herror, ?_, hsame.1.trans hk.template, hsame.2.trans hk.sortBy, ?_⟩
    · rw [hfeatures, hpager]
      exact hk.sound.page hurl' hpage
    · have hless : (r.receive (.features info members)).pager.course.left
          (server.features []).length < r.pager.course.left (server.features []).length := by
        rw [hpager]
        exact left_page hk.sound hurl' hpage rfl
      have h := hk.left
      omega
  | @truncated info members htruncated =>
    have hretries : r.pager.attempts < r.pager.maxRetries := hwithin htruncated
    obtain ⟨q, strategy, hq, hcourse, hsound⟩ :=
      hk.sound.retry (r.pager.pages + 1) hretries
    have hreceive : r.pager.receive (.features info members) = .ok (q, none) := by
      rw [Pager.receive]
      have hcut : (!info.complete || info.truncated) = true := by
        rcases htruncated with h | h <;> simp [h]
      rw [if_pos hcut, hq]
      rfl
    refine hother q strategy r.pager.next (r.pager.attempts + 1) hreceive hcourse hsound ?_
    have hle := Course.left_retry (server.features []).length (url_ne_done hurl')
      hretries strategy
    rw [hcourse]
    exact hle
  | @expired report hexpired =>
    have hlinks : r.pager.strategy = .nextLink := hwithin
    obtain ⟨q, size, hq, hcourse, hsound⟩ := hk.sound.resume_course hurl' hlinks hexpired hresumes
    have hreceive : r.pager.receive (.exception report : Answer Feature) = .ok (q, none) := by
      rw [Pager.receive, hq]
      rfl
    refine hother q _ _ r.pager.attempts hreceive hcourse hsound ?_
    have hnext : ∃ url, r.pager.course.next = .url url := by
      cases hk.sound.standing with
      | offset size hstrategy =>
        have hlinks : r.pager.course.strategy = .nextLink := hlinks
        rw [hlinks] at hstrategy
        rcases hstrategy with h | h <;> cases h
      | begun hstrategy hnext => exact ⟨_, hnext⟩
      | link uri hstrategy hnext => exact ⟨_, hnext⟩
      | ended hnext => exact absurd hnext (url_ne_done hurl')
    obtain ⟨next, hnext⟩ := hnext
    rw [hcourse]
    unfold Course.left
    exact Nat.le_of_eq (by rw [hnext])

theorem kept_reads {options : WfsOptions} {capabilities : Capabilities} {pager : Pager}
    (hbegins : Begins options capabilities pager) (hfollows : pager.Follows) {n : Nat}
    {r : Reading Feature}
    (h : Reads server pager (Pager.Resumes server pager.firstOrder) n r) :
    Kept server pager n r := by
  induction h with
  | start => exact ⟨rfl, hbegins.sound hfollows, rfl, rfl, by rw [Nat.zero_add]; exact Nat.le_refl _⟩
  | request _ hurl hserves hwithin hresumes ih =>
    exact kept_receive ih hurl hserves hwithin hresumes

/-- Every read in which the links end in the order of the offsets is finite,
free of errors, yields the features of one list in their order, and has yielded
all of them when it ends. -/
theorem paging_complete (options : WfsOptions) (capabilities : Capabilities) {pager : Pager}
    (hpages : pages options capabilities = .ok pager) (hfollows : pager.Follows) {n : Nat}
    {r : Reading Feature}
    (h : Reads server pager (Pager.Resumes server pager.firstOrder) n r) :
    n ≤ ((server.features []).length + 1) * (options.maxRetries + 2) + options.maxRetries + 1 ∧
      r.error = none ∧
      ∃ order, (order = pager.firstOrder ∨ order = pager.offsetOrder) ∧
        r.features <+: server.features order ∧
        (r.url = none → r.features = server.features order) := by
  have hbegins := begins_pages hpages
  have hk := kept_reads hbegins hfollows h
  refine ⟨?_, hk.error, ?_⟩
  · have hleft := hk.left
    have hbound := pager.course.left_le (server.features []).length
    have hfetched : pager.course.fetched = 0 := hbegins.fetched
    have hattempts : pager.course.attempts = 0 := hbegins.attempts
    have hretries : pager.course.maxRetries = options.maxRetries := hbegins.maxRetries
    rw [hfetched, hattempts, hretries] at hbound
    simp only [Nat.sub_zero] at hbound
    omega
  · have hoffsets : r.pager.course.offsets = pager.offsetOrder := by
      show offsetOrder r.pager.template r.pager.sortBy = offsetOrder pager.template pager.sortBy
      rw [hk.template, hk.sortBy]
    have hdone : r.url = none → r.pager.course.next = .done := by
      intro hurl
      have hurl : r.pager.url = none := by
        rw [Reading.url, hk.error] at hurl
        exact hurl
      show r.pager.next = .done
      cases hnext : r.pager.next with
      | done => rfl
      | url url =>
        rw [Pager.url, hnext] at hurl
        cases hurl
      | startIndex start =>
        rw [Pager.url, hnext] at hurl
        cases hurl
    cases hk.sound.standing with
    | offset size hstrategy hsize hnext order horder hlist =>
      rw [hoffsets] at horder
      refine ⟨order, horder, ⟨_, hlist⟩, fun hurl => ?_⟩
      rw [hdone hurl] at hnext
      cases hnext
    | begun hstrategy hnext hpages' hgot =>
      refine ⟨pager.firstOrder, .inl rfl, ?_, fun hurl => ?_⟩
      · rw [hgot]
        exact List.nil_prefix
      · rw [hdone hurl] at hnext
        cases hnext
    | link uri hstrategy hnext hpages' hresolve hlist =>
      refine ⟨pager.firstOrder, .inl rfl, ⟨_, hlist⟩, fun hurl => ?_⟩
      rw [hdone hurl] at hnext
      cases hnext
    | ended hnext order horder hgot =>
      rw [hoffsets] at horder
      exact ⟨order, horder, hgot ▸ List.prefix_rfl, fun _ => hgot⟩

/-! ## A resumed read -/

/-- Two orders of three features; links go on with the third. -/
def sampleServer : Server Nat where
  features order := if order = [] then [1, 2, 3] else [3, 2, 1]
  perm order order' := by
    by_cases h : order = [] <;> by_cases h' : order' = [] <;> simp only [h, h'] <;> decide
  resolve _ := ([], 2)

def sampleCapabilities : Capabilities where
  version := .v2_0_0
  constraints := {
    implementsResultPaging := some true
    countDefault := none
    pagingIsTransactionSafe := some true }

def sampleOptions (sortBy : Option String) : WfsOptions where
  version := none
  pageSize := some 2
  strategy := some .nextLink
  sortBy := sortBy
  maxRetries := 0
  dedupe := false

/-- A page of the sample server. -/
def samplePage (members : List Nat) (next : Option String) : Answer Nat :=
  .features {
    numberMatched := some 3
    numberReturned := some members.length
    next := next
    truncated := false
    complete := true
    features := members.length
    featureIds := [] } members

def sampleExpired : Answer Nat := .exception { exceptions := [some "ResponseCacheExpired"] }

/-- The answers: two features and a link, the exception, and one feature. -/
def sampleRead (pager : Pager) (last : Nat) : Reading Nat :=
  (((Reading.start pager).receive (samplePage [1, 2] (some "next"))).receive sampleExpired).receive
    (samplePage [last] none)

theorem within_samplePage (p : Pager) (members : List Nat) (next : Option String) :
    p.Within (samplePage members next) := by
  intro h
  rcases h with h | h <;> cases h

/-- The server gives these answers where `last` is the third feature in the
order of the offsets. -/
theorem sample_reads {sortBy : Option String} {pager : Pager}
    {meets : Pager → Answer Nat → Prop} {last : Nat}
    (hpager : pages (sampleOptions sortBy) sampleCapabilities = .ok pager)
    (hlast : (sampleServer.features pager.offsetOrder).drop 2 = [last])
    (hexpired : meets ((Reading.start pager).receive (samplePage [1, 2] (some "next"))).pager
      sampleExpired)
    (hpages : ∀ p members next, meets p (samplePage members next)) :
    Reads sampleServer pager meets 3 (sampleRead pager last) := by
  cases hpager
  refine .request (.request (.request .start rfl ?first (within_samplePage _ _ _) (hpages _ _ _)) rfl
    ?second rfl hexpired) (congrArg some (Pager.offsetUrl_eq 2 (.inl rfl))) ?third
    (within_samplePage _ _ _) (hpages _ _ _)
  case first =>
    refine .page rfl rfl ⟨⟨[], rfl⟩, ?_, rfl, .inr rfl, ?_, fun uri _ => ⟨rfl, ?_⟩, fun _ _ => rfl⟩
    · intro _ h
      cases h
    · intro h
      cases h
    · show 2 < 3
      omega
  case second => exact .expired _ rfl
  case third =>
    refine .page rfl rfl ⟨⟨[], ?_⟩, ?_, rfl, .inr ?_, ?_, ?_, ?_⟩
    · exact (congrArg (List.take 2) hlast).symm
    · intro _ h
      cases h
    · exact congrArg some (sampleServer.perm [] _).length_eq
    · intro h
      cases h
    · intro _ h
      cases h
    · intro h
      cases h

/-- A read that is resumed in the same order. -/
theorem paging_complete_resumed :
    ∃ pager, pages (sampleOptions none) sampleCapabilities = .ok pager ∧ pager.Follows ∧
      (sampleRead pager 3).features = [1, 2, 3] ∧ (sampleRead pager 3).url = none ∧
      (sampleRead pager 3).error = none := by
  refine ⟨_, rfl, trivial, rfl, rfl, ?_⟩
  exact (@paging_complete _ sampleServer (sampleOptions none) sampleCapabilities _ rfl trivial _ _
    (sample_reads rfl rfl ⟨rfl, .inl rfl⟩ fun _ _ _ => trivial)).2.1

/-- The first request does not name the sort order in which offset requests go
on: a feature comes twice, and another is lost. -/
theorem paging_repeats :
    ∃ pager read, pages (sampleOptions (some "id")) sampleCapabilities = .ok pager ∧
      Reads sampleServer pager (fun _ _ => True) 3 read ∧ read.url = none ∧ read.error = none ∧
      read.features = [1, 2, 1] ∧ ∀ order, ¬ read.features.Perm (sampleServer.features order) := by
  refine ⟨_, sampleRead _ 1, rfl, sample_reads rfl rfl trivial fun _ _ _ => trivial, rfl, rfl, rfl,
    ?_⟩
  intro order h
  have h3 : 3 ∈ sampleServer.features [] := by decide
  have h3 := h.mem_iff.2 ((sampleServer.perm [] order).mem_iff.1 h3)
  revert h3
  decide

end Xeibe.Wfs

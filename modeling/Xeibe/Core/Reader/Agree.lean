import Xeibe.Core.Reader.Scope
import Xeibe.Core.Splitter.Correct

/-!
# The splitter and the reader agree on names

The names of a feature in the document and those the reader gives it come from
the same lookup, `uriOf`, in two lists of declarations: the document's own, with
references expanded, and the bindings of the reader.  They are the same where
every declaration in force inside the feature is written without references
(`PlainName`).
-/

namespace Xeibe

/-! ## Declarations in force -/

/-- The URI of the innermost declaration of a prefix. -/
def inForce (declarations : List (Option Bytes × Bytes)) (pre : Option Bytes) : Option Bytes :=
  (declarations.reverse.find? fun d => d.1 = pre).map Prod.snd

/-- The URI that a prefix stands for; empty for none. -/
def uriOf (declarations : List (Option Bytes × Bytes)) (pre : Option Bytes) : Bytes :=
  (inForce declarations pre).getD []

/-- The name with a prefix that stands for `uri`. -/
def named (pre : Option Bytes) (localName uri : Bytes) : Option QName :=
  if uri.isEmpty then if pre.isNone then some ⟨none, localName⟩ else none
  else some ⟨some uri, localName⟩

theorem named_inj {pre : Option Bytes} {localName u v : Bytes} :
    named pre localName u = named pre localName v ↔ u = v := by
  constructor
  · intro h
    unfold named at h
    cases u <;> cases v <;> cases pre <;> simp_all
  · intro h
    rw [h]

section

variable (a b : List (Option Bytes × Bytes)) (pre : Option Bytes)

theorem inForce_append : inForce (a ++ b) pre = (inForce b pre).or (inForce a pre) := by
  unfold inForce
  rw [List.reverse_append, List.find?_append]
  cases b.reverse.find? (fun d => d.1 = pre) <;> rfl

theorem inForce_map (f : Bytes → Bytes) :
    inForce (a.map fun d => (d.1, f d.2)) pre = (inForce a pre).map f := by
  unfold inForce
  rw [← List.map_reverse, List.find?_map, Option.map_map, Option.map_map]
  rfl

theorem inForce_expanded (quickXml : Bytes → Option Bytes) :
    inForce (a.map (expanded quickXml)) pre = (inForce a pre).map (unescape quickXml) :=
  inForce_map a pre _

end

/-! ### A flattened table -/

/-- Each prefix appears once. -/
def Single (bindings : List (Option Bytes × Bytes)) : Prop := (bindings.map Prod.fst).Nodup

theorem inForce_cons (d : Option Bytes × Bytes) (ds : List (Option Bytes × Bytes))
    (pre : Option Bytes) :
    inForce (d :: ds) pre = (inForce ds pre).or (if d.1 = pre then some d.2 else none) := by
  have happend := inForce_append [d] ds pre
  rw [List.singleton_append] at happend
  rw [happend]
  congr 1
  by_cases h : d.1 = pre <;> simp [inForce, h]

theorem inForce_snoc (ds : List (Option Bytes × Bytes)) (d : Option Bytes × Bytes)
    (pre : Option Bytes) :
    inForce (ds ++ [d]) pre = if d.1 = pre then some d.2 else inForce ds pre := by
  rw [inForce_append]
  by_cases h : d.1 = pre <;> simp [inForce, h]

/-- Of single bindings, the one of a prefix is the one in force. -/
theorem inForce_single {bindings : List (Option Bytes × Bytes)} (h : Single bindings)
    (pre : Option Bytes) (uri : Bytes) :
    inForce bindings pre = some uri ↔ (pre, uri) ∈ bindings := by
  induction bindings with
  | nil => simp [inForce]
  | cons d ds ih =>
    unfold Single at h
    rw [List.map_cons, List.nodup_cons] at h
    have hrest := ih h.2
    rw [inForce_cons, List.mem_cons, ← hrest]
    by_cases hd : d.1 = pre
    · have hnone : inForce ds pre = none := by
        cases hds : inForce ds pre with
        | none => rfl
        | some v =>
          have hmem : ∀ es : List (Option Bytes × Bytes), inForce es pre = some v →
              pre ∈ es.map Prod.fst := by
            intro es hes
            unfold inForce at hes
            obtain ⟨e, he, -⟩ := Option.map_eq_some_iff.1 hes
            have hpre := List.find?_some he
            have hin := List.mem_of_find?_eq_some he
            rw [← of_decide_eq_true hpre]
            exact List.mem_map_of_mem (List.mem_reverse.1 hin)
          exact absurd (hd ▸ hmem ds hds) h.1
      simp [hnone, hd, Prod.ext_iff, eq_comm]
    · have hne : ¬ (pre, uri) = d := fun h => hd (congrArg Prod.fst h).symm
      simp [hd, hne]

section

open NamespaceContext

variable {pre : Option Bytes} {uri : Bytes} {bindings replaced : List (Option Bytes × Bytes)}

theorem replaceFirst_none (h : replaceFirst pre uri bindings = none) :
    pre ∉ bindings.map Prod.fst := by
  induction bindings with
  | nil => exact List.not_mem_nil
  | cons d ds ih =>
    unfold replaceFirst at h
    split at h
    · cases h
    · rename_i hd
      rw [List.map_cons, List.mem_cons, not_or]
      exact ⟨fun hpre => hd hpre.symm, ih (Option.map_eq_none_iff.1 h)⟩

theorem replaceFirst_keys (h : replaceFirst pre uri bindings = some replaced) :
    replaced.map Prod.fst = bindings.map Prod.fst := by
  induction bindings generalizing replaced with
  | nil => cases h
  | cons d ds ih =>
    unfold replaceFirst at h
    split at h
    · rw [← Option.some.inj h]
      rfl
    · obtain ⟨rest, hrest, hcons⟩ := Option.map_eq_some_iff.1 h
      rw [← hcons, List.map_cons, List.map_cons, ih hrest]

theorem replaceFirst_mem (hsingle : Single bindings)
    (h : replaceFirst pre uri bindings = some replaced) (q : Option Bytes) (v : Bytes) :
    (q, v) ∈ replaced ↔ if pre = q then v = uri else (q, v) ∈ bindings := by
  induction bindings generalizing replaced with
  | nil => cases h
  | cons d ds ih =>
    obtain ⟨p, u⟩ := d
    unfold Single at hsingle
    rw [List.map_cons, List.nodup_cons] at hsingle
    have hkey : ∀ w, (p, w) ∉ ds := by
      intro w hw
      have hin := List.mem_map_of_mem (f := Prod.fst) hw
      exact hsingle.1 hin
    unfold replaceFirst at h
    by_cases hp : p = pre
    · rw [if_pos hp] at h
      rw [← Option.some.inj h, List.mem_cons, List.mem_cons, Prod.ext_iff, Prod.ext_iff]
      by_cases hq : pre = q
      · have hno : (q, v) ∉ ds := by
          rw [← hq, ← hp]
          exact hkey v
        simp [hq, hp, hno]
      · have hne : q ≠ p := fun hqp => hq (hp.symm.trans hqp.symm)
        simp [hq, hne]
    · rw [if_neg hp] at h
      obtain ⟨rest, hrest, hcons⟩ := Option.map_eq_some_iff.1 h
      rw [← hcons, List.mem_cons, List.mem_cons, ih hsingle.2 hrest, Prod.ext_iff]
      by_cases hq : pre = q
      · have hne : q ≠ p := fun hqp => hp (hqp.symm.trans hq.symm)
        simp [hq, hne]
      · simp [hq]

end

theorem declare_bindings {context : NamespaceContext} (pre : Option Bytes) (uri : Bytes)
    (h : Single context.bindings) :
    Single (context.declare pre uri).bindings ∧
      ∀ q v, (q, v) ∈ (context.declare pre uri).bindings ↔
        if pre = q then v = uri else (q, v) ∈ context.bindings := by
  unfold NamespaceContext.declare
  cases hreplaced : NamespaceContext.replaceFirst pre uri context.bindings with
  | some replaced =>
    refine ⟨?_, replaceFirst_mem h hreplaced⟩
    unfold Single
    rw [replaceFirst_keys hreplaced]
    exact h
  | none =>
    have hnew := replaceFirst_none hreplaced
    dsimp only
    refine ⟨?_, fun q v => ?_⟩
    · unfold Single
      rw [List.map_append, List.nodup_append]
      refine ⟨h, by simp, ?_⟩
      intro key hkey key' hkey' hsame
      rw [hsame, List.mem_singleton.1 hkey'] at hkey
      exact hnew hkey
    · rw [List.mem_append, List.mem_singleton, Prod.ext_iff]
      by_cases hq : pre = q
      · have hno : (q, v) ∉ context.bindings := fun hmem =>
          hnew (hq ▸ List.mem_map_of_mem (f := Prod.fst) hmem)
        simp [hq, hno]
      · simp [hq, eq_comm]

open Splitter (flatten) in
/-- A flattened table has one binding for each prefix: the one in force. -/
theorem flatten_bindings (scope : List (Option Bytes × Bytes)) :
    Single (flatten scope).bindings ∧
      ∀ pre uri, (pre, uri) ∈ (flatten scope).bindings ↔ inForce scope pre = some uri := by
  induction scope using List.reverseRecOn with
  | nil => exact ⟨List.nodup_nil, fun pre uri => by simp [flatten, NamespaceContext.new, inForce]⟩
  | append_singleton scope d ih =>
    have hflatten : flatten (scope ++ [d]) = (flatten scope).declare d.1 d.2 := by
      unfold flatten
      rw [List.foldl_append]
      rfl
    obtain ⟨hsingle, hmem⟩ := declare_bindings d.1 d.2 ih.1
    rw [hflatten]
    refine ⟨hsingle, fun pre uri => ?_⟩
    rw [hmem, inForce_snoc]
    by_cases hd : d.1 = pre
    · simp [hd, eq_comm]
    · simp [hd, ih.2]

/-! ## The reader's bindings -/

/-- The bindings of a reader between features. -/
def contextBindings (context : NamespaceContext) : List (Option Bytes × Bytes) :=
  Resolver.default.bindings ++ kept context.bindings

theorem new_bindings (context : NamespaceContext) :
    (GmlReader.new context).resolver.bindings = contextBindings context := by
  unfold GmlReader.new contextBindings
  dsimp only
  generalize Resolver.default = r
  generalize context.bindings = bindings
  induction bindings generalizing r with
  | nil => simp [kept]
  | cons d ds ih =>
    have hadd : ((r.add d).getD r).bindings = r.bindings ++ kept [d] := by
      rw [add_eq]
      cases hmisuse : misuses d with
      | true => simp [kept, hmisuse]
      | false => simp
    rw [List.foldl_cons, ih, hadd, kept_cons d ds, List.append_assoc]

theorem inForce_default (pre : Option Bytes) :
    inForce Resolver.default.bindings pre =
      if pre = some (utf8 "xml") then some ns.XML
      else if pre = some (utf8 "xmlns") then some ns.XMLNS else none := by
  have hne : utf8 "xml" ≠ utf8 "xmlns" := by decide
  unfold Resolver.default
  rw [inForce_cons, inForce_cons]
  by_cases hxml : pre = some (utf8 "xml")
  · simp [hxml, inForce, hne.symm]
  · by_cases hxmlns : pre = some (utf8 "xmlns")
    · simp [hxmlns, inForce, hne.symm]
    · simp [hxml, hxmlns, inForce, eq_comm]

theorem inForce_kept_xml (declarations : List (Option Bytes × Bytes)) :
    inForce (kept declarations) (some (utf8 "xml")) = none := by
  unfold inForce kept
  rw [Option.map_eq_none_iff, List.find?_eq_none]
  intro d hd hxml
  have hkeep := (List.mem_filter.1 (List.mem_reverse.1 hd)).2
  simp [of_decide_eq_true hxml] at hkeep

/-- Of declarations that keep to the rules, the one in force is kept. -/
theorem inForce_kept {declarations : List (Option Bytes × Bytes)}
    (hrules : declarations.any misuses = false) {pre : Option Bytes}
    (hpre : pre ≠ some (utf8 "xml")) : inForce (kept declarations) pre = inForce declarations pre := by
  induction declarations with
  | nil => rfl
  | cons d ds ih =>
    rw [List.any_cons, Bool.or_eq_false_iff] at hrules
    have hrest := ih hrules.2
    have hkept : inForce (kept [d]) pre = if d.1 = pre then some d.2 else none := by
      have hsingle := inForce_cons d [] pre
      by_cases hxml : d.1 = some (utf8 "xml")
      · have hne : ¬ d.1 = pre := fun h => hpre (h.symm.trans hxml)
        simp [kept, hxml, inForce, Ne.symm hpre]
      · have hone : kept [d] = [d] := by simp [kept, hrules.1, hxml]
        rw [hone, hsingle]
        rfl
    rw [kept_cons, inForce_append, hrest, inForce_cons, hkept]

theorem inForce_kept_single {bindings : List (Option Bytes × Bytes)} (h : Single bindings)
    {pre : Option Bytes} (hpre : pre ≠ some (utf8 "xml")) :
    inForce (kept bindings) pre = (inForce bindings pre).filter fun uri => !misuses (pre, uri) := by
  have hkept : Single (kept bindings) := by
    unfold Single kept at *
    exact h.sublist (List.filter_sublist.map Prod.fst)
  refine Option.ext fun uri => ?_
  rw [inForce_single hkept, Option.filter_eq_some_iff, inForce_single h, kept, List.mem_filter]
  simp [hpre]

/-! ## A name -/

theorem resolveIn_eq (scope : List (Option Bytes × Bytes)) (raw : Bytes) (element : Bool) :
    resolveIn scope raw element =
      if (splitName raw).1 = some (utf8 "xml") then some ⟨some ns.XML, (splitName raw).2⟩
      else if (splitName raw).1.isNone && !element then some ⟨none, (splitName raw).2⟩
      else named (splitName raw).1 (splitName raw).2 (uriOf scope (splitName raw).1) := by
  unfold resolveIn splitName uriOf inForce named
  cases splitOnce 0x3a raw with
  | none =>
    dsimp only
    cases scope.reverse.find? (fun binding => binding.1 = none) <;> rfl
  | some name =>
    dsimp only
    cases scope.reverse.find? (fun binding => binding.1 = some name.1) <;> rfl

/-- The name that the reader's bindings give. -/
def readName (bindings : List (Option Bytes × Bytes)) (raw : Bytes) (element : Bool) :
    Option QName :=
  if (splitName raw).1.isNone && !element then some ⟨none, (splitName raw).2⟩
  else named (splitName raw).1 (splitName raw).2 (uriOf bindings (splitName raw).1)

theorem resolve_eq (bindings : List (Option Bytes × Bytes)) (levels : List Nat) (raw : Bytes)
    (element : Bool) :
    (match (Resolver.mk bindings levels).resolve raw element with
      | .unbound => some ⟨none, (splitName raw).2⟩
      | .bound uri => some ⟨some uri, (splitName raw).2⟩
      | .unknown _ => none) = readName bindings raw element := by
  unfold Resolver.resolve readName
  generalize splitName raw = name
  obtain ⟨pre, localName⟩ := name
  dsimp only
  by_cases hplain : (pre.isNone && !element) = true
  · rw [if_pos hplain, if_pos hplain]
  · rw [if_neg hplain, if_neg hplain]
    unfold uriOf inForce named
    cases bindings.reverse.find? (fun binding => binding.1 = pre) with
    | none => cases pre <;> rfl
    | some d =>
      obtain ⟨p, uri⟩ := d
      cases uri <;> cases pre <;> rfl

theorem resolveAttribute_eq (bindings : List (Option Bytes × Bytes)) (raw : Bytes) :
    GmlReader.resolveAttribute ⟨bindings, []⟩ raw = readName bindings raw false :=
  resolve_eq bindings [] raw false

theorem resolveElement_ok (bindings : List (Option Bytes × Bytes)) (raw : Bytes) (name : QName) :
    GmlReader.resolveElement ⟨bindings, []⟩ raw = .ok name ↔
      readName bindings raw true = some name := by
  rw [← resolve_eq bindings [] raw true]
  unfold GmlReader.resolveElement
  cases Resolver.resolve ⟨bindings, []⟩ raw true <;> simp

/-- The prefix is declared so that the reader sees what the document says: in the
feature without references, or around it and by the rules. -/
def PlainPrefix (quickXml : Bytes → Option Bytes) (scope written : List (Option Bytes × Bytes))
    (pre : Option Bytes) : Prop :=
  match inForce written pre with
  | some value => unescape quickXml value = value
  | none =>
    match inForce scope pre with
    | some uri => misuses (pre, uri) = false ∨ pre = some (utf8 "xmlns") ∧ uri = ns.XMLNS
    | none => True

/-- A name as written has a plain prefix, or one that needs no declaration. -/
def PlainName (quickXml : Bytes → Option Bytes) (scope written : List (Option Bytes × Bytes))
    (raw : Bytes) (element : Bool) : Prop :=
  (splitName raw).1 = some (utf8 "xml") ∨ (splitName raw).1 = none ∧ element = false ∨
    PlainPrefix quickXml scope written (splitName raw).1

section

open Splitter (flatten)

variable {quickXml : Bytes → Option Bytes} {scope written : List (Option Bytes × Bytes)}

theorem inForce_contextBindings {pre : Option Bytes} (hpre : pre ≠ some (utf8 "xml")) :
    inForce (contextBindings (flatten scope)) pre =
      ((inForce scope pre).filter fun uri => !misuses (pre, uri)).or
        (if pre = some (utf8 "xmlns") then some ns.XMLNS else none) := by
  obtain ⟨hsingle, hmem⟩ := flatten_bindings scope
  have hscope : inForce (flatten scope).bindings pre = inForce scope pre :=
    Option.ext fun uri => (inForce_single hsingle pre uri).trans (hmem pre uri)
  unfold contextBindings
  rw [inForce_append, inForce_kept_single hsingle hpre, hscope, inForce_default, if_neg hpre]

theorem misuses_ne_nil {pre : Option Bytes} {uri : Bytes} (h : misuses (pre, uri) = true)
    (hxml : pre ≠ some (utf8 "xml")) (hxmlns : pre ≠ some (utf8 "xmlns")) : uri ≠ [] := by
  intro hnil
  unfold misuses at h
  cases pre with
  | none => cases h
  | some pre =>
    have hpre : pre ≠ utf8 "xml" := fun h => hxml (congrArg some h)
    have hpre' : pre ≠ utf8 "xmlns" := fun h => hxmlns (congrArg some h)
    have hXML : ns.XML ≠ [] := by decide
    have hXMLNS : ns.XMLNS ≠ [] := by decide
    simp [hpre, hpre', hnil, hXML.symm, hXMLNS.symm] at h
    rcases h with h | h
    · exact hXML h
    · exact hXMLNS h

/-- The reader's URI of a prefix is the document's where the prefix is plain. -/
theorem uriOf_eq {pre : Option Bytes} (hrules : written.any misuses = false)
    (hpre : pre ≠ some (utf8 "xml"))
    (hnamed : pre = some (utf8 "xmlns") →
      uriOf (scope ++ written.map (expanded quickXml)) pre ≠ []) :
    uriOf (contextBindings (flatten scope) ++ kept written) pre =
        uriOf (scope ++ written.map (expanded quickXml)) pre ↔
      PlainPrefix quickXml scope written pre := by
  unfold uriOf at *
  unfold PlainPrefix
  rw [inForce_append, inForce_append, inForce_expanded] at *
  rw [inForce_kept hrules hpre]
  cases hwritten : inForce written pre with
  | some value =>
    simp [eq_comm]
  | none =>
    rw [hwritten] at hnamed
    rw [inForce_contextBindings hpre]
    cases hscope : inForce scope pre with
    | none =>
      rw [hscope] at hnamed
      by_cases hxmlns : pre = some (utf8 "xmlns")
      · exact absurd rfl (hnamed hxmlns)
      · simp [hxmlns]
    | some uri =>
      -- A declaration around the feature that breaks the rules is not kept.
      have hfilter : (some uri).filter (fun uri => !misuses (pre, uri)) =
          if misuses (pre, uri) = true then none else some uri := by
        cases hmisuse : misuses (pre, uri) <;> simp [Option.filter, hmisuse]
      rw [hfilter]
      dsimp only [Option.map_none, Option.none_or, Option.getD_some]
      cases hmisuse : misuses (pre, uri) with
      | false =>
        exact ⟨fun _ => .inl rfl, fun _ => rfl⟩
      | true =>
        by_cases hxmlns : pre = some (utf8 "xmlns")
        · rw [if_pos rfl, if_pos hxmlns]
          exact ⟨fun h => .inr ⟨hxmlns, h.symm⟩, fun h => (h.resolve_left nofun).2.symm⟩
        · have hne := misuses_ne_nil hmisuse hpre hxmlns
          rw [if_pos rfl, if_neg hxmlns]
          exact ⟨fun h => absurd h.symm hne, fun h => absurd (h.resolve_left nofun).1 hxmlns⟩

/-- The reader gives a name what the document gives it where the name is
plain. -/
theorem readName_eq {raw : Bytes} {element : Bool} {name : QName}
    (hrules : written.any misuses = false)
    (h : resolveIn (scope ++ written.map (expanded quickXml)) raw element = some name) :
    readName (contextBindings (flatten scope) ++ kept written) raw element = some name ↔
      PlainName quickXml scope written raw element := by
  rw [resolveIn_eq] at h
  unfold readName PlainName
  generalize (splitName raw).1 = pre at *
  generalize (splitName raw).2 = localName at *
  by_cases hxml : pre = some (utf8 "xml")
  · have huri : uriOf (contextBindings (flatten scope) ++ kept written) pre = ns.XML := by
      unfold uriOf contextBindings
      rw [hxml, inForce_append, inForce_append, inForce_kept_xml, inForce_kept_xml,
        inForce_default]
      rfl
    rw [if_pos hxml] at h
    rw [huri, ← h]
    have hne : ns.XML ≠ [] := by decide
    simp [named, hxml, hne]
  · rw [if_neg hxml] at h
    by_cases hattr : (pre.isNone && !element) = true
    · rw [if_pos hattr] at h ⊢
      simp only [Bool.and_eq_true, Option.isNone_iff_eq_none, Bool.not_eq_true'] at hattr
      simp [h, hattr]
    · rw [if_neg hattr] at h ⊢
      have hplain : ¬ (pre = none ∧ element = false) := by simpa using hattr
      rw [← h, named_inj, uriOf_eq hrules hxml]
      · simp [hxml, hplain]
      · intro hxmlns hnil
        rw [hnil, hxmlns] at h
        cases h

/-! ## A feature -/

/-- The tag declares by the rules, and its names are plain. -/
structure ScopedTag.Plain (quickXml : Bytes → Option Bytes)
    (scope : List (Option Bytes × Bytes)) (t : ScopedTag) : Prop where
  rules : t.written.any misuses = false
  element : PlainName quickXml scope t.written t.tag.name.bytes true
  attributes : ∀ attr ∈ t.tag.attributes, PlainName quickXml scope t.written attr.1 false

/-- All tags of the feature are plain. -/
def Placed.Plain (quickXml : Bytes → Option Bytes) (p : Placed) : Prop :=
  ∀ t ∈ p.element.tags, t.Plain quickXml p.scope

theorem mapM_some {α β : Type} {g : α → Option β} {l : List α} {results : List β}
    (h : l.mapM g = some results) :
    results.length = l.length ∧ ∀ a ∈ l, ∃ b, g a = some b := by
  induction l generalizing results with
  | nil =>
    rw [List.mapM_nil] at h
    rw [← Option.some.inj h]
    exact ⟨rfl, nofun⟩
  | cons a l ih =>
    rw [List.mapM_cons] at h
    simp only [bind, Option.bind_eq_some_iff] at h
    obtain ⟨b, hb, rest, hrest, hresults⟩ := h
    obtain ⟨hlength, hall⟩ := ih hrest
    rw [← Option.some.inj hresults, List.forall_mem_cons]
    exact ⟨congrArg (· + 1) hlength, ⟨b, hb⟩, hall⟩

/-- Where every element has a result, skipping gives all the results only if it
skips nothing. -/
theorem filterMap_eq_iff {α β : Type} {f g : α → Option β} {l : List α} {results : List β}
    (h : l.mapM g = some results) : l.filterMap f = results ↔ ∀ a ∈ l, f a = g a := by
  induction l generalizing results with
  | nil =>
    rw [List.mapM_nil] at h
    simp [← Option.some.inj h]
  | cons a l ih =>
    rw [List.mapM_cons] at h
    simp only [bind, Option.bind_eq_some_iff] at h
    obtain ⟨b, hb, rest, hrest, hresults⟩ := h
    rw [← Option.some.inj hresults, List.forall_mem_cons, hb]
    cases hf : f a with
    | none =>
      rw [List.filterMap_cons_none hf]
      refine ⟨fun hsame => ?_, fun hall => nomatch hall.1⟩
      have hle := List.length_filterMap_le f l
      have hlen := (mapM_some hrest).1
      rw [hsame, List.length_cons] at hle
      omega
    | some c =>
      rw [List.filterMap_cons_some hf, List.cons.injEq, ih hrest, Option.some.injEq]

/-- The reader gives a tag its names in the document where the tag is plain. -/
theorem read_tag {t : ScopedTag} {names : Names}
    (h : t.tag.names (scope ++ t.written.map (expanded quickXml)) = some names) :
    t.read (contextBindings (flatten scope)) = .ok names ↔ t.Plain quickXml scope := by
  unfold Tag.names at h
  simp only [bind, Option.bind_eq_some_iff] at h
  obtain ⟨element, helement, attributes, hattributes, hnames⟩ := h
  rw [← Option.some.inj hnames]
  unfold ScopedTag.read
  by_cases hrules : t.written.any misuses = false
  · have hattrs : (t.tag.attributes.filterMap fun attr => GmlReader.resolveAttribute
        ⟨contextBindings (flatten scope) ++ kept t.written, []⟩ attr.1) = attributes ↔
        ∀ attr ∈ t.tag.attributes, PlainName quickXml scope t.written attr.1 false := by
      rw [filterMap_eq_iff hattributes]
      refine forall₂_congr fun attr hattr => ?_
      obtain ⟨name, hname⟩ := (mapM_some hattributes).2 attr hattr
      rw [hname, resolveAttribute_eq]
      exact readName_eq hrules hname
    have hname : GmlReader.resolveElement
        ⟨contextBindings (flatten scope) ++ kept t.written, []⟩ t.tag.name.bytes = .ok element ↔
        PlainName quickXml scope t.written t.tag.name.bytes true := by
      rw [resolveElement_ok]
      exact readName_eq hrules helement
    rw [if_neg (by rw [hrules]; exact Bool.false_ne_true)]
    dsimp only
    constructor
    · intro hread
      cases hresolved : GmlReader.resolveElement
          ⟨contextBindings (flatten scope) ++ kept t.written, []⟩ t.tag.name.bytes with
      | error e =>
        rw [hresolved] at hread
        cases hread
      | ok resolved =>
        rw [hresolved] at hread
        have hpair := Prod.ext_iff.1 (Except.ok.inj hread)
        rw [hresolved] at hname
        exact ⟨hrules, hname.1 (congrArg Except.ok hpair.1), hattrs.1 hpair.2⟩
    · intro hplain
      rw [hname.2 hplain.element]
      exact congrArg (fun attributes => Except.ok (element, attributes)) (hattrs.2 hplain.attributes)
  · rw [if_pos (by simpa using hrules)]
    exact ⟨nofun, fun hplain => absurd hplain.rules hrules⟩

/-- The reader gives a feature its names in the document where the feature is
plain. -/
theorem read_tags {tags : List ScopedTag} {names : List Names}
    (h : (tags.mapM fun t => t.tag.names (scope ++ t.written.map (expanded quickXml))) =
      some names) :
    tags.mapM (ScopedTag.read (contextBindings (flatten scope))) = .ok names ↔
      ∀ t ∈ tags, t.Plain quickXml scope := by
  induction tags generalizing names with
  | nil =>
    rw [List.mapM_nil] at h
    simp [← Option.some.inj h, pure, Except.pure]
  | cons t tags ih =>
    rw [List.mapM_cons] at h
    simp only [bind, Option.bind_eq_some_iff] at h
    obtain ⟨first, hfirst, rest, hrest, hnames⟩ := h
    rw [← Option.some.inj hnames, List.forall_mem_cons, List.mapM_cons, ← read_tag hfirst,
      ← ih hrest]
    cases t.read (contextBindings (flatten scope)) with
    | error e => simp [bind, Except.bind]
    | ok first' =>
      cases tags.mapM (ScopedTag.read (contextBindings (flatten scope))) with
      | error e => simp [bind, Except.bind]
      | ok rest' => simp [bind, Except.bind, pure, Except.pure]

end

/-! ## A chunk -/

open Splitter (Delivers flatten) in
/-- A chunk holds features of the document, one after the other, and has the
context of their scope. -/
theorem chunk_features (doc : Document) {reader : List Read} (h : Delivers reader doc.render)
    {quickXml : Bytes → Option Bytes} {source : Nat} {options : SplitterOptions}
    {chunks : List FeatureChunk}
    (hended : (Splitter.new reader source options).chunks quickXml = (chunks, .ended))
    {chunk : FeatureChunk} (hchunk : chunk ∈ chunks) :
    ∃ part, part <:+: doc.placed quickXml options ∧
      (∃ before, Describes before (part.map Placed.feature) chunk) ∧
      ∀ p ∈ part, chunk.namespaces.val = flatten p.scope := by
  obtain ⟨seg, hmarks, hof⟩ := (Splitter.chunks_emit doc h source hended).1 chunk hchunk
  refine ⟨seg.located.map Located.placed, ?_, ⟨(Mark.features seg.before).length, ?_⟩, ?_⟩
  · refine ⟨(Mark.located seg.before).map Located.placed,
      (Mark.located seg.later).map Located.placed, ?_⟩
    have hlocated : (Mark.located (doc.marks quickXml options source)).map Located.placed =
        doc.placed quickXml options := doc.marks_located
    rw [← hlocated, ← hmarks]
    simp [Segment.marks, Segment.located]
  · have hdescribes := hof.describes
    rw [seg.features_eq] at hdescribes
    rw [List.map_map]
    exact hdescribes
  · intro p hp
    obtain ⟨l, hl, rfl⟩ := List.mem_map.1 hp
    exact (hof.context l hl).symm

/-- Reading whole features leaves the reader in the scope it was in. -/
theorem read_features {quickXml : Bytes → Option Bytes} {part : List Placed} :
    ∀ {r r' : GmlReader} {events : List XmlEvent},
      r.read quickXml (part.flatMap fun p => p.element.events) = .ok (events, r') →
      r'.popPending.resolver = r.popPending.resolver := by
  induction part with
  | nil =>
    intro r r' events h
    cases h
    rfl
  | cons p part ih =>
    intro r r' events h
    rw [List.flatMap_cons, read_append] at h
    have hfirst : Simulates r (r.read quickXml p.element.events) _ :=
      read_element p.element rfl
    cases hread : r.read quickXml p.element.events with
    | error e =>
      rw [hread] at h
      cases h
    | ok first =>
      obtain ⟨events₁, r₁⟩ := first
      rw [hread] at h hfirst
      generalize p.element.tags.mapM (ScopedTag.read r.popPending.resolver.bindings) = names
        at hfirst
      cases hfirst with
      | ok hnames hresolver hopened =>
        simp only [bind, Except.bind] at h
        cases hmore : r₁.read quickXml (part.flatMap fun p => p.element.events) with
        | error e =>
          rw [hmore] at h
          cases h
        | ok more =>
          rw [hmore] at h
          have hlast := ih hmore
          cases h
          exact hlast.trans hresolver

open Splitter (Delivers) in
/-- For every document that the splitter accepts and every feature in a chunk,
the splitter has judged the feature by its name in the document, and a reader of
the chunk that has come to the feature gives its tags their names in the
document if and only if the feature is plain. -/
theorem reader_names_agree (doc : Document) {reader : List Read}
    (h : Delivers reader doc.render) (quickXml : Bytes → Option Bytes) (source : Nat)
    (options : SplitterOptions) {chunks : List FeatureChunk}
    (hended : (Splitter.new reader source options).chunks quickXml = (chunks, .ended))
    {chunk : FeatureChunk} (hchunk : chunk ∈ chunks) :
    ∃ part, part <:+: doc.placed quickXml options ∧
      (∃ before, Describes before (part.map Placed.feature) chunk) ∧
      ∀ pre p post, part = pre ++ p :: post →
        (∃ name, p.name quickXml = some name ∧ wantedIn options name = true) ∧
        ∀ events r names,
          (GmlReader.forChunk chunk).read quickXml (pre.flatMap fun p => p.element.events) =
            .ok (events, r) →
          p.names quickXml = some names →
          names.head?.map Prod.fst = p.name quickXml ∧
            ((∃ events' r', r.read quickXml p.element.events = .ok (events', r') ∧
              startNames events' = names) ↔ p.Plain quickXml) := by
  obtain ⟨part, hpart, hdescribes, hcontext⟩ := chunk_features doc h hended hchunk
  refine ⟨part, hpart, hdescribes, fun pre p post hsplit => ?_⟩
  have hp : p ∈ part := by
    rw [hsplit]
    exact List.mem_append_right _ List.mem_cons_self
  refine ⟨doc.placed_name (hpart.subset hp), fun events r names hbefore hnames => ?_⟩
  obtain ⟨first, rest, hcons, hname⟩ := Placed.names_head hnames
  refine ⟨by rw [hcons, hname]; rfl, ?_⟩
  -- The reader stands in the scope of the feature.
  have hbindings : r.popPending.resolver.bindings =
      contextBindings (Splitter.flatten p.scope) := by
    rw [read_features hbefore, ← hcontext p hp]
    exact new_bindings chunk.namespaces.val
  have hread : Simulates r (r.read quickXml p.element.events) _ :=
    read_element p.element hbindings
  unfold Placed.Plain
  rw [← read_tags hnames]
  generalize r.read quickXml p.element.events = read at hread
  generalize p.element.tags.mapM
    (ScopedTag.read (contextBindings (Splitter.flatten p.scope))) = tagNames at hread
  cases hread with
  | error e => exact ⟨fun ⟨_, _, hok, _⟩ => (nomatch hok), nofun⟩
  | @ok events r' names' hnames' hresolver hopened =>
    constructor
    · rintro ⟨events', r'', hok, hsame⟩
      cases hok
      rw [← hnames', hsame]
    · intro hok
      cases hok
      exact ⟨events, r', rfl, hnames'⟩

/-! ## Two documents -/

open Splitter (Delivers noSpace declaringTag memberTag gmlCollection memberOfF)

/-- The chunk of a collection of one feature. -/
def oneFeature (bytes : Bytes) : FeatureChunk where
  source := 0
  seq := 0
  byteOffset := 69
  bytes := bytes
  namespaces := ⟨1, ⟨[(none, ns.GML)]⟩⟩
  firstFeatureSeq := 0
  features := 1
  featureOffsets := [⟨0, 69⟩]
  collectionBoundedBy := none

/-- `<F/>` in the default namespace of the collection. -/
theorem reader_names_agree_one :
    (Splitter.new [.bytes (gmlCollection memberOfF).render] 0 .default).chunks some =
        ([oneFeature (utf8 "<F/>")], .ended) ∧
      ∃ part, part <:+: (gmlCollection memberOfF).placed some .default ∧
        ∀ p ∈ part, ∃ name, p.name some = some name ∧ wantedIn .default name = true := by
  have hread : Delivers [.bytes (gmlCollection memberOfF).render]
      (gmlCollection memberOfF).render := by
    have : Delivers _ ((gmlCollection memberOfF).render ++ []) := .bytes (by decide) .done
    rwa [List.append_nil] at this
  have hrun : (Splitter.new [.bytes (gmlCollection memberOfF).render] 0 .default).chunks some =
      ([oneFeature (utf8 "<F/>")], .ended) := by
    decide +kernel
  obtain ⟨part, hpart, -, hall⟩ := reader_names_agree (gmlCollection memberOfF) hread some 0
    .default hrun List.mem_cons_self
  refine ⟨hrun, part, hpart, fun p hp => ?_⟩
  obtain ⟨pre, post, hsplit⟩ := List.append_of_mem hp
  exact (hall pre p post hsplit).1

/-- `<p:F xmlns:p="u&amp;v"/>` -/
def referenceTag : Tag :=
  declaringTag (utf8 "p:F") (utf8 "xmlns:p") (utf8 "u&amp;v") (by decide) (by decide) (by decide)

/-- A collection of this feature. -/
def memberOfReference : Content := .element memberTag (.empty referenceTag .nil) noSpace .nil

/-- The value `u&amp;v` is the URI `u&v`. -/
def expandAmp (value : Bytes) : Option Bytes :=
  if value = utf8 "u&amp;v" then some (utf8 "u&v") else some value

/-- The reader takes the URI as written, and gives the feature another name than
the one it has, by which the splitter has judged it. -/
theorem reader_misnames :
    (Splitter.new [.bytes (gmlCollection memberOfReference).render] 0 .default).chunks expandAmp =
        ([oneFeature referenceTag.renderEmpty], .ended) ∧
      ∃ p ∈ (gmlCollection memberOfReference).placed expandAmp .default,
        p.name expandAmp = some ⟨some (utf8 "u&v"), utf8 "F"⟩ ∧
        p.names expandAmp = some [(⟨some (utf8 "u&v"), utf8 "F"⟩, [])] ∧
        ((GmlReader.forChunk (oneFeature referenceTag.renderEmpty)).read expandAmp
            p.element.events).map (fun read => startNames read.1) =
          .ok [(⟨some (utf8 "u&amp;v"), utf8 "F"⟩, [])] := by
  refine ⟨by decide +kernel, ⟨69, [(none, ns.GML)], ⟨referenceTag, none⟩⟩, ?_, by decide +kernel,
    by decide +kernel, by decide +kernel⟩
  have hplaced : (gmlCollection memberOfReference).placed expandAmp .default =
      [⟨69, [(none, ns.GML)], ⟨referenceTag, none⟩⟩] := by
    rfl
  rw [hplaced]
  exact List.mem_singleton_self _

end Xeibe

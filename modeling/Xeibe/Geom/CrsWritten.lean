import Xeibe.Geom.Crs

/-!
# CRSs written and read back

What an srsName names is written as `EPSG:2180` or in PROJ's spelling of a compound
CRS, and read again as an srsName.  An EPSG code and a compound that starts with
one survive, as long as its other parts do; a code of another authority is read
only as a part.
-/

namespace Xeibe.Geom

open Xeibe.Lib.Text

section

variable {epsgAlias : Text → Option UInt32}

/-! ## Parts are shorter than the whole -/

theorem collect_congr {α β : Type} {f g : α → Option β} {xs : List α} (h : ∀ x ∈ xs, f x = g x) :
    collect (xs.map f) = collect (xs.map g) := by
  rw [List.map_congr_left h]

theorem length_of_mem_splitOn {sep : Char} {s piece : Text} (h : piece ∈ s.splitOn sep) :
    piece.length ≤ s.length := (infix_of_mem_splitOn h).length_le

theorem length_stripPrefixCi {s front rest : Text} (h : stripPrefixCi s front = some rest) :
    s.length = front.length + rest.length := by
  obtain ⟨head, rfl, hlength⟩ := stripPrefixCi_spec h
  rw [List.length_append, hlength]

section

variable {part part' : Text → Option CrsRef}

theorem epsgCodes_congr {codes : Text} (h : ∀ t, t.length ≤ codes.length → part t = part' t) :
    epsgCodes part codes = epsgCodes part' codes := by
  unfold epsgCodes
  cases hpieces : (codes.splitOn '+').map trim with
  | nil => rfl
  | cons first rest =>
    have hrest : ∀ code ∈ rest, ((epsgCode code).map CrsRef.epsg).or (part code) =
        ((epsgCode code).map CrsRef.epsg).or (part' code) := by
      intro code hcode
      have hmem : code ∈ (codes.splitOn '+').map trim := hpieces ▸ List.mem_cons_of_mem _ hcode
      obtain ⟨piece, hpiece, rfl⟩ := List.mem_map.1 hmem
      rw [h _ (Nat.le_trans (trim_length_le piece) (length_of_mem_splitOn hpiece))]
    simp only [collect_congr hrest]

theorem queryParts_congr {query : Text} (h : ∀ t, t.length ≤ query.length → part t = part' t) :
    queryParts part query = queryParts part' query := by
  unfold queryParts
  rw [collect_congr fun pair hpair => ?_]
  unfold queryPart
  cases hsplit : Lib.Text.splitOnce '=' pair with
  | none => rfl
  | some kv =>
    obtain ⟨key, value⟩ := kv
    have hvalue : value.length ≤ query.length := by
      have hlength := length_of_mem_splitOn hpair
      rw [(splitOnce_spec hsplit).1, List.length_append, List.length_cons] at hlength
      omega
    simp only [Option.bind_eq_bind, Option.bind_some, h value hvalue]

theorem parseHttp_congr {rest : Text} (h : ∀ t, t.length ≤ rest.length → part t = part' t) :
    parseHttp part rest = parseHttp part' rest := by
  unfold parseHttp
  cases hwww : stripPrefixCi rest "www.opengis.net/".toList with
  | none => rfl
  | some tail =>
    have htail := length_stripPrefixCi hwww
    simp only [Option.bind_eq_bind, Option.bind_some]
    cases hcompound : stripPrefixCi tail "def/crs-compound?".toList with
    | none => rfl
    | some query =>
      have hquery := length_stripPrefixCi hcompound
      have hparts := @queryParts_congr part part' query fun t ht => h t (by omega)
      simp only [hparts]

theorem urnPart_congr {text : Text} (h : ∀ t, t.length ≤ text.length → part t = part' t) :
    urnPart part text = urnPart part' text := by
  have hle := trim_length_le text
  unfold urnPart
  cases hcrs : stripPrefixCi (trim text) "crs:".toList with
  | none => exact h _ hle
  | some rest =>
    have hrest := length_stripPrefixCi hcrs
    exact h rest (by omega)

theorem parseShort_congr {s : Text} (h : ∀ t, t.length < s.length → part t = part' t) :
    parseShort epsgAlias part s = parseShort epsgAlias part' s := by
  unfold parseShort
  cases hsplit : Lib.Text.splitOnce ':' s with
  | none => rfl
  | some pair =>
    obtain ⟨authority, code⟩ := pair
    have hlength := congrArg List.length (splitOnce_spec hsplit).1
    rw [List.length_append, List.length_cons] at hlength
    have hdrop := (List.dropWhile_sublist (· == ':') (l := code)).length_le
    have hcodes := @epsgCodes_congr part part' (code.dropWhile (· == ':')) fun t ht =>
      h t (by omega)
    simp only [Option.bind_eq_bind, Option.bind_some, hcodes]

/-- The forms read parts that are shorter than the whole. -/
theorem parseFormWith_congr {s : Text} (h : ∀ t, t.length < s.length → part t = part' t) :
    parseFormWith epsgAlias part s = parseFormWith epsgAlias part' s := by
  have hshort : ∀ {front rest : Text}, stripPrefixCi s front = some rest → 0 < front.length →
      ∀ t, t.length ≤ rest.length → part t = part' t := by
    intro front rest hs hpos t ht
    have hlength := length_stripPrefixCi hs
    exact h t (by omega)
  unfold parseFormWith
  cases hurn : stripPrefixCi s "urn:ogc:def:crs,".toList with
  | some rest =>
    have hparts : ∀ text ∈ rest.splitOn ',', urnPart part text = urnPart part' text :=
      fun text htext => urnPart_congr fun t ht =>
        hshort hurn (by decide) t (Nat.le_trans ht (length_of_mem_splitOn htext))
    simp only [collect_congr hparts]
  | none =>
    cases hadv : stripPrefixCi s "urn:adv:crs:".toList with
    | some rest =>
      have hparts : ∀ text ∈ rest.splitOn '*', part text = part' text :=
        fun text htext => hshort hadv (by decide) text (length_of_mem_splitOn htext)
      simp only [collect_congr hparts]
    | none =>
      cases hhttp : (stripPrefixCi s "http://".toList).or (stripPrefixCi s "https://".toList) with
      | some rest =>
        have hrest : ∀ t, t.length ≤ rest.length → part t = part' t := by
          cases hplain : stripPrefixCi s "http://".toList with
          | some plain =>
            rw [hplain] at hhttp
            cases hhttp
            exact hshort hplain (by decide)
          | none =>
            rw [hplain, Option.none_or] at hhttp
            exact hshort hhttp (by decide)
        simp only [parseHttp_congr hrest]
      | none => simp only [parseShort_congr h]

theorem partWith_congr {form form' : Text → Option (SrsNameForm × Option CrsRef)} {text : Text}
    (h : form (trim text) = form' (trim text)) : partWith form text = partWith form' text := by
  simp only [partWith, h]

end

theorem parseFormAt_eq {m n : Nat} {s : Text} (hm : s.length < m) (hn : s.length < n) :
    parseFormAt epsgAlias m s = parseFormAt epsgAlias n s := by
  induction m generalizing n s with
  | zero => omega
  | succ m ih =>
    cases n with
    | zero => omega
    | succ n =>
      rw [parseFormAt, parseFormAt]
      apply parseFormWith_congr
      intro t ht
      have hle := trim_length_le t
      exact partWith_congr (ih (by omega) (by omega))

theorem parseForm_eq (s : Text) :
    parseForm epsgAlias s = parseFormWith epsgAlias (part epsgAlias) s := by
  rw [parseForm, parseFormAt]
  apply parseFormWith_congr
  intro t ht
  have hle := trim_length_le t
  exact partWith_congr (parseFormAt_eq (by omega) (by omega))

/-! ## What is read -/

/-- What an srsName, or a part of one, is read as. -/
inductive CrsRef.Sound (epsgAlias : Text → Option UInt32) : CrsRef → Prop where
  | epsg (n : Nat) (h : n < 2 ^ 64) : Sound epsgAlias (.epsg (decimal n))
  | code (authority c : Text) (hauthority : authority ≠ [] ∧ authority ≠ "EPSG".toList)
    (hupper : toAsciiUppercase (trim authority) = authority) (hne : c ≠ []) (hc : trim c = c) :
    Sound epsgAlias (.code authority c)
  | unresolved (name : Text) (hne : name ≠ []) (htrim : trim name = name)
    (hform : (parseForm epsgAlias name).bind (·.2) = none) (hurn : ogcUrnCode name = none) :
    Sound epsgAlias (.unresolved name)
  | compound (parts : List CrsRef) (hlength : 2 ≤ parts.length)
    (hparts : ∀ p ∈ parts, Sound epsgAlias p) : Sound epsgAlias (.compound parts)

theorem mem_of_collect {α : Type} {xs : List (Option α)} {ys : List α} (h : collect xs = some ys)
    {y : α} (hy : y ∈ ys) : some y ∈ xs := by
  induction xs generalizing ys with
  | nil =>
    cases h
    cases hy
  | cons x rest ih =>
    cases x with
    | none => cases h
    | some a =>
      obtain ⟨zs, hzs, rfl⟩ := Option.map_eq_some_iff.1 h
      rcases List.mem_cons.1 hy with rfl | hy
      · exact List.mem_cons_self ..
      · exact List.mem_cons_of_mem _ (ih hzs hy)

theorem epsgCode_eq_some {t x : Text} (h : epsgCode t = some x) :
    ∃ n, parseDigits 64 (trim t) = some n ∧ n < 2 ^ 64 ∧ x = decimal n := by
  obtain ⟨n, hn, rfl⟩ := Option.map_eq_some_iff.1 h
  refine ⟨n, hn, ?_, rfl⟩
  unfold parseDigits at hn
  split at hn
  · cases hn
  · dsimp only at hn
    split at hn
    · rename_i hlt
      cases hn
      exact hlt
    · cases hn

theorem epsgCode_sound {t x : Text} (h : epsgCode t = some x) :
    CrsRef.Sound epsgAlias (.epsg x) := by
  obtain ⟨n, -, hlt, rfl⟩ := epsgCode_eq_some h
  exact .epsg n hlt

theorem codeRef_sound {authority c : Text} {crs : CrsRef} (h : codeRef authority c = some crs) :
    CrsRef.Sound epsgAlias crs := by
  unfold codeRef at h
  dsimp only at h
  split at h
  · cases h
  · rename_i hempty
    split at h
    · obtain ⟨x, hx, rfl⟩ := Option.map_eq_some_iff.1 h
      exact epsgCode_sound hx
    · rename_i hepsg
      cases h
      rw [Bool.not_eq_true, Bool.or_eq_false_iff, List.isEmpty_eq_false_iff,
        List.isEmpty_eq_false_iff] at hempty
      exact .code _ _ ⟨hempty.1, hepsg⟩ (toAsciiUppercase_trim _) hempty.2 (trim_trim _)

theorem ogcUrnCode_sound {rest : Text} {crs : CrsRef} (h : ogcUrnCode rest = some crs) :
    CrsRef.Sound epsgAlias crs := by
  obtain ⟨pair, -, hcode⟩ := Option.bind_eq_some_iff.1 h
  exact codeRef_sound hcode

/-- Whether an authority and a code are as they would be read. -/
def isRead (authority c : Text) : Bool :=
  if authority = "EPSG".toList then epsgCode c == some c
  else !authority.isEmpty && toAsciiUppercase (trim authority) == authority && !c.isEmpty &&
    trim c == c

theorem isRead_sound {authority c : Text} (h : isRead authority c = true) :
    CrsRef.Sound epsgAlias (.code authority c) := by
  unfold isRead at h
  split at h
  · rename_i hepsg
    rw [hepsg]
    exact epsgCode_sound (beq_iff_eq.1 h)
  · rename_i hepsg
    simp only [Bool.and_eq_true, Bool.not_eq_true', List.isEmpty_eq_false_iff, beq_iff_eq] at h
    obtain ⟨⟨⟨hauthority, hupper⟩, hne⟩, htrim⟩ := h
    exact .code _ _ ⟨hauthority, hepsg⟩ hupper hne htrim

theorem names_isRead : ∀ entry ∈ names, isRead entry.2.1 entry.2.2 = true := by
  decide +kernel

theorem named_sound {name : Text} {crs : CrsRef} (h : named epsgAlias name = some crs) :
    CrsRef.Sound epsgAlias crs := by
  unfold named at h
  dsimp only at h
  split at h
  · rename_i hfind
    cases h
    exact isRead_sound (names_isRead _ (List.mem_of_find?_eq_some hfind))
  · obtain ⟨code, -, rfl⟩ := Option.map_eq_some_iff.1 h
    have hlt := code.toNat_lt
    exact .epsg _ (by omega)

theorem compound_sound {parts : List CrsRef} (hparts : ∀ p ∈ parts, CrsRef.Sound epsgAlias p)
    {crs : CrsRef} (h : compound parts = some crs) : CrsRef.Sound epsgAlias crs := by
  unfold compound at h
  split at h
  · cases h
  · rename_i hall
    split at h
    · cases h
      exact hparts _ (List.mem_singleton_self _)
    · rename_i hsingle
      cases h
      refine .compound parts ?_ hparts
      match parts, hall, hsingle with
      | [], hall, _ => exact absurd rfl hall
      | [p], _, hsingle => exact absurd rfl (hsingle p)
      | _ :: _ :: _, _, _ => simp

section

variable {part : Text → Option CrsRef} {s : Text}

theorem epsgCodes_sound {codes : Text} (hpart : ∀ t, t.length ≤ codes.length → ∀ crs,
    part t = some crs → CrsRef.Sound epsgAlias crs) {crs : CrsRef}
    (h : epsgCodes part codes = some crs) : CrsRef.Sound epsgAlias crs := by
  unfold epsgCodes at h
  split at h
  · cases h
  · rename_i first rest hpieces
    obtain ⟨code, hcode, h⟩ := Option.bind_eq_some_iff.1 h
    obtain ⟨others, hothers, h⟩ := Option.bind_eq_some_iff.1 h
    refine compound_sound (fun p hp => ?_) h
    rcases List.mem_cons.1 hp with rfl | hp
    · exact epsgCode_sound hcode
    · obtain ⟨text, htext, heq⟩ := List.mem_map.1 (mem_of_collect hothers hp)
      have hmem : text ∈ (codes.splitOn '+').map trim := hpieces ▸ List.mem_cons_of_mem _ htext
      obtain ⟨piece, hpiece, rfl⟩ := List.mem_map.1 hmem
      cases hepsg : epsgCode (trim piece) with
      | some x =>
        rw [hepsg, Option.map_some, Option.some_or] at heq
        cases heq
        exact epsgCode_sound hepsg
      | none =>
        rw [hepsg, Option.map_none, Option.none_or] at heq
        exact hpart _ (Nat.le_trans (trim_length_le piece) (length_of_mem_splitOn hpiece)) _ heq

theorem queryParts_sound {query : Text} (hpart : ∀ t, t.length ≤ query.length → ∀ crs,
    part t = some crs → CrsRef.Sound epsgAlias crs) {parts : List CrsRef}
    (h : queryParts part query = some parts) : ∀ p ∈ parts, CrsRef.Sound epsgAlias p := by
  obtain ⟨keyed, hkeyed, rfl⟩ := Option.map_eq_some_iff.1 h
  intro p hp
  obtain ⟨pair, hpair, rfl⟩ := List.mem_map.1 hp
  obtain ⟨text, htext, heq⟩ := List.mem_map.1 (mem_of_collect hkeyed (List.mem_mergeSort.1 hpair))
  unfold queryPart at heq
  obtain ⟨⟨key, value⟩, hsplit, heq⟩ := Option.bind_eq_some_iff.1 heq
  obtain ⟨number, -, heq⟩ := Option.bind_eq_some_iff.1 heq
  obtain ⟨crs, hcrs, heq⟩ := Option.bind_eq_some_iff.1 heq
  cases heq
  have hlength := length_of_mem_splitOn htext
  rw [(splitOnce_spec hsplit).1, List.length_append, List.length_cons] at hlength
  exact hpart value (by omega) crs hcrs

theorem legacyCode_sound {code : Text} {crs : CrsRef} (h : legacyCode code = some crs) :
    CrsRef.Sound epsgAlias crs := by
  obtain ⟨found, hfound, rfl⟩ := Option.map_eq_some_iff.1 h
  have hmem := List.mem_of_find?_eq_some hfound
  have hall : ∀ c ∈ ["84".toList, "83".toList, "27".toList],
      isRead "OGC".toList ("CRS".toList ++ c) = true := by decide +kernel
  exact isRead_sound (hall found hmem)

theorem parseHttp_sound {rest : Text} (hpart : ∀ t, t.length ≤ rest.length → ∀ crs,
    part t = some crs → CrsRef.Sound epsgAlias crs) {form : SrsNameForm} {crs : CrsRef}
    (h : parseHttp part rest = some (form, some crs)) : CrsRef.Sound epsgAlias crs := by
  unfold parseHttp at h
  obtain ⟨tail, hwww, h⟩ := Option.bind_eq_some_iff.1 h
  have htail := length_stripPrefixCi hwww
  split at h
  · obtain ⟨x, hx, h⟩ := Option.bind_eq_some_iff.1 h
    cases h
    exact epsgCode_sound hx
  · split at h
    · obtain ⟨found, hfound, h⟩ := Option.bind_eq_some_iff.1 h
      cases h
      exact legacyCode_sound hfound
    · split at h
      · rename_i query hquery
        have hlength := length_stripPrefixCi hquery
        obtain ⟨parts, hparts, h⟩ := Option.bind_eq_some_iff.1 h
        obtain ⟨-, hcompound⟩ := Prod.mk.inj (Option.some.inj h)
        exact compound_sound (queryParts_sound (fun t ht => hpart t (by omega)) hparts) hcompound
      · split at h
        · obtain ⟨pair, -, h⟩ := Option.bind_eq_some_iff.1 h
          obtain ⟨authority, -, h⟩ := Option.bind_eq_some_iff.1 h
          obtain ⟨code, -, h⟩ := Option.bind_eq_some_iff.1 h
          obtain ⟨found, hfound, h⟩ := Option.bind_eq_some_iff.1 h
          cases h
          exact codeRef_sound hfound
        · split at h
          · split at h
            · obtain ⟨found, hfound, h⟩ := Option.bind_eq_some_iff.1 h
              cases h
              exact codeRef_sound hfound
            · cases h
          · cases h

theorem parseShort_sound (hpart : ∀ t, t.length < s.length → ∀ crs,
    part t = some crs → CrsRef.Sound epsgAlias crs) {form : SrsNameForm} {crs : CrsRef}
    (h : parseShort epsgAlias part s = some (form, some crs)) : CrsRef.Sound epsgAlias crs := by
  unfold parseShort at h
  split at h
  · obtain ⟨x, hx, h⟩ := Option.map_eq_some_iff.1 h
    cases h
    exact epsgCode_sound hx
  · split at h
    · rename_i hnamed
      cases h
      exact named_sound hnamed
    · obtain ⟨⟨authority, code⟩, hsplit, h⟩ := Option.bind_eq_some_iff.1 h
      have hlength := congrArg List.length (splitOnce_spec hsplit).1
      rw [List.length_append, List.length_cons] at hlength
      have hdrop := (List.dropWhile_sublist (· == ':') (l := code)).length_le
      dsimp only at h
      split at h
      · obtain ⟨found, hfound, h⟩ := Option.bind_eq_some_iff.1 h
        cases h
        exact epsgCodes_sound (fun t ht => hpart t (by omega)) hfound
      · cases h

theorem parseFormWith_sound (hpart : ∀ t, t.length < s.length → ∀ crs,
    part t = some crs → CrsRef.Sound epsgAlias crs) {form : SrsNameForm} {crs : CrsRef}
    (h : parseFormWith epsgAlias part s = some (form, some crs)) :
    CrsRef.Sound epsgAlias crs := by
  have hshort : ∀ {front rest : Text}, stripPrefixCi s front = some rest → 0 < front.length →
      ∀ t, t.length ≤ rest.length → ∀ crs, part t = some crs → CrsRef.Sound epsgAlias crs := by
    intro front rest hs hpos t ht
    have hlength := length_stripPrefixCi hs
    exact hpart t (by omega)
  unfold parseFormWith at h
  split at h
  · cases h
  · split at h
    · rename_i rest hurn
      obtain ⟨parts, hparts, h⟩ := Option.bind_eq_some_iff.1 h
      obtain ⟨-, hcompound⟩ := Prod.mk.inj (Option.some.inj h)
      refine compound_sound (fun p hp => ?_) hcompound
      obtain ⟨text, htext, heq⟩ := List.mem_map.1 (mem_of_collect hparts hp)
      have hle := trim_length_le text
      have hmem := length_of_mem_splitOn htext
      unfold urnPart at heq
      cases hcrs : stripPrefixCi (trim text) "crs:".toList with
      | none =>
        rw [hcrs] at heq
        exact hshort hurn (by decide) _ (Nat.le_trans hle hmem) p heq
      | some tail =>
        have hlength := length_stripPrefixCi hcrs
        rw [hcrs] at heq
        exact hshort hurn (by decide) tail (by omega) p heq
    · split at h
      · obtain ⟨found, hfound, h⟩ := Option.bind_eq_some_iff.1 h
        cases h
        exact ogcUrnCode_sound hfound
      · split at h
        · obtain ⟨found, hfound, h⟩ := Option.bind_eq_some_iff.1 h
          cases h
          exact ogcUrnCode_sound hfound
        · split at h
          · rename_i rest hadv
            obtain ⟨parts, hparts, h⟩ := Option.bind_eq_some_iff.1 h
            obtain ⟨-, hcompound⟩ := Prod.mk.inj (Option.some.inj h)
            refine compound_sound (fun p hp => ?_) hcompound
            obtain ⟨text, htext, heq⟩ := List.mem_map.1 (mem_of_collect hparts hp)
            exact hshort hadv (by decide) text (length_of_mem_splitOn htext) p heq
          · split at h
            · obtain ⟨x, hx, h⟩ := Option.bind_eq_some_iff.1 h
              cases h
              exact epsgCode_sound hx
            · split at h
              · rename_i rest hhttp
                refine parseHttp_sound ?_ h
                cases hplain : stripPrefixCi s "http://".toList with
                | some plain =>
                  rw [hplain] at hhttp
                  cases hhttp
                  exact hshort hplain (by decide)
                | none =>
                  rw [hplain, Option.none_or] at hhttp
                  exact hshort hhttp (by decide)
              · exact parseShort_sound hpart h

end

theorem part_sound {text : Text} {crs : CrsRef}
    (hform : ∀ form crs, parseForm epsgAlias (trim text) = some (form, some crs) →
      CrsRef.Sound epsgAlias crs) (h : part epsgAlias text = some crs) :
    CrsRef.Sound epsgAlias crs := by
  unfold part partWith at h
  dsimp only at h
  split at h
  · cases h
  · rename_i hempty
    rw [Bool.not_eq_true, List.isEmpty_eq_false_iff] at hempty
    cases hread : (parseForm epsgAlias (trim text)).bind (·.2) with
    | some found =>
      rw [hread, Option.some_or] at h
      cases h
      obtain ⟨⟨form, crs⟩, hparse, rfl⟩ := Option.bind_eq_some_iff.1 hread
      exact hform form _ hparse
    | none =>
      rw [hread, Option.none_or] at h
      cases hurn : ogcUrnCode (trim text) with
      | some found =>
        rw [hurn] at h
        cases h
        exact ogcUrnCode_sound hurn
      | none =>
        rw [hurn] at h
        cases h
        exact .unresolved _ hempty (trim_trim _) hread hurn

theorem parseForm_sound {s : Text} {form : SrsNameForm} {crs : CrsRef}
    (h : parseForm epsgAlias s = some (form, some crs)) : CrsRef.Sound epsgAlias crs := by
  induction hn : s.length using Nat.strongRecOn generalizing s form crs with
  | ind n ih =>
    subst hn
    rw [parseForm_eq] at h
    refine parseFormWith_sound (fun t ht found hfound => ?_) h
    have hle := trim_length_le t
    exact part_sound (fun form' crs' h' => ih _ (by omega) h' rfl) hfound

/-! ## What is written -/

/-- The texts of the parts of a compound CRS, after an authority. -/
def writtenPieces : Option Text → List CrsRef → List Text
  | _, [] => []
  | previous, .code authority c :: rest =>
    (if previous = some authority then c else authority ++ ':' :: c) ::
      writtenPieces (some authority) rest
  | previous, .compound parts :: rest =>
    CrsRef.writeParts [] none parts :: writtenPieces previous rest
  | previous, .unresolved name :: rest => name :: writtenPieces previous rest

theorem writeParts_eq {out : Text} (hout : out ≠ []) (previous : Option Text)
    (parts : List CrsRef) : CrsRef.writeParts out previous parts =
      out ++ (writtenPieces previous parts).flatMap ('+' :: ·) := by
  induction parts generalizing out previous with
  | nil => simp [CrsRef.writeParts, writtenPieces]
  | cons part rest ih =>
    have hempty : out.isEmpty = false := List.isEmpty_eq_false_iff.2 hout
    cases part with
    | code authority c =>
      rw [CrsRef.writeParts, hempty]
      by_cases hsame : previous = some authority
      · rw [if_pos hsame, ih (by simp), writtenPieces, if_pos hsame, hsame]
        simp
      · rw [if_neg hsame, ih (by simp), writtenPieces, if_neg hsame]
        simp
    | compound parts =>
      rw [CrsRef.writeParts, hempty, ih (by simp), writtenPieces]
      simp
    | unresolved name =>
      rw [CrsRef.writeParts, hempty, ih (by simp), writtenPieces]
      simp

theorem intercalate_cons (sep : Char) (first : Text) (rest : List Text) :
    [sep].intercalate (first :: rest) = first ++ rest.flatMap (sep :: ·) := by
  induction rest generalizing first with
  | nil => simp
  | cons second rest ih =>
    rw [List.intercalate_cons_cons, ih, List.flatMap_cons]
    simp

theorem authorityCode_compound (c : Text) (rest : List CrsRef) :
    (CrsRef.compound (.epsg c :: rest)).authorityCode =
      "EPSG:".toList ++ ['+'].intercalate (c :: writtenPieces (some "EPSG".toList) rest) := by
  have hfirst : CrsRef.writeParts [] none (CrsRef.epsg c :: rest) =
      CrsRef.writeParts ("EPSG:".toList ++ c) (some "EPSG".toList) rest := by
    rw [CrsRef.epsg, CrsRef.writeParts]
    rfl
  rw [CrsRef.authorityCode, hfirst, writeParts_eq (by simp), intercalate_cons, List.append_assoc]

/-! ## Reading it -/

theorem stripPrefixCi_head_ne {c p : Char} {s : Text} (front : Text) (h : c.toLower ≠ p)
    (hfront : front.head?.map Char.toLower = some p) : stripPrefixCi (c :: s) front = none := by
  cases front with
  | nil => cases hfront
  | cons q front =>
    have hq : q.toLower = p := by simpa using hfront
    exact stripPrefixCi_cons_ne (by rwa [hq]) s front

theorem parseForm_eq_short {c : Char} {s : Text} (hu : c.toLower ≠ 'u') (hh : c.toLower ≠ 'h') :
    parseForm epsgAlias (c :: s) = parseShort epsgAlias (part epsgAlias) (c :: s) := by
  rw [parseForm_eq, parseFormWith]
  rw [stripPrefixCi_head_ne "urn:ogc:def:crs,".toList hu (by decide),
    stripPrefixCi_head_ne "urn:ogc:def:crs:".toList hu (by decide),
    stripPrefixCi_head_ne "urn:x-ogc:def:crs:".toList hu (by decide),
    stripPrefixCi_head_ne "urn:adv:crs:".toList hu (by decide),
    stripPrefixCi_head_ne "urn:epsg:".toList hu (by decide),
    stripPrefixCi_head_ne "http://".toList hh (by decide),
    stripPrefixCi_head_ne "https://".toList hh (by decide)]
  rfl

theorem epsgCode_decimal {n : Nat} (h : n < 2 ^ 64) : epsgCode (decimal n) = some (decimal n) := by
  have htrim : trim (decimal n) = decimal n :=
    trim_of_trimmed (trimmed_of_digits fun c hc => isDigit_of_mem_decimal hc)
  rw [epsgCode, htrim, parseDigits_decimal h]
  rfl

theorem epsgCode_eq_none {t : Text} {c : Char} (ht : trim t = t) (hc : c ∈ t)
    (hdigit : c.isDigit = false) : epsgCode t = none := by
  have hall : t.all Char.isDigit = false := by
    rw [Bool.eq_false_iff, ne_eq, List.all_eq_true]
    intro hall
    rw [hall c hc] at hdigit
    cases hdigit
  rw [epsgCode, ht, parseDigits, hall]
  simp

/-- The aliases of EPSG are no `EPSG:` names themselves. -/
def NoEpsgAlias (epsgAlias : Text → Option UInt32) : Prop :=
  ∀ name, (stripPrefixCi name "EPSG:".toList).isSome = true → epsgAlias name = none

theorem named_eq_none (halias : NoEpsgAlias epsgAlias) {name : Text} (htrim : trim name = name)
    (h : (stripPrefixCi name "EPSG:".toList).isSome = true) : named epsgAlias name = none := by
  have hnames : ∀ entry ∈ names, (stripPrefixCi entry.1 "EPSG:".toList).isSome = false := by
    decide +kernel
  have hfind : names.find? (fun known => eqIgnoreAsciiCase known.1 name) = none := by
    rw [List.find?_eq_none]
    intro entry hentry heq
    have hsame := stripPrefixCi_isSome_congr heq "EPSG:".toList
    rw [hnames entry hentry, h] at hsame
    cases hsame
  simp only [named, htrim, hfind, halias name h, Option.map_none]

/-- How a part after the first is read. -/
def readCode (epsgAlias : Text → Option UInt32) (piece : Text) : Option CrsRef :=
  ((epsgCode piece).map CrsRef.epsg).or (part epsgAlias piece)

theorem epsgCodes_join {first : Text} {n : Nat} (hfirst : first = decimal n) (hn : n < 2 ^ 64)
    {pieces : List Text} {parts : List CrsRef}
    (hpieces : ∀ piece ∈ pieces, '+' ∉ piece ∧ trim piece = piece)
    (hread : List.Forall₂ (fun piece p => readCode epsgAlias piece = some p) pieces parts) :
    epsgCodes (part epsgAlias) (['+'].intercalate (first :: pieces)) =
      compound (.epsg first :: parts) := by
  have hplus : ∀ piece ∈ first :: pieces, '+' ∉ piece := by
    intro piece hpiece
    rcases List.mem_cons.1 hpiece with rfl | hpiece
    · intro hmem
      rw [hfirst] at hmem
      have hdigit := isDigit_of_mem_decimal hmem
      exact absurd hdigit (by decide)
    · exact (hpieces piece hpiece).1
  have htrim : (first :: pieces).map trim = first :: pieces := by
    have hfirstTrim : trim first = first := by
      rw [hfirst]
      exact trim_of_trimmed (trimmed_of_digits fun c hc => isDigit_of_mem_decimal hc)
    have hrest : pieces.map trim = pieces := by
      conv_rhs => rw [← List.map_id pieces]
      exact List.map_congr_left fun piece hpiece => (hpieces piece hpiece).2
    rw [List.map_cons, hfirstTrim, hrest]
  have hcollect : collect (pieces.map fun code =>
      ((epsgCode code).map CrsRef.epsg).or (part epsgAlias code)) = some parts := by
    show collect (pieces.map (readCode epsgAlias)) = some parts
    clear hpieces hplus htrim
    induction hread with
    | nil => rfl
    | cons hhead htail ih => rw [List.map_cons, hhead, collect, ih]; rfl
  have hcode : epsgCode first = some first := hfirst ▸ epsgCode_decimal hn
  simp only [epsgCodes, splitOn_join (List.cons_ne_nil _ _) hplus, htrim, hcode, Option.bind_some,
    hcollect]


/-- The codes after `EPSG:`, the first a number. -/
theorem parseForm_epsgCodes (halias : NoEpsgAlias epsgAlias) {codes : Text}
    (hcodes : Trimmed ("EPSG:".toList ++ codes)) (hhead : ∀ c ∈ codes.head?, c ≠ ':') :
    parseForm epsgAlias ("EPSG:".toList ++ codes) =
      (epsgCodes (part epsgAlias) codes).map fun crs => (.short, some crs) := by
  have hprefix : (stripPrefixCi ("EPSG:".toList ++ codes) "EPSG:".toList).isSome = true := by
    rw [stripPrefixCi_append]
    rfl
  have hname := named_eq_none halias (trim_of_trimmed hcodes) hprefix
  have hcolon : ':' ∉ "EPSG".toList := by decide
  have hsplit : Lib.Text.splitOnce ':' ("EPSG:".toList ++ codes) = some ("EPSG".toList, codes) :=
    Lib.Text.splitOnce_append codes hcolon
  have hdrop : codes.dropWhile (· == ':') = codes :=
    dropWhile_of_head fun c hc => beq_false_of_ne (hhead c hc)
  have hform : parseForm epsgAlias ("EPSG:".toList ++ codes) =
      parseShort epsgAlias (part epsgAlias) ("EPSG:".toList ++ codes) :=
    parseForm_eq_short (by decide) (by decide)
  have hdigits : ("EPSG:".toList ++ codes).all Char.isDigit = false := rfl
  have hepsg : eqIgnoreAsciiCase "EPSG".toList "EPSG".toList = true := by decide
  rw [hform, parseShort, hdigits, hname, hsplit]
  simp only [Bool.false_eq_true, if_false, Option.bind_eq_bind, Option.bind_some, hdrop, hepsg,
    if_true]
  cases epsgCodes (part epsgAlias) codes <;> rfl

/-! ## The parts that survive -/

/-- A code of another authority is read back as a part: no separator stands in it,
and its text alone names no other CRS. -/
structure ReadAsPart (epsgAlias : Text → Option UInt32) (authority c : Text) : Prop where
  colon : ':' ∉ authority ∧ ':' ∉ c
  plus : '+' ∉ authority ∧ '+' ∉ c
  names : ∀ crs, (SrsName.parse epsgAlias (authority ++ ':' :: c)).crs = some crs →
    crs = .code authority c

/-- The parts of a compound CRS that are read back after an authority. -/
def PartsSurvive (epsgAlias : Text → Option UInt32) : Option Text → List CrsRef → Prop
  | _, [] => True
  | previous, .code authority c :: rest =>
    (authority = "EPSG".toList ∨ previous ≠ some authority ∧ ReadAsPart epsgAlias authority c) ∧
      PartsSurvive epsgAlias (some authority) rest
  | _, .compound _ :: _ => False
  | previous, .unresolved name :: rest => '+' ∉ name ∧ PartsSurvive epsgAlias previous rest

/-- The CRSs whose `authority:code` is an srsName for them. -/
def CrsRef.Survives (epsgAlias : Text → Option UInt32) : CrsRef → Prop
  | .code authority c =>
    authority = "EPSG".toList ∨ authority = "OGC".toList ∧ c = "CRS84".toList
  | .compound (.code authority _ :: rest) =>
    authority = "EPSG".toList ∧ PartsSurvive epsgAlias (some authority) rest
  | _ => False

theorem trimmed_decimal (n : Nat) : Trimmed (decimal n) :=
  trimmed_of_digits fun _ hc => isDigit_of_mem_decimal hc

theorem trimmed_of_trim {s : Text} (h : trim s = s) : Trimmed s := h ▸ trimmed_trim s

theorem eq_decimal_of_sound {c : Text} (h : CrsRef.Sound epsgAlias (.code "EPSG".toList c)) :
    ∃ n, n < 2 ^ 64 ∧ c = decimal n := by
  cases h with
  | epsg n hn => exact ⟨n, hn, rfl⟩
  | code _ _ hauthority => exact absurd rfl hauthority.2

theorem toLower_of_isDigit {c : Char} (h : c.isDigit = true) : c.toLower = c := by
  unfold Char.toLower
  rw [dif_neg]
  simp only [Char.isDigit, Bool.and_eq_true, decide_eq_true_eq] at h
  intro hupper
  have hle : c.val.toNat ≤ 57 := UInt32.le_iff_toNat_le.1 h.2
  have hge : 65 ≤ c.val.toNat := UInt32.le_iff_toNat_le.1 hupper.1
  omega

theorem readCode_decimal {n : Nat} (h : n < 2 ^ 64) :
    readCode epsgAlias (decimal n) = some (.epsg (decimal n)) := by
  rw [readCode, epsgCode_decimal h]
  rfl

theorem part_of_form {text : Text} (htrim : trim text = text) (hne : text ≠ [])
    {form : SrsNameForm} {crs : CrsRef} (h : parseForm epsgAlias text = some (form, some crs)) :
    part epsgAlias text = some crs := by
  simp [part, partWith, htrim, hne, h]

theorem parseForm_epsg (halias : NoEpsgAlias epsgAlias) {n : Nat} (hn : n < 2 ^ 64)
    {pieces : List Text} {parts : List CrsRef}
    (hpieces : ∀ piece ∈ pieces, '+' ∉ piece ∧ trim piece = piece ∧ piece ≠ [])
    (hread : List.Forall₂ (fun piece p => readCode epsgAlias piece = some p) pieces parts) :
    parseForm epsgAlias ("EPSG:".toList ++ ['+'].intercalate (decimal n :: pieces)) =
      some (.short, compound (.epsg (decimal n) :: parts)) ∧
    Trimmed ("EPSG:".toList ++ ['+'].intercalate (decimal n :: pieces)) := by
  have hall : ∀ piece ∈ decimal n :: pieces, Trimmed piece ∧ piece ≠ [] := by
    intro piece hpiece
    rcases List.mem_cons.1 hpiece with rfl | hpiece
    · exact ⟨trimmed_decimal n, decimal_ne_nil n⟩
    · obtain ⟨-, htrim, hne⟩ := hpieces piece hpiece
      exact ⟨trimmed_of_trim htrim, hne⟩
  obtain ⟨hcodes, hne⟩ := @trimmed_intercalate '+' _ (List.cons_ne_nil _ _) hall
  have hepsg : Trimmed "EPSG:".toList := trimmed_of_trim (by decide)
  have htrim : Trimmed ("EPSG:".toList ++ ['+'].intercalate (decimal n :: pieces)) :=
    trimmed_append [] hepsg hcodes (by decide) hne
  refine ⟨?_, htrim⟩
  have hhead : ∀ c ∈ (['+'].intercalate (decimal n :: pieces)).head?, c ≠ ':' := by
    intro c hc
    rw [intercalate_cons, List.head?_append_of_ne_nil _ (decimal_ne_nil n)] at hc
    have hdigit := isDigit_of_mem_decimal (List.mem_of_mem_head? hc)
    rintro rfl
    exact absurd hdigit (by decide)
  have hjoin := epsgCodes_join rfl hn (fun piece hpiece =>
    ⟨(hpieces piece hpiece).1, (hpieces piece hpiece).2.1⟩) hread
  rw [parseForm_epsgCodes halias htrim hhead, hjoin]
  cases parts <;> rfl

theorem readCode_epsg (halias : NoEpsgAlias epsgAlias) {n : Nat} (hn : n < 2 ^ 64) :
    readCode epsgAlias ("EPSG:".toList ++ decimal n) = some (.epsg (decimal n)) := by
  obtain ⟨hform, htrim⟩ := parseForm_epsg halias hn (fun _ h => absurd h List.not_mem_nil) .nil
  rw [List.intercalate_singleton] at hform htrim
  have hpart := part_of_form (trim_of_trimmed htrim) (by simp) hform
  have hcode : epsgCode ("EPSG:".toList ++ decimal n) = none :=
    @epsgCode_eq_none _ 'E' (trim_of_trimmed htrim) (List.mem_cons_self ..) (by decide)
  rw [readCode, hcode, hpart]
  rfl

theorem trimmed_authority {authority : Text} (h : toAsciiUppercase (trim authority) = authority) :
    Trimmed authority := h ▸ trimmed_toAsciiUppercase (trimmed_trim authority)

theorem readCode_foreign {authority c : Text}
    (hsound : CrsRef.Sound epsgAlias (.code authority c)) (hepsg : authority ≠ "EPSG".toList)
    (hread : ReadAsPart epsgAlias authority c) :
    trim (authority ++ ':' :: c) = authority ++ ':' :: c ∧
      readCode epsgAlias (authority ++ ':' :: c) = some (.code authority c) := by
  cases hsound with
  | epsg => exact absurd rfl hepsg
  | code _ _ hauthority hupper hne hc =>
    have htrim : trim (authority ++ ':' :: c) = authority ++ ':' :: c :=
      trim_of_trimmed (trimmed_append [':'] (trimmed_authority hupper) (trimmed_of_trim hc)
        hauthority.1 hne)
    refine ⟨htrim, ?_⟩
    have hmem : ':' ∈ authority ++ ':' :: c := by simp
    have hcode : epsgCode (authority ++ ':' :: c) = none := epsgCode_eq_none htrim hmem (by decide)
    have hurn : ogcUrnCode (authority ++ ':' :: c) = some (.code authority c) := by
      simp only [ogcUrnCode, Lib.Text.splitOnce_append c hread.colon.1, Option.bind_some,
        lastPiece_of_not_mem hread.colon.2, codeRef, hupper, hc]
      rw [if_neg (by simp [hauthority, hne]), if_neg hauthority.2]
    have hnames := hread.names
    rw [readCode, hcode, Option.map_none, Option.none_or]
    simp only [part, partWith, htrim, SrsName.parse] at hnames ⊢
    rw [if_neg (by simp), hurn]
    cases hform : parseForm epsgAlias (authority ++ ':' :: c) with
    | none => rfl
    | some found =>
      obtain ⟨form, crs⟩ := found
      rw [hform] at hnames
      cases crs with
      | none => rfl
      | some crs =>
        rw [hnames crs rfl]
        rfl

theorem readCode_unresolved {name : Text} (hsound : CrsRef.Sound epsgAlias (.unresolved name)) :
    (trim name = name ∧ name ≠ []) ∧ readCode epsgAlias name = some (.unresolved name) := by
  cases hsound with
  | unresolved _ hne htrim hform hurn =>
    refine ⟨⟨htrim, hne⟩, ?_⟩
    have hpart : part epsgAlias name = some (.unresolved name) := by
      simp [part, partWith, htrim, hne, hform, hurn]
    -- A code would have been read as a short form.
    have hcode : epsgCode name = none := by
      rw [Option.eq_none_iff_forall_ne_some]
      intro x hx
      obtain ⟨n, hn, -, -⟩ := epsgCode_eq_some hx
      have hdigits : name.all Char.isDigit = true := by
        by_contra hnot
        rw [htrim, parseDigits, if_pos (by simp [hnot])] at hn
        cases hn
      obtain ⟨c, rest, rfl⟩ := List.exists_cons_of_ne_nil hne
      have hc : c.isDigit = true := List.all_eq_true.1 hdigits c (List.mem_cons_self ..)
      have hlower : ∀ d, d.isDigit = false → c.toLower ≠ d := by
        rintro d hd rfl
        rw [toLower_of_isDigit hc, hc] at hd
        cases hd
      have hshort := @parseForm_eq_short epsgAlias c rest (hlower 'u' (by decide))
        (hlower 'h' (by decide))
      rw [hshort, parseShort, if_pos hdigits, hx] at hform
      cases hform
    rw [readCode, hcode, hpart]
    rfl

/-- The written parts are read one by one. -/
theorem writtenPieces_read (halias : NoEpsgAlias epsgAlias) {previous : Option Text}
    {parts : List CrsRef} (hsound : ∀ p ∈ parts, CrsRef.Sound epsgAlias p)
    (h : PartsSurvive epsgAlias previous parts) :
    (∀ piece ∈ writtenPieces previous parts, '+' ∉ piece ∧ trim piece = piece ∧ piece ≠ []) ∧
    List.Forall₂ (fun piece p => readCode epsgAlias piece = some p)
      (writtenPieces previous parts) parts := by
  induction parts generalizing previous with
  | nil => exact ⟨nofun, .nil⟩
  | cons p rest ih =>
    have hp := hsound p (List.mem_cons_self ..)
    have hrest : ∀ q ∈ rest, CrsRef.Sound epsgAlias q :=
      fun q hq => hsound q (List.mem_cons_of_mem _ hq)
    have hplus : ∀ n, '+' ∉ decimal n := fun n hmem => by
      have hdigit := isDigit_of_mem_decimal hmem
      exact absurd hdigit (by decide)
    have hcons : ∀ {piece : Text} {previous : Option Text},
        ('+' ∉ piece ∧ trim piece = piece ∧ piece ≠ []) ∧ readCode epsgAlias piece = some p →
        PartsSurvive epsgAlias previous rest →
        (∀ t ∈ piece :: writtenPieces previous rest, '+' ∉ t ∧ trim t = t ∧ t ≠ []) ∧
        List.Forall₂ (fun piece p => readCode epsgAlias piece = some p)
          (piece :: writtenPieces previous rest) (p :: rest) := by
      intro piece previous hpiece hafter
      obtain ⟨hpieces, hread⟩ := ih hrest hafter
      exact ⟨List.forall_mem_cons.2 ⟨hpiece.1, hpieces⟩, .cons hpiece.2 hread⟩
    cases p with
    | code authority c =>
      obtain ⟨hcode, hafter⟩ := h
      refine hcons ?_ hafter
      by_cases hepsg : authority = "EPSG".toList
      · subst hepsg
        obtain ⟨n, hn, rfl⟩ := eq_decimal_of_sound hp
        by_cases hsame : previous = some "EPSG".toList
        · rw [if_pos hsame]
          exact ⟨⟨hplus n, trim_of_trimmed (trimmed_decimal n), decimal_ne_nil n⟩,
            readCode_decimal hn⟩
        · rw [if_neg hsame]
          obtain ⟨-, htrim⟩ := parseForm_epsg halias hn (fun _ h => absurd h List.not_mem_nil) .nil
          rw [List.intercalate_singleton] at htrim
          refine ⟨⟨?_, trim_of_trimmed htrim, by simp⟩, readCode_epsg halias hn⟩
          simp [hplus n]
      · obtain ⟨hprevious, hread⟩ := hcode.resolve_left hepsg
        obtain ⟨htrim, hpart⟩ := readCode_foreign hp hepsg hread
        rw [if_neg hprevious]
        refine ⟨⟨?_, htrim, by simp⟩, hpart⟩
        simp [hread.plus]
    | compound parts => cases h
    | unresolved name =>
      obtain ⟨hname, hafter⟩ := h
      obtain ⟨⟨htrim, hne⟩, hpart⟩ := readCode_unresolved hp
      exact hcons ⟨⟨hname, htrim, hne⟩, hpart⟩ hafter

theorem parseForm_crs84 : parseForm epsgAlias "OGC:CRS84".toList =
    some (.short, some (.code "OGC".toList "CRS84".toList)) := by
  have hnamed : named epsgAlias "OGC:CRS84".toList = some (.code "OGC".toList "CRS84".toList) := rfl
  have hform : parseForm epsgAlias "OGC:CRS84".toList =
      parseShort epsgAlias (part epsgAlias) "OGC:CRS84".toList :=
    parseForm_eq_short (by decide) (by decide)
  rw [hform, parseShort, if_neg (by decide), hnamed]

theorem parse_of_form {s : Text} (htrim : Trimmed s) {form : SrsNameForm} {crs : CrsRef}
    (h : parseForm epsgAlias s = some (form, some crs)) :
    (SrsName.parse epsgAlias s).crs = some crs := by
  rw [SrsName.parse, trim_of_trimmed htrim, h]

/-- A CRS that was read survives being written as an EPSG code, as `OGC:CRS84`, or as
a compound of an EPSG code and parts that survive. -/
theorem parse_authorityCode (halias : NoEpsgAlias epsgAlias) {s : Text} {crs : CrsRef}
    (h : (SrsName.parse epsgAlias s).crs = some crs) (hsurvives : crs.Survives epsgAlias) :
    (SrsName.parse epsgAlias crs.authorityCode).crs = some crs := by
  have hsound : CrsRef.Sound epsgAlias crs := by
    rw [SrsName.parse] at h
    split at h
    · rename_i form found hform
      cases h
      exact parseForm_sound hform
    · cases h
  unfold CrsRef.Survives at hsurvives
  split at hsurvives
  · rename_i authority c
    rcases hsurvives with rfl | ⟨rfl, rfl⟩
    · obtain ⟨n, hn, rfl⟩ := eq_decimal_of_sound hsound
      obtain ⟨hform, htrim⟩ := parseForm_epsg halias hn (fun _ h => absurd h List.not_mem_nil) .nil
      rw [List.intercalate_singleton] at hform htrim
      exact parse_of_form htrim hform
    · exact parse_of_form (trimmed_of_trim (by decide)) parseForm_crs84
  · rename_i authority c rest
    obtain ⟨rfl, hrest⟩ := hsurvives
    cases hsound with
    | compound parts hlength hparts =>
      obtain ⟨n, hn, rfl⟩ := eq_decimal_of_sound (hparts _ (List.mem_cons_self ..))
      obtain ⟨hpieces, hread⟩ := writtenPieces_read halias
        (fun p hp => hparts p (List.mem_cons_of_mem _ hp)) hrest
      obtain ⟨hform, htrim⟩ := parseForm_epsg halias hn hpieces hread
      have hcompound : compound (.epsg (decimal n) :: rest) =
          some (.compound (.epsg (decimal n) :: rest)) := by
        cases rest with
        | nil => simp at hlength
        | cons second others => rfl
      rw [hcompound] at hform
      have hwritten := authorityCode_compound (decimal n) rest
      rw [← hwritten] at hform htrim
      exact parse_of_form htrim hform
  · cases hsurvives

end

/-- Poland's `PL-1992` is EPSG's. -/
def polishAlias (name : Text) : Option UInt32 :=
  if eqIgnoreAsciiCase name "PL-1992".toList then some 2180 else none

theorem noEpsgAlias_polishAlias : NoEpsgAlias polishAlias := by
  intro name hname
  have hother : (stripPrefixCi "PL-1992".toList "EPSG:".toList).isSome = false := by decide
  rw [polishAlias, if_neg]
  intro hsame
  rw [stripPrefixCi_isSome_congr hsame, hother] at hname
  cases hname

theorem parse_authorityCode_polish :
    let crs := CrsRef.compound [.epsg "2180".toList, .unresolved "PL-XYZ".toList]
    (SrsName.parse polishAlias crs.authorityCode).crs = some crs := by
  have hread : (SrsName.parse polishAlias "urn:ogc:def:crs,crs:PL-1992,crs:PL-XYZ".toList).crs =
      some (.compound [.epsg "2180".toList, .unresolved "PL-XYZ".toList]) := by rfl
  exact parse_authorityCode noEpsgAlias_polishAlias hread ⟨rfl, by decide, trivial⟩

/-- A code of another authority is no srsName once it is written. -/
theorem parse_lambert93 :
    (SrsName.parse polishAlias "urn:ogc:def:crs:IGNF::LAMB93".toList).crs =
      some (.code "IGNF".toList "LAMB93".toList) ∧
    (SrsName.parse polishAlias (CrsRef.code "IGNF".toList "LAMB93".toList).authorityCode).crs =
      none := by
  constructor <;> rfl

end Xeibe.Geom

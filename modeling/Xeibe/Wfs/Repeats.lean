import Mathlib.Data.List.Induction
import Mathlib.Data.List.Perm.Subperm
import Xeibe.Wfs.Complete

/-!
# Repeated ids

`Pager::after_page` counts the ids of a page that were seen before: on the page itself or on the
previous one.  `countRepeated` keeps the ids of a page for the next one, but an id that it counts
because the previous page had it is not kept.  An id on three pages in a row is therefore counted
once too little, and nothing else goes wrong.
-/

namespace Xeibe.Wfs

/-! ## Counting -/

/-- How many ids of a page are also in `before`, or earlier on the page. -/
def repeats (before ids : List String) : Nat :=
  ids.zipIdx.countP fun (id, i) => before.contains id || (ids.take i).contains id

/-- `n` ids of a page are repeats, and `distinct` are its other ones. -/
structure Tally (before ids distinct : List String) (n : Nat) : Prop where
  nodup : distinct.Nodup
  mem : ∀ id, id ∈ distinct ↔ id ∈ ids ∧ id ∉ before
  length : distinct.length + n = ids.length

theorem Tally.count_eq {before ids distinct distinct' : List String} {n n' : Nat}
    (h : Tally before ids distinct n) (h' : Tally before ids distinct' n') : n = n' := by
  have hperm : distinct.Perm distinct' := by
    rw [List.perm_ext_iff_of_nodup h.nodup h'.nodup]
    intro id
    rw [h.mem, h'.mem]
  have hlength := hperm.length_eq
  have hn := h.length
  have hn' := h'.length
  omega

theorem tally_countRepeated (previous ids : List String) :
    Tally previous ids (Pager.countRepeated previous ids).1 (Pager.countRepeated previous ids).2 := by
  induction ids with
  | nil => exact ⟨List.nodup_nil, by simp [Pager.countRepeated], rfl⟩
  | cons id rest ih =>
    obtain ⟨hnodup, hmem, hlength⟩ := ih
    unfold Pager.countRepeated
    by_cases hprevious : id ∈ previous
    · simp only [List.contains_eq_mem, hprevious, decide_true, if_true]
      refine ⟨hnodup, fun x => ?_, by rw [List.length_cons]; omega⟩
      rw [hmem]
      constructor
      · exact fun ⟨hx, hnot⟩ => ⟨List.mem_cons_of_mem _ hx, hnot⟩
      · rintro ⟨hx, hnot⟩
        rcases List.mem_cons.mp hx with rfl | hx
        · exact absurd hprevious hnot
        · exact ⟨hx, hnot⟩
    by_cases hids : id ∈ (Pager.countRepeated previous rest).1
    · simp only [List.contains_eq_mem, hprevious, hids, decide_true, decide_false, if_true,
        Bool.false_eq_true, if_false]
      refine ⟨hnodup, fun x => ?_, by rw [List.length_cons]; omega⟩
      rw [hmem]
      constructor
      · exact fun ⟨hx, hnot⟩ => ⟨List.mem_cons_of_mem _ hx, hnot⟩
      · rintro ⟨hx, hnot⟩
        rcases List.mem_cons.mp hx with rfl | hx
        · exact (hmem x).mp hids
        · exact ⟨hx, hnot⟩
    · simp only [List.contains_eq_mem, hprevious, hids, decide_false, Bool.false_eq_true, if_false]
      refine ⟨List.nodup_cons.mpr ⟨hids, hnodup⟩, fun x => ?_, by
        rw [List.length_cons, List.length_cons]; omega⟩
      rw [List.mem_cons, List.mem_cons, hmem]
      constructor
      · rintro (rfl | ⟨hx, hnot⟩)
        · exact ⟨Or.inl rfl, hprevious⟩
        · exact ⟨Or.inr hx, hnot⟩
      · rintro ⟨rfl | hx, hnot⟩
        · exact Or.inl rfl
        · exact Or.inr ⟨hx, hnot⟩

theorem repeats_concat (before ids : List String) (id : String) :
    repeats before (ids ++ [id]) =
      repeats before ids + if id ∈ before ∨ id ∈ ids then 1 else 0 := by
  have hfront : ids.zipIdx.countP (fun (x, i) => before.contains x ||
      ((ids ++ [id]).take i).contains x) = repeats before ids := by
    refine List.countP_congr fun ⟨x, i⟩ hx => ?_
    have hi : i ≤ ids.length := by
      have hlt := List.snd_lt_of_mem_zipIdx hx
      omega
    simp only [List.take_append_of_le_length hi]
  unfold repeats at *
  rw [List.zipIdx_append, List.countP_append, hfront]
  simp

theorem tally_repeats (before ids : List String) :
    ∃ distinct, Tally before ids distinct (repeats before ids) := by
  induction ids using List.reverseRecOn with
  | nil => exact ⟨[], List.nodup_nil, by simp, rfl⟩
  | append_singleton ids id ih =>
    obtain ⟨distinct, hnodup, hmem, hlength⟩ := ih
    rw [repeats_concat]
    by_cases h : id ∈ before ∨ id ∈ ids
    · rw [if_pos h]
      refine ⟨distinct, hnodup, fun x => ?_, by rw [List.length_append, List.length_singleton]; omega⟩
      rw [hmem, List.mem_append, List.mem_singleton]
      constructor
      · exact fun ⟨hx, hnot⟩ => ⟨Or.inl hx, hnot⟩
      · rintro ⟨hx | rfl, hnot⟩
        · exact ⟨hx, hnot⟩
        · exact ⟨h.resolve_left hnot, hnot⟩
    · rw [if_neg h]
      obtain ⟨hbefore, hids⟩ := not_or.mp h
      refine ⟨id :: distinct, List.nodup_cons.mpr ⟨fun hx => hids ((hmem id).mp hx).1, hnodup⟩,
        fun x => ?_, by rw [List.length_append, List.length_singleton, List.length_cons]; omega⟩
      rw [List.mem_cons, hmem, List.mem_append, List.mem_singleton]
      constructor
      · rintro (rfl | ⟨hx, hnot⟩)
        · exact ⟨Or.inr rfl, hbefore⟩
        · exact ⟨Or.inl hx, hnot⟩
      · rintro ⟨hx | rfl, hnot⟩
        · exact Or.inr ⟨hx, hnot⟩
        · exact Or.inl rfl

theorem countRepeated_eq (previous ids : List String) :
    (Pager.countRepeated previous ids).2 = repeats previous ids := by
  obtain ⟨distinct, h⟩ := tally_repeats previous ids
  exact (tally_countRepeated previous ids).count_eq h

theorem mem_countRepeated (previous ids : List String) (id : String) :
    id ∈ (Pager.countRepeated previous ids).1 ↔ id ∈ ids ∧ id ∉ previous :=
  (tally_countRepeated previous ids).mem id

/-- Fewer ids to compare with give fewer repeats, unless none of the others is on the page. -/
theorem repeats_eq_iff {kept before ids : List String} (h : ∀ id ∈ kept, id ∈ before) :
    repeats kept ids = repeats before ids ↔ ∀ id ∈ ids, id ∈ before → id ∈ kept := by
  obtain ⟨distinct, hd⟩ := tally_repeats kept ids
  obtain ⟨distinct', hd'⟩ := tally_repeats before ids
  have hsub : distinct' ⊆ distinct := fun id hid => by
    obtain ⟨hids, hnot⟩ := (hd'.mem id).mp hid
    exact (hd.mem id).mpr ⟨hids, fun hkept => hnot (h id hkept)⟩
  have hle := (List.subperm_of_subset hd'.nodup hsub)
  have hlength := hd.length
  have hlength' := hd'.length
  constructor
  · intro heq id hids hbefore
    by_contra hkept
    have hperm := hle.perm_of_length_le (by omega)
    have hmem : id ∈ distinct := (hd.mem id).mpr ⟨hids, hkept⟩
    exact ((hd'.mem id).mp (hperm.mem_iff.mpr hmem)).2 hbefore
  · intro hall
    have hsub' : distinct ⊆ distinct' := fun id hid => by
      obtain ⟨hids, hnot⟩ := (hd.mem id).mp hid
      exact (hd'.mem id).mpr ⟨hids, fun hbefore => hnot (hall id hids hbefore)⟩
    have hle' := (List.subperm_of_subset hd.nodup hsub').length_le
    have hle := hle.length_le
    omega

/-! ## Warnings -/

def repeatWarning (repeated page : Nat) : String :=
  s!"{repeated} features on page {page} repeat a gml:id of this or the previous page"

def IsRepeatWarning (warning : String) : Prop :=
  ∃ repeated page, warning = repeatWarning repeated page

/-- The progress report says that `n` ids of the page are repeats. -/
def Progress.Reports (report : Progress) (n page : Nat) : Prop :=
  ∃ others, (∀ warning ∈ others, ¬ IsRepeatWarning warning) ∧
    report.warnings = others ++ if n > 0 then [repeatWarning n page] else []

theorem repeatWarning_toList (page : Nat) : ∃ rest, ∀ n,
    (repeatWarning n page).toList = Nat.toDigits 10 n ++ rest := by
  refine ⟨(" features on page " ++ toString page ++
    " repeat a gml:id of this or the previous page").toList, fun n => ?_⟩
  have htext : repeatWarning n page = toString n ++ (" features on page " ++ toString page ++
      " repeat a gml:id of this or the previous page") := by
    simp only [repeatWarning, String.append_assoc]
    rfl
  rw [htext, String.toList_append]
  simp

theorem repeatWarning_inj {n m page : Nat} (h : repeatWarning n page = repeatWarning m page) :
    n = m := by
  obtain ⟨rest, hrest⟩ := repeatWarning_toList page
  have hlist := congrArg String.toList h
  rw [hrest, hrest] at hlist
  have hdigits := List.append_cancel_right hlist
  rw [← Nat.ofDigitChars_toDigits (b := 10) (n := n) (by decide) (by decide), hdigits]
  exact Nat.ofDigitChars_toDigits (by decide) (by decide)

theorem not_isRepeatWarning {warning : String} {c : Char} (hhead : warning.toList.head? = some c)
    (hdigit : c.isDigit = false) : ¬ IsRepeatWarning warning := by
  rintro ⟨n, page, rfl⟩
  obtain ⟨rest, hrest⟩ := repeatWarning_toList page
  rw [hrest, List.head?_append_of_ne_nil _ Nat.toDigits_ne_nil] at hhead
  have hmem := List.mem_of_mem_head? hhead
  rw [Nat.isDigit_of_mem_toDigits (by decide) (by decide) hmem] at hdigit
  cases hdigit

theorem head_append {a : String} {c : Char} (h : a.toList.head? = some c) (b : String) :
    (a ++ b).toList.head? = some c := by
  rw [String.toList_append, List.head?_append, h]
  rfl

theorem Progress.Reports.unique {report : Progress} {n m page : Nat} (h : report.Reports n page)
    (h' : report.Reports m page) : n = m := by
  obtain ⟨others, hothers, heq⟩ := h
  obtain ⟨others', hothers', heq'⟩ := h'
  rw [heq] at heq'
  by_cases hn : n > 0
  · by_cases hm : m > 0
    · rw [if_pos hn, if_pos hm] at heq'
      exact repeatWarning_inj (List.cons.inj (List.append_inj' heq' rfl).2).1
    · rw [if_pos hn, if_neg hm, List.append_nil] at heq'
      exact absurd ⟨n, page, rfl⟩ (hothers' _ (by rw [← heq']; simp))
  · by_cases hm : m > 0
    · rw [if_neg hn, if_pos hm, List.append_nil] at heq'
      exact absurd ⟨m, page, rfl⟩ (hothers _ (by rw [heq']; simp))
    · omega

/-- The pager has only got more warnings, none of repeated ids. -/
structure Pager.Notes (p q : Pager) : Prop where
  previousIds : q.previousIds = p.previousIds
  progress : q.progress = p.progress
  pages : q.pages = p.pages
  warnings : ∃ more, (∀ warning ∈ more, ¬ IsRepeatWarning warning) ∧
    q.warnings = p.warnings ++ more

namespace Pager

theorem Notes.refl (p : Pager) : p.Notes p :=
  ⟨rfl, rfl, rfl, [], fun _ h => absurd h List.not_mem_nil, (List.append_nil _).symm⟩

theorem Notes.trans {p q r : Pager} (h : p.Notes q) (h' : q.Notes r) : p.Notes r := by
  obtain ⟨more, hmore, hwarnings⟩ := h.warnings
  obtain ⟨more', hmore', hwarnings'⟩ := h'.warnings
  refine ⟨h'.previousIds.trans h.previousIds, h'.progress.trans h.progress,
    h'.pages.trans h.pages, more ++ more', fun warning hw => ?_, ?_⟩
  · rcases List.mem_append.mp hw with hw | hw
    · exact hmore warning hw
    · exact hmore' warning hw
  · rw [hwarnings', hwarnings, List.append_assoc]

theorem Notes.warn {p q : Pager} {warning : String} {c : Char}
    (hprevious : q.previousIds = p.previousIds) (hprogress : q.progress = p.progress)
    (hpages : q.pages = p.pages) (hwarnings : q.warnings = p.warnings ++ [warning])
    (hhead : warning.toList.head? = some c) (hdigit : c.isDigit = false) : p.Notes q := by
  refine ⟨hprevious, hprogress, hpages, [warning], fun w hw => ?_, hwarnings⟩
  rw [List.mem_singleton.mp hw]
  exact not_isRepeatWarning hhead hdigit

variable (p : Pager) (page : Nat) (info : ResponseInfo)

theorem notes_takeUpLinks : p.Notes (p.takeUpLinks page info) := by
  unfold takeUpLinks
  split
  · exact ⟨rfl, rfl, rfl, (Notes.refl p).warnings⟩
  · exact .refl p

theorem notes_checkMatched : p.Notes (p.checkMatched page info) := by
  unfold checkMatched
  split
  · exact ⟨rfl, rfl, rfl, (Notes.refl p).warnings⟩
  · split
    · split
      · exact .warn rfl rfl rfl rfl (c := 'n') (head_append (head_append (head_append
          (head_append rfl _) _) _) _) (by decide)
      · exact .refl p
    · exact .refl p

theorem notes_checkSingle : p.Notes (p.checkSingle info) := by
  unfold checkSingle
  split
  · split
    · exact .warn rfl rfl rfl rfl (c := 'a') (head_append (head_append (head_append
        (head_append (head_append rfl _) _) _) _) _) (by decide)
    · exact .refl p
  · exact .refl p

theorem notes_checkSafe : p.Notes p.checkSafe := by
  unfold checkSafe
  split
  · exact .warn rfl rfl rfl rfl (c := 't') (head_append rfl _) (by decide)
  · exact .refl p

theorem notes_halvePageSize : p.Notes p.halvePageSize.1 := by
  unfold halvePageSize
  split
  · exact ⟨rfl, rfl, rfl, (Notes.refl p).warnings⟩
  · exact ⟨rfl, rfl, rfl, (Notes.refl p).warnings⟩
  · exact .refl p

theorem notes_retry {p q : Pager} {page : Nat} (h : p.retry page = .ok q) : p.Notes q := by
  unfold retry at h
  simp only at h
  split at h
  · cases h
  · have hhalved := notes_halvePageSize { p with attempts := p.attempts + 1 }
    have hcounted : p.Notes { p with attempts := p.attempts + 1 } :=
      ⟨rfl, rfl, rfl, (Notes.refl p).warnings⟩
    refine (hcounted.trans hhalved).trans ?_
    cases h
    split
    · exact .warn rfl rfl rfl rfl (c := 'p') (head_append (head_append (head_append
        (head_append rfl _) _) _) _) (by decide)
    · exact .warn rfl rfl rfl rfl (c := 'p') (head_append (head_append rfl _) _) (by decide)

theorem notes_resumeAfter {p q : Pager} {report : ExceptionReport}
    (h : p.resumeAfter report = .ok q) : p.Notes q := by
  unfold resumeAfter at h
  split at h
  · split at h
    · cases h
      exact .warn rfl rfl rfl rfl (c := 't') (head_append rfl _) (by decide)
    · cases h
  · cases h

/-- No repeats are waiting to be reported. -/
def Quiet (p : Pager) : Prop := ∀ warning ∈ p.warnings, ¬ IsRepeatWarning warning

theorem Notes.quiet {p q : Pager} (h : p.Notes q) (hp : p.Quiet) : q.Quiet := by
  obtain ⟨more, hmore, hwarnings⟩ := h.warnings
  intro warning hw
  rw [hwarnings] at hw
  rcases List.mem_append.mp hw with hw | hw
  · exact hp warning hw
  · exact hmore warning hw

theorem checkRepeated_eq : p.checkRepeated page info =
    { p with
      previousIds := (countRepeated p.previousIds info.featureIds).1
      warnings := p.warnings ++ if (countRepeated p.previousIds info.featureIds).2 > 0 then
        [repeatWarning (countRepeated p.previousIds info.featureIds).2 page] else [] } := by
  unfold checkRepeated
  by_cases h : (countRepeated p.previousIds info.featureIds).2 > 0
  · simp only [if_pos h]
    rfl
  · simp only [if_neg h, List.append_nil]

/-- A complete page: its repeats are reported, and its ids kept. -/
theorem afterPage_reports {p : Pager} (hp : p.Quiet) : ∃ report,
    (p.afterPage page info).progress = p.progress ++ [report] ∧
      report.Reports (repeats p.previousIds info.featureIds) page ∧
      (p.afterPage page info).Quiet ∧ (p.afterPage page info).pages = page ∧
      (p.afterPage page info).previousIds =
        (countRepeated p.previousIds info.featureIds).1 := by
  have hlinks := notes_takeUpLinks p page info
  let counted : Pager := { p.takeUpLinks page info with
    fetched := (p.takeUpLinks page info).fetched + info.returned
    pages := page
    next := nextPage (p.takeUpLinks page info).strategy
      ((p.takeUpLinks page info).fetched + info.returned) info }
  have hchecked : counted.Notes (((counted.checkMatched page info).checkSingle info).checkSafe) :=
    ((notes_checkMatched counted page info).trans (notes_checkSingle _ info)).trans
      (notes_checkSafe _)
  have hafter : p.afterPage page info = ((((counted.checkMatched page info).checkSingle
      info).checkSafe).checkRepeated page info).report info := rfl
  have hprevious : ((counted.checkMatched page info).checkSingle info).checkSafe.previousIds =
      p.previousIds := hchecked.previousIds.trans hlinks.previousIds
  have hprogress : ((counted.checkMatched page info).checkSingle info).checkSafe.progress =
      p.progress := hchecked.progress.trans hlinks.progress
  have hquiet : ((counted.checkMatched page info).checkSingle info).checkSafe.Quiet :=
    hchecked.quiet fun warning hw => hlinks.quiet hp warning hw
  rw [hafter, checkRepeated_eq, hprevious, countRepeated_eq]
  refine ⟨_, congrArg (· ++ [_]) hprogress, ⟨_, hquiet, rfl⟩, fun w hw => ?_, hchecked.pages, rfl⟩
  exact absurd hw List.not_mem_nil

end Pager

/-! ## Runs -/

/-- The pager after some answers; an error ends the run. -/
def Pager.receiveAll {Feature : Type} (p : Pager) : List (Answer Feature) → Except Error Pager
  | [] => .ok p
  | answer :: answers =>
    match p.receive answer with
    | .ok (p, _) => p.receiveAll answers
    | .error error => .error error

/-- The complete page that an answer is. -/
def Answer.completePage {Feature : Type} : Answer Feature → Option ResponseInfo
  | .exception _ => none
  | .features info _ => if info.complete && !info.truncated then some info else none

/-- The ids of the complete pages. -/
def pageIds {Feature : Type} (answers : List (Answer Feature)) : List (List String) :=
  (answers.filterMap Answer.completePage).map ResponseInfo.featureIds

/-- The ids of the page before page `k`. -/
def idsBefore (pages : List (List String)) (k : Nat) : List String :=
  match k with
  | 0 => []
  | k + 1 => pages.getD k []

/-- Every report says how many ids of its page are on it before, or on the page before it. -/
def ReportsRight (pages : List (List String)) (progress : List Progress) : Prop :=
  progress.length = pages.length ∧ ∀ (k : Nat) (report : Progress) (ids : List String),
    progress[k]? = some report →
    pages[k]? = some ids → report.Reports (repeats (idsBefore pages k) ids) (k + 1)

/-- No id is on three pages in a row. -/
def NoThreeInARow (pages : List (List String)) : Prop :=
  ∀ k a b c, pages[k]? = some a → pages[k + 1]? = some b → pages[k + 2]? = some c →
    ∀ id ∈ a, id ∈ b → id ∉ c

/-- The ids of the last page, and of the one before it. -/
def lastIds (pages : List (List String)) : List String := idsBefore pages pages.length

def lastButOneIds (pages : List (List String)) : List String := idsBefore pages (pages.length - 1)

theorem idsBefore_concat (pages : List (List String)) (ids : List String) {k : Nat}
    (hk : k ≤ pages.length) : idsBefore (pages ++ [ids]) k = idsBefore pages k := by
  cases k with
  | zero => rfl
  | succ k =>
    simp only [idsBefore, List.getD_eq_getElem?_getD]
    rw [List.getElem?_append_left (by omega)]

theorem lastIds_concat (pages : List (List String)) (ids : List String) :
    lastIds (pages ++ [ids]) = ids := by
  simp [lastIds, idsBefore, List.getD_eq_getElem?_getD]

theorem lastButOneIds_concat (pages : List (List String)) (ids : List String) :
    lastButOneIds (pages ++ [ids]) = lastIds pages := by
  have hlength : (pages ++ [ids]).length - 1 = pages.length := by simp
  rw [lastButOneIds, hlength, idsBefore_concat pages ids (Nat.le_refl _), lastIds]

theorem noThreeInARow_concat (pages : List (List String)) (ids : List String) :
    NoThreeInARow (pages ++ [ids]) ↔ NoThreeInARow pages ∧
      ∀ id ∈ lastButOneIds pages, id ∈ lastIds pages → id ∉ ids := by
  constructor
  · intro h
    refine ⟨fun k a b c ha hb hc => ?_, fun id hid hlast => ?_⟩
    · obtain ⟨hk, -⟩ := List.getElem?_eq_some_iff.mp hc
      refine h k a b c ?_ ?_ ?_
      · rwa [List.getElem?_append_left (by omega)]
      · rwa [List.getElem?_append_left (by omega)]
      · rwa [List.getElem?_append_left hk]
    · match hlength : pages.length with
      | 0 => simp [lastIds, idsBefore, hlength] at hlast
      | 1 => simp [lastButOneIds, idsBefore, hlength] at hid
      | k + 2 =>
        have hk : k < pages.length := by omega
        have hk1 : k + 1 < pages.length := by omega
        simp only [lastButOneIds, hlength, Nat.add_one_sub_one, idsBefore,
          List.getD_eq_getElem?_getD, List.getElem?_eq_getElem hk, Option.getD_some] at hid
        simp only [lastIds, hlength, idsBefore, List.getD_eq_getElem?_getD,
          List.getElem?_eq_getElem hk1, Option.getD_some] at hlast
        refine h k pages[k] pages[k + 1] ids ?_ ?_ ?_ id hid hlast
        · rw [List.getElem?_append_left hk, List.getElem?_eq_getElem hk]
        · rw [List.getElem?_append_left hk1, List.getElem?_eq_getElem hk1]
        · have hat := List.getElem?_concat_length (l := pages) (a := ids)
          rwa [hlength] at hat
  · rintro ⟨hpages, hlast⟩ k a b c ha hb hc
    obtain ⟨hk, -⟩ := List.getElem?_eq_some_iff.mp hc
    rw [List.length_append, List.length_singleton] at hk
    rw [List.getElem?_append_left (by omega)] at ha hb
    by_cases hend : k + 2 < pages.length
    · rw [List.getElem?_append_left hend] at hc
      exact hpages k a b c ha hb hc
    · have hlength : pages.length = k + 2 := by omega
      rw [← hlength, List.getElem?_concat_length] at hc
      obtain rfl := Option.some.inj hc
      intro id hida hidb
      refine hlast id ?_ ?_
      · simp only [lastButOneIds, hlength, Nat.add_one_sub_one, idsBefore,
          List.getD_eq_getElem?_getD, ha]
        exact hida
      · simp only [lastIds, hlength, idsBefore, List.getD_eq_getElem?_getD, hb]
        exact hidb

theorem reportsRight_concat {pages : List (List String)} {progress : List Progress}
    {report : Progress} {ids : List String} (hlength : progress.length = pages.length) :
    ReportsRight (pages ++ [ids]) (progress ++ [report]) ↔ ReportsRight pages progress ∧
      report.Reports (repeats (lastIds pages) ids) (pages.length + 1) := by
  constructor
  · rintro ⟨-, h⟩
    refine ⟨⟨hlength, fun k report' ids' hreport hids => ?_⟩, ?_⟩
    · obtain ⟨hk, -⟩ := List.getElem?_eq_some_iff.mp hids
      have hright := h k report' ids' (by rwa [List.getElem?_append_left (by omega)])
        (by rwa [List.getElem?_append_left hk])
      rwa [idsBefore_concat pages ids (by omega)] at hright
    · have hright := h pages.length report ids
        (by rw [← hlength, List.getElem?_concat_length]) List.getElem?_concat_length
      rwa [idsBefore_concat pages ids (Nat.le_refl _)] at hright
  · rintro ⟨⟨-, hpages⟩, hlast⟩
    refine ⟨by simp [hlength], fun k report' ids' hreport hids => ?_⟩
    obtain ⟨hk, -⟩ := List.getElem?_eq_some_iff.mp hids
    rw [List.length_append, List.length_singleton] at hk
    by_cases hend : k < pages.length
    · rw [List.getElem?_append_left (by omega)] at hreport hids
      rw [idsBefore_concat pages ids (by omega)]
      exact hpages k report' ids' hreport hids
    · obtain rfl : k = pages.length := by omega
      rw [← hlength, List.getElem?_concat_length] at hreport
      rw [List.getElem?_concat_length] at hids
      obtain rfl := Option.some.inj hreport
      obtain rfl := Option.some.inj hids
      rw [idsBefore_concat pages _ (Nat.le_refl _)]
      exact hlast

/-- The pager after some pages.  Without an id on three pages in a row, it has kept the ids of the
last page that were not on the one before it. -/
structure Pager.Seen (pages : List (List String)) (p : Pager) : Prop where
  quiet : p.Quiet
  count : p.pages = pages.length
  reports : p.progress.length = pages.length
  kept : ∀ id ∈ p.previousIds, id ∈ lastIds pages
  missed : NoThreeInARow pages →
    ∀ id ∈ lastIds pages, id ∈ p.previousIds ↔ id ∉ lastButOneIds pages
  right : ReportsRight pages p.progress ↔ NoThreeInARow pages

namespace Pager.Seen

variable {pages : List (List String)} {p q : Pager}

theorem notes (h : p.Seen pages) (hn : p.Notes q) : q.Seen pages where
  quiet := hn.quiet h.quiet
  count := hn.pages.trans h.count
  reports := by rw [hn.progress, h.reports]
  kept := by rw [hn.previousIds]; exact h.kept
  missed := by rw [hn.previousIds]; exact h.missed
  right := by rw [hn.progress]; exact h.right

/-- One more page. -/
theorem afterPage (h : p.Seen pages) (info : ResponseInfo) :
    (p.afterPage (p.pages + 1) info).Seen (pages ++ [info.featureIds]) := by
  obtain ⟨report, hprogress, hreport, hquiet, hpages, hprevious⟩ :=
    afterPage_reports (p.pages + 1) info h.quiet
  have hmem : ∀ id, id ∈ (p.afterPage (p.pages + 1) info).previousIds ↔
      id ∈ info.featureIds ∧ id ∉ p.previousIds := fun id => by
    rw [hprevious, mem_countRepeated]
  refine ⟨hquiet, ?_, ?_, fun id hid => ?_, fun hthree id hid => ?_, ?_⟩
  · rw [hpages, h.count, List.length_append, List.length_singleton]
  · rw [hprogress, List.length_append, List.length_append, h.reports, List.length_singleton,
      List.length_singleton]
  · rw [lastIds_concat]
    exact ((hmem id).mp hid).1
  · rw [lastIds_concat] at hid
    obtain ⟨hthree, hlast⟩ := (noThreeInARow_concat pages _).mp hthree
    rw [hmem, lastButOneIds_concat, and_iff_right hid, not_iff_not]
    constructor
    · exact h.kept id
    · intro hin
      exact (h.missed hthree id hin).mpr fun hbefore => hlast id hbefore hin hid
  · rw [hprogress, reportsRight_concat h.reports, noThreeInARow_concat, h.right]
    refine and_congr_right fun hthree => ?_
    have hcount : report.Reports (repeats (lastIds pages) info.featureIds) (pages.length + 1) ↔
        repeats p.previousIds info.featureIds = repeats (lastIds pages) info.featureIds := by
      rw [h.count] at hreport
      exact ⟨hreport.unique, fun heq => heq ▸ hreport⟩
    rw [hcount, repeats_eq_iff h.kept]
    constructor
    · intro hall id hbefore hin hid
      exact (h.missed hthree id hin).mp (hall id hid hin) hbefore
    · intro hlast id hid hin
      exact (h.missed hthree id hin).mpr fun hbefore => hlast id hbefore hin hid

end Pager.Seen

/-- An answer is a complete page, or changes nothing of what was seen. -/
theorem receive_seen {Feature : Type} {pages : List (List String)} {p q : Pager}
    {answer : Answer Feature} {members : Option (List Feature)} (h : p.Seen pages)
    (hq : p.receive answer = .ok (q, members)) :
    q.Seen (pages ++ (answer.completePage.map ResponseInfo.featureIds).toList) := by
  cases answer with
  | exception report =>
    simp only [Pager.receive] at hq
    cases hresume : p.resumeAfter report with
    | error e => rw [hresume] at hq; cases hq
    | ok next =>
      rw [hresume] at hq
      cases hq
      simpa [Answer.completePage] using h.notes (Pager.notes_resumeAfter hresume)
  | features info members =>
    simp only [Pager.receive] at hq
    by_cases hpartial : (!info.complete || info.truncated) = true
    · have hnone : (Answer.features info members).completePage = none := by
        cases hc : info.complete <;> cases ht : info.truncated <;>
          simp_all [Answer.completePage]
      rw [if_pos hpartial] at hq
      cases hretry : p.retry (p.pages + 1) with
      | error e => rw [hretry] at hq; cases hq
      | ok next =>
        rw [hretry] at hq
        cases hq
        rw [hnone]
        simpa using h.notes (Pager.notes_retry hretry)
    · have hsome : (Answer.features info members).completePage = some info := by
        cases hc : info.complete <;> cases ht : info.truncated <;>
          simp_all [Answer.completePage]
      rw [if_neg hpartial] at hq
      cases hq
      have hstart : p.Notes { p with attempts := 0 } :=
        ⟨rfl, rfl, rfl, (Pager.Notes.refl p).warnings⟩
      rw [hsome]
      exact (h.notes hstart).afterPage info

theorem receiveAll_seen {Feature : Type} (answers : List (Answer Feature))
    {pages : List (List String)} {p q : Pager} (h : p.Seen pages)
    (hq : p.receiveAll answers = .ok q) : q.Seen (pages ++ pageIds answers) := by
  induction answers generalizing p pages with
  | nil =>
    cases hq
    simpa [pageIds] using h
  | cons answer answers ih =>
    unfold Pager.receiveAll at hq
    split at hq
    · rename_i next members hstep
      have hseen := ih (receive_seen h hstep) hq
      have hids : pageIds (answer :: answers) =
          (answer.completePage.map ResponseInfo.featureIds).toList ++ pageIds answers := by
        unfold pageIds
        rw [List.filterMap_cons]
        cases answer.completePage <;> rfl
      rwa [hids, ← List.append_assoc]
    · cases hq

theorem seen_pages {options : WfsOptions} {capabilities : Capabilities} {p : Pager}
    (h : Wfs.pages options capabilities = .ok p) : p.Seen [] := by
  have hfresh : p.warnings = [] ∧ p.pages = 0 ∧ p.progress = [] ∧ p.previousIds = [] := by
    unfold Wfs.pages at h
    split at h
    · cases h
    · simp only at h
      split at h
      · cases h
      · cases h
        exact ⟨rfl, rfl, rfl, rfl⟩
  obtain ⟨hwarnings, hpages, hprogress, hprevious⟩ := hfresh
  have hthree : NoThreeInARow [] := fun k a b c ha => by simp at ha
  refine ⟨fun w hw => ?_, hpages, by rw [hprogress]; rfl, fun id hid => ?_, fun _ id hid => ?_,
    iff_of_true ⟨by rw [hprogress]; rfl, fun k report ids _ hids => by simp at hids⟩ hthree⟩
  · rw [hwarnings] at hw
    exact absurd hw List.not_mem_nil
  · rw [hprevious] at hid
    exact absurd hid List.not_mem_nil
  · exact absurd hid List.not_mem_nil

/-- All repeats are reported as they are exactly if no id is on three pages in a row. -/
theorem repeats_reported_iff {Feature : Type} {options : WfsOptions} {capabilities : Capabilities}
    {p q : Pager} (answers : List (Answer Feature))
    (hp : pages options capabilities = .ok p) (hq : p.receiveAll answers = .ok q) :
    ReportsRight (pageIds answers) q.progress ↔ NoThreeInARow (pageIds answers) :=
  (receiveAll_seen answers (seen_pages hp) hq).right

/-- A page with one feature. -/
def idPage (id : String) (next : Option String) : Answer Unit :=
  .features {
    numberMatched := none
    numberReturned := some 1
    next := next
    truncated := false
    complete := true
    features := 1
    featureIds := [id] } [()]

/-- An id that comes back on the next page is reported. -/
theorem repeats_reported_twice : ∃ p q, pages (sampleOptions none) sampleCapabilities = .ok p ∧
    p.receiveAll [idPage "a" (some "next"), idPage "a" none] = .ok q ∧
    ReportsRight (pageIds [idPage "a" (some "next"), idPage "a" none]) q.progress := by
  refine ⟨_, _, rfl, rfl, (@repeats_reported_iff Unit (sampleOptions none) sampleCapabilities _ _ _
    rfl rfl).mpr fun k a b c _ _ hc => ?_⟩
  have hshort : (pageIds [idPage "a" (some "next"), idPage "a" none])[k + 2]? = none :=
    List.getElem?_eq_none (Nat.le_add_left 2 k)
  rw [hshort] at hc
  cases hc

/-- An id that comes a third time is not. -/
theorem repeats_missed : ∃ p q, pages (sampleOptions none) sampleCapabilities = .ok p ∧
    p.receiveAll [idPage "a" (some "next"), idPage "a" (some "last"), idPage "a" none] = .ok q ∧
    ¬ ReportsRight (pageIds [idPage "a" (some "next"), idPage "a" (some "last"), idPage "a" none])
      q.progress := by
  refine ⟨_, _, rfl, rfl, fun h => ?_⟩
  obtain ⟨others, -, hwarnings⟩ := h.2 2 _ ["a"] rfl rfl
  have hnil : [] = others ++ [repeatWarning 1 3] := hwarnings
  simp at hnil

end Xeibe.Wfs

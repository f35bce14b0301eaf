import Mathlib.Data.List.DropRight
import Mathlib.Data.List.Duplicate
import Mathlib.Data.List.NodupEquivFin
import Mathlib.Data.Nat.Digits.Defs
import Xeibe.Core.Names

/-!
# Names of columns

`column_names_of` of `rules.rs` and the steps it is given: a column is named by
the last of its steps, takes more of them while it shares its name, and is told
apart by a number when it has no more.
-/

namespace Xeibe.Schema

/-! ## The steps of a name -/

/-- One element step of a column's path. -/
structure ColumnStep where
  name : QName
  /-- A type wrapper: left out of the name. -/
  wrapper : Bool
  /-- A sibling has the same local name in another namespace. -/
  prefixed : Bool

/-- What the name of a column depends on. -/
structure ColumnPath where
  steps : List ColumnStep
  /-- A last `@name` step, and whether it keeps its prefix. -/
  attr : Option (QName × Bool)
  byReference : Bool
  featureId : Bool

/-- Namespace prefixes, by URI. -/
structure Prefixes where
  map : List (Bytes × Bytes)

def Prefixes.ofUri (prefixes : Prefixes) (uri : Bytes) : Bytes :=
  (prefixes.map.lookup uri).getD (utf8 "ns")

def Prefixes.prefixed (prefixes : Prefixes) (name : QName) : Bytes :=
  match name.ns with
  | some uri => prefixes.ofUri uri ++ utf8 ":" ++ name.localName
  | none => name.localName

/-- Wrappers and namespace prefixes are left out (unless a sibling differs only by
namespace), and so is `@href` of a property given only by reference. -/
def ColumnPath.nameSteps (col : ColumnPath) (prefixes : Prefixes) : List Bytes :=
  let display (name : QName) (prefixed : Bool) :=
    if prefixed then prefixes.prefixed name else name.localName
  let steps := (col.steps.filter (!·.wrapper)).map fun step => display step.name step.prefixed
  let steps := match col.attr with
    | some (name, prefixed) =>
      if col.featureId then steps ++ [utf8 "@id"]
      else if !col.byReference || steps.isEmpty then steps ++ [utf8 "@" ++ display name prefixed]
      else steps
    | none => steps
  -- a path of wrappers only is named by its path
  if steps.isEmpty then [utf8 "*"] else steps

/-! ## Growing names -/

/-- The last `taken` steps, joined by `.`. -/
def joined (steps : List Bytes) (taken : Nat) : Bytes :=
  List.intercalate [0x2e] (steps.drop (steps.length - taken))

/-- A column and how many of its steps its name has. -/
structure Growing where
  steps : List Bytes
  taken : Nat
  pos : 0 < taken
  le : taken ≤ steps.length

namespace Growing

def name (c : Growing) : Bytes := joined c.steps c.taken

/-- The last step; there has to be one, or the code overflows. -/
def start (steps : List Bytes) : Option Growing :=
  if h : steps ≠ [] then some ⟨steps, 1, Nat.one_pos, List.length_pos_of_ne_nil h⟩ else none

def left (c : Growing) : Nat := c.steps.length - c.taken

/-- One more step, if there is one. -/
def grow (c : Growing) : Growing :=
  if h : c.taken < c.steps.length then { c with taken := c.taken + 1, pos := by omega, le := h }
  else c

/-- A column whose name is in a group of more than one grows. -/
def next (names : List Bytes) (c : Growing) : Growing :=
  if 1 < names.count c.name then c.grow else c

@[simp] theorem grow_steps (c : Growing) : c.grow.steps = c.steps := by
  unfold grow
  split <;> rfl

@[simp] theorem next_steps (names : List Bytes) (c : Growing) :
    (c.next names).steps = c.steps := by
  unfold next
  split
  · exact c.grow_steps
  · rfl

theorem grow_taken (c : Growing) :
    c.grow.taken = if c.taken < c.steps.length then c.taken + 1 else c.taken := by
  unfold grow
  split <;> rfl

theorem next_taken (names : List Bytes) (c : Growing) :
    (c.next names).taken =
      if 1 < names.count c.name ∧ c.taken < c.steps.length then c.taken + 1 else c.taken := by
  unfold next
  by_cases h : 1 < names.count c.name
  · simp [h, grow_taken]
  · simp [h]

end Growing

/-- All columns with a step more where they share a name. -/
def grown (cols : List Growing) : List Growing :=
  cols.map (Growing.next (cols.map Growing.name))

def grew (cols : List Growing) : Bool :=
  cols.any fun c => 1 < (cols.map Growing.name).count c.name && c.taken < c.steps.length

theorem Growing.next_left_le (names : List Bytes) (c : Growing) : (c.next names).left ≤ c.left := by
  simp only [left, next_steps, next_taken]
  split <;> omega

theorem left_grown_le (names : List Bytes) (cols : List Growing) :
    ((cols.map (Growing.next names)).map Growing.left).sum ≤ (cols.map Growing.left).sum := by
  induction cols with
  | nil => exact Nat.le_refl _
  | cons c cols ih =>
    have := c.next_left_le names
    simp only [List.map_cons, List.sum_cons]
    omega

theorem left_grown_lt {names : List Bytes} {cols : List Growing}
    (h : ∃ c ∈ cols, 1 < names.count c.name ∧ c.taken < c.steps.length) :
    ((cols.map (Growing.next names)).map Growing.left).sum < (cols.map Growing.left).sum := by
  induction cols with
  | nil => simp at h
  | cons c cols ih =>
    simp only [List.map_cons, List.sum_cons]
    by_cases hc : 1 < names.count c.name ∧ c.taken < c.steps.length
    · have hlt : (c.next names).left < c.left := by
        simp only [Growing.left, Growing.next_steps, Growing.next_taken, hc, and_self, if_true]
        omega
      have := left_grown_le names cols
      omega
    · have hrest : ∃ c ∈ cols, 1 < names.count c.name ∧ c.taken < c.steps.length := by
        obtain ⟨d, hd, hshared⟩ := h
        rcases List.mem_cons.mp hd with rfl | hd
        · exact absurd hshared hc
        · exact ⟨d, hd, hshared⟩
      have := c.next_left_le names
      have := ih hrest
      omega

theorem exists_of_grew {cols : List Growing} (h : grew cols = true) :
    ∃ c ∈ cols, 1 < (cols.map Growing.name).count c.name ∧ c.taken < c.steps.length := by
  simpa [grew] using h

/-- The loop of `column_names_of`. -/
def settled (cols : List Growing) : List Growing :=
  if _h : grew cols then settled (grown cols) else cols
termination_by (cols.map Growing.left).sum
decreasing_by exact left_grown_lt (exists_of_grew _h)

/-! ## Numbers -/

def decimal (n : Nat) : Bytes := (Nat.digits 10 n).reverse.map fun d => UInt8.ofNat (48 + d)

/-- A name that has come `count` times. -/
def numbered (name : Bytes) (count : Nat) : Bytes :=
  if count = 1 then name else name ++ utf8 "#" ++ decimal count

def number (seen : List Bytes) : List Bytes → List Bytes
  | [] => []
  | name :: names => numbered name (seen.count name + 1) :: number (name :: seen) names

/-- The names of the columns, or nothing where a column has no steps and the code panics. -/
def columnNamesOf (steps : List (List Bytes)) : Option (List Bytes) :=
  (steps.mapM Growing.start).map fun cols => number [] ((settled cols).map Growing.name)

def columnNames (cols : List ColumnPath) (prefixes : Prefixes) : Option (List Bytes) :=
  columnNamesOf (cols.map (·.nameSteps prefixes))

/-! ## Every column has a step -/

theorem ColumnPath.nameSteps_ne_nil (col : ColumnPath) (prefixes : Prefixes) :
    col.nameSteps prefixes ≠ [] := by
  unfold nameSteps
  dsimp only
  generalize (match col.attr with
    | some (name, prefixed) => _
    | none => _ : List Bytes) = steps
  cases steps <;> simp

theorem mapM_start {steps : List (List Bytes)} (h : ∀ s ∈ steps, s ≠ []) :
    ∃ cols, steps.mapM Growing.start = some cols ∧ cols.map Growing.steps = steps ∧
      ∀ c ∈ cols, c.taken = 1 := by
  induction steps with
  | nil => exact ⟨[], rfl, rfl, by simp⟩
  | cons s steps ih =>
    obtain ⟨cols, hcols, hsteps, htaken⟩ := ih fun t ht => h t (List.mem_cons_of_mem s ht)
    have hs : s ≠ [] := h s (by simp)
    have hstart : Growing.start s = some ⟨s, 1, Nat.one_pos, List.length_pos_of_ne_nil hs⟩ := by
      simp [Growing.start, hs]
    refine ⟨⟨s, 1, Nat.one_pos, List.length_pos_of_ne_nil hs⟩ :: cols, ?_, ?_, ?_⟩
    · simp [List.mapM_cons, hstart, hcols]
    · simp [hsteps]
    · simpa using htaken

/-! ## What a round keeps -/

/-- Of a column that shares its name there is another one. -/
theorem shared_iff {names : List Bytes} {i : Nat} (hi : i < names.length) :
    1 < names.count names[i] ↔ ∃ j, ∃ hj : j < names.length, j ≠ i ∧ names[j] = names[i] := by
  have hdup : 2 ≤ names.count names[i] ↔ names.Duplicate names[i] := by
    rw [List.duplicate_iff_two_le_count]
    convert Iff.rfl
  rw [show 1 < names.count names[i] ↔ 2 ≤ names.count names[i] from Iff.rfl, hdup,
    List.duplicate_iff_exists_distinct_get]
  constructor
  · rintro ⟨a, b, hab, ha, hb⟩
    by_cases hai : a.val = i
    · exact ⟨b, b.isLt, by omega, hb.symm⟩
    · exact ⟨a, a.isLt, hai, ha.symm⟩
  · rintro ⟨j, hj, hne, he⟩
    rcases Nat.lt_or_gt_of_ne hne with hlt | hlt
    · exact ⟨⟨j, hj⟩, ⟨i, hi⟩, hlt, he.symm, rfl⟩
    · exact ⟨⟨i, hi⟩, ⟨j, hj⟩, hlt, rfl, he.symm⟩

/-- Another column of the list has the name of column `i`. -/
def Shares (cols : List Growing) (i : Nat) (hi : i < cols.length) : Prop :=
  ∃ j, ∃ hj : j < cols.length, j ≠ i ∧ cols[j].name = cols[i].name

theorem count_iff_shares {cols : List Growing} {i : Nat} (hi : i < cols.length) :
    1 < (cols.map Growing.name).count cols[i].name ↔ Shares cols i hi := by
  have hi' : i < (cols.map Growing.name).length := by simpa using hi
  simpa [Shares] using shared_iff hi'

section Round

variable {cols : List Growing}

@[simp] theorem grown_length : (grown cols).length = cols.length := by simp [grown]

theorem grown_steps {i : Nat} (hi : i < cols.length) (hg : i < (grown cols).length) :
    (grown cols)[i].steps = cols[i].steps := by
  simp [grown]

open Classical in
theorem grown_taken {i : Nat} (hi : i < cols.length) (hg : i < (grown cols).length) :
    (grown cols)[i].taken =
      if Shares cols i hi ∧ cols[i].taken < cols[i].steps.length then cols[i].taken + 1
      else cols[i].taken := by
  simp [grown, Growing.next_taken, ← count_iff_shares hi]

theorem le_grown_taken {i : Nat} (hi : i < cols.length) (hg : i < (grown cols).length) :
    cols[i].taken ≤ (grown cols)[i].taken := by
  rw [grown_taken hi hg]
  split <;> omega

/-- Every shorter name a column has left behind was another column's, too. -/
def LeftBehind (cols : List Growing) : Prop :=
  ∀ i (hi : i < cols.length) k, 0 < k → k < cols[i].taken →
    ∃ j, ∃ hj : j < cols.length, j ≠ i ∧ ∃ m, 0 < m ∧ m ≤ cols[j].taken ∧
      joined cols[j].steps m = joined cols[i].steps k

theorem LeftBehind.grown (h : LeftBehind cols) : LeftBehind (grown cols) := by
  intro i hg k hk hlt
  have hi : i < cols.length := by simpa using hg
  rw [grown_steps hi hg]
  have hold : ∃ j, ∃ hj : j < cols.length, j ≠ i ∧ ∃ m, 0 < m ∧ m ≤ cols[j].taken ∧
      joined cols[j].steps m = joined cols[i].steps k := by
    rw [grown_taken hi hg] at hlt
    split at hlt
    · rename_i hgrow
      by_cases hki : k = cols[i].taken
      · obtain ⟨j, hj, hne, hname⟩ := hgrow.1
        exact ⟨j, hj, hne, cols[j].taken, cols[j].pos, Nat.le_refl _, by rw [hki]; exact hname⟩
      · exact h i hi k hk (by omega)
    · exact h i hi k hk hlt
  obtain ⟨j, hj, hne, m, hm, hle, hname⟩ := hold
  have hgj : j < (Schema.grown cols).length := by simpa using hj
  refine ⟨j, hgj, hne, m, hm, Nat.le_trans hle (le_grown_taken hj hgj), ?_⟩
  rw [grown_steps hj hgj]
  exact hname

/-- Columns that end alike grow together: one is ahead of another only where the other
has no more steps or they already differ. -/
def Together (cols : List Growing) : Prop :=
  ∀ i j (hi : i < cols.length) (hj : j < cols.length), cols[i].taken < cols[j].taken →
    cols[i].taken = cols[i].steps.length ∨
      cols[i].steps.rtake cols[i].taken ≠ cols[j].steps.rtake cols[i].taken

theorem rtake_rtake_of_le {α : Type*} {l : List α} {k m : Nat} (hkm : k ≤ m) :
    (l.rtake m).rtake k = l.rtake k := by
  simp only [List.rtake, List.length_drop, List.drop_drop]
  congr 1
  omega

theorem name_eq_of_rtake {c d : Growing} (ht : c.taken = d.taken)
    (h : c.steps.rtake c.taken = d.steps.rtake c.taken) : c.name = d.name := by
  unfold Growing.name joined
  rw [← ht]
  exact congrArg _ h

theorem Together.grown (h : Together cols) : Together (grown cols) := by
  intro i j hgi hgj hlt
  have hi : i < cols.length := by simpa using hgi
  have hj : j < cols.length := by simpa using hgj
  rw [grown_steps hi hgi, grown_steps hj hgj]
  have hlei := le_grown_taken hi hgi
  by_cases hbehind : cols[i].taken < cols[j].taken
  · rcases h i j hi hj hbehind with hend | hdiff
    · left
      rw [grown_taken hi hgi, if_neg (by omega), hend]
    · right
      intro hsame
      refine hdiff ?_
      rw [← rtake_rtake_of_le hlei, hsame, rtake_rtake_of_le hlei]
  · -- both had as many steps, and only the other one grew
    have hlej : (Schema.grown cols)[j].taken ≤ cols[j].taken + 1 := by
      rw [grown_taken hj hgj]
      split <;> omega
    have heq : cols[i].taken = cols[j].taken := by omega
    have hstay : (Schema.grown cols)[i].taken = cols[i].taken := by omega
    rw [hstay]
    by_cases hsame : cols[i].steps.rtake cols[i].taken = cols[j].steps.rtake cols[i].taken
    · left
      have hne : j ≠ i := by
        rintro rfl
        omega
      have hshares : Shares cols i hi := ⟨j, hj, hne, (name_eq_of_rtake heq hsame).symm⟩
      have hle := cols[i].le
      rw [grown_taken hi hgi] at hstay
      by_contra hmore
      rw [if_pos ⟨hshares, by omega⟩] at hstay
      omega
    · exact .inr hsame

end Round

/-! ## Where the rounds end -/

structure Settled (cols : List Growing) : Prop where
  leftBehind : LeftBehind cols
  together : Together cols
  ended : grew cols = false

theorem settled_spec (cols : List Growing) (hl : LeftBehind cols) (ht : Together cols) :
    Settled (settled cols) ∧ (settled cols).map Growing.steps = cols.map Growing.steps := by
  fun_induction settled cols with
  | case1 cols h ih =>
    obtain ⟨hs, hsteps⟩ := ih hl.grown ht.grown
    refine ⟨hs, hsteps.trans ?_⟩
    simp [grown]
  | case2 cols h => exact ⟨⟨hl, ht, by simpa using h⟩, rfl⟩

namespace Settled

variable {cols : List Growing}

theorem complete (h : Settled cols) {i : Nat} {hi : i < cols.length} (hs : Shares cols i hi) :
    cols[i].taken = cols[i].steps.length := by
  have hc := (count_iff_shares hi).mpr hs
  have hall := h.ended
  simp only [grew, List.any_eq_false, Bool.and_eq_true, decide_eq_true_eq, not_and] at hall
  have := hall cols[i] (List.getElem_mem hi) hc
  have := cols[i].le
  omega

/-- What a column that has steps left is named by ends no other column. -/
theorem unambiguous (h : Settled cols) {i j : Nat} (hi : i < cols.length) (hj : j < cols.length)
    (hne : j ≠ i) (hmore : cols[i].taken < cols[i].steps.length) :
    ¬ cols[i].steps.rtake cols[i].taken <:+ cols[j].steps := by
  intro hsuf
  have hlen : (cols[i].steps.rtake cols[i].taken).length = cols[i].taken := by
    simp only [List.rtake, List.length_drop]
    omega
  have hle : cols[i].taken ≤ cols[j].steps.length := by
    have := hsuf.length_le
    omega
  have hsame : cols[i].steps.rtake cols[i].taken = cols[j].steps.rtake cols[i].taken := by
    obtain ⟨before, hb⟩ := hsuf
    generalize cols[i].steps.rtake cols[i].taken = last at hb hlen
    rw [← hb, List.rtake, List.length_append, hlen, Nat.add_sub_cancel, List.drop_left]
  rcases Nat.lt_trichotomy cols[i].taken cols[j].taken with hlt | heq | hgt
  · rcases h.together i j hi hj hlt with hend | hdiff
    · omega
    · exact hdiff hsame
  · have hs : Shares cols i hi := ⟨j, hj, hne, (name_eq_of_rtake heq hsame).symm⟩
    have := h.complete hs
    omega
  · rcases h.together j i hj hi hgt with hend | hdiff
    · omega
    · refine hdiff ?_
      rw [← rtake_rtake_of_le (Nat.le_of_lt hgt), ← hsame, rtake_rtake_of_le (Nat.le_of_lt hgt)]

end Settled

/-! ## Numbers tell the rest apart -/

theorem decimal_injective : Function.Injective decimal := by
  intro a b h
  have hmap : (Nat.digits 10 a).map (fun d => UInt8.ofNat (48 + d)) =
      (Nat.digits 10 b).map fun d => UInt8.ofNat (48 + d) := by
    rw [decimal, decimal, List.map_reverse, List.map_reverse] at h
    exact List.reverse_injective h
  have hback (n : Nat) : ((Nat.digits 10 n).map fun d => UInt8.ofNat (48 + d)).map
      (fun u => u.toNat - 48) = Nat.digits 10 n := by
    rw [List.map_map]
    refine (List.map_congr_left fun d hd => ?_).trans (List.map_id _)
    have hlt : d < 10 := Nat.digits_lt_base (by omega) hd
    simp only [Function.comp_apply, UInt8.toNat_ofNat', id_eq]
    omega
  apply Nat.digits.injective 10
  rw [← hback a, hmap, hback b]

theorem hash_notMem_decimal (n : Nat) : 0x23 ∉ decimal n := by
  intro h
  simp only [decimal, List.mem_map, List.mem_reverse] at h
  obtain ⟨d, hd, he⟩ := h
  have hlt : d < 10 := Nat.digits_lt_base (by omega) hd
  have := congrArg UInt8.toNat he
  simp only [UInt8.toNat_ofNat'] at this
  simp at this
  omega

theorem number_length (seen names : List Bytes) : (number seen names).length = names.length := by
  induction names generalizing seen with
  | nil => rfl
  | cons name names ih => simp [number, ih]

theorem number_getElem (seen names : List Bytes) {i : Nat} (hi : i < names.length)
    (hn : i < (number seen names).length) :
    (number seen names)[i] =
      numbered names[i] (seen.count names[i] + (names.take i).count names[i] + 1) := by
  induction names generalizing seen i with
  | nil => simp at hi
  | cons name names ih =>
    cases i with
    | zero => simp [number]
    | succ i =>
      simp only [number, List.getElem_cons_succ, List.take_succ_cons, List.count_cons]
      rw [ih (name :: seen) (by simpa using hi)]
      rw [List.count_cons]
      congr 1
      omega

theorem count_take_lt {names : List Bytes} {i j : Nat} (hij : i < j) (hj : j < names.length)
    (hi : i < names.length) (he : names[i] = names[j]) :
    (names.take i).count names[i] < (names.take j).count names[j] := by
  have hsub : (names.take i ++ [names[i]]).Sublist (names.take j) := by
    rw [← List.take_succ_eq_append_getElem hi]
    exact (List.take_prefix_take_left hij).sublist
  have := hsub.count_le names[j]
  rw [List.count_append, he, List.count_singleton_self] at this
  rw [he]
  omega

theorem hash_decimal_inj {a b : Bytes} {m n : Nat}
    (h : a ++ utf8 "#" ++ decimal m = b ++ utf8 "#" ++ decimal n) : a = b ∧ m = n := by
  have hr := congrArg List.reverse h
  simp only [List.reverse_append, show (utf8 "#").reverse = [0x23] from by decide,
    List.singleton_append] at hr
  have hm : (0x23 : UInt8) ∉ (decimal m).reverse := by
    simpa using hash_notMem_decimal m
  have hn : (0x23 : UInt8) ∉ (decimal n).reverse := by
    simpa using hash_notMem_decimal n
  have hs := congrArg (splitOnce 0x23) hr
  rw [splitOnce_append hm, splitOnce_append hn, Option.some.injEq, Prod.mk.injEq] at hs
  exact ⟨List.reverse_injective hs.2, decimal_injective (List.reverse_injective hs.1)⟩

theorem number_nodup {names : List Bytes}
    (h : ∀ a ∈ names, ∀ b ∈ names, ∀ n, 2 ≤ n → a ≠ b ++ utf8 "#" ++ decimal n) :
    (number [] names).Nodup := by
  have hlen : (number [] names).length = names.length := number_length [] names
  refine List.pairwise_iff_getElem.mpr fun i j hni hnj hij => ?_
  have hi : i < names.length := by omega
  have hj : j < names.length := by omega
  rw [number_getElem [] names hi, number_getElem [] names hj]
  simp only [List.count_nil, Nat.zero_add]
  have ha := List.getElem_mem hi
  have hb := List.getElem_mem hj
  by_cases he : names[i] = names[j]
  · have hlt := count_take_lt hij hj hi he
    have hnj : ¬ (names.take j).count names[j] + 1 = 1 := by omega
    rw [numbered, numbered, if_neg hnj]
    split
    · exact h _ ha _ hb _ (by omega)
    · intro hn
      have := (hash_decimal_inj hn).2
      omega
  · unfold numbered
    split <;> split
    · exact he
    · exact h _ ha _ hb _ (by omega)
    · exact (h _ hb _ ha _ (by omega)).symm
    · exact fun hn => he (hash_decimal_inj hn).1

/-! ## The names of all columns -/

/-- How the columns of a list are told apart by the steps each has taken. -/
structure ToldApart (cols : List Growing) : Prop where
  /-- A shorter name would be that of another column. -/
  shortest : LeftBehind cols
  /-- Two columns share a name only where neither has a step left. -/
  complete : ∀ i (hi : i < cols.length), Shares cols i hi →
    cols[i].taken = cols[i].steps.length
  /-- What names a column with steps left ends no other column. -/
  unambiguous : ∀ i j (hi : i < cols.length) (hj : j < cols.length), j ≠ i →
    cols[i].taken < cols[i].steps.length → ¬ cols[i].steps.rtake cols[i].taken <:+ cols[j].steps

/-- No step has the separator in it. -/
def DotFree (steps : List (List Bytes)) : Prop := ∀ s ∈ steps, ∀ step ∈ s, 0x2e ∉ step

/-- No column may be named like another one with a number. -/
def NoNumberedName (steps : List (List Bytes)) : Prop :=
  ∀ s ∈ steps, ∀ t ∈ steps, ∀ k m n, 0 < k → k ≤ s.length → 0 < m → m ≤ t.length → 2 ≤ n →
    joined s k ≠ joined t m ++ utf8 "#" ++ decimal n

theorem rtake_eq_of_joined {s t : List Bytes} (hs : ∀ step ∈ s, 0x2e ∉ step)
    (ht : ∀ step ∈ t, 0x2e ∉ step) {k m : Nat} (hk : 0 < k) (hks : k ≤ s.length) (hm : 0 < m)
    (hmt : m ≤ t.length) (h : joined t m = joined s k) : s.rtake k = t.rtake m := by
  have hne {l : List Bytes} {n : Nat} (hn : 0 < n) (hnl : n ≤ l.length) :
      l.drop (l.length - n) ≠ [] := by
    simp only [ne_eq, List.drop_eq_nil_iff]
    omega
  have hsplit := congrArg (List.splitOn 0x2e) h
  rw [joined, joined,
    List.splitOn_intercalate 0x2e (fun l hl => ht l (List.mem_of_mem_drop hl)) (hne hm hmt),
    List.splitOn_intercalate 0x2e (fun l hl => hs l (List.mem_of_mem_drop hl)) (hne hk hks)]
    at hsplit
  exact hsplit.symm

theorem ToldApart.shorter_end {cols : List Growing} (h : ToldApart cols)
    (hdot : DotFree (cols.map Growing.steps)) {i : Nat} (hi : i < cols.length) {k : Nat}
    (hk : 0 < k) (hlt : k < cols[i].taken) :
    ∃ j, ∃ hj : j < cols.length, j ≠ i ∧ cols[i].steps.rtake k <:+ cols[j].steps := by
  obtain ⟨j, hj, hne, m, hm, hle, hjoin⟩ := h.shortest i hi k hk hlt
  have hs := hdot _ (List.mem_map_of_mem (List.getElem_mem hi))
  have ht := hdot _ (List.mem_map_of_mem (List.getElem_mem hj))
  refine ⟨j, hj, hne, ?_⟩
  rw [rtake_eq_of_joined hs ht hk (by have := cols[i].le; omega) hm
    (Nat.le_trans hle cols[j].le) hjoin]
  exact List.drop_suffix _ _

theorem settled_start {cols : List Growing} (h : ∀ c ∈ cols, c.taken = 1) :
    LeftBehind cols ∧ Together cols := by
  constructor
  · intro i hi k hk hlt
    have := h _ (List.getElem_mem hi)
    omega
  · intro i j hi hj hlt
    have := h _ (List.getElem_mem hi)
    have := h _ (List.getElem_mem hj)
    omega

/-- What the names of columns are: a joined end of the column's steps that tells it
apart, or all of its steps and, from the second column of that name on, a number. -/
structure Named (steps : List (List Bytes)) (names : List Bytes) (cols : List Growing) :
    Prop where
  steps_eq : cols.map Growing.steps = steps
  toldApart : ToldApart cols
  length_eq : names.length = cols.length
  name_eq : ∀ i (hi : i < cols.length) (hn : i < names.length), names[i] =
    numbered cols[i].name (((cols.take i).map Growing.name).count cols[i].name + 1)
  shorter_end : DotFree steps → ∀ i (hi : i < cols.length) k, 0 < k → k < cols[i].taken →
    ∃ j, ∃ hj : j < cols.length, j ≠ i ∧ cols[i].steps.rtake k <:+ cols[j].steps
  nodup : NoNumberedName steps → names.Nodup

/-- Naming ends, with a name for every column. -/
theorem column_names_told_apart {steps : List (List Bytes)} (h : ∀ s ∈ steps, s ≠ []) :
    ∃ names cols, columnNamesOf steps = some names ∧ Named steps names cols := by
  obtain ⟨start, hstart, hsteps, htaken⟩ := mapM_start h
  obtain ⟨hl, ht⟩ := settled_start htaken
  obtain ⟨hset, hsame⟩ := settled_spec start hl ht
  have happart : ToldApart (settled start) :=
    ⟨hset.leftBehind, fun _ _ => hset.complete, fun _ _ hi hj => hset.unambiguous hi hj⟩
  have hall : (settled start).map Growing.steps = steps := hsame.trans hsteps
  refine ⟨number [] ((settled start).map Growing.name), settled start, ?_,
    ⟨hall, happart, ?_, ?_, ?_, ?_⟩⟩
  · simp [columnNamesOf, hstart]
  · rw [number_length, List.length_map]
  · intro i hi hn
    rw [number_getElem [] _ (by simpa using hi)]
    simp
  · intro hdot i hi k hk hlt
    exact happart.shorter_end (hall ▸ hdot) hi hk hlt
  · intro hno
    refine number_nodup ?_
    intro a ha b hb n hn
    obtain ⟨c, hc, rfl⟩ := List.mem_map.mp ha
    obtain ⟨d, hd, rfl⟩ := List.mem_map.mp hb
    have hcs : c.steps ∈ steps := hall ▸ List.mem_map_of_mem hc
    have hds : d.steps ∈ steps := hall ▸ List.mem_map_of_mem hd
    exact hno _ hcs _ hds _ _ n c.pos c.le d.pos d.le hn

theorem column_names_told_apart_uom :
    ∃ names cols, columnNamesOf [[utf8 "area", utf8 "@uom"], [utf8 "@uom"]] = some names ∧
      Named [[utf8 "area", utf8 "@uom"], [utf8 "@uom"]] names cols :=
  column_names_told_apart (by simp)

/-- A joined end of column `i` that no other column's steps have. -/
def Unambiguous (steps : List (List Bytes)) (i k : Nat) : Prop :=
  ∃ hi : i < steps.length, 0 < k ∧ k ≤ steps[i].length ∧
    ∀ j (hj : j < steps.length), j ≠ i → ∀ m, 0 < m → m ≤ steps[j].length →
      joined steps[j] m ≠ joined steps[i] k

/-- Names that differ, each the shortest such end or, where there is none, an end with a
number. -/
def NumberedWhereAmbiguous (steps : List (List Bytes)) (names : List Bytes) : Prop :=
  names.Nodup ∧ ∀ i (hi : i < steps.length) (hn : i < names.length),
    (∃ k, Unambiguous steps i k ∧ (∀ k' < k, ¬ Unambiguous steps i k') ∧
      names[i] = joined steps[i] k) ∨
    ((∀ k, ¬ Unambiguous steps i k) ∧ ∃ k n, names[i] = joined steps[i] k ++ utf8 "#" ++ decimal n)

/-- A column that is the end of another one keeps its name without a number; and a step
may look like a name with a number. -/
theorem ambiguous_unnumbered :
    (∃ names, columnNamesOf [[utf8 "b"], [utf8 "a", utf8 "b"]] = some names ∧
      ¬ NumberedWhereAmbiguous [[utf8 "b"], [utf8 "a", utf8 "b"]] names) ∧
      ∃ names, columnNamesOf [[utf8 "a"], [utf8 "a"], [utf8 "a#2"]] = some names ∧
        ¬ NumberedWhereAmbiguous [[utf8 "a"], [utf8 "a"], [utf8 "a#2"]] names := by
  refine ⟨⟨[utf8 "b", utf8 "a.b"], by decide +kernel, ?_⟩,
    [utf8 "a", utf8 "a#2", utf8 "a#2"], by decide +kernel, ?_⟩
  · rintro ⟨-, h⟩
    have hb : joined [utf8 "a", utf8 "b"] 1 = joined [utf8 "b"] 1 := by decide
    rcases h 0 (by decide) (by decide) with ⟨k, ⟨_, hk, hle, hother⟩, -⟩ | ⟨-, k, n, hname⟩
    · have hk1 : k = 1 := by simpa using Nat.le_antisymm hle hk
      subst hk1
      exact hother 1 (by decide) (by decide) 1 (by decide) (by decide) hb
    · have hmem : (0x23 : UInt8) ∈ utf8 "b" := by
        have : utf8 "b" = joined [utf8 "b"] k ++ utf8 "#" ++ decimal n := hname
        rw [this]
        simp [show utf8 "#" = [0x23] from by decide]
      exact absurd hmem (by decide)
  · rintro ⟨hnodup, -⟩
    exact absurd hnodup (by decide)

theorem columnNames_isSome (cols : List ColumnPath) (prefixes : Prefixes) :
    (columnNames cols prefixes).isSome := by
  have hne : ∀ s ∈ cols.map (·.nameSteps prefixes), s ≠ [] := by
    intro s hs
    obtain ⟨col, -, rfl⟩ := List.mem_map.mp hs
    exact col.nameSteps_ne_nil prefixes
  obtain ⟨start, hstart, -⟩ := mapM_start hne
  simp [columnNames, columnNamesOf, hstart]

end Xeibe.Schema

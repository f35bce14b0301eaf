import Mathlib.Data.List.Basic
import Mathlib.Data.List.Perm.Basic

/-!
# Forests

Labelled trees with any number of subtrees in a fixed order, and lists of them.  A
place in a forest is the path of indexes that leads to it: among the trees, then
among the subtrees of each.  A forest only grows at the end of such a list
(`pushAt`), so a path never leads to another label than before.
-/

namespace Xeibe.Lib

variable {α : Type}

inductive Rose (α : Type) where
  | node (label : α) (children : List (Rose α))

namespace Rose

def label : Rose α → α
  | node label _ => label

def children : Rose α → List (Rose α)
  | node _ children => children

@[simp] theorem label_node (x : α) (ts : List (Rose α)) : (node x ts).label = x := rfl

@[simp] theorem children_node (x : α) (ts : List (Rose α)) : (node x ts).children = ts := rfl

/-- A tree of one label. -/
def leaf (x : α) : Rose α := node x []

end Rose

namespace Forest

/-! ## Labels and places -/

mutual

/-- The labels of a tree, each before those below it. -/
def treeLabels : Rose α → List α
  | .node x ts => x :: labels ts

def labels : List (Rose α) → List α
  | [] => []
  | t :: ts => treeLabels t ++ labels ts

end

/-- The tree a path leads to. -/
def treeAt (ts : List (Rose α)) : List Nat → Option (Rose α)
  | [] => none
  | [i] => ts[i]?
  | i :: j :: path => ts[i]?.bind fun t => treeAt t.children (j :: path)

/-- Whether a path leads to a list of trees: the forest's, or the subtrees of one. -/
def IsPlace (ts : List (Rose α)) : List Nat → Prop
  | [] => True
  | i :: path => ∃ t, ts[i]? = some t ∧ IsPlace t.children path

/-- How many trees there are at a place. -/
def width (ts : List (Rose α)) : List Nat → Nat
  | [] => ts.length
  | i :: path => (ts[i]?.map fun t => width t.children path).getD 0

/-- One label more, below the place that the path leads to, after all others. -/
def pushAt (x : α) : List Nat → List (Rose α) → List (Rose α)
  | [], ts => ts ++ [.leaf x]
  | i :: path, ts => ts.modify i fun t => .node t.label (pushAt x path t.children)

/-- Every label is below one that it is related to. -/
def Nested (R : α → α → Prop) (ts : List (Rose α)) : Prop :=
  ∀ path t, treeAt ts path = some t → ∀ c ∈ t.children, R t.label c.label

@[simp] theorem labels_nil : labels ([] : List (Rose α)) = [] := rfl

@[simp] theorem labels_cons (t : Rose α) (ts : List (Rose α)) :
    labels (t :: ts) = t.label :: labels t.children ++ labels ts := by
  cases t
  rfl

@[simp] theorem labels_append (ts us : List (Rose α)) : labels (ts ++ us) = labels ts ++ labels us := by
  induction ts with
  | nil => rfl
  | cons t ts ih => simp [ih]

@[simp] theorem treeAt_nil (ts : List (Rose α)) : treeAt ts [] = none := rfl

@[simp] theorem treeAt_single (ts : List (Rose α)) (i : Nat) : treeAt ts [i] = ts[i]? := rfl

theorem treeAt_cons (ts : List (Rose α)) (i : Nat) {path : List Nat} (h : path ≠ []) :
    treeAt ts (i :: path) = ts[i]?.bind fun t => treeAt t.children path := by
  cases path with
  | nil => exact absurd rfl h
  | cons j path => rfl

theorem treeAt_cons_of_getElem? {ts : List (Rose α)} {i : Nat} {t : Rose α} (h : ts[i]? = some t)
    {path : List Nat} (hpath : path ≠ []) : treeAt ts (i :: path) = treeAt t.children path := by
  rw [treeAt_cons ts i hpath, h, Option.bind_some]

theorem treeAt_congr {ts us : List (Rose α)} {i : Nat} (h : ts[i]? = us[i]?) (path : List Nat) :
    treeAt ts (i :: path) = treeAt us (i :: path) := by
  cases path with
  | nil => exact h
  | cons j path =>
    have hne : j :: path ≠ [] := List.cons_ne_nil j path
    rw [treeAt_cons ts i hne, h, treeAt_cons us i hne]

theorem lt_of_treeAt {ts : List (Rose α)} {i : Nat} {path : List Nat} {t : Rose α}
    (h : treeAt ts (i :: path) = some t) : i < ts.length := by
  by_contra hge
  have hempty : ts[i]? = ([] : List (Rose α))[i]? := by simpa using hge
  rw [treeAt_congr hempty] at h
  cases path <;> simp [treeAt] at h

theorem place_of_treeAt {ts : List (Rose α)} {path : List Nat} {t : Rose α}
    (h : treeAt ts path = some t) : IsPlace ts path ∧ width ts path = t.children.length := by
  induction path generalizing ts with
  | nil => cases h
  | cons i path ih =>
    have hi := List.getElem?_eq_getElem (lt_of_treeAt h)
    cases path with
    | nil =>
      rw [treeAt_single, hi] at h
      rw [← Option.some.inj h]
      exact ⟨⟨_, hi, trivial⟩, by simp [width, hi]⟩
    | cons j path =>
      rw [treeAt_cons_of_getElem? hi (List.cons_ne_nil j path)] at h
      obtain ⟨hplace, hwidth⟩ := ih h
      exact ⟨⟨_, hi, hplace⟩, by rw [width, hi, Option.map_some, Option.getD_some, hwidth]⟩

/-! ## One label more -/

theorem getElem?_pushAt_self {x : α} (i : Nat) (place : List Nat) (ts : List (Rose α)) :
    (pushAt x (i :: place) ts)[i]? =
      ts[i]?.map fun t => .node t.label (pushAt x place t.children) := by
  rw [pushAt, List.getElem?_modify]
  simp

theorem getElem?_pushAt_ne {x : α} {i j : Nat} (h : i ≠ j) (place : List Nat)
    (ts : List (Rose α)) : (pushAt x (i :: place) ts)[j]? = ts[j]? := by
  rw [pushAt, List.getElem?_modify]
  simp [h]

theorem getElem?_pushAt_of_getElem? {x : α} {i : Nat} {ts : List (Rose α)} {t : Rose α}
    (h : ts[i]? = some t) (place : List Nat) :
    (pushAt x (i :: place) ts)[i]? = some (.node t.label (pushAt x place t.children)) := by
  rw [getElem?_pushAt_self, h, Option.map_some]

theorem map_label_pushAt (x : α) (i : Nat) (place : List Nat) (ts : List (Rose α)) :
    (pushAt x (i :: place) ts).map Rose.label = ts.map Rose.label := by
  rw [pushAt]
  induction ts generalizing i with
  | nil => simp
  | cons t ts ih =>
    cases i with
    | zero => rfl
    | succ i => simp [List.modify_succ_cons, ih]

theorem pushAt_perm {x : α} {place : List Nat} {ts : List (Rose α)} (h : IsPlace ts place) :
    (labels (pushAt x place ts)).Perm (x :: labels ts) := by
  induction place generalizing ts with
  | nil =>
    show (labels (ts ++ [.leaf x])).Perm (x :: labels ts)
    rw [labels_append]
    exact List.perm_append_singleton x (labels ts)
  | cons i place ih =>
    obtain ⟨t, ht, hplace⟩ := h
    have hinner := ih hplace
    rw [pushAt]
    induction ts generalizing i with
    | nil => simp at ht
    | cons s ts ihs =>
      cases i with
      | zero =>
        obtain rfl : s = t := by simpa using ht
        rw [List.modify_zero_cons, labels_cons, labels_cons, Rose.label_node, Rose.children_node]
        have hcons := hinner.cons s.label
        exact (hcons.trans (List.Perm.swap x s.label _)).append_right (labels ts)
      | succ i =>
        rw [List.modify_succ_cons, labels_cons, labels_cons]
        have hrest := ihs i (by simpa using ht)
        exact (hrest.append_left (s.label :: labels s.children)).trans List.perm_middle

/-- The trees of a forest with one label more are those it had, a label more below
one of them, and the new one. -/
theorem treeAt_pushAt {x : α} {path place : List Nat} {ts : List (Rose α)} {t' : Rose α}
    (h : treeAt (pushAt x place ts) path = some t') :
    (path = place ++ [width ts place] ∧ t' = .leaf x) ∨
      ∃ t, treeAt ts path = some t ∧ t'.label = t.label ∧
        t'.children.map Rose.label =
          t.children.map Rose.label ++ (if path = place then [x] else []) := by
  induction place generalizing ts path with
  | nil =>
    cases path with
    | nil => cases h
    | cons i path =>
      have hi : i < ts.length ∨ i = ts.length := by
        have hlt := lt_of_treeAt h
        rw [pushAt, List.length_append, List.length_singleton] at hlt
        omega
      rcases hi with hi | rfl
      · refine .inr ⟨t', ?_, rfl, by simp⟩
        rwa [pushAt, treeAt_congr (List.getElem?_append_left hi)] at h
      · cases path with
        | nil =>
          refine .inl ⟨rfl, ?_⟩
          simpa [pushAt] using h.symm
        | cons j path =>
          rw [pushAt, treeAt_cons_of_getElem? List.getElem?_concat_length
            (List.cons_ne_nil j path)] at h
          cases lt_of_treeAt h
  | cons i place ih =>
    cases path with
    | nil => cases h
    | cons j path =>
      by_cases hji : i = j
      · subst hji
        have hlt := lt_of_treeAt h
        rw [← List.length_map Rose.label, map_label_pushAt, List.length_map] at hlt
        have hi := List.getElem?_eq_getElem hlt
        have hget := getElem?_pushAt_of_getElem? (x := x) hi place
        cases path with
        | nil =>
          obtain rfl : Rose.node ts[i].label (pushAt x place ts[i].children) = t' := by
            rw [treeAt_single, hget] at h
            exact Option.some.inj h
          refine .inr ⟨ts[i], hi, rfl, ?_⟩
          cases place with
          | nil => simp [pushAt, Rose.leaf]
          | cons k place => simp [map_label_pushAt]
        | cons k path =>
          rw [treeAt_cons_of_getElem? hget (List.cons_ne_nil k path)] at h
          rw [treeAt_cons_of_getElem? hi (List.cons_ne_nil k path)]
          rcases ih h with ⟨hpath, hleaf⟩ | ⟨s, hs, hlabel, hchildren⟩
          · exact .inl ⟨by simp [width, hlt, hpath], hleaf⟩
          · exact .inr ⟨s, hs, hlabel, by simpa using hchildren⟩
      · refine .inr ⟨t', ?_, rfl, ?_⟩
        · rwa [treeAt_congr (getElem?_pushAt_ne hji place ts)] at h
        · rw [if_neg, List.append_nil]
          intro heq
          exact hji (List.cons.inj heq).1.symm

/-- A path keeps leading to a tree with the same label. -/
theorem exists_treeAt_pushAt {x : α} {path : List Nat} (place : List Nat) {ts : List (Rose α)}
    {t : Rose α} (h : treeAt ts path = some t) :
    ∃ t', treeAt (pushAt x place ts) path = some t' ∧ t'.label = t.label := by
  induction place generalizing ts path with
  | nil =>
    cases path with
    | nil => cases h
    | cons i path =>
      refine ⟨t, ?_, rfl⟩
      rw [pushAt, treeAt_congr (List.getElem?_append_left (lt_of_treeAt h)), h]
  | cons i place ih =>
    cases path with
    | nil => cases h
    | cons j path =>
      by_cases hji : i = j
      · subst hji
        have hi := List.getElem?_eq_getElem (lt_of_treeAt h)
        have hget := getElem?_pushAt_of_getElem? (x := x) hi place
        cases path with
        | nil =>
          rw [treeAt_single, hi] at h
          exact ⟨_, hget, by rw [Option.some.inj h, Rose.label_node]⟩
        | cons k path =>
          rw [treeAt_cons_of_getElem? hi (List.cons_ne_nil k path)] at h
          rw [treeAt_cons_of_getElem? hget (List.cons_ne_nil k path)]
          exact ih h
      · refine ⟨t, ?_, rfl⟩
        rw [treeAt_congr (getElem?_pushAt_ne hji place ts), h]

theorem treeAt_pushed {x : α} {place : List Nat} {ts : List (Rose α)} (h : IsPlace ts place) :
    treeAt (pushAt x place ts) (place ++ [width ts place]) = some (.leaf x) := by
  induction place generalizing ts with
  | nil => exact List.getElem?_concat_length
  | cons i place ih =>
    obtain ⟨t, ht, hplace⟩ := h
    have hne : place ++ [width t.children place] ≠ [] := by simp
    have hwidth : width ts (i :: place) = width t.children place := by simp [width, ht]
    rw [hwidth, List.cons_append, treeAt_cons_of_getElem? (getElem?_pushAt_of_getElem? ht place) hne]
    exact ih hplace

theorem head?_pushAt {x : α} {place : List Nat} {ts : List (Rose α)} (h : IsPlace ts place) :
    (pushAt x place ts).head?.map Rose.label = (ts.head?.map Rose.label).or (some x) := by
  cases place with
  | nil => cases ts <;> rfl
  | cons i place =>
    obtain ⟨t, ht, -⟩ := h
    cases ts with
    | nil => cases ht
    | cons s ts => cases i <;> rfl

theorem set_pushAt {x : α} {i : Nat} {ts : List (Rose α)} {t : Rose α} (h : ts[i]? = some t)
    (place : List Nat) :
    ts.set i (.node t.label (pushAt x place t.children)) = pushAt x (i :: place) ts := by
  refine List.ext_getElem? fun j => ?_
  by_cases hij : i = j
  · subst hij
    rw [getElem?_pushAt_of_getElem? h, List.getElem?_set_self (List.getElem?_eq_some_iff.1 h).1]
  · rw [getElem?_pushAt_ne hij, List.getElem?_set_ne hij]

/-- A label put below one that it is related to. -/
theorem Nested.pushAt {R : α → α → Prop} {x : α} {place : List Nat} {ts : List (Rose α)}
    (h : Nested R ts) (hx : ∀ t, treeAt ts place = some t → R t.label x) :
    Nested R (Forest.pushAt x place ts) := by
  intro path t' ht' c hc
  rcases treeAt_pushAt ht' with ⟨-, rfl⟩ | ⟨t, ht, hlabel, hchildren⟩
  · cases hc
  · have hmem : c.label ∈ t'.children.map Rose.label := List.mem_map_of_mem hc
    rw [hchildren, List.mem_append] at hmem
    rw [hlabel]
    rcases hmem with hmem | hmem
    · obtain ⟨d, hd, hdc⟩ := List.mem_map.1 hmem
      rw [← hdc]
      exact h path t ht d hd
    · split at hmem
      · rename_i hpath
        subst hpath
        rw [List.mem_singleton.1 hmem]
        exact hx t ht
      · cases hmem

/-! ## Below the first that fits -/

section Search

variable (fits : α → Bool) (x : α)

mutual

/-- A label put into the first subtree that fits, and there likewise, or else after
all subtrees; and where it went. -/
def insertTree : Rose α → Rose α × List Nat
  | .node y ts =>
    match insertFirst 0 ts with
    | some (us, path) => (.node y us, path)
    | none => (.node y (ts ++ [.leaf x]), [ts.length])

/-- A label put into the first tree that fits, if there is one; `i` counts them. -/
def insertFirst (i : Nat) : List (Rose α) → Option (List (Rose α) × List Nat)
  | [] => none
  | t :: ts =>
    if fits t.label then
      let (u, path) := insertTree t
      some (u :: ts, i :: path)
    else
      (insertFirst (i + 1) ts).map fun (us, path) => (t :: us, path)

end

mutual

/-- The tree itself, or what the first subtree that fits leads to. -/
def descend : Rose α → Rose α
  | .node y ts => (descendFirst ts).getD (.node y ts)

def descendFirst : List (Rose α) → Option (Rose α)
  | [] => none
  | t :: ts => if fits t.label then some (descend t) else descendFirst ts

end

end Search

/-! ### Where a label goes -/

variable (fits : α → Bool) (x : α)

mutual

theorem insertTree_spec (t : Rose α) : ∃ place, IsPlace t.children place ∧
    insertTree fits x t = (.node t.label (pushAt x place t.children),
      place ++ [width t.children place]) ∧
    ∀ u, treeAt t.children place = some u → fits u.label = true := by
  cases t with
  | node y ts =>
    rw [insertTree]
    cases hfirst : insertFirst fits x 0 ts with
    | none => exact ⟨[], trivial, rfl, fun u hu => by cases hu⟩
    | some found =>
      obtain ⟨place, hplace, hmade, hne, hfits⟩ := insertFirst_spec ts 0 found hfirst
      refine ⟨place, hplace, ?_, hfits⟩
      rw [hmade]
      obtain ⟨i, rest, rfl⟩ := List.exists_cons_of_ne_nil hne
      simp

theorem insertFirst_spec (ts : List (Rose α)) (i : Nat) (found : List (Rose α) × List Nat)
    (h : insertFirst fits x i ts = some found) : ∃ place, IsPlace ts place ∧
      found = (pushAt x place ts, (place ++ [width ts place]).modifyHead (i + ·)) ∧
      place ≠ [] ∧ ∀ u, treeAt ts place = some u → fits u.label = true := by
  cases ts with
  | nil => cases h
  | cons t ts =>
    rw [insertFirst] at h
    split at h
    · rename_i hfits
      obtain ⟨place, hplace, hmade, hbelow⟩ := insertTree_spec t
      rw [hmade] at h
      obtain rfl := Option.some.inj h
      refine ⟨0 :: place, ⟨t, rfl, hplace⟩, by simp [pushAt, width], List.cons_ne_nil _ _, ?_⟩
      intro u hu
      cases place with
      | nil =>
        obtain rfl : t = u := by simpa using hu
        exact hfits
      | cons j place => exact hbelow u hu
    · obtain ⟨inner, hinner, rfl⟩ := Option.map_eq_some_iff.1 h
      obtain ⟨place, hplace, rfl, hne, hbelow⟩ := insertFirst_spec ts (i + 1) inner hinner
      obtain ⟨j, rest, rfl⟩ := List.exists_cons_of_ne_nil hne
      refine ⟨(j + 1) :: rest, hplace, ?_, List.cons_ne_nil _ _, ?_⟩
      · simp [pushAt, width, List.modify_succ_cons]
        omega
      · intro u hu
        refine hbelow u ?_
        cases rest with
        | nil => simpa using hu
        | cons k rest => simpa [treeAt] using hu

end

/-! ### What a search leads to -/

mutual

/-- A search in a tree ends at the tree or below trees that fit, and nothing in what
it ends at fits. -/
theorem descend_spec (t : Rose α) :
    (∃ path, (path = [] ∧ descend fits t = t ∨
        treeAt t.children path = some (descend fits t)) ∧
      ∀ front u, front <+: path → treeAt t.children front = some u → fits u.label = true) ∧
      ∀ c ∈ (descend fits t).children, fits c.label = false := by
  cases t with
  | node y ts =>
    rw [descend]
    cases hfirst : descendFirst fits ts with
    | none =>
      refine ⟨⟨[], .inl ⟨rfl, rfl⟩, ?_⟩, descendFirst_eq_none ts hfirst⟩
      intro front u hfront hu
      rw [List.prefix_nil.1 hfront] at hu
      cases hu
    | some found =>
      obtain ⟨path, hpath, hfits, hnone⟩ := descendFirst_spec ts found hfirst
      exact ⟨⟨path, .inr hpath, hfits⟩, hnone⟩

theorem descendFirst_eq_none (ts : List (Rose α)) (h : descendFirst fits ts = none) :
    ∀ c ∈ ts, fits c.label = false := by
  cases ts with
  | nil => simp
  | cons t ts =>
    rw [descendFirst] at h
    split at h
    · cases h
    · rename_i hfits
      intro c hc
      rcases List.mem_cons.1 hc with rfl | hc
      · exact Bool.eq_false_iff.2 hfits
      · exact descendFirst_eq_none ts h c hc

theorem descendFirst_spec (ts : List (Rose α)) (found : Rose α)
    (h : descendFirst fits ts = some found) :
    ∃ path, treeAt ts path = some found ∧
      (∀ front u, front <+: path → treeAt ts front = some u → fits u.label = true) ∧
      ∀ c ∈ found.children, fits c.label = false := by
  cases ts with
  | nil => cases h
  | cons t ts =>
    rw [descendFirst] at h
    split at h
    · rename_i hfits
      obtain rfl := Option.some.inj h
      obtain ⟨⟨path, hpath, hbelow⟩, hnone⟩ := descend_spec t
      refine ⟨0 :: path, ?_, ?_, hnone⟩
      · rcases hpath with ⟨rfl, heq⟩ | hpath
        · simp [heq]
        · cases path with
          | nil => cases hpath
          | cons j path => exact hpath
      · intro front u hfront hu
        cases front with
        | nil => cases hu
        | cons i front =>
          obtain ⟨rfl, hrest⟩ := List.cons_prefix_cons.1 hfront
          cases front with
          | nil =>
            obtain rfl : t = u := by simpa using hu
            exact hfits
          | cons j front => exact hbelow _ u hrest hu
    · obtain ⟨path, hpath, hbelow, hnone⟩ := descendFirst_spec ts found h
      cases path with
      | nil => cases hpath
      | cons i path =>
        have hshift : ∀ front, treeAt (t :: ts) ((i + 1) :: front) = treeAt ts (i :: front) := by
          intro front
          cases front <;> simp [treeAt]
        refine ⟨(i + 1) :: path, by rw [hshift, hpath], ?_, hnone⟩
        intro front u hfront hu
        cases front with
        | nil => cases hu
        | cons j front =>
          obtain ⟨rfl, hrest⟩ := List.cons_prefix_cons.1 hfront
          rw [hshift] at hu
          exact hbelow _ u (List.cons_prefix_cons.2 ⟨rfl, hrest⟩) hu

end

end Forest

end Xeibe.Lib

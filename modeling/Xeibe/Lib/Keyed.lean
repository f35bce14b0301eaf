import Mathlib.Data.List.Nodup
import Mathlib.Data.List.Lookmap
import Mathlib.Data.List.Sort

/-!
# Maps in insertion order

A map that keeps its entries in the order they were inserted is a list of pairs
whose keys are distinct.  Merging a second one in updates the entries they share
where they stand and appends the others.
-/

namespace Xeibe.Lib.Keyed

variable {κ α : Type}

def keys (xs : List (κ × α)) : List κ := xs.map Prod.fst

@[simp] theorem keys_nil : keys ([] : List (κ × α)) = [] := rfl

@[simp] theorem keys_cons (e : κ × α) (xs : List (κ × α)) : keys (e :: xs) = e.1 :: keys xs := rfl

@[simp] theorem keys_append (xs ys : List (κ × α)) : keys (xs ++ ys) = keys xs ++ keys ys :=
  List.map_append

@[simp] theorem length_keys (xs : List (κ × α)) : (keys xs).length = xs.length :=
  List.length_map ..

theorem mem_keys {k : κ} {xs : List (κ × α)} : k ∈ keys xs ↔ ∃ x, (k, x) ∈ xs := by
  simp [keys]

theorem mem_keys_of_mem {e : κ × α} {xs : List (κ × α)} (h : e ∈ xs) : e.1 ∈ keys xs :=
  List.mem_map_of_mem h

variable [DecidableEq κ]

/-- Change the value of a key. -/
def update (k : κ) (f : α → α) (xs : List (κ × α)) : List (κ × α) :=
  xs.map fun e => if e.1 = k then (e.1, f e.2) else e

/-- Set the value of a key: at the end if it is new. -/
def put (k : κ) (x : α) (xs : List (κ × α)) : List (κ × α) :=
  if (xs.lookup k).isSome then update k (fun _ => x) xs else xs ++ [(k, x)]

/-- Merge the entries of a second map in, one after another. -/
def mergeWith (f : α → α → α) : List (κ × α) → List (κ × α) → List (κ × α)
  | xs, [] => xs
  | xs, (k, y) :: ys =>
    if (xs.lookup k).isSome then mergeWith f (update k (f · y) xs) ys
    else mergeWith f (xs ++ [(k, y)]) ys

/-- `mergeWith` that notes whether it inserted an entry. -/
def mergeNoting (f : α → α → α) (noted : Bool) :
    List (κ × α) → List (κ × α) → List (κ × α) × Bool
  | xs, [] => (xs, noted)
  | xs, (k, y) :: ys =>
    if (xs.lookup k).isSome then mergeNoting f noted (update k (f · y) xs) ys
    else mergeNoting f true (xs ++ [(k, y)]) ys

theorem lookup_isSome {k : κ} {xs : List (κ × α)} : (xs.lookup k).isSome ↔ k ∈ keys xs := by
  rw [List.lookup_isSome_iff, keys, List.mem_map]
  exact exists_congr fun e => and_congr_right fun _ => by rw [beq_iff_eq, eq_comm]

theorem lookup_eq_none {k : κ} {xs : List (κ × α)} : xs.lookup k = none ↔ k ∉ keys xs := by
  rw [← lookup_isSome, Option.not_isSome_iff_eq_none]

theorem mem_of_lookup {k : κ} {x : α} {xs : List (κ × α)} (h : xs.lookup k = some x) :
    (k, x) ∈ xs := by
  obtain ⟨before, after, rfl, -⟩ := List.lookup_eq_some_iff.1 h
  simp

theorem lookup_of_mem {k : κ} {x : α} {xs : List (κ × α)} (hnodup : (keys xs).Nodup)
    (h : (k, x) ∈ xs) : xs.lookup k = some x := by
  induction xs with
  | nil => simp at h
  | cons e xs ih =>
    rw [keys_cons, List.nodup_cons] at hnodup
    rcases List.mem_cons.1 h with rfl | h
    · exact List.lookup_cons_self
    · have hne : (k == e.1) = false :=
        beq_eq_false_iff_ne.2 fun hk => hnodup.1 (hk ▸ mem_keys_of_mem h)
      rw [List.lookup_cons, hne]
      exact ih hnodup.2 h

@[simp] theorem keys_update (k : κ) (f : α → α) (xs : List (κ × α)) :
    keys (update k f xs) = keys xs := by
  simp only [keys, update, List.map_map]
  refine List.map_congr_left fun e _ => ?_
  by_cases h : e.1 = k <;> simp [h]

@[simp] theorem length_update (k : κ) (f : α → α) (xs : List (κ × α)) :
    (update k f xs).length = xs.length :=
  List.length_map ..

theorem mem_update {k : κ} {f : α → α} {xs : List (κ × α)} {e : κ × α} :
    e ∈ update k f xs ↔
      (e.1 ≠ k ∧ e ∈ xs) ∨ ∃ x, (k, x) ∈ xs ∧ e = (k, f x) := by
  simp only [update, List.mem_map]
  constructor
  · rintro ⟨⟨k', x⟩, hx, rfl⟩
    by_cases h : k' = k
    · subst h
      exact .inr ⟨x, hx, by simp⟩
    · exact .inl (by simpa [h] using hx)
  · rintro (⟨hne, he⟩ | ⟨x, hx, rfl⟩)
    · exact ⟨e, he, by simp [hne]⟩
    · exact ⟨(k, x), hx, by simp⟩

theorem put_of_mem {k : κ} {xs : List (κ × α)} (h : k ∈ keys xs) (x : α) :
    put k x xs = update k (fun _ => x) xs :=
  if_pos (lookup_isSome.2 h)

theorem put_of_notMem {k : κ} {xs : List (κ × α)} (h : k ∉ keys xs) (x : α) :
    put k x xs = xs ++ [(k, x)] :=
  if_neg fun hsome => h (lookup_isSome.1 hsome)

theorem nodup_put {xs : List (κ × α)} (hnodup : (keys xs).Nodup) (k : κ) (x : α) :
    (keys (put k x xs)).Nodup := by
  by_cases h : k ∈ keys xs
  · rw [put_of_mem h, keys_update]
    exact hnodup
  · rw [put_of_notMem h, keys_append]
    refine List.Nodup.append hnodup (List.nodup_singleton _) fun k' hk' hk => ?_
    have hk : k' = k := List.mem_singleton.1 hk
    exact h (hk ▸ hk')

theorem mem_keys_put {k k' : κ} {x : α} {xs : List (κ × α)} :
    k' ∈ keys (put k x xs) ↔ k' ∈ keys xs ∨ k' = k := by
  by_cases h : k ∈ keys xs
  · rw [put_of_mem h, keys_update]
    exact ⟨.inl, fun hk => hk.elim id fun hk => hk ▸ h⟩
  · rw [put_of_notMem h, keys_append, List.mem_append]
    exact or_congr Iff.rfl List.mem_singleton

theorem mem_put {k : κ} {x : α} {xs : List (κ × α)} {e : κ × α} (h : e ∈ put k x xs) :
    e = (k, x) ∨ (e.1 ≠ k ∧ e ∈ xs) := by
  by_cases hk : k ∈ keys xs
  · rw [put_of_mem hk] at h
    rcases mem_update.1 h with hother | ⟨y, -, rfl⟩
    · exact .inr hother
    · exact .inl rfl
  · rw [put_of_notMem hk] at h
    rcases List.mem_append.1 h with h | h
    · exact .inr ⟨fun hname => hk (hname ▸ mem_keys_of_mem h), h⟩
    · exact .inl (List.mem_singleton.1 h)

theorem lookup_update (k k' : κ) (f : α → α) (xs : List (κ × α)) :
    (update k f xs).lookup k' = if k' = k then (xs.lookup k').map f else xs.lookup k' := by
  induction xs with
  | nil => simp [update]
  | cons e xs ih =>
    obtain ⟨key, value⟩ := e
    have hcons : update k f ((key, value) :: xs) =
        (key, if key = k then f value else value) :: update k f xs := by
      rw [update, List.map_cons]
      split <;> rfl
    rw [hcons, List.lookup_cons, List.lookup_cons, ih]
    by_cases hk : k' = key
    · subst hk
      simp only [beq_self_eq_true, Option.map_some]
      split <;> rfl
    · simp only [beq_false_of_ne hk]

/-- A key has the value it was set to, and the others keep theirs, however the lookup
compares keys. -/
theorem lookup_put [inst : BEq κ] [LawfulBEq κ] (k k' : κ) (x : α) (xs : List (κ × α)) :
    (put k x xs).lookup k' = if k' = k then some x else xs.lookup k' := by
  obtain rfl := lawful_beq_subsingleton inst instBEqOfDecidableEq
  by_cases h : k ∈ keys xs
  · rw [put_of_mem h, lookup_update]
    split
    · rename_i heq
      obtain ⟨y, hy⟩ := Option.isSome_iff_exists.1 (lookup_isSome.2 h)
      rw [heq, hy, Option.map_some]
    · rfl
  · rw [put_of_notMem h, List.lookup_append]
    split
    · rename_i heq
      rw [heq, lookup_eq_none.2 h]
      simp
    · rename_i hne
      simp [List.lookup_cons, beq_false_of_ne hne]

theorem mergeNoting_eq (f : α → α → α) (noted : Bool) (xs ys : List (κ × α)) :
    mergeNoting f noted xs ys =
      (mergeWith f xs ys, noted || ys.any fun e => decide (e.1 ∉ keys xs)) := by
  induction ys generalizing noted xs with
  | nil => simp [mergeNoting, mergeWith]
  | cons e ys ih =>
    obtain ⟨k, y⟩ := e
    rw [mergeNoting, mergeWith, List.any_cons]
    by_cases hk : k ∈ keys xs
    · rw [if_pos (lookup_isSome.2 hk), if_pos (lookup_isSome.2 hk), ih, keys_update]
      simp [hk]
    · have hnone := fun h => hk (lookup_isSome.1 h)
      rw [if_neg hnone, if_neg hnone, ih]
      simp [hk]

/-- What a second map of distinct keys makes of the first one's entries. -/
theorem mergeWith_eq (f : α → α → α) {xs ys : List (κ × α)} (hnodup : (keys ys).Nodup) :
    mergeWith f xs ys =
      xs.map (fun e => (e.1, match ys.lookup e.1 with | some y => f e.2 y | none => e.2)) ++
        ys.filter (fun e => decide (e.1 ∉ keys xs)) := by
  induction ys generalizing xs with
  | nil => simp [mergeWith]
  | cons e ys ih =>
    obtain ⟨k, y⟩ := e
    rw [keys_cons, List.nodup_cons] at hnodup
    have hlookup : ys.lookup k = none := lookup_eq_none.2 hnodup.1
    rw [mergeWith]
    by_cases hk : k ∈ keys xs
    · -- The entry is shared: it is updated where it stands, and no later one is its key's.
      rw [if_pos (lookup_isSome.2 hk), ih hnodup.2, keys_update,
        List.filter_cons_of_neg (by simpa using hk), update, List.map_map]
      refine congrArg (· ++ _) (List.map_congr_left fun e _ => ?_)
      by_cases h : e.1 = k
      · simp [h, hlookup]
      · have hne : (e.1 == k) = false := beq_eq_false_iff_ne.2 h
        simp [h, List.lookup_cons, hne]
    · rw [if_neg (fun h => hk (lookup_isSome.1 h)), ih hnodup.2,
        List.filter_cons_of_pos (by simpa using hk), List.map_append, List.append_assoc]
      have hold : ∀ e ∈ xs, e.1 ≠ k := fun e he h => hk (h ▸ mem_keys_of_mem he)
      have hnew : ∀ e ∈ ys, e.1 ≠ k := fun e he h => by
        have hmem := mem_keys_of_mem he
        exact hnodup.1 (h ▸ hmem)
      congr 1
      · refine List.map_congr_left fun e he => ?_
        have hne : (e.1 == k) = false := beq_eq_false_iff_ne.2 (hold e he)
        simp [List.lookup_cons, hne]
      · rw [List.map_singleton, hlookup, List.singleton_append]
        refine congrArg _ (List.filter_congr fun e he => ?_)
        simp [hnew e he]

theorem keys_mergeWith (f : α → α → α) {xs ys : List (κ × α)} (hnodup : (keys ys).Nodup) :
    keys (mergeWith f xs ys) = keys xs ++ (keys ys).filter (fun k => decide (k ∉ keys xs)) := by
  rw [mergeWith_eq f hnodup, keys_append]
  congr 1
  · simp [keys]
  · simp only [keys, List.filter_map]
    rfl

theorem nodup_mergeWith (f : α → α → α) {xs ys : List (κ × α)} (hxs : (keys xs).Nodup)
    (hys : (keys ys).Nodup) : (keys (mergeWith f xs ys)).Nodup := by
  rw [keys_mergeWith f hys]
  refine List.Nodup.append hxs (hys.filter _) fun k hk hk' => ?_
  simpa [hk] using (List.mem_filter.1 hk').2

theorem mem_keys_mergeWith (f : α → α → α) {xs ys : List (κ × α)} (hys : (keys ys).Nodup)
    {k : κ} : k ∈ keys (mergeWith f xs ys) ↔ k ∈ keys xs ∨ k ∈ keys ys := by
  rw [keys_mergeWith f hys, List.mem_append, List.mem_filter, decide_eq_true_eq]
  by_cases h : k ∈ keys xs <;> simp [h]

theorem mem_mergeWith (f : α → α → α) {xs ys : List (κ × α)} (hys : (keys ys).Nodup) {k : κ}
    {z : α} (h : (k, z) ∈ mergeWith f xs ys) :
    (∃ x y, (k, x) ∈ xs ∧ (k, y) ∈ ys ∧ z = f x y) ∨
      ((k, z) ∈ xs ∧ k ∉ keys ys) ∨ (k ∉ keys xs ∧ (k, z) ∈ ys) := by
  rw [mergeWith_eq f hys, List.mem_append, List.mem_map, List.mem_filter] at h
  rcases h with ⟨⟨k', x⟩, hx, he⟩ | ⟨hmem, hnew⟩
  · obtain ⟨rfl, rfl⟩ := Prod.mk.inj he
    cases hy : ys.lookup k' with
    | some y => exact .inl ⟨x, y, hx, mem_of_lookup hy, rfl⟩
    | none => exact .inr (.inl ⟨hx, lookup_eq_none.1 hy⟩)
  · exact .inr (.inr ⟨by simpa using hnew, hmem⟩)

theorem length_mergeWith (f : α → α → α) {xs ys : List (κ × α)} (hys : (keys ys).Nodup) :
    (mergeWith f xs ys).length =
      xs.length + ((keys ys).filter fun k => decide (k ∉ keys xs)).length := by
  rw [← length_keys, keys_mergeWith f hys, List.length_append, length_keys]

theorem mem_mergeWith_of_mem (f : α → α → α) {xs ys : List (κ × α)} (hys : (keys ys).Nodup)
    {k : κ} {x y : α} (hx : (k, x) ∈ xs) (hy : (k, y) ∈ ys) : (k, f x y) ∈ mergeWith f xs ys := by
  rw [mergeWith_eq f hys]
  refine List.mem_append_left _ (List.mem_map.2 ⟨(k, x), hx, ?_⟩)
  simp [lookup_of_mem hys hy]

end Xeibe.Lib.Keyed

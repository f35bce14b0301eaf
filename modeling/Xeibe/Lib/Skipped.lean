import Mathlib.Data.List.Nodup
import Mathlib.Order.Lattice

/-!
# Searches that leave things out

The least of many costs, where things that cannot cost less are skipped; the
first thing with an answer, where only some are asked; and buckets that things
are pushed into.
-/

namespace Xeibe.Lib.Skipped

section Least

variable {ι K : Type} [LinearOrder K] (costs : ι → List K)

/-- The lesser cost, with what costs it; the one that came first of equal ones. -/
def offer (i : ι) (best : Option (K × ι)) (cost : K) : Option (K × ι) :=
  if best.all fun b => cost < b.1 then some (cost, i) else best

/-- All costs of one thing after the other, but of those that are skipped. -/
def search (skips : ι → Option K → Bool) (is : List ι) (best : Option (K × ι)) : Option (K × ι) :=
  is.foldl (fun best i =>
    if skips i (best.map Prod.fst) then best else (costs i).foldl (offer i) best) best

variable {costs}

/-- The least one of the costs of `is`. -/
def Least (costs : ι → List K) (is : List ι) : Option (K × ι) → Prop
  | none => ∀ j ∈ is, costs j = []
  | some (least, i) => i ∈ is ∧ least ∈ costs i ∧ ∀ j ∈ is, ∀ cost ∈ costs j, least ≤ cost

theorem Least.nil : Least costs [] none := nofun

theorem offer_eq_self {i : ι} {best : K × ι} {cost : K} (h : best.1 ≤ cost) :
    offer i (some best) cost = some best := by
  rw [offer, if_neg]
  simpa using h

theorem foldl_offer_eq_self {i : ι} {best : K × ι} {list : List K}
    (h : ∀ cost ∈ list, best.1 ≤ cost) : list.foldl (offer i) (some best) = some best := by
  induction list with
  | nil => rfl
  | cons cost list ih =>
    rw [List.foldl_cons, offer_eq_self (h cost List.mem_cons_self)]
    exact ih fun c hc => h c (List.mem_cons_of_mem _ hc)

/-- What is offered, and what was the best before, is not below the best. -/
theorem foldl_offer_spec (i : ι) (list : List K) (best : Option (K × ι)) :
    (list.foldl (offer i) best = best ∨
      ∃ least ∈ list, list.foldl (offer i) best = some (least, i)) ∧
    ∀ cost, cost ∈ list ∨ cost ∈ best.map Prod.fst →
      ∃ b, list.foldl (offer i) best = some b ∧ b.1 ≤ cost := by
  induction list generalizing best with
  | nil =>
    refine ⟨Or.inl rfl, fun cost hcost => ?_⟩
    rcases hcost with hcost | hcost
    · cases hcost
    · obtain ⟨b, hb, rfl⟩ := Option.map_eq_some_iff.1 hcost
      exact ⟨b, hb, le_rfl⟩
  | cons first list ih =>
    obtain ⟨hfrom, hleast⟩ := ih (offer i best first)
    have hoffer : ∃ b, offer i best first = some b ∧ b.1 ≤ first ∧
        (∀ cost ∈ best.map Prod.fst, b.1 ≤ cost) ∧ (offer i best first = best ∨ b = (first, i)) := by
      rw [offer]
      split
      · rename_i hall
        refine ⟨_, rfl, le_rfl, fun cost hcost => ?_, Or.inr rfl⟩
        obtain ⟨b, hb, rfl⟩ := Option.map_eq_some_iff.1 hcost
        rw [hb] at hall
        exact le_of_lt (by simpa using hall)
      · rename_i hall
        cases best with
        | none => exact absurd rfl hall
        | some b =>
          refine ⟨b, rfl, not_lt.1 (by simpa using hall), fun cost hcost => ?_, Or.inl rfl⟩
          rw [← Option.some.inj hcost]
    obtain ⟨b, hb, hfirst, hbest, hwhich⟩ := hoffer
    rw [List.foldl_cons]
    refine ⟨?_, fun cost hcost => ?_⟩
    · rcases hfrom with heq | ⟨least, hmem, heq⟩
      · rcases hwhich with hsame | hnew
        · exact Or.inl (heq.trans hsame)
        · exact Or.inr ⟨first, List.mem_cons_self, by rw [heq, hb, hnew]⟩
      · exact Or.inr ⟨least, List.mem_cons_of_mem _ hmem, heq⟩
    · have hbelow : cost ∈ list ∨ b.1 ≤ cost := by
        rcases hcost with hcost | hcost
        · rcases List.mem_cons.1 hcost with rfl | hcost
          · exact Or.inr hfirst
          · exact Or.inl hcost
        · exact Or.inr (hbest cost hcost)
      rcases hbelow with hcost | hle
      · exact hleast cost (Or.inl hcost)
      · obtain ⟨c, hc, hcb⟩ := hleast b.1 (Or.inr (by rw [hb]; rfl))
        exact ⟨c, hc, hcb.trans hle⟩

/-- One more thing is searched. -/
theorem Least.visit {is : List ι} {best : Option (K × ι)} (h : Least costs is best) (i : ι) :
    Least costs (is ++ [i]) ((costs i).foldl (offer i) best) := by
  obtain ⟨hfrom, hleast⟩ := foldl_offer_spec i (costs i) best
  have hall : ∀ j ∈ is ++ [i], ∀ cost ∈ costs j,
      ∃ b, (costs i).foldl (offer i) best = some b ∧ b.1 ≤ cost := by
    intro j hj cost hcost
    rcases List.mem_append.1 hj with hj | hj
    · cases best with
      | none => rw [h j hj] at hcost; cases hcost
      | some b =>
        obtain ⟨c, hc, hcb⟩ := hleast b.1 (Or.inr rfl)
        exact ⟨c, hc, hcb.trans (h.2.2 j hj cost hcost)⟩
    · rw [List.mem_singleton.1 hj] at hcost
      exact hleast cost (Or.inl hcost)
  cases hnow : (costs i).foldl (offer i) best with
  | none =>
    intro j hj
    refine List.eq_nil_iff_forall_not_mem.2 fun cost hcost => ?_
    obtain ⟨b, hb, -⟩ := hall j hj cost hcost
    rw [hnow] at hb
    cases hb
  | some now =>
    have hbelow : ∀ j ∈ is ++ [i], ∀ cost ∈ costs j, now.1 ≤ cost := by
      intro j hj cost hcost
      obtain ⟨b, hb, hle⟩ := hall j hj cost hcost
      rw [hnow] at hb
      rwa [← Option.some.inj hb] at hle
    rcases hfrom with heq | ⟨least, hmem, heq⟩
    · rw [hnow] at heq
      rw [← heq] at h
      exact ⟨List.mem_append_left _ h.1, h.2.1, hbelow⟩
    · rw [hnow] at heq
      rw [Option.some.inj heq] at hbelow ⊢
      exact ⟨List.mem_append_right _ (List.mem_singleton.2 rfl), hmem, hbelow⟩

theorem least_search (is before : List ι) {best : Option (K × ι)} (h : Least costs before best) :
    Least costs (before ++ is) (search costs (fun _ _ => false) is best) := by
  induction is generalizing before best with
  | nil => rwa [List.append_nil]
  | cons i is ih =>
    have hstep := ih (before ++ [i]) (h.visit i)
    rwa [List.append_assoc] at hstep

/-- What is skipped where nothing of it is below the least cost is not missed. -/
theorem search_skips {skips : ι → Option K → Bool} (hnone : ∀ i, skips i none = false)
    (hskips : ∀ i j, ∀ least ∈ costs j, skips i (some least) = true → ∀ cost ∈ costs i, least ≤ cost)
    (is before : List ι) {best : Option (K × ι)} (h : Least costs before best) :
    search costs skips is best = search costs (fun _ _ => false) is best := by
  induction is generalizing before best with
  | nil => rfl
  | cons i is ih =>
    have hstep : (if skips i (best.map Prod.fst) then best else (costs i).foldl (offer i) best) =
        (costs i).foldl (offer i) best := by
      split
      · rename_i hskip
        cases best with
        | none => rw [Option.map_none, hnone i] at hskip; cases hskip
        | some b => exact (foldl_offer_eq_self (hskips i b.2 b.1 h.2.1 hskip)).symm
      · rfl
    rw [search, search, List.foldl_cons, List.foldl_cons, hstep]
    exact ih (before ++ [i]) (h.visit i)

end Least

section First

variable {α β : Type} {f : α → Option β}

/-- The first answer of some of the things is the first one of all exactly
where the one that gives that is among them. -/
theorem findSome?_filter_eq_iff (owner : β → α) (howner : ∀ a b, f a = some b → owner b = a)
    (p : α → Bool) (list : List α) : (list.filter p).findSome? f = list.findSome? f ↔
      ∀ b, list.findSome? f = some b → p (owner b) = true := by
  induction list with
  | nil => simp
  | cons a list ih =>
    cases hf : f a with
    | none =>
      have hskip : (List.filter p (a :: list)).findSome? f = (list.filter p).findSome? f := by
        rw [List.filter_cons]
        split
        · rw [List.findSome?_cons, hf]
        · rfl
      rw [hskip, List.findSome?_cons, hf, ih]
    | some b =>
      rw [List.findSome?_cons, hf]
      constructor
      · intro h c hc
        obtain ⟨a', hmem, ha'⟩ := List.exists_of_findSome?_eq_some h
        rw [← Option.some.inj hc, howner a' b ha']
        exact (List.mem_filter.1 hmem).2
      · intro h
        have hp : p a = true := by
          rw [← howner a b hf]
          exact h b rfl
        rw [List.filter_cons_of_pos hp, List.findSome?_cons, hf]

end First

section Buckets

variable {ι : Type}

/-- `i` at the end of each of these buckets. -/
def pushAll (i : ι) (cells : List Nat) (buckets : List (List ι)) : List (List ι) :=
  cells.foldl (fun buckets cell => buckets.modify cell (· ++ [i])) buckets

theorem getElem?_pushAll (i : ι) {cells : List Nat} (hnodup : cells.Nodup)
    (buckets : List (List ι)) (cell : Nat) : (pushAll i cells buckets)[cell]? =
      buckets[cell]?.map fun bucket => if cell ∈ cells then bucket ++ [i] else bucket := by
  induction cells generalizing buckets with
  | nil => simp [pushAll]
  | cons first cells ih =>
    obtain ⟨hnot, hnodup⟩ := List.nodup_cons.1 hnodup
    rw [pushAll, List.foldl_cons, ← pushAll, ih hnodup, List.getElem?_modify, Option.map_eq_map,
      Option.map_map]
    congr 1
    funext bucket
    by_cases hfirst : first = cell
    · rw [hfirst] at hnot
      simp [hfirst, hnot]
    · simp [hfirst, Ne.symm hfirst]

theorem getElem?_foldl_pushAll {cells : ι → List Nat} (hnodup : ∀ i, (cells i).Nodup)
    (is : List ι) {buckets : List (List ι)} {cell : Nat} {bucket : List ι}
    (h : buckets[cell]? = some bucket) :
    (is.foldl (fun buckets i => pushAll i (cells i) buckets) buckets)[cell]? =
      some (bucket ++ is.filter fun i => cell ∈ cells i) := by
  induction is generalizing buckets bucket with
  | nil => simpa using h
  | cons i is ih =>
    have hpush := getElem?_pushAll i (hnodup i) buckets cell
    rw [h, Option.map_some] at hpush
    rw [List.foldl_cons, ih hpush, List.filter_cons]
    by_cases hmem : cell ∈ cells i
    · simp [hmem]
    · simp [hmem]

end Buckets

end Xeibe.Lib.Skipped

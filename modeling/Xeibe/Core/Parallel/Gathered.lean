import Mathlib.Data.List.Perm.Basic
import Xeibe.Core.Parallel.Fold

/-!
# What a fold gathers

A fold is stopped by a step that breaks and by a panic.  Where the accumulator
remembers that a step broke, as `fold`'s callers have it, a fold that has ended
without such a mark has folded every item of its input, each into one
accumulator (`gathers_all`).
-/

namespace Xeibe

namespace Parallel

open Lib (run)

section

variable {Item Panic : Type} {input : Streams Item Panic}
  {log : List (Origin × Except Panic Item)}

/-! ## All items of an input -/

/-- The numbered items, stream by stream. -/
theorem perm_takenOf (n : Nat) (log : List (Origin × Except Panic Item))
    (h : ∀ entry ∈ log, ∃ k < n, entry.1 = .stream k) :
    (log.map Prod.snd).Perm ((List.range n).flatMap fun k => takenOf (.stream k) log) := by
  induction n generalizing log with
  | zero =>
    cases log with
    | nil => exact .nil
    | cons entry log =>
      obtain ⟨k, hk, -⟩ := h entry List.mem_cons_self
      omega
  | succ n ih =>
    let others := log.filter fun entry => !(entry.1 == Origin.stream n)
    have hothers : ∀ entry ∈ others, ∃ k < n, entry.1 = .stream k := by
      intro entry hentry
      obtain ⟨hmem, hne⟩ := List.mem_filter.1 hentry
      obtain ⟨k, hk, hstream⟩ := h entry hmem
      refine ⟨k, ?_, hstream⟩
      have hkn : k ≠ n := by
        rintro rfl
        rw [hstream] at hne
        simp at hne
      omega
    have hsame : ∀ k ∈ List.range n, takenOf (.stream k) others = takenOf (.stream k) log := by
      intro k hk
      have hkn := List.mem_range.1 hk
      unfold takenOf
      rw [List.filter_filter]
      refine congrArg _ (List.filter_congr fun entry _ => ?_)
      by_cases heq : entry.1 = .stream k
      · have hne : ¬k = n := by omega
        simp [heq, hne]
      · simp [heq]
    have hsplit : (takenOf (.stream n) log ++ others.map Prod.snd).Perm (log.map Prod.snd) := by
      unfold takenOf
      rw [← List.map_append]
      exact (List.filter_append_perm (fun entry => entry.1 == Origin.stream n) log).map _
    rw [List.range_succ, List.flatMap_append, List.flatMap_cons, List.flatMap_nil,
      List.append_nil]
    refine hsplit.symm.trans (List.perm_append_comm.trans (List.Perm.append_right _ ?_))
    refine (ih others hothers).trans ?_
    rw [List.flatMap_congr hsame]

theorem flatMap_range_getD (lists : List (List (Except Panic Item))) :
    ((List.range lists.length).flatMap fun k => (lists[k]?).getD []) = lists.flatten := by
  induction lists with
  | nil => rfl
  | cons first lists ih =>
    rw [List.length_cons, List.range_succ_eq_map, List.flatMap_cons, List.flatMap_map,
      List.flatten_cons, ← ih]
    rfl

/-- When everything is numbered, and no panic is, the numbered items are those of
the streams and the last one. -/
theorem Complete.perm (h : Complete input log) (hnone : input.last = none)
    (houtside : ∀ entry ∈ log, entry.1 ≠ .outside) :
    (log.map Prod.snd).Perm (okStreams input.streams).flatten := by
  have hstreams : ∀ entry ∈ log, ∃ k < (okStreams input.streams).length,
      entry.1 = .stream k := by
    intro entry hentry
    obtain ⟨origin, item⟩ := entry
    cases origin with
    | outside => exact absurd rfl (houtside _ hentry)
    | last =>
      have hlast := h.2
      rw [hnone] at hlast
      have hmem := mem_takenOf.2 hentry
      rw [hlast] at hmem
      cases hmem
    | stream k =>
      refine ⟨k, ?_, rfl⟩
      by_contra hlt
      have hmem := mem_takenOf.2 hentry
      rw [h.1 k, Streams.stream, List.getElem?_eq_none (Nat.le_of_not_lt hlt)] at hmem
      cases hmem
  refine (perm_takenOf _ log hstreams).trans ?_
  rw [← flatMap_range_getD]
  refine List.Perm.of_eq (List.flatMap_congr fun k _ => h.1 k)

end

/-! ## Folds that nothing stops -/

namespace Fold

open Pool

section

variable {Item Acc Panic : Type} {options : MapOptions} {endsInput : Item → Bool} {init : Acc}
  {step : Acc → Item → Except Panic (Acc × Bool)} {input : Streams Item Panic}
  {bad : Acc → Prop} {s t : Fold Item Acc Panic} {i : Nat}

/-- An accumulator is marked for good once a step has broken, or taken an item that
ends the input. -/
structure Marks (endsInput : Item → Bool) (step : Acc → Item → Except Panic (Acc × Bool))
    (bad : Acc → Prop) : Prop where
  keeps : ∀ acc item acc' breaks, step acc item = .ok (acc', breaks) → bad acc → bad acc'
  breaks : ∀ acc item acc', step acc item = .ok (acc', true) → bad acc'
  ends : ∀ acc item acc' breaks, endsInput item = true → step acc item = .ok (acc', breaks) →
    bad acc'

/-- Something has panicked, or an accumulator is marked. -/
def Marked (bad : Acc → Prop) (s : Fold Item Acc Panic) : Prop :=
  s.caught ≠ [] ∨ ∃ acc ∈ s.accs, bad acc

theorem Marked.take (hmarks : Marks endsInput step bad) {acc : Acc} (hacc : s.accs[i]? = some acc)
    (item : Item) (h : Marked bad s) : Marked bad (s.take step i acc item) := by
  unfold Fold.take
  cases hstep : step acc item with
  | error panic => exact .inl (List.append_ne_nil_of_right_ne_nil _ (List.cons_ne_nil _ _))
  | ok result =>
    obtain ⟨acc', breaks⟩ := result
    have hmarked : s.caught ≠ [] ∨ ∃ acc ∈ s.accs.set i acc', bad acc := by
      refine h.imp_right ?_
      rintro ⟨other, hother, hbad⟩
      obtain ⟨j, hj⟩ := List.mem_iff_getElem?.1 hother
      by_cases hij : j = i
      · rw [hij, hacc] at hj
        cases hj
        exact ⟨acc', List.mem_set (List.getElem?_eq_some_iff.1 hacc).1 acc',
          hmarks.keeps acc item acc' breaks hstep hbad⟩
      · exact ⟨other, List.mem_of_getElem? ((Lib.party_set hacc).2 (.inr ⟨hij, hj⟩)), hbad⟩
    cases breaks <;> exact hmarked

/-- Whoever stops the fold leaves a mark. -/
theorem take_stops (hmarks : Marks endsInput step bad) {acc : Acc} (hacc : s.accs[i]? = some acc)
    (item : Item) (h : s.pool.cancelled = true → Marked bad s)
    (hstopped : (s.take step i acc item).pool.cancelled = true) :
    Marked bad (s.take step i acc item) := by
  have hlt := (List.getElem?_eq_some_iff.1 hacc).1
  cases hstep : step acc item with
  | error panic =>
    unfold Fold.take
    rw [hstep]
    exact .inl (List.append_ne_nil_of_right_ne_nil _ (List.cons_ne_nil _ _))
  | ok result =>
    obtain ⟨acc', breaks⟩ := result
    cases breaks with
    | true =>
      unfold Fold.take
      rw [hstep]
      exact .inr ⟨acc', List.mem_set hlt acc', hmarks.breaks acc item acc' hstep⟩
    | false =>
      have hrunning : (s.take step i acc item).pool.cancelled = s.pool.cancelled := by
        unfold Fold.take
        rw [hstep]
        rfl
      rw [hrunning] at hstopped
      exact (h hstopped).take hmarks hacc item

theorem work_stops (hmarks : Marks endsInput step bad) {phase : Phase Item Panic}
    (hwork : s.work options endsInput step i phase = some t)
    (h : s.pool.cancelled = true → Marked bad s) (hstopped : t.pool.cancelled = true) :
    Marked bad t := by
  have takes : (s.pool.work options ⟨endsInput, .ok⟩ i phase).map (fun pool => { s with pool }) =
      some t → Marked bad t := by
    intro hstep
    obtain ⟨pool, hpool, rfl⟩ := Option.map_eq_some_iff.1 hstep
    have hsame : pool.cancelled = s.pool.cancelled := by
      rcases work_cases hpool with ⟨phase', -, -, rfl⟩ | ⟨added, hdoes⟩
      · rfl
      · exact hdoes.cancelled
    exact h (hsame ▸ hstopped)
  cases phase with
  | ticket =>
    cases hwork
    exact h hstopped
  | mapping seq taken =>
    cases taken with
    | error panic =>
      cases hwork
      exact .inl (List.append_ne_nil_of_right_ne_nil _ (List.cons_ne_nil _ _))
    | ok item =>
      obtain ⟨acc, hacc, rfl⟩ := Option.map_eq_some_iff.1 hwork
      exact take_stops hmarks hacc item h hstopped
  | leaving =>
    cases hwork
    exact h hstopped
  | _ => exact takes hwork

theorem run_stops {events : List (FoldEvent Panic)} (hmarks : Marks endsInput step bad)
    (hrun : run (Fold.next options endsInput step) (new options init input) events = some s)
    (hstopped : s.pool.cancelled = true) : Marked bad s := by
  refine Lib.run_invariant (I := fun s => s.pool.cancelled = true → Marked bad s) ?_
    (fun hstopped => absurd hstopped Bool.false_ne_true) hrun hstopped
  intro s e t _ h hnext
  cases e with
  | work i =>
    obtain ⟨phase, -, hwork⟩ := Option.bind_eq_some_iff.1 hnext
    exact work_stops hmarks hwork h
  | help i answer =>
    obtain ⟨phase, -, hhelp⟩ := Option.bind_eq_some_iff.1 hnext
    obtain ⟨pool, hpool, rfl⟩ := Option.map_eq_some_iff.1 hhelp
    rcases help_cases options hpool with rfl | ⟨phase', -, -, rfl⟩ | ⟨panic, added, -, -, hfails⟩
    · exact h
    · exact h
    · cases hfails <;> exact h

theorem foldItems_cons {acc acc' : Acc} {item : Item} {items : List Item}
    (h : foldItems step acc (item :: items) = some acc') :
    ∃ next breaks, step acc item = .ok (next, breaks) ∧ foldItems step next items = some acc' := by
  obtain ⟨next, hnext, hrest⟩ := Option.bind_eq_some_iff.1 h
  have hnext : (step acc item).toOption.map Prod.fst = some next := hnext
  cases hstep : step acc item with
  | error panic =>
    rw [hstep] at hnext
    cases hnext
  | ok result =>
    rw [hstep] at hnext
    cases hnext
    exact ⟨result.1, result.2, rfl, hrest⟩

theorem foldItems_marked (hmarks : Marks endsInput step bad) {items : List Item} {acc : Acc}
    (hfold : foldItems step init items = some acc)
    (h : bad init ∨ ∃ item ∈ items, endsInput item = true) : bad acc := by
  induction items generalizing init with
  | nil =>
    cases hfold
    rcases h with h | ⟨item, hitem, -⟩
    · exact h
    · cases hitem
  | cons item items ih =>
    obtain ⟨acc', breaks, hstep, hfold⟩ := foldItems_cons hfold
    refine ih hfold ?_
    rcases h with h | ⟨other, hother, hends⟩
    · exact .inl (hmarks.keeps init item acc' breaks hstep h)
    · rcases List.mem_cons.1 hother with rfl | hother
      · exact .inl (hmarks.ends init other acc' breaks hends hstep)
      · exact .inr ⟨other, hother, hends⟩

/-- A fold that has ended without a mark has folded every item of its input, each
worker some of them, and has asked all streams. -/
theorem gathers_all {events : List (FoldEvent Panic)} (hthreads : 0 < options.threads)
    (hmarks : Marks endsInput step bad) (hnone : input.last = none)
    (hrun : run (Fold.next options endsInput step) (new options init input) events = some s)
    (hended : s.ended = true) (hcalm : ¬Marked bad s) :
    ∃ parts : List (List Item), s.accs.length = parts.length ∧
      (∀ (i : Nat) (acc : Acc) (part : List Item), s.accs[i]? = some acc →
        parts[i]? = some part → foldItems step init part = some acc) ∧
      (parts.flatten.map Except.ok).Perm (okStreams input.streams).flatten ∧
      s.pool.streams.streams = [] ∧ s.pool.openStreams = [] := by
  obtain ⟨log, parts, lost, h⟩ := folding_run hthreads hrun
  obtain ⟨hlength, -, hentries, -⟩ := h.exactly_once
  have hrunning : s.pool.cancelled = false :=
    Bool.eq_false_iff.2 fun hstopped => hcalm (run_stops hmarks hrun hstopped)
  obtain ⟨hnumbers, hused⟩ := h.all_folded hended hrunning
  have hitems : (parts.flatten.map fun entry => Except.ok entry.2).Perm (log.map Prod.snd) := by
    refine (List.map_perm_map_iff fun _ _ => Option.some.inj).1 ?_
    have hleft : (parts.flatten.map fun entry => (Except.ok entry.2 : Except Panic Item)).map some =
        (parts.flatten.map Prod.fst).map fun n => log[n]?.map Prod.snd := by
      rw [List.map_map, List.map_map]
      exact List.map_congr_left fun entry hentry => (hentries entry hentry).symm
    have hright : (log.map Prod.snd).map some =
        (List.range log.length).map fun n => log[n]?.map Prod.snd := by
      refine List.ext_getElem (by simp) fun n h₁ h₂ => ?_
      have hn : n < log.length := by simpa using h₁
      simp [List.getElem?_eq_getElem hn]
    rw [hleft, hright]
    exact hnumbers.map _
  have hok : ∀ entry ∈ log, ∃ item, entry.2 = .ok item ∧ ∃ part ∈ parts, item ∈ part.map Prod.snd := by
    intro entry hentry
    obtain ⟨folded, hfolded, heq⟩ :=
      List.mem_map.1 (hitems.mem_iff.2 (List.mem_map.2 ⟨entry, hentry, rfl⟩))
    obtain ⟨part, hpart, hfolded⟩ := List.mem_flatten.1 hfolded
    exact ⟨folded.2, heq.symm, part, hpart, List.mem_map.2 ⟨folded, hfolded, rfl⟩⟩
  have hnoEnd : ¬∃ entry ∈ log, Parallel.endsInput endsInput entry = true := by
    rintro ⟨entry, hentry, hends⟩
    obtain ⟨item, hitem, part, hpart, hmem⟩ := hok entry hentry
    have hends : endsInput item = true := by
      unfold Parallel.endsInput at hends
      rw [hitem] at hends
      exact (Bool.and_eq_true_iff.1 hends).2
    obtain ⟨i, hi⟩ := List.mem_iff_getElem?.1 hpart
    have hlt : i < s.accs.length := hlength ▸ (List.getElem?_eq_some_iff.1 hi).1
    have hacc := List.getElem?_eq_getElem hlt
    exact hcalm (.inr ⟨_, List.getElem_mem hlt,
      foldItems_marked hmarks (h.folds i _ part hacc hi) (.inr ⟨item, hmem, hends⟩)⟩)
  have hcomplete : Complete input log := hused.resolve_right hnoEnd
  obtain ⟨consumer, hinputs⟩ := h.inputs
  have hasked : s.pool.streams.streams = [] ∧ s.pool.openStreams = [] := by
    rcases hinputs.used_up h.workers (ended_workers hended) hrunning with
      hstopped | ⟨-, hstreams, hopen, -⟩
    · exact absurd (h.taken.stopped hstopped) hnoEnd
    · exact ⟨hstreams, hopen⟩
  refine ⟨parts.map (List.map Prod.snd), hlength.trans (List.length_map _).symm, ?_, ?_, hasked⟩
  · intro i acc part hacc hpart
    rw [List.getElem?_map] at hpart
    obtain ⟨numbered, hnumbered, rfl⟩ := Option.map_eq_some_iff.1 hpart
    exact h.folds i acc numbered hacc hnumbered
  · refine List.Perm.trans (List.Perm.of_eq ?_) (hitems.trans (hcomplete.perm hnone ?_))
    · rw [← List.map_flatten, List.map_map]
      rfl
    · intro entry hentry houtside
      obtain ⟨item, hitem, -⟩ := hok entry hentry
      obtain ⟨panic, herror, -⟩ := h.taken.numbered.outside entry.2
        (mem_takenOf.2 (houtside ▸ hentry))
      rw [hitem] at herror
      cases herror

end

end Fold

end Parallel

end Xeibe

import Xeibe.Core.Parallel.Sequential

/-!
# What is left of an input

`Sequential::rest` hands on an input after some items were taken from it, with
those that were kept in front.  A new run over it continues where the first one
stopped, except after an end: a stream whose item, or panic, ended the input is
handed on with what comes after that item (`rest_continues_iff`).
-/

namespace Xeibe

namespace Parallel

open Lib (Yields takes)

section

variable {Item Panic : Type}

/-- `Resumed`: items taken earlier, then the stream they were taken from. -/
structure Resumed (Item Panic : Type) where
  taken : List Item
  stream : Option (List (Except Panic Item))

namespace Resumed

/-- What the calls of its `next` give. -/
def items (r : Resumed Item Panic) : List (Except Panic Item) :=
  r.taken.map .ok ++ r.stream.getD []

end Resumed

/-- `Rest`: what is left of an input after `Sequential` took some of it. -/
structure Rest (Item Panic : Type) where
  streams : Streams Item Panic
  /-- The items taken, then the rest of the stream they were taken from. -/
  first : Option (Resumed Item Panic)
  /-- The input had ended. -/
  done : Bool

namespace Rest

def finish (r : Rest Item Panic) : Option (Except Panic Item) :=
  if r.done then none else r.streams.last

/-- What the calls of its `next_stream` give. -/
def resumed (r : Rest Item Panic) : List (Except Panic (Resumed Item Panic)) :=
  r.first.toList.map .ok ++
    if r.done then [] else r.streams.streams.map (Except.map fun stream => ⟨[], some stream⟩)

/-- The rest of an input as an input. -/
def toStreams (r : Rest Item Panic) : Streams Item Panic where
  streams := r.resumed.map (Except.map Resumed.items)
  last := r.finish

end Rest

/-- `Sequential::rest`. -/
def Sequential.rest (s : Sequential Item Panic) (taken : List Item) : Rest Item Panic where
  streams := s.streams
  first := if taken ≠ [] ∨ s.current.isSome then some ⟨taken, s.current⟩ else none
  done := s.done

/-! ## What is still to come -/

section

variable (endsInput : Item → Bool)

/-- What a run has still to yield. -/
def Sequential.left (s : Sequential Item Panic) : List (Except Panic Item) :=
  if s.done then []
  else cut endsInput (s.current.getD [] ++ (itemsOf s.streams.streams ++ s.streams.last.toList))

theorem left_yields (s : Sequential Item Panic) :
    Yields (Sequential.next endsInput) s (s.left endsInput) := by
  obtain ⟨⟨streams, last⟩, current, done⟩ := s
  cases done with
  | true => exact .done rfl
  | false =>
    cases current with
    | some current => exact sequential_yields_from endsInput last streams current
    | none => exact sequential_yields endsInput ⟨streams, last⟩

theorem left_new (input : Streams Item Panic) :
    (Sequential.new input).left endsInput = input.all endsInput := rfl

theorem nextFrom_spec {last x : Option (Except Panic Item)}
    {streams : List (Except Panic (List (Except Panic Item)))}
    {current : Option (List (Except Panic Item))} {s' : Sequential Item Panic}
    (h : Sequential.nextFrom endsInput last streams current = (x, s')) :
    (∀ item ∈ x, endsWith endsInput item = true → s'.done = true) ∧
      (s'.done = true → s'.current.getD [] ≠ [] → ∃ item ∈ x, endsWith endsInput item = true) ∧
      (x = none → s'.done = true) := by
  fun_induction Sequential.nextFrom endsInput last streams current with
  | case1 streams item rest =>
    cases h
    refine ⟨fun other hother hends => ?_, fun hdone _ => ⟨_, rfl, hdone⟩, nofun⟩
    cases hother
    exact hends
  | case2 streams panic rest =>
    cases h
    exact ⟨fun _ _ _ => rfl, fun _ _ => ⟨_, rfl, rfl⟩, nofun⟩
  | case3 current =>
    cases h
    exact ⟨fun _ _ _ => rfl, fun _ hcurrent => absurd rfl hcurrent, fun _ => rfl⟩
  | case4 current stream streams _ _ ih => exact ih h
  | case5 current panic streams =>
    cases h
    exact ⟨fun _ _ _ => rfl, fun _ hcurrent => absurd rfl hcurrent, nofun⟩

theorem takes_done {s : Sequential Item Panic} (hs : s.done = true) (n : Nat) :
    takes (Sequential.next endsInput) n s = ([], s) := by
  cases n with
  | zero => rfl
  | succ n => rw [takes, Sequential.next, if_pos hs]

/-- What a run has taken when it is in state `s`, from a state with `all` still to
come.  Only the last item may have ended the input, and while a stream is open
nothing else does. -/
structure Took (all xs : List (Except Panic Item)) (s : Sequential Item Panic) : Prop where
  all_eq : all = xs ++ s.left endsInput
  running : ∀ x ∈ xs.dropLast, endsWith endsInput x = false
  last : ∀ x ∈ xs.getLast?, endsWith endsInput x = true → s.done = true
  done : s.done = true → s.current.getD [] ≠ [] → ∃ x ∈ xs.getLast?, endsWith endsInput x = true

theorem takes_took (n : Nat) {s : Sequential Item Panic} (hs : s.done = false) :
    Took endsInput (s.left endsInput) (takes (Sequential.next endsInput) n s).1
      (takes (Sequential.next endsInput) n s).2 := by
  induction n generalizing s with
  | zero =>
    refine ⟨rfl, List.forall_mem_nil _, by rintro x ⟨⟩, fun hdone => ?_⟩
    rw [takes, hs] at hdone
    cases hdone
  | succ n ih =>
    rw [takes]
    cases hnext : Sequential.next endsInput s with
    | mk x s' =>
      have hfrom := hnext
      rw [Sequential.next, if_neg (by rw [hs]; exact Bool.false_ne_true)] at hfrom
      obtain ⟨hends, hended, hnone⟩ := nextFrom_spec endsInput hfrom
      cases x with
      | none =>
        refine ⟨?_, List.forall_mem_nil _, by rintro x ⟨⟩, fun hdone hcurrent => ?_⟩
        · show s.left endsInput = [] ++ s'.left endsInput
          rw [(left_yields endsInput s).unique (.done hnext), Sequential.left, if_pos (hnone rfl)]
          rfl
        · obtain ⟨x, hx, -⟩ := hended hdone hcurrent
          cases hx
      | some x =>
        have hleft : s.left endsInput = x :: s'.left endsInput :=
          (left_yields endsInput s).unique (.item hnext (left_yields endsInput s'))
        dsimp only
        cases hdone : s'.done with
        | true =>
          rw [takes_done endsInput hdone n]
          refine ⟨hleft, List.forall_mem_nil _, fun _ _ _ => hdone, fun _ hcurrent => ?_⟩
          obtain ⟨x', hx', hends'⟩ := hended hdone hcurrent
          cases hx'
          exact ⟨x, rfl, hends'⟩
        | false =>
          have hx : endsWith endsInput x = false := by
            rw [Bool.eq_false_iff]
            intro hx
            rw [hends x rfl hx] at hdone
            cases hdone
          have htook := ih hdone
          generalize hrest : takes (Sequential.next endsInput) n s' = result at htook ⊢
          obtain ⟨xs, t⟩ := result
          dsimp only at htook ⊢
          cases xs with
          | nil =>
            refine ⟨by rw [hleft, htook.all_eq]; rfl, List.forall_mem_nil _, fun x' hx' hends' => ?_,
              fun ht hcurrent => ?_⟩
            · rw [List.getLast?_singleton] at hx'
              rw [← Option.some.inj hx', hx] at hends'
              cases hends'
            · obtain ⟨x', hx', -⟩ := htook.done ht hcurrent
              cases hx'
          | cons y ys =>
            refine ⟨by rw [hleft, htook.all_eq]; rfl, fun x' hx' => ?_, ?_, ?_⟩
            · rw [List.dropLast_cons_cons] at hx'
              rcases List.mem_cons.1 hx' with rfl | hx'
              · exact hx
              · exact htook.running x' hx'
            · rw [List.getLast?_cons_cons]
              exact htook.last
            · rw [List.getLast?_cons_cons]
              exact htook.done

theorem Took.not_ends {all xs : List (Except Panic Item)} {s : Sequential Item Panic}
    (h : Took endsInput all xs s) (hs : s.done = false) :
    ∀ x ∈ xs, endsWith endsInput x = false := by
  intro x hx
  rcases List.eq_nil_or_concat xs with rfl | ⟨ys, y, rfl⟩
  · cases hx
  · rw [List.concat_eq_append] at h hx
    rcases List.mem_append.1 hx with hx | hx
    · exact h.running x (by rw [List.dropLast_concat]; exact hx)
    · obtain rfl := List.mem_singleton.1 hx
      by_contra hends
      have := h.last x (by rw [List.getLast?_concat]; rfl) (Bool.not_eq_false _ ▸ hends)
      rw [hs] at this
      cases this

/-! ## The run over the rest -/

theorem cut_eq_nil {xs : List (Except Panic Item)} : cut endsInput xs = [] ↔ xs = [] := by
  cases xs with
  | nil => exact ⟨id, id⟩
  | cons x xs =>
    rw [cut_cons]
    exact ⟨nofun, nofun⟩

theorem cut_append {xs : List (Except Panic Item)} (ys : List (Except Panic Item))
    (hxs : ∀ x ∈ xs, endsWith endsInput x = false) :
    cut endsInput (xs ++ ys) = xs ++ cut endsInput ys := by
  induction xs with
  | nil => rfl
  | cons x xs ih =>
    rw [List.cons_append, cut_cons, hxs x List.mem_cons_self, if_neg Bool.false_ne_true,
      ih fun y hy => hxs y (List.mem_cons_of_mem x hy)]
    rfl

theorem cut_append_ends {xs : List (Except Panic Item)} {x : Except Panic Item}
    (ys : List (Except Panic Item)) (hxs : ∀ x ∈ xs, endsWith endsInput x = false)
    (hx : endsWith endsInput x = true) :
    cut endsInput (xs ++ [x] ++ ys) = xs ++ [x] := by
  rw [List.append_assoc, cut_append endsInput _ hxs, List.singleton_append, cut_cons, if_pos hx]

theorem itemsOf_resumed (streams : List (Except Panic (List (Except Panic Item)))) :
    itemsOf ((streams.map (Except.map fun stream => (⟨[], some stream⟩ : Resumed Item Panic))).map
      (Except.map Resumed.items)) = itemsOf streams := by
  induction streams with
  | nil => rfl
  | cons stream streams ih =>
    cases stream with
    | ok stream =>
      show stream ++ itemsOf _ = stream ++ itemsOf streams
      rw [ih]
    | error panic =>
      show _ :: itemsOf _ = _ :: itemsOf streams
      rw [ih]

/-- The kept items, the rest of their stream, and the streams after it. -/
theorem rest_all (s : Sequential Item Panic) (kept : List Item) :
    (s.rest kept).toStreams.all endsInput =
      cut endsInput (kept.map .ok ++ (s.current.getD [] ++
        if s.done then [] else itemsOf s.streams.streams ++ s.streams.last.toList)) := by
  obtain ⟨⟨streams, last⟩, current, done⟩ := s
  have hfirst : itemsOf (((Sequential.rest ⟨⟨streams, last⟩, current, done⟩ kept).first.toList.map
      Except.ok).map (Except.map Resumed.items)) = kept.map .ok ++ current.getD [] := by
    unfold Sequential.rest
    dsimp only
    split
    · show _ ++ [] = _
      rw [List.append_nil]
      rfl
    · rename_i hnone
      push Not at hnone
      obtain ⟨rfl, hcurrent⟩ := hnone
      cases current with
      | none => rfl
      | some current => exact absurd rfl hcurrent
  have hitems : ∀ xs ys : List (Except Panic (List (Except Panic Item))),
      itemsOf (xs ++ ys) = itemsOf xs ++ itemsOf ys := by
    intro xs ys
    induction xs with
    | nil => rfl
    | cons x xs ih =>
      cases x with
      | ok x =>
        show x ++ itemsOf (xs ++ ys) = x ++ itemsOf xs ++ itemsOf ys
        rw [ih, List.append_assoc]
      | error panic =>
        show _ :: itemsOf (xs ++ ys) = _ :: (itemsOf xs ++ itemsOf ys)
        rw [ih]
  unfold Streams.all Rest.toStreams Rest.resumed
  dsimp only
  rw [List.map_append, hitems, hfirst]
  cases done with
  | true =>
    show cut endsInput (kept.map .ok ++ current.getD [] ++ [] ++ []) =
      cut endsInput (kept.map .ok ++ (current.getD [] ++ []))
    rw [List.append_nil, List.append_nil, List.append_nil]
  | false =>
    show cut endsInput (kept.map .ok ++ current.getD [] ++ itemsOf ((streams.map (Except.map
      fun stream => (⟨[], some stream⟩ : Resumed Item Panic))).map (Except.map Resumed.items)) ++
        last.toList) = _
    rw [itemsOf_resumed, List.append_assoc, List.append_assoc]
    rfl

/-- A run over the rest of an input continues the run that was cut, the kept items
of that run's results first, unless the results end with what ended the input,
it is not kept, and its stream has more items. -/
theorem rest_continues_iff (input : Streams Item Panic) (n : Nat)
    (dropped : List (Except Panic Item)) (kept : List Item) (s : Sequential Item Panic)
    (htakes : takes (Sequential.next endsInput) n (Sequential.new input) =
      (dropped ++ kept.map .ok, s)) :
    ∃ all after, Yields (Sequential.next endsInput) (Sequential.new input) all ∧
      Yields (Sequential.next endsInput) (Sequential.new (s.rest kept).toStreams) after ∧
      (dropped ++ after = all ↔ ¬(s.done = true ∧ kept = [] ∧ s.current.getD [] ≠ [])) := by
  have htook := takes_took endsInput n (s := Sequential.new input) rfl
  rw [htakes] at htook
  refine ⟨_, _, sequential_yields endsInput input, sequential_yields endsInput _, ?_⟩
  rw [rest_all, ← left_new, htook.all_eq, List.append_assoc, List.append_cancel_left_eq]
  cases hdone : s.done with
  | false =>
    have hkept : ∀ x ∈ kept.map (Except.ok (ε := Panic)), endsWith endsInput x = false :=
      fun x hx => htook.not_ends endsInput hdone x (List.mem_append_right dropped hx)
    rw [Sequential.left, hdone, cut_append endsInput _ hkept]
    simp
  | true =>
    rw [Sequential.left, if_pos hdone, if_pos rfl, List.append_nil, List.append_nil]
    rcases List.eq_nil_or_concat kept with rfl | ⟨kept, item, rfl⟩
    · rw [List.map_nil, List.nil_append, cut_eq_nil]
      simp
    · have hrunning : ∀ x ∈ kept.map (Except.ok (ε := Panic)), endsWith endsInput x = false := by
        intro x hx
        refine htook.running x ?_
        rw [List.concat_eq_append, List.map_append, ← List.append_assoc, List.map_singleton,
          List.dropLast_concat]
        exact List.mem_append_right dropped hx
      have hlast : (dropped ++ (kept.concat item).map (Except.ok (ε := Panic))).getLast? =
          some (.ok item) := by
        rw [List.concat_eq_append, List.map_append, ← List.append_assoc, List.map_singleton,
          List.getLast?_concat]
      refine ⟨fun _ h => ?_, fun _ => ?_⟩
      · rw [List.concat_eq_append] at h
        exact List.append_ne_nil_of_right_ne_nil kept (List.cons_ne_nil item []) h.2.1
      · rw [List.concat_eq_append, List.map_append, List.map_singleton]
        by_cases hends : endsWith endsInput (Except.ok item : Except Panic Item) = true
        · exact cut_append_ends endsInput _ hrunning hends
        · -- The input ended otherwise, so no stream is open.
          have hcurrent : s.current.getD [] = [] := by
            by_contra hcurrent
            obtain ⟨x, hx, hends'⟩ := htook.done hdone hcurrent
            rw [hlast] at hx
            cases hx
            exact hends hends'
          rw [hcurrent, List.append_nil, cut_append endsInput _ hrunning, cut_singleton]

/-- An item that ends the input, with another after it in its stream. -/
def endedInput : Streams Nat Nat := ⟨[.ok [.ok 9, .ok 2]], none⟩

/-- After the item that ended the input a run over the rest gives the other one. -/
theorem rest_reads_past_end :
    ¬ ∀ (input : Streams Nat Nat) (n : Nat) (all after : List (Except Nat Nat)),
      Yields (Sequential.next (· == 9)) (Sequential.new input) all →
      Yields (Sequential.next (· == 9)) (Sequential.new (((takes (Sequential.next (· == 9)) n
        (Sequential.new input)).2.rest []).toStreams)) after →
      (takes (Sequential.next (· == 9)) n (Sequential.new input)).1 ++ after = all := by
  intro h
  have hall : Yields (Sequential.next (· == 9)) (Sequential.new endedInput) [.ok 9] :=
    .item rfl (.done rfl)
  have hafter : Yields (Sequential.next (· == 9)) (Sequential.new (((takes
      (Sequential.next (· == 9)) 1 (Sequential.new endedInput)).2.rest []).toStreams)) [.ok 2] :=
    .item rfl (.done rfl)
  have hsame := h endedInput 1 _ _ hall hafter
  exact absurd (congrArg List.length hsame) (by decide)

/-- With the item kept, it ends the run over the rest as well. -/
theorem rest_continues_kept :
    ∃ all after, Yields (Sequential.next (· == 9)) (Sequential.new endedInput) all ∧
      Yields (Sequential.next (· == 9)) (Sequential.new
        (((takes (Sequential.next (· == 9)) 1 (Sequential.new endedInput)).2.rest [9]).toStreams))
        after ∧
      ([] ++ after = all ↔
        ¬((takes (Sequential.next (· == 9)) 1 (Sequential.new endedInput)).2.done = true ∧
          [9] = ([] : List Nat) ∧
          (takes (Sequential.next (· == 9)) 1 (Sequential.new endedInput)).2.current.getD [] ≠
            ([] : List (Except Nat Nat)))) :=
  rest_continues_iff (· == 9) endedInput 1 [] [9] _ rfl

end

end

end Parallel

end Xeibe

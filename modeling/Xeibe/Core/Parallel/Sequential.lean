import Xeibe.Core.Parallel.Model

/-!
# What an input yields

`Streams.all` is the items of an input in order: those of its streams up to
the first that ends the input, and the last item.  It is what `Sequential`
yields, and what the pool is compared with.
-/

namespace Xeibe

namespace Parallel

open Lib (Yields)

section

variable {Item Result Panic : Type} (endsInput : Item → Bool)

/-- The items of streams in order; a panic of `next_stream` stands in its
place. -/
def itemsOf : List (Except Panic (List (Except Panic Item))) → List (Except Panic Item)
  | [] => []
  | .ok stream :: streams => stream ++ itemsOf streams
  | .error panic :: streams => .error panic :: itemsOf streams

/-- Up to the first item that ends the input, or the first panic. -/
def cut : List (Except Panic Item) → List (Except Panic Item)
  | [] => []
  | .ok item :: items => .ok item :: (if endsInput item then [] else cut items)
  | .error panic :: _ => [.error panic]

/-- All that is taken from an input, in order. -/
def Streams.all (input : Streams Item Panic) : List (Except Panic Item) :=
  cut endsInput (itemsOf input.streams ++ input.last.toList)

/-- Whether nothing is taken after an item. -/
def endsWith : Except Panic Item → Bool
  | .ok item => endsInput item
  | .error _ => true

theorem cut_cons (item : Except Panic Item) (items : List (Except Panic Item)) :
    cut endsInput (item :: items) =
      item :: (if endsWith endsInput item = true then [] else cut endsInput items) := by
  cases item <;> rfl

@[simp] theorem cut_singleton (item : Except Panic Item) : cut endsInput [item] = [item] := by
  rw [cut_cons]
  split <;> rfl

theorem sequential_yields_from (last : Option (Except Panic Item))
    (streams : List (Except Panic (List (Except Panic Item)))) :
    ∀ current : List (Except Panic Item),
      Yields (Sequential.next endsInput) ⟨⟨streams, last⟩, some current, false⟩
        (cut endsInput (current ++ (itemsOf streams ++ last.toList))) := by
  have hdone : ∀ s : Sequential Item Panic, s.done = true →
      Yields (Sequential.next endsInput) s [] := by
    intro s hs
    exact .done (by rw [Sequential.next, if_pos hs])
  induction streams with
  | nil =>
    intro current
    induction current with
    | nil =>
      cases last with
      | none => exact .done rfl
      | some item =>
        show Yields _ _ (cut endsInput [item])
        rw [cut_singleton]
        exact .item rfl (hdone _ rfl)
    | cons item rest ih =>
      rw [List.cons_append, cut_cons]
      cases item with
      | error panic => exact .item rfl (hdone _ rfl)
      | ok item =>
        refine .item rfl ?_
        show Yields _ _ (if endsInput item = true then [] else _)
        split
        · rename_i hends
          exact hdone _ hends
        · rename_i hends
          rw [Bool.eq_false_iff.2 hends]
          exact ih
  | cons stream streams ihs =>
    intro current
    induction current with
    | nil =>
      cases stream with
      | ok stream => exact (List.append_assoc stream _ _ ▸ ihs stream).congr rfl
      | error panic => exact .item rfl (hdone _ rfl)
    | cons item rest ih =>
      rw [List.cons_append, cut_cons]
      cases item with
      | error panic => exact .item rfl (hdone _ rfl)
      | ok item =>
        refine .item rfl ?_
        show Yields _ _ (if endsInput item = true then [] else _)
        split
        · rename_i hends
          exact hdone _ hends
        · rename_i hends
          rw [Bool.eq_false_iff.2 hends]
          exact ih

theorem sequential_yields (input : Streams Item Panic) :
    Yields (Sequential.next endsInput) (Sequential.new input) (input.all endsInput) := by
  refine (sequential_yields_from endsInput input.last input.streams []).congr ?_
  unfold Sequential.next Sequential.new
  rw [if_neg Bool.false_ne_true, if_neg Bool.false_ne_true]
  cases hstreams : input.streams with
  | nil => rfl
  | cons stream streams => cases stream <;> rfl

theorem inline_yields (job : Job Item Result Panic) (input : Streams Item Panic) :
    Yields (inlineNext job) (Sequential.new input)
      ((input.all job.endsInput).map job.apply) :=
  (sequential_yields job.endsInput input).map job.apply

end

end Parallel

end Xeibe

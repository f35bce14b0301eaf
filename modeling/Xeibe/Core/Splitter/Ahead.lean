import Xeibe.Core.DecodeAhead.Transparent
import Xeibe.Core.Splitter.Correct

/-!
# Splitting a stream that is decoded ahead

The splitter reads a stream whose blocks helper threads decode ahead of it.  What the
threads do shows neither in the chunks nor in the end of the run.
-/

namespace Xeibe.Splitter

open Lib ReadStream DecodeAhead

variable {σ ε : Type} {start rest : Rest UInt8 ε} {log : Log UInt8 ε}

/-- The reads that gave bytes. -/
def reads (log : Log UInt8 ε) : List Read :=
  log.filterMap fun (_, answer) =>
    match answer with
    | .ok (b :: bytes) => some (.bytes (b :: bytes))
    | _ => none

theorem delivers_reads (h : Transcript start log rest) : Delivers (reads log) log.received := by
  induction h with
  | nil rest => exact .done
  | cons hfirst _ ih =>
    cases hfirst with
    | data hxs hn =>
      obtain ⟨b, bytes, rfl⟩ := List.exists_cons_of_ne_nil hxs
      exact .bytes hxs ih
    | empty => exact ih
    | eof hn => exact ih
    | error hn => exact ih

theorem received_of_outcome (h : Transcript start log rest) (hended : log.outcome.isSome) :
    log.received = start.bytes := by
  suffices hrest : rest.bytes = [] by
    rw [← h.received, hrest, List.append_nil]
  induction h with
  | nil rest => cases hended
  | @cons _ _ _ log n _ hfirst h ih =>
    cases hfirst with
    | empty => exact ih hended
    | data hxs hn =>
      obtain ⟨b, bytes, rfl⟩ := List.exists_cons_of_ne_nil hxs
      rw [Log.outcome, Option.isSome_map] at hended
      exact ih hended
    | eof hn => exact (List.append_eq_nil_iff.1 h.received).2
    | error hn => exact (List.append_eq_nil_iff.1 h.received).2

/-- Whatever the helpers and the reader of a stream do, and whatever the sizes of its
reads, the splitter comes to the chunks and the outcome of all the bytes in one read; and
where the run over a document ends, the chunks hold its features. -/
theorem chunks_ahead {read : σ → Nat → ReadStream.Outcome UInt8 ε × σ} {reader : σ} {input : Bytes}
    (h : ReadStream.Delivers read reader input .eof) {helpers : Nat}
    {events : List DecodeAhead.Event} {s : Ahead σ ε}
    (hrun : run (Ahead.step read) (Ahead.new reader helpers) events = some s)
    (hended : s.log.outcome.isSome) (quickXml : Bytes → Option Bytes) (source : Nat)
    (options : SplitterOptions) :
    (new (reads s.log) source options).chunks quickXml =
      (ofInput input source options).chunks quickXml ∧
    ((new (reads s.log) source options).chunks quickXml).2 ≠ .outOfTurns ∧
    ∀ (doc : Document) (chunks : List FeatureChunk), input = doc.render →
      (new (reads s.log) source options).chunks quickXml = (chunks, .ended) →
        Cover 0 (doc.features quickXml options isBoundedBy) chunks := by
  obtain ⟨rest, htranscript⟩ := Ahead.transcript_of_run h hrun
  have hdelivers := delivers_reads htranscript
  rw [received_of_outcome htranscript hended] at hdelivers
  refine ⟨chunks_delivers hdelivers quickXml source options,
    chunks_terminates hdelivers quickXml source options, ?_⟩
  rintro doc chunks rfl hchunks
  exact (chunks_emit doc hdelivers source hchunks).2 rfl

/-- A helper queues the block before the splitter asks for it, and again at its end. -/
def splitEvents : List DecodeAhead.Event :=
  List.replicate 7 (.helper 0) ++ .call 8 :: List.replicate 4 .reader ++
    .call 8 :: List.replicate 8 .reader

theorem chunks_ahead_helped :
    ∃ s : Ahead Bytes Empty,
      run (Ahead.step readList) (Ahead.new (utf8 "<a/>") 1) splitEvents = some s ∧
      (new (reads s.log) 0 .default).chunks some =
        (ofInput (utf8 "<a/>") 0 .default).chunks some := by
  have hrun : ∃ s : Ahead Bytes Empty,
      run (Ahead.step readList) (Ahead.new (utf8 "<a/>") 1) splitEvents = some s ∧
        s.log.outcome.isSome := ⟨_, rfl, rfl⟩
  obtain ⟨s, hrun, hended⟩ := hrun
  exact ⟨s, hrun, (chunks_ahead (delivers_readList _) hrun hended some 0 .default).1⟩

end Xeibe.Splitter

import Xeibe.Lib.ReadStream
import Xeibe.Lib.System

/-!
# Decoding ahead of a reader

A decoded stream is shared by its reader and by helper threads that decode
ahead of it.  Blocks are queued while the decoder is locked.  The reader takes
queued blocks first and decodes one itself when there is none.

The model has one stream.  `DecodeAhead::help` goes through the open streams
and calls `decode_ahead` of each until one has something to do; to one of them
this is a call of `decode_ahead` at any time by any helper.  Every lock that is
taken, every access to what is shared and every read of the decoder is a step
of its own.
-/

namespace Xeibe.DecodeAhead

open Xeibe.Lib Xeibe.Lib.ReadStream

/-- Bytes decoded at a time. -/
def AHEAD_BLOCK : Nat := 256 * 1024

/-- Blocks that may wait for the reader. -/
def AHEAD_BLOCKS : Nat := 16

abbrev Bytes := List UInt8

/-- A decoded block, or the error that ended the stream. -/
abbrev Block (ε : Type) := Except ε Bytes

variable {σ ε : Type}

/-! ## The decoder -/

structure AheadDecoder (σ ε : Type) where
  reader : σ
  done : Bool
  /-- An error after the data read with it, for the next block. -/
  error : Option ε

/-- Where a call of `block` is. -/
inductive Decoding (ε : Type) where
  | starting
  /-- In the loop, with what has been read of the block. -/
  | reading (block : Bytes)
  | finished (result : Option (Block ε))

namespace AheadDecoder

variable (read : σ → Nat → Outcome UInt8 ε × σ)

/-- `(len > 0).then_some(Ok(block))`. -/
def nonEmpty (block : Bytes) : Option (Block ε) :=
  if block.length > 0 then some (.ok block) else none

/-- One read of the decoder in `block`, into what is left of it. -/
def readOn (decoder : AheadDecoder σ ε) (block : Bytes) : Decoding ε × AheadDecoder σ ε :=
  match read decoder.reader (AHEAD_BLOCK - block.length) with
  | (.data [], reader) => (.finished (nonEmpty block), { decoder with reader, done := true })
  | (.data bytes, reader) => (.reading (block ++ bytes), { decoder with reader })
  | (.interrupted, reader) => (.reading block, { decoder with reader })
  | (.failed e, reader) =>
    if block.length = 0 then
      (.finished (some (.error e)), { decoder with reader, done := true })
    else
      (.finished (nonEmpty block), { reader, done := true, error := some e })

/-- The next step of `block`. -/
def advance (decoder : AheadDecoder σ ε) : Decoding ε → Decoding ε × AheadDecoder σ ε
  | .starting =>
    match decoder.error with
    | some e => (.finished (some (.error e)), { decoder with error := none })
    | none => if decoder.done then (.finished none, decoder) else (.reading [], decoder)
  | .reading block =>
    if block.length < AHEAD_BLOCK then decoder.readOn read block
    else (.finished (nonEmpty block), decoder)
  | .finished result => (.finished result, decoder)

end AheadDecoder

/-! ## The threads -/

inductive Thread where
  | helper (i : Nat)
  | reader
deriving DecidableEq, Repr

/-- Where a helper is in `decode_ahead`. -/
inductive Helper (ε : Type) where
  /-- Between two calls. -/
  | idle
  /-- There is room: about to try the decoder's lock. -/
  | trying
  /-- In `block`, the decoder locked; then about to queue its result. -/
  | decoding (d : Decoding ε)
  /-- About to let go of the decoder. -/
  | releasing

/-- Where the reader is in `read`, the buffer of size `n`. -/
inductive Reader (ε : Type) where
  /-- Between two calls. -/
  | idle
  /-- About to read what is left of the current block. -/
  | reading (n : Nat)
  /-- `next_block`: about to take a queued block. -/
  | popping (n : Nat)
  /-- None is queued: about to lock the decoder. -/
  | locking (n : Nat)
  /-- The decoder locked: about to look for a block queued meanwhile. -/
  | poppingLocked (n : Nat)
  /-- In `block`. -/
  | decoding (n : Nat) (d : Decoding ε)
  /-- About to let go of the decoder, with what `next_block` returns. -/
  | releasing (n : Nat) (result : Option (Block ε))
  /-- `next_block` has returned. -/
  | taking (n : Nat) (result : Option (Block ε))

/-- What the threads of a stream share, where each of them is, and what the
reader holds.  `log` is what `read` has returned so far. -/
structure Ahead (σ ε : Type) where
  -- `AheadShared`
  decoder : AheadDecoder σ ε
  lock : Option Thread
  blocks : List (Block ε)
  -- the threads
  helpers : List (Helper ε)
  reader : Reader ε
  -- `AheadReader`
  current : Bytes
  log : Log UInt8 ε

inductive Event where
  /-- The next step of helper `i`. -/
  | helper (i : Nat)
  /-- `read` is called, with a buffer of size `n`. -/
  | call (n : Nat)
  /-- The next step of the reader. -/
  | reader
deriving DecidableEq, Repr

namespace Ahead

variable (read : σ → Nat → Outcome UInt8 ε × σ)

/-- A stream that has just been opened. -/
def new (reader : σ) (helpers : Nat) : Ahead σ ε where
  decoder := { reader, done := false, error := none }
  lock := none
  blocks := []
  helpers := List.replicate helpers .idle
  reader := .idle
  current := []
  log := []

variable (s : Ahead σ ε)

/-- Helper `i` goes on to `phase`. -/
def setHelper (i : Nat) (phase : Helper ε) : Ahead σ ε :=
  { s with helpers := s.helpers.set i phase }

/-- `read` returns. -/
def answer (n : Nat) (result : Except ε Bytes) : Ahead σ ε :=
  { s with reader := .idle, log := s.log ++ [(n, result)] }

/-- `decode_ahead`. -/
def helperStep (i : Nat) : Helper ε → Ahead σ ε
  | .idle => if s.blocks.length ≥ AHEAD_BLOCKS then s else s.setHelper i .trying
  | .trying =>
    if s.lock = none then
      { s.setHelper i (.decoding .starting) with lock := some (.helper i) }
    else
      s.setHelper i .idle
  | .decoding (.finished (some block)) =>
    { s.setHelper i .releasing with blocks := s.blocks ++ [block] }
  | .decoding (.finished none) => s.setHelper i .releasing
  | .decoding d =>
    let (d, decoder) := s.decoder.advance read d
    { s.setHelper i (.decoding d) with decoder }
  | .releasing => { s.setHelper i .idle with lock := none }

/-- `read` and `next_block`; `none` while the reader waits for the decoder or
is not called. -/
def readerStep : Reader ε → Option (Ahead σ ε)
  | .idle => none
  | .reading n =>
    let bytes := s.current.take n
    let s := { s with current := s.current.drop n }
    if bytes.length > 0 ∨ n = 0 then some (s.answer n (.ok bytes))
    else some { s with reader := .popping n }
  | .popping n =>
    match s.blocks with
    | block :: rest => some { s with blocks := rest, reader := .taking n (some block) }
    | [] => some { s with reader := .locking n }
  | .locking n =>
    if s.lock = none then some { s with lock := some .reader, reader := .poppingLocked n } else none
  | .poppingLocked n =>
    match s.blocks with
    | block :: rest => some { s with blocks := rest, reader := .releasing n (some block) }
    | [] => some { s with reader := .decoding n .starting }
  | .decoding n (.finished result) => some { s with reader := .releasing n result }
  | .decoding n d =>
    let (d, decoder) := s.decoder.advance read d
    some { s with decoder, reader := .decoding n d }
  | .releasing n result => some { s with lock := none, reader := .taking n result }
  | .taking n (some (.ok block)) => some { s with current := block, reader := .reading n }
  | .taking n (some (.error e)) => some (s.answer n (.error e))
  | .taking n none => some (s.answer n (.ok []))

/-- One step of a thread. -/
def step (s : Ahead σ ε) : Event → Option (Ahead σ ε)
  | .helper i => (s.helpers[i]?).map (s.helperStep read i)
  | .call n =>
    match s.reader with
    | .idle => some { s with reader := .reading n }
    | _ => none
  | .reader => s.readerStep read s.reader

end Ahead

end Xeibe.DecodeAhead

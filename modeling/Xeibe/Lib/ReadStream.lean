import Mathlib.Data.List.Basic
import Mathlib.Tactic.Cases

/-!
# Delivers that are read in pieces

A reader is a state and a function that answers a read into a buffer of a
given size: with at least one element and no more than the buffer takes, with
nothing at the end, with an interruption that is to be tried again, or with an
error.  `Delivers read s bytes ending` says that the reader gives `bytes` and
then `ending`, whatever the sizes of the buffers.

`Transcript` is the same from the outside: the answers to a sequence of reads,
which a reader of `bytes` and `ending` may give.  Two transcripts of one stream
can differ in where they cut it, but not in what they make of it
(`Transcript.outcome`).
-/

namespace Xeibe.Lib.ReadStream

variable {σ β ε : Type}

/-- What follows the last element. -/
inductive Ending (ε : Type) where
  | eof
  | error (error : ε)
deriving DecidableEq, Repr

/-- The answer to one read. -/
inductive Outcome (β ε : Type) where
  | data (bytes : List β)
  | interrupted
  | failed (error : ε)
deriving DecidableEq, Repr

/-- The reader in state `s` gives `bytes` and then `ending`.  Interruptions
come to an end. -/
inductive Delivers (read : σ → Nat → Outcome β ε × σ) : σ → List β → Ending ε → Prop where
  | intro {s : σ} {bytes : List β} {ending : Ending ε}
      (eof : ∀ n s', 0 < n → read s n = (.data [], s') → bytes = [] ∧ ending = .eof)
      (data : ∀ n x xs s', 0 < n → read s n = (.data (x :: xs), s') →
        (x :: xs).length ≤ n ∧ x :: xs <+: bytes)
      (next : ∀ n x xs s', 0 < n → read s n = (.data (x :: xs), s') →
        Delivers read s' (bytes.drop (x :: xs).length) ending)
      (interrupted : ∀ n s', 0 < n → read s n = (.interrupted, s') → Delivers read s' bytes ending)
      (failed : ∀ n e s', 0 < n → read s n = (.failed e, s') → bytes = [] ∧ ending = .error e) :
      Delivers read s bytes ending

/-- What is still to come. -/
structure Rest (β ε : Type) where
  bytes : List β
  ending : Ending ε
deriving DecidableEq, Repr

/-- An answer to a read into a buffer of size `n`, and what is left after it.
After an error there is nothing more. -/
inductive Answers : Rest β ε → Nat → Except ε (List β) → Rest β ε → Prop where
  | empty (rest : Rest β ε) : Answers rest 0 (.ok []) rest
  | data {n : Nat} {xs bytes : List β} {ending : Ending ε} (hxs : xs ≠ []) (hn : xs.length ≤ n) :
      Answers ⟨xs ++ bytes, ending⟩ n (.ok xs) ⟨bytes, ending⟩
  | eof {n : Nat} (hn : 0 < n) : Answers ⟨[], .eof⟩ n (.ok []) ⟨[], .eof⟩
  | error {n : Nat} {e : ε} (hn : 0 < n) : Answers ⟨[], .error e⟩ n (.error e) ⟨[], .eof⟩

/-- The sizes of the reads so far, each with its answer. -/
abbrev Log (β ε : Type) := List (Nat × Except ε (List β))

/-- The answers of a stream to the reads so far, and what is left. -/
inductive Transcript : Rest β ε → Log β ε → Rest β ε → Prop where
  | nil (rest : Rest β ε) : Transcript rest [] rest
  | cons {start middle rest : Rest β ε} {log : Log β ε} {n : Nat} {answer : Except ε (List β)}
      (hn : Answers start n answer middle) (h : Transcript middle log rest) :
      Transcript start ((n, answer) :: log) rest

namespace Log

/-- The elements received. -/
def received (log : Log β ε) : List β :=
  log.flatMap fun (_, answer) =>
    match answer with
    | .ok bytes => bytes
    | .error _ => []

/-- What the reads make of the stream: the elements up to the first answer that
says it has ended, and that answer.  `none` while there is no such answer. -/
def outcome : Log β ε → Option (List β × Ending ε)
  | [] => none
  | (_, .error e) :: _ => some ([], .error e)
  | (n, .ok []) :: rest => if n = 0 then outcome rest else some ([], .eof)
  | (_, .ok (x :: xs)) :: rest => (outcome rest).map fun (bytes, ending) => (x :: xs ++ bytes, ending)

end Log

/-! ## Transcripts -/

variable {start rest rest' : Rest β ε} {log : Log β ε} {n : Nat} {answer : Except ε (List β)}

theorem Transcript.snoc (h : Transcript start log rest) (hn : Answers rest n answer rest') :
    Transcript start (log ++ [(n, answer)]) rest' := by
  induction h with
  | nil rest => exact .cons hn (.nil rest')
  | cons hfirst _ ih => exact .cons hfirst (ih hn)

theorem Transcript.received (h : Transcript start log rest) :
    log.received ++ rest.bytes = start.bytes := by
  induction h with
  | nil rest => rfl
  | cons hfirst _ ih =>
    rw [Log.received, List.flatMap_cons, List.append_assoc, ← Log.received, ih]
    cases hfirst <;> rfl

/-- Reads that come to an end have made of the stream what it is. -/
theorem Transcript.outcome (h : Transcript start log rest) {bytes : List β} {ending : Ending ε}
    (houtcome : log.outcome = some (bytes, ending)) : start = ⟨bytes, ending⟩ := by
  induction h generalizing bytes ending with
  | nil rest => simp [Log.outcome] at houtcome
  | cons hfirst _ ih =>
    cases hfirst with
    | empty rest => exact ih (by simpa [Log.outcome] using houtcome)
    | @data n xs others ending' hxs hn =>
      obtain ⟨x, xs, rfl⟩ := List.exists_cons_of_ne_nil hxs
      rw [Log.outcome, Option.map_eq_some_iff] at houtcome
      obtain ⟨⟨bytes', ending''⟩, hrest, heq⟩ := houtcome
      cases ih hrest
      cases heq
      rfl
    | eof hn =>
      simp only [Log.outcome, if_neg (Nat.ne_of_gt hn), Option.some.injEq, Prod.mk.injEq] at houtcome
      rw [← houtcome.1, ← houtcome.2]
    | error hn =>
      simp only [Log.outcome, Option.some.injEq, Prod.mk.injEq] at houtcome
      rw [← houtcome.1, ← houtcome.2]

/-- More reads into buffers that hold something than there are elements come to
the end. -/
theorem Transcript.outcome_isSome (h : Transcript start log rest)
    (hreads : start.bytes.length < log.countP fun (n, _) => 0 < n) : log.outcome.isSome := by
  induction h with
  | nil rest => simp at hreads
  | cons hfirst _ ih =>
    cases hfirst with
    | empty rest =>
      have h := ih (by simpa using hreads)
      simpa [Log.outcome] using h
    | @data n xs others ending' hxs hn =>
      obtain ⟨x, xs, rfl⟩ := List.exists_cons_of_ne_nil hxs
      have h := ih (by
        simp only [List.countP_cons, List.cons_append, List.length_cons, List.length_append] at hreads ⊢
        split at hreads <;> omega)
      rw [Log.outcome, Option.isSome_map]
      exact h
    | eof hn => simp [Log.outcome, Nat.ne_of_gt hn]
    | error hn => rfl

/-! ## Reading without a buffer -/

/-- The answers of a reader that is read until it ends, an interrupted read
tried again. -/
inductive PlainReads (read : σ → Nat → Outcome β ε × σ) : σ → Log β ε → Prop where
  | stop (s : σ) : PlainReads read s []
  | empty {s : σ} {log : Log β ε} (h : PlainReads read s log) :
      PlainReads read s ((0, .ok []) :: log)
  | interrupted {s s' : σ} {n : Nat} {log : Log β ε} (hn : 0 < n)
      (hread : read s n = (.interrupted, s')) (h : PlainReads read s' log) : PlainReads read s log
  | data {s s' : σ} {n : Nat} {x : β} {xs : List β} {log : Log β ε} (hn : 0 < n)
      (hread : read s n = (.data (x :: xs), s')) (h : PlainReads read s' log) :
      PlainReads read s ((n, .ok (x :: xs)) :: log)
  | eof {s s' : σ} {n : Nat} (hn : 0 < n) (hread : read s n = (.data [], s')) :
      PlainReads read s [(n, .ok [])]
  | failed {s s' : σ} {n : Nat} {e : ε} (hn : 0 < n) (hread : read s n = (.failed e, s')) :
      PlainReads read s [(n, .error e)]

theorem PlainReads.transcript {read : σ → Nat → Outcome β ε × σ} {s : σ} {log : Log β ε}
    (hplain : PlainReads read s log) {bytes : List β} {ending : Ending ε}
    (h : Delivers read s bytes ending) : ∃ rest, Transcript ⟨bytes, ending⟩ log rest := by
  induction hplain generalizing bytes with
  | stop s => exact ⟨_, .nil _⟩
  | empty _ ih =>
    obtain ⟨rest, hrest⟩ := ih h
    exact ⟨rest, .cons (.empty _) hrest⟩
  | interrupted hn hread _ ih =>
    cases h with
    | intro _ _ _ hinterrupted _ => exact ih (hinterrupted _ _ hn hread)
  | data hn hread _ ih =>
    cases h with
    | intro _ hdata hnext _ _ =>
      obtain ⟨hle, others, rfl⟩ := hdata _ _ _ _ hn hread
      have hs' := hnext _ _ _ _ hn hread
      rw [List.drop_left] at hs'
      obtain ⟨rest, hrest⟩ := ih hs'
      exact ⟨rest, .cons (.data (List.cons_ne_nil _ _) hle) hrest⟩
  | eof hn hread =>
    cases h with
    | intro heof _ _ _ _ =>
      obtain ⟨rfl, rfl⟩ := heof _ _ hn hread
      exact ⟨_, .cons (.eof hn) (.nil _)⟩
  | failed hn hread =>
    cases h with
    | intro _ _ _ _ hfailed =>
      obtain ⟨rfl, rfl⟩ := hfailed _ _ _ hn hread
      exact ⟨_, .cons (.error hn) (.nil _)⟩

/-- A list that is read from its front. -/
def readList (s : List β) (n : Nat) : Outcome β ε × List β := (.data (s.take n), s.drop n)

theorem delivers_readList (s : List β) :
    Delivers (readList : List β → Nat → Outcome β ε × List β) s s .eof := by
  induction hlength : s.length using Nat.strongRecOn generalizing s with
  | ind length ih =>
    have hread : ∀ {n xs s'}, readList s n = ((.data xs, s') : Outcome β ε × List β) →
        s.take n = xs ∧ s.drop n = s' := by
      intro n xs s' h
      cases h
      exact ⟨rfl, rfl⟩
    refine .intro ?_ ?_ ?_ nofun nofun
    · intro n s' hn h
      obtain ⟨htake, -⟩ := hread h
      rcases List.take_eq_nil_iff.1 htake with hzero | hnil
      · omega
      · exact ⟨hnil, rfl⟩
    · intro n x xs s' hn h
      obtain ⟨htake, -⟩ := hread h
      rw [← htake]
      exact ⟨List.length_take_le n s, List.take_prefix n s⟩
    · intro n x xs s' hn h
      obtain ⟨htake, rfl⟩ := hread h
      have hdrop : s.drop (x :: xs).length = s.drop n := by
        rw [← htake, List.length_take]
        rcases Nat.le_total n s.length with hle | hle
        · rw [Nat.min_eq_left hle]
        · rw [Nat.min_eq_right hle, List.drop_length, List.drop_of_length_le hle]
      have hne : s ≠ [] := by
        rintro rfl
        simp at htake
      have hpos : 0 < s.length := List.length_pos_iff.2 hne
      rw [hdrop]
      refine ih (s.drop n).length ?_ (s.drop n) rfl
      rw [List.length_drop]
      omega

end Xeibe.Lib.ReadStream

import Mathlib.Data.List.TakeWhile
import Xeibe.Lib.Pieces
import Xeibe.Reproject.Grid.Parse

/-!
# Loaded ranges as one sparse file

Inserting bytes merges them with every chunk they overlap or touch, so the chunks
stay apart and what the file has at a place is what was inserted there last.
-/

namespace Xeibe.Reproject.Grid

open Xeibe.Lib
open Xeibe.Lib.Checked

/-- The bytes written to a file in turn, each with its offset: what is at a place
in the end. -/
def written (inserts : List (Nat × Bytes)) (i : Nat) : Option UInt8 :=
  inserts.foldl (fun before insert => (KnownPiece.value insert i).or before) none

namespace Ranges

/-! ## One insert -/

/-- What is read after a slice is copied in. -/
theorem getElem?_of_overwrite {xs ys zs : Bytes} {start : Nat}
    (h : (overwrite xs start ys : Reading Bytes) = .ok zs) (i : Nat) :
    zs.length = xs.length ∧
      zs[i]? = if start ≤ i ∧ i < start + ys.length then ys[i - start]? else xs[i]? := by
  rw [overwrite] at h
  split at h
  · rename_i hfits
    cases h
    refine ⟨by simp; omega, ?_⟩
    rw [List.append_assoc, List.getElem?_append, List.getElem?_append, List.length_take,
      Nat.min_eq_left (by omega), List.getElem?_take, List.getElem?_drop]
    split
    · rename_i hlt
      rw [if_neg (by omega)]
    · rename_i hge
      split
      · rw [if_pos (by omega)]
      · rw [if_neg (by omega)]
        congr 1
        omega
  · cases h

/-- The merged chunk has the new bytes, and the old ones beside them. -/
theorem merge_spec {start : Nat} {bytes : Bytes} {chunk m : Nat × Bytes}
    (htouch : chunk.1 ≤ start + bytes.length ∧ start ≤ KnownPiece.stop chunk)
    (h : merge start bytes chunk = .ok m) :
    m.1 = min start chunk.1 ∧
      KnownPiece.stop m = max (start + bytes.length) (KnownPiece.stop chunk) ∧
      ∀ i, KnownPiece.value m i =
        (KnownPiece.value (start, bytes) i).or (KnownPiece.value chunk i) := by
  rw [KnownPiece.stop] at htouch
  rw [merge] at h
  obtain ⟨first, hfirst, h⟩ := bind_eq_ok.1 h
  obtain ⟨second, hsecond, h⟩ := bind_eq_ok.1 h
  cases h
  have hlength : second.length =
      max (start + bytes.length) (chunk.1 + chunk.2.length) - min start chunk.1 := by
    rw [(getElem?_of_overwrite hsecond 0).1, (getElem?_of_overwrite hfirst 0).1,
      List.length_replicate]
  refine ⟨rfl, ?_, fun i => ?_⟩
  · simp only [KnownPiece.stop, hlength]
    omega
  · simp only [KnownPiece.value, (getElem?_of_overwrite hsecond _).2,
      (getElem?_of_overwrite hfirst _).2]
    by_cases hnew : start ≤ i ∧ i < start + bytes.length
    · rw [if_pos (by omega), if_pos (by omega), if_pos hnew.1,
        show i - min start chunk.1 - (start - min start chunk.1) = i - start by omega,
        List.getElem?_eq_getElem (by omega)]
      rfl
    · have hnone : (if start ≤ i then bytes[i - start]? else none) = none := by
        split
        · exact List.getElem?_eq_none (by omega)
        · rfl
      rw [hnone, Option.none_or]
      by_cases hold : chunk.1 ≤ i ∧ i < chunk.1 + chunk.2.length
      · rw [if_pos (by omega), if_neg (by omega), if_pos (by omega), if_pos hold.1]
        congr 1
        omega
      · -- outside of both: they touch, so there is nothing between them
        have hold' : (if chunk.1 ≤ i then chunk.2[i - chunk.1]? else none) = none := by
          split
          · exact List.getElem?_eq_none (by omega)
          · rfl
        rw [hold']
        split
        · rw [if_neg (by omega), if_neg (by omega)]
          exact List.getElem?_eq_none (by rw [List.length_replicate]; omega)
        · rfl

theorem le_of_mem_dropWhile {chunks : List (Nat × Bytes)} (h : Separated chunks) {start : Nat}
    {c : Nat × Bytes} (hc : c ∈ chunks.dropWhile fun c => c.1 < start) : start ≤ c.1 := by
  induction chunks with
  | nil => cases hc
  | cons d chunks ih =>
    rw [List.dropWhile_cons] at hc
    split at hc
    · exact ih (h.sublist (List.sublist_cons_self _ _)) hc
    · rename_i hge
      rw [decide_eq_true_iff, Nat.not_lt] at hge
      rcases List.mem_cons.1 hc with rfl | hc
      · exact hge
      · have hgap := (List.pairwise_cons.1 h.gaps).1 c hc
        rw [KnownPiece.stop] at hgap
        omega

theorem place_separated {chunks : List (Nat × Bytes)} {chunk : Nat × Bytes}
    (hchunks : Separated chunks) (hne : chunk.2 ≠ [])
    (hapart : ∀ c ∈ chunks, c.1 ≤ KnownPiece.stop chunk → KnownPiece.stop c < chunk.1) :
    Separated (place chunks chunk) := by
  have hstart : ∀ c ∈ chunks.dropWhile fun c => c.1 < chunk.1, KnownPiece.stop chunk < c.1 := by
    intro c hc
    have hle := le_of_mem_dropWhile hchunks hc
    by_contra hreach
    have hstop := hapart c ((List.dropWhile_sublist _).mem hc) (Nat.not_lt.1 hreach)
    rw [KnownPiece.stop] at hstop
    omega
  have hfront : ∀ c ∈ chunks.takeWhile fun c => c.1 < chunk.1, KnownPiece.stop c < chunk.1 := by
    intro c hc
    have hlt := List.mem_takeWhile_imp hc
    rw [decide_eq_true_iff] at hlt
    exact hapart c ((List.takeWhile_sublist _).mem hc) (Nat.le_trans hlt.le (Nat.le_add_right _ _))
  constructor
  · intro c hc
    rcases mem_place hc with rfl | hc
    · exact hne
    · exact hchunks.ne_nil c hc
  · rw [place, List.pairwise_append, List.pairwise_cons]
    refine ⟨(hchunks.sublist (List.takeWhile_sublist _)).gaps,
      ⟨hstart, (hchunks.sublist (List.dropWhile_sublist _)).gaps⟩, ?_⟩
    intro a ha b hb
    rcases List.mem_cons.1 hb with rfl | hb
    · exact hfront a ha
    · have hlt := hstart b hb
      have hlt' := hfront a ha
      simp only [KnownPiece.stop] at hlt hlt' ⊢
      omega

theorem mem_place_iff {chunks : List (Nat × Bytes)} {chunk c : Nat × Bytes} :
    c ∈ place chunks chunk ↔ c = chunk ∨ c ∈ chunks := by
  refine ⟨mem_place, fun h => ?_⟩
  rw [place, List.mem_append, List.mem_cons]
  rcases h with rfl | h
  · exact .inr (.inl rfl)
  · rw [← List.takeWhile_append_dropWhile (p := fun c => decide (c.1 < chunk.1)) (l := chunks),
      List.mem_append] at h
    exact h.imp_right .inr

theorem touching_eq_none {chunks : List (Nat × Bytes)} {start stop : Nat}
    (h : touching chunks start stop = none) {c : Nat × Bytes} (hc : c ∈ chunks)
    (hle : c.1 ≤ stop) : KnownPiece.stop c < start := by
  rw [touching, List.find?_eq_none] at h
  have hnot := h c (by simp [hc, hle])
  simpa [KnownPiece.stop] using hnot

theorem touching_eq_some {chunks : List (Nat × Bytes)} {start stop : Nat} {c : Nat × Bytes}
    (h : touching chunks start stop = some c) : start ≤ KnownPiece.stop c := by
  simpa [KnownPiece.stop] using List.find?_some h

theorem valueAt_place {chunks : List (Nat × Bytes)} {chunk : Nat × Bytes}
    (hchunks : Separated chunks) (hplace : Separated (place chunks chunk)) (i : Nat) :
    valueAt (place chunks chunk) i = (KnownPiece.value chunk i).or (valueAt chunks i) := by
  cases hvalue : KnownPiece.value chunk i with
  | some x =>
    exact hplace.valueAt_eq_some.2 ⟨chunk, mem_place_iff.2 (.inl rfl), hvalue⟩
  | none =>
    rw [Option.none_or]
    apply Option.ext
    intro x
    rw [hplace.valueAt_eq_some, hchunks.valueAt_eq_some]
    constructor
    · rintro ⟨c, hc, hx⟩
      rcases mem_place hc with rfl | hc
      · rw [hvalue] at hx
        cases hx
      · exact ⟨c, hc, hx⟩
    · rintro ⟨c, hc, hx⟩
      exact ⟨c, mem_place_iff.2 (.inr hc), hx⟩

/-- A chunk and the others. -/
theorem valueAt_filter {chunks : List (Nat × Bytes)} {chunk : Nat × Bytes}
    (hchunks : Separated chunks) (hchunk : chunk ∈ chunks) (i : Nat) :
    (KnownPiece.value chunk i).or (valueAt (chunks.filter fun c => c.1 ≠ chunk.1) i) =
      valueAt chunks i := by
  cases hvalue : KnownPiece.value chunk i with
  | some x => exact (hchunks.valueAt_eq_some.2 ⟨chunk, hchunk, hvalue⟩).symm
  | none =>
    rw [Option.none_or]
    apply Option.ext
    intro x
    rw [(hchunks.sublist List.filter_sublist).valueAt_eq_some, hchunks.valueAt_eq_some]
    constructor
    · rintro ⟨c, hc, hx⟩
      exact ⟨c, List.mem_of_mem_filter hc, hx⟩
    · rintro ⟨c, hc, hx⟩
      refine ⟨c, List.mem_filter.2 ⟨hc, decide_eq_true fun hstart => ?_⟩, hx⟩
      have hc' := hchunks.start_lt_stop hc
      have hchunk' := hchunks.start_lt_stop hchunk
      obtain rfl := hchunks.eq_of_common hc hchunk (i := c.1) ⟨le_rfl, hc'.le⟩
        ⟨hstart ▸ le_rfl, hstart ▸ hchunk'.le⟩
      rw [hvalue] at hx
      cases hx

/-- The chunks stay apart, and what was there is beside the new bytes. -/
theorem insertLoop_spec {fuel : Nat} {chunks : List (Nat × Bytes)} {start : Nat} {bytes : Bytes}
    {r : Ranges} (hchunks : Separated chunks) (hne : bytes ≠ [])
    (h : insertLoop fuel chunks start bytes = .ok r) :
    Separated r.chunks ∧ ∀ i, valueAt r.chunks i =
      (KnownPiece.value (start, bytes) i).or (valueAt chunks i) := by
  induction fuel generalizing chunks start bytes with
  | zero => cases h
  | succ fuel ih =>
    rw [insertLoop] at h
    obtain ⟨stop, hstop, h⟩ := bind_eq_ok.1 h
    obtain rfl : stop = start + bytes.length := by
      rw [add] at hstop
      split at hstop
      · exact (Except.ok.inj hstop).symm
      · cases hstop
    split at h
    · rename_i hnone
      cases h
      have hplace : Separated (place chunks (start, bytes)) :=
        place_separated hchunks hne fun c hc hle => touching_eq_none hnone hc hle
      exact ⟨hplace, valueAt_place hchunks hplace⟩
    · rename_i chunk hsome
      obtain ⟨hchunk, hle⟩ := touching_spec hsome
      obtain ⟨m, hm, h⟩ := bind_eq_ok.1 h
      obtain ⟨hstart, hend, hvalue⟩ := merge_spec ⟨hle, touching_eq_some hsome⟩ hm
      have hmne : m.2 ≠ [] := by
        have hlength := List.length_pos_of_ne_nil hne
        rw [KnownPiece.stop] at hend
        exact List.ne_nil_of_length_pos (by omega)
      obtain ⟨hseparated, hvalues⟩ := ih (hchunks.sublist List.filter_sublist) hmne h
      refine ⟨hseparated, fun i => ?_⟩
      rw [hvalues i]
      show (KnownPiece.value m i).or _ = _
      rw [hvalue, Option.or_assoc, valueAt_filter hchunks hchunk]

theorem insert_spec {r r' : Ranges} {offset : Nat} {data : Bytes} (hr : Separated r.chunks)
    (h : r.insert offset data = .ok r') :
    Separated r'.chunks ∧ ∀ i, valueAt r'.chunks i =
      (KnownPiece.value (offset, data) i).or (valueAt r.chunks i) := by
  rw [insert] at h
  split at h
  · rename_i hempty
    cases h
    refine ⟨hr, fun i => ?_⟩
    rw [List.isEmpty_iff.1 hempty, KnownPiece.value]
    simp
  · rename_i hne
    exact insertLoop_spec hr (fun hempty => hne (List.isEmpty_iff.2 hempty)) h

/-! ## Inserts return -/

theorem merge_total (start : Nat) (bytes : Bytes) (chunk : Nat × Bytes) :
    ∃ m, merge start bytes chunk = .ok m := by
  have hfirst : chunk.1 - min start chunk.1 + chunk.2.length ≤
      (List.replicate (max (start + bytes.length) (chunk.1 + chunk.2.length) - min start chunk.1)
        (0 : UInt8)).length := by
    rw [List.length_replicate]
    omega
  rw [merge, overwrite, if_pos hfirst, ok_bind, overwrite, if_pos]
  · exact ⟨_, rfl⟩
  · simp only [List.length_append, List.length_take, List.length_drop, List.length_replicate]
    omega

theorem insertLoop_total {fuel : Nat} {chunks : List (Nat × Bytes)} {start : Nat} {bytes : Bytes}
    (hfuel : chunks.length < fuel) (hchunks : ∀ c ∈ chunks, c.1 + c.2.length < 2 ^ 64)
    (hbytes : start + bytes.length < 2 ^ 64) :
    ∃ r, insertLoop fuel chunks start bytes = .ok r := by
  induction fuel generalizing chunks start bytes with
  | zero => omega
  | succ fuel ih =>
    rw [insertLoop, add, if_pos hbytes, ok_bind]
    split
    · exact ⟨_, rfl⟩
    · rename_i chunk htouching
      obtain ⟨hmem, -⟩ := touching_spec htouching
      obtain ⟨m, hm⟩ := merge_total start bytes chunk
      rw [hm, ok_bind]
      apply ih
      · have hless : (chunks.filter fun c => c.1 ≠ chunk.1).length < chunks.length :=
          List.length_filter_lt_length_iff_exists.2 ⟨chunk, hmem, by simp⟩
        omega
      · exact fun c hc => hchunks c (List.mem_of_mem_filter hc)
      · exact (merge_sound hbytes (hchunks chunk hmem)).of_ok hm

theorem insert_total {r : Ranges} (hr : r.Fits) {offset : Nat} {data : Bytes}
    (hdata : offset + data.length < 2 ^ 64) : ∃ r', r.insert offset data = .ok r' := by
  rw [insert]
  split
  · exact ⟨_, rfl⟩
  · exact insertLoop_total (Nat.lt_succ_self _) hr hdata

/-! ## What is read -/

theorem get_eq_ok {r : Ranges} {offset length : Nat} {bytes : Bytes}
    (h : r.get offset length = .ok bytes) : ∃ c ∈ r.chunks, c.1 ≤ offset ∧
      offset + length ≤ KnownPiece.stop c ∧
      bytes = (c.2.take (offset - c.1 + length)).drop (offset - c.1) := by
  rw [get] at h
  split at h
  · cases h
  · rename_i start data hlast
    obtain ⟨hmem, hle⟩ := List.mem_filter.1 (List.mem_of_getLast? hlast)
    rw [decide_eq_true_iff] at hle
    obtain ⟨stop, hstop, h⟩ := bind_eq_ok.1 h
    rw [add] at hstop
    split at hstop
    · cases hstop
      split at h
      · rename_i hfits
        rw [Checked.slice] at h
        split at h
        · cases h
          exact ⟨(start, data), hmem, hle, hfits, rfl⟩
        · cases h
      · cases h
    · cases hstop

theorem get_value {r : Ranges} (hr : Separated r.chunks) {offset length : Nat} {bytes : Bytes}
    (h : r.get offset length = .ok bytes) :
    bytes.length = length ∧ ∀ i < length, bytes[i]? = valueAt r.chunks (offset + i) := by
  obtain ⟨c, hc, hle, hstop, rfl⟩ := get_eq_ok h
  rw [KnownPiece.stop] at hstop
  constructor
  · simp
    omega
  · intro i hi
    rw [hr.valueAt_eq hc ⟨by omega, by rw [KnownPiece.stop]; omega⟩, KnownPiece.value,
      if_pos (by omega),
      List.getElem?_drop, List.getElem?_take, if_pos (by omega)]
    congr 1
    omega

theorem eq_or_before_getLast? {chunks : List (Nat × Bytes)} (h : Separated chunks)
    {c last : Nat × Bytes} (hlast : chunks.getLast? = some last) (hc : c ∈ chunks) :
    c = last ∨ KnownPiece.stop c < last.1 := by
  obtain ⟨front, rfl⟩ := List.getLast?_eq_some_iff.1 hlast
  rcases List.mem_append.1 hc with hc | hc
  · exact .inr ((List.pairwise_append.1 h.gaps).2.2 c hc last (List.mem_singleton_self _))
  · exact .inl (List.mem_singleton.1 hc)

/-- A range is there when each of its bytes is. -/
theorem get_iff {r : Ranges} (hr : Separated r.chunks) (hfits : r.Fits) {offset n : Nat} :
    (∃ bytes, r.get offset (n + 1) = .ok bytes) ↔
      ∀ i, offset ≤ i → i < offset + (n + 1) → (valueAt r.chunks i).isSome := by
  constructor
  · rintro ⟨bytes, h⟩ i hle hlt
    obtain ⟨hlength, hvalue⟩ := get_value hr h
    have hi := hvalue (i - offset) (by omega)
    rw [show offset + (i - offset) = i by omega] at hi
    rw [← hi, List.getElem?_eq_getElem (by omega)]
    rfl
  · intro hknown
    obtain ⟨c, hc, hle, hstop⟩ := hr.exists_piece hknown
    have hbefore : c ∈ r.chunks.filter fun c => c.1 ≤ offset :=
      List.mem_filter.2 ⟨hc, decide_eq_true hle⟩
    obtain ⟨last, hlast⟩ :=
      Option.isSome_iff_exists.1 (List.getLast?_isSome.2 (List.ne_nil_of_mem hbefore))
    obtain ⟨-, hlastle⟩ := List.mem_filter.1 (List.mem_of_getLast? hlast)
    rw [decide_eq_true_iff] at hlastle
    obtain rfl : c = last :=
      (eq_or_before_getLast? (hr.sublist List.filter_sublist) hlast hbefore).resolve_right
        (by omega)
    have hword := hfits c hc
    rw [KnownPiece.stop] at hstop
    refine ⟨(c.2.take (offset - c.1 + (n + 1))).drop (offset - c.1), ?_⟩
    rw [get, hlast]
    show (add offset (n + 1) >>= _) = _
    rw [add, if_pos (by omega), ok_bind, if_pos hstop, Checked.slice, if_pos (by omega)]

/-! ## Sequences of inserts -/

theorem written_concat (inserts : List (Nat × Bytes)) (insert : Nat × Bytes) (i : Nat) :
    written (inserts ++ [insert]) i = (KnownPiece.value insert i).or (written inserts i) := by
  rw [written, List.foldl_append]
  rfl

/-- What a sequence of inserts leaves: chunks apart from each other, with the bytes inserted
last. -/
theorem inserts_spec {inserts : List (Nat × Bytes)}
    (h : ∀ insert ∈ inserts, insert.1 + insert.2.length < 2 ^ 64) :
    ∃ r, inserts.foldlM (fun r insert => Ranges.insert r insert.1 insert.2) empty = .ok r ∧
      r.Fits ∧ Separated r.chunks ∧ ∀ i, valueAt r.chunks i = written inserts i := by
  induction inserts using List.reverseRecOn with
  | nil => exact ⟨empty, rfl, fits_empty, Separated.nil, fun i => rfl⟩
  | append_singleton inserts insert ih =>
    obtain ⟨r, hr, hfits, hseparated, hvalues⟩ :=
      ih fun other hother => h other (List.mem_append_left _ hother)
    have hword := h insert (List.mem_append_right _ (List.mem_singleton_self _))
    obtain ⟨r', hr'⟩ := insert_total hfits hword
    obtain ⟨hseparated', hvalues'⟩ := insert_spec hseparated hr'
    refine ⟨r', ?_, (insert_sound hfits hword).of_ok hr', hseparated', fun i => ?_⟩
    · rw [List.foldlM_append, hr]
      show (Ranges.insert r insert.1 insert.2 >>= _) = _
      rw [hr']
      rfl
    · rw [hvalues' i, hvalues i, written_concat]

/-- The loaded ranges are one sparse file: the chunks are apart, a range is there when every byte
of it was inserted, and then it has for each byte the one inserted last. -/
theorem get_inserts {inserts : List (Nat × Bytes)}
    (h : ∀ insert ∈ inserts, insert.1 + insert.2.length < 2 ^ 64) :
    ∃ r, inserts.foldlM (fun r insert => Ranges.insert r insert.1 insert.2) empty = .ok r ∧
      Separated r.chunks ∧
      ∀ offset length, 0 < length →
        ((∃ bytes, r.get offset length = .ok bytes) ↔
          ∀ i, offset ≤ i → i < offset + length → (written inserts i).isSome) ∧
        ∀ bytes, r.get offset length = .ok bytes →
          bytes.length = length ∧ ∀ i < length, bytes[i]? = written inserts (offset + i) := by
  obtain ⟨r, hr, hfits, hseparated, hvalues⟩ := inserts_spec h
  refine ⟨r, hr, hseparated, fun offset length hlength => ⟨?_, fun bytes hbytes => ?_⟩⟩
  · obtain ⟨n, rfl⟩ := Nat.exists_eq_succ_of_ne_zero hlength.ne'
    simp only [← hvalues]
    exact get_iff hseparated hfits
  · simp only [← hvalues]
    exact get_value hseparated hbytes

theorem get_inserts_over_and_beside :
    ∃ r, [(4, [1, 2]), (0, [3, 4, 5, 6, 7]), (9, [8])].foldlM
        (fun r insert => Ranges.insert r insert.1 insert.2) empty = .ok r ∧
      ∃ bytes, r.get 1 5 = .ok bytes := by
  obtain ⟨r, hr, -, hget⟩ :=
    @get_inserts [(4, [1, 2]), (0, [3, 4, 5, 6, 7]), (9, [8])] (by decide)
  refine ⟨r, hr, (hget 1 5 (by decide)).1.2 fun i hi hlt => ?_⟩
  obtain rfl | rfl | rfl | rfl | rfl : i = 1 ∨ i = 2 ∨ i = 3 ∨ i = 4 ∨ i = 5 := by omega
  all_goals decide

end Ranges

end Xeibe.Reproject.Grid

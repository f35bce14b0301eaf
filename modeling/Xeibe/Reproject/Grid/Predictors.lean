import Mathlib.Data.BitVec
import Xeibe.Lib.Differences
import Xeibe.Reproject.Grid.Nodes

/-!
# Undoing the predictors

A row of samples is stored as the differences to the pixel before, modulo the
size of a sample, or as byte planes whose bytes are stored as differences.
Reading it gives the samples back, in the file's byte order.
-/

namespace Xeibe.Reproject.Grid

open Xeibe.Lib
open Xeibe.Lib.Checked

/-- A row of samples in the file's byte order. -/
def sampleRow (order : ByteOrder) {size : Nat} (samples : List (BitVec (8 * size))) : Bytes :=
  samples.flatMap fun sample => order.bytes size sample.toNat

/-- Byte `b` of each sample, most significant first. -/
def bytePlane {size : Nat} (samples : List (BitVec (8 * size))) (b : Nat) : Bytes :=
  samples.map fun sample => UInt8.ofNat (sample.toNat / 256 ^ (size - 1 - b))

/-- The byte planes of a row, most significant first. -/
def bytePlanes {size : Nat} (samples : List (BitVec (8 * size))) : Bytes :=
  (List.range size).flatMap (bytePlane samples)

/-! ## Words -/

theorem littleWord_range_map (size value : Nat) :
    littleWord ((List.range size).map fun k => UInt8.ofNat (value / 256 ^ k)) =
      value % 256 ^ size := by
  induction size generalizing value with
  | zero => simp [littleWord, Nat.mod_one]
  | succ size ih =>
    have hrest := ih (value / 256)
    rw [List.range_succ_eq_map, List.map_cons, List.map_map]
    have hcons : ∀ (b : UInt8) bs, littleWord (b :: bs) = b.toNat + 256 * littleWord bs :=
      fun b bs => rfl
    have hshift : ((fun k => UInt8.ofNat (value / 256 ^ k)) ∘ Nat.succ) =
        fun k => UInt8.ofNat (value / 256 / 256 ^ k) := by
      funext k
      rw [Function.comp_apply, Nat.succ_eq_add_one, Nat.pow_succ', Nat.div_div_eq_div_mul]
    rw [hcons, hshift, hrest, pow_zero, Nat.div_one, Nat.pow_succ', Nat.mod_mul]
    rfl

namespace ByteOrder

theorem word_bytes (order : ByteOrder) (size value : Nat) :
    order.word (order.bytes size value) = value % 2 ^ (8 * size) := by
  have hpow : (2 : Nat) ^ (8 * size) = 256 ^ size := by
    rw [Nat.pow_mul]
  rw [hpow]
  cases order with
  | little => exact littleWord_range_map size value
  | big =>
    rw [bytes, word, List.reverse_reverse]
    exact littleWord_range_map size value

theorem getElem?_bytes (order : ByteOrder) {size b : Nat} (hb : b < size) (value : Nat) :
    (order.bytes size value)[if order = big then b else size - 1 - b]? =
      some (UInt8.ofNat (value / 256 ^ (size - 1 - b))) := by
  cases order with
  | little =>
    rw [if_neg (by decide), bytes, List.getElem?_map, List.getElem?_range (by omega)]
    rfl
  | big =>
    rw [if_pos rfl, bytes, List.getElem?_reverse (by simpa using hb), List.length_map,
      List.length_range, List.getElem?_map, List.getElem?_range (by omega)]
    rfl

end ByteOrder

section Rows

variable {size : Nat} (order : ByteOrder)

theorem length_sampleRow (samples : List (BitVec (8 * size))) :
    (sampleRow order samples).length = samples.length * size :=
  length_flatMap_blocks (fun _ => order.length_bytes size _) samples

theorem rowWord_sampleRow {samples : List (BitVec (8 * size))} {i : Nat}
    {sample : BitVec (8 * size)} (hfit : samples.length * size < 2 ^ 64)
    (hi : samples[i]? = some sample) :
    rowWord order size (sampleRow order samples) i = .ok sample.toNat := by
  obtain ⟨hlt, rfl⟩ := List.getElem?_eq_some_iff.1 hi
  have hlast : (i + 1) * size ≤ samples.length * size := Nat.mul_le_mul_right _ hlt
  have hstep : (i + 1) * size = i * size + size := Nat.succ_mul i size
  rw [rowWord, mul, if_pos (by omega), ok_bind, mul, if_pos (by omega), ok_bind, sampleRow,
    slice_flatMap_blocks (fun _ => order.length_bytes size _) hlt, ok_bind,
    ByteOrder.word_bytes, Nat.mod_eq_of_lt samples[i].isLt]

/-! ## Horizontal differencing -/

/-- Adding up the differences of the samples gives the row back. -/
theorem horizontalPredictor_differences {stride : Nat} (hstride : 0 < stride) (hsize : 0 < size)
    {samples : List (BitVec (8 * size))} (hfit : samples.length * size < 2 ^ 64) :
    horizontalPredictor (sampleRow order (differences stride samples)) size stride order =
      .ok (sampleRow order samples) := by
  have hcount : (sampleRow order (differences stride samples)).length / size =
      samples.length := by
    rw [length_sampleRow, length_differences, Nat.mul_div_cancel _ hsize]
  rw [horizontalPredictor, hcount]
  refine foldlM_range' (fun i => sampleRow order (halfway stride samples i)) ?_ ?_
    fun i hi hlt => ?_
  · rw [halfway_start]
  · rw [halfway_end (by omega)]
  · have hin : i < samples.length := by omega
    have hfit' : (halfway stride samples i).length * size < 2 ^ 64 := by rwa [length_halfway]
    have hlast : i * size + size ≤ samples.length * size := by
      rw [← Nat.succ_mul]
      exact Nat.mul_le_mul_right _ hin
    have hsum : ((samples[i] - samples[i - stride]).toNat + samples[i - stride].toNat) %
        2 ^ (8 * size) = samples[i].toNat := by
      rw [← BitVec.toNat_add, BitVec.sub_add_cancel]
    rw [rowWord_sampleRow order hfit' (getElem?_halfway_here hi hin), ok_bind, sub, if_pos hi,
      ok_bind, rowWord_sampleRow order hfit' (getElem?_halfway_before (by omega) hin), ok_bind,
      mul, if_pos (by omega), ok_bind, hsum, sampleRow,
      overwrite_flatMap_blocks (fun _ => order.length_bytes size _)
        (by rwa [length_halfway]), set_halfway hin]
    rfl

/-! ## Byte planes -/

theorem undifference_differences {stride : Nat} (hstride : 0 < stride) (bytes : Bytes) :
    undifference (differences stride bytes) stride = .ok bytes := by
  rw [undifference, length_differences]
  refine foldlM_range' (halfway stride bytes) (halfway_start _ _).symm
    (halfway_end (by omega)) fun i hi hlt => ?_
  have hin : i < bytes.length := by omega
  rw [index, getElem?_halfway_here hi hin]
  show (sub i stride >>= fun j => index (halfway stride bytes i) j >>= _) = _
  rw [sub, if_pos hi, ok_bind, index, getElem?_halfway_before (by omega) hin]
  show store (halfway stride bytes i) i (bytes[i] - bytes[i - stride] + bytes[i - stride]) = _
  rw [UInt8.sub_add_cancel, store, if_pos (by rwa [length_halfway]), set_halfway hin]

theorem length_bytePlane (samples : List (BitVec (8 * size))) (b : Nat) :
    (bytePlane samples b).length = samples.length :=
  List.length_map _

theorem length_bytePlanes (samples : List (BitVec (8 * size))) :
    (bytePlanes samples).length = size * samples.length := by
  rw [bytePlanes, length_flatMap_blocks (length_bytePlane samples), List.length_range]

theorem getElem?_bytePlanes {samples : List (BitVec (8 * size))} {i b : Nat}
    (hi : i < samples.length) (hb : b < size) :
    (bytePlanes samples)[b * samples.length + i]? =
      some (UInt8.ofNat (samples[i].toNat / 256 ^ (size - 1 - b))) := by
  rw [bytePlanes,
    getElem?_flatMap_blocks (length_bytePlane samples) (by rwa [List.length_range]) hi,
    List.getElem_range, bytePlane, List.getElem?_map, List.getElem?_eq_getElem hi]
  rfl

theorem getElem?_sampleRow {samples : List (BitVec (8 * size))} {i b : Nat}
    (hi : i < samples.length) (hb : b < size) :
    (sampleRow order samples)[i * size + if order = .big then b else size - 1 - b]? =
      some (UInt8.ofNat (samples[i].toNat / 256 ^ (size - 1 - b))) := by
  rw [sampleRow, getElem?_flatMap_blocks (fun _ => order.length_bytes size _) hi
    (by split <;> omega), order.getElem?_bytes hb]

/-- Adding up the differences of the byte planes, and putting each byte in its sample, gives the row
back. -/
theorem floatingPointPredictor_differences {stride : Nat} (hstride : 0 < stride) (hsize : 0 < size)
    {samples : List (BitVec (8 * size))} (hfit : samples.length * size < 2 ^ 64) :
    floatingPointPredictor (differences stride (bytePlanes samples)) size stride order =
      .ok (sampleRow order samples) := by
  rw [floatingPointPredictor, undifference_differences hstride, ok_bind]
  simp only [length_differences, length_bytePlanes, Nat.mul_div_cancel_left _ hsize]
  have hplaces : ∀ p : Nat × Nat,
      p ∈ ((List.range samples.length).flatMap fun i => (List.range size).map fun b => (i, b)) ↔
        p.1 < samples.length ∧ p.2 < size := by
    intro p
    simp [Prod.ext_iff]
  refine foldlM_store (fun p => p.1 * size + if order = .big then p.2 else size - 1 - p.2)
    (fun p => UInt8.ofNat ((samples[p.1]?.getD 0).toNat / 256 ^ (size - 1 - p.2))) ?_ ?_ ?_ ?_
  · rw [length_bytePlanes, length_sampleRow, Nat.mul_comm]
  · intro p hp row
    obtain ⟨hi, hb⟩ := (hplaces p).1 hp
    have hplane : p.2 * samples.length + samples.length ≤ samples.length * size := by
      rw [← Nat.succ_mul, Nat.mul_comm samples.length]
      exact Nat.mul_le_mul_right _ hb
    have hvalue : p.1 * size + size ≤ samples.length * size := by
      rw [← Nat.succ_mul]
      exact Nat.mul_le_mul_right _ hi
    rw [mul, if_pos (by omega), ok_bind, add, if_pos (by omega), ok_bind, index,
      getElem?_bytePlanes hi hb, List.getElem?_eq_getElem hi]
    have hwithin : (if order = .big then .ok p.2 else do sub (← sub size 1) p.2 : Reading Nat) =
        .ok (if order = .big then p.2 else size - 1 - p.2) := by
      split
      · rfl
      · rw [sub, if_pos (show 1 ≤ size from hsize), ok_bind, sub, if_pos (by omega)]
    show ((if order = .big then .ok p.2 else do sub (← sub size 1) p.2 : Reading Nat) >>= _) = _
    rw [hwithin, ok_bind, mul, if_pos (by omega), ok_bind, add, if_pos (by split <;> omega)]
    rfl
  · intro p hp
    obtain ⟨hi, hb⟩ := (hplaces p).1 hp
    rw [getElem?_sampleRow order hi hb, List.getElem?_eq_getElem hi]
    rfl
  · intro t ht
    rw [length_sampleRow] at ht
    have hi : t / size < samples.length := Nat.div_lt_of_lt_mul (by rwa [Nat.mul_comm])
    have hb : t % size < size := Nat.mod_lt _ hsize
    have ht' : t / size * size + t % size = t := by
      rw [Nat.mul_comm]
      exact Nat.div_add_mod t size
    refine Or.inr ⟨(t / size, if order = .big then t % size else size - 1 - t % size),
      (hplaces _).2 ⟨hi, by dsimp only; split <;> omega⟩, ?_⟩
    dsimp only
    split <;> omega

/-- The predictors undo the differencing of a row, for every size of a sample, number of samples
in a pixel and byte order. -/
theorem predictors_restore {stride : Nat} (hsize : size = 2 ∨ size = 4 ∨ size = 8)
    (hstride : 0 < stride) (samples : List (BitVec (8 * size)))
    (hfit : samples.length * size < 2 ^ 64) :
    horizontalPredictor (sampleRow order (differences stride samples)) size stride order =
        .ok (sampleRow order samples) ∧
      floatingPointPredictor (differences stride (bytePlanes samples)) size stride order =
        .ok (sampleRow order samples) :=
  ⟨horizontalPredictor_differences order hstride (by omega) hfit,
    floatingPointPredictor_differences order hstride (by omega) hfit⟩

theorem predictors_restore_two_interleaved :
    let samples : List (BitVec (8 * 2)) := [0x0201, 0x0403, 0x0200, 0xffff]
    horizontalPredictor (sampleRow .little (differences 2 samples)) 2 2 .little =
        .ok [1, 2, 3, 4, 0, 2, 0xff, 0xff] ∧
      floatingPointPredictor (differences 2 (bytePlanes samples)) 2 2 .little =
        .ok [1, 2, 3, 4, 0, 2, 0xff, 0xff] := by
  intro samples
  have hrow : sampleRow .little samples = [1, 2, 3, 4, 0, 2, 0xff, 0xff] := by decide
  rw [← hrow]
  exact predictors_restore .little (by decide) (by decide) samples (by decide)

end Rows

end Xeibe.Reproject.Grid

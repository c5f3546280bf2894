import Peerster.Lib.Chunks
import Peerster.Uploads

/-!
# Cutting data into chunks

`splitIntoChunks` of `peer/impl/data_sharing.go` on machine integers: the index and the end of a
chunk are `int`s, which wrap around at 64 bits, and the slice expression panics when it is out of
range.  The loop does what `DataSharing.splitIntoChunks` does (`splitIntoChunks_refines`), whose
index is a natural number, and with a chunk size that is an `int` it cuts the data into chunks of
that size (`splitIntoChunks_chunked`).
-/

namespace Peerster.DataSharing

/-- A `[]byte` that is in memory: no address space holds 2^62 bytes, and Go's runtime gives a slice
far fewer. -/
structure ByteSlice where
  bytes : Bytes
  inMemory : bytes.length ≤ 2 ^ 62

namespace ByteSlice

/-- `len(s)`. -/
def len (s : ByteSlice) : Int64 := Int64.ofNat s.bytes.length

/-- `s[low:high]`, with the texts of its panics; a slice has at least the capacity of its length,
which bounds `high` here. -/
def slice (s : ByteSlice) (low high : Int64) : Except GoString Bytes :=
  if high < 0 then
    .error (str "runtime error: slice bounds out of range [:" ++ itoa high.toInt ++ str "]")
  else if s.len < high then
    .error (str "runtime error: slice bounds out of range [:" ++ itoa high.toInt ++
      str "] with capacity " ++ itoa s.len.toInt)
  else if low < 0 then
    .error (str "runtime error: slice bounds out of range [" ++ itoa low.toInt ++ str ":]")
  else if high < low then
    .error (str "runtime error: slice bounds out of range [" ++ itoa low.toInt ++ str ":" ++
      itoa high.toInt ++ str "]")
  else .ok ((s.bytes.drop low.toInt.toNat).take (high.toInt.toNat - low.toInt.toNat))

/-- The loop of `splitIntoChunks` with the chunks it has so far; it is `none` if the loop goes on
after `fuel` tests of its condition, and an error is the text of a panic. -/
def splitLoop (dataBytes : ByteSlice) (chunkSize : UInt64) :
    Nat → Int64 → List Bytes → Option (Except GoString (List Bytes))
  | 0, _, _ => none
  | fuel + 1, i, chunks =>
      let size := dataBytes.len
      if i < size then
        let stop := i + chunkSize.toInt64
        let stop := if stop > size then size else stop
        match dataBytes.slice i stop with
        | .error panicked => some (.error panicked)
        | .ok chunk =>
            splitLoop dataBytes chunkSize fuel (i + chunkSize.toInt64) (chunks ++ [chunk])
      else some (.ok chunks)

/-- `splitIntoChunks`. -/
def splitIntoChunks (dataBytes : ByteSlice) (chunkSize : UInt64) (fuel : Nat) :
    Option (Except GoString (List Bytes)) :=
  splitLoop dataBytes chunkSize fuel 0 []

/-! ## Machine integers -/

theorem toInt_len (s : ByteSlice) : s.len.toInt = s.bytes.length := by
  have inMemory := s.inMemory
  exact Int64.toInt_ofNat_of_lt (by omega)

theorem toInt_toInt64 (chunkSize : UInt64) :
    chunkSize.toInt64.toInt = chunkSize.toBitVec.toInt := rfl

theorem toInt_step {chunkSize : UInt64} (small : chunkSize.toNat < 2 ^ 63) :
    chunkSize.toInt64.toInt = chunkSize.toNat := by
  rw [toInt_toInt64, toInt_chunkSize small]

/-- A chunk size that is no `int` becomes negative. -/
theorem toInt_chunkSize_neg {chunkSize : UInt64} (large : ¬ chunkSize.toNat < 2 ^ 63) :
    chunkSize.toBitVec.toInt < 0 := by
  have width := chunkSize.toNat_lt
  rw [BitVec.toInt_eq_toNat_cond, UInt64.toNat_toBitVec, if_neg (by omega)]
  omega

/-- A sum that is an `int` does not wrap around. -/
theorem toInt_add_of_lt {i step : Int64} {m n : Nat} (left : i.toInt = m) (right : step.toInt = n)
    (fits : m + n < 2 ^ 63) : (i + step).toInt = (m + n : Nat) := by
  rw [Int64.toInt_add, left, right, ← Int.natCast_add]
  exact Int.bmod_eq_of_le (by omega) (by omega)

/-- A slice expression in range. -/
theorem slice_ok {s : ByteSlice} {low high : Int64} {m n : Nat} (left : low.toInt = m)
    (right : high.toInt = n) (ordered : m ≤ n) (inside : n ≤ s.bytes.length) :
    s.slice low high = .ok ((s.bytes.drop m).take (n - m)) := by
  have zero : (0 : Int64).toInt = 0 := rfl
  have len := s.toInt_len
  simp only [slice, Int64.lt_iff_toInt_lt, left, right, len, zero, Int.toNat_natCast]
  rw [if_neg (by omega), if_neg (by omega), if_neg (by omega), if_neg (by omega)]

/-! ## The loop -/

section Loop

variable {dataBytes : ByteSlice} {chunkSize : UInt64} {fuel : Nat} {i : Int64} {m : Nat}

/-- A round of the loop takes the next chunk. -/
theorem splitLoop_of_lt (small : chunkSize.toNat < 2 ^ 63) (index : i.toInt = m)
    (inside : m < dataBytes.bytes.length) (fits : m + chunkSize.toNat < 2 ^ 63)
    (chunks : List Bytes) :
    dataBytes.splitLoop chunkSize (fuel + 1) i chunks =
      dataBytes.splitLoop chunkSize fuel (i + chunkSize.toInt64) (chunks ++
        [(dataBytes.bytes.drop m).take
          (min (m + chunkSize.toNat) dataBytes.bytes.length - m)]) := by
  have len := dataBytes.toInt_len
  have next := toInt_add_of_lt index (toInt_step small) fits
  have going : i < dataBytes.len := by
    rw [Int64.lt_iff_toInt_lt, index, len]
    exact Int.ofNat_lt.mpr inside
  have clamped : (if i + chunkSize.toInt64 > dataBytes.len then dataBytes.len
      else i + chunkSize.toInt64).toInt =
        (min (m + chunkSize.toNat) dataBytes.bytes.length : Nat) := by
    split
    · next beyond =>
      rw [gt_iff_lt, Int64.lt_iff_toInt_lt, next, len] at beyond
      rw [len, Nat.min_eq_right (by omega)]
    · next within =>
      rw [gt_iff_lt, Int64.lt_iff_toInt_lt, next, len] at within
      rw [next, Nat.min_eq_left (by omega)]
  have taken := slice_ok (s := dataBytes) index clamped (by omega) (by omega)
  rw [splitLoop]
  simp only [if_pos going, taken]

/-- The loop ends when the index is past the data. -/
theorem splitLoop_of_le (index : i.toInt = m) (outside : dataBytes.bytes.length ≤ m)
    (chunks : List Bytes) :
    dataBytes.splitLoop chunkSize (fuel + 1) i chunks = some (.ok chunks) := by
  have done : ¬ i < dataBytes.len := by
    rw [Int64.lt_iff_toInt_lt, index, dataBytes.toInt_len]
    omega
  rw [splitLoop]
  exact if_neg done

/-- With a negative step the first slice expression panics. -/
theorem splitLoop_of_negative (negative : chunkSize.toBitVec.toInt < 0)
    (some : 0 < dataBytes.bytes.length) (chunks : List Bytes) :
    dataBytes.splitLoop chunkSize (fuel + 1) 0 chunks =
      .some (.error (str "runtime error: slice bounds out of range [:" ++
        itoa chunkSize.toBitVec.toInt ++ str "]")) := by
  have zero : (0 : Int64).toInt = 0 := rfl
  have len := dataBytes.toInt_len
  have going : (0 : Int64) < dataBytes.len := by
    rw [Int64.lt_iff_toInt_lt, len, zero]
    omega
  have within : ¬ chunkSize.toInt64 > dataBytes.len := by
    rw [gt_iff_lt, Int64.lt_iff_toInt_lt, len, toInt_toInt64]
    omega
  have below : chunkSize.toInt64 < 0 := Int64.lt_iff_toInt_lt.mpr negative
  rw [splitLoop]
  simp only [if_pos going, Int64.zero_add, if_neg within, slice, if_pos below, toInt_toInt64]

/-- From an index that does not wrap around in the next round on, the loop adds the chunks that the
loop over natural numbers has. -/
theorem splitLoop_eq {fuel' : Nat} (positive : 0 < chunkSize.toNat)
    (small : chunkSize.toNat < 2 ^ 63) (index : i.toInt = m)
    (fits : m < dataBytes.bytes.length → m + chunkSize.toNat < 2 ^ 63)
    (enough : dataBytes.bytes.length - m < fuel) (enough' : dataBytes.bytes.length ≤ m + fuel')
    (chunks : List Bytes) :
    dataBytes.splitLoop chunkSize fuel i chunks =
      some (.ok (chunks ++
        DataSharing.splitLoop dataBytes.bytes chunkSize.toNat fuel' m)) := by
  induction fuel generalizing i m fuel' chunks with
  | zero => omega
  | succ fuel ih =>
      by_cases inside : m < dataBytes.bytes.length
      · cases fuel' with
        | zero => omega
        | succ fuel' =>
            have next := toInt_add_of_lt index (toInt_step small) (fits inside)
            have inMemory := dataBytes.inMemory
            -- another round means that the chunk size is below the length of the data
            rw [splitLoop_of_lt small index inside (fits inside),
              ih next (fun more => by omega) (by omega)
                (show dataBytes.bytes.length ≤ m + chunkSize.toNat + fuel' by omega),
              DataSharing.splitLoop, if_pos inside, List.append_assoc]
            rfl
      · rw [splitLoop_of_le index (by omega)]
        cases fuel' with
        | zero => rw [DataSharing.splitLoop, List.append_nil]
        | succ fuel' => rw [DataSharing.splitLoop, if_neg inside, List.append_nil]

end Loop

/-- The loop on machine integers does what the one on natural numbers does, whatever the chunk
size; it ends after at most as many rounds as there are bytes. -/
theorem splitIntoChunks_refines (dataBytes : ByteSlice) {chunkSize : UInt64}
    (positive : chunkSize ≠ 0) {fuel : Nat} (enough : dataBytes.bytes.length < fuel) :
    dataBytes.splitIntoChunks chunkSize fuel =
      some (DataSharing.splitIntoChunks dataBytes.bytes chunkSize) := by
  have zero : (0 : Int64).toInt = (0 : Nat) := rfl
  by_cases small : chunkSize.toNat < 2 ^ 63
  · rw [DataSharing.splitIntoChunks_of_small dataBytes.bytes small]
    exact splitLoop_eq (toNat_pos_of_ne_zero positive) small zero
      (fun _ => by omega) (by omega) (by omega) []
  · have negative := toInt_chunkSize_neg small
    rw [DataSharing.splitIntoChunks, if_neg (not_le.mpr negative)]
    cases fuel with
    | zero => omega
    | succ fuel =>
        by_cases empty : dataBytes.bytes.length = 0
        · rw [if_pos empty, splitIntoChunks, splitLoop_of_le zero (by omega)]
        · rw [if_neg empty, splitIntoChunks, splitLoop_of_negative negative (by omega)]

/-- **Chunking.**  With every chunk size that is a positive `int`, `splitIntoChunks` returns,
without a panic, and its chunks cut the data: together they are the data, all but the last have the
chunk size, the last has between one byte and that many, and there are as many as the length divided
by the chunk size, rounded up. -/
theorem splitIntoChunks_chunked (dataBytes : ByteSlice) (chunkSize : UInt64)
    (positive : 1 ≤ chunkSize.toNat) (small : chunkSize.toNat < 2 ^ 63) :
    ∃ chunks,
      (∀ fuel > dataBytes.bytes.length,
        dataBytes.splitIntoChunks chunkSize fuel = some (.ok chunks)) ∧
      Chunked chunkSize.toNat dataBytes.bytes chunks := by
  have nonzero : chunkSize ≠ 0 := by
    intro zero
    rw [zero] at positive
    cases positive
  refine ⟨_, fun fuel enough => ?_,
    chunked_splitLoop (i := 0) positive (Nat.le_add_left dataBytes.bytes.length 0)⟩
  rw [splitIntoChunks_refines dataBytes nonzero enough,
    DataSharing.splitIntoChunks_of_small dataBytes.bytes small]

/-- Five bytes. -/
def sampleSlice : ByteSlice := ⟨[97, 98, 99, 100, 101], by decide⟩

theorem chunked_five_by_two :
    ∃ chunks,
      (∀ fuel > 5, sampleSlice.splitIntoChunks 2 fuel = some (.ok chunks)) ∧
        Chunked 2 [97, 98, 99, 100, 101] chunks :=
  splitIntoChunks_chunked sampleSlice 2 (by decide) (by decide)

/-- The largest chunk size that is an `int`: the end of the chunk is clamped, and the index after it
does not wrap around. -/
example : sampleSlice.splitIntoChunks 0x7fffffffffffffff 2 = some (.ok [sampleSlice.bytes]) := by
  decide +kernel

end ByteSlice

end Peerster.DataSharing

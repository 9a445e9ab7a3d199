import Zrtools.ShmRing.Record
import Zrtools.ShmRing.Statistics

/-!
# zrtools — `WalEntryBuilder` (`zrt_wal_entry.h`)

An entry is built in a buffer of its own, with the same stores with which `Append` puts one
into the ring.

* `WalEntryBuilder.build` — `Build(seq, timestamp_ns, type, data, data_len)`;
* `WalEntryBuilder.build_of_le` — the bytes of the buffer then;
* `headerAt_entryBytes`, `dataAt_entryBytes` — what a reader makes of them.
-/

namespace Zrtools.Wal

open ByteMemory LittleEndian ShmRing

/-- `WalEntryBuilder<TypeEnum, MaxSize>`. -/
structure WalEntryBuilder (maxSize : Nat) where
  buffer : Mem
  size : Nat

namespace WalEntryBuilder

variable {maxSize : Nat}

/-- The constructor. -/
def new (maxSize : Nat) : WalEntryBuilder maxSize where
  buffer := fun _ => 0
  size := 0

/-- `UpdateCrc()` of the entry in the buffer. -/
def updateCrcIn (m : Mem) : Mem :=
  write m 20 (encode 4 (updateCrc (headerAt m 0).dataLen (dataAt m 0)).toNat)

/-- The stores of `Build` before `UpdateCrc()`. -/
def fields (m : Mem) (seq timestampNs : UInt64) (type : UInt16) (data : Source) : Mem :=
  let m := write m 0 (encode 8 seq.toNat)
  let m := write m 8 (encode 8 timestampNs.toNat)
  let m := write m 16 (encode 2 type.toNat)
  let m := write m 18 (encode 2 data.len.toNat)
  match data with
  | .null _ => m
  | .bytes data => write m 24 data.bytes

/-- `Build(seq, timestamp_ns, type, data, data_len)`. -/
def build (b : WalEntryBuilder maxSize) (seq timestampNs : UInt64) (type : UInt16)
    (data : Source) : Bool × WalEntryBuilder maxSize :=
  if maxSize < walEntryHeaderSize + data.len.toNat then (false, b)
  else
    (true, { buffer := updateCrcIn (fields b.buffer seq timestampNs type data),
             size := walEntryHeaderSize + data.len.toNat })

end WalEntryBuilder

-- ---------------------------------------------------------------------------
-- The bytes of an entry
-- ---------------------------------------------------------------------------

section Stored

variable (m : Mem) (off : Nat) (seq timestampNs : UInt64) (type : UInt16) (data : Source)

/-- The two parts of an entry that was stored. -/
theorem slices_entryBytes :
    slice (write m off (entryBytes m off seq timestampNs type data)) off walEntryHeaderSize =
        (storedHeader seq timestampNs type data (data.payload (stale m off data))).toBytes ∧
      slice (write m off (entryBytes m off seq timestampNs type data)) (off + walEntryHeaderSize)
        data.len.toNat = data.payload (stale m off data) := by
  have hself := slice_write_self m off (entryBytes m off seq timestampNs type data)
  rw [length_entryBytes, slice_append] at hself
  exact List.append_inj hself (by simp)

/-- **An entry that was stored** is read as it was given: the header, -/
theorem headerAt_entryBytes :
    headerAt (write m off (entryBytes m off seq timestampNs type data)) off =
      storedHeader seq timestampNs type data (data.payload (stale m off data)) := by
  rw [headerAt, (slices_entryBytes m off seq timestampNs type data).1,
    WalEntryHeader.ofBytes_toBytes]

/-- and the payload. -/
theorem dataAt_entryBytes :
    dataAt (write m off (entryBytes m off seq timestampNs type data)) off =
      data.payload (stale m off data) := by
  rw [dataAt, headerAt_entryBytes]
  exact (slices_entryBytes m off seq timestampNs type data).2

end Stored

namespace WalEntryBuilder

variable {maxSize : Nat} {b : WalEntryBuilder maxSize} {seq timestampNs : UInt64} {type : UInt16}
  {data : Source}

theorem fields_eq (m : Mem) (seq timestampNs : UInt64) (type : UInt16) (data : Source) :
    fields m seq timestampNs type data = unchecked m 0 seq timestampNs type data := by
  have hlength := length_leadingBytes seq timestampNs type data
  have hsame : stale m 0 data =
      slice (write m 0 (leadingBytes seq timestampNs type data)) 24 data.len.toNat := by
    rw [slice_write_of_disjoint (Or.inr (by omega))]
    rfl
  unfold fields
  cases data with
  | null len =>
    rw [unchecked, Source.payload, hsame, write_slice]
    simp [leadingBytes, write_append, Source.len]
  | bytes data => simp [unchecked, Source.payload, leadingBytes, write_append, Source.len]

/-- An entry that does not fit. -/
theorem build_of_lt (h : maxSize < walEntryHeaderSize + data.len.toNat) :
    b.build seq timestampNs type data = (false, b) := if_pos h

/-- **An entry that fits.** -/
theorem build_of_le (h : walEntryHeaderSize + data.len.toNat ≤ maxSize) :
    b.build seq timestampNs type data =
      (true, { buffer := write b.buffer 0 (entryBytes b.buffer 0 seq timestampNs type data),
               size := walEntryHeaderSize + data.len.toNat }) := by
  have hlen : (headerAt (unchecked b.buffer 0 seq timestampNs type data) 0).dataLen =
      data.len := by
    rw [headerAt_dataLen, slice_dataLen_unchecked, decode_encode_of_lt data.len.toNat_lt,
      UInt16.ofNat_toNat]
  have hdata : dataAt (unchecked b.buffer 0 seq timestampNs type data) 0 =
      data.payload (stale b.buffer 0 data) := by
    rw [dataAt, hlen]
    exact slice_data_unchecked ..
  rw [build, if_neg (Nat.not_lt_of_le h), fields_eq, updateCrcIn, hlen, hdata]
  have hcrc := write_crc_unchecked 0 seq timestampNs type data b.buffer
  rw [Nat.zero_add] at hcrc
  rw [hcrc]

/-- Nothing is stored behind the buffer. -/
theorem build_beyond {i : Nat} (h : maxSize ≤ i) :
    (b.build seq timestampNs type data).2.buffer i = b.buffer i := by
  by_cases hfits : walEntryHeaderSize + data.len.toNat ≤ maxSize
  · rw [build_of_le hfits]
    refine write_of_not_mem (Or.inr ?_)
    rw [length_entryBytes]
    omega
  · rw [build_of_lt (Nat.lt_of_not_le hfits)]

end WalEntryBuilder

end Zrtools.Wal

import Zrtools.Crc32
import Zrtools.Lib.LittleEndian

/-!
# zrtools — WAL entries (`zrt_wal_entry.h`)

The 24-byte `WalEntryHeader` shared by the file log and the shared-memory ring,
as a record of fixed-width integers with its byte layout on a little-endian
machine, and the checksum rules of `WalEntry`. An entry type is any `uint16_t`
enumeration, so its values are the 16-bit words.
-/

namespace Zrtools.Wal

open Zrtools.Crc32

/-- `WalEntryHeader<TypeEnum>`. -/
structure WalEntryHeader where
  seq : UInt64
  timestampNs : UInt64
  type : UInt16
  dataLen : UInt16
  crc32 : UInt32
  deriving DecidableEq, Repr

/-- `sizeof(WalEntryHeader<TypeEnum>)`. -/
abbrev walEntryHeaderSize : Nat := 24

/-- Payload bytes whose number fits the `uint16_t` length field. -/
structure Payload where
  bytes : List UInt8
  fits : bytes.length < 2 ^ 16
  deriving DecidableEq

/-- No payload. -/
def Payload.empty : Payload := ⟨[], by decide⟩

/-- The `len` argument that comes with a payload. -/
def Payload.len (p : Payload) : UInt16 := UInt16.ofNat p.bytes.length

@[simp] theorem Payload.len_toNat (p : Payload) : p.len.toNat = p.bytes.length := by
  rw [Payload.len, UInt16.toNat_ofNat']
  exact Nat.mod_eq_of_lt p.fits

namespace WalEntryHeader

open LittleEndian

/-- The header as it lies in memory and in files. -/
def toBytes (h : WalEntryHeader) : List UInt8 :=
  encode 8 h.seq.toNat ++ (encode 8 h.timestampNs.toNat ++ (encode 2 h.type.toNat ++
    (encode 2 h.dataLen.toNat ++ encode 4 h.crc32.toNat)))

/-- The header a 24-byte string stands for. -/
def ofBytes (l : List UInt8) : WalEntryHeader where
  seq := UInt64.ofNat (decode (l.take 8))
  timestampNs := UInt64.ofNat (decode ((l.drop 8).take 8))
  type := UInt16.ofNat (decode ((l.drop 16).take 2))
  dataLen := UInt16.ofNat (decode ((l.drop 18).take 2))
  crc32 := UInt32.ofNat (decode ((l.drop 20).take 4))

@[simp] theorem length_toBytes (h : WalEntryHeader) : h.toBytes.length = walEntryHeaderSize := by
  simp [toBytes]

theorem ofBytes_toBytes (h : WalEntryHeader) : ofBytes h.toBytes = h := by
  have hseq : h.seq.toNat < 256 ^ 8 := h.seq.toNat_lt
  have hts : h.timestampNs.toNat < 256 ^ 8 := h.timestampNs.toNat_lt
  have htype : h.type.toNat < 256 ^ 2 := h.type.toNat_lt
  have hlen : h.dataLen.toNat < 256 ^ 2 := h.dataLen.toNat_lt
  have hcrc : h.crc32.toNat < 256 ^ 4 := h.crc32.toNat_lt
  simp [ofBytes, toBytes, List.drop_append, List.drop_eq_nil_of_le, List.take_of_length_le,
    decode_encode_of_lt hseq,
    decode_encode_of_lt hts, decode_encode_of_lt htype, decode_encode_of_lt hlen,
    decode_encode_of_lt hcrc]

/-- `WalEntryHeader::CalcCrc32(data, len)`. -/
def calcCrc32 (data : List UInt8) : UInt32 := crc32Calc data

end WalEntryHeader

/-- `WalEntry::ValidateCrc()` on a header and the `data_len` bytes behind it. -/
def validateCrc (h : WalEntryHeader) (data : List UInt8) : Bool :=
  if h.dataLen = 0 then h.crc32 == 0 else h.crc32 == WalEntryHeader.calcCrc32 data

/-- The checksum `WalEntry::UpdateCrc()` stores. -/
def updateCrc (dataLen : UInt16) (data : List UInt8) : UInt32 :=
  if dataLen = 0 then 0 else WalEntryHeader.calcCrc32 data

theorem validateCrc_updateCrc {h : WalEntryHeader} {data : List UInt8}
    (hcrc : h.crc32 = updateCrc h.dataLen data) : validateCrc h data = true := by
  rw [validateCrc, hcrc, updateCrc]
  split <;> simp

/-- **Short bursts are found.** After `UpdateCrc()` no change inside four consecutive payload
bytes passes `ValidateCrc()`. -/
theorem validateCrc_burst {h : WalEntryHeader} {data changed : List UInt8} {off : Nat}
    (hdata : h.dataLen.toNat = data.length) (hlen : changed.length = data.length)
    (hwindow : ∀ i, changed[i]? ≠ data[i]? → off ≤ i ∧ i < off + 4) (hne : changed ≠ data) :
    validateCrc { h with crc32 := updateCrc h.dataLen data } changed = false := by
  have hpos : h.dataLen ≠ 0 := by
    intro hzero
    rw [hzero] at hdata
    have hnil : data = [] := List.eq_nil_of_length_eq_zero hdata.symm
    subst hnil
    exact hne (List.eq_nil_of_length_eq_zero hlen)
  simp only [validateCrc, updateCrc, if_neg hpos, beq_eq_false_iff_ne]
  exact (crc32Calc_burst_ne hlen hwindow hne).symm

/-- Two of the five bytes of an entry turn over. -/
theorem validateCrc_burst_two :
    validateCrc { (⟨7, 0, 1, 5, 0⟩ : WalEntryHeader) with
      crc32 := updateCrc 5 [1, 2, 3, 4, 5] } [1, 9, 3, 0, 5] = false :=
  @validateCrc_burst ⟨7, 0, 1, 5, 0⟩ [1, 2, 3, 4, 5] [1, 9, 3, 0, 5] 1 rfl rfl
    (by
      intro i hi
      match i with
      | 0 | 2 | 4 => exact absurd rfl hi
      | 1 | 3 => omega
      | n + 5 => exact absurd rfl hi)
    (by decide)

end Zrtools.Wal

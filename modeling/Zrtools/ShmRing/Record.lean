import Zrtools.ShmRing.Calls
import Zrtools.Lib.Footprint

/-!
# zrtools — the record at an offset (`zrt_shm_ring.h`)

What the readers make of the bytes at an offset of the buffer, whatever these are: the fields
of the header, the payload behind it, whether the record is passed over and where the next one
begins. Each part of a reader is the field that it looks at, and the bytes that it touches.

* `headerAt`, `dataAt`, `sizeAt` — the record;
* `SkipAt`, `ValidAt` — the two tests;
* `eval_loadSeq`, `eval_isSkip`, `eval_validateCrcAt`, `eval_copyEntry` — the parts of the code;
* `within_loadDataLen`, `within_isSkip`, `within_validateCrcAt`, `within_copyEntry` — where they
  stay inside the buffer.
-/

namespace Zrtools.ShmRing

open ByteMemory LittleEndian SharedMemory Wal

-- ---------------------------------------------------------------------------
-- Records
-- ---------------------------------------------------------------------------

/-- The header. -/
def headerAt (m : Mem) (off : Nat) : WalEntryHeader :=
  WalEntryHeader.ofBytes (slice m off walEntryHeaderSize)

/-- As many bytes behind the header as it says. -/
def dataAt (m : Mem) (off : Nat) : List UInt8 :=
  slice m (off + walEntryHeaderSize) (headerAt m off).dataLen.toNat

/-- The space to the next record. -/
def sizeAt (m : Mem) (off : Nat) : Nat := entrySize (headerAt m off).dataLen

def copyAt (m : Mem) (off : Nat) : Copy := (headerAt m off, dataAt m off)

/-- The test for a skip record. -/
def SkipAt (m : Mem) (off : Nat) : Prop :=
  (headerAt m off).seq = 0 ∨ (headerAt m off).type = 0

/-- `ValidateCrc()`. -/
def ValidAt (m : Mem) (off : Nat) : Prop := validateCrc (headerAt m off) (dataAt m off) = true

instance (m : Mem) (off : Nat) : Decidable (SkipAt m off) := by
  unfold SkipAt
  infer_instance

instance (m : Mem) (off : Nat) : Decidable (ValidAt m off) := by
  unfold ValidAt
  infer_instance

/-- An entry that the readers hand out. -/
def GoodAt (m : Mem) (off : Nat) : Prop := ¬ SkipAt m off ∧ ValidAt m off

instance (m : Mem) (off : Nat) : Decidable (GoodAt m off) := by
  unfold GoodAt
  infer_instance

theorem length_dataAt (m : Mem) (off : Nat) :
    (dataAt m off).length = (headerAt m off).dataLen.toNat := length_slice ..

-- ---------------------------------------------------------------------------
-- The fields of the header
-- ---------------------------------------------------------------------------

section Fields

variable (m : Mem) (off : Nat)

theorem headerAt_seq : (headerAt m off).seq = UInt64.ofNat (decode (slice m off 8)) := by
  rw [headerAt, WalEntryHeader.ofBytes, take_slice m off (by decide)]

theorem headerAt_type :
    (headerAt m off).type = UInt16.ofNat (decode (slice m (off + 16) 2)) := by
  show UInt16.ofNat (decode (((slice m off walEntryHeaderSize).drop 16).take 2)) = _
  rw [drop_slice m off (by decide), take_slice _ _ (by decide)]

theorem headerAt_dataLen :
    (headerAt m off).dataLen = UInt16.ofNat (decode (slice m (off + 18) 2)) := by
  show UInt16.ofNat (decode (((slice m off walEntryHeaderSize).drop 18).take 2)) = _
  rw [drop_slice m off (by decide), take_slice _ _ (by decide)]

theorem headerAt_crc32 :
    (headerAt m off).crc32 = UInt32.ofNat (decode (slice m (off + 20) 4)) := by
  show UInt32.ofNat (decode (((slice m off walEntryHeaderSize).drop 20).take 4)) = _
  rw [drop_slice m off (by decide), take_slice _ _ (by decide)]

end Fields

-- ---------------------------------------------------------------------------
-- The parts of the code
-- ---------------------------------------------------------------------------

section Eval

variable (off : Nat) (s : Memory)

theorem eval_loadSeq : (loadSeq off).eval s = ((headerAt (s.byte ()) off).seq, s) := by
  rw [loadSeq, Prog.eval_bind, Prog.eval_loadBytes, headerAt_seq]
  rfl

theorem eval_loadType : (loadType off).eval s = ((headerAt (s.byte ()) off).type, s) := by
  rw [loadType, Prog.eval_bind, Prog.eval_loadBytes, headerAt_type]
  rfl

theorem eval_loadDataLen :
    (loadDataLen off).eval s = ((headerAt (s.byte ()) off).dataLen, s) := by
  rw [loadDataLen, Prog.eval_bind, Prog.eval_loadBytes, headerAt_dataLen]
  rfl

theorem eval_loadCrc32 : (loadCrc32 off).eval s = ((headerAt (s.byte ()) off).crc32, s) := by
  rw [loadCrc32, Prog.eval_bind, Prog.eval_loadBytes, headerAt_crc32]
  rfl

theorem eval_isSkip : (isSkip off).eval s = (decide (SkipAt (s.byte ()) off), s) := by
  rw [isSkip, Prog.eval_bind, eval_loadSeq]
  dsimp only
  by_cases hseq : (headerAt (s.byte ()) off).seq = 0
  · have hskip : SkipAt (s.byte ()) off := Or.inl hseq
    rw [if_pos hseq, decide_eq_true hskip]
    rfl
  · rw [if_neg hseq, Prog.eval_bind, eval_loadType]
    simp [SkipAt, hseq, BEq.beq]

theorem eval_validateCrcAt :
    (validateCrcAt off).eval s = (decide (ValidAt (s.byte ()) off), s) := by
  rw [validateCrcAt, Prog.eval_bind, eval_loadDataLen]
  dsimp only
  rw [Prog.eval_bind, eval_loadCrc32]
  dsimp only
  have hvalid : decide (ValidAt (s.byte ()) off) =
      validateCrc (headerAt (s.byte ()) off) (dataAt (s.byte ()) off) := by
    rw [Bool.eq_iff_iff, decide_eq_true_iff]
    rfl
  rw [hvalid, validateCrc]
  by_cases hlen : (headerAt (s.byte ()) off).dataLen = 0
  · rw [if_pos hlen, if_pos hlen]
    rfl
  · rw [if_neg hlen, if_neg hlen, Prog.eval_bind, Prog.eval_loadBytes]
    rfl

theorem eval_copyEntry : (copyEntry off).eval s = (copyAt (s.byte ()) off, s) := by
  rw [copyEntry, Prog.eval_bind, eval_loadDataLen]
  dsimp only
  rw [Prog.eval_bind, Prog.eval_loadBytes]
  dsimp only
  rw [Prog.eval_bind, Prog.eval_loadBytes]
  rfl

end Eval

-- ---------------------------------------------------------------------------
-- The bytes they touch
-- ---------------------------------------------------------------------------

/-- The one region of bytes. -/
abbrev bufferOnly (cfg : Sizes) : Unit → Nat := fun () => cfg.bufferSize

section Within

variable {cfg : Sizes} {off : Nat} {s : Memory}

theorem within_loadSeq :
    Prog.Stays (Prog.Within (bufferOnly cfg)) (loadSeq off) s ↔ off + 8 ≤ cfg.bufferSize := by
  simp [loadSeq, Prog.within_loadBytes]

theorem within_loadType :
    Prog.Stays (Prog.Within (bufferOnly cfg)) (loadType off) s ↔ off + 18 ≤ cfg.bufferSize := by
  simp [loadType, Prog.within_loadBytes]

theorem within_loadDataLen :
    Prog.Stays (Prog.Within (bufferOnly cfg)) (loadDataLen off) s ↔
      off + 20 ≤ cfg.bufferSize := by
  simp [loadDataLen, Prog.within_loadBytes]

theorem within_loadCrc32 :
    Prog.Stays (Prog.Within (bufferOnly cfg)) (loadCrc32 off) s ↔
      off + 24 ≤ cfg.bufferSize := by
  simp [loadCrc32, Prog.within_loadBytes]

theorem within_isSkip :
    Prog.Stays (Prog.Within (bufferOnly cfg)) (isSkip off) s ↔
      off + 8 ≤ cfg.bufferSize ∧
        ((headerAt (s.byte ()) off).seq ≠ 0 → off + 18 ≤ cfg.bufferSize) := by
  rw [isSkip, Prog.stays_bind, within_loadSeq, eval_loadSeq]
  dsimp only
  by_cases hseq : (headerAt (s.byte ()) off).seq = 0
  · rw [if_pos hseq]
    simp [hseq]
  · rw [if_neg hseq, Prog.stays_bind, within_loadType, eval_loadType]
    simp [hseq]

theorem within_validateCrcAt :
    Prog.Stays (Prog.Within (bufferOnly cfg)) (validateCrcAt off) s ↔
      off + walEntryHeaderSize + (headerAt (s.byte ()) off).dataLen.toNat ≤ cfg.bufferSize := by
  have hheader : walEntryHeaderSize = 24 := rfl
  rw [validateCrcAt, Prog.stays_bind, within_loadDataLen, eval_loadDataLen]
  dsimp only
  rw [Prog.stays_bind, within_loadCrc32, eval_loadCrc32]
  dsimp only
  by_cases hlen : (headerAt (s.byte ()) off).dataLen = 0
  · have hzero : (headerAt (s.byte ()) off).dataLen.toNat = 0 := by
      rw [hlen]
      rfl
    rw [if_pos hlen, hzero]
    simp only [Prog.stays_pure, and_true]
    omega
  · rw [if_neg hlen, Prog.stays_bind, Prog.within_loadBytes]
    simp only [Prog.stays_pure, and_true, bufferOnly]
    omega

theorem within_copyEntry :
    Prog.Stays (Prog.Within (bufferOnly cfg)) (copyEntry off) s ↔
      off + walEntryHeaderSize + (headerAt (s.byte ()) off).dataLen.toNat ≤ cfg.bufferSize := by
  have hheader : walEntryHeaderSize = 24 := rfl
  rw [copyEntry, Prog.stays_bind, within_loadDataLen, eval_loadDataLen]
  dsimp only
  rw [Prog.stays_bind, Prog.within_loadBytes, Prog.stays_bind, Prog.within_loadBytes]
  simp only [Prog.eval_loadBytes, Prog.stays_pure, and_true, bufferOnly]
  omega

end Within

end Zrtools.ShmRing

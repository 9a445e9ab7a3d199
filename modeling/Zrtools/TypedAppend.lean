import Zrtools.ShmRing.Failure
import Zrtools.ShmRing.Pipeline
import Zrtools.ShmRing.Scan
import Zrtools.Wal.Builder

/-!
# zrtools — objects of a type (`Append<T>`, `Build<T>`)

The ring, the file writer and the builder can be given an object. Its size goes through the
parameter `uint16_t len`, and each of them tests only what is left of it.

* `Full.appendTyped`, `WalFileWriter.appendTyped`, `WalEntryBuilder.buildTyped` — the code;
* `ringWhole_iff`, `fileWhole_iff`, `builderWhole_iff` — exactly when each one stores the
  whole object or nothing;
* `storesWhole_iff` — all three.
-/

namespace Zrtools

open ByteMemory SharedMemory ShmRing Wal

-- ---------------------------------------------------------------------------
-- The code
-- ---------------------------------------------------------------------------

/-- `Append(type, data)` of the ring; `v` are the bytes of the object. -/
def ShmRing.Full.appendTyped (cfg : Sizes) (type : UInt16) (v : List UInt8) :
    FullCode (Option UInt64) := appendCall cfg type (.bytes (payloadOf v))

/-- `Append(type, data)` of the file writer. -/
def Wal.WalFileWriter.appendTyped (w : WalFileWriter) (type : UInt16) (v : List UInt8)
    (now : UInt64) : Option (UInt64 × WalFileWriter) := w.append type (payloadOf v) now

/-- `Build(seq, timestamp_ns, type, data)`. -/
def Wal.WalEntryBuilder.buildTyped {maxSize : Nat} (b : WalEntryBuilder maxSize)
    (seq timestampNs : UInt64) (type : UInt16) (v : List UInt8) :
    Bool × WalEntryBuilder maxSize := b.build seq timestampNs type (.bytes (payloadOf v))

/-- What is left of the size. -/
theorem length_payloadOf (v : List UInt8) : (payloadOf v).bytes.length = v.length % 2 ^ 16 := by
  rw [payloadOf, List.length_take]
  exact Nat.min_eq_left (Nat.mod_le _ _)

theorem payloadOf_whole_iff (v : List UInt8) : (payloadOf v).bytes = v ↔ v.length < 2 ^ 16 := by
  refine ⟨?_, ?_⟩
  · intro hwhole
    rw [← hwhole]
    exact (payloadOf v).fits
  · intro hlt
    show v.take (v.length % 2 ^ 16) = v
    rw [Nat.mod_eq_of_lt hlt, List.take_length]

-- ---------------------------------------------------------------------------
-- The ring
-- ---------------------------------------------------------------------------

/-- The last record before `write_pos`. -/
def LastRecord (cfg : Sizes) (s : FullMemory) (seq : UInt64) (type : UInt16) (v : List UInt8) :
    Prop :=
  ∃ pos, nextPos cfg (s.byte ()) pos = s.word (.atomic .writePos) ∧
    (headerAt (s.byte ()) (offsetOf cfg pos)).seq = seq ∧
    (headerAt (s.byte ()) (offsetOf cfg pos)).type = type ∧
    dataAt (s.byte ()) (offsetOf cfg pos) = v

/-- No entry was stored; at most the ends of laps were skipped. -/
inductive OnlySkips (cfg : Sizes) : FullMemory → FullMemory → Prop
  | nothing (s : FullMemory) : OnlySkips cfg s s
  | endLap {s t : FullMemory} (hrest : OnlySkips cfg (endLap cfg s) t) : OnlySkips cfg s t

/-- `Append` returns; if it returns a number, the entry has all bytes of the object, and if it
returns 0, no entry was stored. -/
def RingWhole (cfg : Sizes) (type : UInt16) (v : List UInt8) (s : FullMemory) : Prop :=
  ∃ seq s', (Full.appendTyped cfg type v).eval s = (some seq, s') ∧
    (seq ≠ 0 → LastRecord cfg s' seq type v) ∧ (seq = 0 → OnlySkips cfg s s')

/-- An entry of this size passes the tests and fits into the lap or into the next one. -/
def Places (cfg : Sizes) (size : Nat) (s : Memory) : Prop :=
  Accepts cfg size s ∧ (Wraps cfg size s →
    Accepts cfg size (behindLap cfg s) ∧ ¬ Wraps cfg size (behindLap cfg s))

/-- The number it is given. -/
def numberOf (cfg : Sizes) (size : Nat) (s : Memory) : UInt64 :=
  if Wraps cfg size s then s.word .nextSeq + 1 else s.word .nextSeq

section Ring

variable {cfg : Sizes} {type : UInt16} {v : List UInt8} {s s' t : FullMemory}

/-- The entry that was put. -/
theorem lastRecord_putEntry (cfg : Sizes) (type : UInt16) (data : Payload) (t : FullMemory) :
    LastRecord cfg (putEntry cfg type (.bytes data) t) (t.word (.atomic .nextSeq)) type
      data.bytes := by
  have hbyte : (putEntry cfg type (.bytes data) t).byte () =
      write (t.byte ()) (offsetOf cfg (t.word (.atomic .writePos)))
        (entryBytes (t.byte ()) (offsetOf cfg (t.word (.atomic .writePos)))
          (t.word (.atomic .nextSeq)) (t.word (.atomic .clock)) type (.bytes data)) := rfl
  refine ⟨t.word (.atomic .writePos), ?_, ?_, ?_, ?_⟩
  · rw [nextPos, sizeAt, hbyte, headerAt_entryBytes]
    rfl
  · rw [hbyte, headerAt_entryBytes]
    rfl
  · rw [hbyte, headerAt_entryBytes]
    rfl
  · rw [hbyte, dataAt_entryBytes]
    rfl

/-- No record is as long as that. -/
theorem LastRecord.length_lt {seq : UInt64} (h : LastRecord cfg s seq type v) :
    v.length < 2 ^ 16 := by
  obtain ⟨pos, hnext, hseq, htype, hdata⟩ := h
  have hlength := length_dataAt (s.byte ()) (offsetOf cfg pos)
  rw [hdata] at hlength
  rw [hlength]
  exact (headerAt (s.byte ()) (offsetOf cfg pos)).dataLen.toNat_lt

/-- Where ends of laps are skipped no entry is counted. -/
theorem OnlySkips.totalEntries (h : OnlySkips cfg s t) :
    t.word .totalEntries = s.word .totalEntries := by
  induction h with
  | nothing s => rfl
  | endLap hrest ih => exact ih

theorem not_onlySkips_putEntry {data : Source} (hsame : t.word .totalEntries =
    s.word .totalEntries) : ¬ OnlySkips cfg s (putEntry cfg type data t) := by
  intro honly
  have hcount : t.word .totalEntries + 1 = s.word .totalEntries := honly.totalEntries
  rw [hsame] at hcount
  simp at hcount

/-- A call that returns 0. -/
theorem ringWhole_of_refused (hend : (Full.appendTyped cfg type v).eval s = (some 0, s'))
    (honly : OnlySkips cfg s s') : RingWhole cfg type v s :=
  ⟨0, s', hend, fun hzero => absurd rfl hzero, fun _ => honly⟩

/-- A call that puts an entry. -/
theorem ringWhole_iff_put (hend : (Full.appendTyped cfg type v).eval s =
      (some (t.word (.atomic .nextSeq)), putEntry cfg type (.bytes (payloadOf v)) t))
    (hsame : t.word .totalEntries = s.word .totalEntries) :
    RingWhole cfg type v s ↔ v.length < 2 ^ 16 ∧ t.word (.atomic .nextSeq) ≠ 0 := by
  refine ⟨?_, ?_⟩
  · rintro ⟨seq, s', hend', hput, hnone⟩
    obtain ⟨rfl, rfl⟩ : t.word (.atomic .nextSeq) = seq ∧
        putEntry cfg type (.bytes (payloadOf v)) t = s' := by
      simpa using hend.symm.trans hend'
    by_cases hseq : t.word (.atomic .nextSeq) = 0
    · exact absurd (hnone hseq) (not_onlySkips_putEntry hsame)
    · exact ⟨(hput hseq).length_lt, hseq⟩
  · rintro ⟨hlt, hseq⟩
    have hwhole := (payloadOf_whole_iff v).mpr hlt
    refine ⟨_, _, hend, fun _ => ?_, fun hzero => absurd hzero hseq⟩
    have hlast := lastRecord_putEntry cfg type (payloadOf v) t
    rwa [hwhole] at hlast

/-- **The ring** stores the whole object or nothing iff a call that gets a place has an object
whose size is not cut, and a number other than 0. -/
theorem ringWhole_iff (hpos : 0 < cfg.bufferSize) :
    RingWhole cfg type v s ↔ (Places cfg (entrySize (payloadOf v).len) (atomics s) →
      v.length < 2 ^ 16 ∧ numberOf cfg (entrySize (payloadOf v).len) (atomics s) ≠ 0) := by
  obtain ⟨seq, s', hend, hends⟩ := eval_appendCall hpos type (.bytes (payloadOf v)) s
  cases hends with
  | refused hnot =>
    exact iff_of_true (ringWhole_of_refused hend (.nothing s)) fun h => absurd h.1 hnot
  | put haccepts hfits =>
    have hfits : ¬ Wraps cfg (entrySize (payloadOf v).len) (atomics s) := hfits
    have hplaces : Places cfg (entrySize (payloadOf v).len) (atomics s) :=
      ⟨haccepts, fun hwraps => absurd hwraps hfits⟩
    rw [forall_prop_of_true hplaces, numberOf, if_neg hfits]
    exact ringWhole_iff_put hend rfl
  | refusedBehind haccepts hwraps hnot =>
    exact iff_of_true (ringWhole_of_refused hend (.endLap (.nothing _)))
      fun h => absurd (h.2 hwraps).1 hnot
  | putBehind haccepts hwraps haccepts' hfits =>
    have hwraps : Wraps cfg (entrySize (payloadOf v).len) (atomics s) := hwraps
    have hplaces : Places cfg (entrySize (payloadOf v).len) (atomics s) :=
      ⟨haccepts, fun _ => ⟨haccepts', hfits⟩⟩
    rw [forall_prop_of_true hplaces, numberOf, if_pos hwraps]
    exact ringWhole_iff_put (t := endLap cfg s) hend rfl
  | refusedBehindTwo haccepts hwraps hwraps' =>
    exact iff_of_true (ringWhole_of_refused hend (.endLap (.endLap (.nothing _))))
      fun h => absurd hwraps' (h.2 hwraps).2

end Ring

-- ---------------------------------------------------------------------------
-- The file
-- ---------------------------------------------------------------------------

/-- If `Append` returns a number, the file goes on with an entry that has all bytes of the
object, and if it returns 0, nothing has changed. -/
def FileWhole (w : WalFileWriter) (type : UInt16) (v : List UInt8) (now : UInt64) : Prop :=
  ∀ seq w', w.appendTyped type v now = some (seq, w') →
    (seq ≠ 0 → ∃ (out out' : OStream) (header : WalEntryHeader),
      w.file = some out ∧ w'.file = some out' ∧
      out'.written = out.written ++ header.toBytes ++ v ∧ header.seq = seq ∧
      header.type = type ∧ header.dataLen.toNat = v.length) ∧
    (seq = 0 → w' = w)

section File

variable {w : WalFileWriter} {type : UInt16} {v : List UInt8} {now : UInt64}

/-- **The file** gets the whole object or nothing iff an entry that is written has an object
whose size is not cut, and a number other than 0. -/
theorem fileWhole_iff : FileWhole w type v now ↔
    (w.file ≠ none → w.syncInterval ≠ 0 → v.length < 2 ^ 16 ∧ w.currentSeq + 1 ≠ 0) := by
  cases hfile : w.file with
  | none =>
    refine iff_of_true ?_ fun h => absurd rfl h
    intro seq w' hend
    rw [WalFileWriter.appendTyped, WalFileWriter.append, hfile] at hend
    obtain ⟨rfl, rfl⟩ : 0 = seq ∧ w = w' := by simpa using hend
    exact ⟨fun hzero => absurd rfl hzero, fun _ => rfl⟩
  | some out =>
    rw [forall_prop_of_true (Option.some_ne_none out)]
    by_cases hsync : w.syncInterval = 0
    · refine iff_of_true ?_ fun h => absurd hsync h
      intro seq w' hend
      rw [WalFileWriter.appendTyped, WalFileWriter.append, hfile] at hend
      simp [hsync] at hend
    · rw [forall_prop_of_true hsync]
      obtain ⟨out', hend, hwritten⟩ :=
        WalFileWriter.append_written hfile hsync type (payloadOf v) now
      refine ⟨?_, ?_⟩
      · intro h
        obtain ⟨hput, hnone⟩ := h _ _ hend
        have hseq : w.currentSeq + 1 ≠ 0 := by
          intro hzero
          have hsame := congrArg WalFileWriter.entryCount (hnone hzero)
          simp at hsame
        obtain ⟨-, -, header, -, -, -, -, -, hlen⟩ := hput hseq
        rw [← hlen]
        exact ⟨header.dataLen.toNat_lt, hseq⟩
      · rintro ⟨hlt, hseq⟩ seq w' hend'
        have hwhole := (payloadOf_whole_iff v).mpr hlt
        obtain ⟨rfl, rfl⟩ := Prod.mk.inj (Option.some.inj (hend.symm.trans hend'))
        refine ⟨fun _ => ?_, fun hzero => absurd hzero hseq⟩
        refine ⟨out, out', w.entryHeader type (payloadOf v) now, hfile, rfl, ?_, rfl, rfl, ?_⟩
        · rw [hwritten, hwhole, List.append_assoc]
        · show (payloadOf v).len.toNat = v.length
          rw [Payload.len_toNat, hwhole]

end File

-- ---------------------------------------------------------------------------
-- The builder
-- ---------------------------------------------------------------------------

/-- If `Build` returns true, the entry in the buffer has all bytes of the object, and if it
returns false, nothing has changed. -/
def BuilderWhole {maxSize : Nat} (b : WalEntryBuilder maxSize) (seq timestampNs : UInt64)
    (type : UInt16) (v : List UInt8) : Prop :=
  let (built, b') := b.buildTyped seq timestampNs type v
  (built = true → b'.size = walEntryHeaderSize + v.length ∧
    (headerAt b'.buffer 0).seq = seq ∧ (headerAt b'.buffer 0).timestampNs = timestampNs ∧
    (headerAt b'.buffer 0).type = type ∧ dataAt b'.buffer 0 = v) ∧
  (built = false → b' = b)

section Builder

variable {maxSize : Nat} {b : WalEntryBuilder maxSize} {seq timestampNs : UInt64} {type : UInt16}
  {v : List UInt8}

/-- **The builder** stores the whole object or nothing iff an object that fits after its size
was cut is one whose size was not cut. -/
theorem builderWhole_iff : BuilderWhole b seq timestampNs type v ↔
    (walEntryHeaderSize + v.length % 2 ^ 16 ≤ maxSize → v.length < 2 ^ 16) := by
  have hlen : (Source.bytes (payloadOf v)).len.toNat = v.length % 2 ^ 16 := by
    rw [← length_payloadOf]
    exact Payload.len_toNat _
  by_cases hfits : walEntryHeaderSize + v.length % 2 ^ 16 ≤ maxSize
  · rw [forall_prop_of_true hfits, BuilderWhole, WalEntryBuilder.buildTyped,
      WalEntryBuilder.build_of_le (by rwa [hlen])]
    dsimp only
    rw [headerAt_entryBytes, dataAt_entryBytes, hlen]
    have hbytes : (Source.bytes (payloadOf v)).payload
        (stale b.buffer 0 (.bytes (payloadOf v))) = (payloadOf v).bytes := rfl
    rw [hbytes]
    refine ⟨?_, ?_⟩
    · intro h
      exact (payloadOf_whole_iff v).mp (h.1 rfl).2.2.2.2
    · intro hlt
      refine ⟨fun _ => ⟨?_, rfl, rfl, rfl, (payloadOf_whole_iff v).mpr hlt⟩, by rintro ⟨⟩⟩
      rw [Nat.mod_eq_of_lt hlt]
  · rw [BuilderWhole, WalEntryBuilder.buildTyped,
      WalEntryBuilder.build_of_lt (by rw [hlen]; exact Nat.lt_of_not_le hfits)]
    exact iff_of_true ⟨by rintro ⟨⟩, fun _ => rfl⟩ fun h => absurd h hfits

end Builder

-- ---------------------------------------------------------------------------
-- All three
-- ---------------------------------------------------------------------------

/-- **The whole object or nothing**: exactly when an object that is accepted is smaller than
`2^16` bytes, and the entry in the ring or in the file is not given the number 0. -/
theorem storesWhole_iff (cfg : Sizes) (hpos : 0 < cfg.bufferSize) (type : UInt16)
    (v : List UInt8) :
    (∀ s, RingWhole cfg type v s ↔ (Places cfg (entrySize (payloadOf v).len) (atomics s) →
      v.length < 2 ^ 16 ∧ numberOf cfg (entrySize (payloadOf v).len) (atomics s) ≠ 0)) ∧
    (∀ w now, FileWhole w type v now ↔
      (w.file ≠ none → w.syncInterval ≠ 0 → v.length < 2 ^ 16 ∧ w.currentSeq + 1 ≠ 0)) ∧
    ∀ maxSize (b : WalEntryBuilder maxSize) seq timestampNs,
      BuilderWhole b seq timestampNs type v ↔
        (walEntryHeaderSize + v.length % 2 ^ 16 ≤ maxSize → v.length < 2 ^ 16) :=
  ⟨fun _ => ringWhole_iff hpos, fun _ _ => fileWhole_iff, fun _ _ _ _ => builderWhole_iff⟩

theorem storesWhole_threeBytes : 0 < tightSizes.bufferSize ∧
    (∀ s, RingWhole tightSizes 5 [1, 2, 3] s ↔
      (Places tightSizes (entrySize (payloadOf [1, 2, 3]).len) (atomics s) →
        [1, 2, 3].length < 2 ^ 16 ∧
          numberOf tightSizes (entrySize (payloadOf [1, 2, 3]).len) (atomics s) ≠ 0)) ∧
    (∀ w now, FileWhole w 5 [1, 2, 3] now ↔
      (w.file ≠ none → w.syncInterval ≠ 0 → [1, 2, 3].length < 2 ^ 16 ∧ w.currentSeq + 1 ≠ 0)) ∧
    ∀ maxSize (b : WalEntryBuilder maxSize) seq timestampNs,
      BuilderWhole b seq timestampNs 5 [1, 2, 3] ↔
        (walEntryHeaderSize + [1, 2, 3].length % 2 ^ 16 ≤ maxSize → [1, 2, 3].length < 2 ^ 16) :=
  ⟨by decide, storesWhole_iff tightSizes (by decide) 5 [1, 2, 3]⟩

/-- An object of `2^16 + 8` bytes. -/
def largeObject : List UInt8 := List.replicate (2 ^ 16 + 8) 7

theorem length_largeObject : largeObject.length = 2 ^ 16 + 8 := List.length_replicate

/-- Eight bytes of it are stored, by all three. -/
theorem not_storesWhole_largeObject :
    ¬ RingWhole tightSizes 5 largeObject Full.fresh ∧
    ¬ FileWhole (WalFileWriter.createNewFile defaultPrefix 0 0) 5 largeObject 0 ∧
    ¬ BuilderWhole (WalEntryBuilder.new 4096) 1 0 5 largeObject := by
  have hlarge : ¬ largeObject.length < 2 ^ 16 := by
    rw [length_largeObject]
    omega
  have hcut : largeObject.length % 2 ^ 16 = 8 := by
    rw [length_largeObject]
    omega
  have hlen : (payloadOf largeObject).len = 8 := by
    apply UInt16.toNat_inj.mp
    rw [Payload.len_toNat, length_payloadOf, hcut]
    rfl
  refine ⟨?_, ?_, ?_⟩
  · rw [ringWhole_iff (by decide), hlen]
    intro h
    have hplaces : Places tightSizes (entrySize 8) (atomics Full.fresh) :=
      ⟨by decide, fun hwraps => absurd hwraps (by decide)⟩
    exact hlarge (h hplaces).1
  · rw [fileWhole_iff]
    exact fun h => hlarge (h (by decide) (by decide)).1
  · rw [builderWhole_iff, hcut]
    exact fun h => hlarge (h (by decide))

end Zrtools

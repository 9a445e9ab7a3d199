import Zrtools.ShmRing.Tape

/-!
# zrtools — one record of the ring

How the readers look at a record and how `Append` writes one, whoever else is at work:
the rules are for the assertions of any contract.

* `safe_loadSeq`, `safe_loadType`, `safe_loadDataLen`, `safe_loadCrc32`, `safe_isSkip`,
  `safe_validateCrcAt`, `safe_copyData` — reading, where the assertion knows which
  segment lies there;
* `Draft` — an assertion that keeps track of stores into a part of the buffer;
* `Draft.writeSkip`, `Draft.writeEntry` — what is there after them.
-/

namespace Zrtools.ShmRing

open ByteMemory LittleEndian SharedMemory Wal

-- ---------------------------------------------------------------------------
-- The fields of a segment
-- ---------------------------------------------------------------------------

section Fields

variable {cfg : Sizes} {m : Mem} {pos : Nat} {seg : Segment}

theorem Lies.seq (h : Lies cfg m pos seg) :
    slice m (pos % cfg.bufferSize) 8 = encode 8 seg.header.seq.toNat := by
  have hfields := h.header
  rw [WalEntryHeader.toBytes, ← List.nil_append (encode 8 _ ++ _)] at hfields
  have hfield := slice_middle hfields
  rw [length_encode] at hfield
  exact hfield

theorem Lies.type (h : Lies cfg m pos seg) :
    slice m (pos % cfg.bufferSize + 16) 2 = encode 2 seg.header.type.toNat := by
  have hfields := h.header
  rw [WalEntryHeader.toBytes, ← List.append_assoc] at hfields
  have hfield := slice_middle hfields
  rw [List.length_append, length_encode, length_encode, length_encode] at hfield
  exact hfield

theorem Lies.dataLen (h : Lies cfg m pos seg) :
    slice m (pos % cfg.bufferSize + 18) 2 = encode 2 seg.header.dataLen.toNat := by
  have hfields := h.header
  rw [WalEntryHeader.toBytes, ← List.append_assoc, ← List.append_assoc] at hfields
  have hfield := slice_middle hfields
  rw [List.length_append, List.length_append, length_encode, length_encode, length_encode] at hfield
  exact hfield

theorem Lies.crc32 (h : Lies cfg m pos seg) :
    slice m (pos % cfg.bufferSize + 20) 4 = encode 4 seg.header.crc32.toNat := by
  have hfields := h.header
  rw [WalEntryHeader.toBytes, ← List.append_assoc, ← List.append_assoc, ← List.append_assoc,
    ← List.append_nil (encode 4 _)] at hfields
  have hfield := slice_middle hfields
  rw [List.length_append, List.length_append, List.length_append, length_encode, length_encode,
    length_encode, length_encode] at hfield
  exact hfield

end Fields

-- ---------------------------------------------------------------------------
-- Reading a record
-- ---------------------------------------------------------------------------

section Reading

variable {cfg : Sizes} {γ : Type} {c : Contract Var Unit γ} {A : Memory × γ → Prop} {pos : Nat}
  {seg : Segment} {w : Memory × γ}
  (hA : Keeps c A) (hlies : ∀ w, A w → Lies cfg (w.1.byte ()) pos seg) (hw : A w)

include hA hlies hw

theorem safe_loadSeq : Safe c (fun x w => x = seg.header.seq ∧ A w)
    (loadSeq (pos % cfg.bufferSize)) w := by
  refine (safe_loadField (fun l => UInt64.ofNat (decode l)) hA
    (fun w h => (hlies w h).seq) hw).mono ?_
  rintro _ w ⟨rfl, h⟩
  rw [decode_encode_of_lt seg.header.seq.toNat_lt, UInt64.ofNat_toNat]
  exact ⟨rfl, h⟩

theorem safe_loadType : Safe c (fun x w => x = seg.header.type ∧ A w)
    (loadType (pos % cfg.bufferSize)) w := by
  refine (safe_loadField (fun l => UInt16.ofNat (decode l)) hA
    (fun w h => (hlies w h).type) hw).mono ?_
  rintro _ w ⟨rfl, h⟩
  rw [decode_encode_of_lt seg.header.type.toNat_lt, UInt16.ofNat_toNat]
  exact ⟨rfl, h⟩

theorem safe_loadDataLen : Safe c (fun x w => x = seg.header.dataLen ∧ A w)
    (loadDataLen (pos % cfg.bufferSize)) w := by
  refine (safe_loadField (fun l => UInt16.ofNat (decode l)) hA
    (fun w h => (hlies w h).dataLen) hw).mono ?_
  rintro _ w ⟨rfl, h⟩
  rw [decode_encode_of_lt seg.header.dataLen.toNat_lt, UInt16.ofNat_toNat]
  exact ⟨rfl, h⟩

theorem safe_loadCrc32 : Safe c (fun x w => x = seg.header.crc32 ∧ A w)
    (loadCrc32 (pos % cfg.bufferSize)) w := by
  refine (safe_loadField (fun l => UInt32.ofNat (decode l)) hA
    (fun w h => (hlies w h).crc32) hw).mono ?_
  rintro _ w ⟨rfl, h⟩
  rw [decode_encode_of_lt seg.header.crc32.toNat_lt, UInt32.ofNat_toNat]
  exact ⟨rfl, h⟩

/-- Only skip records have number zero, if no entry has number or type zero. -/
theorem safe_isSkip (hentry : ∀ e, seg = .entry e → e.seq ≠ 0 ∧ e.type ≠ 0) :
    Safe c (fun skip w => skip = seg.triple.isNone ∧ A w) (isSkip (pos % cfg.bufferSize)) w := by
  unfold isSkip
  refine Safe.bind _ (safe_loadSeq hA hlies hw) ?_
  rintro _ w ⟨rfl, h⟩
  cases seg with
  | skip remaining => exact ⟨rfl, h⟩
  | entry e =>
    obtain ⟨hseq, htype⟩ := hentry e rfl
    rw [if_neg (show (Segment.entry e).header.seq ≠ 0 from hseq)]
    refine Safe.bind _ (safe_loadType hA hlies h) ?_
    rintro _ w ⟨rfl, h⟩
    exact ⟨beq_eq_false_iff_ne.mpr htype, h⟩

end Reading

section ReadingEntry

variable {cfg : Sizes} {γ : Type} {c : Contract Var Unit γ} {A : Memory × γ → Prop} {pos : Nat}
  {e : Entry} {w : Memory × γ}
  (hA : Keeps c A) (hlies : ∀ w, A w → Lies cfg (w.1.byte ()) pos (.entry e)) (hw : A w)

include hA hlies hw

/-- The payload of an entry, as far as it is asked for. -/
theorem safe_loadData {n : Nat} (hn : n ≤ e.data.bytes.length) :
    Safe c (fun data w => data = e.data.bytes.take n ∧ A w)
      (Prog.loadBytes () (pos % cfg.bufferSize + 24) n) w := by
  refine safe_loadBytes hA (fun w h => ?_) hw
  have hbody : slice (w.1.byte ()) (pos % cfg.bufferSize + 24) e.data.bytes.length =
      e.data.bytes := (hlies w h).body
  rw [← take_slice _ _ hn, hbody]

/-- The checksum of an entry is right. -/
theorem safe_validateCrcAt : Safe c (fun valid w => valid = true ∧ A w)
    (validateCrcAt (pos % cfg.bufferSize)) w := by
  have hvalid := @validateCrc_updateCrc e.header e.data.bytes rfl
  unfold validateCrc at hvalid
  unfold validateCrcAt
  refine Safe.bind _ (safe_loadDataLen hA hlies hw) ?_
  rintro _ w ⟨rfl, h⟩
  refine Safe.bind _ (safe_loadCrc32 hA hlies h) ?_
  rintro _ w ⟨rfl, h⟩
  have hheader : (Segment.entry e).header = e.header := rfl
  have hlen : e.header.dataLen.toNat = e.data.bytes.length := e.data.len_toNat
  rw [hheader, hlen]
  split
  · rename_i hzero
    rw [if_pos hzero] at hvalid
    exact ⟨hvalid, h⟩
  · rename_i hzero
    rw [if_neg hzero] at hvalid
    refine Safe.bind _ (safe_loadData hA hlies h (Nat.le_refl _)) ?_
    rintro _ w ⟨rfl, h⟩
    rw [List.take_length]
    exact ⟨hvalid, h⟩

/-- The copy that `ReadNext` makes. -/
theorem safe_copyData (maxLen : Nat) :
    Safe c (fun data w => data = e.data.bytes.take maxLen ∧ A w)
      (copyData maxLen (pos % cfg.bufferSize) e.header.dataLen) w := by
  have hlen : e.header.dataLen.toNat = e.data.bytes.length := e.data.len_toNat
  unfold copyData
  split
  · rw [hlen]
    refine (safe_loadData hA hlies hw (Nat.min_le_left ..)).mono ?_
    rintro _ w ⟨rfl, h⟩
    rw [Nat.min_comm, ← List.take_eq_take_min]
    exact ⟨rfl, h⟩
  · rename_i hzero
    rw [UInt16.lt_iff_toNat_lt, hlen] at hzero
    have hnil : e.data.bytes = [] := List.length_eq_zero_iff.mp (Nat.eq_zero_of_not_pos hzero)
    rw [hnil, List.take_nil]
    exact ⟨rfl, hw⟩

/-- The header of an entry. -/
theorem safe_loadHeader : Safe c (fun bytes w => bytes = e.header.toBytes ∧ A w)
    (Prog.loadBytes () (pos % cfg.bufferSize) walEntryHeaderSize) w :=
  safe_loadBytes hA (fun w h => (hlies w h).header) hw

end ReadingEntry

-- ---------------------------------------------------------------------------
-- Writing a record
-- ---------------------------------------------------------------------------

/-- The assertions `A m`, where the buffer holds `m`, keep track of stores into `[lo, hi)`. -/
structure Draft {γ : Type} (c : Contract Var Unit γ) (lo hi : Nat)
    (A : Mem → Memory × γ → Prop) : Prop where
  keeps : ∀ m, Keeps c (A m)
  buffer : ∀ m w, A m w → w.1.byte () = m
  store : ∀ m w i b, lo ≤ i → i < hi → A m w →
    ∃ g, c.guar w (w.1.setByte () i b, g) ∧ A (write m i [b]) (w.1.setByte () i b, g)

/-- Four fields behind each other. -/
theorem slice_fields (m : Mem) (off : Nat) {a b c d : List UInt8} (ha : a.length = 8)
    (hb : b.length = 8) (hc : c.length = 2) (hd : d.length = 2) :
    slice (write (write (write (write m off a) (off + 8) b) (off + 16) c) (off + 18) d) off 20 =
      a ++ (b ++ (c ++ d)) := by
  have hfirst := slice_write_of_length m off ha
  have hsecond := slice_write_append (write m off a) off 8 b
  have hthird := slice_write_append (write (write m off a) (off + 8) b) off 16 c
  have hfourth := slice_write_append
    (write (write (write m off a) (off + 8) b) (off + 16) c) off 18 d
  rw [hb, hfirst] at hsecond
  rw [hc, hsecond] at hthird
  rw [hd, hthird] at hfourth
  rw [hfourth]
  simp

/-- The checksum behind them. -/
theorem slice_crc32 (m : Mem) (off : Nat) {e : List UInt8} (he : e.length = 4) :
    slice (write m (off + 20) e) off walEntryHeaderSize = slice m off 20 ++ e := by
  have h := slice_write_append m off 20 e
  rw [he] at h
  exact h

section Writing

variable {γ : Type} {c : Contract Var Unit γ} {lo hi off : Nat} {A : Mem → Memory × γ → Prop}
  {m : Mem} {w : Memory × γ}

theorem Draft.storeBytes (h : Draft c lo hi A) {bytes : List UInt8} (hlo : lo ≤ off)
    (hhi : off + bytes.length ≤ hi) (hw : A m w) :
    Safe c (fun _ => A (write m off bytes)) (Prog.storeBytes () off bytes) w := by
  refine safe_storeBytes h.keeps ?_ hw
  intro m w i b hi hi' hA
  exact h.store m w i b (by omega) (by omega) hA

/-- A field. -/
theorem Draft.storeField (h : Draft c lo hi A) {width : Nat} (value : Nat) (hlo : lo ≤ off)
    (hhi : off + width ≤ hi) (hw : A m w) :
    Safe c (fun _ => A (write m off (encode width value)))
      (Prog.storeBytes () off (encode width value)) w :=
  h.storeBytes hlo (by rw [length_encode]; exact hhi) hw

/-- The skip record of a lap that has room for it. -/
theorem Draft.writeSkip (h : Draft c lo hi A) {remaining : Nat} (hlo : lo ≤ off)
    (hhi : off + remaining ≤ hi) (hle : walEntryHeaderSize ≤ remaining) (hw : A m w) :
    Safe c (fun _ w => ∃ m, A m w ∧
        slice m off walEntryHeaderSize = (skipHeader remaining).toBytes)
      (writeSkip off remaining) w := by
  have hheader : walEntryHeaderSize = 24 := rfl
  unfold ShmRing.writeSkip
  rw [if_pos hle]
  refine Safe.bind _ (h.storeField _ hlo (by omega) hw) fun _ w hw => ?_
  refine Safe.bind _ (h.storeField _ (by omega) (by omega) hw) fun _ w hw => ?_
  refine Safe.bind _ (h.storeField _ (by omega) (by omega) hw) fun _ w hw => ?_
  refine Safe.bind _ (h.storeField _ (by omega) (by omega) hw) fun _ w hw => ?_
  refine (h.storeField _ (by omega) (by omega) hw).mono fun _ w hw => ⟨_, hw, ?_⟩
  rw [slice_crc32 _ _ (length_encode ..), slice_fields _ _ (length_encode ..)
    (length_encode ..) (length_encode ..) (length_encode ..)]
  simp [skipHeader, WalEntryHeader.toBytes]

/-- `UpdateCrc` behind the other fields. -/
theorem Draft.updateCrcAt (h : Draft c lo hi A) {data : Payload} (hlo : lo ≤ off)
    (hhi : off + walEntryHeaderSize ≤ hi) (hlen : slice m (off + 18) 2 = encode 2 data.len.toNat)
    (hdata : slice m (off + 24) data.bytes.length = data.bytes) (hw : A m w) :
    Safe c (fun _ => A (write m (off + 20) (encode 4 (updateCrc data.len data.bytes).toNat)))
      (updateCrcAt off) w := by
  have hheader : walEntryHeaderSize = 24 := rfl
  have hdecode : UInt16.ofNat (decode (encode 2 data.len.toNat)) = data.len := by
    rw [decode_encode_of_lt data.len.toNat_lt, UInt16.ofNat_toNat]
  unfold ShmRing.updateCrcAt loadDataLen
  refine Safe.bind _ (safe_loadField (fun l => UInt16.ofNat (decode l)) (h.keeps m)
    (fun w hw => by rw [h.buffer m w hw, hlen]) hw) ?_
  rintro _ w ⟨rfl, hw⟩
  have hcrc : updateCrc data.len data.bytes =
      if data.len = 0 then 0 else WalEntryHeader.calcCrc32 data.bytes := rfl
  rw [hdecode, hcrc]
  split
  · exact h.storeField _ (by omega) (by omega) hw
  · rw [data.len_toNat]
    refine Safe.bind _ (safe_loadBytes (h.keeps m)
      (fun w hw => by rw [h.buffer m w hw, hdata]) hw) ?_
    rintro _ w ⟨rfl, hw⟩
    exact h.storeField _ (by omega) (by omega) hw

/-- The entry. -/
theorem Draft.writeEntry (h : Draft c lo hi A) (e : Entry) (hlo : lo ≤ off)
    (hhi : off + (Segment.entry e).size ≤ hi) (hw : A m w) :
    Safe c (fun _ w => ∃ m, A m w ∧ slice m off walEntryHeaderSize = e.header.toBytes ∧
        slice m (off + walEntryHeaderSize) e.data.bytes.length = e.data.bytes)
      (writeEntry off e.seq e.timestampNs e.type e.data) w := by
  have hheader : walEntryHeaderSize = 24 := rfl
  have hsize : walEntryHeaderSize + e.data.bytes.length ≤ (Segment.entry e).size :=
    (Segment.entry e).body_le_size
  unfold ShmRing.writeEntry
  refine Safe.bind _ (h.storeField _ hlo (by omega) hw) fun _ w hw => ?_
  refine Safe.bind _ (h.storeField _ (by omega) (by omega) hw) fun _ w hw => ?_
  refine Safe.bind _ (h.storeField _ (by omega) (by omega) hw) fun _ w hw => ?_
  refine Safe.bind _ (h.storeField _ (by omega) (by omega) hw) fun _ w hw => ?_
  refine Safe.bind _ (h.storeBytes (by omega) (by omega) hw) fun _ w hw => ?_
  -- the fields are there and the payload behind them
  have hfields := slice_fields m off (length_encode 8 e.seq.toNat)
    (length_encode 8 e.timestampNs.toNat) (length_encode 2 e.type.toNat)
    (length_encode 2 e.data.len.toNat)
  generalize hm : write (write (write (write m off (encode 8 e.seq.toNat)) (off + 8)
    (encode 8 e.timestampNs.toNat)) (off + 16) (encode 2 e.type.toNat)) (off + 18)
    (encode 2 e.data.len.toNat) = m' at hw hfields
  have hlen : slice m' (off + 18) 2 = encode 2 e.data.len.toNat := by
    rw [← hm]
    exact slice_write_of_length _ (off + 18) (length_encode 2 e.data.len.toNat)
  refine (h.updateCrcAt hlo (by omega) ?_ (slice_write_self ..) hw).mono fun _ w hw =>
    ⟨_, hw, ?_, ?_⟩
  · rw [slice_write_of_disjoint (by omega)]
    exact hlen
  · rw [slice_crc32 _ _ (length_encode ..), slice_write_of_disjoint (by omega), hfields]
    simp [Entry.header, WalEntryHeader.toBytes]
  · have hlast := length_encode 4 (updateCrc e.data.len e.data.bytes).toNat
    rw [slice_write_of_disjoint (by omega)]
    exact slice_write_self ..

end Writing

end Zrtools.ShmRing

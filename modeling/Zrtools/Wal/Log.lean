import Zrtools.Wal.File
import Zrtools.Lib.FrameLog

/-!
# zrtools — what the WAL readers take from a file

A WAL file is a 64-byte header and a `FrameLog` of entries. This module shows
that the two hand-written loops of `zrt_wal_file.h` are the reader of that
format, and works out what they see of a file that a crash cut short.

* `getLastSeqInFile_eq` — the scan of `Init` returns the last entry `ReadAfter`
  would take, or the stored start;
* `readAfter_eq` — `ReadAfter` filters and cuts the entries of the files in
  name order;
* `fileEntries_logImage` — a whole log reads back;
* `fileEntries_cut` — the entries left in the first `k` bytes of a log;
* `readFileHeader_cut` — the start number read from a cut header;
* `parseSeqFromFilename_walFileName` — the number in a file name comes back when the prefix has
  no underscore, dots or not.
-/

namespace Zrtools.Wal

open LittleEndian

/-- The format of the entry log. -/
def walFraming : Framing WalEntryHeader where
  size := walEntryHeaderSize
  size_pos := by decide
  enc := WalEntryHeader.toBytes
  dec := WalEntryHeader.ofBytes
  length_enc := WalEntryHeader.length_toBytes
  dec_enc := WalEntryHeader.ofBytes_toBytes
  bodyLen h := h.dataLen.toNat
  isEnd h := h.seq == 0

@[simp] theorem walFraming_size : walFraming.size = walEntryHeaderSize := rfl

/-- The entries a reader takes from one file. -/
def fileEntries (content : Bytes) : List Entry :=
  if (readFileHeader content).1.knownMagic then walFraming.parse (content.drop walFileHeaderSize)
  else []

-- ---------------------------------------------------------------------------
-- The loops
-- ---------------------------------------------------------------------------

theorem readEntryHeader_of_le {rest : Bytes} (h : walEntryHeaderSize ≤ rest.length) :
    readEntryHeader ⟨rest, true⟩ =
      (WalEntryHeader.ofBytes (rest.take walEntryHeaderSize),
        ⟨rest.drop walEntryHeaderSize, true⟩) := by
  have hlen : (rest.take walEntryHeaderSize).length = walEntryHeaderSize := by
    rw [List.length_take]
    omega
  simp only [readEntryHeader, IStream.read, if_true, hlen, h, decide_true]
  simp

theorem readEntryHeader_of_lt {rest : Bytes} (h : rest.length < walEntryHeaderSize) :
    (readEntryHeader ⟨rest, true⟩).2.good = false := by
  simp [readEntryHeader, IStream.read, h]

theorem readFileHeader_stream (content : Bytes) :
    (readFileHeader content).2 =
      ⟨content.drop walFileHeaderSize, decide (walFileHeaderSize ≤ content.length)⟩ := by
  simp [readFileHeader, IStream.read]

/-- The `Init` scan loop ends at the last frame. -/
theorem lastSeqLoop_eq {fuel : Nat} {rest : Bytes} (hfuel : rest.length < fuel) (lastSeq : UInt64) :
    lastSeqLoop fuel ⟨rest, true⟩ lastSeq =
      ((walFraming.parse rest).getLast?.map fun e => e.1.seq).getD lastSeq := by
  induction fuel generalizing rest lastSeq with
  | zero => omega
  | succ fuel ih =>
    rw [lastSeqLoop, if_pos rfl]
    by_cases hlong : walEntryHeaderSize ≤ rest.length
    · set header := WalEntryHeader.ofBytes (rest.take walEntryHeaderSize) with hheader
      rw [readEntryHeader_of_le hlong, ← hheader, walFraming.parse_step hlong]
      change (if !true || header.seq == 0 then _ else _) =
        (((if header.seq == 0 then _ else _ : List Entry).getLast?).map _).getD _
      cases hend : header.seq == 0 with
      | true => simp
      | false =>
        have hnext : ((rest.drop walEntryHeaderSize).drop header.dataLen.toNat).length < fuel := by
          have hsize : 0 < walEntryHeaderSize := by decide
          rw [List.length_drop, List.length_drop]
          omega
        simp only [Bool.not_true, Bool.or_self, Bool.false_eq_true, if_false, IStream.seekg,
          if_true]
        rw [ih hnext, List.drop_drop, List.getLast?_cons]
        change _ = (Option.map _ (some ((walFraming.parse (rest.drop
          (walEntryHeaderSize + header.dataLen.toNat))).getLast?.getD _))).getD _
        cases (walFraming.parse (rest.drop (walEntryHeaderSize + header.dataLen.toNat))).getLast?
          <;> rfl
    · have hgood := readEntryHeader_of_lt (Nat.lt_of_not_le hlong)
      rw [walFraming.parse_of_short (Nat.lt_of_not_le hlong)]
      simp [hgood]

/-- **The scan of `Init`** returns the seq of the last entry `ReadAfter` would
take from the file, or the stored start when there is none. -/
theorem getLastSeqInFile_eq (content : Bytes) :
    getLastSeqInFile content =
      if (readFileHeader content).1.knownMagic then
        ((fileEntries content).getLast?.map fun e => e.1.seq).getD
          (readFileHeader content).1.startSeq
      else 0 := by
  rw [getLastSeqInFile, fileEntries]
  dsimp only
  rw [readFileHeader_stream]
  split
  · by_cases hlong : walFileHeaderSize ≤ content.length
    · rw [decide_eq_true hlong, lastSeqLoop_eq]
      rw [List.length_drop]
      omega
    · have hnil : content.drop walFileHeaderSize = [] := List.drop_eq_nil_of_le (by omega)
      rw [hnil, decide_eq_false hlong, walFraming.parse_of_short (by decide)]
      simp [lastSeqLoop]
  · rfl

/-- The payload read hands out what the frame reader does, and the stream stays
good exactly if the payload was whole. -/
theorem readPayload_eq (rest : Bytes) (n : Nat) :
    readPayload ⟨rest, true⟩ n =
      (Framing.readZeroed n rest, ⟨rest.drop n, decide (n ≤ rest.length)⟩) := by
  rcases Nat.eq_zero_or_pos n with rfl | hpos
  · simp [readPayload, Framing.readZeroed]
  · have hpad : n - min n rest.length = n - rest.length := by omega
    rw [readPayload, if_pos hpos, IStream.read, if_pos rfl, Framing.readZeroed, List.length_take,
      List.drop_replicate]
    dsimp only
    rw [hpad]

/-- What the entry loop of `ReadAfter` does with the frames of one file. -/
def collect (afterSeq : UInt64) (maxCount : Nat) : List Entry → List Entry → List Entry × Bool
  | [], entries => (entries, false)
  | e :: rest, entries =>
    if afterSeq < e.1.seq then
      if 0 < maxCount ∧ maxCount ≤ (entries ++ [e]).length then (entries ++ [e], true)
      else collect afterSeq maxCount rest (entries ++ [e])
    else collect afterSeq maxCount rest entries

/-- The entry loop of `ReadAfter` takes the frames of the file. -/
theorem readEntries_eq {fuel : Nat} {rest : Bytes} (hfuel : rest.length < fuel)
    (afterSeq : UInt64) (maxCount : Nat) (entries : List Entry) :
    readEntries afterSeq maxCount fuel ⟨rest, true⟩ entries =
      collect afterSeq maxCount (walFraming.parse rest) entries := by
  induction fuel generalizing rest entries with
  | zero => omega
  | succ fuel ih =>
    rw [readEntries, if_pos rfl]
    by_cases hlong : walEntryHeaderSize ≤ rest.length
    · set header := WalEntryHeader.ofBytes (rest.take walEntryHeaderSize) with hheader
      rw [readEntryHeader_of_le hlong, ← hheader, walFraming.parse_step hlong]
      dsimp only
      rw [readPayload_eq]
      set rest' := (rest.drop walEntryHeaderSize).drop header.dataLen.toNat with hrest'
      have hnext : rest'.length < fuel := by
        have hsize : 0 < walEntryHeaderSize := by decide
        rw [hrest', List.length_drop, List.length_drop]
        omega
      -- after a short payload the stream is not good and nothing is left either
      have hloop : ∀ good es, (good = false → rest' = []) →
          readEntries afterSeq maxCount fuel ⟨rest', good⟩ es =
            collect afterSeq maxCount (walFraming.parse rest') es := by
        intro good es hbad
        cases good with
        | true => exact ih hnext es
        | false =>
          rw [hbad rfl, walFraming.parse_of_short (by decide)]
          cases fuel <;> simp [readEntries, collect]
      have hbad : decide (header.dataLen.toNat ≤ (rest.drop walEntryHeaderSize).length) = false →
          rest' = [] := by
        intro h
        have := of_decide_eq_false h
        exact List.drop_eq_nil_of_le (by omega)
      change (if !true || header.seq == 0 then _ else _) =
        collect afterSeq maxCount (if header.seq == 0 then _ else _) entries
      cases hend : header.seq == 0 with
      | true => simp [collect]
      | false =>
        simp only [Bool.not_true, Bool.or_self, Bool.false_eq_true, if_false]
        rw [collect, hloop _ _ hbad, hloop _ _ hbad, hrest', List.drop_drop]
        rfl
    · have hgood := readEntryHeader_of_lt (Nat.lt_of_not_le hlong)
      rw [walFraming.parse_of_short (Nat.lt_of_not_le hlong)]
      simp [hgood, collect]

-- ---------------------------------------------------------------------------
-- ReadAfter as a whole
-- ---------------------------------------------------------------------------

/-- `max_count`, where 0 stands for no limit. -/
def limit (maxCount : Nat) (entries : List Entry) : List Entry :=
  if maxCount = 0 then entries else entries.take maxCount

/-- The entries that follow a sequence number. -/
def entriesAfter (afterSeq : UInt64) (entries : List Entry) : List Entry :=
  entries.filter fun e => decide (afterSeq < e.1.seq)

theorem entriesAfter_append (afterSeq : UInt64) (a b : List Entry) :
    entriesAfter afterSeq (a ++ b) = entriesAfter afterSeq a ++ entriesAfter afterSeq b := by
  simp [entriesAfter]

theorem collect_unlimited (afterSeq : UInt64) (l entries : List Entry) :
    collect afterSeq 0 l entries = (entries ++ entriesAfter afterSeq l, false) := by
  induction l generalizing entries with
  | nil => simp [collect, entriesAfter]
  | cons e l ih =>
    have hno : ¬ (0 < 0 ∧ 0 ≤ (entries ++ [e]).length) := by simp
    rw [collect, if_neg hno]
    by_cases h : afterSeq < e.1.seq
    · rw [if_pos h, ih]
      simp [entriesAfter, h]
    · rw [if_neg h, ih]
      simp [entriesAfter, h]

theorem collect_limited {maxCount : Nat} (afterSeq : UInt64) {l entries : List Entry}
    (hroom : entries.length < maxCount) :
    collect afterSeq maxCount l entries =
      ((entries ++ entriesAfter afterSeq l).take maxCount,
        decide (maxCount ≤ (entries ++ entriesAfter afterSeq l).length)) := by
  induction l generalizing entries with
  | nil =>
    have htake : entries.take maxCount = entries := List.take_of_length_le (by omega)
    simp [collect, entriesAfter, htake, hroom]
  | cons e l ih =>
    unfold collect
    by_cases h : afterSeq < e.1.seq
    · have hcons : entriesAfter afterSeq (e :: l) = e :: entriesAfter afterSeq l := by
        simp [entriesAfter, h]
      rw [if_pos h, hcons]
      by_cases hfull : maxCount ≤ (entries ++ [e]).length
      · -- this entry fills the vector
        have hlen : (entries ++ [e]).length = maxCount := by
          rw [List.length_append, List.length_singleton] at hfull ⊢
          omega
        have hsplit : entries ++ e :: entriesAfter afterSeq l =
            (entries ++ [e]) ++ entriesAfter afterSeq l := by simp
        rw [if_pos ⟨by omega, hfull⟩, hsplit, List.take_append_of_le_length (by omega),
          List.take_of_length_le (by omega)]
        simp only [Prod.mk.injEq, true_and]
        rw [List.length_append, eq_comm, decide_eq_true_iff]
        omega
      · rw [if_neg (by tauto), ih (by omega)]
        simp
    · rw [if_neg h, ih hroom]
      simp [entriesAfter, h]

theorem readFile_eq (afterSeq : UInt64) (maxCount : Nat) (content : Bytes) (entries : List Entry) :
    readFile afterSeq maxCount content entries =
      collect afterSeq maxCount (fileEntries content) entries := by
  rw [readFile, fileEntries]
  dsimp only
  rw [readFileHeader_stream]
  split
  · by_cases hlong : walFileHeaderSize ≤ content.length
    · rw [decide_eq_true hlong, readEntries_eq]
      rw [List.length_drop]
      omega
    · have hnil : content.drop walFileHeaderSize = [] := List.drop_eq_nil_of_le (by omega)
      rw [hnil, decide_eq_false hlong, walFraming.parse_of_short (by decide)]
      simp [readEntries, collect]
  · simp [collect]

theorem readFiles_eq (afterSeq : UInt64) {maxCount : Nat} {files : Directory}
    {entries : List Entry} (hroom : maxCount = 0 ∨ entries.length < maxCount) :
    readFiles afterSeq maxCount files entries =
      limit maxCount
        (entries ++ entriesAfter afterSeq (files.flatMap fun f => fileEntries f.2)) := by
  induction files generalizing entries with
  | nil =>
    rw [readFiles, limit]
    split
    · simp [entriesAfter]
    · rw [List.take_of_length_le]
      · simp [entriesAfter]
      · simp [entriesAfter]
        omega
  | cons f files ih =>
    rw [readFiles, readFile_eq, List.flatMap_cons, entriesAfter_append, ← List.append_assoc]
    rcases hroom with rfl | hroom
    · rw [collect_unlimited]
      simp [ih]
    · rw [collect_limited afterSeq hroom]
      dsimp only
      by_cases hfull : maxCount ≤ (entries ++ entriesAfter afterSeq (fileEntries f.2)).length
      · rw [decide_eq_true hfull, if_pos rfl, limit, if_neg (by omega),
          List.take_append_of_le_length hfull]
      · rw [decide_eq_false hfull, if_neg (by simp), List.take_of_length_le (by omega),
          ih (Or.inr (by omega))]

/-- **`ReadAfter`** goes through the files in name order, keeps what follows
`after_seq` and stops at `max_count`. -/
theorem readAfter_eq (dir : Directory) (afterSeq : UInt64) (maxCount : Nat) :
    readAfter dir afterSeq maxCount =
      limit maxCount
        (entriesAfter afterSeq ((sortedWalFiles dir).flatMap fun f => fileEntries f.2)) := by
  rw [readAfter, readFiles_eq]
  · simp
  · simp only [List.length_nil]
    omega

-- ---------------------------------------------------------------------------
-- Files that were cut short
-- ---------------------------------------------------------------------------

/-- A file as a writer leaves it: a header and the entries behind it. -/
def logImage (header : WalFileHeader) (entries : List Entry) : Bytes :=
  header.toBytes ++ walFraming.image entries

/-- The fields the writer never changes from their defaults. -/
structure WalFileHeader.Current (h : WalFileHeader) : Prop where
  magic : h.magic = 0x5A524657
  version : h.version = 1

@[simp] theorem WalFileHeader.length_toBytes (h : WalFileHeader) :
    h.toBytes.length = walFileHeaderSize := by
  simp [WalFileHeader.toBytes]

/-- Overlaying the first `j` bytes of one string on another keeps what they have
in common. -/
theorem overlay_common (P A B : Bytes) (j : Nat) :
    (P ++ A).take j ++ (P ++ B).drop j =
      P ++ (A.take (j - P.length) ++ B.drop (j - P.length)) := by
  rw [List.take_append, List.drop_append]
  rcases Nat.le_total j P.length with h | h
  · have hzero : j - P.length = 0 := by omega
    rw [hzero, List.take_zero, List.append_nil, ← List.append_assoc, List.take_append_drop]
    simp
  · rw [List.take_of_length_le h, List.drop_eq_nil_of_le h]
    simp

/-- A field whose first `j` bytes overlay zeros. -/
theorem overlay_field {n : Nat} {E : Bytes} (hE : E.length = n) (T Z : Bytes) (j : Nat) :
    ((E ++ T).take j ++ (List.replicate n 0 ++ Z).drop j).take n =
      E.take (min n j) ++ List.replicate (n - min n j) 0 := by
  rcases Nat.le_total j n with h | h
  · have hlen : (E.take j ++ List.replicate (n - j) 0).length = n := by
      rw [List.length_append, List.length_take, List.length_replicate]
      omega
    have htake : (E ++ T).take j = E.take j := List.take_append_of_le_length (by omega)
    have hdrop : (List.replicate n 0 ++ Z).drop j = List.replicate (n - j) 0 ++ Z := by
      rw [List.drop_append_of_le_length (by rwa [List.length_replicate]), List.drop_replicate]
    rw [Nat.min_eq_right h, htake, hdrop, ← List.append_assoc, List.take_left' hlen]
  · have htake : (E ++ T).take j = E ++ T.take (j - n) := by
      rw [List.take_append, hE, List.take_of_length_le (by omega)]
    rw [Nat.min_eq_left h, htake, List.append_assoc, List.take_left' hE,
      List.take_of_length_le (by omega)]
    simp

/-- What `readFileHeader` sees of the first `k` bytes of a file: the magic and the
version are right in any case, of the start number the bytes that are there. -/
theorem readFileHeader_cut {header : WalFileHeader} (hcur : header.Current)
    (body : Bytes) (k : Nat) :
    (readFileHeader ((header.toBytes ++ body).take k)).1.magic = 0x5A524657 ∧
      (readFileHeader ((header.toBytes ++ body).take k)).1.startSeq.toNat =
        header.startSeq.toNat % 256 ^ min 8 (k - 8) := by
  obtain ⟨hmagic, hversion⟩ := hcur
  set P : Bytes := encode 4 0x5A524657 ++ encode 4 1 with hP
  set A : Bytes := encode 8 header.startSeq.toNat ++ (encode 8 header.entryCount.toNat ++
    (encode 8 header.createTimeNs.toNat ++ List.replicate 32 0)) with hA
  set B : Bytes := List.replicate 8 0 ++ List.replicate 48 0 with hB
  have hhdr : header.toBytes = P ++ A := by
    rw [WalFileHeader.toBytes, hmagic, hversion, hP, hA, List.append_assoc]
    rfl
  have hdflt : WalFileHeader.toBytes {} = P ++ B := by decide
  have hPlen : P.length = 8 := by simp [hP]
  set j := min k 64 with hj
  have hgot : ((header.toBytes ++ body).take k).take walFileHeaderSize = (P ++ A).take j := by
    rw [List.take_take, Nat.min_comm, ← hj, ← hhdr, List.take_append_of_le_length]
    rw [WalFileHeader.length_toBytes]
    exact Nat.min_le_right k 64
  have hgotLen : ((P ++ A).take j).length = j := by
    rw [← hhdr, List.length_take, WalFileHeader.length_toBytes]
    exact Nat.min_eq_left (Nat.min_le_right k 64)
  have hraw : (readFileHeader ((header.toBytes ++ body).take k)).1 =
      WalFileHeader.ofBytes (P ++ (A.take (j - 8) ++ B.drop (j - 8))) := by
    rw [readFileHeader, IStream.read, if_pos rfl]
    dsimp only
    rw [hgot, hgotLen, hdflt, overlay_common, hPlen]
  rw [hraw]
  refine ⟨?_, ?_⟩
  · have htake : (P ++ (A.take (j - 8) ++ B.drop (j - 8))).take 4 = encode 4 0x5A524657 := by
      rw [hP, List.append_assoc, List.take_left' (by simp)]
    unfold WalFileHeader.ofBytes
    dsimp only
    rw [htake]
    decide
  · have hdrop : (P ++ (A.take (j - 8) ++ B.drop (j - 8))).drop 8 =
        A.take (j - 8) ++ B.drop (j - 8) := List.drop_left' hPlen
    have hfield : (A.take (j - 8) ++ B.drop (j - 8)).take 8 =
        (encode 8 header.startSeq.toNat).take (min 8 (k - 8)) ++
          List.replicate (8 - min 8 (k - 8)) 0 := by
      rw [hA, hB, overlay_field (length_encode ..), show min 8 (j - 8) = min 8 (k - 8) by omega]
    unfold WalFileHeader.ofBytes
    dsimp only
    rw [hdrop, hfield, decode_torn (Nat.min_le_left _ _), UInt64.toNat_ofNat']
    apply Nat.mod_eq_of_lt
    exact lt_of_le_of_lt (Nat.mod_le _ _) header.startSeq.toNat_lt

theorem knownMagic_cut {header : WalFileHeader} (hcur : header.Current) (entries : List Entry)
    (k : Nat) : (readFileHeader ((logImage header entries).take k)).1.knownMagic = true := by
  rw [WalFileHeader.knownMagic, logImage, (readFileHeader_cut hcur _ k).1]
  rfl

/-- **A whole file reads back** as it was written. -/
theorem fileEntries_logImage {header : WalFileHeader} (hcur : header.Current)
    {entries : List Entry} (hframed : ∀ e ∈ entries, walFraming.WellFramed e)
    (hseq : ∀ e ∈ entries, e.1.seq ≠ 0) : fileEntries (logImage header entries) = entries := by
  have hknown := knownMagic_cut hcur entries (logImage header entries).length
  have hend : ∀ e ∈ entries, walFraming.isEnd e.1 = false := by
    intro e he
    exact beq_false_of_ne (hseq e he)
  rw [List.take_length] at hknown
  rw [fileEntries, if_pos hknown, logImage, List.drop_left' header.length_toBytes]
  exact walFraming.parse_image hframed hend

/-- **The entries left in the first `k` bytes of a file.** -/
theorem fileEntries_cut {header : WalFileHeader} (hcur : header.Current) {entries : List Entry}
    (hframed : ∀ e ∈ entries, walFraming.WellFramed e) (k : Nat) :
    fileEntries ((logImage header entries).take k) =
      (walFraming.complete (k - walFileHeaderSize) entries ++
        (walFraming.torn (k - walFileHeaderSize) entries).toList).takeWhile
          (fun e => !(e.1.seq == 0)) := by
  have hknown := knownMagic_cut hcur entries k
  have hbody : ((logImage header entries).take k).drop walFileHeaderSize =
      (walFraming.image entries).take (k - walFileHeaderSize) := by
    rw [List.drop_take, logImage, List.drop_left' header.length_toBytes]
  rw [fileEntries, if_pos hknown, hbody, walFraming.parse_take_image hframed]
  rfl

-- ---------------------------------------------------------------------------
-- File names
-- ---------------------------------------------------------------------------

/-- A prefix whose names `ParseSeqFromFilename` can take apart. -/
def PlainPrefix (filePrefix : List Char) : Prop := '_' ∉ filePrefix ∧ '.' ∉ filePrefix

theorem findIdx?_first {p : Char → Bool} {l : List Char} {c : Char} (hl : ∀ x ∈ l, p x = false)
    (hc : p c = true) (rest : List Char) : (l ++ c :: rest).findIdx? p = some l.length := by
  induction l with
  | nil => simp [List.findIdx?_cons, hc]
  | cons x l ih =>
    have hx : p x = false := hl x (List.mem_cons_self ..)
    have hrest := ih fun y hy => hl y (List.mem_cons_of_mem _ hy)
    simp [List.findIdx?_cons, hx, hrest]

theorem digit_facts {c : Char} (h : c.isDigit = true) :
    c ≠ '_' ∧ c ≠ '.' ∧ c ≠ '-' ∧ c ≠ '+' ∧ isSpace c = false := by
  have hne : ∀ d : Char, d.isDigit = false → c ≠ d := by
    rintro d hd rfl
    rw [h] at hd
    exact absurd hd (by decide)
  refine ⟨hne _ rfl, hne _ rfl, hne _ rfl, hne _ rfl, ?_⟩
  simp only [isSpace, Bool.or_eq_false_iff, beq_eq_false_iff_ne]
  exact ⟨⟨⟨⟨⟨hne _ rfl, hne _ rfl⟩, hne _ rfl⟩, hne _ rfl⟩, hne _ rfl⟩, hne _ rfl⟩

/-- `stoull` reads back what `to_string` wrote. -/
theorem stoull_toDigits {n : Nat} (hn : n < 2 ^ 64) :
    stoull (Nat.toDigits 10 n) = some (UInt64.ofNat n) := by
  have hdigit : ∀ c ∈ Nat.toDigits 10 n, c.isDigit = true := fun c hc =>
    Nat.isDigit_of_mem_toDigits (by decide) (by decide) hc
  obtain ⟨c, rest, hcons⟩ : ∃ c rest, Nat.toDigits 10 n = c :: rest :=
    List.exists_cons_of_ne_nil Nat.toDigits_ne_nil
  obtain ⟨-, -, hminus, hplus, hspace⟩ := digit_facts (hdigit c (by rw [hcons]; simp))
  have hdrop : (Nat.toDigits 10 n).dropWhile isSpace = Nat.toDigits 10 n := by
    rw [hcons, List.dropWhile_cons_of_neg (by simp [hspace])]
  have htake : (Nat.toDigits 10 n).takeWhile Char.isDigit = Nat.toDigits 10 n :=
    List.takeWhile_eq_self_iff.mpr hdigit
  have hsign : splitSign (Nat.toDigits 10 n) = (false, Nat.toDigits 10 n) := by
    rw [hcons, splitSign]
    · exact fun t h => hminus (List.cons.inj h).1
    · exact fun t h => hplus (List.cons.inj h).1
  have hempty : (Nat.toDigits 10 n).isEmpty = false := by rw [hcons]; rfl
  rw [stoull, hdrop, hsign]
  dsimp only
  rw [htake, hempty, Nat.ofDigitChars_ten_toDigits, if_neg Bool.false_ne_true,
    if_neg (Nat.not_le.mpr hn), if_neg Bool.false_ne_true]

/-- A character that cannot belong to a number. -/
structure StopsNumber (c : Char) : Prop where
  digit : c.isDigit = false
  space : isSpace c = false
  minus : c ≠ '-'
  plus : c ≠ '+'

theorem stopsNumber_underscore : StopsNumber '_' := by
  constructor <;> decide

theorem stopsNumber_dot : StopsNumber '.' := by
  constructor <;> decide

theorem takeWhile_append_stop {p : Char → Bool} {c : Char} (hc : p c = false) (l rest : List Char) :
    (l ++ c :: rest).takeWhile p = l.takeWhile p := by
  induction l with
  | nil => rw [List.nil_append, List.takeWhile_cons, hc]; rfl
  | cons x l ih => rw [List.cons_append, List.takeWhile_cons, List.takeWhile_cons, ih]

theorem dropWhile_append_stop {p : Char → Bool} {c : Char} (hc : p c = false) (l rest : List Char) :
    (l ++ c :: rest).dropWhile p = l.dropWhile p ++ c :: rest := by
  induction l with
  | nil => rw [List.nil_append, List.dropWhile_cons, hc]; rfl
  | cons x l ih =>
    rw [List.cons_append, List.dropWhile_cons, List.dropWhile_cons, ih]
    split <;> rfl

theorem splitSign_append_stop {c : Char} (hc : StopsNumber c) (l rest : List Char) :
    splitSign (l ++ c :: rest) = ((splitSign l).1, (splitSign l).2 ++ c :: rest) := by
  cases l with
  | nil =>
    rw [List.nil_append, splitSign]
    · rfl
    · exact fun t h => hc.minus (List.cons.inj h).1
    · exact fun t h => hc.plus (List.cons.inj h).1
  | cons x l =>
    by_cases hminus : x = '-'
    · subst hminus
      rfl
    · by_cases hplus : x = '+'
      · subst hplus
        rfl
      · rw [List.cons_append, splitSign, splitSign]
        · rfl
        · exact fun t h => hminus (List.cons.inj h).1
        · exact fun t h => hplus (List.cons.inj h).1
        · exact fun t h => hminus (List.cons.inj h).1
        · exact fun t h => hplus (List.cons.inj h).1

/-- What follows such a character does not matter. -/
theorem stoull_append_stop {c : Char} (hc : StopsNumber c) (l rest : List Char) :
    stoull (l ++ c :: rest) = stoull l := by
  rw [stoull, stoull, dropWhile_append_stop hc.space, splitSign_append_stop hc]
  dsimp only
  rw [takeWhile_append_stop hc.digit]

theorem walFileName_eq (filePrefix : List Char) (seq : UInt64) :
    walFileName filePrefix seq =
      filePrefix ++ '_' :: (Nat.toDigits 10 seq.toNat ++ '.' :: "wal".toList) := by
  simp [walFileName]

theorem toDigits_ne_mark {n : Nat} {c : Char} (hc : c ∈ Nat.toDigits 10 n) :
    c ≠ '_' ∧ c ≠ '.' := by
  have hdigit := Nat.isDigit_of_mem_toDigits (by decide) (by decide) hc
  exact ⟨(digit_facts hdigit).1, (digit_facts hdigit).2.1⟩

theorem length_toDigits_le (seq : UInt64) : (Nat.toDigits 10 seq.toNat).length ≤ 20 := by
  rw [Nat.length_toDigits_le_iff (by decide) (by decide)]
  exact lt_trans seq.toNat_lt (by decide)

/-- The first position of a character. -/
theorem findIdx?_char {c : Char} {l : List Char} (hl : c ∉ l) (rest : List Char) :
    (l ++ c :: rest).findIdx? (· == c) = some l.length := by
  apply findIdx?_first
  · intro x hx
    simpa using fun h : x = c => hl (h ▸ hx)
  · exact beq_self_eq_true c

/-- The first dot, when the prefix has none. -/
theorem findIdx?_dot {filePrefix : List Char} (hdot : '.' ∉ filePrefix) (seq : UInt64) :
    (walFileName filePrefix seq).findIdx? (· == '.') =
      some (filePrefix.length + 1 + (Nat.toDigits 10 seq.toNat).length) := by
  have hsplit : walFileName filePrefix seq =
      (filePrefix ++ '_' :: Nat.toDigits 10 seq.toNat) ++ '.' :: "wal".toList := by
    rw [walFileName_eq]
    simp
  rw [hsplit, findIdx?_char]
  · simp [Nat.add_assoc, Nat.add_comm 1]
  · intro hin
    rcases List.mem_append.mp hin with hin | hin
    · exact hdot hin
    · rcases List.mem_cons.mp hin with heq | hin
      · exact absurd heq (by decide)
      · exact (toDigits_ne_mark hin).2 rfl

/-- **Names decode** when the prefix has no underscore. A dot in it puts the count of
`substr` out of range, and then all of the rest is taken. -/
theorem parseSeqFromFilename_walFileName {filePrefix : List Char} (hmem : '_' ∉ filePrefix)
    (hlen : '.' ∈ filePrefix → filePrefix.length < 2 ^ 63) (seq : UInt64) :
    parseSeqFromFilename (walFileName filePrefix seq) = seq := by
  set digits := Nat.toDigits 10 seq.toNat with hdigits
  have hshort : digits.length ≤ 20 := length_toDigits_le seq
  have hunderscore : (walFileName filePrefix seq).findIdx? (· == '_') =
      some filePrefix.length := by
    rw [walFileName_eq]
    exact findIdx?_char hmem _
  have hdrop : (walFileName filePrefix seq).drop (filePrefix.length + 1) =
      digits ++ '.' :: "wal".toList := by
    rw [walFileName_eq, ← List.drop_drop, List.drop_left]
    rfl
  have hnumber : stoull digits = some (UInt64.ofNat seq.toNat) := stoull_toDigits seq.toNat_lt
  by_cases hdot : '.' ∈ filePrefix
  · obtain ⟨before, after, hsplit, hfirst⟩ := List.eq_append_cons_of_mem hdot
    have hindex : (walFileName filePrefix seq).findIdx? (· == '.') = some before.length := by
      rw [walFileName_eq, hsplit, List.append_assoc, List.cons_append]
      exact findIdx?_char hfirst _
    have hprefix := hlen hdot
    have hbefore : before.length < filePrefix.length := by
      rw [hsplit, List.length_append, List.length_cons]
      omega
    have htake : (digits ++ '.' :: "wal".toList).length ≤
        (before.length + 2 ^ 64 - filePrefix.length - 1) % 2 ^ 64 := by
      have htail : ('.' :: "wal".toList).length = 4 := by decide
      rw [List.length_append, htail]
      omega
    rw [parseSeqFromFilename, hunderscore, hindex]
    dsimp only
    rw [hdrop, List.take_of_length_le htake, stoull_append_stop stopsNumber_dot, hnumber]
    simp
  · have hcount : (filePrefix.length + 1 + digits.length + 2 ^ 64 - filePrefix.length - 1) %
        2 ^ 64 = digits.length := by
      omega
    rw [parseSeqFromFilename, hunderscore, findIdx?_dot hdot]
    dsimp only
    rw [hcount, hdrop, List.take_left, hnumber]
    simp

theorem isWalFile_walFileName (filePrefix : List Char) (seq : UInt64) (content : Bytes) :
    isWalFile (walFileName filePrefix seq, content) = true := by
  set stem := filePrefix ++ '_' :: Nat.toDigits 10 seq.toNat with hstem
  have hname : walFileName filePrefix seq = stem ++ ".wal".toList := by
    simp [walFileName, hstem]
  have hstemLen : 0 < stem.length := by simp [hstem]
  have htail : ((stem ++ ".wal".toList).reverse.takeWhile (· ≠ '.')).reverse = "wal".toList := by
    simp
  rw [isWalFile, extension, hname, htail]
  simp [hstemLen]

end Zrtools.Wal

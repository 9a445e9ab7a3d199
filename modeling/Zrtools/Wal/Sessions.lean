import Zrtools.Wal.Log
import Zrtools.Lib.Schedule

/-!
# zrtools — what a WAL writer leaves in its file

While a session is open, the bytes handed to the stream are a current header
and the entries appended so far, numbered without a gap from the number in the
file's name.

* `WalFileWriter.Logs` — that invariant of an open writer;
* `Logs.append`, `Logs.sync`, `logs_init` — the calls keep it;
* `WalFile` — what a file looks like once its session is over, kept by every
  way a session can end (`Logs.walFile_take`).
-/

namespace Zrtools.Wal

open LittleEndian

-- ---------------------------------------------------------------------------
-- An open writer
-- ---------------------------------------------------------------------------

/-- Entries numbered one after the other. -/
def SeqsFrom (n : UInt64) (es : List Entry) : Prop :=
  ∀ i e, es[i]? = some e → e.1.seq = n + UInt64.ofNat i

theorem SeqsFrom.snoc {n : UInt64} {es : List Entry} (h : SeqsFrom n es) {e : Entry}
    (he : e.1.seq = n + UInt64.ofNat es.length) : SeqsFrom n (es ++ [e]) := by
  intro i f hf
  rcases Nat.lt_or_ge i es.length with hi | hi
  · rw [List.getElem?_append_left hi] at hf
    exact h i f hf
  · rw [List.getElem?_append_right hi, List.getElem?_singleton] at hf
    split at hf
    · have hlast : i = es.length := by omega
      obtain rfl := Option.some.inj hf
      rw [he, hlast]
    · simp at hf

/-- The invariant of a writer whose file is number `n` and holds `es`. -/
structure WalFileWriter.Logs (w : WalFileWriter) (filePrefix : List Char) (n : UInt64)
    (es : List Entry) : Prop where
  named : w.currentFile = walFileName filePrefix n
  written : ∃ header out, w.file = some out ∧ header.Current ∧ header.startSeq = n ∧
    out.written = logImage header es
  framed : ∀ e ∈ es, walFraming.WellFramed e
  seqs : SeqsFrom n es
  current : w.currentSeq + 1 = n + UInt64.ofNat es.length
  count : w.entryCount = UInt64.ofNat es.length
  interval : w.syncInterval = 100

namespace WalFileWriter

theorem logs_createNewFile (filePrefix : List Char) (currentSeq now : UInt64) :
    (createNewFile filePrefix currentSeq now).Logs filePrefix (currentSeq + 1) [] where
  named := rfl
  written := by
    refine ⟨{ startSeq := currentSeq + 1, createTimeNs := now }, _, rfl, ⟨rfl, rfl⟩, rfl, ?_⟩
    simp [logImage, Framing.image]
  framed := by simp
  seqs := by
    intro i e he
    simp at he
  current := by simp [createNewFile]
  count := rfl
  interval := rfl

theorem logs_init (filePrefix : List Char) (listing : Directory) (now : UInt64) :
    (init filePrefix listing now).Logs filePrefix (scanMaxSeq listing + 1) [] :=
  logs_createNewFile _ _ _

/-- The entry that an `Append` call adds to the file. -/
def newEntry (w : WalFileWriter) (type : UInt16) (data : Payload) (now : UInt64) : Entry :=
  (w.entryHeader type data now, data.bytes)

/-- What an open file is given by `Append`. -/
theorem append_written {w : WalFileWriter} {out : OStream} (hfile : w.file = some out)
    (hsync : w.syncInterval ≠ 0) (type : UInt16) (data : Payload) (now : UInt64) :
    ∃ out', w.append type data now = some (w.currentSeq + 1, { w with
        currentSeq := w.currentSeq + 1, entryCount := w.entryCount + 1, file := some out' }) ∧
      out'.written = out.written ++ ((w.entryHeader type data now).toBytes ++ data.bytes) := by
  have hbody : (if 0 < data.len then (out.write (w.entryHeader type data now).toBytes).write
      data.bytes else out.write (w.entryHeader type data now).toBytes).written =
      out.written ++ ((w.entryHeader type data now).toBytes ++ data.bytes) := by
    split
    · simp [OStream.write]
    · -- no payload bytes at all
      rename_i hlen
      have hnil : data.bytes = [] := by
        have hzero : data.len.toNat = 0 := by
          rw [UInt16.lt_iff_toNat_lt] at hlen
          simpa using hlen
        rw [Payload.len_toNat] at hzero
        exact List.eq_nil_of_length_eq_zero hzero
      simp [OStream.write, hnil]
  rw [WalFileWriter.append, hfile]
  dsimp only
  rw [if_neg hsync]
  refine ⟨_, rfl, ?_⟩
  -- a flush hands no further bytes to the stream
  split <;> exact hbody

/-- One `Append`: the bytes of one more entry, and the counters with it. -/
theorem Logs.append {w : WalFileWriter} {filePrefix : List Char} {n : UInt64} {es : List Entry}
    (h : w.Logs filePrefix n es) (type : UInt16) (data : Payload) (now : UInt64) :
    ∃ w', w.append type data now = some (w.currentSeq + 1, w') ∧
      w'.currentSeq = w.currentSeq + 1 ∧
      w'.Logs filePrefix n (es ++ [w.newEntry type data now]) := by
  obtain ⟨header, out, hfile, hcur, hstart, hwritten⟩ := h.written
  have hinterval : w.syncInterval ≠ 0 := by
    rw [h.interval]
    decide
  obtain ⟨out', happend, hbody⟩ := append_written hfile hinterval type data now
  have himage : logImage header (es ++ [w.newEntry type data now]) =
      logImage header es ++ ((w.entryHeader type data now).toBytes ++ data.bytes) := by
    simp [logImage, Framing.image, Framing.encFrame, newEntry, walFraming]
  refine ⟨_, happend, rfl, ?_⟩
  have hlen : (es ++ [w.newEntry type data now]).length = es.length + 1 := by simp
  constructor
  case named => exact h.named
  case written =>
    refine ⟨header, _, rfl, hcur, hstart, ?_⟩
    rw [hbody, hwritten, himage]
  case framed =>
    intro e he
    rcases List.mem_append.mp he with he | he
    · exact h.framed e he
    · rw [List.mem_singleton.mp he]
      exact (Payload.len_toNat data).symm
  case seqs => exact h.seqs.snoc h.current
  case current =>
    show w.currentSeq + 1 + 1 = _
    rw [h.current, hlen, UInt64.ofNat_add, ← UInt64.add_assoc]
    rfl
  case count =>
    show w.entryCount + 1 = _
    rw [h.count, hlen, UInt64.ofNat_add]
    rfl
  case interval => exact h.interval

theorem Logs.sync {w : WalFileWriter} {filePrefix : List Char} {n : UInt64} {es : List Entry}
    (h : w.Logs filePrefix n es) : w.sync.Logs filePrefix n es where
  named := h.named
  written := by
    obtain ⟨header, out, hfile, hcur, hstart, hwritten⟩ := h.written
    refine ⟨header, out.flush, ?_, hcur, hstart, hwritten⟩
    rw [WalFileWriter.sync, hfile]
    rfl
  framed := h.framed
  seqs := h.seqs
  current := h.current
  count := h.count
  interval := h.interval

/-- `Close()` rewrites the header with the start it already had. -/
theorem Logs.closedContent {w : WalFileWriter} {filePrefix : List Char} {n : UInt64}
    {es : List Entry} (h : w.Logs filePrefix n es) {out : OStream} (hout : w.file = some out)
    (now : UInt64) :
    (w.closingHeader now).Current ∧ (w.closingHeader now).startSeq = n ∧
      w.closedContent out now = logImage (w.closingHeader now) es := by
  obtain ⟨header, out', hfile, -, -, hwritten⟩ := h.written
  obtain rfl : out' = out := Option.some.inj (hfile.symm.trans hout)
  refine ⟨⟨rfl, rfl⟩, ?_, ?_⟩
  · show w.currentSeq - w.entryCount + 1 = n
    have hcurrent := h.current
    rw [← h.count] at hcurrent
    grind
  · rw [WalFileWriter.closedContent, hwritten, logImage, List.drop_left' header.length_toBytes]
    rfl

end WalFileWriter

-- ---------------------------------------------------------------------------
-- Calls in a session
-- ---------------------------------------------------------------------------

/-- The calls that leave a session open. -/
def Action.isCall : Action → Bool
  | .append .. => true
  | .sync => true
  | _ => false

/-- The entries an action appends. -/
def LogDir.appended (s : LogDir) : Action → List Entry
  | .append type data now =>
    match s.writer with
    | some w => if w.file.isSome then [w.newEntry type data now] else []
    | none => []
  | _ => []

theorem LogDir.length_appended_le (s : LogDir) (a : Action) : (s.appended a).length ≤ 1 := by
  unfold LogDir.appended
  split
  · split
    · split <;> simp
    · simp
  · simp

/-- The entries a run appends, in order. -/
def LogDir.entriesOf (filePrefix : List Char) (s : LogDir) (acts : List Action) : List Entry :=
  Schedule.outputs (LogDir.step filePrefix) LogDir.appended s acts

/-- What a call does to an open session. -/
theorem LogDir.step_call {filePrefix : List Char} {s s' : LogDir} {w : WalFileWriter}
    {n : UInt64} {es : List Entry} (hw : s.writer = some w) (h : w.Logs filePrefix n es)
    {a : Action} (ha : a.isCall = true) (hstep : LogDir.step filePrefix s a = some s') :
    ∃ w', s' = { s with writer := some w' } ∧ w'.Logs filePrefix n (es ++ s.appended a) := by
  cases a with
  | append type data now =>
    obtain ⟨w', happend, -, hlogs⟩ := h.append type data now
    obtain ⟨-, out, hfile, -⟩ := h.written
    have hs' : s' = { s with writer := some w' } := by
      simpa [LogDir.step, hw, happend] using hstep.symm
    have happended : s.appended (.append type data now) = [w.newEntry type data now] := by
      simp [LogDir.appended, hw, hfile]
    refine ⟨w', hs', ?_⟩
    rw [happended]
    exact hlogs
  | sync =>
    have hs' : s' = { s with writer := some w.sync } := by
      simpa [LogDir.step, hw] using hstep.symm
    have happended : s.appended .sync = [] := rfl
    refine ⟨w.sync, hs', ?_⟩
    rw [happended, List.append_nil]
    exact h.sync
  | init => cases ha
  | close => cases ha
  | crash => cases ha

-- ---------------------------------------------------------------------------
-- A file whose session is over
-- ---------------------------------------------------------------------------

/-- The start number in the header a reader sees. -/
def storedStart (f : FileName × Bytes) : UInt64 := (readFileHeader f.2).1.startSeq

/-- A cut behind the header leaves the start number whole. -/
theorem storedStart_cut {header : WalFileHeader} (hcur : header.Current) (name : FileName)
    (entries : List Entry) {k : Nat} (hk : walFileHeaderSize ≤ k) :
    storedStart (name, (logImage header entries).take k) = header.startSeq := by
  have hread := (readFileHeader_cut hcur (walFraming.image entries) k).2
  have hmin : min 8 (k - 8) = 8 := by
    have : (64 : Nat) ≤ k := hk
    omega
  have hlt : header.startSeq.toNat < 256 ^ 8 := header.startSeq.toNat_lt
  rw [hmin, Nat.mod_eq_of_lt hlt] at hread
  exact UInt64.toNat_inj.mp hread

/-- A file left behind by the session with start number `n`. A header that was cut
reads as a smaller start, and then no entry is readable. -/
structure WalFile (filePrefix : List Char) (n : UInt64) (f : FileName × Bytes) : Prop where
  named : f.1 = walFileName filePrefix n
  known : (readFileHeader f.2).1.knownMagic = true
  pos : 0 < n.toNat
  seqs : SeqsFrom n (fileEntries f.2)
  fits : n.toNat + (fileEntries f.2).length < 2 ^ 64
  start_le : (storedStart f).toNat ≤ n.toNat
  whole : fileEntries f.2 ≠ [] → storedStart f = n

theorem SeqsFrom.of_headers_prefix {n : UInt64} {es l : List Entry} (h : SeqsFrom n es)
    (hl : l.map Prod.fst <+: es.map Prod.fst) : SeqsFrom n l := by
  obtain ⟨rest, hrest⟩ := hl
  intro i e he
  have hi : (es.map Prod.fst)[i]? = some e.1 := by
    obtain ⟨hlt, -⟩ := List.getElem?_eq_some_iff.mp he
    rw [← hrest, List.getElem?_append_left (by rwa [List.length_map]), List.getElem?_map, he]
    rfl
  rw [List.getElem?_map, Option.map_eq_some_iff] at hi
  obtain ⟨f, hf, hfe⟩ := hi
  rw [← hfe]
  exact h i f hf

/-- Below the wrap, the seqs as numbers. -/
theorem SeqsFrom.toNat_eq {n : UInt64} {es : List Entry} (h : SeqsFrom n es)
    (hfits : n.toNat + es.length < 2 ^ 64) {i : Nat} {e : Entry} (he : es[i]? = some e) :
    e.1.seq.toNat = n.toNat + i := by
  obtain ⟨hlt, -⟩ := List.getElem?_eq_some_iff.mp he
  rw [h i e he, UInt64.toNat_add, UInt64.toNat_ofNat']
  omega

theorem SeqsFrom.seq_pos {n : UInt64} {es : List Entry} (h : SeqsFrom n es) (hpos : 0 < n.toNat)
    (hfits : n.toNat + es.length < 2 ^ 64) {e : Entry} (he : e ∈ es) : 0 < e.1.seq.toNat := by
  obtain ⟨i, hi⟩ := List.mem_iff_getElem?.mp he
  have := h.toNat_eq hfits hi
  omega

theorem SeqsFrom.seq_ne_zero {n : UInt64} {es : List Entry} (h : SeqsFrom n es)
    (hpos : 0 < n.toNat) (hfits : n.toNat + es.length < 2 ^ 64) {e : Entry} (he : e ∈ es) :
    e.1.seq ≠ 0 := by
  intro hzero
  have hseq := h.seq_pos hpos hfits he
  rw [hzero] at hseq
  exact absurd hseq (by decide)

/-- **Any cut of a session's file is a `WalFile`.** -/
theorem walFile_cut {filePrefix : List Char} {n : UInt64} {header : WalFileHeader}
    (hcur : header.Current) (hstart : header.startSeq = n) {es : List Entry}
    (hframed : ∀ e ∈ es, walFraming.WellFramed e) (hseqs : SeqsFrom n es) (hpos : 0 < n.toNat)
    (hfits : n.toNat + es.length < 2 ^ 64) (k : Nat) :
    WalFile filePrefix n (walFileName filePrefix n, (logImage header es).take k) := by
  obtain ⟨hmagic, hread⟩ := readFileHeader_cut hcur (walFraming.image es) k
  rw [hstart] at hread
  have hcut := fileEntries_cut hcur hframed k
  have hheaders : (fileEntries ((logImage header es).take k)).map Prod.fst <+: es.map Prod.fst := by
    rw [hcut]
    exact ((List.takeWhile_prefix _).map _).trans (walFraming.headers_cut_prefix es _)
  have hshort : (fileEntries ((logImage header es).take k)).length ≤ es.length := by
    have := hheaders.length_le
    rwa [List.length_map, List.length_map] at this
  constructor
  case named => rfl
  case known =>
    rw [WalFileHeader.knownMagic, logImage, hmagic]
    rfl
  case pos => exact hpos
  case seqs => exact hseqs.of_headers_prefix hheaders
  case fits => exact lt_of_le_of_lt (Nat.add_le_add_left hshort _) hfits
  case start_le =>
    show (readFileHeader ((logImage header es).take k)).1.startSeq.toNat ≤ n.toNat
    rw [logImage, hread]
    exact Nat.mod_le _ _
  case whole =>
    intro hne
    -- with an entry readable the whole file header is there
    have hk : walFileHeaderSize < k := by
      by_contra hle
      apply hne
      have hzero : k - walFileHeaderSize = 0 := by omega
      rw [hcut, hzero]
      cases es with
      | nil => rfl
      | cons e es =>
        have hsize : 0 < walEntryHeaderSize := by decide
        simp [Framing.complete, Framing.torn]
    rw [← hstart]
    exact storedStart_cut hcur _ es (Nat.le_of_lt hk)

theorem WalFileWriter.Logs.walFile_take {w : WalFileWriter} {filePrefix : List Char} {n : UInt64}
    {es : List Entry} (h : w.Logs filePrefix n es) (hpos : 0 < n.toNat)
    (hfits : n.toNat + es.length < 2 ^ 64) {out : OStream} (hout : w.file = some out) (k : Nat) :
    WalFile filePrefix n (w.currentFile, out.written.take k) := by
  obtain ⟨header, out', hfile, hcur, hstart, hwritten⟩ := h.written
  obtain rfl : out' = out := Option.some.inj (hfile.symm.trans hout)
  rw [hwritten, h.named]
  exact walFile_cut hcur hstart h.framed h.seqs hpos hfits k

/-- **`Close()` leaves a whole file** with exactly the appended entries. -/
theorem WalFileWriter.Logs.walFile_closed {w : WalFileWriter} {filePrefix : List Char}
    {n : UInt64} {es : List Entry} (h : w.Logs filePrefix n es) (hpos : 0 < n.toNat)
    (hfits : n.toNat + es.length < 2 ^ 64) {out : OStream} (hout : w.file = some out)
    (now : UInt64) :
    WalFile filePrefix n (w.currentFile, w.closedContent out now) ∧
      storedStart (w.currentFile, w.closedContent out now) = n ∧
      fileEntries (w.closedContent out now) = es := by
  obtain ⟨hcur, hstart, hcontent⟩ := h.closedContent hout now
  have hlen : walFileHeaderSize ≤ (logImage (w.closingHeader now) es).length := by
    rw [logImage, List.length_append, WalFileHeader.length_toBytes]
    omega
  refine ⟨?_, ?_, ?_⟩
  · rw [hcontent, h.named, ← List.take_length (l := logImage (w.closingHeader now) es)]
    exact walFile_cut hcur hstart h.framed h.seqs hpos hfits _
  · have hread := storedStart_cut hcur w.currentFile es hlen
    rwa [List.take_length, hstart, ← hcontent] at hread
  · rw [hcontent]
    exact fileEntries_logImage hcur h.framed fun _ he => h.seqs.seq_ne_zero hpos hfits he

end Zrtools.Wal

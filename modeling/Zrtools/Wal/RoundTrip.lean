import Zrtools.Wal.TornTail
import Zrtools.Wal.Isolation

/-!
# zrtools — one WAL session, written and read back

The calls of one session on a fresh directory, and what the readers get of them after
`Sync` or `Close`.

* `WalFileWriter.appendAll` — the calls one after the other, with the numbers they return;
* `Stored` — what the entry behind one call has to look like;
* `appendAll_logs` — every call leaves one such entry in the file;
* `roundTrip` — with fewer than 2^64 calls, `ReadAfter` returns them all, and the header that
  `Close` writes counts them;
* `entryCount_wraps` — the 2^64th call brings the counter back to 0.
-/

namespace Zrtools.Wal

open LittleEndian

-- ---------------------------------------------------------------------------
-- The calls
-- ---------------------------------------------------------------------------

/-- The arguments of one `Append`, and the clock reading it takes. -/
structure AppendCall where
  type : UInt16
  data : Payload
  now : UInt64

def AppendCall.action (c : AppendCall) : Action := .append c.type c.data c.now

/-- `Append` once for each call: the returned numbers and the writer at the end. -/
def WalFileWriter.appendAll (w : WalFileWriter) :
    List AppendCall → Option (List UInt64 × WalFileWriter)
  | [] => some ([], w)
  | c :: calls => do
    let (seq, w) ← w.append c.type c.data c.now
    let (seqs, w) ← w.appendAll calls
    some (seq :: seqs, w)

/-- An entry holds what one call was given, under the number it returned, with a checksum
that `ValidateCrc` accepts. -/
structure Stored (call : UInt64 × AppendCall) (e : Entry) : Prop where
  seq : e.1.seq = call.1
  type : e.1.type = call.2.type
  data : e.2 = call.2.data.bytes
  dataLen : e.1.dataLen = call.2.data.len
  valid : validateCrc e.1 e.2 = true

/-- The checksum of no bytes is the 0 that `ValidateCrc` expects there. -/
theorem calcCrc32_nil : WalEntryHeader.calcCrc32 [] = 0 := by
  decide

theorem stored_newEntry (w : WalFileWriter) (c : AppendCall) :
    Stored (w.currentSeq + 1, c) (w.newEntry c.type c.data c.now) where
  seq := rfl
  type := rfl
  data := rfl
  dataLen := rfl
  valid := by
    show validateCrc (w.entryHeader c.type c.data c.now) c.data.bytes = true
    unfold validateCrc
    split
    · rename_i hzero
      have hlen : c.data.bytes.length = 0 := by
        rw [← c.data.len_toNat]
        exact congrArg UInt16.toNat hzero
      have hnil := List.eq_nil_of_length_eq_zero hlen
      rw [WalFileWriter.entryHeader, hnil, calcCrc32_nil]
      rfl
    · simp [WalFileWriter.entryHeader]

/-- **Every call leaves its entry.** -/
theorem appendAll_logs {w : WalFileWriter} {filePrefix : List Char} {n : UInt64}
    {es : List Entry} (h : w.Logs filePrefix n es) (calls : List AppendCall) :
    ∃ seqs w' new, w.appendAll calls = some (seqs, w') ∧ w'.Logs filePrefix n (es ++ new) ∧
      seqs.length = calls.length ∧ List.Forall₂ Stored (seqs.zip calls) new := by
  induction calls generalizing w es with
  | nil => exact ⟨[], w, [], rfl, by rwa [List.append_nil], rfl, List.Forall₂.nil⟩
  | cons c calls ih =>
    obtain ⟨v, happend, -, hlogs⟩ := h.append c.type c.data c.now
    obtain ⟨seqs, w', new, hall, hlogs', hlen, hstored⟩ := ih hlogs
    refine ⟨(w.currentSeq + 1) :: seqs, w', w.newEntry c.type c.data c.now :: new, ?_, ?_, ?_, ?_⟩
    · rw [WalFileWriter.appendAll, happend]
      simp [hall]
    · rwa [List.append_assoc, List.singleton_append] at hlogs'
    · rw [List.length_cons, List.length_cons, hlen]
    · exact List.Forall₂.cons (stored_newEntry w c) hstored

/-- The same calls as actions on the directory. -/
theorem run_appendAll {filePrefix : List Char} {dir : Directory} {w w' : WalFileWriter}
    {calls : List AppendCall} {seqs : List UInt64} (h : w.appendAll calls = some (seqs, w')) :
    Schedule.run (LogDir.step filePrefix) { dir := dir, writer := some w }
        (calls.map AppendCall.action) =
      some { dir := dir, writer := some w' } := by
  induction calls generalizing w seqs with
  | nil =>
    obtain ⟨-, rfl⟩ := Prod.mk.inj (Option.some.inj h)
    rfl
  | cons c calls ih =>
    simp only [WalFileWriter.appendAll, Option.bind_eq_bind, Option.bind_eq_some_iff] at h
    obtain ⟨⟨seq, v⟩, happend, ⟨rest, v'⟩, hrest, heq⟩ := h
    obtain ⟨-, rfl⟩ := Prod.mk.inj (Option.some.inj heq)
    rw [List.map_cons, Schedule.run]
    simp only [AppendCall.action, LogDir.step, Option.bind_eq_bind, Option.bind_some, happend]
    exact ih hrest

-- ---------------------------------------------------------------------------
-- The header that is read back
-- ---------------------------------------------------------------------------

theorem WalFileHeader.ofBytes_toBytes (h : WalFileHeader) : ofBytes h.toBytes = h := by
  have hmagic : h.magic.toNat < 256 ^ 4 := h.magic.toNat_lt
  have hversion : h.version.toNat < 256 ^ 4 := h.version.toNat_lt
  have hstart : h.startSeq.toNat < 256 ^ 8 := h.startSeq.toNat_lt
  have hcount : h.entryCount.toNat < 256 ^ 8 := h.entryCount.toNat_lt
  have htime : h.createTimeNs.toNat < 256 ^ 8 := h.createTimeNs.toNat_lt
  simp [ofBytes, toBytes, List.drop_append, List.drop_eq_nil_of_le, decode_encode_of_lt hmagic,
    decode_encode_of_lt hversion, decode_encode_of_lt hstart, decode_encode_of_lt hcount,
    decode_encode_of_lt htime]

theorem readFileHeader_logImage (header : WalFileHeader) (es : List Entry) :
    (readFileHeader (logImage header es)).1 = header := by
  have htake : (logImage header es).take walFileHeaderSize = header.toBytes :=
    List.take_left' header.length_toBytes
  have hdrop : (WalFileHeader.toBytes {}).drop header.toBytes.length = [] := by
    rw [List.drop_eq_nil_iff, WalFileHeader.length_toBytes, WalFileHeader.length_toBytes]
  rw [readFileHeader, IStream.read, if_pos rfl]
  dsimp only
  rw [htake, hdrop, List.append_nil, WalFileHeader.ofBytes_toBytes]

-- ---------------------------------------------------------------------------
-- Round trip
-- ---------------------------------------------------------------------------

/-- The calls whose number exceeds `a`. -/
def callsAfter (a : UInt64) (calls : List (UInt64 × AppendCall)) : List (UInt64 × AppendCall) :=
  calls.filter fun c => decide (a < c.1)

/-- Filtering by the number goes through the correspondence. -/
theorem forall₂_entriesAfter {calls : List (UInt64 × AppendCall)} {es : List Entry}
    (h : List.Forall₂ Stored calls es) (a : UInt64) :
    List.Forall₂ Stored (callsAfter a calls) (entriesAfter a es) := by
  induction h with
  | nil => exact List.Forall₂.nil
  | @cons c e calls es hce _ ih =>
    rw [callsAfter, entriesAfter, List.filter_cons, List.filter_cons, hce.seq]
    split
    · exact List.Forall₂.cons hce ih
    · exact ih

/-- `ReadAfter` without a limit, on a directory with one whole file of a session. -/
theorem readAfter_logImage {filePrefix : List Char} {n a : UInt64} {header : WalFileHeader}
    (hcur : header.Current) {es : List Entry} (hframed : ∀ e ∈ es, walFraming.WellFramed e)
    (hne : ∀ e ∈ es, e.1.seq ≠ 0) :
    readAfter [(walFileName filePrefix n, logImage header es)] a 0 = entriesAfter a es := by
  rw [readAfter_eq, sortedWalFiles, List.filter_singleton, isWalFile_walFileName]
  simp [limit, fileEntries_logImage hcur hframed hne]

/-- What a reader finds in a directory where the calls have returned these numbers. -/
def ReadsBack (dir : Directory) (seqs : List UInt64) (calls : List AppendCall) : Prop :=
  ∀ a, List.Forall₂ Stored (callsAfter a (seqs.zip calls)) (readAfter dir a 0)

/-- The `i`-th of the consecutive numbers from 1 on is not 0 before the 2^64th. -/
theorem SeqsFrom.ne_zero_of_length {es : List Entry} (h : SeqsFrom 1 es)
    (hlen : es.length < 2 ^ 64) {e : Entry} (he : e ∈ es) : e.1.seq ≠ 0 := by
  obtain ⟨i, hi⟩ := List.mem_iff_getElem?.mp he
  obtain ⟨hlt, -⟩ := List.getElem?_eq_some_iff.mp hi
  intro hzero
  have hseq := congrArg UInt64.toNat (h i e hi)
  rw [hzero, UInt64.toNat_add, UInt64.toNat_ofNat'] at hseq
  change 0 = (1 + i % 2 ^ 64) % 2 ^ 64 at hseq
  omega

/-- One entry for each call. -/
theorem length_eq_of_stored {seqs : List UInt64} {calls : List AppendCall} {es : List Entry}
    (hlen : seqs.length = calls.length) (hstored : List.Forall₂ Stored (seqs.zip calls) es) :
    es.length = calls.length := by
  have hzip := hstored.length_eq
  rw [List.length_zip, hlen, Nat.min_self] at hzip
  exact hzip.symm

theorem seqs_eq_range {seqs : List UInt64} {calls : List AppendCall} {es : List Entry}
    (hlen : seqs.length = calls.length) (hstored : List.Forall₂ Stored (seqs.zip calls) es)
    (hseqs : SeqsFrom 1 es) :
    seqs = (List.range calls.length).map fun i => UInt64.ofNat (i + 1) := by
  have hes := length_eq_of_stored hlen hstored
  apply List.ext_getElem
  · rw [hlen, List.length_map, List.length_range]
  · intro i hi hi'
    rw [List.length_map, List.length_range] at hi'
    have hentry := hstored.get (by rw [List.length_zip]; omega) (by omega : i < es.length)
    have hnum := hseqs i es[i] (List.getElem?_eq_getElem _)
    simp only [List.get_eq_getElem, List.getElem_zip] at hentry
    have hreturned : es[i].1.seq = seqs[i] := hentry.seq
    rw [List.getElem_map, List.getElem_range, ← hreturned, hnum, Nat.add_comm,
      UInt64.ofNat_add]
    rfl

/-- **Round trip** of a session with fewer than 2^64 calls on a fresh directory. After
`Sync` all bytes are on disk and read back; after `Close` they read back too, and the header
starts at the first number and counts the calls. -/
theorem roundTrip (filePrefix : List Char) (now closing : UInt64) {calls : List AppendCall}
    (hcalls : calls.length < 2 ^ 64) :
    ∃ seqs w out,
      (WalFileWriter.init filePrefix [] now).appendAll calls = some (seqs, w) ∧
        w.file = some out ∧
        seqs = (List.range calls.length).map (fun i => UInt64.ofNat (i + 1)) ∧
        Schedule.run (LogDir.step filePrefix) LogDir.empty
            (.init [] now :: calls.map AppendCall.action ++ [.sync]) =
          some { dir := [(w.currentFile, [])],
                 writer := some { w with file := some out.flush } } ∧
        (∀ kept, out.flush.flushed ≤ kept →
          ReadsBack [(w.currentFile, out.flush.written.take kept)] seqs calls) ∧
        Schedule.run (LogDir.step filePrefix) LogDir.empty
            (.init [] now :: calls.map AppendCall.action ++ [.close closing]) =
          some { dir := [(w.currentFile, w.closedContent out closing)], writer := none } ∧
        ReadsBack [(w.currentFile, w.closedContent out closing)] seqs calls ∧
        (readFileHeader (w.closedContent out closing)).1.startSeq = 1 ∧
        (readFileHeader (w.closedContent out closing)).1.entryCount.toNat = calls.length := by
  obtain ⟨seqs, w, es, hall, hlogs, hlen, hstored⟩ :=
    appendAll_logs (WalFileWriter.logs_init filePrefix [] now) calls
  rw [List.nil_append] at hlogs
  obtain ⟨header, out, hout, hcur, -, hwritten⟩ := hlogs.written
  have hes := length_eq_of_stored hlen hstored
  have hne : ∀ e ∈ es, e.1.seq ≠ 0 := fun e he =>
    SeqsFrom.ne_zero_of_length hlogs.seqs (by omega) he
  have hcalled : Schedule.run (LogDir.step filePrefix) LogDir.empty
      (.init [] now :: calls.map AppendCall.action) =
        some { dir := [(w.currentFile, [])], writer := some w } := by
    have hname : (WalFileWriter.init filePrefix [] now).currentFile = w.currentFile :=
      hlogs.named.symm
    rw [Schedule.run_cons]
    refine ⟨_, rfl, ?_⟩
    rw [← hname]
    exact run_appendAll hall
  have hback : ∀ header : WalFileHeader, header.Current →
      ReadsBack [(w.currentFile, logImage header es)] seqs calls := by
    intro header hcur a
    rw [hlogs.named, readAfter_logImage hcur hlogs.framed hne]
    exact forall₂_entriesAfter hstored a
  obtain ⟨hclosing, hstart, hcontent⟩ := hlogs.closedContent hout closing
  refine ⟨seqs, w, out, hall, hout, seqs_eq_range hlen hstored hlogs.seqs, ?_, ?_, ?_, ?_, ?_, ?_⟩
  · rw [Schedule.run_append _ hcalled]
    simp [Schedule.run, LogDir.step, WalFileWriter.sync, hout]
  · -- all that was written is flushed
    intro kept hkept
    have htake : out.flush.written.take kept = logImage header es := by
      rw [← hwritten]
      exact List.take_of_length_le hkept
    rw [htake]
    exact hback header hcur
  · rw [Schedule.run_append _ hcalled]
    simp [Schedule.run, LogDir.step, putFile, hout]
  · rw [hcontent]
    exact hback _ hclosing
  · rw [hcontent, readFileHeader_logImage]
    exact hstart
  · rw [hcontent, readFileHeader_logImage]
    show w.entryCount.toNat = _
    rw [hlogs.count, UInt64.toNat_ofNat', Nat.mod_eq_of_lt (by omega), hes]

/-- A session with an empty and a one-byte payload. -/
def twoCalls : List AppendCall := [⟨5, .empty, 0⟩, ⟨6, ⟨[7], payloadOfB_fits⟩, 0⟩]

theorem roundTrip_twoCalls : ∃ seqs w out,
    (WalFileWriter.init defaultPrefix [] 0).appendAll twoCalls = some (seqs, w) ∧
      w.file = some out ∧
      seqs = (List.range twoCalls.length).map (fun i => UInt64.ofNat (i + 1)) ∧
      Schedule.run (LogDir.step defaultPrefix) LogDir.empty
          (.init [] 0 :: twoCalls.map AppendCall.action ++ [.sync]) =
        some { dir := [(w.currentFile, [])],
               writer := some { w with file := some out.flush } } ∧
      (∀ kept, out.flush.flushed ≤ kept →
        ReadsBack [(w.currentFile, out.flush.written.take kept)] seqs twoCalls) ∧
      Schedule.run (LogDir.step defaultPrefix) LogDir.empty
          (.init [] 0 :: twoCalls.map AppendCall.action ++ [.close 0]) =
        some { dir := [(w.currentFile, w.closedContent out 0)], writer := none } ∧
      ReadsBack [(w.currentFile, w.closedContent out 0)] seqs twoCalls ∧
      (readFileHeader (w.closedContent out 0)).1.startSeq = 1 ∧
      (readFileHeader (w.closedContent out 0)).1.entryCount.toNat = twoCalls.length :=
  roundTrip defaultPrefix 0 0 (by decide)

/-- **The counters wrap.** After 2^64 calls the header that `Close` writes counts none. -/
theorem entryCount_wraps : ∃ seqs w out,
    (WalFileWriter.init defaultPrefix [] 0).appendAll
        (List.replicate (2 ^ 64) ⟨5, .empty, 0⟩) = some (seqs, w) ∧
      w.file = some out ∧ (readFileHeader (w.closedContent out 0)).1.entryCount = 0 ∧
      (List.replicate (2 ^ 64) (AppendCall.mk 5 .empty 0)).length ≠ 0 := by
  obtain ⟨seqs, w, es, hall, hlogs, hlen, hstored⟩ :=
    appendAll_logs (WalFileWriter.logs_init defaultPrefix [] 0)
      (List.replicate (2 ^ 64) ⟨5, .empty, 0⟩)
  rw [List.nil_append] at hlogs
  obtain ⟨-, out, hout, -⟩ := hlogs.written
  obtain ⟨-, -, hcontent⟩ := hlogs.closedContent hout 0
  have hes : es.length = 2 ^ 64 := by
    have := hstored.length_eq
    rw [List.length_zip, hlen, List.length_replicate] at this
    omega
  refine ⟨seqs, w, out, hall, hout, ?_, ?_⟩
  · rw [hcontent, readFileHeader_logImage]
    show w.entryCount = 0
    rw [hlogs.count, hes]
    rfl
  · rw [List.length_replicate]
    decide

end Zrtools.Wal

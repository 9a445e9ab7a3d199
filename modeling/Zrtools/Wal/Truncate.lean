import Zrtools.Wal.Restart
import Zrtools.Wal.Isolation

/-!
# zrtools — the second parser, and what `TruncateBefore` may delete

`TruncateBefore` decides by `GetLastSeqInFile`, a parser of its own that skips payloads
with `seekg`; `ReadAfter` replays with another that reads them.

* `getLastSeqInFile_agrees` — on any bytes behind a known magic the two agree;
* `SessionFile` — what every file of a log looks like, torn or whole, kept by every step
  of every run (`Kept.step`);
* `truncateBefore_eq` — which files a call removes;
* `truncateBefore_keeps` — after any run, no entry that a reader may still ask for is lost.
-/

namespace Zrtools.Wal

-- ---------------------------------------------------------------------------
-- The two parsers
-- ---------------------------------------------------------------------------

theorem readFile_unlimited (content : Bytes) :
    (readFile 0 0 content []).1 = entriesAfter 0 (fileEntries content) := by
  rw [readFile_eq, collect_unlimited]
  rfl

/-- The loop stops at the first seq 0. -/
theorem seq_ne_zero_of_mem_parse {rest : Bytes} {e : Entry} (he : e ∈ walFraming.parse rest) :
    e.1.seq ≠ 0 := by
  induction hlen : rest.length using Nat.strong_induction_on generalizing rest with
  | _ len ih =>
    by_cases hlong : walFraming.size ≤ rest.length
    · rw [walFraming.parse_step hlong] at he
      split at he
      · simp at he
      · rename_i hend
        rcases List.mem_cons.mp he with rfl | he
        · simpa [walFraming] using hend
        · refine ih _ ?_ he rfl
          have hpos := walFraming.size_pos
          rw [List.length_drop]
          omega
    · rw [walFraming.parse_of_short (Nat.lt_of_not_le hlong)] at he
      simp at he

theorem seq_ne_zero_of_mem_fileEntries {content : Bytes} {e : Entry}
    (he : e ∈ fileEntries content) : e.1.seq ≠ 0 := by
  unfold fileEntries at he
  split at he
  · exact seq_ne_zero_of_mem_parse he
  · simp at he

/-- `ReadAfter(0)` takes every entry of a file. -/
theorem entriesAfter_zero_fileEntries (content : Bytes) :
    entriesAfter 0 (fileEntries content) = fileEntries content := by
  rw [entriesAfter, List.filter_eq_self]
  intro e he
  have hne := seq_ne_zero_of_mem_fileEntries he
  rw [decide_eq_true_iff]
  exact UInt64.pos_iff_ne_zero.mpr hne

/-- **The two parsers agree** on any file whose magic is accepted: the loop of
`GetLastSeqInFile` ends, and the result is the seq of the last entry that `ReadAfter(0)` takes
from the file, or the start number as it was read. -/
theorem getLastSeqInFile_agrees {content : Bytes}
    (hmagic : (readFileHeader content).1.knownMagic = true) :
    (∀ fuel, content.length < fuel →
        lastSeqLoop fuel (readFileHeader content).2 (readFileHeader content).1.startSeq =
          getLastSeqInFile content) ∧
      (∀ name, isWalFile (name, content) = true →
        readAfter [(name, content)] 0 0 = (readFile 0 0 content []).1) ∧
      getLastSeqInFile content =
        match (readFile 0 0 content []).1.getLast? with
        | some e => e.1.seq
        | none => (readFileHeader content).1.startSeq := by
  refine ⟨?_, ?_, ?_⟩
  · intro fuel hfuel
    have hloop : ∀ fuel, content.length < fuel →
        lastSeqLoop fuel (readFileHeader content).2 (readFileHeader content).1.startSeq =
          ((fileEntries content).getLast?.map fun e => e.1.seq).getD
            (readFileHeader content).1.startSeq := by
      intro fuel hfuel
      rw [fileEntries, if_pos hmagic, readFileHeader_stream]
      by_cases hlong : walFileHeaderSize ≤ content.length
      · rw [decide_eq_true hlong, lastSeqLoop_eq]
        rw [List.length_drop]
        omega
      · -- the read of the header has already left the stream not good
        have hnil : content.drop walFileHeaderSize = [] := List.drop_eq_nil_of_le (by omega)
        rw [hnil, decide_eq_false hlong, walFraming.parse_of_short (by decide)]
        cases fuel <;> simp [lastSeqLoop]
    rw [hloop fuel hfuel, getLastSeqInFile_eq, if_pos hmagic]
  · intro name hwal
    rw [readAfter_eq, sortedWalFiles, List.filter_singleton, hwal, readFile_unlimited]
    simp [limit]
  · rw [readFile_unlimited, entriesAfter_zero_fileEntries, getLastSeqInFile_eq, if_pos hmagic]
    cases (fileEntries content).getLast? <;> rfl

/-- The two parsers on a file with one entry. -/
theorem getLastSeqInFile_agrees_closedOne :
    (∀ fuel, closedOne.2.length < fuel →
        lastSeqLoop fuel (readFileHeader closedOne.2).2 (readFileHeader closedOne.2).1.startSeq =
          getLastSeqInFile closedOne.2) ∧
      (∀ name, isWalFile (name, closedOne.2) = true →
        readAfter [(name, closedOne.2)] 0 0 = (readFile 0 0 closedOne.2 []).1) ∧
      getLastSeqInFile closedOne.2 =
        match (readFile 0 0 closedOne.2 []).1.getLast? with
        | some e => e.1.seq
        | none => (readFileHeader closedOne.2).1.startSeq :=
  getLastSeqInFile_agrees (by decide +kernel)

-- ---------------------------------------------------------------------------
-- Files of a log
-- ---------------------------------------------------------------------------

/-- A file as some session of the prefix leaves it: a header and consecutive entries, whole
or cut anywhere. -/
def SessionFile (filePrefix : List Char) (f : FileName × Bytes) : Prop :=
  ∃ n header es k, f = (walFileName filePrefix n, (logImage header es).take k) ∧
    header.Current ∧ (∀ e ∈ es, walFraming.WellFramed e) ∧ SeqsFrom n es

/-- The readable entries of a cut file are still consecutive, and the magic is there. -/
theorem SessionFile.entries {filePrefix : List Char} {f : FileName × Bytes}
    (h : SessionFile filePrefix f) :
    (readFileHeader f.2).1.knownMagic = true ∧ ∃ n, SeqsFrom n (fileEntries f.2) := by
  obtain ⟨n, header, es, k, rfl, hcur, hframed, hseqs⟩ := h
  refine ⟨knownMagic_cut hcur es k, n, ?_⟩
  apply hseqs.of_headers_prefix
  show (fileEntries ((logImage header es).take k)).map Prod.fst <+: es.map Prod.fst
  rw [fileEntries_cut hcur hframed]
  exact ((List.takeWhile_prefix _).map _).trans (walFraming.headers_cut_prefix es _)

/-- Consecutive seqs with no 0 among them have not wrapped. -/
theorem SeqsFrom.toNat_eq_of_ne_zero {n : UInt64} {es : List Entry} (h : SeqsFrom n es)
    (hne : ∀ e ∈ es, e.1.seq ≠ 0) {i : Nat} {e : Entry} (he : es[i]? = some e) :
    e.1.seq.toNat = n.toNat + i := by
  induction i generalizing e with
  | zero =>
    have hseq := h 0 e he
    simpa using congrArg UInt64.toNat hseq
  | succ i ih =>
    obtain ⟨hlt, -⟩ := List.getElem?_eq_some_iff.mp he
    have hprev : es[i]? = some es[i] := List.getElem?_eq_getElem (by omega)
    have hnum := ih hprev
    have hstep : e.1.seq = es[i].1.seq + 1 := by
      rw [h _ _ he, h _ _ hprev, UInt64.ofNat_add, ← UInt64.add_assoc]
      rfl
    have hpos : e.1.seq.toNat ≠ 0 := fun hzero =>
      hne e (List.mem_of_getElem? he) (UInt64.toNat_inj.mp hzero)
    have hbound := es[i].1.seq.toNat_lt
    rw [hstep, UInt64.toNat_add] at hpos ⊢
    change (es[i].1.seq.toNat + 1) % 2 ^ 64 ≠ 0 at hpos
    show (es[i].1.seq.toNat + 1) % 2 ^ 64 = _
    omega

/-- **No readable entry is above what the other parser returns.** -/
theorem SessionFile.seq_le_lastSeq {filePrefix : List Char} {f : FileName × Bytes}
    (h : SessionFile filePrefix f) {e : Entry} (he : e ∈ fileEntries f.2) :
    e.1.seq ≤ getLastSeqInFile f.2 := by
  obtain ⟨hmagic, n, hseqs⟩ := h.entries
  have hne : ∀ e ∈ fileEntries f.2, e.1.seq ≠ 0 := fun _ he => seq_ne_zero_of_mem_fileEntries he
  obtain ⟨i, hi⟩ := List.mem_iff_getElem?.mp he
  obtain ⟨hlt, -⟩ := List.getElem?_eq_some_iff.mp hi
  obtain ⟨last, hlast⟩ : ∃ last, (fileEntries f.2)[(fileEntries f.2).length - 1]? = some last :=
    ⟨_, List.getElem?_eq_getElem (by omega)⟩
  have hlow := hseqs.toNat_eq_of_ne_zero hne hi
  have hhigh := hseqs.toNat_eq_of_ne_zero hne hlast
  rw [getLastSeqInFile_eq, if_pos hmagic, List.getLast?_eq_getElem?, hlast,
    UInt64.le_iff_toNat_le]
  show e.1.seq.toNat ≤ last.1.seq.toNat
  omega

-- ---------------------------------------------------------------------------
-- Which files a call removes
-- ---------------------------------------------------------------------------

/-- The files `TruncateBefore(seq)` is after. -/
def WalFileWriter.expired (w : WalFileWriter) (seq : UInt64) (f : FileName × Bytes) : Bool :=
  isWalFile f && decide (getLastSeqInFile f.2 < seq ∧ f.1 ≠ w.currentFile)

theorem WalFileWriter.truncateStep_eq (w : WalFileWriter) (seq : UInt64) (acc : Directory × Nat)
    (f : FileName × Bytes) :
    w.truncateStep seq acc f =
      if w.expired seq f then (acc.1.filter fun g => g.1 ≠ f.1, acc.2 + 1) else acc := by
  rw [WalFileWriter.truncateStep, WalFileWriter.expired]
  cases isWalFile f <;> simp

theorem foldl_truncateStep (w : WalFileWriter) (seq : UInt64) (listing dir : Directory)
    (n : Nat) :
    listing.foldl (w.truncateStep seq) (dir, n) =
      (dir.filter fun g => listing.all fun f => !w.expired seq f || decide (g.1 ≠ f.1),
        n + (listing.filter (w.expired seq)).length) := by
  induction listing generalizing dir n with
  | nil => simp
  | cons f listing ih =>
    rw [List.foldl_cons, WalFileWriter.truncateStep_eq]
    cases hf : w.expired seq f with
    | true =>
      rw [if_pos rfl, ih, List.filter_filter, List.filter_cons, if_pos hf, List.length_cons]
      simp only [List.all_cons, hf, Bool.not_true, Bool.false_or, Prod.mk.injEq]
      refine ⟨?_, by omega⟩
      apply List.filter_congr
      intro g _
      exact Bool.and_comm ..
    | false =>
      rw [if_neg Bool.false_ne_true, ih, List.filter_cons, hf]
      simp [hf]

/-- **`TruncateBefore(seq)` removes exactly the expired files** and counts them. -/
theorem truncateBefore_eq (w : WalFileWriter) {dir listing : Directory}
    (hnames : (dir.map Prod.fst).Nodup) (hperm : listing.Perm dir) (seq : UInt64) :
    w.truncateBefore dir listing seq =
      (dir.filter fun f => !w.expired seq f, (dir.filter (w.expired seq)).length) := by
  rw [WalFileWriter.truncateBefore, foldl_truncateStep, Nat.zero_add,
    (hperm.filter (w.expired seq)).length_eq]
  simp only [Prod.mk.injEq, and_true]
  apply List.filter_congr
  intro g hg
  rw [Bool.eq_iff_iff, List.all_eq_true]
  refine ⟨?_, ?_⟩
  · intro h
    simpa using h g (hperm.mem_iff.mpr hg)
  · intro hkeep f hf
    by_cases hname : g.1 = f.1
    · -- names are distinct, so it is the same file
      obtain rfl : g = f := List.inj_on_of_nodup_map hnames hg (hperm.mem_iff.mp hf) hname
      simpa using hkeep
    · simp [hname]

-- ---------------------------------------------------------------------------
-- Runs
-- ---------------------------------------------------------------------------

/-- `SetSyncInterval(interval)`. -/
def WalFileWriter.setSyncInterval (w : WalFileWriter) (interval : UInt64) : WalFileWriter :=
  { w with syncInterval := interval }

/-- The actions on a directory, with the setter and `TruncateBefore(seq)`, which finds the first
`kept` bytes of the open file on disk. -/
inductive SessionAction where
  | call (a : Action)
  | setSyncInterval (interval : UInt64)
  | truncateBefore (listing : Directory) (kept : Nat) (seq : UInt64)

def LogDir.sessionStep (filePrefix : List Char) (s : LogDir) : SessionAction → Option LogDir
  | .call a => s.step filePrefix a
  | .setSyncInterval interval => do
    let w ← s.writer
    some { s with writer := some (w.setSyncInterval interval) }
  | .truncateBefore listing kept seq => do
    let w ← s.writer
    let out ← w.file
    let dir := putFile s.dir w.currentFile (out.written.take kept)
    if listing.Perm dir then some { s with dir := (w.truncateBefore dir listing seq).1 } else none

/-- A flush hands no further bytes to the stream. -/
theorem OStream.written_ite_flush (c : Prop) [Decidable c] (out : OStream) :
    (if c then out.flush else out).written = out.written := by
  split <;> rfl

/-- What a writer has written does not depend on when it flushes. -/
def WalFileWriter.Writes (w : WalFileWriter) (filePrefix : List Char) (n : UInt64)
    (es : List Entry) : Prop :=
  (w.setSyncInterval 100).Logs filePrefix n es

theorem WalFileWriter.Writes.append {w w' : WalFileWriter} {filePrefix : List Char} {n : UInt64}
    {es : List Entry} (h : w.Writes filePrefix n es) {type : UInt16} {data : Payload}
    {now seq : UInt64} (happend : w.append type data now = some (seq, w')) :
    w'.Writes filePrefix n (es ++ [w.newEntry type data now]) := by
  obtain ⟨v, hv, -, hlogs⟩ := WalFileWriter.Logs.append h type data now
  obtain ⟨-, out, hfile, -⟩ := h.written
  have hopen : w.file = some out := hfile
  rw [WalFileWriter.append, hfile] at hv
  rw [WalFileWriter.append, hopen] at happend
  dsimp only at hv happend
  rw [if_neg (by rw [h.interval]; decide)] at hv
  split at happend
  · simp at happend
  · obtain ⟨-, rfl⟩ := Prod.mk.inj (Option.some.inj happend)
    obtain ⟨-, rfl⟩ := Prod.mk.inj (Option.some.inj hv)
    obtain ⟨header, out', hout', hcur, hstart, hwritten⟩ := hlogs.written
    constructor
    case named => exact hlogs.named
    case written =>
      refine ⟨header, _, rfl, hcur, hstart, ?_⟩
      rw [← Option.some.inj hout', OStream.written_ite_flush] at hwritten
      rw [OStream.written_ite_flush]
      exact hwritten
    case framed => exact hlogs.framed
    case seqs => exact hlogs.seqs
    case current => exact hlogs.current
    case count => exact hlogs.count
    case interval => rfl

theorem WalFileWriter.Writes.sync {w : WalFileWriter} {filePrefix : List Char} {n : UInt64}
    {es : List Entry} (h : w.Writes filePrefix n es) : w.sync.Writes filePrefix n es :=
  WalFileWriter.Logs.sync h

/-- Any first bytes of what was written are a file of the log. -/
theorem WalFileWriter.Writes.sessionFile_take {w : WalFileWriter} {filePrefix : List Char}
    {n : UInt64} {es : List Entry} (h : w.Writes filePrefix n es) {out : OStream}
    (hout : w.file = some out) (k : Nat) :
    SessionFile filePrefix (w.currentFile, out.written.take k) := by
  obtain ⟨header, out', hfile, hcur, -, hwritten⟩ := h.written
  obtain rfl : out' = out := Option.some.inj (hfile.symm.trans hout)
  refine ⟨n, header, es, k, ?_, hcur, h.framed, h.seqs⟩
  rw [hwritten, ← h.named]
  rfl

/-- And so is what `Close()` leaves. -/
theorem WalFileWriter.Writes.sessionFile_closed {w : WalFileWriter} {filePrefix : List Char}
    {n : UInt64} {es : List Entry} (h : w.Writes filePrefix n es) {out : OStream}
    (hout : w.file = some out) (now : UInt64) :
    SessionFile filePrefix (w.currentFile, w.closedContent out now) := by
  obtain ⟨hcur, -, hcontent⟩ := WalFileWriter.Logs.closedContent h hout now
  refine ⟨n, _, es, (w.closedContent out now).length, ?_, hcur, h.framed, h.seqs⟩
  rw [← hcontent, ← h.named]
  exact congrArg (Prod.mk w.currentFile) (List.take_length).symm

/-- The invariant of all runs: distinct files of the log, and a writer that has written
consecutive entries. -/
structure LogDir.Kept (filePrefix : List Char) (s : LogDir) : Prop where
  files : ∀ f ∈ s.dir, SessionFile filePrefix f
  names : (s.dir.map Prod.fst).Nodup
  writer : ∀ w ∈ s.writer, ∃ n es, w.Writes filePrefix n es

theorem LogDir.kept_empty (filePrefix : List Char) : LogDir.empty.Kept filePrefix where
  files := by simp [LogDir.empty]
  names := List.nodup_nil
  writer := by simp [LogDir.empty]

theorem names_putFile {dir : Directory} (h : (dir.map Prod.fst).Nodup) (name : FileName)
    (content : Bytes) : ((putFile dir name content).map Prod.fst).Nodup := by
  rw [putFile, List.map_append, List.nodup_append]
  refine ⟨h.sublist (List.filter_sublist.map _), List.nodup_singleton _, ?_⟩
  rintro a ha b hb rfl
  obtain ⟨f, hf, rfl⟩ := List.mem_map.mp ha
  have hne : f.1 ≠ name := by simpa using (List.mem_filter.mp hf).2
  exact hne (by simpa using hb)

theorem mem_putFile {dir : Directory} {name : FileName} {content : Bytes} {f : FileName × Bytes}
    (hf : f ∈ putFile dir name content) : f ∈ dir ∨ f = (name, content) := by
  rcases List.mem_append.mp hf with hf | hf
  · exact Or.inl (List.mem_of_mem_filter hf)
  · exact Or.inr (List.mem_singleton.mp hf)

/-- Putting a file of the log into the directory. -/
theorem LogDir.Kept.put {filePrefix : List Char} {s : LogDir} (h : s.Kept filePrefix)
    {name : FileName} {content : Bytes} (hfile : SessionFile filePrefix (name, content))
    {writer : Option WalFileWriter} (hwriter : ∀ w ∈ writer, ∃ n es, w.Writes filePrefix n es) :
    LogDir.Kept filePrefix { dir := putFile s.dir name content, writer := writer } where
  files := by
    intro f hf
    rcases mem_putFile hf with hf | rfl
    · exact h.files f hf
    · exact hfile
  names := names_putFile h.names name content
  writer := hwriter

/-- Taking files out of the directory. -/
theorem LogDir.Kept.remove {filePrefix : List Char} {s : LogDir} (h : s.Kept filePrefix)
    {left : Directory} (hleft : left.Sublist s.dir) :
    LogDir.Kept filePrefix { s with dir := left } where
  files f hf := h.files f (hleft.subset hf)
  names := h.names.sublist (hleft.map _)
  writer := h.writer

/-- **One step** keeps the invariant, whatever the action. -/
theorem LogDir.Kept.step {filePrefix : List Char} {s s' : LogDir} {a : SessionAction}
    (h : s.Kept filePrefix) (hstep : s.sessionStep filePrefix a = some s') :
    s'.Kept filePrefix := by
  have hopen : ∀ {w}, (∃ n es, WalFileWriter.Writes w filePrefix n es) →
      LogDir.Kept filePrefix { s with writer := some w } := by
    intro w hw
    refine ⟨h.files, h.names, fun v hv => ?_⟩
    obtain rfl := Option.some.inj hv
    exact hw
  cases a with
  | setSyncInterval interval =>
    simp only [LogDir.sessionStep, Option.bind_eq_bind, Option.bind_eq_some_iff] at hstep
    obtain ⟨w, hw, hs'⟩ := hstep
    cases hs'
    exact hopen (h.writer w hw)
  | truncateBefore listing kept seq =>
    simp only [LogDir.sessionStep, Option.bind_eq_bind, Option.bind_eq_some_iff,
      Option.ite_none_right_eq_some, Option.some.injEq] at hstep
    obtain ⟨w, hw, out, hout, hperm, rfl⟩ := hstep
    obtain ⟨n, es, hwrites⟩ := h.writer w hw
    have hput := h.put (hwrites.sessionFile_take hout kept) h.writer
    rw [truncateBefore_eq w hput.names hperm]
    exact hput.remove List.filter_sublist
  | call a =>
    rw [LogDir.sessionStep] at hstep
    cases a with
    | init listing now =>
      obtain ⟨-, -, rfl⟩ := LogDir.step_init hstep
      have hlogs := WalFileWriter.logs_init filePrefix listing now
      have hwrites : (WalFileWriter.init filePrefix listing now).Writes filePrefix
          (WalFileWriter.scanMaxSeq listing + 1) [] := hlogs
      refine h.put ?_ fun v hv => ?_
      · obtain ⟨-, out, hout, -⟩ := hlogs.written
        simpa using hwrites.sessionFile_take hout 0
      · obtain rfl := Option.some.inj hv
        exact ⟨_, _, hwrites⟩
    | append type data now =>
      obtain ⟨w, seq, w', hw, happend, rfl⟩ := LogDir.step_append hstep
      obtain ⟨n, es, hwrites⟩ := h.writer w hw
      exact hopen ⟨n, _, hwrites.append happend⟩
    | sync =>
      obtain ⟨w, hw, rfl⟩ := LogDir.step_sync hstep
      obtain ⟨n, es, hwrites⟩ := h.writer w hw
      exact hopen ⟨n, es, hwrites.sync⟩
    | close now =>
      obtain ⟨w, out, hw, hout, rfl⟩ := LogDir.step_close hstep
      obtain ⟨n, es, hwrites⟩ := h.writer w hw
      exact h.put (hwrites.sessionFile_closed hout now) (by simp)
    | crash kept =>
      obtain ⟨w, out, hw, hout, -, rfl⟩ := LogDir.step_crash hstep
      obtain ⟨n, es, hwrites⟩ := h.writer w hw
      exact h.put (hwrites.sessionFile_take hout kept) (by simp)

theorem LogDir.kept_run {filePrefix : List Char} {acts : List SessionAction} {s : LogDir}
    (hrun : Schedule.run (LogDir.sessionStep filePrefix) LogDir.empty acts = some s) :
    s.Kept filePrefix :=
  Schedule.run_invariant (LogDir.sessionStep filePrefix) (LogDir.Kept filePrefix)
    (fun _ _ _ h hstep => h.step hstep) (LogDir.kept_empty filePrefix) hrun

-- ---------------------------------------------------------------------------
-- What is lost
-- ---------------------------------------------------------------------------

/-- An expired file has nothing for a reader that is past it. -/
theorem entriesAfter_of_expired {filePrefix : List Char} {w : WalFileWriter} {seq a : UInt64}
    {f : FileName × Bytes} (hfile : SessionFile filePrefix f) (hexp : w.expired seq f = true)
    (hseq : 1 ≤ seq) (ha : seq - 1 ≤ a) : entriesAfter a (fileEntries f.2) = [] := by
  rw [WalFileWriter.expired, Bool.and_eq_true, decide_eq_true_iff] at hexp
  rw [entriesAfter, List.filter_eq_nil_iff]
  intro e he hlt
  rw [decide_eq_true_iff, UInt64.lt_iff_toNat_lt] at hlt
  have hle := UInt64.le_iff_toNat_le.mp (hfile.seq_le_lastSeq he)
  have hbelow := UInt64.lt_iff_toNat_lt.mp hexp.2.1
  have hpred : (seq - 1).toNat = seq.toNat - 1 := UInt64.toNat_sub_of_le seq 1 hseq
  have hafter := UInt64.le_iff_toNat_le.mp ha
  omega

/-- Files with nothing for the reader can be taken out. -/
theorem readAfter_filter {a : UInt64} (maxCount : Nat) {keep : FileName × Bytes → Bool}
    {dir : Directory}
    (h : ∀ f ∈ dir, keep f = false → entriesAfter a (fileEntries f.2) = []) :
    readAfter (dir.filter keep) a maxCount = readAfter dir a maxCount := by
  have hall : ∀ l : Directory, (∀ f ∈ l, keep f = false → entriesAfter a (fileEntries f.2) = []) →
      entriesAfter a ((l.filter keep).flatMap fun f => fileEntries f.2) =
        entriesAfter a (l.flatMap fun f => fileEntries f.2) := by
    intro l
    induction l with
    | nil => exact fun _ => rfl
    | cons f l ih =>
      intro hl
      have hrest := ih fun g hg => hl g (List.mem_cons_of_mem _ hg)
      rw [List.flatMap_cons, entriesAfter_append, ← hrest]
      cases hf : keep f with
      | true => rw [List.filter_cons, if_pos hf, List.flatMap_cons, entriesAfter_append]
      | false =>
        rw [List.filter_cons, hf, if_neg Bool.false_ne_true, hl f (List.mem_cons_self ..) hf,
          List.nil_append]
  rw [readAfter_eq, readAfter_eq, sortedWalFiles_filter, hall]
  intro f hf
  apply h
  have hsorted : f ∈ dir.filter isWalFile :=
    (List.perm_insertionSort (fun f g : FileName × Bytes => f.1 ≤ g.1) _).mem_iff.mp hf
  exact List.mem_of_mem_filter hsorted

/-- **`TruncateBefore` loses nothing that is still needed.** After any run of the default
prefix, earlier calls included, with any bytes of the open file on disk: a reader that asks for
what follows `seq - 1` or later gets the same entries as before, the open file is still there, and
the returned count is the number of files removed. -/
theorem truncateBefore_keeps {acts : List SessionAction} {s : LogDir} {w : WalFileWriter}
    {out : OStream}
    (hrun : Schedule.run (LogDir.sessionStep defaultPrefix) LogDir.empty acts = some s)
    (hw : s.writer = some w) (hout : w.file = some out) (kept : Nat) {listing : Directory}
    (hlist : listing.Perm (putFile s.dir w.currentFile (out.written.take kept))) {seq : UInt64}
    (hseq : 1 ≤ seq) :
    ∃ left count,
      w.truncateBefore (putFile s.dir w.currentFile (out.written.take kept)) listing seq =
          (left, count) ∧
        (∀ a maxCount, seq - 1 ≤ a →
          readAfter left a maxCount =
            readAfter (putFile s.dir w.currentFile (out.written.take kept)) a maxCount) ∧
        (w.currentFile, out.written.take kept) ∈ left ∧
        left.Sublist (putFile s.dir w.currentFile (out.written.take kept)) ∧
        left.length + count =
          (putFile s.dir w.currentFile (out.written.take kept)).length := by
  have hkept := LogDir.kept_run hrun
  obtain ⟨n, es, hwrites⟩ := hkept.writer w hw
  obtain ⟨hfiles, hnames, -⟩ := hkept.put (hwrites.sessionFile_take hout kept) hkept.writer
  dsimp only at hfiles hnames
  set dir := putFile s.dir w.currentFile (out.written.take kept) with hdir
  refine ⟨_, _, truncateBefore_eq w hnames hlist seq, ?_, ?_, List.filter_sublist, ?_⟩
  · intro a maxCount ha
    apply readAfter_filter
    intro f hf hexp
    exact entriesAfter_of_expired (hfiles f hf) (by simpa using hexp) hseq ha
  · rw [List.mem_filter]
    refine ⟨?_, by simp [WalFileWriter.expired]⟩
    rw [hdir, putFile]
    simp
  · have hsplit := List.length_eq_length_filter_add (l := dir) (w.expired seq)
    omega

/-- A closed session with one entry, and the next one just opened. -/
def secondSession : List SessionAction :=
  (closedOneSession ++ [Action.init [closedOne] 0]).map .call

/-- Number 1 is no longer needed there, and its file goes. -/
theorem truncateBefore_keeps_secondSession : ∃ s w out,
    Schedule.run (LogDir.sessionStep defaultPrefix) LogDir.empty secondSession = some s ∧
      s.writer = some w ∧ w.file = some out ∧
      ∃ left count,
        w.truncateBefore (putFile s.dir w.currentFile (out.written.take 0))
            (putFile s.dir w.currentFile (out.written.take 0)) 2 = (left, count) ∧
          (∀ a maxCount, 2 - 1 ≤ a →
            readAfter left a maxCount =
              readAfter (putFile s.dir w.currentFile (out.written.take 0)) a maxCount) ∧
          (w.currentFile, out.written.take 0) ∈ left ∧
          left.Sublist (putFile s.dir w.currentFile (out.written.take 0)) ∧
          left.length + count =
            (putFile s.dir w.currentFile (out.written.take 0)).length := by
  have hopen : ∃ s w out,
      Schedule.run (LogDir.sessionStep defaultPrefix) LogDir.empty secondSession = some s ∧
        s.writer = some w ∧ w.file = some out :=
    ⟨⟨[closedOne, (walFileName defaultPrefix 2, [])], some (.init defaultPrefix [closedOne] 0)⟩, _,
      _, by decide +kernel, rfl, rfl⟩
  obtain ⟨s, w, out, hrun, hw, hout⟩ := hopen
  exact ⟨s, w, out, hrun, hw, hout,
    truncateBefore_keeps hrun hw hout 0 (List.Perm.refl _) (by decide)⟩

end Zrtools.Wal

import Zrtools.ShmRing.Pipeline
import Zrtools.Wal.Restart
import Zrtools.Wal.Cadence

/-!
# zrtools — a pipeline that stops and starts

The business thread may stop inside `Append`, and the persister anywhere between its calls. A
persister that is started again initialises a writer in the same directory and reads from the
ring what is not confirmed. What the stream had not flushed is gone by then, and the last
entry of a file may be torn.

* `Persistence` — the ring, the directory and the persister, with stops and starts;
* `Held` — what left the ring is in the files, as often as it was appended, but for some;
* `Flushed` — how much of an open file a crash leaves;
* `Reading` — what the persister has read, written and not confirmed.
-/

namespace Zrtools.ShmRing

open ByteMemory SharedMemory Wal
open scoped List

variable {cfg : Sizes}

-- ---------------------------------------------------------------------------
-- The system
-- ---------------------------------------------------------------------------

/-- The ring, the directory with the writer of the persister while one runs, what the persister
has read and not yet written, and the number that it will confirm. -/
structure Persistence where
  ring : Process
  files : LogDir
  batch : List Copy
  last : Option UInt64

namespace Persistence

/-- What happens: `Append` by the business thread, which may stop on the way and is then
followed by another one that opens the ring again; the calls of the persister; and a stop of the
persister, which leaves `kept` bytes of its file. -/
inductive Act where
  | append (type : UInt16) (data : Payload) (now : UInt64)
  | stopAppend (type : UInt16) (data : Payload) (now : UInt64) (accesses : Nat)
  | init (listing : Directory) (now : UInt64)
  | read (maxCount : Nat)
  | write (now : UInt64)
  | sync
  | confirm
  | close (now : UInt64)
  | crash (kept : Nat)

def Act.isCrash : Act → Bool
  | .crash _ => true
  | _ => false

def Act.isConfirm : Act → Bool
  | .confirm => true
  | _ => false

/-- A new ring and an empty directory; the persister does not run yet. -/
def fresh (cfg : Sizes) (beyond : Mem) (now : UInt64) : Persistence where
  ring := .fresh cfg beyond now
  files := .empty
  batch := []
  last := none

/-- One act. The persister reads a batch when the one before is confirmed, writes it entry by
entry, and then confirms its last number. -/
def step (cfg : Sizes) (s : Persistence) : Act → Option Persistence
  | .append type data now =>
    (s.ring.call cfg (.append type data now)).map fun ring => { s with ring := ring }
  | .stopAppend type data now accesses =>
    (s.ring.call cfg (.stopAppend type data now accesses)).map fun ring => { s with ring := ring }
  | .init listing now =>
    (LogDir.step defaultPrefix s.files (.init listing now)).map fun files =>
      { s with files := files }
  | .read maxCount =>
    if s.last.isSome ∨ s.files.writer.isNone then none
    else
      let (result, memory) := (readUnconfirmedCall cfg maxCount).eval s.ring.mapping.memory
      result.map fun entries =>
        { s with
          ring := s.ring.after memory [.listed maxCount entries]
          batch := entries
          last := entries.getLast?.map fun c => c.1.seq }
  | .write now =>
    match s.batch with
    | [] => none
    | c :: rest =>
      (LogDir.step defaultPrefix s.files (.append c.1.type (payloadOf c.2) now)).map fun files =>
        { s with files := files, batch := rest }
  | .sync =>
    (LogDir.step defaultPrefix s.files .sync).map fun files => { s with files := files }
  | .confirm =>
    match s.batch, s.last with
    | [], some seq =>
      (s.ring.call cfg (.confirm seq)).map fun ring => { s with ring := ring, last := none }
    | [], none => none
    | _ :: _, _ => none
  | .close now =>
    (LogDir.step defaultPrefix s.files (.close now)).map fun files =>
      { s with files := files, batch := [], last := none }
  | .crash kept =>
    (LogDir.step defaultPrefix s.files (.crash kept)).map fun files =>
      { s with files := files, batch := [], last := none }

/-- The condition on an act: what `Append` needs of the ring, what `Init` needs of the files it
lists, and a number for the next entry of the file. -/
def Meets (cfg : Sizes) (s : Persistence) : Act → Prop
  | .append type data _ => type ≠ 0 ∧ AppendOk cfg (entrySize data.len) s.ring.mapping.memory
  | .stopAppend type data _ _ => type ≠ 0 ∧ AppendOk cfg (entrySize data.len) s.ring.mapping.memory
  | .init listing now => ActionOk s.files (.init listing now)
  | .write now => ActionOk s.files (.append 0 .empty now)
  | .read _ => True
  | .sync => True
  | .confirm => True
  | .close _ => True
  | .crash _ => True

/-- Nothing waits in the stream. -/
def Synced (s : Persistence) : Prop :=
  ∀ w out, s.files.writer = some w → w.file = some out → out.AllFlushed

/-- The persister calls `Sync` between its last `Append` and `Confirm`. -/
def MeetsSynced (cfg : Sizes) (s : Persistence) (a : Act) : Prop :=
  s.Meets cfg a ∧ (a = .confirm → s.Synced)

instance (s : Persistence) : Decidable s.Synced :=
  decidable_of_iff (∀ w ∈ s.files.writer, ∀ out ∈ w.file, out.AllFlushed)
    ⟨fun h w out hw hout => h w hw out hout, fun h w hw out hout => h w out hw hout⟩

instance decidableMeets (cfg : Sizes) (s : Persistence) : (a : Act) → Decidable (s.Meets cfg a)
  | .append type data _ => inferInstanceAs
      (Decidable (type ≠ 0 ∧ AppendOk cfg (entrySize data.len) s.ring.mapping.memory))
  | .stopAppend type data _ _ => inferInstanceAs
      (Decidable (type ≠ 0 ∧ AppendOk cfg (entrySize data.len) s.ring.mapping.memory))
  | .init listing now => inferInstanceAs (Decidable (ActionOk s.files (.init listing now)))
  | .write now => inferInstanceAs (Decidable (ActionOk s.files (.append 0 .empty now)))
  | .read _ => isTrue trivial
  | .sync => isTrue trivial
  | .confirm => isTrue trivial
  | .close _ => isTrue trivial
  | .crash _ => isTrue trivial

instance (cfg : Sizes) (s : Persistence) (a : Act) : Decidable (s.MeetsSynced cfg a) :=
  decidable_of_iff (s.Meets cfg a ∧ (a.isConfirm = true → s.Synced)) (by
    cases a <;> simp [MeetsSynced, Act.isConfirm])

/-- What `Confirm` needs and does. -/
theorem step_confirm {s s' : Persistence} (hstep : s.step cfg .confirm = some s') :
    ∃ seq ring, s.batch = [] ∧ s.last = some seq ∧
      s.ring.call cfg (.confirm seq) = some ring ∧ s' = { s with ring := ring, last := none } := by
  cases hbatch : s.batch with
  | cons c rest => simp [step, hbatch] at hstep
  | nil =>
    cases hlast : s.last with
    | none => simp [step, hbatch, hlast] at hstep
    | some seq =>
      simp only [step, hbatch, hlast, Option.map_eq_some_iff] at hstep
      obtain ⟨ring, hcall, hs'⟩ := hstep
      exact ⟨seq, ring, rfl, rfl, hcall, hs'.symm⟩

/-- What writing an entry needs and does. -/
theorem step_write {s s' : Persistence} {now : UInt64} (hstep : s.step cfg (.write now) = some s') :
    ∃ c rest files, s.batch = c :: rest ∧
      LogDir.step defaultPrefix s.files (.append c.1.type (payloadOf c.2) now) = some files ∧
      s' = { s with files := files, batch := rest } := by
  cases hbatch : s.batch with
  | nil => simp [step, hbatch] at hstep
  | cons c rest =>
    simp only [step, hbatch, Option.map_eq_some_iff] at hstep
    obtain ⟨files, hfiles, hs'⟩ := hstep
    exact ⟨c, rest, files, rfl, hfiles, hs'.symm⟩

end Persistence

-- ---------------------------------------------------------------------------
-- What is expected
-- ---------------------------------------------------------------------------

/-- Type and payload. -/
def content (c : Copy) : UInt16 × List UInt8 := (c.1.type, c.2)

/-- Of the entries that the log says were appended. -/
def contents (entries : List Entry) : List (UInt16 × List UInt8) :=
  entries.map fun e => content e.copy

theorem contents_append (a b : List Entry) : contents (a ++ b) = contents a ++ contents b :=
  List.map_append ..

@[simp] theorem length_contents (entries : List Entry) :
    (contents entries).length = entries.length := List.length_map ..

/-- Each file has a stretch of the entries that were appended, in their order, and behind it at
most one that is torn. -/
def Stretches (log : List Record) (dir : Directory) : Prop :=
  ∀ f ∈ dir, ∃ (whole : List Wal.Entry) (torn : Option Wal.Entry),
    fileEntries f.2 = whole ++ torn.toList ∧ whole.map content <:+: contents (accepted log)

/-- What left the ring is in the files, as often as it was appended, but for at most `lost`
entries. The others are not confirmed. -/
structure Held (log : List Record) (dir : Directory) (lost : Nat) : Prop where
  kept : ∃ gone missing, accepted log = gone ++ unconfirmed log ∧ missing.length ≤ lost ∧
    contents gone <+~ (readAfter dir 0 0).map content ++ missing
  stretches : Stretches log dir

-- ---------------------------------------------------------------------------
-- The files
-- ---------------------------------------------------------------------------

/-- All that can be read from a directory. -/
def onDisk (dir : Directory) : List (UInt16 × List UInt8) :=
  (dir.flatMap fun f => fileEntries f.2).map content

@[simp] theorem onDisk_append (a b : Directory) : onDisk (a ++ b) = onDisk a ++ onDisk b := by
  simp [onDisk]

@[simp] theorem onDisk_singleton (f : FileName × Bytes) :
    onDisk [f] = (fileEntries f.2).map content := by
  simp [onDisk]

/-- Files without entries may go. -/
theorem onDisk_filter {dir : Directory} {p : FileName × Bytes → Bool}
    (h : ∀ f ∈ dir, p f = false → fileEntries f.2 = []) : onDisk (dir.filter p) = onDisk dir := by
  induction dir with
  | nil => rfl
  | cons f dir ih =>
    have hrest := ih fun g hg => h g (List.mem_cons_of_mem _ hg)
    cases hp : p f with
    | true =>
      rw [List.filter_cons_of_pos hp, ← List.singleton_append, onDisk_append, hrest,
        ← onDisk_append, List.singleton_append]
    | false =>
      have hnil := h f (List.mem_cons_self ..) hp
      rw [List.filter_cons_of_neg (by simp [hp]), hrest, onDisk, onDisk, List.flatMap_cons, hnil,
        List.nil_append]

/-- `ReadAfter(0)` returns all of it. -/
theorem readAfter_perm_onDisk {dir : Directory} (h : Ordered dir) :
    (readAfter dir 0 0).map content ~ onDisk dir := by
  have hall : dir.filter isWalFile = dir := by
    rw [List.filter_eq_self]
    intro f hf
    obtain ⟨n, hfile⟩ := h.files f hf
    exact hfile.isWalFile_eq
  have hsorted : sortedWalFiles dir ~ dir := by
    rw [sortedWalFiles, hall]
    exact List.perm_insertionSort _ _
  have hafter : entriesAfter 0 ((sortedWalFiles dir).flatMap fun f => fileEntries f.2) =
      (sortedWalFiles dir).flatMap fun f => fileEntries f.2 := by
    rw [entriesAfter, List.filter_eq_self]
    intro e he
    obtain ⟨f, hf, he⟩ := List.mem_flatMap.mp he
    obtain ⟨n, hfile⟩ := h.files f (hsorted.mem_iff.mp hf)
    have hpos := hfile.seqs.seq_pos hfile.pos hfile.fits he
    exact decide_eq_true (UInt64.lt_iff_toNat_lt.mpr hpos)
  rw [readAfter_eq, limit, if_pos rfl, hafter, onDisk]
  exact (hsorted.flatMap_right _).map _

/-- At least the first `k` entries of the session have reached the file, and the others are
those since the last multiple of a hundred. -/
structure Flushed (w : WalFileWriter) (es : List Wal.Entry) (k : Nat) : Prop where
  le : k ≤ es.length
  cadence : es.length ≤ k + es.length % 100
  reached : ∃ out, w.file = some out ∧
    (k = 0 ∨ walFileHeaderSize + (walFraming.image (es.take k)).length ≤ out.flushed)

section Flushed

variable {w : WalFileWriter} {n : UInt64} {es : List Wal.Entry} {k : Nat}

/-- Where all bytes are flushed, all entries are. -/
theorem flushed_of_synced {filePrefix : List Char} (h : w.Logs filePrefix n es)
    (hall : ∀ out, w.file = some out → out.AllFlushed) : Flushed w es es.length := by
  obtain ⟨header, out, hfile, -, -, hwritten⟩ := h.written
  refine ⟨Nat.le_refl _, Nat.le_add_right .., out, hfile, Or.inr ?_⟩
  have hflushed : out.flushed = out.written.length := hall out hfile
  rw [hflushed, hwritten, logImage, List.length_append, WalFileHeader.length_toBytes,
    List.take_length]

/-- **`Append`** flushes at every hundredth entry. -/
theorem Flushed.append {w' : WalFileWriter} {e : Wal.Entry} {seq : UInt64} {type : UInt16}
    {data : Payload} {now : UInt64} (h : Flushed w es k) (hlogs : w.Logs defaultPrefix n es)
    (hlogs' : w'.Logs defaultPrefix n (es ++ [e])) (hfits : es.length + 1 < 2 ^ 64)
    (happend : w.append type data now = some (seq, w')) :
    ∃ k', k ≤ k' ∧ Flushed w' (es ++ [e]) k' := by
  obtain ⟨out, hfile, hk⟩ := h.reached
  have hset : w.syncInterval ≠ 0 := by
    rw [hlogs.interval]
    decide
  rw [w.append_eq hfile hset, Option.some.injEq, Prod.mk.injEq] at happend
  obtain ⟨-, hw'⟩ := happend
  by_cases hmod : (w.entryCount + 1) % w.syncInterval = 0
  · -- the file is flushed
    refine ⟨(es ++ [e]).length, ?_, flushed_of_synced hlogs' ?_⟩
    · rw [List.length_append]
      exact Nat.le_trans h.le (Nat.le_add_right ..)
    · intro out' hout'
      rw [← hw', if_pos hmod, Option.some.injEq] at hout'
      rw [← hout']
      rfl
  · -- it is not, and no multiple of a hundred was passed
    have hcount : (es.length + 1) % 100 ≠ 0 := by
      intro hzero
      apply hmod
      apply UInt64.toNat_inj.mp
      rw [UInt64.toNat_mod, hlogs.interval, UInt64.toNat_add, hlogs.count, UInt64.toNat_ofNat',
        Nat.mod_eq_of_lt (Nat.lt_of_succ_lt hfits)]
      show (es.length + 1) % 2 ^ 64 % 100 = 0
      rw [Nat.mod_eq_of_lt hfits, hzero]
    have hle := h.le
    have hcadence := h.cadence
    refine ⟨k, Nat.le_refl _, ?_, ?_, ?_⟩
    · rw [List.length_append]
      omega
    · rw [List.length_append, List.length_singleton]
      omega
    · refine ⟨w.withEntry out type data now, ?_, hk.imp_right fun hlen => ?_⟩
      · rw [← hw', if_neg hmod]
      · have hsame : (w.withEntry out type data now).flushed = out.flushed := by
          unfold WalFileWriter.withEntry
          dsimp only
          split <;> rfl
        rw [hsame, List.take_append_of_le_length hle]
        exact hlen

/-- **A crash** leaves these entries whole, and perhaps a torn one behind those that it leaves. -/
theorem Flushed.cut (h : Flushed w es k) (hlogs : w.Logs defaultPrefix n es) (hpos : 0 < n.toNat)
    (hfits : n.toNat + es.length < 2 ^ 64) {out : OStream} (hout : w.file = some out) {kept : Nat}
    (hkept : out.flushed ≤ kept) :
    ∃ j torn, k ≤ j ∧ fileEntries (out.written.take kept) = es.take j ++ Option.toList torn := by
  obtain ⟨header, out', hfile, hcur, -, hwritten⟩ := hlogs.written
  obtain rfl : out = out' := Option.some.inj (hout.symm.trans hfile)
  obtain ⟨out', hout', hk⟩ := h.reached
  obtain rfl : out = out' := Option.some.inj (hout.symm.trans hout')
  have hle := h.le
  obtain ⟨j, hcomplete, hj⟩ :
      ∃ j, walFraming.complete (kept - walFileHeaderSize) es = es.take j ∧ k ≤ j := by
    have hinside : (walFraming.image (es.take k)).length ≤ kept - walFileHeaderSize := by
      rcases hk with rfl | hlen
      · exact Nat.zero_le _
      · omega
    obtain ⟨j, hcomplete, hj⟩ := walFraming.complete_eq_take hinside
    exact ⟨j, hcomplete, by omega⟩
  refine ⟨j, walFraming.torn (kept - walFileHeaderSize) es, hj, ?_⟩
  rw [hwritten, fileEntries_cut hcur hlogs.framed, ← hcomplete, List.takeWhile_eq_self_iff]
  -- no number is zero, that of a torn entry neither
  intro e he
  have hheader := (walFraming.headers_cut_prefix es _).subset (List.mem_map_of_mem he)
  obtain ⟨e', he', hsame⟩ := List.mem_map.mp hheader
  have hne := hlogs.seqs.seq_ne_zero hpos hfits he'
  rw [hsame] at hne
  simpa using hne

end Flushed

-- ---------------------------------------------------------------------------
-- The ring
-- ---------------------------------------------------------------------------

/-- **`Confirm`** of the last entry of a stretch confirms that stretch. -/
theorem Ledger.confirm_upTo {p : Process} {confirmed live : List Segment} {front rest : List Entry}
    {e : Entry} (h : Ledger cfg p confirmed live)
    (hlive : entriesOf live = front ++ e :: rest) :
    ∃ ring confirmed' live', p.call cfg (.confirm e.seq) = some ring ∧
      Ledger cfg ring confirmed' live' ∧
      ShmRing.accepted ring.log = ShmRing.accepted p.log ∧
      entriesOf confirmed' = entriesOf confirmed ++ (front ++ [e]) ∧ entriesOf live' = rest := by
  have hmem : ∃ x ∈ ShmRing.unconfirmed p.log, x.seq = e.seq := by
    rw [h.unconfirmed, hlive]
    exact ⟨e, by simp, rfl⟩
  obtain ⟨passed, after, pos, rfl, hcall, hnext⟩ := h.confirm hmem
  -- the entries before it have other numbers
  have hother : ∀ x ∈ front, x.seq ≠ e.seq := by
    intro x hx heq
    have hincreasing := h.laid.increasing
    rw [entriesOf_append, hlive, List.pairwise_append, List.pairwise_append] at hincreasing
    have hlt := hincreasing.2.1.2.2 x hx e (List.mem_cons_self ..)
    rw [heq] at hlt
    exact Nat.lt_irrefl _ hlt
  have hrest : entriesOf after = rest := by
    have hunconfirmed := hnext.unconfirmed
    rw [Process.after, unconfirmed_concat, h.unconfirmed, hlive, confirmStep_confirmed hother]
      at hunconfirmed
    exact hunconfirmed.symm
  have hpassed : entriesOf passed = front ++ [e] := by
    rw [entriesOf_append, hrest, List.append_cons] at hlive
    exact List.append_cancel_right hlive
  refine ⟨_, confirmed ++ passed, after, hcall, hnext, ?_, ?_, hrest⟩
  · rw [Process.after, accepted_append]
    exact List.append_nil _
  · rw [entriesOf_append, hpassed]

/-- What is not confirmed: what the persister has written, what it has still to write, and what
it has not read. -/
structure Reading (cfg : Sizes) (s : Persistence) (confirmed live : List Segment)
    (written ahead rest : List Entry) : Prop where
  ledger : Ledger cfg s.ring confirmed live
  live : entriesOf live = written ++ (ahead ++ rest)
  batch : s.batch = ahead.map Entry.copy
  last : s.last = (written ++ ahead).getLast?.map Entry.seq

section Reading

variable {s : Persistence} {confirmed live : List Segment} {written ahead rest : List Entry}

/-- The business thread puts entries behind those. -/
theorem Reading.grow {ring : Process} {segs : List Segment}
    (h : Reading cfg s confirmed live written ahead rest)
    (hnext : Ledger cfg ring confirmed (live ++ segs)) :
    Reading cfg { s with ring := ring } confirmed (live ++ segs) written ahead
      (rest ++ entriesOf segs) where
  ledger := hnext
  live := by rw [entriesOf_append, h.live, List.append_assoc, List.append_assoc]
  batch := h.batch
  last := h.last

/-- A persister that stops leaves it all unconfirmed. -/
theorem Reading.stop (h : Reading cfg s confirmed live written ahead rest) (files : LogDir) :
    Reading cfg { s with files := files, batch := [], last := none } confirmed live [] []
      (entriesOf live) where
  ledger := h.ledger
  live := rfl
  batch := rfl
  last := rfl

/-- The calls on the file that write no entry. -/
theorem Reading.files (h : Reading cfg s confirmed live written ahead rest) (files : LogDir) :
    Reading cfg { s with files := files } confirmed live written ahead rest where
  ledger := h.ledger
  live := h.live
  batch := h.batch
  last := h.last

/-- Nothing was read, or all of it is confirmed. -/
theorem Reading.idle (h : Reading cfg s confirmed live written ahead rest)
    (hidle : s.last.isSome = false) : written = [] ∧ ahead = [] := by
  have hlast := h.last
  rw [Option.isSome_eq_false_iff, Option.isNone_iff_eq_none] at hidle
  rw [hidle, eq_comm, Option.map_eq_none_iff, List.getLast?_eq_none_iff,
    List.append_eq_nil_iff] at hlast
  exact hlast

/-- **`ReadUnconfirmed`.** -/
theorem Reading.read {s' : Persistence} {maxCount : Nat}
    (h : Reading cfg s confirmed live written ahead rest)
    (hstep : s.step cfg (.read maxCount) = some s') :
    written = [] ∧ s'.files = s.files ∧ accepted s'.ring.log = accepted s.ring.log ∧
      Reading cfg s' confirmed live [] (rest.take maxCount) (rest.drop maxCount) := by
  rw [Persistence.step] at hstep
  split at hstep
  · cases hstep
  · rename_i hidle
    rw [not_or, Bool.not_eq_true] at hidle
    obtain ⟨rfl, rfl⟩ := h.idle hidle.1
    obtain ⟨entries, hentries⟩ :
        ∃ entries, entries = (rest.take maxCount).map Entry.copy := ⟨_, rfl⟩
    have heval : (readUnconfirmedCall cfg maxCount).eval s.ring.mapping.memory =
        (some entries, s.ring.mapping.memory) := by
      rw [h.ledger.laid.stretch.eval_readUnconfirmedCall h.ledger.laid.confirmedPos, h.live,
        hentries]
      rfl
    simp only [heval, Option.map_some, Option.some.injEq] at hstep
    subst hstep
    refine ⟨rfl, rfl, ?_, ?_⟩
    · rw [Process.after, accepted_append]
      exact List.append_nil _
    · constructor
      case ledger =>
        have hnext := (h.ledger.readUnconfirmed maxCount).2
        rw [h.ledger.unconfirmed, h.live, List.nil_append, List.nil_append, ← hentries] at hnext
        exact hnext
      case live =>
        rw [h.live, List.take_append_drop]
        rfl
      case batch => exact hentries
      case last =>
        show entries.getLast?.map _ = _
        rw [hentries, List.getLast?_map, Option.map_map, List.nil_append]
        rfl

/-- An entry moves on when it is written. -/
theorem Reading.write {c : Copy} {batch : List Copy} (files : LogDir)
    (h : Reading cfg s confirmed live written ahead rest) (hbatch : s.batch = c :: batch) :
    ∃ x ahead', c = x.copy ∧ ahead = x :: ahead' ∧
      Reading cfg { s with files := files, batch := batch } confirmed live (written ++ [x]) ahead'
        rest := by
  have hsplit := h.batch
  rw [hbatch] at hsplit
  obtain ⟨x, ahead', rfl, rfl, hrest⟩ := List.map_eq_cons_iff.mp hsplit.symm
  refine ⟨x, ahead', rfl, rfl, ?_⟩
  constructor
  case ledger => exact h.ledger
  case live => rw [h.live, List.append_assoc, List.cons_append, List.singleton_append]
  case batch => exact hrest.symm
  case last =>
    show s.last = _
    rw [h.last, List.append_assoc, List.singleton_append]

/-- **`Confirm`** confirms what was written. -/
theorem Reading.confirm {s' : Persistence} (h : Reading cfg s confirmed live written ahead rest)
    (hstep : s.step cfg .confirm = some s') :
    s'.files = s.files ∧ accepted s'.ring.log = accepted s.ring.log ∧
      ∃ confirmed' live', entriesOf confirmed' = entriesOf confirmed ++ written ∧
        Reading cfg s' confirmed' live' [] [] rest := by
  obtain ⟨seq, ring, hbatch, hlast, hcall, rfl⟩ := Persistence.step_confirm hstep
  have hahead : ahead = [] := by
    have hsame := h.batch
    rw [hbatch, eq_comm, List.map_eq_nil_iff] at hsame
    exact hsame
  subst hahead
  have hend := h.last
  rw [hlast, List.append_nil, eq_comm, Option.map_eq_some_iff] at hend
  obtain ⟨e, hget, rfl⟩ := hend
  obtain ⟨front, rfl⟩ : ∃ front, written = front ++ [e] :=
    ⟨written.dropLast, (List.dropLast_append_getLast? e hget).symm⟩
  have hlive := h.live
  rw [List.nil_append, List.append_assoc, List.singleton_append] at hlive
  obtain ⟨ring', confirmed', live', hcall', hnext, haccepted, hdone, hrest⟩ :=
    h.ledger.confirm_upTo hlive
  obtain rfl := Option.some.inj (hcall.symm.trans hcall')
  exact ⟨rfl, haccepted, confirmed', live', hdone, hnext, hrest, hbatch, rfl⟩

end Reading

end Zrtools.ShmRing

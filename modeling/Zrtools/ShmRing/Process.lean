import Zrtools.ShmRing.Walks
import Zrtools.Lib.Schedule

/-!
# zrtools — one process and its ring

A process that creates the ring, calls its methods one after the other, may stop inside
`Append`, and is then followed by another one that opens the same segment. The log says
what the calls returned; from it alone follows which entries were accepted and which of
them are not confirmed.

* `Process.call` — one call;
* `Ledger` — the log and the tape agree;
* `Ledger.append`, `Ledger.stopAppend`, `Ledger.readUnconfirmed`, `Ledger.confirm`,
  `Ledger.confirmBatch`, `Ledger.readNext` — every call returns and keeps that.
-/

namespace Zrtools.ShmRing

open ByteMemory SharedMemory Wal

-- ---------------------------------------------------------------------------
-- Calls and what they return
-- ---------------------------------------------------------------------------

/-- A call of the process; `now` is what the clock shows. An `Append` that is stopped after
some of its accesses is followed by a process that opens the segment again. -/
inductive Call where
  | append (type : UInt16) (data : Payload) (now : UInt64)
  | stopAppend (type : UInt16) (data : Payload) (now : UInt64) (accesses : Nat)
  | readNext (maxLen : Nat)
  | readUnconfirmed (maxCount : Nat)
  | confirm (seq : UInt64)
  | confirmBatch (count : Nat)

/-- An entry whose last store to `write_pos` was made, an entry that `ReadNext` returned, a
`ReadNext` that returned false, what `ReadUnconfirmed` returned, and the two confirmations. -/
inductive Record where
  | appended (e : Entry)
  | read (maxLen : Nat) (entry : Copy)
  | nothing
  | listed (maxCount : Nat) (entries : List Copy)
  | confirmed (seq : UInt64)
  | batchConfirmed (count : Nat)

/-- The mapped segment and what was returned so far. -/
structure Process where
  mapping : Mapping
  log : List Record

/-- `Append` returned `seq`; zero means that it failed. -/
def appendedRecord (seq now : UInt64) (type : UInt16) (data : Payload) : List Record :=
  if seq = 0 then [] else [.appended ⟨seq, now, type, data⟩]

/-- `ReadNext` returned. -/
def readRecord (maxLen : Nat) : Option Copy → Record
  | some entry => .read maxLen entry
  | none => .nothing

namespace Process

/-- The process that has just created the ring. -/
def fresh (cfg : Sizes) (beyond : Mem) (now : UInt64) : Process where
  mapping := .createSegment cfg beyond now
  log := []

/-- The state after a call that came back. -/
def after (p : Process) (memory : Memory) (records : List Record) : Process where
  mapping := { p.mapping with memory := memory }
  log := p.log ++ records

/-- The state when a call of `Append` begins. -/
def atClock (p : Process) (now : UInt64) : Memory := p.mapping.memory.setWord .clock now

variable (cfg : Sizes)

/-- What an `Append` that was stopped leaves to the next process. If it had returned, the
process was stopped behind its last access. -/
def reopen (p : Process) (now : UInt64) (type : UInt16) (data : Payload) :
    Code (Option UInt64) × Memory → Process
  | (code, memory) =>
    let p := p.after memory (code.result.join.elim [] fun seq => appendedRecord seq now type data)
    { p with mapping := p.mapping.openSegment cfg }

/-- One call; `none` if it does not return. -/
def call (p : Process) : Call → Option Process
  | .append type data now =>
    let (result, memory) := (appendCall cfg type data).eval (p.atClock now)
    result.map fun seq => p.after memory (appendedRecord seq now type data)
  | .stopAppend type data now accesses =>
    some (p.reopen cfg now type data ((appendCall cfg type data).steps accesses (p.atClock now)))
  | .readNext maxLen =>
    let (result, memory) := (readNextCall cfg maxLen).eval p.mapping.memory
    result.map fun entry => p.after memory [readRecord maxLen entry]
  | .readUnconfirmed maxCount =>
    let (result, memory) := (readUnconfirmedCall cfg maxCount).eval p.mapping.memory
    result.map fun entries => p.after memory [.listed maxCount entries]
  | .confirm seq =>
    let (result, memory) := (confirmCall cfg seq).eval p.mapping.memory
    result.map fun _ => p.after memory [.confirmed seq]
  | .confirmBatch count =>
    let (result, memory) := (confirmBatchCall cfg count).eval p.mapping.memory
    result.map fun _ => p.after memory [.batchConfirmed count]

end Process

-- ---------------------------------------------------------------------------
-- What the log says
-- ---------------------------------------------------------------------------

/-- The entries that were appended. -/
def accepted (log : List Record) : List Entry :=
  log.filterMap fun r => match r with
    | .appended e => some e
    | .read _ _ => none
    | .nothing => none
    | .listed _ _ => none
    | .confirmed _ => none
    | .batchConfirmed _ => none

/-- What a record does to the entries that are not confirmed: `Confirm(seq)` confirms all
up to that number. -/
def confirmStep (entries : List Entry) : Record → List Entry
  | .appended e => entries ++ [e]
  | .confirmed seq => (entries.dropWhile fun e => e.seq ≠ seq).tail
  | .batchConfirmed count => entries.drop count
  | .read _ _ => entries
  | .nothing => entries
  | .listed _ _ => entries

/-- The entries that are not confirmed. -/
def unconfirmed (log : List Record) : List Entry := log.foldl confirmStep []

/-- `Confirm` of an entry leaves those behind it, where the others have other numbers. -/
theorem confirmStep_confirmed {front rest : List Entry} {e : Entry}
    (hother : ∀ x ∈ front, x.seq ≠ e.seq) :
    confirmStep (front ++ e :: rest) (.confirmed e.seq) = rest := by
  have hskip : ∀ x ∈ front, decide (x.seq ≠ e.seq) = true := by
    intro x hx
    exact decide_eq_true (hother x hx)
  rw [confirmStep, List.dropWhile_append_of_pos hskip, List.dropWhile_cons_of_neg (by simp),
    List.tail_cons]

theorem accepted_append (a b : List Record) : accepted (a ++ b) = accepted a ++ accepted b :=
  List.filterMap_append ..

theorem unconfirmed_concat (log : List Record) (r : Record) :
    unconfirmed (log ++ [r]) = confirmStep (unconfirmed log) r := by
  rw [unconfirmed, List.foldl_append]
  rfl

-- ---------------------------------------------------------------------------
-- A new ring
-- ---------------------------------------------------------------------------

section Fresh

variable {cfg : Sizes}

/-- Clearing some of the buffer leaves the header alone. -/
theorem clear_header (l : List Nat) (m : Mapping) :
    ((l.map fun i (m : Mapping) =>
        { m with memory := m.memory.setByte () i 0 }).foldl (fun m store => store m) m).magic =
      m.magic ∧
    ((l.map fun i (m : Mapping) =>
        { m with memory := m.memory.setByte () i 0 }).foldl
      (fun m store => store m) m).memory.word = m.memory.word := by
  induction l generalizing m with
  | nil => exact ⟨rfl, rfl⟩
  | cons i l ih => exact ih _

/-- The header is complete, and nothing was appended yet. -/
structure Blank (m : Mapping) : Prop where
  magic : m.magic = magicNumber
  writePos : m.memory.word .writePos = 0
  readPos : m.memory.word .readPos = 0
  confirmedPos : m.memory.word .confirmedPos = 0
  nextSeq : m.memory.word .nextSeq = 1

/-- It is so from the seventh store of `Reset` on. -/
theorem blank_resetUpTo (cfg : Sizes) (m : Mapping) {n : Nat} (hn : 7 ≤ n) :
    Blank (m.resetUpTo cfg n) := by
  have hheader : (m.resetUpTo cfg n).magic = magicNumber ∧
      (m.resetUpTo cfg n).memory.word =
        ((((m.memory.setWord .writePos 0).setWord .readPos 0).setWord .confirmedPos 0).setWord
          .nextSeq 1).word := by
    obtain ⟨k, rfl⟩ := Nat.exists_eq_add_of_le hn
    rw [Mapping.resetUpTo, Mapping.resetStores, List.take_append, List.foldl_append,
      List.take_of_length_le (by simp), ← List.map_take]
    exact clear_header ..
  obtain ⟨hmagic, hword⟩ := hheader
  exact ⟨hmagic, by rw [hword]; rfl, by rw [hword]; rfl, by rw [hword]; rfl, by rw [hword]; rfl⟩

theorem blank_reset (cfg : Sizes) (m : Mapping) : Blank (m.reset cfg) := by
  have hall : m.reset cfg = m.resetUpTo cfg (Mapping.resetStores cfg).length := by
    rw [Mapping.resetUpTo, List.take_length]
    rfl
  rw [hall]
  refine blank_resetUpTo cfg m ?_
  rw [Mapping.resetStores, List.length_append]
  exact Nat.le_add_right ..

end Fresh

-- ---------------------------------------------------------------------------
-- Single calls
-- ---------------------------------------------------------------------------

section Single

variable {cfg : Sizes} {p : Process} {base ahead : List Segment}

theorem call_append (type : UInt16) {data : Payload} (now : UInt64)
    (hused : (p.mapping.memory.word .writePos - p.mapping.memory.word .confirmedPos).toNat ≤
      cfg.bufferSize)
    (hclean : WrapsClean cfg (entrySize data.len) p.mapping.memory) :
    ∃ seq memory, p.call cfg (.append type data now) =
        some (p.after memory (appendedRecord seq now type data)) ∧
      Appends cfg type data (p.atClock now) seq memory := by
  have hused : ((p.atClock now).word .writePos - (p.atClock now).word .confirmedPos).toNat ≤
      cfg.bufferSize := hused
  have hclean : WrapsClean cfg (entrySize data.len) (p.atClock now) := hclean
  obtain ⟨seq, hseq, happends⟩ := (safe_appendCall type hused hclean).eval
  refine ⟨seq, _, ?_, happends⟩
  rw [Process.call]
  simp only [hseq]
  rfl

/-- An `Append` that was stopped, or had returned by then. -/
theorem call_stopAppend (type : UInt16) {data : Payload} (now : UInt64)
    (hmagic : p.mapping.magic = magicNumber)
    (hused : (p.mapping.memory.word .writePos - p.mapping.memory.word .confirmedPos).toNat ≤
      cfg.bufferSize)
    (hclean : WrapsClean cfg (entrySize data.len) p.mapping.memory) (accesses : Nat) :
    ∃ records memory, p.call cfg (.stopAppend type data now accesses) =
        some (p.after memory records) ∧
      (records = [] ∧ StoppedIn cfg (entrySize data.len) (p.atClock now) memory ∨
        ∃ seq, records = appendedRecord seq now type data ∧
          Appends cfg type data (p.atClock now) seq memory) := by
  have hused : ((p.atClock now).word .writePos - (p.atClock now).word .confirmedPos).toNat ≤
      cfg.bufferSize := hused
  have hclean : WrapsClean cfg (entrySize data.len) (p.atClock now) := hclean
  obtain ⟨hstopped, hover⟩ := (safe_appendCall type hused hclean).steps accesses
  rw [Process.call]
  generalize (appendCall cfg type data).steps accesses (p.atClock now) = stop at hstopped hover
  obtain ⟨code, memory⟩ := stop
  -- the segment is opened as it is
  have hreopen : p.reopen cfg now type data (code, memory) = p.after memory
      (code.result.join.elim [] fun seq => appendedRecord seq now type data) := by
    rw [Process.reopen]
    simp only [Process.after, Mapping.openSegment, hmagic, if_true]
  rw [hreopen]
  cases hresult : code.result with
  | none => exact ⟨[], memory, rfl, Or.inl ⟨rfl, hstopped hresult⟩⟩
  | some r =>
    obtain ⟨seq, rfl, happends⟩ := hover r hresult
    exact ⟨_, memory, rfl, Or.inr ⟨seq, rfl, happends⟩⟩

theorem call_readUnconfirmed (h : Stretch cfg p.mapping.memory base ahead)
    (hpos : (p.mapping.memory.word .confirmedPos).toNat = total base) (maxCount : Nat) :
    p.call cfg (.readUnconfirmed maxCount) = some (p.after p.mapping.memory
      [.listed maxCount (((entriesOf ahead).take maxCount).map Entry.copy)]) := by
  rw [Process.call, h.eval_readUnconfirmedCall hpos]
  rfl

theorem call_readNext (h : Stretch cfg p.mapping.memory base ahead)
    (hpos : (p.mapping.memory.word .readPos).toNat = total base) (maxLen : Nat) :
    ∃ passed rest pos r, ahead = passed ++ rest ∧ pos.toNat = total (base ++ passed) ∧
      p.call cfg (.readNext maxLen) =
        some (p.after (p.mapping.memory.setWord .readPos pos) [readRecord maxLen r]) ∧
      (r = none ∧ rest = [] ∧ entriesOf passed = [] ∨
        ∃ e, r = some (e.header, e.data.bytes.take maxLen) ∧ entriesOf passed = [e]) := by
  obtain ⟨passed, rest, pos, r, rfl, hend, heval, hgot⟩ := h.eval_readNextCall hpos maxLen
  refine ⟨passed, rest, pos, r, rfl, hend, ?_, hgot⟩
  rw [Process.call, heval]
  rfl

end Single

-- ---------------------------------------------------------------------------
-- The log and the tape
-- ---------------------------------------------------------------------------

/-- The log says what is on the tape, and what of it is not confirmed. -/
structure Ledger (cfg : Sizes) (p : Process) (confirmed live : List Segment) : Prop where
  laid : Laid cfg p.mapping.memory confirmed live
  magic : p.mapping.magic = magicNumber
  accepted : accepted p.log = entriesOf (confirmed ++ live)
  unconfirmed : unconfirmed p.log = entriesOf live

section Ledger

variable {cfg : Sizes} {p : Process} {confirmed live : List Segment}

/-- Nothing is on the tape then. -/
theorem Blank.ledger {m : Mapping} (h : Blank m) : Ledger cfg ⟨m, []⟩ [] [] := by
  refine ⟨?_, h.magic, rfl, rfl⟩
  constructor
  case writePos =>
    rw [h.writePos]
    rfl
  case confirmedPos =>
    rw [h.confirmedPos]
    rfl
  case stored => trivial
  case space => exact Nat.zero_le _
  case entries =>
    intro e he
    cases he
  case increasing => exact List.Pairwise.nil
  case nextSeq_pos =>
    rw [h.nextSeq]
    decide

theorem ledger_fresh (cfg : Sizes) (beyond : Mem) (now : UInt64) :
    Ledger cfg (Process.fresh cfg beyond now) [] [] :=
  (blank_reset cfg (.zeroFilled cfg beyond now)).ledger

theorem accepted_map_appended (l : List Entry) : accepted (l.map Record.appended) = l := by
  induction l with
  | nil => rfl
  | cons e l ih => exact congrArg (e :: ·) ih

/-- The tape grew by what the log says. -/
theorem Ledger.grown {s : Memory} {k : Nat} {segs : List Segment} {records : List Record}
    (h : Ledger cfg p confirmed live) {memory : Memory}
    (hgrown : Grown cfg k s memory confirmed live segs)
    (hrecords : records = (entriesOf segs).map Record.appended) :
    Ledger cfg (p.after memory records) confirmed (live ++ segs) where
  laid := hgrown.laid
  magic := h.magic
  accepted := by
    show ShmRing.accepted (p.log ++ records) = _
    rw [accepted_append, h.accepted, hrecords, accepted_map_appended]
    simp
  unconfirmed := by
    have hnew : ∀ l : List Entry, ∀ entries, (l.map Record.appended).foldl confirmStep entries =
        entries ++ l := by
      intro l
      induction l with
      | nil => simp
      | cons e l ih =>
        intro entries
        rw [List.map_cons, List.foldl_cons, ih]
        simp [confirmStep]
    show ShmRing.unconfirmed (p.log ++ records) = _
    rw [ShmRing.unconfirmed, List.foldl_append, ← ShmRing.unconfirmed, h.unconfirmed, hrecords,
      hnew, entriesOf_append]

/-- The record of a call that put its entry on the tape. -/
theorem appendedRecord_of_put {s : Memory} {now seq : UInt64} {type : UInt16} {data : Payload}
    {segs : List Segment} (hclock : s.word .clock = now) (hput : Put s type data seq segs) :
    appendedRecord seq now type data = (entriesOf segs).map Record.appended := by
  rw [appendedRecord]
  rcases hput with ⟨hzero, hnone⟩ | ⟨hne, hone⟩
  · rw [if_pos hzero, hnone]
    rfl
  · rw [if_neg hne, hone, hclock]
    rfl

/-- **`Append`.** -/
theorem Ledger.append {type : UInt16} {data : Payload}
    (h : Ledger cfg p confirmed live) (now : UInt64) (htype : type ≠ 0)
    (hok : AppendOk cfg (entrySize data.len) p.mapping.memory) :
    ∃ seq memory segs, p.call cfg (.append type data now) =
        some (p.after memory (appendedRecord seq now type data)) ∧
      Appends cfg type data (p.atClock now) seq memory ∧
      Grown cfg (takes cfg (entrySize data.len) p.mapping.memory) (p.atClock now) memory
        confirmed live segs ∧
      Put (p.atClock now) type data seq segs ∧
      (memory.word .nextSeq).toNat ≤ (p.mapping.memory.word .nextSeq).toNat + segs.length ∧
      Ledger cfg (p.after memory (appendedRecord seq now type data)) confirmed (live ++ segs) := by
  have hlaid : Laid cfg (p.atClock now) confirmed live := h.laid.setWord (Or.inr rfl) now
  have hok : AppendOk cfg (entrySize data.len) (p.atClock now) := hok
  obtain ⟨seq, memory, hcall, happends⟩ :=
    call_append type now h.laid.used_le hok.wrapsClean
  obtain ⟨segs, hgrown, hput, hnumbers⟩ := hlaid.appends htype hok happends
  have hclock : (p.atClock now).word .clock = now := Shared.word_setWord_self ..
  exact ⟨seq, memory, segs, hcall, happends, hgrown, hput, hnumbers,
    h.grown hgrown (appendedRecord_of_put hclock hput)⟩

/-- **`Append` stopped on the way.** -/
theorem Ledger.stopAppend {type : UInt16} {data : Payload}
    (h : Ledger cfg p confirmed live) (now : UInt64) (htype : type ≠ 0)
    (hok : AppendOk cfg (entrySize data.len) p.mapping.memory) (accesses : Nat) :
    ∃ records memory segs, p.call cfg (.stopAppend type data now accesses) =
        some (p.after memory records) ∧
      records = (entriesOf segs).map Record.appended ∧
      Grown cfg (takes cfg (entrySize data.len) p.mapping.memory) (p.atClock now) memory
        confirmed live segs ∧
      Ledger cfg (p.after memory records) confirmed (live ++ segs) := by
  have hlaid : Laid cfg (p.atClock now) confirmed live := h.laid.setWord (Or.inr rfl) now
  have hok : AppendOk cfg (entrySize data.len) (p.atClock now) := hok
  have hclock : (p.atClock now).word .clock = now := Shared.word_setWord_self ..
  obtain ⟨records, memory, hcall, hend⟩ :=
    call_stopAppend type now h.magic h.laid.used_le hok.wrapsClean accesses
  rcases hend with ⟨rfl, hstopped⟩ | ⟨seq, rfl, happends⟩
  · obtain ⟨segs, hgrown, hnone⟩ := hlaid.stoppedIn hok (entrySize_pos _) (entrySize_le _) hstopped
    have hrecords : [] = (entriesOf segs).map Record.appended := by
      rw [hnone]
      rfl
    exact ⟨[], memory, segs, hcall, hrecords, hgrown, h.grown hgrown hrecords⟩
  · obtain ⟨segs, hgrown, hput, -⟩ := hlaid.appends htype hok happends
    have hrecords := appendedRecord_of_put hclock hput
    exact ⟨_, memory, segs, hcall, hrecords, hgrown, h.grown hgrown hrecords⟩

/-- **`ReadUnconfirmed`.** -/
theorem Ledger.readUnconfirmed (h : Ledger cfg p confirmed live) (maxCount : Nat) :
    let p' := p.after p.mapping.memory
      [.listed maxCount (((ShmRing.unconfirmed p.log).take maxCount).map Entry.copy)]
    p.call cfg (.readUnconfirmed maxCount) = some p' ∧ Ledger cfg p' confirmed live := by
  refine ⟨?_, h.laid, h.magic, ?_, ?_⟩
  · rw [h.unconfirmed]
    exact call_readUnconfirmed h.laid.stretch h.laid.confirmedPos maxCount
  · show ShmRing.accepted (p.log ++ _) = _
    rw [accepted_append, h.accepted]
    exact List.append_nil _
  · show ShmRing.unconfirmed (p.log ++ _) = _
    rw [unconfirmed_concat, h.unconfirmed]
    rfl

/-- The entries behind a stretch that was confirmed. -/
theorem Ledger.confirmedUpTo {passed rest : List Segment} {pos : UInt64} {r : Record}
    (h : Ledger cfg p confirmed (passed ++ rest))
    (hpos : pos.toNat = total (confirmed ++ passed)) (hnone : ShmRing.accepted [r] = [])
    (hrest : confirmStep (entriesOf (passed ++ rest)) r = entriesOf rest) :
    Ledger cfg (p.after (p.mapping.memory.setWord .confirmedPos pos) [r])
      (confirmed ++ passed) rest where
  laid := h.laid.setConfirmed hpos
  magic := h.magic
  accepted := by
    show ShmRing.accepted (p.log ++ [r]) = _
    rw [accepted_append, h.accepted, hnone, List.append_nil, List.append_assoc]
  unconfirmed := by
    show ShmRing.unconfirmed (p.log ++ [r]) = _
    rw [unconfirmed_concat, h.unconfirmed, hrest]

/-- **`Confirm`.** -/
theorem Ledger.confirm {seq : UInt64} (h : Ledger cfg p confirmed live)
    (hmem : ∃ e ∈ ShmRing.unconfirmed p.log, e.seq = seq) :
    ∃ passed rest pos, live = passed ++ rest ∧
      p.call cfg (.confirm seq) =
        some (p.after (p.mapping.memory.setWord .confirmedPos pos) [.confirmed seq]) ∧
      Ledger cfg (p.after (p.mapping.memory.setWord .confirmedPos pos) [.confirmed seq])
        (confirmed ++ passed) rest := by
  rw [h.unconfirmed] at hmem
  obtain ⟨e, he, rfl⟩ := hmem
  obtain ⟨a, b, rfl⟩ := List.append_of_mem (mem_entriesOf.mp he)
  have hbelow := h.laid.placed.seq_lt
  have heval : (confirmCall cfg e.seq).eval p.mapping.memory = _ :=
    h.laid.placed.confirm_finds (.entry e) hbelow
  rw [List.append_cons] at h
  refine ⟨a ++ [.entry e], b, _, List.append_cons .., ?_,
    h.confirmedUpTo h.laid.placed.toNat_behind rfl ?_⟩
  · rw [Process.call, heval]
    rfl
  · -- the entries before it have other numbers
    have hother : ∀ x ∈ entriesOf a, x.seq ≠ e.seq := fun x hx heq =>
      UInt64.lt_irrefl _ (heq ▸ hbelow (.entry x) (mem_entriesOf.mp hx))
    have hall : entriesOf (a ++ [.entry e] ++ b) = entriesOf a ++ e :: entriesOf b := by simp
    rw [hall, confirmStep_confirmed hother]

/-- **`ConfirmBatch`.** -/
theorem Ledger.confirmBatch (h : Ledger cfg p confirmed live) (count : Nat) :
    ∃ passed rest pos, live = passed ++ rest ∧
      p.call cfg (.confirmBatch count) =
        some (p.after (p.mapping.memory.setWord .confirmedPos pos) [.batchConfirmed count]) ∧
      Ledger cfg (p.after (p.mapping.memory.setWord .confirmedPos pos) [.batchConfirmed count])
        (confirmed ++ passed) rest := by
  obtain ⟨passed, rest, rfl, hfirst, heval⟩ :=
    h.laid.stretch.eval_confirmBatchCall h.laid.confirmedPos count
  refine ⟨passed, rest, _, rfl, ?_, h.confirmedUpTo h.laid.placed.toNat_behind rfl ?_⟩
  · rw [Process.call, heval]
    rfl
  · have hsplit := List.take_append_drop count (entriesOf (passed ++ rest))
    rw [← hfirst, entriesOf_append] at hsplit
    rw [confirmStep, entriesOf_append]
    exact List.append_cancel_left hsplit

/-- **`ReadNext`** leaves all that alone. -/
theorem Ledger.readNext (h : Ledger cfg p confirmed live) (pos : UInt64) (maxLen : Nat)
    (r : Option Copy) :
    Ledger cfg (p.after (p.mapping.memory.setWord .readPos pos) [readRecord maxLen r])
      confirmed live := by
  refine ⟨h.laid.setWord (Or.inl rfl) pos, h.magic, ?_, ?_⟩
  · show ShmRing.accepted (p.log ++ _) = _
    rw [accepted_append, h.accepted]
    cases r <;> exact List.append_nil _
  · show ShmRing.unconfirmed (p.log ++ _) = _
    rw [unconfirmed_concat, h.unconfirmed]
    cases r <;> rfl

end Ledger

end Zrtools.ShmRing

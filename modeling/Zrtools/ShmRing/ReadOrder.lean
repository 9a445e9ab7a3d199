import Zrtools.ShmRing.Overrun
import Zrtools.ShmRing.Recovery

/-!
# zrtools — two readers of one ring

`Append` looks at `confirmed_pos` before it writes over old entries, and `ReadNext` walks
along `read_pos`. Neither looks at the position of the other.

* `read_of_meets` — in every run in which no `Append` goes more than a lap ahead of
  `read_pos`, whatever is confirmed and when, `ReadNext` returns the entries as they were
  appended, one after the other, and those ahead of it are still in the buffer;
* `leavesRoom_not_enough_to_read` — otherwise it returns what was never appended.
-/

namespace Zrtools.ShmRing

open ByteMemory SharedMemory Wal

variable {cfg : Sizes}

-- ---------------------------------------------------------------------------
-- What was read
-- ---------------------------------------------------------------------------

/-- What `ReadNext` returned, with the room that it was given. -/
def reads (log : List Record) : List (Nat × Copy) :=
  log.filterMap fun r => match r with
    | .appended _ => none
    | .read maxLen entry => some (maxLen, entry)
    | .nothing => none
    | .listed _ _ => none
    | .confirmed _ => none
    | .batchConfirmed _ => none

theorem reads_append (a b : List Record) : reads (a ++ b) = reads a ++ reads b :=
  List.filterMap_append ..

theorem reads_appendedRecord (seq now : UInt64) (type : UInt16) (data : Payload) :
    reads (appendedRecord seq now type data) = [] := by
  unfold appendedRecord
  split <;> rfl

/-- The entry as `ReadNext` gives it to a caller with that much room. -/
def ReadAs (r : Nat × Copy) (e : Entry) : Prop := r.2 = (e.header, e.data.bytes.take r.1)

/-- `ReadNext` returned the entries in `past`, which were accepted first, and wherever it will
look there are the other accepted entries, in `unread`. -/
structure ReadUpTo (cfg : Sizes) (p : Process) (past unread : List Segment) : Prop where
  reads : List.Forall₂ ReadAs (reads p.log) (entriesOf past)
  accepted : entriesOf past <+: accepted p.log
  ahead : p.mapping.memory.word .readPos < p.mapping.memory.word .writePos →
    (p.mapping.memory.word .readPos).toNat = total past ∧
      Stretch cfg p.mapping.memory past unread ∧
      ShmRing.accepted p.log = entriesOf past ++ entriesOf unread

-- ---------------------------------------------------------------------------
-- The condition
-- ---------------------------------------------------------------------------

/-- `Append` goes no more than a lap ahead of `read_pos`. -/
def StaysBehind (cfg : Sizes) (size : Nat) (s : Memory) : Prop :=
  (s.word .writePos).toNat + takes cfg size s ≤ (s.word .readPos).toNat + cfg.bufferSize

/-- What `Append` is asked for here. -/
def ReadOk (cfg : Sizes) (size : Nat) (s : Memory) : Prop :=
  WrapsClean cfg size s ∧ StaysBehind cfg size s

/-- The condition on a call: types are not zero, where `Append` is called its size and the
memory meet `Ok`, and only the number of an entry that is not confirmed is confirmed. The
process does not stop. -/
def ReadMeets (Ok : Nat → Memory → Prop) (p : Process) : Call → Prop
  | .append type data _ => type ≠ 0 ∧ Ok (entrySize data.len) p.mapping.memory
  | .stopAppend _ _ _ _ => False
  | .readNext _ => True
  | .readUnconfirmed _ => True
  | .confirm seq => ∃ e ∈ unconfirmed p.log, e.seq = seq
  | .confirmBatch _ => True

instance (cfg : Sizes) (size : Nat) (s : Memory) : Decidable (ReadOk cfg size s) := by
  unfold ReadOk WrapsClean StaysBehind
  infer_instance

instance decidableReadMeets (Ok : Nat → Memory → Prop) [∀ n s, Decidable (Ok n s)] (p : Process) :
    (c : Call) → Decidable (ReadMeets Ok p c)
  | .append type data _ => inferInstanceAs
      (Decidable (type ≠ 0 ∧ Ok (entrySize data.len) p.mapping.memory))
  | .stopAppend _ _ _ _ => isFalse id
  | .readNext _ => isTrue trivial
  | .readUnconfirmed _ => isTrue trivial
  | .confirm seq => inferInstanceAs (Decidable (∃ e ∈ unconfirmed p.log, e.seq = seq))
  | .confirmBatch _ => isTrue trivial

-- ---------------------------------------------------------------------------
-- While the positions go up
-- ---------------------------------------------------------------------------

/-- The tape, as `Append` and `Confirm` see it, and as `ReadNext` does. -/
structure Following (cfg : Sizes) (p : Process) (confirmed live past unread : List Segment) :
    Prop where
  ledger : Ledger cfg p confirmed live
  same : confirmed ++ live = past ++ unread
  readPos : (p.mapping.memory.word .readPos).toNat = total past
  stored : Stored cfg (p.mapping.memory.byte ()) (total past) unread
  reads : List.Forall₂ ReadAs (reads p.log) (entriesOf past)
  nextSeq_le : (p.mapping.memory.word .nextSeq).toNat ≤ (confirmed ++ live).length + 1

section Following

variable {p : Process} {confirmed live past unread : List Segment}

theorem Following.total_same (h : Following cfg p confirmed live past unread) :
    total confirmed + total live = total past + total unread := by
  rw [← total_append, h.same, total_append]

theorem Following.stretch (h : Following cfg p confirmed live past unread) :
    Stretch cfg p.mapping.memory past unread where
  writePos := by rw [h.ledger.laid.writePos, h.total_same]
  stored := h.stored
  numbered := by
    intro e he
    have hmem : e ∈ entriesOf (confirmed ++ live) := by
      rw [h.same, entriesOf_append]
      exact List.mem_append_right _ he
    obtain ⟨htype, hseq, -⟩ := h.ledger.laid.entries e hmem
    refine ⟨fun hzero => ?_, htype⟩
    rw [hzero] at hseq
    exact absurd hseq (by decide)

theorem Following.readUpTo (h : Following cfg p confirmed live past unread) :
    ReadUpTo cfg p past unread := by
  have haccepted : ShmRing.accepted p.log = entriesOf past ++ entriesOf unread := by
    rw [h.ledger.accepted, h.same, entriesOf_append]
  exact ⟨h.reads, haccepted ▸ List.prefix_append .., fun _ => ⟨h.readPos, h.stretch, haccepted⟩⟩

/-- There is always another number: every one that was taken has a segment. -/
theorem Following.appendOk {size : Nat} (h : Following cfg p confirmed live past unread)
    (hclean : WrapsClean cfg size p.mapping.memory)
    (hbelow : (p.mapping.memory.word .writePos).toNat + takes cfg size p.mapping.memory < 2 ^ 64) :
    AppendOk cfg size p.mapping.memory := by
  refine fun haccepts => ⟨hclean haccepts, hbelow, ?_⟩
  have hnumbers := h.nextSeq_le
  have hcount := length_le_total (confirmed ++ live)
  have hend := h.ledger.laid.writePos
  have hlt := (p.mapping.memory.word .writePos).toNat_lt
  have htwo : numbers cfg size p.mapping.memory ≤ 2 := by
    unfold ShmRing.numbers
    split <;> decide
  rw [total_append] at hcount
  omega

/-- **`Append`** behind what is not read. -/
theorem Following.append {type : UInt16} {data : Payload}
    (h : Following cfg p confirmed live past unread) (now : UInt64) (htype : type ≠ 0)
    (hok : ReadOk cfg (entrySize data.len) p.mapping.memory)
    (hbelow : (p.mapping.memory.word .writePos).toNat +
      takes cfg (entrySize data.len) p.mapping.memory < 2 ^ 64) :
    ∃ p' segs, p.call cfg (.append type data now) = some p' ∧
      Following cfg p' confirmed (live ++ segs) past (unread ++ segs) := by
  obtain ⟨hclean, hbehind⟩ := hok
  obtain ⟨seq, memory, segs, hcall, -, hgrown, -, hnumbers, hnext⟩ :=
    h.ledger.append now htype (h.appendOk hclean hbelow)
  refine ⟨_, segs, hcall, ?_⟩
  constructor
  case ledger => exact hnext
  case same => rw [← List.append_assoc, h.same, List.append_assoc]
  case readPos =>
    show (memory.word .readPos).toNat = total past
    rw [hgrown.keeps _ (by decide) (by decide)]
    exact h.readPos
  case stored =>
    refine stored_append.mpr ⟨hgrown.spares _ _ h.stored ?_ ?_, ?_⟩
    · show total past + total unread ≤ (p.mapping.memory.word .writePos).toNat
      rw [h.stretch.writePos]
    · show (p.mapping.memory.word .writePos).toNat + _ ≤ _
      rw [← h.readPos]
      exact hbehind
    · rw [← h.total_same]
      exact (stored_append.mp hgrown.laid.stored).2
  case reads =>
    show List.Forall₂ ReadAs (ShmRing.reads (p.log ++ appendedRecord seq now type data)) _
    rw [reads_append, reads_appendedRecord, List.append_nil]
    exact h.reads
  case nextSeq_le =>
    have hbefore := h.nextSeq_le
    show (memory.word .nextSeq).toNat ≤ _
    rw [← List.append_assoc, List.length_append]
    omega

/-- **`ReadNext`.** -/
theorem Following.readNext (h : Following cfg p confirmed live past unread) (maxLen : Nat) :
    ∃ passed rest pos r, unread = passed ++ rest ∧
      p.call cfg (.readNext maxLen) =
        some (p.after (p.mapping.memory.setWord .readPos pos) [readRecord maxLen r]) ∧
      (r = none ∧ rest = [] ∧ entriesOf passed = [] ∨
        ∃ e, r = some (e.header, e.data.bytes.take maxLen) ∧ entriesOf passed = [e]) ∧
      Following cfg (p.after (p.mapping.memory.setWord .readPos pos) [readRecord maxLen r])
        confirmed live (past ++ passed) rest := by
  obtain ⟨passed, rest, pos, r, rfl, hend, hcall, hgot⟩ := call_readNext h.stretch h.readPos maxLen
  refine ⟨passed, rest, pos, r, rfl, hcall, hgot, ?_⟩
  constructor
  case ledger => exact h.ledger.readNext pos maxLen r
  case same => rw [h.same, List.append_assoc]
  case readPos =>
    show ((p.mapping.memory.setWord .readPos pos).word .readPos).toNat = _
    rw [Shared.word_setWord_self, hend]
  case stored => exact h.stretch.drop.stored
  case reads =>
    show List.Forall₂ ReadAs (ShmRing.reads (p.log ++ [readRecord maxLen r])) _
    rw [reads_append, entriesOf_append]
    refine List.rel_append h.reads ?_
    rcases hgot with ⟨rfl, -, hnone⟩ | ⟨e, rfl, hone⟩
    · rw [hnone]
      exact List.Forall₂.nil
    · rw [hone]
      exact List.Forall₂.cons rfl List.Forall₂.nil
  case nextSeq_le =>
    show ((p.mapping.memory.setWord .readPos pos).word .nextSeq).toNat ≤ _
    rw [Shared.word_setWord_of_ne _ (by decide)]
    exact h.nextSeq_le

/-- A call that moves `confirmed_pos`, or nothing. -/
theorem Following.confirmedTo {passed rest : List Segment} {pos : UInt64} {r : Record}
    (h : Following cfg p confirmed live past unread) (hlive : live = passed ++ rest)
    (hnext : Ledger cfg (p.after (p.mapping.memory.setWord .confirmedPos pos) [r])
      (confirmed ++ passed) rest) (hreads : ShmRing.reads [r] = []) :
    Following cfg (p.after (p.mapping.memory.setWord .confirmedPos pos) [r])
      (confirmed ++ passed) rest past unread := by
  have hall : confirmed ++ passed ++ rest = confirmed ++ live := by
    rw [hlive, List.append_assoc]
  constructor
  case ledger => exact hnext
  case same => rw [hall, h.same]
  case readPos => exact h.readPos
  case stored => exact h.stored
  case reads =>
    show List.Forall₂ ReadAs (ShmRing.reads (p.log ++ [r])) _
    rw [reads_append, hreads, List.append_nil]
    exact h.reads
  case nextSeq_le =>
    rw [hall]
    exact h.nextSeq_le

end Following

-- ---------------------------------------------------------------------------
-- When they have gone round
-- ---------------------------------------------------------------------------

/-- `read_pos` is as far up as `confirmed_pos`. -/
structure GoneRound (cfg : Sizes) (p : Process) (past : List Segment) : Prop where
  overrun : Overrun cfg p.mapping.memory
  readPos : 2 ^ 64 ≤ (p.mapping.memory.word .readPos).toNat + cfg.bufferSize
  reads : List.Forall₂ ReadAs (reads p.log) (entriesOf past)
  accepted : entriesOf past <+: accepted p.log

section GoneRound

variable {p : Process} {past : List Segment}

theorem GoneRound.le (h : GoneRound cfg p past) :
    p.mapping.memory.word .writePos ≤ p.mapping.memory.word .readPos := by
  have hover := h.overrun
  have hread := h.readPos
  have hlt := (p.mapping.memory.word .confirmedPos).toNat_lt
  have hcfg := cfg.lt
  unfold Overrun at hover
  rw [UInt64.le_iff_toNat_le]
  omega

theorem GoneRound.readUpTo (h : GoneRound cfg p past) (unread : List Segment) :
    ReadUpTo cfg p past unread :=
  ⟨h.reads, h.accepted, fun hlt => absurd hlt (UInt64.not_lt.mpr h.le)⟩

/-- What the calls do then. -/
theorem GoneRound.after {memory : Memory} {records : List Record} (h : GoneRound cfg p past)
    (hover : Overrun cfg memory)
    (hread : memory.word .readPos = p.mapping.memory.word .readPos)
    (hnone : ShmRing.reads records = []) : GoneRound cfg (p.after memory records) past where
  overrun := hover
  readPos := by
    show 2 ^ 64 ≤ (memory.word .readPos).toNat + cfg.bufferSize
    rw [hread]
    exact h.readPos
  reads := by
    show List.Forall₂ ReadAs (ShmRing.reads (p.log ++ records)) _
    rw [reads_append, hnone, List.append_nil]
    exact h.reads
  accepted := by
    show _ <+: ShmRing.accepted (p.log ++ records)
    rw [accepted_append]
    exact h.accepted.trans (List.prefix_append ..)

theorem GoneRound.call {c : Call} (h : GoneRound cfg p past) (hok : ReadMeets (ReadOk cfg) p c) :
    ∃ p', p.call cfg c = some p' ∧ GoneRound cfg p' past := by
  cases c with
  | append type data now =>
    obtain ⟨seq, memory, hcall, happends, hover⟩ :=
      h.overrun.call_append type data now
    refine ⟨_, hcall, h.after hover ?_ (reads_appendedRecord ..)⟩
    exact happends.keeps (by decide) (by decide)
  | stopAppend type data now accesses => exact absurd hok id
  | readNext maxLen => exact ⟨_, call_readNext_of_le h.le maxLen, h.after h.overrun rfl rfl⟩
  | readUnconfirmed maxCount =>
    exact ⟨_, call_readUnconfirmed_of_le h.overrun.le maxCount, h.after h.overrun rfl rfl⟩
  | confirm seq => exact ⟨_, call_confirm_of_le h.overrun.le seq, h.after h.overrun rfl rfl⟩
  | confirmBatch count =>
    exact ⟨_, call_confirmBatch_of_le h.overrun.le count, h.after h.overrun rfl rfl⟩

end GoneRound

-- ---------------------------------------------------------------------------
-- Whole runs
-- ---------------------------------------------------------------------------

/-- What holds between two calls. -/
def ReadSound (cfg : Sizes) (p : Process) : Prop :=
  (∃ confirmed live past unread, Following cfg p confirmed live past unread) ∨
    ∃ past, GoneRound cfg p past

/-- The `Append` with which `write_pos` goes round. -/
theorem Following.goesRound {p : Process} {confirmed live past unread : List Segment}
    {data : Payload} (h : Following cfg p confirmed live past unread) (type : UInt16)
    (now : UInt64) (hok : ReadOk cfg (entrySize data.len) p.mapping.memory)
    (hover : 2 ^ 64 ≤ (p.mapping.memory.word .writePos).toNat +
      takes cfg (entrySize data.len) p.mapping.memory) :
    ∃ p', p.call cfg (.append type data now) = some p' ∧ GoneRound cfg p' past := by
  obtain ⟨hclean, hbehind⟩ := hok
  obtain ⟨seq, memory, hcall, happends⟩ :=
    call_append type now h.ledger.laid.used_le hclean
  have hused := h.ledger.laid.used_le
  have hread : memory.word .readPos = p.mapping.memory.word .readPos :=
    happends.keeps (by decide) (by decide)
  refine ⟨_, hcall, happends.overrun hclean hused hover, ?_, ?_, ?_⟩
  · show 2 ^ 64 ≤ (memory.word .readPos).toNat + cfg.bufferSize
    rw [hread]
    exact Nat.le_trans hover hbehind
  · show List.Forall₂ ReadAs (ShmRing.reads (p.log ++ appendedRecord seq now type data)) _
    rw [reads_append, reads_appendedRecord, List.append_nil]
    exact h.reads
  · show _ <+: accepted (p.log ++ appendedRecord seq now type data)
    rw [accepted_append]
    exact h.readUpTo.accepted.trans (List.prefix_append ..)

/-- A call returns and keeps that. -/
theorem ReadSound.call {p : Process} {c : Call} (h : ReadSound cfg p)
    (hok : ReadMeets (ReadOk cfg) p c) : ∃ p', p.call cfg c = some p' ∧ ReadSound cfg p' := by
  rcases h with ⟨confirmed, live, past, unread, h⟩ | ⟨past, h⟩
  case inr =>
    obtain ⟨p', hcall, hnext⟩ := h.call hok
    exact ⟨p', hcall, Or.inr ⟨past, hnext⟩⟩
  cases c with
  | append type data now =>
    obtain ⟨htype, hok⟩ := hok
    by_cases hbelow : (p.mapping.memory.word .writePos).toNat +
        takes cfg (entrySize data.len) p.mapping.memory < 2 ^ 64
    · obtain ⟨p', segs, hcall, hnext⟩ := h.append now htype hok hbelow
      exact ⟨p', hcall, Or.inl ⟨_, _, _, _, hnext⟩⟩
    · obtain ⟨p', hcall, hnext⟩ := h.goesRound type now hok
        (Nat.le_of_not_lt hbelow)
      exact ⟨p', hcall, Or.inr ⟨past, hnext⟩⟩
  | stopAppend type data now accesses => exact absurd hok id
  | readNext maxLen =>
    obtain ⟨passed, rest, pos, r, -, hcall, -, hnext⟩ := h.readNext maxLen
    exact ⟨_, hcall, Or.inl ⟨_, _, _, _, hnext⟩⟩
  | readUnconfirmed maxCount =>
    obtain ⟨hcall, hnext⟩ := h.ledger.readUnconfirmed maxCount
    refine ⟨_, hcall, Or.inl ⟨confirmed ++ [], live, past, unread, ?_⟩⟩
    have hsame := Shared.setWord_word p.mapping.memory .confirmedPos
    rw [← hsame, ← List.append_nil confirmed] at hnext
    have hkeep := h.confirmedTo (List.nil_append live).symm hnext rfl
    rw [hsame] at hkeep
    exact hkeep
  | confirm seq =>
    obtain ⟨passed, rest, pos, hlive, hcall, hnext⟩ := h.ledger.confirm hok
    exact ⟨_, hcall, Or.inl ⟨_, _, _, _, h.confirmedTo hlive hnext rfl⟩⟩
  | confirmBatch count =>
    obtain ⟨passed, rest, pos, hlive, hcall, hnext⟩ := h.ledger.confirmBatch count
    exact ⟨_, hcall, Or.inl ⟨_, _, _, _, h.confirmedTo hlive hnext rfl⟩⟩

/-- A process that finds a complete header. -/
theorem Blank.following {m : Mapping} (h : Blank m) : Following cfg ⟨m, []⟩ [] [] [] [] where
  ledger := h.ledger
  same := rfl
  readPos := by
    show (m.memory.word .readPos).toNat = 0
    rw [h.readPos]
    rfl
  stored := trivial
  reads := List.Forall₂.nil
  nextSeq_le := by
    show (m.memory.word .nextSeq).toNat ≤ 1
    rw [h.nextSeq]
    exact Nat.le_refl 1

/-- **`ReadNext` returns the entries as they were appended, in their order**, and what it has
not read is still in the buffer, in every run in which no `Append` goes more than a lap ahead
of it. -/
theorem read_of_meets {beyond : Mem} {now : UInt64} {calls : List Call}
    (hok : Schedule.StepsMeet (Process.call cfg) (ReadMeets (ReadOk cfg))
      (Process.fresh cfg beyond now) calls) :
    ∃ p, Schedule.run (Process.call cfg) (Process.fresh cfg beyond now) calls = some p ∧
      ∃ past unread, ReadUpTo cfg p past unread := by
  obtain ⟨p, hrun, hsound⟩ :=
    Schedule.exists_run_of_meets (Process.call cfg) (ReadSound cfg)
      (fun _ _ h hmeet => h.call hmeet)
      (Or.inl ⟨_, _, _, _, (blank_reset cfg (.zeroFilled cfg beyond now)).following⟩) hok
  rcases hsound with ⟨confirmed, live, past, unread, h⟩ | ⟨past, h⟩
  · exact ⟨p, hrun, past, unread, h.readUpTo⟩
  · exact ⟨p, hrun, past, [], h.readUpTo []⟩

-- ---------------------------------------------------------------------------
-- Runs
-- ---------------------------------------------------------------------------

theorem smallSizes_lt : 64 < 2 ^ 63 := by omega

/-- A buffer for two small entries. -/
def smallSizes : Sizes := ⟨64, 48, smallSizes_lt⟩

/-- A payload that makes an entry of 40 bytes. -/
def sixteenBytes : Payload := ⟨List.replicate 16 1, by decide⟩

/-- The second entry is confirmed before it is read. The third one goes where the first one
was, which is read by then, and the fourth one where the second one was. -/
def confirmedFirst : List Call :=
  [.append 5 .empty 0, .append 5 sixteenBytes 0, .readNext 16, .confirm 2,
    .append 6 .empty 0, .readNext 4, .readUnconfirmed 9, .append 6 eightBytes 0, .readNext 16,
    .confirmBatch 1, .readNext 16, .readNext 16]

theorem read_confirmedFirst :
    ∃ p, Schedule.run (Process.call smallSizes)
        (Process.fresh smallSizes (fun _ => 0) 0) confirmedFirst = some p ∧
      ∃ past unread, ReadUpTo smallSizes p past unread :=
  read_of_meets (by decide +kernel)

/-- In a run in which every lap that ends early leaves room for a skip record, `ReadNext`
returned a header that no accepted entry has. -/
def ReadsStranger (cfg : Sizes) (calls : List Call) : Prop :=
  Schedule.StepsMeet (Process.call cfg) (ReadMeets (LeavesRoom cfg))
      (Process.fresh cfg (fun _ => 0) 0) calls ∧
    ∃ p, p ∈ Schedule.run (Process.call cfg) (Process.fresh cfg (fun _ => 0) 0) calls ∧
      ∃ r ∈ reads p.log, ∀ e ∈ accepted p.log, r.2.1 ≠ e.header

instance (cfg : Sizes) (calls : List Call) : Decidable (ReadsStranger cfg calls) := by
  unfold ReadsStranger
  infer_instance

/-- A payload that looks like an entry. -/
def looksLikeEntry : Payload :=
  ⟨(WalEntryHeader.mk 99 0 7 0 0).toBytes, by decide⟩

/-- `ReadNext` goes behind the first of two entries, both are confirmed, and the third one
lies over both of them. -/
def writtenOver : List Call :=
  [.append 5 .empty 0, .append 5 sixteenBytes 0, .readNext 16, .confirm 2,
    .append 5 looksLikeEntry 0, .readNext 16]

/-- A payload that begins with zeros, and whose checksum does, too. -/
def zerosInFront : Payload := ⟨[0, 0, 0, 0, 133, 204, 89, 33], by decide⟩

/-- Where 28 bytes are left of a lap, `ReadNext` goes on four bytes behind the start of the
next one. -/
def offByFour : List Call :=
  [.append 5 eightBytes 0, .append 5 eightBytes 0, .readNext 8, .readNext 8, .confirm 2,
    .append 5 zerosInFront 1, .readNext 8]

/-- Room for a skip record is not enough for `ReadNext` either. -/
theorem leavesRoom_not_enough_to_read :
    ReadsStranger smallSizes writtenOver ∧ ReadsStranger oddSizes offByFour := by
  constructor <;> decide +kernel

end Zrtools.ShmRing

import Zrtools.ShmRing.Overrun
import Zrtools.ShmRing.Recovery
import Zrtools.Wal.Sessions

/-!
# zrtools — from the ring to the file

The business thread appends to a ring. A persister takes entries that are not confirmed,
appends them to a WAL file, and confirms the last one. Ring and file number their entries
apart from each other.

* `Pipeline` — the ring, the file and the persister, call by call;
* `Agrees` — the file has every entry under the number that it has in the ring;
* `agrees_of_meets` — it is so in every run in which no `Append` comes to the end of a lap;
* `disagrees_wrapped` — an `Append` that goes to the next lap takes two numbers.
-/

namespace Zrtools.ShmRing

open ByteMemory SharedMemory Wal

variable {cfg : Sizes}

-- ---------------------------------------------------------------------------
-- The system
-- ---------------------------------------------------------------------------

/-- The payload as it is passed on: the size of the vector is cut to a `uint16_t`. -/
def payloadOf (data : List UInt8) : Payload :=
  ⟨data.take (data.length % 2 ^ 16), by
    rw [List.length_take]
    omega⟩

/-- The ring, the directory with its writer, and the persister: what it has read and not yet
written, the number that it will confirm, and the entries that it has written with the numbers
that `WalFileWriter::Append` returned. -/
structure Pipeline where
  ring : Process
  files : LogDir
  batch : List Copy
  last : Option UInt64
  transferred : List (Copy × UInt64)

/-- A call of `Append` by the business thread, and the calls of the persister. -/
inductive Turn where
  | append (type : UInt16) (data : Payload) (now : UInt64)
  | read (maxCount : Nat)
  | write (now : UInt64)
  | confirm

namespace Pipeline

/-- A new ring, and a writer that was initialised in an empty directory. -/
def fresh (cfg : Sizes) (beyond : Mem) (filePrefix : List Char) (now : UInt64) : Pipeline where
  ring := .fresh cfg beyond now
  files := ((LogDir.step filePrefix .empty (.init [] now)).getD .empty)
  batch := []
  last := none
  transferred := []

/-- One call. A batch is read when the one before is confirmed, written entry by entry, and
then confirmed with the number of its last entry. -/
def step (cfg : Sizes) (s : Pipeline) : Turn → Option Pipeline
  | .append type data now =>
    (s.ring.call cfg (.append type data now)).map fun ring => { s with ring := ring }
  | .read maxCount =>
    if s.last.isSome then none
    else
      let (result, memory) := (readUnconfirmedCall cfg maxCount).eval s.ring.mapping.memory
      result.map fun entries =>
        { s with
          ring := s.ring.after memory [.listed maxCount entries]
          batch := entries
          last := entries.getLast?.map fun c => c.1.seq }
  | .write now =>
    match s.batch with
    | [] => none
    | c :: rest => do
      let w ← s.files.writer
      let (seq, w) ← w.append c.1.type (payloadOf c.2) now
      some { s with
        files := { s.files with writer := some w }
        batch := rest
        transferred := s.transferred ++ [(c, seq)] }
  | .confirm =>
    match s.batch, s.last with
    | [], some seq =>
      (s.ring.call cfg (.confirm seq)).map fun ring => { s with ring := ring, last := none }
    | [], none => none
    | _ :: _, _ => none

/-- The directory once the stream is flushed. -/
def directory (s : Pipeline) : Directory :=
  match s.files.writer.bind fun w => w.file.map fun out => (w.currentFile, out) with
  | some (name, out) => putFile s.files.dir name out.written
  | none => s.files.dir

end Pipeline

-- ---------------------------------------------------------------------------
-- What is expected
-- ---------------------------------------------------------------------------

/-- Number, type and payload. -/
def triple (c : Copy) : UInt64 × UInt16 × List UInt8 := (c.1.seq, c.1.type, c.2)

/-- The numbers agree: the entries that were transferred are the first ones of the ring, each
has the number in the file that it has in the ring, and `ReadAfter` returns those that follow
a number. -/
structure Agrees (s : Pipeline) : Prop where
  inOrder : s.transferred.map Prod.fst <+: (accepted s.ring.log).map Entry.copy
  same : ∀ t ∈ s.transferred, t.2 = t.1.1.seq
  after : ∀ seq, (readAfter s.directory seq 0).map triple =
    (s.transferred.filter fun t => seq < t.1.1.seq).map fun t => triple t.1

/-- No entry that `Append` accepts has to go to the next lap. -/
def NeverWraps (cfg : Sizes) (size : Nat) (s : Memory) : Prop :=
  Accepts cfg size s → ¬ Wraps cfg size s

instance (cfg : Sizes) (size : Nat) (s : Memory) : Decidable (NeverWraps cfg size s) := by
  unfold NeverWraps
  infer_instance

/-- The condition on a call: types are not zero, where `Append` is called its size and the
memory meet `Ok`, and the calls of the persister come in the order of its loop. -/
def TurnMeets (Ok : Nat → Memory → Prop) (s : Pipeline) : Turn → Prop
  | .append type data _ => type ≠ 0 ∧ Ok (entrySize data.len) s.ring.mapping.memory
  | .read _ => s.last = none
  | .write _ => s.batch ≠ []
  | .confirm => s.batch = [] ∧ s.last ≠ none

instance decidableTurnMeets (Ok : Nat → Memory → Prop) [∀ n s, Decidable (Ok n s)]
    (s : Pipeline) : (t : Turn) → Decidable (TurnMeets Ok s t)
  | .append type data _ => inferInstanceAs
      (Decidable (type ≠ 0 ∧ Ok (entrySize data.len) s.ring.mapping.memory))
  | .read _ => inferInstanceAs (Decidable (s.last = none))
  | .write _ => inferInstanceAs (Decidable (s.batch ≠ []))
  | .confirm => inferInstanceAs (Decidable (s.batch = [] ∧ s.last ≠ none))

-- ---------------------------------------------------------------------------
-- The file
-- ---------------------------------------------------------------------------

/-- What the persister has written and what it will write next, against the file and the
entries of the ring. -/
structure Filed (filePrefix : List Char) (s : Pipeline) (w : WalFileWriter)
    (es : List Wal.Entry) : Prop where
  writer : s.files.writer = some w
  dir : s.files.dir = [(walFileName filePrefix 1, [])]
  logs : w.Logs filePrefix 1 es
  content : es.map triple = s.transferred.map fun t => triple t.1
  same : ∀ t ∈ s.transferred, t.2 = t.1.1.seq
  inOrder : s.transferred.map Prod.fst ++ s.batch <+: (accepted s.ring.log).map Entry.copy
  numbered : SeqsFrom 1 (s.transferred.map Prod.fst ++ s.batch)
  few : 8 * (s.transferred.length + s.batch.length) < 2 ^ 64

theorem payloadOf_bytes (data : Payload) : payloadOf data.bytes = data := by
  have htake : data.bytes.take (data.bytes.length % 2 ^ 16) = data.bytes := by
    rw [Nat.mod_eq_of_lt data.fits, List.take_length]
  unfold payloadOf
  congr 1

section Filed

variable {filePrefix : List Char} {s : Pipeline} {w : WalFileWriter} {es : List Wal.Entry}

theorem Filed.length_eq (h : Filed filePrefix s w es) : es.length = s.transferred.length := by
  have hlen := congrArg List.length h.content
  rwa [List.length_map, List.length_map] at hlen

/-- **`WalFileWriter::Append`** gives the entry the number that it has in the ring. -/
theorem Filed.write (cfg : Sizes) {c : Copy} {rest : List Copy} (h : Filed filePrefix s w es)
    (hbatch : s.batch = c :: rest) (now : UInt64) :
    ∃ s' w' e, s.step cfg (.write now) = some s' ∧ s'.ring = s.ring ∧ s'.last = s.last ∧
      s'.batch = rest ∧ s'.transferred.map Prod.fst = s.transferred.map Prod.fst ++ [c] ∧
      Filed filePrefix s' w' (es ++ [e]) := by
  obtain ⟨w', happend, -, hlogs⟩ := h.logs.append c.1.type (payloadOf c.2) now
  -- it is the copy of an entry
  have hmem : c ∈ (accepted s.ring.log).map Entry.copy := by
    refine h.inOrder.subset ?_
    rw [hbatch]
    exact List.mem_append_right _ (List.mem_cons_self ..)
  obtain ⟨entry, -, rfl⟩ := List.mem_map.mp hmem
  -- and its number is the next one
  have hseq : entry.copy.1.seq = 1 + UInt64.ofNat s.transferred.length := by
    refine h.numbered s.transferred.length entry.copy ?_
    rw [hbatch, List.getElem?_append_right (by rw [List.length_map]), List.length_map, Nat.sub_self]
    rfl
  have hnext : w.currentSeq + 1 = entry.copy.1.seq := by
    rw [h.logs.current, hseq, h.length_eq]
  have hstep : s.step cfg (.write now) = some { s with
      files := { s.files with writer := some w' }
      batch := rest
      transferred := s.transferred ++ [(entry.copy, w.currentSeq + 1)] } := by
    rw [Pipeline.step, hbatch]
    simp only [h.writer, Option.bind_eq_bind, Option.bind_some, happend]
  have hmove : (s.transferred ++ [(entry.copy, w.currentSeq + 1)]).map Prod.fst ++ rest =
      s.transferred.map Prod.fst ++ s.batch := by
    rw [hbatch]
    simp
  refine ⟨_, w', w.newEntry entry.copy.1.type (payloadOf entry.copy.2) now, hstep, rfl, rfl, rfl,
    by simp, ?_⟩
  constructor
  case writer => rfl
  case dir => exact h.dir
  case logs => exact hlogs
  case content =>
    rw [List.map_append, List.map_append, h.content, List.append_cancel_left_eq]
    show [(w.currentSeq + 1, entry.copy.1.type, (payloadOf entry.data.bytes).bytes)] = _
    rw [hnext, payloadOf_bytes]
    rfl
  case same =>
    intro t ht
    rcases List.mem_append.mp ht with ht | ht
    · exact h.same t ht
    · obtain rfl := List.mem_singleton.mp ht
      exact hnext
  case inOrder =>
    rw [hmove]
    exact h.inOrder
  case numbered =>
    rw [hmove]
    exact h.numbered
  case few =>
    have hfew := h.few
    rw [hbatch, List.length_cons] at hfew
    show 8 * ((s.transferred ++ [(entry.copy, w.currentSeq + 1)]).length + rest.length) < 2 ^ 64
    rw [List.length_append, List.length_singleton]
    omega

/-- A call of the ring. -/
theorem Filed.ring {ring : Process} {records : List Record} (h : Filed filePrefix s w es)
    (hlog : ring.log = s.ring.log ++ records) (last : Option UInt64) :
    Filed filePrefix { s with ring := ring, last := last } w es where
  writer := h.writer
  dir := h.dir
  logs := h.logs
  content := h.content
  same := h.same
  inOrder := by
    show _ <+: (accepted ring.log).map Entry.copy
    rw [hlog, accepted_append, List.map_append]
    exact h.inOrder.trans (List.prefix_append ..)
  numbered := h.numbered
  few := h.few

/-- **What `ReadAfter` reads.** -/
theorem Filed.agrees (h : Filed filePrefix s w es) : Agrees s := by
  obtain ⟨header, out, hfile, hcur, -, hwritten⟩ := h.logs.written
  have hdirectory : s.directory = [(walFileName filePrefix 1, out.written)] := by
    rw [Pipeline.directory, h.writer, Option.bind_some, hfile]
    show putFile s.files.dir w.currentFile out.written = _
    rw [h.dir, h.logs.named, putFile]
    simp
  have hfits : (1 : UInt64).toNat + es.length < 2 ^ 64 := by
    have hfew := h.few
    have hone : (1 : UInt64).toNat = 1 := rfl
    rw [h.length_eq]
    omega
  have hentries : fileEntries out.written = es := by
    rw [hwritten]
    exact fileEntries_logImage hcur h.logs.framed fun e he =>
      h.logs.seqs.seq_ne_zero Nat.one_pos hfits he
  constructor
  case inOrder => exact (List.prefix_append ..).trans h.inOrder
  case same => exact h.same
  case after =>
    intro seq
    have hsorted : sortedWalFiles [(walFileName filePrefix 1, out.written)] =
        [(walFileName filePrefix 1, out.written)] := by
      rw [sortedWalFiles, List.filter_cons_of_pos (isWalFile_walFileName ..)]
      rfl
    have hread : readAfter s.directory seq 0 = entriesAfter seq es := by
      rw [readAfter_eq, hdirectory, hsorted, limit, if_pos rfl, List.flatMap_singleton, hentries]
    -- whether an entry follows is seen in its triple
    have hleft : (entriesAfter seq es).map triple =
        (es.map triple).filter fun t => decide (seq < t.1) := by
      rw [List.filter_map]
      rfl
    have hright : ((s.transferred.filter fun t => decide (seq < t.1.1.seq)).map fun t =>
        triple t.1) =
        (s.transferred.map fun t => triple t.1).filter fun t => decide (seq < t.1) := by
      rw [List.filter_map]
      rfl
    rw [hread, hleft, hright, h.content]

end Filed

-- ---------------------------------------------------------------------------
-- The ring
-- ---------------------------------------------------------------------------

/-- While the positions go up: the numbers of the ring are used up one after the other, and
what is not confirmed is what the persister has written, what it has still to write, and what
it has not read. -/
structure Flowing (cfg : Sizes) (s : Pipeline) (confirmed live : List Segment)
    (written ahead rest : List Entry) : Prop where
  ledger : Ledger cfg s.ring confirmed live
  nextSeq : (s.ring.mapping.memory.word .nextSeq).toNat = (accepted s.ring.log).length + 1
  numbered : SeqsFrom 1 ((accepted s.ring.log).map Entry.copy)
  live : entriesOf live = written ++ (ahead ++ rest)
  transferred : s.transferred.map Prod.fst = (entriesOf confirmed ++ written).map Entry.copy
  batch : s.batch = ahead.map Entry.copy
  last : s.last = (written ++ ahead).getLast?.map Entry.seq

section Flowing

variable {s : Pipeline} {confirmed live : List Segment} {written ahead rest : List Entry}

theorem length_entriesOf_le (l : List Segment) : 8 * (entriesOf l).length ≤ total l :=
  Nat.le_trans (Nat.mul_le_mul_left 8 (List.length_filterMap_le ..)) (length_le_total l)

/-- There are fewer entries than positions. -/
theorem Flowing.few (h : Flowing cfg s confirmed live written ahead rest) :
    8 * (accepted s.ring.log).length < 2 ^ 64 := by
  have hcount := length_entriesOf_le (confirmed ++ live)
  have hwrite := h.ledger.laid.writePos
  have hlt := (s.ring.mapping.memory.word .writePos).toNat_lt
  rw [total_append] at hcount
  rw [h.ledger.accepted]
  omega

/-- The next number, after those of all entries that were accepted. -/
theorem Flowing.nextSeq_eq (h : Flowing cfg s confirmed live written ahead rest) :
    s.ring.mapping.memory.word .nextSeq =
      1 + UInt64.ofNat ((accepted s.ring.log).map Entry.copy).length := by
  rw [List.length_map, ← UInt64.ofNat_toNat (x := s.ring.mapping.memory.word .nextSeq),
    h.nextSeq, Nat.add_comm, UInt64.ofNat_add]
  rfl

/-- It is not the last one there is. -/
theorem Flowing.nextSeq_succ (h : Flowing cfg s confirmed live written ahead rest) :
    (s.ring.mapping.memory.word .nextSeq + 1).toNat =
      (s.ring.mapping.memory.word .nextSeq).toNat + 1 := by
  have hfew := h.few
  refine toNat_add_ofNat (n := 1) ?_
  rw [h.nextSeq]
  omega

theorem Flowing.nextSeq_ne_zero (h : Flowing cfg s confirmed live written ahead rest) :
    s.ring.mapping.memory.word .nextSeq ≠ 0 := by
  intro hzero
  have hnumber := h.nextSeq
  rw [hzero] at hnumber
  exact absurd hnumber (Nat.zero_ne_add_one _)

/-- **`Append`**, where it does not come to the end of a lap. -/
theorem Flowing.append {type : UInt16} {data : Payload}
    (h : Flowing cfg s confirmed live written ahead rest) (now : UInt64) (htype : type ≠ 0)
    (hok : NeverWraps cfg (entrySize data.len) s.ring.mapping.memory)
    (hbelow : (s.ring.mapping.memory.word .writePos).toNat +
      takes cfg (entrySize data.len) s.ring.mapping.memory < 2 ^ 64) :
    ∃ ring records live' rest', s.ring.call cfg (.append type data now) = some ring ∧
      ring.log = s.ring.log ++ records ∧
      Flowing cfg { s with ring := ring } confirmed live' written ahead rest' := by
  have hfew := h.few
  have happend : AppendOk cfg (entrySize data.len) s.ring.mapping.memory := by
    refine fun haccepts => ⟨fun hwraps => absurd hwraps (hok haccepts), hbelow, ?_⟩
    rw [numbers, if_neg fun h => hok haccepts h.1, h.nextSeq]
    omega
  obtain ⟨seq, memory, segs, hcall, happends, -, hput, -, hnext⟩ :=
    h.ledger.append now htype happend
  have haccepted : accepted (s.ring.log ++ appendedRecord seq now type data) =
      accepted s.ring.log ++ entriesOf segs := by
    have hall := hnext.accepted
    rw [← List.append_assoc, entriesOf_append, ← h.ledger.accepted] at hall
    exact hall
  -- either nothing happened, or the next number was taken
  have hone : entriesOf segs = [] ∧ memory.word .nextSeq = s.ring.mapping.memory.word .nextSeq ∨
      ∃ e : Entry, entriesOf segs = [e] ∧ e.seq = s.ring.mapping.memory.word .nextSeq ∧
        memory.word .nextSeq = s.ring.mapping.memory.word .nextSeq + 1 := by
    cases happends with
    | refused hnot => exact Or.inl ⟨(hput.resolve_right fun h => h.1 rfl).2, rfl⟩
    | wrapped haccepts hwraps => exact absurd hwraps (hok haccepts)
    | put haccepts hfits hlays =>
      have hne : (s.ring.atClock now).word .nextSeq ≠ 0 := h.nextSeq_ne_zero
      exact Or.inr ⟨_, (hput.resolve_left fun h => hne h.1).2, rfl, hlays.nextSeq⟩
  refine ⟨_, _, live ++ segs, rest ++ entriesOf segs, hcall, rfl, ?_⟩
  constructor
  case ledger => exact hnext
  case nextSeq =>
    show (memory.word .nextSeq).toNat = (accepted (s.ring.log ++ _)).length + 1
    rw [haccepted]
    rcases hone with ⟨hnone, hsame⟩ | ⟨e, hentry, -, hmove⟩
    · rw [hnone, List.append_nil, hsame, h.nextSeq]
    · rw [hentry, hmove, h.nextSeq_succ, h.nextSeq, List.length_append, List.length_singleton]
  case numbered =>
    show SeqsFrom 1 ((accepted (s.ring.log ++ _)).map Entry.copy)
    rw [haccepted, List.map_append]
    rcases hone with ⟨hnone, -⟩ | ⟨e, hentry, hseq, -⟩
    · rw [hnone, List.map_nil, List.append_nil]
      exact h.numbered
    · rw [hentry]
      refine h.numbered.snoc ?_
      show e.seq = _
      rw [hseq, h.nextSeq_eq]
  case live => rw [entriesOf_append, h.live, List.append_assoc, List.append_assoc]
  case transferred => exact h.transferred
  case batch => exact h.batch
  case last => exact h.last

/-- **`ReadUnconfirmed`** gives the persister the next entries. -/
theorem Flowing.read (h : Flowing cfg s confirmed live written ahead rest) (hidle : s.last = none)
    (maxCount : Nat) :
    ∃ s' ahead' rest', s.step cfg (.read maxCount) = some s' ∧
      s'.files = s.files ∧ s'.transferred = s.transferred ∧
      Flowing cfg s' confirmed live [] ahead' rest' := by
  have hnone : written ++ ahead = [] := by
    have hlast := h.last
    rw [hidle, eq_comm, Option.map_eq_none_iff, List.getLast?_eq_none_iff] at hlast
    exact hlast
  obtain ⟨rfl, rfl⟩ := List.append_eq_nil_iff.mp hnone
  have hlive : entriesOf live = rest := h.live
  obtain ⟨entries, hentries⟩ : ∃ entries, entries = (rest.take maxCount).map Entry.copy := ⟨_, rfl⟩
  have heval : (readUnconfirmedCall cfg maxCount).eval s.ring.mapping.memory =
      (some entries, s.ring.mapping.memory) := by
    rw [h.ledger.laid.stretch.eval_readUnconfirmedCall h.ledger.laid.confirmedPos, hlive, hentries]
  have hstep : s.step cfg (.read maxCount) = some { s with
      ring := s.ring.after s.ring.mapping.memory [.listed maxCount entries]
      batch := entries
      last := entries.getLast?.map fun c => c.1.seq } := by
    rw [Pipeline.step, hidle]
    simp only [heval]
    rfl
  have haccepted : accepted (s.ring.log ++ [.listed maxCount entries]) = accepted s.ring.log := by
    rw [accepted_append]
    exact List.append_nil _
  refine ⟨_, rest.take maxCount, rest.drop maxCount, hstep, rfl, rfl, ?_⟩
  constructor
  case ledger =>
    have hnext := (h.ledger.readUnconfirmed maxCount).2
    rw [h.ledger.unconfirmed, hlive, ← hentries] at hnext
    exact hnext
  case nextSeq =>
    show _ = (accepted (s.ring.log ++ _)).length + 1
    rw [haccepted]
    exact h.nextSeq
  case numbered =>
    show SeqsFrom 1 ((accepted (s.ring.log ++ _)).map Entry.copy)
    rw [haccepted]
    exact h.numbered
  case live => rw [hlive, List.nil_append, List.take_append_drop]
  case transferred => exact h.transferred
  case batch => exact hentries
  case last =>
    show entries.getLast?.map _ = _
    rw [hentries, List.getLast?_map, Option.map_map, List.nil_append]
    rfl

/-- An entry that is written moves on, and the ring stays as it is. -/
theorem Flowing.write {s' : Pipeline} {c : Copy} {batch : List Copy}
    (h : Flowing cfg s confirmed live written ahead rest) (hbatch : s.batch = c :: batch)
    (hring : s'.ring = s.ring) (hlast : s'.last = s.last) (hnext : s'.batch = batch)
    (htransferred : s'.transferred.map Prod.fst = s.transferred.map Prod.fst ++ [c]) :
    ∃ written' ahead', Flowing cfg s' confirmed live written' ahead' rest := by
  have hsplit := h.batch
  rw [hbatch] at hsplit
  obtain ⟨x, ahead', rfl, rfl, hrest⟩ := List.map_eq_cons_iff.mp hsplit.symm
  refine ⟨written ++ [x], ahead', ?_⟩
  constructor
  case ledger =>
    rw [hring]
    exact h.ledger
  case nextSeq =>
    rw [hring]
    exact h.nextSeq
  case numbered =>
    rw [hring]
    exact h.numbered
  case live => rw [h.live, List.append_assoc, List.cons_append, List.singleton_append]
  case transferred =>
    rw [htransferred, h.transferred, ← List.append_assoc]
    simp
  case batch => rw [hnext, hrest]
  case last => rw [hlast, h.last, List.append_assoc, List.singleton_append]

/-- **`Confirm`** confirms what was written. -/
theorem Flowing.confirm (h : Flowing cfg s confirmed live written ahead rest)
    (hdone : s.batch = []) (hlast : s.last ≠ none) :
    ∃ ring records confirmed' live', s.step cfg .confirm =
        some { s with ring := ring, last := none } ∧
      ring.log = s.ring.log ++ records ∧
      Flowing cfg { s with ring := ring, last := none } confirmed' live' [] [] rest := by
  have hahead : ahead = [] := by
    have hbatch := h.batch
    rw [hdone, eq_comm, List.map_eq_nil_iff] at hbatch
    exact hbatch
  subst hahead
  obtain ⟨seq, hseq⟩ := Option.ne_none_iff_exists'.mp hlast
  have hend := h.last
  rw [hseq, List.append_nil, eq_comm, Option.map_eq_some_iff] at hend
  obtain ⟨e, hget, rfl⟩ := hend
  obtain ⟨front, hfront⟩ : ∃ front, written = front ++ [e] :=
    ⟨written.dropLast, (List.dropLast_append_getLast? e hget).symm⟩
  have hlive := h.live
  rw [hfront, List.nil_append, List.append_assoc] at hlive
  have hmem : ∃ x ∈ unconfirmed s.ring.log, x.seq = e.seq := by
    rw [h.ledger.unconfirmed, hlive]
    exact ⟨e, by simp, rfl⟩
  obtain ⟨passed, after, pos, hsplit, hcall, hnext⟩ := h.ledger.confirm hmem
  have hstep : s.step cfg .confirm = some { s with
      ring := s.ring.after (s.ring.mapping.memory.setWord .confirmedPos pos) [.confirmed e.seq]
      last := none } := by
    rw [Pipeline.step, hdone, hseq]
    simp only [hcall]
    rfl
  have haccepted : accepted (s.ring.log ++ [.confirmed e.seq]) = accepted s.ring.log := by
    rw [accepted_append]
    exact List.append_nil _
  -- what is left is what the persister has not read
  have hrest : entriesOf after = rest := by
    have hother : ∀ x ∈ front, x.seq ≠ e.seq := by
      intro x hx heq
      have hincreasing := h.ledger.laid.increasing
      rw [entriesOf_append, hlive, List.pairwise_append, List.pairwise_append] at hincreasing
      have hlt := hincreasing.2.1.2.2 x hx e (by simp)
      rw [heq] at hlt
      exact Nat.lt_irrefl _ hlt
    have hunconfirmed := hnext.unconfirmed
    rw [Process.after, unconfirmed_concat, h.ledger.unconfirmed, hlive, List.singleton_append,
      confirmStep_confirmed hother] at hunconfirmed
    exact hunconfirmed.symm
  refine ⟨_, _, confirmed ++ passed, after, hstep, rfl, ?_⟩
  constructor
  case ledger => exact hnext
  case nextSeq =>
    show ((s.ring.mapping.memory.setWord .confirmedPos pos).word .nextSeq).toNat =
      (accepted (s.ring.log ++ _)).length + 1
    rw [haccepted, Shared.word_setWord_of_ne _ (by decide)]
    exact h.nextSeq
  case numbered =>
    show SeqsFrom 1 ((accepted (s.ring.log ++ _)).map Entry.copy)
    rw [haccepted]
    exact h.numbered
  case live => exact hrest
  case transferred =>
    have hpassed : entriesOf passed = written := by
      rw [hsplit, entriesOf_append, hrest, ← List.append_assoc, ← hfront] at hlive
      exact List.append_cancel_right hlive
    show s.transferred.map Prod.fst = _
    rw [h.transferred, entriesOf_append, hpassed, List.append_nil]
  case batch => exact hdone
  case last => rfl

end Flowing

-- ---------------------------------------------------------------------------
-- Whole runs
-- ---------------------------------------------------------------------------

/-- What holds between two calls; when `write_pos` has gone round, the ring gives nothing to
the persister any more. -/
def Flows (cfg : Sizes) (filePrefix : List Char) (s : Pipeline) : Prop :=
  (∃ w es, Filed filePrefix s w es) ∧
    ((∃ confirmed live written ahead rest, Flowing cfg s confirmed live written ahead rest) ∨
      Overrun cfg s.ring.mapping.memory)

section Flows

variable {filePrefix : List Char} {s s' : Pipeline} {w : WalFileWriter} {es : List Wal.Entry}

/-- What the persister is about to write is in the ring. -/
theorem Filed.read {confirmed live : List Segment} {written ahead rest : List Entry}
    (h : Filed filePrefix s w es) (hfiles : s'.files = s.files)
    (htransferred : s'.transferred = s.transferred)
    (hflow : Flowing cfg s' confirmed live written ahead rest) : Filed filePrefix s' w es := by
  have hinOrder : s'.transferred.map Prod.fst ++ s'.batch <+:
      (accepted s'.ring.log).map Entry.copy := by
    rw [hflow.transferred, hflow.batch, ← List.map_append, hflow.ledger.accepted,
      entriesOf_append, hflow.live, ← List.append_assoc, ← List.append_assoc]
    exact (List.prefix_append ..).map _
  constructor
  case writer => rw [hfiles, h.writer]
  case dir => rw [hfiles, h.dir]
  case logs => exact h.logs
  case content => rw [htransferred, h.content]
  case same =>
    rw [htransferred]
    exact h.same
  case inOrder => exact hinOrder
  case numbered => exact hflow.numbered.of_headers_prefix (hinOrder.map _)
  case few =>
    have hle := hinOrder.length_le
    have hfew := hflow.few
    rw [List.length_append, List.length_map, List.length_map] at hle
    omega

/-- The persister found nothing. -/
theorem Filed.idle {ring : Process} {records : List Record} (h : Filed filePrefix s w es)
    (hlog : ring.log = s.ring.log ++ records) :
    Filed filePrefix { s with ring := ring, batch := [], last := none } w es := by
  have hshort : s.transferred.map Prod.fst ++ [] <+: s.transferred.map Prod.fst ++ s.batch := by
    rw [List.append_nil]
    exact List.prefix_append ..
  have hnext := h.ring hlog none
  constructor
  case writer => exact h.writer
  case dir => exact h.dir
  case logs => exact h.logs
  case content => exact h.content
  case same => exact h.same
  case inOrder => exact hshort.trans hnext.inOrder
  case numbered => exact h.numbered.of_headers_prefix (hshort.map _)
  case few =>
    have hfew := h.few
    show 8 * (s.transferred.length + 0) < 2 ^ 64
    omega

/-- `Append` by the business thread. -/
theorem Flows.append {type : UInt16} {data : Payload} {now : UInt64}
    (h : Flows cfg filePrefix s) (htype : type ≠ 0)
    (hok : NeverWraps cfg (entrySize data.len) s.ring.mapping.memory) :
    ∃ s', s.step cfg (.append type data now) = some s' ∧ Flows cfg filePrefix s' := by
  obtain ⟨⟨w, es, hfiled⟩, hring⟩ := h
  have hstep : ∀ ring, s.ring.call cfg (.append type data now) = some ring →
      s.step cfg (.append type data now) = some { s with ring := ring } := by
    intro ring hcall
    rw [Pipeline.step, hcall]
    rfl
  rcases hring with ⟨confirmed, live, written, ahead, rest, hflow⟩ | hover
  · have hclean : WrapsClean cfg (entrySize data.len) s.ring.mapping.memory :=
      fun haccepts hwraps => absurd hwraps (hok haccepts)
    by_cases hbelow : (s.ring.mapping.memory.word .writePos).toNat +
        takes cfg (entrySize data.len) s.ring.mapping.memory < 2 ^ 64
    · obtain ⟨ring, records, live', rest', hcall, hlog, hnext⟩ :=
        hflow.append now htype hok hbelow
      exact ⟨_, hstep ring hcall, ⟨w, es, hfiled.ring hlog s.last⟩, Or.inl ⟨_, _, _, _, _, hnext⟩⟩
    · obtain ⟨seq, memory, hcall, happends⟩ :=
        call_append type now hflow.ledger.laid.used_le hclean
      refine ⟨_, hstep _ hcall, ⟨w, es, hfiled.ring rfl s.last⟩, Or.inr ?_⟩
      exact happends.overrun hclean hflow.ledger.laid.used_le (Nat.le_of_not_lt hbelow)
  · obtain ⟨seq, memory, hcall, -, hnext⟩ :=
      hover.call_append type data now
    exact ⟨_, hstep _ hcall, ⟨w, es, hfiled.ring rfl s.last⟩, Or.inr hnext⟩

/-- A call is possible and keeps that. -/
theorem Flows.step {t : Turn} (h : Flows cfg filePrefix s)
    (hok : TurnMeets (NeverWraps cfg) s t) :
    ∃ s', s.step cfg t = some s' ∧ Flows cfg filePrefix s' := by
  cases t with
  | append type data now => exact h.append hok.1 hok.2
  | read maxCount =>
    obtain ⟨⟨w, es, hfiled⟩, ⟨confirmed, live, written, ahead, rest, hflow⟩ | hover⟩ := h
    · obtain ⟨s', ahead', rest', hstep, hfiles, htransferred, hnext⟩ := hflow.read hok maxCount
      exact ⟨s', hstep, ⟨w, es, hfiled.read hfiles htransferred hnext⟩,
        Or.inl ⟨_, _, _, _, _, hnext⟩⟩
    · have hidle : s.last = none := hok
      have hstep : s.step cfg (.read maxCount) = some { s with
          ring := s.ring.after s.ring.mapping.memory [.listed maxCount []]
          batch := []
          last := none } := by
        rw [Pipeline.step, hidle]
        simp only [eval_readUnconfirmedCall_of_le cfg hover.le]
        rfl
      exact ⟨_, hstep, ⟨w, es, hfiled.idle rfl⟩, Or.inr hover⟩
  | write now =>
    obtain ⟨⟨w, es, hfiled⟩, hring⟩ := h
    obtain ⟨c, batch, hbatch⟩ := List.exists_cons_of_ne_nil hok
    obtain ⟨s', w', e, hstep, hsame, hlast, hnext, htransferred, hfiled'⟩ :=
      hfiled.write cfg hbatch now
    refine ⟨s', hstep, ⟨w', _, hfiled'⟩, ?_⟩
    rcases hring with ⟨confirmed, live, written, ahead, rest, hflow⟩ | hover
    · obtain ⟨written', ahead', hflow'⟩ := hflow.write hbatch hsame hlast hnext htransferred
      exact Or.inl ⟨_, _, _, _, _, hflow'⟩
    · rw [hsame]
      exact Or.inr hover
  | confirm =>
    obtain ⟨hdone, hlast⟩ := hok
    obtain ⟨⟨w, es, hfiled⟩, ⟨confirmed, live, written, ahead, rest, hflow⟩ | hover⟩ := h
    · obtain ⟨ring, records, confirmed', live', hstep, hlog, hnext⟩ :=
        hflow.confirm hdone hlast
      exact ⟨_, hstep, ⟨w, es, hfiled.ring hlog none⟩, Or.inl ⟨_, _, _, _, _, hnext⟩⟩
    · obtain ⟨seq, hseq⟩ := Option.ne_none_iff_exists'.mp hlast
      have hstep : s.step cfg .confirm = some { s with
          ring := s.ring.after s.ring.mapping.memory [.confirmed seq]
          last := none } := by
        rw [Pipeline.step, hdone, hseq]
        simp only [call_confirm_of_le hover.le seq]
        rfl
      exact ⟨_, hstep, ⟨w, es, hfiled.ring rfl none⟩, Or.inr hover⟩

end Flows

theorem flows_fresh (cfg : Sizes) (beyond : Mem) (filePrefix : List Char) (now : UInt64) :
    Flows cfg filePrefix (Pipeline.fresh cfg beyond filePrefix now) := by
  have hfiles : (Pipeline.fresh cfg beyond filePrefix now).files =
      { dir := [(walFileName filePrefix 1, [])],
        writer := some (WalFileWriter.init filePrefix [] now) } := by
    simp [Pipeline.fresh, LogDir.step, LogDir.empty, putFile]
    rfl
  have hnumbered : SeqsFrom 1 ([] : List Wal.Entry) := by
    intro i e he
    simp at he
  refine ⟨⟨.init filePrefix [] now, [], ?_⟩, Or.inl ⟨[], [], [], [], [], ?_⟩⟩
  · constructor
    case writer => rw [hfiles]
    case dir => rw [hfiles]
    case logs => exact WalFileWriter.logs_init filePrefix [] now
    case content => rfl
    case same =>
      intro t ht
      cases ht
    case inOrder => exact List.nil_prefix
    case numbered => exact hnumbered
    case few => exact Nat.two_pow_pos 64
  · constructor
    case ledger => exact ledger_fresh ..
    case nextSeq =>
      show ((Process.fresh cfg beyond now).mapping.memory.word .nextSeq).toNat = 1
      rw [Process.fresh, Mapping.createSegment, (blank_reset ..).nextSeq]
      rfl
    case numbered => exact hnumbered
    case live => rfl
    case transferred => rfl
    case batch => rfl
    case last => rfl

/-- **The numbers agree** in every run in which no `Append` has to go to the next lap. -/
theorem agrees_of_meets {beyond : Mem} {filePrefix : List Char} {now : UInt64} {turns : List Turn}
    (hok : Schedule.StepsMeet (Pipeline.step cfg) (TurnMeets (NeverWraps cfg))
      (Pipeline.fresh cfg beyond filePrefix now) turns) :
    ∃ s, Schedule.run (Pipeline.step cfg) (Pipeline.fresh cfg beyond filePrefix now) turns =
      some s ∧ Agrees s := by
  obtain ⟨s, hrun, ⟨w, es, hfiled⟩, -⟩ :=
    Schedule.exists_run_of_meets (Pipeline.step cfg) (Flows cfg filePrefix)
      (fun _ _ h hmeet => h.step hmeet) (flows_fresh cfg beyond filePrefix now) hok
  exact ⟨s, hrun, hfiled.agrees⟩

-- ---------------------------------------------------------------------------
-- Runs
-- ---------------------------------------------------------------------------

/-- Three entries fill a lap; the fourth one comes too early, and then begins the next lap. -/
def lapByLap : List Turn :=
  [.append 5 .empty 0, .append 6 .empty 1, .read 9, .write 2, .append 5 .empty 3, .write 4,
    .append 7 .empty 5, .confirm, .append 7 .empty 6, .read 1, .write 7, .confirm, .read 9,
    .write 8, .confirm, .read 9]

theorem agrees_lapByLap :
    ∃ s, Schedule.run (Pipeline.step tightSizes)
        (Pipeline.fresh tightSizes (fun _ => 0) defaultPrefix 0) lapByLap = some s ∧ Agrees s :=
  agrees_of_meets (by decide +kernel)

/-- Two entries are transferred; the third one leaves 24 bytes of the lap. -/
def wrapped : List Turn :=
  [.append 5 .empty 0, .append 5 .empty 0, .read 9, .write 0, .write 0, .confirm,
    .append 5 eightBytes 0, .read 9, .write 0]

/-- It has number 4 in the ring and number 3 in the file. -/
theorem disagrees_wrapped :
    Schedule.StepsMeet (Pipeline.step tightSizes) (TurnMeets (LeavesRoom tightSizes))
        (Pipeline.fresh tightSizes (fun _ => 0) defaultPrefix 0) wrapped ∧
      ∃ s, s ∈ Schedule.run (Pipeline.step tightSizes)
          (Pipeline.fresh tightSizes (fun _ => 0) defaultPrefix 0) wrapped ∧
        ∃ t ∈ s.transferred, t.2 ≠ t.1.1.seq := by
  constructor <;> decide +kernel

end Zrtools.ShmRing

import Zrtools.ShmRing.Process

/-!
# zrtools — the ring after a stop

A process may stop inside `Append`, and the next one finds the bytes it left behind.

* `recovers_of_meets` — in every run in which a lap that ends early leaves room for a skip
  record and a multiple of eight, and no position or number reaches `2^64`, every call
  returns, `ReadUnconfirmed` returns what was appended and not confirmed, and the numbers
  increase;
* `leavesRoom_not_enough` — room for a skip record alone is not enough.
-/

namespace Zrtools.ShmRing

open ByteMemory SharedMemory Wal

variable {cfg : Sizes}

/-- Recovery: every `ReadUnconfirmed` returned the entries that were appended and not
confirmed by then, in order and as they were appended, with right checksums, and the
numbers of all entries increase. -/
structure Recovers (log : List Record) : Prop where
  listed : ∀ front maxCount entries rest, log = front ++ .listed maxCount entries :: rest →
    entries = ((unconfirmed front).take maxCount).map Entry.copy
  valid : ∀ maxCount entries, .listed maxCount entries ∈ log →
    ∀ c ∈ entries, validateCrc c.1 c.2 = true
  increasing : (accepted log).Pairwise fun a b => a.seq.toNat < b.seq.toNat

/-- The condition on a call: types are not zero, where `Append` is called its size and the
memory meet `Ok`, and only the number of an entry that is not confirmed is confirmed.
`ReadNext` is not called. -/
def CallMeets (Ok : Nat → Memory → Prop) (p : Process) : Call → Prop
  | .append type data _ => type ≠ 0 ∧ Ok (entrySize data.len) p.mapping.memory
  | .stopAppend type data _ _ => type ≠ 0 ∧ Ok (entrySize data.len) p.mapping.memory
  | .readNext _ => False
  | .readUnconfirmed _ => True
  | .confirm seq => ∃ e ∈ unconfirmed p.log, e.seq = seq
  | .confirmBatch _ => True

instance decidableCallMeets (Ok : Nat → Memory → Prop) [∀ n s, Decidable (Ok n s)] (p : Process) :
    (c : Call) → Decidable (CallMeets Ok p c)
  | .append type data _ => inferInstanceAs
      (Decidable (type ≠ 0 ∧ Ok (entrySize data.len) p.mapping.memory))
  | .stopAppend type data _ _ => inferInstanceAs
      (Decidable (type ≠ 0 ∧ Ok (entrySize data.len) p.mapping.memory))
  | .readNext _ => isFalse id
  | .readUnconfirmed _ => isTrue trivial
  | .confirm seq => inferInstanceAs (Decidable (∃ e ∈ unconfirmed p.log, e.seq = seq))
  | .confirmBatch _ => isTrue trivial

-- ---------------------------------------------------------------------------
-- Listings
-- ---------------------------------------------------------------------------

/-- Every listing in the log shows what was not confirmed then. -/
def Listings (log : List Record) : Prop :=
  ∀ front maxCount entries rest, log = front ++ .listed maxCount entries :: rest →
    entries = ((unconfirmed front).take maxCount).map Entry.copy

/-- Only a listing has to be looked at. -/
theorem Listings.concat {log : List Record} {r : Record} (h : Listings log)
    (hnew : ∀ maxCount entries, r = .listed maxCount entries →
      entries = ((unconfirmed log).take maxCount).map Entry.copy) : Listings (log ++ [r]) := by
  intro front maxCount entries rest hsplit
  rcases List.eq_nil_or_concat rest with rfl | ⟨rest', z, rfl⟩
  · obtain ⟨rfl, hlast⟩ := List.append_inj' hsplit rfl
    exact hnew maxCount entries (List.singleton_inj.mp hlast)
  · refine h front maxCount entries rest' ?_
    have hassoc : log ++ [r] = (front ++ .listed maxCount entries :: rest') ++ [z] := by
      simpa using hsplit
    exact (List.append_inj' hassoc rfl).1

theorem Listings.appended {log : List Record} (h : Listings log) (entries : List Entry) :
    Listings (log ++ entries.map Record.appended) := by
  induction entries generalizing log with
  | nil => simpa using h
  | cons e entries ih =>
    rw [List.map_cons, ← List.singleton_append, ← List.append_assoc]
    exact ih (h.concat (by rintro _ _ ⟨⟩))

theorem validateCrc_copy (e : Entry) : validateCrc e.copy.1 e.copy.2 = true :=
  validateCrc_updateCrc rfl

/-- What holds between two calls. -/
def Recovered (cfg : Sizes) (p : Process) : Prop :=
  (∃ confirmed live, Ledger cfg p confirmed live) ∧ Listings p.log

theorem Recovered.recovers {p : Process} (h : Recovered cfg p) : Recovers p.log := by
  obtain ⟨⟨confirmed, live, hledger⟩, hlistings⟩ := h
  constructor
  case listed => exact hlistings
  case valid =>
    intro maxCount entries hmem c hc
    obtain ⟨front, rest, hsplit⟩ := List.append_of_mem hmem
    rw [hlistings front maxCount entries rest hsplit] at hc
    obtain ⟨e, -, rfl⟩ := List.mem_map.mp hc
    exact validateCrc_copy e
  case increasing =>
    rw [hledger.accepted]
    exact hledger.laid.increasing

/-- A call returns and keeps that. -/
theorem Recovered.call {p : Process} {c : Call} (h : Recovered cfg p)
    (hok : CallMeets (AppendOk cfg) p c) :
    ∃ p', p.call cfg c = some p' ∧ Recovered cfg p' := by
  obtain ⟨⟨confirmed, live, hledger⟩, hlistings⟩ := h
  cases c with
  | append type data now =>
    obtain ⟨seq, memory, segs, hcall, -, -, -, -, hnext⟩ := hledger.append now hok.1 hok.2
    refine ⟨_, hcall, ⟨_, _, hnext⟩, ?_⟩
    show Listings (p.log ++ appendedRecord seq now type data)
    unfold appendedRecord
    split
    · simpa using hlistings
    · exact hlistings.concat (by rintro _ _ ⟨⟩)
  | stopAppend type data now accesses =>
    obtain ⟨records, memory, segs, hcall, rfl, -, hnext⟩ :=
      hledger.stopAppend now hok.1 hok.2 accesses
    exact ⟨_, hcall, ⟨_, _, hnext⟩, hlistings.appended _⟩
  | readNext maxLen => exact absurd hok id
  | readUnconfirmed maxCount =>
    obtain ⟨hcall, hnext⟩ := hledger.readUnconfirmed maxCount
    refine ⟨_, hcall, ⟨_, _, hnext⟩, hlistings.concat ?_⟩
    rintro _ _ ⟨⟩
    rfl
  | confirm seq =>
    obtain ⟨passed, rest, pos, -, hcall, hnext⟩ := hledger.confirm hok
    exact ⟨_, hcall, ⟨_, _, hnext⟩, hlistings.concat (by rintro _ _ ⟨⟩)⟩
  | confirmBatch count =>
    obtain ⟨passed, rest, pos, -, hcall, hnext⟩ := hledger.confirmBatch count
    exact ⟨_, hcall, ⟨_, _, hnext⟩, hlistings.concat (by rintro _ _ ⟨⟩)⟩

theorem recovered_fresh (cfg : Sizes) (beyond : Mem) (now : UInt64) :
    Recovered cfg (Process.fresh cfg beyond now) := by
  refine ⟨⟨[], [], ledger_fresh ..⟩, ?_⟩
  intro front maxCount entries rest hsplit
  cases front <;> cases hsplit

/-- **Recovery.** In every run of calls and stops inside `Append` that meet `AppendOk`, every
call returns and the entries that were appended and not confirmed come back. -/
theorem recovers_of_meets {beyond : Mem} {now : UInt64} {calls : List Call}
    (hok : Schedule.StepsMeet (Process.call cfg) (CallMeets (AppendOk cfg))
      (Process.fresh cfg beyond now) calls) :
    ∃ p, Schedule.run (Process.call cfg) (Process.fresh cfg beyond now) calls = some p ∧
      Recovers p.log := by
  obtain ⟨p, hrun, hinv⟩ := Schedule.exists_run_of_meets (Process.call cfg) (Recovered cfg)
    (fun _ _ h hmeet => h.call hmeet) (recovered_fresh cfg beyond now) hok
  exact ⟨p, hrun, hinv.recovers⟩

-- ---------------------------------------------------------------------------
-- Runs
-- ---------------------------------------------------------------------------

/-- A payload that makes an entry of 32 bytes. -/
def eightBytes : Payload := ⟨[8, 7, 6, 5, 4, 3, 2, 1], by decide⟩

theorem tightSizes_lt : 72 < 2 ^ 63 := by omega

/-- A buffer in which two headers leave room for another one, but for no more. -/
def tightSizes : Sizes := ⟨72, 32, tightSizes_lt⟩

/-- Two entries of 24 bytes are confirmed, the third one of 32 bytes goes to the next lap. On
the way `Append` is stopped four times: right behind the number, inside the skip record, inside
the entry behind the skip record, and behind its last access. -/
def stoppedRun : List Call :=
  [.append 5 .empty 0, .stopAppend 5 .empty 0 3, .append 5 .empty 0, .confirm 3,
    .stopAppend 6 eightBytes 0 20, .stopAppend 6 eightBytes 0 50,
    .stopAppend 6 eightBytes 0 200, .readUnconfirmed 9]

theorem recovers_stoppedRun :
    ∃ p, Schedule.run (Process.call tightSizes)
        (Process.fresh tightSizes (fun _ => 0) 0) stoppedRun = some p ∧ Recovers p.log :=
  recovers_of_meets (by decide +kernel)

/-- All that is asked of a lap that ends early: room for a skip record. -/
def LeavesRoom (cfg : Sizes) (size : Nat) (s : Memory) : Prop :=
  Accepts cfg size s → Wraps cfg size s → walEntryHeaderSize ≤ lapRest cfg s

instance (cfg : Sizes) (size : Nat) (s : Memory) : Decidable (LeavesRoom cfg size s) := by
  unfold LeavesRoom
  infer_instance

/-- A run to a process that has something to list, and does not list it. -/
def Misses (cfg : Sizes) (calls : List Call) : Prop :=
  Schedule.StepsMeet (Process.call cfg) (CallMeets (LeavesRoom cfg))
      (Process.fresh cfg (fun _ => 0) 0) calls ∧
    ∃ p, p ∈ Schedule.run (Process.call cfg) (Process.fresh cfg (fun _ => 0) 0) calls ∧
      ((readUnconfirmedCall cfg 9).eval p.mapping.memory).1 = some [] ∧ unconfirmed p.log ≠ []

instance (cfg : Sizes) (calls : List Call) : Decidable (Misses cfg calls) := by
  unfold Misses
  infer_instance

/-- The listing is then wrong. -/
theorem Misses.not_recovers {calls : List Call} (h : Misses cfg calls) :
    Schedule.StepsMeet (Process.call cfg) (CallMeets (LeavesRoom cfg))
        (Process.fresh cfg (fun _ => 0) 0) (calls ++ [.readUnconfirmed 9]) ∧
      ∃ p, Schedule.run (Process.call cfg) (Process.fresh cfg (fun _ => 0) 0)
          (calls ++ [.readUnconfirmed 9]) = some p ∧ ¬ Recovers p.log := by
  obtain ⟨hmeets, p, hrun, hresult, hsome⟩ := h
  refine ⟨?_, ?_⟩
  · exact (Schedule.stepsMeet_append _).mpr ⟨hmeets, fun _ _ => ⟨trivial, fun _ _ => trivial⟩⟩
  · refine ⟨p.after ((readUnconfirmedCall cfg 9).eval p.mapping.memory).2 [.listed 9 []], ?_, ?_⟩
    · rw [Schedule.run_append _ hrun, Schedule.run, Process.call]
      simp only [hresult]
      rfl
    · intro hrecovers
      have hlisted := hrecovers.listed p.log 9 [] [] rfl
      rw [eq_comm, List.map_eq_nil_iff, List.take_eq_nil_iff] at hlisted
      exact hlisted.elim (by decide) hsome

/-- A buffer whose size is not a multiple of eight. -/
def oddSizes : Sizes := ⟨92, 32, by omega⟩

/-- The third entry goes to the next lap; 28 bytes are left of the first one. -/
theorem misses_oddSizes : Misses oddSizes
    [.append 5 eightBytes 0, .append 5 eightBytes 0, .confirm 2, .append 5 eightBytes 0] := by
  decide +kernel

-- ---------------------------------------------------------------------------
-- The last position
-- ---------------------------------------------------------------------------

theorem oneEntry_lt : 32 < 2 ^ 63 := by omega

/-- A buffer for a single entry. -/
def oneEntry : Sizes := ⟨32, 32, oneEntry_lt⟩

/-- An entry is appended and confirmed, again and again. -/
def rounds : Nat → List Call
  | 0 => []
  | n + 1 => rounds n ++ [.append 5 eightBytes 0, .confirm (UInt64.ofNat (n + 1))]

/-- After `n` rounds. -/
structure AfterRounds (n : Nat) (p : Process) (confirmed : List Segment) : Prop where
  ledger : Ledger oneEntry p confirmed []
  writePos : (p.mapping.memory.word .writePos).toNat = 32 * n
  nextSeq : (p.mapping.memory.word .nextSeq).toNat = n + 1

section Rounds

variable {n : Nat} {p : Process} {confirmed : List Segment}

theorem AfterRounds.not_wraps (h : AfterRounds n p confirmed) :
    ¬ Wraps oneEntry (entrySize eightBytes.len) p.mapping.memory := by
  have hsize : entrySize eightBytes.len = 32 := by decide
  have hbuffer : oneEntry.bufferSize = 32 := rfl
  rw [Wraps, h.writePos, hsize, hbuffer]
  omega

theorem AfterRounds.accepts (h : AfterRounds n p confirmed) :
    Accepts oneEntry (entrySize eightBytes.len) p.mapping.memory := by
  have hsize : entrySize eightBytes.len = 32 := by decide
  have hbuffer : oneEntry.bufferSize = 32 := rfl
  have hmax : oneEntry.maxEntrySize = 32 := rfl
  rw [Accepts, h.ledger.laid.used, hsize, hbuffer, hmax, total_nil]
  omega

theorem AfterRounds.nextSeq_ne_zero (h : AfterRounds n p confirmed) :
    p.mapping.memory.word .nextSeq ≠ 0 := by
  intro hzero
  have hnext := h.nextSeq
  rw [hzero] at hnext
  exact absurd hnext (Nat.zero_ne_add_one n)

/-- The next entry is put at the front of the buffer. -/
theorem AfterRounds.append (h : AfterRounds n p confirmed) :
    ∃ memory, p.call oneEntry (.append 5 eightBytes 0) =
        some (p.after memory (appendedRecord (p.mapping.memory.word .nextSeq) 0 5 eightBytes)) ∧
      Lays oneEntry (p.atClock 0) memory (.entry (newEntry (p.atClock 0) 5 eightBytes)) := by
  have hclean : WrapsClean oneEntry (entrySize eightBytes.len) p.mapping.memory :=
    fun _ hwraps => absurd hwraps h.not_wraps
  obtain ⟨seq, memory, hcall, happends⟩ :=
    call_append 5 0 h.ledger.laid.used_le hclean
  cases happends with
  | refused hnot => exact absurd h.accepts hnot
  | wrapped _ hwraps => exact absurd hwraps h.not_wraps
  | put haccepts hfits hlays => exact ⟨memory, hcall, hlays⟩

/-- What is on the tape then. -/
theorem AfterRounds.appended (h : AfterRounds n p confirmed) (hn : n + 1 < 2 ^ 59) :
    ∃ p' e, p.call oneEntry (.append 5 eightBytes 0) = some p' ∧
      Ledger oneEntry p' confirmed [.entry e] ∧ e.seq = UInt64.ofNat (n + 1) ∧
      (Segment.entry e).size = 32 ∧ (p'.mapping.memory.word .nextSeq).toNat = n + 2 := by
  obtain ⟨memory, hcall, hlays⟩ := h.append
  have hlaid : Laid oneEntry (p.atClock 0) confirmed [] := h.ledger.laid.setWord (Or.inr rfl) 0
  have hwrite : ((p.atClock 0).word .writePos).toNat = 32 * n := h.writePos
  have hnext : ((p.atClock 0).word .nextSeq).toNat = n + 1 := h.nextSeq
  have hsize : entrySize eightBytes.len = 32 := by decide
  have hfits : ¬ Wraps oneEntry (entrySize eightBytes.len) (p.atClock 0) := h.not_wraps
  have hok : AppendOk oneEntry (entrySize eightBytes.len) (p.atClock 0) := by
    intro haccepts
    rw [takes, if_pos haccepts, numbers, if_neg fun h => hfits h.1, if_neg fun h => hfits h.1,
      stride, if_neg hfits, hwrite, hnext, hsize]
    exact ⟨fun hwraps => absurd hwraps hfits, by omega, by omega⟩
  refine ⟨_, newEntry (p.atClock 0) 5 eightBytes, hcall, ?_, ?_, hsize, ?_⟩
  · refine h.ledger.grown (hlaid.grown_put (by decide) hok h.accepts hfits hlays) ?_
    rw [appendedRecord, if_neg h.nextSeq_ne_zero]
    rfl
  · rw [← h.nextSeq, UInt64.ofNat_toNat]
    rfl
  · have hadd : ((p.atClock 0).word .nextSeq + 1).toNat =
        ((p.atClock 0).word .nextSeq).toNat + 1 := by
      refine toNat_add_ofNat (n := 1) ?_
      rw [hnext]
      omega
    show (memory.word .nextSeq).toNat = n + 2
    rw [hlays.nextSeq, hadd, hnext]

/-- And so to the next round. -/
theorem AfterRounds.round (h : AfterRounds n p confirmed) (hn : n + 1 < 2 ^ 59) :
    ∃ p' confirmed', Schedule.StepsMeet (Process.call oneEntry) (CallMeets (LeavesRoom oneEntry)) p
        [.append 5 eightBytes 0, .confirm (UInt64.ofNat (n + 1))] ∧
      Schedule.run (Process.call oneEntry) p
        [.append 5 eightBytes 0, .confirm (UInt64.ofNat (n + 1))] = some p' ∧
      AfterRounds (n + 1) p' confirmed' := by
  obtain ⟨p', e, hcall, hledger, hseq, hsize, hnext⟩ := h.appended hn
  have hmem : ∃ x ∈ unconfirmed p'.log, x.seq = UInt64.ofNat (n + 1) := by
    rw [hledger.unconfirmed]
    exact ⟨e, List.mem_singleton_self _, hseq⟩
  obtain ⟨passed, rest, pos, hsplit, hconfirm, hdone⟩ := hledger.confirm hmem
  -- nothing is left
  have hrest : rest = [] := by
    cases passed with
    | cons seg passed =>
      simp only [List.cons_append, List.cons.injEq, List.nil_eq, List.append_eq_nil_iff] at hsplit
      exact hsplit.2.2
    | nil =>
      have hnone := hdone.unconfirmed
      rw [List.nil_append] at hsplit
      rw [Process.after, unconfirmed_concat, hledger.unconfirmed, ← hsplit] at hnone
      simp [confirmStep, hseq] at hnone
  subst hrest
  rw [List.append_nil] at hsplit
  refine ⟨_, _, ⟨⟨by decide, ?_⟩, ?_⟩, ?_, hdone, ?_, ?_⟩
  · exact fun _ hwraps => absurd hwraps h.not_wraps
  · intro t ht
    obtain rfl := Option.some.inj (hcall.symm.trans ht)
    exact ⟨hmem, fun _ _ => trivial⟩
  · simp only [Schedule.run, hcall, hconfirm, Option.bind_some]
  · have hwrite := hdone.laid.writePos
    have hbefore := h.ledger.laid.writePos
    have hstart := h.writePos
    rw [total_append, ← hsplit] at hwrite
    simp only [total_cons, total_nil, hsize] at hwrite hbefore
    omega
  · show ((p'.mapping.memory.setWord .confirmedPos pos).word .nextSeq).toNat = n + 1 + 1
    rw [Shared.word_setWord_of_ne _ (by decide)]
    exact hnext

/-- All rounds but the last one. -/
theorem afterRounds (n : Nat) (hn : n < 2 ^ 59) :
    ∃ p confirmed, Schedule.StepsMeet (Process.call oneEntry) (CallMeets (LeavesRoom oneEntry))
        (Process.fresh oneEntry (fun _ => 0) 0) (rounds n) ∧
      Schedule.run (Process.call oneEntry) (Process.fresh oneEntry (fun _ => 0) 0) (rounds n) =
        some p ∧ AfterRounds n p confirmed := by
  induction n with
  | zero =>
    refine ⟨_, [], trivial, rfl, ledger_fresh .., ?_, ?_⟩
    · exact (ledger_fresh ..).laid.writePos
    · show ((Process.fresh oneEntry (fun _ => 0) 0).mapping.memory.word .nextSeq).toNat = 1
      rw [Process.fresh, Mapping.createSegment, (blank_reset ..).nextSeq]
      rfl
  | succ n ih =>
    obtain ⟨p, confirmed, hmeets, hrun, hafter⟩ := ih (by omega)
    obtain ⟨p', confirmed', hmeets', hrun', hafter'⟩ := hafter.round hn
    refine ⟨p', confirmed', ?_, ?_, hafter'⟩
    · refine (Schedule.stepsMeet_append _).mpr ⟨hmeets, fun t ht => ?_⟩
      obtain rfl := Option.some.inj (hrun.symm.trans ht)
      exact hmeets'
    · rw [rounds, Schedule.run_append _ hrun, hrun']

/-- In the last round `write_pos` is zero again, and `confirmed_pos` is far behind it. -/
theorem AfterRounds.last (h : AfterRounds n p confirmed) (hn : n + 1 = 2 ^ 59) :
    ∃ p', p.call oneEntry (.append 5 eightBytes 0) = some p' ∧
      p'.mapping.memory.word .writePos = 0 ∧ unconfirmed p'.log ≠ [] := by
  obtain ⟨memory, hcall, hlays⟩ := h.append
  have hsize : entrySize eightBytes.len = 32 := by decide
  refine ⟨_, hcall, ?_, ?_⟩
  · have hwrite : ((p.atClock 0).word .writePos).toNat = 32 * n := h.writePos
    have hmove : (memory.word .writePos).toNat = 0 := by
      rw [hlays.writePos, UInt64.toNat_add, hwrite]
      show (32 * n + (UInt64.ofNat (entrySize eightBytes.len)).toNat) % 2 ^ 64 = 0
      rw [hsize, UInt64.toNat_ofNat']
      omega
    exact UInt64.toNat_inj.mp hmove
  · show unconfirmed (p.log ++ appendedRecord (p.mapping.memory.word .nextSeq) 0 5 eightBytes) ≠ []
    rw [appendedRecord, if_neg h.nextSeq_ne_zero, unconfirmed_concat, h.ledger.unconfirmed]
    simp [confirmStep]

end Rounds

/-- An entry that ends at position `2^64`. -/
theorem misses_oneEntry {n : Nat} (hn : n + 1 = 2 ^ 59) :
    Misses oneEntry (rounds n ++ [.append 5 eightBytes 0]) := by
  obtain ⟨p, confirmed, hmeets, hrun, hafter⟩ := afterRounds n (by omega)
  obtain ⟨p', hcall, hzero, hsome⟩ := hafter.last hn
  refine ⟨?_, ?_⟩
  · refine (Schedule.stepsMeet_append _).mpr ⟨hmeets, fun t ht => ⟨⟨by decide, ?_⟩, ?_⟩⟩
    · obtain rfl := Option.some.inj (hrun.symm.trans ht)
      exact fun _ hwraps => absurd hwraps hafter.not_wraps
    · exact fun _ _ => trivial
  · have hle : p'.mapping.memory.word .writePos ≤ p'.mapping.memory.word .confirmedPos := by
      rw [hzero, UInt64.le_iff_toNat_le]
      exact Nat.zero_le _
    refine ⟨p', ?_, congrArg Prod.fst (eval_readUnconfirmedCall_of_le oneEntry hle 9), hsome⟩
    show Schedule.run _ _ _ = some p'
    rw [Schedule.run_append _ hrun]
    simp only [Schedule.run, hcall, Option.bind_some]

-- ---------------------------------------------------------------------------
-- The last number
-- ---------------------------------------------------------------------------

/-- `Append` stopped right behind its number has done nothing else. -/
theorem steps_number (type : UInt16) {data : Payload} {s : Memory}
    (h : Accepts cfg (entrySize data.len) s) :
    ∃ code, (appendCall cfg type data).steps 3 s =
      (code, s.setWord .nextSeq (s.word .nextSeq + 1)) ∧ code.result = none := by
  have hroom : ¬ cfg.bufferSize <
      ((s.word .writePos - s.word .confirmedPos).toNat + entrySize data.len) % 2 ^ 64 :=
    Nat.not_lt.mpr h.2
  rw [appendCall, Prog.call, append, if_neg (Nat.not_lt.mpr h.1)]
  simp only [Bind.bind, Prog.bind, Prog.load, Prog.fetchAdd, Prog.steps]
  split
  · rename_i hfull
    exact absurd hfull hroom
  · exact ⟨_, rfl, rfl⟩

/-- Since its first entry the ring has only lost numbers. -/
structure Burned (next : UInt64) (p : Process) : Prop where
  magic : p.mapping.magic = magicNumber
  writePos : p.mapping.memory.word .writePos = 24
  confirmedPos : p.mapping.memory.word .confirmedPos = 0
  nextSeq : p.mapping.memory.word .nextSeq = next
  logged : ∃ e : Entry, accepted p.log = [e] ∧ e.seq = 1

section Burned

variable {p : Process} {next : UInt64}

/-- An entry is put behind the first one. -/
theorem Burned.accepts (h : Burned next p) :
    Accepts tightSizes (entrySize Payload.empty.len) p.mapping.memory := by
  rw [Accepts, h.writePos, h.confirmedPos]
  decide

theorem Burned.not_wraps (h : Burned next p) :
    ¬ Wraps tightSizes (entrySize Payload.empty.len) p.mapping.memory := by
  rw [Wraps, h.writePos]
  decide

theorem Burned.leavesRoom (h : Burned next p) :
    LeavesRoom tightSizes (entrySize Payload.empty.len) p.mapping.memory :=
  fun _ hwraps => absurd hwraps h.not_wraps

/-- A stop behind the number. -/
theorem Burned.stop (h : Burned next p) :
    ∃ p', p.call tightSizes (.stopAppend 5 .empty 0 3) = some p' ∧ Burned (next + 1) p' := by
  have haccepts : Accepts tightSizes (entrySize Payload.empty.len) (p.atClock 0) := h.accepts
  obtain ⟨code, hsteps, hnone⟩ := steps_number 5 haccepts
  have hreopen : p.call tightSizes (.stopAppend 5 .empty 0 3) = some (p.after
      ((p.atClock 0).setWord .nextSeq ((p.atClock 0).word .nextSeq + 1)) []) := by
    rw [Process.call, hsteps, Process.reopen]
    simp only [hnone, Process.after, Mapping.openSegment, h.magic, if_true]
    rfl
  refine ⟨_, hreopen, ?_⟩
  constructor
  case magic => exact h.magic
  case writePos => exact h.writePos
  case confirmedPos => exact h.confirmedPos
  case nextSeq =>
    show (p.atClock 0).word .nextSeq + 1 = next + 1
    rw [← h.nextSeq]
    rfl
  case logged =>
    show ∃ e, accepted (p.log ++ []) = [e] ∧ e.seq = 1
    rw [List.append_nil]
    exact h.logged

/-- And so on. -/
theorem Burned.stops (h : Burned next p) (k : Nat) :
    ∃ p', Schedule.StepsMeet (Process.call tightSizes) (CallMeets (LeavesRoom tightSizes)) p
        (List.replicate k (.stopAppend 5 .empty 0 3)) ∧
      Schedule.run (Process.call tightSizes) p (List.replicate k (.stopAppend 5 .empty 0 3)) =
        some p' ∧ Burned (next + UInt64.ofNat k) p' := by
  induction k generalizing next p with
  | zero => exact ⟨p, trivial, rfl, by simpa using h⟩
  | succ k ih =>
    obtain ⟨t, hstop, hburned⟩ := h.stop
    obtain ⟨p', hmeets, hrun, hrest⟩ := ih hburned
    refine ⟨p', ⟨⟨by decide, h.leavesRoom⟩, ?_⟩, ?_, ?_⟩
    · intro t' ht
      obtain rfl := Option.some.inj (hstop.symm.trans ht)
      exact hmeets
    · exact (Schedule.run_cons _).mpr ⟨t, hstop, hrun⟩
    · have hnext : next + UInt64.ofNat (k + 1) = next + 1 + UInt64.ofNat k := by
        rw [UInt64.ofNat_add, UInt64.add_assoc, UInt64.add_comm (UInt64.ofNat k)]
        rfl
      rw [hnext]
      exact hrest

/-- The number of the first entry is given out again. -/
theorem Burned.last (h : Burned 1 p) :
    ∃ p', p.call tightSizes (.append 5 .empty 0) = some p' ∧ ¬ Recovers p'.log := by
  have hused : (p.mapping.memory.word .writePos - p.mapping.memory.word .confirmedPos).toNat ≤
      tightSizes.bufferSize := by
    rw [h.writePos, h.confirmedPos]
    decide
  have hclean : WrapsClean tightSizes (entrySize Payload.empty.len) p.mapping.memory :=
    fun _ hwraps => absurd hwraps h.not_wraps
  obtain ⟨seq, memory, hcall, happends⟩ := call_append 5 0 hused hclean
  refine ⟨_, hcall, ?_⟩
  have hseq : seq = 1 := by
    cases happends with
    | refused hnot => exact absurd h.accepts hnot
    | wrapped _ hwraps => exact absurd hwraps h.not_wraps
    | put => exact h.nextSeq
  subst hseq
  obtain ⟨e, haccepted, hfirst⟩ := h.logged
  intro hrecovers
  have hincreasing : (accepted (p.log ++ _)).Pairwise _ := hrecovers.increasing
  rw [accepted_append, haccepted] at hincreasing
  have hlt := (List.pairwise_cons.mp hincreasing).1 ⟨1, 0, 5, .empty⟩
    (by simp [appendedRecord, accepted])
  rw [hfirst] at hlt
  exact Nat.lt_irrefl _ hlt

end Burned

theorem burned_first :
    ∃ p, p ∈ Process.call tightSizes (Process.fresh tightSizes (fun _ => 0) 0)
        (.append 5 .empty 0) ∧ Burned 2 p := by
  have hfirst : ∃ p, p ∈ Process.call tightSizes (Process.fresh tightSizes (fun _ => 0) 0)
        (.append 5 .empty 0) ∧
      p.mapping.magic = magicNumber ∧ p.mapping.memory.word .writePos = 24 ∧
      p.mapping.memory.word .confirmedPos = 0 ∧ p.mapping.memory.word .nextSeq = 2 ∧
      (accepted p.log).map Entry.seq = [1] := by
    decide +kernel
  obtain ⟨p, hp, hmagic, hwrite, hconfirmed, hnext, hseqs⟩ := hfirst
  obtain ⟨e, he, hone⟩ := List.map_eq_singleton_iff.mp hseqs
  exact ⟨p, hp, hmagic, hwrite, hconfirmed, hnext, e, he, hone⟩

/-- A number given out twice, because all those between were lost. -/
theorem not_recovers_burned {k : Nat} (hk : k + 1 = 2 ^ 64) :
    ∃ calls, Schedule.StepsMeet (Process.call tightSizes) (CallMeets (LeavesRoom tightSizes))
        (Process.fresh tightSizes (fun _ => 0) 0) calls ∧
      ∃ p, Schedule.run (Process.call tightSizes) (Process.fresh tightSizes (fun _ => 0) 0) calls =
        some p ∧ ¬ Recovers p.log := by
  obtain ⟨p, hfirst, hburned⟩ := burned_first
  obtain ⟨t, hmeets, hrun, hround⟩ := hburned.stops k
  have hone : 2 + UInt64.ofNat k = 1 := by
    apply UInt64.toNat_inj.mp
    rw [UInt64.toNat_add, UInt64.toNat_ofNat']
    show (2 + k % 2 ^ 64) % 2 ^ 64 = 1
    omega
  rw [hone] at hround
  obtain ⟨p', hcall, hlast⟩ := hround.last
  refine ⟨.append 5 .empty 0 :: (List.replicate k (.stopAppend 5 .empty 0 3) ++
    [.append 5 .empty 0]), ⟨by decide +kernel, ?_⟩, p', ?_, hlast⟩
  · intro p'' hp
    obtain rfl := Option.some.inj (hfirst.symm.trans hp)
    refine (Schedule.stepsMeet_append _).mpr ⟨hmeets, fun t' ht => ?_⟩
    obtain rfl := Option.some.inj (hrun.symm.trans ht)
    exact ⟨⟨by decide, hround.leavesRoom⟩, fun _ _ => trivial⟩
  · refine (Schedule.run_cons _).mpr ⟨p, hfirst, ?_⟩
    rw [Schedule.run_append _ hrun]
    exact (Schedule.run_cons _).mpr ⟨p', hcall, rfl⟩

/-- Room for a skip record is not enough: a lap may end where no entry begins, and a
position or a number may reach `2^64`. -/
theorem leavesRoom_not_enough :
    (∃ calls, Schedule.StepsMeet (Process.call oddSizes) (CallMeets (LeavesRoom oddSizes))
        (Process.fresh oddSizes (fun _ => 0) 0) calls ∧
      ∃ p, Schedule.run (Process.call oddSizes) (Process.fresh oddSizes (fun _ => 0) 0) calls =
        some p ∧ ¬ Recovers p.log) ∧
    (∃ calls, Schedule.StepsMeet (Process.call oneEntry) (CallMeets (LeavesRoom oneEntry))
        (Process.fresh oneEntry (fun _ => 0) 0) calls ∧
      ∃ p, Schedule.run (Process.call oneEntry) (Process.fresh oneEntry (fun _ => 0) 0) calls =
        some p ∧ ¬ Recovers p.log) ∧
    ∃ calls, Schedule.StepsMeet (Process.call tightSizes) (CallMeets (LeavesRoom tightSizes))
        (Process.fresh tightSizes (fun _ => 0) 0) calls ∧
      ∃ p, Schedule.run (Process.call tightSizes) (Process.fresh tightSizes (fun _ => 0) 0) calls =
        some p ∧ ¬ Recovers p.log :=
  ⟨⟨_, misses_oddSizes.not_recovers⟩,
    ⟨_, (misses_oneEntry (n := 2 ^ 59 - 1) (by omega)).not_recovers⟩,
    not_recovers_burned (k := 2 ^ 64 - 1) (by omega)⟩

end Zrtools.ShmRing

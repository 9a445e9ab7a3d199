import Zrtools.ShmRing.Headers
import Zrtools.ShmRing.Recovery

/-!
# zrtools — `Confirm` (`zrt_shm_ring.h`)

`Confirm(seq)` compares `seq` with the number of every record that it passes, and does not ask
whether the record is an entry. The other readers pass over records with the number 0.

* `ConfirmsExactly` — `confirmed_pos` goes to the end of the entry `seq`, or stays;
* `confirmsExactly_iff` — exactly then it does, on any tape;
* `confirmsExactly_of_meets` — so it is in every state that a process can get into where a lap
  that ends early leaves room for a skip record and a multiple of eight.
-/

namespace Zrtools.ShmRing

open ByteMemory SharedMemory Wal

variable {cfg : Sizes}

-- ---------------------------------------------------------------------------
-- Exactly when Confirm is exact
-- ---------------------------------------------------------------------------

/-- If `seq` is the number of an entry that is not confirmed, `Confirm(seq)` moves
`confirmed_pos` to the end of this entry; if it is the number of none, `confirmed_pos` stays
where it is. -/
def ConfirmsExactly (cfg : Sizes) (s : Memory) (confirmed live : List Segment) (seq : UInt64) :
    Prop :=
  ∃ pos, (confirmCall cfg seq).eval s = (some (), s.setWord .confirmedPos pos) ∧
    (∀ a e b, live = a ++ .entry e :: b → e.seq = seq →
      pos.toNat = total confirmed + total (a ++ [.entry e])) ∧
    ((∀ e ∈ entriesOf live, e.seq ≠ seq) → pos = s.word .confirmedPos)

/-- The tape goes on with a skip record. -/
def SkipNext (live : List Segment) : Prop := ∃ n, live.head? = some (.skip n)

section Exact

variable {s : Memory} {confirmed live : List Segment}

/-- An entry that is there is found. -/
theorem Placed.confirmsExactly_entry {e : Entry} (h : Placed cfg s confirmed live)
    (he : e ∈ entriesOf live) : ConfirmsExactly cfg s confirmed live e.seq := by
  have hfinds : ∀ a f b, live = a ++ .entry f :: b → (confirmCall cfg f.seq).eval s =
      (some (), s.setWord .confirmedPos (behind (s.word .confirmedPos) (a ++ [.entry f]))) := by
    rintro a f b rfl
    exact h.confirm_finds (.entry f) h.seq_lt
  obtain ⟨a, b, hlive⟩ := List.append_of_mem (mem_entriesOf.mp he)
  refine ⟨_, hfinds a e b hlive, ?_, fun hnone => absurd rfl (hnone e he)⟩
  intro a' e' b' hlive' hseq
  -- there is only one place where the call can end
  have hsame := (hfinds a e b hlive).symm.trans (hseq ▸ hfinds a' e' b' hlive')
  have hpos := congrArg (fun r => r.2.word Var.confirmedPos) hsame
  simp only [Shared.word_setWord_self] at hpos
  have hsplit : live = (a' ++ [.entry e']) ++ b' := by
    rw [hlive', List.append_assoc, List.singleton_append]
  rw [hsplit] at h
  rw [hpos, h.toNat_behind, total_append]

/-- Where no entry has the number, nothing may change. -/
theorem confirmsExactly_iff_stays {seq : UInt64} (hnone : ∀ e ∈ entriesOf live, e.seq ≠ seq) :
    ConfirmsExactly cfg s confirmed live seq ↔ (confirmCall cfg seq).eval s = (some (), s) := by
  refine ⟨?_, ?_⟩
  · rintro ⟨pos, hend, -, hstays⟩
    rw [hend, hstays hnone, Shared.setWord_word]
  · intro hend
    refine ⟨s.word .confirmedPos, ?_, ?_, fun _ => rfl⟩
    · rw [hend, Shared.setWord_word]
    · rintro a e b rfl hseq
      exact absurd hseq (hnone e (by simp))

/-- The number 0 is found in a skip record. -/
theorem Placed.confirm_zero_stays_iff (h : Placed cfg s confirmed live) :
    (confirmCall cfg 0).eval s = (some (), s) ↔ ¬ SkipNext live := by
  cases live with
  | nil =>
    refine iff_of_true (h.confirm_stops (a := []) (by simp) (by simp)) ?_
    rintro ⟨n, ⟨⟩⟩
  | cons seg rest =>
    cases seg with
    | skip n =>
      have hfinds := h.confirm_finds (a := []) (.skip n) (by simp)
      have hmoved := h.toNat_behind (a := [.skip n]) (b := rest)
      have hsize := (Segment.skip n).header_le_size
      have hheader : walEntryHeaderSize = 24 := rfl
      refine iff_of_false ?_ fun hnot => hnot ⟨n, rfl⟩
      intro hstays
      have hsame := hfinds.symm.trans hstays
      have hpos := congrArg (fun r => (r.2.word Var.confirmedPos).toNat) hsame
      simp only [Shared.word_setWord_self, List.nil_append] at hpos
      rw [hmoved, h.confirmedPos, total_append, total_cons] at hpos
      omega
    | entry e =>
      have hpos : e.seq ≠ 0 := h.seq_ne_zero (by simp)
      refine iff_of_true (h.confirm_stops (a := []) (by simp) ?_) ?_
      · rintro _ ⟨⟩
        exact UInt64.pos_iff_ne_zero.mpr hpos
      · rintro ⟨n, ⟨⟩⟩

/-- **`Confirm` is exact** on any tape, but for the number 0 in front of a skip record. -/
theorem Placed.confirmsExactly_iff (h : Placed cfg s confirmed live) (seq : UInt64) :
    ConfirmsExactly cfg s confirmed live seq ↔ (seq = 0 → ¬ SkipNext live) := by
  by_cases hfound : ∃ e ∈ entriesOf live, e.seq = seq
  · obtain ⟨e, he, rfl⟩ := hfound
    exact iff_of_true (h.confirmsExactly_entry he) fun hzero => absurd hzero (h.seq_ne_zero he)
  · have hnone : ∀ e ∈ entriesOf live, e.seq ≠ seq := fun e he hseq => hfound ⟨e, he, hseq⟩
    rw [confirmsExactly_iff_stays hnone]
    by_cases hzero : seq = 0
    · rw [hzero, forall_prop_of_true rfl]
      exact h.confirm_zero_stays_iff
    · refine iff_of_true ?_ fun h => absurd h hzero
      obtain ⟨a, b, rfl, hbelow, hnext⟩ := exists_split seq live
      refine h.confirm_stops hbelow fun seg hhead => ?_
      refine UInt64.lt_of_le_of_ne (hnext seg hhead) fun heq => ?_
      obtain ⟨rest, rfl⟩ := List.head?_eq_some_iff.mp hhead
      cases seg with
      | skip n => exact hzero heq
      | entry e => exact hnone e (by simp) heq.symm

end Exact

-- ---------------------------------------------------------------------------
-- Runs
-- ---------------------------------------------------------------------------

/-- What a process does with the ring: it calls a method, or it calls `Reset()`. -/
inductive Use where
  | call (c : Call)
  | reset

/-- One of these; `Reset()` begins a new tape and a new log. -/
def Process.use (cfg : Sizes) (p : Process) : Use → Option Process
  | .call c => p.call cfg c
  | .reset => some ⟨p.mapping.reset cfg, []⟩

/-- Where `Append` is called its size and the memory meet `Ok`. -/
def UseMeets (Ok : Nat → Memory → Prop) (p : Process) : Use → Prop
  | .call (.append _ data _) => Ok (entrySize data.len) p.mapping.memory
  | .call (.stopAppend _ data _ _) => Ok (entrySize data.len) p.mapping.memory
  | .call (.readNext _) => True
  | .call (.readUnconfirmed _) => True
  | .call (.confirm _) => True
  | .call (.confirmBatch _) => True
  | .reset => True

instance decidableUseMeets (Ok : Nat → Memory → Prop) [∀ n s, Decidable (Ok n s)] (p : Process) :
    (u : Use) → Decidable (UseMeets Ok p u)
  | .call (.append _ data _) => inferInstanceAs
      (Decidable (Ok (entrySize data.len) p.mapping.memory))
  | .call (.stopAppend _ data _ _) => inferInstanceAs
      (Decidable (Ok (entrySize data.len) p.mapping.memory))
  | .call (.readNext _) => isTrue trivial
  | .call (.readUnconfirmed _) => isTrue trivial
  | .call (.confirm _) => isTrue trivial
  | .call (.confirmBatch _) => isTrue trivial
  | .reset => isTrue trivial

/-- The entries on the tape are those that the log says were appended. -/
structure Recorded (cfg : Sizes) (p : Process) (confirmed live : List Segment) : Prop where
  placed : Placed cfg p.mapping.memory confirmed live
  magic : p.mapping.magic = magicNumber
  accepted : accepted p.log = entriesOf (confirmed ++ live)

section Recorded

variable {p : Process} {confirmed live segs : List Segment} {memory : Memory} {k : Nat}

theorem Blank.recorded {m : Mapping} (h : Blank m) : Recorded cfg ⟨m, []⟩ [] [] :=
  ⟨h.ledger.laid.placed, h.magic, rfl⟩

/-- The tape grew by what the log says. -/
theorem Recorded.extended {s : Memory} {records : List Record}
    (h : Recorded cfg p confirmed live) (hextended : Extended cfg k s memory confirmed live segs)
    (hrecords : records = (entriesOf segs).map Record.appended) :
    Recorded cfg (p.after memory records) confirmed (live ++ segs) where
  placed := hextended.placed
  magic := h.magic
  accepted := by
    show ShmRing.accepted (p.log ++ records) = _
    rw [accepted_append, h.accepted, hrecords, accepted_map_appended]
    simp

/-- The segments are the same, and so are the entries of the log. -/
theorem Recorded.moved {confirmed' live' : List Segment} {r : Record}
    (h : Recorded cfg p confirmed live) (hplaced : Placed cfg memory confirmed' live')
    (hsame : confirmed' ++ live' = confirmed ++ live) (hnone : ShmRing.accepted [r] = []) :
    Recorded cfg (p.after memory [r]) confirmed' live' where
  placed := hplaced
  magic := h.magic
  accepted := by
    show ShmRing.accepted (p.log ++ [r]) = _
    rw [accepted_append, h.accepted, hnone, List.append_nil, hsame]

/-- **`Append`**, also one that is stopped. -/
theorem Recorded.append {type : UInt16} {data : Payload} {now : UInt64} (accesses : Nat)
    {c : Call} {p' : Process} (h : Recorded cfg p confirmed live)
    (hc : c = .append type data now ∨ c = .stopAppend type data now accesses)
    (hok : AppendOk cfg (entrySize data.len) p.mapping.memory) (hcall : p.call cfg c = some p') :
    ∃ segs, Recorded cfg p' confirmed (live ++ segs) := by
  have hplaced : Placed cfg (p.atClock now) confirmed live := h.placed.setWord (Or.inr rfl) now
  have hok : AppendOk cfg (entrySize data.len) (p.atClock now) := hok
  have hclock : (p.atClock now).word .clock = now := Shared.word_setWord_self ..
  have hreturned : ∀ {seq memory}, Appends cfg type data (p.atClock now) seq memory →
      ∃ segs, Recorded cfg (p.after memory (appendedRecord seq now type data)) confirmed
        (live ++ segs) := by
    intro seq memory happends
    obtain ⟨segs, hextended, hput, -⟩ := hplaced.appends hok happends
    exact ⟨segs, h.extended hextended (appendedRecord_of_put hclock hput)⟩
  rcases hc with rfl | rfl
  · obtain ⟨seq, memory, hend, happends⟩ :=
      call_append type now h.placed.used_le hok.wrapsClean
    obtain rfl := Option.some.inj (hend.symm.trans hcall)
    exact hreturned happends
  · obtain ⟨records, memory, hend, hstop⟩ :=
      call_stopAppend type now h.magic h.placed.used_le hok.wrapsClean accesses
    obtain rfl := Option.some.inj (hend.symm.trans hcall)
    rcases hstop with ⟨rfl, hstopped⟩ | ⟨seq, rfl, happends⟩
    · obtain ⟨segs, hextended, hnone⟩ :=
        hplaced.stoppedIn hok (entrySize_pos _) (entrySize_le _) hstopped
      refine ⟨segs, h.extended hextended ?_⟩
      rw [hnone]
      rfl
    · exact hreturned happends

/-- **`Confirm` and `ConfirmBatch`** with any argument. -/
theorem Recorded.setConfirmed {a b : List Segment} {r : Record}
    (h : Recorded cfg p confirmed (a ++ b)) (hnone : ShmRing.accepted [r] = []) :
    Recorded cfg (p.after (p.mapping.memory.setWord .confirmedPos
      (behind (p.mapping.memory.word .confirmedPos) a)) [r]) (confirmed ++ a) b :=
  h.moved (h.placed.setConfirmed h.placed.toNat_behind) (List.append_assoc ..) hnone

end Recorded

/-- Whatever lies in the buffer, `ReadNext` changes nothing but `read_pos`. -/
theorem exists_readPos_of_loop (cfg : Sizes) (maxLen n : Nat) (s : Memory) :
    ∃ pos, ((Prog.loop (fun () => readNext cfg maxLen) n ()).eval s).2 =
      s.setWord .readPos pos := by
  induction n generalizing s with
  | zero =>
    refine ⟨s.word .readPos, ?_⟩
    rw [Shared.setWord_word]
    rfl
  | succ n ih =>
    rw [Prog.eval_loop]
    by_cases hlt : s.word .readPos < s.word .writePos
    · rw [eval_readNext _ _ hlt]
      by_cases hgood : GoodAt (s.byte ()) (offsetOf cfg (s.word .readPos))
      · rw [if_pos hgood]
        exact ⟨_, rfl⟩
      · rw [if_neg hgood]
        obtain ⟨pos, hpos⟩ := ih (s.setWord .readPos
          (nextPos cfg (s.byte ()) (s.word .readPos)))
        refine ⟨pos, ?_⟩
        rw [Shared.setWord_setWord] at hpos
        exact hpos
    · rw [eval_readNext_done _ _ hlt]
      refine ⟨s.word .readPos, ?_⟩
      rw [Shared.setWord_word]

theorem exists_readPos (cfg : Sizes) (maxLen : Nat) (s : Memory) :
    ∃ pos, ((readNextCall cfg maxLen).eval s).2 = s.setWord .readPos pos := by
  rw [readNextCall_eq]
  exact exists_readPos_of_loop ..

/-- **One step** keeps the log and the tape together. -/
theorem Recorded.use {p p' : Process} {confirmed live : List Segment} {u : Use}
    (h : Recorded cfg p confirmed live) (hok : UseMeets (AppendOk cfg) p u)
    (huse : p.use cfg u = some p') : ∃ confirmed' live', Recorded cfg p' confirmed' live' := by
  cases u with
  | reset =>
    obtain rfl := Option.some.inj huse
    exact ⟨[], [], (blank_reset cfg p.mapping).recorded⟩
  | call c =>
    cases c with
    | append type data now =>
      obtain ⟨segs, hnext⟩ := h.append 0 (Or.inl rfl) hok huse
      exact ⟨_, _, hnext⟩
    | stopAppend type data now accesses =>
      obtain ⟨segs, hnext⟩ := h.append accesses (Or.inr rfl) hok huse
      exact ⟨_, _, hnext⟩
    | readNext maxLen =>
      obtain ⟨pos, hmemory⟩ := exists_readPos cfg maxLen p.mapping.memory
      rw [Process.use, Process.call] at huse
      simp only [hmemory] at huse
      obtain ⟨r, -, rfl⟩ := Option.map_eq_some_iff.mp huse
      refine ⟨_, _, h.moved (h.placed.setWord (Or.inl rfl) pos) rfl ?_⟩
      cases r <;> rfl
    | readUnconfirmed maxCount =>
      rw [Process.use, Process.call, eval_readUnconfirmedCall h.placed.scan] at huse
      obtain rfl := Option.some.inj huse
      exact ⟨_, _, h.moved h.placed rfl rfl⟩
    | confirm seq =>
      obtain ⟨a, b, rfl, hend⟩ := h.placed.confirm seq
      rw [Process.use, Process.call, hend] at huse
      obtain rfl := Option.some.inj huse
      exact ⟨_, _, h.setConfirmed rfl⟩
    | confirmBatch count =>
      obtain ⟨a, b, rfl, hend⟩ := h.placed.confirmBatch count
      rw [Process.use, Process.call, hend] at huse
      obtain rfl := Option.some.inj huse
      exact ⟨_, _, h.setConfirmed rfl⟩

/-- **A whole run.** -/
theorem exists_recorded {beyond : Mem} {now : UInt64} {uses : List Use} {p : Process}
    (hok : Schedule.StepsMeet (Process.use cfg) (UseMeets (AppendOk cfg))
      (Process.fresh cfg beyond now) uses)
    (hrun : Schedule.run (Process.use cfg) (Process.fresh cfg beyond now) uses = some p) :
    ∃ confirmed live, Recorded cfg p confirmed live := by
  refine Schedule.run_invariant_of_meets (Process.use cfg)
    (fun p => ∃ confirmed live, Recorded cfg p confirmed live) ?_ ?_ hok hrun
  · rintro p u p' ⟨confirmed, live, hrecorded⟩ hmeets huse
    exact hrecorded.use hmeets huse
  · exact ⟨[], [], (blank_reset cfg (.zeroFilled cfg beyond now)).recorded⟩

/-- **`Confirm` is exact** in every such run, but for the number 0 in front of a skip record. -/
theorem confirmsExactly_of_meets {beyond : Mem} {now : UInt64} {uses : List Use} {p : Process}
    (hok : Schedule.StepsMeet (Process.use cfg) (UseMeets (AppendOk cfg))
      (Process.fresh cfg beyond now) uses)
    (hrun : Schedule.run (Process.use cfg) (Process.fresh cfg beyond now) uses = some p) :
    ∃ confirmed live, Recorded cfg p confirmed live ∧ ∀ seq,
      ConfirmsExactly cfg p.mapping.memory confirmed live seq ↔ (seq = 0 → ¬ SkipNext live) := by
  obtain ⟨confirmed, live, hrecorded⟩ := exists_recorded hok hrun
  exact ⟨confirmed, live, hrecorded, fun seq => hrecorded.placed.confirmsExactly_iff seq⟩

/-- Two entries of 24 bytes are confirmed, and the third one of 32 bytes goes to the next lap:
the skip record at the end of the lap is next. -/
def lapEnd : List Use :=
  [.call (.append 5 .empty 0), .call (.append 0 .empty 0), .call (.confirm 2),
    .call (.append 5 eightBytes 0), .call (.readNext 8)]

theorem meets_lapEnd : Schedule.StepsMeet (Process.use tightSizes)
    (UseMeets (AppendOk tightSizes)) (Process.fresh tightSizes (fun _ => 0) 0) lapEnd := by
  decide +kernel

theorem confirmsExactly_lapEnd :
    ∃ p, Schedule.run (Process.use tightSizes) (Process.fresh tightSizes (fun _ => 0) 0) lapEnd =
        some p ∧
      ∃ confirmed live, Recorded tightSizes p confirmed live ∧ ∀ seq,
        ConfirmsExactly tightSizes p.mapping.memory confirmed live seq ↔
          (seq = 0 → ¬ SkipNext live) := by
  have hreturns : (Schedule.run (Process.use tightSizes)
      (Process.fresh tightSizes (fun _ => 0) 0) lapEnd).isSome := by
    decide +kernel
  obtain ⟨p, hrun⟩ := Option.isSome_iff_exists.mp hreturns
  exact ⟨p, hrun, confirmsExactly_of_meets meets_lapEnd hrun⟩

/-- `Confirm(0)` then moves `confirmed_pos` to the next lap. -/
theorem not_confirmsExactly_lapEnd :
    Schedule.StepsMeet (Process.use tightSizes) (UseMeets (LeavesRoom tightSizes))
        (Process.fresh tightSizes (fun _ => 0) 0) lapEnd ∧
      ∃ p, Schedule.run (Process.use tightSizes) (Process.fresh tightSizes (fun _ => 0) 0) lapEnd =
          some p ∧
        ∃ confirmed live, Recorded tightSizes p confirmed live ∧
          ¬ ConfirmsExactly tightSizes p.mapping.memory confirmed live 0 := by
  have hmoves : ∃ p, p ∈ Schedule.run (Process.use tightSizes)
      (Process.fresh tightSizes (fun _ => 0) 0) lapEnd ∧
        ((confirmCall tightSizes 0).eval p.mapping.memory).2.word .confirmedPos ≠
          p.mapping.memory.word .confirmedPos := by
    decide +kernel
  obtain ⟨p, hrun, hmoved⟩ := hmoves
  obtain ⟨confirmed, live, hrecorded⟩ := exists_recorded meets_lapEnd hrun
  refine ⟨by decide +kernel, p, hrun, confirmed, live, hrecorded, ?_⟩
  rintro ⟨pos, hend, -, hstays⟩
  have hnone : ∀ e ∈ entriesOf live, e.seq ≠ 0 := fun e he => hrecorded.placed.seq_ne_zero he
  refine hmoved ?_
  rw [hend, hstays hnone, Shared.setWord_word]

end Zrtools.ShmRing

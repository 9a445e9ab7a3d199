import Zrtools.Wal.Truncate
import Zrtools.Lib.Schedule

/-!
# zrtools — When the file log flushes (`zrt_wal_file.h`)

`Append` flushes whenever the entry count is a multiple of the sync interval, `Sync` flushes
at any count, and the interval may be set at any time. A run of these calls on a writer after
`Init` is looked at from outside: which calls appended an entry, which left nothing unflushed
behind, which changed the interval.

* `WalFileWriter.Cadence.step` — the count since the last flush stays below the interval;
* `cadence_iff` — appends are possible and on time all along a run exactly if none of them
  finds the interval zero.
-/

namespace Zrtools.Wal

-- ---------------------------------------------------------------------------
-- Calls and what they show
-- ---------------------------------------------------------------------------

/-- The calls on an open writer. -/
inductive WriterCall where
  | setSyncInterval (interval : UInt64)
  | append (type : UInt16) (data : Payload) (now : UInt64)
  | sync

/-- One call; a division by zero ends the run. -/
def WalFileWriter.step (w : WalFileWriter) : WriterCall → Option WalFileWriter
  | .setSyncInterval interval => some (w.setSyncInterval interval)
  | .append type data now => (w.append type data now).map Prod.snd
  | .sync => some w.sync

/-- What a run shows, one after the other. -/
inductive WriterEvent where
  | appended
  | flushed
  | intervalChanged
  deriving DecidableEq

/-- Everything handed to the stream is known to have reached the file. -/
def OStream.AllFlushed (out : OStream) : Prop := out.flushed = out.written.length

instance (out : OStream) : Decidable out.AllFlushed := inferInstanceAs (Decidable (_ = _))

/-- What a call shows. An append has flushed if nothing is left to flush after it. -/
def WalFileWriter.events (w : WalFileWriter) : WriterCall → List WriterEvent
  | .setSyncInterval interval => if interval = w.syncInterval then [] else [.intervalChanged]
  | .append type data now =>
    match w.append type data now with
    | some (_, { file := some out, .. }) =>
      if out.AllFlushed then [.appended, .flushed] else [.appended]
    | _ => []
  | .sync => if w.file.isSome then [.flushed] else []

/-- What was shown since the last flush, or since the file was created, the latest first. -/
def sinceFlush (past : List WriterEvent) : List WriterEvent :=
  past.reverse.takeWhile (· ≠ .flushed)

@[simp] theorem sinceFlush_nil : sinceFlush [] = [] := rfl

@[simp] theorem sinceFlush_flushed (past : List WriterEvent) :
    sinceFlush (past ++ [.flushed]) = [] := by
  simp [sinceFlush]

theorem sinceFlush_append_of_ne (past : List WriterEvent) {e : WriterEvent} (h : e ≠ .flushed) :
    sinceFlush (past ++ [e]) = e :: sinceFlush past := by
  simp [sinceFlush, h]

/-- How many entries were appended since the last flush. -/
def appendedSince (past : List WriterEvent) : Nat := (sinceFlush past).count .appended

/-- The sync interval is the one it was at the last flush, and was so all the time. -/
def IntervalKept (past : List WriterEvent) : Prop := .intervalChanged ∉ sinceFlush past

/-- The flush cadence: with the interval unchanged, fewer entries than the interval says are
waiting for a flush. -/
def OnTime (w : WalFileWriter) (past : List WriterEvent) : Prop :=
  IntervalKept past → appendedSince past < max w.syncInterval.toNat 1

/-- An append needs an interval to divide by. -/
def IntervalSet (w : WalFileWriter) : WriterCall → Prop
  | .append _ _ _ => w.syncInterval ≠ 0
  | .setSyncInterval _ => True
  | .sync => True

-- ---------------------------------------------------------------------------
-- The invariant
-- ---------------------------------------------------------------------------

/-- The file is open, and with the interval unchanged the entries that wait for a flush were
all counted since the last multiple of the interval. -/
structure WalFileWriter.Cadence (w : WalFileWriter) (past : List WriterEvent) : Prop where
  isOpen : ∃ out, w.file = some out ∧ out.flushed ≤ out.written.length
  counted : IntervalKept past → appendedSince past = 0 ∨
    w.syncInterval ≠ 0 ∧ appendedSince past ≤ w.entryCount.toNat % w.syncInterval.toNat

theorem WalFileWriter.Cadence.onTime {w : WalFileWriter} {past : List WriterEvent}
    (h : w.Cadence past) : OnTime w past := by
  intro hkept
  obtain hzero | ⟨hset, hle⟩ := h.counted hkept
  · rw [hzero]
    exact Nat.lt_of_lt_of_le Nat.zero_lt_one (Nat.le_max_right _ _)
  · have hpos : 0 < w.syncInterval.toNat :=
      Nat.pos_of_ne_zero fun hzero => hset (UInt64.toNat_inj.mp hzero)
    have hmod := Nat.mod_lt w.entryCount.toNat hpos
    exact Nat.lt_of_lt_of_le (Nat.lt_of_le_of_lt hle hmod) (Nat.le_max_left _ _)

/-- Up to the next multiple, the remainder counts along. -/
theorem succ_mod_of_ne_zero {n e : Nat} (hn : 0 < n) (h : (e + 1) % n ≠ 0) :
    (e + 1) % n = e % n + 1 := by
  have hlt := Nat.mod_lt e hn
  rw [← Nat.mod_add_mod] at h ⊢
  rcases Nat.lt_or_ge (e % n + 1) n with hnext | hend
  · exact Nat.mod_eq_of_lt hnext
  · have heq : e % n + 1 = n := by omega
    rw [heq, Nat.mod_self] at h
    exact absurd rfl h

/-- The counter of entries does not wrap on the way: zero is a multiple too. -/
theorem toNat_succ_mod {count interval : UInt64} (hset : interval ≠ 0)
    (hne : (count + 1) % interval ≠ 0) :
    (count + 1).toNat % interval.toNat = count.toNat % interval.toNat + 1 := by
  have hpos : 0 < interval.toNat :=
    Nat.pos_of_ne_zero fun hzero => hset (UInt64.toNat_inj.mp hzero)
  have hmod : (count + 1).toNat % interval.toNat ≠ 0 := by
    intro hzero
    apply hne
    apply UInt64.toNat_inj.mp
    rw [UInt64.toNat_mod, hzero]
    rfl
  have hword := count.toNat_lt
  have hsucc : (count + 1).toNat = (count.toNat + 1) % 2 ^ 64 := UInt64.toNat_add ..
  rcases Nat.lt_or_ge (count.toNat + 1) (2 ^ 64) with hlt | hge
  · rw [Nat.mod_eq_of_lt hlt] at hsucc
    rw [hsucc] at hmod ⊢
    exact succ_mod_of_ne_zero hpos hmod
  · have hwrap : (count + 1).toNat = 0 := by
      rw [hsucc]
      omega
    rw [hwrap, Nat.zero_mod] at hmod
    exact absurd rfl hmod

/-- The stream with one more entry, before the flush. -/
def WalFileWriter.withEntry (w : WalFileWriter) (out : OStream) (type : UInt16) (data : Payload)
    (now : UInt64) : OStream :=
  let out := out.write (w.entryHeader type data now).toBytes
  if 0 < data.len then out.write data.bytes else out

/-- The header alone is something to flush. -/
theorem WalFileWriter.flushed_lt_withEntry {w : WalFileWriter} {out : OStream}
    (hle : out.flushed ≤ out.written.length) (type : UInt16) (data : Payload) (now : UInt64) :
    (w.withEntry out type data now).flushed < (w.withEntry out type data now).written.length := by
  unfold withEntry
  dsimp only
  split
  · simp only [OStream.write, List.length_append, WalEntryHeader.length_toBytes,
      walEntryHeaderSize]
    omega
  · simp only [OStream.write, List.length_append, WalEntryHeader.length_toBytes,
      walEntryHeaderSize]
    omega

theorem WalFileWriter.append_eq {w : WalFileWriter} {out : OStream} (hfile : w.file = some out)
    (hset : w.syncInterval ≠ 0) (type : UInt16) (data : Payload) (now : UInt64) :
    w.append type data now = some (w.currentSeq + 1,
      { w with
        currentSeq := w.currentSeq + 1
        entryCount := w.entryCount + 1
        file := some (if (w.entryCount + 1) % w.syncInterval = 0
          then (w.withEntry out type data now).flush else w.withEntry out type data now) }) := by
  simp only [append, hfile, if_neg hset]
  rfl

/-- What an append shows. -/
theorem WalFileWriter.events_append {w : WalFileWriter} {out : OStream}
    (hfile : w.file = some out) (hle : out.flushed ≤ out.written.length)
    (hset : w.syncInterval ≠ 0) (type : UInt16) (data : Payload) (now : UInt64) :
    w.events (.append type data now) =
      if (w.entryCount + 1) % w.syncInterval = 0 then [.appended, .flushed] else [.appended] := by
  rw [events, w.append_eq hfile hset type data now]
  dsimp only
  by_cases hmod : (w.entryCount + 1) % w.syncInterval = 0
  · rw [if_pos hmod, if_pos hmod]
    exact if_pos rfl
  · rw [if_neg hmod, if_neg hmod]
    exact if_neg (Nat.ne_of_lt (w.flushed_lt_withEntry hle type data now))

-- ---------------------------------------------------------------------------
-- One call
-- ---------------------------------------------------------------------------

theorem appendedSince_concat (past : List WriterEvent) :
    appendedSince (past ++ [.appended]) = appendedSince past + 1 := by
  rw [appendedSince, sinceFlush_append_of_ne past (by decide), List.count_cons_self, appendedSince]

theorem intervalKept_concat {past : List WriterEvent} :
    IntervalKept (past ++ [.appended]) ↔ IntervalKept past := by
  rw [IntervalKept, sinceFlush_append_of_ne past (by decide), IntervalKept]
  simp

theorem appendedSince_flushed (past : List WriterEvent) :
    appendedSince (past ++ [.flushed]) = 0 := by
  simp [appendedSince]

theorem not_intervalKept_concat (past : List WriterEvent) :
    ¬IntervalKept (past ++ [.intervalChanged]) := by
  rw [IntervalKept, sinceFlush_append_of_ne past (by decide)]
  simp

/-- **An append keeps the cadence**: it flushes at the multiples, and elsewhere the remainder
grows with the number of entries. -/
theorem WalFileWriter.Cadence.append {w : WalFileWriter} {past : List WriterEvent}
    (h : w.Cadence past) (hset : w.syncInterval ≠ 0) (type : UInt16) (data : Payload)
    (now : UInt64) :
    ∃ w', w.step (.append type data now) = some w' ∧
      w'.Cadence (past ++ w.events (.append type data now)) := by
  obtain ⟨out, hfile, hle⟩ := h.isOpen
  have hunflushed := w.flushed_lt_withEntry hle type data now
  refine ⟨_, by rw [step, w.append_eq hfile hset]; rfl, ?_⟩
  rw [w.events_append hfile hle hset type data now]
  by_cases hmod : (w.entryCount + 1) % w.syncInterval = 0
  · rw [if_pos hmod, if_pos hmod]
    refine ⟨⟨_, rfl, Nat.le_refl _⟩, fun _ => Or.inl ?_⟩
    rw [show past ++ [WriterEvent.appended, .flushed] = (past ++ [.appended]) ++ [.flushed] by simp]
    exact appendedSince_flushed _
  · rw [if_neg hmod, if_neg hmod]
    refine ⟨⟨_, rfl, Nat.le_of_lt hunflushed⟩, fun hkept => Or.inr ⟨hset, ?_⟩⟩
    show _ ≤ (w.entryCount + 1).toNat % w.syncInterval.toNat
    rw [appendedSince_concat, toNat_succ_mod hset hmod]
    obtain hzero | ⟨-, hcount⟩ := h.counted (intervalKept_concat.mp hkept)
    · omega
    · omega

theorem WalFileWriter.Cadence.sync {w : WalFileWriter} {past : List WriterEvent}
    (h : w.Cadence past) : w.sync.Cadence (past ++ w.events .sync) := by
  obtain ⟨out, hfile, -⟩ := h.isOpen
  have hevents : w.events .sync = [.flushed] := by
    rw [events, hfile]
    rfl
  rw [hevents]
  refine ⟨⟨out.flush, ?_, Nat.le_refl _⟩, fun _ => Or.inl (appendedSince_flushed past)⟩
  rw [WalFileWriter.sync, hfile]
  rfl

theorem WalFileWriter.Cadence.setSyncInterval {w : WalFileWriter} {past : List WriterEvent}
    (h : w.Cadence past) (interval : UInt64) :
    (w.setSyncInterval interval).Cadence (past ++ w.events (.setSyncInterval interval)) := by
  rw [events]
  by_cases hsame : interval = w.syncInterval
  · rw [if_pos hsame, List.append_nil, hsame]
    exact h
  · rw [if_neg hsame]
    exact ⟨h.isOpen, fun hkept => absurd hkept (not_intervalKept_concat past)⟩

/-- **Every call keeps the cadence**, and it is possible if it is no append with interval
zero. -/
theorem WalFileWriter.Cadence.step {w : WalFileWriter} {past : List WriterEvent}
    (h : w.Cadence past) {call : WriterCall} (hset : IntervalSet w call) :
    ∃ w', w.step call = some w' ∧ w'.Cadence (past ++ w.events call) := by
  cases call with
  | setSyncInterval interval => exact ⟨_, rfl, h.setSyncInterval interval⟩
  | append type data now => exact h.append hset type data now
  | sync => exact ⟨_, rfl, h.sync⟩

/-- An append with interval zero is the division by zero. -/
theorem WalFileWriter.Cadence.step_eq_none {w : WalFileWriter} {past : List WriterEvent}
    (h : w.Cadence past) {call : WriterCall} (hzero : ¬IntervalSet w call) :
    w.step call = none := by
  obtain ⟨out, hfile, -⟩ := h.isOpen
  cases call with
  | setSyncInterval interval => exact absurd trivial hzero
  | append type data now =>
    have hint : w.syncInterval = 0 := not_not.mp hzero
    simp only [WalFileWriter.step, WalFileWriter.append, hfile, if_pos hint, Option.map_none]
  | sync => exact absurd trivial hzero

theorem WalFileWriter.Cadence.of_step {w w' : WalFileWriter} {past : List WriterEvent}
    (h : w.Cadence past) {call : WriterCall} (hset : IntervalSet w call)
    (hstep : w.step call = some w') : w'.Cadence (past ++ w.events call) := by
  obtain ⟨v, hv, hcadence⟩ := h.step hset
  obtain rfl := Option.some.inj (hv.symm.trans hstep)
  exact hcadence

-- ---------------------------------------------------------------------------
-- Runs
-- ---------------------------------------------------------------------------

/-- A writer after `Init`, with an interval set before. -/
def WalFileWriter.start (filePrefix : List Char) (listing : Directory) (now interval : UInt64) :
    WalFileWriter :=
  (WalFileWriter.init filePrefix listing now).setSyncInterval interval

theorem WalFileWriter.cadence_start (filePrefix : List Char) (listing : Directory)
    (now interval : UInt64) : (WalFileWriter.start filePrefix listing now interval).Cadence [] where
  isOpen := ⟨_, rfl, Nat.zero_le _⟩
  counted := fun _ => Or.inl rfl

section Runs

variable (filePrefix : List Char) (listing : Directory) (now interval : UInt64)

/-- What a run of calls after `Init` shows. -/
def WalFileWriter.shown (calls : List WriterCall) : List WriterEvent :=
  Schedule.outputs WalFileWriter.step WalFileWriter.events
    (.start filePrefix listing now interval) calls

/-- The cadence in a run that is possible. -/
theorem onTime_iff_of_run {calls : List WriterCall} {w : WalFileWriter}
    (hrun : Schedule.run WalFileWriter.step (.start filePrefix listing now interval) calls =
      some w) :
    (∀ front rest v, calls = front ++ rest →
      Schedule.run WalFileWriter.step (.start filePrefix listing now interval) front = some v →
      OnTime v (WalFileWriter.shown filePrefix listing now interval front)) ↔
      Schedule.StepsMeet WalFileWriter.step IntervalSet (.start filePrefix listing now interval)
        calls := by
  refine Schedule.forall_prefix_iff_stepsMeet _ WalFileWriter.Cadence OnTime ?_ ?_ ?_
    (WalFileWriter.cadence_start filePrefix listing now interval) hrun
  · exact fun _ _ h => h.onTime
  · exact fun _ _ _ _ h hset hstep => h.of_step hset hstep
  · intro v call v' past h hzero hstep
    rw [h.step_eq_none hzero] at hstep
    cases hstep

/-- **When appends are possible and flush in time**: in a run of these calls no append divides by
zero and the cadence is kept all along exactly if the interval is not zero at any append. -/
theorem cadence_iff (calls : List WriterCall) :
    ((∃ w, Schedule.run WalFileWriter.step (.start filePrefix listing now interval) calls =
        some w) ∧
      ∀ front rest w, calls = front ++ rest →
        Schedule.run WalFileWriter.step (.start filePrefix listing now interval) front = some w →
        OnTime w (WalFileWriter.shown filePrefix listing now interval front)) ↔
      Schedule.StepsMeet WalFileWriter.step IntervalSet (.start filePrefix listing now interval)
        calls := by
  refine ⟨?_, ?_⟩
  · rintro ⟨⟨w, hrun⟩, hontime⟩
    exact (onTime_iff_of_run filePrefix listing now interval hrun).mp hontime
  · intro hmeets
    obtain ⟨w, hrun, -⟩ := Schedule.exists_run_of_meets WalFileWriter.step
      (fun w => ∃ past, w.Cadence past)
      (fun _ _ ⟨_, h⟩ hset => (h.step hset).imp fun _ hstep => ⟨hstep.1, _, hstep.2⟩)
      ⟨[], WalFileWriter.cadence_start filePrefix listing now interval⟩ hmeets
    exact ⟨⟨w, hrun⟩, (onTime_iff_of_run filePrefix listing now interval hrun).mpr hmeets⟩

end Runs

/-- An interval of zero, and the first append divides by it. -/
theorem not_cadence_zero :
    Schedule.run WalFileWriter.step (.start "wal".toList [] 1700 100)
      [.setSyncInterval 0, .append 1 ⟨[7], by decide⟩ 1800] = none := by
  rfl

end Zrtools.Wal

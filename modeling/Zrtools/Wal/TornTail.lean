import Zrtools.Wal.Sessions

/-!
# zrtools — the torn tail of a WAL file

A crash leaves some first bytes of the file a session was writing. `ReadAfter`
checks the stream after it has read a header, and not after it has read the
payload behind it, so an entry whose payload was cut is still handed out, with
zeros in place of the bytes that were lost.

* `readAfter_cut` — what `ReadAfter(0)` returns from any cut of a session's file;
* `readAfter_cut_eq_complete_iff` — it returns exactly the whole entries iff no
  payload was cut (and no number wrapped to the end mark).
-/

namespace Zrtools.Wal

/-- What a session has written after `Init` and any calls. -/
theorem session_logs {filePrefix : List Char} {s s' : LogDir} {listing : Directory} {now : UInt64}
    {acts : List Action} (hcalls : ∀ a ∈ acts, a.isCall = true)
    (hrun : Schedule.run (LogDir.step filePrefix) s (.init listing now :: acts) = some s') :
    ∃ w n, s'.writer = some w ∧
      w.Logs filePrefix n (s.entriesOf filePrefix (.init listing now :: acts)) := by
  obtain ⟨t, hinit, hrest⟩ := (Schedule.run_cons _).mp hrun
  -- the state right after `Init`
  have hopen : t.writer = some (WalFileWriter.init filePrefix listing now) := by
    rw [LogDir.step] at hinit
    split at hinit
    · obtain rfl := Option.some.inj hinit
      rfl
    · simp at hinit
  have hentries : s.entriesOf filePrefix (.init listing now :: acts) =
      [] ++ t.entriesOf filePrefix acts := by
    rw [LogDir.entriesOf, Schedule.outputs, hinit]
    rfl
  rw [hentries]
  -- every call keeps the log in step with what was appended
  refine Schedule.run_invariant_outputs (LogDir.step filePrefix)
    (fun s past => ∃ w n, s.writer = some w ∧ w.Logs filePrefix n past) ?_ ?_
    (Schedule.stepsMeet_of_forall _ (fun a ha _ => hcalls a ha) t) hrest
  · rintro u a u' past ⟨w, n, hw, hlogs⟩ hcall hstep
    obtain ⟨w', rfl, hlogs'⟩ := LogDir.step_call hw hlogs hcall hstep
    exact ⟨w', n, rfl, hlogs'⟩
  · exact ⟨_, _, hopen, WalFileWriter.logs_init filePrefix listing now⟩

/-- `ReadAfter(0)` on a directory that holds one WAL file. -/
theorem readAfter_singleton (filePrefix : List Char) (n : UInt64) (content : Bytes) :
    readAfter [(walFileName filePrefix n, content)] 0 0 = entriesAfter 0 (fileEntries content) := by
  rw [readAfter_eq, sortedWalFiles, List.filter_singleton, isWalFile_walFileName]
  simp [limit]

/-- **What `ReadAfter(0)` returns from a cut of a session's file**: the whole
entries, and after them the one whose payload was cut. -/
theorem readAfter_cut {filePrefix : List Char} {w : WalFileWriter} {n : UInt64} {es : List Entry}
    (h : w.Logs filePrefix n es) {out : OStream} (hout : w.file = some out) (k : Nat) :
    readAfter [(w.currentFile, out.written.take k)] 0 0 =
      (walFraming.complete (k - walFileHeaderSize) es ++
        (walFraming.torn (k - walFileHeaderSize) es).toList).takeWhile
          (fun e => !(e.1.seq == 0)) := by
  obtain ⟨header, out', hfile, hcur, -, hwritten⟩ := h.written
  obtain rfl : out' = out := Option.some.inj (hfile.symm.trans hout)
  rw [h.named, readAfter_singleton, hwritten, fileEntries_cut hcur h.framed, entriesAfter,
    List.filter_eq_self]
  -- what the loop has let through is above `after_seq` = 0
  intro e he
  have hne : e.1.seq ≠ 0 := by
    simpa using List.mem_takeWhile_imp he
  rw [decide_eq_true_iff, UInt64.lt_iff_toNat_lt]
  have hpos : e.1.seq.toNat ≠ 0 := fun hzero => hne (UInt64.toNat_inj.mp hzero)
  show 0 < e.1.seq.toNat
  omega

/-- **Torn tails.** After any session, cut anywhere, `ReadAfter(0)` returns exactly
the entries that are wholly inside iff no entry was cut inside its payload,
where a seq of 0 (the counter wrapped) counts as the end of the file. -/
theorem readAfter_cut_eq_complete_iff {filePrefix : List Char} {s s' : LogDir}
    {listing : Directory} {now : UInt64} {acts : List Action}
    (hcalls : ∀ a ∈ acts, a.isCall = true)
    (hrun : Schedule.run (LogDir.step filePrefix) s (.init listing now :: acts) = some s')
    {w : WalFileWriter} (hw : s'.writer = some w) {out : OStream} (hout : w.file = some out)
    (k : Nat) :
    readAfter [(w.currentFile, out.written.take k)] 0 0 =
        walFraming.complete (k - walFileHeaderSize)
          (s.entriesOf filePrefix (.init listing now :: acts)) ↔
      (∀ e ∈ walFraming.complete (k - walFileHeaderSize)
          (s.entriesOf filePrefix (.init listing now :: acts)), e.1.seq ≠ 0) ∧
        ∀ e ∈ walFraming.torn (k - walFileHeaderSize)
          (s.entriesOf filePrefix (.init listing now :: acts)), e.1.seq = 0 := by
  obtain ⟨w', n, hw', hlogs⟩ := session_logs hcalls hrun
  obtain rfl : w' = w := Option.some.inj (hw'.symm.trans hw)
  rw [readAfter_cut hlogs hout, Framing.takeWhile_append_toList_eq_left_iff]
  simp

/-- One append of the payload byte 7 in a fresh directory. -/
def oneByteSession : List Action := [.init [] 0, .append 5 ⟨[7], by decide⟩ 0]

/-- With nothing cut off the entry comes back whole. -/
theorem readAfter_oneByteSession : ∃ s' w out,
    Schedule.run (LogDir.step defaultPrefix) LogDir.empty oneByteSession = some s' ∧
      s'.writer = some w ∧ w.file = some out ∧
      (readAfter [(w.currentFile, out.written.take 89)] 0 0 =
          walFraming.complete (89 - walFileHeaderSize)
            (LogDir.empty.entriesOf defaultPrefix oneByteSession) ↔
        (∀ e ∈ walFraming.complete (89 - walFileHeaderSize)
            (LogDir.empty.entriesOf defaultPrefix oneByteSession), e.1.seq ≠ 0) ∧
          ∀ e ∈ walFraming.torn (89 - walFileHeaderSize)
            (LogDir.empty.entriesOf defaultPrefix oneByteSession), e.1.seq = 0) :=
  ⟨_, _, _, rfl, rfl, rfl,
    readAfter_cut_eq_complete_iff (by simp [Action.isCall]) rfl rfl rfl 89⟩

/-- Cut right before its only payload byte, the entry comes back all the same, with
a zero byte for a payload. -/
theorem readAfter_lost_payload : ∃ s' w out,
    Schedule.run (LogDir.step defaultPrefix) LogDir.empty oneByteSession = some s' ∧
      s'.writer = some w ∧ w.file = some out ∧
      walFraming.complete (88 - walFileHeaderSize)
        (LogDir.empty.entriesOf defaultPrefix oneByteSession) = [] ∧
      (readAfter [(w.currentFile, out.written.take 88)] 0 0).map Prod.snd = [[0]] :=
  ⟨_, _, _, rfl, rfl, rfl, by decide +kernel, by decide +kernel⟩

end Zrtools.Wal

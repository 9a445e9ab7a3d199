import Zrtools.ShmRing.Persistence

/-!
# zrtools — nothing is lost between the ring and the files

A session of the persister goes on with what the ring held unconfirmed when it was started, so
what one session did not get to the disk the next one writes again. This needs `Sync` before
`Confirm`, without which a crash takes the entries since the last flush along, and at each start
files from which the scan takes the right number.

* `Down`, `Up` — the invariant, without and with a persister;
* `nothing_lost_of_synced` — what was appended is in the files or not confirmed;
* `lost_le_of_run` — without `Sync` a crash loses less than a hundred entries;
* `not_held_unsynced` — and it loses some;
* `not_held_truncated` — and so does a start from files that mislead the scan, `Sync` or not;
* `drains_of_synced` — a persister that is started again gets everything into the files.
-/

namespace Zrtools.ShmRing

open ByteMemory SharedMemory Wal
open scoped List

variable {cfg : Sizes}

-- ---------------------------------------------------------------------------
-- Ring and files
-- ---------------------------------------------------------------------------

/-- A stretch stays one when more is appended. -/
theorem Stretches.mono {log log' : List Record} {dir : Directory} (h : Stretches log dir)
    (hlog : contents (accepted log) <+: contents (accepted log')) : Stretches log' dir := by
  intro f hf
  obtain ⟨whole, torn, hfile, hstretch⟩ := h f hf
  exact ⟨whole, torn, hfile, hstretch.trans hlog.isInfix⟩

/-- No persister runs: what was confirmed is on the disk, but for `lost`. -/
structure Down (careful : Prop) (cfg : Sizes) (s : Persistence)
    (lost : List (UInt16 × List UInt8)) (confirmed live : List Segment) : Prop where
  writer : s.files.writer = none
  ordered : Ordered s.files.dir
  reading : Reading cfg s confirmed live [] [] (entriesOf live)
  kept : contents (entriesOf confirmed) <+~ onDisk s.files.dir ++ lost
  stretches : Stretches s.ring.log s.files.dir
  spared : careful → lost = []

/-- A persister runs. Its file goes on with what was not confirmed when it was started; `old` was
confirmed by then, and `k` entries of the file are flushed. -/
structure Up (careful : Prop) (cfg : Sizes) (s : Persistence) (lost : List (UInt16 × List UInt8))
    (confirmed live : List Segment) (written ahead rest : List Entry) (w : WalFileWriter)
    (closed : Directory) (n : UInt64) (es : List Wal.Entry) (old : List (UInt16 × List UInt8))
    (k : Nat) : Prop where
  session : s.files.InSession w closed n es
  reading : Reading cfg s confirmed live written ahead rest
  kept : old <+~ onDisk closed ++ lost
  sent : contents (entriesOf confirmed ++ written) = old ++ es.map content
  flushed : Flushed w es k
  stretches : Stretches s.ring.log closed
  spared : careful → lost = [] ∧ (entriesOf confirmed).length ≤ old.length + k

section Down

variable {careful : Prop} {s : Persistence} {lost : List (UInt16 × List UInt8)}
  {confirmed live : List Segment}

/-- The log grows with the tape. -/
theorem contents_prefix_grown {ring ring' : Process} {segs : List Segment}
    (h : Ledger cfg ring confirmed live) (hnext : Ledger cfg ring' confirmed (live ++ segs)) :
    contents (accepted ring.log) <+: contents (accepted ring'.log) := by
  rw [h.accepted, hnext.accepted, ← List.append_assoc, entriesOf_append (confirmed ++ live)]
  exact (List.prefix_append ..).map _

theorem Down.grow {ring : Process} {segs : List Segment}
    (h : Down careful cfg s lost confirmed live)
    (hnext : Ledger cfg ring confirmed (live ++ segs)) :
    Down careful cfg { s with ring := ring } lost confirmed (live ++ segs) where
  writer := h.writer
  ordered := h.ordered
  reading := by
    rw [entriesOf_append]
    exact h.reading.grow hnext
  kept := h.kept
  stretches := h.stretches.mono (contents_prefix_grown h.reading.ledger hnext)
  spared := h.spared

/-- **`Init`** replaces no file that has an entry. -/
theorem Down.init {files : LogDir} {listing : Directory} {now : UInt64}
    (h : Down careful cfg s lost confirmed live) (hok : ActionOk s.files (.init listing now))
    (hstep : LogDir.step defaultPrefix s.files (.init listing now) = some files) :
    ∃ w closed, Up careful cfg { s with files := files } lost confirmed live [] [] (entriesOf live)
      w closed (WalFileWriter.scanMaxSeq listing + 1) [] (contents (entriesOf confirmed)) 0 := by
  obtain ⟨-, hperm, -⟩ := LogDir.step_init hstep
  have hsession := LogDir.inSession_init h.ordered hok.1 hok.2 hstep
  have hsafe := (restartSafe_init h.ordered hperm hok.1 hok.2 now).2
  refine ⟨.init defaultPrefix listing now,
    s.files.dir.filter fun f =>
      f.1 ≠ walFileName defaultPrefix (WalFileWriter.scanMaxSeq listing + 1), ?_⟩
  constructor
  case session => exact hsession
  case reading => exact h.reading.files files
  case kept =>
    rw [onDisk_filter]
    · exact h.kept
    · intro f hf hname
      have hsame : f.1 = walFileName defaultPrefix (WalFileWriter.scanMaxSeq listing + 1) := by
        simpa using hname
      exact hsafe f hf hsame
  case sent => rw [List.append_nil, List.map_nil, List.append_nil]
  case flushed =>
    obtain ⟨-, out, hfile, -⟩ := hsession.logs.written
    exact ⟨Nat.le_refl _, Nat.le_refl _, out, hfile, Or.inl rfl⟩
  case stretches => exact fun f hf => h.stretches f (List.mem_of_mem_filter hf)
  case spared =>
    intro hcareful
    refine ⟨h.spared hcareful, ?_⟩
    rw [length_contents]
    exact Nat.le_refl _

end Down

section Up

variable {careful : Prop} {s s' : Persistence} {lost old : List (UInt16 × List UInt8)}
  {confirmed live : List Segment} {written ahead rest : List Entry} {w : WalFileWriter}
  {closed : Directory} {n : UInt64} {es : List Wal.Entry} {k : Nat}

theorem Up.grow {ring : Process} {segs : List Segment}
    (h : Up careful cfg s lost confirmed live written ahead rest w closed n es old k)
    (hnext : Ledger cfg ring confirmed (live ++ segs)) :
    Up careful cfg { s with ring := ring } lost confirmed (live ++ segs) written ahead
      (rest ++ entriesOf segs) w closed n es old k where
  session := h.session
  reading := h.reading.grow hnext
  kept := h.kept
  sent := h.sent
  flushed := h.flushed
  stretches := h.stretches.mono (contents_prefix_grown h.reading.ledger hnext)
  spared := h.spared

theorem Up.read {maxCount : Nat}
    (h : Up careful cfg s lost confirmed live written ahead rest w closed n es old k)
    (hstep : s.step cfg (.read maxCount) = some s') :
    Up careful cfg s' lost confirmed live [] (rest.take maxCount) (rest.drop maxCount) w closed n es
      old k := by
  obtain ⟨rfl, hfiles, haccepted, hreading⟩ := h.reading.read hstep
  constructor
  case session =>
    rw [hfiles]
    exact h.session
  case reading => exact hreading
  case kept => exact h.kept
  case sent => exact h.sent
  case flushed => exact h.flushed
  case stretches => exact h.stretches.mono (by rw [haccepted])
  case spared => exact h.spared

/-- **Writing an entry.** -/
theorem Up.write {now : UInt64}
    (h : Up careful cfg s lost confirmed live written ahead rest w closed n es old k)
    (hok : ActionOk s.files (.append 0 .empty now)) (hstep : s.step cfg (.write now) = some s') :
    ∃ x ahead' w' e k', ahead = x :: ahead' ∧ s'.ring = s.ring ∧
      Up careful cfg s' lost confirmed live (written ++ [x]) ahead' rest w' closed n (es ++ [e]) old
        k' := by
  obtain ⟨c, batch, files, hbatch, hfiles, rfl⟩ := Persistence.step_write hstep
  obtain ⟨x, ahead', rfl, hahead, hreading⟩ := h.reading.write files hbatch
  have hw := h.session.writer
  obtain ⟨-, out, hfile, -⟩ := h.session.logs.written
  have happended : s.files.appended (.append x.copy.1.type (payloadOf x.copy.2) now) =
      [w.newEntry x.copy.1.type (payloadOf x.copy.2) now] := by
    simp [LogDir.appended, hw, hfile]
  obtain ⟨w', hsession⟩ := h.session.call rfl (Or.inr (hok w hw)) hfiles
  rw [happended] at hsession
  -- the writer is the one that `Append` left
  obtain ⟨w₀, seq, w₁, hw₀, happend, rfl⟩ := LogDir.step_append hfiles
  obtain rfl := Option.some.inj (hw.symm.trans hw₀)
  obtain rfl := Option.some.inj hsession.writer
  have hfits := hsession.fits
  rw [List.length_append, List.length_singleton] at hfits
  obtain ⟨k', hk, hflushed⟩ :=
    h.flushed.append h.session.logs hsession.logs (by omega) happend
  refine ⟨x, ahead', w₁, w.newEntry x.copy.1.type (payloadOf x.copy.2) now, k', hahead, rfl, ?_⟩
  constructor
  case session => exact hsession
  case reading => exact hreading
  case kept => exact h.kept
  case sent =>
    have hsame : content (w.newEntry x.copy.1.type (payloadOf x.copy.2) now) = content x.copy := by
      show (x.type, (payloadOf x.data.bytes).bytes) = (x.type, x.data.bytes)
      rw [payloadOf_bytes]
    have hone : contents [x] = [w.newEntry x.copy.1.type (payloadOf x.copy.2) now].map content := by
      rw [List.map_singleton, hsame]
      rfl
    rw [← List.append_assoc, contents_append, h.sent, hone, List.map_append, List.append_assoc]
  case flushed => exact hflushed
  case stretches => exact h.stretches
  case spared =>
    intro hcareful
    obtain ⟨hnone, hle⟩ := h.spared hcareful
    exact ⟨hnone, by omega⟩

/-- **`Sync`.** -/
theorem Up.sync {files : LogDir}
    (h : Up careful cfg s lost confirmed live written ahead rest w closed n es old k)
    (hstep : LogDir.step defaultPrefix s.files .sync = some files) :
    ∃ w', Up careful cfg { s with files := files } lost confirmed live written ahead rest w' closed
      n es old es.length := by
  obtain ⟨w', hsession⟩ := h.session.call rfl (Or.inl rfl) hstep
  rw [show s.files.appended .sync = [] from rfl, List.append_nil] at hsession
  obtain ⟨w₀, hw₀, rfl⟩ := LogDir.step_sync hstep
  obtain rfl := Option.some.inj (h.session.writer.symm.trans hw₀)
  obtain rfl := Option.some.inj hsession.writer
  have hle := h.flushed.le
  refine ⟨_, hsession, h.reading.files _, h.kept, h.sent, flushed_of_synced hsession.logs ?_,
    h.stretches, ?_⟩
  · intro out hout
    obtain ⟨out', -, rfl⟩ := Option.map_eq_some_iff.mp hout
    rfl
  · intro hcareful
    obtain ⟨hnone, hconfirmed⟩ := h.spared hcareful
    exact ⟨hnone, by omega⟩

/-- **`Confirm`**: a careful persister has flushed what it confirms. -/
theorem Up.confirm
    (h : Up careful cfg s lost confirmed live written ahead rest w closed n es old k)
    (hsynced : careful → s.Synced) (hstep : s.step cfg .confirm = some s') :
    ∃ confirmed' live' k',
      Up careful cfg s' lost confirmed' live' [] [] rest w closed n es old k' := by
  obtain ⟨hfiles, haccepted, confirmed', live', hdone, hreading⟩ := h.reading.confirm hstep
  have hsent : contents (entriesOf confirmed' ++ []) = old ++ es.map content := by
    rw [List.append_nil, hdone]
    exact h.sent
  have hup : ∀ k', Flushed w es k' → (careful → k' = es.length) →
      Up careful cfg s' lost confirmed' live' [] [] rest w closed n es old k' := by
    intro k' hflushed hall
    constructor
    case session =>
      rw [hfiles]
      exact h.session
    case reading => exact hreading
    case kept => exact h.kept
    case sent => exact hsent
    case flushed => exact hflushed
    case stretches =>
      exact h.stretches.mono (by rw [haccepted])
    case spared =>
      intro hcareful
      refine ⟨(h.spared hcareful).1, ?_⟩
      have hlen := congrArg List.length hsent
      rw [List.append_nil, length_contents, List.length_append, List.length_map] at hlen
      rw [hall hcareful, hlen]
  by_cases hcareful : careful
  · refine ⟨confirmed', live', es.length, hup _ (flushed_of_synced h.session.logs ?_) fun _ => rfl⟩
    exact fun out hout => hsynced hcareful w out h.session.writer hout
  · exact ⟨confirmed', live', k, hup k h.flushed fun h => absurd h hcareful⟩

/-- What stays where it is, and what comes behind it. -/
theorem append_shuffle_subperm {α : Type*} (a b c d e : List α) :
    a ++ b ++ (c ++ d) <+~ a ++ (c ++ e) ++ (b ++ d) := by
  have hperm : a ++ b ++ (c ++ d) ~ a ++ c ++ (b ++ d) := by
    rw [List.append_assoc, List.append_assoc, ← List.append_assoc b, ← List.append_assoc c]
    exact (List.perm_append_comm.append_right d).append_left a
  have hsub : a ++ c ++ (b ++ d) <+ a ++ (c ++ e) ++ (b ++ d) := by
    rw [← List.append_assoc a c e]
    exact (List.sublist_append_left ..).append_right _
  exact hperm.subperm.trans hsub.subperm

/-- **The end of a session** that leaves the first `j` entries of its file whole. -/
theorem Up.finish {files : LogDir} {f : FileName × Bytes} {j : Nat} {torn : Option Wal.Entry}
    (h : Up careful cfg s lost confirmed live written ahead rest w closed n es old k)
    (hfiles : files = { dir := closed ++ [f], writer := none }) (hfile : WalFile defaultPrefix n f)
    (hentries : fileEntries f.2 = es.take j ++ torn.toList) (hj : k ≤ j) :
    ∃ missing, missing.length ≤ es.length - j ∧
      Down careful cfg { s with files := files, batch := [], last := none } (lost ++ missing)
        confirmed live := by
  subst hfiles
  set gone := contents (entriesOf confirmed) with hgone
  have hsent : gone ++ contents written = old ++ es.map content := by
    rw [← h.sent, contents_append]
  have hprefix : gone <+: old ++ es.map content := ⟨_, hsent⟩
  -- what was confirmed and is not among the first `j`
  obtain ⟨missing, hlen, hspared, hsub⟩ : ∃ missing : List (UInt16 × List UInt8),
      missing.length ≤ es.length - j ∧ (careful → missing = []) ∧
        gone <+~ old ++ ((es.take j).map content ++ missing) := by
    by_cases hcareful : careful
    · refine ⟨[], Nat.zero_le _, fun _ => rfl, ?_⟩
      have hle := (h.spared hcareful).2
      have hkle := h.flushed.le
      have hfirst : old ++ (es.take j).map content <+: old ++ es.map content :=
        (List.prefix_append_right_inj old).mpr ((List.take_prefix j es).map content)
      rw [List.append_nil]
      refine (List.prefix_of_prefix_length_le hprefix hfirst ?_).sublist.subperm
      rw [hgone, length_contents, List.length_append, List.length_map, List.length_take]
      omega
    · refine ⟨(es.drop j).map content, ?_, fun h => absurd h hcareful, ?_⟩
      · rw [List.length_map, List.length_drop]
      · rw [← List.map_append, List.take_append_drop]
        exact hprefix.sublist.subperm
  refine ⟨missing, hlen, ?_⟩
  constructor
  case writer => rfl
  case ordered => exact h.session.ready.ordered_append hfile
  case reading => exact h.reading.stop _
  case kept =>
    show gone <+~ onDisk (closed ++ [f]) ++ (lost ++ missing)
    rw [onDisk_append, onDisk_singleton, hentries, List.map_append]
    refine hsub.trans (((List.subperm_append_right _).mpr h.kept).trans ?_)
    exact append_shuffle_subperm ..
  case stretches =>
    intro g hg
    rcases List.mem_append.mp hg with hg | hg
    · exact h.stretches g hg
    · obtain rfl := List.mem_singleton.mp hg
      refine ⟨es.take j, torn, hentries, ?_⟩
      have hall : contents (accepted s.ring.log) =
          old ++ es.map content ++ contents (ahead ++ rest) := by
        rw [h.reading.ledger.accepted, entriesOf_append, h.reading.live, ← List.append_assoc,
          contents_append, h.sent]
      have hinfix : es.map content <:+: contents (accepted s.ring.log) := ⟨_, _, hall.symm⟩
      exact ((List.take_prefix j es).map content).isInfix.trans hinfix
  case spared =>
    intro hcareful
    rw [(h.spared hcareful).1, hspared hcareful, List.append_nil]

end Up

-- ---------------------------------------------------------------------------
-- Whole runs
-- ---------------------------------------------------------------------------

/-- What holds between two acts: a crash has lost at most ninety-nine entries. -/
def Keeps (careful : Prop) (cfg : Sizes) (s : Persistence) (past : List Persistence.Act) : Prop :=
  ∃ lost confirmed live, lost.length ≤ 99 * (past.filter Persistence.Act.isCrash).length ∧
    (Down careful cfg s lost confirmed live ∨
      ∃ written ahead rest w closed n es old k,
        Up careful cfg s lost confirmed live written ahead rest w closed n es old k)

section Keeps

variable {careful : Prop} {s s' : Persistence} {past : List Persistence.Act}
  {confirmed live : List Segment}

/-- The business thread appends. -/
theorem step_ring_append {type : UInt16} {data : Payload} {now : UInt64}
    (h : Ledger cfg s.ring confirmed live) (hok : s.Meets cfg (.append type data now))
    (hstep : s.step cfg (.append type data now) = some s') :
    ∃ ring segs, s' = { s with ring := ring } ∧ Ledger cfg ring confirmed (live ++ segs) := by
  obtain ⟨seq, memory, segs, hcall, -, -, -, -, hnext⟩ := h.append now hok.1 hok.2
  rw [Persistence.step, hcall, Option.map_some, Option.some.injEq] at hstep
  exact ⟨_, segs, hstep.symm, hnext⟩

/-- It stops in `Append`. -/
theorem step_stopAppend {type : UInt16} {data : Payload} {now : UInt64} {accesses : Nat}
    (h : Ledger cfg s.ring confirmed live) (hok : s.Meets cfg (.stopAppend type data now accesses))
    (hstep : s.step cfg (.stopAppend type data now accesses) = some s') :
    ∃ ring segs, s' = { s with ring := ring } ∧ Ledger cfg ring confirmed (live ++ segs) := by
  obtain ⟨records, memory, segs, hcall, -, -, hnext⟩ := h.stopAppend now hok.1 hok.2 accesses
  rw [Persistence.step, hcall, Option.map_some, Option.some.injEq] at hstep
  exact ⟨_, segs, hstep.symm, hnext⟩

theorem length_filter_crash (past : List Persistence.Act) {a : Persistence.Act}
    (ha : a.isCrash = false) :
    ((past ++ [a]).filter Persistence.Act.isCrash).length =
      (past.filter Persistence.Act.isCrash).length := by
  rw [List.filter_append, List.filter_cons_of_neg (by simp [ha]), List.filter_nil, List.append_nil]

/-- **An act while no persister runs.** -/
theorem Down.step {lost : List (UInt16 × List UInt8)} {a : Persistence.Act}
    (h : Down careful cfg s lost confirmed live)
    (hlost : lost.length ≤ 99 * (past.filter Persistence.Act.isCrash).length)
    (hok : s.Meets cfg a) (hstep : s.step cfg a = some s') :
    Keeps careful cfg s' (past ++ [a]) := by
  have hcrashes := length_filter_crash past (a := a)
  have hdown := h.writer
  cases a with
  | append type data now =>
    obtain ⟨ring, segs, rfl, hnext⟩ := step_ring_append h.reading.ledger hok hstep
    exact ⟨lost, _, _, by rwa [hcrashes rfl], Or.inl (h.grow hnext)⟩
  | stopAppend type data now accesses =>
    obtain ⟨ring, segs, rfl, hnext⟩ := step_stopAppend h.reading.ledger hok hstep
    exact ⟨lost, _, _, by rwa [hcrashes rfl], Or.inl (h.grow hnext)⟩
  | init listing now =>
    obtain ⟨files, hfiles, rfl⟩ := Option.map_eq_some_iff.mp hstep
    obtain ⟨w, closed, hup⟩ := h.init hok hfiles
    exact ⟨lost, _, _, by rwa [hcrashes rfl], Or.inr ⟨_, _, _, w, closed, _, _, _, _, hup⟩⟩
  | read maxCount => simp [Persistence.step, hdown] at hstep
  | write now =>
    obtain ⟨c, rest, files, -, hfiles, -⟩ := Persistence.step_write hstep
    simp [LogDir.step, hdown] at hfiles
  | sync =>
    obtain ⟨files, hfiles, -⟩ := Option.map_eq_some_iff.mp hstep
    simp [LogDir.step, hdown] at hfiles
  | confirm =>
    obtain ⟨seq, ring, -, hlast, -⟩ := Persistence.step_confirm hstep
    rw [h.reading.last] at hlast
    cases hlast
  | close now =>
    obtain ⟨files, hfiles, -⟩ := Option.map_eq_some_iff.mp hstep
    simp [LogDir.step, hdown] at hfiles
  | crash kept =>
    obtain ⟨files, hfiles, -⟩ := Option.map_eq_some_iff.mp hstep
    simp [LogDir.step, hdown] at hfiles

variable {lost old : List (UInt16 × List UInt8)} {written ahead rest : List Entry}
  {w : WalFileWriter} {closed : Directory} {n : UInt64} {es : List Wal.Entry} {k : Nat}

/-- **`Close`** leaves the whole file. -/
theorem Up.close {files : LogDir} {now : UInt64}
    (h : Up careful cfg s lost confirmed live written ahead rest w closed n es old k)
    (hstep : LogDir.step defaultPrefix s.files (.close now) = some files) :
    ∃ missing, missing.length = 0 ∧
      Down careful cfg { s with files := files, batch := [], last := none } (lost ++ missing)
        confirmed live := by
  obtain ⟨f, hfiles, hfile, hwhole⟩ := h.session.finish (Or.inl ⟨now, rfl⟩) hstep
  have hentries : fileEntries f.2 = es.take es.length ++ Option.toList none := by
    rw [List.take_length, Option.toList_none, List.append_nil]
    exact (hwhole ⟨now, rfl⟩).2
  obtain ⟨missing, hlen, hdown⟩ := h.finish hfiles hfile hentries h.flushed.le
  rw [Nat.sub_self] at hlen
  exact ⟨missing, Nat.le_zero.mp hlen, hdown⟩

/-- **A crash** leaves what was flushed. -/
theorem Up.crash {files : LogDir} {kept : Nat}
    (h : Up careful cfg s lost confirmed live written ahead rest w closed n es old k)
    (hstep : LogDir.step defaultPrefix s.files (.crash kept) = some files) :
    ∃ missing, missing.length ≤ 99 ∧
      Down careful cfg { s with files := files, batch := [], last := none } (lost ++ missing)
        confirmed live := by
  obtain ⟨f, hfiles, hfile, -⟩ := h.session.finish (Or.inr ⟨kept, rfl⟩) hstep
  obtain ⟨w₀, out, hw₀, hout, ⟨hkept, -⟩, hdir⟩ := LogDir.step_crash hstep
  obtain rfl := Option.some.inj (h.session.writer.symm.trans hw₀)
  -- the last file is the cut one
  have hlast : f = (w.currentFile, out.written.take kept) := by
    have hput := putFile_last
      (fun g hg => h.session.logs.named ▸ h.session.ready.name_ne hg) [] (out.written.take kept)
    rw [h.session.dir, hput] at hdir
    have hsame := congrArg LogDir.dir (hfiles.symm.trans hdir)
    exact List.singleton_inj.mp (List.append_cancel_left hsame)
  subst hlast
  obtain ⟨j, torn, hj, hentries⟩ :=
    h.flushed.cut h.session.logs h.session.ready.pos h.session.fits hout hkept
  obtain ⟨missing, hlen, hdown⟩ := h.finish hfiles hfile hentries hj
  have hcadence := h.flushed.cadence
  have hmod := Nat.mod_lt es.length (show 0 < 100 by omega)
  exact ⟨missing, by omega, hdown⟩

/-- **An act while a persister runs.** -/
theorem Up.step {a : Persistence.Act}
    (h : Up careful cfg s lost confirmed live written ahead rest w closed n es old k)
    (hlost : lost.length ≤ 99 * (past.filter Persistence.Act.isCrash).length)
    (hok : s.Meets cfg a) (hsynced : careful → a = .confirm → s.Synced)
    (hstep : s.step cfg a = some s') : Keeps careful cfg s' (past ++ [a]) := by
  have hcrashes := length_filter_crash past (a := a)
  cases a with
  | append type data now =>
    obtain ⟨ring, segs, rfl, hnext⟩ := step_ring_append h.reading.ledger hok hstep
    exact ⟨lost, _, _, by rwa [hcrashes rfl], Or.inr ⟨_, _, _, _, _, _, _, _, _, h.grow hnext⟩⟩
  | stopAppend type data now accesses =>
    obtain ⟨ring, segs, rfl, hnext⟩ := step_stopAppend h.reading.ledger hok hstep
    exact ⟨lost, _, _, by rwa [hcrashes rfl], Or.inr ⟨_, _, _, _, _, _, _, _, _, h.grow hnext⟩⟩
  | init listing now =>
    obtain ⟨files, hfiles, -⟩ := Option.map_eq_some_iff.mp hstep
    have hnone := (LogDir.step_init hfiles).1
    rw [h.session.writer] at hnone
    cases hnone
  | read maxCount =>
    have hnext := h.read hstep
    exact ⟨lost, _, _, by rwa [hcrashes rfl], Or.inr ⟨_, _, _, _, _, _, _, _, _, hnext⟩⟩
  | write now =>
    obtain ⟨x, ahead', w', e, k', -, -, hnext⟩ := h.write hok hstep
    exact ⟨lost, _, _, by rwa [hcrashes rfl], Or.inr ⟨_, _, _, _, _, _, _, _, _, hnext⟩⟩
  | sync =>
    obtain ⟨files, hfiles, rfl⟩ := Option.map_eq_some_iff.mp hstep
    obtain ⟨w', hnext⟩ := h.sync hfiles
    exact ⟨lost, _, _, by rwa [hcrashes rfl], Or.inr ⟨_, _, _, _, _, _, _, _, _, hnext⟩⟩
  | confirm =>
    obtain ⟨confirmed', live', k', hnext⟩ :=
      h.confirm (fun hcareful => hsynced hcareful rfl) hstep
    exact ⟨lost, _, _, by rwa [hcrashes rfl], Or.inr ⟨_, _, _, _, _, _, _, _, _, hnext⟩⟩
  | close now =>
    obtain ⟨files, hfiles, rfl⟩ := Option.map_eq_some_iff.mp hstep
    obtain ⟨missing, hnone, hnext⟩ := h.close hfiles
    refine ⟨lost ++ missing, _, _, ?_, Or.inl hnext⟩
    rw [hcrashes rfl, List.length_append, hnone]
    exact hlost
  | crash kept =>
    obtain ⟨files, hfiles, rfl⟩ := Option.map_eq_some_iff.mp hstep
    obtain ⟨missing, hfew, hnext⟩ := h.crash hfiles
    refine ⟨lost ++ missing, _, _, ?_, Or.inl hnext⟩
    have hone : ((past ++ [Persistence.Act.crash kept]).filter Persistence.Act.isCrash).length =
        (past.filter Persistence.Act.isCrash).length + 1 := by
      rw [List.filter_append, List.length_append]
      rfl
    rw [hone, List.length_append]
    omega

/-- **One act** keeps that. -/
theorem Keeps.step {a : Persistence.Act} (h : Keeps careful cfg s past) (hok : s.Meets cfg a)
    (hsynced : careful → a = .confirm → s.Synced) (hstep : s.step cfg a = some s') :
    Keeps careful cfg s' (past ++ [a]) := by
  obtain ⟨lost, confirmed, live, hlost, hdown |
    ⟨written, ahead, rest, w, closed, n, es, old, k, hup⟩⟩ := h
  · exact hdown.step hlost hok hstep
  · exact hup.step hlost hok hsynced hstep

/-- Once the persister has stopped. -/
theorem Keeps.held (h : Keeps careful cfg s past) (hdown : s.files.writer = none) :
    Held s.ring.log s.files.dir (99 * (past.filter Persistence.Act.isCrash).length) ∧
      (careful → Held s.ring.log s.files.dir 0) := by
  obtain ⟨lost, confirmed, live, hlost, h |
    ⟨written, ahead, rest, w, closed, n, es, old, k, hup⟩⟩ := h
  · have haccepted : accepted s.ring.log = entriesOf confirmed ++ unconfirmed s.ring.log := by
      rw [h.reading.ledger.accepted, h.reading.ledger.unconfirmed, entriesOf_append]
    have hkept : contents (entriesOf confirmed) <+~
        (readAfter s.files.dir 0 0).map content ++ lost :=
      h.kept.trans ((readAfter_perm_onDisk h.ordered).symm.append_right lost).subperm
    refine ⟨⟨⟨_, lost, haccepted, hlost, hkept⟩, h.stretches⟩, fun hcareful => ?_⟩
    have hnone := h.spared hcareful
    subst hnone
    exact ⟨⟨_, [], haccepted, Nat.le_refl _, hkept⟩, h.stretches⟩
  · rw [hup.session.writer] at hdown
    cases hdown

end Keeps

section Runs

variable {beyond : Mem} {now : UInt64} {acts : List Persistence.Act} {s : Persistence}

end Runs

-- ---------------------------------------------------------------------------
-- A persister that is started again
-- ---------------------------------------------------------------------------

section Drain

variable {s : Persistence} {lost old : List (UInt16 × List UInt8)} {confirmed live : List Segment}
  {written ahead rest : List Entry} {w : WalFileWriter} {closed : Directory} {n : UInt64}
  {es : List Wal.Entry} {k : Nat}

/-- A run of a careful persister from one state to another. -/
def Goes (cfg : Sizes) (s : Persistence) (acts : List Persistence.Act) (s' : Persistence) : Prop :=
  Schedule.run (Persistence.step cfg) s acts = some s' ∧
    Schedule.StepsMeet (Persistence.step cfg) (Persistence.MeetsSynced cfg) s acts

/-- **What was written is flushed and confirmed**, and the file closed. -/
theorem Up.settle (h : Up True cfg s lost confirmed live written [] [] w closed n es old k)
    (hsome : written ≠ []) (now : UInt64) :
    ∃ s', Goes cfg s [.sync, .confirm, .close now] s' ∧
      accepted s'.ring.log = accepted s.ring.log ∧ unconfirmed s'.ring.log = [] ∧
      s'.files.writer = none := by
  have hsync : LogDir.step defaultPrefix s.files .sync =
      some { s.files with writer := some w.sync } := by
    simp [LogDir.step, h.session.writer]
  obtain ⟨w₁, hup⟩ := h.sync hsync
  obtain rfl := Option.some.inj hup.session.writer
  set t : Persistence := { s with files := { s.files with writer := some w.sync } } with ht
  have hsynced : t.Synced := by
    intro w₀ out hw₀ hout
    obtain rfl := Option.some.inj hw₀
    obtain ⟨out', -, rfl⟩ := Option.map_eq_some_iff.mp hout
    rfl
  -- the last entry is the one that is confirmed
  obtain ⟨ring, hcall⟩ :
      ∃ ring, t.step cfg .confirm = some { t with ring := ring, last := none } := by
    have hlive := hup.reading.live
    rw [← List.dropLast_append_getLast hsome, List.append_nil, List.append_nil] at hlive
    obtain ⟨ring, -, -, hcall, -⟩ := hup.reading.ledger.confirm_upTo hlive
    have hlast : t.last = some (written.getLast hsome).seq := by
      rw [hup.reading.last, List.append_nil, List.getLast?_eq_some_getLast hsome, Option.map_some]
    refine ⟨ring, ?_⟩
    rw [Persistence.step, hup.reading.batch, hlast]
    simp only [List.map_nil, hcall, Option.map_some]
  obtain ⟨-, haccepted, confirmed', live', -, hreading⟩ := hup.reading.confirm hcall
  have hclose : ∃ files, LogDir.step defaultPrefix t.files (.close now) = some files := by
    obtain ⟨-, out, hfile, -⟩ := hup.session.logs.written
    exact ⟨_, by simp [LogDir.step, ht, hfile]; rfl⟩
  obtain ⟨files, hfiles⟩ := hclose
  obtain ⟨w₀, out, -, -, hwriter⟩ := LogDir.step_close hfiles
  refine ⟨{ t with ring := ring, files := files, batch := [], last := none }, ?_, haccepted, ?_, ?_⟩
  · refine Schedule.possible_cons _ ⟨trivial, by simp⟩ (t := t) ?_ ?_
    · rw [Persistence.step, hsync, Option.map_some]
    · refine Schedule.possible_cons _ ⟨trivial, fun _ => hsynced⟩ hcall ?_
      refine Schedule.possible_cons _ ⟨trivial, by simp⟩ ?_ ⟨rfl, trivial⟩
      rw [Persistence.step, hfiles, Option.map_some]
  · show unconfirmed ring.log = []
    rw [hreading.ledger.unconfirmed, hreading.live]
    rfl
  · rw [hwriter]

end Drain

/-- Fewer entries than were confirmed cannot be all of them. -/
theorem not_held_of_length {log : List Record} {dir : Directory}
    (h : (unconfirmed log).length + (readAfter dir 0 0).length < (accepted log).length) :
    ¬Held log dir 0 := by
  intro hheld
  obtain ⟨gone, missing, hgone, hlen, hkept⟩ := hheld.kept
  have hle := hkept.length_le
  have hall := congrArg List.length hgone
  rw [List.length_append] at hall
  rw [length_contents, List.length_append, List.length_map] at hle
  omega

/-- One entry is written, flushed and confirmed. A second session stops before its header reaches
the file, and a third one finds that file behind the first. -/
def truncated : List Persistence.Act :=
  [.append 5 .empty 0, .init [] 0, .read 1, .write 0, .sync, .confirm, .close 0,
    .init [closedOne] 0, .crash 0, .init [closedOne, (walFileName defaultPrefix 2, [])] 0, .close 0]

theorem exists_truncated :
    ∃ s, s ∈ Schedule.run (Persistence.step tightSizes)
        (Persistence.fresh tightSizes (fun _ => 0) 0) truncated ∧ s.files.writer = none ∧
      (accepted s.ring.log).length = 1 ∧ (unconfirmed s.ring.log).length = 0 ∧
      (readAfter s.files.dir 0 0).length = 0 := by
  decide +kernel

/-- `Sync` before `Confirm` alone is not enough: the third `Init` truncates the first file. -/
theorem not_held_truncated :
    Schedule.StepsMeet (Persistence.step tightSizes) (fun s a => a.isConfirm = true → s.Synced)
        (Persistence.fresh tightSizes (fun _ => 0) 0) truncated ∧
      ∃ s, Schedule.run (Persistence.step tightSizes)
          (Persistence.fresh tightSizes (fun _ => 0) 0) truncated = some s ∧
        ¬Held s.ring.log s.files.dir 0 := by
  obtain ⟨s, hs, -, hone, hnone, hread⟩ := exists_truncated
  exact ⟨by decide +kernel, s, hs, not_held_of_length (by omega)⟩

/-- The same without `Sync`; the file header is all that stays. -/
def unflushed : List Persistence.Act :=
  [.append 5 .empty 0, .append 6 .empty 0, .init [] 0, .read 1, .write 0, .confirm, .crash 64]

theorem exists_unflushed :
    ∃ s, s ∈ Schedule.run (Persistence.step tightSizes)
        (Persistence.fresh tightSizes (fun _ => 0) 0) unflushed ∧ s.files.writer = none ∧
      (accepted s.ring.log).length = 2 ∧ (unconfirmed s.ring.log).length = 1 ∧
      (readAfter s.files.dir 0 0).length = 0 := by
  decide +kernel

/-- The first entry is confirmed and in no file. -/
theorem not_held_unsynced :
    ∃ s, Schedule.run (Persistence.step tightSizes)
        (Persistence.fresh tightSizes (fun _ => 0) 0) unflushed = some s ∧
      ¬Held s.ring.log s.files.dir 0 := by
  obtain ⟨s, hs, -, htwo, hone, hnone⟩ := exists_unflushed
  exact ⟨s, hs, not_held_of_length (by omega)⟩

end Zrtools.ShmRing

import Zrtools.Wal.Replay

/-!
# zrtools — following a WAL directory (`zrt_wal_file.h`)

A reader calls `ReadAfter` again and again, each time with the last number that it was given, while
writers append to the directory, one session after the other. It finds what has reached the open
file: the flushed bytes, and perhaps some more, up to anywhere.

* `LogDir.Clean.seen` — what such a directory holds;
* `Following.Follows` — the invariant: what was read has the headers of the first entries;
* `follows_of_run` — the reader is given every entry once and in order, and each time it finds a
  payload that is not there as a whole, at most one wrong payload, which it keeps.
-/

namespace Zrtools.Wal

-- ---------------------------------------------------------------------------
-- The system
-- ---------------------------------------------------------------------------

/-- The files as a reader finds them, when the first `kept` bytes of the open one are there. -/
def LogDir.seen (s : LogDir) (kept : Nat) : Option Directory :=
  match s.writer with
  | none => some s.dir
  | some w => do
    let out ← w.file
    if out.flushed ≤ kept ∧ kept ≤ out.written.length then
      some (putFile s.dir w.currentFile (out.written.take kept))
    else none

/-- They end behind a header and before the end of its payload. -/
def LogDir.tears (s : LogDir) (kept : Nat) : Bool :=
  match s.writer.bind WalFileWriter.file with
  | none => false
  | some out => (walFraming.torn (kept - walFileHeaderSize) (fileEntries out.written)).isSome

/-- They are all that was written. -/
def LogDir.Whole (s : LogDir) (kept : Nat) : Prop :=
  ∀ w, s.writer = some w → ∀ out, w.file = some out → kept = out.written.length

/-- A directory with its writers, and a reader: the last number that it was given, all entries that
it was given, and how many times it found a torn payload. -/
structure Following where
  files : LogDir
  last : UInt64
  taken : List Entry
  torn : Nat

namespace Following

inductive Act where
  | write (a : Action)
  | poll (kept maxCount : Nat)

def initial : Following where
  files := LogDir.empty
  last := 0
  taken := []
  torn := 0

/-- A call of the writer, or `ReadAfter(last, entries, max_count)` and `last = entries.back().seq`,
if there are any. -/
def step (s : Following) : Act → Option Following
  | .write a => (s.files.step defaultPrefix a).map fun files => { s with files }
  | .poll kept maxCount => (s.files.seen kept).map fun dir =>
    let entries := readAfter dir s.last maxCount
    { s with
      last := (entries.getLast?.map fun e => e.1.seq).getD s.last
      taken := s.taken ++ entries
      torn := s.torn + (s.files.tears kept).toNat }

def appended (s : Following) : Act → List Entry
  | .write a => s.files.appended a
  | .poll _ _ => []

/-- The sessions are clean ones, and at every poll the names of the files are in the order of their
numbers. -/
def Meets (s : Following) : Act → Prop
  | .write a => CleanOk s.files a
  | .poll kept _ => ∀ dir, s.files.seen kept = some dir → NamesInOrder dir

instance decidableCleanOk (s : LogDir) : (a : Action) → Decidable (CleanOk s a)
  | .init listing _ => inferInstanceAs (Decidable (∀ f ∈ listing,
      (storedStart f).toNat + 1 < 2 ^ 64))
  | .append _ _ _ => inferInstanceAs (Decidable (∀ w ∈ s.writer, w.currentSeq.toNat + 2 < 2 ^ 64))
  | .sync => isTrue trivial
  | .close _ => isTrue trivial
  | .crash _ => isFalse id

instance (dir : Directory) : Decidable (NamesInOrder dir) := by
  unfold NamesInOrder
  infer_instance

instance decidableMeets (s : Following) : (a : Act) → Decidable (s.Meets a)
  | .write a => decidableCleanOk s.files a
  | .poll kept _ => inferInstanceAs (Decidable (∀ dir ∈ s.files.seen kept, NamesInOrder dir))

/-- The entries that a run appends, in order. -/
def written (acts : List Act) : List Entry := Schedule.outputs step appended initial acts

end Following

-- ---------------------------------------------------------------------------
-- Differences
-- ---------------------------------------------------------------------------

/-- The places at which two lists differ, up to the end of the shorter one. -/
def differ {α : Type} [DecidableEq α] : List α → List α → Nat
  | x :: xs, y :: ys => (if x = y then 0 else 1) + differ xs ys
  | _, _ => 0

section Differ

variable {α : Type} [DecidableEq α]

@[simp] theorem differ_nil_left (l : List α) : differ [] l = 0 := by simp [differ]

@[simp] theorem differ_nil_right (l : List α) : differ l [] = 0 := by cases l <;> simp [differ]

theorem differ_append (a c b : List α) :
    differ (a ++ c) b = differ a b + differ c (b.drop a.length) := by
  induction a generalizing b with
  | nil => simp
  | cons x a ih =>
    cases b with
    | nil => simp
    | cons y b =>
      rw [List.cons_append, differ, differ, ih, List.length_cons, List.drop_succ_cons,
        Nat.add_assoc]

theorem differ_append_right {a b : List α} (h : a.length ≤ b.length) (c : List α) :
    differ a (b ++ c) = differ a b := by
  induction a generalizing b with
  | nil => simp
  | cons x a ih =>
    cases b with
    | nil => exact absurd h (by simp)
    | cons y b => rw [List.cons_append, differ, differ, ih (Nat.le_of_succ_le_succ h)]

theorem differ_take (l : List α) (j : Nat) : differ (l.take j) l = 0 := by
  induction l generalizing j with
  | nil => simp
  | cons x l ih => cases j <;> simp [differ, ih]

theorem differ_le_length (a b : List α) : differ a b ≤ a.length := by
  induction a generalizing b with
  | nil => simp
  | cons x a ih =>
    cases b with
    | nil => simp
    | cons y b =>
      have hrest := ih b
      rw [differ, List.length_cons]
      split <;> omega

theorem differ_prefix {a c : List α} (h : a <+: c) (b : List α) : differ a b ≤ differ c b := by
  obtain ⟨rest, rfl⟩ := h
  rw [differ_append]
  exact Nat.le_add_right ..

theorem differ_drop (a b : List α) (i : Nat) : differ (a.drop i) (b.drop i) ≤ differ a b := by
  rcases Nat.le_total i a.length with hi | hi
  · have hsplit := differ_append (a.take i) (a.drop i) b
    rw [List.take_append_drop, List.length_take, Nat.min_eq_left hi] at hsplit
    rw [hsplit]
    exact Nat.le_add_left ..
  · rw [List.drop_of_length_le hi, differ_nil_left]
    exact Nat.zero_le _

end Differ

-- ---------------------------------------------------------------------------
-- What a reader finds
-- ---------------------------------------------------------------------------

section Session

variable {s : LogDir} {w : WalFileWriter} {closed : Directory} {n : UInt64} {es : List Entry}
  (h : s.InSession w closed n es) {out : OStream} (hout : w.file = some out)
include h hout

/-- The directory with the first bytes of the open file. -/
theorem LogDir.InSession.ordered_take (k : Nat) :
    Ordered (closed ++ [(w.currentFile, out.written.take k)]) :=
  h.ready.ordered_append (h.logs.walFile_take h.ready.pos h.fits hout k)

/-- All that was written to it. -/
theorem LogDir.InSession.fileEntries_written : fileEntries out.written = es := by
  obtain ⟨header, out', hfile, hcur, -, hwritten⟩ := h.logs.written
  obtain rfl : out' = out := Option.some.inj (hfile.symm.trans hout)
  rw [hwritten]
  exact fileEntries_logImage hcur h.logs.framed fun _ he =>
    h.logs.seqs.seq_ne_zero h.ready.pos h.fits he

/-- The whole entries in the first bytes, and perhaps one with a torn payload. -/
theorem LogDir.InSession.fileEntries_take (k : Nat) :
    fileEntries (out.written.take k) = walFraming.complete (k - walFileHeaderSize) es ++
      (walFraming.torn (k - walFileHeaderSize) es).toList := by
  obtain ⟨header, out', hfile, hcur, -, hwritten⟩ := h.logs.written
  obtain rfl : out' = out := Option.some.inj (hfile.symm.trans hout)
  rw [hwritten, fileEntries_cut hcur h.logs.framed, List.takeWhile_eq_self_iff]
  -- no number is zero, that of a torn entry neither
  intro e he
  have hheader := (walFraming.headers_cut_prefix es _).subset (List.mem_map_of_mem he)
  obtain ⟨e', he', hsame⟩ := List.mem_map.mp hheader
  have hne := h.logs.seqs.seq_ne_zero h.ready.pos h.fits he'
  rw [hsame] at hne
  simpa using hne

end Session

theorem Ordered.seq_pos {dir : Directory} (h : Ordered dir) {e : Entry} (he : e ∈ allEntries dir) :
    0 < e.1.seq := by
  obtain ⟨f, hf, he⟩ := List.mem_flatMap.mp he
  obtain ⟨n, hfile⟩ := h.files f hf
  exact UInt64.lt_iff_toNat_lt.mpr (hfile.seqs.seq_pos hfile.pos hfile.fits he)

/-- The entries of clean sessions are those of an ordered directory. -/
theorem LogDir.Clean.exists_ordered {s : LogDir} {past : List Entry} (h : s.Clean past) :
    ∃ dir, Ordered dir ∧ past = allEntries dir := by
  unfold LogDir.Clean at h
  split at h
  · exact ⟨s.dir, h.1, h.2.2⟩
  · rename_i w hw
    obtain ⟨closed, n, es, hsession, -, rfl⟩ := h
    obtain ⟨-, out, hout, -⟩ := hsession.logs.written
    refine ⟨_, hsession.ordered_take hout out.written.length, ?_⟩
    rw [allEntries_append, List.take_length]
    simp [allEntries, hsession.fileEntries_written hout]

/-- What a reader finds, when `past` was appended. -/
structure Finds (past all : List Entry) (torn : Bool) : Prop where
  headers : all.map Prod.fst <+: past.map Prod.fst
  wrong : differ all past ≤ torn.toNat

/-- **What a reader finds**: a directory in order, with the headers of the first entries, and with
their payloads, unless the last one is torn. -/
theorem LogDir.Clean.seen {s : LogDir} {past : List Entry} (h : s.Clean past) {kept : Nat}
    {dir : Directory} (hseen : s.seen kept = some dir) :
    Ordered dir ∧ Finds past (allEntries dir) (s.tears kept) ∧
      (s.Whole kept → allEntries dir = past) := by
  unfold LogDir.Clean at h
  split at h
  · rename_i hw
    obtain ⟨hordered, -, rfl⟩ := h
    obtain rfl : s.dir = dir := by simpa [LogDir.seen, hw] using hseen
    refine ⟨hordered, ⟨List.prefix_refl _, ?_⟩, fun _ => rfl⟩
    have hsame := differ_take (allEntries s.dir) (allEntries s.dir).length
    rw [List.take_length] at hsame
    rw [hsame]
    exact Nat.zero_le _
  · rename_i w hw
    obtain ⟨closed, n, es, hsession, -, rfl⟩ := h
    obtain ⟨-, out, hout, -⟩ := hsession.logs.written
    obtain rfl : closed ++ [(w.currentFile, out.written.take kept)] = dir := by
      have hput := putFile_last
        (fun f hf => hsession.logs.named ▸ hsession.ready.name_ne hf) [] (out.written.take kept)
      rw [← hsession.dir] at hput
      simp only [LogDir.seen, hw, hout, hput, Option.bind_eq_bind, Option.bind_some] at hseen
      split at hseen
      · exact Option.some.inj hseen
      · cases hseen
    have hentries := hsession.fileEntries_take hout kept
    set torn := walFraming.torn (kept - walFileHeaderSize) es with htorn
    have htears : s.tears kept = torn.isSome := by
      simp only [LogDir.tears, hw, hout, Option.bind_some, hsession.fileEntries_written hout, htorn]
    obtain ⟨i, hi, -⟩ : ∃ i, walFraming.complete (kept - walFileHeaderSize) es = es.take i ∧
        min 0 es.length ≤ i := walFraming.complete_eq_take (Nat.zero_le _)
    have hheaders := walFraming.headers_cut_prefix es (kept - walFileHeaderSize)
    rw [← htorn, hi, List.map_append] at hheaders
    rw [hi] at hentries
    have hall : allEntries (closed ++ [(w.currentFile, out.written.take kept)]) =
        allEntries closed ++ (es.take i ++ torn.toList) := by
      rw [allEntries_append, ← hentries]
      simp [allEntries]
    refine ⟨hsession.ordered_take hout kept, ⟨?_, ?_⟩, fun hwhole => ?_⟩
    · rw [hall, List.map_append, List.map_append, List.map_append, List.prefix_append_right_inj]
      exact hheaders
    · have hfront : allEntries closed ++ es.take i =
          (allEntries closed ++ es).take ((allEntries closed).length + i) :=
        (List.take_length_add_append i).symm
      rw [hall, ← List.append_assoc, hfront, differ_append, differ_take, Nat.zero_add, htears]
      refine (differ_le_length _ _).trans ?_
      cases torn <;> simp
    · rw [hall, ← hentries, hwhole w hw out hout, List.take_length,
        hsession.fileEntries_written hout]

-- ---------------------------------------------------------------------------
-- One poll
-- ---------------------------------------------------------------------------

theorem filter_eq_drop {α : Type} {p : α → Bool} {l : List α} {i : Nat}
    (h : ∀ k e, l[k]? = some e → (p e = true ↔ i ≤ k)) : l.filter p = l.drop i := by
  have htake : (l.take i).filter p = [] := by
    rw [List.filter_eq_nil_iff]
    intro e he
    obtain ⟨k, hk⟩ := List.mem_iff_getElem?.mp he
    obtain ⟨hlt, -⟩ := List.getElem?_eq_some_iff.mp hk
    rw [List.length_take] at hlt
    rw [List.getElem?_take_of_lt (by omega)] at hk
    rw [h k e hk]
    omega
  have hdrop : (l.drop i).filter p = l.drop i := by
    rw [List.filter_eq_self]
    intro e he
    obtain ⟨k, hk⟩ := List.mem_iff_getElem?.mp he
    rw [List.getElem?_drop] at hk
    exact (h _ e hk).mpr (Nat.le_add_right ..)
  rw [← List.take_append_drop i l, List.filter_append, htake, hdrop, List.nil_append,
    List.take_append_drop]

/-- The last number that a reader was given. -/
def lastOf (taken : List Entry) : UInt64 := (taken.getLast?.map fun e => e.1.seq).getD 0

/-- Of what a reader finds, the first entries are those that it has. -/
theorem entriesAfter_lastOf {past all taken : List Entry} (horder : InSeqOrder past)
    (hpos : ∀ e ∈ past, 0 < e.1.seq) (hall : all.map Prod.fst <+: past.map Prod.fst)
    (htaken : taken.map Prod.fst <+: past.map Prod.fst) :
    entriesAfter (lastOf taken) all = all.drop taken.length := by
  -- an entry that is found has the number of the one that was appended
  have hsame : ∀ {l : List Entry}, l.map Prod.fst <+: past.map Prod.fst → ∀ (k : Nat) (e : Entry),
      l[k]? = some e → ∃ e' : Entry, past[k]? = some e' ∧ e'.1 = e.1 := by
    rintro l ⟨rest, hrest⟩ k e he
    obtain ⟨hlt, -⟩ := List.getElem?_eq_some_iff.mp he
    have hheader : (past.map Prod.fst)[k]? = some e.1 := by
      rw [← hrest, List.getElem?_append_left (by rwa [List.length_map]), List.getElem?_map, he]
      rfl
    rwa [List.getElem?_map, Option.map_eq_some_iff] at hheader
  refine filter_eq_drop fun k e he => ?_
  obtain ⟨f, hf, hfe⟩ := hsame hall k e he
  rw [decide_eq_true_iff, ← hfe]
  cases hlast : taken.getLast? with
  | none =>
    rw [List.getLast?_eq_none_iff] at hlast
    subst hlast
    exact iff_of_true (hpos f (List.mem_of_getElem? hf)) (Nat.zero_le _)
  | some g =>
    have hne : taken ≠ [] := by rintro rfl; cases hlast
    have hlen := List.length_pos_iff.mpr hne
    rw [List.getLast?_eq_getElem?] at hlast
    obtain ⟨g', hg', hgg⟩ := hsame htaken _ g hlast
    have hlastOf : lastOf taken = g'.1.seq := by
      rw [lastOf, List.getLast?_eq_getElem?, hlast, hgg]
      rfl
    rw [hlastOf]
    rw [InSeqOrder, List.pairwise_iff_getElem] at horder
    obtain ⟨hk, rfl⟩ := List.getElem?_eq_some_iff.mp hf
    obtain ⟨hj, rfl⟩ := List.getElem?_eq_some_iff.mp hg'
    refine ⟨fun hlt => ?_, fun hle => horder _ _ hj hk (by omega)⟩
    by_contra hless
    rcases Nat.lt_or_ge k (taken.length - 1) with hbefore | hat
    · exact UInt64.lt_asymm hlt (horder _ _ hk hj hbefore)
    · have hself : k = taken.length - 1 := by omega
      subst hself
      exact UInt64.lt_irrefl _ hlt

theorem limit_prefix (maxCount : Nat) (l : List Entry) : limit maxCount l <+: l := by
  unfold limit
  split
  · exact List.prefix_refl _
  · exact List.take_prefix ..

theorem lastOf_append (taken page : List Entry) :
    lastOf (taken ++ page) = (page.getLast?.map fun e => e.1.seq).getD (lastOf taken) := by
  unfold lastOf
  rw [List.getLast?_append]
  cases page.getLast? <;> rfl

namespace Following

/-- **The invariant.** -/
structure Follows (s : Following) (past : List Entry) : Prop where
  clean : s.files.Clean past
  last : s.last = lastOf s.taken
  finds : s.taken.map Prod.fst <+: past.map Prod.fst
  wrong : differ s.taken past ≤ s.torn

theorem Follows.length_le {s : Following} {past : List Entry} (h : s.Follows past) :
    s.taken.length ≤ past.length := by
  have hlen := h.finds.length_le
  rwa [List.length_map, List.length_map] at hlen

/-- What the next call of `ReadAfter` gives. -/
theorem Follows.readAfter_eq {s : Following} {past : List Entry} (h : s.Follows past) {kept : Nat}
    {dir : Directory} (hseen : s.files.seen kept = some dir) (hnames : NamesInOrder dir)
    (maxCount : Nat) :
    readAfter dir s.last maxCount = limit maxCount ((allEntries dir).drop s.taken.length) := by
  obtain ⟨hordered, hfinds, -⟩ := h.clean.seen hseen
  obtain ⟨whole, hwhole, hpast⟩ := h.clean.exists_ordered
  have horder : InSeqOrder past := hpast ▸ hwhole.inSeqOrder
  have hpos : ∀ e ∈ past, 0 < e.1.seq := fun e he => hwhole.seq_pos (hpast ▸ he)
  rw [Wal.readAfter_eq]
  show limit maxCount (entriesAfter s.last (allEntries (sortedWalFiles dir))) = _
  rw [allEntries_sortedWalFiles hordered hnames, h.last,
    entriesAfter_lastOf horder hpos hfinds.headers h.finds]

/-- **One poll.** -/
theorem Follows.poll {s s' : Following} {past : List Entry} (h : s.Follows past)
    {kept maxCount : Nat} (hok : s.Meets (.poll kept maxCount))
    (hstep : s.step (.poll kept maxCount) = some s') : s'.Follows past := by
  obtain ⟨dir, hseen, rfl⟩ := Option.map_eq_some_iff.mp hstep
  obtain ⟨-, hfinds, -⟩ := h.clean.seen hseen
  have hread := h.readAfter_eq hseen (hok dir hseen) maxCount
  have hpage := limit_prefix maxCount ((allEntries dir).drop s.taken.length)
  set page := limit maxCount ((allEntries dir).drop s.taken.length) with hpagedef
  rw [hread]
  constructor
  case clean => exact h.clean
  case last =>
    show (page.getLast?.map fun e => e.1.seq).getD s.last = lastOf (s.taken ++ page)
    rw [lastOf_append, h.last]
  case finds =>
    show (s.taken ++ page).map Prod.fst <+: past.map Prod.fst
    have htaken := List.prefix_iff_eq_take.mp h.finds
    rw [List.length_map] at htaken
    have hrest : page.map Prod.fst <+: (past.map Prod.fst).drop s.taken.length := by
      refine (hpage.map _).trans ?_
      rw [List.map_drop]
      exact hfinds.headers.drop _
    rw [List.map_append, htaken]
    nth_rewrite 2 [← List.take_append_drop s.taken.length (past.map Prod.fst)]
    exact (List.prefix_append_right_inj _).mpr hrest
  case wrong =>
    show differ (s.taken ++ page) past ≤ s.torn + (s.files.tears kept).toNat
    rw [differ_append]
    refine Nat.add_le_add h.wrong ?_
    calc differ page (past.drop s.taken.length)
        ≤ differ ((allEntries dir).drop s.taken.length) (past.drop s.taken.length) :=
          differ_prefix hpage _
      _ ≤ differ (allEntries dir) past := differ_drop _ _ _
      _ ≤ (s.files.tears kept).toNat := hfinds.wrong

theorem Follows.step {s s' : Following} {a : Act} {past : List Entry} (h : s.Follows past)
    (hok : s.Meets a) (hstep : s.step a = some s') : s'.Follows (past ++ s.appended a) := by
  cases a with
  | write a =>
    obtain ⟨files, hfiles, rfl⟩ := Option.map_eq_some_iff.mp hstep
    constructor
    case clean => exact h.clean.step hok hfiles
    case last => exact h.last
    case finds =>
      rw [List.map_append]
      exact h.finds.trans (List.prefix_append ..)
    case wrong =>
      rw [differ_append_right h.length_le]
      exact h.wrong
  | poll kept maxCount =>
    rw [appended, List.append_nil]
    exact h.poll hok hstep

/-- **A reader that follows.** After every run of clean sessions and polls, the reader has the
headers of the first entries that were appended, each of them once and in order; of the payloads
that it has no more are wrong than it has found torn; and once the open file is there as a whole,
the next call without a limit gives all of the others. -/
theorem follows_of_run {s : Following} {acts : List Act}
    (hok : Schedule.StepsMeet step Meets initial acts)
    (hrun : Schedule.run step initial acts = some s) :
    s.taken.map Prod.fst <+: (written acts).map Prod.fst ∧
      differ s.taken (written acts) ≤ s.torn ∧
      ∀ kept dir, s.files.seen kept = some dir → NamesInOrder dir → s.files.Whole kept →
        readAfter dir s.last 0 = (written acts).drop s.taken.length := by
  have hinit : initial.Follows [] := by
    constructor
    case clean => exact ⟨ordered_nil, nofun, rfl⟩
    case last => rfl
    case finds => exact List.prefix_refl _
    case wrong => exact Nat.le_refl _
  have h : s.Follows ([] ++ written acts) :=
    Schedule.run_invariant_outputs step Follows (fun _ _ _ _ h hok hstep => h.step hok hstep) hinit
      hok hrun
  rw [List.nil_append] at h
  refine ⟨h.finds, h.wrong, fun kept dir hseen hnames hwhole => ?_⟩
  obtain ⟨-, -, hall⟩ := h.clean.seen hseen
  rw [h.readAfter_eq hseen hnames, hall hwhole, limit, if_pos rfl]

/-- A poll that finds all of the first entry but its payload, and one that finds both. -/
def tornPoll : List Act :=
  [.write (.init [] 0), .write (.append 5 ⟨[4], by decide⟩ 0), .poll 88 0,
    .write (.append 6 ⟨[8], by decide⟩ 0), .write .sync, .poll 114 1]

/-- The reader has a zero for the first payload, and never gets another. -/
theorem follows_of_run_tornPoll :
    ∃ s, Schedule.run step initial tornPoll = some s ∧
      s.taken.map Prod.snd = [[0], [8]] ∧ s.torn = 1 ∧
      s.taken.map Prod.fst <+: (written tornPoll).map Prod.fst ∧
      differ s.taken (written tornPoll) ≤ s.torn ∧
      ∀ kept dir, s.files.seen kept = some dir → NamesInOrder dir → s.files.Whole kept →
        readAfter dir s.last 0 = (written tornPoll).drop s.taken.length := by
  have hends : (Schedule.run step initial tornPoll).map
      (fun s => (s.taken.map Prod.snd, s.torn)) = some ([[0], [8]], 1) := by decide +kernel
  obtain ⟨s, hrun, hs⟩ := Option.map_eq_some_iff.mp hends
  obtain ⟨htaken, htorn⟩ := Prod.mk.inj hs
  exact ⟨s, hrun, htaken, htorn, follows_of_run (by decide +kernel) hrun⟩

end Following

end Zrtools.Wal

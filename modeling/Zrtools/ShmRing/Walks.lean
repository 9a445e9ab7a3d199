import Zrtools.ShmRing.Headers
import Zrtools.ShmRing.Laid

/-!
# zrtools — the calls that walk along the tape

`ReadUnconfirmed`, `Confirm`, `ConfirmBatch` and `ReadNext` by a single process on a tape that
is intact: each goes from segment to segment, from `confirmed_pos` or `read_pos` on.

* `Stretch` — what lies between a position and `write_pos` is in the buffer;
* `Stretch.eval_readUnconfirmedCall` — the entries that are not confirmed, as many as asked for;
* `Placed.confirm_finds`, `Placed.confirm_stops` — `confirmed_pos` goes to the end of a segment,
  or stays;
* `Stretch.eval_confirmBatchCall` — it goes behind a number of entries;
* `Stretch.eval_readNextCall` — the next entry, or nothing if there is none;
* `eval_readUnconfirmedCall_of_le` and the like — where `write_pos` is not ahead.
-/

namespace Zrtools.ShmRing

open ByteMemory LittleEndian SharedMemory Wal

variable {cfg : Sizes}

-- ---------------------------------------------------------------------------
-- Stretches
-- ---------------------------------------------------------------------------

/-- Behind `base` the stretch `live` lies in the buffer, up to `write_pos`. -/
structure Stretch (cfg : Sizes) (s : Memory) (base live : List Segment) : Prop where
  writePos : (s.word .writePos).toNat = total base + total live
  stored : Stored cfg (s.byte ()) (total base) live
  numbered : ∀ e ∈ entriesOf live, e.seq ≠ 0 ∧ e.type ≠ 0

section Stretch

variable {s : Memory} {base live passed rest : List Segment} {seg : Segment} {pos : UInt64}

/-- What lies behind some of it. -/
theorem Stretch.drop (h : Stretch cfg s base (passed ++ rest)) :
    Stretch cfg s (base ++ passed) rest where
  writePos := by
    rw [h.writePos, total_append, total_append]
    omega
  stored := by
    rw [total_append]
    exact (stored_append.mp h.stored).2
  numbered := by
    intro e he
    refine h.numbered e ?_
    rw [entriesOf_append]
    exact List.mem_append_right _ he

/-- One segment further. -/
theorem Stretch.next (h : Stretch cfg s base (seg :: rest)) :
    Stretch cfg s (base ++ [seg]) rest := by
  have hsplit : Stretch cfg s base ([seg] ++ rest) := h
  exact hsplit.drop

theorem Stretch.headed (h : Stretch cfg s base live) (hpos : pos.toNat = total base) :
    Headed cfg (s.byte ()) pos.toNat live := by
  rw [hpos]
  exact h.stored.headed

theorem Stretch.writePos_eq (h : Stretch cfg s base live) (hpos : pos.toNat = total base) :
    (s.word .writePos).toNat = pos.toNat + total live := by
  rw [hpos]
  exact h.writePos

/-- The readers go through it. -/
theorem Stretch.scan (h : Stretch cfg s base live) (hpos : pos.toNat = total base) :
    Scan cfg s pos (starts pos live) (s.word .writePos) :=
  (h.headed hpos).scan (h.writePos_eq hpos)

theorem Stretch.toNat_behind (h : Stretch cfg s base (passed ++ rest))
    (hpos : pos.toNat = total base) :
    (behind pos passed).toNat = total (base ++ passed) := by
  rw [ShmRing.toNat_behind (h.writePos_eq hpos), hpos, total_append]

/-- One segment further. -/
theorem Stretch.add_size (h : Stretch cfg s base (seg :: rest)) (hpos : pos.toNat = total base) :
    (pos + UInt64.ofNat seg.size).toNat = total (base ++ [seg]) := by
  rw [toNat_add_size (h.writePos_eq hpos), hpos, total_append, total_cons, total_nil,
    Nat.add_zero]

/-- A skip record. -/
theorem Stretch.skipAt {n : Nat} (h : Stretch cfg s base (.skip n :: rest))
    (hpos : pos.toNat = total base) :
    SkipAt (s.byte ()) (offsetOf cfg pos) := by
  refine Or.inl ?_
  rw [(h.headed hpos).headerAt]
  rfl

/-- An entry, as it was appended. -/
theorem Stretch.dataAt_entry {e : Entry} (h : Stretch cfg s base (.entry e :: rest))
    (hpos : pos.toNat = total base) :
    dataAt (s.byte ()) (offsetOf cfg pos) = e.data.bytes := by
  have hlen : (Segment.entry e).header.dataLen.toNat = e.data.bytes.length := e.data.len_toNat
  have hbody := h.stored.1.body
  rw [← hpos] at hbody
  rw [dataAt, (h.headed hpos).headerAt, hlen]
  exact hbody

theorem Stretch.goodAt_entry {e : Entry} (h : Stretch cfg s base (.entry e :: rest))
    (hpos : pos.toNat = total base) :
    GoodAt (s.byte ()) (offsetOf cfg pos) := by
  obtain ⟨hseq, htype⟩ := h.numbered e (List.mem_cons_self ..)
  refine ⟨?_, ?_⟩
  · rw [SkipAt, (h.headed hpos).headerAt]
    exact fun hskip => hskip.elim hseq htype
  · rw [ValidAt, (h.headed hpos).headerAt, h.dataAt_entry hpos]
    exact validateCrc_updateCrc rfl

/-- What is not confirmed is such a stretch. -/
theorem Laid.stretch {confirmed : List Segment} (h : Laid cfg s confirmed live) :
    Stretch cfg s confirmed live where
  writePos := h.writePos
  stored := h.stored
  numbered := by
    intro e he
    have hmem : e ∈ entriesOf (confirmed ++ live) := by
      rw [entriesOf_append]
      exact List.mem_append_right _ he
    obtain ⟨htype, hseq, -⟩ := h.entries e hmem
    refine ⟨fun hzero => ?_, htype⟩
    rw [hzero] at hseq
    exact absurd hseq (by decide)

end Stretch

-- ---------------------------------------------------------------------------
-- ReadUnconfirmed
-- ---------------------------------------------------------------------------

/-- What a reader gets of an entry. -/
def Entry.copy (e : Entry) : Copy := (e.header, e.data.bytes)

section Walks

variable {s : Memory} {base live : List Segment} {pos : UInt64}

theorem copies_cons (m : Mem) (pos : UInt64) (l : List UInt64) :
    copies cfg m (pos :: l) = if GoodAt m (offsetOf cfg pos) then
      copyAt m (offsetOf cfg pos) :: copies cfg m l else copies cfg m l := by
  unfold copies
  by_cases hgood : GoodAt m (offsetOf cfg pos)
  · rw [if_pos hgood, List.filter_cons_of_pos (by simpa using hgood), List.map_cons]
  · rw [if_neg hgood, List.filter_cons_of_neg (by simpa using hgood)]

/-- Every entry is handed out. -/
theorem Stretch.copies_eq (h : Stretch cfg s base live) (hpos : pos.toNat = total base) :
    copies cfg (s.byte ()) (starts pos live) = (entriesOf live).map Entry.copy := by
  induction live generalizing base pos with
  | nil => rfl
  | cons seg rest ih =>
    rw [starts, copies_cons, ih h.next (h.add_size hpos)]
    cases seg with
    | skip n =>
      rw [if_neg fun hgood => hgood.1 (h.skipAt hpos)]
      rfl
    | entry e =>
      rw [if_pos (h.goodAt_entry hpos), copyAt, (h.headed hpos).headerAt, h.dataAt_entry hpos]
      rfl

/-- **`ReadUnconfirmed`** returns the entries that are not confirmed. -/
theorem Stretch.eval_readUnconfirmedCall (h : Stretch cfg s base live)
    (hpos : (s.word .confirmedPos).toNat = total base) (maxCount : Nat) :
    (readUnconfirmedCall cfg maxCount).eval s =
      (some (((entriesOf live).take maxCount).map Entry.copy), s) := by
  rw [ShmRing.eval_readUnconfirmedCall (h.scan hpos), h.copies_eq hpos, List.map_take]

-- ---------------------------------------------------------------------------
-- ConfirmBatch
-- ---------------------------------------------------------------------------

/-- What `ConfirmBatch` counts are the entries. -/
theorem Stretch.dropCounted_starts (h : Stretch cfg s base live) (hpos : pos.toNat = total base)
    (count : Nat) :
    ∃ a b, live = a ++ b ∧
      dropCounted (fun pos => ¬ SkipAt (s.byte ()) (offsetOf cfg pos)) count (starts pos live) =
        starts (behind pos a) b ∧
      entriesOf a = (entriesOf live).take count := by
  induction live generalizing base pos count with
  | nil => exact ⟨[], [], rfl, dropCounted_nil count, by simp⟩
  | cons seg rest ih =>
    cases count with
    | zero => exact ⟨[], seg :: rest, rfl, by rw [behind_nil]; rfl, by simp⟩
    | succ count =>
      cases seg with
      | skip n =>
        obtain ⟨a, b, hrest, hdrop, htake⟩ := ih h.next (h.add_size hpos) (count + 1)
        refine ⟨.skip n :: a, b, by rw [hrest]; rfl, ?_, htake⟩
        rw [starts, dropCounted, if_neg (not_not.mpr (h.skipAt hpos)), hdrop, behind_cons]
      | entry e =>
        obtain ⟨a, b, hrest, hdrop, htake⟩ := ih h.next (h.add_size hpos) count
        refine ⟨.entry e :: a, b, by rw [hrest]; rfl, ?_, congrArg (e :: ·) htake⟩
        rw [starts, dropCounted, if_pos (h.goodAt_entry hpos).1, hdrop, behind_cons]

/-- **`ConfirmBatch`** goes behind that many entries, or behind all. -/
theorem Stretch.eval_confirmBatchCall (h : Stretch cfg s base live)
    (hpos : (s.word .confirmedPos).toNat = total base) (count : Nat) :
    ∃ a b, live = a ++ b ∧ entriesOf a = (entriesOf live).take count ∧
      (confirmBatchCall cfg count).eval s =
        (some (), s.setWord .confirmedPos (behind (s.word .confirmedPos) a)) := by
  obtain ⟨a, b, rfl, hdrop, htake⟩ := h.dropCounted_starts hpos count
  refine ⟨a, b, rfl, htake, ?_⟩
  rw [ShmRing.eval_confirmBatchCall (h.scan hpos), hdrop,
    (h.drop.scan (h.toNat_behind hpos)).headD]

-- ---------------------------------------------------------------------------
-- ReadNext
-- ---------------------------------------------------------------------------

/-- `ReadNext` goes over skip records only. -/
theorem Stretch.readScan (h : Stretch cfg s base live) (hpos : pos.toNat = total base) :
    ∃ a b, live = a ++ b ∧ entriesOf a = [] ∧
      ReadScan cfg s pos (starts pos a) (behind pos a) ∧ ∀ n, b.head? ≠ some (.skip n) := by
  induction live generalizing base pos with
  | nil =>
    refine ⟨[], [], rfl, rfl, ?_, by simp⟩
    rw [behind_nil]
    refine .ended fun hahead => ?_
    have hend := h.writePos_eq hpos
    rw [UInt64.lt_iff_toNat_lt, hend, total_nil] at hahead
    exact Nat.lt_irrefl _ hahead.1
  | cons seg rest ih =>
    cases seg with
    | entry e =>
      refine ⟨[], .entry e :: rest, rfl, rfl, ?_, by simp⟩
      rw [behind_nil]
      exact .ended fun hahead => hahead.2 (h.goodAt_entry hpos)
    | skip n =>
      obtain ⟨a, b, hrest, hnone, hscan, hhead⟩ := ih h.next (h.add_size hpos)
      refine ⟨.skip n :: a, b, by rw [hrest]; rfl, hnone, ?_, hhead⟩
      rw [starts, behind_cons]
      refine .step ⟨?_, fun hgood => hgood.1 (h.skipAt hpos)⟩ ?_
      · exact (h.scan hpos).ahead pos (List.mem_cons_self ..)
      · rw [(h.headed hpos).nextPos]
        exact hscan

/-- **`ReadNext`** gives the next entry, and nothing only if there is none. -/
theorem Stretch.eval_readNextCall (h : Stretch cfg s base live)
    (hpos : (s.word .readPos).toNat = total base) (maxLen : Nat) :
    ∃ passed rest pos r, live = passed ++ rest ∧ pos.toNat = total (base ++ passed) ∧
      (readNextCall cfg maxLen).eval s = (some r, s.setWord .readPos pos) ∧
      (r = none ∧ rest = [] ∧ entriesOf passed = [] ∨
        ∃ e, r = some (e.header, e.data.bytes.take maxLen) ∧ entriesOf passed = [e]) := by
  obtain ⟨a, b, rfl, hnone, hscan, hhead⟩ := h.readScan hpos
  have hstart := h.toNat_behind hpos
  have hahead := h.drop
  rw [ShmRing.eval_readNextCall hscan]
  cases b with
  | nil =>
    have hend : ¬ behind (s.word .readPos) a < s.word .writePos := by
      rw [UInt64.lt_iff_toNat_lt, hahead.writePos, hstart, total_nil]
      omega
    rw [if_neg hend]
    exact ⟨a, [], _, none, rfl, hstart, rfl, Or.inl ⟨rfl, rfl, hnone⟩⟩
  | cons seg rest =>
    cases seg with
    | skip n => exact absurd rfl (hhead n)
    | entry e =>
      have hlt := (hahead.scan hstart).ahead _ (List.mem_cons_self ..)
      have hheaded := hahead.headed hstart
      rw [if_pos hlt, hheaded.headerAt, hahead.dataAt_entry hstart, hheaded.nextPos]
      refine ⟨a ++ [.entry e], rest, _, _, by simp, ?_, rfl, Or.inr ⟨e, rfl, by simp [hnone]⟩⟩
      rw [hahead.add_size hstart, List.append_assoc]

end Walks

-- ---------------------------------------------------------------------------
-- Confirm, with entries of any type
-- ---------------------------------------------------------------------------

section Tape

variable {s : Memory} {confirmed live a b : List Segment}

/-- The end of a part of what is not confirmed. -/
theorem Placed.toNat_behind (h : Placed cfg s confirmed (a ++ b)) :
    (behind (s.word .confirmedPos) a).toNat = total (confirmed ++ a) := by
  have hwrite := h.writePos
  have hlt := (s.word .writePos).toNat_lt
  rw [total_append] at hwrite
  rw [behind, toNat_add_ofNat (by rw [h.confirmedPos]; omega), h.confirmedPos, total_append]

theorem Placed.headed_behind (h : Placed cfg s confirmed (a ++ b)) :
    Headed cfg (s.byte ()) (behind (s.word .confirmedPos) a).toNat b := by
  rw [h.toNat_behind, total_append]
  exact (headed_append.mp h.stored.headed).2

theorem Placed.writePos_behind (h : Placed cfg s confirmed (a ++ b)) :
    (s.word .writePos).toNat = (behind (s.word .confirmedPos) a).toNat + total b := by
  rw [h.toNat_behind, h.writePos, total_append, total_append, Nat.add_assoc]

/-- The scan goes over the segments with smaller numbers. -/
theorem Placed.dropWhile_starts (h : Placed cfg s confirmed (a ++ b)) {seq : UInt64}
    (hbelow : ∀ seg ∈ a, seg.header.seq < seq) :
    ((starts (s.word .confirmedPos) (a ++ b)).dropWhile
        fun pos => seqAt cfg (s.byte ()) pos < seq) =
      (starts (behind (s.word .confirmedPos) a) b).dropWhile
        fun pos => seqAt cfg (s.byte ()) pos < seq := by
  have hheaded : Headed cfg (s.byte ()) (s.word .confirmedPos).toNat a := by
    rw [h.confirmedPos]
    exact (headed_append.mp h.stored.headed).1
  have hend : (behind (s.word .confirmedPos) a).toNat =
      (s.word .confirmedPos).toNat + total a := by
    rw [h.toNat_behind, h.confirmedPos, total_append]
  rw [starts_append]
  refine List.dropWhile_append_of_pos fun pos hpos => ?_
  obtain ⟨seg, hmem, hseq⟩ := hheaded.seqAt_of_mem hend hpos
  rw [hseq, decide_eq_true_iff]
  exact hbelow seg hmem

/-- `Confirm` goes up to the first segment with the number. -/
theorem Placed.confirm_finds (seg : Segment) (h : Placed cfg s confirmed (a ++ seg :: b))
    (hbelow : ∀ x ∈ a, x.header.seq < seg.header.seq) :
    (confirmCall cfg seg.header.seq).eval s =
      (some (), s.setWord .confirmedPos (behind (s.word .confirmedPos) (a ++ [seg]))) := by
  have hheaded := h.headed_behind
  have hseq : seqAt cfg (s.byte ()) (behind (s.word .confirmedPos) a) = seg.header.seq := by
    rw [seqAt, hheaded.headerAt]
  have hnext : nextPos cfg (s.byte ()) (behind (s.word .confirmedPos) a) =
      behind (s.word .confirmedPos) (a ++ [seg]) := by
    rw [hheaded.nextPos, behind_append, behind_cons, behind_nil]
  rw [eval_confirmCall h.scan, h.dropWhile_starts hbelow, starts, List.dropWhile_cons_of_neg]
  · dsimp only
    rw [if_pos hseq, hnext]
  · rw [hseq, decide_eq_true_iff]
    exact UInt64.lt_irrefl _

/-- `Confirm` stops before the first segment with a greater number, and changes nothing. -/
theorem Placed.confirm_stops (h : Placed cfg s confirmed (a ++ b)) {seq : UInt64}
    (hbelow : ∀ seg ∈ a, seg.header.seq < seq)
    (habove : ∀ seg ∈ b.head?, seq < seg.header.seq) :
    (confirmCall cfg seq).eval s = (some (), s) := by
  rw [eval_confirmCall h.scan, h.dropWhile_starts hbelow]
  cases b with
  | nil => rfl
  | cons seg rest =>
    have hlt := habove seg rfl
    have hseq : seqAt cfg (s.byte ()) (behind (s.word .confirmedPos) a) = seg.header.seq := by
      rw [seqAt, h.headed_behind.headerAt]
    rw [starts, List.dropWhile_cons_of_neg]
    · dsimp only
      rw [if_neg]
      rw [hseq]
      exact fun heq => UInt64.lt_irrefl _ (heq ▸ hlt)
    · rw [hseq, decide_eq_true_iff]
      exact UInt64.not_lt.mpr (UInt64.le_of_lt hlt)

/-- Where the scan stops. -/
theorem exists_split (seq : UInt64) (live : List Segment) :
    ∃ a b, live = a ++ b ∧ (∀ seg ∈ a, seg.header.seq < seq) ∧
      ∀ seg ∈ b.head?, seq ≤ seg.header.seq := by
  induction live with
  | nil => exact ⟨[], [], rfl, by simp, by simp⟩
  | cons seg rest ih =>
    by_cases hlt : seg.header.seq < seq
    · obtain ⟨a, b, rfl, hbelow, hnext⟩ := ih
      refine ⟨seg :: a, b, rfl, ?_, hnext⟩
      intro x hx
      rcases List.mem_cons.mp hx with rfl | hrest
      · exact hlt
      · exact hbelow x hrest
    · refine ⟨[], seg :: rest, rfl, by simp, ?_⟩
      intro x hx
      obtain rfl := Option.some.inj hx
      exact UInt64.not_lt.mp hlt

/-- Either way `confirmed_pos` is at the end of a segment. -/
theorem Placed.confirm (h : Placed cfg s confirmed live) (seq : UInt64) :
    ∃ a b, live = a ++ b ∧ (confirmCall cfg seq).eval s =
      (some (), s.setWord .confirmedPos (behind (s.word .confirmedPos) a)) := by
  have hstays : s.setWord .confirmedPos (behind (s.word .confirmedPos) []) = s := by
    rw [behind_nil, Shared.setWord_word]
  obtain ⟨a, b, rfl, hbelow, hnext⟩ := exists_split seq live
  by_cases hfinds : ∃ seg ∈ b.head?, seg.header.seq = seq
  · obtain ⟨seg, hhead, rfl⟩ := hfinds
    obtain ⟨rest, rfl⟩ := List.head?_eq_some_iff.mp hhead
    refine ⟨a ++ [seg], rest, ?_, h.confirm_finds seg hbelow⟩
    rw [List.append_assoc, List.singleton_append]
  · refine ⟨[], a ++ b, rfl, ?_⟩
    rw [hstays]
    refine h.confirm_stops hbelow fun seg hhead => ?_
    exact UInt64.lt_of_le_of_ne (hnext seg hhead) fun heq => hfinds ⟨seg, hhead, heq.symm⟩

theorem Placed.confirmBatch (h : Placed cfg s confirmed live) (count : Nat) :
    ∃ a b, live = a ++ b ∧ (confirmBatchCall cfg count).eval s =
      (some (), s.setWord .confirmedPos (behind (s.word .confirmedPos) a)) := by
  rw [eval_confirmBatchCall h.scan]
  have hsuffix : dropCounted (fun pos => ¬ SkipAt (s.byte ()) (offsetOf cfg pos)) count
      (starts (s.word .confirmedPos) live) <:+ starts (s.word .confirmedPos) live :=
    dropCounted_suffix ..
  obtain ⟨a, b, rfl, hrest⟩ := starts_suffix hsuffix
  refine ⟨a, b, rfl, ?_⟩
  rw [hrest, (h.headed_behind.scan h.writePos_behind).headD]

/-- The numbers of the segments before an entry are smaller. -/
theorem Placed.seq_lt {a b : List Segment} {e : Entry}
    (h : Placed cfg s confirmed (a ++ .entry e :: b)) :
    ∀ seg ∈ a, seg.header.seq < e.seq := by
  have hall : entriesOf (confirmed ++ (a ++ .entry e :: b)) =
      entriesOf confirmed ++ (entriesOf a ++ e :: entriesOf b) := by
    simp
  intro seg hseg
  rw [UInt64.lt_iff_toNat_lt]
  cases seg with
  | skip n =>
    refine (h.numbered e ?_).1
    rw [hall]
    simp
  | entry e' =>
    have hincreasing := h.increasing
    rw [hall, List.pairwise_append] at hincreasing
    exact (List.pairwise_append.mp hincreasing.2.1).2.2 e' (mem_entriesOf.mpr hseg) e
      (List.mem_cons_self ..)

/-- An entry has a number other than 0. -/
theorem Placed.seq_ne_zero {e : Entry} (h : Placed cfg s confirmed live)
    (he : e ∈ entriesOf live) : e.seq ≠ 0 := by
  intro hzero
  have hpos := (h.numbered e (by rw [entriesOf_append]; exact List.mem_append_right _ he)).1
  rw [hzero] at hpos
  exact absurd hpos (by decide)

end Tape

-- ---------------------------------------------------------------------------
-- Nothing ahead
-- ---------------------------------------------------------------------------

section NothingAhead

variable (cfg : Sizes) {s : Memory}

theorem eval_readUnconfirmedCall_of_le (h : s.word .writePos ≤ s.word .confirmedPos)
    (maxCount : Nat) : (readUnconfirmedCall cfg maxCount).eval s = (some [], s) := by
  have hscan : Scan cfg s (s.word .confirmedPos) [] (s.word .confirmedPos) :=
    .ended (UInt64.not_lt.mpr h)
  rw [eval_readUnconfirmedCall hscan]
  simp [copies]

theorem eval_confirmCall_of_le (h : s.word .writePos ≤ s.word .confirmedPos) (seq : UInt64) :
    (confirmCall cfg seq).eval s = (some (), s) := by
  have hscan : Scan cfg s (s.word .confirmedPos) [] (s.word .confirmedPos) :=
    .ended (UInt64.not_lt.mpr h)
  rw [eval_confirmCall hscan]
  rfl

theorem eval_confirmBatchCall_of_le (h : s.word .writePos ≤ s.word .confirmedPos)
    (count : Nat) : (confirmBatchCall cfg count).eval s = (some (), s) := by
  have hscan : Scan cfg s (s.word .confirmedPos) [] (s.word .confirmedPos) :=
    .ended (UInt64.not_lt.mpr h)
  rw [eval_confirmBatchCall hscan, dropCounted_nil, List.headD_nil, Shared.setWord_word]

theorem eval_readNextCall_of_le (h : s.word .writePos ≤ s.word .readPos) (maxLen : Nat) :
    (readNextCall cfg maxLen).eval s = (some none, s) := by
  have hnot : ¬ s.word .readPos < s.word .writePos := UInt64.not_lt.mpr h
  have hscan : ReadScan cfg s (s.word .readPos) [] (s.word .readPos) :=
    .ended fun hahead => hnot hahead.1
  rw [eval_readNextCall hscan, if_neg hnot, Shared.setWord_word]

end NothingAhead

end Zrtools.ShmRing

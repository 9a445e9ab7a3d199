import Zrtools.ShmRing.Record
import Zrtools.Lib.Walk

/-!
# zrtools — the readers on any bytes (`zrt_shm_ring.h`)

`ReadUnconfirmed`, `Confirm` and `ConfirmBatch` go from record to record, where each record
says where the next one begins. What they return and where they leave `confirmed_pos` follows
from the positions that they pass, whatever the bytes are.

* `nextPos`, `Scan` — the positions from one on to the first that is not before `write_pos`;
* `eval_readUnconfirmedAt`, `eval_confirmAt`, `eval_confirmBatchAt`, `eval_readNext` — one turn;
* `eval_readUnconfirmedCall`, `eval_confirmCall`, `eval_confirmBatchCall` — whole calls.
-/

namespace Zrtools.ShmRing

open ByteMemory LittleEndian SharedMemory Wal

variable {cfg : Sizes}

-- ---------------------------------------------------------------------------
-- Positions
-- ---------------------------------------------------------------------------

/-- Where a position is in the buffer. -/
abbrev offsetOf (cfg : Sizes) (pos : UInt64) : Nat := pos.toNat % cfg.bufferSize

/-- The position behind the record. -/
def nextPos (cfg : Sizes) (m : Mem) (pos : UInt64) : UInt64 :=
  pos + UInt64.ofNat (sizeAt m (offsetOf cfg pos))

/-- From `pos` on the records are at these positions, and the last one ends at `e`. -/
abbrev Scan (cfg : Sizes) (s : Memory) : UInt64 → List UInt64 → UInt64 → Prop :=
  Walk (nextPos cfg (s.byte ())) (· < s.word .writePos)

/-- `ReadNext` stops at the first entry that it can hand out. -/
abbrev ReadScan (cfg : Sizes) (s : Memory) : UInt64 → List UInt64 → UInt64 → Prop :=
  Walk (nextPos cfg (s.byte ()))
    fun pos => pos < s.word .writePos ∧ ¬ GoodAt (s.byte ()) (offsetOf cfg pos)

/-- There are fewer records than positions. -/
theorem length_lt_of_walk {next : UInt64 → UInt64} {Ahead : UInt64 → Prop} {w pos e : UInt64}
    {l : List UInt64} (h : Walk next Ahead pos l e) (himp : ∀ x, Ahead x → x < w) :
    l.length < maxTurns := by
  have hnodup : (l.map UInt64.toNat).Nodup :=
    h.nodup.map fun _ _ heq => UInt64.toNat_inj.mp heq
  have hsubset : l.map UInt64.toNat ⊆ List.range w.toNat := by
    intro n hn
    obtain ⟨x, hx, rfl⟩ := List.mem_map.mp hn
    exact List.mem_range.mpr (UInt64.lt_iff_toNat_lt.mp (himp x (h.ahead x hx)))
  have hle := (hnodup.subperm hsubset).length_le
  have hlt := w.toNat_lt
  rw [List.length_map, List.length_range] at hle
  exact Nat.lt_of_le_of_lt hle hlt

theorem length_lt_of_scan {s : Memory} {pos e : UInt64} {l : List UInt64}
    (h : Scan cfg s pos l e) : l.length < maxTurns := length_lt_of_walk h fun _ hx => hx

-- ---------------------------------------------------------------------------
-- One turn
-- ---------------------------------------------------------------------------

section Turns

variable (s : Memory) (pos writePos : UInt64)

theorem eval_readUnconfirmedAt {maxCount : Nat} {entries : List Copy}
    (h : pos < writePos ∧ entries.length < maxCount) :
    (readUnconfirmedAt cfg maxCount (pos, writePos, entries)).eval s =
      (.again (nextPos cfg (s.byte ()) pos, writePos,
        if GoodAt (s.byte ()) (offsetOf cfg pos) then
          entries ++ [copyAt (s.byte ()) (offsetOf cfg pos)] else entries), s) := by
  rw [readUnconfirmedAt, if_pos h, Prog.eval_bind, eval_loadDataLen]
  dsimp only
  rw [Prog.eval_bind, eval_isSkip]
  dsimp only
  by_cases hskip : SkipAt (s.byte ()) (offsetOf cfg pos)
  · have hbad : ¬ GoodAt (s.byte ()) (offsetOf cfg pos) := fun hgood => hgood.1 hskip
    rw [if_pos (decide_eq_true hskip), if_neg hbad]
    rfl
  · rw [if_neg (by simpa using hskip), Prog.eval_bind, eval_validateCrcAt]
    dsimp only
    by_cases hvalid : ValidAt (s.byte ()) (offsetOf cfg pos)
    · have hgood : GoodAt (s.byte ()) (offsetOf cfg pos) := ⟨hskip, hvalid⟩
      rw [if_pos (decide_eq_true hvalid), if_pos hgood, Prog.eval_bind, eval_copyEntry]
      rfl
    · have hbad : ¬ GoodAt (s.byte ()) (offsetOf cfg pos) := fun hgood => hvalid hgood.2
      rw [if_neg (by simpa using hvalid), if_neg hbad]
      rfl

theorem eval_readUnconfirmedAt_done {maxCount : Nat} {entries : List Copy}
    (h : ¬ (pos < writePos ∧ entries.length < maxCount)) :
    (readUnconfirmedAt cfg maxCount (pos, writePos, entries)).eval s = (.done entries, s) := by
  rw [readUnconfirmedAt, if_neg h]
  rfl

theorem eval_confirmBatchAt {count confirmed : Nat} (h : pos < writePos ∧ confirmed < count) :
    (confirmBatchAt cfg count (pos, writePos, confirmed)).eval s =
      (.again (nextPos cfg (s.byte ()) pos, writePos,
        if SkipAt (s.byte ()) (offsetOf cfg pos) then confirmed else confirmed + 1), s) := by
  rw [confirmBatchAt, if_pos h, Prog.eval_bind, eval_loadDataLen]
  dsimp only
  rw [Prog.eval_bind, eval_isSkip]
  simp only [decide_eq_true_eq]
  rfl

theorem eval_confirmBatchAt_done {count confirmed : Nat}
    (h : ¬ (pos < writePos ∧ confirmed < count)) :
    (confirmBatchAt cfg count (pos, writePos, confirmed)).eval s =
      (.done (), s.setWord .confirmedPos pos) := by
  rw [confirmBatchAt, if_neg h]
  rfl

/-- The number of the record at a position. -/
def seqAt (cfg : Sizes) (m : Mem) (pos : UInt64) : UInt64 := (headerAt m (offsetOf cfg pos)).seq

theorem eval_confirmAt {seq : UInt64} (h : pos < writePos ∧ seqAt cfg (s.byte ()) pos < seq) :
    (confirmAt cfg seq (pos, writePos)).eval s =
      (.again (nextPos cfg (s.byte ()) pos, writePos), s) := by
  have hne : seqAt cfg (s.byte ()) pos ≠ seq := fun heq => by
    rw [heq] at h
    exact absurd h.2 (UInt64.lt_irrefl _)
  have hle : ¬ seq < seqAt cfg (s.byte ()) pos := UInt64.not_lt.mpr (UInt64.le_of_lt h.2)
  rw [confirmAt, if_pos h.1, Prog.eval_bind, eval_loadDataLen]
  dsimp only
  rw [Prog.eval_bind, eval_loadSeq]
  dsimp only
  rw [if_neg (show ¬ (headerAt (s.byte ()) (offsetOf cfg pos)).seq = seq from hne),
    Prog.eval_bind, eval_loadSeq]
  dsimp only
  rw [if_neg (show ¬ seq < (headerAt (s.byte ()) (offsetOf cfg pos)).seq from hle)]
  rfl

theorem eval_confirmAt_done {seq : UInt64}
    (h : ¬ (pos < writePos ∧ seqAt cfg (s.byte ()) pos < seq)) :
    (confirmAt cfg seq (pos, writePos)).eval s =
      (.done (), if pos < writePos ∧ seqAt cfg (s.byte ()) pos = seq then
        s.setWord .confirmedPos (nextPos cfg (s.byte ()) pos) else s) := by
  rw [confirmAt]
  by_cases hlt : pos < writePos
  · rw [if_pos hlt, Prog.eval_bind, eval_loadDataLen]
    dsimp only
    rw [Prog.eval_bind, eval_loadSeq]
    dsimp only
    by_cases heq : seqAt cfg (s.byte ()) pos = seq
    · rw [if_pos (show (headerAt (s.byte ()) (offsetOf cfg pos)).seq = seq from heq),
        if_pos ⟨hlt, heq⟩]
      rfl
    · have hless : seq < seqAt cfg (s.byte ()) pos := by
        have hnot := fun hseq => h ⟨hlt, hseq⟩
        exact UInt64.lt_of_le_of_ne (UInt64.not_lt.mp hnot) (Ne.symm heq)
      rw [if_neg (show ¬ (headerAt (s.byte ()) (offsetOf cfg pos)).seq = seq from heq),
        if_neg fun h => heq h.2, Prog.eval_bind, eval_loadSeq]
      dsimp only
      rw [if_pos (show seq < (headerAt (s.byte ()) (offsetOf cfg pos)).seq from hless)]
      rfl
  · rw [if_neg hlt, if_neg fun h => hlt h.1]
    rfl

/-- The `memcpy` of `ReadNext`. -/
theorem eval_copyData (maxLen off : Nat) :
    (copyData maxLen off (headerAt (s.byte ()) off).dataLen).eval s =
      ((dataAt (s.byte ()) off).take maxLen, s) := by
  have hmin : (dataAt (s.byte ()) off).take maxLen = slice (s.byte ()) (off + 24)
      (min (headerAt (s.byte ()) off).dataLen.toNat maxLen) := by
    rw [dataAt, ← take_slice _ _ (Nat.min_le_left _ maxLen), List.take_eq_take_iff, length_slice]
    omega
  unfold copyData
  split
  · rw [Prog.eval_loadBytes, hmin]
  · rename_i hzero
    have hlen : (headerAt (s.byte ()) off).dataLen.toNat = 0 := by
      rw [UInt16.lt_iff_toNat_lt] at hzero
      exact Nat.eq_zero_of_not_pos hzero
    rw [hmin, hlen, Nat.zero_min]
    rfl

/-- `ReadNext` hands the entry out or passes over the record. -/
theorem eval_readNext (maxLen : Nat) (h : s.word .readPos < s.word .writePos) :
    (readNext cfg maxLen).eval s =
      (if GoodAt (s.byte ()) (offsetOf cfg (s.word .readPos)) then
          .done (some (headerAt (s.byte ()) (offsetOf cfg (s.word .readPos)),
            (dataAt (s.byte ()) (offsetOf cfg (s.word .readPos))).take maxLen))
        else .again (),
        s.setWord .readPos (nextPos cfg (s.byte ()) (s.word .readPos))) := by
  have hpass : (passOver (s.word .readPos) (offsetOf cfg (s.word .readPos)) :
      Code (Flow Unit (Option Copy))).eval s =
        (.again (), s.setWord .readPos (nextPos cfg (s.byte ()) (s.word .readPos))) := by
    rw [passOver, Prog.eval_bind, eval_loadDataLen]
    rfl
  rw [readNext, Prog.eval_load_bind, Prog.eval_load_bind, if_neg (UInt64.not_le.mpr h),
    Prog.eval_bind, eval_isSkip]
  dsimp only
  by_cases hskip : SkipAt (s.byte ()) (offsetOf cfg (s.word .readPos))
  · rw [if_pos (decide_eq_true hskip), if_neg fun hgood => hgood.1 hskip]
    exact hpass
  · rw [if_neg (by simpa using hskip), Prog.eval_bind, eval_validateCrcAt]
    dsimp only
    by_cases hvalid : ValidAt (s.byte ()) (offsetOf cfg (s.word .readPos))
    · rw [if_pos (decide_eq_true hvalid), if_pos ⟨hskip, hvalid⟩, takeEntry, Prog.eval_bind,
        Prog.eval_loadBytes]
      dsimp only
      rw [Prog.eval_bind, ← headerAt, eval_copyData]
      rfl
    · rw [if_neg (by simpa using hvalid), if_neg fun hgood => hvalid hgood.2]
      exact hpass

theorem eval_readNext_done (maxLen : Nat) (h : ¬ s.word .readPos < s.word .writePos) :
    (readNext cfg maxLen).eval s = (.done none, s) := by
  rw [readNext, Prog.eval_load_bind, Prog.eval_load_bind, if_pos (UInt64.not_lt.mp h)]
  rfl

end Turns

-- ---------------------------------------------------------------------------
-- Loops
-- ---------------------------------------------------------------------------

section Loops

variable (cfg) (s : Memory)

theorem walks_readUnconfirmedAt (maxCount : Nat) :
    Prog.Walks (readUnconfirmedAt cfg maxCount) (nextPos cfg (s.byte ()))
      (· < s.word .writePos) (fun _ entries => entries.length < maxCount)
      (fun pos entries => if GoodAt (s.byte ()) (offsetOf cfg pos) then
        entries ++ [copyAt (s.byte ()) (offsetOf cfg pos)] else entries)
      (fun pos entries => (pos, s.word .writePos, entries)) (fun _ => s) where
  go := fun _ _ hlt hroom => eval_readUnconfirmedAt s _ _ ⟨hlt, hroom⟩
  stop := fun _ _ h => ⟨_, _, eval_readUnconfirmedAt_done s _ _ h⟩

theorem walks_confirmAt (seq : UInt64) :
    Prog.Walks (confirmAt cfg seq) (nextPos cfg (s.byte ())) (· < s.word .writePos)
      (fun pos (_ : Unit) => seqAt cfg (s.byte ()) pos < seq) (fun _ _ => ())
      (fun pos _ => (pos, s.word .writePos)) (fun _ => s) where
  go := fun _ _ hlt hseq => eval_confirmAt s _ _ ⟨hlt, hseq⟩
  stop := fun _ _ h => ⟨_, _, eval_confirmAt_done s _ _ h⟩

theorem walks_confirmBatchAt (count : Nat) :
    Prog.Walks (confirmBatchAt cfg count) (nextPos cfg (s.byte ())) (· < s.word .writePos)
      (fun _ confirmed => confirmed < count)
      (fun pos confirmed => if ¬ SkipAt (s.byte ()) (offsetOf cfg pos) then confirmed + 1
        else confirmed)
      (fun pos confirmed => (pos, s.word .writePos, confirmed)) (fun _ => s) where
  go := by
    intro pos confirmed hlt hroom
    rw [eval_confirmBatchAt s _ _ ⟨hlt, hroom⟩, ite_not]
  stop := fun _ _ h => ⟨_, _, eval_confirmBatchAt_done s _ _ h⟩

/-- Storing `read_pos` moves it alone. -/
theorem readPos_lt_setReadPos_iff (pos : UInt64) :
    (s.setWord .readPos pos).word .readPos < (s.setWord .readPos pos).word .writePos ↔
      pos < s.word .writePos := by
  have hpos : (s.setWord .readPos pos).word .readPos = pos := Shared.word_setWord_self ..
  have hwrite : (s.setWord .readPos pos).word .writePos = s.word .writePos :=
    Shared.word_setWord_of_ne _ (by decide) _
  rw [hpos, hwrite]

/-- One turn of `ReadNext` at a position. -/
theorem eval_readNext_at (maxLen : Nat) (pos : UInt64) :
    (readNext cfg maxLen).eval (s.setWord .readPos pos) =
      if pos < s.word .writePos then
        (if GoodAt (s.byte ()) (offsetOf cfg pos) then
            .done (some (headerAt (s.byte ()) (offsetOf cfg pos),
              (dataAt (s.byte ()) (offsetOf cfg pos)).take maxLen))
          else .again (),
          s.setWord .readPos (nextPos cfg (s.byte ()) pos))
      else (.done none, s.setWord .readPos pos) := by
  have hpos : (s.setWord .readPos pos).word .readPos = pos := Shared.word_setWord_self ..
  have hahead := readPos_lt_setReadPos_iff s pos
  by_cases hlt : pos < s.word .writePos
  · rw [if_pos hlt, eval_readNext _ _ (hahead.mpr hlt), hpos, Shared.byte_setWord,
      Shared.setWord_setWord]
  · rw [if_neg hlt, eval_readNext_done _ _ fun h => hlt (hahead.mp h)]

/-- `ReadNext` puts every position it passes into `read_pos`. -/
theorem walks_readNext (maxLen : Nat) :
    Prog.Walks (fun () => readNext cfg maxLen) (nextPos cfg (s.byte ()))
      (fun pos => pos < s.word .writePos ∧ ¬ GoodAt (s.byte ()) (offsetOf cfg pos))
      (fun _ (_ : Unit) => True) (fun _ _ => ()) (fun _ _ => ())
      (fun pos => s.setWord .readPos pos) where
  go := by
    rintro pos - ⟨hlt, hbad⟩ -
    rw [eval_readNext_at, if_pos hlt, if_neg hbad]
  stop := by
    rintro pos - hstop
    rw [eval_readNext_at]
    by_cases hlt : pos < s.word .writePos
    · have hgood : GoodAt (s.byte ()) (offsetOf cfg pos) := by
        by_contra hbad
        exact hstop ⟨⟨hlt, hbad⟩, trivial⟩
      rw [if_pos hlt, if_pos hgood]
      exact ⟨_, _, rfl⟩
    · rw [if_neg hlt]
      exact ⟨_, _, rfl⟩

end Loops

-- ---------------------------------------------------------------------------
-- Whole calls
-- ---------------------------------------------------------------------------

/-- The entries among the records that the readers hand out. -/
def copies (cfg : Sizes) (m : Mem) (l : List UInt64) : List Copy :=
  (l.filter fun pos => GoodAt m (offsetOf cfg pos)).map fun pos => copyAt m (offsetOf cfg pos)

section Calls

variable {s : Memory} {l : List UInt64} {e : UInt64}
  (h : Scan cfg s (s.word .confirmedPos) l e)

include h

/-- **`ReadUnconfirmed`** on any bytes. -/
theorem eval_readUnconfirmedCall (maxCount : Nat) :
    (readUnconfirmedCall cfg maxCount).eval s =
      (some ((copies cfg (s.byte ()) l).take maxCount), s) := by
  obtain ⟨n, hloop⟩ := Prog.eval_loop_walk (walks_readUnconfirmedAt cfg s maxCount) h
    (length_lt_of_scan h) []
  have hstart : (readUnconfirmed : Code (Flow (UInt64 × UInt64 × List Copy) (List Copy))).eval s =
      (.again (s.word .confirmedPos, s.word .writePos, []), s) := rfl
  rw [readUnconfirmedCall, Prog.eval_call, hstart]
  dsimp only
  rw [hloop, Prog.eval_loop, eval_readUnconfirmedAt_done _ _ _ (travel_stops h []),
    travel_collect _ _ _ (Nat.zero_le _)]
  rfl

/-- **`ConfirmBatch`** on any bytes. -/
theorem eval_confirmBatchCall (count : Nat) :
    (confirmBatchCall cfg count).eval s =
      (some (), s.setWord .confirmedPos ((dropCounted
        (fun pos => ¬ SkipAt (s.byte ()) (offsetOf cfg pos)) count l).headD e)) := by
  by_cases hzero : count = 0
  · rw [hzero, dropCounted, h.headD, Shared.setWord_word]
    rfl
  · obtain ⟨n, hloop⟩ := Prog.eval_loop_walk (walks_confirmBatchAt cfg s count) h
      (length_lt_of_scan h) 0
    have hstart : (confirmBatch count).eval s =
        (.again (s.word .confirmedPos, s.word .writePos, 0), s) := by
      rw [confirmBatch, if_neg hzero]
      rfl
    rw [confirmBatchCall, Prog.eval_call, hstart]
    dsimp only
    rw [hloop, Prog.eval_loop, eval_confirmBatchAt_done _ _ _ (travel_stops h 0),
      travel_count _ _ (Nat.zero_le _)]
    rfl

/-- **`Confirm`** on any bytes. -/
theorem eval_confirmCall (seq : UInt64) :
    (confirmCall cfg seq).eval s =
      (some (), match l.dropWhile (fun pos => seqAt cfg (s.byte ()) pos < seq) with
        | [] => s
        | pos :: _ => if seqAt cfg (s.byte ()) pos = seq then
            s.setWord .confirmedPos (nextPos cfg (s.byte ()) pos) else s) := by
  obtain ⟨n, hloop⟩ := Prog.eval_loop_walk (walks_confirmAt cfg s seq) h
    (length_lt_of_scan h) ()
  have hstart : (confirm : Code (Flow (UInt64 × UInt64) Unit)).eval s =
      (.again (s.word .confirmedPos, s.word .writePos), s) := rfl
  rw [confirmCall, Prog.eval_call, hstart]
  dsimp only
  rw [hloop, Prog.eval_loop, eval_confirmAt_done _ _ _ (travel_stops h ()), travel_find]
  dsimp only
  cases hrest : l.dropWhile fun pos => seqAt cfg (s.byte ()) pos < seq with
  | nil => rw [List.headD_nil, if_neg fun hfound => h.not_ahead hfound.1]
  | cons pos rest =>
    have hmem : pos ∈ l := (List.dropWhile_suffix _).subset (by
      rw [hrest]
      exact List.mem_cons_self ..)
    simp only [List.headD_cons, h.ahead pos hmem, true_and]

end Calls

/-- Where `ReadNext` calls itself it is a loop. -/
theorem readNextCall_eq (maxLen : Nat) :
    readNextCall cfg maxLen = Prog.loop (fun () => readNext cfg maxLen) (maxTurns + 1) () := by
  rw [readNextCall]
  exact Prog.call_eq_loop (fun () => readNext cfg maxLen) maxTurns ()

/-- **`ReadNext`** on any bytes. -/
theorem eval_readNextCall {s : Memory} {l : List UInt64} {e : UInt64}
    (h : ReadScan cfg s (s.word .readPos) l e) (maxLen : Nat) :
    (readNextCall cfg maxLen).eval s =
      if e < s.word .writePos then
        (some (some (headerAt (s.byte ()) (offsetOf cfg e),
          (dataAt (s.byte ()) (offsetOf cfg e)).take maxLen)),
          s.setWord .readPos (nextPos cfg (s.byte ()) e))
      else (some none, s.setWord .readPos e) := by
  have hlength : l.length < maxTurns + 1 :=
    Nat.lt_succ_of_lt (length_lt_of_walk h fun _ hx => hx.1)
  obtain ⟨n, hloop⟩ := Prog.eval_loop_walk (walks_readNext cfg s maxLen) h hlength ()
  rw [travel_of_forall (fun _ _ => trivial), List.headD_nil, Shared.setWord_word] at hloop
  rw [readNextCall_eq, hloop, Prog.eval_loop, eval_readNext_at]
  by_cases hlt : e < s.word .writePos
  · have hgood : GoodAt (s.byte ()) (offsetOf cfg e) := by
      by_contra hbad
      exact h.not_ahead ⟨hlt, hbad⟩
    rw [if_pos hlt, if_pos hlt, if_pos hgood]
  · rw [if_neg hlt, if_neg hlt]

end Zrtools.ShmRing

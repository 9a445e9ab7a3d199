import Zrtools.ShmRing.Placed

/-!
# zrtools — the tape between two calls

Between two calls of a single process the positions and the buffer say what is on the
tape: what is confirmed, and what is not. Where `ReadNext` stands is left open here, and
so is what became of numbers that were taken and not used. No entry has type zero.

* `Laid` — the invariant;
* `Laid.appends` — `Append` puts its entry on the tape, or nothing but a skip record;
* `Laid.stoppedIn` — an `Append` that is stopped puts nothing there but a skip record.
-/

namespace Zrtools.ShmRing

open ByteMemory LittleEndian SharedMemory Wal

variable {cfg : Sizes}

-- ---------------------------------------------------------------------------
-- The invariant
-- ---------------------------------------------------------------------------

/-- The positions and the buffer against the tape. -/
structure Laid (cfg : Sizes) (s : Memory) (confirmed live : List Segment) : Prop where
  writePos : (s.word .writePos).toNat = total confirmed + total live
  confirmedPos : (s.word .confirmedPos).toNat = total confirmed
  stored : Stored cfg (s.byte ()) (total confirmed) live
  space : total live ≤ cfg.bufferSize
  entries : ∀ e ∈ entriesOf (confirmed ++ live),
    e.type ≠ 0 ∧ 0 < e.seq.toNat ∧ e.seq.toNat < (s.word .nextSeq).toNat
  increasing : (entriesOf (confirmed ++ live)).Pairwise fun a b => a.seq.toNat < b.seq.toNat
  nextSeq_pos : 0 < (s.word .nextSeq).toNat

section Invariant

variable {s s' : Memory} {confirmed live : List Segment}

theorem Laid.placed (h : Laid cfg s confirmed live) : Placed cfg s confirmed live :=
  ⟨h.writePos, h.confirmedPos, h.stored, h.space, fun e he => (h.entries e he).2, h.increasing,
    h.nextSeq_pos⟩

theorem Laid.type_ne_zero (h : Laid cfg s confirmed live) :
    ∀ e ∈ entriesOf (confirmed ++ live), e.type ≠ 0 := fun e he => (h.entries e he).1

theorem Placed.laid (h : Placed cfg s confirmed live)
    (htype : ∀ e ∈ entriesOf (confirmed ++ live), e.type ≠ 0) : Laid cfg s confirmed live :=
  ⟨h.writePos, h.confirmedPos, h.stored, h.space, fun e he => ⟨htype e he, h.numbered e he⟩,
    h.increasing, h.nextSeq_pos⟩

/-- The space in use. -/
theorem Laid.used (h : Laid cfg s confirmed live) :
    (s.word .writePos - s.word .confirmedPos).toNat = total live := h.placed.used

theorem Laid.used_le (h : Laid cfg s confirmed live) :
    (s.word .writePos - s.word .confirmedPos).toNat ≤ cfg.bufferSize := h.placed.used_le

/-- The test for a full buffer. -/
theorem Laid.room {size : Nat} (h : Laid cfg s confirmed live) (haccepts : Accepts cfg size s)
    (hsize : size ≤ 2 ^ 16 + walEntryHeaderSize) : total live + size ≤ cfg.bufferSize :=
  h.placed.room haccepts hsize

/-- Words that say nothing about the tape. -/
theorem Laid.setWord (h : Laid cfg s confirmed live) {v : Var}
    (hv : v = .readPos ∨ v = .clock) (x : UInt64) : Laid cfg (s.setWord v x) confirmed live :=
  (h.placed.setWord hv x).laid h.type_ne_zero

/-- The store to `confirmed_pos` confirms what lies before the new position. -/
theorem Laid.setConfirmed {a b : List Segment} {pos : UInt64}
    (h : Laid cfg s confirmed (a ++ b)) (hpos : pos.toNat = total (confirmed ++ a)) :
    Laid cfg (s.setWord .confirmedPos pos) (confirmed ++ a) b := by
  refine (h.placed.setConfirmed hpos).laid ?_
  rw [List.append_assoc]
  exact h.type_ne_zero

end Invariant

-- ---------------------------------------------------------------------------
-- A call of Append
-- ---------------------------------------------------------------------------

/-- The segments `segs` went on the tape, and no more than `k` bytes behind `write_pos`
were touched. -/
structure Grown (cfg : Sizes) (k : Nat) (s s' : Memory) (confirmed live segs : List Segment) :
    Prop where
  laid : Laid cfg s' confirmed (live ++ segs)
  spares : Spares cfg s (s'.byte ()) k
  nextSeq_le : (s.word .nextSeq).toNat ≤ (s'.word .nextSeq).toNat
  keeps : ∀ v, v ≠ .writePos → v ≠ .nextSeq → s'.word v = s.word v

section Append

variable {s s' : Memory} {confirmed live segs : List Segment} {k size : Nat}

/-- The new entries have types as well. -/
theorem Laid.grown (h : Laid cfg s confirmed live)
    (hextended : Extended cfg k s s' confirmed live segs)
    (htype : ∀ e ∈ entriesOf segs, e.type ≠ 0) : Grown cfg k s s' confirmed live segs where
  laid := by
    refine hextended.placed.laid fun e he => ?_
    rw [← List.append_assoc, entriesOf_append] at he
    exact (List.mem_append.mp he).elim (h.type_ne_zero e) (htype e)
  spares := hextended.spares
  nextSeq_le := hextended.nextSeq_le
  keeps := hextended.keeps

/-- The entry is put behind the others. -/
theorem Laid.grown_put {type : UInt16} {data : Payload} (h : Laid cfg s confirmed live)
    (htype : type ≠ 0) (hok : AppendOk cfg (entrySize data.len) s)
    (haccepts : Accepts cfg (entrySize data.len) s) (hfits : ¬ Wraps cfg (entrySize data.len) s)
    (hlays : Lays cfg s s' (.entry (newEntry s type data))) :
    Grown cfg (takes cfg (entrySize data.len) s) s s' confirmed live
      [.entry (newEntry s type data)] := by
  refine h.grown (h.placed.extended_put hok haccepts hfits hlays) fun e he => ?_
  obtain rfl : e = newEntry s type data := List.mem_singleton.mp he
  exact htype

/-- **`Append`** puts its entry on the tape iff it returns a number other than zero. It takes
no more numbers than it puts segments there. -/
theorem Laid.appends {type : UInt16} {data : Payload} {seq : UInt64}
    (h : Laid cfg s confirmed live) (htype : type ≠ 0)
    (hok : AppendOk cfg (entrySize data.len) s) (happends : Appends cfg type data s seq s') :
    ∃ segs, Grown cfg (takes cfg (entrySize data.len) s) s s' confirmed live segs ∧
      Put s type data seq segs ∧
      (s'.word .nextSeq).toNat ≤ (s.word .nextSeq).toNat + segs.length := by
  obtain ⟨segs, hextended, hput, hnumbers⟩ := h.placed.appends hok happends
  refine ⟨segs, h.grown hextended fun e he => ?_, hput, hnumbers⟩
  rcases hput with ⟨-, hnone⟩ | ⟨-, hone⟩
  · rw [hnone] at he
    cases he
  · rw [hone] at he
    obtain rfl := List.mem_singleton.mp he
    exact htype

/-- **An `Append` that is stopped** puts no entry on the tape. -/
theorem Laid.stoppedIn (h : Laid cfg s confirmed live) (hok : AppendOk cfg size s)
    (hpos : 0 < size) (hsize : size ≤ 2 ^ 16 + walEntryHeaderSize)
    (hstopped : StoppedIn cfg size s s') :
    ∃ segs, Grown cfg (takes cfg size s) s s' confirmed live segs ∧ entriesOf segs = [] := by
  obtain ⟨segs, hextended, hnone⟩ := h.placed.stoppedIn hok hpos hsize hstopped
  refine ⟨segs, h.grown hextended fun e he => ?_, hnone⟩
  rw [hnone] at he
  cases he

end Append

end Zrtools.ShmRing

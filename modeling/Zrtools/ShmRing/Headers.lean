import Zrtools.ShmRing.Placed
import Zrtools.ShmRing.Scan

/-!
# zrtools — a tape whose payloads may be damaged

The readers find their way by the headers alone. Where the headers of a stretch of tape are
in the buffer, the readers go from segment to segment, whatever has become of the payloads.

* `Headed` — the headers of a stretch of tape are in the buffer;
* `starts` — where its segments begin;
* `Headed.scan` — the readers go through these positions up to `write_pos`;
* `Placed.scan_of_headed` — so it is on any tape whose headers are intact.
-/

namespace Zrtools.ShmRing

open ByteMemory LittleEndian SharedMemory Wal

variable {cfg : Sizes}

/-- The headers of a stretch of tape from `pos` on lie in the buffer. -/
def Headed (cfg : Sizes) (m : Mem) : Nat → List Segment → Prop
  | _, [] => True
  | pos, seg :: rest =>
    slice m (pos % cfg.bufferSize) walEntryHeaderSize = seg.header.toBytes ∧
      Headed cfg m (pos + seg.size) rest

theorem Stored.headed {m : Mem} {pos : Nat} {live : List Segment} (h : Stored cfg m pos live) :
    Headed cfg m pos live := by
  induction live generalizing pos with
  | nil => trivial
  | cons seg rest ih => exact ⟨h.1.header, ih h.2⟩

theorem headed_append {m : Mem} {pos : Nat} {a b : List Segment} :
    Headed cfg m pos (a ++ b) ↔ Headed cfg m pos a ∧ Headed cfg m (pos + total a) b := by
  induction a generalizing pos with
  | nil => simp [Headed]
  | cons seg rest ih =>
    rw [List.cons_append, Headed, Headed, ih, total_cons, Nat.add_assoc, and_assoc]

theorem headerAt_of_slice {m : Mem} {off : Nat} {h : WalEntryHeader}
    (hslice : slice m off walEntryHeaderSize = h.toBytes) : headerAt m off = h := by
  rw [headerAt, hslice, WalEntryHeader.ofBytes_toBytes]

/-- Where the segments of a stretch of tape begin. -/
def starts : UInt64 → List Segment → List UInt64
  | _, [] => []
  | pos, seg :: rest => pos :: starts (pos + UInt64.ofNat seg.size) rest

/-- The position behind a stretch of tape. -/
def behind (pos : UInt64) (l : List Segment) : UInt64 := pos + UInt64.ofNat (total l)

@[simp] theorem behind_nil (pos : UInt64) : behind pos [] = pos := UInt64.add_zero pos

theorem behind_cons (pos : UInt64) (seg : Segment) (l : List Segment) :
    behind pos (seg :: l) = behind (pos + UInt64.ofNat seg.size) l := by
  rw [behind, behind, total_cons, UInt64.ofNat_add, UInt64.add_assoc]

theorem behind_append (pos : UInt64) (a b : List Segment) :
    behind pos (a ++ b) = behind (behind pos a) b := by
  rw [behind, behind, behind, total_append, UInt64.ofNat_add, UInt64.add_assoc]

theorem starts_append (pos : UInt64) (a b : List Segment) :
    starts pos (a ++ b) = starts pos a ++ starts (behind pos a) b := by
  induction a generalizing pos with
  | nil => simp [starts]
  | cons seg rest ih =>
    rw [List.cons_append, starts, starts, ih, behind_cons, List.cons_append]

/-- The last positions belong to the last segments. -/
theorem starts_suffix {pos : UInt64} {live : List Segment} {l : List UInt64}
    (h : l <:+ starts pos live) :
    ∃ a b, live = a ++ b ∧ l = starts (behind pos a) b := by
  induction live generalizing pos with
  | nil =>
    obtain rfl : l = [] := List.suffix_nil.mp h
    exact ⟨[], [], rfl, rfl⟩
  | cons seg rest ih =>
    rcases List.suffix_cons_iff.mp h with rfl | hrest
    · refine ⟨[], seg :: rest, rfl, ?_⟩
      rw [behind_nil, starts]
    · obtain ⟨a, b, rfl, rfl⟩ := ih hrest
      refine ⟨seg :: a, b, rfl, ?_⟩
      rw [behind_cons]

section Scan

variable {s : Memory} {pos : UInt64} {live : List Segment}

/-- The record at the beginning of a segment. -/
theorem Headed.headerAt {m : Mem} {seg : Segment} {rest : List Segment}
    (h : Headed cfg m pos.toNat (seg :: rest)) : headerAt m (offsetOf cfg pos) = seg.header :=
  headerAt_of_slice h.1

theorem Headed.nextPos {m : Mem} {seg : Segment} {rest : List Segment}
    (h : Headed cfg m pos.toNat (seg :: rest)) :
    nextPos cfg m pos = pos + UInt64.ofNat seg.size := by
  rw [ShmRing.nextPos, sizeAt, h.headerAt]
  rfl

/-- One segment further. -/
theorem toNat_add_size {seg : Segment} {rest : List Segment} {w : UInt64}
    (hend : w.toNat = pos.toNat + total (seg :: rest)) :
    (pos + UInt64.ofNat seg.size).toNat = pos.toNat + seg.size := by
  have hlt := w.toNat_lt
  rw [total_cons] at hend
  exact toNat_add_ofNat (by omega)

/-- A position before `write_pos` does not pass `2^64`. -/
theorem toNat_behind {a b : List Segment} {w : UInt64}
    (hend : w.toNat = pos.toNat + total (a ++ b)) :
    (behind pos a).toNat = pos.toNat + total a := by
  have hlt := w.toNat_lt
  rw [total_append] at hend
  exact toNat_add_ofNat (by omega)

/-- The positions have the numbers of the segments. -/
theorem Headed.seqAt_of_mem {m : Mem} {w x : UInt64} (h : Headed cfg m pos.toNat live)
    (hend : w.toNat = pos.toNat + total live) (hx : x ∈ starts pos live) :
    ∃ seg ∈ live, seqAt cfg m x = seg.header.seq := by
  induction live generalizing pos with
  | nil => cases hx
  | cons seg rest ih =>
    rcases List.mem_cons.mp hx with rfl | hrest
    · refine ⟨seg, List.mem_cons_self .., ?_⟩
      rw [seqAt, h.headerAt]
    · have hmove := toNat_add_size hend
      rw [total_cons] at hend
      obtain ⟨seg', hmem, hseq⟩ := ih (by rw [hmove]; exact h.2) (by omega) hrest
      exact ⟨seg', List.mem_cons_of_mem _ hmem, hseq⟩

/-- **The readers** go from segment to segment. -/
theorem Headed.scan (h : Headed cfg (s.byte ()) pos.toNat live)
    (hend : (s.word .writePos).toNat = pos.toNat + total live) :
    Scan cfg s pos (starts pos live) (s.word .writePos) := by
  induction live generalizing pos with
  | nil =>
    obtain rfl : s.word .writePos = pos := UInt64.toNat_inj.mp hend
    exact .ended (UInt64.lt_irrefl _)
  | cons seg rest ih =>
    have hsize := seg.header_le_size
    have hheader : walEntryHeaderSize = 24 := rfl
    have hmove := toNat_add_size hend
    rw [total_cons] at hend
    refine .step ?_ ?_
    · rw [UInt64.lt_iff_toNat_lt, hend]
      omega
    · rw [h.nextPos]
      refine ih ?_ (by omega)
      rw [hmove]
      exact h.2

/-- What lies behind the headers of a tape does not matter. -/
theorem Placed.scan_of_headed {t : Memory} {confirmed : List Segment}
    (h : Placed cfg s confirmed live) (hwords : t.word = s.word)
    (hheaded : Headed cfg (t.byte ()) (total confirmed) live) :
    Scan cfg t (t.word .confirmedPos) (starts (t.word .confirmedPos) live)
      (t.word .writePos) := by
  refine Headed.scan ?_ ?_
  · rw [hwords, h.confirmedPos]
    exact hheaded
  · rw [hwords, h.confirmedPos]
    exact h.writePos

/-- **The readers** go through what is not confirmed. -/
theorem Placed.scan {confirmed : List Segment} (h : Placed cfg s confirmed live) :
    Scan cfg s (s.word .confirmedPos) (starts (s.word .confirmedPos) live)
      (s.word .writePos) := h.scan_of_headed rfl h.stored.headed

end Scan

end Zrtools.ShmRing

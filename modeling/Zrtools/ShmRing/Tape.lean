import Zrtools.ShmRing.Model

/-!
# zrtools — what lies on a ring

Seen over all laps, a ring is a tape: the entries and skip records in the order in
which they were laid down, each behind the one before. The tape has three parts, what
is confirmed, what is read but not confirmed, and what is not read. Only the last two
must still lie in the buffer.

* `Stored` — the bytes of a stretch of tape are in the buffer;
* `Stored.storeByte` — a store into the free part of the buffer leaves them alone;
* `RingInv` — the words of the header and the buffer against the tape;
* `ProducerRely`, `ConsumerRely` — what each thread may do to the world of the other.
-/

namespace Zrtools.ShmRing

open ByteMemory LittleEndian SharedMemory Wal

-- ---------------------------------------------------------------------------
-- Segments
-- ---------------------------------------------------------------------------

/-- An entry as `Append` writes it. -/
structure Entry where
  seq : UInt64
  timestampNs : UInt64
  type : UInt16
  data : Payload

def Entry.header (e : Entry) : WalEntryHeader where
  seq := e.seq
  timestampNs := e.timestampNs
  type := e.type
  dataLen := e.data.len
  crc32 := updateCrc e.data.len e.data.bytes

/-- The skip record for the rest of a lap. -/
def skipHeader (remaining : Nat) : WalEntryHeader where
  seq := 0
  timestampNs := 0
  type := 0
  dataLen := UInt16.ofNat (remaining - walEntryHeaderSize)
  crc32 := 0

/-- A piece of the tape: an entry, or the rest of a lap. -/
inductive Segment where
  | entry (e : Entry)
  | skip (remaining : Nat)

namespace Segment

def header : Segment → WalEntryHeader
  | entry e => e.header
  | skip remaining => skipHeader remaining

def body : Segment → List UInt8
  | entry e => e.data.bytes
  | skip _ => []

/-- The space of a segment, as a reader computes it. -/
def size (seg : Segment) : Nat := entrySize seg.header.dataLen

def triple : Segment → Option (UInt64 × UInt16 × List UInt8)
  | entry e => some (e.seq, e.type, e.data.bytes)
  | skip _ => none

end Segment

theorem le_entrySize (dataLen : UInt16) :
    walEntryHeaderSize + dataLen.toNat ≤ entrySize dataLen := by
  unfold entrySize alignUp
  omega

theorem entrySize_le (dataLen : UInt16) : entrySize dataLen ≤ 2 ^ 16 + walEntryHeaderSize := by
  have := dataLen.toNat_lt
  have hheader : walEntryHeaderSize = 24 := rfl
  unfold entrySize alignUp
  omega

theorem eight_dvd_entrySize (dataLen : UInt16) : 8 ∣ entrySize dataLen := by
  unfold entrySize alignUp
  exact Nat.dvd_mul_left ..

theorem Segment.body_le_size (seg : Segment) :
    walEntryHeaderSize + seg.body.length ≤ seg.size := by
  have hle := le_entrySize seg.header.dataLen
  cases seg with
  | entry e =>
    have hlen : (Segment.entry e).header.dataLen.toNat = e.data.bytes.length :=
      e.data.len_toNat
    rw [hlen] at hle
    exact hle
  | skip remaining => exact Nat.le_trans (Nat.le_add_right _ _) hle

theorem Segment.header_le_size (seg : Segment) : walEntryHeaderSize ≤ seg.size :=
  Nat.le_trans (Nat.le_add_right _ _) seg.body_le_size

/-- A skip record reaches to the end of its lap, if it fits there at all. -/
theorem Segment.size_skip {remaining : Nat} (hle : walEntryHeaderSize ≤ remaining)
    (hdvd : 8 ∣ remaining) (hlt : remaining < 2 ^ 16 + walEntryHeaderSize) :
    (Segment.skip remaining).size = remaining := by
  have hheader : walEntryHeaderSize = 24 := rfl
  have hlen : (UInt16.ofNat (remaining - walEntryHeaderSize)).toNat =
      remaining - walEntryHeaderSize := by
    rw [UInt16.toNat_ofNat']
    exact Nat.mod_eq_of_lt (by omega)
  show entrySize (UInt16.ofNat (remaining - walEntryHeaderSize)) = remaining
  unfold entrySize alignUp
  rw [hlen]
  omega

/-- The length of a stretch of tape. -/
def total (l : List Segment) : Nat := (l.map Segment.size).sum

@[simp] theorem total_nil : total [] = 0 := rfl

@[simp] theorem total_cons (seg : Segment) (l : List Segment) :
    total (seg :: l) = seg.size + total l := by
  simp [total]

@[simp] theorem total_append (a b : List Segment) : total (a ++ b) = total a + total b := by
  simp [total]

/-- A stretch of tape has at most one segment for every eight bytes. -/
theorem length_le_total (l : List Segment) : 8 * l.length ≤ total l := by
  induction l with
  | nil => exact Nat.le_refl _
  | cons seg l ih =>
    have hsize := seg.header_le_size
    have hheader : walEntryHeaderSize = 24 := rfl
    rw [total_cons, List.length_cons]
    omega

theorem eight_dvd_total (l : List Segment) : 8 ∣ total l := by
  induction l with
  | nil => exact Nat.dvd_zero 8
  | cons seg l ih =>
    rw [total_cons]
    exact Nat.dvd_add (eight_dvd_entrySize _) ih

/-- The entries of a stretch of tape. -/
def triples (l : List Segment) : List (UInt64 × UInt16 × List UInt8) := l.filterMap Segment.triple

@[simp] theorem triples_append (a b : List Segment) :
    triples (a ++ b) = triples a ++ triples b := List.filterMap_append ..

-- ---------------------------------------------------------------------------
-- The buffer
-- ---------------------------------------------------------------------------

section Buffer

variable {cfg : Sizes}

/-- A position that does not reach `2^64`. -/
theorem toNat_add_ofNat {x : UInt64} {n : Nat} (h : x.toNat + n < 2 ^ 64) :
    (x + UInt64.ofNat n).toNat = x.toNat + n := by
  rw [UInt64.toNat_add, UInt64.toNat_ofNat', Nat.mod_eq_of_lt (show n < 2 ^ 64 by omega),
    Nat.mod_eq_of_lt h]

/-- A segment lies in the buffer, in one piece, where the tape is at `pos`. -/
structure Lies (cfg : Sizes) (m : Mem) (pos : Nat) (seg : Segment) : Prop where
  room : pos % cfg.bufferSize + seg.size ≤ cfg.bufferSize
  header : slice m (pos % cfg.bufferSize) walEntryHeaderSize = seg.header.toBytes
  body : slice m (pos % cfg.bufferSize + walEntryHeaderSize) seg.body.length = seg.body

/-- A stretch of tape from `pos` on lies in the buffer. -/
def Stored (cfg : Sizes) (m : Mem) : Nat → List Segment → Prop
  | _, [] => True
  | pos, seg :: rest => Lies cfg m pos seg ∧ Stored cfg m (pos + seg.size) rest

theorem stored_append {m : Mem} {pos : Nat} {a b : List Segment} :
    Stored cfg m pos (a ++ b) ↔ Stored cfg m pos a ∧ Stored cfg m (pos + total a) b := by
  induction a generalizing pos with
  | nil => simp [Stored]
  | cons seg a ih =>
    rw [List.cons_append, Stored, Stored, ih, total_cons, Nat.add_assoc, and_assoc]

/-- Two pieces of the tape less than a lap apart do not overlap in the buffer. -/
theorem mod_disjoint {b pos n w k : Nat} (hle : pos + n ≤ w) (hlap : w + k ≤ pos + b)
    (hroom : pos % b + n ≤ b) (hroom' : w % b + k ≤ b) :
    pos % b + n ≤ w % b ∨ w % b + k ≤ pos % b := by
  have hpos := Nat.div_add_mod pos b
  have hw := Nat.div_add_mod w b
  have hdiv : pos / b ≤ w / b := Nat.div_le_div_right (by omega)
  rcases Nat.eq_or_lt_of_le hdiv with heq | hlt
  · -- the same lap
    rw [heq] at hpos
    omega
  · rcases Nat.eq_or_lt_of_le hlt with heq | hlt
    · -- the next lap
      rw [← heq, Nat.mul_succ] at hw
      omega
    · have hmul : b * (pos / b + 2) ≤ b * (w / b) := Nat.mul_le_mul_left b hlt
      rw [Nat.mul_add] at hmul
      rcases Nat.eq_zero_or_pos b with rfl | hb
      · omega
      · have := Nat.mod_lt pos hb
        omega

/-- `[w, w + k)` is free for the producer: it lies in one piece and less than a lap
ahead of `pos`. -/
structure Free (cfg : Sizes) (pos w k : Nat) : Prop where
  lap : w + k ≤ pos + cfg.bufferSize
  room : w % cfg.bufferSize + k ≤ cfg.bufferSize

theorem Lies.storeByte {m : Mem} {pos w k i : Nat} {seg : Segment} (h : Lies cfg m pos seg)
    (hfree : Free cfg pos w k) (hle : pos + seg.size ≤ w) (hlo : w % cfg.bufferSize ≤ i)
    (hhi : i < w % cfg.bufferSize + k) (b : UInt8) : Lies cfg (write m i [b]) pos seg := by
  have hdisjoint := mod_disjoint hle hfree.lap h.room hfree.room
  have hbody := seg.body_le_size
  have hone : [b].length = 1 := rfl
  constructor
  case room => exact h.room
  case header =>
    rw [slice_write_of_disjoint (by rw [hone]; omega)]
    exact h.header
  case body =>
    rw [slice_write_of_disjoint (by rw [hone]; omega)]
    exact h.body

/-- A store into the free part leaves the tape alone. -/
theorem Stored.storeByte {m : Mem} {pos w k i : Nat} {l : List Segment}
    (h : Stored cfg m pos l) (hfree : Free cfg pos w k) (hle : pos + total l ≤ w)
    (hlo : w % cfg.bufferSize ≤ i) (hhi : i < w % cfg.bufferSize + k) (b : UInt8) :
    Stored cfg (write m i [b]) pos l := by
  induction l generalizing pos with
  | nil => trivial
  | cons seg rest ih =>
    obtain ⟨hseg, hrest⟩ := h
    rw [total_cons] at hle
    refine ⟨hseg.storeByte hfree (by omega) hlo hhi b, ih hrest ⟨?_, hfree.room⟩ (by omega)⟩
    have := hfree.lap
    omega

end Buffer

-- ---------------------------------------------------------------------------
-- The invariant
-- ---------------------------------------------------------------------------

/-- The tape of a ring. -/
structure Tape where
  confirmed : List Segment
  read : List Segment
  unread : List Segment

/-- What `ReadNext` has gone past. -/
def Tape.past (t : Tape) : List Segment := t.confirmed ++ t.read

/-- What must lie in the buffer. -/
def Tape.live (t : Tape) : List Segment := t.read ++ t.unread

def Tape.all (t : Tape) : List Segment := t.confirmed ++ (t.read ++ t.unread)

theorem Tape.all_eq_past (t : Tape) : t.all = t.past ++ t.unread :=
  (List.append_assoc ..).symm

abbrev World := Memory × Tape

variable {cfg : Config}

/-- The header and the buffer say what is on the tape. -/
structure RingInv (cfg : Config) (w : World) : Prop where
  writePos : (w.1.word .writePos).toNat = total w.2.all
  readPos : (w.1.word .readPos).toNat = total w.2.past
  confirmedPos : (w.1.word .confirmedPos).toNat = total w.2.confirmed
  stored : Stored cfg (w.1.byte ()) (total w.2.confirmed) w.2.live
  space : total w.2.live ≤ cfg.bufferSize
  entries : ∀ e, Segment.entry e ∈ w.2.all →
    e.type ≠ 0 ∧ e.data.bytes.length ≤ cfg.maxPayload ∧ 0 < e.seq.toNat ∧
      e.seq.toNat < (w.1.word .nextSeq).toNat
  increasing : ((triples w.2.all).map Prod.fst).Pairwise fun a b => a.toNat < b.toNat
  nextSeq_pos : 0 < (w.1.word .nextSeq).toNat
  nextSeq_le : (w.1.word .nextSeq).toNat ≤ w.2.all.length + 2

/-- Steps that put nothing on the tape and take no number. -/
theorem RingInv.move {w w' : World} (h : RingInv cfg w) (hall : w'.2.all = w.2.all)
    (hwrite : w'.1.word .writePos = w.1.word .writePos)
    (hnext : w'.1.word .nextSeq = w.1.word .nextSeq)
    (hread : (w'.1.word .readPos).toNat = total w'.2.past)
    (hconfirmed : (w'.1.word .confirmedPos).toNat = total w'.2.confirmed)
    (hstored : Stored cfg (w'.1.byte ()) (total w'.2.confirmed) w'.2.live)
    (hspace : total w'.2.live ≤ cfg.bufferSize) : RingInv cfg w' where
  writePos := by
    rw [hwrite, hall]
    exact h.writePos
  readPos := hread
  confirmedPos := hconfirmed
  stored := hstored
  space := hspace
  entries := by
    rw [hall, hnext]
    exact h.entries
  increasing := by
    rw [hall]
    exact h.increasing
  nextSeq_pos := by
    rw [hnext]
    exact h.nextSeq_pos
  nextSeq_le := by
    rw [hnext, hall]
    exact h.nextSeq_le

/-- The end of the tape is a position. -/
theorem RingInv.total_lt {w : World} (h : RingInv cfg w) : total w.2.all < 2 ^ 64 := by
  rw [← h.writePos]
  exact UInt64.toNat_lt _

/-- Every number on the tape was taken from `next_seq`. -/
theorem RingInv.below {w : World} (h : RingInv cfg w) :
    ∀ t ∈ triples w.2.all, t.1.toNat < (w.1.word .nextSeq).toNat := by
  intro t ht
  obtain ⟨seg, hseg, htriple⟩ := List.mem_filterMap.mp ht
  cases seg with
  | skip remaining => simp [Segment.triple] at htriple
  | entry e =>
    obtain rfl := Option.some.inj htriple
    exact (h.entries e hseg).2.2.2

/-- What the consumer may do to the world of the producer. -/
structure ProducerRely (w w' : World) : Prop where
  buffer : w'.1.byte () = w.1.byte ()
  writePos : w'.1.word .writePos = w.1.word .writePos
  nextSeq : w'.1.word .nextSeq = w.1.word .nextSeq
  all : w'.2.all = w.2.all
  confirmed : total w.2.confirmed ≤ total w'.2.confirmed

/-- What the producer may do to the world of the consumer. -/
structure ConsumerRely (w w' : World) : Prop where
  confirmed : w'.2.confirmed = w.2.confirmed
  read : w'.2.read = w.2.read
  unread : w.2.unread <+: w'.2.unread

theorem ProducerRely.refl (w : World) : ProducerRely w w := ⟨rfl, rfl, rfl, rfl, Nat.le_refl _⟩

theorem ProducerRely.trans {w w' w'' : World} (h : ProducerRely w w') (h' : ProducerRely w' w'') :
    ProducerRely w w'' :=
  ⟨h'.buffer.trans h.buffer, h'.writePos.trans h.writePos, h'.nextSeq.trans h.nextSeq,
    h'.all.trans h.all, Nat.le_trans h.confirmed h'.confirmed⟩

theorem ConsumerRely.refl (w : World) : ConsumerRely w w := ⟨rfl, rfl, List.prefix_refl _⟩

theorem ConsumerRely.trans {w w' w'' : World} (h : ConsumerRely w w') (h' : ConsumerRely w' w'') :
    ConsumerRely w w'' :=
  ⟨h'.confirmed.trans h.confirmed, h'.read.trans h.read, h.unread.trans h'.unread⟩

theorem ConsumerRely.past {w w' : World} (h : ConsumerRely w w') : w'.2.past = w.2.past := by
  unfold Tape.past
  rw [h.confirmed, h.read]

/-- A new ring: nothing on the tape. -/
theorem ringInv_fresh (cfg : Config) (beyond : Mem) (now : UInt64) :
    RingInv cfg ((Sys.fresh cfg beyond now).memory, ⟨[], [], []⟩) where
  writePos := rfl
  readPos := rfl
  confirmedPos := rfl
  stored := trivial
  space := Nat.zero_le _
  entries := by
    intro e he
    cases he
  increasing := List.Pairwise.nil
  nextSeq_pos := Nat.one_pos
  nextSeq_le := by
    show (1 : UInt64).toNat ≤ 0 + 2
    decide

end Zrtools.ShmRing

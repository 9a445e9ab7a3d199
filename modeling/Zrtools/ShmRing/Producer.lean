import Zrtools.ShmRing.Fields

/-!
# zrtools — the producer's side of the ring

`Append` keeps the ring in order while the consumer reads and confirms: it writes into
the free part only, and puts a segment on the tape with the store to `write_pos`. This
needs the condition `WrapOk` where it takes a number: a lap that ends early ends with
room for a skip record, and no position reaches `2^64`.

* `safe_append` — `Append` under the consumer's steps.
-/

namespace Zrtools.ShmRing

open ByteMemory LittleEndian SharedMemory Wal

variable {cfg : Config}

/-- Where `Append` takes a number for an entry of `size` bytes: at the end of a lap
there is room for a skip record if the entry does not fit, and the position it will
store does not reach `2^64`. -/
def WrapOk (cfg : Config) (size : Nat) (m : Memory) : Access Var Unit → Prop
  | .fetchAdd .nextSeq _ =>
    let writePos := (m.word .writePos).toNat
    let off := writePos % cfg.bufferSize
    if cfg.bufferSize < off + size then
      walEntryHeaderSize ≤ cfg.bufferSize - off ∧ writePos + (cfg.bufferSize - off) < 2 ^ 64
    else writePos + size < 2 ^ 64
  | _ => True

instance decidableWrapOk (cfg : Config) (size : Nat) (m : Memory) :
    (o : Access Var Unit) → Decidable (WrapOk cfg size m o)
  | .fetchAdd .nextSeq _ => by
    unfold WrapOk
    infer_instance
  | .fetchAdd .writePos _ => isTrue trivial
  | .fetchAdd .readPos _ => isTrue trivial
  | .fetchAdd .confirmedPos _ => isTrue trivial
  | .fetchAdd .clock _ => isTrue trivial
  | .load _ => isTrue trivial
  | .store _ _ => isTrue trivial
  | .loadByte _ _ => isTrue trivial
  | .storeByte _ _ _ => isTrue trivial

/-- The bargain of `Append`: until its last access the entries on the tape are `before`. -/
def producerContract (cfg : Config) (size : Nat) (before : List (UInt64 × UInt16 × List UInt8)) :
    Contract Var Unit Tape where
  rely w w' := RingInv cfg w' ∧ ProducerRely w w'
  ok := WrapOk cfg size
  guar w w' := RingInv cfg w' ∧ ConsumerRely w w'
  during w := triples w.2.all = before

/-- Between two calls of `Append`. -/
structure Ready (cfg : Config) (before : List (UInt64 × UInt16 × List UInt8)) (w : World) :
    Prop where
  inv : RingInv cfg w
  entries : triples w.2.all = before
  nextSeq : (w.1.word .nextSeq).toNat ≤ w.2.all.length + 1

theorem Ready.rely {before : List (UInt64 × UInt16 × List UInt8)} {w w' : World}
    (h : Ready cfg before w) (hinv : RingInv cfg w') (hrely : ProducerRely w w') :
    Ready cfg before w' where
  inv := hinv
  entries := by
    rw [hrely.all]
    exact h.entries
  nextSeq := by
    rw [hrely.nextSeq, hrely.all]
    exact h.nextSeq

-- ---------------------------------------------------------------------------
-- Writing into the free part
-- ---------------------------------------------------------------------------

/-- The producer at `writePos`, with `confirmed` confirmed when it looked, and the buffer
as it has written it. -/
structure Drafting (cfg : Config) (tape : List Segment) (writePos nextSeq : UInt64)
    (confirmed : Nat) (m : Mem) (w : World) : Prop where
  inv : RingInv cfg w
  all : w.2.all = tape
  pos : w.1.word .writePos = writePos
  seq : w.1.word .nextSeq = nextSeq
  confirmed_le : confirmed ≤ total w.2.confirmed
  buffer : w.1.byte () = m

section Drafting

variable {tape : List Segment} {writePos nextSeq : UInt64} {confirmed size k : Nat}
  {before : List (UInt64 × UInt16 × List UInt8)}

/-- One byte into the free part. -/
theorem Drafting.setByte {m : Mem} {w : World} {i : Nat} (b : UInt8)
    (h : Drafting cfg tape writePos nextSeq confirmed m w)
    (hfree : Free cfg confirmed writePos.toNat k) (hlo : writePos.toNat % cfg.bufferSize ≤ i)
    (hhi : i < writePos.toNat % cfg.bufferSize + k) :
    RingInv cfg (w.1.setByte () i b, w.2) ∧
      Drafting cfg tape writePos nextSeq confirmed (write m i [b]) (w.1.setByte () i b, w.2) := by
  have hpos : writePos.toNat = total w.2.confirmed + total w.2.live := by
    rw [← h.pos, h.inv.writePos]
    exact total_append ..
  have hle := h.confirmed_le
  have hlap := hfree.lap
  have hstored : Stored cfg ((w.1.setByte () i b).byte ()) (total w.2.confirmed) w.2.live := by
    rw [Shared.byte_setByte_self]
    exact h.inv.stored.storeByte ⟨by omega, hfree.room⟩ (by omega) hlo hhi b
  have hinv : RingInv cfg (w.1.setByte () i b, w.2) :=
    h.inv.move rfl rfl rfl h.inv.readPos h.inv.confirmedPos hstored h.inv.space
  refine ⟨hinv, hinv, h.all, h.pos, h.seq, hle, ?_⟩
  show (w.1.setByte () i b).byte () = write m i [b]
  rw [Shared.byte_setByte_self, h.buffer]

variable (hbefore : triples tape = before)

include hbefore in
theorem Drafting.keeps (m : Mem) : Keeps (producerContract cfg size before)
    (Drafting cfg tape writePos nextSeq confirmed m) where
  rely := by
    intro w w' h hrely
    exact ⟨hrely.1, hrely.2.all.trans h.all, hrely.2.writePos.trans h.pos,
      hrely.2.nextSeq.trans h.seq, Nat.le_trans h.confirmed_le hrely.2.confirmed,
      hrely.2.buffer.trans h.buffer⟩
  during := by
    intro w h
    show triples w.2.all = before
    rw [h.all, hbefore]
  guar := fun w h => ⟨h.inv, ConsumerRely.refl w⟩

include hbefore in
/-- Stores into the free part. -/
theorem Drafting.draft (hfree : Free cfg confirmed writePos.toNat k) :
    Draft (producerContract cfg size before) (writePos.toNat % cfg.bufferSize)
      (writePos.toNat % cfg.bufferSize + k)
      (Drafting cfg tape writePos nextSeq confirmed) where
  keeps := Drafting.keeps hbefore
  buffer := fun _ _ h => h.buffer
  store := by
    intro m w i b hlo hhi h
    obtain ⟨hinv, hnext⟩ := h.setByte b hfree hlo hhi
    exact ⟨w.2, ⟨hinv, rfl, rfl, List.prefix_refl _⟩, hnext⟩

-- ---------------------------------------------------------------------------
-- The number
-- ---------------------------------------------------------------------------

/-- A number that `Append` has taken from `next_seq` and not yet put on the tape. -/
structure Taken (tape : List Segment) (seq nextSeq : UInt64) : Prop where
  pos : 0 < seq.toNat
  above : ∀ t ∈ triples tape, t.1.toNat < seq.toNat
  lt : seq.toNat < nextSeq.toNat

/-- `next_seq` does not wrap: there are fewer segments than positions. -/
theorem Drafting.nextSeq_succ {m : Mem} {w : World}
    (h : Drafting cfg tape writePos nextSeq confirmed m w)
    (hcount : nextSeq.toNat ≤ tape.length + 1) : (nextSeq + 1).toNat = nextSeq.toNat + 1 := by
  have hle := length_le_total tape
  have hlt := h.inv.total_lt
  rw [h.all] at hlt
  exact toNat_add_ofNat (n := 1) (by omega)

theorem Drafting.taken {m : Mem} {w : World}
    (h : Drafting cfg tape writePos nextSeq confirmed m w)
    (hcount : nextSeq.toNat ≤ tape.length + 1) : Taken tape nextSeq (nextSeq + 1) where
  pos := by
    rw [← h.seq]
    exact h.inv.nextSeq_pos
  above := by
    rw [← h.all, ← h.seq]
    exact h.inv.below
  lt := by
    rw [h.nextSeq_succ hcount]
    exact Nat.lt_succ_self _

/-- The `fetch_add` on `next_seq`. -/
theorem Drafting.takeSeq {m : Mem} {w : World}
    (h : Drafting cfg tape writePos nextSeq confirmed m w)
    (hcount : nextSeq.toNat ≤ tape.length + 1) :
    Drafting cfg tape writePos (nextSeq + 1) confirmed m
      (w.1.setWord .nextSeq (w.1.word .nextSeq + 1), w.2) := by
  have hnext := h.nextSeq_succ hcount
  have hkeep : ∀ v, v ≠ Var.nextSeq →
      (w.1.setWord .nextSeq (w.1.word .nextSeq + 1)).word v = w.1.word v :=
    fun v hv => Shared.word_setWord_of_ne _ hv _
  have hseq : (w.1.setWord .nextSeq (w.1.word .nextSeq + 1)).word .nextSeq = nextSeq + 1 := by
    rw [Shared.word_setWord_self, h.seq]
  refine ⟨?_, h.all, (hkeep _ (by decide)).trans h.pos, hseq, h.confirmed_le, h.buffer⟩
  constructor
  case writePos =>
    rw [hkeep _ (by decide)]
    exact h.inv.writePos
  case readPos =>
    rw [hkeep _ (by decide)]
    exact h.inv.readPos
  case confirmedPos =>
    rw [hkeep _ (by decide)]
    exact h.inv.confirmedPos
  case stored => exact h.inv.stored
  case space => exact h.inv.space
  case entries =>
    intro e he
    obtain ⟨htype, hlen, hpos, hlt⟩ := h.inv.entries e he
    rw [h.seq] at hlt
    rw [hseq, hnext]
    exact ⟨htype, hlen, hpos, Nat.lt_succ_of_lt hlt⟩
  case increasing => exact h.inv.increasing
  case nextSeq_pos =>
    rw [hseq, hnext]
    exact Nat.succ_pos _
  case nextSeq_le =>
    rw [hseq, hnext, h.all]
    omega

-- ---------------------------------------------------------------------------
-- The store to write_pos
-- ---------------------------------------------------------------------------

theorem Tape.all_push (t : Tape) (seg : Segment) :
    Tape.all { t with unread := t.unread ++ [seg] } = t.all ++ [seg] := by
  simp [Tape.all]

theorem Tape.live_push (t : Tape) (seg : Segment) :
    Tape.live { t with unread := t.unread ++ [seg] } = t.live ++ [seg] := by
  simp [Tape.live]

/-- A number that was taken is above those on the tape. -/
theorem Drafting.increasing_push {m : Mem} {w : World} {seg : Segment}
    (h : Drafting cfg tape writePos nextSeq confirmed m w)
    (htaken : ∀ e, seg = .entry e → Taken tape e.seq nextSeq) :
    ((triples (w.2.all ++ [seg])).map Prod.fst).Pairwise fun a b => a.toNat < b.toNat := by
  rw [triples_append, List.map_append, List.pairwise_append]
  refine ⟨h.inv.increasing, ?_, ?_⟩
  · cases seg with
    | entry e => exact List.pairwise_singleton _ _
    | skip remaining => exact List.Pairwise.nil
  · intro a ha b hb
    cases seg with
    | entry e =>
      rw [h.all] at ha
      obtain ⟨t, ht, rfl⟩ := List.mem_map.mp ha
      rw [List.mem_singleton.mp hb]
      exact (htaken e rfl).above t ht
    | skip remaining => cases hb

/-- A segment goes on the tape. Its number, if it has one, is above all others. -/
theorem Drafting.publish {m : Mem} {w : World} {seg : Segment}
    (h : Drafting cfg tape writePos nextSeq confirmed m w)
    (hlies : Lies cfg m writePos.toNat seg)
    (hlap : writePos.toNat + seg.size ≤ confirmed + cfg.bufferSize)
    (hlt : writePos.toNat + seg.size < 2 ^ 64)
    (hentry : ∀ e, seg = .entry e →
      e.type ≠ 0 ∧ e.data.bytes.length ≤ cfg.maxPayload ∧ Taken tape e.seq nextSeq)
    (hnext : nextSeq.toNat ≤ tape.length + 2) :
    RingInv cfg (w.1.setWord .writePos (writePos + UInt64.ofNat seg.size),
        { w.2 with unread := w.2.unread ++ [seg] }) ∧
      Ready cfg (triples tape ++ triples [seg])
        (w.1.setWord .writePos (writePos + UInt64.ofNat seg.size),
          { w.2 with unread := w.2.unread ++ [seg] }) := by
  have hpos : writePos.toNat = total w.2.confirmed + total w.2.live := by
    rw [← h.pos, h.inv.writePos]
    exact total_append ..
  have hkeep : ∀ v, v ≠ Var.writePos →
      (w.1.setWord .writePos (writePos + UInt64.ofNat seg.size)).word v = w.1.word v :=
    fun v hv => Shared.word_setWord_of_ne _ hv _
  have hinv : RingInv cfg (w.1.setWord .writePos (writePos + UInt64.ofNat seg.size),
      { w.2 with unread := w.2.unread ++ [seg] }) := by
    constructor
    case writePos =>
      rw [Shared.word_setWord_self, toNat_add_ofNat hlt, Tape.all_push, total_append, ← h.pos,
        h.inv.writePos]
      simp
    case readPos =>
      rw [hkeep _ (by decide)]
      exact h.inv.readPos
    case confirmedPos =>
      rw [hkeep _ (by decide)]
      exact h.inv.confirmedPos
    case stored =>
      rw [Tape.live_push, stored_append]
      refine ⟨h.inv.stored, ?_, trivial⟩
      rw [← hpos]
      show Lies cfg (w.1.byte ()) _ _
      rw [h.buffer]
      exact hlies
    case space =>
      have hle := h.confirmed_le
      rw [Tape.live_push, total_append]
      simp only [total_cons, total_nil]
      omega
    case entries =>
      intro e he
      rw [hkeep _ (by decide)]
      rw [Tape.all_push] at he
      rcases List.mem_append.mp he with he | he
      · exact h.inv.entries e he
      · obtain ⟨htype, hlen, htaken⟩ := hentry e (List.mem_singleton.mp he).symm
        rw [h.seq]
        exact ⟨htype, hlen, htaken.pos, htaken.lt⟩
    case increasing =>
      rw [Tape.all_push]
      exact h.increasing_push fun e he => (hentry e he).2.2
    case nextSeq_pos =>
      rw [hkeep _ (by decide)]
      exact h.inv.nextSeq_pos
    case nextSeq_le =>
      rw [hkeep _ (by decide), h.seq, Tape.all_push, h.all, List.length_append]
      omega
  refine ⟨hinv, hinv, ?_, ?_⟩
  · rw [Tape.all_push, triples_append, h.all]
  · rw [hkeep _ (by decide), h.seq, Tape.all_push, h.all, List.length_append]
    show nextSeq.toNat ≤ tape.length + 1 + 1
    omega

-- ---------------------------------------------------------------------------
-- The two ends of Append
-- ---------------------------------------------------------------------------

/-- The triple of an `Append` that returned a number other than zero. -/
def appendResult (type : UInt16) (data : Payload) (seq : UInt64) :
    List (UInt64 × UInt16 × List UInt8) :=
  if seq = 0 then [] else [(seq, type, data.bytes)]

/-- What is left of a lap is a multiple of eight. -/
theorem Drafting.eight_dvd_remaining {m : Mem} {w : World}
    (h : Drafting cfg tape writePos nextSeq confirmed m w) :
    8 ∣ cfg.bufferSize - writePos.toNat % cfg.bufferSize := by
  have htotal := eight_dvd_total tape
  rw [← h.all, ← h.inv.writePos, h.pos] at htotal
  exact Nat.dvd_sub cfg.aligned ((Nat.dvd_mod_iff cfg.aligned).mpr htotal)

include hbefore in
/-- The entry does not fit: the rest of the lap is skipped and `Append` calls itself. -/
theorem safe_skipLap {m : Mem} {w : World} {post : UInt64 → World → Prop} {remaining : Nat}
    (h : Drafting cfg tape writePos nextSeq confirmed m w)
    (hnext : nextSeq.toNat ≤ tape.length + 2)
    (hremaining : cfg.bufferSize - writePos.toNat % cfg.bufferSize = remaining)
    (hskip : walEntryHeaderSize ≤ remaining) (hsmall : remaining < 2 ^ 16 + walEntryHeaderSize)
    (hlap : writePos.toNat + remaining ≤ confirmed + cfg.bufferSize)
    (hlt : writePos.toNat + remaining < 2 ^ 64) :
    Safe (producerContract cfg size before) (loopPost (fun _ => Ready cfg before) post)
      (do
        writeSkip (writePos.toNat % cfg.bufferSize) remaining
        Prog.store .writePos (writePos + UInt64.ofNat remaining)
        pure (Flow.again ())) w := by
  have hheader : walEntryHeaderSize = 24 := rfl
  have hsize : (Segment.skip remaining).size = remaining := by
    refine Segment.size_skip hskip ?_ hsmall
    rw [← hremaining]
    exact h.eight_dvd_remaining
  have hfree : Free cfg confirmed writePos.toNat remaining := ⟨hlap, by omega⟩
  refine Safe.bind _
    ((Drafting.draft hbefore hfree).writeSkip (Nat.le_refl _) (Nat.le_refl _) hskip h) ?_
  rintro _ w ⟨m, h, hslice⟩
  refine safe_access (Drafting.keeps hbefore m) h fun w h _ => ?_
  have hlies : Lies cfg m writePos.toNat (.skip remaining) :=
    ⟨by rw [hsize]; exact hfree.room, hslice, rfl⟩
  obtain ⟨hinv, hready⟩ := h.publish hlies (by rw [hsize]; exact hlap)
    (by rw [hsize]; exact hlt) (by rintro e ⟨⟩) hnext
  rw [hsize] at hinv hready
  refine ⟨_, ⟨hinv, rfl, rfl, List.prefix_append ..⟩, ?_⟩
  -- a skip record is no entry
  have hsame : triples tape ++ triples [Segment.skip remaining] = before := by
    rw [hbefore]
    exact List.append_nil _
  rw [hsame] at hready
  exact hready

include hbefore in
/-- The entry fits: it is written and `Append` returns its number. -/
theorem safe_putEntry {m : Mem} {w : World} {off : Nat} (e : Entry)
    (h : Drafting cfg tape writePos nextSeq confirmed m w)
    (hoff : writePos.toNat % cfg.bufferSize = off) (htype : e.type ≠ 0)
    (hlen : e.data.bytes.length ≤ cfg.maxPayload) (htaken : Taken tape e.seq nextSeq)
    (hnext : nextSeq.toNat ≤ tape.length + 2)
    (hfree : Free cfg confirmed writePos.toNat (entrySize e.data.len))
    (hlt : writePos.toNat + entrySize e.data.len < 2 ^ 64) :
    Safe (producerContract cfg size before)
      (loopPost (fun _ => Ready cfg before)
        (fun seq => Ready cfg (before ++ appendResult e.type e.data seq)))
      (do
        writeEntry off e.seq e.timestampNs e.type e.data
        Prog.store .writePos (writePos + UInt64.ofNat (entrySize e.data.len))
        pure (Flow.done e.seq : Flow Unit UInt64)) w := by
  rw [← hoff]
  refine Safe.bind _ ((Drafting.draft hbefore hfree).writeEntry e (Nat.le_refl _)
    (Nat.le_refl _) h) ?_
  rintro _ w ⟨m, h, hheader, hbody⟩
  have hlies : Lies cfg m writePos.toNat (.entry e) := ⟨hfree.room, hheader, hbody⟩
  refine safe_access (Drafting.keeps hbefore m) h fun w h _ => ?_
  have hentry : ∀ e', Segment.entry e = .entry e' →
      e'.type ≠ 0 ∧ e'.data.bytes.length ≤ cfg.maxPayload ∧ Taken tape e'.seq nextSeq := by
    rintro _ ⟨⟩
    exact ⟨htype, hlen, htaken⟩
  obtain ⟨hinv, hready⟩ := h.publish hlies hfree.lap hlt hentry hnext
  refine ⟨_, ⟨hinv, rfl, rfl, List.prefix_append ..⟩, ?_⟩
  have hresult : triples [.entry e] = appendResult e.type e.data e.seq := by
    have hne : e.seq ≠ 0 := by
      intro hzero
      have hpos := htaken.pos
      rw [hzero] at hpos
      exact absurd hpos (by decide)
    rw [appendResult, if_neg hne]
    rfl
  rw [hbefore, hresult] at hready
  exact hready

end Drafting

-- ---------------------------------------------------------------------------
-- Append
-- ---------------------------------------------------------------------------

theorem Ready.keeps {size : Nat} {before : List (UInt64 × UInt16 × List UInt8)} :
    Keeps (producerContract cfg size before) (Ready cfg before) where
  rely := fun _ _ h hrely => h.rely hrely.1 hrely.2
  during := fun _ h => h.entries
  guar := fun w h => ⟨h.inv, ConsumerRely.refl w⟩

/-- `Append` that gives up leaves the tape as it is. -/
theorem Ready.giveUp {before : List (UInt64 × UInt16 × List UInt8)} {w : World}
    (h : Ready cfg before w) (type : UInt16) (data : Payload) :
    Ready cfg (before ++ appendResult type data 0) w := by
  rw [appendResult, if_pos rfl, List.append_nil]
  exact h

/-- The test for a full buffer says how far `confirmed_pos` is behind. -/
theorem RingInv.lap_of_room {w : World} {size : Nat} {writePos confirmedPos : UInt64}
    (h : RingInv cfg w) (hwrite : w.1.word .writePos = writePos)
    (hconfirmed : confirmedPos.toNat = total w.2.confirmed) (hsize : size < 2 ^ 32)
    (hroom : ¬ cfg.bufferSize < ((writePos - confirmedPos).toNat + size) % 2 ^ 64) :
    writePos.toNat + size ≤ confirmedPos.toNat + cfg.bufferSize := by
  have hcfg := cfg.lt
  have hpos : writePos.toNat = total w.2.confirmed + total w.2.live := by
    rw [← hwrite, h.writePos]
    exact total_append ..
  have hspace := h.space
  have hused : (writePos - confirmedPos).toNat = writePos.toNat - confirmedPos.toNat :=
    UInt64.toNat_sub_of_le _ _ (UInt64.le_iff_toNat_le.mpr (by rw [hconfirmed]; omega))
  rw [hused, Nat.mod_eq_of_lt (by omega)] at hroom
  omega

/-- **`Append`** with the consumer's steps between its accesses. -/
theorem safe_append {before : List (UInt64 × UInt16 × List UInt8)} {type : UInt16}
    {data : Payload} {w : World} (htype : type ≠ 0) (hlen : data.bytes.length ≤ cfg.maxPayload)
    (hw : Ready cfg before w) :
    Safe (producerContract cfg (entrySize data.len) before)
      (loopPost (fun _ => Ready cfg before)
        (fun seq => Ready cfg (before ++ appendResult type data seq)))
      (append cfg type data) w := by
  have hheader : walEntryHeaderSize = 24 := rfl
  have hsize := entrySize_le data.len
  have hcfg := cfg.lt
  unfold append
  simp only
  split
  · -- larger than MaxEntrySize
    exact hw.giveUp type data
  refine safe_load Ready.keeps hw fun w hw => ?_
  -- from here on the tape, `write_pos` and `next_seq` are known
  generalize htape : w.2.all = tape
  generalize hwp : w.1.word .writePos = writePos
  generalize hns : w.1.word .nextSeq = nextSeq
  have hbefore : triples tape = before := by
    rw [← htape]
    exact hw.entries
  have hcount : nextSeq.toNat ≤ tape.length + 1 := by
    rw [← htape, ← hns]
    exact hw.nextSeq
  have hdraft : Drafting cfg tape writePos nextSeq 0 (w.1.byte ()) w :=
    ⟨hw.inv, htape, hwp, hns, Nat.zero_le _, rfl⟩
  generalize w.1.byte () = m at hdraft
  clear hw htape hwp hns
  refine safe_load (Drafting.keeps hbefore m) hdraft fun w hdraft => ?_
  have hconfirmed := hdraft.inv.confirmedPos
  generalize w.1.word .confirmedPos = confirmedPos at hconfirmed
  split
  · -- the buffer is full
    refine Ready.giveUp ⟨hdraft.inv, ?_, ?_⟩ type data
    · rw [hdraft.all, hbefore]
    · rw [hdraft.seq, hdraft.all]
      exact hcount
  rename_i hroom
  have hlap := hdraft.inv.lap_of_room hdraft.pos hconfirmed (by omega) hroom
  have hdraft : Drafting cfg tape writePos nextSeq confirmedPos.toNat m w :=
    ⟨hdraft.inv, hdraft.all, hdraft.pos, hdraft.seq, Nat.le_of_eq hconfirmed, hdraft.buffer⟩
  clear hconfirmed hroom
  -- the number
  refine safe_access (Drafting.keeps hbefore m) hdraft fun w hdraft hok => ?_
  have htaken := hdraft.taken hcount
  have hnext : (nextSeq + 1).toNat ≤ tape.length + 2 := by
    rw [hdraft.nextSeq_succ hcount]
    omega
  have hwrap : WrapOk cfg (entrySize data.len) w.1 (.fetchAdd .nextSeq 1) := hok
  simp only [WrapOk, hdraft.pos] at hwrap
  have hseq : w.1.word .nextSeq = nextSeq := hdraft.seq
  have hdraft := hdraft.takeSeq hcount
  refine ⟨w.2, ⟨hdraft.inv, rfl, rfl, List.prefix_refl _⟩, ?_⟩
  show Safe _ _ (Prog.load Var.clock >>= fun _ => _) _
  refine safe_load (Drafting.keeps hbefore m) hdraft fun w' hdraft => ?_
  generalize w'.1.word .clock = timestampNs
  simp only [Access.exec, hseq]
  split
  · -- the rest of the lap is skipped
    rename_i hover
    rw [if_pos hover] at hwrap
    obtain ⟨hskip, hlt⟩ := hwrap
    have hmod : writePos.toNat % cfg.bufferSize < cfg.bufferSize := Nat.mod_lt _ (by omega)
    exact safe_skipLap hbefore hdraft hnext rfl hskip (by omega) (by omega) hlt
  · -- the entry fits
    rename_i hfits
    rw [if_neg hfits] at hwrap
    exact safe_putEntry hbefore ⟨nextSeq, timestampNs, type, data⟩ hdraft rfl htype hlen htaken
      hnext ⟨hlap, Nat.le_of_not_lt hfits⟩ hwrap

end Zrtools.ShmRing

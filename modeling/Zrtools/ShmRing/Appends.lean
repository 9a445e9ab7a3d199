import Zrtools.ShmRing.Calls
import Zrtools.ShmRing.Fields

/-!
# zrtools — `Append` by a process that may stop

What a call of `Append` does when nobody else is at work, and what it leaves behind if the
process stops after any of its accesses.

* `AppendOk` — the condition under which a call is looked at;
* `Appends`, `StoppedIn` — what a call does, and what it has done where it is stopped, as
  relations between memories with the recursion of the code;
* `safe_appendCall` — `Append` returns and does the one, and does the other on the way.
-/

namespace Zrtools.ShmRing

open ByteMemory LittleEndian SharedMemory Wal

variable {cfg : Sizes}

-- ---------------------------------------------------------------------------
-- What Append asks
-- ---------------------------------------------------------------------------

/-- An entry of `size` bytes passes the two tests at the start of `Append`. -/
def Accepts (cfg : Sizes) (size : Nat) (s : Memory) : Prop :=
  size ≤ cfg.maxEntrySize ∧
    ((s.word .writePos - s.word .confirmedPos).toNat + size) % 2 ^ 64 ≤ cfg.bufferSize

/-- What is left of the lap. -/
def lapRest (cfg : Sizes) (s : Memory) : Nat :=
  cfg.bufferSize - (s.word .writePos).toNat % cfg.bufferSize

/-- An entry of `size` bytes does not fit into what is left of the lap. -/
def Wraps (cfg : Sizes) (size : Nat) (s : Memory) : Prop :=
  cfg.bufferSize < (s.word .writePos).toNat % cfg.bufferSize + size

instance (cfg : Sizes) (size : Nat) (s : Memory) : Decidable (Accepts cfg size s) := by
  unfold Accepts
  infer_instance

instance (cfg : Sizes) (size : Nat) (s : Memory) : Decidable (Wraps cfg size s) := by
  unfold Wraps
  infer_instance

/-- The space that one turn of `Append` takes. -/
def stride (cfg : Sizes) (size : Nat) (s : Memory) : Nat :=
  if Wraps cfg size s then lapRest cfg s else size

/-- Behind the rest of the lap there is room as well. -/
def FitsBehind (cfg : Sizes) (size : Nat) (s : Memory) : Prop :=
  (s.word .writePos - s.word .confirmedPos).toNat + lapRest cfg s + size ≤ cfg.bufferSize

instance (cfg : Sizes) (size : Nat) (s : Memory) : Decidable (FitsBehind cfg size s) := by
  unfold FitsBehind
  infer_instance

/-- The space that `Append` takes. -/
def takes (cfg : Sizes) (size : Nat) (s : Memory) : Nat :=
  if Accepts cfg size s then
    if Wraps cfg size s ∧ FitsBehind cfg size s then lapRest cfg s + size else stride cfg size s
  else 0

/-- The numbers that `Append` takes if it gets past its tests: one for a skip record or for the
entry, and a second one where the entry follows a skip record. -/
def numbers (cfg : Sizes) (size : Nat) (s : Memory) : Nat :=
  if Wraps cfg size s ∧ FitsBehind cfg size s then 2 else 1

/-- The condition on a call of `Append`: a lap that ends early ends with room for a skip
record and with a multiple of eight, and neither a position nor a number reaches `2^64`. -/
def AppendOk (cfg : Sizes) (size : Nat) (s : Memory) : Prop :=
  Accepts cfg size s →
    (Wraps cfg size s → walEntryHeaderSize ≤ lapRest cfg s ∧ 8 ∣ lapRest cfg s) ∧
      (s.word .writePos).toNat + takes cfg size s < 2 ^ 64 ∧
      (s.word .nextSeq).toNat + numbers cfg size s < 2 ^ 64

instance (cfg : Sizes) (size : Nat) (s : Memory) : Decidable (AppendOk cfg size s) := by
  unfold AppendOk
  infer_instance

/-- What that says about the end of a lap. -/
def WrapsClean (cfg : Sizes) (size : Nat) (s : Memory) : Prop :=
  Accepts cfg size s → Wraps cfg size s → walEntryHeaderSize ≤ lapRest cfg s ∧ 8 ∣ lapRest cfg s

theorem one_le_numbers (cfg : Sizes) (size : Nat) (s : Memory) : 1 ≤ numbers cfg size s := by
  unfold numbers
  split
  · decide
  · exact Nat.le_refl _

theorem stride_le_takes {size : Nat} {s : Memory} (haccepts : Accepts cfg size s) :
    stride cfg size s ≤ takes cfg size s := by
  rw [takes, if_pos haccepts]
  split
  · rename_i hboth
    rw [stride, if_pos hboth.1]
    exact Nat.le_add_right ..
  · exact Nat.le_refl _

theorem AppendOk.wrapsClean {size : Nat} {s : Memory} (h : AppendOk cfg size s) :
    WrapsClean cfg size s := fun haccepts => (h haccepts).1

/-- A skip record stays below `2^64`. -/
theorem AppendOk.lapRest_lt {size : Nat} {s : Memory} (h : AppendOk cfg size s)
    (haccepts : Accepts cfg size s) (hwraps : Wraps cfg size s) :
    (s.word .writePos).toNat + lapRest cfg s < 2 ^ 64 := by
  obtain ⟨-, hlt, -⟩ := h haccepts
  have hle := stride_le_takes haccepts
  rw [stride, if_pos hwraps] at hle
  omega

theorem Wraps.lapRest_lt {size : Nat} {s : Memory} (h : Wraps cfg size s) (hsize : 0 < size) :
    lapRest cfg s < size := by
  unfold Wraps at h
  unfold lapRest
  omega

-- ---------------------------------------------------------------------------
-- What Append does
-- ---------------------------------------------------------------------------

/-- Stores into the `k` bytes behind `write_pos` leave every stretch of the tape alone that
they do not lap. -/
def Spares (cfg : Sizes) (s : Memory) (m : Mem) (k : Nat) : Prop :=
  ∀ pos l, Stored cfg (s.byte ()) pos l → pos + total l ≤ (s.word .writePos).toNat →
    (s.word .writePos).toNat + k ≤ pos + cfg.bufferSize → Stored cfg m pos l

/-- A number is taken and a segment is put on the tape. -/
structure Lays (cfg : Sizes) (s s' : Memory) (seg : Segment) : Prop where
  lies : Lies cfg (s'.byte ()) (s.word .writePos).toNat seg
  spares : Spares cfg s (s'.byte ()) seg.size
  writePos : s'.word .writePos = s.word .writePos + UInt64.ofNat seg.size
  nextSeq : s'.word .nextSeq = s.word .nextSeq + 1
  keeps : ∀ v, v ≠ .writePos → v ≠ .nextSeq → s'.word v = s.word v

theorem Lays.nextSeq_le {s s' : Memory} {seg : Segment} (h : Lays cfg s s' seg) :
    (s'.word .nextSeq).toNat ≤ (s.word .nextSeq).toNat + 1 := by
  rw [h.nextSeq, UInt64.toNat_add]
  exact Nat.mod_le ..

/-- A number may be taken, and something may be written behind `write_pos`. -/
structure Unfinished (cfg : Sizes) (size : Nat) (s s' : Memory) : Prop where
  spares : Spares cfg s (s'.byte ()) size
  nextSeq : s'.word .nextSeq = s.word .nextSeq ∨ s'.word .nextSeq = s.word .nextSeq + 1
  keeps : ∀ v, v ≠ .nextSeq → s'.word v = s.word v

/-- The entry that `Append` writes. -/
abbrev newEntry (s : Memory) (type : UInt16) (data : Payload) : Entry :=
  ⟨s.word .nextSeq, s.word .clock, type, data⟩

/-- A call of `Append` takes the ring from one memory to another and returns a number. -/
inductive Appends (cfg : Sizes) (type : UInt16) (data : Payload) :
    Memory → UInt64 → Memory → Prop
  | refused {s : Memory} (hnot : ¬ Accepts cfg (entrySize data.len) s) :
      Appends cfg type data s 0 s
  | put {s s' : Memory} (haccepts : Accepts cfg (entrySize data.len) s)
      (hfits : ¬ Wraps cfg (entrySize data.len) s)
      (hlays : Lays cfg s s' (.entry (newEntry s type data))) :
      Appends cfg type data s (s.word .nextSeq) s'
  | wrapped {s t s' : Memory} {seq : UInt64} (haccepts : Accepts cfg (entrySize data.len) s)
      (hwraps : Wraps cfg (entrySize data.len) s)
      (hlays : Lays cfg s t (.skip (lapRest cfg s))) (hrest : Appends cfg type data t seq s') :
      Appends cfg type data s seq s'

/-- A call of `Append` stops before its last access. -/
inductive StoppedIn (cfg : Sizes) (size : Nat) : Memory → Memory → Prop
  | untouched (s : Memory) : StoppedIn cfg size s s
  | unfinished {s s' : Memory} (haccepts : Accepts cfg size s)
      (hrest : Unfinished cfg (stride cfg size s) s s') : StoppedIn cfg size s s'
  | wrapped {s t s' : Memory} (haccepts : Accepts cfg size s) (hwraps : Wraps cfg size s)
      (hlays : Lays cfg s t (.skip (lapRest cfg s))) (hrest : StoppedIn cfg size t s') :
      StoppedIn cfg size s s'

-- ---------------------------------------------------------------------------
-- The code does it
-- ---------------------------------------------------------------------------

theorem Spares.mono {s : Memory} {m : Mem} {k n : Nat} (h : Spares cfg s m k) (hle : k ≤ n) :
    Spares cfg s m n := fun pos l hstored hpos hlap => h pos l hstored hpos (by omega)

theorem Spares.storeByte {s : Memory} {m : Mem} {n i : Nat} (h : Spares cfg s m n)
    (hroom : (s.word .writePos).toNat % cfg.bufferSize + n ≤ cfg.bufferSize)
    (hlo : (s.word .writePos).toNat % cfg.bufferSize ≤ i)
    (hhi : i < (s.word .writePos).toNat % cfg.bufferSize + n) (b : UInt8) :
    Spares cfg s (write m i [b]) n := by
  intro pos l hstored hle hlap
  exact (h pos l hstored hle hlap).storeByte ⟨hlap, hroom⟩ hle hlo hhi b

/-- The memory after the number is taken, with the buffer as it is written so far. -/
def drafted (s : Memory) (m : Mem) : Memory :=
  { s.setWord .nextSeq (s.word .nextSeq + 1) with byte := fun _ => m }

theorem drafted_nextSeq (s : Memory) (m : Mem) :
    (drafted s m).word .nextSeq = s.word .nextSeq + 1 := by
  show (s.setWord .nextSeq _).word .nextSeq = _
  exact Shared.word_setWord_self ..

theorem drafted_word (s : Memory) (m : Mem) {v : Var} (hv : v ≠ .nextSeq) :
    (drafted s m).word v = s.word v := Shared.word_setWord_of_ne _ hv _

theorem drafted_setByte (s : Memory) (m : Mem) (i : Nat) (b : UInt8) :
    (drafted s m).setByte () i b = drafted s (write m i [b]) := by
  unfold drafted Shared.setByte
  congr 1

theorem unfinished_drafted {s : Memory} {m : Mem} {size : Nat} (h : Spares cfg s m size) :
    Unfinished cfg size s (drafted s m) :=
  ⟨h, Or.inr (drafted_nextSeq s m), fun _ hv => drafted_word s m hv⟩

/-- The stores behind `write_pos` while the process may stop. -/
theorem draft_alone {s : Memory} {size n : Nat} (haccepts : Accepts cfg size s)
    (hn : n ≤ stride cfg size s)
    (hroom : (s.word .writePos).toNat % cfg.bufferSize + n ≤ cfg.bufferSize) :
    Draft (solo (StoppedIn cfg size s)) ((s.word .writePos).toNat % cfg.bufferSize)
      ((s.word .writePos).toNat % cfg.bufferSize + n)
      (fun m w => w = (drafted s m, ()) ∧ Spares cfg s m n) where
  keeps := by
    intro m
    refine keeps_solo ?_
    rintro _ ⟨rfl, hspares⟩
    exact .unfinished haccepts (unfinished_drafted (hspares.mono hn))
  buffer := by
    rintro m _ ⟨rfl, -⟩
    rfl
  store := by
    rintro m _ i b hlo hhi ⟨rfl, hspares⟩
    refine ⟨(), trivial, ?_, hspares.storeByte hroom hlo hhi b⟩
    exact congrArg (fun s => (s, ())) (drafted_setByte s m i b)

/-- The store to `write_pos` puts the segment on the tape. -/
theorem lays_drafted {s : Memory} {m : Mem} {seg : Segment} {size : Nat}
    (hlies : Lies cfg m (s.word .writePos).toNat seg) (hspares : Spares cfg s m seg.size)
    (hsize : seg.size = size) :
    Lays cfg s ((drafted s m).setWord .writePos (s.word .writePos + UInt64.ofNat size)) seg where
  lies := hlies
  spares := hspares
  writePos := by rw [Shared.word_setWord_self, hsize]
  nextSeq := by
    rw [Shared.word_setWord_of_ne _ (by decide), drafted_nextSeq]
  keeps := by
    intro v hwrite hnext
    rw [Shared.word_setWord_of_ne _ hwrite, drafted_word s m hnext]

/-- The rest of the lap as a skip record. -/
theorem size_skip_lapRest {size : Nat} {s : Memory} (hwraps : Wraps cfg size s)
    (hpos : 0 < size) (hsize : size ≤ 2 ^ 16 + walEntryHeaderSize)
    (hskip : walEntryHeaderSize ≤ lapRest cfg s) (hdvd : 8 ∣ lapRest cfg s) :
    (Segment.skip (lapRest cfg s)).size = lapRest cfg s := by
  have hlt := hwraps.lapRest_lt hpos
  exact Segment.size_skip hskip hdvd (by omega)

theorem entrySize_pos (dataLen : UInt16) : 0 < entrySize dataLen := by
  have hle := le_entrySize dataLen
  have hheader : walEntryHeaderSize = 24 := rfl
  omega

/-- Where the process can only have taken a number. -/
theorem keeps_drafted {s : Memory} {size : Nat} (haccepts : Accepts cfg size s) :
    Keeps (solo (StoppedIn cfg size s)) (fun w => w = (drafted s (s.byte ()), ())) := by
  refine keeps_solo ?_
  rintro _ rfl
  exact .unfinished haccepts (unfinished_drafted fun _ _ hstored _ _ => hstored)

/-- One turn of `Append`. -/
theorem safe_append_alone {type : UInt16} {data : Payload} {s : Memory}
    (hclean : WrapsClean cfg (entrySize data.len) s) :
    Safe (solo (StoppedIn cfg (entrySize data.len) s))
      (loopPost
        (fun _ w => Accepts cfg (entrySize data.len) s ∧ Wraps cfg (entrySize data.len) s ∧
          Lays cfg s w.1 (.skip (lapRest cfg s)))
        (fun seq w => Appends cfg type data s seq w.1))
      (append cfg type data) (s, ()) := by
  have hstart : Keeps (solo (StoppedIn cfg (entrySize data.len) s)) (fun w => w = (s, ())) := by
    refine keeps_solo ?_
    rintro _ rfl
    exact .untouched _
  have hpos := entrySize_pos data.len
  unfold append
  simp only
  split
  · rename_i hlarge
    exact .refused fun haccepts => absurd haccepts.1 (Nat.not_le_of_lt hlarge)
  rename_i hsmall
  refine safe_load hstart rfl ?_
  rintro _ rfl
  refine safe_load hstart rfl ?_
  rintro _ rfl
  split
  · rename_i hfull
    exact .refused fun haccepts => absurd haccepts.2 (Nat.not_le_of_lt hfull)
  rename_i hroom
  have haccepts : Accepts cfg (entrySize data.len) s :=
    ⟨Nat.le_of_not_lt hsmall, Nat.le_of_not_lt hroom⟩
  refine safe_access hstart rfl ?_
  rintro _ rfl -
  refine ⟨(), trivial, ?_⟩
  show Safe _ _ (Prog.load Var.clock >>= fun _ => _) (drafted s (s.byte ()), ())
  refine safe_load (keeps_drafted haccepts) rfl ?_
  rintro _ rfl
  have hclock : (drafted s (s.byte ())).word .clock = s.word .clock :=
    drafted_word s _ (by decide)
  simp only [hclock]
  split
  · -- the rest of the lap is skipped
    rename_i hover
    obtain ⟨hskip, hdvd⟩ := hclean haccepts hover
    have hlt : lapRest cfg s < entrySize data.len := Wraps.lapRest_lt hover hpos
    have hsize := size_skip_lapRest hover hpos (entrySize_le data.len) hskip hdvd
    have hlap : (s.word .writePos).toNat % cfg.bufferSize + lapRest cfg s ≤ cfg.bufferSize := by
      unfold lapRest at hskip ⊢
      have hheader : walEntryHeaderSize = 24 := rfl
      omega
    have hstride : lapRest cfg s ≤ stride cfg (entrySize data.len) s := by
      rw [stride, if_pos (show Wraps cfg (entrySize data.len) s from hover)]
    have hdraft := draft_alone haccepts hstride hlap
    refine Safe.bind _ (hdraft.writeSkip (Nat.le_refl _) (Nat.le_refl _) hskip
      ⟨rfl, fun _ _ hstored _ _ => hstored⟩) ?_
    rintro _ w ⟨m, hw, hslice⟩
    refine safe_access (hdraft.keeps m) hw ?_
    rintro _ ⟨rfl, hspares⟩ -
    have hlies : Lies cfg m (s.word .writePos).toNat (.skip (lapRest cfg s)) :=
      ⟨by rw [hsize]; exact hlap, hslice, rfl⟩
    exact ⟨(), trivial, haccepts, hover,
      lays_drafted hlies (by rw [hsize]; exact hspares) hsize⟩
  · -- the entry fits
    rename_i hfits
    have hstride : entrySize data.len ≤ stride cfg (entrySize data.len) s := by
      rw [stride, if_neg (show ¬ Wraps cfg (entrySize data.len) s from hfits)]
    have hdraft := draft_alone haccepts hstride (Nat.le_of_not_lt hfits)
    refine Safe.bind _ (hdraft.writeEntry (newEntry s type data) (Nat.le_refl _) (Nat.le_refl _)
      ⟨rfl, fun _ _ hstored _ _ => hstored⟩) ?_
    rintro _ w ⟨m, hw, hheader, hbody⟩
    refine safe_access (hdraft.keeps m) hw ?_
    rintro _ ⟨rfl, hspares⟩ -
    have hlies : Lies cfg m (s.word .writePos).toNat (.entry (newEntry s type data)) :=
      ⟨Nat.le_of_not_lt hfits, hheader, hbody⟩
    exact ⟨(), trivial, .put haccepts hfits (lays_drafted hlies hspares rfl)⟩

-- ---------------------------------------------------------------------------
-- The next lap
-- ---------------------------------------------------------------------------

section NextLap

variable {size : Nat} {s t : Memory} (hclean : WrapsClean cfg size s) (hpos : 0 < size)
  (hsize : size ≤ 2 ^ 16 + walEntryHeaderSize) (haccepts : Accepts cfg size s)
  (hwraps : Wraps cfg size s) (hlays : Lays cfg s t (.skip (lapRest cfg s)))

include hclean hpos hsize haccepts hwraps hlays

/-- A skip record moves `write_pos` by the rest of the lap. -/
theorem Lays.writePos_skip :
    (t.word .writePos).toNat = ((s.word .writePos).toNat + lapRest cfg s) % 2 ^ 64 := by
  obtain ⟨hskip, hdvd⟩ := hclean haccepts hwraps
  have hlt := hwraps.lapRest_lt hpos
  have hheader : walEntryHeaderSize = 24 := rfl
  rw [hlays.writePos, size_skip_lapRest hwraps hpos hsize hskip hdvd, UInt64.toNat_add,
    UInt64.toNat_ofNat', Nat.mod_eq_of_lt (by omega : lapRest cfg s < 2 ^ 64)]

variable (hused : (s.word .writePos - s.word .confirmedPos).toNat ≤ cfg.bufferSize)

include hused

/-- The tests let an entry pass there if there is room behind the rest of the lap. -/
theorem Lays.accepts_skip : Accepts cfg size t ↔ FitsBehind cfg size s := by
  obtain ⟨hmax, hroom⟩ := haccepts
  have hcfg := cfg.lt
  have hlt := hwraps.lapRest_lt hpos
  have hheader : walEntryHeaderSize = 24 := rfl
  have hmove := hlays.writePos_skip hclean hpos hsize ⟨hmax, hroom⟩ hwraps
  have hconfirmed := hlays.keeps .confirmedPos (by decide) (by decide)
  rw [Accepts, FitsBehind, hconfirmed, UInt64.toNat_sub, hmove]
  rw [UInt64.toNat_sub] at hused hroom ⊢
  omega

/-- There `Append` does not wrap again: the next lap starts at the front of the buffer, and
after position `2^64` no entry passes that comes near the end. -/
theorem Lays.not_wraps_skip (hagain : Accepts cfg size t) : ¬ Wraps cfg size t := by
  have hfits := (hlays.accepts_skip hclean hpos hsize haccepts hwraps hused).mp hagain
  have hrest : lapRest cfg s = cfg.bufferSize - (s.word .writePos).toNat % cfg.bufferSize := rfl
  have hlt := hwraps.lapRest_lt hpos
  have hmove := hlays.writePos_skip hclean hpos hsize haccepts hwraps
  rw [FitsBehind] at hfits
  rw [Wraps]
  by_cases hbelow : (s.word .writePos).toNat + lapRest cfg s < 2 ^ 64
  · have hmod : (t.word .writePos).toNat % cfg.bufferSize = 0 := by
      have hdiv := Nat.div_add_mod (s.word .writePos).toNat cfg.bufferSize
      have hlap : (s.word .writePos).toNat + lapRest cfg s =
          cfg.bufferSize * ((s.word .writePos).toNat / cfg.bufferSize + 1) := by
        obtain ⟨hskip, -⟩ := hclean haccepts hwraps
        have hheader : walEntryHeaderSize = 24 := rfl
        rw [Nat.mul_add, Nat.mul_one]
        omega
      rw [hmove, Nat.mod_eq_of_lt hbelow, hlap]
      exact Nat.mul_mod_right ..
    omega
  · have hle := Nat.mod_le (t.word .writePos).toNat cfg.bufferSize
    have hconfirmed := (s.word .confirmedPos).toNat_lt
    have hwrite := (s.word .writePos).toNat_lt
    have hcfg := cfg.lt
    rw [UInt64.toNat_sub] at hfits
    omega

/-- There it takes what is left to take. -/
theorem Lays.takes_skip : lapRest cfg s + takes cfg size t = takes cfg size s := by
  have hagain := hlays.accepts_skip hclean hpos hsize haccepts hwraps hused
  rw [takes, takes, if_pos haccepts]
  by_cases hfits : FitsBehind cfg size s
  · have hnot := hlays.not_wraps_skip hclean hpos hsize haccepts hwraps hused (hagain.mpr hfits)
    rw [if_pos (hagain.mpr hfits), if_neg fun h => hnot h.1, if_pos ⟨hwraps, hfits⟩, stride,
      if_neg hnot]
  · rw [if_neg fun h => hfits (hagain.mp h), if_neg fun h => hfits h.2, stride, if_pos hwraps,
      Nat.add_zero]

theorem Lays.wrapsClean_skip : WrapsClean cfg size t := fun hagain hwraps' =>
  absurd hwraps' (hlays.not_wraps_skip hclean hpos hsize haccepts hwraps hused hagain)

/-- The condition holds there as well. -/
theorem AppendOk.skip (hok : AppendOk cfg size s) : AppendOk cfg size t := by
  intro hagain
  have hnot := hlays.not_wraps_skip hclean hpos hsize haccepts hwraps hused hagain
  obtain ⟨-, hlt, hseq⟩ := hok haccepts
  have htakes := hlays.takes_skip hclean hpos hsize haccepts hwraps hused
  have hfits := (hlays.accepts_skip hclean hpos hsize haccepts hwraps hused).mp hagain
  rw [numbers, if_pos ⟨hwraps, hfits⟩] at hseq
  refine ⟨fun hwraps => absurd hwraps hnot, ?_, ?_⟩
  · have hbelow := hok.lapRest_lt haccepts hwraps
    rw [hlays.writePos_skip hclean hpos hsize haccepts hwraps, Nat.mod_eq_of_lt hbelow]
    omega
  · rw [numbers, if_neg fun h => hnot h.1, hlays.nextSeq, UInt64.toNat_add]
    have hone : (1 : UInt64).toNat = 1 := rfl
    omega

end NextLap

/-- **`Append` returns**, and does what `Appends` says; if it is stopped on the way it has
done what `StoppedIn` says. -/
theorem safe_appendCall (type : UInt16) {data : Payload} {s : Memory}
    (hused : (s.word .writePos - s.word .confirmedPos).toNat ≤ cfg.bufferSize)
    (hclean : WrapsClean cfg (entrySize data.len) s) :
    Safe (solo (StoppedIn cfg (entrySize data.len) s))
      (fun r w => ∃ seq, r = some seq ∧ Appends cfg type data s seq w.1)
      (appendCall cfg type data) (s, ()) := by
  have hsize := entrySize_le data.len
  have hpos := entrySize_pos data.len
  -- after the first turn no turn is left but one
  refine Safe.call (J := fun n _ w => n = 0 ∧ Accepts cfg (entrySize data.len) s ∧
    Wraps cfg (entrySize data.len) s ∧ Lays cfg s w.1 (.skip (lapRest cfg s))) ?_ ?_
  · refine (safe_append_alone hclean).mono ?_
    rintro (_ | seq) w hend
    · exact ⟨0, by decide, rfl, hend⟩
    · exact hend
  · rintro n _ ⟨t, ⟨⟩⟩ ⟨rfl, haccepts, hwraps, hlays⟩
    have hnext := hlays.wrapsClean_skip hclean hpos hsize haccepts hwraps hused
    refine ((safe_append_alone hnext).weaken ?_).mono ?_
    · exact fun _ hstopped => .wrapped haccepts hwraps hlays hstopped
    · rintro (_ | seq) w hend
      · obtain ⟨hagain, hwraps', -⟩ := hend
        exact absurd hwraps'
          (hlays.not_wraps_skip hclean hpos hsize haccepts hwraps hused hagain)
      · exact .wrapped haccepts hwraps hlays hend

end Zrtools.ShmRing

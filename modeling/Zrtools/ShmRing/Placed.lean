import Zrtools.ShmRing.Appends

/-!
# zrtools — the tape under any calls

The positions and the buffer say what is on the tape, whatever types the entries have. A call
of `Append` puts its entry behind the others, or nothing but a skip record.

* `entriesOf` — the entries of a stretch;
* `Placed` — the invariant;
* `Placed.appends`, `Placed.stoppedIn` — an `Append` that returns, and one that is stopped.
-/

namespace Zrtools.ShmRing

open ByteMemory LittleEndian SharedMemory Wal

variable {cfg : Sizes}

-- ---------------------------------------------------------------------------
-- The entries of a stretch
-- ---------------------------------------------------------------------------

def Segment.toEntry : Segment → Option Entry
  | entry e => some e
  | skip _ => none

/-- The entries of a stretch of tape. -/
def entriesOf (l : List Segment) : List Entry := l.filterMap Segment.toEntry

@[simp] theorem entriesOf_nil : entriesOf [] = [] := rfl

@[simp] theorem entriesOf_entry (e : Entry) (l : List Segment) :
    entriesOf (.entry e :: l) = e :: entriesOf l := rfl

@[simp] theorem entriesOf_skip (n : Nat) (l : List Segment) :
    entriesOf (.skip n :: l) = entriesOf l := rfl

@[simp] theorem entriesOf_append (a b : List Segment) :
    entriesOf (a ++ b) = entriesOf a ++ entriesOf b := List.filterMap_append ..

theorem mem_entriesOf {l : List Segment} {e : Entry} : e ∈ entriesOf l ↔ Segment.entry e ∈ l := by
  refine ⟨?_, ?_⟩
  · intro h
    obtain ⟨seg, hseg, htoEntry⟩ := List.mem_filterMap.mp h
    cases seg with
    | skip n => cases htoEntry
    | entry e' =>
      obtain rfl : e' = e := Option.some.inj htoEntry
      exact hseg
  · intro h
    exact List.mem_filterMap.mpr ⟨_, h, rfl⟩

-- ---------------------------------------------------------------------------
-- The invariant
-- ---------------------------------------------------------------------------

/-- The positions and the buffer against the tape. -/
structure Placed (cfg : Sizes) (s : Memory) (confirmed live : List Segment) : Prop where
  writePos : (s.word .writePos).toNat = total confirmed + total live
  confirmedPos : (s.word .confirmedPos).toNat = total confirmed
  stored : Stored cfg (s.byte ()) (total confirmed) live
  space : total live ≤ cfg.bufferSize
  numbered : ∀ e ∈ entriesOf (confirmed ++ live),
    0 < e.seq.toNat ∧ e.seq.toNat < (s.word .nextSeq).toNat
  increasing : (entriesOf (confirmed ++ live)).Pairwise fun a b => a.seq.toNat < b.seq.toNat
  nextSeq_pos : 0 < (s.word .nextSeq).toNat

section Invariant

variable {s s' : Memory} {confirmed live : List Segment}

/-- The space in use. -/
theorem Placed.used (h : Placed cfg s confirmed live) :
    (s.word .writePos - s.word .confirmedPos).toNat = total live := by
  have hwrite := h.writePos
  have hconfirmed := h.confirmedPos
  rw [UInt64.toNat_sub_of_le _ _ (UInt64.le_iff_toNat_le.mpr (by omega))]
  omega

theorem Placed.used_le (h : Placed cfg s confirmed live) :
    (s.word .writePos - s.word .confirmedPos).toNat ≤ cfg.bufferSize := by
  rw [h.used]
  exact h.space

/-- The test for a full buffer. -/
theorem Placed.room {size : Nat} (h : Placed cfg s confirmed live) (haccepts : Accepts cfg size s)
    (hsize : size ≤ 2 ^ 16 + walEntryHeaderSize) : total live + size ≤ cfg.bufferSize := by
  have hroom := haccepts.2
  have hspace := h.space
  have hcfg := cfg.lt
  have hheader : walEntryHeaderSize = 24 := rfl
  rw [h.used] at hroom
  omega

/-- A segment goes on the tape. -/
theorem Placed.lays {seg : Segment} (h : Placed cfg s confirmed live) (hlays : Lays cfg s s' seg)
    (hspace : total live + seg.size ≤ cfg.bufferSize)
    (hpos : (s.word .writePos).toNat + seg.size < 2 ^ 64)
    (hseq : (s.word .nextSeq).toNat + 1 < 2 ^ 64)
    (hentry : ∀ e, seg = .entry e → e.seq = s.word .nextSeq) :
    Placed cfg s' confirmed (live ++ [seg]) := by
  have hnext : (s'.word .nextSeq).toNat = (s.word .nextSeq).toNat + 1 := by
    rw [hlays.nextSeq]
    exact toNat_add_ofNat hseq
  have hsplit : entriesOf (confirmed ++ (live ++ [seg])) =
      entriesOf (confirmed ++ live) ++ entriesOf [seg] := by
    simp
  have hnew : ∀ e ∈ entriesOf [seg], e.seq = s.word .nextSeq := by
    intro e he
    have hmem := mem_entriesOf.mp he
    exact hentry e (List.mem_singleton.mp hmem).symm
  constructor
  case writePos =>
    rw [hlays.writePos, toNat_add_ofNat hpos, h.writePos, total_append]
    simp only [total_cons, total_nil]
    omega
  case confirmedPos =>
    rw [hlays.keeps _ (by decide) (by decide)]
    exact h.confirmedPos
  case stored =>
    rw [stored_append]
    refine ⟨?_, ?_, trivial⟩
    · refine hlays.spares _ _ h.stored (Nat.le_of_eq h.writePos.symm) ?_
      rw [h.writePos]
      omega
    · rw [← h.writePos]
      exact hlays.lies
  case space =>
    rw [total_append]
    simpa using hspace
  case numbered =>
    intro e he
    rw [hsplit] at he
    rcases List.mem_append.mp he with he | he
    · obtain ⟨hlow, hhigh⟩ := h.numbered e he
      exact ⟨hlow, by omega⟩
    · have hpos := h.nextSeq_pos
      rw [hnew e he]
      exact ⟨hpos, by omega⟩
  case increasing =>
    rw [hsplit, List.pairwise_append]
    refine ⟨h.increasing, ?_, ?_⟩
    · cases seg with
      | skip n => exact List.Pairwise.nil
      | entry e => exact List.pairwise_singleton ..
    · intro a ha b hb
      rw [hnew b hb]
      exact (h.numbered a ha).2
  case nextSeq_pos =>
    rw [hnext]
    exact Nat.succ_pos _

/-- Nothing goes on the tape, and at most one number is lost. -/
theorem Placed.unfinished {size : Nat} (h : Placed cfg s confirmed live)
    (hrest : Unfinished cfg size s s') (hspace : total live + size ≤ cfg.bufferSize)
    (hseq : (s.word .nextSeq).toNat + 1 < 2 ^ 64) :
    Placed cfg s' confirmed live ∧ (s.word .nextSeq).toNat ≤ (s'.word .nextSeq).toNat := by
  have hnext : (s.word .nextSeq).toNat ≤ (s'.word .nextSeq).toNat := by
    rcases hrest.nextSeq with hsame | htaken
    · rw [hsame]
    · have hadd : (s.word .nextSeq + 1).toNat = (s.word .nextSeq).toNat + 1 :=
        toNat_add_ofNat hseq
      rw [htaken, hadd]
      exact Nat.le_succ _
  refine ⟨?_, hnext⟩
  constructor
  case writePos =>
    rw [hrest.keeps _ (by decide)]
    exact h.writePos
  case confirmedPos =>
    rw [hrest.keeps _ (by decide)]
    exact h.confirmedPos
  case stored =>
    refine hrest.spares _ _ h.stored (Nat.le_of_eq h.writePos.symm) ?_
    rw [h.writePos]
    omega
  case space => exact h.space
  case numbered =>
    intro e he
    obtain ⟨hlow, hhigh⟩ := h.numbered e he
    exact ⟨hlow, by omega⟩
  case increasing => exact h.increasing
  case nextSeq_pos =>
    have hpos := h.nextSeq_pos
    omega

/-- Words that say nothing about the tape. -/
theorem Placed.setWord (h : Placed cfg s confirmed live) {v : Var}
    (hv : v = .readPos ∨ v = .clock) (x : UInt64) :
    Placed cfg (s.setWord v x) confirmed live := by
  have hkeep : ∀ u, u ≠ v → (s.setWord v x).word u = s.word u :=
    fun u hu => Shared.word_setWord_of_ne _ hu _
  have hne : Var.writePos ≠ v ∧ Var.confirmedPos ≠ v ∧ Var.nextSeq ≠ v := by
    rcases hv with rfl | rfl <;> decide
  constructor
  case writePos =>
    rw [hkeep _ hne.1]
    exact h.writePos
  case confirmedPos =>
    rw [hkeep _ hne.2.1]
    exact h.confirmedPos
  case stored => exact h.stored
  case space => exact h.space
  case numbered =>
    rw [hkeep _ hne.2.2]
    exact h.numbered
  case increasing => exact h.increasing
  case nextSeq_pos =>
    rw [hkeep _ hne.2.2]
    exact h.nextSeq_pos

/-- `confirmed_pos` goes forward over some segments. -/
theorem Placed.setConfirmed {a b : List Segment} {pos : UInt64}
    (h : Placed cfg s confirmed (a ++ b)) (hpos : pos.toNat = total (confirmed ++ a)) :
    Placed cfg (s.setWord .confirmedPos pos) (confirmed ++ a) b := by
  have hkeep : ∀ v, v ≠ .confirmedPos → (s.setWord .confirmedPos pos).word v = s.word v :=
    fun v hv => Shared.word_setWord_of_ne _ hv _
  have hself : (s.setWord .confirmedPos pos).word .confirmedPos = pos :=
    Shared.word_setWord_self ..
  have hwrite := h.writePos
  have hspace := h.space
  rw [total_append] at hwrite hspace
  constructor
  case writePos =>
    rw [hkeep _ (by decide), hwrite, total_append, Nat.add_assoc]
  case confirmedPos =>
    rw [hself, hpos]
  case stored =>
    rw [total_append]
    exact (stored_append.mp h.stored).2
  case space => exact Nat.le_trans (Nat.le_add_left ..) hspace
  case numbered =>
    rw [hkeep _ (by decide), List.append_assoc]
    exact h.numbered
  case increasing =>
    rw [List.append_assoc]
    exact h.increasing
  case nextSeq_pos =>
    rw [hkeep _ (by decide)]
    exact h.nextSeq_pos

end Invariant

-- ---------------------------------------------------------------------------
-- A call of Append
-- ---------------------------------------------------------------------------

/-- The segments `segs` went on the tape, and no more than `k` bytes behind `write_pos`
were touched. -/
structure Extended (cfg : Sizes) (k : Nat) (s s' : Memory) (confirmed live segs : List Segment) :
    Prop where
  placed : Placed cfg s' confirmed (live ++ segs)
  spares : Spares cfg s (s'.byte ()) k
  nextSeq_le : (s.word .nextSeq).toNat ≤ (s'.word .nextSeq).toNat
  keeps : ∀ v, v ≠ .writePos → v ≠ .nextSeq → s'.word v = s.word v

section Append

variable {s t s' : Memory} {confirmed live segs : List Segment} {k size : Nat}

theorem Placed.extended_self (h : Placed cfg s confirmed live) (k : Nat) :
    Extended cfg k s s confirmed live [] where
  placed := by
    rw [List.append_nil]
    exact h
  spares := fun _ _ hstored _ _ => hstored
  nextSeq_le := Nat.le_refl _
  keeps := fun _ _ _ => rfl

/-- First one segment, then the others. -/
theorem Extended.cons {seg : Segment} (hlays : Lays cfg s t seg)
    (hpos : (s.word .writePos).toNat + seg.size < 2 ^ 64)
    (hseq : (s.word .nextSeq).toNat + 1 < 2 ^ 64)
    (h : Extended cfg k t s' confirmed (live ++ [seg]) segs) :
    Extended cfg (seg.size + k) s s' confirmed live (seg :: segs) where
  placed := by
    rw [← List.singleton_append, ← List.append_assoc]
    exact h.placed
  spares := by
    intro pos l hstored hle hlap
    have hmove : (t.word .writePos).toNat = (s.word .writePos).toNat + seg.size := by
      rw [hlays.writePos, toNat_add_ofNat hpos]
    refine h.spares pos l (hlays.spares pos l hstored hle (by omega)) ?_ ?_
    · rw [hmove]
      omega
    · rw [hmove]
      omega
  nextSeq_le := by
    have hnext : (t.word .nextSeq).toNat = (s.word .nextSeq).toNat + 1 := by
      rw [hlays.nextSeq]
      exact toNat_add_ofNat hseq
    have hrest := h.nextSeq_le
    omega
  keeps := by
    intro v hwrite hnext
    rw [h.keeps v hwrite hnext, hlays.keeps v hwrite hnext]

theorem Extended.mono {n : Nat} (h : Extended cfg k s s' confirmed live segs) (hle : k ≤ n) :
    Extended cfg n s s' confirmed live segs :=
  ⟨h.placed, h.spares.mono hle, h.nextSeq_le, h.keeps⟩

section EndOfLap

variable (h : Placed cfg s confirmed live) (hok : AppendOk cfg size s) (hpos : 0 < size)
  (hsize : size ≤ 2 ^ 16 + walEntryHeaderSize) (haccepts : Accepts cfg size s)
  (hwraps : Wraps cfg size s) (hlays : Lays cfg s t (.skip (lapRest cfg s)))

include h hok hpos hsize haccepts hwraps hlays

/-- The skip record at the end of a lap. -/
theorem Placed.skip : Placed cfg t confirmed (live ++ [.skip (lapRest cfg s)]) := by
  have hroom := h.room haccepts hsize
  have hlt := hwraps.lapRest_lt hpos
  have hle := stride_le_takes haccepts
  obtain ⟨hclean, hbelow, hseq⟩ := hok haccepts
  obtain ⟨hskip, hdvd⟩ := hclean hwraps
  rw [stride, if_pos hwraps] at hle
  have hone := one_le_numbers cfg size s
  have hskipSize := size_skip_lapRest hwraps hpos hsize hskip hdvd
  exact h.lays hlays (by omega) (by omega) (by omega) (by rintro e ⟨⟩)

/-- The rest of the call is in the next lap. -/
theorem Extended.skip (hrest : Extended cfg (takes cfg size t) t s' confirmed
      (live ++ [.skip (lapRest cfg s)]) segs) :
    Extended cfg (takes cfg size s) s s' confirmed live (.skip (lapRest cfg s) :: segs) := by
  have htakes := hlays.takes_skip hok.wrapsClean hpos hsize haccepts hwraps h.used_le
  obtain ⟨hclean, hbelow, hseq⟩ := hok haccepts
  obtain ⟨hskip, hdvd⟩ := hclean hwraps
  have hskipSize := size_skip_lapRest hwraps hpos hsize hskip hdvd
  have hone := one_le_numbers cfg size s
  refine (Extended.cons hlays (by omega) (by omega) hrest).mono ?_
  omega

end EndOfLap

/-- What a call that returned `seq` put on the tape. -/
def Put (s : Memory) (type : UInt16) (data : Payload) (seq : UInt64) (segs : List Segment) : Prop :=
  seq = 0 ∧ entriesOf segs = [] ∨
    seq ≠ 0 ∧ entriesOf segs = [⟨seq, s.word .clock, type, data⟩]

/-- The entry is put behind the others. -/
theorem Placed.extended_put {type : UInt16} {data : Payload} (h : Placed cfg s confirmed live)
    (hok : AppendOk cfg (entrySize data.len) s) (haccepts : Accepts cfg (entrySize data.len) s)
    (hfits : ¬ Wraps cfg (entrySize data.len) s)
    (hlays : Lays cfg s s' (.entry (newEntry s type data))) :
    Extended cfg (takes cfg (entrySize data.len) s) s s' confirmed live
      [.entry (newEntry s type data)] := by
  have hroom := h.room haccepts (entrySize_le data.len)
  obtain ⟨-, hbelow, hseq⟩ := hok haccepts
  have htakes : takes cfg (entrySize data.len) s = entrySize data.len := by
    rw [takes, if_pos haccepts, if_neg fun h => hfits h.1, stride, if_neg hfits]
  have hone : (Segment.entry (newEntry s type data)).size = entrySize data.len := rfl
  rw [numbers, if_neg fun h => hfits h.1] at hseq
  have hplaced := h.lays hlays (by omega) (by omega) (by omega) (by
    rintro e ⟨⟩
    rfl)
  refine (Extended.cons hlays (by omega) (by omega) (hplaced.extended_self 0)).mono ?_
  omega

/-- **`Append`** puts its entry on the tape iff it returns a number other than zero. It takes
no more numbers than it puts segments there. -/
theorem Placed.appends {type : UInt16} {data : Payload} {seq : UInt64}
    (h : Placed cfg s confirmed live) (hok : AppendOk cfg (entrySize data.len) s)
    (happends : Appends cfg type data s seq s') :
    ∃ segs, Extended cfg (takes cfg (entrySize data.len) s) s s' confirmed live segs ∧
      Put s type data seq segs ∧
      (s'.word .nextSeq).toNat ≤ (s.word .nextSeq).toNat + segs.length := by
  have hsize := entrySize_le data.len
  have hpos := entrySize_pos data.len
  induction happends generalizing live with
  | refused hnot => exact ⟨[], h.extended_self _, Or.inl ⟨rfl, rfl⟩, Nat.le_refl _⟩
  | @put s s' haccepts hfits hlays =>
    refine ⟨_, h.extended_put hok haccepts hfits hlays, Or.inr ⟨?_, rfl⟩, hlays.nextSeq_le⟩
    intro hzero
    have hfirst := h.nextSeq_pos
    rw [hzero] at hfirst
    exact absurd hfirst (by decide)
  | @wrapped s t s' seq haccepts hwraps hlays hrest ih =>
    have hnext := AppendOk.skip hok.wrapsClean hpos hsize haccepts hwraps hlays h.used_le hok
    obtain ⟨segs, hextended, hput, hnumbers⟩ :=
      ih (h.skip hok hpos hsize haccepts hwraps hlays) hnext
    refine ⟨_, hextended.skip h hok hpos hsize haccepts hwraps hlays, ?_, ?_⟩
    · rw [Put, hlays.keeps .clock (by decide) (by decide)] at hput
      exact hput
    · have hone := hlays.nextSeq_le
      rw [List.length_cons]
      omega

/-- **An `Append` that is stopped** puts no entry on the tape. -/
theorem Placed.stoppedIn (h : Placed cfg s confirmed live) (hok : AppendOk cfg size s)
    (hpos : 0 < size) (hsize : size ≤ 2 ^ 16 + walEntryHeaderSize)
    (hstopped : StoppedIn cfg size s s') :
    ∃ segs, Extended cfg (takes cfg size s) s s' confirmed live segs ∧ entriesOf segs = [] := by
  induction hstopped generalizing live with
  | untouched s => exact ⟨[], h.extended_self _, rfl⟩
  | @unfinished s s' haccepts hrest =>
    have hroom := h.room haccepts hsize
    obtain ⟨-, -, hseq⟩ := hok haccepts
    have hone := one_le_numbers cfg size s
    have hstride : stride cfg size s ≤ size := by
      rw [stride]
      split
      · rename_i hwraps
        exact Nat.le_of_lt (Wraps.lapRest_lt hwraps hpos)
      · exact Nat.le_refl _
    have hle := stride_le_takes haccepts
    obtain ⟨hplaced, hnext⟩ := h.unfinished hrest (by omega) (by omega)
    refine ⟨[], ⟨?_, hrest.spares.mono hle, hnext, fun v _ hv => hrest.keeps v hv⟩, rfl⟩
    rw [List.append_nil]
    exact hplaced
  | @wrapped s t s' haccepts hwraps hlays hrest ih =>
    have hnext := AppendOk.skip hok.wrapsClean hpos hsize haccepts hwraps hlays h.used_le hok
    obtain ⟨segs, hextended, hnone⟩ := ih (h.skip hok hpos hsize haccepts hwraps hlays) hnext
    exact ⟨_, hextended.skip h hok hpos hsize haccepts hwraps hlays, hnone⟩

end Append

end Zrtools.ShmRing

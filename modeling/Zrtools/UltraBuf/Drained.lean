import Zrtools.UltraBuf.Bound

/-!
# zrtools — drained blocks of the block buffer

`pull` stops at a block as soon as it has its bytes, so a head block that was read to the end
stays in use until the next call needs bytes behind it, and its indices stay where they are.
Two things follow from where earlier pulls stopped.

* `copyContent_iff` — `copy_content` stops at the first block without bytes, so it is the whole
  content unless the head was read to the end and bytes follow;
* `empty_accepts_iff` — the room of a drained buffer ends where its tail block does, which
  matters if the limit is one block.
-/

namespace Zrtools.UltraBuf

open ByteMemory BlockPool Chain

variable {cfg : Config} {maxBlockNo : Nat}

-- ---------------------------------------------------------------------------
-- copy_content
-- ---------------------------------------------------------------------------

namespace Buf

/-- The loop of `copy_content`, with what was appended so far. -/
def copyLoop (heap : Nat → Block) : Nat → Option Nat → List UInt8 → Option (List UInt8)
  | 0, _, _ => none
  | _ + 1, none, ret => some ret
  | fuel + 1, some a, ret =>
    let b := heap a
    if b.beginPos < b.endPos then
      copyLoop heap fuel b.next (ret ++ slice b.buf b.beginPos (b.endPos - b.beginPos))
    else some ret

/-- `copy_content()`. -/
def copyContent (b : Buf) : Option (List UInt8) :=
  copyLoop b.heap (b.usedBlockCnt + 1) b.head []

end Buf

/-- A block with bytes. -/
def HasBytes (heap : Nat → Block) (a : Nat) : Prop := (heap a).beginPos < (heap a).endPos

instance (heap : Nat → Block) : DecidablePred (HasBytes heap) :=
  fun a => inferInstanceAs (Decidable ((heap a).beginPos < (heap a).endPos))

/-- What the loop of `copy_content` does. -/
theorem copyLoop_spec {heap : Nat → Block} {p : Option Nat} {used : List Nat} {fuel : Nat}
    (hlinked : Linked (links heap) p used) (hfuel : used.length < fuel) (ret : List UInt8) :
    Buf.copyLoop heap fuel p ret =
      some (ret ++ stream heap (used.takeWhile (HasBytes heap))) := by
  induction fuel generalizing p used ret with
  | zero => omega
  | succ fuel ih =>
    cases used with
    | nil =>
      obtain rfl : p = none := hlinked
      simp [Buf.copyLoop, stream]
    | cons a rest =>
      obtain ⟨rfl, hrest⟩ := hlinked
      unfold Buf.copyLoop
      by_cases hbytes : HasBytes heap a
      · have hlen : rest.length < fuel := by
          simp only [List.length_cons] at hfuel
          omega
        have hloop := ih hrest hlen
          (ret ++ slice (heap a).buf (heap a).beginPos ((heap a).endPos - (heap a).beginPos))
        have hcons : stream heap ((a :: rest).takeWhile (HasBytes heap)) =
            blockBytes (heap a) ++ stream heap (rest.takeWhile (HasBytes heap)) := by
          rw [List.takeWhile_cons_of_pos (by simpa using hbytes)]
          rfl
        simp only [if_pos (show (heap a).beginPos < (heap a).endPos from hbytes)]
        rw [hcons, ← List.append_assoc]
        exact hloop
      · have hstop : (a :: rest).takeWhile (HasBytes heap) = [] :=
          List.takeWhile_cons_of_neg (by simpa using hbytes)
        rw [hstop]
        simp only [if_neg (show ¬(heap a).beginPos < (heap a).endPos from hbytes)]
        simp [stream]

theorem Holds.copyContent {b : Buf} {used free : List Nat} {content : List UInt8}
    (h : Holds cfg b used free content) :
    b.copyContent = some (stream b.heap (used.takeWhile (HasBytes b.heap))) := by
  have hused : b.usedBlockCnt = used.length := h.pool.usedCnt
  have hfuel : used.length < b.usedBlockCnt + 1 := by omega
  have hloop := copyLoop_spec h.pool.linked hfuel []
  rw [List.nil_append] at hloop
  exact hloop

theorem stream_eq_nil_of_not_hasBytes {heap : Nat → Block} {a : Nat} (h : ¬HasBytes heap a) :
    stream heap [a] = [] := by
  apply List.eq_nil_of_length_eq_zero
  rw [stream_singleton, length_blockBytes]
  exact Nat.sub_eq_zero_of_le (Nat.not_lt.mp h)

/-- All blocks up to the tail, if the head has bytes. -/
theorem Packed.stream_takeWhile {b : Buf} {a : Nat} {rest free : List Nat}
    {content : List UInt8} (h : Packed cfg b (a :: rest))
    (hholds : Holds cfg b (a :: rest) free content) (hhead : HasBytes b.heap a) :
    stream b.heap ((a :: rest).takeWhile (HasBytes b.heap)) = content := by
  obtain ⟨front, hused, hne⟩ := hholds.pool.exists_front
  have hused : a :: rest = front ++ [b.tail] := hused
  have hfront : ∀ c ∈ front, HasBytes b.heap c := by
    intro c hc
    have hmem : c ∈ a :: rest := by simp [hused, hc]
    have hend := h.ends c hmem (hne c hc)
    rcases List.mem_cons.mp hmem with rfl | hrest
    · exact hhead
    · have hbegin := h.begins c hrest
      have hpos := cfg.pos
      show (b.heap c).beginPos < (b.heap c).endPos
      omega
  have htake : (a :: rest).takeWhile (HasBytes b.heap) =
      front ++ [b.tail].takeWhile (HasBytes b.heap) := by
    rw [hused, List.takeWhile_append_of_pos (by simpa using hfront)]
  rw [htake, ← hholds.bytes, hused, stream_append, stream_append]
  by_cases htail : HasBytes b.heap b.tail
  · rw [List.takeWhile_cons_of_pos (by simpa using htail), List.takeWhile_nil]
  · rw [List.takeWhile_cons_of_neg (by simpa using htail), stream_eq_nil_of_not_hasBytes htail]
    rfl

/-- `copy_content` gives what a pull of everything would. -/
def Buf.CopiesAll (b : Buf) : Prop :=
  ∃ b' out, b.pull b.getSize = some (b', (b.getSize : Int), out) ∧ b.copyContent = some out ∧
    out.length = b.getSize

/-- The head block has bytes. -/
def Buf.HeadHasBytes (b : Buf) : Prop := ∃ a, b.head = some a ∧ HasBytes b.heap a

theorem Represents.copiesAll_iff {b : Buf} {content : List UInt8}
    (h : Represents cfg maxBlockNo b content) (hpacked : b.Packed cfg) :
    b.CopiesAll ↔ b.getSize = 0 ∨ b.HeadHasBytes := by
  have hsize : b.getSize = content.length := h.size
  obtain ⟨used, free, hholds⟩ := h.holds
  obtain ⟨a, rest, rfl⟩ := List.exists_cons_of_ne_nil hholds.pool.used_ne_nil
  have hhead : b.head = some a := hholds.pool.linked.1
  have hcopy := hholds.copyContent
  obtain ⟨b', hpull, -, -⟩ := h.pull b.getSize
  have hwhole : b.CopiesAll ↔ b.copyContent = some content := by
    rw [hsize, Nat.min_self, List.take_length] at hpull
    refine ⟨?_, ?_⟩
    · rintro ⟨_, out, hout, hcopied, -⟩
      rw [hsize, hpull] at hout
      simp only [Option.some.injEq, Prod.mk.injEq] at hout
      rw [hcopied, hout.2.2]
    · intro hcopied
      exact ⟨b', content, by rw [hsize, hpull], hcopied, hsize.symm⟩
  rw [hwhole, hcopy]
  by_cases hbytes : HasBytes b.heap a
  · refine iff_of_true ?_ (Or.inr ⟨a, hhead, hbytes⟩)
    rw [(hholds.packed_iff.mp hpacked).stream_takeWhile hholds hbytes]
  · -- nothing is copied
    rw [List.takeWhile_cons_of_neg (by simpa using hbytes), hsize]
    have hnone : ¬b.HeadHasBytes := by
      rintro ⟨c, hc, hcbytes⟩
      obtain rfl := Option.some.inj (hhead.symm.trans hc)
      exact hbytes hcbytes
    refine ⟨?_, ?_⟩
    · intro heq
      rw [← Option.some.inj heq]
      exact Or.inl rfl
    · rintro (hzero | hhas)
      · rw [List.eq_nil_of_length_eq_zero hzero]
        rfl
      · exact absurd hhas hnone

-- ---------------------------------------------------------------------------
-- Every sequence of calls
-- ---------------------------------------------------------------------------

/-- Every call keeps the blocks packed. -/
theorem Represents.step_packed {b b' : Buf} {content : List UInt8}
    (h : Represents cfg maxBlockNo b content) (hpacked : b.Packed cfg) {request : Request}
    (hstep : b.step cfg request = some b') :
    (∃ content', Represents cfg maxBlockNo b' content') ∧ b'.Packed cfg := by
  unfold Buf.step Buf.call at hstep
  cases request with
  | push data =>
    cases hfull : b.isFull cfg data.1.length with
    | true =>
      simp only [push_of_full hfull, Option.map_some] at hstep
      obtain rfl := Option.some.inj hstep
      exact ⟨⟨content, h⟩, hpacked⟩
    | false =>
      obtain ⟨t, hpush, hnext, -, hkeeps⟩ := h.push data hfull
      simp only [hpush, Option.map_some] at hstep
      obtain rfl := Option.some.inj hstep
      exact ⟨⟨_, hnext⟩, hkeeps hpacked⟩
  | pull size =>
    obtain ⟨t, hpull, hnext, -, hkeeps⟩ := h.pull size
    simp only [hpull, Option.map_some] at hstep
    obtain rfl := Option.some.inj hstep
    exact ⟨⟨_, hnext⟩, hkeeps hpacked⟩
  | read size =>
    simp only [h.read, Option.map_some] at hstep
    obtain rfl := Option.some.inj hstep
    exact ⟨⟨content, h⟩, hpacked⟩
  | shrinkToFit =>
    obtain ⟨t, hshrink, hnext, -, hkeeps⟩ := h.shrinkToFit
    simp only [hshrink, Option.map_some] at hstep
    obtain rfl := Option.some.inj hstep
    exact ⟨⟨content, hnext⟩, hkeeps hpacked⟩

theorem packed_start (cfg : Config) (maxBlockNo : Nat) (heap : Nat → Block) :
    (Buf.new maxBlockNo heap).Packed cfg :=
  ⟨[0], [], (holds_new cfg maxBlockNo heap).pool, packed_new cfg maxBlockNo heap⟩

/-- **When `copy_content` is the whole content.** It gives the bytes that a pull of
`get_size()` bytes would, exactly if there are none or the head block has some: a head that
was read to the end hides the blocks behind it. -/
theorem copyContent_iff {heap : Nat → Block} {requests : List Request} {b : Buf}
    (hrun : Schedule.run (Buf.step cfg) (Buf.new maxBlockNo heap) requests = some b) :
    b.CopiesAll ↔ b.getSize = 0 ∨ b.HeadHasBytes := by
  obtain ⟨⟨content, hrep⟩, hpacked⟩ := Schedule.run_invariant (Buf.step cfg)
    (fun b => (∃ content, Represents cfg maxBlockNo b content) ∧ b.Packed cfg)
    (fun _ _ _ ⟨⟨_, h⟩, hp⟩ hstep => h.step_packed hp hstep)
    ⟨⟨[], represents_new cfg maxBlockNo heap⟩, packed_start cfg maxBlockNo heap⟩ hrun
  exact hrep.copiesAll_iff hpacked

def fourByteBlocks : Config := { bufferSize := 4, pos := by decide, lt := by decide }

def sixBytes : Data := ⟨[1, 2, 3, 4, 5, 6], by decide⟩

/-- Four of six bytes, all that are in the head block: the other two are not copied. -/
theorem copyContent_misses :
    ∃ b, Schedule.run (Buf.step fourByteBlocks) (Buf.new 0 zeroHeap) [.push sixBytes, .pull 4] =
        some b ∧ b.getSize = 2 ∧ b.copyContent = some [] :=
  ⟨_, rfl, rfl, rfl⟩

/-- Three of them: the other three are. -/
theorem copyContent_sixBytes :
    ∃ b, Schedule.run (Buf.step fourByteBlocks) (Buf.new 0 zeroHeap) [.push sixBytes, .pull 3] =
        some b ∧ b.CopiesAll := by
  have hrun : Schedule.run (Buf.step fourByteBlocks) (Buf.new 0 zeroHeap)
      [.push sixBytes, .pull 3] = some _ := rfl
  exact ⟨_, hrun, (copyContent_iff hrun).mpr (Or.inr ⟨0, rfl, by decide⟩)⟩

-- ---------------------------------------------------------------------------
-- The room of a drained buffer
-- ---------------------------------------------------------------------------

/-- A drained buffer has one block in use, or a second one that is new. -/
theorem Packed.used_of_empty {b : Buf} {used free : List Nat} (h : Packed cfg b used)
    (hholds : Holds cfg b used free []) :
    used.length = 1 ∨ used.length = 2 ∧ (b.heap b.tail).endPos = 0 := by
  obtain ⟨front, hused, hne⟩ := hholds.pool.exists_front
  have hused : used = front ++ [b.tail] := hused
  have hmeet : ∀ a ∈ used, (b.heap a).beginPos = (b.heap a).endPos := by
    intro a ha
    have hle := (hholds.blocks a ha).le
    have hnone : blockBytes (b.heap a) = [] := List.flatMap_eq_nil_iff.mp hholds.bytes a ha
    have hlen := length_blockBytes (b.heap a)
    rw [hnone, List.length_nil] at hlen
    omega
  subst hused
  match front, hne with
  | [], _ => exact Or.inl rfl
  | [a], _ =>
    have hbegin := h.begins b.tail (by simp)
    rw [hmeet b.tail (by simp)] at hbegin
    exact Or.inr ⟨rfl, hbegin⟩
  | a :: c :: front, hne =>
    -- a block in the middle has all its bytes
    have hbegin := h.begins c (by simp)
    have hend := h.ends c (by simp) (hne c (by simp))
    have hpos := cfg.pos
    rw [hmeet c (by simp)] at hbegin
    omega

/-- The push succeeds, and the buffer, empty before it, has the bytes. -/
def Buf.Accepts (cfg : Config) (b : Buf) (data : Data) : Prop :=
  ∃ b', b.push cfg data = some (b', (data.1.length : Int)) ∧ b'.getSize = data.1.length ∧
    b'.read data.1.length = some ((data.1.length : Int), data.1)

/-- A push of fewer bytes than a block has, or another call. -/
def Small (cfg : Config) : Request → Prop
  | .push data => data.1.length < cfg.bufferSize
  | .pull _ => True
  | .read _ => True
  | .shrinkToFit => True

/-- Such a push needs one more block at most, so it finds all blocks in use or fits. -/
theorem LimitInv.pushOk {b : Buf} {past : List PushEvent} {request : Request}
    (h : LimitInv cfg maxBlockNo b past) (hsmall : Small cfg request) : b.PushOk cfg request := by
  cases request with
  | push data =>
    obtain ⟨content, hrep⟩ := h.represents
    obtain ⟨used, free, hholds⟩ := hrep.holds
    have hlt := hholds.tail_lt
    have hdata : data.1.length < cfg.bufferSize := hsmall
    have hone : ((b.heap b.tail).endPos + data.1.length) / cfg.bufferSize < 2 :=
      (Nat.div_lt_iff_lt_mul cfg.pos).mpr (by omega)
    have hused : b.usedBlockCnt ≤ b.maxBlockNo := h.within.used
    rcases Nat.eq_or_lt_of_le hused with hall | hleft
    · exact Or.inl hall
    · refine Or.inr ?_
      show b.usedBlockCnt + _ ≤ b.maxBlockNo
      omega
  | pull size => trivial
  | read size => trivial
  | shrinkToFit => trivial

theorem LimitInv.step_small {b b' : Buf} {past : List PushEvent} {request : Request}
    (h : LimitInv cfg maxBlockNo b past) (hpacked : b.Packed cfg) (hsmall : Small cfg request)
    (hstep : b.step cfg request = some b') :
    LimitInv cfg maxBlockNo b' (past ++ b.pushes cfg request) ∧ b'.Packed cfg := by
  obtain ⟨content, hrep⟩ := h.represents
  exact ⟨h.step (h.pushOk hsmall) hstep, (hrep.step_packed hpacked hstep).2⟩

/-- A push that is not refused appends. -/
theorem Represents.accepts_iff {b : Buf} (h : Represents cfg maxBlockNo b []) (data : Data) :
    b.Accepts cfg data ↔ b.isFull cfg data.1.length = false := by
  refine ⟨?_, ?_⟩
  · rintro ⟨b', hpush, hsize, -⟩
    by_contra hfull
    rw [Bool.not_eq_false] at hfull
    rw [push_of_full hfull] at hpush
    obtain ⟨rfl, -⟩ := Prod.mk.inj (Option.some.inj hpush)
    -- a full buffer stays empty, and no bytes at all always fit
    have hzero : b.getSize = 0 := h.size
    rw [hzero] at hsize
    obtain ⟨used, free, hholds⟩ := h.holds
    have hlt := hholds.tail_lt
    have hbound := cfg.lt
    rw [← hsize, Buf.isFull, Buf.isBlockFull, Nat.add_zero, Nat.mod_eq_of_lt (by omega)] at hfull
    simp only [Bool.and_eq_true, decide_eq_true_eq] at hfull
    omega
  · intro hroom
    obtain ⟨b', hpush, hnext, -⟩ := h.push data hroom
    have hread := hnext.read data.1.length
    rw [List.nil_append] at hnext hread
    rw [Nat.min_self, List.take_length] at hread
    exact ⟨b', hpush, hnext.size, hread⟩

/-- **When a drained buffer takes bytes.** With a limit of one block the bytes must fit behind
those that were read, with one byte to spare; with a higher limit they always fit. -/
theorem empty_accepts_iff (hmax : 1 ≤ maxBlockNo) {heap : Nat → Block} {requests : List Request}
    {b : Buf} (hsmall : ∀ r ∈ requests, Small cfg r)
    (hrun : Schedule.run (Buf.step cfg) (Buf.new maxBlockNo heap) requests = some b)
    (hempty : b.getSize = 0) {data : Data} (hdata : data.1.length < cfg.bufferSize) :
    b.Accepts cfg data ↔
      maxBlockNo ≠ 1 ∨ (b.heap b.tail).endPos + data.1.length < cfg.bufferSize := by
  obtain ⟨⟨past, hlimit⟩, hpacked⟩ := Schedule.run_invariant_of_meets (Buf.step cfg)
    (fun b => (∃ past, LimitInv cfg maxBlockNo b past) ∧ b.Packed cfg)
    (fun _ _ _ ⟨⟨_, h⟩, hp⟩ hok hstep => (h.step_small hp hok hstep).imp (fun h => ⟨_, h⟩) id)
    ⟨⟨[], limitInv_new hmax heap⟩, packed_start cfg maxBlockNo heap⟩
    (Schedule.stepsMeet_of_forall (Buf.step cfg) (fun r hr _ => hsmall r hr) _) hrun
  obtain ⟨content, hrep⟩ := hlimit.represents
  obtain rfl : content = [] := List.eq_nil_of_length_eq_zero (hrep.size.symm.trans hempty)
  obtain ⟨used, free, hholds⟩ := hrep.holds
  have hlt := hholds.tail_lt
  have hbound := cfg.lt
  have hcount : b.usedBlockCnt = used.length := hholds.pool.usedCnt
  have hwithin : b.usedBlockCnt ≤ maxBlockNo := hrep.max ▸ hlimit.within.used
  rw [hrep.accepts_iff, Buf.isFull, Buf.isBlockFull, hrep.max, Nat.mod_eq_of_lt (by omega)]
  simp only [Bool.and_eq_false_iff, decide_eq_false_iff_not, not_not, beq_eq_false_iff_ne,
    Nat.not_le]
  rcases (hholds.packed_iff.mp hpacked).used_of_empty hholds with hone | ⟨htwo, hend⟩
  · omega
  · omega

def threeBytes : Data := ⟨[1, 2, 3], by decide⟩

def oneByte : Data := ⟨[4], by decide⟩

/-- Three bytes in and out of one block of four, and not one byte more is taken. -/
theorem empty_refuses :
    ∃ b, Schedule.run (Buf.step fourByteBlocks) (Buf.new 1 zeroHeap)
        [.push threeBytes, .pull 3] = some b ∧ b.getSize = 0 ∧
      b.push fourByteBlocks oneByte = some (b, eagain) :=
  ⟨_, rfl, rfl, rfl⟩

/-- With a second block it is. -/
theorem empty_accepts_oneByte :
    ∃ b, Schedule.run (Buf.step fourByteBlocks) (Buf.new 2 zeroHeap)
        [.push threeBytes, .pull 3] = some b ∧ b.Accepts fourByteBlocks oneByte := by
  have hsmall : ∀ r ∈ [Request.push threeBytes, .pull 3], Small fourByteBlocks r := by
    simp [Small, threeBytes, fourByteBlocks]
  have hrun : Schedule.run (Buf.step fourByteBlocks) (Buf.new 2 zeroHeap)
      [.push threeBytes, .pull 3] = some _ := rfl
  exact ⟨_, hrun, (empty_accepts_iff (by decide) hsmall hrun rfl (by decide)).mpr
    (Or.inl (by decide))⟩

end Zrtools.UltraBuf

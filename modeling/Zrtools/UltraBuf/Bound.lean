import Zrtools.Lib.Schedule
import Zrtools.UltraBuf.Stream

/-!
# zrtools — the limit of the block buffer

`push` compares the number of used blocks with `max_block_no` once, before its loop, and
only for equality. Data that spans more blocks than are left takes the number past the
limit, and from then on the comparison does not hold.

* `bounded_iff` — the number of blocks stays within the limit, and no push that needs
  more blocks changes the buffer, exactly if every push either finds all blocks in use or
  needs no more than are left;
* `push_past_limit` — two bytes, in blocks of one byte with a limit of two blocks;
* `not_full_past_limit` — past the limit no push is refused.
-/

namespace Zrtools.UltraBuf

-- ---------------------------------------------------------------------------
-- Runs
-- ---------------------------------------------------------------------------

/-- A push, with the buffer before and after it. -/
structure PushEvent where
  before : Buf
  data : Data
  after : Buf

namespace Buf

variable (cfg : Config)

/-- `cnt_block_used()`. -/
def cntBlockUsed (b : Buf) : Nat := b.usedBlockCnt

def step (b : Buf) (request : Request) : Option Buf := (b.call cfg request).map Prod.fst

def pushes (b : Buf) : Request → List PushEvent
  | .push data => ((b.push cfg data).map fun p => ⟨b, data, p.1⟩).toList
  | .pull _ => []
  | .read _ => []
  | .shrinkToFit => []

/-- The data needs no more blocks than are left: `push` hangs another block on the tail
whenever a block is full to the end. -/
def Fits (b : Buf) (data : Data) : Prop :=
  b.usedBlockCnt + ((b.heap b.tail).endPos + data.1.length) / cfg.bufferSize ≤ b.maxBlockNo
  deriving Decidable

/-- The limit is kept now, and what did not fit has changed nothing. -/
structure WithinLimit (b : Buf) (past : List PushEvent) : Prop where
  used : b.cntBlockUsed ≤ b.maxBlockNo
  unchanged : ∀ e ∈ past, ¬e.before.Fits cfg e.data → e.after = e.before

/-- Before a push all blocks are in use, or its data fits. -/
def PushOk (b : Buf) : Request → Prop
  | .push data => b.usedBlockCnt = b.maxBlockNo ∨ b.Fits cfg data
  | .pull _ => True
  | .read _ => True
  | .shrinkToFit => True

end Buf

variable {cfg : Config} {maxBlockNo : Nat}

-- ---------------------------------------------------------------------------
-- Steps
-- ---------------------------------------------------------------------------

/-- A buffer that is full does not change. -/
theorem push_of_full {b : Buf} {data : Data} (hfull : b.isFull cfg data.1.length = true) :
    b.push cfg data = some (b, eagain) := by
  rw [Buf.push, if_pos hfull]

/-- A full tail block has no room for the data. -/
theorem Represents.div_eq_zero {b : Buf} {content : List UInt8}
    (h : Represents cfg maxBlockNo b content) {data : Data}
    (hroom : b.isBlockFull cfg data.1.length = false) :
    ((b.heap b.tail).endPos + data.1.length) / cfg.bufferSize = 0 := by
  obtain ⟨used, free, hholds⟩ := h.holds
  have hlt := hholds.tail_lt
  have hdata := data.2
  have hbound := cfg.lt
  have hmod := of_decide_eq_false hroom
  rw [Nat.mod_eq_of_lt (by omega)] at hmod
  exact Nat.div_eq_of_lt (by omega)

/-- Every call returns, whatever the limit. -/
theorem Represents.call {b : Buf} {content : List UInt8} (h : Represents cfg maxBlockNo b content)
    (request : Request) :
    ∃ b' content', b.step cfg request = some b' ∧ Represents cfg maxBlockNo b' content' := by
  unfold Buf.step Buf.call
  cases request with
  | push data =>
    cases hfull : b.isFull cfg data.1.length with
    | true =>
      refine ⟨b, content, ?_, h⟩
      simp only [push_of_full hfull, Option.map_some]
    | false =>
      obtain ⟨b', hpush, hnext, -⟩ := h.push data hfull
      refine ⟨b', _, ?_, hnext⟩
      simp only [hpush, Option.map_some]
  | pull size =>
    obtain ⟨b', hpull, hnext, -⟩ := h.pull size
    refine ⟨b', _, ?_, hnext⟩
    simp only [hpull, Option.map_some]
  | read size =>
    refine ⟨b, content, ?_, h⟩
    simp only [h.read, Option.map_some]
  | shrinkToFit =>
    obtain ⟨b', hshrink, hnext, -⟩ := h.shrinkToFit
    refine ⟨b', content, ?_, hnext⟩
    simp only [hshrink, Option.map_some]

/-- Between two calls, as long as the limit is kept. -/
structure LimitInv (cfg : Config) (maxBlockNo : Nat) (b : Buf) (past : List PushEvent) : Prop where
  represents : ∃ content, Represents cfg maxBlockNo b content
  within : b.WithinLimit cfg past

theorem limitInv_new (hmax : 1 ≤ maxBlockNo) (heap : Nat → Block) :
    LimitInv cfg maxBlockNo (Buf.new maxBlockNo heap) [] where
  represents := ⟨[], represents_new cfg maxBlockNo heap⟩
  within := by
    refine ⟨hmax, ?_⟩
    intro e he
    simp at he

/-- A push that fits, or that finds all blocks in use. -/
theorem LimitInv.push {b b' : Buf} {past : List PushEvent} {data : Data}
    (h : LimitInv cfg maxBlockNo b past) (hok : b.PushOk cfg (.push data))
    (hstep : b.step cfg (.push data) = some b') :
    LimitInv cfg maxBlockNo b' (past ++ b.pushes cfg (.push data)) := by
  obtain ⟨content, hrep⟩ := h.represents
  simp only [Buf.step, Buf.call, Option.map_map] at hstep
  cases hfull : b.isFull cfg data.1.length with
  | true =>
    -- refused
    simp only [push_of_full hfull, Option.map_some] at hstep
    obtain rfl := Option.some.inj hstep
    refine ⟨⟨content, hrep⟩, h.within.used, ?_⟩
    intro e he hfits
    simp only [Buf.pushes, push_of_full hfull, Option.map_some, Option.toList_some] at he
    rcases List.mem_append.mp he with he | he
    · exact h.within.unchanged e he hfits
    · rw [List.mem_singleton.mp he]
  | false =>
    obtain ⟨t, hpush, hnext, hused, -⟩ := hrep.push data hfull
    simp only [hpush, Option.map_some] at hstep
    obtain rfl := Option.some.inj hstep
    have hfits : b.Fits cfg data := by
      rcases hok with hall | hfits
      · -- all blocks are in use, so the tail block has room
        have hroom : b.isBlockFull cfg data.1.length = false := by
          have hne : b.maxBlockNo ≠ 0 := by
            have hpos := h.within.used
            obtain ⟨used, free, hholds⟩ := hrep.holds
            have hcount : 0 < b.usedBlockCnt := hholds.pool.used_pos
            omega
          simpa [Buf.isFull, hne, hall] using hfull
        unfold Buf.Fits
        rw [hrep.div_eq_zero hroom]
        exact Nat.le_of_eq hall
      · exact hfits
    refine ⟨⟨_, hnext⟩, ?_, ?_⟩
    · show t.usedBlockCnt ≤ t.maxBlockNo
      rw [hused, hnext.max, ← hrep.max]
      exact hfits
    · intro e he hmiss
      simp only [Buf.pushes, hpush, Option.map_some, Option.toList_some] at he
      rcases List.mem_append.mp he with he | he
      · exact h.within.unchanged e he hmiss
      · rw [List.mem_singleton.mp he] at hmiss
        exact absurd hfits hmiss

/-- The other calls take no blocks. -/
theorem LimitInv.step {b b' : Buf} {past : List PushEvent} {request : Request}
    (h : LimitInv cfg maxBlockNo b past) (hok : b.PushOk cfg request)
    (hstep : b.step cfg request = some b') :
    LimitInv cfg maxBlockNo b' (past ++ b.pushes cfg request) := by
  obtain ⟨content, hrep⟩ := h.represents
  cases request with
  | push data => exact h.push hok hstep
  | pull size =>
    obtain ⟨t, hpull, hnext, hused, -⟩ := hrep.pull size
    simp only [Buf.step, Buf.call, hpull, Option.map_some] at hstep
    obtain rfl := Option.some.inj hstep
    rw [Buf.pushes, List.append_nil]
    refine ⟨⟨_, hnext⟩, ?_, h.within.unchanged⟩
    show t.usedBlockCnt ≤ t.maxBlockNo
    rw [hnext.max, ← hrep.max]
    exact Nat.le_trans hused h.within.used
  | read size =>
    simp only [Buf.step, Buf.call, hrep.read, Option.map_some] at hstep
    obtain rfl := Option.some.inj hstep
    rw [Buf.pushes, List.append_nil]
    exact ⟨⟨content, hrep⟩, h.within⟩
  | shrinkToFit =>
    obtain ⟨t, hshrink, hnext, hused, -⟩ := hrep.shrinkToFit
    simp only [Buf.step, Buf.call, hshrink, Option.map_some] at hstep
    obtain rfl := Option.some.inj hstep
    rw [Buf.pushes, List.append_nil]
    refine ⟨⟨content, hnext⟩, ?_, h.within.unchanged⟩
    show t.usedBlockCnt ≤ t.maxBlockNo
    rw [hused, hnext.max, ← hrep.max]
    exact h.within.used

/-- A push of too much data, with a block left, goes past the limit. -/
theorem LimitInv.push_past {b b' : Buf} {past : List PushEvent} {request : Request}
    (h : LimitInv cfg maxBlockNo b past) (hmiss : ¬b.PushOk cfg request)
    (hstep : b.step cfg request = some b') : b'.maxBlockNo < b'.cntBlockUsed := by
  obtain ⟨content, hrep⟩ := h.represents
  cases request with
  | push data =>
    obtain ⟨hleft, hmiss⟩ := not_or.mp hmiss
    have hfull : b.isFull cfg data.1.length = false := by simp [Buf.isFull, hleft]
    obtain ⟨t, hpush, hnext, hused, -⟩ := hrep.push data hfull
    simp only [Buf.step, Buf.call, hpush, Option.map_some] at hstep
    obtain rfl := Option.some.inj hstep
    show t.maxBlockNo < t.usedBlockCnt
    rw [hused, hnext.max, ← hrep.max]
    exact Nat.lt_of_not_le hmiss
  | pull size => exact absurd trivial hmiss
  | read size => exact absurd trivial hmiss
  | shrinkToFit => exact absurd trivial hmiss

-- ---------------------------------------------------------------------------
-- Every sequence of calls
-- ---------------------------------------------------------------------------

/-- Every sequence of calls returns, whatever the limit. -/
theorem run_returns (cfg : Config) (maxBlockNo : Nat) (heap : Nat → Block)
    (requests : List Request) :
    ∃ b, Schedule.run (Buf.step cfg) (Buf.new maxBlockNo heap) requests = some b := by
  have hrun : ∀ (requests : List Request) (b : Buf) (content : List UInt8),
      Represents cfg maxBlockNo b content →
      ∃ b', Schedule.run (Buf.step cfg) b requests = some b' := by
    intro requests
    induction requests with
    | nil => exact fun b _ _ => ⟨b, rfl⟩
    | cons request requests ih =>
      intro b content h
      obtain ⟨t, content', hstep, hnext⟩ := h.call request
      obtain ⟨b', hrest⟩ := ih t content' hnext
      exact ⟨b', (Schedule.run_cons (Buf.step cfg)).mpr ⟨t, hstep, hrest⟩⟩
  exact hrun requests _ [] (represents_new cfg maxBlockNo heap)

/-- **The limit.** Every sequence of calls on a new buffer with a limit returns. All along
it the number of blocks is within the limit, and what did not fit has changed nothing,
exactly if every push found all blocks in use or fitted. -/
theorem bounded_iff (cfg : Config) {maxBlockNo : Nat} (hmax : 1 ≤ maxBlockNo)
    (heap : Nat → Block) (requests : List Request) :
    (∃ b, Schedule.run (Buf.step cfg) (Buf.new maxBlockNo heap) requests = some b) ∧
      ((∀ front rest b, requests = front ++ rest →
          Schedule.run (Buf.step cfg) (Buf.new maxBlockNo heap) front = some b →
          b.WithinLimit cfg
            (Schedule.outputs (Buf.step cfg) (Buf.pushes cfg) (Buf.new maxBlockNo heap) front)) ↔
        Schedule.StepsMeet (Buf.step cfg) (Buf.PushOk cfg) (Buf.new maxBlockNo heap) requests) := by
  obtain ⟨b, hrun⟩ := run_returns cfg maxBlockNo heap requests
  refine ⟨⟨b, hrun⟩, ?_⟩
  have hiff := Schedule.forall_prefix_iff_stepsMeet (Buf.step cfg)
    (LimitInv cfg maxBlockNo) (Buf.WithinLimit cfg)
    (fun _ _ h => h.within) (fun _ _ _ _ h hok hstep => h.step hok hstep)
    (fun _ _ _ _ h hmiss hstep hgood => Nat.not_lt_of_le hgood.used (h.push_past hmiss hstep))
    (limitInv_new hmax heap) hrun
  exact hiff

/-- Past the limit no push is refused. -/
theorem not_full_past_limit (cfg : Config) {b : Buf} (hpast : b.maxBlockNo < b.cntBlockUsed)
    (incomingSz : Nat) : b.isFull cfg incomingSz = false := by
  have hne : b.usedBlockCnt ≠ b.maxBlockNo := Nat.ne_of_gt hpast
  simp [Buf.isFull, hne]

-- ---------------------------------------------------------------------------
-- Blocks of one byte
-- ---------------------------------------------------------------------------

def oneByteBlocks : Config := { bufferSize := 1, pos := by decide, lt := by decide }

/-- Memory with zeros in it. -/
def zeroHeap : Nat → Block :=
  fun _ => { next := none, beginPos := 0, endPos := 0, buf := fun _ => 0 }

def twoBytes : Data := ⟨[1, 2], by decide⟩

/-- Two bytes with a limit of two blocks take three. -/
theorem push_past_limit :
    ∃ b, Schedule.run (Buf.step oneByteBlocks) (Buf.new 2 zeroHeap) [Request.push twoBytes] =
        some b ∧ b.maxBlockNo = 2 ∧ b.cntBlockUsed = 3 :=
  ⟨_, rfl, rfl, rfl⟩

/-- With a limit of three blocks they fit. -/
theorem bounded_twoBytes :
    ∃ b, Schedule.run (Buf.step oneByteBlocks) (Buf.new 3 zeroHeap) [Request.push twoBytes] =
        some b ∧
      b.WithinLimit oneByteBlocks (Schedule.outputs (Buf.step oneByteBlocks)
        (Buf.pushes oneByteBlocks) (Buf.new 3 zeroHeap) [Request.push twoBytes]) := by
  obtain ⟨⟨b, hrun⟩, hiff⟩ :=
    bounded_iff oneByteBlocks (show 1 ≤ 3 by decide) zeroHeap [Request.push twoBytes]
  have hwithin := hiff.mpr ⟨Or.inr (by decide), fun _ _ => trivial⟩
  exact ⟨b, hrun, hwithin _ [] b (List.append_nil _).symm hrun⟩

end Zrtools.UltraBuf

import Mathlib.Algebra.Order.Ring.Nat
import Zrtools.Lib.BlockPool
import Zrtools.Lib.ByteMemory

/-!
# zrtools — the block buffer (`ultrabuf.h`, `ultrabuf.cpp`)

`UltraBuf` keeps a stream of bytes in a chain of fixed-size blocks. `push` fills the tail
block and hangs further ones on it; `pull` gives head blocks that were read to the end to
a second chain, from which `push` takes them again, and `shrink_to_fit` deletes those.
Addresses are numbers; a new block gets one that was never used, with whatever bytes are
there. A loop that runs through a null pointer, or that does not come to an end, has no
result.

* `Buf` — the members of the buffer and the heap, and what the calls do to them;
* `blockBytes` — the bytes of a block that are part of the stream.
-/

namespace Zrtools.UltraBuf

open ByteMemory BlockPool

/-- `BLOCK_BUFFER_SIZE`: not zero, and an array may have that size. -/
structure Config where
  bufferSize : Nat
  pos : 0 < bufferSize
  lt : bufferSize < 2 ^ 63

theorem defaultConfig_lt : 1024 * 1024 < 2 ^ 63 := by decide

/-- The macro's default. -/
def defaultConfig : Config :=
  { bufferSize := 1024 * 1024, pos := by decide, lt := defaultConfig_lt }

/-- What `push` is given: no object has more than `PTRDIFF_MAX` bytes. -/
abbrev Data := { l : List UInt8 // l.length < 2 ^ 63 }

/-- `EAGAIN`. -/
abbrev eagain : Int := 11

structure Block where
  next : Option Nat
  beginPos : Nat
  endPos : Nat
  buf : Mem

/-- `Block()` and `reset()`: both leave the buffer as it is. -/
def Block.reset (b : Block) : Block := { b with next := none, beginPos := 0, endPos := 0 }

/-- `UltraBuf` and the heap of its blocks. -/
structure Buf where
  heap : Nat → Block
  fresh : Nat
  head : Option Nat
  tail : Nat
  emptyHead : Option Nat
  maxBlockNo : Nat
  usedBlockCnt : Nat
  emptyBlockCnt : Nat
  contentSize : Nat

namespace Buf

/-- The constructor. -/
def new (maxBlockNo : Nat) (heap : Nat → Block) : Buf where
  heap := Function.update heap 0 (heap 0).reset
  fresh := 1
  head := some 0
  tail := 0
  emptyHead := none
  maxBlockNo := maxBlockNo
  usedBlockCnt := 1
  emptyBlockCnt := 0
  contentSize := 0

variable (cfg : Config)

/-- `is_block_full(incoming_sz)`, in `size_t`. -/
def isBlockFull (b : Buf) (incomingSz : Nat) : Bool :=
  decide (cfg.bufferSize ≤ ((b.heap b.tail).endPos + incomingSz) % 2 ^ 64)

/-- `is_full(incoming_sz)`. -/
def isFull (b : Buf) (incomingSz : Nat) : Bool :=
  decide (b.maxBlockNo ≠ 0) && b.usedBlockCnt == b.maxBlockNo && b.isBlockFull cfg incomingSz

/-- `is_empty(size)`. -/
def isEmpty (b : Buf) (size : Nat) : Bool := decide (b.contentSize < size)

/-- `get_size()`. -/
def getSize (b : Buf) : Nat := b.contentSize

/-- The first part of a turn of the loop of `push`: another block for `m_tail->next`, the
first one of the second chain or else a new one. `m_tail` stays. -/
def linkBlock (b : Buf) : Nat × Buf :=
  match b.emptyHead with
  | some e =>
    let heap := Function.update b.heap b.tail { b.heap b.tail with next := some e }
    (e, { b with
      heap := Function.update heap e (heap e).reset
      emptyHead := (heap e).next
      usedBlockCnt := b.usedBlockCnt + 1
      emptyBlockCnt := b.emptyBlockCnt - 1 })
  | none =>
    let heap := Function.update b.heap b.fresh (b.heap b.fresh).reset
    (b.fresh, { b with
      heap := Function.update heap b.tail { heap b.tail with next := some b.fresh }
      fresh := b.fresh + 1
      usedBlockCnt := b.usedBlockCnt + 1 })

/-- `memcpy` to the end of the tail block. -/
def copyToTail (b : Buf) (data : List UInt8) : Buf :=
  let t := b.heap b.tail
  { b with
    heap := Function.update b.heap b.tail
      { t with buf := write t.buf t.endPos data, endPos := t.endPos + data.length } }

/-- A turn of the loop of `push` that goes on: the bytes fill the tail block, and then
`m_tail = m_tail->next`. -/
def fillTail (b : Buf) (data : List UInt8) : Buf :=
  { b.linkBlock.2.copyToTail data with tail := b.linkBlock.1 }

/-- The loop of `push`, with the bytes that are still to be written. -/
def pushLoop : Nat → Buf → List UInt8 → Option Buf
  | 0, _, _ => none
  | fuel + 1, b, data =>
    let spaceLeft := cfg.bufferSize - (b.heap b.tail).endPos
    if b.isBlockFull cfg data.length then
      pushLoop fuel (b.fillTail (data.take spaceLeft)) (data.drop spaceLeft)
    else some (b.copyToTail data)

/-- `push(data, size)`, with the return value. -/
def push (b : Buf) (data : Data) : Option (Buf × Int) :=
  if b.isFull cfg data.1.length then some (b, eagain)
  else (b.pushLoop cfg (data.1.length + 1) data.1).map fun b =>
    ({ b with contentSize := b.contentSize + data.1.length }, data.1.length)

/-- The loop of `read`, with the bytes that were copied out. -/
def readLoop (heap : Nat → Block) :
    Nat → Option Nat → Nat → List UInt8 → Option (List UInt8)
  | 0, _, _, _ => none
  | _ + 1, none, _, _ => none
  | fuel + 1, some h, szToRead, out =>
    let b := heap h
    let blockContentSz := b.endPos - b.beginPos
    if blockContentSz < szToRead then
      readLoop heap fuel b.next (szToRead - blockContentSz)
        (out ++ slice b.buf b.beginPos blockContentSz)
    else some (out ++ slice b.buf b.beginPos szToRead)

/-- `read(data, size)`, with the return value and the bytes that are copied out. -/
def read (b : Buf) (size : Nat) : Option (Int × List UInt8) :=
  if b.isEmpty 1 then some (0, [])
  else
    let szToReadTotal := min size b.contentSize
    (readLoop b.heap (b.usedBlockCnt + 1) b.head szToReadTotal []).map fun out =>
      (szToReadTotal, out)

/-- The head block goes to the second chain. -/
def recycle (b : Buf) (cur : Nat) : Buf :=
  { b with
    heap := Function.update b.heap cur { b.heap cur with next := b.emptyHead }
    head := (b.heap cur).next
    emptyHead := some cur
    usedBlockCnt := b.usedBlockCnt - 1
    emptyBlockCnt := b.emptyBlockCnt + 1 }

/-- `m_head->begin += n`. -/
def advance (b : Buf) (h n : Nat) : Buf :=
  { b with
    heap := Function.update b.heap h { b.heap h with beginPos := (b.heap h).beginPos + n } }

/-- The loop of `pull`, with the bytes that were copied out. -/
def pullLoop : Nat → Buf → Nat → List UInt8 → Option (Buf × List UInt8)
  | 0, _, _, _ => none
  | fuel + 1, b, szToRead, out =>
    match b.head with
    | none => none
    | some h =>
      let blockContentSz := (b.heap h).endPos - (b.heap h).beginPos
      if blockContentSz < szToRead then
        pullLoop fuel ((b.advance h blockContentSz).recycle h) (szToRead - blockContentSz)
          (out ++ slice (b.heap h).buf (b.heap h).beginPos blockContentSz)
      else
        some (b.advance h szToRead, out ++ slice (b.heap h).buf (b.heap h).beginPos szToRead)

/-- `pull(data, size)`, with the return value and the bytes that are copied out. -/
def pull (b : Buf) (size : Nat) : Option (Buf × Int × List UInt8) :=
  if b.isEmpty 1 then some (b, 0, [])
  else
    let szToReadTotal := min size b.contentSize
    (b.pullLoop (b.usedBlockCnt + 1) szToReadTotal []).map fun p =>
      ({ p.1 with contentSize := p.1.contentSize - szToReadTotal }, szToReadTotal, p.2)

/-- The loop of `shrink_to_fit` deletes the second chain. -/
def shrinkLoop : Nat → Buf → Option Buf
  | 0, _ => none
  | fuel + 1, b =>
    match b.emptyHead with
    | none => some b
    | some e => shrinkLoop fuel { b with emptyHead := (b.heap e).next }

/-- `shrink_to_fit()`. -/
def shrinkToFit (b : Buf) : Option Buf :=
  (b.shrinkLoop (b.emptyBlockCnt + 1)).map fun b => { b with emptyBlockCnt := 0 }

end Buf

-- ---------------------------------------------------------------------------
-- The links of the blocks
-- ---------------------------------------------------------------------------

/-- The links of a heap. -/
def links (heap : Nat → Block) (a : Nat) : Option Nat := (heap a).next

theorem links_update (heap : Nat → Block) (a : Nat) (b : Block) :
    links (Function.update heap a b) = Function.update (links heap) a b.next := by
  funext c
  rcases eq_or_ne c a with rfl | hne
  · simp [links]
  · simp [links, hne]

theorem next_update (heap : Nat → Block) (a : Nat) (b : Block) (c : Nat) :
    (Function.update heap a b c).next = Function.update (links heap) a b.next c :=
  congrFun (links_update heap a b) c

/-- A change of a block that keeps its link. -/
theorem links_update_same {heap : Nat → Block} {a : Nat} {b : Block}
    (hb : b.next = (heap a).next) : links (Function.update heap a b) = links heap := by
  rw [links_update, hb]
  exact Function.update_eq_self a (links heap)

/-- The two chains of the buffer. -/
def Buf.pool (b : Buf) : Pool where
  next := links b.heap
  fresh := b.fresh
  head := b.head
  tail := b.tail
  emptyHead := b.emptyHead
  usedCnt := b.usedBlockCnt
  emptyCnt := b.emptyBlockCnt

theorem pool_copyToTail (b : Buf) (data : List UInt8) : (b.copyToTail data).pool = b.pool := by
  have hlinks : links (b.copyToTail data).heap = links b.heap := links_update_same rfl
  unfold Buf.pool
  rw [hlinks]
  rfl

/-- `push` hangs a block on the tail. -/
theorem pool_fillTail (b : Buf) (data : List UInt8) : (b.fillTail data).pool = b.pool.hang := by
  have hpool : (b.fillTail data).pool = { (b.linkBlock.2.copyToTail data).pool with
      tail := b.linkBlock.1 } := rfl
  rw [hpool, pool_copyToTail]
  cases hempty : b.emptyHead with
  | some e =>
    simp only [Buf.linkBlock, hempty, Buf.pool, Pool.hang, links_update, next_update, Block.reset]
  | none =>
    simp only [Buf.linkBlock, hempty, Buf.pool, Pool.hang, links_update, Block.reset]

theorem pool_advance (b : Buf) (h n : Nat) : (b.advance h n).pool = b.pool := by
  have hlinks : links (b.advance h n).heap = links b.heap := links_update_same rfl
  unfold Buf.pool
  rw [hlinks]
  rfl

/-- `pull` gives the head block to the second chain. -/
theorem pool_recycle (b : Buf) (h : Nat) : (b.recycle h).pool = b.pool.recycle h := by
  simp only [Buf.pool, Buf.recycle, Pool.recycle, links_update]
  rfl

-- ---------------------------------------------------------------------------
-- The bytes of the blocks
-- ---------------------------------------------------------------------------

/-- The bytes of a block that are part of the stream. -/
def blockBytes (b : Block) : List UInt8 := slice b.buf b.beginPos (b.endPos - b.beginPos)

/-- The indices of a block are in order. -/
structure BlockOk (cfg : Config) (b : Block) : Prop where
  le : b.beginPos ≤ b.endPos
  fits : b.endPos ≤ cfg.bufferSize

end Zrtools.UltraBuf

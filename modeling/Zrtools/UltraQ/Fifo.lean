import Zrtools.Lib.Refinement
import Zrtools.UltraQ.Shape

/-!
# zrtools — the block queue as a FIFO queue

`push` and `pull` of an `UltraQ` that one thread uses at a time. The queue stands for the
list of its messages: an accepted message goes to the end of the list and `pull` takes the
first one off. Every call returns, and no byte behind `buf` is ever written.

* `Full`, `Fifo` — when the queue is full, and what a queue of messages answers;
* `Represents` — a block queue and the list it stands for, with the blocks that were ever
  allocated all in one of the two chains;
* `calls_fifo` — every sequence of calls on a new queue;
* `empty_push_iff` — when a queue that was drained takes a message.
-/

namespace Zrtools.UltraQ

open ByteMemory LittleEndian Chain Refinement

-- ---------------------------------------------------------------------------
-- Calls
-- ---------------------------------------------------------------------------

inductive Request where
  | push (data : Message)
  | pull

/-- The ways in which a call returns. -/
inductive Reply where
  | full
  | tooLong
  | pushed
  | nothing
  | pulled (data : Message)

namespace Queue

/-- `push(data, size)`, with the return value. -/
def push (cfg : Config) (q : Queue) (data : Message) : Queue × Reply × Int :=
  if q.isFull cfg data.length then (q, .full, 0)
  else if cfg.bufferSize - headerSize < data.length then (q, .tooLong, -1)
  else (q.lockedPush cfg data, .pushed, data.length)

/-- `pull(data)`, with what it copies out and the return value, unless it reads through a
null pointer. -/
def pull (q : Queue) : Option (Queue × Reply × Int) :=
  if q.isEmpty then some (q, .nothing, 0)
  else q.lockedPull.2.map fun data => (q.lockedPull.1, .pulled data, data.length)

/-- `get_size()`. -/
def getSize (q : Queue) : Nat := q.contentSize

def call (cfg : Config) (q : Queue) : Request → Option (Queue × Reply × Int)
  | .push data => some (q.push cfg data)
  | .pull => q.pull

end Queue

/-- The queue is full for a message of `n` bytes: its blocks are limited and all of them in use,
and the tail block has no room for the message and one byte more. -/
def Full (cfg : Config) (q : Queue) (n : Nat) : Prop :=
  q.maxBlockNo ≠ 0 ∧ q.usedBlockCnt = q.maxBlockNo ∧
    cfg.bufferSize ≤ (q.heap q.tail).rightIdx + headerSize + n

/-- **The abstract queue**: a list of messages of at most `bufferSize - 8` bytes. A message that
fits is refused exactly if the queue `q` is full for it. -/
inductive Fifo (cfg : Config) (q : Queue) :
    List Message → Request → Reply × Int → List Message → Prop
  | full {ms : List Message} {data : Message} (hfull : Full cfg q data.length) :
      Fifo cfg q ms (.push data) (.full, 0) ms
  | tooLong {ms : List Message} {data : Message}
      (hlong : cfg.bufferSize - headerSize < data.length) :
      Fifo cfg q ms (.push data) (.tooLong, -1) ms
  | pushed {ms : List Message} {data : Message} (hroom : ¬ Full cfg q data.length)
      (hfits : data.length ≤ cfg.bufferSize - headerSize) :
      Fifo cfg q ms (.push data) (.pushed, data.length) (ms ++ [data])
  | nothing : Fifo cfg q [] .pull (.nothing, 0) []
  | pulled {m : Message} {ms : List Message} :
      Fifo cfg q (m :: ms) .pull (.pulled m, m.length) ms

/-- A call of the block queue, and what it does to the list of its messages. -/
def Answers (cfg : Config) (s : Queue × List Message) (request : Request) (reply : Reply × Int)
    (s' : Queue × List Message) : Prop :=
  s.1.call cfg request = some (s'.1, reply) ∧ Fifo cfg s.1 s.2 request reply s'.2

-- ---------------------------------------------------------------------------
-- What the queue stands for
-- ---------------------------------------------------------------------------

/-- Nothing was written behind the buffer of a block, since the heap was `heap`. -/
def Within (cfg : Config) (heap : Nat → Block) (q : Queue) : Prop :=
  ∀ a i, cfg.bufferSize ≤ i → (q.heap a).buf i = (heap a).buf i

/-- The queue stands for the messages `ms`. -/
structure Represents (cfg : Config) (maxBlockNo : Nat) (heap : Nat → Block) (q : Queue)
    (ms : List Message) : Prop where
  shape : ∃ blocks free, Shape cfg q blocks free ∧ Filled blocks ∧ messages blocks = ms
  max : q.maxBlockNo = maxBlockNo
  bounded : maxBlockNo ≠ 0 → q.usedBlockCnt ≤ maxBlockNo
  allocated : q.usedBlockCnt + q.emptyBlockCnt = q.fresh
  within : Within cfg heap q

variable {cfg : Config} {maxBlockNo : Nat} {heap : Nat → Block}

/-- Room in the tail block, in `size_t`. -/
theorem Represents.isBlockFull_eq_false_iff {q : Queue} {ms : List Message}
    (h : Represents cfg maxBlockNo heap q ms) {n : Nat} (hsize : n ≤ cfg.bufferSize - headerSize) :
    q.isBlockFull cfg n = false ↔ (q.heap q.tail).rightIdx + headerSize + n < cfg.bufferSize := by
  obtain ⟨blocks, free, hshape, -, -⟩ := h.shape
  obtain ⟨front, last, rfl⟩ := hshape.tail
  have hfits : (q.heap q.tail).rightIdx ≤ cfg.bufferSize :=
    (hshape.holds (q.tail, last) (by simp)).fits
  have hlt := cfg.lt
  have hle := cfg.header_le
  have hhdr : headerSize = 8 := rfl
  have hmod : ((q.heap q.tail).rightIdx + headerSize + n) % 2 ^ 64 =
      (q.heap q.tail).rightIdx + headerSize + n := Nat.mod_eq_of_lt (by omega)
  rw [Queue.isBlockFull, hmod, decide_eq_false_iff_not, Nat.not_le]

theorem Queue.isFull_iff {q : Queue} {n : Nat} :
    q.isFull cfg n = true ↔
      q.maxBlockNo ≠ 0 ∧ q.usedBlockCnt = q.maxBlockNo ∧ q.isBlockFull cfg n = true := by
  unfold Queue.isFull
  split
  · rename_i hlimited
    rw [Bool.and_eq_true, beq_iff_eq]
    exact (and_iff_right hlimited).symm
  · rename_i hunlimited
    simp [hunlimited]

/-- Where `is_full` holds the queue is full, whatever the size. -/
theorem Queue.full_of_isFull {q : Queue} {n : Nat} (h : q.isFull cfg n = true) : Full cfg q n := by
  obtain ⟨hlimited, hused, hblock⟩ := Queue.isFull_iff.mp h
  refine ⟨hlimited, hused, Nat.le_trans ?_ (Nat.mod_le _ (2 ^ 64))⟩
  rw [Queue.isBlockFull, decide_eq_true_iff] at hblock
  exact hblock

/-- For a message that fits, `is_full` says so. -/
theorem Represents.isFull_iff {q : Queue} {ms : List Message}
    (h : Represents cfg maxBlockNo heap q ms) {n : Nat} (hsize : n ≤ cfg.bufferSize - headerSize) :
    q.isFull cfg n = true ↔ Full cfg q n := by
  rw [Queue.isFull_iff, Full, ← Nat.not_lt, ← h.isBlockFull_eq_false_iff hsize,
    Bool.not_eq_false]

theorem represents_new (cfg : Config) (maxBlockNo : Nat) (heap : Nat → Block) :
    Represents cfg maxBlockNo heap (Queue.new maxBlockNo heap) [] where
  shape := by
    refine ⟨[(0, [])], [], shape_new cfg maxBlockNo heap, ?_, rfl⟩
    intro p hp
    simp at hp
  max := rfl
  bounded := by
    intro hne
    show 1 ≤ maxBlockNo
    omega
  allocated := rfl
  within := by
    intro a i _
    rcases eq_or_ne a 0 with rfl | hne
    · simp [Queue.new, Block.reset]
    · simp [Queue.new, hne]

-- ---------------------------------------------------------------------------
-- push
-- ---------------------------------------------------------------------------

/-- `push_impl` with room in the tail block stays in the buffer. -/
theorem Within.pushImpl {q : Queue} (h : Within cfg heap q) {m : Message}
    (hroom : (q.heap q.tail).rightIdx + headerSize + m.length ≤ cfg.bufferSize) :
    Within cfg heap (q.pushImpl m) := by
  intro a i hi
  rcases eq_or_ne a q.tail with rfl | hne
  · rw [← h q.tail i hi]
    have hlen : (encode headerSize m.length).length = headerSize := length_encode ..
    simp only [Queue.pushImpl, Function.update_self]
    rw [write_of_not_mem (Or.inr (by omega)), write_of_not_mem (Or.inr (by omega))]
  · rw [← h a i hi]
    simp [Queue.pushImpl, hne]

theorem buf_update {heap : Nat → Block} {c : Nat} {b : Block} (hb : b.buf = (heap c).buf)
    (a : Nat) :
    (Function.update heap c b a).buf = (heap a).buf := by
  rcases eq_or_ne a c with rfl | hne
  · rw [Function.update_self, hb]
  · rw [Function.update_of_ne hne]

/-- Hanging a block on the tail writes no buffer. -/
theorem buf_addBlock (q : Queue) (a : Nat) : (q.addBlock.heap a).buf = (q.heap a).buf := by
  cases hempty : q.emptyHead with
  | some e =>
    simp only [Queue.addBlock, hempty]
    refine (buf_update ?_ a).trans (buf_update ?_ a)
    · rfl
    · rfl
  | none =>
    simp only [Queue.addBlock, hempty]
    refine (buf_update ?_ a).trans (buf_update ?_ a)
    · rfl
    · rfl

theorem Within.addBlock {q : Queue} (h : Within cfg heap q) : Within cfg heap q.addBlock := by
  intro a i hi
  rw [buf_addBlock]
  exact h a i hi

/-- Hanging a block on the tail keeps the count of the blocks. -/
theorem allocated_addBlock {q : Queue} {blocks : List (Nat × List Message)} {free : List Nat}
    (h : Shape cfg q blocks free) (hcount : q.usedBlockCnt + q.emptyBlockCnt = q.fresh) :
    q.addBlock.usedBlockCnt + q.addBlock.emptyBlockCnt = q.addBlock.fresh := by
  have hpool := h.pool.hang_count hcount
  rw [← pool_addBlock] at hpool
  exact hpool

/-- The locked part of `push` stays in the buffers. -/
theorem Within.lockedPush {q : Queue} {blocks : List (Nat × List Message)} {free : List Nat}
    (h : Within cfg heap q) (hshape : Shape cfg q blocks free) {m : Message}
    (hsize : m.length ≤ cfg.bufferSize - headerSize) : Within cfg heap (q.lockedPush cfg m) := by
  unfold Queue.lockedPush
  split
  · exact h.addBlock.pushImpl (hshape.addBlock_room hsize)
  · rename_i hnotfull
    exact h.pushImpl (hshape.room hsize (by simpa using hnotfull))

/-- **`push`** adds its message, or says why not and changes nothing. -/
theorem Represents.push {q : Queue} {ms : List Message} (h : Represents cfg maxBlockNo heap q ms)
    (data : Message) :
    ∃ ms', Fifo cfg q ms (.push data) (q.push cfg data).2 ms' ∧
      Represents cfg maxBlockNo heap (q.push cfg data).1 ms' := by
  unfold Queue.push
  split
  · rename_i hfull
    exact ⟨ms, .full (Queue.full_of_isFull hfull), h⟩
  split
  · rename_i hlong
    exact ⟨ms, .tooLong hlong, h⟩
  · rename_i hnotfull hshort
    obtain ⟨blocks, free, hshape, hfilled, rfl⟩ := h.shape
    have hsize : data.length ≤ cfg.bufferSize - headerSize := by omega
    obtain ⟨blocks', free', hshape', hfilled', hmessages, hlen⟩ :=
      lockedPush_spec hshape hfilled hsize
    have hroom : ¬ Full cfg q data.length := (h.isFull_iff hsize).not.mp hnotfull
    refine ⟨messages blocks ++ [data], .pushed hroom hsize, ?_⟩
    constructor
    case shape => exact ⟨blocks', free', hshape', hfilled', hmessages⟩
    case max =>
      rw [Queue.maxBlockNo_lockedPush]
      exact h.max
    case bounded =>
      intro hne
      have hbounded := h.bounded hne
      have hused := hshape.used
      rw [hshape'.used, hlen]
      split
      · -- the tail block is full, so the last block is not yet in use
        rename_i hblock
        have hnotmax : q.usedBlockCnt ≠ maxBlockNo := by
          intro heq
          simp [Queue.isFull, h.max, hne, heq, hblock] at hnotfull
        omega
      · omega
    case allocated =>
      unfold Queue.lockedPush
      split
      · exact allocated_addBlock hshape h.allocated
      · exact h.allocated
    case within => exact h.within.lockedPush hshape hsize

-- ---------------------------------------------------------------------------
-- pull
-- ---------------------------------------------------------------------------

/-- `pull` writes no buffer. -/
theorem Within.lockedPull {q : Queue} (h : Within cfg heap q) : Within cfg heap q.lockedPull.1 := by
  have hupdate : ∀ (p : Queue) (c : Nat) (b : Block) (p' : Queue),
      p'.heap = Function.update p.heap c b → b.buf = (p.heap c).buf → Within cfg heap p →
      Within cfg heap p' := by
    intro p c b p' hheap hb hp a i hi
    rw [hheap, buf_update hb]
    exact hp a i hi
  apply Queue.lockedPull_keeps ?_ ?_ h
  · exact fun p a hp => hupdate p a _ _ rfl rfl hp
  · exact fun p a n size hp => hupdate p a _ _ rfl rfl hp

/-- **`pull`** takes the first message off, if there is one. -/
theorem Represents.pull {q : Queue} {ms : List Message} (h : Represents cfg maxBlockNo heap q ms) :
    ∃ q' reply ms', q.pull = some (q', reply) ∧ Fifo cfg q ms .pull reply ms' ∧
      Represents cfg maxBlockNo heap q' ms' := by
  obtain ⟨blocks, free, hshape, hfilled, hmessages⟩ := h.shape
  have hempty := isEmpty_iff hshape hfilled
  rw [hmessages] at hempty
  unfold Queue.pull
  cases ms with
  | nil =>
    rw [if_pos (hempty.mpr rfl)]
    exact ⟨q, (.nothing, 0), [], rfl, .nothing, h⟩
  | cons m ms =>
    obtain ⟨blocks', free', hshape', hfilled', hrest, hout, hlen, hcount⟩ :=
      lockedPull_spec hshape hfilled hmessages
    rw [if_neg (by simp [hempty]), hout]
    refine ⟨q.lockedPull.1, (.pulled m, m.length), ms, rfl, .pulled, ?_⟩
    constructor
    case shape => exact ⟨blocks', free', hshape', hfilled', hrest⟩
    case max =>
      rw [Queue.maxBlockNo_lockedPull]
      exact h.max
    case bounded =>
      intro hne
      have hbounded := h.bounded hne
      have hused := hshape.used
      rw [hshape'.used]
      omega
    case allocated =>
      have hallocated := h.allocated
      rw [Queue.fresh_lockedPull, hshape'.used, hshape'.empty, hcount, ← hshape.used,
        ← hshape.empty]
      exact hallocated
    case within => exact h.within.lockedPull

-- ---------------------------------------------------------------------------
-- Every sequence of calls
-- ---------------------------------------------------------------------------

theorem call_refines (cfg : Config) (maxBlockNo : Nat) (heap : Nat → Block) :
    Refines (Queue.call cfg) (Answers cfg)
      fun q s => s.1 = q ∧ Represents cfg maxBlockNo heap q s.2 := by
  rintro q ⟨_, ms⟩ request ⟨rfl, h⟩
  cases request with
  | push data =>
    obtain ⟨ms', hfifo, hnext⟩ := h.push data
    exact ⟨_, _, (_, ms'), rfl, ⟨rfl, hfifo⟩, rfl, hnext⟩
  | pull =>
    obtain ⟨q', reply, ms', hpull, hfifo, hnext⟩ := h.pull
    exact ⟨q', reply, (q', ms'), hpull, ⟨hpull, hfifo⟩, rfl, hnext⟩

/-- The two chains of a queue: the used one ends with the tail block, and each block that
was ever allocated is in exactly one of them. -/
structure Chains (cfg : Config) (q : Queue) (used free : List Nat) : Prop where
  used_linked : Linked (links q) q.head used
  tail : used.getLast? = some q.tail
  free_linked : Linked (links q) q.emptyHead free
  perm : (used ++ free).Perm (List.range q.fresh)
  count : q.usedBlockCnt = used.length

theorem Represents.chains {q : Queue} {ms : List Message}
    (h : Represents cfg maxBlockNo heap q ms) : ∃ used free, Chains cfg q used free := by
  obtain ⟨blocks, free, hshape, -, -⟩ := h.shape
  refine ⟨blocks.map Prod.fst, free, ?_⟩
  constructor
  case used_linked => exact hshape.linked
  case tail =>
    obtain ⟨front, last, rfl⟩ := hshape.tail
    simp
  case free_linked => exact hshape.free_linked
  case perm => exact hshape.pool.perm h.allocated
  case count =>
    rw [hshape.used, List.length_map]

theorem Represents.getSize {q : Queue} {ms : List Message}
    (h : Represents cfg maxBlockNo heap q ms) : q.getSize = (ms.map List.length).sum := by
  obtain ⟨blocks, free, hshape, -, rfl⟩ := h.shape
  exact hshape.content

/-- **FIFO.** Every sequence of calls on a new queue returns, with the answers of a list of
messages, to which every push of a message that fits adds it, unless the queue is full. Then
`get_size` is the total length of the messages, the used blocks are counted and within the bound,
every allocated block is in one of the chains, and no byte was written that is not in the buffer
of a block. -/
theorem calls_fifo (cfg : Config) (maxBlockNo : Nat) (heap : Nat → Block)
    (requests : List Request) :
    ∃ q replies ms, runCalls (Queue.call cfg) (Queue.new maxBlockNo heap) requests =
        some (q, replies) ∧
      Trace (Answers cfg) (Queue.new maxBlockNo heap, []) requests replies (q, ms) ∧
      q.getSize = (ms.map List.length).sum ∧ (∃ used free, Chains cfg q used free) ∧
      (maxBlockNo ≠ 0 → q.usedBlockCnt ≤ maxBlockNo) ∧ Within cfg heap q := by
  obtain ⟨q, replies, ⟨_, ms⟩, hrun, htrace, rfl, hq⟩ :=
    (call_refines cfg maxBlockNo heap).run (t := (Queue.new maxBlockNo heap, []))
      ⟨rfl, represents_new cfg maxBlockNo heap⟩ requests
  exact ⟨_, replies, ms, hrun, htrace, hq.getSize, hq.chains, hq.bounded, hq.within⟩

-- ---------------------------------------------------------------------------
-- A drained queue
-- ---------------------------------------------------------------------------

/-- The last block of a queue that was drained stays in use, and none before it does. -/
theorem Represents.used_of_isEmpty {q : Queue} {ms : List Message}
    (h : Represents cfg maxBlockNo heap q ms) (hempty : q.isEmpty = true) :
    q.usedBlockCnt = 1 := by
  obtain ⟨blocks, free, hshape, hfilled, -⟩ := h.shape
  obtain rfl := hshape.eq_singleton_of_empty hfilled ((isEmpty_iff hshape hfilled).mp hempty)
  exact hshape.used

/-- A message of a size that fits is accepted exactly if the queue is not full. -/
theorem Queue.push_accepted_iff {q : Queue} {data : Message}
    (hsize : data.length ≤ cfg.bufferSize - headerSize) :
    (q.push cfg data).2 = (.pushed, (data.length : Int)) ↔ q.isFull cfg data.length = false := by
  unfold Queue.push
  cases hfull : q.isFull cfg data.length with
  | true =>
    rw [if_pos rfl]
    exact iff_of_false (by simp) (by simp)
  | false =>
    rw [if_neg (by simp), if_neg (Nat.not_lt.mpr hsize)]
    exact iff_of_true rfl rfl

/-- **When a drained queue takes a message.** Its one block in use keeps the place of what was
read, so with a limit of one block the message must fit behind that, with a byte to spare. -/
theorem empty_push_iff {requests : List Request} {q : Queue} {replies : List (Reply × Int)}
    (hrun : runCalls (Queue.call cfg) (Queue.new maxBlockNo heap) requests = some (q, replies))
    (hempty : q.isEmpty = true) {data : Message}
    (hsize : data.length ≤ cfg.bufferSize - headerSize) :
    (q.push cfg data).2 = (.pushed, (data.length : Int)) ↔
      maxBlockNo ≠ 1 ∨ (q.heap q.tail).rightIdx + headerSize + data.length < cfg.bufferSize := by
  obtain ⟨q', replies', ⟨_, ms⟩, hrun', -, rfl, hq⟩ :=
    (call_refines cfg maxBlockNo heap).run (t := (Queue.new maxBlockNo heap, []))
      ⟨rfl, represents_new cfg maxBlockNo heap⟩ requests
  obtain ⟨rfl, -⟩ := Prod.mk.inj (Option.some.inj (hrun'.symm.trans hrun))
  rw [Queue.push_accepted_iff hsize, ← hq.isBlockFull_eq_false_iff hsize]
  unfold Queue.isFull
  rw [hq.max, hq.used_of_isEmpty hempty]
  by_cases hone : maxBlockNo = 1
  · simp [hone]
  · have hcount : (1 == maxBlockNo) = false := beq_eq_false_iff_ne.mpr (Ne.symm hone)
    simp [hone, hcount]

/-- Blocks with zeros in them. -/
def blankHeap : Nat → Block := fun _ =>
  { next := none, leftIdx := 0, rightIdx := 0, buf := fun _ => 0 }

/-- Room for a header and eight bytes. -/
def sixteenBytes : Config := { bufferSize := 16, header_le := by decide, lt := by decide }

/-- A new queue of one block refuses a message of the largest size. -/
theorem empty_push_refused :
    (Queue.new 1 blankHeap).isEmpty = true ∧
      ((Queue.new 1 blankHeap).push sixteenBytes [1, 2, 3, 4, 5, 6, 7, 8]).2 = (.full, 0) :=
  ⟨rfl, rfl⟩

/-- Two blocks are filled, which refuse another message, and drained. -/
def filledAndDrained : List Request :=
  [.push [1, 2, 3, 4, 5, 6, 7], .push [8, 9, 10, 11, 12, 13, 14], .push [15], .pull, .pull]

/-- Then the queue takes a message again. -/
theorem empty_push_accepted : ∃ q replies,
    runCalls (Queue.call sixteenBytes) (Queue.new 2 blankHeap) filledAndDrained =
        some (q, replies) ∧
      replies.map Prod.snd = [7, 7, 0, 7, 7] ∧ q.isEmpty = true ∧
      (q.push sixteenBytes [1, 2, 3, 4, 5, 6, 7]).2 = (.pushed, 7) :=
  ⟨_, _, rfl, rfl, rfl,
    (@empty_push_iff sixteenBytes 2 blankHeap filledAndDrained _ _ rfl rfl [1, 2, 3, 4, 5, 6, 7]
      (by decide)).mpr (Or.inl (by decide))⟩

end Zrtools.UltraQ

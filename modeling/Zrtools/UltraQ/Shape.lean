import Zrtools.Lib.BlockPool
import Zrtools.UltraQ.Queue

/-!
# zrtools — the shape of a block queue

The block chain of a queue and the messages in each block. `Shape` holds between
critical sections; `Filled` adds that only the head block can have run empty, which
is why `is_empty` may look at the two indices of a single block.

* `isEmpty_iff` — `is_empty` is right about the messages;
* `lockedPush_spec` — the locked part of `push` appends its message, and takes a
  further block exactly when the tail block is full;
* `lockedPull_spec` — the locked part of `pull` takes the first message;
* `lockedPull_of_empty` — with no message there, it runs into null.
-/

namespace Zrtools.UltraQ

open ByteMemory LittleEndian Chain

/-- The links of the blocks. -/
def links (q : Queue) (a : Nat) : Option Nat := (q.heap a).next

/-- The messages of a chain of blocks. -/
def messages (blocks : List (Nat × List Message)) : List Message := blocks.flatMap Prod.snd

/-- The queue is the chain `blocks`, each with its messages, and the empty chain `free`. -/
structure Shape (cfg : Config) (q : Queue) (blocks : List (Nat × List Message))
    (free : List Nat) : Prop where
  linked : Linked (links q) q.head (blocks.map Prod.fst)
  tail : ∃ front last, blocks = front ++ [(q.tail, last)]
  free_linked : Linked (links q) q.emptyHead free
  nodup : (blocks.map Prod.fst ++ free).Nodup
  fresh : ∀ a ∈ blocks.map Prod.fst ++ free, a < q.fresh
  holds : ∀ p ∈ blocks, BlockHolds cfg (q.heap p.1) p.2
  used : q.usedBlockCnt = blocks.length
  empty : q.emptyBlockCnt = free.length
  content : q.contentSize = ((messages blocks).map List.length).sum

/-- Every block but the first has a message. -/
def Filled (blocks : List (Nat × List Message)) : Prop := ∀ p ∈ blocks.tail, p.2 ≠ []

theorem messages_append (a b : List (Nat × List Message)) :
    messages (a ++ b) = messages a ++ messages b := by
  simp [messages]

variable {cfg : Config}

/-- The two chains of a queue. -/
def Queue.pool (q : Queue) : BlockPool.Pool where
  next := links q
  fresh := q.fresh
  head := q.head
  tail := q.tail
  emptyHead := q.emptyHead
  usedCnt := q.usedBlockCnt
  emptyCnt := q.emptyBlockCnt

theorem Shape.pool {q : Queue} {blocks : List (Nat × List Message)} {free : List Nat}
    (h : Shape cfg q blocks free) : BlockPool.Shape q.pool (blocks.map Prod.fst) free where
  linked := h.linked
  tail := by
    obtain ⟨front, last, rfl⟩ := h.tail
    exact ⟨front.map Prod.fst, by simp [Queue.pool]⟩
  free_linked := h.free_linked
  nodup := h.nodup
  fresh := h.fresh
  usedCnt := by
    rw [List.length_map]
    exact h.used
  emptyCnt := h.empty

/-- The chains, with the messages in the blocks. -/
theorem shape_of_pool {q : Queue} {blocks : List (Nat × List Message)} {free : List Nat}
    (h : BlockPool.Shape q.pool (blocks.map Prod.fst) free)
    (hholds : ∀ p ∈ blocks, BlockHolds cfg (q.heap p.1) p.2)
    (hcontent : q.contentSize = ((messages blocks).map List.length).sum) :
    Shape cfg q blocks free where
  linked := h.linked
  tail := by
    obtain ⟨addrs, haddrs⟩ := h.tail
    obtain ⟨front, lasts, rfl, -, hlasts⟩ := List.map_eq_append_iff.mp haddrs
    obtain ⟨⟨a, last⟩, rfl, rfl⟩ := List.map_eq_singleton_iff.mp hlasts
    exact ⟨front, last, rfl⟩
  free_linked := h.free_linked
  nodup := h.nodup
  fresh := h.fresh
  holds := hholds
  used := by
    have hcount := h.usedCnt
    rw [List.length_map] at hcount
    exact hcount
  empty := h.emptyCnt
  content := hcontent

/-- The links after a change of one block. -/
theorem next_update (heap : Nat → Block) (a : Nat) (b : Block) (c : Nat) :
    (Function.update heap a b c).next = Function.update (fun c => (heap c).next) a b.next c :=
  Function.apply_update (fun _ => Block.next) heap a b c

/-- `push` hangs a block on the tail. -/
theorem pool_addBlock (q : Queue) : q.addBlock.pool = q.pool.hang := by
  cases hempty : q.emptyHead with
  | some e =>
    have hlinks : links q.addBlock =
        Function.update (Function.update (links q) q.tail (some e)) e none := by
      funext c
      simp only [links, Queue.addBlock, hempty, next_update, Block.reset]
      rfl
    have hnext : links q = fun c => (q.heap c).next := rfl
    simp only [Queue.pool, BlockPool.Pool.hang, hlinks]
    simp [Queue.addBlock, hempty, next_update, hnext]
  | none =>
    have hlinks : links q.addBlock = Function.update (Function.update (links q) q.fresh none)
        q.tail (some q.fresh) := by
      funext c
      simp only [links, Queue.addBlock, hempty, next_update, Block.reset]
      rfl
    simp only [Queue.pool, BlockPool.Pool.hang, hlinks]
    simp [Queue.addBlock, hempty]

/-- `pull` gives the head block to the empty chain. -/
theorem pool_recycle (q : Queue) (a : Nat) : (q.recycle a).pool = q.pool.recycle a := by
  have hlinks : links (q.recycle a) = Function.update (links q) a q.emptyHead := by
    funext c
    exact next_update q.heap a _ c
  simp only [Queue.pool, hlinks]
  rfl

/-- A new queue has one empty block. -/
theorem shape_new (cfg : Config) (maxBlockNo : Nat) (heap : Nat → Block) :
    Shape cfg (Queue.new maxBlockNo heap) [(0, [])] [] where
  linked := by
    refine ⟨rfl, ?_⟩
    simp [links, Queue.new, Block.reset, Linked]
  tail := ⟨[], [], rfl⟩
  free_linked := rfl
  nodup := by simp
  fresh := by simp [Queue.new]
  holds := by
    intro p hp
    rw [List.mem_singleton.mp hp]
    have hblock : (Queue.new maxBlockNo heap).heap 0 = (heap 0).reset := by
      simp [Queue.new]
    show BlockHolds cfg ((Queue.new maxBlockNo heap).heap 0) []
    rw [hblock]
    exact BlockHolds.reset cfg (heap 0)
  used := rfl
  empty := rfl
  content := rfl

-- ---------------------------------------------------------------------------
-- push
-- ---------------------------------------------------------------------------

/-- A change of one block that keeps its link. -/
theorem links_update_same (q q' : Queue) {a : Nat} {b : Block}
    (hheap : q'.heap = Function.update q.heap a b) (hb : b.next = (q.heap a).next) :
    links q' = links q := by
  funext c
  have hlink := next_update q.heap a b c
  rw [← hheap, hb] at hlink
  rw [links, hlink]
  exact congrFun (Function.update_eq_self a (links q)) c

/-- `push_impl` with room in the tail block. -/
theorem Shape.pushImpl {q : Queue} {front : List (Nat × List Message)} {last : List Message}
    {free : List Nat} (h : Shape cfg q (front ++ [(q.tail, last)]) free) {m : Message}
    (hroom : (q.heap q.tail).rightIdx + headerSize + m.length ≤ cfg.bufferSize) :
    Shape cfg (q.pushImpl m) (front ++ [(q.tail, last ++ [m])]) free := by
  have hpool : (q.pushImpl m).pool = q.pool := by
    simp only [Queue.pool, links_update_same q (q.pushImpl m) rfl rfl]
    rfl
  apply shape_of_pool
  · rw [hpool]
    simpa using h.pool
  · intro p hp
    rcases List.mem_append.mp hp with hp | hp
    · -- the other blocks are untouched
      have hne : p.1 ≠ q.tail := by
        have hnodup := (List.nodup_append.mp h.nodup).1
        rw [List.map_append, List.nodup_append] at hnodup
        exact hnodup.2.2 p.1 (List.mem_map_of_mem hp) q.tail (by simp)
      have hkeep : (q.pushImpl m).heap p.1 = q.heap p.1 := by
        simp [Queue.pushImpl, hne]
      rw [hkeep]
      exact h.holds p (List.mem_append_left _ hp)
    · rw [List.mem_singleton.mp hp]
      have hlast := h.holds (q.tail, last) (by simp)
      have hblock := hlast.push hroom
      simpa [Queue.pushImpl] using hblock
  · have hcontent := h.content
    rw [messages_append] at hcontent ⊢
    show q.contentSize + m.length = _
    rw [hcontent]
    simp [messages, Nat.add_assoc]

/-- The heap after `push` hung a block on the tail. -/
theorem heap_addBlock {q : Queue} (hne : q.addBlock.tail ≠ q.tail) :
    q.addBlock.heap = Function.update
      (Function.update q.heap q.addBlock.tail (q.heap q.addBlock.tail).reset) q.tail
      { q.heap q.tail with next := some q.addBlock.tail } := by
  cases hempty : q.emptyHead with
  | some e =>
    have htail : q.addBlock.tail = e := by simp [Queue.addBlock, hempty]
    rw [htail] at hne ⊢
    simp only [Queue.addBlock, hempty]
    rw [Function.update_of_ne hne, Function.update_comm hne]
  | none =>
    have htail : q.addBlock.tail = q.fresh := by simp [Queue.addBlock, hempty]
    rw [htail] at hne ⊢
    simp only [Queue.addBlock, hempty]
    rw [Function.update_of_ne hne.symm]

/-- The branch of `push` that takes another block. -/
theorem Shape.addBlock {q : Queue} {blocks : List (Nat × List Message)} {free : List Nat}
    (h : Shape cfg q blocks free) :
    ∃ free', Shape cfg q.addBlock (blocks ++ [(q.addBlock.tail, [])]) free' ∧
      (q.addBlock.heap q.addBlock.tail).rightIdx = 0 := by
  have hpool := pool_addBlock q
  have htail : q.pool.hang.tail = q.addBlock.tail := congrArg BlockPool.Pool.tail hpool.symm
  obtain ⟨free', hshape⟩ := h.pool.hang
  have hnew := h.pool.hang_fresh
  rw [htail] at hshape hnew
  rw [← hpool] at hshape
  have hne : q.addBlock.tail ≠ q.tail := by
    rw [← htail]
    exact h.pool.hang_ne
  have hlast : q.addBlock.heap q.addBlock.tail = (q.heap q.addBlock.tail).reset := by
    rw [heap_addBlock hne, Function.update_of_ne hne, Function.update_self]
  refine ⟨free', ?_, ?_⟩
  · apply shape_of_pool
    · simpa using hshape
    · intro p hp
      rcases List.mem_append.mp hp with hp | hp
      · have hold := h.holds p hp
        have hpt : p.1 ≠ q.addBlock.tail := by
          intro heq
          have hmem : p.1 ∈ blocks.map Prod.fst := List.mem_map_of_mem hp
          rw [heq] at hmem
          exact hnew hmem
        by_cases htail : p.1 = q.tail
        · -- the old tail got a link
          rw [heap_addBlock hne, htail, Function.update_self]
          rw [htail] at hold
          exact ⟨hold.le, hold.fits, hold.bytes⟩
        · rw [heap_addBlock hne, Function.update_of_ne htail, Function.update_of_ne hpt]
          exact hold
      · rw [List.mem_singleton.mp hp]
        show BlockHolds cfg (q.addBlock.heap q.addBlock.tail) []
        rw [hlast]
        exact BlockHolds.reset cfg _
    · have hsame : q.addBlock.contentSize = q.contentSize := by
        unfold Queue.addBlock
        split
        · rfl
        · rfl
      rw [hsame, h.content, messages_append]
      simp [messages]
  · rw [hlast]
    rfl

/-- A tail block that is not full has room for the message. -/
theorem Shape.room {q : Queue} {blocks : List (Nat × List Message)} {free : List Nat}
    (h : Shape cfg q blocks free) {n : Nat} (hsize : n ≤ cfg.bufferSize - headerSize)
    (hfull : q.isBlockFull cfg n = false) :
    (q.heap q.tail).rightIdx + headerSize + n ≤ cfg.bufferSize := by
  have hle := cfg.header_le
  have hlt := cfg.lt
  obtain ⟨front, last, rfl⟩ := h.tail
  have hfits := (h.holds (q.tail, last) (by simp)).fits
  have hmod := of_decide_eq_false hfull
  have hhdr : headerSize = 8 := rfl
  rw [hhdr] at hmod hsize ⊢
  simp only at hfits
  omega

/-- A block that was just hung on the tail has room for the message. -/
theorem Shape.addBlock_room {q : Queue} {blocks : List (Nat × List Message)} {free : List Nat}
    (h : Shape cfg q blocks free) {n : Nat} (hsize : n ≤ cfg.bufferSize - headerSize) :
    (q.addBlock.heap q.addBlock.tail).rightIdx + headerSize + n ≤ cfg.bufferSize := by
  have hle := cfg.header_le
  obtain ⟨free', -, hright⟩ := h.addBlock
  have hhdr : headerSize = 8 := rfl
  rw [hhdr] at hsize ⊢
  omega

/-- What the locked part of `push` does. -/
theorem lockedPush_spec {q : Queue} {blocks : List (Nat × List Message)} {free : List Nat}
    (h : Shape cfg q blocks free) (hfilled : Filled blocks) {m : Message}
    (hsize : m.length ≤ cfg.bufferSize - headerSize) :
    ∃ blocks' free', Shape cfg (q.lockedPush cfg m) blocks' free' ∧ Filled blocks' ∧
      messages blocks' = messages blocks ++ [m] ∧
      blocks'.length = blocks.length + (if q.isBlockFull cfg m.length then 1 else 0) := by
  cases hfull : q.isBlockFull cfg m.length with
  | true =>
    obtain ⟨free', hadded, -⟩ := h.addBlock
    have hroom := h.addBlock_room hsize
    have hpush : q.lockedPush cfg m = q.addBlock.pushImpl m := by
      rw [Queue.lockedPush, if_pos hfull]
    rw [hpush]
    refine ⟨blocks ++ [(q.addBlock.tail, [] ++ [m])], free', hadded.pushImpl hroom, ?_, ?_, ?_⟩
    · obtain ⟨front, last, rfl⟩ := h.tail
      intro p hp
      rw [List.tail_append_of_ne_nil (by simp)] at hp
      rcases List.mem_append.mp hp with hp | hp
      · exact hfilled p hp
      · rw [List.mem_singleton.mp hp]
        simp
    · simp [messages]
    · simp
  | false =>
    have hroom := h.room hsize hfull
    obtain ⟨front, last, rfl⟩ := h.tail
    have hpush : q.lockedPush cfg m = q.pushImpl m := by
      rw [Queue.lockedPush, if_neg (by simp [hfull])]
    rw [hpush]
    refine ⟨front ++ [(q.tail, last ++ [m])], free, h.pushImpl hroom, ?_, ?_, ?_⟩
    · intro p hp
      cases front with
      | nil => simp at hp
      | cons first front =>
        rw [List.cons_append, List.tail_cons] at hp
        rcases List.mem_append.mp hp with hp | hp
        · exact hfilled p (by simp [hp])
        · rw [List.mem_singleton.mp hp]
          simp
    · simp [messages]
    · simp

-- ---------------------------------------------------------------------------
-- pull
-- ---------------------------------------------------------------------------

/-- `is_empty` is right about the messages. -/
theorem isEmpty_iff {q : Queue} {blocks : List (Nat × List Message)} {free : List Nat}
    (h : Shape cfg q blocks free) (hfilled : Filled blocks) :
    q.isEmpty = true ↔ messages blocks = [] := by
  obtain ⟨front, last, rfl⟩ := h.tail
  have hlinked := h.linked
  cases front with
  | nil =>
    obtain ⟨hhead, -⟩ := hlinked
    have hblock := h.holds (q.tail, last) (by simp)
    have hmeet : q.isEmpty = true ↔ (q.heap q.tail).leftIdx = (q.heap q.tail).rightIdx := by
      simp [Queue.isEmpty, hhead]
    rw [hmeet, hblock.empty_iff]
    simp [messages]
  | cons first front =>
    -- two blocks at least: the head is not the tail, and the tail is not empty
    obtain ⟨hhead, -⟩ := hlinked
    have hne : first.1 ≠ q.tail := Ne.symm (h.pool.ne_head q.tail (by simp))
    have hlast : last ≠ [] := hfilled (q.tail, last) (by simp)
    have hmeet : q.isEmpty = false := by
      simp [Queue.isEmpty, hhead, hne]
    rw [hmeet]
    simp [messages, hlast]

/-- One turn of the loop of `pull` gives the empty head block back. -/
theorem Shape.recycle {q : Queue} {a : Nat} {rest : List (Nat × List Message)} {free : List Nat}
    (h : Shape cfg q ((a, []) :: rest) free) (hrest : rest ≠ []) :
    Shape cfg (q.recycle a) rest (a :: free) := by
  have hpool := h.pool.recycle (by simpa using hrest)
  rw [← pool_recycle] at hpool
  apply shape_of_pool hpool
  · intro p hp
    have hne : p.1 ≠ a := h.pool.ne_head p.1 (List.mem_map_of_mem hp)
    have hkeep : (q.recycle a).heap p.1 = q.heap p.1 := by
      simp [Queue.recycle, hne]
    rw [hkeep]
    exact h.holds p (List.mem_cons_of_mem _ hp)
  · exact h.content

/-- The loop of `pull` stops at a block with a message. -/
theorem Shape.skipEmpty {q : Queue} {blocks : List (Nat × List Message)} {free : List Nat}
    (h : Shape cfg q blocks free) (hfilled : Filled blocks) (hsome : messages blocks ≠ []) :
    ∃ a m ms rest free',
      Shape cfg (Queue.skipEmpty (q.usedBlockCnt + 1) q) ((a, m :: ms) :: rest) free' ∧
      Filled ((a, m :: ms) :: rest) ∧ messages ((a, m :: ms) :: rest) = messages blocks ∧
      rest.length < blocks.length ∧
      rest.length + 1 + free'.length = blocks.length + free.length := by
  match blocks, h, hfilled, hsome with
  | [], _, _, hsome => exact absurd rfl hsome
  | (a, m :: ms) :: rest, h, hfilled, _ =>
    have hne : ¬(q.heap a).leftIdx = (q.heap a).rightIdx := by
      rw [(h.holds (a, m :: ms) (by simp)).empty_iff]
      simp
    have hstop : Queue.skipEmpty (q.usedBlockCnt + 1) q = q := by
      rw [Queue.skipEmpty, h.linked.1]
      exact if_neg hne
    rw [hstop]
    exact ⟨a, m, ms, rest, free, h, hfilled, rfl, by simp, by simp⟩
  | [(a, [])], _, _, hsome => exact absurd rfl hsome
  | (a, []) :: (b, ms) :: rest, h, hfilled, _ =>
    -- the head block is empty and goes; the next one has a message
    have hms : ms ≠ [] := hfilled (b, ms) (by simp)
    obtain ⟨m, ms, rfl⟩ := List.exists_cons_of_ne_nil hms
    have heq : (q.heap a).leftIdx = (q.heap a).rightIdx :=
      (h.holds (a, []) (by simp)).empty_iff.mpr rfl
    have hnext := h.recycle (by simp)
    have hne : ¬((q.recycle a).heap b).leftIdx = ((q.recycle a).heap b).rightIdx := by
      rw [(hnext.holds (b, m :: ms) (by simp)).empty_iff]
      simp
    have hused : q.usedBlockCnt = rest.length + 2 := h.used
    have hstop : Queue.skipEmpty (q.usedBlockCnt + 1) q = q.recycle a := by
      rw [hused, Queue.skipEmpty, h.linked.1]
      show (if _ then Queue.skipEmpty (rest.length + 2) (q.recycle a) else q) = _
      rw [if_pos heq, Queue.skipEmpty, hnext.linked.1]
      exact if_neg hne
    rw [hstop]
    refine ⟨b, m, ms, rest, a :: free, hnext, ?_, rfl, ?_, ?_⟩
    · intro p hp
      exact hfilled p (List.mem_cons_of_mem _ hp)
    · simp only [List.length_cons]
      omega
    · simp only [List.length_cons]
      omega

/-- What the locked part of `pull` does. -/
theorem lockedPull_spec {q : Queue} {blocks : List (Nat × List Message)} {free : List Nat}
    (h : Shape cfg q blocks free) (hfilled : Filled blocks) {m : Message} {ms : List Message}
    (hsome : messages blocks = m :: ms) :
    ∃ blocks' free', Shape cfg q.lockedPull.1 blocks' free' ∧ Filled blocks' ∧
      messages blocks' = ms ∧ q.lockedPull.2 = some m ∧ blocks'.length ≤ blocks.length ∧
      blocks'.length + free'.length = blocks.length + free.length := by
  obtain ⟨a, m', ms', rest, free', hskip, hfilled', hsame, hlen, hcount⟩ :=
    h.skipEmpty hfilled (by rw [hsome]; simp)
  rw [hsome] at hsame
  have hcons : m' = m ∧ messages ((a, ms') :: rest) = ms := by
    simpa [messages] using hsame
  obtain ⟨rfl, hrest⟩ := hcons
  generalize hq : Queue.skipEmpty (q.usedBlockCnt + 1) q = p at hskip
  obtain ⟨hdecode, hbody, hblock⟩ := (hskip.holds (a, m' :: ms') (by simp)).pop
  have hpull : q.lockedPull =
      ({ p with
          heap := Function.update p.heap a
            { p.heap a with leftIdx := (p.heap a).leftIdx + headerSize + m'.length }
          contentSize := p.contentSize - m'.length }, some m') := by
    unfold Queue.lockedPull
    simp only [hq, hskip.linked.1, hdecode, hbody]
  rw [hpull]
  refine ⟨(a, ms') :: rest, free', ?_, ?_, hrest, rfl, hlen, hcount⟩
  · -- the links stay, and so do the other blocks
    apply shape_of_pool
    · have hlinks := links_update_same p
        { p with
          heap := Function.update p.heap a
            { p.heap a with leftIdx := (p.heap a).leftIdx + headerSize + m'.length }
          contentSize := p.contentSize - m'.length } rfl rfl
      simp only [Queue.pool, hlinks]
      exact hskip.pool
    · intro b hb
      rcases List.mem_cons.mp hb with rfl | hb
      · simpa using hblock
      · have hne : b.1 ≠ a := hskip.pool.ne_head b.1 (List.mem_map_of_mem hb)
        have hold := hskip.holds b (List.mem_cons_of_mem _ hb)
        simpa [hne] using hold
    · show p.contentSize - m'.length = _
      rw [hskip.content]
      simp [messages]
  · intro b hb
    exact hfilled' b hb

/-- With no message there, only one block is in use. -/
theorem Shape.eq_singleton_of_empty {q : Queue} {blocks : List (Nat × List Message)}
    {free : List Nat} (h : Shape cfg q blocks free) (hfilled : Filled blocks)
    (hnone : messages blocks = []) : blocks = [(q.tail, [])] := by
  obtain ⟨front, last, rfl⟩ := h.tail
  cases front with
  | cons first front =>
    have hlast : last ≠ [] := hfilled (q.tail, last) (by simp)
    exact absurd hnone (by simp [messages, hlast])
  | nil =>
    have hlast : last = [] := by simpa [messages] using hnone
    rw [hlast, List.nil_append]

/-- With no message there, the loop of `pull` runs through the chain into null. -/
theorem lockedPull_of_empty {q : Queue} {blocks : List (Nat × List Message)} {free : List Nat}
    (h : Shape cfg q blocks free) (hfilled : Filled blocks) (hnone : messages blocks = []) :
    q.lockedPull.1.head = none := by
  obtain rfl := h.eq_singleton_of_empty hfilled hnone
  have hhead : q.head = some q.tail := h.linked.1
  have hlink : (q.heap q.tail).next = none := h.linked.2
  have hempty : (q.heap q.tail).leftIdx = (q.heap q.tail).rightIdx :=
    (h.holds (q.tail, []) (by simp)).empty_iff.mpr rfl
  have hused : q.usedBlockCnt = 1 := h.used
  have hskip : (Queue.skipEmpty (q.usedBlockCnt + 1) q).head = none := by
    rw [hused, Queue.skipEmpty, hhead]
    simp only [hempty, if_true]
    show (Queue.skipEmpty 1 (q.recycle q.tail)).head = none
    have hnext : (q.recycle q.tail).head = none := hlink
    simp [Queue.skipEmpty, hnext]
  unfold Queue.lockedPull
  simp [hskip]

end Zrtools.UltraQ

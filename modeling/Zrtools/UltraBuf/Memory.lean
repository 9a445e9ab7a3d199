import Zrtools.UltraBuf.Bound

/-!
# zrtools — the memory of the block buffer

The blocks that `shrink_to_fit` and the destructor `delete`, beside the buffer. A second
`delete` of a block and a loop that follows the link of a deleted one have no result, and
a deleted block may hold anything from then on.

* `Life` — a buffer and the blocks that were deleted;
* `pushLoop_keeps`, `pullLoop_keeps` — what the loops do to the chains;
* `every_block_deleted_once` — whatever is in the deleted blocks, all calls answer like a
  byte stream with a limit, the capacity is what was allocated and not deleted, and the
  destructor deletes just that.
-/

namespace Zrtools.UltraBuf

open BlockPool Chain Refinement

namespace Buf

/-- `cnt_block_total()`. -/
def cntBlockTotal (b : Buf) : Nat := b.usedBlockCnt + b.emptyBlockCnt

/-- `get_capacity()`. -/
def getCapacity (cfg : Config) (b : Buf) : Nat := b.cntBlockTotal * cfg.bufferSize

/-- The blocks `gone` hold something else. -/
def clobber (b : Buf) (junk : Nat → Block) (gone : List Nat) : Buf :=
  { b with heap := fun a => if a ∈ gone then junk a else b.heap a }

end Buf

/-- A buffer and the blocks that were deleted. -/
structure Life where
  buf : Buf
  gone : List Nat

namespace Life

def new (maxBlockNo : Nat) (heap : Nat → Block) : Life := ⟨Buf.new maxBlockNo heap, []⟩

/-- `shrink_to_fit` deletes the blocks of the second chain, one after the other. The other
calls delete nothing. -/
def call (cfg : Config) (junk : Nat → Block) (l : Life) : Request → Option (Life × Reply)
  | .push data => (l.buf.call cfg (.push data)).map fun p => (⟨p.1, l.gone⟩, p.2)
  | .pull size => (l.buf.call cfg (.pull size)).map fun p => (⟨p.1, l.gone⟩, p.2)
  | .read size => (l.buf.call cfg (.read size)).map fun p => (⟨p.1, l.gone⟩, p.2)
  | .shrinkToFit =>
    (release (links l.buf.heap) (l.buf.emptyBlockCnt + 1) l.buf.emptyHead 0 l.gone).bind fun r =>
      (l.buf.call cfg .shrinkToFit).map fun p => (⟨p.1.clobber junk r.2, r.2⟩, p.2)

/-- `~UltraBuf()`, with the two counters and all blocks that were deleted by then. -/
def destroy (l : Life) : Option (Int × Int × List Nat) := l.buf.pool.destroy l.gone

end Life

/-- **The abstract buffer with a limit** refuses a push exactly where `is_full` holds of the buffer
`b`. -/
inductive LimitedStream (cfg : Config) (b : Buf) :
    List UInt8 → Request → Reply → List UInt8 → Prop
  | answered {s s' : List UInt8} {request : Request} {reply : Reply}
      (hroom : ∀ data, request = .push data → b.isFull cfg data.1.length = false)
      (h : ByteStream s request reply s') : LimitedStream cfg b s request reply s'
  | refused {s : List UInt8} {data : Data} (hfull : b.isFull cfg data.1.length = true) :
      LimitedStream cfg b s (.push data) (.returned eagain []) s

/-- A call of the buffer, and what it does to the bytes. -/
def Answers (cfg : Config) (junk : Nat → Block) (s : Life × List UInt8) (request : Request)
    (reply : Reply) (s' : Life × List UInt8) : Prop :=
  s.1.call cfg junk request = some (s'.1, reply) ∧
    LimitedStream cfg s.1.buf s.2 request reply s'.2

-- ---------------------------------------------------------------------------
-- The loops
-- ---------------------------------------------------------------------------

variable {cfg : Config}

/-- What hanging a block on the tail keeps, the loop of `push` keeps. -/
theorem pushLoop_keeps {P : Pool → Prop} (hhang : ∀ p, P p → P p.hang) {fuel : Nat} {b b' : Buf}
    {data : List UInt8} (hb : P b.pool) (hloop : b.pushLoop cfg fuel data = some b') :
    P b'.pool := by
  induction fuel generalizing b data with
  | zero => cases hloop
  | succ fuel ih =>
    unfold Buf.pushLoop at hloop
    simp only at hloop
    split at hloop
    · refine ih ?_ hloop
      rw [pool_fillTail]
      exact hhang _ hb
    · obtain rfl := Option.some.inj hloop
      rw [pool_copyToTail]
      exact hb

/-- What moving the head block to the second chain keeps, the loop of `pull` keeps. -/
theorem pullLoop_keeps {P : Pool → Prop} (hrecycle : ∀ p a, p.head = some a → P p → P (p.recycle a))
    {fuel n : Nat} {b : Buf} {out : List UInt8} {r : Buf × List UInt8} (hb : P b.pool)
    (hloop : b.pullLoop fuel n out = some r) : P r.1.pool := by
  induction fuel generalizing b n out with
  | zero => cases hloop
  | succ fuel ih =>
    unfold Buf.pullLoop at hloop
    cases hhead : b.head with
    | none =>
      rw [hhead] at hloop
      cases hloop
    | some a =>
      simp only [hhead] at hloop
      split at hloop
      · refine ih ?_ hloop
        rw [pool_recycle, pool_advance]
        exact hrecycle _ a hhead hb
      · obtain rfl := Option.some.inj hloop
        show P (b.advance a n).pool
        rw [pool_advance]
        exact hb

-- ---------------------------------------------------------------------------
-- Calls
-- ---------------------------------------------------------------------------

variable {maxBlockNo : Nat}

/-- The buffer stands for `content`, and its blocks are accounted for. -/
structure Life.Inv (cfg : Config) (maxBlockNo : Nat) (l : Life) (content : List UInt8) : Prop where
  represents : Represents cfg maxBlockNo l.buf content
  accounted : Accounted l.buf.pool l.gone

theorem Life.inv_new (cfg : Config) (maxBlockNo : Nat) (heap : Nat → Block) :
    (Life.new maxBlockNo heap).Inv cfg maxBlockNo [] where
  represents := represents_new cfg maxBlockNo heap
  accounted := (holds_new cfg maxBlockNo heap).pool.accounted rfl

theorem Represents.shape {b : Buf} {content : List UInt8}
    (h : Represents cfg maxBlockNo b content) : ∃ used free, Shape b.pool used free := by
  obtain ⟨used, free, hholds⟩ := h.holds
  exact ⟨used, free, hholds.pool⟩

/-- A push takes its blocks from the second chain or from the allocator. -/
theorem accounted_push {b b' : Buf} {content : List UInt8} {gone : List Nat} {data : Data}
    {n : Int} (h : Accounted b.pool gone) (hrep : Represents cfg maxBlockNo b content)
    (hpush : b.push cfg data = some (b', n)) : Accounted b'.pool gone := by
  unfold Buf.push at hpush
  split at hpush
  · obtain ⟨rfl, -⟩ := Prod.mk.inj (Option.some.inj hpush)
    exact h
  · obtain ⟨t, hloop, heq⟩ := Option.map_eq_some_iff.mp hpush
    obtain ⟨rfl, -⟩ := Prod.mk.inj heq
    -- the size of the content is no part of the chains
    have hkeep : Accounted t.pool gone ∧ ∃ used free, Shape t.pool used free := by
      refine pushLoop_keeps (P := fun p => Accounted p gone ∧ ∃ used free, Shape p used free) ?_
        ⟨h, hrep.shape⟩ hloop
      rintro p ⟨hp, used, free, hshape⟩
      exact ⟨hp.hang hshape, _, hshape.hang⟩
    exact hkeep.1

/-- A pull moves blocks from one chain to the other. -/
theorem accounted_pull {b b' : Buf} {gone : List Nat} {size : Nat} {n : Int} {out : List UInt8}
    (h : Accounted b.pool gone) (hpull : b.pull size = some (b', n, out)) :
    Accounted b'.pool gone := by
  unfold Buf.pull at hpull
  split at hpull
  · obtain ⟨rfl, -⟩ := Prod.mk.inj (Option.some.inj hpull)
    exact h
  · obtain ⟨r, hloop, heq⟩ := Option.map_eq_some_iff.mp hpull
    obtain ⟨rfl, -⟩ := Prod.mk.inj heq
    exact pullLoop_keeps (P := fun p => Accounted p gone) (fun _ _ hhead hp => hp.recycle hhead) h
      hloop

/-- What is in deleted blocks does not matter. -/
theorem Life.Inv.clobber {l : Life} {content : List UInt8} (h : l.Inv cfg maxBlockNo content)
    (junk : Nat → Block) :
    (⟨l.buf.clobber junk l.gone, l.gone⟩ : Life).Inv cfg maxBlockNo content := by
  obtain ⟨used, free, hholds⟩ := h.represents.holds
  have hsame : ∀ a, a ∉ l.gone → (l.buf.clobber junk l.gone).heap a = l.buf.heap a :=
    fun a ha => if_neg ha
  have hused : ∀ a ∈ used, (l.buf.clobber junk l.gone).heap a = l.buf.heap a := fun a ha =>
    hsame a (h.accounted.not_mem hholds.pool (List.mem_append_left _ ha))
  obtain ⟨hshape, haccounted⟩ := h.accounted.relink hholds.pool
    (links (l.buf.clobber junk l.gone).heap) fun a ha => congrArg Block.next (hsame a ha)
  refine ⟨⟨⟨used, free, hshape, ?_, ?_, ?_⟩, h.represents.size, h.represents.max⟩, haccounted⟩
  · intro a ha
    rw [hused a ha]
    exact hholds.blocks a ha
  · have htail : l.buf.tail ∈ used := hholds.pool.tail_mem
    show ((l.buf.clobber junk l.gone).heap l.buf.tail).endPos < cfg.bufferSize
    rw [hused _ htail]
    exact hholds.tail_lt
  · rw [stream_congr fun a ha => congrArg blockBytes (hused a ha)]
    exact hholds.bytes

/-- **Every call** returns with an allowed answer, and keeps the account. -/
theorem life_call (cfg : Config) (maxBlockNo : Nat) (junk : Nat → Block) {l : Life}
    {content : List UInt8} (request : Request) (h : l.Inv cfg maxBlockNo content) :
    ∃ l' reply content', l.call cfg junk request = some (l', reply) ∧
      LimitedStream cfg l.buf content request reply content' ∧ l'.Inv cfg maxBlockNo content' := by
  have hrep := h.represents
  cases request with
  | push data =>
    cases hfull : l.buf.isFull cfg data.1.length with
    | true =>
      refine ⟨l, _, content, ?_, .refused hfull, h⟩
      simp only [Life.call, Buf.call, push_of_full hfull, Option.map_some]
    | false =>
      obtain ⟨b', hpush, hnext, -⟩ := hrep.push data hfull
      refine ⟨⟨b', l.gone⟩, _, _, ?_, .answered ?_ .push, hnext,
        accounted_push h.accounted hrep hpush⟩
      · simp only [Life.call, Buf.call, hpush, Option.map_some]
      · rintro _ ⟨⟩
        exact hfull
  | pull size =>
    obtain ⟨b', hpull, hnext, -⟩ := hrep.pull size
    refine ⟨⟨b', l.gone⟩, _, _, ?_, .answered (by simp) .pull, hnext,
      accounted_pull h.accounted hpull⟩
    simp only [Life.call, Buf.call, hpull, Option.map_some]
  | read size =>
    refine ⟨l, _, _, ?_, .answered (by simp) .read, h⟩
    simp only [Life.call, Buf.call, hrep.read, Option.map_some]
  | shrinkToFit =>
    obtain ⟨used, free, hshape⟩ := hrep.shape
    have hfree : l.buf.emptyBlockCnt = free.length := hshape.emptyCnt
    have hrelease : release (links l.buf.heap) (l.buf.emptyBlockCnt + 1) l.buf.emptyHead 0 l.gone =
        some (0 - (l.buf.pool.emptyCnt : Int), l.gone ++ free) :=
      h.accounted.release_free hshape (Nat.lt_succ_self _) 0
    obtain ⟨b', hshrink, hnext, -⟩ := hrep.shrinkToFit
    have hend : b' = { l.buf with emptyHead := none, emptyBlockCnt := 0 } := by
      have hloop := shrinkLoop_spec hshape.free_linked (Nat.lt_succ_of_le (Nat.le_of_eq hfree.symm))
      simp only [Buf.shrinkToFit, hloop, Option.map_some] at hshrink
      exact (Option.some.inj hshrink).symm
    have haccounted : Accounted b'.pool (l.gone ++ free) := by
      rw [hend]
      exact h.accounted.discard hshape
    have hlater : (⟨b', l.gone ++ free⟩ : Life).Inv cfg maxBlockNo content := ⟨hnext, haccounted⟩
    refine ⟨_, _, _, ?_, .answered (by simp) .shrinkToFit, hlater.clobber junk⟩
    rw [Life.call, hrelease, Option.bind_some, Buf.call, hshrink]
    rfl

theorem life_refines (cfg : Config) (maxBlockNo : Nat) (junk : Nat → Block) :
    Refines (Life.call cfg junk) (Answers cfg junk)
      fun l s => s.1 = l ∧ l.Inv cfg maxBlockNo s.2 := by
  rintro l ⟨_, content⟩ request ⟨rfl, h⟩
  obtain ⟨l', reply, content', hcall, hspec, hnext⟩ := life_call cfg maxBlockNo junk request h
  exact ⟨l', reply, (l', content'), hcall, ⟨hcall, hspec⟩, rfl, hnext⟩

/-- **No leak, no double free, no use of freed memory.** Take any limit, any sequence of calls
on a new buffer, and anything for the deleted blocks to hold. Every call returns, with the
answer of a byte stream, or a push is refused because the buffer is full. After them no chain has
a deleted block, `get_capacity` is the memory that was allocated and not deleted, and the
destructor comes to its end with both counters at zero and each block deleted once. -/
theorem every_block_deleted_once (cfg : Config) (maxBlockNo : Nat) (heap junk : Nat → Block)
    (requests : List Request) :
    ∃ l replies content,
      runCalls (Life.call cfg junk) (Life.new maxBlockNo heap) requests = some (l, replies) ∧
      Trace (Answers cfg junk) (Life.new maxBlockNo heap, []) requests replies (l, content) ∧
      (∃ used free, Linked (links l.buf.heap) l.buf.head used ∧
        Linked (links l.buf.heap) l.buf.emptyHead free ∧ (l.gone ++ (used ++ free)).Nodup) ∧
      l.buf.getCapacity cfg = (l.buf.fresh - l.gone.length) * cfg.bufferSize ∧
      ∃ gone, l.destroy = some (0, 0, gone) ∧ gone.Perm (List.range l.buf.fresh) := by
  obtain ⟨l, replies, ⟨k, content⟩, hrun, htrace, hsame, h⟩ :=
    (life_refines cfg maxBlockNo junk).run (t := (Life.new maxBlockNo heap, []))
      ⟨rfl, Life.inv_new cfg maxBlockNo heap⟩ requests
  obtain rfl : l = k := hsame.symm
  obtain ⟨used, free, hshape⟩ := h.represents.shape
  have hperm := hshape.perm_of_accounted h.accounted
  have hcount : l.gone.length + (l.buf.usedBlockCnt + l.buf.emptyBlockCnt) = l.buf.fresh :=
    h.accounted.count hshape
  refine ⟨l, replies, content, hrun, htrace, ⟨used, free, hshape.linked, hshape.free_linked, ?_⟩,
    ?_, destroy_spec hshape h.accounted⟩
  · exact hperm.nodup_iff.mpr List.nodup_range
  · have htotal : l.buf.cntBlockTotal = l.buf.fresh - l.gone.length := by
      unfold Buf.cntBlockTotal
      omega
    rw [Buf.getCapacity, htotal]

end Zrtools.UltraBuf

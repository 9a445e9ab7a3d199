import Zrtools.Lib.Refinement
import Zrtools.UltraBuf.Buffer

/-!
# zrtools — the block buffer as a byte stream

A buffer stands for the bytes of its blocks, one block after the other. The tail block is
never full between two calls, so that a turn of the loop of `push` always writes a byte,
and `pull` and `read` stop at a block that is there, since they never ask for more bytes
than the stream has.

* `pushLoop_spec`, `pullLoop_spec`, `readLoop_spec`, `shrinkLoop_spec` — the loops end,
  and what they leave;
* `calls_stream` — every sequence of calls on a new buffer without a limit answers like a
  list of bytes.
-/

namespace Zrtools.UltraBuf

open ByteMemory BlockPool Chain Refinement

variable {cfg : Config}

-- ---------------------------------------------------------------------------
-- Blocks
-- ---------------------------------------------------------------------------

theorem length_blockBytes (t : Block) : (blockBytes t).length = t.endPos - t.beginPos :=
  length_slice ..

/-- Writing behind the bytes of a block. -/
theorem blockBytes_append {t : Block} (h : t.beginPos ≤ t.endPos) (data : List UInt8) :
    blockBytes { t with buf := write t.buf t.endPos data, endPos := t.endPos + data.length } =
      blockBytes t ++ data := by
  have hend : t.beginPos + (t.endPos - t.beginPos) = t.endPos := by omega
  have hwrite := slice_write_append t.buf t.beginPos (t.endPos - t.beginPos) data
  rw [hend] at hwrite
  have hlen : t.endPos + data.length - t.beginPos = t.endPos - t.beginPos + data.length := by omega
  unfold blockBytes
  simp only [hlen]
  exact hwrite

/-- The first bytes of a block. -/
theorem take_blockBytes {t : Block} {n : Nat} (hn : n ≤ t.endPos - t.beginPos) :
    slice t.buf t.beginPos n = (blockBytes t).take n :=
  (take_slice t.buf t.beginPos hn).symm

/-- Moving the first index of a block. -/
theorem drop_blockBytes {t : Block} {n : Nat} (hn : n ≤ t.endPos - t.beginPos) :
    blockBytes { t with beginPos := t.beginPos + n } = (blockBytes t).drop n := by
  have hdrop := drop_slice t.buf t.beginPos hn
  have hlen : t.endPos - (t.beginPos + n) = t.endPos - t.beginPos - n := by omega
  unfold blockBytes
  simp only [hlen]
  exact hdrop.symm

/-- The bytes of a chain of blocks. -/
def stream (heap : Nat → Block) (used : List Nat) : List UInt8 :=
  used.flatMap fun a => blockBytes (heap a)

theorem stream_congr {heap heap' : Nat → Block} {used : List Nat}
    (h : ∀ a ∈ used, blockBytes (heap' a) = blockBytes (heap a)) :
    stream heap' used = stream heap used :=
  List.flatMap_congr h

theorem stream_append (heap : Nat → Block) (used rest : List Nat) :
    stream heap (used ++ rest) = stream heap used ++ stream heap rest := by
  simp [stream]

theorem stream_singleton (heap : Nat → Block) (a : Nat) :
    stream heap [a] = blockBytes (heap a) := by
  simp [stream]

/-- The first bytes of a chain are in its head block. -/
theorem take_stream {heap : Nat → Block} {a n : Nat} (rest : List Nat)
    (hn : n ≤ (heap a).endPos - (heap a).beginPos) :
    slice (heap a).buf (heap a).beginPos n = (stream heap (a :: rest)).take n := by
  rw [← List.singleton_append, stream_append, stream_singleton, take_blockBytes hn,
    List.take_append_of_le_length]
  rw [length_blockBytes]
  exact hn

/-- The bytes behind the head block. -/
theorem drop_stream (heap : Nat → Block) (a : Nat) (rest : List Nat) :
    (stream heap (a :: rest)).drop ((heap a).endPos - (heap a).beginPos) = stream heap rest := by
  rw [← List.singleton_append, stream_append, stream_singleton, ← length_blockBytes,
    List.drop_left]

-- ---------------------------------------------------------------------------
-- What the buffer stands for
-- ---------------------------------------------------------------------------

/-- The two chains of a buffer, and the bytes of the first one. -/
structure Holds (cfg : Config) (b : Buf) (used free : List Nat) (content : List UInt8) : Prop where
  pool : Shape b.pool used free
  blocks : ∀ a ∈ used, BlockOk cfg (b.heap a)
  tail_lt : (b.heap b.tail).endPos < cfg.bufferSize
  bytes : stream b.heap used = content

/-- The blocks are filled one after the other: only the head may have been read from, and only
the tail may have room. -/
structure Packed (cfg : Config) (b : Buf) (used : List Nat) : Prop where
  begins : ∀ a ∈ used.tail, (b.heap a).beginPos = 0
  ends : ∀ a ∈ used, a ≠ b.tail → (b.heap a).endPos = cfg.bufferSize

/-- A new buffer is one empty block. -/
theorem holds_new (cfg : Config) (maxBlockNo : Nat) (heap : Nat → Block) :
    Holds cfg (Buf.new maxBlockNo heap) [0] [] [] := by
  have hblock : (Buf.new maxBlockNo heap).heap 0 = (heap 0).reset := by simp [Buf.new]
  constructor
  case pool =>
    constructor
    case linked =>
      refine ⟨rfl, ?_⟩
      show ((Buf.new maxBlockNo heap).heap 0).next = none
      rw [hblock]
      rfl
    case tail => exact ⟨[], rfl⟩
    case free_linked => rfl
    case nodup => simp
    case fresh =>
      intro a ha
      rw [List.append_nil, List.mem_singleton] at ha
      rw [ha]
      exact Nat.one_pos
    case usedCnt => rfl
    case emptyCnt => rfl
  case blocks =>
    intro a ha
    rw [List.mem_singleton.mp ha, hblock]
    exact ⟨Nat.le_refl _, Nat.zero_le _⟩
  case tail_lt =>
    show ((Buf.new maxBlockNo heap).heap 0).endPos < cfg.bufferSize
    rw [hblock]
    exact cfg.pos
  case bytes =>
    rw [stream_singleton, hblock]
    rfl

theorem packed_new (cfg : Config) (maxBlockNo : Nat) (heap : Nat → Block) :
    Packed cfg (Buf.new maxBlockNo heap) [0] where
  begins := by simp
  ends := by
    intro a ha hat
    exact absurd (List.mem_singleton.mp ha) hat

-- ---------------------------------------------------------------------------
-- push
-- ---------------------------------------------------------------------------

/-- The bytes after the tail block got `data`. -/
theorem Holds.bytes_tail {b : Buf} {used free : List Nat} {content : List UInt8}
    (h : Holds cfg b used free content) {heap : Nat → Block} {data : List UInt8}
    (hother : ∀ a ∈ used, a ≠ b.tail → heap a = b.heap a)
    (htail : blockBytes (heap b.tail) = blockBytes (b.heap b.tail) ++ data) :
    stream heap used = content ++ data := by
  obtain ⟨front, hused, hne⟩ := h.pool.exists_front
  have hused : used = front ++ [b.tail] := hused
  have hfront : stream heap front = stream b.heap front := by
    refine stream_congr fun a ha => ?_
    rw [hother a (by simp [hused, ha]) (hne a ha)]
  have hbytes := h.bytes
  rw [hused, stream_append, stream_singleton] at hbytes ⊢
  rw [hfront, htail, ← List.append_assoc, hbytes]

/-- Writing to the tail block, with room for at least one byte more. -/
theorem Holds.copyToTail {b : Buf} {used free : List Nat} {content data : List UInt8}
    (h : Holds cfg b used free content)
    (hroom : (b.heap b.tail).endPos + data.length < cfg.bufferSize) :
    Holds cfg (b.copyToTail data) used free (content ++ data) := by
  have hother : ∀ a, a ≠ b.tail → (b.copyToTail data).heap a = b.heap a := by
    intro a ha
    simp [Buf.copyToTail, ha]
  have htail : (b.copyToTail data).heap b.tail =
      { b.heap b.tail with
        buf := write (b.heap b.tail).buf (b.heap b.tail).endPos data
        endPos := (b.heap b.tail).endPos + data.length } := by
    simp [Buf.copyToTail]
  have hok := h.blocks b.tail h.pool.tail_mem
  constructor
  case pool =>
    rw [pool_copyToTail]
    exact h.pool
  case blocks =>
    intro a ha
    rcases eq_or_ne a b.tail with rfl | hne
    · rw [htail]
      exact ⟨Nat.le_trans hok.le (Nat.le_add_right ..), Nat.le_of_lt hroom⟩
    · rw [hother a hne]
      exact h.blocks a ha
  case tail_lt =>
    show ((b.copyToTail data).heap b.tail).endPos < cfg.bufferSize
    rw [htail]
    exact hroom
  case bytes =>
    apply h.bytes_tail
    · exact fun a _ hat => hother a hat
    · rw [htail]
      exact blockBytes_append hok.le data

theorem Packed.copyToTail {b : Buf} {used : List Nat} (h : Packed cfg b used)
    (data : List UInt8) : Packed cfg (b.copyToTail data) used where
  begins := by
    intro a ha
    rw [← h.begins a ha]
    rcases eq_or_ne a b.tail with rfl | hne
    · simp [Buf.copyToTail]
    · simp [Buf.copyToTail, hne]
  ends := by
    intro a ha hat
    have hne : a ≠ b.tail := hat
    rw [← h.ends a ha hne]
    simp [Buf.copyToTail, hne]

/-- The heap after a block was linked behind the tail. -/
theorem heap_linkBlock {b : Buf} (hne : b.linkBlock.1 ≠ b.tail) :
    b.linkBlock.2.heap = Function.update
      (Function.update b.heap b.linkBlock.1 (b.heap b.linkBlock.1).reset) b.tail
      { b.heap b.tail with next := some b.linkBlock.1 } := by
  cases hempty : b.emptyHead with
  | some e =>
    have he : b.linkBlock.1 = e := by simp [Buf.linkBlock, hempty]
    rw [he] at hne ⊢
    simp only [Buf.linkBlock, hempty]
    rw [Function.update_of_ne hne, Function.update_comm hne]
  | none =>
    have he : b.linkBlock.1 = b.fresh := by simp [Buf.linkBlock, hempty]
    rw [he] at hne ⊢
    simp only [Buf.linkBlock, hempty]
    rw [Function.update_of_ne hne.symm]

theorem tail_linkBlock (b : Buf) : b.linkBlock.2.tail = b.tail := by
  unfold Buf.linkBlock
  split
  · rfl
  · rfl

theorem maxBlockNo_fillTail (b : Buf) (data : List UInt8) :
    (b.fillTail data).maxBlockNo = b.maxBlockNo := by
  show b.linkBlock.2.maxBlockNo = b.maxBlockNo
  unfold Buf.linkBlock
  split
  · rfl
  · rfl

theorem contentSize_fillTail (b : Buf) (data : List UInt8) :
    (b.fillTail data).contentSize = b.contentSize := by
  show b.linkBlock.2.contentSize = b.contentSize
  unfold Buf.linkBlock
  split
  · rfl
  · rfl

/-- The blocks after a turn of the loop of `push` that goes on. -/
theorem Holds.heap_fillTail {b : Buf} {used free : List Nat} {content : List UInt8}
    (h : Holds cfg b used free content) (data : List UInt8) :
    (b.fillTail data).tail ∉ used ∧
      (b.fillTail data).heap (b.fillTail data).tail = (b.heap (b.fillTail data).tail).reset ∧
      (b.fillTail data).heap b.tail =
        { b.heap b.tail with
          next := some (b.fillTail data).tail
          buf := write (b.heap b.tail).buf (b.heap b.tail).endPos data
          endPos := (b.heap b.tail).endPos + data.length } ∧
      ∀ a ∈ used, a ≠ b.tail → (b.fillTail data).heap a = b.heap a := by
  have he : b.pool.hang.tail = b.linkBlock.1 := congrArg Pool.tail (pool_fillTail b data).symm
  have hnew := h.pool.hang_fresh
  have hne := h.pool.hang_ne
  rw [he] at hnew hne
  have hheap : (b.fillTail data).heap = Function.update
      (Function.update b.heap b.linkBlock.1 (b.heap b.linkBlock.1).reset) b.tail
      { b.heap b.tail with
        next := some b.linkBlock.1
        buf := write (b.heap b.tail).buf (b.heap b.tail).endPos data
        endPos := (b.heap b.tail).endPos + data.length } := by
    simp only [Buf.fillTail, Buf.copyToTail, tail_linkBlock, heap_linkBlock hne,
      Function.update_self, Function.update_idem]
  refine ⟨hnew, ?_, ?_, fun a ha hat => ?_⟩
  · show (b.fillTail data).heap b.linkBlock.1 = (b.heap b.linkBlock.1).reset
    have hother : b.linkBlock.1 ≠ b.tail := hne
    rw [hheap, Function.update_of_ne hother, Function.update_self]
  · rw [hheap, Function.update_self]
    rfl
  · have hae : a ≠ b.linkBlock.1 := by
      rintro rfl
      exact hnew ha
    rw [hheap, Function.update_of_ne hat, Function.update_of_ne hae]

/-- A turn of the loop of `push` that fills the tail block exactly. -/
theorem Holds.fillTail {b : Buf} {used free : List Nat} {content data : List UInt8}
    (h : Holds cfg b used free content)
    (hfull : (b.heap b.tail).endPos + data.length = cfg.bufferSize) :
    ∃ free', Holds cfg (b.fillTail data) (used ++ [(b.fillTail data).tail]) free'
        (content ++ data) ∧
      ((b.fillTail data).heap (b.fillTail data).tail).endPos = 0 := by
  obtain ⟨hnew, hlast, htail, hother⟩ := h.heap_fillTail data
  have hpool := pool_fillTail b data
  have he : b.pool.hang.tail = (b.fillTail data).tail := congrArg Pool.tail hpool.symm
  obtain ⟨free', hshape⟩ := h.pool.hang
  rw [he, ← hpool] at hshape
  have hok := h.blocks b.tail h.pool.tail_mem
  refine ⟨free', ?_, by rw [hlast]; rfl⟩
  constructor
  case pool => exact hshape
  case blocks =>
    intro a ha
    rcases List.mem_append.mp ha with ha | ha
    · rcases eq_or_ne a b.tail with rfl | hat
      · rw [htail]
        exact ⟨Nat.le_trans hok.le (Nat.le_add_right ..), Nat.le_of_eq hfull⟩
      · rw [hother a ha hat]
        exact h.blocks a ha
    · rw [List.mem_singleton.mp ha, hlast]
      exact ⟨Nat.le_refl _, Nat.zero_le _⟩
  case tail_lt =>
    rw [hlast]
    exact cfg.pos
  case bytes =>
    have hreset : blockBytes ((b.fillTail data).heap (b.fillTail data).tail) = [] := by
      rw [hlast]
      rfl
    rw [stream_append, stream_singleton, hreset, List.append_nil]
    apply h.bytes_tail hother
    rw [htail]
    exact blockBytes_append hok.le data

theorem Packed.fillTail {b : Buf} {used free : List Nat} {content data : List UInt8}
    (h : Packed cfg b used) (hholds : Holds cfg b used free content)
    (hfull : (b.heap b.tail).endPos + data.length = cfg.bufferSize) :
    Packed cfg (b.fillTail data) (used ++ [(b.fillTail data).tail]) := by
  obtain ⟨-, hlast, htail, hother⟩ := hholds.heap_fillTail data
  refine ⟨?_, ?_⟩
  · intro a ha
    rw [List.tail_append_of_ne_nil hholds.pool.used_ne_nil] at ha
    rcases List.mem_append.mp ha with ha | ha
    · rw [← h.begins a ha]
      rcases eq_or_ne a b.tail with rfl | hne
      · rw [htail]
      · rw [hother a (List.mem_of_mem_tail ha) hne]
    · rw [List.mem_singleton.mp ha, hlast]
      rfl
  · intro a ha hat
    rcases List.mem_append.mp ha with ha | ha
    · rcases eq_or_ne a b.tail with rfl | hne
      · rw [htail]
        exact hfull
      · rw [hother a ha hne]
        exact h.ends a ha hne
    · exact absurd (List.mem_singleton.mp ha) hat

/-- What the loop of `push` does, and how many blocks it takes. -/
theorem pushLoop_spec {b : Buf} {used free : List Nat} {content data : List UInt8} {fuel : Nat}
    (h : Holds cfg b used free content) (hdata : data.length < 2 ^ 63)
    (hfuel : data.length < fuel) :
    ∃ b' used' free', b.pushLoop cfg fuel data = some b' ∧
      Holds cfg b' used' free' (content ++ data) ∧ b'.maxBlockNo = b.maxBlockNo ∧
      b'.contentSize = b.contentSize ∧
      used'.length = used.length + ((b.heap b.tail).endPos + data.length) / cfg.bufferSize ∧
      (Packed cfg b used → Packed cfg b' used') := by
  induction fuel generalizing b used free content data with
  | zero => omega
  | succ fuel ih =>
    have hlt := h.tail_lt
    have hbound := cfg.lt
    have hmod : ((b.heap b.tail).endPos + data.length) % 2 ^ 64 =
        (b.heap b.tail).endPos + data.length := Nat.mod_eq_of_lt (by omega)
    unfold Buf.pushLoop
    simp only [Buf.isBlockFull, hmod, decide_eq_true_eq]
    split
    · -- the bytes fill the tail block: a turn that writes at least one of them
      rename_i hfull
      have htake : (data.take (cfg.bufferSize - (b.heap b.tail).endPos)).length =
          cfg.bufferSize - (b.heap b.tail).endPos := by
        rw [List.length_take]
        omega
      have hexact : (b.heap b.tail).endPos +
          (data.take (cfg.bufferSize - (b.heap b.tail).endPos)).length = cfg.bufferSize := by
        omega
      have hrest : (data.drop (cfg.bufferSize - (b.heap b.tail).endPos)).length < fuel := by
        rw [List.length_drop]
        omega
      obtain ⟨free', hnext, hend⟩ := h.fillTail hexact
      obtain ⟨b', used'', free'', hloop, hdone, hmax, hsize, hcount, hpacked⟩ :=
        ih hnext (by rw [List.length_drop]; omega) hrest
      rw [List.append_assoc, List.take_append_drop] at hdone
      refine ⟨b', used'', free'', hloop, hdone, ?_, ?_, ?_,
        fun hp => hpacked (hp.fillTail h hexact)⟩
      · rw [hmax, maxBlockNo_fillTail]
      · rw [hsize, contentSize_fillTail]
      · have hsplit : (b.heap b.tail).endPos + data.length =
            cfg.bufferSize + (data.length - (cfg.bufferSize - (b.heap b.tail).endPos)) := by omega
        rw [hcount, hend, List.length_drop, hsplit, Nat.add_div_left _ cfg.pos, Nat.zero_add,
          List.length_append, List.length_singleton]
        omega
    · rename_i hroom
      have hroom : (b.heap b.tail).endPos + data.length < cfg.bufferSize := by omega
      refine ⟨b.copyToTail data, used, free, rfl, h.copyToTail hroom, rfl, rfl, ?_,
        fun hp => hp.copyToTail data⟩
      rw [Nat.div_eq_of_lt hroom, Nat.add_zero]

-- ---------------------------------------------------------------------------
-- pull
-- ---------------------------------------------------------------------------

/-- Reading on in the head block. -/
theorem Holds.advance {b : Buf} {a : Nat} {rest free : List Nat} {content : List UInt8}
    (h : Holds cfg b (a :: rest) free content) {n : Nat}
    (hn : n ≤ (b.heap a).endPos - (b.heap a).beginPos) :
    Holds cfg (b.advance a n) (a :: rest) free (content.drop n) := by
  have hhead : (b.advance a n).heap a =
      { b.heap a with beginPos := (b.heap a).beginPos + n } := by
    simp [Buf.advance]
  have hother : ∀ c, c ≠ a → (b.advance a n).heap c = b.heap c := by
    intro c hc
    simp [Buf.advance, hc]
  have hok := h.blocks a (List.mem_cons_self ..)
  constructor
  case pool =>
    rw [pool_advance]
    exact h.pool
  case blocks =>
    intro c hc
    rcases eq_or_ne c a with rfl | hne
    · rw [hhead]
      have hle := hok.le
      exact ⟨by simp only; omega, hok.fits⟩
    · rw [hother c hne]
      exact h.blocks c hc
  case tail_lt =>
    have htail := h.tail_lt
    show ((b.advance a n).heap b.tail).endPos < cfg.bufferSize
    rcases eq_or_ne b.tail a with heq | hne
    · rw [heq, hhead]
      rw [heq] at htail
      exact htail
    · rw [hother b.tail hne]
      exact htail
  case bytes =>
    have hrest : stream (b.advance a n).heap rest = stream b.heap rest :=
      stream_congr fun c hc => by rw [hother c (h.pool.ne_head c hc)]
    have hbytes := h.bytes
    rw [← List.singleton_append, stream_append, stream_singleton] at hbytes ⊢
    rw [hhead, drop_blockBytes hn, hrest, ← hbytes, List.drop_append_of_le_length]
    rw [length_blockBytes]
    exact hn

theorem Packed.advance {b : Buf} {a : Nat} {rest free : List Nat} {content : List UInt8}
    (h : Packed cfg b (a :: rest)) (hholds : Holds cfg b (a :: rest) free content) (n : Nat) :
    Packed cfg (b.advance a n) (a :: rest) where
  begins := by
    intro c hc
    have hne : c ≠ a := hholds.pool.ne_head c hc
    rw [← h.begins c hc]
    simp [Buf.advance, hne]
  ends := by
    intro c hc hct
    rw [← h.ends c hc hct]
    rcases eq_or_ne c a with rfl | hne
    · simp [Buf.advance]
    · simp [Buf.advance, hne]

/-- Giving the head block to the second chain, when it was read to the end. -/
theorem Holds.recycle {b : Buf} {a : Nat} {rest free : List Nat} {content : List UInt8}
    (h : Holds cfg b (a :: rest) free content) (hrest : rest ≠ [])
    (hempty : blockBytes (b.heap a) = []) :
    Holds cfg (b.recycle a) rest (a :: free) content := by
  have hother : ∀ c ∈ rest, (b.recycle a).heap c = b.heap c := by
    intro c hc
    simp [Buf.recycle, h.pool.ne_head c hc]
  have hpool := h.pool.recycle hrest
  rw [← pool_recycle] at hpool
  constructor
  case pool => exact hpool
  case blocks =>
    intro c hc
    rw [hother c hc]
    exact h.blocks c (List.mem_cons_of_mem _ hc)
  case tail_lt =>
    have htail := hother (b.recycle a).tail hpool.tail_mem
    rw [htail]
    exact h.tail_lt
  case bytes =>
    have hbytes := h.bytes
    rw [← List.singleton_append, stream_append, stream_singleton, hempty] at hbytes
    rw [stream_congr fun c hc => by rw [hother c hc]]
    exact hbytes

theorem Packed.recycle {b : Buf} {a : Nat} {rest free : List Nat} {content : List UInt8}
    (h : Packed cfg b (a :: rest)) (hholds : Holds cfg b (a :: rest) free content) :
    Packed cfg (b.recycle a) rest := by
  have hother : ∀ c ∈ rest, (b.recycle a).heap c = b.heap c := by
    intro c hc
    simp [Buf.recycle, hholds.pool.ne_head c hc]
  refine ⟨?_, ?_⟩
  · intro c hc
    rw [hother c (List.mem_of_mem_tail hc)]
    exact h.begins c (List.mem_of_mem_tail hc)
  · intro c hc hct
    rw [hother c hc]
    exact h.ends c (List.mem_cons_of_mem _ hc) hct

/-- A block with fewer bytes than the stream is not the last one. -/
theorem Holds.rest_ne_nil {b : Buf} {a : Nat} {rest free : List Nat} {content : List UInt8}
    (h : Holds cfg b (a :: rest) free content)
    (hlt : (b.heap a).endPos - (b.heap a).beginPos < content.length) : rest ≠ [] := by
  rintro rfl
  have hbytes := h.bytes
  rw [stream_singleton] at hbytes
  rw [← hbytes, length_blockBytes] at hlt
  exact Nat.lt_irrefl _ hlt

/-- What the loop of `pull` does. -/
theorem pullLoop_spec {b : Buf} {used free : List Nat} {content : List UInt8} {fuel n : Nat}
    (h : Holds cfg b used free content) (hn : n ≤ content.length) (hfuel : used.length < fuel)
    (out : List UInt8) :
    ∃ b' used' free', b.pullLoop fuel n out = some (b', out ++ content.take n) ∧
      Holds cfg b' used' free' (content.drop n) ∧ b'.maxBlockNo = b.maxBlockNo ∧
      b'.contentSize = b.contentSize ∧ used'.length ≤ used.length ∧
      (Packed cfg b used → Packed cfg b' used') := by
  induction fuel generalizing b used free content out n with
  | zero => omega
  | succ fuel ih =>
    cases used with
    | nil =>
      have hmem := h.pool.tail_mem
      simp at hmem
    | cons a rest =>
      have hhead : b.head = some a := h.pool.linked.1
      unfold Buf.pullLoop
      simp only [hhead]
      split
      · -- the head block is read to the end
        rename_i hlt
        have hrest := h.rest_ne_nil (Nat.lt_of_lt_of_le hlt hn)
        have hadvance := h.advance (Nat.le_refl ((b.heap a).endPos - (b.heap a).beginPos))
        have hempty : blockBytes ((b.advance a ((b.heap a).endPos - (b.heap a).beginPos)).heap a) =
            [] := by
          simp only [Buf.advance, Function.update_self]
          rw [drop_blockBytes (Nat.le_refl _), ← length_blockBytes, List.drop_length]
        have hless : n - ((b.heap a).endPos - (b.heap a).beginPos) ≤
            (content.drop ((b.heap a).endPos - (b.heap a).beginPos)).length := by
          rw [List.length_drop]
          omega
        obtain ⟨b', used', free', hloop, hdone, hmax, hsize, hlen, hpacked⟩ :=
          ih (hadvance.recycle hrest hempty) hless
            (by simp only [List.length_cons] at hfuel; omega)
            (out ++ slice (b.heap a).buf (b.heap a).beginPos
              ((b.heap a).endPos - (b.heap a).beginPos))
        rw [List.drop_drop] at hdone
        have hsum : (b.heap a).endPos - (b.heap a).beginPos +
            (n - ((b.heap a).endPos - (b.heap a).beginPos)) = n := by omega
        rw [hsum] at hdone
        refine ⟨b', used', free', ?_, hdone, hmax, hsize, ?_,
          fun hp => hpacked ((hp.advance h _).recycle hadvance)⟩
        · rw [hloop, take_stream rest (Nat.le_refl _), h.bytes, List.append_assoc,
            ← List.take_add, hsum]
        · simp only [List.length_cons]
          omega
      · rename_i hle
        have hle : n ≤ (b.heap a).endPos - (b.heap a).beginPos := by omega
        refine ⟨b.advance a n, a :: rest, free, ?_, h.advance hle, rfl, rfl, Nat.le_refl _,
          fun hp => hp.advance h n⟩
        rw [take_stream rest hle, h.bytes]

-- ---------------------------------------------------------------------------
-- read
-- ---------------------------------------------------------------------------

/-- What the loop of `read` does. -/
theorem readLoop_spec {heap : Nat → Block} {p : Option Nat} {used : List Nat} {fuel n : Nat}
    (hlinked : Linked (links heap) p used) (hused : used ≠ [])
    (hn : n ≤ (stream heap used).length) (hfuel : used.length < fuel) (out : List UInt8) :
    Buf.readLoop heap fuel p n out = some (out ++ (stream heap used).take n) := by
  induction fuel generalizing p used out n with
  | zero => omega
  | succ fuel ih =>
    cases used with
    | nil => exact absurd rfl hused
    | cons a rest =>
      obtain ⟨rfl, hrest⟩ := hlinked
      have hdrop := drop_stream heap a rest
      unfold Buf.readLoop
      simp only
      split
      · -- the head block is read to the end
        rename_i hlt
        have hlen : (stream heap rest).length =
            (stream heap (a :: rest)).length - ((heap a).endPos - (heap a).beginPos) := by
          rw [← hdrop, List.length_drop]
        have hne : rest ≠ [] := by
          rintro rfl
          have hzero : (stream heap []).length = 0 := rfl
          omega
        have hsum : (heap a).endPos - (heap a).beginPos +
            (n - ((heap a).endPos - (heap a).beginPos)) = n := by omega
        have hnext : (heap a).next = links heap a := rfl
        rw [hnext, ih hrest hne (by omega) (by simp only [List.length_cons] at hfuel; omega),
          take_stream rest (Nat.le_refl _), ← hdrop, List.append_assoc, ← List.take_add, hsum]
      · rename_i hle
        rw [take_stream rest (by omega)]

-- ---------------------------------------------------------------------------
-- shrink_to_fit
-- ---------------------------------------------------------------------------

/-- What the loop of `shrink_to_fit` does. -/
theorem shrinkLoop_spec {b : Buf} {free : List Nat} {fuel : Nat}
    (hlinked : Linked (links b.heap) b.emptyHead free) (hfuel : free.length < fuel) :
    b.shrinkLoop fuel = some { b with emptyHead := none } := by
  induction fuel generalizing b free with
  | zero => omega
  | succ fuel ih =>
    unfold Buf.shrinkLoop
    cases free with
    | nil =>
      have hnone : b.emptyHead = none := hlinked
      simp only [hnone]
      rw [← hnone]
    | cons e rest =>
      obtain ⟨he, hrest⟩ := hlinked
      simp only [he]
      exact ih (b := { b with emptyHead := (b.heap e).next }) hrest
        (by simp only [List.length_cons] at hfuel; omega)

-- ---------------------------------------------------------------------------
-- Calls
-- ---------------------------------------------------------------------------

inductive Request where
  | push (data : Data)
  | pull (size : Nat)
  | read (size : Nat)
  | shrinkToFit

/-- The return value and the bytes that are copied out; `shrink_to_fit` returns nothing. -/
inductive Reply where
  | returned (code : Int) (out : List UInt8)
  | done

def Buf.call (cfg : Config) (b : Buf) : Request → Option (Buf × Reply)
  | .push data => (b.push cfg data).map fun p => (p.1, .returned p.2 [])
  | .pull size => (b.pull size).map fun p => (p.1, .returned p.2.1 p.2.2)
  | .read size => (b.read size).map fun p => (b, .returned p.1 p.2)
  | .shrinkToFit => b.shrinkToFit.map fun b => (b, .done)

/-- **The abstract buffer**: a list of bytes without a limit. -/
inductive ByteStream : List UInt8 → Request → Reply → List UInt8 → Prop
  | push {s : List UInt8} {data : Data} :
      ByteStream s (.push data) (.returned data.1.length []) (s ++ data.1)
  | pull {s : List UInt8} {size : Nat} :
      ByteStream s (.pull size) (.returned (min size s.length : Nat) (s.take size)) (s.drop size)
  | read {s : List UInt8} {size : Nat} :
      ByteStream s (.read size) (.returned (min size s.length : Nat) (s.take size)) s
  | shrinkToFit {s : List UInt8} : ByteStream s .shrinkToFit .done s

/-- The buffer stands for the bytes `content`. -/
structure Represents (cfg : Config) (maxBlockNo : Nat) (b : Buf) (content : List UInt8) :
    Prop where
  holds : ∃ used free, Holds cfg b used free content
  size : b.contentSize = content.length
  max : b.maxBlockNo = maxBlockNo

theorem represents_new (cfg : Config) (maxBlockNo : Nat) (heap : Nat → Block) :
    Represents cfg maxBlockNo (Buf.new maxBlockNo heap) [] :=
  ⟨⟨[0], [], holds_new cfg maxBlockNo heap⟩, rfl, rfl⟩

/-- The chain of the buffer is packed. -/
def Buf.Packed (cfg : Config) (b : Buf) : Prop :=
  ∃ used free, Shape b.pool used free ∧ UltraBuf.Packed cfg b used

theorem Holds.packed_iff {b : Buf} {used free : List Nat} {content : List UInt8}
    (h : Holds cfg b used free content) : b.Packed cfg ↔ Packed cfg b used := by
  refine ⟨?_, fun hp => ⟨used, free, h.pool, hp⟩⟩
  rintro ⟨used', free', hshape, hp⟩
  obtain rfl := linked_unique hshape.linked h.pool.linked
  exact hp

variable {maxBlockNo : Nat}

/-- **`push`** of a buffer that is not full writes all bytes and takes as many blocks as
they fill. -/
theorem Represents.push {b : Buf} {content : List UInt8} (h : Represents cfg maxBlockNo b content)
    (data : Data) (hroom : b.isFull cfg data.1.length = false) :
    ∃ b', b.push cfg data = some (b', (data.1.length : Int)) ∧
      Represents cfg maxBlockNo b' (content ++ data.1) ∧
      b'.usedBlockCnt = b.usedBlockCnt +
        ((b.heap b.tail).endPos + data.1.length) / cfg.bufferSize ∧
      (b.Packed cfg → b'.Packed cfg) := by
  obtain ⟨used, free, hholds⟩ := h.holds
  obtain ⟨b', used', free', hloop, hholds', hmax, hsize, hcount, hpacked⟩ :=
    pushLoop_spec hholds data.2 (Nat.lt_succ_self _)
  have hused : b.usedBlockCnt = used.length := hholds.pool.usedCnt
  have hused' : b'.usedBlockCnt = used'.length := hholds'.pool.usedCnt
  refine ⟨{ b' with contentSize := b'.contentSize + data.1.length }, ?_, ?_, ?_, ?_⟩
  · rw [Buf.push, hroom, hloop]
    rfl
  · constructor
    case holds => exact ⟨used', free', hholds'.pool, hholds'.blocks, hholds'.tail_lt, hholds'.bytes⟩
    case size =>
      show b'.contentSize + data.1.length = (content ++ data.1).length
      rw [hsize, h.size, List.length_append]
    case max => exact hmax.trans h.max
  · show b'.usedBlockCnt = _
    rw [hused', hused, hcount]
  · intro hp
    obtain ⟨hbegins, hends⟩ := hpacked (hholds.packed_iff.mp hp)
    exact ⟨used', free', hholds'.pool, hbegins, hends⟩

/-- **`pull`** takes bytes off the front. -/
theorem Represents.pull {b : Buf} {content : List UInt8} (h : Represents cfg maxBlockNo b content)
    (size : Nat) :
    ∃ b', b.pull size = some (b', ((min size content.length : Nat) : Int), content.take size) ∧
      Represents cfg maxBlockNo b' (content.drop size) ∧ b'.usedBlockCnt ≤ b.usedBlockCnt ∧
      (b.Packed cfg → b'.Packed cfg) := by
  unfold Buf.pull Buf.isEmpty
  rw [h.size]
  split
  · -- nothing there
    rename_i hempty
    obtain rfl : content = [] := by
      apply List.eq_nil_of_length_eq_zero
      simpa using hempty
    refine ⟨b, by simp, ?_, Nat.le_refl _, id⟩
    rw [List.drop_nil]
    exact h
  · obtain ⟨used, free, hholds⟩ := h.holds
    have hused : b.usedBlockCnt = used.length := hholds.pool.usedCnt
    have hfuel : used.length < b.usedBlockCnt + 1 := by omega
    obtain ⟨b', used', free', hloop, hholds', hmax, hsize, hlen, hpacked⟩ :=
      pullLoop_spec hholds (Nat.min_le_right size content.length) hfuel []
    have hused' : b'.usedBlockCnt = used'.length := hholds'.pool.usedCnt
    have htake : content.take (min size content.length) = content.take size :=
      List.take_eq_take_min.symm
    have hdrop : content.drop (min size content.length) = content.drop size := by
      rcases Nat.le_total size content.length with hle | hle
      · rw [Nat.min_eq_left hle]
      · rw [Nat.min_eq_right hle, List.drop_length, List.drop_eq_nil_of_le hle]
    rw [hdrop] at hholds'
    refine ⟨{ b' with contentSize := b'.contentSize - min size content.length }, ?_, ?_, ?_, ?_⟩
    · simp only [hloop, htake, Option.map_some, List.nil_append]
    · constructor
      case holds =>
        exact ⟨used', free', hholds'.pool, hholds'.blocks, hholds'.tail_lt, hholds'.bytes⟩
      case size =>
        show b'.contentSize - min size content.length = (content.drop size).length
        rw [hsize, h.size, List.length_drop]
        omega
      case max => exact hmax.trans h.max
    · show b'.usedBlockCnt ≤ b.usedBlockCnt
      omega
    · intro hp
      obtain ⟨hbegins, hends⟩ := hpacked (hholds.packed_iff.mp hp)
      exact ⟨used', free', hholds'.pool, hbegins, hends⟩

/-- **`read`** gives what `pull` would. -/
theorem Represents.read {b : Buf} {content : List UInt8} (h : Represents cfg maxBlockNo b content)
    (size : Nat) :
    b.read size = some (((min size content.length : Nat) : Int), content.take size) := by
  unfold Buf.read Buf.isEmpty
  rw [h.size]
  split
  · rename_i hempty
    obtain rfl : content = [] := by
      apply List.eq_nil_of_length_eq_zero
      simpa using hempty
    simp
  · obtain ⟨used, free, hholds⟩ := h.holds
    have hused : b.usedBlockCnt = used.length := hholds.pool.usedCnt
    have hne : used ≠ [] := by
      have hpos := hholds.pool.used_pos
      rintro rfl
      rw [hholds.pool.usedCnt] at hpos
      simp at hpos
    have hfuel : used.length < b.usedBlockCnt + 1 := by omega
    have hmin : min size content.length ≤ (stream b.heap used).length := by
      rw [hholds.bytes]
      exact Nat.min_le_right ..
    have hloop := readLoop_spec hholds.pool.linked hne hmin hfuel []
    rw [hholds.bytes] at hloop
    have htake : content.take (min size content.length) = content.take size :=
      List.take_eq_take_min.symm
    have hhead : b.pool.head = b.head := rfl
    rw [hhead, htake] at hloop
    simp only [hloop, Option.map_some, List.nil_append]

/-- **`shrink_to_fit`** gives the second chain up. -/
theorem Represents.shrinkToFit {b : Buf} {content : List UInt8}
    (h : Represents cfg maxBlockNo b content) :
    ∃ b', b.shrinkToFit = some b' ∧ Represents cfg maxBlockNo b' content ∧
      b'.usedBlockCnt = b.usedBlockCnt ∧ (b.Packed cfg → b'.Packed cfg) := by
  obtain ⟨used, free, hholds⟩ := h.holds
  have hfree : b.emptyBlockCnt = free.length := hholds.pool.emptyCnt
  have hfuel : free.length < b.emptyBlockCnt + 1 := by omega
  have hloop := shrinkLoop_spec hholds.pool.free_linked hfuel
  refine ⟨{ b with emptyHead := none, emptyBlockCnt := 0 }, ?_, ?_, rfl, fun hp => ?_⟩
  · rw [Buf.shrinkToFit, hloop]
    rfl
  · exact ⟨⟨used, [], hholds.pool.discard, hholds.blocks, hholds.tail_lt, hholds.bytes⟩,
      h.size, h.max⟩
  · obtain ⟨hbegins, hends⟩ := hholds.packed_iff.mp hp
    exact ⟨used, [], hholds.pool.discard, hbegins, hends⟩

/-- Without a limit the buffer is never full. -/
theorem Represents.isFull_unlimited {b : Buf} {content : List UInt8}
    (h : Represents cfg 0 b content) (incomingSz : Nat) : b.isFull cfg incomingSz = false := by
  simp [Buf.isFull, h.max]

theorem call_refines (cfg : Config) :
    Refines (Buf.call cfg) ByteStream (Represents cfg 0) := by
  intro b content request h
  cases request with
  | push data =>
    obtain ⟨b', hpush, hnext, -⟩ := h.push data (h.isFull_unlimited _)
    refine ⟨b', _, _, ?_, .push, hnext⟩
    rw [Buf.call, hpush]
    rfl
  | pull size =>
    obtain ⟨b', hpull, hnext, -⟩ := h.pull size
    refine ⟨b', _, _, ?_, .pull, hnext⟩
    rw [Buf.call, hpull]
    rfl
  | read size =>
    refine ⟨b, _, _, ?_, .read, h⟩
    rw [Buf.call, h.read]
    rfl
  | shrinkToFit =>
    obtain ⟨b', hshrink, hnext, -⟩ := h.shrinkToFit
    refine ⟨b', _, _, ?_, .shrinkToFit, hnext⟩
    rw [Buf.call, hshrink]
    rfl

/-- **The byte stream.** Every sequence of calls on a new buffer without a limit returns,
with the answers of a list of bytes, and `get_size` is the length of the list. -/
theorem calls_stream (cfg : Config) (heap : Nat → Block) (requests : List Request) :
    ∃ b replies content, runCalls (Buf.call cfg) (Buf.new 0 heap) requests = some (b, replies) ∧
      Trace ByteStream [] requests replies content ∧ b.getSize = content.length := by
  obtain ⟨b, replies, content, hrun, htrace, hb⟩ :=
    (call_refines cfg).run (represents_new cfg 0 heap) requests
  exact ⟨b, replies, content, hrun, htrace, hb.size⟩

end Zrtools.UltraBuf

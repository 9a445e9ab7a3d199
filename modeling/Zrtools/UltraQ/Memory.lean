import Zrtools.UltraQ.Fifo
import Zrtools.UltraQ.Threads

/-!
# zrtools — the memory of the block queue

A queue gives no block back before it is destroyed. While the answers hold on which the
threads act, a block is allocated only if none waits in the second chain and the limit is
not reached, so the limit bounds what a queue ever allocates, and not only what it uses.

* `Accounts` — the counters, the chains and the limit between two sections;
* `memory_of_run` — the accounts after any number of sections, and the destructor.
-/

namespace Zrtools.UltraQ

open BlockPool

namespace Queue

/-- `cnt_block_total()`. -/
def cntBlockTotal (q : Queue) : Nat := q.usedBlockCnt + q.emptyBlockCnt

/-- `get_capacity()`. -/
def getCapacity (cfg : Config) (q : Queue) : Nat := q.cntBlockTotal * cfg.bufferSize

/-- `~UltraQ()`, with the two counters and the blocks that were deleted. -/
def destroy (q : Queue) : Option (Int × Int × List Nat) := q.pool.destroy []

end Queue

variable {T : Type} [DecidableEq T] {cfg : Config} {maxBlockNo : Nat}

/-- The length of all messages. -/
def totalLength (ms : List Message) : Nat := (ms.map List.length).sum

omit [DecidableEq T] in
/-- Every block that was allocated is in a chain, and there are no more than the limit says. -/
structure Accounts (cfg : Config) (maxBlockNo : Nat) (s : Sys T) (past : List Event) : Prop where
  inv : Inv cfg s past
  max : s.q.maxBlockNo = maxBlockNo
  allocated : s.q.usedBlockCnt + s.q.emptyBlockCnt = s.q.fresh
  bounded : 0 < s.q.maxBlockNo → s.q.fresh ≤ s.q.maxBlockNo

omit [DecidableEq T] in
theorem accounts_initial (cfg : Config) (maxBlockNo : Nat) (heap : Nat → Block) :
    Accounts cfg maxBlockNo (Sys.initial (T := T) maxBlockNo heap) [] where
  inv := inv_initial cfg maxBlockNo heap
  max := rfl
  allocated := rfl
  bounded := by
    intro hpos
    exact hpos

omit [DecidableEq T] in
/-- A block is allocated only where the second chain is empty. -/
theorem fresh_addBlock {q : Queue} {blocks : List (Nat × List Message)} {free : List Nat}
    (h : Shape cfg q blocks free) (hcount : q.usedBlockCnt + q.emptyBlockCnt = q.fresh) :
    q.addBlock.fresh = q.fresh ∨ q.addBlock.fresh = q.usedBlockCnt + 1 := by
  cases hempty : q.emptyHead with
  | some e => exact Or.inl (by simp [Queue.addBlock, hempty])
  | none =>
    have hfree := h.free_linked
    rw [hempty, Chain.linked_none] at hfree
    have hzero : q.emptyBlockCnt = 0 := by
      rw [h.empty, hfree]
      rfl
    refine Or.inr ?_
    simp only [Queue.addBlock, hempty]
    omega

/-- The locked part of `push` on an answer that holds. -/
theorem Accounts.lockedPush {s : Sys T} {past : List Event} (h : Accounts cfg maxBlockNo s past)
    {t : T} {data : Message} (hcall : s.call t = .pushing data)
    (hok : s.q.isFull cfg data.length = false) :
    Accounts cfg maxBlockNo { s.setCall t .idle with q := s.q.lockedPush cfg data }
      (past ++ [.accepted data]) := by
  obtain ⟨blocks, free, hshape, -, -⟩ := h.inv.shape
  have hmax : (s.q.lockedPush cfg data).maxBlockNo = s.q.maxBlockNo :=
    Queue.maxBlockNo_lockedPush ..
  refine ⟨h.inv.lockedPush hcall hok, hmax.trans h.max, ?_, ?_⟩
  · show (s.q.lockedPush cfg data).usedBlockCnt + (s.q.lockedPush cfg data).emptyBlockCnt =
      (s.q.lockedPush cfg data).fresh
    unfold Queue.lockedPush
    split
    · exact allocated_addBlock hshape h.allocated
    · exact h.allocated
  · show 0 < (s.q.lockedPush cfg data).maxBlockNo →
      (s.q.lockedPush cfg data).fresh ≤ (s.q.lockedPush cfg data).maxBlockNo
    rw [hmax]
    intro hpos
    have hbounded := h.bounded hpos
    have hblocks := h.inv.blocks hpos
    unfold Queue.lockedPush
    split
    · rename_i hfull
      -- the tail is full and the queue is not, so a block is left
      have hne : s.q.usedBlockCnt ≠ s.q.maxBlockNo := by
        intro heq
        rw [Queue.isFull, if_pos (by omega), hfull, heq] at hok
        simp at hok
      show s.q.addBlock.fresh ≤ s.q.maxBlockNo
      rcases fresh_addBlock hshape h.allocated with hsame | hnew
      · rw [hsame]
        exact hbounded
      · rw [hnew]
        omega
    · exact hbounded

/-- The locked part of `pull` on an answer that holds. -/
theorem Accounts.lockedPull {s : Sys T} {past : List Event} (h : Accounts cfg maxBlockNo s past)
    {t : T} (hok : s.q.isEmpty = false) :
    Accounts cfg maxBlockNo { s.setCall t .idle with q := s.q.lockedPull.1 }
      (past ++ (s.q.lockedPull.2.map Event.returned).toList) := by
  obtain ⟨blocks, free, hshape, hfilled, -⟩ := h.inv.shape
  have hsome : messages blocks ≠ [] := by
    intro hnone
    rw [(isEmpty_iff hshape hfilled).mpr hnone] at hok
    simp at hok
  obtain ⟨m, ms, hms⟩ := List.exists_cons_of_ne_nil hsome
  obtain ⟨blocks', free', hshape', -, -, -, -, hcount⟩ := lockedPull_spec hshape hfilled hms
  have hallocated := h.allocated
  refine ⟨h.inv.lockedPull hok, (Queue.maxBlockNo_lockedPull _).trans h.max, ?_, ?_⟩
  · show s.q.lockedPull.1.usedBlockCnt + s.q.lockedPull.1.emptyBlockCnt = s.q.lockedPull.1.fresh
    rw [Queue.fresh_lockedPull, hshape'.used, hshape'.empty, hcount, ← hshape.used, ← hshape.empty]
    exact hallocated
  · show 0 < s.q.lockedPull.1.maxBlockNo → s.q.lockedPull.1.fresh ≤ s.q.lockedPull.1.maxBlockNo
    rw [Queue.fresh_lockedPull, Queue.maxBlockNo_lockedPull]
    exact h.bounded

/-- Every section whose answer still holds keeps the accounts. -/
theorem Accounts.step {s s' : Sys T} {past : List Event} {a : Action T}
    (h : Accounts cfg maxBlockNo s past) (hok : StillHolds cfg s a)
    (hstep : s.step cfg a = some s') :
    Accounts cfg maxBlockNo s' (past ++ s.events a) := by
  have hinv := h.inv.step hok hstep
  cases a with
  | push t data =>
    obtain rfl | ⟨-, rfl⟩ := step_push hstep
    · exact ⟨hinv, h.max, h.allocated, h.bounded⟩
    · exact ⟨hinv, h.max, h.allocated, h.bounded⟩
  | lockedPush t =>
    obtain ⟨data, hcall, rfl⟩ := step_lockedPush hstep
    rw [Sys.events, hcall]
    exact h.lockedPush hcall (hok data hcall)
  | pull t =>
    obtain rfl | rfl := step_pull hstep
    · exact ⟨hinv, h.max, h.allocated, h.bounded⟩
    · exact ⟨hinv, h.max, h.allocated, h.bounded⟩
  | lockedPull t =>
    obtain rfl := step_lockedPull hstep
    exact h.lockedPull hok

/-- What a run of a new queue tells the outside. -/
def eventsOf (cfg : Config) (maxBlockNo : Nat) (heap : Nat → Block) (acts : List (Action T)) :
    List Event :=
  Schedule.outputs (Sys.step cfg) Sys.events (Sys.initial maxBlockNo heap) acts

/-- **The memory of a queue.** In every run of any number of threads in which the answers of
`is_full` and `is_empty` still held when they were acted upon: `get_size` is the length of
the messages that went in and did not come out, `get_capacity` is all the memory that was
ever allocated, a limit bounds the number of allocations, and the destructor comes to its
end with both counters at zero and every block deleted once. -/
theorem memory_of_run {heap : Nat → Block} {acts : List (Action T)} {s : Sys T}
    (hrun : Schedule.run (Sys.step cfg) (Sys.initial maxBlockNo heap) acts = some s)
    (hmeet : Schedule.StepsMeet (Sys.step cfg) (StillHolds cfg) (Sys.initial maxBlockNo heap)
      acts) :
    s.q.getSize + totalLength (returned (eventsOf cfg maxBlockNo heap acts)) =
        totalLength (accepted (eventsOf cfg maxBlockNo heap acts)) ∧
      s.q.getCapacity cfg = s.q.fresh * cfg.bufferSize ∧
      (0 < maxBlockNo → s.q.fresh ≤ maxBlockNo) ∧
      ∃ gone, s.q.destroy = some (0, 0, gone) ∧ gone.Perm (List.range s.q.fresh) := by
  have h : Accounts cfg maxBlockNo s (eventsOf cfg maxBlockNo heap acts) :=
    Schedule.run_invariant_outputs (Sys.step cfg) (Accounts cfg maxBlockNo)
      (fun _ _ _ _ hinv hok hstep => hinv.step hok hstep) (accounts_initial cfg maxBlockNo heap)
      hmeet hrun
  obtain ⟨blocks, free, hshape, -, hmessages⟩ := h.inv.shape
  refine ⟨?_, ?_, ?_, destroy_spec hshape.pool (hshape.pool.accounted h.allocated)⟩
  · have hsize : s.q.getSize = totalLength (messages blocks) := hshape.content
    unfold totalLength at hsize ⊢
    rw [hsize, hmessages, List.map_append, List.sum_append, Nat.add_comm]
  · rw [Queue.getCapacity, Queue.cntBlockTotal, h.allocated]
  · rw [← h.max]
    exact h.bounded

/-- The run in turn acts on answers that hold. -/
theorem possible_inTurn : ∃ s,
    Schedule.run (Sys.step smallConfig) (Sys.initial 2 zeroHeap) inTurn = some s ∧
      Schedule.StepsMeet (Sys.step smallConfig) (StillHolds smallConfig) (Sys.initial 2 zeroHeap)
        inTurn := by
  have hpushed : ∀ (s : Sys Bool) (t : Bool) (data : Message), s.call t = .pushing data →
      s.q.isFull smallConfig data.length = false → StillHolds smallConfig s (.lockedPush t) := by
    intro s t data hcall hroom other hother
    obtain rfl := Call.pushing.inj (hcall.symm.trans hother)
    exact hroom
  have hpulled : ∀ (s : Sys Bool) (t : Bool), s.q.isEmpty = false →
      StillHolds smallConfig s (.lockedPull t) := fun _ _ h => h
  exact ⟨_, Schedule.possible_cons _ trivial rfl <|
    Schedule.possible_cons _ (hpushed _ _ (body 1) rfl rfl) rfl <|
    Schedule.possible_cons _ trivial rfl <|
    Schedule.possible_cons _ (hpushed _ _ (body 2) rfl rfl) rfl <|
    Schedule.possible_cons _ trivial rfl <|
    Schedule.possible_cons _ (hpulled _ _ rfl) rfl <|
    Schedule.possible_cons _ trivial rfl <|
    Schedule.possible_cons _ (hpulled _ _ rfl) rfl ⟨rfl, trivial⟩⟩

/-- One message in each of two blocks, and no third one. -/
theorem memory_of_run_inTurn : ∃ s,
    Schedule.run (Sys.step smallConfig) (Sys.initial 2 zeroHeap) inTurn = some s ∧
      s.q.fresh ≤ 2 ∧ ∃ gone, s.q.destroy = some (0, 0, gone) ∧
        gone.Perm (List.range s.q.fresh) := by
  obtain ⟨s, hrun, hmeet⟩ := possible_inTurn
  obtain ⟨-, -, hbounded, hdestroy⟩ := memory_of_run hrun hmeet
  exact ⟨s, hrun, hbounded (by decide), hdestroy⟩

end Zrtools.UltraQ

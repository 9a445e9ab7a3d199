import Zrtools.Lib.Schedule
import Zrtools.UltraQ.Shape

/-!
# zrtools — threads on a block queue

Any number of threads call `push` and `pull` of an `UltraQ_MT`. Each section under
the mutex is one step: `push` asks `is_full` in one and writes in another, `pull`
asks `is_empty` in one and reads in another.

* `threadSafe_iff` — the queue is right in every state of a run exactly if each
  answer still held when it was acted upon;
* `not_threadSafe` — two threads that both ask before either acts.
-/

namespace Zrtools.UltraQ

/-- What a thread does: nothing, or a call whose first section is over. -/
inductive Call where
  | idle
  | pushing (data : Message)
  | pulling
  deriving DecidableEq

structure Sys (T : Type) where
  q : Queue
  call : T → Call

/-- A section under the mutex. -/
inductive Action (T : Type) where
  | push (t : T) (data : Message)
  | lockedPush (t : T)
  | pull (t : T)
  | lockedPull (t : T)

/-- A message that `push` accepted or that `pull` copied out. -/
inductive Event where
  | accepted (m : Message)
  | returned (m : Message)
  deriving DecidableEq

namespace Sys

variable {T : Type}

def initial (maxBlockNo : Nat) (heap : Nat → Block) : Sys T where
  q := Queue.new maxBlockNo heap
  call := fun _ => .idle

variable [DecidableEq T] (cfg : Config)

def setCall (s : Sys T) (t : T) (c : Call) : Sys T := { s with call := Function.update s.call t c }

/-- Once the loop of `pull` has followed `m_head` to null, there is no next step: the
program reads through it in the same section. -/
def step (s : Sys T) : Action T → Option (Sys T)
  | .push t data =>
    if s.q.head = none ∨ s.call t ≠ .idle then none
    -- `push` returns 0 when full and -1 for a size that no block holds
    else if s.q.isFull cfg data.length then some s
    else if cfg.bufferSize - headerSize < data.length then some s
    else some (s.setCall t (.pushing data))
  | .lockedPush t =>
    if s.q.head = none then none
    else match s.call t with
      | .pushing data => some { s.setCall t .idle with q := s.q.lockedPush cfg data }
      | .idle => none
      | .pulling => none
  | .pull t =>
    if s.q.head = none ∨ s.call t ≠ .idle then none
    else if s.q.isEmpty then some s
    else some (s.setCall t .pulling)
  | .lockedPull t =>
    if s.q.head = none ∨ s.call t ≠ .pulling then none
    else some { s.setCall t .idle with q := s.q.lockedPull.1 }

omit [DecidableEq T] in
/-- What a step tells the outside. -/
def events (s : Sys T) : Action T → List Event
  | .push _ _ => []
  | .lockedPush t =>
    match s.call t with
    | .pushing data => [.accepted data]
    | .idle => []
    | .pulling => []
  | .pull _ => []
  | .lockedPull _ => (s.q.lockedPull.2.map Event.returned).toList

end Sys

/-- The accepted messages, in the order of their locked parts. -/
def accepted (past : List Event) : List Message :=
  past.filterMap fun e => match e with
    | .accepted m => some m
    | .returned _ => none

/-- The messages that were copied out, in order. -/
def returned (past : List Event) : List Message :=
  past.filterMap fun e => match e with
    | .accepted _ => none
    | .returned m => some m

variable {T : Type} [DecidableEq T] {cfg : Config}

omit [DecidableEq T] in
/-- What the queue promises: the head is there; the messages come out as they went in,
each once and none left out, and a queue that calls itself empty has given all of them
away; and there are never more blocks than allowed. -/
structure Safe (s : Sys T) (past : List Event) : Prop where
  head : s.q.head ≠ none
  inOrder : returned past <+: accepted past
  all : s.q.isEmpty = true → returned past = accepted past
  next : s.q.isEmpty = false → ∃ m, s.q.lockedPull.2 = some m ∧
    returned past ++ [m] <+: accepted past
  blocks : 0 < s.q.maxBlockNo → s.q.usedBlockCnt ≤ s.q.maxBlockNo

omit [DecidableEq T] in
/-- The answer on which a locked part acts still holds. -/
def StillHolds (cfg : Config) (s : Sys T) : Action T → Prop
  | .push _ _ => True
  | .lockedPush t => ∀ data, s.call t = .pushing data → s.q.isFull cfg data.length = false
  | .pull _ => True
  | .lockedPull _ => s.q.isEmpty = false

-- ---------------------------------------------------------------------------
-- What each section does
-- ---------------------------------------------------------------------------

section Steps

variable {s s' : Sys T} {t : T} {data : Message}

theorem step_push (h : s.step cfg (.push t data) = some s') :
    s' = s ∨ data.length ≤ cfg.bufferSize - headerSize ∧ s' = s.setCall t (.pushing data) := by
  simp only [Sys.step] at h
  split at h
  · simp at h
  split at h
  · -- full
    exact Or.inl (Option.some.inj h).symm
  split at h
  · -- too long for a block
    exact Or.inl (Option.some.inj h).symm
  · rename_i hsize
    exact Or.inr ⟨Nat.le_of_not_lt hsize, (Option.some.inj h).symm⟩

theorem step_lockedPush (h : s.step cfg (.lockedPush t) = some s') :
    ∃ data, s.call t = .pushing data ∧
      s' = { s.setCall t .idle with q := s.q.lockedPush cfg data } := by
  simp only [Sys.step] at h
  split at h
  · simp at h
  split at h
  case h_1 data hcall => exact ⟨data, hcall, (Option.some.inj h).symm⟩
  case h_2 => simp at h
  case h_3 => simp at h

theorem step_pull (h : s.step cfg (.pull t) = some s') : s' = s ∨ s' = s.setCall t .pulling := by
  simp only [Sys.step] at h
  split at h
  · simp at h
  split at h
  · -- empty
    exact Or.inl (Option.some.inj h).symm
  · exact Or.inr (Option.some.inj h).symm

theorem step_lockedPull (h : s.step cfg (.lockedPull t) = some s') :
    s' = { s.setCall t .idle with q := s.q.lockedPull.1 } := by
  simp only [Sys.step] at h
  split at h
  · simp at h
  · exact (Option.some.inj h).symm

end Steps

-- ---------------------------------------------------------------------------
-- The invariant
-- ---------------------------------------------------------------------------

omit [DecidableEq T] in
/-- The accepted messages are those returned and those in the blocks. -/
structure Inv (cfg : Config) (s : Sys T) (past : List Event) : Prop where
  shape : ∃ blocks free, Shape cfg s.q blocks free ∧ Filled blocks ∧
    accepted past = returned past ++ messages blocks
  blocks : 0 < s.q.maxBlockNo → s.q.usedBlockCnt ≤ s.q.maxBlockNo
  size : ∀ t data, s.call t = .pushing data → data.length ≤ cfg.bufferSize - headerSize

omit [DecidableEq T] in
theorem Inv.safe {s : Sys T} {past : List Event} (h : Inv cfg s past) : Safe s past := by
  obtain ⟨blocks, free, hshape, hfilled, hmessages⟩ := h.shape
  have hempty := isEmpty_iff hshape hfilled
  constructor
  case head =>
    intro hnull
    obtain ⟨front, last, rfl⟩ := hshape.tail
    have hlinked := hshape.linked
    rw [hnull, Chain.linked_none] at hlinked
    simp at hlinked
  case inOrder =>
    rw [hmessages]
    exact List.prefix_append ..
  case all =>
    intro hyes
    rw [hmessages, hempty.mp hyes, List.append_nil]
  case next =>
    intro hno
    have hsome : messages blocks ≠ [] := by
      intro hnone
      rw [hempty.mpr hnone] at hno
      simp at hno
    obtain ⟨m, ms, hms⟩ := List.exists_cons_of_ne_nil hsome
    obtain ⟨-, -, -, -, -, hret, -⟩ := lockedPull_spec hshape hfilled hms
    refine ⟨m, hret, ms, ?_⟩
    rw [hmessages, hms, List.append_assoc, List.singleton_append]
  case blocks => exact h.blocks

omit [DecidableEq T] in
theorem inv_initial (cfg : Config) (maxBlockNo : Nat) (heap : Nat → Block) :
    Inv cfg (Sys.initial (T := T) maxBlockNo heap) [] where
  shape := by
    refine ⟨_, _, shape_new cfg maxBlockNo heap, ?_, rfl⟩
    intro p hp
    simp at hp
  blocks := by
    intro hpos
    exact hpos
  size := by
    intro t data h
    cases h

theorem accepted_append (a b : List Event) : accepted (a ++ b) = accepted a ++ accepted b :=
  List.filterMap_append ..

theorem returned_append (a b : List Event) : returned (a ++ b) = returned a ++ returned b :=
  List.filterMap_append ..

/-- A section that only asks. -/
theorem Inv.setCall {s : Sys T} {past : List Event} (h : Inv cfg s past) (t : T) {c : Call}
    (hsize : ∀ data, c = .pushing data → data.length ≤ cfg.bufferSize - headerSize) :
    Inv cfg (s.setCall t c) past where
  shape := h.shape
  blocks := h.blocks
  size := by
    intro u data hu
    rcases eq_or_ne u t with rfl | hne
    · unfold Sys.setCall at hu
      simp only [Function.update_self] at hu
      exact hsize data hu
    · unfold Sys.setCall at hu
      simp only [Function.update_of_ne hne] at hu
      exact h.size u data hu

/-- `push` takes a further block only below the maximum. -/
theorem Inv.lockedPush {s : Sys T} {past : List Event} (h : Inv cfg s past) {t : T}
    {data : Message} (hcall : s.call t = .pushing data)
    (hok : s.q.isFull cfg data.length = false) :
    Inv cfg { s.setCall t .idle with q := s.q.lockedPush cfg data }
      (past ++ [.accepted data]) := by
  obtain ⟨blocks, free, hshape, hfilled, hmessages⟩ := h.shape
  obtain ⟨blocks', free', hshape', hfilled', hmessages', hlen⟩ :=
    lockedPush_spec hshape hfilled (h.size t data hcall)
  constructor
  case shape =>
    refine ⟨blocks', free', hshape', hfilled', ?_⟩
    rw [accepted_append, returned_append, hmessages', hmessages]
    simp [accepted, returned]
  case blocks =>
    have hmax : (s.q.lockedPush cfg data).maxBlockNo = s.q.maxBlockNo :=
      Queue.maxBlockNo_lockedPush ..
    show 0 < (s.q.lockedPush cfg data).maxBlockNo → (s.q.lockedPush cfg data).usedBlockCnt ≤
      (s.q.lockedPush cfg data).maxBlockNo
    rw [hmax, hshape'.used, hlen, ← hshape.used]
    intro hpos
    have hold := h.blocks hpos
    cases hfull : s.q.isBlockFull cfg data.length with
    | false => exact hold
    | true =>
      -- the tail is full and the queue is not, so a block is left
      have hne : s.q.usedBlockCnt ≠ s.q.maxBlockNo := by
        intro heq
        rw [Queue.isFull, if_pos (by omega), hfull, heq] at hok
        simp at hok
      show s.q.usedBlockCnt + 1 ≤ s.q.maxBlockNo
      omega
  case size => exact (h.setCall t (by rintro data ⟨⟩)).size

theorem Inv.lockedPull {s : Sys T} {past : List Event} (h : Inv cfg s past) {t : T}
    (hok : s.q.isEmpty = false) :
    Inv cfg { s.setCall t .idle with q := s.q.lockedPull.1 }
      (past ++ (s.q.lockedPull.2.map Event.returned).toList) := by
  obtain ⟨blocks, free, hshape, hfilled, hmessages⟩ := h.shape
  have hsome : messages blocks ≠ [] := by
    intro hnone
    rw [(isEmpty_iff hshape hfilled).mpr hnone] at hok
    simp at hok
  obtain ⟨m, ms, hms⟩ := List.exists_cons_of_ne_nil hsome
  obtain ⟨blocks', free', hshape', hfilled', hmessages', hret, hlen, -⟩ :=
    lockedPull_spec hshape hfilled hms
  rw [hret]
  constructor
  case shape =>
    refine ⟨blocks', free', hshape', hfilled', ?_⟩
    rw [accepted_append, returned_append, hmessages', hmessages, hms]
    simp [accepted, returned]
  case blocks =>
    have hmax : s.q.lockedPull.1.maxBlockNo = s.q.maxBlockNo := Queue.maxBlockNo_lockedPull ..
    show 0 < s.q.lockedPull.1.maxBlockNo → s.q.lockedPull.1.usedBlockCnt ≤
      s.q.lockedPull.1.maxBlockNo
    rw [hmax, hshape'.used]
    intro hpos
    have hold := h.blocks hpos
    rw [hshape.used] at hold
    exact Nat.le_trans hlen hold
  case size => exact (h.setCall t (by rintro data ⟨⟩)).size

/-- Every section whose answer still holds keeps the invariant. -/
theorem Inv.step {s s' : Sys T} {past : List Event} {a : Action T} (h : Inv cfg s past)
    (hok : StillHolds cfg s a) (hstep : s.step cfg a = some s') :
    Inv cfg s' (past ++ s.events a) := by
  cases a with
  | push t data =>
    rw [Sys.events, List.append_nil]
    obtain rfl | ⟨hsize, rfl⟩ := step_push hstep
    · exact h
    · refine h.setCall t ?_
      rintro _ ⟨⟩
      exact hsize
  | lockedPush t =>
    obtain ⟨data, hcall, rfl⟩ := step_lockedPush hstep
    rw [Sys.events, hcall]
    exact h.lockedPush hcall (hok data hcall)
  | pull t =>
    rw [Sys.events, List.append_nil]
    obtain rfl | rfl := step_pull hstep
    · exact h
    · exact h.setCall t (by rintro data ⟨⟩)
  | lockedPull t =>
    obtain rfl := step_lockedPull hstep
    exact h.lockedPull hok

-- ---------------------------------------------------------------------------
-- Stale answers
-- ---------------------------------------------------------------------------

/-- A section whose answer has gone stale breaks the queue. -/
theorem Inv.unsafe_of_stale {s s' : Sys T} {past past' : List Event} {a : Action T}
    (h : Inv cfg s past) (hstale : ¬StillHolds cfg s a) (hstep : s.step cfg a = some s') :
    ¬Safe s' past' := by
  obtain ⟨blocks, free, hshape, hfilled, -⟩ := h.shape
  cases a with
  | push t data => exact absurd trivial hstale
  | pull t => exact absurd trivial hstale
  | lockedPush t =>
    -- one block more than the maximum
    obtain ⟨data, hcall, hfull⟩ :
        ∃ data, s.call t = .pushing data ∧ s.q.isFull cfg data.length = true := by
      simpa [StillHolds] using hstale
    obtain ⟨data', hcall', rfl⟩ := step_lockedPush hstep
    obtain rfl : data = data' := Call.pushing.inj (hcall.symm.trans hcall')
    obtain ⟨hpos, heq, hblock⟩ : 0 < s.q.maxBlockNo ∧ s.q.usedBlockCnt = s.q.maxBlockNo ∧
        s.q.isBlockFull cfg data.length = true := by
      unfold Queue.isFull at hfull
      split at hfull
      · simp only [Bool.and_eq_true, beq_iff_eq] at hfull
        exact ⟨by omega, hfull⟩
      · simp at hfull
    obtain ⟨blocks', free', hshape', -, -, hlen⟩ :=
      lockedPush_spec hshape hfilled (h.size t data hcall)
    rw [hblock, if_pos rfl] at hlen
    intro hsafe
    have hle : 0 < (s.q.lockedPush cfg data).maxBlockNo →
        (s.q.lockedPush cfg data).usedBlockCnt ≤ (s.q.lockedPush cfg data).maxBlockNo :=
      hsafe.blocks
    rw [Queue.maxBlockNo_lockedPush, hshape'.used, hlen, ← hshape.used] at hle
    have := hle hpos
    omega
  | lockedPull t =>
    -- no message is left, and the loop runs into null
    have hyes : s.q.isEmpty = true := by simpa [StillHolds] using hstale
    obtain rfl := step_lockedPull hstep
    intro hsafe
    exact hsafe.head (lockedPull_of_empty hshape hfilled ((isEmpty_iff hshape hfilled).mp hyes))

/-- **Thread safety.** A run from a new queue, with any number of threads, is safe all
along exactly if every answer of `is_full` and `is_empty` still held in the state in
which the locked part acted on it. -/
theorem threadSafe_iff {maxBlockNo : Nat} {heap : Nat → Block} {acts : List (Action T)}
    {s : Sys T}
    (hrun : Schedule.run (Sys.step cfg) (Sys.initial maxBlockNo heap) acts = some s) :
    (∀ front rest t, acts = front ++ rest →
      Schedule.run (Sys.step cfg) (Sys.initial maxBlockNo heap) front = some t →
      Safe t (Schedule.outputs (Sys.step cfg) Sys.events (Sys.initial maxBlockNo heap) front)) ↔
    Schedule.StepsMeet (Sys.step cfg) (StillHolds cfg) (Sys.initial maxBlockNo heap) acts :=
  Schedule.forall_prefix_iff_stepsMeet (Sys.step cfg) (Inv cfg) Safe
    (fun _ _ hinv => hinv.safe)
    (fun _ _ _ _ hinv hok hstep => hinv.step hok hstep)
    (fun _ _ _ _ hinv hstale hstep => hinv.unsafe_of_stale hstale hstep)
    (inv_initial cfg maxBlockNo heap) hrun

-- ---------------------------------------------------------------------------
-- Runs of two threads
-- ---------------------------------------------------------------------------

/-- Blocks with zeros in them. -/
def zeroHeap : Nat → Block := fun _ =>
  { next := none, leftIdx := 0, rightIdx := 0, buf := fun _ => 0 }

/-- A small `ULTRAQ_BLOCK_BUFFER_SIZE`. -/
def smallConfig : Config := { bufferSize := 32, header_le := by decide, lt := by decide }

def body (b : UInt8) : Message := List.replicate 16 b

/-- One thread pushes two messages, in two blocks; the other one pulls them. -/
def inTurn : List (Action Bool) :=
  [.push false (body 1), .lockedPush false, .push false (body 2), .lockedPush false,
    .pull true, .lockedPull true, .pull true, .lockedPull true]

theorem threadSafe_inTurn : ∃ s,
    Schedule.run (Sys.step smallConfig) (Sys.initial 2 zeroHeap) inTurn = some s ∧
      ((∀ front rest t, inTurn = front ++ rest →
        Schedule.run (Sys.step smallConfig) (Sys.initial 2 zeroHeap) front = some t →
        Safe t (Schedule.outputs (Sys.step smallConfig) Sys.events (Sys.initial 2 zeroHeap)
          front)) ↔
        Schedule.StepsMeet (Sys.step smallConfig) (StillHolds smallConfig)
          (Sys.initial 2 zeroHeap) inTurn) :=
  ⟨_, rfl, threadSafe_iff rfl⟩

/-- Both threads see the one message, and both go on to take it. -/
def twoPulls : List (Action Bool) :=
  [.push false (body 1), .lockedPush false, .pull false, .pull true, .lockedPull false,
    .lockedPull true]

/-- Both threads see one block of two, and both add one. -/
def twoPushes : List (Action Bool) :=
  [.push false (body 1), .lockedPush false, .push false (body 2), .push true (body 3),
    .lockedPush false, .lockedPush true]

/-- Two pulls run `m_head` into null, and two pushes exceed `m_max_block_no`. -/
theorem not_threadSafe :
    (∃ s, Schedule.run (Sys.step smallConfig) (Sys.initial 2 zeroHeap) twoPulls = some s ∧
      s.q.head = none) ∧
    ∃ s, Schedule.run (Sys.step smallConfig) (Sys.initial 2 zeroHeap) twoPushes = some s ∧
      s.q.maxBlockNo = 2 ∧ s.q.usedBlockCnt = 3 :=
  ⟨⟨_, rfl, rfl⟩, _, rfl, rfl, rfl⟩

end Zrtools.UltraQ

import Zrtools.Lib.Schedule
import Zrtools.Lib.SharedMemory

/-!
# zrtools — the double-buffered checkpoint (`zrt_shm_checkpoint.h`)

A writer stores states into two slots in turn, each guarded by a sequence number that
is odd while the slot is being written, and then makes the new slot the active one.
The writer may crash between any two memory accesses of `Write` and be restarted on
the same segment. Nobody resets the sequence number of the slot it was writing.

* `recoverable_of_meets` — `Read` gives the last state, as long as no `Write` switches
  to a slot whose number is odd or zero;
* `not_recoverable_after_crash` — after a crash between the two stores to `seq`, the
  next `Write` leaves an odd number behind, and `Read` falls back to the older state.
-/

namespace Zrtools.ShmCheckpoint

open ByteMemory SharedMemory

-- ---------------------------------------------------------------------------
-- The code
-- ---------------------------------------------------------------------------

/-- The words of the segment; the `data` of slot `i` is the byte region `i`. -/
inductive Var where
  | magic
  | active
  | seq (slot : UInt64)
  deriving DecidableEq

abbrev Segment := Shared Var UInt64

/-- `MAGIC_NUMBER`. -/
abbrev magicNumber : UInt64 := 0x43484B50

/-- A trivially copyable `State`: its bytes. -/
abbrev State (size : Nat) := { l : List UInt8 // l.length = size }

variable {size : Nat}

/-- `Reset()`; `State{}` stands for all zero bytes. -/
def reset (s : Segment) : Segment where
  word := Function.update (Function.update (Function.update (Function.update s.word
    .magic magicNumber) .active 0) (.seq 0) 0) (.seq 1) 0
  byte := Function.update (Function.update s.byte 0 fun _ => 0) 1 fun _ => 0

/-- `Initialize()` on a segment that is there already. -/
def initializeSegment (s : Segment) : Segment := if s.word .magic ≠ magicNumber then reset s else s

/-- `Write(state)`. -/
def write (x : State size) : Prog Var UInt64 Unit := do
  let currentActive ← Prog.load .active
  let writeSlot := 1 - currentActive
  let oldSeq ← Prog.load (.seq writeSlot)
  Prog.store (.seq writeSlot) (oldSeq + 1)
  Prog.storeBytes writeSlot 0 x.1
  Prog.store (.seq writeSlot) (oldSeq + 2)
  Prog.store .active writeSlot

/-- The loop of `TryReadSlot`. -/
def tryReadSlot (size : Nat) (slot : UInt64) : Nat → Prog Var UInt64 (Option (List UInt8))
  | 0 => pure none
  | retries + 1 => do
    let seq1 ← Prog.load (.seq slot)
    if seq1 &&& 1 = 1 then tryReadSlot size slot retries
    else if seq1 = 0 then pure none
    else
      let out ← Prog.loadBytes slot 0 size
      let seq2 ← Prog.load (.seq slot)
      if seq1 = seq2 then pure (some out) else tryReadSlot size slot retries

/-- `Read(out)`. -/
def read (size : Nat) : Prog Var UInt64 (Option (List UInt8)) := do
  let activeSlot ← Prog.load .active
  let first ← tryReadSlot size activeSlot 3
  match first with
  | some out => pure (some out)
  | none => tryReadSlot size (1 - activeSlot) 3

-- ---------------------------------------------------------------------------
-- Runs
-- ---------------------------------------------------------------------------

inductive Writer (size : Nat) where
  | idle
  | writing (x : State size) (code : Prog Var UInt64 Unit)
  | down

structure Sys (size : Nat) where
  segment : Segment
  writer : Writer size

inductive Action (size : Nat) where
  | callWrite (x : State size)
  | access
  | crash
  | restart

/-- A `Write` that returned, or one that a crash cut off. -/
inductive Event (size : Nat) where
  | returned (x : State size)
  | crashed (x : State size)

namespace Sys

/-- A segment that was just created. -/
def initial (bytes : Segment) : Sys size where
  segment := reset bytes
  writer := .idle

/-- `Write` returns with its last access. -/
def step (s : Sys size) : Action size → Option (Sys size)
  | .callWrite x =>
    match s.writer with
    | .idle => some { s with writer := .writing x (write x) }
    | .writing _ _ => none
    | .down => none
  | .access =>
    match s.writer with
    | .idle => none
    | .writing x code => (code.step s.segment).map fun p =>
      { segment := p.2, writer := if p.1.result = none then .writing x p.1 else .idle }
    | .down => none
  | .crash => some { s with writer := .down }
  | .restart =>
    match s.writer with
    | .idle => none
    | .writing _ _ => none
    | .down => some { segment := initializeSegment s.segment, writer := .idle }

def events (s : Sys size) : Action size → List (Event size)
  | .callWrite _ => []
  | .access =>
    match s.writer with
    | .idle => []
    | .writing x code =>
      match code.step s.segment with
      | some p => if p.1.result = none then [] else [.returned x]
      | none => []
    | .down => []
  | .crash =>
    match s.writer with
    | .idle => []
    | .writing x _ => [.crashed x]
    | .down => []
  | .restart => []

end Sys

/-- What `Read` may give: the state of the last `Write` that returned, or of a crashed
one after it. Before any has returned nothing is promised. -/
def candidates (past : List (Event size)) : Option (List (State size)) :=
  past.foldl (fun c e => match e with
    | .returned x => some [x]
    | .crashed x => c.map (x :: ·)) none

def Writer.InProgress : Writer size → Prop
  | .idle => False
  | .writing _ _ => True
  | .down => False

/-- `Read` recovers the last state. -/
def Recoverable (s : Sys size) (past : List (Event size)) : Prop :=
  ¬s.writer.InProgress → ∀ l, candidates past = some l →
    ∃ x ∈ l, ((read size).eval s.segment).1 = some x.1

/-- A number that a reader takes for a finished `Write`. -/
def Readable (seq : UInt64) : Prop := seq &&& 1 ≠ 1 ∧ seq ≠ 0
  deriving Decidable

/-- Where `Write` makes a slot the active one, the slot's number is even and not zero,
that is, `Write` found an even number other than `2^64 - 2` in it. -/
def SwitchOk (s : Segment) : Access Var UInt64 → Prop
  | .store .active slot => Readable (s.word (.seq slot))
  | _ => True

def StepOk (s : Sys size) : Action size → Prop
  | .access =>
    match s.writer with
    | .idle => True
    | .writing _ code => ∀ o ∈ code.next, SwitchOk s.segment o
    | .down => True
  | _ => True

instance decidableSwitchOk (s : Segment) : (o : Access Var UInt64) → Decidable (SwitchOk s o)
  | .store .active slot => inferInstanceAs (Decidable (Readable (s.word (.seq slot))))
  | .store .magic _ => isTrue trivial
  | .store (.seq _) _ => isTrue trivial
  | .load _ => isTrue trivial
  | .fetchAdd _ _ => isTrue trivial
  | .loadByte _ _ => isTrue trivial
  | .storeByte _ _ _ => isTrue trivial

instance decidableStepOk : (s : Sys size) → (a : Action size) → Decidable (StepOk s a)
  | ⟨_, .idle⟩, .access => isTrue trivial
  | ⟨segment, .writing _ code⟩, .access =>
    inferInstanceAs (Decidable (∀ o ∈ code.next, SwitchOk segment o))
  | ⟨_, .down⟩, .access => isTrue trivial
  | _, .callWrite _ => isTrue trivial
  | _, .crash => isTrue trivial
  | _, .restart => isTrue trivial

-- ---------------------------------------------------------------------------
-- The invariant
-- ---------------------------------------------------------------------------

/-- The segment is in use and its active slot is one of the two. -/
structure Valid (s : Segment) : Prop where
  magic : s.word .magic = magicNumber
  active : s.word .active = 0 ∨ s.word .active = 1

/-- The active slot holds the whole of `x`. -/
structure Holds (s : Segment) (x : State size) : Prop where
  seq : Readable (s.word (.seq (s.word .active)))
  data : slice (s.byte (s.word .active)) 0 size = x.1

/-- The active slot holds one of the states. -/
def Current (s : Segment) (l : Option (List (State size))) : Prop :=
  ∀ states, l = some states → ∃ x ∈ states, Holds s x

theorem other_ne {a : UInt64} (h : a = 0 ∨ a = 1) : a ≠ 1 - a := by
  rcases h with rfl | rfl
  · decide
  · decide

theorem other_valid {a : UInt64} (h : a = 0 ∨ a = 1) : 1 - a = 0 ∨ 1 - a = 1 := by
  rcases h with rfl | rfl
  · decide
  · decide

/-- Two segments that agree in the active slot. -/
theorem Holds.congr {s s' : Segment} {x : State size} (h : Holds s x)
    (hactive : s'.word .active = s.word .active)
    (hseq : s'.word (.seq (s.word .active)) = s.word (.seq (s.word .active)))
    (hdata : s'.byte (s.word .active) = s.byte (s.word .active)) : Holds s' x where
  seq := by
    rw [hactive, hseq]
    exact h.seq
  data := by
    rw [hactive, hdata]
    exact h.data

theorem eval_tryReadSlot {s : Segment} {slot : UInt64} (h : Readable (s.word (.seq slot))) :
    (tryReadSlot size slot 3).eval s = (some (slice (s.byte slot) 0 size), s) := by
  unfold tryReadSlot
  rw [Prog.eval_bind, Prog.eval_load, if_neg h.1, if_neg h.2, Prog.eval_bind,
    Prog.eval_loadBytes, Prog.eval_bind, Prog.eval_load, if_pos rfl]
  rfl

theorem Holds.eval_read {s : Segment} {x : State size} (h : Holds s x) :
    ((read size).eval s).1 = some x.1 := by
  unfold read
  rw [Prog.eval_bind, Prog.eval_load, Prog.eval_bind, eval_tryReadSlot h.seq, h.data]
  rfl

-- ---------------------------------------------------------------------------
-- Write
-- ---------------------------------------------------------------------------

/-- Nobody else writes, and a crash may come before every access: until the last one the
active slot holds one of the states `l`. -/
def contract (l : Option (List (State size))) : Contract Var UInt64 Unit where
  rely w w' := w' = w
  ok := SwitchOk
  guar _ _ := True
  during w := Valid w.1 ∧ Current w.1 l

/-- While slot `1 - a` is being written, the active slot `a` stays as it is. -/
structure Writing (l : Option (List (State size))) (a : UInt64) (s : Segment) : Prop where
  valid : Valid s
  active : s.word .active = a
  current : Current s l

/-- The slot that is written is the other one. -/
theorem Writing.ne {l : Option (List (State size))} {a : UInt64} {s : Segment}
    (h : Writing l a s) : a ≠ 1 - a := by
  rw [← h.active]
  exact other_ne h.valid.active

theorem Writing.setSeq {l : Option (List (State size))} {a : UInt64} {s : Segment}
    (h : Writing l a s) (n : UInt64) : Writing l a (s.setWord (.seq (1 - a)) n) := by
  have hne := h.ne
  have hkeep : ∀ v, v ≠ Var.seq (1 - a) → (s.setWord (.seq (1 - a)) n).word v = s.word v :=
    fun v hv => Shared.word_setWord_of_ne s hv n
  constructor
  case valid => exact ⟨by rw [hkeep _ (by simp)]; exact h.valid.magic,
    by rw [hkeep _ (by simp)]; exact h.valid.active⟩
  case active =>
    rw [hkeep _ (by simp)]
    exact h.active
  case current =>
    intro states hl
    obtain ⟨x, hx, hold⟩ := h.current states hl
    refine ⟨x, hx, hold.congr (hkeep _ (by simp)) (hkeep _ ?_) rfl⟩
    rw [h.active]
    simpa using hne

theorem Writing.setByte {l : Option (List (State size))} {a : UInt64} {s : Segment}
    (h : Writing l a s) (off : Nat) (b : UInt8) : Writing l a (s.setByte (1 - a) off b) := by
  have hne := h.ne
  constructor
  case valid => exact ⟨h.valid.magic, h.valid.active⟩
  case active => exact h.active
  case current =>
    intro states hl
    obtain ⟨x, hx, hold⟩ := h.current states hl
    refine ⟨x, hx, hold.congr rfl rfl ?_⟩
    rw [h.active]
    exact Shared.byte_setByte_of_ne s hne off b

/-- The switch to a slot that has its number and its bytes. -/
theorem Writing.switch {l : Option (List (State size))} {a : UInt64} {s : Segment}
    {x : State size} (h : Writing l a s) (hseq : Readable (s.word (.seq (1 - a))))
    (hdata : slice (s.byte (1 - a)) 0 size = x.1) :
    Valid (s.setWord .active (1 - a)) ∧ Holds (s.setWord .active (1 - a)) x := by
  have hnow : (s.setWord .active (1 - a)).word .active = 1 - a := Shared.word_setWord_self ..
  have hkeep : ∀ v, v ≠ Var.active → (s.setWord .active (1 - a)).word v = s.word v :=
    fun v hv => Shared.word_setWord_of_ne s hv (1 - a)
  have hactive : a = 0 ∨ a = 1 := by
    rw [← h.active]
    exact h.valid.active
  refine ⟨?_, ?_⟩
  · constructor
    case magic =>
      rw [hkeep _ (by simp)]
      exact h.valid.magic
    case active =>
      rw [hnow]
      exact other_valid hactive
  · constructor
    case seq =>
      rw [hnow, hkeep _ (by simp)]
      exact hseq
    case data =>
      rw [hnow]
      exact hdata

/-- **`Write`**, from a segment whose active slot holds one of the states `l`. -/
theorem safe_write {l : Option (List (State size))} {s : Segment} (x : State size)
    (hvalid : Valid s) (hcurrent : Current s l) :
    Safe (contract l) (fun _ w => Valid w.1 ∧ Holds w.1 x) (write x) (s, ()) := by
  have hwriting : Writing l (s.word .active) s := ⟨hvalid, rfl, hcurrent⟩
  generalize ha : s.word .active = a at hwriting
  have hduring : ∀ t, Writing l a t → (contract l).during (t, ()) :=
    fun t ht => ⟨ht.valid, ht.current⟩
  unfold write
  -- the two loads
  refine ⟨hduring s hwriting, ?_⟩
  rintro _ rfl -
  refine ⟨(), trivial, hduring s hwriting, ?_⟩
  rintro _ rfl -
  refine ⟨(), trivial, ?_⟩
  simp only [Access.exec, ha]
  generalize s.word (.seq (1 - a)) = oldSeq
  -- the number becomes odd, if it was even
  refine ⟨hduring s hwriting, ?_⟩
  rintro _ rfl -
  have hodd := hwriting.setSeq (oldSeq + 1)
  refine ⟨(), trivial, ?_⟩
  -- the bytes
  show Safe _ _ (Prog.storeBytes (1 - a) 0 x.1 >>= fun _ => _) _
  refine Safe.bind (fun _ w => Writing l a w.1 ∧
    w.1.byte (1 - a) = ByteMemory.write (s.byte (1 - a)) 0 x.1) ?_ ?_
  · refine safe_storeBytes (A := fun m w => Writing l a w.1 ∧ w.1.byte (1 - a) = m) ?_ ?_
      ⟨hodd, rfl⟩
    · intro m
      constructor
      case rely =>
        rintro w _ hw rfl
        exact hw
      case during => exact fun w hw => hduring w.1 hw.1
      case guar => exact fun _ _ => trivial
    · rintro m w i b - - ⟨hw, rfl⟩
      exact ⟨(), trivial, hw.setByte i b, Shared.byte_setByte_self ..⟩
  · rintro - ⟨t, ⟨⟩⟩ ⟨hbytes, hdata⟩
    -- the number once more, and the switch
    refine ⟨hduring t hbytes, ?_⟩
    rintro _ rfl -
    have heven := hbytes.setSeq (oldSeq + 2)
    refine ⟨(), trivial, hduring _ heven, ?_⟩
    rintro _ rfl hswitch
    refine ⟨(), trivial, heven.switch hswitch ?_⟩
    show slice (t.byte (1 - a)) 0 size = x.1
    rw [hdata]
    exact slice_write_of_length (s.byte (1 - a)) 0 x.2

-- ---------------------------------------------------------------------------
-- Runs
-- ---------------------------------------------------------------------------

/-- Between two accesses, and after a crash. -/
structure Inv (s : Sys size) (past : List (Event size)) : Prop where
  valid : Valid s.segment
  current : Current s.segment (candidates past)
  write : ∀ x code, s.writer = .writing x code →
    Safe (contract (candidates past)) (fun _ w => Valid w.1 ∧ Holds w.1 x) code (s.segment, ())

theorem Inv.recoverable {s : Sys size} {past : List (Event size)} (h : Inv s past) :
    Recoverable s past := by
  intro _ l hl
  obtain ⟨x, hx, hold⟩ := h.current l hl
  exact ⟨x, hx, hold.eval_read⟩

theorem valid_reset (bytes : Segment) : Valid (reset bytes) where
  magic := by simp [reset]
  active := by simp [reset]

theorem inv_initial (bytes : Segment) : Inv (Sys.initial bytes : Sys size) [] where
  valid := valid_reset bytes
  current := by
    intro l hl
    cases hl
  write := by
    intro x code h
    cases h

theorem candidates_returned (past : List (Event size)) (x : State size) :
    candidates (past ++ [.returned x]) = some [x] := by
  simp [candidates, List.foldl_append]

theorem candidates_crashed (past : List (Event size)) (x : State size) :
    candidates (past ++ [.crashed x]) = (candidates past).map (x :: ·) := by
  simp [candidates, List.foldl_append]

/-- A crash only adds to what `Read` may give. -/
theorem Current.crashed {s : Segment} {past : List (Event size)}
    (h : Current s (candidates past)) (x : State size) :
    Current s (candidates (past ++ [.crashed x])) := by
  rw [candidates_crashed]
  intro states hstates
  obtain ⟨l, hl, rfl⟩ := Option.map_eq_some_iff.mp hstates
  obtain ⟨y, hy, hold⟩ := h l hl
  exact ⟨y, List.mem_cons_of_mem _ hy, hold⟩

/-- An access of `Write` but a bad switch; with the last one the state is there. -/
theorem Inv.access {segment : Segment} {x : State size} {code : Prog Var UInt64 Unit}
    {s' : Sys size} {past : List (Event size)} (h : Inv ⟨segment, .writing x code⟩ past)
    (hok : StepOk ⟨segment, .writing x code⟩ (.access : Action size))
    (hstep : Sys.step ⟨segment, .writing x code⟩ .access = some s') :
    Inv s' (past ++ Sys.events ⟨segment, .writing x code⟩ .access) := by
  obtain ⟨p, hp, rfl⟩ := Option.map_eq_some_iff.mp hstep
  obtain ⟨⟨⟩, -, hrest⟩ := (h.write x code rfl).step rfl hok hp
  have hevents : Sys.events ⟨segment, .writing x code⟩ .access =
      if p.1.result = none then [] else [.returned x] := by
    simp only [Sys.events]
    rw [hp]
  rw [hevents]
  cases hcode : p.1 with
  | access o k =>
    -- still writing
    rw [hcode] at hrest
    simp only [Prog.result, if_true, List.append_nil]
    refine ⟨hrest.1.1, hrest.1.2, ?_⟩
    rintro _ _ ⟨⟩
    exact hrest
  | ret r =>
    rw [hcode] at hrest
    simp only [Prog.result, reduceCtorEq, if_false]
    refine ⟨hrest.1, ?_, by rintro _ _ ⟨⟩⟩
    rw [candidates_returned]
    rintro _ ⟨⟩
    exact ⟨x, List.mem_cons_self .., hrest.2⟩

/-- A restart finds the magic number, so `Initialize` keeps the contents. -/
theorem Valid.initializeSegment_eq {s : Segment} (h : Valid s) : initializeSegment s = s :=
  if_neg (fun hne => hne h.magic)

/-- Every step but a bad switch keeps the invariant. -/
theorem Inv.step {s s' : Sys size} {past : List (Event size)} {a : Action size} (h : Inv s past)
    (hok : StepOk s a) (hstep : s.step a = some s') : Inv s' (past ++ s.events a) := by
  obtain ⟨segment, writer⟩ := s
  cases a with
  | callWrite x =>
    rw [Sys.events, List.append_nil]
    cases writer with
    | idle =>
      obtain rfl := Option.some.inj hstep
      refine ⟨h.valid, h.current, ?_⟩
      rintro _ _ ⟨⟩
      exact safe_write x h.valid h.current
    | writing y code => simp [Sys.step] at hstep
    | down => simp [Sys.step] at hstep
  | access =>
    cases writer with
    | idle => simp [Sys.step] at hstep
    | writing x code => exact h.access hok hstep
    | down => simp [Sys.step] at hstep
  | crash =>
    obtain rfl := Option.some.inj hstep
    refine ⟨h.valid, ?_, by rintro _ _ ⟨⟩⟩
    cases writer with
    | idle =>
      rw [Sys.events, List.append_nil]
      exact h.current
    | writing x code => exact h.current.crashed x
    | down =>
      rw [Sys.events, List.append_nil]
      exact h.current
  | restart =>
    rw [Sys.events, List.append_nil]
    cases writer with
    | idle => simp [Sys.step] at hstep
    | writing x code => simp [Sys.step] at hstep
    | down =>
      simp only [Sys.step, h.valid.initializeSegment_eq] at hstep
      obtain rfl := Option.some.inj hstep
      exact ⟨h.valid, h.current, by rintro _ _ ⟨⟩⟩

/-- **Crash recovery.** In every run whose `Write`s only ever switch to a slot with an
even number other than zero, `Read` recovers the last state whenever no `Write` is in
progress. -/
theorem recoverable_of_meets {bytes : Segment} {acts : List (Action size)} {s : Sys size}
    (hok : Schedule.StepsMeet Sys.step StepOk (Sys.initial bytes) acts)
    (hrun : Schedule.run Sys.step (Sys.initial bytes) acts = some s) :
    Recoverable s (Schedule.outputs Sys.step Sys.events (Sys.initial bytes) acts) :=
  (Schedule.run_invariant_outputs Sys.step Inv
    (fun _ _ _ _ hinv hmeet hstep => hinv.step hmeet hstep)
    (inv_initial bytes) hok hrun).recoverable

-- ---------------------------------------------------------------------------
-- One-byte states
-- ---------------------------------------------------------------------------

/-- Memory with zeros in it. -/
def zeros : Segment := { word := fun _ => 0, byte := fun _ _ => 0 }

def oneByte (b : UInt8) : State 1 := ⟨[b], rfl⟩

/-- `Write` makes six accesses here. -/
def wholeWrite (b : UInt8) : List (Action 1) :=
  .callWrite (oneByte b) :: List.replicate 6 .access

/-- Two states, a crash before the switch, and one more. -/
def crashBeforeSwitch : List (Action 1) :=
  wholeWrite 1 ++ wholeWrite 2 ++ .callWrite (oneByte 3) :: List.replicate 5 .access ++
    [.crash, .restart] ++ wholeWrite 4

/-- One state, a crash between the two stores to `seq`, and another state. -/
def crashBetweenStores : List (Action 1) :=
  wholeWrite 1 ++ [.callWrite (oneByte 2), .access, .access, .access, .crash, .restart] ++
    wholeWrite 3

/-- `Read` gives the fourth state after that. -/
theorem recoverable_crashBeforeSwitch :
    ∃ s, Schedule.run Sys.step (Sys.initial zeros) crashBeforeSwitch = some s ∧
      Recoverable s
        (Schedule.outputs Sys.step Sys.events (Sys.initial zeros) crashBeforeSwitch) :=
  ⟨_, rfl, recoverable_of_meets (by decide +kernel) rfl⟩

/-- `Read` gives the first state although the third was written after it. -/
theorem not_recoverable_after_crash :
    ∃ s, Schedule.run Sys.step (Sys.initial zeros) crashBetweenStores = some s ∧
      ¬s.writer.InProgress ∧
      candidates (Schedule.outputs Sys.step Sys.events (Sys.initial zeros) crashBetweenStores) =
        some [oneByte 3] ∧
      ((read 1).eval s.segment).1 = some [1] :=
  ⟨_, rfl, fun hbusy => hbusy, rfl, rfl⟩

end Zrtools.ShmCheckpoint

import Zrtools.Lib.AccessLog
import Zrtools.ShmCheckpoint

/-!
# zrtools — what `Read` leaves in its output (`zrt_shm_checkpoint.h`)

`TryReadSlot` copies a slot straight into `out` and only then looks whether the slot's number
is still the one it was. So `out` is not what it was before a `Read` that returns false, if one
of its copies was overtaken by a `Write`. Here `out` is part of the code, one writer and one
reader move in any order, and a log takes down the numbers a `Read` loads and the stores to
numbers between them.

* `read_eq` — without `out`, this is the `Read` of the other modules;
* `failedReads_keep_out` — a `Read` that returns false leaves `out` as it was, if none of its
  copies was overtaken;
* `failedRead_overtaken` — a run in which two copies are, and `out` is changed.
-/

namespace Zrtools.ShmCheckpoint.Output

open ByteMemory SharedMemory

variable {size : Nat}

-- ---------------------------------------------------------------------------
-- The code
-- ---------------------------------------------------------------------------

/-- `TryReadSlot(slot, out)`, with what is in `out` afterwards. -/
def tryReadSlot (size : Nat) (slot : UInt64) :
    Nat → List UInt8 → Prog Var UInt64 (Bool × List UInt8)
  | 0, out => pure (false, out)
  | retries + 1, out => do
    let seq1 ← Prog.load (.seq slot)
    if seq1 &&& 1 = 1 then tryReadSlot size slot retries out
    else if seq1 = 0 then pure (false, out)
    else
      let out ← Prog.loadBytes slot 0 size
      let seq2 ← Prog.load (.seq slot)
      if seq1 = seq2 then pure (true, out) else tryReadSlot size slot retries out

/-- `Read(out)`, with what is in `out` afterwards. -/
def read (size : Nat) (out : List UInt8) : Prog Var UInt64 (Bool × List UInt8) := do
  let activeSlot ← Prog.load .active
  let first ← tryReadSlot size activeSlot 3 out
  if first.1 then pure first else tryReadSlot size (1 - activeSlot) 3 first.2

/-- What the caller may use. -/
def given (r : Bool × List UInt8) : Option (List UInt8) := if r.1 then some r.2 else none

theorem bind_assoc {α β γ : Type} (p : Prog Var UInt64 α) (f : α → Prog Var UInt64 β)
    (g : β → Prog Var UInt64 γ) : (p >>= f) >>= g = p >>= fun a => f a >>= g := by
  induction p with
  | ret a => rfl
  | access o k ih => exact congrArg (Prog.access o) (funext fun r => ih r)

theorem tryReadSlot_eq (slot : UInt64) (retries : Nat) (out : List UInt8) :
    ShmCheckpoint.tryReadSlot size slot retries =
      (tryReadSlot size slot retries out >>= fun r => pure (given r)) := by
  induction retries generalizing out with
  | zero => rfl
  | succ retries ih =>
    unfold ShmCheckpoint.tryReadSlot tryReadSlot
    rw [bind_assoc]
    congr 1
    funext seq1
    split_ifs with hodd hzero
    · exact ih out
    · rfl
    · rw [bind_assoc]
      congr 1
      funext copied
      rw [bind_assoc]
      congr 1
      funext seq2
      split_ifs with hsame
      · rfl
      · exact ih copied

/-- The `Read` of the other modules, whatever was in `out`. -/
theorem read_eq (out : List UInt8) :
    ShmCheckpoint.read size = (read size out >>= fun r => pure (given r)) := by
  unfold ShmCheckpoint.read read
  rw [bind_assoc]
  congr 1
  funext activeSlot
  rw [bind_assoc, tryReadSlot_eq activeSlot 3 out, bind_assoc]
  congr 1
  funext first
  obtain ⟨ok, copied⟩ := first
  cases ok with
  | true => rfl
  | false => exact tryReadSlot_eq (1 - activeSlot) 3 copied

-- ---------------------------------------------------------------------------
-- The log
-- ---------------------------------------------------------------------------

/-- A `Read` loaded the number of a slot, or somebody stored to it. -/
inductive Event where
  | loaded (slot seq : UInt64)
  | stored (slot : UInt64)
  deriving DecidableEq

/-- What is noted of an access of a `Read`. -/
def noteRead : (o : Access Var UInt64) → o.Res → List Event
  | .load (.seq slot), seq => [.loaded slot seq]
  | .load .magic, _ => []
  | .load .active, _ => []
  | .store _ _, _ => []
  | .fetchAdd _ _, _ => []
  | .loadByte _ _, _ => []
  | .storeByte _ _ _, _ => []

/-- What is noted of an access of the writer. -/
def noteWrite : Access Var UInt64 → List Event
  | .store (.seq slot) _ => [.stored slot]
  | .fetchAdd (.seq slot) _ => [.stored slot]
  | _ => []

/-- Stores alone. -/
def OnlyStores (log : List Event) : Prop := ∀ e ∈ log, ∃ slot, e = .stored slot

/-- A copy was overtaken: a `Read` found a number that made it copy the slot, and the number
was stored to before the `Read` loaded it again. -/
def Overtaken (log : List Event) : Prop :=
  ∃ front between back slot seq1 seq2,
    log = front ++ .loaded slot seq1 :: (between ++ .loaded slot seq2 :: back) ∧
      Readable seq1 ∧ OnlyStores between ∧ .stored slot ∈ between

theorem Overtaken.append {log : List Event} (h : Overtaken log) (more : List Event) :
    Overtaken (log ++ more) := by
  obtain ⟨front, between, back, slot, seq1, seq2, rfl, hreadable, hstores, hmem⟩ := h
  exact ⟨front, between, back ++ more, slot, seq1, seq2, by simp, hreadable, hstores, hmem⟩

/-- The others note their stores to the numbers, and only these stores change a number. -/
def Moves (w w' : Segment × List Event) : Prop :=
  ∃ more, w'.2 = w.2 ++ more ∧ OnlyStores more ∧
    ∀ slot, w'.1.word (.seq slot) ≠ w.1.word (.seq slot) → .stored slot ∈ more

theorem Moves.refl (w : Segment × List Event) : Moves w w :=
  ⟨[], (List.append_nil _).symm, by simp [OnlyStores], fun _ h => absurd rfl h⟩

theorem Moves.trans {w w' w'' : Segment × List Event} (h : Moves w w') (h' : Moves w' w'') :
    Moves w w'' := by
  obtain ⟨more, hlog, hstores, hchanged⟩ := h
  obtain ⟨more', hlog', hstores', hchanged'⟩ := h'
  refine ⟨more ++ more', by rw [hlog', hlog, List.append_assoc], ?_, fun slot hne => ?_⟩
  · exact List.forall_mem_append.mpr ⟨hstores, hstores'⟩
  · by_cases hsame : w'.1.word (.seq slot) = w.1.word (.seq slot)
    · rw [← hsame] at hne
      exact List.mem_append_right _ (hchanged' slot hne)
    · exact List.mem_append_left _ (hchanged slot hsame)

/-- An access of the writer. -/
theorem moves_noteWrite (o : Access Var UInt64) (s : Segment) (log : List Event) :
    Moves (s, log) ((o.exec s).2, log ++ noteWrite o) := by
  have hword : ∀ v x slot, (s.setWord v x).word (.seq slot) ≠ s.word (.seq slot) →
      v = .seq slot := by
    intro v x slot hne
    by_contra hother
    exact hne (Shared.word_setWord_of_ne s (Ne.symm hother) x)
  refine ⟨noteWrite o, rfl, ?_, fun slot hne => ?_⟩
  · unfold noteWrite OnlyStores
    split <;> simp
  · cases o with
    | load v => exact absurd rfl hne
    | store v x =>
      obtain rfl := hword v x slot hne
      exact List.mem_singleton.mpr rfl
    | fetchAdd v x =>
      obtain rfl := hword v _ slot hne
      exact List.mem_singleton.mpr rfl
    | loadByte r off => exact absurd rfl hne
    | storeByte r off b => exact absurd rfl hne

-- ---------------------------------------------------------------------------
-- Read
-- ---------------------------------------------------------------------------

def contract : LogContract Var UInt64 Event where
  rely := Moves
  note := noteRead

/-- Where it returns false, `out` is as it was, or a copy was overtaken. -/
def Kept (out : List UInt8) (r : Bool × List UInt8) (w : Segment × List Event) : Prop :=
  r.1 = false → r.2 = out ∨ Overtaken w.2

/-- After a copy was overtaken, nothing more is promised. -/
theorem logged_of_overtaken (out : List UInt8) (p : Prog Var UInt64 (Bool × List UInt8))
    {w : Segment × List Event} (h : Overtaken w.2) : Logged contract (Kept out) p w := by
  have hend : Logged contract (fun _ w => Overtaken w.2) p w := by
    refine logged_of_kept (F := Overtaken) ?_ (fun _ more h => h.append more) p h
    rintro w w' ⟨more, hlog, -, -⟩ hw
    rw [hlog]
    exact hw.append more
  exact hend.mono fun _ _ hw _ => Or.inr hw

/-- Since `front` the slot's number was loaded as `seq1`, and is still `seq1` as long as no
store to it was noted. -/
def Copying (front : List Event) (slot seq1 : UInt64) (w : Segment × List Event) : Prop :=
  ∃ between, w.2 = front ++ .loaded slot seq1 :: between ∧ OnlyStores between ∧
    (w.1.word (.seq slot) ≠ seq1 → .stored slot ∈ between)

theorem Copying.moves {front : List Event} {slot seq1 : UInt64} {w w' : Segment × List Event}
    (h : Copying front slot seq1 w) (hmove : Moves w w') : Copying front slot seq1 w' := by
  obtain ⟨between, hlog, hstores, hseq⟩ := h
  obtain ⟨more, hmore, hmoves, hchanged⟩ := hmove
  refine ⟨between ++ more, by rw [hmore, hlog]; simp, ?_, fun hne => ?_⟩
  · exact List.forall_mem_append.mpr ⟨hstores, hmoves⟩
  · by_cases hsame : w'.1.word (.seq slot) = w.1.word (.seq slot)
    · rw [hsame] at hne
      exact List.mem_append_left _ (hseq hne)
    · exact List.mem_append_right _ (hchanged slot hsame)

/-- The number was loaded again, and is another one. -/
theorem Copying.overtaken {front : List Event} {slot seq1 : UInt64} {w : Segment × List Event}
    (h : Copying front slot seq1 w) (hreadable : Readable seq1)
    (hne : seq1 ≠ w.1.word (.seq slot)) :
    Overtaken (w.2 ++ [.loaded slot (w.1.word (.seq slot))]) := by
  obtain ⟨between, hlog, hstores, hseq⟩ := h
  refine ⟨front, between, [], slot, seq1, w.1.word (.seq slot), by rw [hlog]; simp,
    hreadable, hstores, hseq (Ne.symm hne)⟩

theorem logged_tryReadSlot (slot : UInt64) (retries : Nat) (out : List UInt8)
    (w : Segment × List Event) :
    Logged contract (Kept out) (tryReadSlot size slot retries out) w := by
  induction retries generalizing w with
  | zero => exact fun _ => Or.inl rfl
  | succ retries ih =>
    unfold tryReadSlot
    refine logged_load (A := fun _ => True) (fun _ _ _ _ => trivial) trivial fun w _ => ?_
    generalize hseq1 : w.1.word (.seq slot) = seq1
    split_ifs with hodd hzero
    · exact ih _
    · exact fun _ => Or.inl rfl
    have hcopying : Copying w.2 slot seq1 (w.1, w.2 ++ [.loaded slot seq1]) :=
      ⟨[], rfl, by simp [OnlyStores], fun hne => absurd hseq1 hne⟩
    have hkeeps : ∀ v v' : Segment × List Event, Copying w.2 slot seq1 v → contract.rely v v' →
        Copying w.2 slot seq1 v' := fun v v' hv hmove => hv.moves hmove
    refine Logged.bind _ (logged_loadBytes hkeeps (fun _ _ => rfl) hcopying) ?_
    rintro copied v ⟨-, hv⟩
    refine logged_load hkeeps hv fun v hv => ?_
    split_ifs with hsame
    · rintro ⟨⟩
    · exact logged_of_overtaken out _ (hv.overtaken ⟨hodd, hzero⟩ hsame)

theorem logged_read (out : List UInt8) (w : Segment × List Event) :
    Logged contract (Kept out) (read size out) w := by
  refine logged_load (A := fun _ => True) (fun _ _ _ _ => trivial) trivial fun w _ => ?_
  refine Logged.bind _ (logged_tryReadSlot _ 3 out _) ?_
  rintro ⟨ok, copied⟩ w hfirst
  cases ok with
  | true => rintro ⟨⟩
  | false =>
    obtain hout | hover := hfirst rfl
    · obtain rfl : copied = out := hout
      exact logged_tryReadSlot _ 3 copied w
    · exact logged_of_overtaken out _ hover

-- ---------------------------------------------------------------------------
-- Runs
-- ---------------------------------------------------------------------------

/-- A `Read` in progress: what was in `out` when it was called, its log and the rest of it. -/
structure Reader (size : Nat) where
  before : State size
  log : List Event
  code : Prog Var UInt64 (Bool × List UInt8)

/-- A `Read` that returned false: `out` before and after, and its log. -/
structure FailedRead (size : Nat) where
  before : State size
  after : List UInt8
  log : List Event

/-- One writer and one reader on a segment. -/
structure Sys (size : Nat) where
  segment : Segment
  writer : Option (Prog Var UInt64 Unit)
  reader : Option (Reader size)

inductive Action (size : Nat) where
  | callWrite (x : State size)
  | writerAccess
  | callRead (out : State size)
  | readerAccess

namespace Sys

/-- A segment that was just created. -/
def initial (bytes : Segment) : Sys size where
  segment := reset bytes
  writer := none
  reader := none

/-- A call returns with its last access. The reader's log takes down what both do. -/
def step (s : Sys size) : Action size → Option (Sys size)
  | .callWrite x =>
    match s.writer with
    | some _ => none
    | none => some { s with writer := some (write x) }
  | .writerAccess =>
    match s.writer with
    | none => none
    | some (.ret _) => none
    | some (.access o k) =>
      let code := k (o.exec s.segment).1
      some
        { segment := (o.exec s.segment).2
          writer := if code.result = none then some code else none
          reader := s.reader.map fun r => { r with log := r.log ++ noteWrite o } }
  | .callRead out =>
    match s.reader with
    | some _ => none
    | none => some { s with reader := some ⟨out, [], read size out.1⟩ }
  | .readerAccess =>
    match s.reader with
    | none => none
    | some r => (r.code.step s.segment).map fun p =>
      let log := r.log ++ r.code.noted noteRead s.segment
      { s with
        segment := p.2
        reader := if p.1.result = none then some ⟨r.before, log, p.1⟩ else none }

/-- The `Read`s that return false. -/
def failedReads (s : Sys size) : Action size → List (FailedRead size)
  | .callWrite _ => []
  | .writerAccess => []
  | .callRead _ => []
  | .readerAccess =>
    match s.reader with
    | none => []
    | some r =>
      match r.code.step s.segment with
      | none => []
      | some p =>
        match p.1.result with
        | some (false, out) => [⟨r.before, out, r.log ++ r.code.noted noteRead s.segment⟩]
        | some (true, _) => []
        | none => []

end Sys

/-- `out` is as it was, or a copy was overtaken. -/
def FailedRead.Ok (op : FailedRead size) : Prop := op.after = op.before.1 ∨ Overtaken op.log

/-- Between two steps. -/
structure Inv (s : Sys size) (past : List (FailedRead size)) : Prop where
  reader : ∀ r, s.reader = some r → r.code.result = none ∧
    Logged contract (Kept r.before.1) r.code (s.segment, r.log)
  ended : ∀ op ∈ past, op.Ok

theorem inv_initial (bytes : Segment) : Inv (Sys.initial bytes : Sys size) [] where
  reader := by
    intro r h
    cases h
  ended := by simp

/-- An access of the writer. -/
theorem Inv.writerAccess {s s' : Sys size} {past : List (FailedRead size)} (h : Inv s past)
    (hstep : s.step .writerAccess = some s') : Inv s' past := by
  simp only [Sys.step] at hstep
  split at hstep
  · cases hstep
  · cases hstep
  · rename_i o k hwriter
    obtain rfl := Option.some.inj hstep
    refine ⟨fun r hr => ?_, h.ended⟩
    obtain ⟨r, hbefore, rfl⟩ := Option.map_eq_some_iff.mp hr
    obtain ⟨hrunning, hcode⟩ := h.reader r hbefore
    exact ⟨hrunning, hcode.pause hrunning fun _ hmove =>
      (moves_noteWrite o s.segment r.log).trans hmove⟩

/-- An access of the reader. -/
theorem Inv.readerAccess {s s' : Sys size} {past : List (FailedRead size)} (h : Inv s past)
    (hstep : s.step .readerAccess = some s') : Inv s' (past ++ s.failedReads .readerAccess) := by
  obtain ⟨segment, writer, reader⟩ := s
  cases reader with
  | none => simp [Sys.step] at hstep
  | some r =>
    obtain ⟨p, hp, rfl⟩ := Option.map_eq_some_iff.mp hstep
    obtain ⟨-, hcode⟩ := h.reader r rfl
    have hnext := hcode.step (Moves.refl _) hp
    simp only [Sys.failedReads, hp]
    cases hresult : p.1 with
    | access o k =>
      rw [hresult] at hnext
      simp only [Prog.result, if_true, List.append_nil]
      refine ⟨?_, h.ended⟩
      rintro _ ⟨⟩
      exact ⟨rfl, hnext⟩
    | ret res =>
      rw [hresult] at hnext
      obtain ⟨ok, out⟩ := res
      simp only [Prog.result, reduceCtorEq, if_false]
      refine ⟨by rintro _ ⟨⟩, ?_⟩
      cases ok with
      | true =>
        rw [List.append_nil]
        exact h.ended
      | false =>
        exact List.forall_mem_append.mpr ⟨h.ended, List.forall_mem_singleton.mpr (hnext rfl)⟩

theorem Inv.step {s s' : Sys size} {past : List (FailedRead size)} {a : Action size}
    (h : Inv s past) (hstep : s.step a = some s') : Inv s' (past ++ s.failedReads a) := by
  cases a with
  | callWrite x =>
    rw [Sys.failedReads, List.append_nil]
    simp only [Sys.step] at hstep
    split at hstep
    · cases hstep
    · obtain rfl := Option.some.inj hstep
      exact ⟨h.reader, h.ended⟩
  | writerAccess =>
    rw [Sys.failedReads, List.append_nil]
    exact h.writerAccess hstep
  | callRead out =>
    rw [Sys.failedReads, List.append_nil]
    simp only [Sys.step] at hstep
    split at hstep
    · cases hstep
    · obtain rfl := Option.some.inj hstep
      refine ⟨?_, h.ended⟩
      rintro _ ⟨⟩
      exact ⟨rfl, logged_read out.1 (s.segment, [])⟩
  | readerAccess => exact h.readerAccess hstep

/-- **What a failed `Read` leaves.** A `Read` that returns false leaves `out` as it was, unless
one of its copies was overtaken. -/
theorem failedReads_keep_out {bytes : Segment} {acts : List (Action size)} {s : Sys size}
    (hrun : Schedule.run Sys.step (Sys.initial bytes) acts = some s) {op : FailedRead size}
    (hop : op ∈ Schedule.outputs Sys.step Sys.failedReads (Sys.initial bytes) acts)
    (hkept : ¬Overtaken op.log) : op.after = op.before.1 := by
  have hinv := Schedule.run_invariant_past Sys.step Inv
    (fun _ _ _ _ hinv hstep => hinv.step hstep) (inv_initial bytes) hrun
  exact (hinv.ended op hop).resolve_right hkept

-- ---------------------------------------------------------------------------
-- One-byte states
-- ---------------------------------------------------------------------------

/-- `Write` up to its first store. -/
def beginWrite (b : UInt8) : List (Action 1) :=
  .callWrite (oneByte b) :: List.replicate 3 .writerAccess

/-- The rest of it. -/
def endWrite : List (Action 1) := List.replicate 3 .writerAccess

/-- After the first `Write` a `Read` finds its slot taken by the third, and then the other one taken
by the fourth. -/
def passedOver : List (Action 1) :=
  beginWrite 1 ++ endWrite ++ .callRead (oneByte 7) :: .readerAccess ::
    (beginWrite 2 ++ endWrite ++ beginWrite 3 ++ List.replicate 3 .readerAccess ++
      endWrite ++ beginWrite 4 ++ List.replicate 3 .readerAccess)

/-- It returns false, and has copied nothing. -/
theorem failedReads_keep_out_passedOver :
    ∃ (s : Sys 1) (op : FailedRead 1),
      Schedule.run Sys.step (Sys.initial zeros) passedOver = some s ∧
      op ∈ Schedule.outputs Sys.step Sys.failedReads (Sys.initial zeros) passedOver ∧
      ¬Overtaken op.log ∧ op.after = op.before.1 := by
  let op : FailedRead 1 := ⟨oneByte 7, [7],
    [.stored 0, .stored 0, .stored 1, .loaded 1 3, .loaded 1 3, .loaded 1 3, .stored 1, .stored 0,
      .loaded 0 3, .loaded 0 3, .loaded 0 3]⟩
  have hop : op ∈ Schedule.outputs Sys.step Sys.failedReads (Sys.initial zeros) passedOver :=
    List.mem_singleton.mpr rfl
  have hkept : ¬Overtaken op.log := by
    -- all numbers that it loads are odd
    rintro ⟨front, between, back, slot, seq1, seq2, hlog, hreadable, -, -⟩
    have hmem : Event.loaded slot seq1 ∈ op.log := by
      rw [hlog]
      exact List.mem_append_right _ (List.mem_cons_self ..)
    have hodd : seq1 = 3 := by
      have hslot : slot = 1 ∧ seq1 = 3 ∨ slot = 0 ∧ seq1 = 3 := by simpa [op] using hmem
      exact hslot.elim And.right And.right
    rw [hodd] at hreadable
    exact absurd hreadable.1 (by decide)
  exact ⟨_, op, rfl, hop, hkept, failedReads_keep_out rfl hop hkept⟩

/-- A `Read` copies the first state, and the third `Write` takes its slot. It copies the second
state, and the fourth `Write` takes that slot. -/
def twiceOvertaken : List (Action 1) :=
  beginWrite 1 ++ endWrite ++ .callRead (oneByte 7) :: List.replicate 3 .readerAccess ++
    beginWrite 2 ++ endWrite ++ beginWrite 3 ++ List.replicate 5 .readerAccess ++
    endWrite ++ beginWrite 4 ++ List.replicate 3 .readerAccess

/-- This `Read` returns false and leaves the second state in `out`. -/
theorem failedRead_overtaken :
    ∃ (s : Sys 1) (op : FailedRead 1),
      Schedule.run Sys.step (Sys.initial zeros) twiceOvertaken = some s ∧
      op ∈ Schedule.outputs Sys.step Sys.failedReads (Sys.initial zeros) twiceOvertaken ∧
      op.after = [2] ∧ op.after ≠ op.before.1 :=
  ⟨_, ⟨oneByte 7, [2], _⟩, rfl, List.mem_singleton.mpr rfl, rfl, by decide⟩

end Zrtools.ShmCheckpoint.Output

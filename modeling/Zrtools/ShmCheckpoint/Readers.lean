import Zrtools.ShmCheckpoint.Stages

/-!
# zrtools — reading the checkpoint while it is written

One writer that neither crashes nor calls `Reset`, and any number of readers, objects of
`ShmCheckpoint` or of `ShmCheckpointReader`, whose `Read`s have the same code. Each step
is one load, one store or one copied byte of the writer or of a reader, in any order.

* `reads_regular` — every `Read` that returns true gives the state of one `Write`, which
  is not older than the last that had returned before the `Read` was called, as long as
  fewer than 2^64 - 1 `Write`s are called;
* `reads_step_back_at_most_one` — of two `Read`s of one reader, the second may give the
  state before the first one's, but only while the first one's `Write` has not returned;
* `stale_read_after_wrap` — with 2^64 - 1 `Write`s the number of a slot has come round to
  zero, and `Read` takes the older slot;
* `second_read_older` — one step back, in a run of three `Write`s.
-/

namespace Zrtools.ShmCheckpoint.Readers

open ByteMemory Register SharedMemory

variable {ρ : Type} {size : Nat}

-- ---------------------------------------------------------------------------
-- Runs
-- ---------------------------------------------------------------------------

/-- The threads on a segment. A `Read` remembers how many `Write`s had returned when it was
called. -/
structure Sys (ρ : Type) where
  segment : Segment
  writer : Option (Prog Var UInt64 Unit)
  readers : ρ → Option (Nat × Prog Var UInt64 (Option (List UInt8)))
  written : List (List UInt8)
  returned : Nat

inductive Action (ρ : Type) (size : Nat) where
  | callWrite (x : State size)
  | writerAccess
  | callRead (r : ρ)
  | readerAccess (r : ρ)

namespace Sys

/-- A segment that was just created. -/
def initial (bytes : Segment) : Sys ρ where
  segment := reset bytes
  writer := none
  readers := fun _ => none
  written := []
  returned := 0

/-- A call returns with its last access. -/
def step [DecidableEq ρ] (s : Sys ρ) : Action ρ size → Option (Sys ρ)
  | .callWrite x =>
    match s.writer with
    | some _ => none
    | none => some { s with writer := some (write x), written := s.written ++ [x.1] }
  | .writerAccess =>
    match s.writer with
    | none => none
    | some code => (code.step s.segment).map fun p =>
      match p.1.result with
      | none => { s with segment := p.2, writer := some p.1 }
      | some _ => { s with segment := p.2, writer := none, returned := s.returned + 1 }
  | .callRead r =>
    match s.readers r with
    | some _ => none
    | none =>
      some { s with readers := Function.update s.readers r (some (s.returned, read size)) }
  | .readerAccess r =>
    match s.readers r with
    | none => none
    | some (began, code) => (code.step s.segment).map fun p =>
      let reader := if p.1.result = none then some (began, p.1) else none
      { s with segment := p.2, readers := Function.update s.readers r reader }

/-- The `Read`s that return true, each with its reader. -/
def readings (s : Sys ρ) : Action ρ size → List (ρ × Reading (List UInt8))
  | .callWrite _ => []
  | .writerAccess => []
  | .callRead _ => []
  | .readerAccess r =>
    match s.readers r with
    | none => []
    | some (began, code) =>
      match code.step s.segment with
      | none => []
      | some p =>
        match p.1.result with
        | some (some out) => [(r, ⟨began, s.returned, out⟩)]
        | some none => []
        | none => []

end Sys

-- ---------------------------------------------------------------------------
-- The invariant
-- ---------------------------------------------------------------------------

/-- Where the writer is, when `n` of its calls have returned. -/
def WriterOk (size : Nat) (s : Segment) (g : Stage) (n : Nat) :
    Option (Prog Var UInt64 Unit) → Prop
  | none => g = ⟨g.written, n, n, n⟩ ∧ g.written.length = n
  | some code => ∃ before x, g.written = before ++ [x] ∧ before.length = n ∧
      Safe (writerContract size g.written n) (fun _ w => w.2 = ⟨g.written, n + 1, n + 1, n + 1⟩)
        code (s, g)

/-- Between two steps, at stage `g`. -/
structure InvAt (size : Nat) (g : Stage) (s : Sys ρ) (past : List (ρ × Reading (List UInt8))) :
    Prop where
  stage : AtStage size s.segment g
  written : g.written = s.written
  switched : g.switched = s.returned
  writer : WriterOk size s.segment g s.returned s.writer
  reader : ∀ r began code, s.readers r = some (began, code) → code.result = none ∧
    began ≤ s.returned ∧ Safe (readerContract size) (ReadPost began) code (s.segment, g) ∧
    ∀ op, (r, op) ∈ past → op.ended ≤ began
  ended : ∀ r op, (r, op) ∈ past → Regular s.written op ∧ op.ended ≤ s.returned
  ordered : past.Pairwise fun a b => a.1 = b.1 → a.2.ended ≤ b.2.began

def Inv (size : Nat) (s : Sys ρ) (past : List (ρ × Reading (List UInt8))) : Prop :=
  ∃ g, InvAt size g s past

/-- Where a reader goes on, no number has come round to zero. -/
def NoWrap (s : Sys ρ) : Action ρ size → Prop
  | .callWrite _ => True
  | .writerAccess => True
  | .callRead _ => s.written.length < 2 ^ 64 - 1
  | .readerAccess _ => s.written.length < 2 ^ 64 - 1

theorem atStage_reset (bytes : Segment) : AtStage size (reset bytes) ⟨[], 0, 0, 0⟩ where
  switched_le := Nat.le_refl _
  stored_le := Nat.le_refl _
  started_le := Nat.zero_le _
  started_le_length := Nat.zero_le _
  active := by simp [reset, slotOf]
  seq i := by
    have hzero : Stage.seqOf ⟨[], 0, 0, 0⟩ i = 0 := by
      simp only [Stage.seqOf]
      omega
    rw [hzero]
    unfold slotOf
    split
    · simp [reset]
    · simp [reset, Function.update]
  data i x hx := by
    have hpos := hx.1
    intro hstored
    simp only at hstored
    omega

theorem inv_initial (bytes : Segment) : Inv size (Sys.initial bytes : Sys ρ) [] := by
  refine ⟨⟨[], 0, 0, 0⟩, ?_⟩
  constructor
  case stage => exact atStage_reset bytes
  case written => rfl
  case switched => rfl
  case writer => exact ⟨rfl, rfl⟩
  case reader =>
    intro r began code h
    cases h
  case ended =>
    intro r op h
    cases h
  case ordered => exact List.Pairwise.nil

/-- A reader does not mind what the writer does. -/
theorem reader_later {g g' : Stage} {s s' : Segment} {began : Nat}
    {code : Prog Var UInt64 (Option (List UInt8))}
    (h : Safe (readerContract size) (ReadPost began) code (s, g)) (hcode : code.result = none)
    (hle : g.Le g') : Safe (readerContract size) (ReadPost began) code (s', g') :=
  h.pause hcode trivial fun _ hmove => ⟨hmove.1, hle.trans hmove.2⟩

/-- What a step of the writer keeps. -/
theorem InvAt.writer_moves {g g' : Stage} {s s' : Sys ρ} {past : List (ρ × Reading (List UInt8))}
    (h : InvAt size g s past) (hle : g.Le g') (hstage : AtStage size s'.segment g')
    (hwritten : g'.written = s'.written) (hswitched : g'.switched = s'.returned)
    (hwriter : WriterOk size s'.segment g' s'.returned s'.writer)
    (hreaders : s'.readers = s.readers) : InvAt size g' s' past := by
  have hreturned : s.returned ≤ s'.returned := by
    rw [← h.switched, ← hswitched]
    exact hle.switched
  obtain ⟨more, hmore⟩ := hle.written
  constructor
  case stage => exact hstage
  case written => exact hwritten
  case switched => exact hswitched
  case writer => exact hwriter
  case reader =>
    intro r began code hr
    rw [hreaders] at hr
    obtain ⟨hcode, hbegan, hsafe, hafter⟩ := h.reader r began code hr
    exact ⟨hcode, Nat.le_trans hbegan hreturned, reader_later hsafe hcode hle, hafter⟩
  case ended =>
    intro r op hop
    obtain ⟨hregular, hended⟩ := h.ended r op hop
    refine ⟨?_, Nat.le_trans hended hreturned⟩
    rw [← hwritten, ← hmore, h.written]
    exact hregular.append more
  case ordered => exact h.ordered

/-- A `Read` that returns. -/
theorem InvAt.read_returns {g : Stage} {s : Sys ρ} {past : List (ρ × Reading (List UInt8))}
    (h : InvAt size g s past) {r : ρ} {began : Nat} {out : List UInt8}
    (hafter : ∀ op, (r, op) ∈ past → op.ended ≤ began)
    (hpost : ReadPost began (some out) (s.segment, g)) (hidle : s.readers r = none) :
    InvAt size g s (past ++ [(r, ⟨began, s.returned, out⟩)]) := by
  have hmem : ∀ q op, (q, op) ∈ past ++ [(r, ⟨began, s.returned, out⟩)] →
      (q, op) ∈ past ∨ q = r ∧ op = ⟨began, s.returned, out⟩ := by
    intro q op hop
    simpa using hop
  constructor
  case stage => exact h.stage
  case written => exact h.written
  case switched => exact h.switched
  case writer => exact h.writer
  case reader =>
    intro q began' code hq
    obtain ⟨hcode, hbegan', hsafe, hafter'⟩ := h.reader q began' code hq
    refine ⟨hcode, hbegan', hsafe, fun op hop => ?_⟩
    rcases hmem q op hop with hop | ⟨rfl, -⟩
    · exact hafter' op hop
    · rw [hidle] at hq
      cases hq
  case ended =>
    intro q op hop
    rcases hmem q op hop with hop | ⟨-, rfl⟩
    · exact h.ended q op hop
    · obtain ⟨i, hlo, hhi, hx⟩ := hpost out rfl
      have hswitched : g.switched = s.returned := h.switched
      have hwritten : g.written = s.written := h.written
      simp only [hswitched, hwritten] at hhi hx
      exact ⟨⟨i, hlo, hhi, hx⟩, Nat.le_refl _⟩
  case ordered =>
    rw [List.pairwise_append]
    refine ⟨h.ordered, List.pairwise_singleton .., ?_⟩
    rintro ⟨q, op⟩ hop b hb hqr
    obtain rfl := List.mem_singleton.mp hb
    obtain rfl : q = r := hqr
    exact hafter op hop

section Steps

variable [DecidableEq ρ]

/-- A call of `Write`. -/
theorem Inv.callWrite {s s' : Sys ρ} {past : List (ρ × Reading (List UInt8))} {x : State size}
    (h : Inv size s past) (hstep : s.step (.callWrite x) = some s') : Inv size s' past := by
  obtain ⟨g, h⟩ := h
  obtain ⟨segment, writer, readers, written, returned⟩ := s
  have hidle := h.writer
  cases writer with
  | some code => simp [Sys.step] at hstep
  | none =>
    obtain rfl := Option.some.inj hstep
    obtain ⟨hg, hlen⟩ := hidle
    have hsame : g.written = written := h.written
    obtain rfl : g = ⟨written, returned, returned, returned⟩ := by rw [hg, hsame]
    have hle : Stage.Le ⟨written, returned, returned, returned⟩
        ⟨written ++ [x.1], returned, returned, returned⟩ :=
      ⟨List.prefix_append .., Nat.le_refl _, Nat.le_refl _, Nat.le_refl _⟩
    have hstage : AtStage size segment ⟨written ++ [x.1], returned, returned, returned⟩ := by
      constructor
      case switched_le => exact Nat.le_refl _
      case stored_le => exact Nat.le_refl _
      case started_le => exact Nat.le_succ _
      case started_le_length => exact Nat.le_trans h.stage.started_le_length hle.written.length_le
      case active => exact h.stage.active
      case seq => exact h.stage.seq
      case data =>
        intro i y hy hstored hstarted
        exact h.stage.data i y (hy.of_append (Nat.le_trans hstored (Nat.le_of_eq hlen.symm)))
          hstored hstarted
    exact ⟨_, h.writer_moves hle hstage rfl rfl
      ⟨written, x.1, rfl, hlen, safe_write_stages x hlen hstage⟩ rfl⟩

/-- An access of the writer. -/
theorem Inv.writerAccess {s s' : Sys ρ} {past : List (ρ × Reading (List UInt8))}
    (h : Inv size s past) (hstep : s.step (.writerAccess : Action ρ size) = some s') :
    Inv size s' past := by
  obtain ⟨g, h⟩ := h
  obtain ⟨segment, writer, readers, written, returned⟩ := s
  have hbusy := h.writer
  cases writer with
  | none => simp [Sys.step] at hstep
  | some code =>
    obtain ⟨⟨code', segment'⟩, hcode, rfl⟩ := Option.map_eq_some_iff.mp hstep
    obtain ⟨before, x, hg, hlen, hsafe⟩ := hbusy
    obtain ⟨g', ⟨hstage, hle⟩, hrest⟩ := hsafe.step rfl (fun _ _ => trivial) hcode
    have hwritten : g.written = written := h.written
    refine ⟨g', ?_⟩
    cases code' with
    | access o k =>
      -- still writing
      obtain ⟨hsame, hswitched⟩ := hrest.1
      refine h.writer_moves hle hstage (hsame.trans hwritten) hswitched ?_ rfl
      refine ⟨before, x, hsame.trans hg, hlen, ?_⟩
      rw [hsame]
      exact hrest
    | ret u =>
      obtain rfl : g' = ⟨g.written, returned + 1, returned + 1, returned + 1⟩ := hrest
      refine h.writer_moves hle hstage hwritten rfl ⟨rfl, ?_⟩ rfl
      show g.written.length = returned + 1
      rw [hg, List.length_append, hlen]
      rfl

/-- What a step of reader `r` keeps, if it goes on with `reader`. -/
theorem InvAt.reader_moves {g : Stage} {s : Sys ρ} {past : List (ρ × Reading (List UInt8))}
    (h : InvAt size g s past) (r : ρ)
    (reader : Option (Nat × Prog Var UInt64 (Option (List UInt8))))
    (hreader : ∀ began code, reader = some (began, code) → code.result = none ∧
      began ≤ s.returned ∧ Safe (readerContract size) (ReadPost began) code (s.segment, g) ∧
      ∀ op, (r, op) ∈ past → op.ended ≤ began) :
    InvAt size g { s with readers := Function.update s.readers r reader } past := by
  constructor
  case stage => exact h.stage
  case written => exact h.written
  case switched => exact h.switched
  case writer => exact h.writer
  case reader =>
    intro q began code hq
    by_cases hqr : q = r
    · subst hqr
      have hupdate : Function.update s.readers q reader q = reader := Function.update_self ..
      exact hreader began code (hupdate.symm.trans hq)
    · have hupdate : Function.update s.readers r reader q = s.readers q :=
        Function.update_of_ne hqr ..
      exact h.reader q began code (hupdate.symm.trans hq)
  case ended => exact h.ended
  case ordered => exact h.ordered

/-- A call of `Read`. -/
theorem Inv.callRead {s s' : Sys ρ} {past : List (ρ × Reading (List UInt8))} {r : ρ}
    (h : Inv size s past) (hbound : s.written.length < 2 ^ 64 - 1)
    (hstep : s.step (.callRead r : Action ρ size) = some s') : Inv size s' past := by
  obtain ⟨g, h⟩ := h
  simp only [Sys.step] at hstep
  split at hstep
  · simp at hstep
  · obtain rfl := Option.some.inj hstep
    refine ⟨g, h.reader_moves r _ ?_⟩
    rintro _ _ ⟨⟩
    have hreadout : Readout size (s.segment, g) := by
      refine ⟨h.stage, ?_⟩
      show g.written.length < 2 ^ 64 - 1
      rw [h.written]
      exact hbound
    exact ⟨rfl, Nat.le_refl _, safe_read ⟨hreadout, Stage.Le.refl _⟩ (Nat.le_of_eq h.switched.symm),
      fun op hop => (h.ended r op hop).2⟩

/-- An access of a reader. -/
theorem Inv.readerAccess {s s' : Sys ρ} {past : List (ρ × Reading (List UInt8))} {r : ρ}
    (h : Inv size s past) (hbound : s.written.length < 2 ^ 64 - 1)
    (hstep : s.step (.readerAccess r : Action ρ size) = some s') :
    Inv size s' (past ++ s.readings (.readerAccess r : Action ρ size)) := by
  obtain ⟨g, h⟩ := h
  refine ⟨g, ?_⟩
  simp only [Sys.step] at hstep
  simp only [Sys.readings]
  split at hstep
  · simp at hstep
  · rename_i began code hr
    obtain ⟨⟨code', segment'⟩, hcode, rfl⟩ := Option.map_eq_some_iff.mp hstep
    obtain ⟨-, hbegan, hsafe, hafter⟩ := h.reader r began code hr
    have hreadout : Readout size (s.segment, g) := by
      refine ⟨h.stage, ?_⟩
      show g.written.length < 2 ^ 64 - 1
      rw [h.written]
      exact hbound
    obtain ⟨g', hsame, hrest⟩ :=
      hsafe.step ⟨hreadout, Stage.Le.refl _⟩ (fun _ _ => trivial) hcode
    obtain ⟨rfl, rfl⟩ := Prod.mk.inj hsame
    simp only [hcode]
    cases code' with
    | access o k =>
      -- still reading
      simp only [Prog.result, if_true, List.append_nil]
      refine h.reader_moves r _ ?_
      rintro _ _ ⟨⟩
      exact ⟨rfl, hbegan, hrest, hafter⟩
    | ret res =>
      have hidle : InvAt size g' { s with readers := Function.update s.readers r none } past := by
        refine h.reader_moves r none ?_
        rintro _ _ ⟨⟩
      simp only [Prog.result, reduceCtorEq, if_false]
      cases res with
      | none =>
        rw [List.append_nil]
        exact hidle
      | some out => exact hidle.read_returns hafter hrest (Function.update_self ..)

/-- Every step keeps the invariant, as long as no number has come round to zero. -/
theorem Inv.step {s s' : Sys ρ} {past : List (ρ × Reading (List UInt8))} {a : Action ρ size}
    (h : Inv size s past) (hok : NoWrap s a) (hstep : s.step a = some s') :
    Inv size s' (past ++ s.readings a) := by
  cases a with
  | callWrite x =>
    rw [Sys.readings, List.append_nil]
    exact h.callWrite hstep
  | writerAccess =>
    rw [Sys.readings, List.append_nil]
    exact h.writerAccess hstep
  | callRead r =>
    rw [Sys.readings, List.append_nil]
    exact h.callRead hok hstep
  | readerAccess r => exact h.readerAccess hok hstep

end Steps

-- ---------------------------------------------------------------------------
-- Every run
-- ---------------------------------------------------------------------------

section Results

variable [DecidableEq ρ]

theorem Sys.step_written {s s' : Sys ρ} {a : Action ρ size} (hstep : s.step a = some s') :
    s.written <+: s'.written := by
  cases a with
  | callWrite x =>
    simp only [Sys.step] at hstep
    split at hstep
    · simp at hstep
    · obtain rfl := Option.some.inj hstep
      exact List.prefix_append ..
  | writerAccess =>
    simp only [Sys.step] at hstep
    split at hstep
    · simp at hstep
    · obtain ⟨p, -, rfl⟩ := Option.map_eq_some_iff.mp hstep
      split
      · exact List.prefix_rfl
      · exact List.prefix_rfl
  | callRead r =>
    simp only [Sys.step] at hstep
    split at hstep
    · simp at hstep
    · obtain rfl := Option.some.inj hstep
      exact List.prefix_rfl
  | readerAccess r =>
    simp only [Sys.step] at hstep
    split at hstep
    · simp at hstep
    · obtain ⟨p, -, rfl⟩ := Option.map_eq_some_iff.mp hstep
      exact List.prefix_rfl

theorem run_written {s s' : Sys ρ} {acts : List (Action ρ size)}
    (hrun : Schedule.run Sys.step s acts = some s') : s.written <+: s'.written := by
  induction acts generalizing s with
  | nil =>
    obtain rfl := Option.some.inj hrun
    exact List.prefix_rfl
  | cons a acts ih =>
    obtain ⟨t, ht, hrest⟩ := (Schedule.run_cons Sys.step).mp hrun
    exact (Sys.step_written ht).trans (ih hrest)

/-- A run with fewer than 2^64 - 1 `Write`s. -/
theorem noWrap_of_length {s s' : Sys ρ} {acts : List (Action ρ size)}
    (hrun : Schedule.run Sys.step s acts = some s') (hbound : s'.written.length < 2 ^ 64 - 1) :
    Schedule.StepsMeet Sys.step NoWrap s acts := by
  induction acts generalizing s with
  | nil => trivial
  | cons a acts ih =>
    have hlt : s.written.length < 2 ^ 64 - 1 :=
      Nat.lt_of_le_of_lt (run_written hrun).length_le hbound
    obtain ⟨t, ht, hrest⟩ := (Schedule.run_cons Sys.step).mp hrun
    refine ⟨?_, ?_⟩
    · cases a with
      | callWrite x => trivial
      | writerAccess => trivial
      | callRead r => exact hlt
      | readerAccess r => exact hlt
    · intro u hu
      rw [ht] at hu
      obtain rfl := Option.some.inj hu
      exact ih hrest

theorem inv_run {bytes : Segment} {acts : List (Action ρ size)} {s : Sys ρ}
    (hok : Schedule.StepsMeet Sys.step NoWrap (Sys.initial bytes) acts)
    (hrun : Schedule.run Sys.step (Sys.initial bytes) acts = some s) :
    Inv size s (Schedule.outputs Sys.step Sys.readings (Sys.initial bytes) acts) :=
  Schedule.run_invariant_outputs Sys.step (Inv size)
    (fun _ _ _ _ hinv hmeet hstep => hinv.step hmeet hstep) (inv_initial bytes) hok hrun

/-- **No torn and no stale reads.** In every run with fewer than 2^64 - 1 `Write`s, every
`Read` that returns true gives exactly the state that was passed to one `Write`, and that
is not older than the last one that had returned before the `Read` was called. -/
theorem reads_regular {bytes : Segment} {acts : List (Action ρ size)} {s : Sys ρ}
    (hrun : Schedule.run Sys.step (Sys.initial bytes) acts = some s)
    (hbound : s.written.length < 2 ^ 64 - 1) :
    ∀ r op, (r, op) ∈ Schedule.outputs Sys.step Sys.readings (Sys.initial bytes) acts →
      Regular s.written op := by
  intro r op hop
  obtain ⟨g, hinv⟩ := inv_run (noWrap_of_length hrun hbound) hrun
  exact (hinv.ended r op hop).1

/-- **One step back at most.** In every run with fewer than 2^64 - 1 `Write`s, of two
`Read`s of one reader that return true the second gives the state of the same or a later
`Write`, or of the one just before, and that only if the `Write` that the first one saw
had not returned when the second one was called. -/
theorem reads_step_back_at_most_one {bytes : Segment} {acts : List (Action ρ size)} {s : Sys ρ}
    (hrun : Schedule.run Sys.step (Sys.initial bytes) acts = some s)
    (hbound : s.written.length < 2 ^ 64 - 1) {front middle rest : List (ρ × Reading (List UInt8))}
    {r : ρ} {op op' : Reading (List UInt8)}
    (hops : Schedule.outputs Sys.step Sys.readings (Sys.initial bytes) acts =
      front ++ (r, op) :: (middle ++ (r, op') :: rest)) :
    ∃ i j, IsWrite s.written i op.value ∧ IsWrite s.written j op'.value ∧ i ≤ j + 1 ∧
      (i ≤ op'.began → i ≤ j) := by
  obtain ⟨g, hinv⟩ := inv_run (noWrap_of_length hrun hbound) hrun
  rw [hops] at hinv
  have hordered := (List.pairwise_append.mp hinv.ordered).2.1
  rw [List.pairwise_cons] at hordered
  have hafter : op.ended ≤ op'.began := hordered.1 (r, op') (by simp) rfl
  have hregular := (hinv.ended r op (by simp)).1
  have hregular' := (hinv.ended r op' (by simp)).1
  exact hregular.inversion hregular' hafter

end Results

-- ---------------------------------------------------------------------------
-- One-byte states
-- ---------------------------------------------------------------------------

/-- A `Write` with nobody else there. -/
def wholeWrite (b : UInt8) : List (Action Unit 1) :=
  Action.callWrite (oneByte b) :: List.replicate 6 Action.writerAccess

/-- `Read` loads `active`; the writer stores two more states but does not switch to the
second one, which is in the slot that `Read` now looks at. The next `Read` looks at the
other slot. -/
def olderSecond : List (Action Unit 1) :=
  wholeWrite 1 ++ [Action.callRead (), Action.readerAccess ()] ++ wholeWrite 2 ++
    Action.callWrite (oneByte 3) :: List.replicate 5 Action.writerAccess ++
    List.replicate 3 (Action.readerAccess ()) ++
    Action.callRead () :: List.replicate 4 (Action.readerAccess ())

/-- The first `Read` gives the third state, the second one the second state. -/
theorem second_read_older :
    ∃ s op op', Schedule.run Sys.step (Sys.initial zeros) olderSecond = some s ∧
      Schedule.outputs Sys.step Sys.readings (Sys.initial zeros) olderSecond =
        [((), op), ((), op')] ∧
      s.written = [[1], [2], [3]] ∧ op.value = [3] ∧ op'.value = [2] ∧
      ¬∃ i j, IsWrite s.written i op.value ∧ IsWrite s.written j op'.value ∧ i ≤ j := by
  have hold : ¬∃ i j, IsWrite [[1], [2], [3]] i ([3] : List UInt8) ∧
      IsWrite [[1], [2], [3]] j ([2] : List UInt8) ∧ i ≤ j := by
    rintro ⟨i, j, hi, hj, hle⟩
    obtain rfl : i = 3 := hi.index_unique ⟨by decide, rfl⟩ (by decide)
    obtain rfl : j = 2 := hj.index_unique ⟨by decide, rfl⟩ (by decide)
    omega
  exact ⟨_, _, _, rfl, rfl, rfl, rfl, rfl, hold⟩

/-- Both `Read`s there give a state that is not older than the first. -/
theorem reads_regular_olderSecond :
    ∃ s : Sys Unit, Schedule.run Sys.step (Sys.initial zeros) olderSecond = some s ∧
      ∀ r op, (r, op) ∈ Schedule.outputs Sys.step Sys.readings (Sys.initial zeros) olderSecond →
        Regular s.written op :=
  ⟨_, rfl, reads_regular rfl (by decide +kernel)⟩

/-- The second one is one step behind the first. -/
theorem reads_step_back_olderSecond :
    ∃ s : Sys Unit, Schedule.run Sys.step (Sys.initial zeros) olderSecond = some s ∧
      ∃ i j, IsWrite s.written i [3] ∧ IsWrite s.written j [2] ∧ i ≤ j + 1 ∧ (i ≤ 2 → i ≤ j) := by
  have hops : Schedule.outputs Sys.step Sys.readings (Sys.initial zeros) olderSecond =
      [] ++ ((), ⟨1, 2, [3]⟩) :: ([] ++ ((), ⟨2, 2, [2]⟩) :: []) := rfl
  exact ⟨_, rfl, reads_step_back_at_most_one rfl (by decide +kernel) hops⟩

theorem run_wholeWrite {s : Sys Unit} (hidle : s.writer = none) (b : UInt8) :
    ∃ t, Schedule.run Sys.step s (wholeWrite b) = some t ∧ t.writer = none ∧
      t.readers = s.readers ∧ t.written = s.written ++ [[b]] ∧ t.returned = s.returned + 1 := by
  obtain ⟨segment, writer, readers, written, returned⟩ := s
  obtain rfl : writer = none := hidle
  exact ⟨_, rfl, rfl, rfl, rfl, rfl⟩

theorem run_wholeWrites {s : Sys Unit} (hidle : s.writer = none) (b : UInt8) (n : Nat) :
    ∃ t, Schedule.run Sys.step s (List.replicate n (wholeWrite b)).flatten = some t ∧
      t.writer = none ∧ t.readers = s.readers ∧
      t.written = s.written ++ List.replicate n [b] ∧ t.returned = s.returned + n := by
  induction n generalizing s with
  | zero => exact ⟨s, rfl, hidle, rfl, (List.append_nil _).symm, rfl⟩
  | succ n ih =>
    obtain ⟨t, hrun, hidle, hreaders, hwritten, hreturned⟩ := run_wholeWrite hidle b
    obtain ⟨u, hrest, hdone, hreaders', hwritten', hreturned'⟩ := ih hidle
    refine ⟨u, ?_, hdone, hreaders'.trans hreaders, ?_, by omega⟩
    · rw [List.replicate_succ, List.flatten_cons, Schedule.run_append Sys.step hrun]
      exact hrest
    · rw [hwritten', hwritten, List.replicate_succ, List.append_assoc]
      rfl

/-- A reader that nobody disturbs ends with what its code gives. -/
theorem reader_alone {s : Sys ρ} [DecidableEq ρ] {r : ρ} {began : Nat}
    {code : Prog Var UInt64 (Option (List UInt8))} {out : List UInt8}
    (hreader : s.readers r = some (began, code)) (hbusy : code.result = none)
    (hout : (code.eval s.segment).1 = some out) :
    ∃ n t, Schedule.run Sys.step s (List.replicate n (Action.readerAccess r : Action ρ size)) =
        some t ∧ t.written = s.written ∧
      (r, ⟨began, s.returned, out⟩) ∈ Schedule.outputs Sys.step Sys.readings s
        (List.replicate n (Action.readerAccess r : Action ρ size)) := by
  induction code generalizing s with
  | ret a => simp [Prog.result] at hbusy
  | access o k ih =>
    have hcode : (Prog.access o k).step s.segment =
        some (k (o.exec s.segment).1, (o.exec s.segment).2) := rfl
    have hout : ((k (o.exec s.segment).1).eval (o.exec s.segment).2).1 = some out := hout
    generalize hnext : k (o.exec s.segment).1 = next at hcode hout
    generalize (o.exec s.segment).2 = segment at hcode hout
    have hstep : s.step (Action.readerAccess r : Action ρ size) = some
        { s with
          segment := segment
          readers := Function.update s.readers r
            (if next.result = none then some (began, next) else none) } := by
      simp only [Sys.step, hreader, hcode, Option.map_some]
    cases hresult : next.result with
    | some res =>
      have hres : next = .ret res := by
        cases next with
        | ret a => rw [Option.some.inj hresult]
        | access o k => simp [Prog.result] at hresult
      subst hres
      obtain rfl : res = some out := hout
      refine ⟨1, _, (Schedule.run_cons Sys.step).mpr ⟨_, hstep, rfl⟩, rfl, ?_⟩
      show _ ∈ Schedule.outputs Sys.step Sys.readings s [Action.readerAccess r]
      rw [Schedule.outputs, hstep]
      simp [Sys.readings, hreader, hcode, hresult]
    | none =>
      rw [if_pos hresult] at hstep
      obtain ⟨n, t, hrun, hwritten, hmem⟩ := ih (o.exec s.segment).1
        (s := { s with segment, readers := Function.update s.readers r (some (began, next)) })
        (by rw [hnext]; exact Function.update_self ..) (by rw [hnext]; exact hresult)
        (by rw [hnext]; exact hout)
      refine ⟨n + 1, t, (Schedule.run_cons Sys.step).mpr ⟨_, hstep, hrun⟩, hwritten, ?_⟩
      rw [List.replicate_succ, Schedule.outputs, hstep]
      exact List.mem_append_right _ hmem

/-- `Read` with nobody else there. -/
theorem read_alone [DecidableEq ρ] {s : Sys ρ} {r : ρ} {out : List UInt8}
    (hidle : s.readers r = none) (hout : ((read size).eval s.segment).1 = some out) :
    ∃ (acts : List (Action ρ size)) (t : Sys ρ), Schedule.run Sys.step s acts = some t ∧
      t.written = s.written ∧
      (r, ⟨s.returned, s.returned, out⟩) ∈ Schedule.outputs Sys.step Sys.readings s acts := by
  have hcall : s.step (Action.callRead r : Action ρ size) = some
      { s with readers := Function.update s.readers r (some (s.returned, read size)) } := by
    simp only [Sys.step, hidle]
  generalize ht : { s with readers := Function.update s.readers r (some (s.returned, read size)) } =
    t at hcall
  have hreading : t.readers r = some (s.returned, read size) := by
    rw [← ht]
    exact Function.update_self ..
  have hreturned : t.returned = s.returned := by rw [← ht]
  have hout : ((read size).eval t.segment).1 = some out := by
    rw [← ht]
    exact hout
  obtain ⟨n, u, hread, hwritten, hmem⟩ :=
    @reader_alone ρ size t _ r s.returned (read size) out hreading rfl hout
  rw [hreturned] at hmem
  refine ⟨.callRead r :: List.replicate n (.readerAccess r), u,
    (Schedule.run_cons Sys.step).mpr ⟨t, hcall, hread⟩, ?_, ?_⟩
  · rw [hwritten, ← ht]
  · rw [Schedule.outputs, hcall]
    exact List.mem_append_right _ hmem

/-- `n` states of one kind and one of another, with nobody else there. -/
def lastDiffers (n : Nat) : List (Action Unit 1) :=
  (List.replicate n (wholeWrite 0)).flatten ++ wholeWrite 1

theorem noWrap_of_mem_lastDiffers {n : Nat} {a : Action Unit 1} (ha : a ∈ lastDiffers n)
    (s : Sys Unit) : NoWrap s a := by
  have hwrite : ∀ b, a ∈ wholeWrite b → NoWrap s a := by
    intro b hb
    simp only [wholeWrite, List.mem_cons, List.mem_replicate] at hb
    rcases hb with rfl | ⟨-, rfl⟩
    · trivial
    · trivial
  rcases List.mem_append.mp ha with ha | ha
  · obtain ⟨l, hl, ha⟩ := List.mem_flatten.mp ha
    rw [List.eq_of_mem_replicate hl] at ha
    exact hwrite 0 ha
  · exact hwrite 1 ha

/-- The segment after them. -/
theorem run_lastDiffers (n : Nat) :
    ∃ s : Sys Unit, Schedule.run Sys.step (Sys.initial zeros) (lastDiffers n) = some s ∧
      s.readers () = none ∧ s.written = List.replicate n [0] ++ [[1]] ∧ s.returned = n + 1 ∧
      AtStage 1 s.segment ⟨s.written, n + 1, n + 1, n + 1⟩ := by
  obtain ⟨s, hzeros, hidle, hreaders, hwritten, hreturned⟩ :=
    run_wholeWrites (s := Sys.initial zeros) rfl 0 n
  obtain ⟨t, hone, hidle, hreaders', hwritten', hreturned'⟩ := run_wholeWrite hidle 1
  have hrun := (Schedule.run_append Sys.step hzeros (wholeWrite 1)).trans hone
  have hcount : t.returned = n + 1 := by
    rw [hreturned', hreturned]
    simp [Sys.initial]
  refine ⟨t, hrun, ?_, ?_, hcount, ?_⟩
  · rw [hreaders', hreaders]
    rfl
  · rw [hwritten', hwritten]
    rfl
  · obtain ⟨g, hinv⟩ := inv_run (Schedule.stepsMeet_of_forall Sys.step
      (fun a ha s => noWrap_of_mem_lastDiffers ha s) _) hrun
    have hwriter := hinv.writer
    rw [hidle] at hwriter
    obtain ⟨hg, -⟩ := hwriter
    have hstage := hinv.stage
    rw [hg, hinv.written, hcount] at hstage
    exact hstage

/-- **The wrap.** The last of 2^64 - 1 `Write`s has another state than the others. A `Read`
after all of them gives an older state. -/
theorem stale_read_after_wrap :
    ∃ (acts : List (Action Unit 1)) (s : Sys Unit) (op : Reading (List UInt8)),
      Schedule.run Sys.step (Sys.initial zeros) acts = some s ∧
      ((), op) ∈ Schedule.outputs Sys.step Sys.readings (Sys.initial zeros) acts ∧
      ¬∃ i, op.began ≤ i ∧ IsWrite s.written i op.value := by
  obtain ⟨n, hn⟩ : ∃ n, n + 1 = 2 ^ 64 - 1 := ⟨2 ^ 64 - 2, rfl⟩
  obtain ⟨s, hrun, hidle, hwritten, hreturned, hstage⟩ := run_lastDiffers n
  have hlast : IsWrite s.written (n + 1) [1] := by
    have hlast := isWrite_concat (List.replicate n ([0] : List UInt8)) [1]
    rw [List.length_replicate] at hlast
    rw [hwritten]
    exact hlast
  have hbefore : IsWrite s.written n [0] := by
    rw [hwritten]
    refine IsWrite.append ⟨by omega, ?_⟩ _
    rw [List.getElem?_replicate, if_pos (by omega)]
  obtain ⟨acts, t, hread, hkept, hmem⟩ :=
    read_alone hidle (hstage.eval_read_wrapped hn hbefore)
  refine ⟨lastDiffers n ++ acts, t, ⟨s.returned, s.returned, [0]⟩,
    (Schedule.run_append Sys.step hrun acts).trans hread, ?_, ?_⟩
  · rw [Schedule.outputs_append Sys.step hrun]
    exact List.mem_append_right _ hmem
  · rintro ⟨i, hbegan, hi⟩
    have hbegan : s.returned ≤ i := hbegan
    rw [hkept] at hi
    have hle := hi.le_length
    rw [hwritten] at hle
    simp only [List.length_append, List.length_replicate, List.length_singleton] at hle
    obtain rfl : i = n + 1 := by omega
    have hsame := hi.unique hlast
    simp at hsame

end Zrtools.ShmCheckpoint.Readers

import Zrtools.ShmCheckpoint.Readers

/-!
# zrtools — the version of the checkpoint

`GetVersion` loads the active slot, and then the number of that slot, while the writer goes on.
A slot is written every second time, and its number grows by two, so that a version counts the
`Write`s, but only every second one makes it larger.

* `versions_of_run` — between which counts a version lies, and what two versions of one caller
  tell about the `Write`s in between;
* `versions_of_run_backAndSame` — a version that is two smaller than the one before, and one that
  stays the same over a whole `Write`.
-/

namespace Zrtools.ShmCheckpoint.Version

open SharedMemory

variable {ρ : Type} {size : Nat}

-- ---------------------------------------------------------------------------
-- Runs
-- ---------------------------------------------------------------------------

/-- `GetVersion()`, the same in both classes. -/
def getVersion : Prog Var UInt64 UInt64 := do
  let activeSlot ← Prog.load .active
  Prog.load (.seq activeSlot)

/-- The writer and the readers, and callers of `GetVersion`. A call remembers how many `Write`s had
returned when it began. -/
structure Sys (ρ : Type) where
  threads : Readers.Sys ρ
  callers : ρ → Option (Nat × Prog Var UInt64 UInt64)

inductive Action (ρ : Type) (size : Nat) where
  | other (a : Readers.Action ρ size)
  | callVersion (r : ρ)
  | versionAccess (r : ρ)

/-- A version that was returned, with the number of `Write`s that had returned when it was asked
for, and the number of those that had been called when it was given. -/
structure Sighting where
  began : Nat
  called : Nat
  version : UInt64
  deriving DecidableEq

namespace Sys

def initial (bytes : Segment) : Sys ρ where
  threads := Readers.Sys.initial bytes
  callers := fun _ => none

def step [DecidableEq ρ] (s : Sys ρ) : Action ρ size → Option (Sys ρ)
  | .other a => (s.threads.step a).map fun t => { s with threads := t }
  | .callVersion r =>
    match s.callers r with
    | some _ => none
    | none =>
      some { s with
        callers := Function.update s.callers r (some (s.threads.returned, getVersion)) }
  | .versionAccess r =>
    match s.callers r with
    | none => none
    | some (began, code) => (code.step s.threads.segment).map fun p =>
      let caller :=
        match p.1.result with
        | none => some (began, p.1)
        | some _ => none
      { threads := { s.threads with segment := p.2 },
        callers := Function.update s.callers r caller }

/-- The versions that are returned, each with its caller. -/
def sightings (s : Sys ρ) : Action ρ size → List (ρ × Sighting)
  | .other _ => []
  | .callVersion _ => []
  | .versionAccess r =>
    match s.callers r with
    | none => []
    | some (began, code) =>
      match code.step s.threads.segment with
      | none => []
      | some p =>
        match p.1.result with
        | some v => [(r, ⟨began, s.threads.written.length, v⟩)]
        | none => []

end Sys

-- ---------------------------------------------------------------------------
-- The invariant
-- ---------------------------------------------------------------------------

/-- The version lies between the two counts, where each pair of `Write`s counts as soon as its
first one does. -/
structure Sighting.Counts (op : Sighting) : Prop where
  atLeast : 2 * ((op.began + 1) / 2) ≤ op.version.toNat
  atMost : op.version.toNat ≤ 2 * ((op.called + 1) / 2)

/-- One call after the other. -/
structure Sighting.Before (op op' : Sighting) : Prop where
  began : op.began ≤ op'.began
  called : op.called ≤ op'.called
  after : op.called ≤ op'.began + 1

/-- A caller that will load `active`, or that has found the slot of write `n` there. -/
def Asking (began returned : Nat) (code : Prog Var UInt64 UInt64) : Prop :=
  code = getVersion ∨ ∃ n, began ≤ n ∧ n ≤ returned ∧ code = Prog.load (.seq (slotOf n))

theorem Asking.later {began returned returned' : Nat} {code : Prog Var UInt64 UInt64}
    (h : Asking began returned code) (hle : returned ≤ returned') :
    Asking began returned' code := by
  rcases h with hstart | ⟨n, hbegan, hn, hcode⟩
  · exact Or.inl hstart
  · exact Or.inr ⟨n, hbegan, Nat.le_trans hn hle, hcode⟩

/-- Between two steps. -/
structure Holds (size : Nat) (s : Sys ρ) (past : List (ρ × Sighting)) : Prop where
  threads : ∃ read, Readers.Inv size s.threads read
  caller : ∀ r began code, s.callers r = some (began, code) →
    began ≤ s.threads.returned ∧ Asking began s.threads.returned code ∧
      ∀ op, (r, op) ∈ past → op.began ≤ began ∧ op.called ≤ began + 1
  ended : ∀ r op, (r, op) ∈ past →
    op.Counts ∧ op.began ≤ s.threads.returned ∧ op.called ≤ s.threads.written.length
  ordered : past.Pairwise fun a b => a.1 = b.1 → a.2.Before b.2

/-- As long as no number has come round to zero. -/
def Inv (size : Nat) (s : Sys ρ) (past : List (ρ × Sighting)) : Prop :=
  s.threads.written.length < 2 ^ 64 - 1 → Holds size s past

/-- One `Write` at most has been called and has not returned. -/
theorem length_written {t : Readers.Sys ρ} {read : List (ρ × Register.Reading (List UInt8))}
    (h : Readers.Inv size t read) : t.written.length ≤ t.returned + 1 := by
  obtain ⟨g, h⟩ := h
  have hwriter := h.writer
  rw [← h.written]
  cases hcode : t.writer with
  | none =>
    rw [hcode] at hwriter
    have hlen := hwriter.2
    omega
  | some code =>
    rw [hcode] at hwriter
    obtain ⟨before, x, hg, hlen, -⟩ := hwriter
    rw [hg, List.length_append, hlen, List.length_singleton]

/-- The slot that `active` names. -/
theorem word_active {t : Readers.Sys ρ} {read : List (ρ × Register.Reading (List UInt8))}
    (h : Readers.Inv size t read) : t.segment.word .active = slotOf t.returned := by
  obtain ⟨g, h⟩ := h
  rw [h.stage.active, h.switched]

/-- **The number of a slot** that was active when `n` writes had switched. -/
theorem word_seq_between {t : Readers.Sys ρ} {read : List (ρ × Register.Reading (List UInt8))}
    (h : Readers.Inv size t read) (hbound : t.written.length < 2 ^ 64 - 1) {n : Nat}
    (hn : n ≤ t.returned) :
    2 * ((n + 1) / 2) ≤ (t.segment.word (.seq (slotOf n))).toNat ∧
      (t.segment.word (.seq (slotOf n))).toNat ≤ 2 * ((t.written.length + 1) / 2) := by
  obtain ⟨g, h⟩ := h
  have hreadout : Readout size (t.segment, g) := by
    refine ⟨h.stage, ?_⟩
    show g.written.length < 2 ^ 64 - 1
    rw [h.written]
    exact hbound
  have hlt : g.seqOf n < 2 ^ 64 := hreadout.seqOf_lt n
  have hstored := h.stage.stored_le
  have hswitched := h.stage.switched_le
  have hstarted := h.stage.started_le_length
  rw [h.switched] at hswitched
  rw [h.written] at hstarted
  rw [h.stage.seq n, UInt64.toNat_ofNat', Nat.mod_eq_of_lt hlt, Stage.seqOf]
  omega

theorem inv_initial (bytes : Segment) : Inv size (Sys.initial bytes : Sys ρ) [] := by
  intro
  constructor
  case threads => exact ⟨[], Readers.inv_initial bytes⟩
  case caller =>
    intro r began code h
    cases h
  case ended =>
    intro r op h
    cases h
  case ordered => exact List.Pairwise.nil

/-- What a step of caller `r` keeps, if it goes on with `caller`. -/
theorem Holds.caller_moves [DecidableEq ρ] {s : Sys ρ} {past : List (ρ × Sighting)}
    (h : Holds size s past) (r : ρ) (caller : Option (Nat × Prog Var UInt64 UInt64))
    (hcaller : ∀ began code, caller = some (began, code) → began ≤ s.threads.returned ∧
      Asking began s.threads.returned code ∧
        ∀ op, (r, op) ∈ past → op.began ≤ began ∧ op.called ≤ began + 1) :
    Holds size { s with callers := Function.update s.callers r caller } past := by
  constructor
  case threads => exact h.threads
  case caller =>
    intro q began code hq
    by_cases hqr : q = r
    · subst hqr
      have hupdate : Function.update s.callers q caller q = caller := Function.update_self ..
      exact hcaller began code (hupdate.symm.trans hq)
    · have hupdate : Function.update s.callers r caller q = s.callers q :=
        Function.update_of_ne hqr ..
      exact h.caller q began code (hupdate.symm.trans hq)
  case ended => exact h.ended
  case ordered => exact h.ordered

/-- A call that returns. -/
theorem Holds.returns {s : Sys ρ} {past : List (ρ × Sighting)} (h : Holds size s past) {r : ρ}
    {op : Sighting} (hcounts : op.Counts) (hbegan : op.began ≤ s.threads.returned)
    (hcalled : op.called = s.threads.written.length)
    (hafter : ∀ op', (r, op') ∈ past → op'.began ≤ op.began ∧ op'.called ≤ op.began + 1)
    (hidle : s.callers r = none) : Holds size s (past ++ [(r, op)]) := by
  have hmem : ∀ q op', (q, op') ∈ past ++ [(r, op)] → (q, op') ∈ past ∨ q = r ∧ op' = op := by
    intro q op' hop
    simpa using hop
  constructor
  case threads => exact h.threads
  case caller =>
    intro q began code hq
    obtain ⟨hbegan, hasking, hpast⟩ := h.caller q began code hq
    refine ⟨hbegan, hasking, fun op' hop => ?_⟩
    rcases hmem q op' hop with hop | ⟨rfl, -⟩
    · exact hpast op' hop
    · rw [hidle] at hq
      cases hq
  case ended =>
    intro q op' hop
    rcases hmem q op' hop with hop | ⟨-, rfl⟩
    · exact h.ended q op' hop
    · exact ⟨hcounts, hbegan, Nat.le_of_eq hcalled⟩
  case ordered =>
    rw [List.pairwise_append]
    refine ⟨h.ordered, List.pairwise_singleton .., ?_⟩
    rintro ⟨q, op'⟩ hop b hb hqr
    obtain rfl := List.mem_singleton.mp hb
    obtain rfl : q = r := hqr
    obtain ⟨hearlier, hlast⟩ := hafter op' hop
    obtain ⟨-, -, hbefore⟩ := h.ended q op' hop
    exact ⟨hearlier, hcalled ▸ hbefore, hlast⟩

section Steps

variable [DecidableEq ρ]

theorem step_returned {s s' : Readers.Sys ρ} {a : Readers.Action ρ size}
    (hstep : s.step a = some s') : s.returned ≤ s'.returned := by
  cases a with
  | callWrite x =>
    simp only [Readers.Sys.step] at hstep
    split at hstep
    · simp at hstep
    · obtain rfl := Option.some.inj hstep
      exact Nat.le_refl _
  | writerAccess =>
    simp only [Readers.Sys.step] at hstep
    split at hstep
    · simp at hstep
    · obtain ⟨p, -, rfl⟩ := Option.map_eq_some_iff.mp hstep
      split
      · exact Nat.le_refl _
      · exact Nat.le_succ _
  | callRead r =>
    simp only [Readers.Sys.step] at hstep
    split at hstep
    · simp at hstep
    · obtain rfl := Option.some.inj hstep
      exact Nat.le_refl _
  | readerAccess r =>
    simp only [Readers.Sys.step] at hstep
    split at hstep
    · simp at hstep
    · obtain ⟨p, -, rfl⟩ := Option.map_eq_some_iff.mp hstep
      exact Nat.le_refl _

/-- A step of the writer or of a reader. -/
theorem Inv.other {s s' : Sys ρ} {past : List (ρ × Sighting)} {a : Readers.Action ρ size}
    (h : Inv size s past) (hstep : s.step (.other a) = some s') : Inv size s' past := by
  obtain ⟨t, ht, rfl⟩ := Option.map_eq_some_iff.mp hstep
  intro hbound
  have hprefix := (Readers.Sys.step_written ht).length_le
  have hlt : s.threads.written.length < 2 ^ 64 - 1 := Nat.lt_of_le_of_lt hprefix hbound
  have h := h hlt
  have hreturned := step_returned ht
  constructor
  case threads =>
    obtain ⟨read, hread⟩ := h.threads
    have hok : Readers.NoWrap s.threads a := by
      cases a with
      | callWrite x => trivial
      | writerAccess => trivial
      | callRead r => exact hlt
      | readerAccess r => exact hlt
    exact ⟨_, hread.step hok ht⟩
  case caller =>
    intro r began code hr
    obtain ⟨hbegan, hasking, hpast⟩ := h.caller r began code hr
    exact ⟨Nat.le_trans hbegan hreturned, hasking.later hreturned, hpast⟩
  case ended =>
    intro r op hop
    obtain ⟨hcounts, hbegan, hcalled⟩ := h.ended r op hop
    exact ⟨hcounts, Nat.le_trans hbegan hreturned, Nat.le_trans hcalled hprefix⟩
  case ordered => exact h.ordered

/-- A call of `GetVersion`. -/
theorem Inv.callVersion {s s' : Sys ρ} {past : List (ρ × Sighting)} {r : ρ}
    (h : Inv size s past) (hstep : s.step (.callVersion r : Action ρ size) = some s') :
    Inv size s' past := by
  simp only [Sys.step] at hstep
  split at hstep
  · simp at hstep
  · obtain rfl := Option.some.inj hstep
    intro hbound
    have h := h hbound
    refine h.caller_moves r _ ?_
    rintro _ _ ⟨⟩
    obtain ⟨read, hread⟩ := h.threads
    refine ⟨Nat.le_refl _, Or.inl rfl, fun op hop => ?_⟩
    obtain ⟨-, hbegan, hcalled⟩ := h.ended r op hop
    exact ⟨hbegan, Nat.le_trans hcalled (length_written hread)⟩

/-- An access of a caller. -/
theorem Inv.versionAccess {s s' : Sys ρ} {past : List (ρ × Sighting)} {r : ρ}
    (h : Inv size s past) (hstep : s.step (.versionAccess r : Action ρ size) = some s') :
    Inv size s' (past ++ s.sightings (.versionAccess r : Action ρ size)) := by
  simp only [Sys.step] at hstep
  simp only [Sys.sightings]
  split at hstep
  · simp at hstep
  · rename_i began code hr
    obtain ⟨⟨code', segment'⟩, hcode, rfl⟩ := Option.map_eq_some_iff.mp hstep
    intro hbound
    have h := h hbound
    obtain ⟨hbegan, hasking, hpast⟩ := h.caller r began code hr
    obtain ⟨read, hread⟩ := h.threads
    rcases hasking with rfl | ⟨n, hlow, hhigh, rfl⟩
    · -- the active slot
      have hload : getVersion.step s.threads.segment =
          some (Prog.load (.seq (s.threads.segment.word .active)), s.threads.segment) := rfl
      obtain ⟨rfl, rfl⟩ := Prod.mk.inj (Option.some.inj (hload.symm.trans hcode))
      rw [word_active hread] at hcode ⊢
      simp only [hcode, Prog.load, Prog.result]
      rw [List.append_nil]
      refine h.caller_moves r _ ?_
      rintro _ _ ⟨⟩
      exact ⟨hbegan, Or.inr ⟨_, hbegan, Nat.le_refl _, rfl⟩, hpast⟩
    · -- its number
      have hload : (Prog.load (.seq (slotOf n)) : Prog Var UInt64 UInt64).step s.threads.segment =
          some (Prog.ret (s.threads.segment.word (.seq (slotOf n))), s.threads.segment) := rfl
      obtain ⟨rfl, rfl⟩ := Prod.mk.inj (Option.some.inj (hload.symm.trans hcode))
      simp only [hcode]
      have hmoved : Holds size { s with callers := Function.update s.callers r none } past := by
        refine h.caller_moves r none ?_
        rintro _ _ ⟨⟩
      obtain ⟨hleast, hmost⟩ := word_seq_between hread hbound hhigh
      have hpairs : 2 * ((began + 1) / 2) ≤ 2 * ((n + 1) / 2) := by omega
      exact hmoved.returns ⟨Nat.le_trans hpairs hleast, hmost⟩ hbegan rfl hpast
        (Function.update_self ..)

theorem Inv.step {s s' : Sys ρ} {past : List (ρ × Sighting)} {a : Action ρ size}
    (h : Inv size s past) (hstep : s.step a = some s') : Inv size s' (past ++ s.sightings a) := by
  cases a with
  | other a =>
    rw [Sys.sightings, List.append_nil]
    exact h.other hstep
  | callVersion r =>
    rw [Sys.sightings, List.append_nil]
    exact h.callVersion hstep
  | versionAccess r => exact h.versionAccess hstep

end Steps

-- ---------------------------------------------------------------------------
-- Every run
-- ---------------------------------------------------------------------------

/-- What two versions tell, the first of which was returned before the second was asked for: the
second is smaller by two at most. To within one it is larger by a number of `Write`s, at least by
those that were called and returned in between, and at most by those that were called before the
second was given and had not returned when the first was asked for. If it is another version, there
was one of these. -/
structure Sighting.Tells (op op' : Sighting) : Prop where
  back : op.version.toNat ≤ op'.version.toNat + 2
  atLeast : op'.began + op.version.toNat ≤ op.called + op'.version.toNat + 1
  atMost : op'.version.toNat + op.began ≤ op.version.toNat + op'.called + 1
  changed : op'.version ≠ op.version → op.began < op'.called

theorem Sighting.Counts.tells {op op' : Sighting} (h : op.Counts) (h' : op'.Counts)
    (hbefore : op.Before op') : op.Tells op' := by
  obtain ⟨hbegan, hcalled, hafter⟩ := hbefore
  have hatLeast := h.atLeast
  have hatMost := h.atMost
  have hatLeast' := h'.atLeast
  have hatMost' := h'.atMost
  constructor
  case back => omega
  case atLeast => omega
  case atMost => omega
  case changed =>
    intro hne
    by_contra hno
    have hsame : op'.version.toNat = op.version.toNat := by omega
    exact hne (UInt64.toNat_inj.mp hsame)

variable [DecidableEq ρ]

/-- **Versions count `Write`s.** In every run with fewer than 2^64 - 1 `Write`s, beside any readers,
a version lies between the counts of the `Write`s that had returned when it was asked for and of
those that had been called when it was given, each made even; and two versions of one caller tell
how many `Write`s there were in between, to within one. -/
theorem versions_of_run {bytes : Segment} {acts : List (Action ρ size)} {s : Sys ρ}
    (hrun : Schedule.run Sys.step (Sys.initial bytes) acts = some s)
    (hbound : s.threads.written.length < 2 ^ 64 - 1) :
    (∀ r op, (r, op) ∈ Schedule.outputs Sys.step Sys.sightings (Sys.initial bytes) acts →
      op.Counts) ∧
    (Schedule.outputs Sys.step Sys.sightings (Sys.initial bytes) acts).Pairwise
      fun a b => a.1 = b.1 → a.2.Tells b.2 := by
  have hinv := Schedule.run_invariant_past Sys.step (Inv size)
    (fun _ _ _ _ h hstep => h.step hstep) (inv_initial bytes) hrun hbound
  refine ⟨fun r op hop => (hinv.ended r op hop).1, ?_⟩
  refine hinv.ordered.imp_of_mem ?_
  rintro ⟨q, op⟩ ⟨q', op'⟩ hop hop' hbefore hsame
  exact (hinv.ended q op hop).1.tells (hinv.ended q' op' hop').1 (hbefore hsame)

-- ---------------------------------------------------------------------------
-- One-byte states
-- ---------------------------------------------------------------------------

def others (acts : List (Readers.Action Unit 1)) : List (Action Unit 1) := acts.map .other

def wholeVersion : List (Action Unit 1) := [.callVersion (), .versionAccess (), .versionAccess ()]

/-- `GetVersion` loads `active`; the writer stores two more states but does not switch to the
second one, whose slot `GetVersion` now looks at. Then it switches, and stores a fourth. -/
def backAndSame : List (Action Unit 1) :=
  others (Readers.wholeWrite 1) ++ [.callVersion (), .versionAccess ()] ++
    others (Readers.wholeWrite 2 ++
      .callWrite (oneByte 3) :: List.replicate 5 .writerAccess) ++
    [.versionAccess ()] ++ wholeVersion ++ [.other .writerAccess] ++ wholeVersion ++
    others (Readers.wholeWrite 4) ++ wholeVersion

/-- The second version is smaller than the first by two. The last two are the same, though the
fourth `Write` was called and returned in between. -/
theorem versions_of_run_backAndSame :
    ∃ s, Schedule.run Sys.step (Sys.initial zeros) backAndSame = some s ∧
      Schedule.outputs Sys.step Sys.sightings (Sys.initial zeros) backAndSame =
        [((), ⟨1, 3, 4⟩), ((), ⟨2, 3, 2⟩), ((), ⟨3, 3, 4⟩), ((), ⟨4, 4, 4⟩)] ∧
      [((), (⟨1, 3, 4⟩ : Sighting)), ((), ⟨2, 3, 2⟩), ((), ⟨3, 3, 4⟩), ((), ⟨4, 4, 4⟩)].Pairwise
        fun a b => a.1 = b.1 → a.2.Tells b.2 := by
  have houts : Schedule.outputs Sys.step Sys.sightings (Sys.initial zeros) backAndSame =
      [((), ⟨1, 3, 4⟩), ((), ⟨2, 3, 2⟩), ((), ⟨3, 3, 4⟩), ((), ⟨4, 4, 4⟩)] := by decide +kernel
  have hends : (Schedule.run Sys.step (Sys.initial zeros) backAndSame).map
      (fun s => s.threads.written.length) = some 4 := by decide +kernel
  obtain ⟨s, hrun, hs⟩ := Option.map_eq_some_iff.mp hends
  exact ⟨s, hrun, houts, houts ▸ (versions_of_run hrun (by omega)).2⟩

end Zrtools.ShmCheckpoint.Version

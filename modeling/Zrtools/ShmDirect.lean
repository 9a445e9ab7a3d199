import Mathlib.Data.Finset.Card
import Mathlib.Data.Fintype.Card
import Zrtools.Lib.Schedule

/-!
# zrtools — the mapped value (`zrt_shm_direct.h`)

A `DirectShm<T>` maps one `T` behind a header. Its processes come one after the other, each of
which may be killed between any two accesses; the value stays for the next one. What a process
stores of a `T` it stores byte by byte, in any order. The order of the stores to the header and of
those to the value is that of the source.

* `contents_of_run` — where the bytes of the value come from;
* `returns_last_of_meets` — they are the last value that was stored, if no process was killed
  while it stored one;
* `opens_iff` — whether the segment can ever be used again: only a process that was killed
  between `create_only` and `truncate` prevents it, and then for good.
-/

namespace Zrtools.ShmDirect

-- ---------------------------------------------------------------------------
-- The code
-- ---------------------------------------------------------------------------

/-- `DirectShmHeader::MAGIC_VALUE`. -/
def magicValue : UInt32 := 0x5A525431

/-- A trivially copyable `T`: its bytes. -/
abbrev Value (n : Nat) := Fin n → UInt8

/-- The header and the value behind it. -/
structure Segment (n : Nat) where
  magic : UInt32
  dataSize : UInt32
  data : Value n

/-- The shared memory object of the name: not there, created without memory, or with memory. -/
inductive ShmObject (n : Nat) where
  | absent
  | empty
  | sized (s : Segment n)

variable {n : Nat}

/-- The memory that `truncate` adds is zero. -/
def Segment.zero : Segment n where
  magic := 0
  dataSize := 0
  data _ := 0

namespace ShmObject

/-- `truncate(sizeof(DirectShmHeader) + sizeof(T))`. -/
def truncate : ShmObject n → ShmObject n
  | .sized s => .sized s
  | _ => .sized .zero

/-- An access through the mapped region. -/
def modify (f : Segment n → Segment n) : ShmObject n → ShmObject n
  | .sized s => .sized (f s)
  | o => o

end ShmObject

/-- Where a process is: in `Initialize`; storing a value, with the bytes that are still to be
stored; or between two calls, with a handle that is valid or not. -/
inductive Phase (n : Nat) where
  | openOnly
  | remove
  | createOnly
  | truncate
  | map (isNew : Bool)
  | check (isNew : Bool)
  | magic
  | dataSize
  | sizeofT
  | storing (v : Value n) (left : Finset (Fin n))
  | valid
  | invalid

structure State (n : Nat) where
  object : ShmObject n
  process : Option (Phase n)

inductive Action (n : Nat) where
  | launch
  | next
  | storeByte (i : Fin n)
  | write (v : Value n)
  | reset
  | stop

/-- `header_->magic == MAGIC_VALUE` in an object that is not new. -/
def initialized (isNew : Bool) : ShmObject n → Bool
  | .sized s => !isNew && s.magic == magicValue
  | _ => false

/-- `create_only` fails where the object is there, and mapping where it has no memory. A process
that stores a value goes on when no byte is left. -/
def next (fresh : Value n) (o : ShmObject n) : Phase n → Option (ShmObject n × Phase n)
  | .openOnly => some (o, match o with | .absent => .remove | _ => .map false)
  | .remove => some (.absent, .createOnly)
  | .createOnly => some (match o with | .absent => (.empty, .truncate) | o => (o, .invalid))
  | .truncate => some (o.truncate, .map true)
  | .map isNew => some (o, match o with | .sized _ => .check isNew | _ => .invalid)
  | .check isNew => some (o, if initialized isNew o then .valid else .magic)
  | .magic => some (o.modify fun s => { s with magic := magicValue }, .dataSize)
  | .dataSize => some (o.modify fun s => { s with dataSize := 0 }, .sizeofT)
  | .sizeofT => some (o.modify fun s => { s with dataSize := UInt32.ofNat n }, .storing fresh .univ)
  | .storing _ left => if left = ∅ then some (o, .valid) else none
  | .valid => none
  | .invalid => none

/-- `Write` through a handle that is not valid ends the process; `Reset` does nothing then. -/
def step (fresh : Value n) (s : State n) : Action n → Option (State n)
  | .launch =>
    match s.process with
    | none => some { s with process := some .openOnly }
    | some _ => none
  | .next => s.process.bind fun p => (next fresh s.object p).map fun r => ⟨r.1, some r.2⟩
  | .storeByte i =>
    match s.process with
    | some (.storing v left) =>
      if i ∈ left then
        some ⟨s.object.modify fun g => { g with data := Function.update g.data i (v i) },
          some (.storing v (left.erase i))⟩
      else none
    | _ => none
  | .write v =>
    match s.process with
    | some .valid => some { s with process := some (.storing v .univ) }
    | some .invalid => some { s with process := none }
    | _ => none
  | .reset =>
    match s.process with
    | some .valid => some { s with process := some (.storing fresh .univ) }
    | some .invalid => some s
    | _ => none
  | .stop =>
    match s.process with
    | some _ => some { s with process := none }
    | none => none

/-- No object, and no process. -/
def start : State n where
  object := .absent
  process := none

-- ---------------------------------------------------------------------------
-- Stores
-- ---------------------------------------------------------------------------

/-- A store of a whole value begins or ends. -/
inductive Event (n : Nat) where
  | began (v : Value n)
  | ended

def events (fresh : Value n) (s : State n) : Action n → List (Event n)
  | .next =>
    match s.process with
    | some .sizeofT => [.began fresh]
    | some (.storing _ _) => [.ended]
    | _ => []
  | .write v =>
    match s.process with
    | some .valid => [.began v]
    | _ => []
  | .reset =>
    match s.process with
    | some .valid => [.began fresh]
    | _ => []
  | _ => []

/-- The values that a byte may be of: those of the stores that began since the last one that
ended, and the value of that one. At first all bytes are zero. -/
def candidates (past : List (Event n)) : List (Value n) :=
  past.foldl (fun c e => match e with
    | .began v => v :: c
    | .ended => c.take 1) [fun _ => 0]

theorem candidates_began (past : List (Event n)) (v : Value n) :
    candidates (past ++ [.began v]) = v :: candidates past := by
  rw [candidates, List.foldl_append]
  rfl

theorem candidates_ended (past : List (Event n)) :
    candidates (past ++ [.ended]) = (candidates past).take 1 := by
  rw [candidates, List.foldl_append]
  rfl

def began : Event n → Option (Value n)
  | .began v => some v
  | .ended => none

/-- The value that was stored last, whether or not to the end. -/
def lastBegan (past : List (Event n)) : Option (Value n) := (past.filterMap began).getLast?

theorem lastBegan_began (past : List (Event n)) (v : Value n) :
    lastBegan (past ++ [.began v]) = some v := by
  simp [lastBegan, began]

theorem lastBegan_ended (past : List (Event n)) :
    lastBegan (past ++ [.ended]) = lastBegan past := by
  simp [lastBegan, began]

/-- Each byte is one of a candidate. -/
def Bytes (g : Segment n) (past : List (Event n)) : Prop :=
  ∀ i, ∃ v ∈ candidates past, g.data i = v i

/-- The last store went to its end. -/
def Settled (past : List (Event n)) : Prop := ∃ v, lastBegan past = some v ∧ candidates past = [v]

theorem Bytes.began {g : Segment n} {past : List (Event n)} (h : Bytes g past) (v : Value n) :
    Bytes g (past ++ [.began v]) := by
  intro i
  obtain ⟨u, hu, hi⟩ := h i
  rw [candidates_began]
  exact ⟨u, List.mem_cons_of_mem _ hu, hi⟩

-- ---------------------------------------------------------------------------
-- The invariant
-- ---------------------------------------------------------------------------

/-- What killed processes may have left behind: an object without memory; a value that was not
stored to the end. -/
structure Terms where
  empty : Prop
  unsettled : Prop

variable (terms : Terms)

/-- An object that no process is changing. -/
def Resting (past : List (Event n)) : ShmObject n → Prop
  | .absent => past = []
  | .empty => terms.empty ∧ past = []
  | .sized g => Bytes g past ∧ ((g.magic ≠ magicValue ∧ past = []) ∨
      (g.magic = magicValue ∧ (terms.unsettled ∨ Settled past)))

/-- The object that a process in this phase works on. -/
def Phase.Holds (o : ShmObject n) (past : List (Event n)) : Phase n → Prop
  | .openOnly => Resting terms past o
  | .remove => o = .absent ∧ past = []
  | .createOnly => o = .absent ∧ past = []
  | .truncate => o = .empty ∧ past = []
  | .map false => o ≠ .absent ∧ Resting terms past o
  | .check false => ∃ g, o = .sized g ∧ Resting terms past o
  | .map true => ∃ g, o = .sized g ∧ Bytes g past ∧ g.magic ≠ magicValue ∧ past = []
  | .check true => ∃ g, o = .sized g ∧ Bytes g past ∧ g.magic ≠ magicValue ∧ past = []
  | .magic => ∃ g, o = .sized g ∧ Bytes g past ∧ g.magic ≠ magicValue ∧ past = []
  | .dataSize => ∃ g, o = .sized g ∧ Bytes g past ∧ g.magic = magicValue ∧ past = []
  | .sizeofT => ∃ g, o = .sized g ∧ Bytes g past ∧ g.magic = magicValue ∧ past = []
  | .storing v left => ∃ g, o = .sized g ∧ Bytes g past ∧ g.magic = magicValue ∧
      lastBegan past = some v ∧ (∃ rest, candidates past = v :: rest) ∧ ∀ i ∉ left, g.data i = v i
  | .valid => ∃ g, o = .sized g ∧ Bytes g past ∧ g.magic = magicValue ∧
      (terms.unsettled ∨ Settled past)
  | .invalid => terms.empty ∧ Resting terms past o

def Inv (s : State n) (past : List (Event n)) : Prop :=
  match s.process with
  | none => Resting terms past s.object
  | some p => p.Holds terms s.object past

/-- The object has been created without memory. -/
def Phase.isTruncate : Phase n → Bool
  | .truncate => true
  | _ => false

/-- The magic number is there, and a value is not or not to its end. -/
def Phase.isStoring : Phase n → Bool
  | .dataSize => true
  | .sizeofT => true
  | .storing _ _ => true
  | _ => false

/-- What a kill must not leave behind. -/
def Clean (s : State n) (a : Action n) : Prop :=
  ∀ p, a = .stop → s.process = some p →
    (p.isTruncate = true → terms.empty) ∧ (p.isStoring = true → terms.unsettled)

variable {terms} {s s' : State n} {past : List (Event n)} {fresh : Value n}

/-- What a process leaves that ends here. -/
theorem Phase.Holds.resting {o : ShmObject n} {p : Phase n} (h : p.Holds terms o past)
    (htruncate : p.isTruncate = true → terms.empty)
    (hstoring : p.isStoring = true → terms.unsettled) : Resting terms past o := by
  cases p with
  | openOnly => exact h
  | remove =>
    obtain ⟨rfl, hpast⟩ := h
    exact hpast
  | createOnly =>
    obtain ⟨rfl, hpast⟩ := h
    exact hpast
  | truncate =>
    obtain ⟨rfl, hpast⟩ := h
    exact ⟨htruncate rfl, hpast⟩
  | map isNew =>
    cases isNew with
    | false => exact h.2
    | true =>
      obtain ⟨g, rfl, hbytes, hmagic, hpast⟩ := h
      exact ⟨hbytes, Or.inl ⟨hmagic, hpast⟩⟩
  | check isNew =>
    cases isNew with
    | false =>
      obtain ⟨g, -, hresting⟩ := h
      exact hresting
    | true =>
      obtain ⟨g, rfl, hbytes, hmagic, hpast⟩ := h
      exact ⟨hbytes, Or.inl ⟨hmagic, hpast⟩⟩
  | magic =>
    obtain ⟨g, rfl, hbytes, hmagic, hpast⟩ := h
    exact ⟨hbytes, Or.inl ⟨hmagic, hpast⟩⟩
  | dataSize =>
    obtain ⟨g, rfl, hbytes, hmagic, -⟩ := h
    exact ⟨hbytes, Or.inr ⟨hmagic, Or.inl (hstoring rfl)⟩⟩
  | sizeofT =>
    obtain ⟨g, rfl, hbytes, hmagic, -⟩ := h
    exact ⟨hbytes, Or.inr ⟨hmagic, Or.inl (hstoring rfl)⟩⟩
  | storing v left =>
    obtain ⟨g, rfl, hbytes, hmagic, -⟩ := h
    exact ⟨hbytes, Or.inr ⟨hmagic, Or.inl (hstoring rfl)⟩⟩
  | valid =>
    obtain ⟨g, rfl, hbytes, hmagic, hsettled⟩ := h
    exact ⟨hbytes, Or.inr ⟨hmagic, hsettled⟩⟩
  | invalid => exact h.2

/-- The bytes of a segment that has just got its memory. -/
theorem bytes_zero : Bytes (Segment.zero : Segment n) [] := fun _ =>
  ⟨fun _ => 0, List.mem_singleton.mpr rfl, rfl⟩

/-- A value begins to be stored. -/
theorem holds_storing {g : Segment n} (hbytes : Bytes g past) (hmagic : g.magic = magicValue)
    (v : Value n) :
    (Phase.storing v .univ).Holds terms (.sized g) (past ++ [.began v]) :=
  ⟨g, rfl, hbytes.began v, hmagic, lastBegan_began past v,
    ⟨candidates past, candidates_began past v⟩, fun i hi => absurd (Finset.mem_univ i) hi⟩

/-- **One access of `Initialize`**, or the end of a store. -/
theorem Inv.next (h : Inv terms s past) (hnext : step fresh s .next = some s') :
    Inv terms s' (past ++ events fresh s .next) := by
  obtain ⟨o, process⟩ := s
  obtain ⟨p, hp, hstep⟩ := Option.bind_eq_some_iff.mp hnext
  obtain ⟨r, hr, rfl⟩ := Option.map_eq_some_iff.mp hstep
  obtain rfl : process = some p := hp
  have hholds : p.Holds terms o past := h
  cases p with
  | openOnly =>
    obtain rfl := Option.some.inj hr
    have hresting : Resting terms (past ++ []) o := (List.append_nil past).symm ▸ hholds
    cases o with
    | absent => exact ⟨rfl, hresting⟩
    | empty => exact ⟨by simp, hresting⟩
    | sized g => exact ⟨by simp, hresting⟩
  | remove =>
    obtain rfl := Option.some.inj hr
    exact ⟨rfl, (List.append_nil past).trans hholds.2⟩
  | createOnly =>
    obtain rfl := Option.some.inj hr
    obtain ⟨rfl, hpast⟩ := hholds
    exact ⟨rfl, (List.append_nil past).trans hpast⟩
  | truncate =>
    obtain rfl := Option.some.inj hr
    obtain ⟨rfl, rfl⟩ := hholds
    exact ⟨.zero, rfl, bytes_zero, (by decide : (0 : UInt32) ≠ magicValue), rfl⟩
  | map isNew =>
    obtain rfl := Option.some.inj hr
    cases isNew with
    | false =>
      obtain ⟨hthere, hholds⟩ := hholds
      have hresting : Resting terms (past ++ []) o := (List.append_nil past).symm ▸ hholds
      cases o with
      | absent => exact absurd rfl hthere
      | empty => exact ⟨hresting.1, hresting⟩
      | sized g => exact ⟨g, rfl, hresting⟩
    | true =>
      obtain ⟨g, rfl, hbytes, hmagic, rfl⟩ := hholds
      exact ⟨g, rfl, hbytes, hmagic, rfl⟩
  | check isNew =>
    obtain rfl := Option.some.inj hr
    cases isNew with
    | false =>
      obtain ⟨g, rfl, hbytes, ⟨hmagic, rfl⟩ | ⟨hmagic, hsettled⟩⟩ := hholds
      · have hinit : initialized false (.sized g) = false := by simp [initialized, hmagic]
        simp only [hinit]
        exact ⟨g, rfl, hbytes, hmagic, rfl⟩
      · have hinit : initialized false (.sized g) = true := by simp [initialized, hmagic]
        have hnone : past ++ events fresh ⟨.sized g, some (.check false)⟩ .next = past :=
          List.append_nil past
        simp only [hinit]
        rw [hnone]
        exact ⟨g, rfl, hbytes, hmagic, hsettled⟩
    | true =>
      obtain ⟨g, rfl, hbytes, hmagic, rfl⟩ := hholds
      have hinit : initialized true (.sized g) = false := rfl
      simp only [hinit]
      exact ⟨g, rfl, hbytes, hmagic, rfl⟩
  | magic =>
    obtain rfl := Option.some.inj hr
    obtain ⟨g, rfl, hbytes, -, rfl⟩ := hholds
    exact ⟨_, rfl, hbytes, rfl, rfl⟩
  | dataSize =>
    obtain rfl := Option.some.inj hr
    obtain ⟨g, rfl, hbytes, hmagic, rfl⟩ := hholds
    exact ⟨_, rfl, hbytes, hmagic, rfl⟩
  | sizeofT =>
    obtain rfl := Option.some.inj hr
    obtain ⟨g, rfl, hbytes, hmagic, rfl⟩ := hholds
    exact @holds_storing n terms [] { g with dataSize := UInt32.ofNat n } hbytes hmagic fresh
  | storing v left =>
    obtain ⟨g, rfl, hbytes, hmagic, hlast, ⟨rest, hcandidates⟩, hstored⟩ := hholds
    obtain ⟨rfl, hnext⟩ := Option.ite_none_right_eq_some.mp hr
    obtain rfl := Option.some.inj hnext
    have hone : candidates (past ++ [.ended]) = [v] := by rw [candidates_ended, hcandidates]; rfl
    refine ⟨g, rfl, fun i => ?_, hmagic, Or.inr ⟨v, ?_, hone⟩⟩
    · rw [events, hone]
      exact ⟨v, List.mem_singleton.mpr rfl, hstored i (by simp)⟩
    · rw [← hlast]
      exact lastBegan_ended past
  | valid => cases hr
  | invalid => cases hr

/-- **One step.** -/
theorem Inv.step {a : Action n} (h : Inv terms s past) (hclean : Clean terms s a)
    (hstep : ShmDirect.step fresh s a = some s') : Inv terms s' (past ++ events fresh s a) := by
  obtain ⟨o, process⟩ := s
  cases a with
  | launch =>
    cases process with
    | some p => cases hstep
    | none =>
      obtain rfl := Option.some.inj hstep
      exact (List.append_nil past).symm ▸ h
  | next => exact h.next hstep
  | storeByte i =>
    simp only [ShmDirect.step] at hstep
    split at hstep
    · rename_i v left
      obtain ⟨hi, hnext⟩ := Option.ite_none_right_eq_some.mp hstep
      obtain rfl := Option.some.inj hnext
      obtain ⟨g, rfl, hbytes, hmagic, hlast, ⟨rest, hcandidates⟩, hstored⟩ := h
      have hnone : past ++ events fresh ⟨.sized g, some (.storing v left)⟩ (.storeByte i) = past :=
        List.append_nil past
      rw [hnone]
      refine ⟨_, rfl, fun j => ?_, hmagic, hlast, ⟨rest, hcandidates⟩, fun j hj => ?_⟩
      · by_cases heq : j = i
        · subst heq
          exact ⟨v, by rw [hcandidates]; exact List.mem_cons_self .., Function.update_self ..⟩
        · obtain ⟨u, hu, huj⟩ := hbytes j
          exact ⟨u, hu, (Function.update_of_ne heq ..).trans huj⟩
      · by_cases heq : j = i
        · subst heq
          exact Function.update_self ..
        · refine (Function.update_of_ne heq ..).trans (hstored j fun hleft => hj ?_)
          exact Finset.mem_erase.mpr ⟨heq, hleft⟩
    · cases hstep
  | write v =>
    simp only [ShmDirect.step] at hstep
    split at hstep
    · obtain rfl := Option.some.inj hstep
      obtain ⟨g, rfl, hbytes, hmagic, -⟩ := h
      exact @holds_storing n terms past g hbytes hmagic v
    · obtain rfl := Option.some.inj hstep
      exact (List.append_nil past).symm ▸ h.2
    · cases hstep
  | reset =>
    simp only [ShmDirect.step] at hstep
    split at hstep
    · obtain rfl := Option.some.inj hstep
      obtain ⟨g, rfl, hbytes, hmagic, -⟩ := h
      exact @holds_storing n terms past g hbytes hmagic fresh
    · obtain rfl := Option.some.inj hstep
      exact (List.append_nil past).symm ▸ h
    · cases hstep
  | stop =>
    cases process with
    | none => cases hstep
    | some p =>
      obtain rfl := Option.some.inj hstep
      obtain ⟨htruncate, hstoring⟩ := hclean p rfl rfl
      have hresting := Phase.Holds.resting h htruncate hstoring
      exact (List.append_nil past).symm ▸ hresting

-- ---------------------------------------------------------------------------
-- The value
-- ---------------------------------------------------------------------------

/-- No process was killed while it stored a value, or between the magic number and the value. -/
def NotStoring (s : State n) (a : Action n) : Prop :=
  a = .stop → ∀ p, s.process = some p → p.isStoring = false

theorem NotStoring.clean {s : State n} {a : Action n} (h : NotStoring s a) :
    Clean ⟨True, False⟩ s a := by
  intro p hstop hp
  refine ⟨fun _ => trivial, fun hstoring => ?_⟩
  rw [h hstop p hp] at hstoring
  cases hstoring

theorem inv_start (terms : Terms) : Inv terms (start : State n) [] := rfl

/-- **Where the bytes come from.** A value that a process sees is made of the last value that was
stored to its end and of those that were not, and it is the last one if all went to their ends. -/
theorem contents_of_run {acts : List (Action n)}
    (hrun : Schedule.run (step fresh) start acts = some s) (hvalid : s.process = some .valid) :
    ∃ g, s.object = .sized g ∧ g.magic = magicValue ∧
      Bytes g (Schedule.outputs (step fresh) (events fresh) start acts) ∧
      (Schedule.StepsMeet (step fresh) NotStoring start acts →
        lastBegan (Schedule.outputs (step fresh) (events fresh) start acts) = some g.data) := by
  have hany : Inv ⟨True, True⟩ s (Schedule.outputs (step fresh) (events fresh) start acts) :=
    Schedule.run_invariant_past (step fresh) (Inv ⟨True, True⟩)
      (fun _ _ _ _ h hstep => h.step (fun _ _ _ => ⟨fun _ => trivial, fun _ => trivial⟩) hstep)
      (inv_start _) hrun
  obtain ⟨o, process⟩ := s
  obtain rfl : process = _ := hvalid
  obtain ⟨g, rfl, hbytes, hmagic, -⟩ := hany
  refine ⟨g, rfl, hmagic, hbytes, fun hclean => ?_⟩
  have hsettled : Inv ⟨True, False⟩ _
      ([] ++ Schedule.outputs (step fresh) (events fresh) start acts) :=
    Schedule.run_invariant_outputs (step fresh) (Inv ⟨True, False⟩)
      (fun s a s' past h hok hstep => h.step hok.clean hstep) (inv_start _) hclean hrun
  obtain ⟨g', heq, hbytes', -, hnot | ⟨v, hlast, hone⟩⟩ := hsettled
  · exact hnot.elim
  · obtain rfl : g = g' := by cases heq; rfl
    have hdata : g.data = v := by
      funext i
      obtain ⟨u, hu, hi⟩ := hbytes' i
      rw [hone, List.mem_singleton] at hu
      rw [hi, hu]
    rw [hdata]
    exact hlast

/-- A value that is written over `T()`, by a process that is killed after the first byte. -/
theorem contents_of_run_torn :
    ∃ s : State 2, Schedule.run (step fun _ => 7) start
        ([.launch] ++ List.replicate 9 .next ++ [.storeByte 0, .storeByte 1, .next,
          .write fun _ => 9, .storeByte 0, .stop, .launch, .next, .next, .next]) = some s ∧
      ∃ g, s.object = .sized g ∧ ∀ i, g.data i = 9 ∨ g.data i = 7 := by
  have hrun : Schedule.run (step fun _ => 7) (start : State 2)
    ([.launch] ++ List.replicate 9 .next ++ [.storeByte 0, .storeByte 1, .next,
      .write fun _ => 9, .storeByte 0, .stop, .launch, .next, .next, .next]) = some _ := rfl
  obtain ⟨g, hobject, -, hbytes, -⟩ := contents_of_run hrun rfl
  refine ⟨_, hrun, g, hobject, fun i => ?_⟩
  obtain ⟨v, hv, hi⟩ := hbytes i
  have hcandidates : v ∈ [(fun _ => 9 : Value 2), fun _ => 7] := hv
  rw [hi]
  rcases List.mem_cons.mp hcandidates with rfl | hv
  · exact Or.inl rfl
  · obtain rfl := List.mem_singleton.mp hv
    exact Or.inr rfl

-- ---------------------------------------------------------------------------
-- Opening
-- ---------------------------------------------------------------------------

/-- No process was killed between `create_only` and `truncate`. -/
def NotCreating (s : State n) (a : Action n) : Prop :=
  a = .stop → ∀ p, s.process = some p → p.isTruncate = false

theorem NotCreating.clean {s : State n} {a : Action n} (h : NotCreating s a) :
    Clean ⟨False, True⟩ s a := by
  intro p hstop hp
  refine ⟨fun htruncate => ?_, fun _ => trivial⟩
  rw [h hstop p hp] at htruncate
  cases htruncate

/-- The steps that a process has in front of it until its handle is valid. -/
def Phase.left : Phase n → Nat
  | .openOnly => n + 12
  | .remove => n + 11
  | .createOnly => n + 10
  | .truncate => n + 9
  | .map _ => n + 8
  | .check _ => n + 7
  | .magic => n + 6
  | .dataSize => n + 5
  | .sizeofT => n + 4
  | .storing _ left => left.card + 1
  | .valid => 0
  | .invalid => 0

def State.left (s : State n) : Nat :=
  match s.process with
  | none => n + 13
  | some p => p.left

theorem left_next {o : ShmObject n} {p : Phase n} {r : ShmObject n × Phase n}
    (h : ShmDirect.next fresh o p = some r) : r.2.left < p.left := by
  cases p with
  | openOnly =>
    obtain rfl := Option.some.inj h
    cases o <;> simp [Phase.left]
  | remove =>
    obtain rfl := Option.some.inj h
    simp [Phase.left]
  | createOnly =>
    obtain rfl := Option.some.inj h
    cases o <;> simp [Phase.left]
  | truncate =>
    obtain rfl := Option.some.inj h
    simp [Phase.left]
  | map isNew =>
    obtain rfl := Option.some.inj h
    cases o <;> simp [Phase.left]
  | check isNew =>
    obtain rfl := Option.some.inj h
    dsimp only
    split <;> simp [Phase.left]
  | magic =>
    obtain rfl := Option.some.inj h
    simp [Phase.left]
  | dataSize =>
    obtain rfl := Option.some.inj h
    simp [Phase.left]
  | sizeofT =>
    obtain rfl := Option.some.inj h
    simp only [Phase.left, Finset.card_univ, Fintype.card_fin]
    omega
  | storing v left =>
    obtain ⟨-, hnext⟩ := Option.ite_none_right_eq_some.mp h
    obtain rfl := Option.some.inj hnext
    simp [Phase.left]
  | valid => cases h
  | invalid => cases h

/-- A process whose handle is not valid yet can go on. -/
theorem exists_step (h : Inv ⟨False, True⟩ s past) (hvalid : s.process ≠ some .valid) :
    ∃ a s', step fresh s a = some s' ∧ NotCreating s a ∧ s'.left < s.left := by
  obtain ⟨o, process⟩ := s
  cases process with
  | none => exact ⟨.launch, _, rfl, (nomatch ·), Nat.lt_succ_self _⟩
  | some p =>
    cases hnext : ShmDirect.next fresh o p with
    | some r =>
      refine ⟨.next, ⟨r.1, some r.2⟩, ?_, (nomatch ·), left_next hnext⟩
      simp [step, hnext]
    | none =>
      cases p with
      | storing v left =>
        obtain ⟨i, hi⟩ : left.Nonempty := by
          rw [Finset.nonempty_iff_ne_empty]
          rintro rfl
          cases hnext
        refine ⟨.storeByte i, _, if_pos hi, (nomatch ·), ?_⟩
        have hcard := Finset.card_erase_lt_of_mem hi
        simpa [State.left, Phase.left] using hcard
      | valid => exact absurd rfl hvalid
      | invalid => exact h.1.elim
      | _ => cases hnext

/-- An object that got no memory, and processes that can do nothing with it. -/
def Lost (s : State n) : Prop :=
  s.object = .empty ∧
    (s.process = none ∨ s.process = some .openOnly ∨ s.process = some (.map false) ∨
      s.process = some .invalid)

theorem Lost.step {a : Action n} (h : Lost s) (hstep : ShmDirect.step fresh s a = some s') :
    Lost s' := by
  obtain ⟨o, process⟩ := s
  obtain ⟨rfl, rfl | rfl | rfl | rfl⟩ := h <;>
    cases a <;> simp [ShmDirect.step, ShmDirect.next] at hstep <;> subst hstep <;> simp [Lost]

/-- A kill between `create_only` and `truncate`. -/
theorem lost_of_creating {a : Action n} (h : Inv terms s past) (hcreating : ¬NotCreating s a)
    (hstep : step fresh s a = some s') : Lost s' := by
  obtain ⟨o, process⟩ := s
  unfold NotCreating at hcreating
  push Not at hcreating
  obtain ⟨rfl, p, hp, htruncate⟩ := hcreating
  obtain rfl : process = some p := hp
  obtain rfl := Option.some.inj hstep
  cases p with
  | truncate => exact ⟨h.1, Or.inl rfl⟩
  | _ => simp [Phase.isTruncate] at htruncate

/-- From where no process was killed there, one gets a valid handle. -/
theorem Inv.exists_valid (h : Inv ⟨False, True⟩ s past) :
    ∃ more s', Schedule.run (ShmDirect.step fresh) s more = some s' ∧ s'.process = some .valid := by
  obtain ⟨more, s', hrun, -, hvalid⟩ := Schedule.exists_run_to (ShmDirect.step fresh)
    (fun s => ∃ past, Inv ⟨False, True⟩ s past) (fun s => s.process = some .valid) State.left
    (fun s ⟨past, h⟩ hnot => by
      obtain ⟨a, t, hstep, hok, hless⟩ := @exists_step n s past fresh h hnot
      have hone : Schedule.run (ShmDirect.step fresh) s [a] = some t :=
        (Schedule.run_cons _).mpr ⟨t, hstep, rfl⟩
      have hmeets : Schedule.StepsMeet (ShmDirect.step fresh) NotCreating s [a] :=
        ⟨hok, fun _ _ => trivial⟩
      exact ⟨[a], t, hone, hmeets, ⟨_, h.step hok.clean hstep⟩, hless⟩) ⟨past, h⟩
  exact ⟨more, s', hrun, hvalid⟩

theorem Inv.exists_valid_iff (h : Inv ⟨False, True⟩ s past) {acts : List (Action n)}
    (hrun : Schedule.run (ShmDirect.step fresh) s acts = some s') :
    (∃ more t, Schedule.run (ShmDirect.step fresh) s' more = some t ∧ t.process = some .valid) ↔
      Schedule.StepsMeet (ShmDirect.step fresh) NotCreating s acts := by
  induction acts generalizing s past with
  | nil =>
    obtain rfl := Option.some.inj hrun
    exact iff_of_true h.exists_valid trivial
  | cons a acts ih =>
    obtain ⟨u, hu, hrest⟩ := (Schedule.run_cons _).mp hrun
    by_cases hok : NotCreating s a
    · rw [ih (h.step hok.clean hu) hrest]
      refine ⟨fun hlater => ⟨hok, fun v hv => ?_⟩, fun hmeets => hmeets.2 u hu⟩
      rw [hu] at hv
      cases hv
      exact hlater
    · -- the object has no memory from here on
      refine iff_of_false ?_ fun hmeets => hok hmeets.1
      rintro ⟨more, t, hmore, hvalid⟩
      have hlost := Schedule.run_invariant (ShmDirect.step fresh) Lost
        (fun _ _ _ hl hstep => hl.step hstep) (lost_of_creating h hok hu)
        (Schedule.run_append _ hrest more ▸ hmore)
      simp [Lost, hvalid] at hlost

/-- **When the segment can be used.** From where a run has led a process can still get a valid
handle, unless one was killed between `create_only` and `truncate`. -/
theorem opens_iff {acts : List (Action n)}
    (hrun : Schedule.run (step fresh) start acts = some s) :
    (∃ more t, Schedule.run (step fresh) s more = some t ∧ t.process = some .valid) ↔
      Schedule.StepsMeet (step fresh) NotCreating start acts := by
  have hstart : Inv ⟨False, True⟩ (start : State n) [] := inv_start _
  exact hstart.exists_valid_iff hrun

/-- A process that is killed after `create_only`. -/
theorem opens_iff_creating :
    ∃ s : State 2, Schedule.run (step fun _ => 7) start [.launch, .next, .next, .next, .stop] =
        some s ∧
      ¬∃ more t, Schedule.run (step fun _ => 7) s more = some t ∧ t.process = some .valid := by
  have hrun : Schedule.run (step fun _ => 7) (start : State 2)
    [.launch, .next, .next, .next, .stop] = some ⟨.empty, none⟩ := rfl
  refine ⟨_, hrun, fun hopens => ?_⟩
  have hmeets := (opens_iff hrun).mp hopens
  obtain ⟨-, h⟩ := hmeets
  obtain ⟨-, h⟩ := h _ rfl
  obtain ⟨-, h⟩ := h _ rfl
  obtain ⟨-, h⟩ := h _ rfl
  exact absurd (h _ rfl).1 fun hnot => absurd (hnot rfl _ rfl) (by decide)

end Zrtools.ShmDirect

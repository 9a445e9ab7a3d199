import Mathlib.Algebra.Order.Ring.Rat
import Mathlib.Data.List.Basic
import Zrtools.Lib.Schedule

/-!
# zrtools — `TimeBuffer` among threads (`time_buffer.h`)

`Push` and `ForEach` read the clock first, and then lock: a reading and a locked section are two
steps of a thread, and the steps of other threads come in between. Both sections drop expired
elements, but from the front only.

* `step_bufferInv`, `step_liveInv` — what a step keeps: always, and where a `Push` locks in the
  order of the readings;
* `forEach_shows_live` — so in every run nothing is lost, shown twice or dropped too early, and
  where every `Push` keeps the order nothing expired is shown;
* `forEach_shows_expired` — but two threads can lock in the other order.
-/

namespace Zrtools.Time

variable {τ α : Type}

-- ---------------------------------------------------------------------------
-- The code
-- ---------------------------------------------------------------------------

/-- `TimeBuffer::Element`. -/
structure Element (α : Type) where
  time : ℚ
  data : α
  deriving DecidableEq

/-- The loop that pops expired elements off the front. -/
def evict (limit now : ℚ) : List (Element α) → List (Element α)
  | [] => []
  | e :: buffer => if limit < now - e.time then evict limit now buffer else e :: buffer

/-- What it pops. -/
def evicted (limit now : ℚ) : List (Element α) → List (Element α)
  | [] => []
  | e :: buffer => if limit < now - e.time then e :: evicted limit now buffer else []

/-- Where a thread is: before a call, or between its reading and its locked section. -/
inductive Pc (α : Type)
  | idle
  | push (now : ℚ) (data : α)
  | forEach (now : ℚ)
  deriving DecidableEq

structure BufferSys (τ α : Type) where
  clock : ℚ
  pc : τ → Pc α
  buffer : List (Element α)

namespace BufferSys

def initial (clock : ℚ) : BufferSys τ α where
  clock
  pc := fun _ => .idle
  buffer := []

/-- A step of a thread: the reading of a call, or the locked section of the call it is in. -/
inductive Action (τ α : Type)
  | readPush (t : τ) (data : α) (now : ℚ)
  | readForEach (t : τ) (now : ℚ)
  | locked (t : τ)
  deriving DecidableEq

/-- What a locked section did: it stored an element, dropped one, or called `func` on some in
turn. -/
inductive Event (α : Type)
  | stored (e : Element α)
  | dropped (now : ℚ) (e : Element α)
  | shown (now : ℚ) (es : List (Element α))
  deriving DecidableEq

variable [DecidableEq τ]

/-- The clock never goes backwards. -/
def step (limit : ℚ) (s : BufferSys τ α) : Action τ α → Option (BufferSys τ α)
  | .readPush t data now =>
    match s.pc t with
    | .idle =>
      if s.clock ≤ now then
        some { s with clock := now, pc := Function.update s.pc t (.push now data) }
      else none
    | _ => none
  | .readForEach t now =>
    match s.pc t with
    | .idle =>
      if s.clock ≤ now then
        some { s with clock := now, pc := Function.update s.pc t (.forEach now) }
      else none
    | _ => none
  | .locked t =>
    match s.pc t with
    | .idle => none
    | .push now data =>
      some { s with
        pc := Function.update s.pc t .idle
        buffer := evict limit now (s.buffer ++ [⟨now, data⟩]) }
    | .forEach now =>
      some { s with
        pc := Function.update s.pc t .idle
        buffer := evict limit now s.buffer }

def events (limit : ℚ) (s : BufferSys τ α) : Action τ α → List (Event α)
  | .readPush .. => []
  | .readForEach .. => []
  | .locked t =>
    match s.pc t with
    | .idle => []
    | .push now data =>
      .stored ⟨now, data⟩ ::
        (evicted limit now (s.buffer ++ [⟨now, data⟩])).map (Event.dropped now)
    | .forEach now =>
      (evicted limit now s.buffer).map (Event.dropped now) ++
        [.shown now (evict limit now s.buffer)]

/-- The effects of a step on the buffer. -/
theorem step_cases {limit : ℚ} {s s' : BufferSys τ α} {a : Action τ α}
    (h : s.step limit a = some s') :
    (s'.buffer = s.buffer ∧ s.events limit a = [] ∧ ∀ t, a ≠ .locked t) ∨
      (∃ t now data, a = .locked t ∧ s.pc t = .push now data ∧
        s'.buffer = evict limit now (s.buffer ++ [⟨now, data⟩]) ∧
        s.events limit a = .stored ⟨now, data⟩ ::
          (evicted limit now (s.buffer ++ [⟨now, data⟩])).map (Event.dropped now)) ∨
      ∃ t now, a = .locked t ∧ s.pc t = .forEach now ∧ s'.buffer = evict limit now s.buffer ∧
        s.events limit a = (evicted limit now s.buffer).map (Event.dropped now) ++
          [.shown now (evict limit now s.buffer)] := by
  cases a with
  | readPush t data now =>
    refine Or.inl ⟨?_, rfl, nofun⟩
    rw [step] at h
    split at h
    · split_ifs at h
      cases h
      rfl
    · cases h
  | readForEach t now =>
    refine Or.inl ⟨?_, rfl, nofun⟩
    rw [step] at h
    split at h
    · split_ifs at h
      cases h
      rfl
    · cases h
  | locked t =>
    rw [step] at h
    cases hpc : s.pc t with
    | idle =>
      rw [hpc] at h
      cases h
    | push now data =>
      rw [hpc] at h
      cases h
      exact Or.inr (Or.inl ⟨t, now, data, rfl, hpc, rfl, by rw [events, hpc]⟩)
    | forEach now =>
      rw [hpc] at h
      cases h
      exact Or.inr (Or.inr ⟨t, now, rfl, hpc, rfl, by rw [events, hpc]⟩)

end BufferSys

open BufferSys

-- ---------------------------------------------------------------------------
-- Popping
-- ---------------------------------------------------------------------------

theorem evicted_append_evict (limit now : ℚ) (buffer : List (Element α)) :
    evicted limit now buffer ++ evict limit now buffer = buffer := by
  induction buffer with
  | nil => rfl
  | cons e buffer ih =>
    rw [evicted, evict]
    split_ifs
    · rw [List.cons_append, ih]
    · rfl

/-- Only expired elements are popped. -/
theorem expired_of_mem_evicted {limit now : ℚ} {buffer : List (Element α)} {e : Element α}
    (h : e ∈ evicted limit now buffer) : limit < now - e.time := by
  induction buffer with
  | nil => cases h
  | cons x buffer ih =>
    rw [evicted] at h
    split_ifs at h with hx
    · rcases List.mem_cons.mp h with rfl | h
      · exact hx
      · exact ih h
    · cases h

theorem evict_sublist (limit now : ℚ) (buffer : List (Element α)) :
    (evict limit now buffer).Sublist buffer := by
  have h := List.sublist_append_right (evicted limit now buffer) (evict limit now buffer)
  rwa [evicted_append_evict] at h

/-- The elements in the order of their readings. -/
def InTime (buffer : List (Element α)) : Prop := buffer.Pairwise fun e e' => e.time ≤ e'.time

/-- All of them are popped, if they are in the order of their readings. -/
theorem live_of_mem_evict {limit now : ℚ} {buffer : List (Element α)} (hbuffer : InTime buffer)
    {e : Element α} (h : e ∈ evict limit now buffer) : now - e.time ≤ limit := by
  induction buffer with
  | nil => cases h
  | cons x buffer ih =>
    obtain ⟨hfirst, hrest⟩ := List.pairwise_cons.mp hbuffer
    rw [evict] at h
    split_ifs at h with hx
    · exact ih hrest h
    · have hlive : now - x.time ≤ limit := not_lt.mp hx
      rcases List.mem_cons.mp h with rfl | h
      · exact hlive
      · exact le_trans (sub_le_sub_left (hfirst e h) now) hlive

-- ---------------------------------------------------------------------------
-- What every run keeps
-- ---------------------------------------------------------------------------

/-- The elements stored so far, and those dropped. -/
def storedOf (log : List (Event α)) : List (Element α) :=
  log.filterMap fun
    | .stored e => some e
    | _ => none

def droppedOf (log : List (Event α)) : List (Element α) :=
  log.filterMap fun
    | .dropped _ e => some e
    | _ => none

/-- Every `ForEach` shows what is stored and not dropped, in that order. -/
def ShowsStored (log : List (Event α)) : Prop :=
  ∀ front now es rest, log = front ++ .shown now es :: rest →
    storedOf front = droppedOf front ++ es

/-- An element is dropped only when it is expired. -/
def DropsExpired (limit : ℚ) (log : List (Event α)) : Prop :=
  ∀ now e, .dropped now e ∈ log → limit < now - e.time

/-- No expired element is shown. -/
def ShowsLive (limit : ℚ) (log : List (Event α)) : Prop :=
  ∀ now es, .shown now es ∈ log → ∀ e ∈ es, now - e.time ≤ limit

structure BufferInv (limit : ℚ) (s : BufferSys τ α) (log : List (Event α)) : Prop where
  elements : storedOf log = droppedOf log ++ s.buffer
  shows : ShowsStored log
  drops : DropsExpired limit log

theorem storedOf_append (log log' : List (Event α)) :
    storedOf (log ++ log') = storedOf log ++ storedOf log' := List.filterMap_append ..

theorem droppedOf_append (log log' : List (Event α)) :
    droppedOf (log ++ log') = droppedOf log ++ droppedOf log' := List.filterMap_append ..

@[simp] theorem storedOf_dropped (now : ℚ) (es : List (Element α)) :
    storedOf (es.map (Event.dropped now)) = [] := by
  rw [storedOf, List.filterMap_map]
  exact List.filterMap_eq_nil_iff.mpr fun _ _ => rfl

@[simp] theorem droppedOf_dropped (now : ℚ) (es : List (Element α)) :
    droppedOf (es.map (Event.dropped now)) = es := by
  rw [droppedOf, List.filterMap_map]
  exact List.filterMap_some ..

theorem shown_not_mem_dropped (now now' : ℚ) (es es' : List (Element α)) :
    Event.shown now' es' ∉ es.map (Event.dropped now) := by
  intro h
  obtain ⟨_, -, heq⟩ := List.mem_map.mp h
  cases heq

/-- Later events show what is stored, given what came before. -/
theorem showsStored_append {past out : List (Event α)} (hpast : ShowsStored past)
    (hout : ∀ front now es rest, out = front ++ .shown now es :: rest →
      storedOf (past ++ front) = droppedOf (past ++ front) ++ es) :
    ShowsStored (past ++ out) := by
  intro front now es rest heq
  rcases List.append_eq_append_iff.mp heq with ⟨later, rfl, hlater⟩ | ⟨earlier, hearlier, hevent⟩
  · exact hout later now es rest hlater
  · cases earlier with
    | nil =>
      rw [List.append_nil] at hearlier
      subst hearlier
      have hnow := hout [] now es rest hevent.symm
      rwa [List.append_nil] at hnow
    | cons x earlier =>
      rw [List.cons_append, List.cons.injEq] at hevent
      obtain ⟨rfl, -⟩ := hevent
      exact hpast front now es earlier hearlier

theorem dropsExpired_append {limit : ℚ} {past out : List (Event α)}
    (hpast : DropsExpired limit past) (hout : DropsExpired limit out) :
    DropsExpired limit (past ++ out) := fun now e h =>
  (List.mem_append.mp h).elim (hpast now e) (hout now e)

theorem dropsExpired_evicted (limit now : ℚ) (buffer : List (Element α)) :
    DropsExpired limit ((evicted limit now buffer).map (Event.dropped now)) := by
  intro now' e h
  obtain ⟨e', he', heq⟩ := List.mem_map.mp h
  cases heq
  exact expired_of_mem_evicted he'

variable [DecidableEq τ]

/-- **One step** keeps what every run keeps. -/
theorem step_bufferInv {limit : ℚ} (s : BufferSys τ α) (a : Action τ α) (s' : BufferSys τ α)
    (past : List (Event α)) (h : BufferInv limit s past) (hstep : s.step limit a = some s') :
    BufferInv limit s' (past ++ s.events limit a) := by
  rcases step_cases hstep with ⟨hbuffer, hevents, -⟩ | ⟨t, now, data, -, -, hbuffer, hevents⟩ |
    ⟨t, now, -, -, hbuffer, hevents⟩
  · rw [hevents, List.append_nil]
    exact ⟨by rw [hbuffer]; exact h.elements, h.shows, h.drops⟩
  · rw [hevents]
    constructor
    · have hsplit := evicted_append_evict limit now (s.buffer ++ [⟨now, data⟩])
      rw [storedOf_append, droppedOf_append, h.elements, hbuffer, List.append_assoc,
        List.append_assoc]
      show droppedOf past ++ (s.buffer ++ ([⟨now, data⟩] ++ storedOf _)) =
        droppedOf past ++ (droppedOf (List.map _ _) ++ _)
      rw [storedOf_dropped, droppedOf_dropped, List.append_nil, hsplit]
    · refine showsStored_append h.shows fun front now' es rest heq => ?_
      -- a `Push` shows nothing
      have hmem : Event.shown now' es ∈ Event.stored ⟨now, data⟩ ::
          (evicted limit now (s.buffer ++ [⟨now, data⟩])).map (Event.dropped now) := by
        rw [heq]
        exact List.mem_append_right _ (List.mem_cons_self ..)
      rcases List.mem_cons.mp hmem with heq | hmem
      · cases heq
      · exact (shown_not_mem_dropped _ _ _ _ hmem).elim
    · refine dropsExpired_append h.drops fun now' e hmem => ?_
      rcases List.mem_cons.mp hmem with heq | hmem
      · cases heq
      · exact dropsExpired_evicted _ _ _ now' e hmem
  · rw [hevents]
    constructor
    · have hsplit := evicted_append_evict limit now s.buffer
      rw [storedOf_append, droppedOf_append, h.elements, hbuffer, storedOf_append,
        droppedOf_append, storedOf_dropped, droppedOf_dropped]
      show droppedOf past ++ s.buffer ++ [] = droppedOf past ++ (_ ++ []) ++ _
      rw [List.append_nil, List.append_nil, List.append_assoc, hsplit]
    · refine showsStored_append h.shows fun front now' es rest heq => ?_
      -- it is the last event, after what the section drops
      obtain ⟨rfl, heq, -⟩ := (List.append_cons_inj_of_notMem
        (shown_not_mem_dropped _ _ _ _) List.not_mem_nil).mp heq
      cases heq
      rw [storedOf_append, droppedOf_append, storedOf_dropped, droppedOf_dropped, List.append_nil,
        h.elements, List.append_assoc, evicted_append_evict]
    · refine dropsExpired_append h.drops (dropsExpired_append (dropsExpired_evicted _ _ _) ?_)
      intro now' e hmem
      cases List.mem_singleton.mp hmem

-- ---------------------------------------------------------------------------
-- Readings and locks
-- ---------------------------------------------------------------------------

/-- A `Push` locks after the calls whose elements it finds have read the clock. -/
def InOrder (s : BufferSys τ α) : Action τ α → Prop
  | .locked t => ∀ now data, s.pc t = .push now data → ∀ e ∈ s.buffer, e.time ≤ now
  | _ => True

/-- The buffer stays sorted, and what is shown is live. -/
structure LiveInv (limit : ℚ) (s : BufferSys τ α) (log : List (Event α)) : Prop where
  inTime : InTime s.buffer
  shows : ShowsLive limit log

theorem showsLive_append {limit : ℚ} {past out : List (Event α)} (hpast : ShowsLive limit past)
    (hout : ShowsLive limit out) : ShowsLive limit (past ++ out) := fun now es h =>
  (List.mem_append.mp h).elim (hpast now es) (hout now es)

theorem showsLive_dropped (limit now : ℚ) (es : List (Element α)) :
    ShowsLive limit (es.map (Event.dropped now)) := fun _ _ h =>
  (shown_not_mem_dropped _ _ _ _ h).elim

/-- **One step in order** keeps the buffer sorted and shows live elements. -/
theorem step_liveInv {limit : ℚ} (s : BufferSys τ α) (a : Action τ α) (s' : BufferSys τ α)
    (past : List (Event α)) (h : LiveInv limit s past) (hok : InOrder s a)
    (hstep : s.step limit a = some s') : LiveInv limit s' (past ++ s.events limit a) := by
  rcases step_cases hstep with ⟨hbuffer, hevents, -⟩ | ⟨t, now, data, rfl, hpc, hbuffer, hevents⟩ |
    ⟨t, now, -, -, hbuffer, hevents⟩
  · rw [hevents, List.append_nil]
    exact ⟨by rw [hbuffer]; exact h.inTime, h.shows⟩
  · rw [hevents]
    have hpush : InTime (s.buffer ++ [⟨now, data⟩]) := by
      refine List.pairwise_append.mpr ⟨h.inTime, List.pairwise_singleton .., fun e he e' he' => ?_⟩
      obtain rfl := List.mem_singleton.mp he'
      exact hok now data hpc e he
    refine ⟨by rw [hbuffer]; exact hpush.sublist (evict_sublist ..), ?_⟩
    refine showsLive_append h.shows fun now' es hmem => ?_
    rcases List.mem_cons.mp hmem with heq | hmem
    · cases heq
    · exact showsLive_dropped _ _ _ now' es hmem
  · rw [hevents]
    refine ⟨by rw [hbuffer]; exact h.inTime.sublist (evict_sublist ..), ?_⟩
    refine showsLive_append h.shows (showsLive_append (showsLive_dropped _ _ _) ?_)
    intro now' es hmem e he
    cases List.mem_singleton.mp hmem
    exact live_of_mem_evict h.inTime he

-- ---------------------------------------------------------------------------
-- Runs
-- ---------------------------------------------------------------------------

/-- The events of a run. -/
def logOf (limit clock : ℚ) (acts : List (Action τ α)) : List (Event α) :=
  Schedule.outputs (BufferSys.step limit) (BufferSys.events limit) (BufferSys.initial clock) acts

theorem run_bufferInv {limit clock : ℚ} {acts : List (Action τ α)} {s : BufferSys τ α}
    (hrun : Schedule.run (BufferSys.step limit) (.initial clock) acts = some s) :
    BufferInv limit s (logOf limit clock acts) := by
  refine Schedule.run_invariant_past _ (BufferInv limit) step_bufferInv ⟨rfl, ?_, nofun⟩ hrun
  intro front now es rest heq
  simp at heq

/-- **`ForEach` shows what is stored, once**, in every run; an element is dropped only by a section
whose reading finds it expired; and where every `Push` locks in the order of the readings, what is
shown is live. -/
theorem forEach_shows_live {limit clock : ℚ} {acts : List (Action τ α)} {s : BufferSys τ α}
    (hrun : Schedule.run (BufferSys.step limit) (.initial clock) acts = some s) :
    (storedOf (logOf limit clock acts) = droppedOf (logOf limit clock acts) ++ s.buffer ∧
      ShowsStored (logOf limit clock acts) ∧ DropsExpired limit (logOf limit clock acts)) ∧
    (Schedule.StepsMeet (BufferSys.step limit) InOrder (.initial clock) acts →
      ShowsLive limit (logOf limit clock acts)) := by
  have hinv := run_bufferInv hrun
  refine ⟨⟨hinv.elements, hinv.shows, hinv.drops⟩, fun hok => ?_⟩
  have hstart : LiveInv limit (BufferSys.initial clock : BufferSys τ α) [] :=
    ⟨List.Pairwise.nil, nofun⟩
  exact (Schedule.run_invariant_outputs _ (LiveInv limit) step_liveInv hstart hok hrun).shows

/-- Thread 0 reads before thread 1, and locks after it. -/
def overtaken : List (BufferSys.Action Nat Nat) :=
  [.readPush 0 10 1, .readPush 1 20 2, .locked 1, .locked 0, .readForEach 2 5, .locked 2]

/-- Its element stands behind a live one, and is shown four seconds after its reading, with a limit
of three. -/
theorem forEach_shows_expired :
    ∃ s, Schedule.run (BufferSys.step 3) (.initial 0) overtaken = some s ∧
      .shown 5 [⟨2, 20⟩, ⟨1, 10⟩] ∈ logOf 3 0 overtaken ∧ ¬ShowsLive 3 (logOf 3 0 overtaken) := by
  have hshown : .shown 5 [⟨2, 20⟩, ⟨1, 10⟩] ∈ logOf 3 0 overtaken := by decide +kernel
  refine ⟨_, rfl, hshown, fun h => ?_⟩
  have hlive := h 5 _ hshown ⟨1, 10⟩ (by decide)
  revert hlive
  decide +kernel

instance : (s : BufferSys τ α) → (a : Action τ α) → Decidable (InOrder s a)
  | _, .readPush .. => isTrue trivial
  | _, .readForEach .. => isTrue trivial
  | s, .locked t =>
    match h : s.pc t with
    | .push now data => decidable_of_iff (∀ e ∈ s.buffer, e.time ≤ now) (by simp [InOrder, h])
    | .idle => isTrue (by simp [InOrder, h])
    | .forEach now => isTrue (by simp [InOrder, h])

def inTurn : List (BufferSys.Action Nat Nat) :=
  [.readPush 0 10 1, .readPush 1 20 4, .locked 0, .locked 1, .readForEach 2 5, .locked 2]

/-- In the order of the readings the element that is expired is dropped, and the other one shown. -/
theorem forEach_shows_live_in_order :
    ∃ s, Schedule.run (BufferSys.step 3) (.initial 0) inTurn = some s ∧
      .dropped 5 ⟨1, 10⟩ ∈ logOf 3 0 inTurn ∧ .shown 5 [⟨4, 20⟩] ∈ logOf 3 0 inTurn ∧
      ShowsLive 3 (logOf 3 0 inTurn) :=
  ⟨_, rfl, by decide +kernel, by decide +kernel, (forEach_shows_live rfl).2 (by decide +kernel)⟩

end Zrtools.Time

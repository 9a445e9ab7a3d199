import Zrtools.Lib.Schedule
import Zrtools.Lib.Refinement
import Mathlib.Data.List.Perm.Basic
import Mathlib.Logic.Function.Basic

/-!
# Objects behind a shared mutex

Any number of threads call operations of one object. An operation takes a shared
mutex, in shared or in exclusive mode, makes its accesses to the object one at a
time, and gives the mutex back; other threads run between any two of its accesses.
An operation in shared mode does not write.

The atomic object is what the threads expect: a call takes effect at once, at some
moment between the call and its return.

* `Code.eval` — what an operation does when it runs alone;
* `Simulates` — the invariant: what is left of each operation does what the atomic
  object has done already, and only a writer in progress keeps the object from the
  atomic value;
* `Atomic.Run.exists_order` — the calls that took effect, in their order, are a sequence of
  allowed calls and answers, and are those that have returned and some that have not;
* `linearizable` — the calls and returns of every run are those of a run of the
  atomic object.
-/

namespace SharedMutex

open scoped List

-- ---------------------------------------------------------------------------
-- Operations
-- ---------------------------------------------------------------------------

inductive Mode where
  | shared
  | exclusive
  deriving DecidableEq

/-- What is left of an operation: its answer, or an access that changes the object and goes on
by what it found. -/
inductive Code (σ β : Type) where
  | ret (answer : β)
  | access (write : σ → σ) (next : σ → Code σ β)

namespace Code

variable {σ β : Type}

/-- The operation run alone. -/
def eval : Code σ β → σ → σ × β
  | ret b, v => (v, b)
  | access write next, v => (next v).eval (write v)

/-- No access changes the object. -/
def ReadOnly : Code σ β → Prop
  | ret _ => True
  | access write next => (∀ v, write v = v) ∧ ∀ v, (next v).ReadOnly

theorem ReadOnly.eval_fst {c : Code σ β} (h : c.ReadOnly) (v : σ) : (c.eval v).1 = v := by
  induction c generalizing v with
  | ret b => rfl
  | access write next ih =>
    rw [eval, ih v (h.2 v), h.1 v]

end Code

/-- The operations of an object. -/
structure Object (Op σ β : Type) where
  mode : Op → Mode
  code : Op → Code σ β
  readOnly : ∀ op, mode op = .shared → (code op).ReadOnly

/-- What there is to see of a run. -/
inductive Event (T Op β : Type) where
  | called (t : T) (op : Op)
  | returned (t : T) (op : Op) (answer : β)

-- ---------------------------------------------------------------------------
-- Threads and the mutex
-- ---------------------------------------------------------------------------

/-- Where a thread is. -/
inductive Position (Op σ β : Type) where
  | idle
  | waiting (op : Op)
  | holding (op : Op) (rest : Code σ β)

/-- The object, its mutex and the threads. -/
structure Sys (T Op σ β : Type) where
  value : σ
  writer : Option T
  readers : List T
  position : T → Position Op σ β

inductive Action (T Op : Type) where
  | call (t : T) (op : Op)
  | lock (t : T)
  | access (t : T)
  | unlock (t : T)

section System

variable {T Op σ β : Type} [DecidableEq T]

def Sys.initial (v : σ) : Sys T Op σ β where
  value := v
  writer := none
  readers := []
  position _ := .idle

def Sys.move (s : Sys T Op σ β) (t : T) (p : Position Op σ β) : Sys T Op σ β :=
  { s with position := Function.update s.position t p }

/-- One step of a thread. -/
def Sys.step (obj : Object Op σ β) (s : Sys T Op σ β) : Action T Op → Option (Sys T Op σ β)
  | .call t op =>
    match s.position t with
    | .idle => some (s.move t (.waiting op))
    | _ => none
  | .lock t =>
    match s.position t with
    | .waiting op =>
      match obj.mode op with
      | .exclusive =>
        if s.writer.isNone ∧ s.readers.isEmpty then
          some { s.move t (.holding op (obj.code op)) with writer := some t }
        else none
      | .shared =>
        if s.writer.isNone then
          some { s.move t (.holding op (obj.code op)) with readers := t :: s.readers }
        else none
    | _ => none
  | .access t =>
    match s.position t with
    | .holding op (.access write next) =>
      some { s.move t (.holding op (next s.value)) with value := write s.value }
    | _ => none
  | .unlock t =>
    match s.position t with
    | .holding op (.ret _) =>
      match obj.mode op with
      | .exclusive => some { s.move t .idle with writer := none }
      | .shared => some { s.move t .idle with readers := s.readers.erase t }
    | _ => none

omit [DecidableEq T] in
def Sys.events (s : Sys T Op σ β) : Action T Op → List (Event T Op β)
  | .call t op => [.called t op]
  | .unlock t =>
    match s.position t with
    | .holding op (.ret b) => [.returned t op b]
    | _ => []
  | .lock _ => []
  | .access _ => []

-- ---------------------------------------------------------------------------
-- The atomic object
-- ---------------------------------------------------------------------------

/-- Where a call of the atomic object is. -/
inductive Phase (Op β : Type) where
  | idle
  | called (op : Op)
  | committed (op : Op) (answer : β)

structure Atomic (T Op τ β : Type) where
  value : τ
  phase : T → Phase Op β

variable {τ : Type}

def Atomic.initial (u : τ) : Atomic T Op τ β where
  value := u
  phase _ := .idle

/-- Runs of the atomic object and what there is to see of them. A call takes effect in one step
`commit`, as the specification allows it. -/
inductive Atomic.Run (spec : τ → Op → β → τ → Prop) (a₀ : Atomic T Op τ β) :
    List (Event T Op β) → Atomic T Op τ β → Prop
  | nil : Run spec a₀ [] a₀
  | call {past : List (Event T Op β)} {a : Atomic T Op τ β} (h : Run spec a₀ past a) (t : T)
      (op : Op) (hidle : a.phase t = .idle) :
      Run spec a₀ (past ++ [.called t op])
        { a with phase := Function.update a.phase t (.called op) }
  | commit {past : List (Event T Op β)} {a : Atomic T Op τ β} (h : Run spec a₀ past a) {t : T}
      {op : Op} (hcalled : a.phase t = .called op) {b : β} {u : τ} (hspec : spec a.value op b u) :
      Run spec a₀ past { value := u, phase := Function.update a.phase t (.committed op b) }
  | ret {past : List (Event T Op β)} {a : Atomic T Op τ β} (h : Run spec a₀ past a) {t : T}
      {op : Op} {b : β} (hdone : a.phase t = .committed op b) :
      Run spec a₀ (past ++ [.returned t op b]) { a with phase := Function.update a.phase t .idle }

/-- The calls that have returned, with their answers. -/
def returnedCalls (past : List (Event T Op β)) : List (T × Op × β) :=
  past.filterMap fun
    | .returned t op b => some (t, op, b)
    | .called _ _ => none

omit [DecidableEq T] in
theorem returnedCalls_append (past past' : List (Event T Op β)) :
    returnedCalls (past ++ past') = returnedCalls past ++ returnedCalls past' :=
  List.filterMap_append

omit [DecidableEq T] in
theorem mem_returnedCalls {past : List (Event T Op β)} {t : T} {op : Op} {b : β} :
    (t, op, b) ∈ returnedCalls past ↔ .returned t op b ∈ past := by
  rw [returnedCalls, List.mem_filterMap]
  refine ⟨?_, ?_⟩
  · rintro ⟨e, he, heq⟩
    cases e with
    | called t' op' => cases heq
    | returned t' op' b' =>
      cases heq
      exact he
  · exact fun h => ⟨_, h, rfl⟩

/-- Nothing returns that was not called. -/
theorem Atomic.Run.called {spec : τ → Op → β → τ → Prop} {u : τ} {past : List (Event T Op β)}
    {a : Atomic T Op τ β} (h : Atomic.Run spec (Atomic.initial u) past a) {t : T} {op : Op} :
    (a.phase t = .called op ∨ (∃ b, a.phase t = .committed op b) ∨
      ∃ b, .returned t op b ∈ past) → .called t op ∈ past := by
  induction h with
  | nil =>
    rintro (h | ⟨b, h⟩ | ⟨b, h⟩) <;> cases h
  | @call past a h t' op' hidle ih =>
    rw [List.mem_append, List.mem_singleton]
    intro hcase
    rcases eq_or_ne t t' with rfl | hne
    · rcases hcase with hphase | ⟨b, hphase⟩ | ⟨b, hmem⟩
      · simp only [Function.update_self] at hphase
        cases hphase
        exact .inr rfl
      · simp only [Function.update_self] at hphase
        cases hphase
      · exact .inl (ih (.inr (.inr ⟨b, by simpa using hmem⟩)))
    · refine .inl (ih ?_)
      simpa [hne] using hcase
  | @commit past a h t' op' hcalled b v hspec ih =>
    intro hcase
    apply ih
    rcases eq_or_ne t t' with rfl | hne
    · rcases hcase with hphase | ⟨c, hphase⟩ | hmem
      · simp only [Function.update_self] at hphase
        cases hphase
      · simp only [Function.update_self] at hphase
        cases hphase
        exact .inl hcalled
      · exact .inr (.inr hmem)
    · simpa [hne] using hcase
  | @ret past a h t' op' b hdone ih =>
    rw [List.mem_append]
    intro hcase
    refine .inl (ih ?_)
    rcases eq_or_ne t t' with rfl | hne
    · rcases hcase with hphase | ⟨c, hphase⟩ | ⟨c, hmem⟩
      · simp only [Function.update_self] at hphase
        cases hphase
      · simp only [Function.update_self] at hphase
        cases hphase
      · rcases List.mem_append.mp hmem with hmem | hlast
        · exact .inr (.inr ⟨c, hmem⟩)
        · cases List.mem_singleton.mp hlast
          exact .inr (.inl ⟨_, hdone⟩)
    · simpa [hne] using hcase

/-- **The order of the calls.** -/
theorem Atomic.Run.exists_order {spec : τ → Op → β → τ → Prop} {u : τ}
    {past : List (Event T Op β)} {a : Atomic T Op τ β}
    (h : Atomic.Run spec (Atomic.initial u) past a) :
    ∃ done pending : List (T × Op × β),
      Refinement.Trace spec u (done.map fun c => c.2.1) (done.map fun c => c.2.2) a.value ∧
        done.Perm (returnedCalls past ++ pending) ∧ (pending.map Prod.fst).Nodup ∧
        ∀ t op b, (t, op, b) ∈ pending ↔ a.phase t = .committed op b := by
  induction h with
  | nil =>
    refine ⟨[], [], .nil u, List.Perm.refl _, List.nodup_nil, fun t op b => ?_⟩
    simp [Atomic.initial]
  | @call past a h t op hidle ih =>
    obtain ⟨done, pending, htrace, hperm, hnodup, hpending⟩ := ih
    refine ⟨done, pending, htrace, ?_, hnodup, fun t' op' b => ?_⟩
    · rw [returnedCalls_append]
      simpa [returnedCalls] using hperm
    · rw [hpending]
      rcases eq_or_ne t' t with rfl | hne
      · simp [hidle]
      · simp [hne]
  | @commit past a h t op hcalled b v hspec ih =>
    obtain ⟨done, pending, htrace, hperm, hnodup, hpending⟩ := ih
    have hnew : t ∉ pending.map Prod.fst := by
      intro hmem
      obtain ⟨⟨t', op', b'⟩, hc, rfl⟩ := List.mem_map.mp hmem
      have hphase := (hpending t' op' b').mp hc
      rw [hcalled] at hphase
      cases hphase
    refine ⟨done ++ [(t, op, b)], (t, op, b) :: pending, ?_, ?_, ?_, fun t' op' b' => ?_⟩
    · rw [List.map_append, List.map_append]
      exact htrace.concat hspec
    · calc done ++ [(t, op, b)]
          ~ (t, op, b) :: done := List.perm_append_singleton ..
        _ ~ (t, op, b) :: (returnedCalls past ++ pending) := hperm.cons _
        _ ~ returnedCalls past ++ (t, op, b) :: pending := List.perm_middle.symm
    · exact List.nodup_cons.mpr ⟨hnew, hnodup⟩
    · rw [List.mem_cons, hpending]
      rcases eq_or_ne t' t with rfl | hne
      · simp [hcalled, eq_comm]
      · simp [hne]
  | @ret past a h t op b hdone ih =>
    obtain ⟨done, pending, htrace, hperm, hnodup, hpending⟩ := ih
    obtain ⟨front, back, rfl⟩ := List.append_of_mem ((hpending t op b).mpr hdone)
    have hsplit : (t :: (front ++ back).map Prod.fst).Nodup :=
      (List.perm_middle.map Prod.fst).nodup hnodup
    obtain ⟨hnot, hrest⟩ := List.nodup_cons.mp hsplit
    refine ⟨done, front ++ back, htrace, ?_, hrest, fun t' op' b' => ?_⟩
    · rw [returnedCalls_append]
      calc done
          ~ returnedCalls past ++ (front ++ (t, op, b) :: back) := hperm
        _ ~ returnedCalls past ++ (t, op, b) :: (front ++ back) :=
          List.perm_middle.append_left _
        _ = returnedCalls past ++ [(t, op, b)] ++ (front ++ back) := by simp
    · have hmem := hpending t' op' b'
      rcases eq_or_ne t' t with rfl | hne
      · refine ⟨fun hc => absurd (List.mem_map_of_mem hc) hnot, fun hphase => ?_⟩
        simp at hphase
      · simp only [Function.update_of_ne hne]
        rw [← hmem]
        simp [hne]

-- ---------------------------------------------------------------------------
-- The simulation
-- ---------------------------------------------------------------------------

/-- What the atomic object knows of a thread, where the object has value `v`. -/
def Position.phase (v : σ) : Position Op σ β → Phase Op β
  | .idle => .idle
  | .waiting op => .called op
  | .holding op rest => .committed op (rest.eval v).2

/-- The threads and the atomic object agree. -/
structure Simulates (obj : Object Op σ β) (Represents : σ → τ → Prop) (s : Sys T Op σ β)
    (a : Atomic T Op τ β) : Prop where
  phase : ∀ t, a.phase t = (s.position t).phase s.value
  shared : ∀ t op rest, s.position t = .holding op rest → obj.mode op = .shared →
    t ∈ s.readers ∧ rest.ReadOnly
  exclusive : ∀ t op rest, s.position t = .holding op rest → obj.mode op = .exclusive →
    s.writer = some t
  writer : ∀ t, s.writer = some t → s.readers = [] ∧ ∃ op rest, s.position t = .holding op rest ∧
    obj.mode op = .exclusive ∧ Represents (rest.eval s.value).1 a.value
  value : s.writer = none → Represents s.value a.value

variable {obj : Object Op σ β} {Represents : σ → τ → Prop} {spec : τ → Op → β → τ → Prop}

omit [DecidableEq T] in
/-- While one thread writes, no other holds the mutex. -/
theorem Simulates.alone {s : Sys T Op σ β} {a : Atomic T Op τ β}
    (h : Simulates obj Represents s a) {t : T} (ht : s.writer = some t) {t' : T} {op : Op}
    {rest : Code σ β} (ht' : s.position t' = .holding op rest) : t' = t := by
  cases hmode : obj.mode op with
  | shared =>
    have hmem := (h.shared t' op rest ht' hmode).1
    rw [(h.writer t ht).1] at hmem
    cases hmem
  | exclusive =>
    have hwriter := h.exclusive t' op rest ht' hmode
    exact Option.some.inj (hwriter.symm.trans ht)

omit [DecidableEq T] in
/-- While a thread reads, no other writes. -/
theorem Simulates.no_writer {s : Sys T Op σ β} {a : Atomic T Op τ β}
    (h : Simulates obj Represents s a) {t : T} (ht : t ∈ s.readers) : s.writer = none := by
  by_contra hsome
  obtain ⟨w, hw⟩ := Option.ne_none_iff_exists'.mp hsome
  rw [(h.writer w hw).1] at ht
  cases ht

/-- Who holds the mutex after thread `t` moved on with it. -/
theorem holding_update {f : T → Position Op σ β} {t t' : T} {op op' : Op} {c c' : Code σ β}
    (h : Function.update f t (.holding op c) t' = .holding op' c') :
    t' = t ∧ op' = op ∧ c' = c ∨ t' ≠ t ∧ f t' = .holding op' c' := by
  rcases eq_or_ne t' t with rfl | hne
  · rw [Function.update_self] at h
    cases h
    exact .inl ⟨rfl, rfl, rfl⟩
  · rw [Function.update_of_ne hne] at h
    exact .inr ⟨hne, h⟩

/-- A thread moves to where the atomic object has moved already, and nothing else changes. -/
theorem Simulates.phase_move {s : Sys T Op σ β} {a : Atomic T Op τ β}
    (h : Simulates obj Represents s a) (t : T) (p : Position Op σ β) (t' : T) :
    Function.update a.phase t (p.phase s.value) t' =
      (Function.update s.position t p t').phase s.value := by
  rcases eq_or_ne t' t with rfl | hne
  · rw [Function.update_self, Function.update_self]
  · rw [Function.update_of_ne hne, Function.update_of_ne hne, h.phase t']

theorem Simulates.call {s s' : Sys T Op σ β} {a a₀ : Atomic T Op τ β}
    {past : List (Event T Op β)} (h : Simulates obj Represents s a)
    (hrun : Atomic.Run spec a₀ past a) {t : T} {op : Op}
    (hstep : s.step obj (.call t op) = some s') :
    ∃ a', Atomic.Run spec a₀ (past ++ s.events (.call t op)) a' ∧
      Simulates obj Represents s' a' := by
  simp only [Sys.step] at hstep
  split at hstep
  case h_2 => cases hstep
  case h_1 hidle =>
    obtain rfl := Option.some.inj hstep
    have hphase : a.phase t = .idle := by rw [h.phase t, hidle]; rfl
    have hother : ∀ {t' op' rest}, (s.move t (.waiting op)).position t' = .holding op' rest →
        s.position t' = .holding op' rest := by
      intro t' op' rest hpos
      rcases eq_or_ne t' t with rfl | hne
      · simp [Sys.move] at hpos
      · simpa [Sys.move, hne] using hpos
    refine ⟨_, hrun.call t op hphase, ?_, ?_, ?_, ?_, h.value⟩
    · exact h.phase_move t (.waiting op)
    · exact fun t' op' rest hpos => h.shared t' op' rest (hother hpos)
    · exact fun t' op' rest hpos => h.exclusive t' op' rest (hother hpos)
    · intro t' hwriter
      obtain ⟨hreaders, op', rest, hpos, hrest⟩ := h.writer t' hwriter
      have hne : t' ≠ t := by
        rintro rfl
        rw [hidle] at hpos
        cases hpos
      exact ⟨hreaders, op', rest, by simpa [Sys.move, hne] using hpos, hrest⟩

/-- **Taking the mutex** is where the call takes effect. -/
theorem Simulates.lock (hspec : ∀ op v u, Represents v u → ∃ u',
      spec u op ((obj.code op).eval v).2 u' ∧ Represents ((obj.code op).eval v).1 u')
    {s s' : Sys T Op σ β} {a a₀ : Atomic T Op τ β} {past : List (Event T Op β)}
    (h : Simulates obj Represents s a) (hrun : Atomic.Run spec a₀ past a) {t : T}
    (hstep : s.step obj (.lock t) = some s') :
    ∃ a', Atomic.Run spec a₀ (past ++ s.events (.lock t)) a' ∧ Simulates obj Represents s' a' := by
  simp only [Sys.step] at hstep
  split at hstep
  case h_2 => cases hstep
  case h_1 op hwaiting =>
    have hphase : a.phase t = .called op := by rw [h.phase t, hwaiting]; rfl
    rw [Sys.events, List.append_nil]
    split at hstep
    case h_1 hmode =>
      split at hstep
      case isFalse => cases hstep
      case isTrue hfree =>
        obtain rfl := Option.some.inj hstep
        have hnone : s.writer = none := Option.isNone_iff_eq_none.mp hfree.1
        have hnil : s.readers = [] := List.isEmpty_iff.mp hfree.2
        obtain ⟨u, hu, hrep⟩ := hspec op s.value a.value (h.value hnone)
        -- nobody else holds the mutex
        have hone : ∀ {t' op' rest},
            Function.update s.position t (.holding op (obj.code op)) t' = .holding op' rest →
              t' = t ∧ op' = op ∧ rest = obj.code op := by
          intro t' op' rest hpos
          rcases holding_update hpos with hthis | ⟨-, hpos'⟩
          · exact hthis
          · cases hmode' : obj.mode op' with
            | shared =>
              have hmem := (h.shared t' op' rest hpos' hmode').1
              rw [hnil] at hmem
              cases hmem
            | exclusive =>
              have hwriter := h.exclusive t' op' rest hpos' hmode'
              rw [hnone] at hwriter
              cases hwriter
        refine ⟨_, hrun.commit hphase hu, ?_, ?_, ?_, ?_, ?_⟩
        · exact h.phase_move t (.holding op (obj.code op))
        · intro t' op' rest hpos hmode'
          obtain ⟨rfl, rfl, rfl⟩ := hone hpos
          rw [hmode] at hmode'
          cases hmode'
        · intro t' op' rest hpos _
          obtain ⟨rfl, -, -⟩ := hone hpos
          rfl
        · rintro t' ht'
          cases ht'
          exact ⟨hnil, op, obj.code op, by simp [Sys.move], hmode, hrep⟩
        · intro hwriter
          cases hwriter
    case h_2 hmode =>
      split at hstep
      case isFalse => cases hstep
      case isTrue hfree =>
        obtain rfl := Option.some.inj hstep
        have hnone : s.writer = none := Option.isNone_iff_eq_none.mp hfree
        obtain ⟨u, hu, hrep⟩ := hspec op s.value a.value (h.value hnone)
        rw [(obj.readOnly op hmode).eval_fst] at hrep
        refine ⟨_, hrun.commit hphase hu, ?_, ?_, ?_, ?_, fun _ => hrep⟩
        · exact h.phase_move t (.holding op (obj.code op))
        · intro t' op' rest hpos hmode'
          rcases holding_update hpos with ⟨rfl, rfl, rfl⟩ | ⟨-, hpos'⟩
          · exact ⟨List.mem_cons_self .., obj.readOnly _ hmode⟩
          · obtain ⟨hmem, hread⟩ := h.shared t' op' rest hpos' hmode'
            exact ⟨List.mem_cons_of_mem _ hmem, hread⟩
        · intro t' op' rest hpos hmode'
          rcases holding_update hpos with ⟨rfl, rfl, rfl⟩ | ⟨-, hpos'⟩
          · rw [hmode] at hmode'
            cases hmode'
          · exact h.exclusive t' op' rest hpos' hmode'
        · intro t' hwriter
          have hwriter' : s.writer = some t' := hwriter
          rw [hnone] at hwriter'
          cases hwriter'

/-- **One access** does what the atomic object has done. -/
theorem Simulates.access {s s' : Sys T Op σ β} {a : Atomic T Op τ β}
    (h : Simulates obj Represents s a) {t : T} (hstep : s.step obj (.access t) = some s') :
    Simulates obj Represents s' a := by
  simp only [Sys.step] at hstep
  split at hstep
  case h_2 => cases hstep
  case h_1 op write next hholding =>
    obtain rfl := Option.some.inj hstep
    cases hmode : obj.mode op with
    | shared =>
      obtain ⟨hmem, hread⟩ := h.shared t op _ hholding hmode
      have hsame : write s.value = s.value := hread.1 s.value
      have hphase : ∀ t', a.phase t' =
          (Function.update s.position t (.holding op (next s.value)) t').phase s.value := by
        intro t'
        rcases eq_or_ne t' t with rfl | hne
        · rw [Function.update_self, h.phase t', hholding]
          simp only [Position.phase, Code.eval, hsame]
        · rw [Function.update_of_ne hne, h.phase t']
      have hnone := h.no_writer hmem
      refine ⟨?_, ?_, ?_, ?_, ?_⟩
      · simpa [Sys.move, hsame] using hphase
      · intro t' op' rest hpos hmode'
        rcases holding_update hpos with ⟨rfl, rfl, rfl⟩ | ⟨-, hpos'⟩
        · exact ⟨hmem, hread.2 s.value⟩
        · exact h.shared t' op' rest hpos' hmode'
      · intro t' op' rest hpos hmode'
        rcases holding_update hpos with ⟨rfl, rfl, rfl⟩ | ⟨-, hpos'⟩
        · rw [hmode] at hmode'
          cases hmode'
        · exact h.exclusive t' op' rest hpos' hmode'
      · intro t' hwriter
        have hwriter' : s.writer = some t' := hwriter
        rw [hnone] at hwriter'
        cases hwriter'
      · intro _
        show Represents (write s.value) a.value
        rw [hsame]
        exact h.value hnone
    | exclusive =>
      have hwriter := h.exclusive t op _ hholding hmode
      obtain ⟨hreaders, op', rest', hpos, -, hrep⟩ := h.writer t hwriter
      rw [hholding] at hpos
      cases hpos
      have hother : ∀ {t' op' rest}, t' ≠ t → s.position t' ≠ .holding op' rest := by
        intro t' op' rest hne hpos
        exact hne (h.alone hwriter hpos)
      refine ⟨?_, ?_, ?_, ?_, ?_⟩
      · intro t'
        rcases eq_or_ne t' t with rfl | hne
        · rw [h.phase t', hholding]
          simp [Sys.move, Position.phase, Code.eval]
        · rw [h.phase t']
          simp only [Sys.move, Function.update_of_ne hne]
          cases hpos : s.position t' with
          | holding op' rest => exact absurd hpos (hother hne)
          | _ => rfl
      · intro t' op' rest hpos hmode'
        rcases holding_update hpos with ⟨rfl, rfl, rfl⟩ | ⟨hne, hpos'⟩
        · rw [hmode] at hmode'
          cases hmode'
        · exact absurd hpos' (hother hne)
      · intro t' op' rest hpos _
        rcases holding_update hpos with ⟨rfl, rfl, rfl⟩ | ⟨hne, hpos'⟩
        · exact hwriter
        · exact absurd hpos' (hother hne)
      · intro t' ht'
        have heq : t' = t := Option.some.inj (ht'.symm.trans hwriter)
        subst heq
        exact ⟨hreaders, op, next s.value, by simp [Sys.move], hmode, hrep⟩
      · intro hnone
        have hnone' : s.writer = none := hnone
        rw [hwriter] at hnone'
        cases hnone'

/-- **Giving the mutex back**: the answer is the atomic one. -/
theorem Simulates.unlock {s s' : Sys T Op σ β} {a a₀ : Atomic T Op τ β}
    {past : List (Event T Op β)} (h : Simulates obj Represents s a)
    (hrun : Atomic.Run spec a₀ past a) {t : T} (hstep : s.step obj (.unlock t) = some s') :
    ∃ a', Atomic.Run spec a₀ (past ++ s.events (.unlock t)) a' ∧
      Simulates obj Represents s' a' := by
  simp only [Sys.step] at hstep
  split at hstep
  case h_2 => cases hstep
  case h_1 op b hholding =>
    have hphase : a.phase t = .committed op b := by rw [h.phase t, hholding]; rfl
    have hevents : s.events (.unlock t) = [.returned t op b] := by
      simp only [Sys.events, hholding]
    have hother : ∀ {t' op' rest}, Function.update s.position t .idle t' = .holding op' rest →
        t' ≠ t ∧ s.position t' = .holding op' rest := by
      intro t' op' rest hpos
      rcases eq_or_ne t' t with rfl | hne
      · rw [Function.update_self] at hpos
        cases hpos
      · rw [Function.update_of_ne hne] at hpos
        exact ⟨hne, hpos⟩
    rw [hevents]
    refine ⟨_, hrun.ret hphase, ?_⟩
    split at hstep
    case h_1 hmode =>
      obtain rfl := Option.some.inj hstep
      have hwriter := h.exclusive t op _ hholding hmode
      obtain ⟨hreaders, op', rest', hpos, -, hrep⟩ := h.writer t hwriter
      rw [hholding] at hpos
      cases hpos
      refine ⟨h.phase_move t .idle, ?_, ?_, ?_, fun _ => hrep⟩
      · intro t' op' rest hpos
        exact absurd (h.alone hwriter (hother hpos).2) (hother hpos).1
      · intro t' op' rest hpos
        exact absurd (h.alone hwriter (hother hpos).2) (hother hpos).1
      · intro t' ht'
        cases ht'
    case h_2 hmode =>
      obtain rfl := Option.some.inj hstep
      have hmem := (h.shared t op _ hholding hmode).1
      have hnone := h.no_writer hmem
      refine ⟨h.phase_move t .idle, ?_, ?_, ?_, h.value⟩
      · intro t' op' rest hpos hmode'
        obtain ⟨hne, hpos'⟩ := hother hpos
        obtain ⟨hmem', hread⟩ := h.shared t' op' rest hpos' hmode'
        exact ⟨(List.mem_erase_of_ne hne).mpr hmem', hread⟩
      · intro t' op' rest hpos hmode'
        exact h.exclusive t' op' rest (hother hpos).2 hmode'
      · intro t' ht'
        have ht'' : s.writer = some t' := ht'
        rw [hnone] at ht''
        cases ht''

/-- **Linearizability.** What there is to see of a run is what there is to see of a run of the
atomic object, if every operation run alone does what the specification allows. -/
theorem linearizable (hspec : ∀ op v u, Represents v u → ∃ u',
      spec u op ((obj.code op).eval v).2 u' ∧ Represents ((obj.code op).eval v).1 u')
    {v : σ} {u : τ} (hv : Represents v u) {acts : List (Action T Op)} {s : Sys T Op σ β}
    (hrun : Schedule.run (Sys.step obj) (Sys.initial v) acts = some s) :
    ∃ a : Atomic T Op τ β, Atomic.Run spec (Atomic.initial u)
        (Schedule.outputs (Sys.step obj) Sys.events (Sys.initial v) acts) a ∧
      Simulates obj Represents s a := by
  refine Schedule.run_invariant_past (Sys.step obj)
    (fun s past => ∃ a, Atomic.Run spec (Atomic.initial u) past a ∧ Simulates obj Represents s a)
    ?_ ⟨Atomic.initial u, .nil, ?_⟩ hrun
  · rintro s act s' past ⟨a, hpast, hs⟩ hstep
    cases act with
    | call t op => exact hs.call hpast hstep
    | lock t => exact hs.lock hspec hpast hstep
    | access t =>
      refine ⟨a, ?_, hs.access hstep⟩
      rw [Sys.events, List.append_nil]
      exact hpast
    | unlock t => exact hs.unlock hpast hstep
  · refine ⟨fun t => rfl, ?_, ?_, ?_, fun _ => hv⟩
    · intro t op rest hpos
      cases hpos
    · intro t op rest hpos
      cases hpos
    · intro t ht
      cases ht

end System

end SharedMutex

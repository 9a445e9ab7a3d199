import Mathlib.Logic.Function.Basic
import Zrtools.Lib.ByteMemory

/-!
# Programs over shared memory

A program is a tree of memory accesses: 64-bit words with a name, read, written or
incremented in one step, and regions of bytes. A scheduler takes one access of one
thread at a time, so another thread may do anything between two accesses, and a crash
may come between any two. A loop or a tail call ends a program with `Flow.again`.

`Safe` is the weakest condition under which a program keeps its part of a bargain
(`Contract`): before each access the other threads may move the world as `rely` says,
each access must move it as `guar` says, and `during` must hold as long as there is
another access to come. The world has a ghost part, which the program does not see and
the proof chooses.

* `Safe.mono`, `Safe.bind`, `Safe.frame`, `Safe.settle` — consequence, sequence, what
  nobody touches, loops;
* `Safe.wait`, `Safe.pause`, `Safe.step` — a call that waits stays safe, and so does one
  that makes its next access;
* `safe_access` — the rule for one access under an assertion that `Keeps`, with
  `safe_load`, `safe_loadBytes_while`, `safe_loadBytes`, `safe_loadField` and
  `safe_storeBytes`.
-/

namespace SharedMemory

open ByteMemory

-- ---------------------------------------------------------------------------
-- Memory and programs
-- ---------------------------------------------------------------------------

/-- Words named by `V` and byte regions named by `R`. -/
structure Shared (V R : Type) where
  word : V → UInt64
  byte : R → Mem

/-- One access. -/
inductive Access (V R : Type) where
  | load (v : V)
  | store (v : V) (x : UInt64)
  | fetchAdd (v : V) (x : UInt64)
  | loadByte (r : R) (off : Nat)
  | storeByte (r : R) (off : Nat) (b : UInt8)

variable {V R α β L γ : Type}

/-- What an access answers. -/
abbrev Access.Res : Access V R → Type
  | .load _ => UInt64
  | .store _ _ => Unit
  | .fetchAdd _ _ => UInt64
  | .loadByte _ _ => UInt8
  | .storeByte _ _ _ => Unit

namespace Shared

section Words

variable [DecidableEq V]

def setWord (s : Shared V R) (v : V) (x : UInt64) : Shared V R :=
  { s with word := Function.update s.word v x }

@[simp] theorem word_setWord_self (s : Shared V R) (v : V) (x : UInt64) :
    (s.setWord v x).word v = x := Function.update_self ..

theorem word_setWord_of_ne (s : Shared V R) {u v : V} (h : u ≠ v) (x : UInt64) :
    (s.setWord v x).word u = s.word u := Function.update_of_ne h ..

/-- The last store counts. -/
@[simp] theorem setWord_setWord (s : Shared V R) (v : V) (x y : UInt64) :
    (s.setWord v x).setWord v y = s.setWord v y := by
  simp [setWord]

@[simp] theorem setWord_word (s : Shared V R) (v : V) : s.setWord v (s.word v) = s := by
  simp [setWord]

end Words

section Bytes

variable [DecidableEq R]

def setByte (s : Shared V R) (r : R) (off : Nat) (b : UInt8) : Shared V R :=
  { s with byte := Function.update s.byte r (write (s.byte r) off [b]) }

@[simp] theorem byte_setByte_self (s : Shared V R) (r : R) (off : Nat) (b : UInt8) :
    (s.setByte r off b).byte r = write (s.byte r) off [b] := Function.update_self ..

theorem byte_setByte_of_ne (s : Shared V R) {q r : R} (h : q ≠ r) (off : Nat) (b : UInt8) :
    (s.setByte r off b).byte q = s.byte q := Function.update_of_ne h ..

end Bytes

end Shared

/-- Make an access. -/
def Access.exec [DecidableEq V] [DecidableEq R] :
    (o : Access V R) → Shared V R → o.Res × Shared V R
  | .load v, s => (s.word v, s)
  | .store v x, s => ((), s.setWord v x)
  | .fetchAdd v x, s => (s.word v, s.setWord v (s.word v + x))
  | .loadByte r off, s => (s.byte r off, s)
  | .storeByte r off b, s => ((), s.setByte r off b)

inductive Prog (V R α : Type) where
  | ret (a : α)
  | access (o : Access V R) (k : o.Res → Prog V R α)

/-- How the body of a loop ends. -/
inductive Flow (L α : Type) where
  | again (l : L)
  | done (a : α)

namespace Prog

def bind : Prog V R α → (α → Prog V R β) → Prog V R β
  | ret a, f => f a
  | access o k, f => access o fun r => (k r).bind f

instance : Monad (Prog V R) where
  pure := ret
  bind := bind

def load (v : V) : Prog V R UInt64 := access (.load v) ret

def store (v : V) (x : UInt64) : Prog V R Unit := access (.store v x) ret

def fetchAdd (v : V) (x : UInt64) : Prog V R UInt64 := access (.fetchAdd v x) ret

/-- Read bytes one after the other. -/
def loadBytes (r : R) (off : Nat) : Nat → Prog V R (List UInt8)
  | 0 => pure []
  | n + 1 => do
    let b ← access (.loadByte r off) ret
    let rest ← loadBytes r (off + 1) n
    pure (b :: rest)

/-- Write bytes one after the other. -/
def storeBytes (r : R) (off : Nat) : List UInt8 → Prog V R Unit
  | [] => pure ()
  | b :: rest => do
    access (.storeByte r off b) ret
    storeBytes r (off + 1) rest

/-- Go on with the next turn of a loop. -/
def settle (body : L → Prog V R (Flow L α)) : Prog V R (Flow L α) → Prog V R (Flow L α)
  | ret (.again l) => body l
  | ret (.done a) => ret (.done a)
  | access o k => access o k

/-- The result of a call that is over. -/
def returned : Prog V R (Flow L α) → Option α
  | ret (.again _) => none
  | ret (.done a) => some a
  | access _ _ => none

/-- The access a program makes next. -/
def next : Prog V R α → Option (Access V R)
  | ret _ => none
  | access o _ => some o

/-- What a finished program returns. -/
def result : Prog V R α → Option α
  | ret a => some a
  | access _ _ => none

section Run

variable [DecidableEq V] [DecidableEq R]

/-- Make the next access. -/
def step : Prog V R α → Shared V R → Option (Prog V R α × Shared V R)
  | ret _, _ => none
  | access o k, s => some (k (o.exec s).1, (o.exec s).2)

/-- Run to the end with nobody else there. -/
def eval : Prog V R α → Shared V R → α × Shared V R
  | ret a, s => (a, s)
  | access o k, s => (k (o.exec s).1).eval (o.exec s).2

theorem eval_bind (p : Prog V R α) (f : α → Prog V R β) (s : Shared V R) :
    (p >>= f).eval s = (f (p.eval s).1).eval (p.eval s).2 := by
  induction p generalizing s with
  | ret a => rfl
  | access o k ih => exact ih _ _

@[simp] theorem eval_load (v : V) (s : Shared V R) : (load v).eval s = (s.word v, s) := rfl

@[simp] theorem eval_loadBytes (r : R) (off n : Nat) (s : Shared V R) :
    (loadBytes r off n).eval s = (slice (s.byte r) off n, s) := by
  induction n generalizing off with
  | zero => rfl
  | succ n ih =>
    show ((loadBytes r (off + 1) n) >>= fun rest => ret (s.byte r off :: rest)).eval s = _
    rw [eval_bind, ih, Nat.add_comm n 1, slice_append]
    rfl

end Run

end Prog

-- ---------------------------------------------------------------------------
-- Contracts
-- ---------------------------------------------------------------------------

/-- What a thread may count on, and what it owes to the others. An access need only be
good where `ok` holds. -/
structure Contract (V R γ : Type) where
  rely : Shared V R × γ → Shared V R × γ → Prop
  ok : Shared V R → Access V R → Prop
  guar : Shared V R × γ → Shared V R × γ → Prop
  during : Shared V R × γ → Prop

variable [DecidableEq V] [DecidableEq R]

/-- The program keeps the contract from here on, and ends with `post`. -/
def Safe (c : Contract V R γ) (post : α → Shared V R × γ → Prop) :
    Prog V R α → Shared V R × γ → Prop
  | .ret a, w => post a w
  | .access o k, w => c.during w ∧ ∀ w', c.rely w w' → c.ok w'.1 o →
    ∃ g, c.guar w' ((o.exec w'.1).2, g) ∧ Safe c post (k (o.exec w'.1).1) ((o.exec w'.1).2, g)

/-- The postcondition of a loop body. -/
def loopPost (J : L → Shared V R × γ → Prop) (Q : α → Shared V R × γ → Prop) :
    Flow L α → Shared V R × γ → Prop
  | .again l => J l
  | .done a => Q a

variable {c : Contract V R γ} {post : α → Shared V R × γ → Prop}

theorem Safe.mono {post' : α → Shared V R × γ → Prop} {p : Prog V R α} {w : Shared V R × γ}
    (h : Safe c post p w) (hpost : ∀ a w, post a w → post' a w) : Safe c post' p w := by
  induction p generalizing w with
  | ret a => exact hpost a w h
  | access o k ih =>
    obtain ⟨hduring, h⟩ := h
    refine ⟨hduring, fun w' hrely hok => ?_⟩
    obtain ⟨g, hguar, hrest⟩ := h w' hrely hok
    exact ⟨g, hguar, ih _ hrest⟩

theorem Safe.bind (mid : β → Shared V R × γ → Prop) {p : Prog V R β} {q : β → Prog V R α}
    {w : Shared V R × γ} (h : Safe c mid p w) (hq : ∀ a w, mid a w → Safe c post (q a) w) :
    Safe c post (p >>= q) w := by
  induction p generalizing w with
  | ret a => exact hq a w h
  | access o k ih =>
    obtain ⟨hduring, h⟩ := h
    refine ⟨hduring, fun w' hrely hok => ?_⟩
    obtain ⟨g, hguar, hrest⟩ := h w' hrely hok
    exact ⟨g, hguar, ih _ hrest⟩

/-- What both the others and the program keep holds at the end as well. -/
theorem Safe.frame {F : Shared V R × γ → Prop} {p : Prog V R α} {w : Shared V R × γ}
    (h : Safe c post p w) (hrely : ∀ w w', F w → c.rely w w' → F w')
    (hguar : ∀ w w', F w → c.guar w w' → F w') (hw : F w) :
    Safe c (fun a w => post a w ∧ F w) p w := by
  induction p generalizing w with
  | ret a => exact ⟨h, hw⟩
  | access o k ih =>
    obtain ⟨hduring, h⟩ := h
    refine ⟨hduring, fun w' hmove hok => ?_⟩
    obtain ⟨g, hmoved, hrest⟩ := h w' hmove hok
    exact ⟨g, hmoved, ih _ hrest (hguar _ _ (hrely _ _ hw hmove) hmoved)⟩

/-- A loop whose body re-establishes `J`. -/
theorem Safe.settle {J : L → Shared V R × γ → Prop} {Q : α → Shared V R × γ → Prop}
    {body : L → Prog V R (Flow L α)} {p : Prog V R (Flow L α)} {w : Shared V R × γ}
    (h : Safe c (loopPost J Q) p w)
    (hbody : ∀ l w, J l w → Safe c (loopPost J Q) (body l) w) :
    Safe c (loopPost J Q) (p.settle body) w := by
  match p, h with
  | .ret (.again l), h => exact hbody l w h
  | .ret (.done a), h => exact h
  | .access o k, h => exact h

/-- A call that waits stays safe. -/
theorem Safe.wait {J : L → Shared V R × γ → Prop} {Q : α → Shared V R × γ → Prop}
    {p : Prog V R (Flow L α)} {w w' : Shared V R × γ} (h : Safe c (loopPost J Q) p w)
    (hrunning : p.returned = none) (hduring : c.during w') (hloop : ∀ l, J l w → J l w')
    (htrans : ∀ w'', c.rely w' w'' → c.rely w w'') : Safe c (loopPost J Q) p w' := by
  match p, h, hrunning with
  | .ret (.again l), h, _ => exact hloop l h
  | .access o k, h, _ => exact ⟨hduring, fun w'' hnext hok => h.2 w'' (htrans w'' hnext) hok⟩

/-- A program with an access to come stays safe while it waits. -/
theorem Safe.pause {p : Prog V R α} {w w' : Shared V R × γ} (h : Safe c post p w)
    (hrunning : p.result = none) (hduring : c.during w')
    (htrans : ∀ w'', c.rely w' w'' → c.rely w w'') : Safe c post p w' := by
  match p, h, hrunning with
  | .access o k, h, _ => exact ⟨hduring, fun w'' hnext hok => h.2 w'' (htrans w'' hnext) hok⟩

/-- A program that makes its next access stays safe. -/
theorem Safe.step {p p' : Prog V R α} {s s' : Shared V R} {g : γ} (h : Safe c post p (s, g))
    (hrely : c.rely (s, g) (s, g)) (hok : ∀ o, p.next = some o → c.ok s o)
    (hstep : p.step s = some (p', s')) :
    ∃ g', c.guar (s, g) (s', g') ∧ Safe c post p' (s', g') := by
  match p, h, hok, hstep with
  | .access o k, h, hok, hstep =>
    cases hstep
    exact h.2 (s, g) hrely (hok o rfl)

/-- An assertion that holds however long the program waits, and that reading keeps. -/
structure Keeps (c : Contract V R γ) (A : Shared V R × γ → Prop) : Prop where
  rely : ∀ w w', A w → c.rely w w' → A w'
  during : ∀ w, A w → c.during w
  guar : ∀ w, A w → c.guar w w

/-- The rule for one access. -/
theorem safe_access {A : Shared V R × γ → Prop} {o : Access V R} {k : o.Res → Prog V R α}
    {w : Shared V R × γ} (hA : Keeps c A) (hw : A w)
    (h : ∀ w, A w → c.ok w.1 o → ∃ g, c.guar w ((o.exec w.1).2, g) ∧
      Safe c post (k (o.exec w.1).1) ((o.exec w.1).2, g)) :
    Safe c post (.access o k) w :=
  ⟨hA.during w hw, fun w' hrely hok => h w' (hA.rely w w' hw hrely) hok⟩

/-- Reading a word. -/
theorem safe_load {A : Shared V R × γ → Prop} {v : V} {q : UInt64 → Prog V R α}
    {w : Shared V R × γ} (hA : Keeps c A) (hw : A w)
    (h : ∀ w, A w → Safe c post (q (w.1.word v)) w) : Safe c post (Prog.load v >>= q) w :=
  safe_access hA hw fun w hw _ => ⟨w.2, hA.guar w hw, h w hw⟩

/-- Reading bytes that stay what they are as long as `P` holds, where `P` never comes back
once it is lost. -/
theorem safe_loadBytes_while {A P : Shared V R × γ → Prop} {r : R} {off n : Nat}
    {l : List UInt8} {w : Shared V R × γ} (hA : Keeps c A)
    (hback : ∀ w w', c.rely w w' → P w' → P w)
    (hbytes : ∀ w, A w → P w → slice (w.1.byte r) off n = l) (hw : A w) :
    Safe c (fun l' w => A w ∧ (P w → l' = l)) (Prog.loadBytes r off n) w := by
  induction n generalizing A off l w with
  | zero => exact ⟨hw, fun hP => hbytes w hw hP⟩
  | succ n ih =>
    refine safe_access hA hw fun w hw _ => ⟨w.2, hA.guar w hw, ?_⟩
    -- what is read now is the first byte of `l`, if `P` still holds at the end
    have hhead : P w → w.1.byte r off = l.headD 0 := by
      intro hP
      rw [← hbytes w hw hP, slice_succ]
      rfl
    have hA' : Keeps c fun w' => A w' ∧ (P w' → w.1.byte r off = l.headD 0) := by
      constructor
      case rely => exact fun w' w'' h hmove =>
        ⟨hA.rely _ _ h.1 hmove, fun hP => h.2 (hback _ _ hmove hP)⟩
      case during => exact fun w' h => hA.during _ h.1
      case guar => exact fun w' h => hA.guar _ h.1
    have htail : ∀ w', A w' ∧ (P w' → w.1.byte r off = l.headD 0) → P w' →
        slice (w'.1.byte r) (off + 1) n = l.tail := by
      intro w' hw' hP
      rw [← hbytes w' hw'.1 hP, slice_succ]
      rfl
    show Safe c _ (Prog.loadBytes r (off + 1) n >>= fun rest => _) w
    refine Safe.bind _ (ih hA' htail ⟨hw, hhead⟩) ?_
    rintro rest w' ⟨⟨hw', hfirst⟩, hrest⟩
    refine ⟨hw', fun hP => ?_⟩
    have hl := hbytes w' hw' hP
    rw [slice_succ] at hl
    show w.1.byte r off :: rest = l
    rw [hrest hP, hfirst hP, ← hl]
    rfl

/-- Reading bytes that stay what they are. -/
theorem safe_loadBytes {A : Shared V R × γ → Prop} {r : R} {off n : Nat} {l : List UInt8}
    {w : Shared V R × γ} (hA : Keeps c A) (hbytes : ∀ w, A w → slice (w.1.byte r) off n = l)
    (hw : A w) : Safe c (fun l' w => l' = l ∧ A w) (Prog.loadBytes r off n) w := by
  have h := safe_loadBytes_while (P := fun _ => True) hA (fun _ _ _ _ => trivial)
    (fun w hw _ => hbytes w hw) hw
  exact h.mono fun _ _ hend => ⟨hend.2 trivial, hend.1⟩

/-- Reading a field of known bytes. -/
theorem safe_loadField {A : Shared V R × γ → Prop} {r : R} {off n : Nat} {l : List UInt8}
    {w : Shared V R × γ} (f : List UInt8 → α) (hA : Keeps c A)
    (hbytes : ∀ w, A w → slice (w.1.byte r) off n = l) (hw : A w) :
    Safe c (fun x w => x = f l ∧ A w)
      (do
        let bytes ← Prog.loadBytes r off n
        pure (f bytes)) w := by
  refine Safe.bind _ (safe_loadBytes hA hbytes hw) ?_
  rintro _ w ⟨rfl, hw⟩
  exact ⟨rfl, hw⟩

/-- Writing bytes, where the assertion `A m` says that the region holds `m`. -/
theorem safe_storeBytes {A : Mem → Shared V R × γ → Prop} {r : R} {m : Mem} {off : Nat}
    {bytes : List UInt8} {w : Shared V R × γ} (hA : ∀ m, Keeps c (A m))
    (hstore : ∀ m w i b, off ≤ i → i < off + bytes.length → A m w →
      ∃ g, c.guar w (w.1.setByte r i b, g) ∧ A (write m i [b]) (w.1.setByte r i b, g))
    (hw : A m w) :
    Safe c (fun _ => A (write m off bytes)) (Prog.storeBytes r off bytes) w := by
  induction bytes generalizing m off w with
  | nil =>
    rw [write_nil]
    exact hw
  | cons b rest ih =>
    refine safe_access (hA m) hw fun w hw _ => ?_
    obtain ⟨g, hguar, hnext⟩ := hstore m w off b (Nat.le_refl _) (by simp) hw
    refine ⟨g, hguar, ?_⟩
    rw [write_cons]
    refine ih ?_ hnext
    intro m w i b hlo hhi hA
    refine hstore m w i b (by omega) ?_ hA
    rw [List.length_cons]
    omega

end SharedMemory

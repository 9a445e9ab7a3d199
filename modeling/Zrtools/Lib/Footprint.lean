import Zrtools.Lib.Sequential

/-!
# What a program does when it runs alone

Nobody comes between the accesses of a program that runs alone, so its end is a function of
the memory it starts from, and so is the list of its accesses.

* `eval_store`, `eval_storeBytes`, `eval_loop`, `eval_call` — the end, access by access and
  turn by turn;
* `accesses`, `Stays` — all accesses, and that they all satisfy a condition;
* `stays_bind`, `stays_loadBytes`, `stays_storeBytes`, `stays_loop` — the rules for it;
* `Within` — bytes inside their regions;
* `rename`, `eval_rename` — a program as a part of one whose memory has more words;
* `Hides` — a program that does the same and also keeps words that nothing reads.
-/

namespace SharedMemory

open ByteMemory

variable {V V' R α β L : Type}

namespace Shared

/-- Put other bytes into a region. -/
def setRegion [DecidableEq R] (s : Shared V R) (r : R) (m : Mem) : Shared V R :=
  { s with byte := Function.update s.byte r m }

section Region

variable [DecidableEq R]

@[simp] theorem byte_setRegion_self (s : Shared V R) (r : R) (m : Mem) :
    (s.setRegion r m).byte r = m := Function.update_self ..

@[simp] theorem word_setRegion (s : Shared V R) (r : R) (m : Mem) :
    (s.setRegion r m).word = s.word := rfl

@[simp] theorem setRegion_setRegion (s : Shared V R) (r : R) (m m' : Mem) :
    (s.setRegion r m).setRegion r m' = s.setRegion r m' := by
  simp [setRegion]

@[simp] theorem setRegion_byte (s : Shared V R) (r : R) : s.setRegion r (s.byte r) = s := by
  simp [setRegion]

end Region

@[simp] theorem byte_setWord [DecidableEq V] (s : Shared V R) (v : V) (x : UInt64) :
    (s.setWord v x).byte = s.byte := rfl

/-- The words that another naming can see. -/
def pull (f : V → V') (s : Shared V' R) : Shared V R where
  word := fun v => s.word (f v)
  byte := s.byte

end Shared

namespace Prog

-- ---------------------------------------------------------------------------
-- The end
-- ---------------------------------------------------------------------------

section Eval

variable [DecidableEq V] [DecidableEq R]

@[simp] theorem eval_pure (a : α) (s : Shared V R) :
    (pure a : Prog V R α).eval s = (a, s) := rfl

@[simp] theorem eval_store (v : V) (x : UInt64) (s : Shared V R) :
    (store v x : Prog V R Unit).eval s = ((), s.setWord v x) := rfl

@[simp] theorem eval_fetchAdd (v : V) (x : UInt64) (s : Shared V R) :
    (fetchAdd v x : Prog V R UInt64).eval s = (s.word v, s.setWord v (s.word v + x)) := rfl

@[simp] theorem eval_storeBytes (r : R) (off : Nat) (l : List UInt8) (s : Shared V R) :
    (storeBytes r off l : Prog V R Unit).eval s =
      ((), s.setRegion r (write (s.byte r) off l)) := by
  induction l generalizing off s with
  | nil => simp [storeBytes]
  | cons b rest ih =>
    show ((storeBytes r (off + 1) rest : Prog V R Unit)).eval (s.setByte r off b) = _
    rw [ih, Shared.byte_setByte_self, ← write_cons]
    show ((), (s.setRegion r (write (s.byte r) off [b])).setRegion r _) = _
    rw [Shared.setRegion_setRegion]

theorem eval_load_bind (v : V) (f : UInt64 → Prog V R α) (s : Shared V R) :
    (load v >>= f).eval s = (f (s.word v)).eval s := rfl

theorem eval_fetchAdd_bind (v : V) (x : UInt64) (f : UInt64 → Prog V R α) (s : Shared V R) :
    (fetchAdd v x >>= f).eval s = (f (s.word v)).eval (s.setWord v (s.word v + x)) := rfl

variable {body : L → Prog V R (Flow L α)}

omit [DecidableEq V] [DecidableEq R] in
/-- A call that begins with the body of its loop. -/
theorem call_eq_loop (body : L → Prog V R (Flow L α)) (turns : Nat) (l : L) :
    call (body l) body turns = loop body (turns + 1) l := rfl

/-- A loop, turn by turn. -/
theorem eval_loop (turns : Nat) (l : L) (s : Shared V R) :
    (loop body (turns + 1) l).eval s =
      match (body l).eval s with
      | (.again l', t) => (loop body turns l').eval t
      | (.done a, t) => (some a, t) := by
  rw [loop, eval_bind]
  rcases (body l).eval s with ⟨_ | _, t⟩ <;> rfl

theorem eval_call (start : Prog V R (Flow L α)) (turns : Nat) (s : Shared V R) :
    (call start body turns).eval s =
      match start.eval s with
      | (.again l, t) => (loop body turns l).eval t
      | (.done a, t) => (some a, t) := by
  rw [call, eval_bind]
  rcases start.eval s with ⟨_ | _, t⟩ <;> rfl

end Eval

-- ---------------------------------------------------------------------------
-- The accesses
-- ---------------------------------------------------------------------------

section Accesses

variable [DecidableEq V] [DecidableEq R]

/-- All accesses of a run. -/
def accesses : Prog V R α → Shared V R → List (Access V R)
  | ret _, _ => []
  | access o k, s => o :: (k (o.exec s).1).accesses (o.exec s).2

theorem accesses_bind (p : Prog V R α) (f : α → Prog V R β) (s : Shared V R) :
    (p >>= f).accesses s = p.accesses s ++ (f (p.eval s).1).accesses (p.eval s).2 := by
  induction p generalizing s with
  | ret a => rfl
  | access o k ih => exact congrArg (o :: ·) (ih _ _)

/-- Every access of a run meets a condition. -/
def Stays (P : Access V R → Prop) (p : Prog V R α) (s : Shared V R) : Prop :=
  ∀ a ∈ p.accesses s, P a

variable {P : Access V R → Prop}

@[simp] theorem stays_pure (a : α) (s : Shared V R) : Stays P (pure a) s :=
  fun _ h => absurd h List.not_mem_nil

theorem stays_access {o : Access V R} {k : o.Res → Prog V R α} {s : Shared V R} :
    Stays P (access o k) s ↔ P o ∧ Stays P (k (o.exec s).1) (o.exec s).2 := by
  rw [Stays, accesses, List.forall_mem_cons]
  rfl

@[simp] theorem stays_bind (p : Prog V R α) (f : α → Prog V R β) (s : Shared V R) :
    Stays P (p >>= f) s ↔ Stays P p s ∧ Stays P (f (p.eval s).1) (p.eval s).2 := by
  rw [Stays, accesses_bind, List.forall_mem_append]
  rfl

@[simp] theorem stays_load (v : V) (s : Shared V R) : Stays P (load v) s ↔ P (.load v) := by
  simp [Stays, load, accesses]

@[simp] theorem stays_store (v : V) (x : UInt64) (s : Shared V R) :
    Stays P (store v x) s ↔ P (.store v x) := by
  simp [Stays, store, accesses]

@[simp] theorem stays_fetchAdd (v : V) (x : UInt64) (s : Shared V R) :
    Stays P (fetchAdd v x) s ↔ P (.fetchAdd v x) := by
  simp [Stays, fetchAdd, accesses]

theorem stays_loadBytes (r : R) (off n : Nat) (s : Shared V R) :
    Stays P (loadBytes r off n) s ↔ ∀ i, off ≤ i → i < off + n → P (.loadByte r i) := by
  induction n generalizing off with
  | zero =>
    refine ⟨fun _ i hlo hhi => by omega, fun _ => stays_pure _ _⟩
  | succ n ih =>
    have hrest : Stays P (loadBytes r off (n + 1)) s ↔
        P (.loadByte r off) ∧ Stays P (loadBytes r (off + 1) n) s := by
      show Stays P (access (.loadByte r off) fun b =>
        loadBytes r (off + 1) n >>= fun rest => pure (b :: rest)) s ↔ _
      rw [stays_access, stays_bind]
      simp [Access.exec]
    rw [hrest, ih]
    refine ⟨?_, ?_⟩
    · rintro ⟨hfirst, hothers⟩ i hlo hhi
      by_cases hi : i = off
      · rw [hi]
        exact hfirst
      · exact hothers i (by omega) (by omega)
    · intro h
      exact ⟨h off (by omega) (by omega), fun i hlo hhi => h i (by omega) (by omega)⟩

/-- Every store of a string goes to one of its places. -/
theorem stays_storeBytes {r : R} {off : Nat} {l : List UInt8} {s : Shared V R}
    (h : ∀ i b, off ≤ i → i < off + l.length → P (.storeByte r i b)) :
    Stays P (storeBytes r off l) s := by
  induction l generalizing off s with
  | nil => exact stays_pure _ _
  | cons b rest ih =>
    show Stays P (access (.storeByte r off b) fun _ => storeBytes r (off + 1) rest) s
    rw [stays_access]
    rw [List.length_cons] at h
    exact ⟨h off b (by omega) (by omega), ih fun i c hlo hhi => h i c (by omega) (by omega)⟩

theorem Stays.imp {Q : Access V R → Prop} {p : Prog V R α} {s : Shared V R} (h : Stays P p s)
    (himp : ∀ a, P a → Q a) : Stays Q p s := fun a ha => himp a (h a ha)

variable {body : L → Prog V R (Flow L α)}

theorem stays_loop (turns : Nat) (l : L) (s : Shared V R) :
    Stays P (loop body (turns + 1) l) s ↔
      Stays P (body l) s ∧
        ∀ l' t, (body l).eval s = (.again l', t) → Stays P (loop body turns l') t := by
  rw [loop, stays_bind]
  refine and_congr_right fun _ => ?_
  rcases (body l).eval s with ⟨l' | a, t⟩
  · refine ⟨?_, ?_⟩
    · rintro h _ _ ⟨⟩
      exact h
    · exact fun h => h l' t rfl
  · refine ⟨fun _ _ _ hend => ?_, fun _ => stays_pure _ _⟩
    cases hend

theorem stays_call (start : Prog V R (Flow L α)) (turns : Nat) (s : Shared V R) :
    Stays P (call start body turns) s ↔
      Stays P start s ∧
        ∀ l t, start.eval s = (.again l, t) → Stays P (loop body turns l) t := by
  rw [call, stays_bind]
  refine and_congr_right fun _ => ?_
  rcases start.eval s with ⟨l | a, t⟩
  · refine ⟨?_, ?_⟩
    · rintro h _ _ ⟨⟩
      exact h
    · exact fun h => h l t rfl
  · refine ⟨fun _ _ _ hend => ?_, fun _ => stays_pure _ _⟩
    cases hend

-- ---------------------------------------------------------------------------
-- Bounds of the regions
-- ---------------------------------------------------------------------------

/-- An access to a byte of a region is below the size of the region. -/
def Within (size : R → Nat) : Access V R → Prop
  | .loadByte r off => off < size r
  | .storeByte r off _ => off < size r
  | .load _ => True
  | .store _ _ => True
  | .fetchAdd _ _ => True

variable {size : R → Nat}

@[simp] theorem within_load (v : V) (s : Shared V R) : Stays (Within size) (load v) s :=
  (stays_load v s).mpr trivial

@[simp] theorem within_store (v : V) (x : UInt64) (s : Shared V R) :
    Stays (Within size) (store v x) s := (stays_store v x s).mpr trivial

@[simp] theorem within_fetchAdd (v : V) (x : UInt64) (s : Shared V R) :
    Stays (Within size) (fetchAdd v x) s := (stays_fetchAdd v x s).mpr trivial

theorem within_load_bind {v : V} {f : UInt64 → Prog V R α} {s : Shared V R} :
    Stays (Within size) (load v >>= f) s ↔ Stays (Within size) (f (s.word v)) s := by
  rw [stays_bind, and_iff_right (within_load v s), eval_load]

theorem within_fetchAdd_bind {v : V} {x : UInt64} {f : UInt64 → Prog V R α} {s : Shared V R} :
    Stays (Within size) (fetchAdd v x >>= f) s ↔
      Stays (Within size) (f (s.word v)) (s.setWord v (s.word v + x)) := by
  rw [stays_bind, and_iff_right (within_fetchAdd v x s), eval_fetchAdd]

theorem within_loadBytes {r : R} {off n : Nat} {s : Shared V R} :
    Stays (Within size) (loadBytes r off n) s ↔ n = 0 ∨ off + n ≤ size r := by
  rw [stays_loadBytes]
  refine ⟨?_, ?_⟩
  · intro h
    by_cases hn : n = 0
    · exact Or.inl hn
    · have hlast : off + n - 1 < size r := h (off + n - 1) (by omega) (by omega)
      exact Or.inr (by omega)
  · intro h i hlo hhi
    show i < size r
    omega

theorem within_storeBytes {r : R} {off : Nat} {l : List UInt8} {s : Shared V R}
    (h : off + l.length ≤ size r) : Stays (Within size) (storeBytes r off l) s := by
  refine stays_storeBytes fun i b _ hhi => ?_
  show i < size r
  omega

end Accesses

-- ---------------------------------------------------------------------------
-- More words
-- ---------------------------------------------------------------------------

/-- The same program over a memory that names its words differently. -/
def rename (f : V → V') : Prog V R α → Prog V' R α
  | ret a => ret a
  | access (.load v) k => access (.load (f v)) fun x => (k x).rename f
  | access (.store v x) k => access (.store (f v) x) fun u => (k u).rename f
  | access (.fetchAdd v x) k => access (.fetchAdd (f v) x) fun y => (k y).rename f
  | access (.loadByte r off) k => access (.loadByte r off) fun b => (k b).rename f
  | access (.storeByte r off b) k => access (.storeByte r off b) fun u => (k u).rename f

section Rename

variable [DecidableEq V] [DecidableEq V'] [DecidableEq R] {f : V → V'}

omit [DecidableEq R] in
theorem pull_setWord (hf : Function.Injective f) (s : Shared V' R) (v : V) (x : UInt64) :
    (s.setWord (f v) x).pull f = (s.pull f).setWord v x := by
  have hword : (fun u => Function.update s.word (f v) x (f u)) =
      Function.update (fun u => s.word (f u)) v x :=
    Function.update_comp_eq_of_injective s.word hf v x
  rw [Shared.pull, Shared.setWord, Shared.setWord, hword]
  rfl

/-- It ends the same way, and leaves the other words alone. -/
theorem eval_rename (hf : Function.Injective f) (p : Prog V R α) (s : Shared V' R) :
    ((p.rename f).eval s).1 = (p.eval (s.pull f)).1 ∧
      ((p.rename f).eval s).2.pull f = (p.eval (s.pull f)).2 ∧
      ∀ w, (∀ v, f v ≠ w) → ((p.rename f).eval s).2.word w = s.word w := by
  induction p generalizing s with
  | ret a => exact ⟨rfl, rfl, fun _ _ => rfl⟩
  | access o k ih =>
    have hother : ∀ v x w, (∀ v, f v ≠ w) → (s.setWord (f v) x).word w = s.word w :=
      fun v x w hw => Shared.word_setWord_of_ne _ (fun h => hw v h.symm) _
    cases o with
    | load v => exact ih _ _
    | loadByte r off => exact ih _ _
    | storeByte r off b => exact ih () (s.setByte r off b)
    | store v x =>
      obtain ⟨hresult, hmemory, hwords⟩ := ih () (s.setWord (f v) x)
      rw [pull_setWord hf] at hresult hmemory
      exact ⟨hresult, hmemory, fun w hw => (hwords w hw).trans (hother v x w hw)⟩
    | fetchAdd v x =>
      obtain ⟨hresult, hmemory, hwords⟩ :=
        ih (s.word (f v)) (s.setWord (f v) (s.word (f v) + x))
      rw [pull_setWord hf] at hresult hmemory
      exact ⟨hresult, hmemory, fun w hw => (hwords w hw).trans (hother v _ w hw)⟩

/-- A part that only stores bytes. -/
theorem eval_rename_of_setRegion (hf : Function.Injective f) {p : Prog V R α} {s : Shared V' R}
    {r : R} {m : Mem} {a : α} (h : p.eval (s.pull f) = (a, (s.pull f).setRegion r m)) :
    (p.rename f).eval s = (a, s.setRegion r m) := by
  obtain ⟨hresult, hmemory, hwords⟩ := eval_rename hf p s
  rw [h] at hresult hmemory
  have hbyte : ((p.rename f).eval s).2.byte = (s.setRegion r m).byte :=
    congrArg (fun t : Shared V R => t.byte) hmemory
  have hword : ((p.rename f).eval s).2.word = s.word := by
    funext w
    by_cases hw : ∃ v, f v = w
    · obtain ⟨v, rfl⟩ := hw
      exact congrFun (congrArg (fun t : Shared V R => t.word) hmemory) v
    · exact hwords w fun v hv => hw ⟨v, hv⟩
  refine Prod.ext hresult ?_
  cases hend : ((p.rename f).eval s).2 with
  | mk word byte =>
    rw [hend] at hbyte hword
    subst hbyte hword
    rfl

/-- Its accesses are the renamed ones; those to bytes are the same. -/
theorem stays_rename {P : Access V' R → Prop} (hf : Function.Injective f) (p : Prog V R α)
    (s : Shared V' R) :
    Stays P (p.rename f) s ↔
      Stays (fun o => match o with
        | .load v => P (.load (f v))
        | .store v x => P (.store (f v) x)
        | .fetchAdd v x => P (.fetchAdd (f v) x)
        | .loadByte r off => P (.loadByte r off)
        | .storeByte r off b => P (.storeByte r off b)) p (s.pull f) := by
  induction p generalizing s with
  | ret a => exact ⟨fun _ => stays_pure _ _, fun _ => stays_pure _ _⟩
  | access o k ih =>
    rw [stays_access]
    cases o with
    | load v =>
      rw [rename, stays_access, ih]
      rfl
    | loadByte r off =>
      rw [rename, stays_access, ih]
      rfl
    | storeByte r off b =>
      rw [rename, stays_access, ih]
      rfl
    | store v x =>
      rw [rename, stays_access, ih]
      simp only [Access.exec, pull_setWord hf]
    | fetchAdd v x =>
      rw [rename, stays_access, ih]
      simp only [Access.exec, pull_setWord hf]
      rfl

/-- The bounds are the same. -/
theorem within_rename {size : R → Nat} (hf : Function.Injective f) {p : Prog V R α}
    {s : Shared V' R} :
    Stays (Within size) (p.rename f) s ↔ Stays (Within size) p (s.pull f) := by
  rw [stays_rename hf]
  refine ⟨?_, ?_⟩
  · exact fun h => h.imp fun a ha => by cases a <;> exact ha
  · exact fun h => h.imp fun a ha => by cases a <;> exact ha

-- ---------------------------------------------------------------------------
-- Programs with words that nothing reads
-- ---------------------------------------------------------------------------

/-- Seen through the naming the first program does what the second one does. -/
def Hides (f : V → V') (p : Prog V' R α) (q : Prog V R α) : Prop :=
  ∀ s, Prod.map id (Shared.pull f) (p.eval s) = q.eval (s.pull f)

theorem hides_pure (a : α) : Hides f (pure a : Prog V' R α) (pure a) := fun _ => rfl

theorem hides_rename (hf : Function.Injective f) (p : Prog V R α) : Hides f (p.rename f) p := by
  intro s
  obtain ⟨hresult, hmemory, -⟩ := eval_rename hf p s
  exact Prod.ext hresult hmemory

theorem Hides.bind {p : Prog V' R α} {q : Prog V R α} {g : α → Prog V' R β} {h : α → Prog V R β}
    (hfirst : Hides f p q) (hrest : ∀ a, Hides f (g a) (h a)) : Hides f (p >>= g) (q >>= h) := by
  intro s
  rw [eval_bind, eval_bind, hrest, ← hfirst]
  rfl

/-- A part that only touches words that the naming does not have. -/
theorem Hides.after {p : Prog V' R α} {g : α → Prog V' R β} {q : Prog V R β}
    (hfirst : ∀ s, (p.eval s).2.pull f = s.pull f) (hrest : ∀ a, Hides f (g a) q) :
    Hides f (p >>= g) q := by
  intro s
  rw [eval_bind, hrest, hfirst]

theorem Hides.ite {c : Prop} [Decidable c] {p p' : Prog V' R α} {q q' : Prog V R α}
    (h : Hides f p q) (h' : Hides f p' q') :
    Hides f (if c then p else p') (if c then q else q') := by
  split
  · exact h
  · exact h'

variable {body : L → Prog V' R (Flow L α)} {body' : L → Prog V R (Flow L α)}

theorem Hides.loop (hbody : ∀ l, Hides f (body l) (body' l)) (turns : Nat) (l : L) :
    Hides f (Prog.loop body turns l) (Prog.loop body' turns l) := by
  induction turns generalizing l with
  | zero => exact hides_pure none
  | succ turns ih =>
    refine (hbody l).bind fun r => ?_
    cases r with
    | again l' => exact ih l'
    | done a => exact hides_pure (some a)

theorem Hides.call {start : Prog V' R (Flow L α)} {start' : Prog V R (Flow L α)}
    (hstart : Hides f start start') (hbody : ∀ l, Hides f (body l) (body' l)) (turns : Nat) :
    Hides f (Prog.call start body turns) (Prog.call start' body' turns) := by
  refine hstart.bind fun r => ?_
  cases r with
  | again l => exact Hides.loop hbody turns l
  | done a => exact hides_pure (some a)

end Rename

end Prog

end SharedMemory

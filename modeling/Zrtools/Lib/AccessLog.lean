import Zrtools.Lib.SharedMemory

/-!
# Programs whose accesses are logged

A program makes its accesses one by one, and others move in between. A log takes down, in the
order they happen, notes about both: what the program's accesses were and what they answered,
and what the others did. `Logged c post p w` says that the program `p` ends with `post` about
the memory and the log, from the memory and the log `w`.

* `Logged.mono`, `Logged.bind` — consequence and sequence;
* `Logged.pause`, `Logged.step` — a program that waits, and one that makes its next access;
* `logged_of_kept` — what the others and every note keep holds at the end;
* `logged_load`, `logged_loadBytes` — reading under an assertion that the others keep.
-/

namespace SharedMemory

variable {V R α β ε : Type}

/-- What the others do to the memory and the log, and what is noted of an access. -/
structure LogContract (V R ε : Type) where
  rely : Shared V R × List ε → Shared V R × List ε → Prop
  note : (o : Access V R) → o.Res → List ε

variable [DecidableEq V] [DecidableEq R]

/-- What is noted of the next access. -/
def Prog.noted (note : (o : Access V R) → o.Res → List ε) : Prog V R α → Shared V R → List ε
  | .ret _, _ => []
  | .access o _, s => note o (o.exec s).1

/-- From here on the program ends with `post`. -/
def Logged (c : LogContract V R ε) (post : α → Shared V R × List ε → Prop) :
    Prog V R α → Shared V R × List ε → Prop
  | .ret a, w => post a w
  | .access o k, w => ∀ w', c.rely w w' →
    Logged c post (k (o.exec w'.1).1) ((o.exec w'.1).2, w'.2 ++ c.note o (o.exec w'.1).1)

variable {c : LogContract V R ε} {post : α → Shared V R × List ε → Prop}

theorem Logged.mono {post' : α → Shared V R × List ε → Prop} {p : Prog V R α}
    {w : Shared V R × List ε} (h : Logged c post p w) (hpost : ∀ a w, post a w → post' a w) :
    Logged c post' p w := by
  induction p generalizing w with
  | ret a => exact hpost a w h
  | access o k ih => exact fun w' hrely => ih _ (h w' hrely)

theorem Logged.bind (mid : β → Shared V R × List ε → Prop) {p : Prog V R β}
    {q : β → Prog V R α} {w : Shared V R × List ε} (h : Logged c mid p w)
    (hq : ∀ a w, mid a w → Logged c post (q a) w) : Logged c post (p >>= q) w := by
  induction p generalizing w with
  | ret a => exact hq a w h
  | access o k ih => exact fun w' hrely => ih _ (h w' hrely)

/-- A program with an access to come may wait. -/
theorem Logged.pause {p : Prog V R α} {w w' : Shared V R × List ε} (h : Logged c post p w)
    (hrunning : p.result = none) (htrans : ∀ w'', c.rely w' w'' → c.rely w w'') :
    Logged c post p w' := by
  match p, h, hrunning with
  | .access o k, h, _ => exact fun w'' hnext => h w'' (htrans w'' hnext)

/-- A program that makes its next access. -/
theorem Logged.step {p p' : Prog V R α} {s s' : Shared V R} {log : List ε}
    (h : Logged c post p (s, log)) (hrely : c.rely (s, log) (s, log))
    (hstep : p.step s = some (p', s')) :
    Logged c post p' (s', log ++ p.noted c.note s) := by
  match p, h, hstep with
  | .access o k, h, hstep =>
    cases hstep
    exact h (s, log) hrely

/-- What the others and every note keep holds at the end of every program. -/
theorem logged_of_kept {F : List ε → Prop} (hrely : ∀ w w', c.rely w w' → F w.2 → F w'.2)
    (hnote : ∀ log more, F log → F (log ++ more)) (p : Prog V R α) {w : Shared V R × List ε}
    (hw : F w.2) : Logged c (fun _ w => F w.2) p w := by
  induction p generalizing w with
  | ret a => exact hw
  | access o k ih => exact fun w' hmove => ih _ (hnote _ _ (hrely w w' hmove hw))

/-- Reading a word under an assertion that the others keep. -/
theorem logged_load {A : Shared V R × List ε → Prop} {v : V} {q : UInt64 → Prog V R α}
    {w : Shared V R × List ε} (hA : ∀ w w', A w → c.rely w w' → A w') (hw : A w)
    (h : ∀ w, A w → Logged c post (q (w.1.word v)) (w.1, w.2 ++ c.note (.load v) (w.1.word v))) :
    Logged c post (Prog.load v >>= q) w :=
  fun w' hrely => h w' (hA w w' hw hrely)

/-- Reading bytes under an assertion that the others keep, where that is not noted. -/
theorem logged_loadBytes {A : Shared V R × List ε → Prop} {r : R} {off n : Nat}
    {w : Shared V R × List ε} (hA : ∀ w w', A w → c.rely w w' → A w')
    (hnote : ∀ off b, c.note (.loadByte r off) b = []) (hw : A w) :
    Logged c (fun l w => l.length = n ∧ A w) (Prog.loadBytes r off n) w := by
  induction n generalizing off w with
  | zero => exact ⟨rfl, hw⟩
  | succ n ih =>
    intro w' hrely
    have hnext : A (w'.1, w'.2 ++ c.note (.loadByte r off) (w'.1.byte r off)) := by
      rw [hnote, List.append_nil]
      exact hA w w' hw hrely
    show Logged c _ (Prog.loadBytes r (off + 1) n >>= fun rest => _) _
    refine Logged.bind _ (ih hnext) ?_
    rintro rest w'' ⟨hlen, hkept⟩
    exact ⟨congrArg (· + 1) hlen, hkept⟩

end SharedMemory

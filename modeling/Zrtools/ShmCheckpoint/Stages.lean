import Mathlib.Algebra.Order.Ring.Nat
import Zrtools.Lib.Register
import Zrtools.ShmCheckpoint

/-!
# zrtools — one writer and its readers, access by access

A `Write` makes the number of its slot odd, copies the state, makes the number even and
switches; the writes use the two slots in turn. A stage counts how many writes have done
each of these, and with it the numbers, the active slot and the contents of a slot that
is not being written are known. Stages only grow, so that a reader that finds the same
even number before and after its copy knows that no write to that slot came between.

* `safe_write_stages` — `Write` goes from one stage to the next ones;
* `safe_tryReadSlot` — what `TryReadSlot` gives is the state of one write, and if it
  gives nothing, a later write to the same slot has begun;
* `safe_read` — a `Read` gives the state of a write that is not older than the active one
  when it was called.
-/

namespace Zrtools.ShmCheckpoint

open ByteMemory Register SharedMemory

variable {size : Nat}

-- ---------------------------------------------------------------------------
-- Stages
-- ---------------------------------------------------------------------------

/-- The states that were passed to `Write`, and how many writes have made the number of
their slot odd, have made it even again, and have switched. -/
structure Stage where
  written : List (List UInt8)
  started : Nat
  stored : Nat
  switched : Nat

/-- The slot of write `i`, counted from one; before any, slot 0 is active. -/
def slotOf (i : Nat) : UInt64 := if i % 2 = 1 then 1 else 0

/-- How often the number of the slot of write `i` was increased. -/
def Stage.seqOf (g : Stage) (i : Nat) : Nat := (g.started + i % 2) / 2 + (g.stored + i % 2) / 2

/-- A later stage. -/
structure Stage.Le (g g' : Stage) : Prop where
  written : g.written <+: g'.written
  started : g.started ≤ g'.started
  stored : g.stored ≤ g'.stored
  switched : g.switched ≤ g'.switched

/-- The segment at a stage: the state of a write is in its slot until the second next
write begins. -/
structure AtStage (size : Nat) (s : Segment) (g : Stage) : Prop where
  switched_le : g.switched ≤ g.stored
  stored_le : g.stored ≤ g.started
  started_le : g.started ≤ g.switched + 1
  started_le_length : g.started ≤ g.written.length
  active : s.word .active = slotOf g.switched
  seq : ∀ i, s.word (.seq (slotOf i)) = UInt64.ofNat (g.seqOf i)
  data : ∀ i x, IsWrite g.written i x → i ≤ g.stored → g.started < i + 2 →
    slice (s.byte (slotOf i)) 0 size = x

theorem Stage.Le.refl (g : Stage) : g.Le g :=
  ⟨List.prefix_rfl, Nat.le_refl _, Nat.le_refl _, Nat.le_refl _⟩

theorem Stage.Le.trans {g g' g'' : Stage} (h : g.Le g') (h' : g'.Le g'') : g.Le g'' where
  written := h.written.trans h'.written
  started := Nat.le_trans h.started h'.started
  stored := Nat.le_trans h.stored h'.stored
  switched := Nat.le_trans h.switched h'.switched

theorem Stage.Le.isWrite {g g' : Stage} (h : g.Le g') {i : Nat} {x : List UInt8}
    (hx : IsWrite g.written i x) : IsWrite g'.written i x := by
  obtain ⟨more, hmore⟩ := h.written
  rw [← hmore]
  exact hx.append more

theorem slotOf_eq_iff {i j : Nat} : slotOf i = slotOf j ↔ i % 2 = j % 2 := by
  unfold slotOf
  rcases Nat.mod_two_eq_zero_or_one i with hi | hi
  · rcases Nat.mod_two_eq_zero_or_one j with hj | hj
    · simp [hi, hj]
    · simp [hi, hj]
  · rcases Nat.mod_two_eq_zero_or_one j with hj | hj
    · simp [hi, hj]
    · simp [hi, hj]

theorem slotOf_ne_succ (i : Nat) : slotOf i ≠ slotOf (i + 1) := by
  rw [ne_eq, slotOf_eq_iff]
  omega

/-- `1 - slot` is the slot of the next write. -/
theorem one_sub_slotOf (i : Nat) : 1 - slotOf i = slotOf (i + 1) := by
  unfold slotOf
  rcases Nat.mod_two_eq_zero_or_one i with hi | hi
  · have hsucc : (i + 1) % 2 = 1 := by omega
    simp [hi, hsucc]
  · have hsucc : (i + 1) % 2 = 0 := by omega
    simp [hi, hsucc]

theorem seqOf_congr (g : Stage) {i j : Nat} (h : slotOf i = slotOf j) : g.seqOf i = g.seqOf j := by
  rw [slotOf_eq_iff] at h
  rw [Stage.seqOf, Stage.seqOf, h]

theorem ofNat_and_one (n : Nat) : UInt64.ofNat n &&& 1 = 1 ↔ n % 2 = 1 := by
  rw [← UInt64.toNat_inj, UInt64.toNat_and, UInt64.toNat_ofNat', UInt64.toNat_one,
    Nat.and_one_is_mod]
  omega

theorem ofNat_inj_of_lt {m n : Nat} (hm : m < 2 ^ 64) (hn : n < 2 ^ 64) :
    UInt64.ofNat m = UInt64.ofNat n ↔ m = n := by
  rw [← UInt64.toNat_inj, UInt64.toNat_ofNat', UInt64.toNat_ofNat', Nat.mod_eq_of_lt hm,
    Nat.mod_eq_of_lt hn]

-- ---------------------------------------------------------------------------
-- Write
-- ---------------------------------------------------------------------------

/-- Nobody else writes, and the segment is at some stage all the time. Before the last
access the write has not switched. -/
def writerContract (size : Nat) (written : List (List UInt8)) (n : Nat) :
    Contract Var UInt64 Stage where
  rely w w' := w' = w
  ok _ _ := True
  guar w w' := AtStage size w'.1 w'.2 ∧ w.2.Le w'.2
  during w := w.2.written = written ∧ w.2.switched = n

/-- Making the number odd. -/
theorem AtStage.start {s : Segment} {written : List (List UInt8)} {n : Nat}
    (h : AtStage size s ⟨written, n, n, n⟩) (hlt : n < written.length) :
    AtStage size
      (s.setWord (.seq (slotOf (n + 1))) (s.word (.seq (slotOf (n + 1))) + 1))
      ⟨written, n + 1, n, n⟩ := by
  have hkeep : ∀ v, v ≠ Var.seq (slotOf (n + 1)) →
      (s.setWord (.seq (slotOf (n + 1))) (s.word (.seq (slotOf (n + 1))) + 1)).word v =
        s.word v := fun v hv => Shared.word_setWord_of_ne s hv _
  constructor
  case switched_le => exact Nat.le_refl _
  case stored_le => exact Nat.le_succ _
  case started_le => exact Nat.le_refl _
  case started_le_length => exact hlt
  case active =>
    rw [hkeep _ (by simp)]
    exact h.active
  case seq =>
    intro i
    by_cases hi : slotOf i = slotOf (n + 1)
    · rw [hi, Shared.word_setWord_self, h.seq, seqOf_congr _ hi, ← UInt64.ofNat_one,
        ← UInt64.ofNat_add]
      congr 1
      simp only [Stage.seqOf]
      omega
    · rw [hkeep _ (by simpa using hi), h.seq]
      rw [slotOf_eq_iff] at hi
      congr 1
      simp only [Stage.seqOf]
      omega
  case data =>
    intro i x hx hstored hstarted
    exact h.data i x hx hstored (by simp only at hstarted ⊢; omega)

/-- Copying a byte of the state. -/
theorem AtStage.copyByte {s : Segment} {written : List (List UInt8)} {n : Nat}
    (h : AtStage size s ⟨written, n + 1, n, n⟩) (off : Nat) (b : UInt8) :
    AtStage size (s.setByte (slotOf (n + 1)) off b) ⟨written, n + 1, n, n⟩ := by
  constructor
  case switched_le => exact h.switched_le
  case stored_le => exact h.stored_le
  case started_le => exact h.started_le
  case started_le_length => exact h.started_le_length
  case active => exact h.active
  case seq => exact h.seq
  case data =>
    intro i x hx hstored hstarted
    -- only the write before this one counts
    obtain rfl : i = n := by simp only at hstored hstarted; omega
    rw [Shared.byte_setByte_of_ne s (slotOf_ne_succ i)]
    exact h.data i x hx hstored hstarted

/-- Making the number even again, with the state in the slot. -/
theorem AtStage.store {s : Segment} {written : List (List UInt8)} {n : Nat} {x : List UInt8}
    (h : AtStage size s ⟨written, n + 1, n, n⟩) (hx : IsWrite written (n + 1) x)
    (hdata : slice (s.byte (slotOf (n + 1))) 0 size = x) :
    AtStage size
      (s.setWord (.seq (slotOf (n + 1)))
        (UInt64.ofNat (Stage.seqOf ⟨written, n, n, n⟩ (n + 1)) + 2))
      ⟨written, n + 1, n + 1, n⟩ := by
  have hkeep : ∀ v, v ≠ Var.seq (slotOf (n + 1)) →
      (s.setWord (.seq (slotOf (n + 1)))
        (UInt64.ofNat (Stage.seqOf ⟨written, n, n, n⟩ (n + 1)) + 2)).word v = s.word v :=
    fun v hv => Shared.word_setWord_of_ne s hv _
  constructor
  case switched_le => exact Nat.le_succ _
  case stored_le => exact Nat.le_refl _
  case started_le => exact Nat.le_refl _
  case started_le_length => exact h.started_le_length
  case active =>
    rw [hkeep _ (by simp)]
    exact h.active
  case seq =>
    intro i
    by_cases hi : slotOf i = slotOf (n + 1)
    · have htwo : (2 : UInt64) = UInt64.ofNat 2 := rfl
      rw [hi, Shared.word_setWord_self, seqOf_congr _ hi, htwo, ← UInt64.ofNat_add]
      congr 1
      simp only [Stage.seqOf]
      omega
    · rw [hkeep _ (by simpa using hi), h.seq]
      rw [slotOf_eq_iff] at hi
      congr 1
      simp only [Stage.seqOf]
      omega
  case data =>
    intro i y hy hstored hstarted
    rcases Nat.lt_or_ge n i with hlt | hge
    · obtain rfl : i = n + 1 := by simp only at hstored; omega
      rw [hy.unique hx]
      exact hdata
    · exact h.data i y hy hge hstarted

/-- The switch. -/
theorem AtStage.switch {s : Segment} {written : List (List UInt8)} {n : Nat}
    (h : AtStage size s ⟨written, n + 1, n + 1, n⟩) :
    AtStage size (s.setWord .active (slotOf (n + 1))) ⟨written, n + 1, n + 1, n + 1⟩ where
  switched_le := Nat.le_refl _
  stored_le := Nat.le_refl _
  started_le := Nat.le_succ _
  started_le_length := h.started_le_length
  active := Shared.word_setWord_self ..
  seq i := by
    rw [Shared.word_setWord_of_ne _ (by simp)]
    exact h.seq i
  data := h.data

/-- **`Write`** of the state that was passed last goes from stage to stage. -/
theorem safe_write_stages {s : Segment} {before : List (List UInt8)} {n : Nat} (x : State size)
    (hlen : before.length = n) (h : AtStage size s ⟨before ++ [x.1], n, n, n⟩) :
    Safe (writerContract size (before ++ [x.1]) n)
      (fun _ w => w.2 = ⟨before ++ [x.1], n + 1, n + 1, n + 1⟩) (write x)
      (s, ⟨before ++ [x.1], n, n, n⟩) := by
  have hx : IsWrite (before ++ [x.1]) (n + 1) x.1 := by
    rw [← hlen]
    exact isWrite_concat before x.1
  have hlt : n < (before ++ [x.1]).length := hx.le_length
  generalize before ++ [x.1] = written at h hx hlt
  have hduring : ∀ t a b, (writerContract size written n).during (t, ⟨written, a, b, n⟩) :=
    fun _ _ _ => ⟨rfl, rfl⟩
  unfold write
  -- the two loads
  refine ⟨hduring .., ?_⟩
  rintro _ rfl -
  refine ⟨⟨written, n, n, n⟩, ⟨h, Stage.Le.refl _⟩, hduring .., ?_⟩
  rintro _ rfl -
  refine ⟨⟨written, n, n, n⟩, ⟨h, Stage.Le.refl _⟩, ?_⟩
  simp only [Access.exec, h.active, one_sub_slotOf]
  -- the number becomes odd
  refine ⟨hduring .., ?_⟩
  rintro _ rfl -
  have hstart := h.start hlt
  have hle : Stage.Le ⟨written, n, n, n⟩ ⟨written, n + 1, n, n⟩ :=
    ⟨List.prefix_rfl, Nat.le_succ _, Nat.le_refl _, Nat.le_refl _⟩
  refine ⟨⟨written, n + 1, n, n⟩, ⟨hstart, hle⟩, ?_⟩
  -- the bytes
  show Safe _ _ (Prog.storeBytes (slotOf (n + 1)) 0 x.1 >>= fun _ => _) _
  refine Safe.bind (fun _ w => w.2 = ⟨written, n + 1, n, n⟩ ∧ AtStage size w.1 w.2 ∧
    w.1.byte (slotOf (n + 1)) = ByteMemory.write (s.byte (slotOf (n + 1))) 0 x.1) ?_ ?_
  · refine safe_storeBytes (A := fun m w => w.2 = ⟨written, n + 1, n, n⟩ ∧
      AtStage size w.1 w.2 ∧ w.1.byte (slotOf (n + 1)) = m) ?_ ?_ ?_
    · intro m
      constructor
      case rely =>
        rintro w _ hw rfl
        exact hw
      case during =>
        rintro ⟨t, g⟩ ⟨rfl, -, -⟩
        exact hduring ..
      case guar =>
        rintro ⟨t, g⟩ ⟨rfl, ht, -⟩
        exact ⟨ht, Stage.Le.refl _⟩
    · rintro m ⟨t, g⟩ i b - - ⟨rfl, ht, rfl⟩
      have hcopy := ht.copyByte i b
      exact ⟨⟨written, n + 1, n, n⟩, ⟨hcopy, Stage.Le.refl _⟩, rfl, hcopy,
        Shared.byte_setByte_self ..⟩
    · exact ⟨rfl, hstart, rfl⟩
  · rintro - ⟨t, g⟩ ⟨rfl, ht, hbytes⟩
    have hdata : slice (t.byte (slotOf (n + 1))) 0 size = x.1 := by
      rw [hbytes]
      exact slice_write_of_length (s.byte (slotOf (n + 1))) 0 x.2
    -- the number becomes even, and the switch
    refine ⟨hduring .., ?_⟩
    rintro _ rfl -
    have hstore := ht.store hx hdata
    rw [← h.seq] at hstore
    refine ⟨⟨written, n + 1, n + 1, n⟩,
      ⟨hstore, List.prefix_rfl, Nat.le_refl _, Nat.le_succ _, Nat.le_refl _⟩, hduring .., ?_⟩
    rintro _ rfl -
    exact ⟨⟨written, n + 1, n + 1, n + 1⟩,
      ⟨hstore.switch, List.prefix_rfl, Nat.le_refl _, Nat.le_refl _, Nat.le_succ _⟩, rfl⟩

-- ---------------------------------------------------------------------------
-- Read
-- ---------------------------------------------------------------------------

/-- The segment at a stage at which no number has come round to zero. -/
structure Readout (size : Nat) (w : Segment × Stage) : Prop where
  stage : AtStage size w.1 w.2
  bound : w.2.written.length < 2 ^ 64 - 1

/-- A reader changes nothing, and meanwhile the writer may go on. -/
def readerContract (size : Nat) : Contract Var UInt64 Stage where
  rely w w' := Readout size w' ∧ w.2.Le w'.2
  ok _ _ := True
  guar w w' := w' = w
  during _ := True

theorem Readout.seqOf_lt {w : Segment × Stage} (h : Readout size w) (i : Nat) :
    w.2.seqOf i < 2 ^ 64 := by
  have hstored := h.stage.stored_le
  have hlength := h.stage.started_le_length
  have hbound := h.bound
  unfold Stage.seqOf
  omega

/-- From stage `g` on. -/
structure Since (size : Nat) (g : Stage) (w : Segment × Stage) : Prop where
  readout : Readout size w
  le : g.Le w.2

theorem Since.of_le {g g' : Stage} {w : Segment × Stage} (h : Since size g' w) (hle : g.Le g') :
    Since size g w :=
  ⟨h.readout, hle.trans h.le⟩

theorem keeps_since (size : Nat) (g : Stage) : Keeps (readerContract size) (Since size g) where
  rely _ _ h hmove := ⟨hmove.1, h.le.trans hmove.2⟩
  during _ _ := trivial
  guar _ _ := rfl

/-- The slot of write `k` is not being written: it holds the state of write `i`, the last
one to this slot. -/
theorem exists_last_write {g : Stage} {k : Nat} (hle : g.stored ≤ g.started)
    (heven : g.seqOf k % 2 = 0) (hone : g.started ≤ g.stored + 1) (hpos : g.seqOf k ≠ 0) :
    ∃ i, 0 < i ∧ slotOf i = slotOf k ∧ i ≤ g.stored ∧ g.started < i + 2 := by
  unfold Stage.seqOf at heven hpos
  refine ⟨2 * ((g.stored + k % 2) / 2) - k % 2, ?_, ?_, ?_, ?_⟩
  · omega
  · rw [slotOf_eq_iff]
    omega
  · omega
  · omega

/-- What `TryReadSlot` on the slot of write `k` may give, from stage `g` on. -/
def TryReadPost (size : Nat) (g : Stage) (k : Nat) (res : Option (List UInt8))
    (w : Segment × Stage) : Prop :=
  Since size g w ∧
    match res with
    | some out => ∃ i, slotOf i = slotOf k ∧ g.started < i + 2 ∧ i ≤ w.2.stored ∧
        IsWrite w.2.written i out
    | none => k ≤ g.stored → k = 0 ∨ k + 2 ≤ w.2.started

/-- A copy of the slot of write `i`; it may be spoiled once the next write to this slot has
begun. -/
def CopyOf (size : Nat) (g : Stage) (i : Nat) (x out : List UInt8) (w : Segment × Stage) : Prop :=
  Since size g w ∧ (w.2.started < i + 2 → out = x)

theorem keeps_copyOf (size : Nat) (g : Stage) (i : Nat) (x out : List UInt8) :
    Keeps (readerContract size) (CopyOf size g i x out) where
  rely w w' h hmove :=
    ⟨(keeps_since size g).rely w w' h.1 hmove,
      fun hlt => h.2 (Nat.lt_of_le_of_lt hmove.2.started hlt)⟩
  during _ _ := trivial
  guar _ _ := rfl

/-- The copy of a slot that is not being written. -/
theorem safe_copySlot {w : Segment × Stage} (hw : Readout size w) {i : Nat} {x : List UInt8}
    (hx : IsWrite w.2.written i x) (histored : i ≤ w.2.stored) :
    Safe (readerContract size) (CopyOf size w.2 i x) (Prog.loadBytes (slotOf i) 0 size) w := by
  refine safe_loadBytes_while (keeps_since size w.2) ?_ ?_ ⟨hw, Stage.Le.refl _⟩
  · intro w w' hmove hlt
    exact Nat.lt_of_le_of_lt hmove.2.started hlt
  · intro w hw hlt
    exact hw.readout.stage.data i x (hw.le.isWrite hx) (Nat.le_trans histored hw.le.stored) hlt

/-- **`TryReadSlot`**, where what is left of the loop has failed already if there are no
retries left. -/
theorem safe_tryReadSlot {g : Stage} {k retries : Nat} {w : Segment × Stage}
    (hw : Since size g w) (hfailed : retries = 0 → k ≤ g.stored → k + 2 ≤ w.2.started) :
    Safe (readerContract size) (TryReadPost size g k) (tryReadSlot size (slotOf k) retries) w := by
  induction retries generalizing w with
  | zero => exact ⟨hw, fun hk => Or.inr (hfailed rfl hk)⟩
  | succ retries ih =>
    unfold tryReadSlot
    refine safe_load (keeps_since size g) hw fun w₁ hw₁ => ?_
    have hstage := hw₁.readout.stage
    have hone : w₁.2.started ≤ w₁.2.stored + 1 :=
      Nat.le_trans hstage.started_le (Nat.succ_le_succ hstage.switched_le)
    rw [hstage.seq]
    split
    · -- the number is odd: a write to this slot is under way
      rename_i hodd
      rw [ofNat_and_one] at hodd
      refine ih hw₁ fun _ hk => ?_
      have hstored := hw₁.le.stored
      have hle := hstage.stored_le
      unfold Stage.seqOf at hodd
      omega
    · rename_i heven
      rw [ofNat_and_one] at heven
      split
      · -- nothing was written to this slot
        rename_i hzero
        have hnever : w₁.2.seqOf k = 0 :=
          (ofNat_inj_of_lt (hw₁.readout.seqOf_lt k) (by omega)).mp hzero
        refine ⟨hw₁, fun hk => Or.inl ?_⟩
        have hstored := hw₁.le.stored
        unfold Stage.seqOf at hnever
        omega
      · rename_i hnonzero
        have hpos : w₁.2.seqOf k ≠ 0 := by
          intro hzero
          rw [hzero] at hnonzero
          exact hnonzero rfl
        obtain ⟨i, hi, hslot, histored, histarted⟩ :=
          exists_last_write hstage.stored_le (by omega) hone hpos
        obtain ⟨x, hx⟩ := exists_isWrite hi (Nat.le_trans histored
          (Nat.le_trans hstage.stored_le hstage.started_le_length))
        have hcopy := safe_copySlot hw₁.readout hx histored
        rw [hslot] at hcopy
        refine Safe.bind _ hcopy ?_
        intro out w₂ hw₂
        refine safe_load (keeps_copyOf size w₁.2 i x out) hw₂ ?_
        rintro w₃ ⟨hw₃, hout⟩
        have hsince := hw₃.of_le hw₁.le
        have hstarted := hw₃.le.started
        have hstored := hw₃.le.stored
        have hle := hw₃.readout.stage.stored_le
        rw [hw₃.readout.stage.seq]
        rw [slotOf_eq_iff] at hslot
        split
        · -- the number is the same
          rename_i hsame
          rw [ofNat_inj_of_lt (hw₁.readout.seqOf_lt k) (hw₃.readout.seqOf_lt k)] at hsame
          unfold Stage.seqOf at hsame
          have hlt : w₃.2.started < i + 2 := by omega
          refine ⟨hsince, i, slotOf_eq_iff.mpr hslot, ?_, by omega, ?_⟩
          · exact Nat.lt_of_le_of_lt hw₁.le.started histarted
          · rw [hout hlt]
            exact hw₃.le.isWrite hx
        · rename_i hchanged
          rw [ofNat_inj_of_lt (hw₁.readout.seqOf_lt k) (hw₃.readout.seqOf_lt k)] at hchanged
          refine ih hsince fun _ hk => ?_
          have hold := hw₁.le.stored
          have hlower := hstage.stored_le
          unfold Stage.seqOf at hchanged heven
          omega

/-- What `Read` may give, when `began` writes had returned before. -/
def ReadPost (began : Nat) (res : Option (List UInt8)) (w : Segment × Stage) : Prop :=
  ∀ out, res = some out → ∃ i, began ≤ i ∧ i ≤ w.2.switched + 1 ∧ IsWrite w.2.written i out

/-- **`Read`** gives the state of a write that is not older than the one that was active
when it was called. -/
theorem safe_read {g : Stage} {began : Nat} {w : Segment × Stage} (hw : Since size g w)
    (hbegan : began ≤ g.switched) :
    Safe (readerContract size) (ReadPost began) (read size) w := by
  unfold read
  refine safe_load (keeps_since size g) hw fun w₁ hw₁ => ?_
  have hstage := hw₁.readout.stage
  have hactive := hw₁.le.switched
  have hswitched := hstage.switched_le
  have hstored := hstage.stored_le
  rw [hstage.active, one_sub_slotOf]
  refine Safe.bind (TryReadPost size w₁.2 w₁.2.switched)
    (safe_tryReadSlot ⟨hw₁.readout, Stage.Le.refl _⟩ (by simp)) ?_
  rintro (_ | out) w₂ ⟨hw₂, hres⟩
  · -- from the other slot, after another write has begun
    refine (safe_tryReadSlot ⟨hw₂.readout, Stage.Le.refl _⟩ (by simp)).mono ?_
    rintro res w₃ ⟨hw₃, hpost⟩ out rfl
    obtain ⟨i, hslot, histarted, histored, hx⟩ := hpost
    have hend := hw₃.readout.stage.stored_le
    have hone := hw₃.readout.stage.started_le
    refine ⟨i, ?_, by omega, hx⟩
    rw [slotOf_eq_iff] at hslot
    have hnext := hres hswitched
    have hpos := hx.1
    omega
  · -- from the slot that was active
    rintro _ ⟨⟩
    obtain ⟨i, hslot, histarted, histored, hx⟩ := hres
    have hend := hw₂.readout.stage.stored_le
    have hone := hw₂.readout.stage.started_le
    refine ⟨i, ?_, by omega, hx⟩
    rw [slotOf_eq_iff] at hslot
    omega

-- ---------------------------------------------------------------------------
-- The numbers come round
-- ---------------------------------------------------------------------------

/-- A number that has come round to zero looks like one of a slot that was never written. -/
theorem eval_tryReadSlot_zero {s : Segment} {slot : UInt64} (h : s.word (.seq slot) = 0) :
    (tryReadSlot size slot 3).eval s = (none, s) := by
  have hodd : ¬s.word (.seq slot) &&& 1 = 1 := by
    rw [h]
    decide
  unfold tryReadSlot
  rw [Prog.eval_bind, Prog.eval_load, if_neg hodd, if_pos h]
  rfl

/-- After 2^64 - 1 `Write`s the number of the active slot is zero. -/
theorem AtStage.eval_read_wrapped {s : Segment} {n : Nat} {written : List (List UInt8)}
    {x : List UInt8} (h : AtStage size s ⟨written, n + 1, n + 1, n + 1⟩)
    (hn : n + 1 = 2 ^ 64 - 1) (hx : IsWrite written n x) :
    ((read size).eval s).1 = some x := by
  have hzero : s.word (.seq (slotOf (n + 1))) = 0 := by
    have hseq : Stage.seqOf ⟨written, n + 1, n + 1, n + 1⟩ (n + 1) = 2 ^ 64 := by
      simp only [Stage.seqOf]
      omega
    rw [h.seq, hseq]
    rfl
  have hreadable : Readable (s.word (.seq (slotOf (n + 1 + 1)))) := by
    have hseq : Stage.seqOf ⟨written, n + 1, n + 1, n + 1⟩ (n + 1 + 1) = 2 ^ 64 - 2 := by
      simp only [Stage.seqOf]
      omega
    rw [h.seq, hseq]
    decide
  have hslot : slotOf (n + 1 + 1) = slotOf n := by
    rw [slotOf_eq_iff]
    omega
  have hdata := h.data n x hx (Nat.le_succ _) (Nat.lt_succ_self _)
  unfold read
  rw [Prog.eval_bind, Prog.eval_load, h.active, one_sub_slotOf, Prog.eval_bind,
    eval_tryReadSlot_zero hzero]
  show ((tryReadSlot size (slotOf (n + 1 + 1)) 3).eval s).1 = some x
  rw [eval_tryReadSlot hreadable, hslot, hdata]

end Zrtools.ShmCheckpoint

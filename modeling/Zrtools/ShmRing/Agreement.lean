import Zrtools.ShmRing.Headers
import Zrtools.ShmRing.Recovery

/-!
# zrtools — `ReadUnconfirmed` and `ConfirmBatch` (`zrt_shm_ring.h`)

A consumer reads a number of entries and confirms as many. `ReadUnconfirmed` passes over
entries whose checksum is wrong, and `ConfirmBatch` counts them.

* `Agree` — the next `ReadUnconfirmed` goes on behind the entries that were read;
* `NoneDamagedBefore` — no damaged entry lies before an entry that was read;
* `agree_iff` — exactly then the two agree.
-/

namespace Zrtools.ShmRing

open ByteMemory LittleEndian SharedMemory Wal

variable {cfg : Sizes}

/-- `ReadUnconfirmed(entries, n)` returns the first `n` valid entries; after `ConfirmBatch`
with their number the next one returns those behind them, as many as it is asked for. -/
def Agree (cfg : Sizes) (n : Nat) (s : Memory) (valid : List Copy) : Prop :=
  ∃ entries s', (readUnconfirmedCall cfg n).eval s = (some entries, s) ∧
    entries = valid.take n ∧
    (confirmBatchCall cfg entries.length).eval s = (some (), s') ∧
    ∀ n', (readUnconfirmedCall cfg n').eval s' =
      (some ((valid.drop entries.length).take n'), s')

/-- A damaged entry has `n` valid ones before it, or none behind it. -/
def NoneDamagedBefore (cfg : Sizes) (n : Nat) (m : Mem) (l : List UInt64) : Prop :=
  ∀ a pos b, l = a ++ pos :: b → ¬ SkipAt m (offsetOf cfg pos) →
    ¬ ValidAt m (offsetOf cfg pos) → n ≤ (copies cfg m a).length ∨ copies cfg m b = []

section Agreement

variable {s : Memory} {l : List UInt64} {e : UInt64}

theorem length_copies (m : Mem) (l : List UInt64) :
    (copies cfg m l).length = l.countP fun pos => GoodAt m (offsetOf cfg pos) := by
  rw [copies, List.length_map, List.countP_eq_length_filter]

/-- The same condition, as a count. -/
theorem noneDamagedBefore_iff {n : Nat} {m : Mem} :
    NoneDamagedBefore cfg n m l ↔
      ∀ a pos b, l = a ++ pos :: b → ¬ SkipAt m (offsetOf cfg pos) →
        ¬ GoodAt m (offsetOf cfg pos) →
        n ≤ a.countP (fun pos => GoodAt m (offsetOf cfg pos)) ∨
          b.countP (fun pos => GoodAt m (offsetOf cfg pos)) = 0 := by
  refine forall_congr' fun a => forall_congr' fun pos => forall_congr' fun b =>
    forall_congr' fun _ => forall_congr' fun hskip => ?_
  have hgood : GoodAt m (offsetOf cfg pos) ↔ ValidAt m (offsetOf cfg pos) :=
    and_iff_right hskip
  rw [hgood, ← length_copies, ← length_copies, List.length_eq_zero_iff]

/-- What the next call sees. -/
theorem copies_suffix {m : Mem} {rest : List UInt64} (h : rest <:+ l) :
    copies cfg m rest <:+ copies cfg m l := by
  obtain ⟨a, rfl⟩ := h
  refine ⟨copies cfg m a, ?_⟩
  rw [copies, copies, copies, List.filter_append, List.map_append]

/-- A part at the end is what is left behind as many items as it lacks. -/
theorem suffix_eq_drop_iff {α : Type} {a b : List α} (h : a <:+ b) {k : Nat} (hk : k ≤ b.length) :
    a = b.drop k ↔ a.length = b.length - k := by
  refine ⟨?_, ?_⟩
  · rintro rfl
    exact List.length_drop
  · intro hlength
    obtain ⟨front, rfl⟩ := h
    rw [List.length_append] at hk hlength
    have hfront : k = front.length := by omega
    rw [hfront, List.drop_left]

/-- `confirmed_pos` goes forward to one of the positions. -/
theorem scan_setConfirmed {pos : UInt64} {rest : List UInt64} (h : Scan cfg s pos l e)
    (hrest : rest <:+ l) :
    Scan cfg (s.setWord .confirmedPos (rest.headD e))
      ((s.setWord .confirmedPos (rest.headD e)).word .confirmedPos) rest e := by
  obtain ⟨a, rfl⟩ := hrest
  rw [Shared.word_setWord_self]
  exact h.drop

/-- They agree iff what is left to read is what is left of the valid entries. -/
theorem agree_iff_copies (h : Scan cfg s (s.word .confirmedPos) l e) (n : Nat) :
    Agree cfg n s (copies cfg (s.byte ()) l) ↔
      copies cfg (s.byte ()) (dropCounted (fun pos => ¬ SkipAt (s.byte ()) (offsetOf cfg pos))
          ((copies cfg (s.byte ()) l).take n).length l) =
        (copies cfg (s.byte ()) l).drop ((copies cfg (s.byte ()) l).take n).length := by
  set valid := copies cfg (s.byte ()) l with hvalid
  set k := (valid.take n).length with hk
  set rest := dropCounted (fun pos => ¬ SkipAt (s.byte ()) (offsetOf cfg pos)) k l with hrest
  have hsuffix : rest <:+ l := dropCounted_suffix k l
  have hscan := scan_setConfirmed h hsuffix
  have hnext : ∀ n', (readUnconfirmedCall cfg n').eval
      (s.setWord .confirmedPos (rest.headD e)) =
        (some ((copies cfg (s.byte ()) rest).take n'),
          s.setWord .confirmedPos (rest.headD e)) :=
    fun n' => eval_readUnconfirmedCall hscan n'
  refine ⟨?_, ?_⟩
  · rintro ⟨entries, s', -, rfl, hconfirm, hagree⟩
    rw [← hk, eval_confirmBatchCall h] at hconfirm
    obtain rfl := congrArg Prod.snd hconfirm
    have hall := hagree valid.length
    rw [hnext, ← hk] at hall
    have hsame := Option.some.inj (congrArg Prod.fst hall)
    rwa [List.take_of_length_le (copies_suffix hsuffix).length_le,
      List.take_of_length_le (by rw [List.length_drop]; omega)] at hsame
  · intro hsame
    refine ⟨valid.take n, _, eval_readUnconfirmedCall h n, rfl, eval_confirmBatchCall h k, ?_⟩
    intro n'
    rw [hnext, hsame]

/-- **They agree** iff no damaged entry lies before a valid one that was read. -/
theorem agree_iff (h : Scan cfg s (s.word .confirmedPos) l e) (n : Nat) :
    Agree cfg n s (copies cfg (s.byte ()) l) ↔ NoneDamagedBefore cfg n (s.byte ()) l := by
  have hlength : ((copies cfg (s.byte ()) l).take n).length =
      min n (l.countP fun pos => GoodAt (s.byte ()) (offsetOf cfg pos)) := by
    rw [List.length_take, length_copies]
  rw [agree_iff_copies h, suffix_eq_drop_iff (copies_suffix (dropCounted_suffix _ _))
    (List.length_take_le' ..), length_copies, length_copies, hlength,
    countP_dropCounted_iff (fun _ hgood => hgood.1), noneDamagedBefore_iff]

end Agreement

-- ---------------------------------------------------------------------------
-- A damaged entry in front of a valid one
-- ---------------------------------------------------------------------------

/-- A ring with two entries of 32 bytes. -/
@[irreducible] def twoEntries : Memory :=
  ((appendCall tightSizes 1 eightBytes).eval
    ((appendCall tightSizes 1 eightBytes).eval
      (Process.fresh tightSizes (fun _ => 0) 0).mapping.memory).2).2

/-- The first byte of the first payload was 8. -/
def firstDamaged : Memory := twoEntries.setByte () 24 0

theorem scan_firstDamaged :
    Scan tightSizes firstDamaged (firstDamaged.word .confirmedPos) [0, 32] 64 := by
  have hstart : firstDamaged.word .confirmedPos = 0 := by decide +kernel
  have hsecond : nextPos tightSizes (firstDamaged.byte ()) 0 = 32 := by decide +kernel
  have hend : nextPos tightSizes (firstDamaged.byte ()) 32 = 64 := by decide +kernel
  have hwrite : firstDamaged.word .writePos = 64 := by decide +kernel
  rw [hstart, Scan, Walk.cons_iff, hsecond, Walk.cons_iff, hend, Walk.nil_iff, hwrite]
  decide

theorem agree_iff_firstDamaged :
    Scan tightSizes firstDamaged (firstDamaged.word .confirmedPos) [0, 32] 64 ∧
      (Agree tightSizes 1 firstDamaged (copies tightSizes (firstDamaged.byte ()) [0, 32]) ↔
        NoneDamagedBefore tightSizes 1 (firstDamaged.byte ()) [0, 32]) :=
  ⟨scan_firstDamaged, agree_iff scan_firstDamaged 1⟩

/-- The damaged entry is confirmed in place of the one that was read, which comes again. -/
theorem not_agree_firstDamaged :
    Scan tightSizes firstDamaged (firstDamaged.word .confirmedPos) [0, 32] 64 ∧
      ¬ Agree tightSizes 1 firstDamaged (copies tightSizes (firstDamaged.byte ()) [0, 32]) := by
  refine ⟨scan_firstDamaged, ?_⟩
  rintro ⟨entries, s', -, rfl, hconfirm, hnext⟩
  have hagain := congrArg Prod.fst (hnext 1)
  obtain rfl := congrArg Prod.snd hconfirm
  revert hagain
  decide +kernel

end Zrtools.ShmRing

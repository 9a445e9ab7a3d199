import Zrtools.ShmRing.Record
import Zrtools.ShmRing.Statistics

/-!
# zrtools — the space that `Append` uses (`zrt_shm_ring.h`)

`Append` writes into the part of the buffer that is neither read any more nor confirmed, and
not behind the buffer. That is arithmetic on positions: it holds as long as `write_pos` stays
below `2^64`.

* `Between` — the positions are at most a lap apart;
* `within_appendWithin` — every access to a byte is inside the buffer;
* `Fills` — what one turn may change;
* `append_leavesUnconfirmed` — one nested call is enough, and what is unconfirmed stays as it
  is.
-/

namespace Zrtools.ShmRing

open ByteMemory LittleEndian SharedMemory Wal

variable {cfg : Sizes}

-- ---------------------------------------------------------------------------
-- Inside the buffer
-- ---------------------------------------------------------------------------

section Within

variable {off : Nat} {s : Memory}

theorem within_storeField {width : Nat} (value : Nat) (hroom : off + width ≤ cfg.bufferSize) :
    Prog.Stays (Prog.Within (bufferOnly cfg)) (Prog.storeBytes () off (encode width value)) s :=
  Prog.within_storeBytes (by rwa [length_encode])

theorem within_updateCrcAt {len : UInt16}
    (hlen : slice (s.byte ()) (off + 18) 2 = encode 2 len.toNat)
    (hroom : off + walEntryHeaderSize + len.toNat ≤ cfg.bufferSize) :
    Prog.Stays (Prog.Within (bufferOnly cfg)) (updateCrcAt off) s := by
  have hheader : walEntryHeaderSize = 24 := rfl
  have hload : (headerAt (s.byte ()) off).dataLen = len := by
    rw [headerAt_dataLen, hlen, decode_encode_of_lt len.toNat_lt, UInt16.ofNat_toNat]
  rw [updateCrcAt, Prog.stays_bind, within_loadDataLen, eval_loadDataLen]
  dsimp only
  rw [hload]
  refine ⟨by omega, ?_⟩
  split
  · exact within_storeField _ (by omega)
  · rw [Prog.stays_bind, Prog.within_loadBytes]
    exact ⟨Or.inr hroom, within_storeField _ (by omega)⟩

theorem within_writeSkip {remaining : Nat} (hroom : off + remaining ≤ cfg.bufferSize) :
    Prog.Stays (Prog.Within (bufferOnly cfg)) (writeSkip off remaining) s := by
  have hheader : walEntryHeaderSize = 24 := rfl
  unfold writeSkip
  split
  · simp only [Prog.stays_bind]
    exact ⟨within_storeField _ (by omega), within_storeField _ (by omega),
      within_storeField _ (by omega), within_storeField _ (by omega),
      within_storeField _ (by omega)⟩
  · exact Prog.stays_pure _ _

theorem within_storeFields (seq timestampNs : UInt64) (type : UInt16) {data : Source}
    (hroom : off + walEntryHeaderSize + data.len.toNat ≤ cfg.bufferSize) :
    Prog.Stays (Prog.Within (bufferOnly cfg)) (storeFields off seq timestampNs type data) s := by
  have hheader : walEntryHeaderSize = 24 := rfl
  unfold storeFields
  simp only [Prog.stays_bind]
  refine ⟨within_storeField _ (by omega), within_storeField _ (by omega),
    within_storeField _ (by omega), within_storeField _ (by omega), ?_⟩
  cases data with
  | null len => exact Prog.stays_pure _ _
  | bytes data =>
    refine Prog.within_storeBytes ?_
    rw [← data.len_toNat]
    exact hroom

theorem within_storeEntry (seq timestampNs : UInt64) (type : UInt16) {data : Source}
    (hroom : off + walEntryHeaderSize + data.len.toNat ≤ cfg.bufferSize) :
    Prog.Stays (Prog.Within (bufferOnly cfg)) (storeEntry off seq timestampNs type data) s := by
  rw [storeEntry, Prog.stays_bind, eval_storeFields]
  refine ⟨within_storeFields seq timestampNs type hroom, within_updateCrcAt ?_ hroom⟩
  rw [Shared.byte_setRegion_self]
  exact slice_dataLen_unchecked ..

end Within

-- ---------------------------------------------------------------------------
-- The call
-- ---------------------------------------------------------------------------

section Call

variable {type : UInt16} {data : Source} {s : FullMemory}

theorem within_increment (v : HeaderWord) (x : UInt64) :
    Prog.Stays (Prog.Within (bufferOnly cfg)) (increment v x) s := by
  rw [increment, Prog.within_load_bind]
  exact Prog.within_store _ _ _

/-- One turn. -/
theorem within_append (hpos : Accepts cfg (entrySize data.len) (atomics s) → 0 < cfg.bufferSize) :
    Prog.Stays (Prog.Within (bufferOnly cfg)) (Full.append cfg type data) s := by
  rw [Full.append]
  split
  · exact Prog.stays_pure _ _
  rename_i hsmall
  rw [Prog.within_load_bind, Prog.within_load_bind]
  dsimp only
  split
  · exact Prog.stays_pure _ _
  rename_i hroom
  have hmod := Nat.mod_lt (s.word (.atomic .writePos)).toNat
    (hpos ⟨Nat.le_of_not_lt hsmall, Nat.le_of_not_lt hroom⟩)
  have hle := le_entrySize data.len
  rw [Prog.within_fetchAdd_bind, Prog.within_load_bind]
  split
  · rw [Prog.stays_bind, Prog.within_rename atomic_injective]
    refine ⟨within_writeSkip (by omega), ?_⟩
    rw [Prog.stays_bind, Prog.stays_bind]
    exact ⟨Prog.within_store _ _ _, within_increment _ _, Prog.stays_pure _ _⟩
  · rw [Prog.stays_bind, Prog.within_rename atomic_injective]
    refine ⟨within_storeEntry _ _ _ (by omega), ?_⟩
    rw [Prog.stays_bind, Prog.stays_bind, Prog.stays_bind]
    exact ⟨Prog.within_store _ _ _, within_increment _ _, within_increment _ _,
      Prog.stays_pure _ _⟩

/-- **No access outside the buffer.** -/
theorem within_appendWithin
    (hpos : Accepts cfg (entrySize data.len) (atomics s) → 0 < cfg.bufferSize) (calls : Nat) :
    Prog.Stays (Prog.Within (bufferOnly cfg)) (Full.appendWithin cfg type data calls) s := by
  induction calls generalizing s with
  | zero =>
    rw [Full.appendWithin, Prog.stays_call]
    exact ⟨within_append hpos, fun _ _ _ => Prog.stays_pure _ _⟩
  | succ calls ih =>
    rw [Full.appendWithin, Prog.stays_call]
    refine ⟨within_append hpos, fun _ t hagain => ?_⟩
    by_cases haccepts : Accepts cfg (entrySize data.len) (atomics s)
    · by_cases hwraps : Wraps cfg (entrySize data.len) (atomics s)
      · rw [eval_append_wraps haccepts hwraps] at hagain
        cases hagain
        exact ih fun _ => hpos haccepts
      · rw [eval_append_puts haccepts hwraps] at hagain
        cases hagain
    · rw [eval_append_refused haccepts] at hagain
      cases hagain

end Call

-- ---------------------------------------------------------------------------
-- Positions at most a lap apart
-- ---------------------------------------------------------------------------

/-- What is used is not more than the buffer, and an entry can begin at `write_pos`. -/
structure Between (cfg : Sizes) (s : Memory) : Prop where
  confirmed_le : (s.word .confirmedPos).toNat ≤ (s.word .writePos).toNat
  lap : (s.word .writePos).toNat ≤ (s.word .confirmedPos).toNat + cfg.bufferSize
  aligned : 8 ∣ (s.word .writePos).toNat

/-- The bytes from `confirmed_pos` up to a position are as they were. -/
def Preserved (cfg : Sizes) (lo hi : Nat) (m m' : Mem) : Prop :=
  ∀ pos, lo ≤ pos → pos < hi → m' (pos % cfg.bufferSize) = m (pos % cfg.bufferSize)

section Between

variable {s : Memory} {size : Nat}

theorem Between.used (h : Between cfg s) :
    (s.word .writePos - s.word .confirmedPos).toNat =
      (s.word .writePos).toNat - (s.word .confirmedPos).toNat :=
  UInt64.toNat_sub_of_le _ _ (UInt64.le_iff_toNat_le.mpr h.confirmed_le)

/-- The test for a full buffer. -/
theorem Between.room (h : Between cfg s) (haccepts : Accepts cfg size s)
    (hsize : size ≤ 2 ^ 16 + walEntryHeaderSize) :
    (s.word .writePos).toNat + size ≤ (s.word .confirmedPos).toNat + cfg.bufferSize := by
  have hroom := haccepts.2
  have hle := h.confirmed_le
  have hlap := h.lap
  have hcfg := cfg.lt
  have hheader : walEntryHeaderSize = 24 := rfl
  rw [h.used] at hroom
  omega

/-- An entry that passes the tests has a buffer to go to. -/
theorem Between.pos (h : Between cfg s) (haccepts : Accepts cfg size s) (hpos : 0 < size)
    (hsize : size ≤ 2 ^ 16 + walEntryHeaderSize) : 0 < cfg.bufferSize := by
  have hroom := h.room haccepts hsize
  have hle := h.confirmed_le
  omega

/-- A store behind `write_pos` that stays inside the lap and the space. -/
theorem preserved_write {lo w off : Nat} {m : Mem} {l : List UInt8}
    (hoff : off = w % cfg.bufferSize) (hroom : off + l.length ≤ cfg.bufferSize)
    (hlap : w + l.length ≤ lo + cfg.bufferSize) :
    Preserved cfg lo w m (write m off l) := by
  intro pos hlo hhi
  apply write_of_not_mem
  by_cases hpos : 0 < cfg.bufferSize
  · have hmod := Nat.mod_lt pos hpos
    have hdisjoint : pos % cfg.bufferSize + 1 ≤ w % cfg.bufferSize ∨
        w % cfg.bufferSize + l.length ≤ pos % cfg.bufferSize :=
      mod_disjoint (by omega) (by omega) (by omega) (by omega)
    omega
  · omega

theorem Preserved.refl (cfg : Sizes) (lo hi : Nat) (m : Mem) : Preserved cfg lo hi m m :=
  fun _ _ _ => rfl

/-- First one turn, then the next one, which begins further behind. -/
theorem Preserved.trans {lo hi hi' : Nat} {m m' m'' : Mem} (h : Preserved cfg lo hi m m')
    (h' : Preserved cfg lo hi' m' m'') (hle : hi ≤ hi') : Preserved cfg lo hi m m'' :=
  fun pos hlo hhi => (h' pos hlo (Nat.lt_of_lt_of_le hhi hle)).trans (h pos hlo hhi)

/-- The rest of a lap of aligned entries. -/
theorem Between.eight_dvd_lapRest (h : Between cfg s) (haligned : 8 ∣ cfg.bufferSize) :
    8 ∣ lapRest cfg s :=
  Nat.dvd_sub haligned ((Nat.dvd_mod_iff haligned).mpr h.aligned)

end Between

-- ---------------------------------------------------------------------------
-- One turn of Append
-- ---------------------------------------------------------------------------

/-- One turn of `Append` takes `k` bytes and leaves the unconfirmed ones alone. -/
structure Fills (cfg : Sizes) (k : Nat) (s s' : FullMemory) : Prop where
  between : Between cfg (atomics s')
  writePos : (s'.word (.atomic .writePos)).toNat = (s.word (.atomic .writePos)).toNat + k
  confirmedPos : s'.word (.atomic .confirmedPos) = s.word (.atomic .confirmedPos)
  preserved : Preserved cfg (s.word (.atomic .confirmedPos)).toNat
    (s.word (.atomic .writePos)).toNat (s.byte ()) (s'.byte ())

section Turn

variable {data : Source} {s : FullMemory} (h : Between cfg (atomics s))
  (haccepts : Accepts cfg (entrySize data.len) (atomics s))

include h

/-- Whatever is stored in the free part. -/
theorem Between.fills {s' : FullMemory} {k : Nat} {l : List UInt8}
    (hwrite : (s'.word (.atomic .writePos)).toNat = (s.word (.atomic .writePos)).toNat + k)
    (hconfirmed : s'.word (.atomic .confirmedPos) = s.word (.atomic .confirmedPos))
    (hbyte : s'.byte () = write (s.byte ())
      ((s.word (.atomic .writePos)).toNat % cfg.bufferSize) l)
    (hdvd : 8 ∣ k) (hlength : l.length ≤ k)
    (hlap : (s.word (.atomic .writePos)).toNat + k ≤
      (s.word (.atomic .confirmedPos)).toNat + cfg.bufferSize)
    (hroom : (s.word (.atomic .writePos)).toNat % cfg.bufferSize + l.length ≤ cfg.bufferSize) :
    Fills cfg k s s' := by
  have hle : (s.word (.atomic .confirmedPos)).toNat ≤ (s.word (.atomic .writePos)).toNat :=
    h.confirmed_le
  have haligned : 8 ∣ (s.word (.atomic .writePos)).toNat := h.aligned
  refine ⟨⟨?_, ?_, ?_⟩, hwrite, hconfirmed, ?_⟩
  · show (s'.word (.atomic .confirmedPos)).toNat ≤ (s'.word (.atomic .writePos)).toNat
    rw [hwrite, hconfirmed]
    omega
  · show (s'.word (.atomic .writePos)).toNat ≤
      (s'.word (.atomic .confirmedPos)).toNat + cfg.bufferSize
    rw [hwrite, hconfirmed]
    omega
  · show 8 ∣ (s'.word (.atomic .writePos)).toNat
    rw [hwrite]
    exact Nat.dvd_add haligned hdvd
  · rw [hbyte]
    exact preserved_write rfl hroom (by omega)

include haccepts

/-- The rest of the lap is skipped. -/
theorem Between.endLap (haligned : 8 ∣ cfg.bufferSize)
    (hwraps : Wraps cfg (entrySize data.len) (atomics s))
    (hlt : (s.word (.atomic .writePos)).toNat + lapRest cfg (atomics s) < 2 ^ 64) :
    Fills cfg (lapRest cfg (atomics s)) s (endLap cfg s) := by
  have hroom : (s.word (.atomic .writePos)).toNat + entrySize data.len ≤
      (s.word (.atomic .confirmedPos)).toNat + cfg.bufferSize :=
    h.room haccepts (entrySize_le data.len)
  have hrest := hwraps.lapRest_lt (entrySize_pos data.len)
  have hlap : lapRest cfg (atomics s) =
      cfg.bufferSize - (s.word (.atomic .writePos)).toNat % cfg.bufferSize := rfl
  have hmod := Nat.mod_lt (s.word (.atomic .writePos)).toNat
    (h.pos haccepts (entrySize_pos data.len) (entrySize_le data.len))
  have hdvd := h.eight_dvd_lapRest haligned
  by_cases hskip : walEntryHeaderSize ≤ lapRest cfg (atomics s)
  · refine h.fills (toNat_add_ofNat hlt) rfl (if_pos hskip) hdvd ?_ (by omega) ?_
    · rwa [WalEntryHeader.length_toBytes]
    · rw [WalEntryHeader.length_toBytes]
      omega
  · refine h.fills (l := []) (toNat_add_ofNat hlt) rfl ?_ hdvd (Nat.zero_le _) (by omega) ?_
    · rw [write_nil]
      exact if_neg hskip
    · exact Nat.le_of_lt hmod

/-- The entry is put. -/
theorem Between.putEntry (type : UInt16) (hfits : ¬ Wraps cfg (entrySize data.len) (atomics s))
    (hlt : (s.word (.atomic .writePos)).toNat + entrySize data.len < 2 ^ 64) :
    Fills cfg (entrySize data.len) s (putEntry cfg type data s) := by
  have hroom : (s.word (.atomic .writePos)).toNat + entrySize data.len ≤
      (s.word (.atomic .confirmedPos)).toNat + cfg.bufferSize :=
    h.room haccepts (entrySize_le data.len)
  have hle := le_entrySize data.len
  have hinside : (s.word (.atomic .writePos)).toNat % cfg.bufferSize + entrySize data.len ≤
      cfg.bufferSize := Nat.le_of_not_lt hfits
  refine h.fills (toNat_add_ofNat hlt) rfl rfl (eight_dvd_entrySize _) ?_ hroom ?_
  · rwa [length_entryBytes]
  · rw [length_entryBytes]
    omega

end Turn

-- ---------------------------------------------------------------------------
-- The whole call
-- ---------------------------------------------------------------------------

section Whole

variable {type : UInt16} {data : Source} {s : FullMemory}

/-- The next lap begins at the front of the buffer, where an entry that passes the tests fits. -/
theorem Fills.not_wraps {size : Nat} (h : Between cfg (atomics s))
    (hfills : Fills cfg (lapRest cfg (atomics s)) s (endLap cfg s)) (hpos : 0 < size)
    (hsize : size ≤ 2 ^ 16 + walEntryHeaderSize)
    (haccepts : Accepts cfg size (atomics (endLap cfg s))) :
    FitsBehind cfg size (atomics s) ∧ ¬ Wraps cfg size (atomics (endLap cfg s)) := by
  have hle : (s.word (.atomic .confirmedPos)).toNat ≤ (s.word (.atomic .writePos)).toNat :=
    h.confirmed_le
  have hlap : lapRest cfg (atomics s) =
      cfg.bufferSize - (s.word (.atomic .writePos)).toNat % cfg.bufferSize := rfl
  have hmod := Nat.mod_lt (s.word (.atomic .writePos)).toNat
    (hfills.between.pos haccepts hpos hsize)
  have hroom : ((endLap cfg s).word (.atomic .writePos)).toNat + size ≤
      ((endLap cfg s).word (.atomic .confirmedPos)).toNat + cfg.bufferSize :=
    hfills.between.room haccepts hsize
  rw [hfills.writePos, hfills.confirmedPos] at hroom
  refine ⟨?_, ?_⟩
  · have hused : ((atomics s).word .writePos - (atomics s).word .confirmedPos).toNat =
        (s.word (.atomic .writePos)).toNat - (s.word (.atomic .confirmedPos)).toNat := h.used
    rw [FitsBehind, hused]
    omega
  · have hfront : ((endLap cfg s).word (.atomic .writePos)).toNat % cfg.bufferSize = 0 := by
      have hdiv := Nat.div_add_mod (s.word (.atomic .writePos)).toNat cfg.bufferSize
      have hmul : (s.word (.atomic .writePos)).toNat + lapRest cfg (atomics s) =
          cfg.bufferSize * ((s.word (.atomic .writePos)).toNat / cfg.bufferSize + 1) := by
        rw [Nat.mul_add, Nat.mul_one]
        omega
      rw [hfills.writePos, hmul, Nat.mul_mod_right]
    show ¬ cfg.bufferSize < ((endLap cfg s).word (.atomic .writePos)).toNat % cfg.bufferSize + size
    omega

/-- What a call leaves behind that called itself at most once. -/
structure Done (cfg : Sizes) (type : UInt16) (data : Source) (s : FullMemory) (seq : UInt64)
    (s' : FullMemory) : Prop where
  once : ∀ calls, (Full.appendWithin cfg type data (calls + 1)).eval s = (some seq, s')
  between : Between cfg (atomics s')
  preserved : Preserved cfg (s.word (.atomic .confirmedPos)).toNat
    (s.word (.atomic .writePos)).toNat (s.byte ()) (s'.byte ())

/-- **One nested call is enough**, and the unconfirmed bytes stay as they are. -/
theorem exists_done (type : UInt16) (haligned : 8 ∣ cfg.bufferSize) (h : Between cfg (atomics s))
    (hlt : (s.word (.atomic .writePos)).toNat + takes cfg (entrySize data.len) (atomics s) <
      2 ^ 64) :
    ∃ seq s', Done cfg type data s seq s' := by
  have hpos := entrySize_pos data.len
  have hsize := entrySize_le data.len
  by_cases haccepts : Accepts cfg (entrySize data.len) (atomics s)
  · have hstride := stride_le_takes haccepts
    by_cases hwraps : Wraps cfg (entrySize data.len) (atomics s)
    · rw [stride, if_pos hwraps] at hstride
      have hfills := h.endLap haccepts haligned hwraps (by omega)
      by_cases haccepts' : Accepts cfg (entrySize data.len) (atomics (endLap cfg s))
      · -- the entry goes to the front of the buffer
        obtain ⟨hbehind, hfits⟩ := hfills.not_wraps h hpos hsize haccepts'
        rw [takes, if_pos haccepts, if_pos ⟨hwraps, hbehind⟩] at hlt
        have hput := hfills.between.putEntry haccepts' type hfits (by
          rw [hfills.writePos]
          omega)
        refine ⟨(endLap cfg s).word (.atomic .nextSeq), _, fun calls => ?_, hput.between, ?_⟩
        · rw [eval_appendWithin_wraps haccepts hwraps,
            eval_appendWithin_puts haccepts' hfits]
        · have hrest := hput.preserved
          rw [hfills.confirmedPos, hfills.writePos] at hrest
          exact hfills.preserved.trans hrest (Nat.le_add_right _ _)
      · -- there is no room for it
        refine ⟨0, _, fun calls => ?_, hfills.between, hfills.preserved⟩
        rw [eval_appendWithin_wraps haccepts hwraps, eval_appendWithin_refused haccepts']
    · rw [stride, if_neg hwraps] at hstride
      have hput := h.putEntry haccepts type hwraps (by omega)
      exact ⟨_, _, fun calls => eval_appendWithin_puts haccepts hwraps _, hput.between,
        hput.preserved⟩
  · exact ⟨_, _, fun calls => eval_appendWithin_refused haccepts _, h,
      Preserved.refl cfg _ _ _⟩

/-- `Append` returns, with at most one nested call; the positions are as far apart as before,
and the unconfirmed bytes are the same. -/
def LeavesUnconfirmed (cfg : Sizes) (type : UInt16) (data : Source) (s : FullMemory) : Prop :=
  ∃ seq s', (Full.appendCall cfg type data).eval s = (some seq, s') ∧
    (Full.appendWithin cfg type data 1).eval s = (some seq, s') ∧
    Between cfg (atomics s') ∧
    Preserved cfg (s.word (.atomic .confirmedPos)).toNat
      (s.word (.atomic .writePos)).toNat (s.byte ()) (s'.byte ())

/-- **`Append` never overwrites what is unconfirmed** as long as no position passes `2^64`,
and never touches what is outside the buffer. -/
theorem append_leavesUnconfirmed (type : UInt16) (data : Source)
    (haligned : 8 ∣ cfg.bufferSize) (h : Between cfg (atomics s)) :
    Prog.Stays (Prog.Within (bufferOnly cfg)) (Full.appendCall cfg type data) s ∧
      ((s.word (.atomic .writePos)).toNat + takes cfg (entrySize data.len) (atomics s) < 2 ^ 64 →
        LeavesUnconfirmed cfg type data s) := by
  refine ⟨within_appendWithin (fun haccepts =>
    h.pos haccepts (entrySize_pos _) (entrySize_le _)) maxTurns, fun hlt => ?_⟩
  obtain ⟨seq, s', hdone⟩ := exists_done type haligned h hlt
  obtain ⟨n, hturns⟩ : ∃ n, maxTurns = n + 1 := ⟨2 ^ 64 - 1, rfl⟩
  refine ⟨seq, s', ?_, hdone.once 0, hdone.between, hdone.preserved⟩
  rw [Full.appendCall, hturns]
  exact hdone.once n

end Whole

-- ---------------------------------------------------------------------------
-- The last position
-- ---------------------------------------------------------------------------

theorem lineSizes_lt : 64 < 2 ^ 63 := by omega

/-- A buffer for two entries without payload. -/
def lineSizes : Sizes := ⟨64, 24, lineSizes_lt⟩

/-- Nothing is unconfirmed, and both positions are there. -/
def emptyAt (pos : UInt64) : FullMemory where
  word := fun v => if v = .atomic .writePos ∨ v = .atomic .confirmedPos then pos else 1
  byte := fun _ _ => 0

theorem between_emptyAt {n : UInt64} (h : 8 ∣ n.toNat) : Between cfg (atomics (emptyAt n)) :=
  ⟨Nat.le_refl _, Nat.le_add_right _ _, h⟩

theorem append_leavesUnconfirmed_lineSizes :
    (8 ∣ lineSizes.bufferSize ∧ Between lineSizes (atomics (emptyAt 56))) ∧
      Prog.Stays (Prog.Within (bufferOnly lineSizes))
        (Full.appendCall lineSizes 1 (.null 0)) (emptyAt 56) ∧
      LeavesUnconfirmed lineSizes 1 (.null 0) (emptyAt 56) := by
  have haligned : 8 ∣ lineSizes.bufferSize := by decide
  have hbetween : Between lineSizes (atomics (emptyAt 56)) := between_emptyAt (by decide)
  obtain ⟨hwithin, hleaves⟩ :=
    append_leavesUnconfirmed 1 (.null 0) haligned hbetween
  exact ⟨⟨haligned, hbetween⟩, hwithin, hleaves (by decide)⟩

/-- Eight bytes before position `2^64` the lap ends and `write_pos` starts again at 0. -/
theorem not_leavesUnconfirmed_of_overflow :
    ¬ ∀ (cfg : Sizes) (type : UInt16) (data : Source) (s : FullMemory),
      8 ∣ cfg.bufferSize → Between cfg (atomics s) →
        Prog.Stays (Prog.Within (bufferOnly cfg)) (Full.appendCall cfg type data) s ∧
          LeavesUnconfirmed cfg type data s := by
  intro h
  obtain ⟨-, seq, s', hend, -, hbetween, -⟩ :=
    h lineSizes 1 (.null 0) (emptyAt (0 - 8)) (by decide) (between_emptyAt (by decide))
  have hle := hbetween.confirmed_le
  obtain rfl := congrArg Prod.snd hend
  revert hle
  decide +kernel

end Zrtools.ShmRing

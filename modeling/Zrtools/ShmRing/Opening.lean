import Zrtools.ShmRing.ReadOrder

/-!
# zrtools — a ring whose creator stopped

`Reset` writes the header field by field, the magic number first, and the next process that
opens the segment looks at the magic number only.

* `BehavesFresh` — what is expected of a ring that was just opened;
* `Blank.behavesFresh` — a complete header is enough for it;
* `behavesFresh_iff` — for every store behind which the creator may stop, whether it is so.
-/

namespace Zrtools.ShmRing

open ByteMemory SharedMemory Wal

variable {cfg : Sizes}

-- ---------------------------------------------------------------------------
-- A fresh ring
-- ---------------------------------------------------------------------------

/-- What a call of `Append` is given. -/
structure Request where
  type : UInt16
  data : Payload
  now : UInt64

def Request.call (r : Request) : Call := .append r.type r.data r.now

/-- The entry fits into an empty ring. -/
def Fits (cfg : Sizes) (data : Payload) : Prop :=
  entrySize data.len ≤ cfg.maxEntrySize ∧ entrySize data.len ≤ cfg.bufferSize

/-- `ReadUnconfirmed` and `ReadNext` return all entries that were accepted. -/
structure ReturnsAll (cfg : Sizes) (p : Process) : Prop where
  listed : ∀ maxCount, (accepted p.log).length ≤ maxCount →
    p.call cfg (.readUnconfirmed maxCount) = some (p.after p.mapping.memory
      [.listed maxCount ((accepted p.log).map Entry.copy)])
  read : ∀ maxLen, ∃ p', Schedule.run (Process.call cfg) p
      (List.replicate ((accepted p.log).length + 1) (.readNext maxLen)) = some p' ∧
    p'.log = p.log ++
      (accepted p.log).map (fun e => .read maxLen (e.header, e.data.bytes.take maxLen)) ++
      [.nothing]

/-- The first `Append` that fits returns a number other than zero, and all entries that are
accepted are returned. Types are not zero: that one is reserved for skip records. -/
structure BehavesFresh (cfg : Sizes) (m : Mapping) : Prop where
  first : ∀ (front : List Request) (r : Request), (∀ x ∈ front, ¬ Fits cfg x.data) →
    Fits cfg r.data → ∃ p seq, Schedule.run (Process.call cfg) ⟨m, []⟩
        ((front ++ [r]).map Request.call) = some p ∧
      seq ≠ 0 ∧ p.log = [.appended ⟨seq, r.now, r.type, r.data⟩]
  returned : ∀ requests : List Request, (∀ x ∈ requests, x.type ≠ 0) →
    ∃ p, Schedule.run (Process.call cfg) ⟨m, []⟩ (requests.map Request.call) = some p ∧
      ReturnsAll cfg p

-- ---------------------------------------------------------------------------
-- Reading everything
-- ---------------------------------------------------------------------------

section ReadAll

variable {p : Process} {confirmed live past unread : List Segment}

/-- `ReadNext`, until it finds nothing. -/
theorem Following.readAll (h : Following cfg p confirmed live past unread) (maxLen : Nat) :
    ∃ p', Schedule.run (Process.call cfg) p
        (List.replicate ((entriesOf unread).length + 1) (.readNext maxLen)) = some p' ∧
      p'.log = p.log ++
        (entriesOf unread).map (fun e => .read maxLen (e.header, e.data.bytes.take maxLen)) ++
        [.nothing] := by
  generalize hn : (entriesOf unread).length = n
  induction n generalizing p past unread with
  | zero =>
    rw [List.length_eq_zero_iff] at hn
    obtain ⟨passed, rest, pos, r, rfl, hcall, hgot, -⟩ := h.readNext maxLen
    rcases hgot with ⟨rfl, -, -⟩ | ⟨e, -, hone⟩
    · refine ⟨_, by rw [List.replicate_one, Schedule.run, hcall]; rfl, ?_⟩
      rw [hn, List.map_nil, List.append_nil]
      rfl
    · rw [entriesOf_append, hone] at hn
      cases hn
  | succ n ih =>
    obtain ⟨passed, rest, pos, r, rfl, hcall, hgot, hnext⟩ := h.readNext maxLen
    rcases hgot with ⟨-, rfl, hnone⟩ | ⟨e, rfl, hone⟩
    · rw [List.append_nil, hnone] at hn
      cases hn
    · rw [entriesOf_append, hone, List.singleton_append, List.length_cons, Nat.succ_inj] at hn
      obtain ⟨p', hrun, hlog⟩ := ih hnext hn
      refine ⟨p', ?_, ?_⟩
      · rw [List.replicate_succ, Schedule.run, hcall, Option.bind_some, hrun]
      · rw [hlog, entriesOf_append, hone]
        simp [Process.after, readRecord]

/-- Nothing is confirmed, and nothing is read. -/
theorem Following.returnsAll (h : Following cfg p [] live [] live) : ReturnsAll cfg p := by
  have haccepted : accepted p.log = entriesOf live := by
    rw [h.ledger.accepted, List.nil_append]
  constructor
  case listed =>
    intro maxCount hmax
    have hcall := (h.ledger.readUnconfirmed maxCount).1
    rw [haccepted] at hmax ⊢
    rw [h.ledger.unconfirmed, List.take_of_length_le hmax] at hcall
    exact hcall
  case read =>
    intro maxLen
    rw [haccepted]
    exact h.readAll maxLen

/-- Nothing was ever accepted. -/
theorem returnsAll_of_zero (hwrite : p.mapping.memory.word .writePos = 0)
    (hnone : accepted p.log = []) : ReturnsAll cfg p := by
  have hle : ∀ x : UInt64, p.mapping.memory.word .writePos ≤ x := by
    intro x
    rw [hwrite, UInt64.le_iff_toNat_le]
    exact Nat.zero_le _
  constructor
  case listed =>
    intro maxCount hmax
    rw [hnone]
    exact call_readUnconfirmed_of_le (hle _) maxCount
  case read =>
    intro maxLen
    refine ⟨p.after p.mapping.memory [.nothing], ?_, ?_⟩
    · rw [hnone, List.length_nil, Nat.zero_add, List.replicate_one, Schedule.run,
        call_readNext_of_le (hle _) maxLen]
      rfl
    · rw [hnone, List.map_nil, List.append_nil]
      rfl

end ReadAll

-- ---------------------------------------------------------------------------
-- Append, before anything is confirmed
-- ---------------------------------------------------------------------------

section Append

variable {p : Process} {live : List Segment} {size : Nat}

/-- All entries of the first lap follow each other. -/
theorem Following.not_wraps (h : Following cfg p [] live [] live)
    (hsize : size ≤ 2 ^ 16 + walEntryHeaderSize) (haccepts : Accepts cfg size p.mapping.memory) :
    ¬ Wraps cfg size p.mapping.memory ∧
      (p.mapping.memory.word .writePos).toNat + size ≤ cfg.bufferSize := by
  have hroom := h.ledger.laid.room haccepts hsize
  have hwrite := h.ledger.laid.writePos
  have hle := Nat.mod_le (p.mapping.memory.word .writePos).toNat cfg.bufferSize
  rw [total_nil, Nat.zero_add] at hwrite
  unfold Wraps
  omega

theorem Following.readOk (h : Following cfg p [] live [] live)
    (hsize : size ≤ 2 ^ 16 + walEntryHeaderSize) :
    ReadOk cfg size p.mapping.memory ∧
      (p.mapping.memory.word .writePos).toNat + takes cfg size p.mapping.memory < 2 ^ 64 := by
  have hread := h.readPos
  have hcfg := cfg.lt
  have hspace := h.ledger.laid.space
  have hwrite := h.ledger.laid.writePos
  rw [total_nil] at hread
  rw [total_nil, Nat.zero_add] at hwrite
  unfold ReadOk StaysBehind
  by_cases haccepts : Accepts cfg size p.mapping.memory
  · obtain ⟨hnot, hroom⟩ := h.not_wraps hsize haccepts
    rw [takes, if_pos haccepts, if_neg fun h => hnot h.1, stride, if_neg hnot]
    exact ⟨⟨fun _ hwraps => absurd hwraps hnot, by omega⟩, by omega⟩
  · rw [takes, if_neg haccepts]
    exact ⟨⟨fun hyes => absurd hyes haccepts, by omega⟩, by omega⟩

theorem Following.appendAll {requests : List Request} (h : Following cfg p [] live [] live)
    (htype : ∀ x ∈ requests, x.type ≠ 0) :
    ∃ p' live', Schedule.run (Process.call cfg) p (requests.map Request.call) = some p' ∧
      Following cfg p' [] live' [] live' := by
  induction requests generalizing p live with
  | nil => exact ⟨p, live, rfl, h⟩
  | cons x requests ih =>
    obtain ⟨hok, hbelow⟩ := h.readOk (entrySize_le x.data.len)
    obtain ⟨p₁, segs, hcall, hnext⟩ :=
      h.append x.now (htype x (List.mem_cons_self ..)) hok hbelow
    obtain ⟨p', live', hrun, hlast⟩ := ih hnext fun y hy => htype y (List.mem_cons_of_mem _ hy)
    refine ⟨p', live', ?_, hlast⟩
    rw [List.map_cons, Schedule.run, Request.call, hcall, Option.bind_some, hrun]

end Append

-- ---------------------------------------------------------------------------
-- Append, before anything is accepted
-- ---------------------------------------------------------------------------

/-- Nothing was accepted yet, and `next_seq` is this. -/
structure Untouched (p : Process) (nextSeq : UInt64) : Prop where
  writePos : p.mapping.memory.word .writePos = 0
  confirmedPos : p.mapping.memory.word .confirmedPos = 0
  nextSeq : p.mapping.memory.word .nextSeq = nextSeq
  log : p.log = []

section Untouched

variable {p : Process} {nextSeq : UInt64} {r : Request}

theorem Untouched.accepts_iff (h : Untouched p nextSeq) {size : Nat}
    (hsize : size ≤ 2 ^ 16 + walEntryHeaderSize) :
    Accepts cfg size p.mapping.memory ↔ size ≤ cfg.maxEntrySize ∧ size ≤ cfg.bufferSize := by
  have hheader : walEntryHeaderSize = 24 := rfl
  have hzero : ((0 : UInt64) - 0).toNat = 0 := rfl
  rw [Accepts, h.writePos, h.confirmedPos, hzero, Nat.zero_add,
    Nat.mod_eq_of_lt (by omega : size < 2 ^ 64)]

theorem Untouched.not_wraps (h : Untouched p nextSeq) {size : Nat} (hfits : size ≤ cfg.bufferSize) :
    ¬ Wraps cfg size p.mapping.memory := by
  have hzero : (0 : UInt64).toNat = 0 := rfl
  rw [Wraps, h.writePos, hzero, Nat.zero_mod]
  omega

theorem Untouched.append (cfg : Sizes) (h : Untouched p nextSeq) :
    ∃ seq memory, p.call cfg r.call =
        some (p.after memory (appendedRecord seq r.now r.type r.data)) ∧
      Appends cfg r.type r.data (p.atClock r.now) seq memory := by
  have hsize := entrySize_le r.data.len
  refine call_append r.type r.now ?_ fun haccepts hwraps => ?_
  · rw [h.writePos, h.confirmedPos]
    exact Nat.zero_le _
  · exact absurd hwraps (h.not_wraps ((h.accepts_iff hsize).mp haccepts).2)

/-- An entry that does not fit is refused. -/
theorem Untouched.refused (h : Untouched p nextSeq) (hnot : ¬ Fits cfg r.data) :
    ∃ p', p.call cfg r.call = some p' ∧ Untouched p' nextSeq := by
  obtain ⟨seq, memory, hcall, happends⟩ := h.append cfg (r := r)
  have hrefuses : ¬ Accepts cfg (entrySize r.data.len) (p.atClock r.now) :=
    fun haccepts => hnot ((h.accepts_iff (entrySize_le _)).mp haccepts)
  refine ⟨_, hcall, ?_⟩
  cases happends with
  | refused _ => exact ⟨h.writePos, h.confirmedPos, h.nextSeq, by
      rw [Process.after, h.log]
      rfl⟩
  | put haccepts => exact absurd haccepts hrefuses
  | wrapped haccepts => exact absurd haccepts hrefuses

theorem Untouched.allRefused {requests : List Request} (h : Untouched p nextSeq)
    (hnot : ∀ x ∈ requests, ¬ Fits cfg x.data) :
    ∃ p', Schedule.run (Process.call cfg) p (requests.map Request.call) = some p' ∧
      Untouched p' nextSeq := by
  induction requests generalizing p with
  | nil => exact ⟨p, rfl, h⟩
  | cons x requests ih =>
    obtain ⟨p₁, hcall, hnext⟩ := h.refused (hnot x (List.mem_cons_self ..))
    obtain ⟨p', hrun, hlast⟩ := ih hnext fun y hy => hnot y (List.mem_cons_of_mem _ hy)
    refine ⟨p', ?_, hlast⟩
    rw [List.map_cons, Schedule.run, hcall, Option.bind_some, hrun]

/-- The first entry that fits gets `next_seq`. -/
theorem Untouched.put (h : Untouched p nextSeq) (hfits : Fits cfg r.data) :
    ∃ p', p.call cfg r.call = some p' ∧
      p'.log = appendedRecord nextSeq r.now r.type r.data := by
  obtain ⟨seq, memory, hcall, happends⟩ := h.append cfg (r := r)
  refine ⟨_, hcall, ?_⟩
  cases happends with
  | refused hnot => exact absurd ((h.accepts_iff (entrySize_le _)).mpr hfits) hnot
  | wrapped _ hwraps => exact absurd hwraps (h.not_wraps hfits.2)
  | put haccepts _ hlays =>
    have hseq : (p.atClock r.now).word .nextSeq = nextSeq := h.nextSeq
    rw [Process.after, h.log, hseq, List.nil_append]

end Untouched

-- ---------------------------------------------------------------------------
-- The header that the next process finds
-- ---------------------------------------------------------------------------

theorem Blank.untouched {m : Mapping} (h : Blank m) : Untouched ⟨m, []⟩ 1 :=
  ⟨h.writePos, h.confirmedPos, h.nextSeq, rfl⟩

/-- **A complete header is enough.** -/
theorem Blank.behavesFresh {m : Mapping} (h : Blank m) : BehavesFresh cfg m := by
  constructor
  case first =>
    intro front r hnot hfits
    obtain ⟨p, hrun, huntouched⟩ := h.untouched.allRefused hnot
    obtain ⟨p', hcall, hlog⟩ := huntouched.put hfits
    refine ⟨p', 1, ?_, by decide, hlog⟩
    rw [List.map_append, Schedule.run_append _ hrun, List.map_singleton, Schedule.run, hcall]
    rfl
  case returned =>
    intro requests htype
    obtain ⟨p', live', hrun, hlast⟩ := h.following.appendAll htype
    exact ⟨p', hrun, hlast.returnsAll⟩

/-- Where `next_seq` is still zero, it takes a payload that does not fit to hide it. -/
theorem behavesFresh_iff_of_zero {m : Mapping} (h : Untouched ⟨m, []⟩ 0) :
    BehavesFresh cfg m ↔ ¬ Fits cfg .empty := by
  refine ⟨?_, ?_⟩
  · intro hfresh hfits
    obtain ⟨p, seq, hrun, -, hlog⟩ := hfresh.first [] ⟨1, .empty, 0⟩ (by simp) hfits
    obtain ⟨p', hcall, hnone⟩ := h.put (r := ⟨1, .empty, 0⟩) hfits
    rw [List.nil_append, List.map_singleton, Schedule.run, hcall] at hrun
    obtain rfl := Option.some.inj hrun
    rw [hlog] at hnone
    cases hnone
  · intro hnot
    have hnone : ∀ data : Payload, ¬ Fits cfg data := by
      intro data hfits
      have hempty : entrySize Payload.empty.len = 24 := rfl
      have hle := le_entrySize data.len
      have hheader : walEntryHeaderSize = 24 := rfl
      unfold Fits at hnot hfits
      omega
    constructor
    case first => exact fun front r _ hfits => absurd hfits (hnone _)
    case returned =>
      intro requests _
      obtain ⟨p, hrun, huntouched⟩ := h.allRefused fun x _ => hnone x.data
      exact ⟨p, hrun, returnsAll_of_zero huntouched.writePos (by rw [huntouched.log]; rfl)⟩

/-- Between the first store and the seventh, the magic number is there and `next_seq` is
zero. -/
theorem untouched_resetUpTo (cfg : Sizes) (beyond : Mem) (now : UInt64) {n : Nat} (hlo : 0 < n)
    (hhi : n < 7) :
    (((Mapping.zeroFilled cfg beyond now).resetUpTo cfg n).openSegment cfg) =
        (Mapping.zeroFilled cfg beyond now).resetUpTo cfg n ∧
      Untouched ⟨(Mapping.zeroFilled cfg beyond now).resetUpTo cfg n, []⟩ 0 := by
  have hcases : n = 1 ∨ n = 2 ∨ n = 3 ∨ n = 4 ∨ n = 5 ∨ n = 6 := by omega
  rcases hcases with rfl | rfl | rfl | rfl | rfl | rfl <;>
    exact ⟨rfl, rfl, rfl, rfl, rfl⟩

/-- **Opening after a stop.** The ring that the next process finds behaves as a fresh one iff
the creator had made no store, or those up to `next_seq`, or no entry fits at all. -/
theorem behavesFresh_iff (cfg : Sizes) (beyond : Mem) (now : UInt64) (n : Nat) :
    BehavesFresh cfg (((Mapping.zeroFilled cfg beyond now).resetUpTo cfg n).openSegment cfg) ↔
      n = 0 ∨ 7 ≤ n ∨ ¬ Fits cfg .empty := by
  rcases Nat.eq_zero_or_pos n with rfl | hlo
  · -- the next process starts again
    have hopen : ((Mapping.zeroFilled cfg beyond now).resetUpTo cfg 0).openSegment cfg =
        (Mapping.zeroFilled cfg beyond now).reset cfg := rfl
    rw [hopen]
    exact ⟨fun _ => Or.inl rfl, fun _ => (blank_reset ..).behavesFresh⟩
  · by_cases hhi : n < 7
    · obtain ⟨hopen, huntouched⟩ := untouched_resetUpTo cfg beyond now hlo hhi
      rw [hopen, behavesFresh_iff_of_zero huntouched]
      exact ⟨fun hnot => Or.inr (Or.inr hnot), fun h => (h.resolve_left (by omega)).resolve_left
        (by omega)⟩
    · have hblank := blank_resetUpTo cfg (.zeroFilled cfg beyond now) (Nat.le_of_not_lt hhi)
      rw [Mapping.openSegment, if_pos hblank.magic]
      exact ⟨fun _ => Or.inr (Or.inl (Nat.le_of_not_lt hhi)), fun _ => hblank.behavesFresh⟩

/-- The creator stopped behind its first store. -/
theorem not_behavesFresh_onlyMagic :
    ¬ BehavesFresh tightSizes (((Mapping.zeroFilled tightSizes (fun _ => 0) 0).resetUpTo
      tightSizes 1).openSegment tightSizes) := by
  obtain ⟨hopen, huntouched⟩ :=
    untouched_resetUpTo tightSizes (fun _ => 0) 0 Nat.one_pos (by omega)
  rw [hopen, behavesFresh_iff_of_zero huntouched]
  exact fun hnot => hnot ⟨by decide, by decide⟩

end Zrtools.ShmRing

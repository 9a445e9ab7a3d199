import Zrtools.ShmRing.Fields

/-!
# zrtools — the consumer's side of the ring

`ReadNext` and `Confirm` keep the ring in order while the producer appends: both only
look at segments that lie in the buffer and that the producer leaves alone until they
are confirmed.

* `safe_readNext` — `ReadNext` gives the next entry on the tape, and false only if
  there is none;
* `safe_confirm`, `safe_confirmAt` — `Confirm` of a number that was read gives back
  space up to that entry.
-/

namespace Zrtools.ShmRing

open ByteMemory LittleEndian SharedMemory Wal

variable {cfg : Config} {before : List (UInt64 × UInt16 × List UInt8)}

/-- The bargain of `ReadNext` and `Confirm`: until the last access of a call the entries
that `ReadNext` has gone past are `before`. -/
def consumerContract (cfg : Config) (before : List (UInt64 × UInt16 × List UInt8)) :
    Contract Var Unit Tape where
  rely w w' := RingInv cfg w' ∧ ConsumerRely w w'
  ok _ _ := True
  guar w w' := RingInv cfg w' ∧ ProducerRely w w'
  during w := triples w.2.past = before

/-- Between two calls of the consumer. -/
structure Watching (cfg : Config) (before : List (UInt64 × UInt16 × List UInt8)) (w : World) :
    Prop where
  inv : RingInv cfg w
  entries : triples w.2.past = before

theorem Watching.rely {w w' : World} (h : Watching cfg before w) (hinv : RingInv cfg w')
    (hrely : ConsumerRely w w') : Watching cfg before w' where
  inv := hinv
  entries := by
    rw [hrely.past]
    exact h.entries

theorem ConsumerRely.live {w w' : World} (h : ConsumerRely w w') : w.2.live <+: w'.2.live := by
  unfold Tape.live
  rw [h.read]
  exact (List.prefix_append_right_inj _).mpr h.unread

/-- The tape does not get shorter. -/
theorem ConsumerRely.total_le {w w' : World} (h : ConsumerRely w w') :
    total w.2.all ≤ total w'.2.all := by
  obtain ⟨more, hmore⟩ := h.live
  have hold : total w.2.all = total w.2.confirmed + total w.2.live := total_append ..
  have hnew : total w'.2.all = total w'.2.confirmed + total w'.2.live := total_append ..
  rw [← hmore, h.confirmed, total_append] at hnew
  omega

-- ---------------------------------------------------------------------------
-- Looking at a segment
-- ---------------------------------------------------------------------------

/-- The consumer knows what is confirmed and what is read. -/
structure Holding (cfg : Config) (confirmed read : List Segment) (w : World) : Prop where
  inv : RingInv cfg w
  confirmed_eq : w.2.confirmed = confirmed
  read_eq : w.2.read = read

/-- The consumer looks at `seg`, with `skipped` between it and what is confirmed. -/
structure Facing (cfg : Config) (confirmed read skipped : List Segment) (seg : Segment)
    (w : World) : Prop where
  holding : Holding cfg confirmed read w
  live : skipped ++ [seg] <+: w.2.live

section Facing

variable {confirmed read skipped : List Segment} {seg : Segment}

theorem Holding.entries {w : World} (h : Holding cfg confirmed read w) :
    w.2.past = confirmed ++ read := by
  rw [Tape.past, h.confirmed_eq, h.read_eq]

theorem Holding.keeps (hbefore : triples (confirmed ++ read) = before) :
    Keeps (consumerContract cfg before) (Holding cfg confirmed read) where
  rely := fun w w' h hrely =>
    ⟨hrely.1, hrely.2.confirmed.trans h.confirmed_eq, hrely.2.read.trans h.read_eq⟩
  during := by
    intro w h
    show triples w.2.past = before
    rw [h.entries, hbefore]
  guar := fun w h => ⟨h.inv, ProducerRely.refl w⟩

theorem Facing.keeps (hbefore : triples (confirmed ++ read) = before) :
    Keeps (consumerContract cfg before) (Facing cfg confirmed read skipped seg) where
  rely := fun w w' h hrely =>
    ⟨(Holding.keeps hbefore).rely w w' h.holding hrely, h.live.trans hrely.2.live⟩
  during := fun w h => (Holding.keeps hbefore).during w h.holding
  guar := fun w h => (Holding.keeps hbefore).guar w h.holding

/-- Where it lies. -/
theorem Facing.lies {w : World} (h : Facing cfg confirmed read skipped seg w) :
    Lies cfg (w.1.byte ()) (total confirmed + total skipped) seg := by
  obtain ⟨rest, hrest⟩ := h.live
  have hstored := h.holding.inv.stored
  rw [h.holding.confirmed_eq, ← hrest, stored_append, stored_append] at hstored
  exact hstored.1.2.1

theorem Facing.mem_all {w : World} (h : Facing cfg confirmed read skipped seg w) :
    seg ∈ w.2.all := by
  have hmem : seg ∈ w.2.live := h.live.subset (by simp)
  exact List.mem_append_right _ hmem

theorem Facing.numbered {w : World} (h : Facing cfg confirmed read skipped seg w) :
    ∀ e, seg = .entry e → e.seq ≠ 0 ∧ e.type ≠ 0 := by
  rintro e rfl
  obtain ⟨htype, -, hseq, -⟩ := h.holding.inv.entries e h.mem_all
  refine ⟨fun hzero => ?_, htype⟩
  rw [hzero] at hseq
  exact absurd hseq (by decide)

end Facing

-- ---------------------------------------------------------------------------
-- ReadNext
-- ---------------------------------------------------------------------------

theorem Watching.keeps : Keeps (consumerContract cfg before) (Watching cfg before) where
  rely := fun _ _ h hrely => h.rely hrely.1 hrely.2
  during := fun _ h => h.entries
  guar := fun w h => ⟨h.inv, ProducerRely.refl w⟩

/-- The store to `read_pos` goes past the segment the consumer looks at. -/
theorem Facing.storeReadPos {confirmed read : List Segment} {seg : Segment} {w : World}
    {readPos : UInt64} (hbefore : triples (confirmed ++ read) = before)
    (h : Facing cfg confirmed read read seg w)
    (hpos : readPos.toNat = total confirmed + total read) :
    ∃ t, (consumerContract cfg before).guar w
        (w.1.setWord .readPos (readPos + UInt64.ofNat seg.size), t) ∧
      Watching cfg (before ++ triples [seg])
        (w.1.setWord .readPos (readPos + UInt64.ofNat seg.size), t) := by
  obtain ⟨⟨hinv, hconfirmed, hread⟩, rest, hlive⟩ := h
  obtain ⟨memory, tconfirmed, tread, unread⟩ := w
  have hconfirmed : tconfirmed = confirmed := hconfirmed
  have hread : tread = read := hread
  subst tconfirmed
  subst tread
  have hunread : [seg] ++ rest = unread := by
    rw [List.append_assoc] at hlive
    exact List.append_cancel_left hlive
  subst unread
  have hall : Tape.all ⟨confirmed, read ++ [seg], rest⟩ =
      Tape.all ⟨confirmed, read, [seg] ++ rest⟩ := by
    simp [Tape.all]
  have hlt : readPos.toNat + seg.size < 2 ^ 64 := by
    have hlt := hinv.total_lt
    simp only [Tape.all, total_append, total_cons, total_nil] at hlt
    omega
  have hkeep : ∀ v, v ≠ Var.readPos →
      (memory.setWord .readPos (readPos + UInt64.ofNat seg.size)).word v = memory.word v :=
    fun v hv => Shared.word_setWord_of_ne _ hv _
  have hlive : Tape.live ⟨confirmed, read ++ [seg], rest⟩ =
      Tape.live ⟨confirmed, read, [seg] ++ rest⟩ := List.append_assoc ..
  have hnew : RingInv cfg (memory.setWord .readPos (readPos + UInt64.ofNat seg.size),
      ⟨confirmed, read ++ [seg], rest⟩) := by
    refine hinv.move hall (hkeep _ (by decide)) (hkeep _ (by decide)) ?_ ?_ ?_ ?_
    · rw [Shared.word_setWord_self, toNat_add_ofNat hlt, hpos]
      simp [Tape.past, Nat.add_assoc]
    · rw [hkeep _ (by decide)]
      exact hinv.confirmedPos
    · rw [hlive]
      exact hinv.stored
    · rw [hlive]
      exact hinv.space
  refine ⟨⟨confirmed, read ++ [seg], rest⟩, ⟨hnew, ?_⟩, hnew, ?_⟩
  · exact ⟨rfl, hkeep _ (by decide), hkeep _ (by decide), hall, Nat.le_refl _⟩
  · rw [Tape.past, ← List.append_assoc, triples_append, hbefore]

/-- What `ReadNext` gives. -/
def readResult (cfg : Config) (before : List (UInt64 × UInt16 × List UInt8)) :
    Option (WalEntryHeader × List UInt8) → World → Prop
  | some (h, data) => Watching cfg (before ++ [(h.seq, h.type, data)])
  | none => fun w => Watching cfg before w ∧ w.2.unread = []

section Ends

variable {confirmed read : List Segment} {w : World} {readPos : UInt64}
  (hbefore : triples (confirmed ++ read) = before)
  (hpos : readPos.toNat = total confirmed + total read)

include hbefore hpos

/-- Past a skip record. -/
theorem safe_passOver {remaining : Nat} {Q : Option (WalEntryHeader × List UInt8) → World → Prop}
    (h : Facing cfg confirmed read read (.skip remaining) w) :
    Safe (consumerContract cfg before) (loopPost (fun _ => Watching cfg before) Q)
      (passOver readPos ((total confirmed + total read) % cfg.bufferSize)) w := by
  unfold passOver
  refine Safe.bind _ (safe_loadDataLen (Facing.keeps hbefore) (fun _ h => h.lies) h) ?_
  rintro _ w ⟨rfl, h⟩
  refine safe_access (Facing.keeps hbefore) h fun w h _ => ?_
  obtain ⟨t, hguar, hnext⟩ := h.storeReadPos hbefore hpos
  have hsame : before ++ triples [Segment.skip remaining] = before := List.append_nil _
  rw [hsame] at hnext
  exact ⟨t, hguar, hnext⟩

/-- The next entry. -/
theorem safe_takeEntry {e : Entry} {maxLen : Nat} (hmax : cfg.maxPayload ≤ maxLen)
    (h : Facing cfg confirmed read read (.entry e) w) :
    Safe (consumerContract cfg before)
      (loopPost (fun _ => Watching cfg before) (readResult cfg before))
      (takeEntry maxLen readPos ((total confirmed + total read) % cfg.bufferSize)) w := by
  unfold takeEntry
  refine Safe.bind _ (safe_loadHeader (Facing.keeps hbefore) (fun _ h => h.lies) h) ?_
  rintro _ w ⟨rfl, h⟩
  rw [WalEntryHeader.ofBytes_toBytes]
  refine Safe.bind _ (safe_copyData (Facing.keeps hbefore) (fun _ h => h.lies) h maxLen) ?_
  rintro _ w ⟨rfl, h⟩
  obtain ⟨-, hfits, -⟩ := h.holding.inv.entries e h.mem_all
  rw [List.take_of_length_le (Nat.le_trans hfits hmax)]
  refine safe_access (Facing.keeps hbefore) h fun w h _ => ?_
  obtain ⟨t, hguar, hnext⟩ := h.storeReadPos hbefore hpos
  exact ⟨t, hguar, hnext⟩

end Ends

/-- **`ReadNext`** with the producer's steps between its accesses. -/
theorem safe_readNext {maxLen : Nat} {w : World} (hmax : cfg.maxPayload ≤ maxLen)
    (hw : Watching cfg before w) :
    Safe (consumerContract cfg before)
      (loopPost (fun _ => Watching cfg before) (readResult cfg before))
      (readNext cfg maxLen) w := by
  unfold readNext
  refine safe_load Watching.keeps hw fun w hw => ?_
  have hpos := hw.inv.readPos
  generalize w.1.word .readPos = readPos at hpos
  have hhold : Holding cfg w.2.confirmed w.2.read w := ⟨hw.inv, rfl, rfl⟩
  have hbefore : triples (w.2.confirmed ++ w.2.read) = before := hw.entries
  rw [Tape.past, total_append] at hpos
  generalize w.2.confirmed = confirmed at hhold hbefore hpos
  generalize w.2.read = read at hhold hbefore hpos
  refine safe_load (Holding.keeps hbefore) hhold fun w hhold => ?_
  have hwrite := hhold.inv.writePos
  rw [Tape.all_eq_past, hhold.entries, total_append, total_append] at hwrite
  split
  · -- nothing behind `read_pos`
    rename_i hle
    rw [UInt64.le_iff_toNat_le] at hle
    have hunread : w.2.unread = [] := by
      cases hcase : w.2.unread with
      | nil => rfl
      | cons seg rest =>
        have hsize := seg.header_le_size
        have hheader : walEntryHeaderSize = 24 := rfl
        rw [hcase, total_cons] at hwrite
        omega
    refine ⟨⟨hhold.inv, ?_⟩, hunread⟩
    rw [hhold.entries, hbefore]
  · rename_i hlt
    rw [UInt64.le_iff_toNat_le] at hlt
    obtain ⟨seg, rest, hunread⟩ : ∃ seg rest, w.2.unread = seg :: rest := by
      apply List.exists_cons_of_ne_nil
      intro hnil
      rw [hnil, total_nil] at hwrite
      omega
    have hface : Facing cfg confirmed read read seg w := by
      refine ⟨hhold, rest, ?_⟩
      rw [Tape.live, hhold.read_eq, hunread, List.append_assoc, List.singleton_append]
    simp only [hpos]
    refine Safe.bind _
      (safe_isSkip (Facing.keeps hbefore) (fun _ h => h.lies) hface hface.numbered) ?_
    rintro _ w ⟨rfl, hface⟩
    cases seg with
    | skip remaining => exact safe_passOver hbefore hpos hface
    | entry e =>
      refine Safe.bind _ (safe_validateCrcAt (Facing.keeps hbefore) (fun _ h => h.lies) hface) ?_
      rintro _ w ⟨rfl, hface⟩
      exact safe_takeEntry hbefore hpos hmax hface

-- ---------------------------------------------------------------------------
-- Confirm
-- ---------------------------------------------------------------------------

/-- The loop of `Confirm` is at `pos`. -/
structure Paused (cfg : Config) (before : List (UInt64 × UInt16 × List UInt8)) (pos : UInt64)
    (w : World) : Prop where
  watching : Watching cfg before w
  pos : ∃ skipped, skipped <+: w.2.live ∧ pos.toNat = total w.2.confirmed + total skipped

/-- It goes no further than the tape did when it started. -/
def Scanning (cfg : Config) (before : List (UInt64 × UInt16 × List UInt8))
    (l : UInt64 × UInt64) (w : World) : Prop :=
  Paused cfg before l.1 w ∧ l.2.toNat ≤ total w.2.all

/-- An entry with a number that was read has been read. -/
theorem Facing.prefix_read {confirmed read skipped : List Segment} {seg : Segment} {w : World}
    {seq : UInt64} (hbefore : triples (confirmed ++ read) = before)
    (h : Facing cfg confirmed read skipped seg w) (hread : seq ∈ before.map Prod.fst)
    (hseq : seg.header.seq = seq) : skipped ++ [seg] <+: read := by
  obtain ⟨t, ht, rfl⟩ := List.mem_map.mp hread
  rw [← hbefore] at ht
  have hlive := h.live
  rw [Tape.live, h.holding.read_eq] at hlive
  by_contra hnot
  -- otherwise it is among the unread ones, whose numbers are larger
  have hlonger : read.length ≤ skipped.length := by
    by_contra hshort
    apply hnot
    refine List.prefix_of_prefix_length_le hlive (List.prefix_append ..) ?_
    rw [List.length_append, List.length_singleton]
    omega
  obtain ⟨more, rfl⟩ : read <+: skipped :=
    List.prefix_of_prefix_length_le (List.prefix_append ..)
      ((List.prefix_append ..).trans hlive) hlonger
  rw [List.append_assoc, List.prefix_append_right_inj] at hlive
  have hmem : seg ∈ w.2.unread := hlive.subset (by simp)
  have hincreasing := h.holding.inv.increasing
  rw [Tape.all_eq_past, h.holding.entries, triples_append, List.map_append,
    List.pairwise_append] at hincreasing
  cases seg with
  | skip remaining =>
    -- a number that was read is not zero
    obtain ⟨seg', hseg', htriple⟩ := List.mem_filterMap.mp ht
    cases seg' with
    | skip remaining' => cases htriple
    | entry e =>
      obtain rfl := Option.some.inj htriple
      have hall : Segment.entry e ∈ w.2.all := by
        rw [Tape.all_eq_past, h.holding.entries]
        exact List.mem_append_left _ hseg'
      obtain ⟨-, -, hpos, -⟩ := h.holding.inv.entries e hall
      have hzero : (0 : UInt64) = e.seq := hseq
      rw [← hzero] at hpos
      exact absurd hpos (by decide)
  | entry e =>
    have hlt := hincreasing.2.2 t.1 (List.mem_map_of_mem ht) e.seq
      (List.mem_map.mpr ⟨(e.seq, e.type, e.data.bytes),
        List.mem_filterMap.mpr ⟨.entry e, hmem, rfl⟩, rfl⟩)
    have heq : e.seq = t.1 := hseq
    rw [heq] at hlt
    exact absurd hlt (Nat.lt_irrefl _)

/-- The store to `confirmed_pos` gives back the space up to a segment that was read. -/
theorem Facing.storeConfirmedPos {confirmed read skipped : List Segment} {seg : Segment}
    {w : World} {pos : UInt64} (hbefore : triples (confirmed ++ read) = before)
    (h : Facing cfg confirmed read skipped seg w) (hread : skipped ++ [seg] <+: read)
    (hpos : pos.toNat = total confirmed + total skipped) :
    ∃ t, (consumerContract cfg before).guar w
        (w.1.setWord .confirmedPos (pos + UInt64.ofNat seg.size), t) ∧
      Watching cfg before (w.1.setWord .confirmedPos (pos + UInt64.ofNat seg.size), t) := by
  obtain ⟨⟨hinv, hconfirmed, hreadeq⟩, -⟩ := h
  obtain ⟨memory, tconfirmed, tread, unread⟩ := w
  obtain ⟨rest, hrest⟩ := hread
  have hconfirmed : tconfirmed = confirmed := hconfirmed
  have hreadeq : tread = read := hreadeq
  subst tconfirmed
  subst tread
  subst read
  have hall : Tape.all ⟨confirmed ++ (skipped ++ [seg]), rest, unread⟩ =
      Tape.all ⟨confirmed, skipped ++ [seg] ++ rest, unread⟩ := by
    simp [Tape.all]
  have hpast : Tape.past ⟨confirmed ++ (skipped ++ [seg]), rest, unread⟩ =
      Tape.past ⟨confirmed, skipped ++ [seg] ++ rest, unread⟩ := by
    simp [Tape.past]
  have hlt : pos.toNat + seg.size < 2 ^ 64 := by
    have hlt := hinv.total_lt
    simp only [Tape.all, total_append, total_cons, total_nil] at hlt
    omega
  have hkeep : ∀ v, v ≠ Var.confirmedPos →
      (memory.setWord .confirmedPos (pos + UInt64.ofNat seg.size)).word v = memory.word v :=
    fun v hv => Shared.word_setWord_of_ne _ hv _
  have hnew : RingInv cfg (memory.setWord .confirmedPos (pos + UInt64.ofNat seg.size),
      ⟨confirmed ++ (skipped ++ [seg]), rest, unread⟩) := by
    refine hinv.move hall (hkeep _ (by decide)) (hkeep _ (by decide)) ?_ ?_ ?_ ?_
    · rw [hkeep _ (by decide), hpast]
      exact hinv.readPos
    · rw [Shared.word_setWord_self, toNat_add_ofNat hlt, hpos]
      simp [Nat.add_assoc]
    · have hstored := hinv.stored
      rw [Tape.live, List.append_assoc _ rest, stored_append] at hstored
      rw [total_append]
      exact hstored.2
    · have hspace := hinv.space
      simp only [Tape.live, total_append] at hspace ⊢
      omega
  refine ⟨⟨confirmed ++ (skipped ++ [seg]), rest, unread⟩, ⟨hnew, ?_⟩, hnew, ?_⟩
  · refine ⟨rfl, hkeep _ (by decide), hkeep _ (by decide), hall, ?_⟩
    rw [total_append]
    exact Nat.le_add_right _ _
  · rw [hpast]
    exact hbefore

/-- `Confirm` up to its loop. -/
theorem safe_confirm {w : World} (hw : Watching cfg before w) :
    Safe (consumerContract cfg before)
      (loopPost (Scanning cfg before) (fun _ => Watching cfg before)) confirm w := by
  unfold confirm
  refine safe_load Watching.keeps hw fun w hw => ?_
  have hpos := hw.inv.confirmedPos
  generalize w.1.word .confirmedPos = pos at hpos
  have hhold : Holding cfg w.2.confirmed w.2.read w := ⟨hw.inv, rfl, rfl⟩
  have hbefore : triples (w.2.confirmed ++ w.2.read) = before := hw.entries
  generalize w.2.confirmed = confirmed at hhold hbefore hpos
  generalize w.2.read = read at hhold hbefore
  refine safe_load (Holding.keeps hbefore) hhold fun w hhold => ?_
  refine ⟨⟨⟨hhold.inv, ?_⟩, [], List.nil_prefix, ?_⟩, Nat.le_of_eq hhold.inv.writePos⟩
  · rw [hhold.entries, hbefore]
  · rw [hhold.confirmed_eq]
    exact hpos

/-- At a segment, with the end of the loop out of sight. -/
theorem safe_confirmSegment {confirmed read skipped : List Segment} {seg : Segment} {w : World}
    {seq pos writePos : UInt64} (hbefore : triples (confirmed ++ read) = before)
    (h : Facing cfg confirmed read skipped seg w) (hread : seq ∈ before.map Prod.fst)
    (hpos : pos.toNat = total confirmed + total skipped) (hlt : pos < writePos) :
    Safe (consumerContract cfg before)
      (loopPost (fun l w => Paused cfg before l.1 w ∧ l.2 = writePos)
        (fun _ => Watching cfg before)) (confirmAt cfg seq (pos, writePos)) w := by
  rw [confirmAt, if_pos hlt, hpos]
  refine Safe.bind _ (safe_loadDataLen (Facing.keeps hbefore) (fun _ h => h.lies) h) ?_
  rintro _ w ⟨rfl, h⟩
  refine Safe.bind _ (safe_loadSeq (Facing.keeps hbefore) (fun _ h => h.lies) h) ?_
  rintro _ w ⟨rfl, h⟩
  split
  · -- the entry
    rename_i hfound
    have hprefix := h.prefix_read hbefore hread hfound
    refine safe_access (Facing.keeps hbefore) h fun w h _ => ?_
    obtain ⟨t, hguar, hnext⟩ := h.storeConfirmedPos hbefore hprefix hpos
    exact ⟨t, hguar, hnext⟩
  · refine Safe.bind _ (safe_loadSeq (Facing.keeps hbefore) (fun _ h => h.lies) h) ?_
    rintro _ w ⟨rfl, h⟩
    have hwatch : Watching cfg before w := by
      refine ⟨h.holding.inv, ?_⟩
      rw [h.holding.entries, hbefore]
    split
    · exact hwatch
    · -- one segment further
      refine ⟨⟨hwatch, skipped ++ [seg], h.live, ?_⟩, rfl⟩
      have hlt : pos.toNat + seg.size < 2 ^ 64 := by
        obtain ⟨rest, hrest⟩ := h.live
        have hlt := h.holding.inv.total_lt
        rw [Tape.all, total_append, ← Tape.live, ← hrest, h.holding.confirmed_eq] at hlt
        simp only [total_append, total_cons, total_nil] at hlt
        omega
      have hadd : (pos + UInt64.ofNat seg.size).toNat = pos.toNat + seg.size :=
        toNat_add_ofNat hlt
      show (pos + UInt64.ofNat seg.size).toNat = _
      rw [hadd, hpos, h.holding.confirmed_eq, total_append, total_cons, total_nil]
      omega

/-- **One turn of the loop of `Confirm`**, for a number that was read. -/
theorem safe_confirmAt {w : World} {seq : UInt64} {l : UInt64 × UInt64}
    (hread : seq ∈ before.map Prod.fst) (hw : Scanning cfg before l w) :
    Safe (consumerContract cfg before)
      (loopPost (Scanning cfg before) (fun _ => Watching cfg before)) (confirmAt cfg seq l) w := by
  obtain ⟨pos, writePos⟩ := l
  obtain ⟨⟨hwatch, skipped, ⟨rest, hlive⟩, hpos⟩, hwrite⟩ := hw
  rcases Nat.lt_or_ge pos.toNat writePos.toNat with hlt | hge
  · have htotal : total w.2.all = total w.2.confirmed + total skipped + total rest := by
      rw [Tape.all, total_append, ← Tape.live, ← hlive, total_append, Nat.add_assoc]
    simp only at hpos hwrite
    obtain ⟨seg, rest, rfl⟩ : ∃ seg more, rest = seg :: more := by
      apply List.exists_cons_of_ne_nil
      rintro rfl
      rw [total_nil] at htotal
      omega
    have hface : Facing cfg w.2.confirmed w.2.read skipped seg w := by
      refine ⟨⟨hwatch.inv, rfl, rfl⟩, rest, ?_⟩
      rw [List.append_assoc, List.singleton_append]
      exact hlive
    refine ((safe_confirmSegment hwatch.entries hface hread hpos
      (UInt64.lt_iff_toNat_lt.mpr hlt)).frame (F := fun w => writePos.toNat ≤ total w.2.all)
      ?_ ?_ hwrite).mono ?_
    · exact fun w w' hle hrely => Nat.le_trans hle hrely.2.total_le
    · intro w w' hle hguar
      rw [hguar.2.all]
      exact hle
    · rintro (⟨pos', writePos'⟩ | a) w ⟨hpost, hle⟩
      · obtain ⟨hpaused, rfl⟩ := hpost
        exact ⟨hpaused, hle⟩
      · exact hpost
  · rw [confirmAt, if_neg (by rw [UInt64.lt_iff_toNat_lt]; omega)]
    exact hwatch

end Zrtools.ShmRing

import Zrtools.Wal.Log
import Zrtools.Lib.IdleTurns
import Zrtools.Lib.Schedule

/-!
# zrtools — logs of two prefixes in one directory

`WalFileWriter` puts its prefix into the names of the files it creates and uses it for
nothing else; `WalFileReader` stores a prefix and never looks at it. Every scan of the
directory takes each `*.wal` file. This module works out when the objects of one prefix
are nevertheless isolated from the files of another.

* `initIsolated_iff` — `Init` is, iff each foreign file has a number in its name that the
  own files listed before it have reached, or ends at just that number;
* `readAfterIsolated_iff` — `ReadAfter` is, iff each foreign file has nothing after
  `after_seq`, or the files before it filled the vector;
* `truncateIsolated_iff` — `TruncateBefore(seq)` is, iff no foreign file ends below `seq`;
* `appendIsolated` — `Append` always is;
* `isolated_iff` — the four together;
* `logs_mixed` — a second log starts behind the numbers of the first, hands out its
  entries and deletes its file.
-/

namespace Zrtools.Wal

open IdleTurns

-- ---------------------------------------------------------------------------
-- The code
-- ---------------------------------------------------------------------------

namespace WalFileWriter

/-- One turn of the loop of `TruncateBefore`: the files that are left and `deleted`. -/
def truncateStep (w : WalFileWriter) (seq : UInt64) (acc : Directory × Nat)
    (f : FileName × Bytes) : Directory × Nat :=
  if isWalFile f then
    if getLastSeqInFile f.2 < seq ∧ f.1 ≠ w.currentFile then
      (acc.1.filter fun g => g.1 ≠ f.1, acc.2 + 1)
    else acc
  else acc

/-- `TruncateBefore(seq)`, given the order in which the directory lists its files. -/
def truncateBefore (w : WalFileWriter) (dir listing : Directory) (seq : UInt64) :
    Directory × Nat :=
  listing.foldl (w.truncateStep seq) (dir, 0)

end WalFileWriter

/-- `WalFileReader<TypeEnum>`; the directory itself is kept apart. -/
structure WalFileReader where
  filePrefix : List Char := defaultPrefix

/-- `ReadAfter` does not read `prefix_`. -/
def WalFileReader.readAfter (_reader : WalFileReader) (dir : Directory) (afterSeq : UInt64)
    (maxCount : Nat) : List Entry :=
  Wal.readAfter dir afterSeq maxCount

-- ---------------------------------------------------------------------------
-- Files of a prefix
-- ---------------------------------------------------------------------------

/-- A file with a name that `CreateNewFile` builds for the prefix. -/
def writtenWith (q : List Char) (f : FileName × Bytes) : Bool :=
  f.1 == walFileName q (parseSeqFromFilename f.1)

/-- The directory without the files of a prefix. -/
abbrev without (q : List Char) (dir : Directory) : Directory := others (writtenWith q) dir

/-- The files of a prefix. -/
def filesOf (q : List Char) (dir : Directory) : Directory := dir.filter (writtenWith q)

theorem writtenWith_iff {q : List Char} (hq : PlainPrefix q) (f : FileName × Bytes) :
    writtenWith q f = true ↔ ∃ n, f.1 = walFileName q n := by
  refine ⟨?_, ?_⟩
  · intro h
    exact ⟨_, eq_of_beq h⟩
  · rintro ⟨n, hn⟩
    rw [writtenWith, hn, parseSeqFromFilename_walFileName hq.1 fun hdot => absurd hdot hq.2]
    exact beq_self_eq_true _

theorem isWalFile_of_writtenWith {q : List Char} {f : FileName × Bytes}
    (h : writtenWith q f = true) : isWalFile f = true := by
  have hname : f.1 = walFileName q (parseSeqFromFilename f.1) := eq_of_beq h
  have hwal := isWalFile_walFileName q (parseSeqFromFilename f.1) f.2
  rwa [← hname] at hwal

/-- The name of a file tells the prefix it was written with. -/
theorem walFileName_takeWhile {p : List Char} (hp : PlainPrefix p) (n : UInt64) :
    (walFileName p n).takeWhile (· ≠ '_') = p := by
  have hall : ∀ c ∈ p, decide (c ≠ '_') = true := by
    intro c hc
    rw [decide_eq_true_iff]
    rintro rfl
    exact hp.1 hc
  rw [walFileName, List.takeWhile_append_of_pos hall]
  simp

theorem not_writtenWith {p q : List Char} (hp : PlainPrefix p) (hq : PlainPrefix q) (hne : p ≠ q)
    (n : UInt64) (content : Bytes) : writtenWith q (walFileName p n, content) = false := by
  rw [Bool.eq_false_iff]
  intro h
  have hname : walFileName p n = walFileName q _ := eq_of_beq h
  have hsame := congrArg (List.takeWhile (· ≠ '_')) hname
  rw [walFileName_takeWhile hp, walFileName_takeWhile hq] at hsame
  exact hne hsame

/-- Removing a file that is not of `q` leaves the files of `q` alone. -/
theorem filesOf_remove {q : List Char} {f : FileName × Bytes} (hf : writtenWith q f = false)
    (dir : Directory) : filesOf q (dir.filter fun g => g.1 ≠ f.1) = filesOf q dir := by
  rw [filesOf, filesOf, List.filter_filter]
  apply List.filter_congr
  intro g _
  cases hg : writtenWith q g with
  | false => rfl
  | true =>
    have hother : g.1 ≠ f.1 := by
      intro hname
      rw [writtenWith, ← hname] at hf
      exact Bool.noConfusion (hf.symm.trans hg)
    simp [hother]

/-- Replacing a file of `p` leaves the files of `q` alone. -/
theorem filesOf_putFile {p q : List Char} (hp : PlainPrefix p) (hq : PlainPrefix q) (hne : p ≠ q)
    (dir : Directory) (n : UInt64) (content : Bytes) :
    filesOf q (putFile dir (walFileName p n) content) = filesOf q dir := by
  have hother := not_writtenWith hp hq hne n content
  rw [putFile, filesOf, List.filter_append, ← filesOf, filesOf_remove hother]
  simp [hother]

-- ---------------------------------------------------------------------------
-- Init
-- ---------------------------------------------------------------------------

/-- `Init` of a writer with prefix `p` is isolated from the files of `q`: none of them
moves `max_seq`, so that the writer is the one of a directory without them, and creating
the file of `p` leaves them alone. -/
structure InitIsolated (p q : List Char) (dir listing : Directory) (now : UInt64) : Prop where
  idle : Idle WalFileWriter.scanStep (writtenWith q) 0 listing
  same : WalFileWriter.init p listing now = WalFileWriter.init p (without q listing) now
  kept : filesOf q (putFile dir (WalFileWriter.init p listing now).currentFile []) =
    filesOf q dir

/-- Each file of `q` that the listing reaches has a number in its name that the other files
before it have reached, or ends at just that number. -/
def NumbersReached (q : List Char) (listing : Directory) : Prop :=
  ∀ front f rest, listing = front ++ f :: rest → writtenWith q f = true →
    parseSeqFromFilename f.1 ≤ WalFileWriter.scanMaxSeq (without q front) ∨
      getLastSeqInFile f.2 = WalFileWriter.scanMaxSeq (without q front)

theorem scanStep_eq_self_iff {f : FileName × Bytes} (hf : isWalFile f = true) (maxSeq : UInt64) :
    WalFileWriter.scanStep maxSeq f = maxSeq ↔
      parseSeqFromFilename f.1 ≤ maxSeq ∨ getLastSeqInFile f.2 = maxSeq := by
  rw [WalFileWriter.scanStep, if_pos hf]
  split
  · rename_i hlt
    simp [hlt]
  · rename_i hle
    simp [UInt64.not_lt.mp hle]

theorem idle_scanStep_iff (q : List Char) (listing : Directory) :
    Idle WalFileWriter.scanStep (writtenWith q) 0 listing ↔ NumbersReached q listing := by
  apply idle_iff_forall
  intro front f hf
  exact scanStep_eq_self_iff (isWalFile_of_writtenWith hf) _

theorem initIsolated_iff {p q : List Char} (hp : PlainPrefix p) (hq : PlainPrefix q) (hne : p ≠ q)
    (dir listing : Directory) (now : UInt64) :
    InitIsolated p q dir listing now ↔ NumbersReached q listing := by
  rw [← idle_scanStep_iff]
  refine ⟨?_, ?_⟩
  · exact InitIsolated.idle
  · intro h
    have hscan : WalFileWriter.scanMaxSeq (without q listing) = WalFileWriter.scanMaxSeq listing :=
      h.foldl_others
    constructor
    case idle => exact h
    case same => rw [WalFileWriter.init, WalFileWriter.init, hscan]
    case kept => exact filesOf_putFile hp hq hne dir _ []

-- ---------------------------------------------------------------------------
-- ReadAfter
-- ---------------------------------------------------------------------------

/-- What one file adds to the entries that the files before it gave. -/
def readTurn (afterSeq : UInt64) (maxCount : Nat) (entries : List Entry)
    (f : FileName × Bytes) : List Entry :=
  limit maxCount (entries ++ entriesAfter afterSeq (fileEntries f.2))

theorem limit_append_limit (maxCount : Nat) (a b : List Entry) :
    limit maxCount (limit maxCount a ++ b) = limit maxCount (a ++ b) := by
  unfold limit
  split
  · rfl
  · rw [List.take_append, List.take_append, List.take_take, Nat.min_self, List.length_take]
    rcases Nat.le_total maxCount a.length with h | h
    · rw [Nat.min_eq_left h, Nat.sub_eq_zero_of_le h, Nat.sub_self]
    · rw [Nat.min_eq_right h]

theorem foldl_readTurn (afterSeq : UInt64) (maxCount : Nat) (files : Directory) :
    files.foldl (readTurn afterSeq maxCount) [] =
      limit maxCount (entriesAfter afterSeq (files.flatMap fun f => fileEntries f.2)) := by
  induction files using List.reverseRecOn with
  | nil => simp [limit, entriesAfter]
  | append_singleton files f ih =>
    rw [List.flatMap_append, entriesAfter_append, List.foldl_append, ih, List.foldl_cons,
      List.foldl_nil, readTurn, limit_append_limit]
    simp

/-- The loop over the files is that of its turns. -/
theorem readAfter_eq_foldl (dir : Directory) (afterSeq : UInt64) (maxCount : Nat) :
    readAfter dir afterSeq maxCount =
      (sortedWalFiles dir).foldl (readTurn afterSeq maxCount) [] := by
  rw [readAfter_eq, foldl_readTurn]

/-- Files can be taken out of the directory or of the sorted list. -/
theorem sortedWalFiles_filter (keep : FileName × Bytes → Bool) (dir : Directory) :
    sortedWalFiles (dir.filter keep) = (sortedWalFiles dir).filter keep := by
  have htotal : Std.Total fun f g : FileName × Bytes => f.1 ≤ g.1 :=
    ⟨fun f g => le_total f.1 g.1⟩
  have htrans : IsTrans (FileName × Bytes) fun f g => f.1 ≤ g.1 := ⟨fun _ _ _ => le_trans⟩
  rw [sortedWalFiles, sortedWalFiles, filter_insertionSort, List.filter_filter,
    List.filter_filter]
  congr 1
  apply List.filter_congr
  intro f _
  exact Bool.and_comm ..

theorem sortedWalFiles_without (q : List Char) (dir : Directory) :
    sortedWalFiles (without q dir) = without q (sortedWalFiles dir) :=
  sortedWalFiles_filter _ dir

/-- `ReadAfter` is isolated from the files of `q`: none of them adds to the entries, and
the result is that of a directory without them. -/
structure ReadAfterIsolated (reader : WalFileReader) (q : List Char) (dir : Directory)
    (afterSeq : UInt64) (maxCount : Nat) : Prop where
  idle : Idle (readTurn afterSeq maxCount) (writtenWith q) [] (sortedWalFiles dir)
  same : reader.readAfter dir afterSeq maxCount =
    reader.readAfter (without q dir) afterSeq maxCount

/-- Each file of `q` has no entry after `after_seq`, or the other files that sort before it
hold `max_count` of them. -/
def NothingToAdd (q : List Char) (dir : Directory) (afterSeq : UInt64) (maxCount : Nat) : Prop :=
  ∀ front f rest, sortedWalFiles dir = front ++ f :: rest → writtenWith q f = true →
    entriesAfter afterSeq (fileEntries f.2) = [] ∨
      0 < maxCount ∧
        maxCount ≤ (entriesAfter afterSeq
          ((without q front).flatMap fun g => fileEntries g.2)).length

theorem limit_append_eq_self_iff (maxCount : Nat) (a b : List Entry) :
    limit maxCount (a ++ b) = limit maxCount a ↔ b = [] ∨ 0 < maxCount ∧ maxCount ≤ a.length := by
  rcases Nat.eq_zero_or_pos maxCount with rfl | hpos
  · simp [limit]
  · rw [limit, limit, if_neg (by omega), if_neg (by omega)]
    refine ⟨?_, ?_⟩
    · intro h
      have hlen := congrArg List.length h
      rw [List.length_take, List.length_take, List.length_append] at hlen
      rcases Nat.lt_or_ge a.length maxCount with hlt | hge
      · left
        apply List.eq_nil_of_length_eq_zero
        omega
      · exact Or.inr ⟨hpos, hge⟩
    · rintro (rfl | ⟨-, hfull⟩)
      · rw [List.append_nil]
      · exact List.take_append_of_le_length hfull

theorem readTurn_eq_self_iff (afterSeq : UInt64) (maxCount : Nat) (files : Directory)
    (f : FileName × Bytes) :
    readTurn afterSeq maxCount (files.foldl (readTurn afterSeq maxCount) []) f =
        files.foldl (readTurn afterSeq maxCount) [] ↔
      entriesAfter afterSeq (fileEntries f.2) = [] ∨
        0 < maxCount ∧
          maxCount ≤ (entriesAfter afterSeq (files.flatMap fun g => fileEntries g.2)).length := by
  rw [readTurn, foldl_readTurn, limit_append_limit]
  exact limit_append_eq_self_iff ..

theorem readAfterIsolated_iff (reader : WalFileReader) (q : List Char) (dir : Directory)
    (afterSeq : UInt64) (maxCount : Nat) :
    ReadAfterIsolated reader q dir afterSeq maxCount ↔ NothingToAdd q dir afterSeq maxCount := by
  have hidle : Idle (readTurn afterSeq maxCount) (writtenWith q) [] (sortedWalFiles dir) ↔
      NothingToAdd q dir afterSeq maxCount :=
    idle_iff_forall fun _ _ _ => readTurn_eq_self_iff ..
  rw [← hidle]
  refine ⟨?_, ?_⟩
  · exact ReadAfterIsolated.idle
  · intro h
    constructor
    case idle => exact h
    case same =>
      rw [WalFileReader.readAfter, WalFileReader.readAfter, readAfter_eq_foldl,
        readAfter_eq_foldl, sortedWalFiles_without, h.foldl_others]

-- ---------------------------------------------------------------------------
-- TruncateBefore
-- ---------------------------------------------------------------------------

/-- A writer that was built with the prefix, before or after its `Init`. -/
def BuiltWith (p : List Char) (w : WalFileWriter) : Prop :=
  w.filePrefix = p ∧ (w.currentFile = [] ∧ w.file = none ∨ ∃ n, w.currentFile = walFileName p n)

theorem builtWith_init (p : List Char) (listing : Directory) (now : UInt64) :
    BuiltWith p (WalFileWriter.init p listing now) :=
  ⟨rfl, Or.inr ⟨_, rfl⟩⟩

theorem BuiltWith.append {p : List Char} {w w' : WalFileWriter} {type : UInt16} {data : Payload}
    {now seq : UInt64} (h : BuiltWith p w) (happend : w.append type data now = some (seq, w')) :
    BuiltWith p w' := by
  rw [WalFileWriter.append] at happend
  cases hfile : w.file with
  | none =>
    rw [hfile] at happend
    obtain ⟨-, rfl⟩ := Prod.mk.inj (Option.some.inj happend)
    exact h
  | some out =>
    rw [hfile] at happend
    dsimp only at happend
    split at happend
    · simp at happend
    · obtain ⟨-, rfl⟩ := Prod.mk.inj (Option.some.inj happend)
      obtain ⟨hbuilt, ⟨-, hnone⟩ | hnamed⟩ := h
      · exact absurd (hfile.symm.trans hnone) (Option.some_ne_none _)
      · exact ⟨hbuilt, Or.inr hnamed⟩

theorem BuiltWith.ne_currentFile {p q : List Char} {w : WalFileWriter} (h : BuiltWith p w)
    (hp : PlainPrefix p) (hq : PlainPrefix q) (hne : p ≠ q) {f : FileName × Bytes}
    (hf : writtenWith q f = true) : f.1 ≠ w.currentFile := by
  intro hname
  rcases h.2 with ⟨hempty, -⟩ | ⟨n, hn⟩
  · have hq := eq_of_beq hf
    rw [hname, hempty, walFileName] at hq
    simp at hq
  · have hfalse := not_writtenWith hp hq hne n f.2
    rw [← hn, ← hname, hf] at hfalse
    exact Bool.noConfusion hfalse

/-- `TruncateBefore(seq)` is isolated from the files of `q`: no turn on one of them deletes or
counts anything, what is deleted and counted is the same as in a directory without them, and
all of them are still there. -/
structure TruncateIsolated (w : WalFileWriter) (q : List Char) (dir listing : Directory)
    (seq : UInt64) : Prop where
  idle : Idle (w.truncateStep seq) (writtenWith q) (dir, 0) listing
  same : w.truncateBefore (without q dir) (without q listing) seq =
    (without q (w.truncateBefore dir listing seq).1, (w.truncateBefore dir listing seq).2)
  kept : filesOf q (w.truncateBefore dir listing seq).1 = filesOf q dir

/-- No file of `q` ends below the given number. -/
def NoneBelow (q : List Char) (listing : Directory) (seq : UInt64) : Prop :=
  ∀ f ∈ listing, writtenWith q f = true → seq ≤ getLastSeqInFile f.2

/-- Taking files out before or after the loop makes no difference. -/
theorem foldl_truncateStep_filter (w : WalFileWriter) (seq : UInt64)
    (k : FileName × Bytes → Bool) (listing dir : Directory) (n : Nat) :
    listing.foldl (w.truncateStep seq) (dir.filter k, n) =
      ((listing.foldl (w.truncateStep seq) (dir, n)).1.filter k,
        (listing.foldl (w.truncateStep seq) (dir, n)).2) := by
  induction listing generalizing dir n with
  | nil => rfl
  | cons f listing ih =>
    have hstep : w.truncateStep seq (dir.filter k, n) f =
        ((w.truncateStep seq (dir, n) f).1.filter k, (w.truncateStep seq (dir, n) f).2) := by
      unfold WalFileWriter.truncateStep
      split
      · split
        · rw [List.filter_filter, List.filter_filter]
          simp only [Prod.mk.injEq, and_true]
          apply List.filter_congr
          intro g _
          exact Bool.and_comm ..
        · rfl
      · rfl
    rw [List.foldl_cons, List.foldl_cons, hstep, ih]

theorem filesOf_foldl_truncateStep (w : WalFileWriter) (seq : UInt64) (q : List Char)
    {listing : Directory} (hother : ∀ f ∈ listing, writtenWith q f = false) (dir : Directory)
    (n : Nat) :
    filesOf q (listing.foldl (w.truncateStep seq) (dir, n)).1 = filesOf q dir := by
  induction listing generalizing dir n with
  | nil => rfl
  | cons f listing ih =>
    have hrest : ∀ g ∈ listing, writtenWith q g = false := fun g hg =>
      hother g (List.mem_cons_of_mem _ hg)
    rw [List.foldl_cons, WalFileWriter.truncateStep]
    split
    · split
      · rw [ih hrest, filesOf_remove (hother f (List.mem_cons_self ..))]
      · exact ih hrest dir n
    · exact ih hrest dir n

theorem truncateStep_eq_self_iff {w : WalFileWriter} {f : FileName × Bytes}
    (hf : isWalFile f = true) (hname : f.1 ≠ w.currentFile) (seq : UInt64)
    (acc : Directory × Nat) :
    w.truncateStep seq acc f = acc ↔ seq ≤ getLastSeqInFile f.2 := by
  rw [WalFileWriter.truncateStep, if_pos hf]
  split
  · rename_i hbelow
    refine ⟨?_, ?_⟩
    · intro h
      have hcount : acc.2 + 1 = acc.2 := congrArg Prod.snd h
      omega
    · intro h
      exact absurd hbelow.1 (UInt64.not_lt.mpr h)
  · rename_i hnot
    simp only [true_iff]
    exact UInt64.not_lt.mp fun hlt => hnot ⟨hlt, hname⟩

theorem truncateIsolated_iff {p q : List Char} (hp : PlainPrefix p) (hq : PlainPrefix q)
    (hne : p ≠ q) {w : WalFileWriter} (hw : BuiltWith p w) (dir listing : Directory)
    (seq : UInt64) :
    TruncateIsolated w q dir listing seq ↔ NoneBelow q listing seq := by
  have hidle : Idle (w.truncateStep seq) (writtenWith q) (dir, 0) listing ↔
      NoneBelow q listing seq := by
    apply idle_iff_forall_mem
    intro f hf acc
    exact truncateStep_eq_self_iff (isWalFile_of_writtenWith hf)
      (hw.ne_currentFile hp hq hne hf) seq acc
  rw [← hidle]
  refine ⟨?_, ?_⟩
  · exact TruncateIsolated.idle
  · intro h
    have hloop : (without q listing).foldl (w.truncateStep seq) (dir, 0) =
        listing.foldl (w.truncateStep seq) (dir, 0) := h.foldl_others
    constructor
    case idle => exact h
    case same =>
      rw [WalFileWriter.truncateBefore, without, others, foldl_truncateStep_filter, hloop]
      rfl
    case kept =>
      rw [WalFileWriter.truncateBefore, ← hloop]
      apply filesOf_foldl_truncateStep
      intro f hf
      simpa using (List.mem_filter.mp hf).2

-- ---------------------------------------------------------------------------
-- Append
-- ---------------------------------------------------------------------------

/-- `Append` is isolated from the files of `q`: its only argument from outside is its own
stream, and whatever of that reaches the file leaves the files of `q` alone. -/
def AppendIsolated (w : WalFileWriter) (q : List Char) (dir : Directory) (type : UInt16)
    (data : Payload) (now : UInt64) : Prop :=
  ∀ seq w' out, w.append type data now = some (seq, w') → w'.file = some out →
    ∀ n, filesOf q (putFile dir w'.currentFile (out.written.take n)) = filesOf q dir

theorem appendIsolated {p q : List Char} (hp : PlainPrefix p) (hq : PlainPrefix q) (hne : p ≠ q)
    {w : WalFileWriter} (hw : BuiltWith p w) (dir : Directory) (type : UInt16) (data : Payload)
    (now : UInt64) : AppendIsolated w q dir type data now := by
  intro seq w' out happend hout n
  rcases (hw.append happend).2 with ⟨-, hnone⟩ | ⟨k, hk⟩
  · exact absurd (hout.symm.trans hnone) (Option.some_ne_none _)
  · rw [hk]
    exact filesOf_putFile hp hq hne dir k _

-- ---------------------------------------------------------------------------
-- All operations
-- ---------------------------------------------------------------------------

/-- **Prefix isolation.** In a directory that two plain prefixes share, the operations of
one are isolated from the files of the other iff: for `Init`, the numbers of the foreign files
are reached before their turn; for `ReadAfter`, the foreign files have nothing to add; for
`TruncateBefore`, none of them ends below the given number; `Append` always is. -/
theorem isolated_iff {p q : List Char} (hp : PlainPrefix p) (hq : PlainPrefix q) (hne : p ≠ q)
    (dir listing : Directory) {w : WalFileWriter} (hw : BuiltWith p w) (reader : WalFileReader) :
    (∀ now, InitIsolated p q dir listing now ↔ NumbersReached q listing) ∧
      (∀ afterSeq maxCount, ReadAfterIsolated reader q dir afterSeq maxCount ↔
        NothingToAdd q dir afterSeq maxCount) ∧
      (∀ seq, TruncateIsolated w q dir listing seq ↔ NoneBelow q listing seq) ∧
      ∀ type data now, AppendIsolated w q dir type data now := by
  refine ⟨?_, ?_, ?_, ?_⟩
  · intro now
    exact initIsolated_iff hp hq hne dir listing now
  · intro afterSeq maxCount
    exact readAfterIsolated_iff reader q dir afterSeq maxCount
  · intro seq
    exact truncateIsolated_iff hp hq hne hw dir listing seq
  · intro type data now
    exact appendIsolated hp hq hne hw dir type data now

theorem payloadOfB_fits : [(7 : UInt8)].length < 2 ^ 16 := by decide

/-- One closed session of prefix `b` with one entry. -/
def sessionOfB : List Action := [.init [] 0, .append 5 ⟨[7], payloadOfB_fits⟩ 0, .close 0]

/-- The directory after it. -/
def dirOfB : Directory :=
  [(walFileName ['b'] 1, logImage { startSeq := 1, entryCount := 1 }
    [({ seq := 1, timestampNs := 0, type := 5, dataLen := 1,
        crc32 := WalEntryHeader.calcCrc32 [7] }, [7])])]

/-- The theorem at a directory that holds nothing but a log of prefix `b`. -/
theorem isolated_dirOfB :
    (∀ now, InitIsolated ['a'] ['b'] dirOfB dirOfB now ↔ NumbersReached ['b'] dirOfB) ∧
      (∀ afterSeq maxCount, ReadAfterIsolated ⟨['a']⟩ ['b'] dirOfB afterSeq maxCount ↔
        NothingToAdd ['b'] dirOfB afterSeq maxCount) ∧
      (∀ seq, TruncateIsolated (WalFileWriter.init ['a'] dirOfB 0) ['b'] dirOfB dirOfB seq ↔
        NoneBelow ['b'] dirOfB seq) ∧
      ∀ type data now,
        AppendIsolated (WalFileWriter.init ['a'] dirOfB 0) ['b'] dirOfB type data now :=
  isolated_iff (by simp [PlainPrefix]) (by simp [PlainPrefix]) (by simp) dirOfB dirOfB
    (builtWith_init ..) ⟨['a']⟩

/-- **The logs mix.** In a directory where `b` logged one entry, `Init` with prefix `a` starts
behind the number of `b`, `ReadAfter(0)` hands out the entry of `b`, and
`TruncateBefore(2)` deletes the file of `b`: none of the three is isolated. A file that `b` has
open, with nothing flushed yet, is already deleted by `TruncateBefore(1)`. -/
theorem logs_mixed :
    Schedule.run (LogDir.step ['b']) LogDir.empty sessionOfB = some ⟨dirOfB, none⟩ ∧
      (WalFileWriter.init ['a'] dirOfB 0).currentFile = walFileName ['a'] 2 ∧
      ((WalFileReader.mk ['a']).readAfter dirOfB 0 0).map Prod.snd = [[7]] ∧
      (WalFileWriter.init ['a'] dirOfB 0).truncateBefore dirOfB dirOfB 2 = ([], 1) ∧
      ¬ InitIsolated ['a'] ['b'] dirOfB dirOfB 0 ∧
      ¬ ReadAfterIsolated ⟨['a']⟩ ['b'] dirOfB 0 0 ∧
      ¬ TruncateIsolated (WalFileWriter.init ['a'] dirOfB 0) ['b'] dirOfB dirOfB 2 ∧
      (LogDir.step ['b'] LogDir.empty (.init [] 0)).map LogDir.dir =
        some [(walFileName ['b'] 1, [])] ∧
      (WalFileWriter.init ['a'] [] 0).truncateBefore [(walFileName ['b'] 1, [])]
        [(walFileName ['b'] 1, [])] 1 = ([], 1) := by
  refine ⟨by decide +kernel, by decide +kernel, by decide +kernel, by decide +kernel, ?_, ?_, ?_,
    by decide +kernel, by decide +kernel⟩
  · intro h
    have hother : WalFileWriter.init ['a'] dirOfB 0 ≠
        WalFileWriter.init ['a'] (without ['b'] dirOfB) 0 := by decide +kernel
    exact hother h.same
  · intro h
    have hother : ((WalFileReader.mk ['a']).readAfter dirOfB 0 0).length ≠
        ((WalFileReader.mk ['a']).readAfter (without ['b'] dirOfB) 0 0).length := by
      decide +kernel
    exact hother (congrArg List.length h.same)
  · intro h
    have hother : filesOf ['b'] ((WalFileWriter.init ['a'] dirOfB 0).truncateBefore
        dirOfB dirOfB 2).1 ≠ filesOf ['b'] dirOfB := by decide +kernel
    exact hother h.kept

end Zrtools.Wal

import Zrtools.Wal.Entry
import Mathlib.Data.List.Sort
import Mathlib.Data.List.Lex
import Mathlib.Data.Char

/-!
# zrtools — WAL files (`zrt_wal_file.h`)

`WalFileWriter` and `WalFileReader` over a directory of byte strings. A file
name is its list of characters, a directory the list of its regular files, and
`directory_iterator` may list them in any order. An output file is the bytes
handed to the stream and how many of them are known to be flushed; a crash
leaves any prefix that includes those. Clock readings are arguments.
-/

namespace Zrtools.Wal

open LittleEndian

abbrev FileName := List Char
abbrev Bytes := List UInt8

/-- The regular files of one directory, in the order a listing gives them. -/
abbrev Directory := List (FileName × Bytes)

/-- What `ReadAfter` hands out: a header and the payload behind it. -/
abbrev Entry := WalEntryHeader × Bytes

-- ---------------------------------------------------------------------------
-- File header
-- ---------------------------------------------------------------------------

/-- `WalFileHeader`; the 32 reserved bytes are zero and never read. The field
defaults are those of a value-initialised header. -/
structure WalFileHeader where
  magic : UInt32 := 0x5A524657
  version : UInt32 := 1
  startSeq : UInt64 := 0
  entryCount : UInt64 := 0
  createTimeNs : UInt64 := 0
  deriving DecidableEq, Repr

/-- `sizeof(WalFileHeader)`. -/
abbrev walFileHeaderSize : Nat := 64

namespace WalFileHeader

def toBytes (h : WalFileHeader) : Bytes :=
  encode 4 h.magic.toNat ++ (encode 4 h.version.toNat ++ (encode 8 h.startSeq.toNat ++
    (encode 8 h.entryCount.toNat ++ (encode 8 h.createTimeNs.toNat ++ List.replicate 32 0))))

def ofBytes (l : Bytes) : WalFileHeader where
  magic := UInt32.ofNat (decode (l.take 4))
  version := UInt32.ofNat (decode ((l.drop 4).take 4))
  startSeq := UInt64.ofNat (decode ((l.drop 8).take 8))
  entryCount := UInt64.ofNat (decode ((l.drop 16).take 8))
  createTimeNs := UInt64.ofNat (decode ((l.drop 24).take 8))

/-- Both readers also accept the magic of the older format. -/
def knownMagic (h : WalFileHeader) : Bool := h.magic == 0x5A524657 || h.magic == 0x57414C46

end WalFileHeader

-- ---------------------------------------------------------------------------
-- std::ifstream
-- ---------------------------------------------------------------------------

/-- An input file stream: the bytes ahead and `good()`. -/
structure IStream where
  rest : Bytes
  good : Bool := true

/-- `in.read(dst, n)`: a short read keeps what it got and leaves the stream not
good; a stream that is not good reads nothing. -/
def IStream.read (stream : IStream) (n : Nat) (dst : Bytes) : Bytes × IStream :=
  if stream.good then
    (stream.rest.take n ++ dst.drop (stream.rest.take n).length,
      { rest := stream.rest.drop n, good := decide (n ≤ stream.rest.length) })
  else (dst, stream)

/-- `in.seekg(off, std::ios::cur)`: seeking past the end is not an error. -/
def IStream.seekg (stream : IStream) (off : Nat) : IStream :=
  if stream.good then { stream with rest := stream.rest.drop off } else stream

-- ---------------------------------------------------------------------------
-- File names
-- ---------------------------------------------------------------------------

/-- `std::filesystem::path(name).extension()`: from the last dot, unless that is
the first character. -/
def extension (name : FileName) : List Char :=
  let tail := (name.reverse.takeWhile (· ≠ '.')).reverse
  if tail.length + 1 < name.length then name.drop (name.length - (tail.length + 1)) else []

def isWalFile (f : FileName × Bytes) : Bool := extension f.1 == ".wal".toList

def isSpace (c : Char) : Bool :=
  c == ' ' || c == '\t' || c == '\n' || c == '\x0b' || c == '\x0c' || c == '\r'

/-- An optional sign, and whether it is a minus. -/
def splitSign : List Char → Bool × List Char
  | '-' :: t => (true, t)
  | '+' :: t => (false, t)
  | t => (false, t)

/-- `std::stoull(s)`; `none` is a thrown exception. -/
def stoull (s : List Char) : Option UInt64 :=
  let (negative, s) := splitSign (s.dropWhile isSpace)
  let digits := s.takeWhile Char.isDigit
  if digits.isEmpty then none
  else
    let v := Nat.ofDigitChars 10 digits 0
    if 2 ^ 64 ≤ v then none
    else some (if negative then 0 - UInt64.ofNat v else UInt64.ofNat v)

/-- `WalFileWriter::ParseSeqFromFilename`. -/
def parseSeqFromFilename (filename : FileName) : UInt64 :=
  match filename.findIdx? (· == '_'), filename.findIdx? (· == '.') with
  | some underscore, some dot =>
    -- the count of `substr` is computed in `size_t`
    let count := (dot + 2 ^ 64 - underscore - 1) % 2 ^ 64
    (stoull ((filename.drop (underscore + 1)).take count)).getD 0
  | _, _ => 0

/-- The default of the constructors' `prefix`. -/
def defaultPrefix : List Char := "wal".toList

/-- The name `CreateNewFile` builds: `prefix_ + "_" + std::to_string(seq) + ".wal"`. -/
def walFileName (filePrefix : List Char) (seq : UInt64) : FileName :=
  filePrefix ++ ('_' :: (Nat.toDigits 10 seq.toNat ++ ".wal".toList))

-- ---------------------------------------------------------------------------
-- Reading
-- ---------------------------------------------------------------------------

/-- Both readers start by reading the header over a value-initialised one. -/
def readFileHeader (content : Bytes) : WalFileHeader × IStream :=
  let (hdr, stream) := (IStream.mk content true).read walFileHeaderSize
    (WalFileHeader.toBytes {})
  (WalFileHeader.ofBytes hdr, stream)

/-- The entry header both loops read, over a value-initialised one. -/
def readEntryHeader (stream : IStream) : WalEntryHeader × IStream :=
  let (raw, stream) := stream.read walEntryHeaderSize (List.replicate walEntryHeaderSize 0)
  (WalEntryHeader.ofBytes raw, stream)

/-- The `while (in.good())` loop of `GetLastSeqInFile`. -/
def lastSeqLoop : Nat → IStream → UInt64 → UInt64
  | 0, _, lastSeq => lastSeq
  | fuel + 1, stream, lastSeq =>
    if stream.good then
      let (header, stream) := readEntryHeader stream
      if !stream.good || header.seq == 0 then lastSeq
      else lastSeqLoop fuel (stream.seekg header.dataLen.toNat) header.seq
    else lastSeq

/-- `WalFileWriter::GetLastSeqInFile`. -/
def getLastSeqInFile (content : Bytes) : UInt64 :=
  let (header, stream) := readFileHeader content
  if header.knownMagic then lastSeqLoop (content.length + 1) stream header.startSeq else 0

/-- The payload read of `ReadAfter`, into a vector of `data_len` zeros. -/
def readPayload (stream : IStream) (dataLen : Nat) : Bytes × IStream :=
  if 0 < dataLen then stream.read dataLen (List.replicate dataLen 0) else ([], stream)

/-- The `while (in.good())` loop of `ReadAfter`; the flag is the early return. -/
def readEntries (afterSeq : UInt64) (maxCount : Nat) :
    Nat → IStream → List Entry → List Entry × Bool
  | 0, _, entries => (entries, false)
  | fuel + 1, stream, entries =>
    if stream.good then
      let (header, stream) := readEntryHeader stream
      if !stream.good || header.seq == 0 then (entries, false)
      else
        let (data, stream) := readPayload stream header.dataLen.toNat
        if afterSeq < header.seq then
          let entries := entries ++ [(header, data)]
          if 0 < maxCount ∧ maxCount ≤ entries.length then (entries, true)
          else readEntries afterSeq maxCount fuel stream entries
        else readEntries afterSeq maxCount fuel stream entries
    else (entries, false)

/-- One turn of the loop over the files in `ReadAfter`. -/
def readFile (afterSeq : UInt64) (maxCount : Nat) (content : Bytes) (entries : List Entry) :
    List Entry × Bool :=
  let (header, stream) := readFileHeader content
  if header.knownMagic then
    readEntries afterSeq maxCount (content.length + 1) stream entries
  else (entries, false)

/-- The loop over the files in `ReadAfter`. -/
def readFiles (afterSeq : UInt64) (maxCount : Nat) : Directory → List Entry → List Entry
  | [], entries => entries
  | f :: files, entries =>
    let (entries, done) := readFile afterSeq maxCount f.2 entries
    if done then entries else readFiles afterSeq maxCount files entries

/-- The `.wal` files in the order of `std::sort` over their paths. All paths
begin with the directory, so their order is that of the names. -/
def sortedWalFiles (dir : Directory) : Directory :=
  (dir.filter isWalFile).insertionSort (fun f g => f.1 ≤ g.1)

/-- `WalFileReader::ReadAfter(after_seq, entries, max_count)`: the entries put
into the vector. -/
def readAfter (dir : Directory) (afterSeq : UInt64) (maxCount : Nat) : List Entry :=
  readFiles afterSeq maxCount (sortedWalFiles dir) []

-- ---------------------------------------------------------------------------
-- Writing
-- ---------------------------------------------------------------------------

/-- An output file stream that only grows: all bytes handed to it, and how many
of them are known to have reached the file. -/
structure OStream where
  written : Bytes
  flushed : Nat
  deriving DecidableEq

def OStream.write (out : OStream) (l : Bytes) : OStream :=
  { out with written := out.written ++ l }

def OStream.flush (out : OStream) : OStream := { out with flushed := out.written.length }

/-- `WalFileWriter<TypeEnum>`; the directory itself is kept apart. -/
structure WalFileWriter where
  filePrefix : List Char
  currentFile : FileName
  file : Option OStream
  currentSeq : UInt64
  entryCount : UInt64
  syncInterval : UInt64 := 100
  deriving DecidableEq

namespace WalFileWriter

/-- The scan of `Init` over one listing of the directory. -/
def scanStep (maxSeq : UInt64) (f : FileName × Bytes) : UInt64 :=
  if isWalFile f then
    if maxSeq < parseSeqFromFilename f.1 then getLastSeqInFile f.2 else maxSeq
  else maxSeq

/-- The `max_seq` that `Init` arrives at. -/
def scanMaxSeq (listing : Directory) : UInt64 := listing.foldl scanStep 0

/-- The open file `CreateNewFile` starts: truncated, with a header. -/
def createNewFile (filePrefix : List Char) (currentSeq now : UInt64) : WalFileWriter where
  filePrefix := filePrefix
  currentFile := walFileName filePrefix (currentSeq + 1)
  file := some ⟨WalFileHeader.toBytes { startSeq := currentSeq + 1, createTimeNs := now }, 0⟩
  currentSeq := currentSeq
  entryCount := 0

/-- `Init`, given the order in which the directory lists its files. -/
def init (filePrefix : List Char) (listing : Directory) (now : UInt64) : WalFileWriter :=
  createNewFile filePrefix (scanMaxSeq listing) now

/-- The header `Append` builds. -/
def entryHeader (w : WalFileWriter) (type : UInt16) (data : Payload) (now : UInt64) :
    WalEntryHeader where
  seq := w.currentSeq + 1
  timestampNs := now
  type := type
  dataLen := data.len
  crc32 := WalEntryHeader.calcCrc32 data.bytes

/-- `Append(type, data, len)`: the returned seq and the writer after it. `none` is
the division by zero in `entry_count_ % sync_interval_`. -/
def append (w : WalFileWriter) (type : UInt16) (data : Payload) (now : UInt64) :
    Option (UInt64 × WalFileWriter) :=
  match w.file with
  | none => some (0, w)
  | some out =>
    let header := w.entryHeader type data now
    let out := out.write header.toBytes
    let out := if 0 < data.len then out.write data.bytes else out
    let entryCount := w.entryCount + 1
    if w.syncInterval = 0 then none
    else
      let out := if entryCount % w.syncInterval = 0 then out.flush else out
      some (header.seq, { w with currentSeq := header.seq, entryCount, file := some out })

/-- `Sync()`. -/
def sync (w : WalFileWriter) : WalFileWriter := { w with file := w.file.map OStream.flush }

/-- The header `UpdateFileHeader` writes over the first 64 bytes. -/
def closingHeader (w : WalFileWriter) (now : UInt64) : WalFileHeader where
  startSeq := w.currentSeq - w.entryCount + 1
  entryCount := w.entryCount
  createTimeNs := now

/-- The content of the file after `Close()`. -/
def closedContent (w : WalFileWriter) (out : OStream) (now : UInt64) : Bytes :=
  (w.closingHeader now).toBytes ++ out.written.drop walFileHeaderSize

end WalFileWriter

-- ---------------------------------------------------------------------------
-- Sessions
-- ---------------------------------------------------------------------------

/-- Put a file into a directory, replacing one of the same name. -/
def putFile (dir : Directory) (name : FileName) (content : Bytes) : Directory :=
  dir.filter (fun f => f.1 ≠ name) ++ [(name, content)]

/-- A directory and the writer that is open on it, if any. -/
structure LogDir where
  dir : Directory
  writer : Option WalFileWriter
  deriving DecidableEq

/-- What happens to a directory: the calls of one writer after the other, and
crashes. -/
inductive Action where
  | init (listing : Directory) (now : UInt64)
  | append (type : UInt16) (data : Payload) (now : UInt64)
  | sync
  | close (now : UInt64)
  | crash (kept : Nat)

/-- One action, where it is possible: `Init` lists the files of the directory in
some order and truncates the file it opens; a crash keeps `kept` bytes of the
open file, among them all that were flushed. -/
def LogDir.step (filePrefix : List Char) (s : LogDir) : Action → Option LogDir
  | .init listing now =>
    if s.writer.isNone ∧ listing.Perm s.dir then
      let w := WalFileWriter.init filePrefix listing now
      some { dir := putFile s.dir w.currentFile [], writer := some w }
    else none
  | .append type data now => do
    let w ← s.writer
    let (_, w) ← w.append type data now
    some { s with writer := some w }
  | .sync => do
    let w ← s.writer
    some { s with writer := some w.sync }
  | .close now => do
    let w ← s.writer
    let out ← w.file
    some { dir := putFile s.dir w.currentFile (w.closedContent out now), writer := none }
  | .crash kept => do
    let w ← s.writer
    let out ← w.file
    if out.flushed ≤ kept ∧ kept ≤ out.written.length then
      some { dir := putFile s.dir w.currentFile (out.written.take kept), writer := none }
    else none

/-- A directory nothing was written to yet. -/
def LogDir.empty : LogDir := { dir := [], writer := none }

-- ---------------------------------------------------------------------------
-- What an action does
-- ---------------------------------------------------------------------------

section Steps

variable {filePrefix : List Char} {s s' : LogDir}

theorem LogDir.step_init {listing : Directory} {now : UInt64}
    (hstep : LogDir.step filePrefix s (.init listing now) = some s') :
    s.writer = none ∧ listing.Perm s.dir ∧
      s' = { dir := putFile s.dir (WalFileWriter.init filePrefix listing now).currentFile [],
             writer := some (WalFileWriter.init filePrefix listing now) } := by
  rw [LogDir.step] at hstep
  split at hstep
  case isTrue hcond =>
    obtain rfl := Option.some.inj hstep
    exact ⟨Option.isNone_iff_eq_none.mp hcond.1, hcond.2, rfl⟩
  case isFalse => simp at hstep

theorem LogDir.step_append {type : UInt16} {data : Payload} {now : UInt64}
    (hstep : LogDir.step filePrefix s (.append type data now) = some s') :
    ∃ w seq w', s.writer = some w ∧ w.append type data now = some (seq, w') ∧
      s' = { s with writer := some w' } := by
  simp only [LogDir.step, Option.bind_eq_bind, Option.bind_eq_some_iff] at hstep
  obtain ⟨w, hw, ⟨seq, w'⟩, happend, hs'⟩ := hstep
  exact ⟨w, seq, w', hw, happend, (Option.some.inj hs').symm⟩

theorem LogDir.step_sync (hstep : LogDir.step filePrefix s .sync = some s') :
    ∃ w, s.writer = some w ∧ s' = { s with writer := some w.sync } := by
  simp only [LogDir.step, Option.bind_eq_bind, Option.bind_eq_some_iff] at hstep
  obtain ⟨w, hw, hs'⟩ := hstep
  exact ⟨w, hw, (Option.some.inj hs').symm⟩

theorem LogDir.step_close {now : UInt64}
    (hstep : LogDir.step filePrefix s (.close now) = some s') :
    ∃ w out, s.writer = some w ∧ w.file = some out ∧
      s' = { dir := putFile s.dir w.currentFile (w.closedContent out now), writer := none } := by
  simp only [LogDir.step, Option.bind_eq_bind, Option.bind_eq_some_iff] at hstep
  obtain ⟨w, hw, out, hout, hs'⟩ := hstep
  exact ⟨w, out, hw, hout, (Option.some.inj hs').symm⟩

theorem LogDir.step_crash {kept : Nat}
    (hstep : LogDir.step filePrefix s (.crash kept) = some s') :
    ∃ w out, s.writer = some w ∧ w.file = some out ∧
      (out.flushed ≤ kept ∧ kept ≤ out.written.length) ∧
      s' = { dir := putFile s.dir w.currentFile (out.written.take kept), writer := none } := by
  simp only [LogDir.step, Option.bind_eq_bind, Option.bind_eq_some_iff] at hstep
  obtain ⟨w, hw, out, hout, hs'⟩ := hstep
  split at hs'
  case isTrue hkept => exact ⟨w, out, hw, hout, hkept, (Option.some.inj hs').symm⟩
  case isFalse => simp at hs'

end Steps

end Zrtools.Wal

import Zrtools.Files.Writer
import Zrtools.Lib.CStdio

/-!
# zrtools — the older files: `File` and `cfile` (`file.cpp`, `cfile.cpp`)

`File` writes with `<<` and reads line by line; `cfile` writes with `fputs` and reads with `fread`,
all of the file or a buffer full.

* `fileRoundTrip_eq`, `cfileRoundTrip_eq`, `cfileBufferRoundTrip_eq` — what is read of a string that
  was written;
* `legacy_roundTrip_iff` — when it is the string.
-/

namespace Zrtools.Files

open Getline CStdio

-- ---------------------------------------------------------------------------
-- `File`
-- ---------------------------------------------------------------------------

/-- A `std::fstream`: what it has to read, and what it has written. -/
structure FStream where
  input : Getline.Stream UInt8 := { rest := [] }
  output : Bytes := []

/-- The members of `File`; the stream, where it is open. -/
structure File where
  filename : String
  mode : Mode
  stream : Option FStream

namespace File

/-- The constructor, for a file that may not be there. -/
def init (filename : String) (mode : Mode) (disk : Option Bytes) : Except String File :=
  match mode, disk with
  | .read, none => throw ("file init failed:" ++ filename)
  | .read, some content =>
    pure { filename := filename, mode := mode, stream := some { input := { rest := content } } }
  | .write, _ => pure { filename := filename, mode := mode, stream := some {} }

/-- `read`. -/
def read (f : File) : Except String (Bytes × File) :=
  match f.stream with
  | none => throw "file is not open"
  | some stream =>
    let content := (readLines newline stream.input []).foldl
      (fun content line => content ++ line ++ [newline]) []
    pure (content, { f with
      stream := some { stream with input := { rest := [], eof := true, fail := true } } })

/-- `write`. -/
def write (f : File) (content : Bytes) : Except String File :=
  match f.stream with
  | none => throw "file is not open"
  | some stream =>
    pure { f with stream := some { stream with output := stream.output ++ content } }

/-- What a file that was written leaves behind. -/
def close (f : File) : Option Bytes := f.stream.map FStream.output

end File

-- ---------------------------------------------------------------------------
-- `cfile`
-- ---------------------------------------------------------------------------

/-- The members of `cfile`. -/
structure CFile where
  filename : String
  mode : Mode
  file : Option CStdio.Stream

namespace CFile

def init (filename : String) (mode : Mode) (disk : Option Bytes) : Except String CFile :=
  match fopen mode disk with
  | none => throw ("file init failed:" ++ filename)
  | some file => pure { filename := filename, mode := mode, file := some file }

/-- `read(char* content, size_t size)`: the bytes in the buffer. -/
def readBuffer (f : CFile) (size : Nat) : Except String (Bytes × CFile) :=
  match f.file with
  | none => throw "file is not open"
  | some file =>
    let (content, bytesRead, file) := file.fread size 1
    if bytesRead ≠ size then throw "read failed"
    else pure (content, { f with file := some file })

/-- `read(std::string& content)`. -/
def read (f : CFile) : Except String (Bytes × CFile) :=
  match f.file with
  | none => throw "file is not open"
  | some file =>
    let fileSize := file.seekEnd.position
    let (content, bytesRead, file) := file.seekEnd.seekSet.fread 1 fileSize
    if bytesRead ≠ fileSize then throw "read failed"
    else pure (content, { f with file := some file })

/-- `write(const std::string& content)`. -/
def write (f : CFile) (content : Bytes) : Except String CFile :=
  match f.file with
  | none => throw "file is not open"
  | some file => pure { f with file := some (file.fputs content) }

/-- What a file that was written leaves behind. -/
def close (f : CFile) : Option Bytes := f.file.map CStdio.Stream.content

end CFile

-- ---------------------------------------------------------------------------
-- Round trips
-- ---------------------------------------------------------------------------

variable (filename : String) (disk : Option Bytes) (s : Bytes)

/-- Writing a string with one `File`, and reading with another. -/
def fileRoundTrip : Except String Bytes := do
  let f ← File.init filename .write disk
  let f ← f.write s
  let g ← File.init filename .read f.close
  return (← g.read).1

/-- Writing a string with one `cfile`, and reading with another. -/
def cfileRoundTrip : Except String Bytes := do
  let f ← CFile.init filename .write disk
  let f ← f.write s
  let g ← CFile.init filename .read f.close
  return (← g.read).1

/-- The same with a buffer of the size of the string. -/
def cfileBufferRoundTrip : Except String Bytes := do
  let f ← CFile.init filename .write disk
  let f ← f.write s
  let g ← CFile.init filename .read f.close
  return (← g.readBuffer s.length).1

theorem foldl_lines (l : List Bytes) (content : Bytes) :
    l.foldl (fun content line => content ++ line ++ [newline]) content =
      content ++ unlines newline l := by
  induction l generalizing content with
  | nil => simp [unlines]
  | cons line l ih => rw [List.foldl_cons, ih, unlines_cons]; simp

/-- All lines are read with a newline behind them. -/
theorem fileRoundTrip_eq :
    fileRoundTrip filename disk s = .ok (unlines newline (lines newline s)) := by
  have hread : fileRoundTrip filename disk s = .ok ((lines newline s).foldl
      (fun content line => content ++ line ++ [newline]) []) := rfl
  rw [hread, foldl_lines, List.nil_append]

section Open

variable (mode : Mode) (content : Bytes)

/-- A file that has just been opened is read whole. -/
theorem read_new :
    ((CFile.mk filename mode (some { content := content })).read.bind fun r => .ok r.1) =
      .ok content := by
  have hseek : ({ content := content } : CStdio.Stream).seekEnd.seekSet = { content := content } :=
    rfl
  have hsize : ({ content := content } : CStdio.Stream).seekEnd.position = content.length := rfl
  simp only [CFile.read, hseek, hsize, Stream.fread_bytes, ne_eq, not_true_eq_false, if_false]
  rfl

/-- The one item that comes back from `fread` is compared with the size. -/
theorem readBuffer_new {size : Nat} (hsize : 0 < size) :
    ((CFile.mk filename mode (some { content := content })).readBuffer size).bind
        (fun r => .ok r.1) =
      if size = 1 ∧ content ≠ [] then .ok (content.take 1) else .error "read failed" := by
  have hitems := Stream.fread_block content hsize
  have hbytes : (({ content := content } : CStdio.Stream).fread size 1).1 = content.take size := by
    rw [CStdio.Stream.fread, List.drop_zero, Nat.mul_one]
  have hlen : content ≠ [] ↔ 1 ≤ content.length := by
    rw [Nat.succ_le_iff, List.length_pos_iff]
  simp only [CFile.readBuffer, hitems, hbytes, hlen, ne_eq]
  by_cases hone : size = 1
  · subst hone
    by_cases hcontent : 1 ≤ content.length
    · simp only [hcontent, if_true, not_true_eq_false, if_false, and_self]
      rfl
    · simp only [hcontent, if_false, and_false]
      rfl
  · have hwrong : ¬(if size ≤ content.length then 1 else 0) = size := by
      split_ifs <;> omega
    rw [if_pos hwrong, if_neg fun h => hone h.1]
    rfl

end Open

/-- What is before the first zero is written. -/
theorem cfileRoundTrip_eq : cfileRoundTrip filename disk s = .ok (s.takeWhile (· ≠ 0)) := by
  have htrip : cfileRoundTrip filename disk s =
      (CFile.mk filename .read (some
        { content := (({ content := [] } : CStdio.Stream).fputs s).content })).read.bind
          fun r => .ok r.1 := rfl
  rw [htrip, Stream.fputs_new, read_new]

theorem cfileBufferRoundTrip_eq (hs : s ≠ []) :
    cfileBufferRoundTrip filename disk s =
      if s.length = 1 ∧ s.takeWhile (· ≠ 0) ≠ [] then .ok s else .error "read failed" := by
  have htrip : cfileBufferRoundTrip filename disk s =
      ((CFile.mk filename .read (some
        { content := (({ content := [] } : CStdio.Stream).fputs s).content })).readBuffer
          s.length).bind fun r => .ok r.1 := rfl
  rw [htrip, Stream.fputs_new, readBuffer_new filename .read _ (List.length_pos_iff.mpr hs)]
  split_ifs with h
  · -- the only byte is no zero
    obtain ⟨b, rfl⟩ := List.length_eq_one_iff.mp h.1
    have hb : b ≠ 0 := fun hzero => h.2 (by simp [hzero])
    simp [hb]
  · rfl

theorem takeWhile_ne_zero_iff : s.takeWhile (· ≠ 0) = s ↔ 0 ∉ s := by
  rw [List.takeWhile_eq_self_iff]
  refine ⟨fun h hzero => of_decide_eq_true (h 0 hzero) rfl, fun h b hb => ?_⟩
  exact decide_eq_true fun heq => h (heq ▸ hb)

/-- **When the older files give back what was written.** -/
theorem legacy_roundTrip_iff :
    (fileRoundTrip filename disk s = .ok s ↔ s = [] ∨ Ended newline s) ∧
    (cfileRoundTrip filename disk s = .ok s ↔ 0 ∉ s) ∧
    (s ≠ [] → (cfileBufferRoundTrip filename disk s = .ok s ↔ s.length = 1 ∧ 0 ∉ s)) ∧
    ((fileRoundTrip filename disk s = .ok s ∧ cfileRoundTrip filename disk s = .ok s ∧
      (s ≠ [] → cfileBufferRoundTrip filename disk s = .ok s)) ↔ s = [] ∨ s = [newline]) := by
  have hfile : fileRoundTrip filename disk s = .ok s ↔ s = [] ∨ Ended newline s := by
    rw [fileRoundTrip_eq, Except.ok.injEq, unlines_lines_eq_iff]
  have hcfile : cfileRoundTrip filename disk s = .ok s ↔ 0 ∉ s := by
    rw [cfileRoundTrip_eq, Except.ok.injEq, takeWhile_ne_zero_iff]
  have hbuffer : s ≠ [] →
      (cfileBufferRoundTrip filename disk s = .ok s ↔ s.length = 1 ∧ 0 ∉ s) := by
    intro hs
    rw [cfileBufferRoundTrip_eq filename disk s hs]
    by_cases hone : s.length = 1
    · obtain ⟨b, rfl⟩ := List.length_eq_one_iff.mp hone
      by_cases hb : b = 0
      · simp [hb]
      · simp [hb, Ne.symm hb]
    · rw [if_neg fun h => hone h.1]
      exact ⟨fun h => (nomatch h), fun h => absurd h.1 hone⟩
  refine ⟨hfile, hcfile, hbuffer, ?_⟩
  rw [hfile, hcfile]
  refine ⟨fun ⟨hended, hzero, hread⟩ => ?_, ?_⟩
  · by_cases hs : s = []
    · exact .inl hs
    · -- one byte, and a newline at the end
      obtain ⟨b, rfl⟩ := List.length_eq_one_iff.mp ((hbuffer hs).mp (hread hs)).1
      simpa [Ended] using hended
  · rintro (rfl | rfl)
    · exact ⟨.inl rfl, by simp, fun h => absurd rfl h⟩
    · have hzero : (0 : UInt8) ∉ [newline] := by decide
      exact ⟨.inr (by simp [Ended]), hzero, fun h => (hbuffer h).mpr ⟨rfl, hzero⟩⟩

/-- A line without its newline is read with one, and no buffer of two bytes is read. -/
theorem legacy_roundTrip_unended :
    fileRoundTrip "out.txt" none [97, 98] = .ok [97, 98, newline] ∧
    cfileBufferRoundTrip "out.txt" none [97, 98] = .error "read failed" ∧
    ¬((∀ filename disk s, fileRoundTrip filename disk s = .ok s) ∧
      (∀ filename disk s, cfileRoundTrip filename disk s = .ok s) ∧
      ∀ filename disk s, s ≠ [] → cfileBufferRoundTrip filename disk s = .ok s) := by
  have hfile : fileRoundTrip "out.txt" none [97, 98] = .ok [97, 98, newline] := by
    rw [fileRoundTrip_eq, lines_last (by decide) (by decide)]
    rfl
  have hbuffer : cfileBufferRoundTrip "out.txt" none [97, 98] = .error "read failed" := by
    rw [cfileBufferRoundTrip_eq _ _ _ (by decide)]
    rfl
  refine ⟨hfile, hbuffer, fun ⟨hall, _, _⟩ => ?_⟩
  have heq := Except.ok.inj (hfile.symm.trans (hall "out.txt" none [97, 98]))
  exact absurd heq (by decide)

end Zrtools.Files

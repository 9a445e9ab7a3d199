import Zrtools.Lib.Getline

/-!
# zrtools — `FileWriter` (`zrt_file.h`)

A writer opens its file when the first line is written, and then appends to it or makes it empty,
as it was told. `SetHeader` writes a first line where there is no file yet.

* `openFile_isOpen`, `writeLine_isOpen`, `writeLines_isOpen` — what the file will hold, after each
  call;
* `headerLaw_iff` — when the file begins with the header.
-/

namespace Zrtools.Files

open Getline

abbrev Bytes := List UInt8

def newline : UInt8 := 10

/-- `fmt::format` without arguments, which throws for some strings. One without braces is what it
gives. -/
structure Format where
  format : Bytes → Option Bytes
  plain : ∀ s : Bytes, 123 ∉ s → 125 ∉ s → format s = some s

/-- What the writer meets: the file if there is one, its folder, and whether opening works. -/
structure Disk where
  file : Option Bytes
  parentExists : Bool
  createsParent : Bool
  opens : Bool

/-- The members of `FileWriter`. An open stream holds back what it has not written yet. -/
structure FileWriter where
  filePath : Bytes
  append : Bool := false
  stream : Option Bytes := none

-- ---------------------------------------------------------------------------
-- The code
-- ---------------------------------------------------------------------------

namespace FileWriter

def exist (k : Disk) : Bool := k.file.isSome

def ensureDir (k : Disk) : Bool × Disk :=
  if !k.parentExists then (k.createsParent, { k with parentExists := k.createsParent })
  else (true, k)

/-- The `m_file.open` of a writer, with `std::ios::app` or `std::ios::trunc`. -/
def openStream (w : FileWriter) (k : Disk) : FileWriter × Disk :=
  if k.opens then
    ({ w with stream := some [] },
      { k with file := some (if w.append then k.file.getD [] else []) })
  else (w, k)

/-- `Open`. -/
def openFile (w : FileWriter) (k : Disk) : Bool × FileWriter × Disk :=
  if w.stream.isSome then (true, w, k)
  else if w.filePath.isEmpty then (false, w, k)
  else
    let (ensured, k) := ensureDir k
    if !ensured then (false, w, k)
    else
      let (w, k) := w.openStream k
      (w.stream.isSome, w, k)

def writeLine (w : FileWriter) (k : Disk) (content : Bytes) : Bool × FileWriter × Disk :=
  let (opened, w, k) := w.openFile k
  if !opened then (false, w, k)
  else (true, { w with stream := w.stream.map (· ++ content ++ [newline]) }, k)

def writeFmt (f : Format) (w : FileWriter) (k : Disk) (content : Bytes) :
    Option (Bool × FileWriter × Disk) :=
  (f.format content).map (w.writeLine k)

def setHeader (f : Format) (w : FileWriter) (k : Disk) (content : Bytes) :
    Option (Bool × FileWriter × Disk) :=
  if !exist k then w.writeFmt f k content else some (true, w, k)

def flush (w : FileWriter) (k : Disk) : FileWriter × Disk :=
  match w.stream, k.file with
  | some held, some file => ({ w with stream := some [] }, { k with file := some (file ++ held) })
  | _, _ => (w, k)

/-- `~FileWriter`: the disk afterwards. -/
def close (w : FileWriter) (k : Disk) : Disk := (w.flush k).2

/-- Calls of `WriteLine`, one after the other. -/
def writeLines (w : FileWriter) (k : Disk) (contents : List Bytes) : FileWriter × Disk :=
  contents.foldl (fun s content => (writeLine s.1 s.2 content).2) (w, k)

/-- What the file will hold once all is written. -/
def contents (w : FileWriter) (k : Disk) : Option Bytes := k.file.map (· ++ w.stream.getD [])

-- ---------------------------------------------------------------------------
-- Calls
-- ---------------------------------------------------------------------------

/-- The writer is open, and its file will hold this. -/
def IsOpen (w : FileWriter) (k : Disk) (all : Bytes) : Prop :=
  w.stream.isSome = true ∧ w.contents k = some all

/-- What is held back comes behind what is on the disk. -/
theorem IsOpen.parts {w : FileWriter} {k : Disk} {all : Bytes} (h : IsOpen w k all) :
    ∃ held file, w.stream = some held ∧ k.file = some file ∧ file ++ held = all := by
  obtain ⟨hsome, hall⟩ := h
  obtain ⟨held, hheld⟩ := Option.isSome_iff_exists.mp hsome
  obtain ⟨file, hfile, hjoined⟩ := Option.map_eq_some_iff.mp hall
  rw [hheld, Option.getD_some] at hjoined
  exact ⟨held, file, hheld, hfile, hjoined⟩

/-- What the file holds when it has just been opened. -/
def opening (w : FileWriter) (k : Disk) : Bytes := if w.append then k.file.getD [] else []

@[simp] theorem ensureDir_file (k : Disk) : (ensureDir k).2.file = k.file := by
  unfold ensureDir
  split <;> rfl

theorem openStream_isOpen {w : FileWriter} {k : Disk} (hclosed : w.stream = none)
    (hopen : (w.openStream k).1.stream.isSome = true) :
    IsOpen (w.openStream k).1 (w.openStream k).2 (w.opening k) := by
  unfold openStream at hopen ⊢
  split
  · refine ⟨rfl, ?_⟩
    simp only [contents, Option.map_some, Option.getD_some, List.append_nil]
    rfl
  · rename_i hfails
    rw [if_neg hfails, hclosed] at hopen
    cases hopen

theorem openFile_isOpen {w : FileWriter} {k : Disk} (hclosed : w.stream = none)
    (hopen : (w.openFile k).1 = true) :
    IsOpen (w.openFile k).2.1 (w.openFile k).2.2 (w.opening k) := by
  have hnone : ¬w.stream.isSome = true := by simp [hclosed]
  have hopening : w.opening (ensureDir k).2 = w.opening k := by
    rw [opening, ensureDir_file]
    rfl
  unfold openFile at hopen ⊢
  rw [if_neg hnone] at hopen ⊢
  split
  · rename_i hpath
    rw [if_pos hpath] at hopen
    cases hopen
  · rename_i hpath
    rw [if_neg hpath] at hopen
    cases hensured : (ensureDir k).1 with
    | false =>
      simp only [hensured, Bool.not_false, if_true] at hopen
      cases hopen
    | true =>
      simp only [hensured, Bool.not_true, Bool.false_eq_true, if_false] at hopen ⊢
      rw [← hopening]
      exact openStream_isOpen hclosed hopen

theorem openFile_of_isOpen {w : FileWriter} {k : Disk} {all : Bytes} (h : IsOpen w k all) :
    w.openFile k = (true, w, k) := by
  rw [openFile, if_pos h.1]

/-- Once the file is open, a line comes behind what it will hold. -/
theorem writeLine_of_openFile {w : FileWriter} {k : Disk} {all : Bytes}
    (hopened : (w.openFile k).1 = true)
    (h : IsOpen (w.openFile k).2.1 (w.openFile k).2.2 all) (content : Bytes) :
    (w.writeLine k content).1 = true ∧
      IsOpen (w.writeLine k content).2.1 (w.writeLine k content).2.2
        (all ++ (content ++ [newline])) := by
  obtain ⟨held, file, hheld, hfile, hjoined⟩ := h.parts
  have hwrite : w.writeLine k content = (true, { (w.openFile k).2.1 with
      stream := some (held ++ content ++ [newline]) }, (w.openFile k).2.2) := by
    simp only [writeLine, hopened, Bool.not_true, Bool.false_eq_true, if_false, hheld,
      Option.map_some]
  rw [hwrite]
  refine ⟨rfl, rfl, ?_⟩
  rw [contents, hfile, Option.map_some, Option.getD_some, ← hjoined]
  simp only [List.append_assoc]

theorem writeLine_isOpen {w : FileWriter} {k : Disk} {all : Bytes} (h : IsOpen w k all)
    (content : Bytes) :
    IsOpen (w.writeLine k content).2.1 (w.writeLine k content).2.2
      (all ++ (content ++ [newline])) := by
  refine (writeLine_of_openFile ?_ ?_ content).2
  · rw [openFile_of_isOpen h]
  · rw [openFile_of_isOpen h]
    exact h

/-- All lines come behind what the file will hold. -/
theorem writeLines_isOpen {w : FileWriter} {k : Disk} {all : Bytes} (h : IsOpen w k all)
    (contents : List Bytes) :
    IsOpen (w.writeLines k contents).1 (w.writeLines k contents).2
      (all ++ unlines newline contents) := by
  induction contents generalizing w k all with
  | nil =>
    have hnone : all ++ unlines newline [] = all := List.append_nil all
    rw [hnone]
    exact h
  | cons content contents ih =>
    have hrest := ih (writeLine_isOpen h content)
    rw [unlines, List.flatMap_cons, ← List.append_assoc]
    exact hrest

/-- All is on the disk in the end. -/
theorem close_file {w : FileWriter} {k : Disk} {all : Bytes} (h : IsOpen w k all) :
    (w.close k).file = some all := by
  obtain ⟨held, file, hheld, hfile, hjoined⟩ := h.parts
  simp only [close, flush, hheld, hfile, hjoined]

-- ---------------------------------------------------------------------------
-- The header
-- ---------------------------------------------------------------------------

/-- Where there is no file, the header is its first line. -/
theorem setHeader_absent (f : Format) {w : FileWriter} {k : Disk} {h : Bytes}
    (hplain : 123 ∉ h ∧ 125 ∉ h) (hclosed : w.stream = none) (hopen : (w.openFile k).1 = true)
    (hfile : k.file = none) :
    ∃ w' k', w.setHeader f k h = some (true, w', k') ∧ IsOpen w' k' (h ++ [newline]) := by
  obtain ⟨hdone, hwritten⟩ := writeLine_of_openFile hopen (openFile_isOpen hclosed hopen) h
  have hempty : w.opening k = [] := by
    rw [opening, hfile]
    exact ite_self _
  rw [hempty, List.nil_append] at hwritten
  refine ⟨_, _, ?_, hwritten⟩
  rw [setHeader, exist, hfile, writeFmt, f.plain h hplain.1 hplain.2, Option.map_some,
    Option.isSome_none, Bool.not_false, if_pos rfl, ← hdone]

theorem setHeader_present (f : Format) (w : FileWriter) {k : Disk} {c : Bytes} (h : Bytes)
    (hfile : k.file = some c) : w.setHeader f k h = some (true, w, k) := by
  rw [setHeader, exist, hfile]
  rfl

/-- What is asked of `SetHeader` and the lines that are written after it: at most the header was
added, and in the end the file begins with it and ends with the lines. -/
def HeaderLaw (f : Format) (w : FileWriter) (k : Disk) (h : Bytes) (written : List Bytes) : Prop :=
  ∃ w' k', w.setHeader f k h = some (true, w', k') ∧
    (w'.contents k' = w.contents k ∨
      w.contents k = none ∧ w'.contents k' = some (h ++ [newline])) ∧
    ∃ c, ((w'.writeLines k' written).1.close (w'.writeLines k' written).2).file = some c ∧
      (lines newline c).head? = some h ∧
      lines newline (unlines newline written) <:+ lines newline c

/-- There is no file yet; or the lines come behind whole lines; or the file is made empty, and the
first of the lines is the header. -/
def HeaderKept (append : Bool) (k : Disk) (h first : Bytes) : Prop :=
  ∀ c, k.file = some c →
    if append then Ended newline c else first.takeWhile (· ≠ newline) = h

theorem head?_written (first : Bytes) (rest : List Bytes) :
    (lines newline (unlines newline (first :: rest))).head? =
      some (first.takeWhile (· ≠ newline)) := by
  rw [unlines_cons, head?_lines]

theorem ended_written (first : Bytes) (rest : List Bytes) :
    Ended newline (unlines newline (first :: rest)) := by
  refine (unlines_ended (first :: rest)).resolve_left ?_
  rw [unlines_cons]
  simp

/-- The first of the lines opens the file. -/
theorem writeLines_closed {w : FileWriter} {k : Disk} (hclosed : w.stream = none)
    (hopen : (w.openFile k).1 = true) (first : Bytes) (rest : List Bytes) :
    IsOpen (w.writeLines k (first :: rest)).1 (w.writeLines k (first :: rest)).2
      (w.opening k ++ unlines newline (first :: rest)) := by
  obtain ⟨-, hfirst⟩ := writeLine_of_openFile hopen (openFile_isOpen hclosed hopen) first
  have hall := writeLines_isOpen hfirst rest
  rw [List.append_assoc] at hall
  exact hall

theorem headerLaw_absent (f : Format) {w : FileWriter} {k : Disk} {h : Bytes}
    (hline : newline ∉ h) (hplain : 123 ∉ h ∧ 125 ∉ h) (hclosed : w.stream = none)
    (hopen : (w.openFile k).1 = true) (hfile : k.file = none) (first : Bytes)
    (rest : List Bytes) : HeaderLaw f w k h (first :: rest) := by
  obtain ⟨w', k', hset, hheader⟩ := setHeader_absent f hplain hclosed hopen hfile
  have hnone : w.contents k = none := by rw [contents, hfile, Option.map_none]
  refine ⟨w', k', hset, Or.inr ⟨hnone, hheader.2⟩, _,
    close_file (writeLines_isOpen hheader (first :: rest)), ?_, ?_⟩
  · rw [List.append_assoc, List.singleton_append, head?_lines,
      List.takeWhile_eq_self_iff.mpr (ne_of_not_mem hline)]
  · refine (lines_suffix_append_iff (ended_written first rest) _).mpr (Or.inr ?_)
    exact (ended_append_cons h []).mpr (Or.inl rfl)

/-- Where there is a file, the header is not written. -/
theorem headerLaw_present_iff (f : Format) {w : FileWriter} {k : Disk} {c : Bytes} (h : Bytes)
    (hclosed : w.stream = none) (hopen : (w.openFile k).1 = true) (hfile : k.file = some c)
    (first : Bytes) (rest : List Bytes) :
    HeaderLaw f w k h (first :: rest) ↔
      (lines newline (w.opening k ++ unlines newline (first :: rest))).head? = some h ∧
        (w.opening k = [] ∨ Ended newline (w.opening k)) := by
  have hset := setHeader_present f w h hfile
  have hclose := close_file (writeLines_closed hclosed hopen first rest)
  rw [← lines_suffix_append_iff (ended_written first rest)]
  refine ⟨?_, fun ⟨hfirst, hlast⟩ => ⟨w, k, hset, Or.inl rfl, _, hclose, hfirst, hlast⟩⟩
  rintro ⟨w', k', hset', -, c', hclose', hfirst, hlast⟩
  rw [hset] at hset'
  cases hset'
  rw [hclose, Option.some.injEq] at hclose'
  rw [hclose']
  exact ⟨hfirst, hlast⟩

/-- **When the file begins with its header** and ends with the lines. -/
theorem headerLaw_iff (f : Format) (path : Bytes) (append : Bool) {k : Disk} {h : Bytes}
    (hline : newline ∉ h) (hplain : 123 ∉ h ∧ 125 ∉ h)
    (hopen : (openFile { filePath := path, append := append } k).1 = true)
    (hheader : ∀ c, k.file = some c → (lines newline c).head? = some h)
    (first : Bytes) (rest : List Bytes) :
    HeaderLaw f { filePath := path, append := append } k h (first :: rest) ↔
      HeaderKept append k h first := by
  cases hfile : k.file with
  | none =>
    refine iff_of_true (headerLaw_absent f hline hplain rfl hopen hfile first rest) ?_
    intro c hc
    rw [hfile] at hc
    cases hc
  | some c =>
    have hkept : HeaderKept append k h first ↔
        if append then Ended newline c else first.takeWhile (· ≠ newline) = h := by
      simp [HeaderKept, hfile]
    rw [headerLaw_present_iff f h rfl hopen hfile, hkept, opening, hfile, Option.getD_some]
    cases append with
    | true =>
      have hne : c ≠ [] := by
        rintro rfl
        simpa using hheader [] hfile
      simp only [if_true, hne, false_or]
      refine ⟨And.right, fun hended => ⟨?_, hended⟩⟩
      rw [lines_append (Or.inr hended), List.head?_append, hheader c hfile, Option.some_or]
    | false =>
      simp only [Bool.false_eq_true, if_false, List.nil_append, true_or, and_true]
      rw [head?_written, Option.some.injEq]

/-- Strings without braces are what they give. -/
def plainFormat : Format where
  format s := if 123 ∉ s ∧ 125 ∉ s then some s else none
  plain _ h h' := if_pos ⟨h, h'⟩

/-- A folder that is there. -/
def diskWith (file : Option Bytes) : Disk where
  file := file
  parentExists := true
  createsParent := false
  opens := true

/-- The header "ab", a file that has it and the line "1", and the line "2". -/
theorem headerLaw_appended :
    HeaderLaw plainFormat { filePath := [102], append := true }
      (diskWith (some [97, 98, 10, 49, 10])) [97, 98] [[50]] := by
  refine (headerLaw_iff plainFormat [102] true (by decide) (by decide) rfl ?_ [50] []).mpr ?_
  · rintro c hc
    obtain rfl := Option.some.inj hc
    exact head?_lines [97, 98] [49, 10]
  · rintro c hc
    obtain rfl := Option.some.inj hc
    rfl

/-- The same file, and a writer that makes it empty: the header is lost. -/
theorem headerLaw_truncated :
    ¬∀ (f : Format) (path : Bytes) (append : Bool) (k : Disk) (h : Bytes),
      newline ∉ h → 123 ∉ h ∧ 125 ∉ h →
      (openFile { filePath := path, append := append } k).1 = true →
      (∀ c, k.file = some c → (lines newline c).head? = some h) →
      ∀ (first : Bytes) (rest : List Bytes),
        HeaderLaw f { filePath := path, append := append } k h (first :: rest) := by
  intro hall
  have hlaw := hall plainFormat [102] false (diskWith (some [97, 98, 10, 49, 10])) [97, 98]
    (by decide) (by decide) rfl ?_ [50] []
  · rw [headerLaw_present_iff plainFormat [97, 98] rfl rfl rfl] at hlaw
    have hfirst := hlaw.1
    have hopening : opening { filePath := [102] } (diskWith (some [97, 98, 10, 49, 10])) = [] := rfl
    rw [hopening, List.nil_append, head?_written] at hfirst
    exact absurd hfirst (by decide)
  · rintro c hc
    obtain rfl := Option.some.inj hc
    exact head?_lines [97, 98] [49, 10]

end FileWriter

end Zrtools.Files

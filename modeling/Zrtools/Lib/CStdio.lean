import Mathlib.Data.List.TakeWhile
import Mathlib.Tactic.Common

/-!
# Files of the C library

A file that is open has a content and a position in it. `fread` reads so many items of so many
bytes each and returns how many items there were; `fputs` writes a C string, which ends before its
first zero.

* `fputs_new` — what a new file holds afterwards;
* `fread_bytes`, `fread_block` — reading a file byte by byte, or as one item.
-/

namespace CStdio

/-- A `FILE`. -/
structure Stream where
  content : List UInt8
  position : Nat := 0

inductive Mode
  | read
  | write
deriving DecidableEq

/-- `fopen` of a file that may not be there. Writing begins with an empty one. -/
def fopen (mode : Mode) (disk : Option (List UInt8)) : Option Stream :=
  match mode with
  | .read => disk.map fun content => { content := content }
  | .write => some { content := [] }

namespace Stream

/-- `fseek(file, 0, SEEK_END)`. -/
def seekEnd (f : Stream) : Stream := { f with position := f.content.length }

/-- `fseek(file, 0, SEEK_SET)`. -/
def seekSet (f : Stream) : Stream := { f with position := 0 }

/-- `fread`: the bytes it stores, and the number of items that it returns. -/
def fread (size count : Nat) (f : Stream) : List UInt8 × Nat × Stream :=
  let bytes := (f.content.drop f.position).take (size * count)
  (bytes, bytes.length / size, { f with position := f.position + bytes.length })

/-- `fputs`. -/
def fputs (s : List UInt8) (f : Stream) : Stream :=
  let text := s.takeWhile (· ≠ 0)
  { content := f.content.take f.position ++ text ++ f.content.drop (f.position + text.length)
    position := f.position + text.length }

theorem fputs_new (s : List UInt8) :
    ({ content := [] } : Stream).fputs s =
      { content := s.takeWhile (· ≠ 0), position := (s.takeWhile (· ≠ 0)).length } := by
  simp [fputs]

/-- All of a file, in items of one byte. -/
theorem fread_bytes (content : List UInt8) :
    ({ content := content } : Stream).fread 1 content.length =
      (content, content.length, { content := content, position := content.length }) := by
  simp [fread]

/-- One item: it is there, or the file is too short. -/
theorem fread_block (content : List UInt8) {size : Nat} (hsize : 0 < size) :
    (({ content := content } : Stream).fread size 1).2.1 =
      if size ≤ content.length then 1 else 0 := by
  simp only [fread, List.drop_zero, Nat.mul_one, List.length_take]
  split_ifs with h
  · rw [Nat.min_eq_left h, Nat.div_self hsize]
  · rw [Nat.min_eq_right (Nat.le_of_not_le h), Nat.div_eq_of_lt (Nat.lt_of_not_le h)]

end Stream

end CStdio

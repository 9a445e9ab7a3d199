import Zrtools.Lib.CString

/-!
# zrtools — `fill_field` for texts (`zrt_fill.h`)

A `char[N]` is filled with what fits of a text. Each kind of text has an overload of its own, which
looks for the end in its own way.

* `fills_array`, `holds_sized` — what the overloads leave in the field;
* `reads_view_iff` — when a view is not read past its end;
* `fillField_iff` — when the field is filled and nothing else is touched.
-/

namespace Zrtools.Fill

open ByteMemory CString

-- ---------------------------------------------------------------------------
-- Texts
-- ---------------------------------------------------------------------------

/-- A text in memory, from its first byte on: a `char[M]` with a zero in it, a `std::string`, which
has a zero behind it, or a `StrView`. -/
inductive Source
  | array (capacity : Nat) (mem : Mem) (terminated : 0 ∈ slice mem 0 capacity)
  | string (size : Nat) (mem : Mem) (terminated : mem size = 0)
  | view (size : Nat) (mem : Mem)

namespace Source

def mem : Source → Mem
  | array _ mem _ => mem
  | string _ mem _ => mem
  | view _ mem => mem

/-- The bytes that it is given with. -/
def size : Source → Nat
  | array capacity _ _ => capacity
  | string size _ _ => size
  | view size _ => size

/-- The characters up to the first zero. -/
def chars (src : Source) : List UInt8 := text src.size src.mem

/-- A character of the source, or its terminator. A view has none. -/
def Readable (src : Source) (i : Nat) : Prop :=
  match src with
  | array .. => i ≤ src.chars.length
  | string size _ _ => i ≤ size
  | view size _ => i < size

end Source

-- ---------------------------------------------------------------------------
-- The code
-- ---------------------------------------------------------------------------

/-- `fill_field(char(&dst)[N], const char(&src)[M])`. -/
def fillFieldCstr (n m : Nat) (c : Copying) : Copying :=
  let minSz := min n m - 1
  let (copyLen, c) := c.strnlen minSz
  (c.memcpy copyLen).store copyLen 0

/-- What the two other overloads do with the size of their texts. -/
def fillFieldSized (n size : Nat) (c : Copying) : Copying :=
  let minSz := min n (size + 1)
  (c.strncpy minSz).store (minSz - 1) 0

/-- `fill_field(char(&dst)[N], const std::string& src)`. -/
def fillFieldStr (n size : Nat) (c : Copying) : Copying := fillFieldSized n size c

/-- `fill_field(char(&dst)[N], const zrt::StrView src)`. -/
def fillFieldView (n size : Nat) (c : Copying) : Copying := fillFieldSized n size c

/-- The overload for a text, and a field in memory. -/
def fillField (n : Nat) (dst : Mem) : Source → Copying
  | .array capacity mem _ => fillFieldCstr n capacity { src := mem, dst := dst }
  | .string size mem _ => fillFieldStr n size { src := mem, dst := dst }
  | .view size mem => fillFieldView n size { src := mem, dst := dst }

-- ---------------------------------------------------------------------------
-- The field
-- ---------------------------------------------------------------------------

/-- What is asked of the field: it holds what fits of the text and a zero, nothing outside of it is
written, and nothing is read but the text. -/
structure Fills (n : Nat) (dst : Mem) (src : Source) (c : Copying) : Prop where
  holds : Holds c.dst (src.chars.take (n - 1))
  inside : ∀ i ∈ c.writes, i < n
  framed : Framed dst c
  readable : ∀ i ∈ c.reads, src.Readable i

variable {n : Nat} (dst : Mem)

theorem fills_array (hn : 1 ≤ n) {capacity : Nat} {mem : Mem}
    (terminated : 0 ∈ slice mem 0 capacity) :
    Fills n dst (.array capacity mem terminated)
      (fillField n dst (.array capacity mem terminated)) := by
  have hlen : (text capacity mem).length < capacity :=
    (length_text_lt_self_iff capacity mem).mpr terminated
  -- what fits of both buffers is what fits of the text
  have hshort : text (min n capacity - 1) mem = (text capacity mem).take (n - 1) := by
    rw [← text_take mem (show min n capacity - 1 ≤ capacity by omega), List.take_eq_take_iff]
    omega
  have hle := length_text_le (min n capacity - 1) mem
  have hchars : (text (min n capacity - 1) mem).length ≤ (text capacity mem).length := by
    rw [hshort]
    exact List.length_take_le' ..
  refine ⟨?_, ?_, ?_, ?_⟩
  · have hholds := holds_memcpy (text (min n capacity - 1) mem).length
      (Copying.strnlen (min n capacity - 1) { src := mem, dst := dst }).2
    have hcopied : slice mem 0 (text (min n capacity - 1) mem).length =
        (text capacity mem).take (n - 1) := by rw [slice_length_text, hshort]
    exact hcopied ▸ hholds
  · intro i hi
    have hwrites : i ∈ ([] ++ List.range (text (min n capacity - 1) mem).length) ++
        [(text (min n capacity - 1) mem).length] := hi
    simp only [List.nil_append, List.mem_append, List.mem_range, List.mem_singleton] at hwrites
    omega
  · exact framed_store (framed_memcpy _ (framed_strnlen _ fun _ _ => rfl)) _ 0
  · intro i hi
    have hreads : i ∈ ([] ++ List.range (min (min n capacity - 1)
        ((text (min n capacity - 1) mem).length + 1))) ++
          List.range (text (min n capacity - 1) mem).length := hi
    simp only [List.nil_append, List.mem_append, List.mem_range] at hreads
    have hread : i ≤ (text capacity mem).length := by omega
    exact hread

section Sized

variable (size : Nat) (mem : Mem)

theorem holds_sized (hn : 1 ≤ n) :
    Holds (fillFieldSized n size { src := mem, dst := dst }).dst
      ((text size mem).take (n - 1)) := by
  have hholds := holds_strncpy (min n (size + 1)) { src := mem, dst := dst } (by omega)
  have hshort : (text (min n (size + 1)) mem).take (min n (size + 1) - 1) =
      (text size mem).take (n - 1) := by
    have hle := length_text_le size mem
    rw [text_take mem (Nat.sub_le _ 1), ← text_take mem (show min n (size + 1) - 1 ≤ size by omega),
      List.take_eq_take_iff]
    omega
  exact hshort ▸ hholds

theorem inside_sized (hn : 1 ≤ n) :
    ∀ i ∈ (fillFieldSized n size { src := mem, dst := dst }).writes, i < n := by
  intro i hi
  have hwrites : i ∈ ([] ++ List.range (min n (size + 1))) ++ [min n (size + 1) - 1] := hi
  simp only [List.nil_append, List.mem_append, List.mem_range, List.mem_singleton] at hwrites
  omega

theorem framed_sized : Framed dst (fillFieldSized n size { src := mem, dst := dst }) :=
  framed_store (framed_strncpy _ fun _ _ => rfl) _ 0

theorem mem_reads_sized (i : Nat) :
    i ∈ (fillFieldSized n size { src := mem, dst := dst }).reads ↔
      i < min n (size + 1) ∧ i ≤ (text (min n (size + 1)) mem).length := by
  have hreads : (fillFieldSized n size { src := mem, dst := dst }).reads =
      [] ++ List.range (min (min n (size + 1)) ((text (min n (size + 1)) mem).length + 1)) := rfl
  rw [hreads, List.nil_append, List.mem_range]
  omega

/-- A view is read up to its first zero, or one byte too far. -/
theorem reads_view_iff :
    (∀ i ∈ (fillFieldSized n size { src := mem, dst := dst }).reads, i < size) ↔
      n ≤ size ∨ 0 ∈ slice mem 0 size := by
  simp only [mem_reads_sized]
  rcases Nat.lt_or_ge size n with hfits | hfull
  · have hmin : min n (size + 1) = size + 1 := by omega
    rw [hmin, or_iff_right (Nat.not_le.mpr hfits),
      ← length_text_lt_iff mem (Nat.le_add_right size 1)]
    refine ⟨?_, ?_⟩
    · intro h
      by_contra hlong
      exact Nat.lt_irrefl size (h size ⟨Nat.lt_succ_self size, not_lt.mp hlong⟩)
    · intro h i hi
      omega
  · refine iff_of_true (fun i hi => ?_) (Or.inl hfull)
    omega

end Sized

/-- **When a field is filled**: always, but for a view that is shorter than the field and has no
zero in it, which is read past its end. -/
theorem fillField_iff (hn : 1 ≤ n) (src : Source) :
    Fills n dst src (fillField n dst src) ↔
      ∀ size mem, src = .view size mem → n ≤ size ∨ 0 ∈ slice mem 0 size := by
  cases src with
  | array capacity mem terminated =>
    refine iff_of_true (fills_array dst hn terminated) ?_
    rintro size mem ⟨⟩
  | string size mem terminated =>
    refine iff_of_true ⟨holds_sized dst size mem hn, inside_sized dst size mem hn,
      framed_sized dst size mem, fun i hi => ?_⟩ ?_
    · have hread := (mem_reads_sized dst size mem i).mp hi
      have hle : i ≤ size := by omega
      exact hle
    · rintro size mem ⟨⟩
  | view size mem =>
    refine ⟨?_, ?_⟩
    · intro h size' mem' heq
      obtain ⟨rfl, rfl⟩ := Source.view.inj heq
      exact (reads_view_iff dst size mem).mp h.readable
    · intro h
      exact ⟨holds_sized dst size mem hn, inside_sized dst size mem hn, framed_sized dst size mem,
        (reads_view_iff dst size mem).mpr (h size mem rfl)⟩

/-- Memory that begins with "abc". -/
def letters : Mem := fun i => if i < 3 then UInt8.ofNat (97 + i) else 100

/-- A view of "abc" and a field of three bytes, which holds "ab". -/
theorem fillField_cut :
    Fills 3 (fun _ => 1) (.view 3 letters) (fillField 3 (fun _ => 1) (.view 3 letters)) := by
  refine (fillField_iff (fun _ => 1) (by decide) (.view 3 letters)).mpr ?_
  rintro size mem heq
  obtain ⟨rfl, rfl⟩ := Source.view.inj heq
  exact Or.inl (Nat.le_refl 3)

/-- A view of "abc" and a field of eight bytes: the byte behind the view is read. -/
theorem fillField_overread :
    ¬∀ (n : Nat) (dst : Mem) (src : Source), 1 ≤ n → Fills n dst src (fillField n dst src) := by
  intro h
  have hread := (h 8 (fun _ => 1) (.view 3 letters) (by decide)).readable
  have hlt : ∀ i ∈ (fillFieldSized 8 3 { src := letters, dst := fun _ => 1 }).reads, i < 3 := hread
  exact absurd (hlt 3 (by decide)) (by decide)

end Zrtools.Fill

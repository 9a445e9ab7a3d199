import Zrtools.Lib.ReflectedCrc

/-!
# Short bursts in a table-driven CRC

The loop over a table may use any words, as long as no two of them have the same top byte.
The top byte of a register then tells which word was looked up last, and so, going back
over at most as many bytes as the register has, which words were looked up before. No two
messages of that length lead from one register to the same one, and bytes that follow
keep two registers apart.

* `eq_of_tableRegister_eq` — short messages from the same register;
* `tableRegister_injective` — the same message from two registers;
* `tableRegister_burst_ne` — messages that differ in a short burst;
* `tableRegister_window_ne` — the same for a window that all changed positions lie in.
-/

namespace ReflectedCrc

variable {w : Nat} {T : BitVec 8 → BitVec w}

/-- The top byte of a register. -/
def topByte (r : BitVec w) : BitVec 8 := (r >>> (w - 8)).setWidth 8

/-- No two words have the same top byte. -/
def TopDistinct (T : BitVec 8 → BitVec w) : Prop := Function.Injective fun i => topByte (T i)

theorem topByte_xor (x y : BitVec w) : topByte (x ^^^ y) = topByte x ^^^ topByte y := by
  rw [topByte, BitVec.ushiftRight_xor_distrib, BitVec.setWidth_xor, topByte, topByte]

/-- What is shifted in from above is zero. -/
theorem topByte_lookup (t r : BitVec w) : topByte (t ^^^ (r >>> 8)) = topByte t := by
  have hzero : r >>> 8 >>> (w - 8) = 0#w := by
    rw [← BitVec.shiftRight_add]
    exact BitVec.ushiftRight_eq_zero (by omega)
  rw [topByte, BitVec.ushiftRight_xor_distrib, hzero, BitVec.xor_zero, topByte]

/-- The top byte is among the bits from `c` on. -/
theorem topByte_congr {r r' : BitVec w} {c : Nat} (hc : c + 8 ≤ w) (h : r >>> c = r' >>> c) :
    topByte r = topByte r' := by
  have hsplit : w - 8 = c + (w - 8 - c) := by omega
  rw [topByte, topByte, hsplit, BitVec.shiftRight_add, BitVec.shiftRight_add, h]

theorem xor_left_cancel {x y z : BitVec w} (h : x ^^^ y = x ^^^ z) : y = z := by
  have hxor := congrArg (x ^^^ ·) h
  simpa [← BitVec.xor_assoc] using hxor

/-- The words that the loop looks up. -/
def indices (T : BitVec 8 → BitVec w) : BitVec w → List (BitVec 8) → List (BitVec 8)
  | _, [] => []
  | r, b :: rest => index r b :: indices T (T (index r b) ^^^ (r >>> 8)) rest

/-- The register after a message tells which words were looked up, as far back as it has
bytes. -/
theorem indices_eq (hT : TopDistinct T) {m m' : List (BitVec 8)} {r r' : BitVec w} {c : Nat}
    (hlen : m.length = m'.length) (hfits : c + 8 * m.length ≤ w)
    (h : tableRegister T r m >>> c = tableRegister T r' m' >>> c) :
    indices T r m = indices T r' m' ∧
      r >>> (c + 8 * m.length) = r' >>> (c + 8 * m.length) := by
  induction m generalizing m' r r' with
  | nil =>
    obtain rfl := List.eq_nil_of_length_eq_zero hlen.symm
    exact ⟨rfl, h⟩
  | cons b rest ih =>
    obtain ⟨b', rest', rfl⟩ := List.exists_cons_of_length_eq_add_one hlen.symm
    simp only [List.length_cons, Nat.add_right_cancel_iff] at hlen hfits
    obtain ⟨hrest, hhigh⟩ := ih hlen (by omega) h
    -- the last word looked up shows in the top byte
    have htop := topByte_congr (by omega) hhigh
    rw [topByte_lookup, topByte_lookup] at htop
    have hindex : index r b = index r' b' := hT htop
    rw [indices, indices, hrest, hindex]
    refine ⟨rfl, ?_⟩
    have hstep : (T (index r' b') ^^^ (r >>> 8)) >>> (c + 8 * rest.length) =
        (T (index r' b') ^^^ (r' >>> 8)) >>> (c + 8 * rest'.length) := by
      rw [← hlen]
      simpa only [hindex] using hhigh
    rw [← hlen, BitVec.ushiftRight_xor_distrib, BitVec.ushiftRight_xor_distrib] at hstep
    have hshift := xor_left_cancel hstep
    rw [← BitVec.shiftRight_add, ← BitVec.shiftRight_add] at hshift
    have hsum : c + 8 * (b :: rest).length = 8 + (c + 8 * rest.length) := by
      rw [List.length_cons]
      omega
    rw [hsum]
    exact hshift

/-- From one register, the words looked up tell the message. -/
theorem eq_of_indices_eq {m m' : List (BitVec 8)} {r : BitVec w}
    (h : indices T r m = indices T r m') : m = m' := by
  induction m generalizing m' r with
  | nil =>
    cases m' with
    | nil => rfl
    | cons b' rest' => cases h
  | cons b rest ih =>
    cases m' with
    | nil => cases h
    | cons b' rest' =>
      obtain ⟨hindex, hrest⟩ := List.cons.inj h
      have hbyte : b = b' := xor_left_cancel hindex
      subst hbyte
      rw [ih hrest]

/-- **Short messages** from one register end in different ones. -/
theorem eq_of_tableRegister_eq (hT : TopDistinct T) {m m' : List (BitVec 8)} {r : BitVec w}
    (hlen : m.length = m'.length) (hfits : 8 * m.length ≤ w)
    (h : tableRegister T r m = tableRegister T r m') : m = m' := by
  have hshift : tableRegister T r m >>> 0 = tableRegister T r m' >>> 0 := by rw [h]
  exact eq_of_indices_eq (indices_eq hT hlen (by omega) hshift).1

/-- **Later bytes** keep two registers apart. -/
theorem tableRegister_injective (hT : TopDistinct T) (m : List (BitVec 8)) :
    Function.Injective fun r => tableRegister T r m := by
  induction m with
  | nil => exact fun _ _ h => h
  | cons b rest ih =>
    intro r r' h
    have hstep : T (index r b) ^^^ (r >>> 8) = T (index r' b) ^^^ (r' >>> 8) := ih h
    have htop := congrArg topByte hstep
    rw [topByte_lookup, topByte_lookup] at htop
    have hindex : index r b = index r' b := hT htop
    rw [hindex] at hstep
    have hlow : r.setWidth 8 = r'.setWidth 8 := by
      rw [index, index, BitVec.xor_comm, BitVec.xor_comm (r'.setWidth 8)] at hindex
      exact xor_left_cancel hindex
    rw [low_byte_split r, low_byte_split r', xor_left_cancel hstep, hlow]

theorem tableRegister_append (r : BitVec w) (m m' : List (BitVec 8)) :
    tableRegister T r (m ++ m') = tableRegister T (tableRegister T r m) m' :=
  List.foldl_append

/-- **Short bursts.** Messages that differ in at most as many bytes in a row as the register
has end in different registers. -/
theorem tableRegister_burst_ne (hT : TopDistinct T) {mid mid' : List (BitVec 8)}
    (hlen : mid.length = mid'.length) (hshort : 8 * mid.length ≤ w) (hne : mid ≠ mid')
    (r : BitVec w) (front back : List (BitVec 8)) :
    tableRegister T r (front ++ mid ++ back) ≠ tableRegister T r (front ++ mid' ++ back) := by
  intro h
  rw [tableRegister_append, tableRegister_append, tableRegister_append, tableRegister_append] at h
  exact hne (eq_of_tableRegister_eq hT hlen hshort (tableRegister_injective hT back h))

/-- Two lists that agree outside a window, cut at its ends. -/
theorem split_of_window {α : Type*} {m m' : List α} {off n : Nat}
    (h : ∀ i, m[i]? ≠ m'[i]? → off ≤ i ∧ i < off + n) :
    m' = m.take off ++ (m'.drop off).take n ++ m.drop (off + n) := by
  have hfront : m'.take off = m.take off := by
    refine List.ext_getElem? fun i => ?_
    simp only [List.getElem?_take]
    split
    · by_contra hne
      have hin := h i (Ne.symm hne)
      omega
    · rfl
  have hback : m'.drop (off + n) = m.drop (off + n) := by
    refine List.ext_getElem? fun i => ?_
    simp only [List.getElem?_drop]
    by_contra hne
    have hin := h (off + n + i) (Ne.symm hne)
    omega
  rw [← hfront, ← hback, List.append_assoc, ← List.drop_drop, List.take_append_drop,
    List.take_append_drop]

/-- **Changes inside a window** of as many bytes as the register has change the register. -/
theorem tableRegister_window_ne (hT : TopDistinct T) {m m' : List (BitVec 8)} {off n : Nat}
    (hlen : m.length = m'.length) (hshort : 8 * n ≤ w)
    (hwindow : ∀ i, m[i]? ≠ m'[i]? → off ≤ i ∧ i < off + n) (hne : m ≠ m') (r : BitVec w) :
    tableRegister T r m ≠ tableRegister T r m' := by
  have hsplit : m = m.take off ++ (m.drop off).take n ++ m.drop (off + n) :=
    split_of_window fun i hi => (hi rfl).elim
  have hsplit' := split_of_window hwindow
  have hmid : (m.drop off).take n ≠ (m'.drop off).take n := by
    intro heq
    rw [← heq, ← hsplit] at hsplit'
    exact hne hsplit'.symm
  rw [hsplit, hsplit']
  refine tableRegister_burst_ne hT ?_ ?_ hmid r _ _
  · simp [hlen]
  · have := List.length_take_le n (m.drop off)
    omega

end ReflectedCrc

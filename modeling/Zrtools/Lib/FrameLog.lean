import Mathlib.Data.List.TakeWhile
import Mathlib.Tactic.Common

/-!
# Logs of length-prefixed frames

A log is a run of frames, each a fixed-size header followed by a body whose
length the header states. A reader takes headers until one is cut short or
stands for the end of the log; a body that is cut short is delivered padded
with zeros, the way a read into a zeroed buffer leaves it.

* `parse_take_image` — what a reader gets out of the first `k` bytes of a log:
  the frames that are wholly inside, and after them the frame whose header is
  inside and whose body is not, up to the first header that ends the log;
* `parse_image` — a whole log reads back as it was written;
* `complete_eq_take` — a cut behind some frames leaves at least those.
-/

/-- How headers are laid out, how long a body each announces, and which header
ends a log. -/
structure Framing (Header : Type) where
  size : Nat
  size_pos : 0 < size
  enc : Header → List UInt8
  dec : List UInt8 → Header
  length_enc : ∀ h, (enc h).length = size
  dec_enc : ∀ h, dec (enc h) = h
  bodyLen : Header → Nat
  isEnd : Header → Bool

namespace Framing

variable {Header : Type} (F : Framing Header)

/-- A read of `n` bytes into a zeroed buffer of that size. -/
def readZeroed (n : Nat) (rest : List UInt8) : List UInt8 :=
  rest.take n ++ List.replicate (n - rest.length) 0

/-- The reader's loop, with at most `fuel` frames. -/
def parseUpTo : Nat → List UInt8 → List (Header × List UInt8)
  | 0, _ => []
  | fuel + 1, rest =>
    if rest.length < F.size then []
    else
      let h := F.dec (rest.take F.size)
      if F.isEnd h then []
      else
        (h, readZeroed (F.bodyLen h) (rest.drop F.size)) ::
          parseUpTo fuel (rest.drop (F.size + F.bodyLen h))

/-- All frames a reader takes from a byte string. -/
def parse (rest : List UInt8) : List (Header × List UInt8) := F.parseUpTo rest.length rest

/-- A frame as written. -/
def encFrame (f : Header × List UInt8) : List UInt8 := F.enc f.1 ++ f.2

/-- A log as written. -/
def image (fs : List (Header × List UInt8)) : List UInt8 := fs.flatMap F.encFrame

/-- The header announces the body it is written with. -/
def WellFramed (f : Header × List UInt8) : Prop := f.2.length = F.bodyLen f.1

/-- The frames lying wholly inside the first `k` bytes of a log. -/
def complete : Nat → List (Header × List UInt8) → List (Header × List UInt8)
  | _, [] => []
  | k, f :: fs =>
    if F.size + f.2.length ≤ k then f :: complete (k - (F.size + f.2.length)) fs else []

/-- The frame, if any, whose header is inside the first `k` bytes and whose body
is not. -/
def torn : Nat → List (Header × List UInt8) → Option (Header × List UInt8)
  | _, [] => none
  | k, f :: fs =>
    if F.size + f.2.length ≤ k then torn (k - (F.size + f.2.length)) fs
    else if F.size ≤ k then some (f.1, readZeroed f.2.length (f.2.take (k - F.size)))
    else none

-- ---------------------------------------------------------------------------
-- The reader's loop
-- ---------------------------------------------------------------------------

@[simp] theorem parseUpTo_nil (fuel : Nat) : F.parseUpTo fuel [] = [] := by
  cases fuel with
  | zero => rfl
  | succ fuel => simp [parseUpTo, F.size_pos]

theorem parse_of_short {rest : List UInt8} (h : rest.length < F.size) : F.parse rest = [] := by
  cases hfuel : rest.length with
  | zero => rw [parse, hfuel, parseUpTo]
  | succ fuel => rw [parse, hfuel, parseUpTo, if_pos h]

/-- Every frame takes at least one byte, so fuel for each byte is enough. -/
theorem parseUpTo_eq_of_le {fuel : Nat} {rest : List UInt8} (h : rest.length ≤ fuel) :
    F.parseUpTo fuel rest = F.parse rest := by
  suffices hgen : ∀ m n : Nat, rest.length ≤ m → rest.length ≤ n →
      F.parseUpTo m rest = F.parseUpTo n rest by
    exact hgen _ _ h (Nat.le_refl _)
  clear h
  intro m
  induction m generalizing rest with
  | zero =>
    intro n hm _
    have hnil : rest = [] := List.eq_nil_of_length_eq_zero (by omega)
    rw [hnil, parseUpTo_nil, parseUpTo_nil]
  | succ m ih =>
    intro n hm hn
    cases n with
    | zero =>
      have hnil : rest = [] := List.eq_nil_of_length_eq_zero (by omega)
      rw [hnil, parseUpTo_nil, parseUpTo_nil]
    | succ n =>
      rw [parseUpTo, parseUpTo]
      split
      · rfl
      · dsimp only
        split
        · rfl
        · have hpos := F.size_pos
          rw [ih (n := n)]
          · rw [List.length_drop]; omega
          · rw [List.length_drop]; omega

/-- One turn of the reader. -/
theorem parse_step {rest : List UInt8} (h : F.size ≤ rest.length) :
    F.parse rest =
      if F.isEnd (F.dec (rest.take F.size)) then []
      else
        (F.dec (rest.take F.size),
            readZeroed (F.bodyLen (F.dec (rest.take F.size))) (rest.drop F.size)) ::
          F.parse (rest.drop (F.size + F.bodyLen (F.dec (rest.take F.size)))) := by
  have hpos := F.size_pos
  obtain ⟨fuel, hfuel⟩ : ∃ fuel, rest.length = fuel + 1 := ⟨rest.length - 1, by omega⟩
  rw [parse, hfuel, parseUpTo, if_neg (by omega)]
  dsimp only
  split
  · rfl
  · rw [parseUpTo_eq_of_le]
    rw [List.length_drop]
    omega

/-- One turn of the reader on a log that starts with a whole header. -/
theorem parse_enc_append (h : Header) (rest : List UInt8) :
    F.parse (F.enc h ++ rest) =
      if F.isEnd h then []
      else (h, readZeroed (F.bodyLen h) rest) :: F.parse (rest.drop (F.bodyLen h)) := by
  have hlen := F.length_enc h
  have htake : (F.enc h ++ rest).take F.size = F.enc h := by
    rw [← hlen, List.take_left]
  have hdrop : (F.enc h ++ rest).drop F.size = rest := by
    rw [← hlen, List.drop_left]
  have hnext : (F.enc h ++ rest).drop (F.size + F.bodyLen h) = rest.drop (F.bodyLen h) := by
    rw [← List.drop_drop, hdrop]
  have hlong : F.size ≤ (F.enc h ++ rest).length := by
    rw [List.length_append]
    omega
  rw [F.parse_step hlong, htake, F.dec_enc, hdrop, hnext]

-- ---------------------------------------------------------------------------
-- Reading a log that was cut
-- ---------------------------------------------------------------------------

theorem readZeroed_of_le {n : Nat} {rest : List UInt8} (h : n ≤ rest.length) :
    readZeroed n rest = rest.take n := by
  rw [readZeroed, Nat.sub_eq_zero_of_le h]
  simp

/-- **What a reader gets out of the first `k` bytes of a log.** -/
theorem parse_take_image {fs : List (Header × List UInt8)} (hfs : ∀ f ∈ fs, F.WellFramed f)
    (k : Nat) :
    F.parse ((F.image fs).take k) =
      (F.complete k fs ++ (F.torn k fs).toList).takeWhile (fun f => !F.isEnd f.1) := by
  induction fs generalizing k with
  | nil => simp [image, complete, torn, parse]
  | cons f fs ih =>
    have hbody : f.2.length = F.bodyLen f.1 := hfs f (List.mem_cons_self ..)
    have hrest : ∀ g ∈ fs, F.WellFramed g := fun g hg => hfs g (List.mem_cons_of_mem _ hg)
    have himage : F.image (f :: fs) = F.enc f.1 ++ (f.2 ++ F.image fs) := by
      simp [image, encFrame]
    rw [himage]
    by_cases hhead : F.size ≤ k
    · -- the header is inside: one turn of the loop
      have htake : (F.enc f.1 ++ (f.2 ++ F.image fs)).take k =
          F.enc f.1 ++ (f.2 ++ F.image fs).take (k - F.size) := by
        rw [List.take_append, F.length_enc, List.take_of_length_le]
        rw [F.length_enc]
        exact hhead
      rw [htake, parse_enc_append]
      by_cases hwhole : F.size + f.2.length ≤ k
      · have hb : readZeroed (F.bodyLen f.1) ((f.2 ++ F.image fs).take (k - F.size)) = f.2 := by
          rw [readZeroed_of_le, List.take_take, Nat.min_eq_left, ← hbody, List.take_left]
          · omega
          · rw [List.length_take, List.length_append]
            omega
        have hd : ((f.2 ++ F.image fs).take (k - F.size)).drop (F.bodyLen f.1) =
            (F.image fs).take (k - (F.size + f.2.length)) := by
          rw [List.drop_take, ← hbody, List.drop_left]
          congr 1
          omega
        rw [hb, hd, ih hrest, complete, torn, if_pos hwhole, if_pos hwhole]
        cases hend : F.isEnd f.1 <;> simp [hend]
      · -- the body is cut: it is delivered padded, and nothing follows
        have hcut : (f.2 ++ F.image fs).take (k - F.size) = f.2.take (k - F.size) := by
          have hzero : k - F.size - f.2.length = 0 := by omega
          rw [List.take_append, hzero]
          simp
        have hd : (f.2.take (k - F.size)).drop (F.bodyLen f.1) = [] := by
          rw [List.drop_eq_nil_iff, List.length_take]
          omega
        rw [hcut, hd, complete, torn, if_neg hwhole, if_neg hwhole, if_pos hhead, hbody]
        cases hend : F.isEnd f.1 <;> simp [hend, parse]
    · -- not even the header is inside
      have hshort : ((F.enc f.1 ++ (f.2 ++ F.image fs)).take k).length < F.size := by
        rw [List.length_take]
        omega
      have hnot : ¬ F.size + f.2.length ≤ k := by omega
      rw [F.parse_of_short hshort, complete, torn, if_neg hnot, if_neg hnot,
        if_neg hhead]
      rfl

/-- The headers a cut leaves are the first ones of the log. -/
theorem headers_cut_prefix (fs : List (Header × List UInt8)) (k : Nat) :
    (F.complete k fs ++ (F.torn k fs).toList).map Prod.fst <+: fs.map Prod.fst := by
  induction fs generalizing k with
  | nil => simp [complete, torn]
  | cons f fs ih =>
    rw [complete, torn]
    split
    · rw [List.cons_append, List.map_cons, List.map_cons, List.cons_prefix_cons]
      exact ⟨rfl, ih _⟩
    · split <;> simp

/-- The whole frames of a cut are the first ones of the log, and at least those that end inside. -/
theorem complete_eq_take {fs : List (Header × List UInt8)} {k j : Nat}
    (hk : (F.image (fs.take j)).length ≤ k) :
    ∃ i, F.complete k fs = fs.take i ∧ min j fs.length ≤ i := by
  induction fs generalizing k j with
  | nil => exact ⟨0, by rw [complete, List.take_nil], Nat.min_le_right ..⟩
  | cons f fs ih =>
    rw [complete]
    by_cases hfit : F.size + f.2.length ≤ k
    · cases j with
      | zero =>
        obtain ⟨i, hi, -⟩ := ih (k := k - (F.size + f.2.length)) (j := 0) (Nat.zero_le _)
        rw [if_pos hfit, hi]
        exact ⟨i + 1, rfl, Nat.le_trans (Nat.min_le_left ..) (Nat.zero_le _)⟩
      | succ j =>
        have hlen : (F.image ((f :: fs).take (j + 1))).length =
            F.size + f.2.length + (F.image (fs.take j)).length := by
          simp [image, encFrame, F.length_enc, Nat.add_assoc]
        obtain ⟨i, hi, hj⟩ := ih (k := k - (F.size + f.2.length)) (j := j) (by omega)
        rw [if_pos hfit, hi]
        refine ⟨i + 1, rfl, ?_⟩
        rw [List.length_cons]
        omega
    · cases j with
      | zero =>
        rw [if_neg hfit]
        exact ⟨0, rfl, Nat.min_le_left ..⟩
      | succ j =>
        refine absurd ?_ hfit
        refine Nat.le_trans ?_ hk
        simp [image, encFrame, F.length_enc, ← Nat.add_assoc]

theorem complete_of_length_le {fs : List (Header × List UInt8)} {k : Nat}
    (hk : (F.image fs).length ≤ k) : F.complete k fs = fs ∧ F.torn k fs = none := by
  induction fs generalizing k with
  | nil => exact ⟨rfl, rfl⟩
  | cons f fs ih =>
    have hlen : (F.image (f :: fs)).length = F.size + f.2.length + (F.image fs).length := by
      simp [image, encFrame, F.length_enc, Nat.add_assoc]
    have hwhole : F.size + f.2.length ≤ k := by omega
    obtain ⟨hc, ht⟩ := ih (k := k - (F.size + f.2.length)) (by omega)
    rw [complete, torn, if_pos hwhole, if_pos hwhole, hc, ht]
    exact ⟨rfl, rfl⟩

theorem takeWhile_append_toList_eq_left_iff {α : Type} (p : α → Bool) (l : List α)
    (o : Option α) :
    (l ++ o.toList).takeWhile p = l ↔ (∀ x ∈ l, p x = true) ∧ ∀ x ∈ o, p x = false := by
  refine ⟨?_, ?_⟩
  · intro h
    have hl : ∀ x ∈ l, p x = true := by
      intro x hx
      rw [← h] at hx
      exact List.mem_takeWhile_imp hx
    refine ⟨hl, ?_⟩
    rintro x rfl
    rw [List.takeWhile_append_of_pos hl] at h
    by_contra hx
    simp [hx] at h
  · rintro ⟨hl, ho⟩
    rw [List.takeWhile_append_of_pos hl]
    cases o with
    | none => simp
    | some x => simp [ho x rfl]

/-- **A whole log reads back as it was written**, when no header in it ends it. -/
theorem parse_image {fs : List (Header × List UInt8)} (hfs : ∀ f ∈ fs, F.WellFramed f)
    (hend : ∀ f ∈ fs, F.isEnd f.1 = false) : F.parse (F.image fs) = fs := by
  have h := F.parse_take_image hfs (F.image fs).length
  obtain ⟨hc, ht⟩ := F.complete_of_length_le (Nat.le_refl (F.image fs).length)
  rw [List.take_length, hc, ht] at h
  rw [h, Option.toList_none, List.append_nil, List.takeWhile_eq_self_iff]
  intro f hf
  rw [hend f hf]
  rfl

end Framing

import Mathlib.Data.List.Perm.Subperm
import Zrtools.Lib.Chain

/-!
# Pools of blocks in two chains

A container keeps its blocks in a chain from `head` to `tail`, and those it has done with
in a second chain, to be used again. Addresses are numbers, and a new block gets one that
was never used. Only the links count here; what the blocks hold is up to the container.

* `Shape.hang` — one more block on the tail, from the second chain or a new one;
* `Shape.recycle` — the head block goes to the second chain;
* `Shape.discard` — the second chain is given up;
* `Shape.perm` — every block that was ever allocated is in one of the chains, if the
  counters say so;
* `Accounted` — with the blocks that were deleted, `destroy_spec` — deleting the rest.
-/

namespace BlockPool

open Chain

/-- The links of the blocks, the ends of the chains and their counters. -/
structure Pool where
  next : Nat → Option Nat
  fresh : Nat
  head : Option Nat
  tail : Nat
  emptyHead : Option Nat
  usedCnt : Nat
  emptyCnt : Nat

namespace Pool

/-- Hang a block on the tail: the first one of the second chain, or else a new one. -/
def hang (p : Pool) : Pool :=
  match p.emptyHead with
  | some e =>
    let next := Function.update p.next p.tail (some e)
    { p with
      next := Function.update next e none
      tail := e
      emptyHead := next e
      usedCnt := p.usedCnt + 1
      emptyCnt := p.emptyCnt - 1 }
  | none =>
    let next := Function.update p.next p.fresh none
    { p with
      next := Function.update next p.tail (some p.fresh)
      fresh := p.fresh + 1
      tail := p.fresh
      usedCnt := p.usedCnt + 1 }

/-- The head block `a` goes to the front of the second chain. -/
def recycle (p : Pool) (a : Nat) : Pool where
  next := Function.update p.next a p.emptyHead
  fresh := p.fresh
  head := p.next a
  tail := p.tail
  emptyHead := some a
  usedCnt := p.usedCnt - 1
  emptyCnt := p.emptyCnt + 1

/-- The second chain is given up. -/
def discard (p : Pool) : Pool := { p with emptyHead := none, emptyCnt := 0 }

end Pool

/-- The members of the two chains. -/
structure Shape (p : Pool) (used free : List Nat) : Prop where
  linked : Linked p.next p.head used
  tail : ∃ front, used = front ++ [p.tail]
  free_linked : Linked p.next p.emptyHead free
  nodup : (used ++ free).Nodup
  fresh : ∀ a ∈ used ++ free, a < p.fresh
  usedCnt : p.usedCnt = used.length
  emptyCnt : p.emptyCnt = free.length

variable {p : Pool} {used free : List Nat}

/-- The tail is a member of the first chain. -/
theorem Shape.tail_mem (h : Shape p used free) : p.tail ∈ used := by
  obtain ⟨front, hused⟩ := h.tail
  rw [hused]
  simp

theorem Shape.used_ne_nil (h : Shape p used free) : used ≠ [] :=
  List.ne_nil_of_mem h.tail_mem

theorem Shape.nodup_used (h : Shape p used free) : used.Nodup := (List.nodup_append.mp h.nodup).1

/-- The tail comes once. -/
theorem Shape.exists_front (h : Shape p used free) :
    ∃ front, used = front ++ [p.tail] ∧ ∀ a ∈ front, a ≠ p.tail := by
  obtain ⟨front, hused⟩ := h.tail
  have hnodup := h.nodup_used
  rw [hused, List.nodup_append] at hnodup
  exact ⟨front, hused, fun a ha => hnodup.2.2 a ha p.tail (List.mem_singleton_self _)⟩

/-- The head comes once. -/
theorem Shape.ne_head {a : Nat} {rest : List Nat} (h : Shape p (a :: rest) free) :
    ∀ c ∈ rest, c ≠ a := by
  rintro c hc rfl
  exact (List.nodup_cons.mp h.nodup_used).1 hc

theorem Shape.used_pos (h : Shape p used free) : 0 < p.usedCnt := by
  obtain ⟨front, hused⟩ := h.tail
  rw [h.usedCnt, hused]
  simp

/-- The block that is hung on the tail is in neither chain before, or is the first of the
second one. -/
theorem Shape.hang_fresh (h : Shape p used free) : p.hang.tail ∉ used := by
  intro hmem
  cases hempty : p.emptyHead with
  | some e =>
    have hfree := h.free_linked
    rw [hempty] at hfree
    obtain ⟨rest, rfl, -⟩ := linked_some hfree
    have htail : p.hang.tail = e := by simp [Pool.hang, hempty]
    rw [htail] at hmem
    exact (List.nodup_append.mp h.nodup).2.2 e hmem e (by simp) rfl
  | none =>
    have htail : p.hang.tail = p.fresh := by simp [Pool.hang, hempty]
    rw [htail] at hmem
    exact Nat.lt_irrefl _ (h.fresh p.fresh (List.mem_append_left _ hmem))

theorem Shape.hang_ne (h : Shape p used free) : p.hang.tail ≠ p.tail := by
  intro heq
  have hnotmem := h.hang_fresh
  rw [heq] at hnotmem
  exact hnotmem h.tail_mem

/-- Two links change: the new block ends the chain, and the old tail points to it. -/
theorem next_hang (hne : p.hang.tail ≠ p.tail) :
    p.hang.next = Function.update (Function.update p.next p.hang.tail none) p.tail
      (some p.hang.tail) := by
  cases hempty : p.emptyHead with
  | some e =>
    have he : p.hang.tail = e := by simp [Pool.hang, hempty]
    rw [he] at hne ⊢
    simp only [Pool.hang, hempty]
    rw [Function.update_comm hne]
  | none =>
    have he : p.hang.tail = p.fresh := by simp [Pool.hang, hempty]
    rw [he]
    simp only [Pool.hang, hempty]

theorem Shape.hang_linked (h : Shape p used free) :
    Linked p.hang.next p.hang.head (used ++ [p.hang.tail]) := by
  obtain ⟨front, hused, hfront⟩ := h.exists_front
  have hne := h.hang_ne
  have hnotmem := h.hang_fresh
  have hlinked := h.linked
  rw [hused] at hlinked hnotmem
  have hhead : p.hang.head = p.head := by
    unfold Pool.hang
    split
    · rfl
    · rfl
  rw [hhead, hused, next_hang hne]
  refine linked_snoc hlinked ?_ ?_ ?_
  · intro a ha
    have hnew : a ≠ p.hang.tail := by
      rintro rfl
      exact hnotmem (List.mem_append_left _ ha)
    rw [Function.update_of_ne (hfront a ha), Function.update_of_ne hnew]
  · rw [Function.update_self]
  · rw [Function.update_of_ne hne, Function.update_self]

/-- The block that is hung on the tail was the first one of the second chain. -/
theorem Shape.hang_reuse {e : Nat} (h : Shape p used free) (hempty : p.emptyHead = some e) :
    ∃ free', Shape p.hang (used ++ [p.hang.tail]) free' := by
  have hne := h.hang_ne
  have hlinked := h.hang_linked
  have hnext := next_hang hne
  have hnodup := h.nodup
  have hfresh := h.fresh
  have hfree := h.free_linked
  have husedCnt := h.usedCnt
  have hemptyCnt := h.emptyCnt
  rw [hempty] at hfree
  obtain ⟨rest, rfl, hrest⟩ := linked_some hfree
  have he : p.hang.tail = e := by simp [Pool.hang, hempty]
  rw [he] at hne hlinked hnext ⊢
  have hparts := List.nodup_append.mp hnodup
  refine ⟨rest, ?_⟩
  constructor
  case linked => exact hlinked
  case tail => exact ⟨used, by rw [he]⟩
  case free_linked =>
    have hhead : p.hang.emptyHead = p.next e := by simp [Pool.hang, hempty, hne]
    rw [hhead]
    -- the others stay where they are
    refine linked_congr hrest fun a ha => ?_
    have hat : a ≠ p.tail := by
      intro heq
      exact hparts.2.2 p.tail h.tail_mem a (List.mem_cons_of_mem _ ha) heq.symm
    have hae : a ≠ e := by
      rintro rfl
      exact (List.nodup_cons.mp hparts.2.1).1 ha
    rw [hnext, Function.update_of_ne hat, Function.update_of_ne hae]
  case nodup => simpa using hnodup
  case fresh =>
    have hsame : p.hang.fresh = p.fresh := by simp [Pool.hang, hempty]
    rw [hsame]
    simpa using hfresh
  case usedCnt => simp [Pool.hang, hempty, husedCnt]
  case emptyCnt => simp [Pool.hang, hempty, hemptyCnt]

/-- With nothing in the second chain, it is a new one. -/
theorem Shape.hang_new (h : Shape p used free) (hempty : p.emptyHead = none) :
    Shape p.hang (used ++ [p.hang.tail]) [] := by
  have hlinked := h.hang_linked
  have hnodup := h.nodup
  have hfresh := h.fresh
  have hfree := h.free_linked
  have husedCnt := h.usedCnt
  have hemptyCnt := h.emptyCnt
  rw [hempty] at hfree
  obtain rfl := linked_none.mp hfree
  have he : p.hang.tail = p.fresh := by simp [Pool.hang, hempty]
  have hsucc : p.hang.fresh = p.fresh + 1 := by simp [Pool.hang, hempty]
  rw [he] at hlinked ⊢
  constructor
  case linked => exact hlinked
  case tail => exact ⟨used, by rw [he]⟩
  case free_linked =>
    have hhead : p.hang.emptyHead = none := by simp [Pool.hang, hempty]
    exact hhead
  case nodup =>
    rw [List.append_nil] at hnodup ⊢
    rw [List.nodup_append]
    refine ⟨hnodup, by simp, ?_⟩
    intro a ha b hb
    have hlt := hfresh a (List.mem_append_left _ ha)
    rw [List.mem_singleton.mp hb]
    omega
  case fresh =>
    rw [hsucc, List.append_nil]
    intro a ha
    rcases List.mem_append.mp ha with ha | ha
    · exact Nat.lt_succ_of_lt (hfresh a (List.mem_append_left _ ha))
    · rw [List.mem_singleton.mp ha]
      omega
  case usedCnt => simp [Pool.hang, hempty, husedCnt]
  case emptyCnt => simp [Pool.hang, hempty, hemptyCnt]

/-- **One more block on the tail.** -/
theorem Shape.hang (h : Shape p used free) :
    ∃ free', Shape p.hang (used ++ [p.hang.tail]) free' := by
  cases hempty : p.emptyHead with
  | some e => exact h.hang_reuse hempty
  | none => exact ⟨[], h.hang_new hempty⟩

/-- Hanging a block on the tail keeps the count of the blocks. -/
theorem Shape.hang_count (h : Shape p used free) (hcount : p.usedCnt + p.emptyCnt = p.fresh) :
    p.hang.usedCnt + p.hang.emptyCnt = p.hang.fresh := by
  cases hempty : p.emptyHead with
  | some e =>
    have hfree := h.free_linked
    rw [hempty] at hfree
    obtain ⟨rest, rfl, -⟩ := linked_some hfree
    have hpos := h.emptyCnt
    rw [List.length_cons] at hpos
    simp only [Pool.hang, hempty]
    omega
  | none =>
    simp only [Pool.hang, hempty]
    omega

/-- **The head block** goes to the second chain, where another one follows it. -/
theorem Shape.recycle {a : Nat} {rest : List Nat} (h : Shape p (a :: rest) free)
    (hrest : rest ≠ []) : Shape (p.recycle a) rest (a :: free) := by
  have hnodup := h.nodup
  rw [List.cons_append, List.nodup_cons] at hnodup
  have hkeep : ∀ b ∈ rest ++ free, (p.recycle a).next b = p.next b := by
    intro b hb
    have hne : b ≠ a := by
      rintro rfl
      exact hnodup.1 hb
    simp [Pool.recycle, hne]
  constructor
  case linked =>
    exact linked_congr h.linked.2 fun b hb => hkeep b (List.mem_append_left _ hb)
  case tail =>
    obtain ⟨front, heq⟩ := h.tail
    cases front with
    | nil =>
      rw [List.nil_append, List.cons.injEq] at heq
      exact absurd heq.2 hrest
    | cons first front =>
      rw [List.cons_append, List.cons.injEq] at heq
      exact ⟨front, heq.2⟩
  case free_linked =>
    refine ⟨rfl, ?_⟩
    have hlink : (p.recycle a).next a = p.emptyHead := by simp [Pool.recycle]
    rw [hlink]
    exact linked_congr h.free_linked fun b hb => hkeep b (List.mem_append_right _ hb)
  case nodup => exact List.perm_middle.nodup_iff.mpr (List.nodup_cons.mpr hnodup)
  case fresh =>
    intro b hb
    apply h.fresh b
    simp only [List.cons_append, List.mem_append, List.mem_cons] at hb ⊢
    tauto
  case usedCnt =>
    show p.usedCnt - 1 = _
    rw [h.usedCnt]
    rfl
  case emptyCnt =>
    show p.emptyCnt + 1 = _
    rw [h.emptyCnt]
    rfl

/-- **Giving up the second chain.** -/
theorem Shape.discard (h : Shape p used free) : Shape p.discard used [] where
  linked := h.linked
  tail := h.tail
  free_linked := rfl
  nodup := by
    rw [List.append_nil]
    exact h.nodup_used
  fresh a ha := h.fresh a (List.mem_append_left _ (by simpa using ha))
  usedCnt := h.usedCnt
  emptyCnt := rfl

/-- **All blocks.** If the counters add up to the addresses that were ever given out, each
of these is in exactly one of the chains. -/
theorem Shape.perm (h : Shape p used free) (hcount : p.usedCnt + p.emptyCnt = p.fresh) :
    (used ++ free).Perm (List.range p.fresh) := by
  have hsub : used ++ free ⊆ List.range p.fresh := by
    intro a ha
    rw [List.mem_range]
    exact h.fresh a ha
  have hlen : (List.range p.fresh).length = (used ++ free).length := by
    rw [List.length_range, ← hcount, h.usedCnt, h.emptyCnt, List.length_append]
  apply (List.subperm_of_subset h.nodup hsub).perm_of_length_le
  exact Nat.le_of_eq hlen

-- ---------------------------------------------------------------------------
-- Deleted blocks
-- ---------------------------------------------------------------------------

/-- A loop that deletes a chain and counts down, with the blocks that were deleted before.
It has no result if it comes to one of these. -/
def release (next : Nat → Option Nat) : Nat → Option Nat → Int → List Nat → Option (Int × List Nat)
  | 0, _, _, _ => none
  | _ + 1, none, count, gone => some (count, gone)
  | fuel + 1, some a, count, gone =>
    if a ∈ gone then none else release next fuel (next a) (count - 1) (gone ++ [a])

/-- A chain without a deleted block is deleted as a whole. -/
theorem release_linked {next : Nat → Option Nat} {q : Option Nat} {l gone : List Nat} {fuel : Nat}
    (h : Linked next q l) (hnodup : (gone ++ l).Nodup) (hfuel : l.length < fuel) (count : Int) :
    release next fuel q count gone = some (count - l.length, gone ++ l) := by
  induction fuel generalizing q l gone count with
  | zero => omega
  | succ fuel ih =>
    cases l with
    | nil =>
      obtain rfl : q = none := h
      simp [release]
    | cons a l =>
      obtain ⟨rfl, hl⟩ := h
      have hnew : a ∉ gone := by
        intro ha
        exact (List.nodup_append.mp hnodup).2.2 a ha a (List.mem_cons_self ..) rfl
      have hsplit : gone ++ [a] ++ l = gone ++ a :: l := by simp
      rw [release, if_neg hnew, ih hl (by rw [hsplit]; exact hnodup)
        (by simp only [List.length_cons] at hfuel; omega), hsplit, List.length_cons]
      congr 2
      push_cast
      omega

/-- A pool is destroyed: both chains are deleted, and their counters count down. -/
def Pool.destroy (p : Pool) (gone : List Nat) : Option (Int × Int × List Nat) :=
  (release p.next (p.fresh + 1) p.head p.usedCnt gone).bind fun r =>
    (release p.next (p.fresh + 1) p.emptyHead p.emptyCnt r.2).map fun r' => (r.1, r'.1, r'.2)

/-- Every address that was given out is a member of one of the chains or has been deleted,
and only one of these, once. -/
def Accounted (p : Pool) (gone : List Nat) : Prop :=
  ∃ used free, Linked p.next p.head used ∧ Linked p.next p.emptyHead free ∧
    (gone ++ (used ++ free)).Perm (List.range p.fresh)

variable {gone : List Nat}

/-- The chains that are accounted for are those of the shape. -/
theorem Shape.perm_of_accounted (h : Shape p used free) (ha : Accounted p gone) :
    (gone ++ (used ++ free)).Perm (List.range p.fresh) := by
  obtain ⟨used', free', hused, hfree, hperm⟩ := ha
  rw [linked_unique h.linked hused, linked_unique h.free_linked hfree]
  exact hperm

/-- Where nothing was deleted, the counters decide. -/
theorem Shape.accounted (h : Shape p used free) (hcount : p.usedCnt + p.emptyCnt = p.fresh) :
    Accounted p [] :=
  ⟨used, free, h.linked, h.free_linked, h.perm hcount⟩

/-- The chains never have a deleted block. -/
theorem Accounted.not_mem (ha : Accounted p gone) (h : Shape p used free) {a : Nat}
    (hmem : a ∈ used ++ free) : a ∉ gone := by
  intro hgone
  have hnodup := (h.perm_of_accounted ha).nodup_iff.mpr List.nodup_range
  exact (List.nodup_append.mp hnodup).2.2 a hgone a hmem rfl

/-- The counters and the deleted blocks add up. -/
theorem Accounted.count (ha : Accounted p gone) (h : Shape p used free) :
    gone.length + (p.usedCnt + p.emptyCnt) = p.fresh := by
  have hlen := (h.perm_of_accounted ha).length_eq
  rw [List.length_append, List.length_append, List.length_range, ← h.usedCnt, ← h.emptyCnt] at hlen
  exact hlen

/-- A block that is taken from the second chain stays accounted for. -/
theorem Accounted.hang_reuse {e : Nat} (ha : Accounted p gone) (h : Shape p used free)
    (hempty : p.emptyHead = some e) : Accounted p.hang gone := by
  have hperm := h.perm_of_accounted ha
  have hfree := h.free_linked
  rw [hempty] at hfree
  obtain ⟨rest, rfl, hrest⟩ := linked_some hfree
  obtain ⟨free', h'⟩ := h.hang_reuse hempty
  have he : p.hang.tail = e := by simp [Pool.hang, hempty]
  have hne := h.hang_ne
  have hnext := next_hang hne
  have hhead : p.hang.emptyHead = p.next e := by
    rw [he] at hne
    simp [Pool.hang, hempty, hne]
  have hfresh : p.hang.fresh = p.fresh := by simp [Pool.hang, hempty]
  -- the new second chain is the rest of the old one
  have hfree' := h'.free_linked
  rw [hhead] at hfree'
  have hsame : ∀ a ∈ free', p.next a = p.hang.next a := by
    intro a hmem
    have hapart := (List.nodup_append.mp h'.nodup).2.2
    have hat : a ≠ p.tail := fun heq =>
      hapart p.tail (List.mem_append_left _ h.tail_mem) a hmem heq.symm
    have hae : a ≠ p.hang.tail := fun heq =>
      hapart p.hang.tail (List.mem_append_right _ (List.mem_singleton_self _)) a hmem heq.symm
    rw [hnext, Function.update_of_ne hat, Function.update_of_ne hae]
  obtain rfl := linked_unique hrest (linked_congr hfree' hsame)
  refine ⟨_, rest, h'.linked, h'.free_linked, ?_⟩
  rw [hfresh, he, List.append_assoc, List.singleton_append]
  exact hperm

/-- So does a new one. -/
theorem Accounted.hang_new (ha : Accounted p gone) (h : Shape p used free)
    (hempty : p.emptyHead = none) : Accounted p.hang gone := by
  have hperm := h.perm_of_accounted ha
  have hfree := h.free_linked
  rw [hempty] at hfree
  obtain rfl := linked_none.mp hfree
  have h' := h.hang_new hempty
  have he : p.hang.tail = p.fresh := by simp [Pool.hang, hempty]
  have hfresh : p.hang.fresh = p.fresh + 1 := by simp [Pool.hang, hempty]
  refine ⟨_, [], h'.linked, h'.free_linked, ?_⟩
  rw [List.append_nil] at hperm ⊢
  rw [hfresh, he, List.range_succ, ← List.append_assoc]
  exact hperm.append_right _

/-- Hanging a block on the tail loses none. -/
theorem Accounted.hang (ha : Accounted p gone) (h : Shape p used free) : Accounted p.hang gone := by
  cases hempty : p.emptyHead with
  | some e => exact ha.hang_reuse h hempty
  | none => exact ha.hang_new h hempty

/-- Nor does moving the head block to the second chain. -/
theorem Accounted.recycle {a : Nat} (ha : Accounted p gone) (hhead : p.head = some a) :
    Accounted (p.recycle a) gone := by
  obtain ⟨used, free, hused, hfree, hperm⟩ := ha
  rw [hhead] at hused
  obtain ⟨rest, rfl, hrest⟩ := linked_some hused
  have hnodup := hperm.nodup_iff.mpr List.nodup_range
  have hapart := (List.nodup_append.mp hnodup).2.1
  rw [List.cons_append, List.nodup_cons] at hapart
  have hkeep : ∀ b ∈ rest ++ free, (p.recycle a).next b = p.next b := by
    intro b hb
    have hne : b ≠ a := by
      rintro rfl
      exact hapart.1 hb
    simp [Pool.recycle, hne]
  refine ⟨rest, a :: free, ?_, ⟨rfl, ?_⟩, ?_⟩
  · exact linked_congr hrest fun b hb => hkeep b (List.mem_append_left _ hb)
  · have hlink : (p.recycle a).next a = p.emptyHead := by simp [Pool.recycle]
    rw [hlink]
    exact linked_congr hfree fun b hb => hkeep b (List.mem_append_right _ hb)
  · exact (List.Perm.append_left gone List.perm_middle).trans hperm

/-- Giving up the second chain is right if its blocks are deleted. -/
theorem Accounted.discard (ha : Accounted p gone) (h : Shape p used free) :
    Accounted p.discard (gone ++ free) := by
  have hperm := h.perm_of_accounted ha
  refine ⟨used, [], h.linked, rfl, ?_⟩
  rw [List.append_nil, List.append_assoc]
  exact (List.Perm.append_left gone List.perm_append_comm).trans hperm

/-- Links of other blocks do not matter. -/
theorem Shape.relink (h : Shape p used free) (next' : Nat → Option Nat)
    (hsame : ∀ a ∈ used ++ free, next' a = p.next a) :
    Shape { p with next := next' } used free where
  linked := linked_congr h.linked fun a ha => hsame a (List.mem_append_left _ ha)
  tail := h.tail
  free_linked := linked_congr h.free_linked fun a ha => hsame a (List.mem_append_right _ ha)
  nodup := h.nodup
  fresh := h.fresh
  usedCnt := h.usedCnt
  emptyCnt := h.emptyCnt

/-- Whatever the links of the deleted blocks become, the account stays. -/
theorem Accounted.relink (ha : Accounted p gone) (h : Shape p used free)
    (next' : Nat → Option Nat) (hsame : ∀ a, a ∉ gone → next' a = p.next a) :
    Shape { p with next := next' } used free ∧ Accounted { p with next := next' } gone := by
  have hshape := h.relink next' fun a hmem => hsame a (ha.not_mem h hmem)
  exact ⟨hshape, used, free, hshape.linked, hshape.free_linked, h.perm_of_accounted ha⟩

/-- **Deleting the second chain.** -/
theorem Accounted.release_free (ha : Accounted p gone) (h : Shape p used free) {fuel : Nat}
    (hfuel : p.emptyCnt < fuel) (count : Int) :
    release p.next fuel p.emptyHead count gone = some (count - p.emptyCnt, gone ++ free) := by
  have hnodup := (h.perm_of_accounted ha).nodup_iff.mpr List.nodup_range
  rw [h.emptyCnt] at hfuel ⊢
  refine release_linked h.free_linked ?_ hfuel count
  rw [List.nodup_append] at hnodup ⊢
  refine ⟨hnodup.1, (List.nodup_append.mp hnodup.2.1).2.1, ?_⟩
  intro a hgone b hb
  exact hnodup.2.2 a hgone b (List.mem_append_right _ hb)

/-- **The end.** A pool whose blocks are accounted for is destroyed without touching a deleted
block, both counters come to zero, and each address was then deleted once. -/
theorem destroy_spec (h : Shape p used free) (ha : Accounted p gone) :
    ∃ all, p.destroy gone = some (0, 0, all) ∧ all.Perm (List.range p.fresh) := by
  have hperm := h.perm_of_accounted ha
  have hcount := ha.count h
  have hnodup := hperm.nodup_iff.mpr List.nodup_range
  rw [← List.append_assoc] at hperm hnodup
  have hused : release p.next (p.fresh + 1) p.head p.usedCnt gone =
      some ((p.usedCnt : Int) - used.length, gone ++ used) :=
    release_linked h.linked (List.nodup_append.mp hnodup).1 (by rw [← h.usedCnt]; omega) _
  have hfree : release p.next (p.fresh + 1) p.emptyHead p.emptyCnt (gone ++ used) =
      some ((p.emptyCnt : Int) - free.length, gone ++ used ++ free) :=
    release_linked h.free_linked hnodup (by rw [← h.emptyCnt]; omega) _
  refine ⟨gone ++ used ++ free, ?_, hperm⟩
  rw [Pool.destroy, hused, Option.bind_some, hfree, Option.map_some, ← h.usedCnt, ← h.emptyCnt,
    Int.sub_self, Int.sub_self]

end BlockPool

import Mathlib.Data.List.Nodup
import Mathlib.Data.List.TakeWhile
import Mathlib.Order.Lattice
import Mathlib.Order.Nat
import Zrtools.Lib.CInteger

/-!
# zrtools — `BMIC::UpdateRange` (`zrt_bmic.h`)

An `ordered_non_unique` index is a sequence of nodes sorted by key, and an iterator stays on its
node when `replace` moves that. `UpdateRange` goes from the first node with a key to the first one
beyond, and replaces each value on its way: it goes on from wherever the node is now.

* `loop_inPlace` — as long as no node has to move, the loop goes through the range;
* `inPlace_of_loop` — where one has to, the loop ends early, or leaves the range;
* `updateRange_iff` — when the range is updated.
-/

namespace Zrtools.Bmic

open CInteger

variable {V K : Type} [LinearOrder K]

-- ---------------------------------------------------------------------------
-- The index
-- ---------------------------------------------------------------------------

/-- An element in its node. -/
structure Node (V : Type) where
  id : Nat
  val : V
  deriving DecidableEq

def Sorted (key : V → K) (nodes : List (Node V)) : Prop :=
  nodes.Pairwise fun x y => key x.val ≤ key y.val

/-- The content of an `ordered_non_unique` index. -/
structure Index (key : V → K) where
  nodes : List (Node V)
  nodup : (nodes.map Node.id).Nodup
  sorted : Sorted key nodes

/-- An iterator: its node, or the end. -/
abbrev Iter := Option Nat

/-- The iterator to the first of some nodes. -/
def begin (nodes : List (Node V)) : Iter := nodes.head?.map Node.id

@[simp] theorem begin_cons (x : Node V) (nodes : List (Node V)) : begin (x :: nodes) = some x.id :=
  rfl

/-- `*iter`, on a node. -/
def deref (nodes : List (Node V)) (id : Nat) : Option V :=
  (nodes.find? fun x => x.id == id).map Node.val

/-- `++iter`, on a node. -/
def next : List (Node V) → Nat → Iter
  | [], _ => none
  | x :: nodes, id => if x.id = id then begin nodes else next nodes id

/-- `equal_range(key)`: the first node with no smaller key, and the first one with a greater. -/
def lowerBound (key : V → K) (nodes : List (Node V)) (k : K) : Iter :=
  begin (nodes.dropWhile fun x => key x.val < k)

def upperBound (key : V → K) (nodes : List (Node V)) (k : K) : Iter :=
  begin (nodes.dropWhile fun x => key x.val ≤ k)

/-- `replace(iter, val)`, for an `ordered_non_unique` index: the node takes the value and goes to a
place that its key allows, and it stays where it is if its key allows that. -/
structure Replaces (key : V → K) (replace : List (Node V) → Nat → V → List (Node V)) : Prop where
  moves : ∀ front x rest val, Sorted key (front ++ x :: rest) →
    ((front ++ x :: rest).map Node.id).Nodup →
    ∃ front' rest', replace (front ++ x :: rest) x.id val = front' ++ ⟨x.id, val⟩ :: rest' ∧
      front' ++ rest' = front ++ rest ∧ Sorted key (front' ++ ⟨x.id, val⟩ :: rest')
  stays : ∀ front x rest val, Sorted key (front ++ x :: rest) →
    ((front ++ x :: rest).map Node.id).Nodup → Sorted key (front ++ ⟨x.id, val⟩ :: rest) →
      replace (front ++ x :: rest) x.id val = front ++ ⟨x.id, val⟩ :: rest

-- ---------------------------------------------------------------------------
-- The code
-- ---------------------------------------------------------------------------

/-- The content at the end, the nodes on which `func` was called and the values it was given, and
`ret_count`. -/
structure Result (V : Type) where
  nodes : List (Node V)
  calls : List (Node V)
  count : Int

/-- The loop of `UpdateRange`, up to `range.second`. `func` may remember its arguments. There is no
result if the end is dereferenced, if the count overflows, or before the loop ends. -/
def loop (replace : List (Node V) → Nat → V → List (Node V)) (func : List V → V → V)
    (last : Iter) : Nat → List (Node V) → Iter → List (Node V) → Int → Option (Result V)
  | 0, _, _, _, _ => none
  | turns + 1, nodes, iter, calls, count =>
    if iter = last then some ⟨nodes, calls, count⟩
    else do
      let id ← iter
      let val ← deref nodes id
      let nodes := replace nodes id (func (calls.map Node.val) val)
      let count ← int32 (count + 1)
      loop replace func last turns nodes (next nodes id) (calls ++ [⟨id, val⟩]) count

/-- `UpdateRange(key, func)`. -/
def updateRange (replace : List (Node V) → Nat → V → List (Node V)) (key : V → K)
    (func : List V → V → V) (turns : Nat) (nodes : List (Node V)) (k : K) : Option (Result V) :=
  loop replace func (upperBound key nodes k) turns nodes (lowerBound key nodes k) [] 0

-- ---------------------------------------------------------------------------
-- The range
-- ---------------------------------------------------------------------------

/-- The nodes before the range, in it, and after it. -/
def before (key : V → K) (nodes : List (Node V)) (k : K) : List (Node V) :=
  nodes.filter fun x => key x.val < k

def range (key : V → K) (nodes : List (Node V)) (k : K) : List (Node V) :=
  nodes.filter fun x => key x.val = k

def after (key : V → K) (nodes : List (Node V)) (k : K) : List (Node V) :=
  nodes.filter fun x => k < key x.val

theorem split_sorted {key : V → K} {nodes : List (Node V)} (h : Sorted key nodes) (k : K) :
    nodes = before key nodes k ++ range key nodes k ++ after key nodes k := by
  induction nodes with
  | nil => rfl
  | cons x nodes ih =>
    obtain ⟨hx, hrest⟩ := List.pairwise_cons.mp h
    have hrest := ih hrest
    unfold before range after at hrest ⊢
    rcases lt_trichotomy (key x.val) k with hlt | heq | hgt
    · simp only [List.filter_cons, hlt, hlt.ne, not_lt_of_gt hlt, decide_true, decide_false,
        if_true, if_false, Bool.false_eq_true, List.cons_append, ← hrest]
    · have hnone : nodes.filter (fun y => key y.val < k) = [] := by
        refine List.filter_eq_nil_iff.mpr fun y hy => ?_
        simpa using le_trans heq.ge (hx y hy)
      rw [hnone, List.nil_append] at hrest
      simp only [List.filter_cons, heq, lt_irrefl, decide_true, decide_false, if_true,
        if_false, Bool.false_eq_true, List.cons_append, hnone, List.nil_append, ← hrest]
    · have hlater : ∀ y ∈ nodes, k < key y.val := fun y hy => lt_of_lt_of_le hgt (hx y hy)
      have hnone : nodes.filter (fun y => key y.val < k) = [] :=
        List.filter_eq_nil_iff.mpr fun y hy => by simpa using (hlater y hy).le
      have hnone' : nodes.filter (fun y => key y.val = k) = [] :=
        List.filter_eq_nil_iff.mpr fun y hy => by simpa using (hlater y hy).ne'
      rw [hnone, hnone', List.nil_append, List.nil_append] at hrest
      simp only [List.filter_cons, hgt, hgt.ne', not_lt_of_gt hgt, decide_true, decide_false,
        if_true, if_false, Bool.false_eq_true, hnone, hnone', List.nil_append, ← hrest]

theorem split_range {key : V → K} {nodes : List (Node V)} (h : Sorted key nodes) (k : K) :
    before key nodes k ++ (range key nodes k ++ after key nodes k) = nodes := by
  rw [← List.append_assoc]
  exact (split_sorted h k).symm

theorem key_of_mem_range {key : V → K} {nodes : List (Node V)} {k : K} :
    ∀ x ∈ range key nodes k, key x.val = k := fun x hx => by simpa using (List.mem_filter.mp hx).2

theorem dropWhile_skip {p : Node V → Bool} {front rest : List (Node V)}
    (hfront : ∀ x ∈ front, p x = true) (hrest : ∀ x ∈ rest, p x = false) :
    (front ++ rest).dropWhile p = rest := by
  rw [List.dropWhile_append_of_pos hfront]
  cases rest with
  | nil => rfl
  | cons x rest => rw [List.dropWhile_cons, hrest x (List.mem_cons_self ..)]; rfl

theorem lowerBound_eq {key : V → K} {nodes : List (Node V)} (h : Sorted key nodes) (k : K) :
    lowerBound key nodes k = begin (range key nodes k ++ after key nodes k) := by
  rw [lowerBound]
  nth_rewrite 1 [← split_range h k]
  rw [dropWhile_skip]
  · exact fun x hx => (List.mem_filter.mp hx).2
  · intro x hx
    rcases List.mem_append.mp hx with hx | hx
    · simp [key_of_mem_range x hx]
    · have hgt : k < key x.val := by simpa using (List.mem_filter.mp hx).2
      simpa using hgt.le

theorem upperBound_eq {key : V → K} {nodes : List (Node V)} (h : Sorted key nodes) (k : K) :
    upperBound key nodes k = begin (after key nodes k) := by
  have hsplit := split_sorted h k
  rw [upperBound]
  nth_rewrite 1 [hsplit]
  rw [dropWhile_skip]
  · intro x hx
    rcases List.mem_append.mp hx with hx | hx
    · have hlt : key x.val < k := by simpa using (List.mem_filter.mp hx).2
      simpa using hlt.le
    · simp [key_of_mem_range x hx]
  · intro x hx
    have hgt : k < key x.val := by simpa using (List.mem_filter.mp hx).2
    simpa using hgt

-- ---------------------------------------------------------------------------
-- Nodes
-- ---------------------------------------------------------------------------

/-- The nodes are different ones. -/
def Distinct (nodes : List (Node V)) : Prop := (nodes.map Node.id).Nodup

theorem Distinct.without {front rest : List (Node V)} {x : Node V}
    (h : Distinct (front ++ x :: rest)) :
    x.id ∉ (front ++ rest).map Node.id ∧ Distinct (front ++ rest) := by
  have hperm : ((front ++ x :: rest).map Node.id).Perm ((x :: (front ++ rest)).map Node.id) :=
    List.perm_middle.map _
  exact List.nodup_cons.mp (hperm.nodup_iff.mp h)

theorem Distinct.ne {front rest : List (Node V)} {x : Node V}
    (h : Distinct (front ++ x :: rest)) : ∀ y ∈ front ++ rest, y.id ≠ x.id := by
  intro y hy heq
  have hnot := h.without.1
  rw [← heq] at hnot
  exact hnot (List.mem_map_of_mem hy)

theorem Distinct.not_mem_front {front rest : List (Node V)} {x : Node V}
    (h : Distinct (front ++ x :: rest)) : x.id ∉ front.map Node.id := by
  have hnot := h.without.1
  rw [List.map_append] at hnot
  exact fun hmem => hnot (List.mem_append_left _ hmem)

theorem Distinct.eq {nodes : List (Node V)} {x y : Node V} (h : Distinct nodes) (hx : x ∈ nodes)
    (hy : y ∈ nodes) (hid : x.id = y.id) : x = y := List.inj_on_of_nodup_map h hx hy hid

/-- A sequence of different nodes can be cut at a node in one way. -/
theorem Distinct.cut {front rest front' rest' : List (Node V)} {x x' : Node V}
    (h : Distinct (front ++ x :: rest)) (heq : front ++ x :: rest = front' ++ x' :: rest')
    (hid : x.id = x'.id) : front = front' ∧ x = x' ∧ rest = rest' := by
  have hmem : x ∈ front ++ x :: rest := List.mem_append_right _ (List.mem_cons_self ..)
  have hmem' : x' ∈ front ++ x :: rest := by
    rw [heq]
    exact List.mem_append_right _ (List.mem_cons_self ..)
  obtain rfl := h.eq hmem hmem' hid
  have hfront : x ∉ front := fun hx => h.not_mem_front (List.mem_map_of_mem hx)
  have hrest : x ∉ rest := by
    rw [Distinct, List.map_append, List.map_cons] at h
    exact fun hx =>
      (List.nodup_cons.mp (List.nodup_append.mp h).2.1).1 (List.mem_map_of_mem hx)
  exact (List.append_cons_inj_of_notMem hfront hrest).mp heq

theorem Distinct.of_ids {nodes nodes' : List (Node V)} (h : Distinct nodes)
    (hids : nodes'.map Node.id = nodes.map Node.id) : Distinct nodes' := by
  rw [Distinct, hids]
  exact h

/-- What an iterator reads and where it goes next. -/
theorem deref_append {front rest : List (Node V)} {x : Node V}
    (h : x.id ∉ front.map Node.id) : deref (front ++ x :: rest) x.id = some x.val := by
  induction front with
  | nil => simp [deref]
  | cons y front ih =>
    rw [List.map_cons, List.mem_cons, not_or] at h
    have hy : (y.id == x.id) = false := beq_eq_false_iff_ne.mpr (Ne.symm h.1)
    have hrest := ih h.2
    unfold deref at hrest ⊢
    rw [List.cons_append, List.find?_cons, hy]
    exact hrest

theorem next_append {front rest : List (Node V)} {id : Nat} {val : V}
    (h : id ∉ front.map Node.id) : next (front ++ ⟨id, val⟩ :: rest) id = begin rest := by
  induction front with
  | nil => rw [List.nil_append, next, if_pos rfl]
  | cons y front ih =>
    rw [List.map_cons, List.mem_cons, not_or] at h
    rw [List.cons_append, next, if_neg (Ne.symm h.1), ih h.2]

theorem sorted_insert {key : V → K} {front rest : List (Node V)} {x : Node V}
    (h : Sorted key (front ++ rest)) (hfront : ∀ y ∈ front, key y.val ≤ key x.val)
    (hrest : ∀ y ∈ rest, key x.val ≤ key y.val) : Sorted key (front ++ x :: rest) := by
  obtain ⟨hf, hr, hcross⟩ := List.pairwise_append.mp h
  refine List.pairwise_append.mpr ⟨hf, List.pairwise_cons.mpr ⟨hrest, hr⟩, fun y hy z hz => ?_⟩
  rcases List.mem_cons.mp hz with rfl | hz
  · exact hfront y hy
  · exact hcross y hy z hz

theorem sorted_parts {key : V → K} {front rest : List (Node V)} {x : Node V}
    (h : Sorted key (front ++ x :: rest)) :
    Sorted key (front ++ rest) ∧ (∀ y ∈ front, key y.val ≤ key x.val) ∧
      ∀ y ∈ rest, key x.val ≤ key y.val := by
  obtain ⟨hf, hr, hcross⟩ := List.pairwise_append.mp h
  obtain ⟨hx, hr⟩ := List.pairwise_cons.mp hr
  refine ⟨List.pairwise_append.mpr ⟨hf, hr, fun y hy z hz => ?_⟩, fun y hy => ?_, hx⟩
  · exact hcross y hy z (List.mem_cons_of_mem _ hz)
  · exact hcross y hy x (List.mem_cons_self ..)

-- ---------------------------------------------------------------------------
-- In place
-- ---------------------------------------------------------------------------

/-- The nodes of the range with the values that `func` gives for them in turn. -/
def updated (func : List V → V → V) : List V → List (Node V) → List (Node V)
  | _, [] => []
  | args, x :: rest => ⟨x.id, func args x.val⟩ :: updated func (args ++ [x.val]) rest

/-- No node of the rest of the range has to move, when its turn comes. -/
def InPlace (key : V → K) (func : List V → V → V) (beyond : List (Node V)) :
    List (Node V) → List V → List (Node V) → Prop
  | _, _, [] => True
  | front, args, x :: rest =>
    Sorted key (front ++ ⟨x.id, func args x.val⟩ :: (rest ++ beyond)) ∧
      InPlace key func beyond (front ++ [⟨x.id, func args x.val⟩]) (args ++ [x.val]) rest

/-- **When no node has to move**: the new values are in order where the old ones were, and none but
the last is beyond the key. -/
theorem inPlace_iff {key : V → K} {func : List V → V → V} {beyond : List (Node V)} {k : K}
    (rest : List (Node V)) (hrest : ∀ x ∈ rest, key x.val = k) (front : List (Node V))
    (args : List V) (hsorted : Sorted key (front ++ (rest ++ beyond))) :
    InPlace key func beyond front args rest ↔
      Sorted key (front ++ (updated func args rest ++ beyond)) ∧
        ∀ x ∈ (updated func args rest).dropLast, key x.val ≤ k := by
  induction rest generalizing front args with
  | nil => exact iff_of_true trivial ⟨hsorted, nofun⟩
  | cons x rest ih =>
    have hx := hrest x (List.mem_cons_self ..)
    have hlater : ∀ y ∈ rest, key y.val = k := fun y hy => hrest y (List.mem_cons_of_mem _ hy)
    rw [List.cons_append] at hsorted
    obtain ⟨hwithout, hfront, hbeyond⟩ := sorted_parts hsorted
    rw [InPlace, updated]
    generalize hv : func args x.val = val
    refine ⟨?_, ?_⟩
    · rintro ⟨hplace, hnext⟩
      have hstep : Sorted key (front ++ [⟨x.id, val⟩] ++ (rest ++ beyond)) := by simpa using hplace
      obtain ⟨hall, hdrop⟩ := (ih hlater _ _ hstep).mp hnext
      refine ⟨by simpa using hall, ?_⟩
      cases rest with
      | nil => exact nofun
      | cons y rest =>
        rw [updated, List.dropLast_cons_cons, List.forall_mem_cons]
        rw [updated] at hdrop
        refine ⟨?_, hdrop⟩
        rw [← hlater y (List.mem_cons_self ..)]
        exact (sorted_parts hplace).2.2 y (List.mem_cons_self ..)
    · rintro ⟨hall, hdrop⟩
      rw [List.cons_append] at hall
      obtain ⟨-, hfront', hbeyond'⟩ := sorted_parts hall
      have hplace : Sorted key (front ++ ⟨x.id, val⟩ :: (rest ++ beyond)) := by
        refine sorted_insert hwithout hfront' fun y hy => ?_
        rcases List.mem_append.mp hy with hy | hy
        · cases rest with
          | nil => cases hy
          | cons z rest =>
            rw [updated, List.dropLast_cons_cons, List.forall_mem_cons] at hdrop
            rw [hlater y hy]
            exact hdrop.1
        · exact hbeyond' y (List.mem_append_right _ hy)
      refine ⟨hplace, (ih hlater _ _ (by simpa using hplace)).mpr ⟨by simpa using hall, ?_⟩⟩
      cases rest with
      | nil => exact nofun
      | cons y rest =>
        rw [updated, List.dropLast_cons_cons, List.forall_mem_cons] at hdrop
        rw [updated]
        exact hdrop.2

-- ---------------------------------------------------------------------------
-- The loop
-- ---------------------------------------------------------------------------

section

variable {replace : List (Node V) → Nat → V → List (Node V)} {func : List V → V → V}
  {beyond : List (Node V)}

theorem loop_end {turns : Nat} {nodes calls : List (Node V)} {last : Iter} {count : Int} :
    loop replace func last (turns + 1) nodes last calls count = some ⟨nodes, calls, count⟩ := by
  rw [loop, if_pos rfl]

/-- A turn of the loop, on a node before the end of the range. -/
theorem loop_turn {turns : Nat} {front rest calls : List (Node V)} {x : Node V} {count : Int}
    (h : Distinct (front ++ x :: (rest ++ beyond))) :
    loop replace func (begin beyond) (turns + 1) (front ++ x :: (rest ++ beyond)) (some x.id) calls
        count =
      (int32 (count + 1)).bind fun count =>
        loop replace func (begin beyond) turns
          (replace (front ++ x :: (rest ++ beyond)) x.id (func (calls.map Node.val) x.val))
          (next (replace (front ++ x :: (rest ++ beyond)) x.id (func (calls.map Node.val) x.val))
            x.id)
          (calls ++ [x]) count := by
  have hne : some x.id ≠ begin beyond := by
    cases beyond with
    | nil => exact nofun
    | cons y beyond =>
      intro heq
      have hid : x.id = y.id := Option.some.inj heq
      rw [Distinct, List.map_append, List.map_cons] at h
      have hnot := (List.nodup_cons.mp (List.nodup_append.mp h).2.1).1
      apply hnot
      rw [hid]
      exact List.mem_map_of_mem (List.mem_append_right _ (List.mem_cons_self ..))
  rw [loop, if_neg hne]
  simp only [Option.bind_eq_bind, Option.bind_some, deref_append h.not_mem_front]

/-- **Where no node has to move, the loop goes through the range.** -/
theorem loop_inPlace {key : V → K} (hreplace : Replaces key replace) (rest : List (Node V))
    (front calls : List (Node V)) (count : Int) (hsorted : Sorted key (front ++ (rest ++ beyond)))
    (hdistinct : Distinct (front ++ (rest ++ beyond)))
    (hplace : InPlace key func beyond front (calls.map Node.val) rest)
    (hcount : 0 ≤ count ∧ count + rest.length ≤ 2147483647) :
    loop replace func (begin beyond) (rest.length + 1) (front ++ (rest ++ beyond))
        (begin (rest ++ beyond)) calls count =
      some ⟨front ++ (updated func (calls.map Node.val) rest ++ beyond), calls ++ rest,
        count + rest.length⟩ := by
  induction rest generalizing front calls count with
  | nil => rw [List.nil_append, loop_end]; simp [updated]
  | cons x rest ih =>
    obtain ⟨hstep, hnext⟩ := hplace
    rw [List.cons_append] at hsorted hdistinct
    have hfront := hdistinct.not_mem_front
    have hdistinct' : Distinct
        (front ++ ⟨x.id, func (calls.map Node.val) x.val⟩ :: (rest ++ beyond)) :=
      hdistinct.of_ids (by simp)
    rw [List.length_cons] at hcount ⊢
    push_cast at hcount ⊢
    rw [List.cons_append, begin_cons, loop_turn hdistinct,
      int32_of_mem (by unfold InInt32; omega), Option.bind_some,
      hreplace.stays front x (rest ++ beyond) _ hsorted hdistinct hstep, next_append hfront]
    have hlater := ih (front ++ [⟨x.id, func (calls.map Node.val) x.val⟩]) (calls ++ [x])
      (count + 1) (by simpa using hstep) (by simpa using hdistinct') (by simpa using hnext)
      (by omega)
    simp only [List.append_assoc, List.cons_append, List.nil_append, List.map_append,
      List.map_cons, List.map_nil] at hlater
    rw [hlater, updated, List.cons_append, Int.add_assoc, Int.add_comm 1]

/-- Calls are never taken back. -/
theorem calls_prefix {last : Iter} {turns : Nat} {nodes calls : List (Node V)} {iter : Iter}
    {count : Int} {r : Result V}
    (h : loop replace func last turns nodes iter calls count = some r) : calls <+: r.calls := by
  induction turns generalizing nodes iter calls count with
  | zero => cases h
  | succ turns ih =>
    rw [loop] at h
    split_ifs at h
    · cases h
      exact List.prefix_refl _
    · obtain ⟨_, -, h⟩ := Option.bind_eq_some_iff.mp h
      obtain ⟨_, -, h⟩ := Option.bind_eq_some_iff.mp h
      obtain ⟨_, -, h⟩ := Option.bind_eq_some_iff.mp h
      exact (List.prefix_append ..).trans (ih h)

/-- Where the loop can end after a call so that it has called `func` once for each node left: right
behind the last of them, or at another one. -/
theorem next_mem_of_calls {turns : Nat} {nodes rest calls : List (Node V)} {x : Node V}
    {iter : Iter} {count : Int} {r : Result V}
    (h : loop replace func (begin beyond) turns nodes iter (calls ++ [x]) count = some r)
    (hcalls : r.calls.Perm (calls ++ x :: rest)) :
    rest = [] ∧ iter = begin beyond ∨ ∃ y ∈ rest, iter = some y.id := by
  cases turns with
  | zero => cases h
  | succ turns =>
    rw [loop] at h
    split_ifs at h with hlast
    · cases h
      have hlen := hcalls.length_eq
      simp only [List.length_append, List.length_cons, List.length_nil] at hlen
      exact Or.inl ⟨List.eq_nil_of_length_eq_zero (by omega), hlast⟩
    · obtain ⟨id, hiter, hbody⟩ := Option.bind_eq_some_iff.mp h
      obtain ⟨val, -, hbody⟩ := Option.bind_eq_some_iff.mp hbody
      obtain ⟨_, -, hbody⟩ := Option.bind_eq_some_iff.mp hbody
      obtain ⟨later, hlater⟩ := calls_prefix hbody
      rw [← hlater, List.append_assoc, List.append_assoc, List.perm_append_left_iff] at hcalls
      have hperm : (⟨id, val⟩ :: later).Perm rest := (List.perm_cons x).mp hcalls
      have hmem : (⟨id, val⟩ : Node V) ∈ rest := hperm.mem_iff.mp (List.mem_cons_self ..)
      subst hiter
      exact Or.inr ⟨_, hmem, rfl⟩

/-- **A node that has to move leads out of the range**: if it goes on to a node left, or ends the
loop with none left, it could have stayed where it was. -/
theorem stays_of_next {key : V → K} {front rest front' rest' : List (Node V)} {x : Node V} {k : K}
    {val : V} (hdistinct : Distinct (front ++ x :: (rest ++ beyond)))
    (hsorted : Sorted key (front ++ x :: (rest ++ beyond))) (hrest : ∀ y ∈ rest, key y.val = k)
    (hsplit : front' ++ rest' = front ++ (rest ++ beyond))
    (hsorted' : Sorted key (front' ++ ⟨x.id, val⟩ :: rest'))
    (hnext : rest = [] ∧ begin rest' = begin beyond ∨ ∃ y ∈ rest, begin rest' = some y.id) :
    Sorted key (front ++ ⟨x.id, val⟩ :: (rest ++ beyond)) := by
  obtain ⟨hwithout, -, -⟩ := sorted_parts hsorted
  obtain ⟨-, hfront', hrest'⟩ := sorted_parts hsorted'
  have hothers := hdistinct.without.2
  rw [← hsplit] at hothers
  rcases hnext with ⟨rfl, hlast⟩ | ⟨y, hy, hnode⟩
  · have hsame : front' = front ∧ rest' = beyond := by
      cases rest' with
      | nil =>
        have hnil : beyond = [] := by
          cases beyond with
          | nil => rfl
          | cons z beyond => cases hlast
        subst hnil
        exact ⟨by simpa using hsplit, rfl⟩
      | cons z rest' =>
        cases beyond with
        | nil => cases hlast
        | cons z' beyond =>
          obtain ⟨rfl, rfl, rfl⟩ := hothers.cut hsplit (Option.some.inj hlast)
          exact ⟨rfl, rfl⟩
    obtain ⟨rfl, rfl⟩ := hsame
    exact hsorted'
  · cases rest' with
    | nil => cases hnode
    | cons z rest' =>
      obtain ⟨earlier, later, rfl⟩ := List.append_of_mem hy
      have hwhole : front' ++ z :: rest' = (front ++ earlier) ++ y :: (later ++ beyond) := by
        rw [hsplit]
        simp
      obtain ⟨rfl, rfl, rfl⟩ := hothers.cut hwhole (Option.some.inj hnode)
      -- the value has the key of the range, or a smaller one
      have hle : key val ≤ k := by
        rw [← hrest z hy]
        exact hrest' z (List.mem_cons_self ..)
      refine sorted_insert hwithout (fun w hw => hfront' w (List.mem_append_left _ hw)) ?_
      intro w hw
      rcases List.mem_append.mp hw with hw | hw
      · rw [hrest w hw]
        exact hle
      · exact hrest' w (List.mem_cons_of_mem _ (List.mem_append_right _ hw))

/-- **Where the loop goes through the range, no node has to move.** -/
theorem inPlace_of_loop {key : V → K} (hreplace : Replaces key replace) {k : K}
    (rest : List (Node V)) (hrest : ∀ x ∈ rest, key x.val = k) (front calls : List (Node V))
    (count : Int) (turns : Nat) {r : Result V} (hsorted : Sorted key (front ++ (rest ++ beyond)))
    (hdistinct : Distinct (front ++ (rest ++ beyond)))
    (h : loop replace func (begin beyond) turns (front ++ (rest ++ beyond))
      (begin (rest ++ beyond)) calls count = some r)
    (hcalls : r.calls.Perm (calls ++ rest)) (hcount : count ≤ 2147483647) :
    InPlace key func beyond front (calls.map Node.val) rest ∧
      count + rest.length ≤ 2147483647 := by
  induction rest generalizing front calls count turns with
  | nil => exact ⟨trivial, by simpa using hcount⟩
  | cons x rest ih =>
    rw [List.cons_append] at hsorted hdistinct
    cases turns with
    | zero => cases h
    | succ turns =>
      rw [List.cons_append, begin_cons, loop_turn hdistinct] at h
      generalize hval : func (calls.map Node.val) x.val = val at h
      obtain ⟨_, hint, h⟩ := Option.bind_eq_some_iff.mp h
      obtain ⟨hmem, rfl⟩ := int32_eq_some_iff.mp hint
      -- wherever the node goes, the loop goes on from there
      obtain ⟨front', rest', hmoved, hsplit, hsorted'⟩ :=
        hreplace.moves front x (rest ++ beyond) val hsorted hdistinct
      have hfront' : x.id ∉ front'.map Node.id := by
        have hnot := hdistinct.without.1
        rw [← hsplit, List.map_append] at hnot
        exact fun hx => hnot (List.mem_append_left _ hx)
      have hlater : ∀ y ∈ rest, key y.val = k := fun y hy => hrest y (List.mem_cons_of_mem _ hy)
      have hnext := h
      rw [hmoved, next_append hfront'] at hnext
      have hplace := stays_of_next hdistinct hsorted hlater hsplit hsorted'
        (next_mem_of_calls hnext hcalls)
      rw [hreplace.stays front x (rest ++ beyond) val hsorted hdistinct hplace,
        next_append hdistinct.not_mem_front] at h
      have hdistinct' : Distinct (front ++ ⟨x.id, val⟩ :: (rest ++ beyond)) :=
        hdistinct.of_ids (by simp)
      obtain ⟨hin, hlen⟩ := ih hlater (front ++ [⟨x.id, val⟩]) (calls ++ [x]) (count + 1) turns
        (by simpa using hplace) (by simpa using hdistinct') (by simpa using h)
        (by simpa using hcalls) hmem.2
      rw [InPlace, hval]
      refine ⟨⟨hplace, by simpa using hin⟩, ?_⟩
      rw [List.length_cons]
      push_cast
      omega

end

-- ---------------------------------------------------------------------------
-- UpdateRange
-- ---------------------------------------------------------------------------

/-- The range is updated: `func` was called once on each element with the key, as it was at the
start, and on no other; each now has the value that `func` gave for it, and the other elements are
unchanged; and the count is theirs. -/
structure UpdatesRange (key : V → K) (func : List V → V → V) (nodes : List (Node V)) (k : K)
    (r : Result V) : Prop where
  calls : r.calls.Perm (range key nodes k)
  ids : (r.nodes.map Node.id).Perm (nodes.map Node.id)
  values : ∀ earlier x later, r.calls = earlier ++ x :: later →
    ⟨x.id, func (earlier.map Node.val) x.val⟩ ∈ r.nodes
  others : ∀ x ∈ nodes, key x.val ≠ k → x ∈ r.nodes
  count : r.count = (range key nodes k).length

theorem updated_ids (func : List V → V → V) (args : List V) (nodes : List (Node V)) :
    (updated func args nodes).map Node.id = nodes.map Node.id := by
  induction nodes generalizing args with
  | nil => rfl
  | cons x nodes ih => rw [updated, List.map_cons, List.map_cons, ih]

theorem mem_updated (func : List V → V → V) (args : List V) (earlier later : List (Node V))
    (x : Node V) :
    ⟨x.id, func (args ++ earlier.map Node.val) x.val⟩ ∈
      updated func args (earlier ++ x :: later) := by
  induction earlier generalizing args with
  | nil =>
    rw [List.map_nil, List.append_nil, List.nil_append, updated]
    exact List.mem_cons_self ..
  | cons y earlier ih =>
    have hrest := ih (args ++ [y.val])
    rw [List.append_assoc] at hrest
    exact List.mem_cons_of_mem _ hrest

/-- With its new values in place the range is updated. -/
theorem updatesRange_updated {key : V → K} {nodes : List (Node V)} (h : Sorted key nodes) (k : K)
    (func : List V → V → V) :
    UpdatesRange key func nodes k
      ⟨before key nodes k ++ (updated func [] (range key nodes k) ++ after key nodes k),
        range key nodes k, (range key nodes k).length⟩ where
  calls := List.Perm.refl _
  ids := by
    have hids : nodes.map Node.id =
        (before key nodes k ++ (range key nodes k ++ after key nodes k)).map Node.id := by
      rw [split_range h]
    rw [hids, List.map_append, List.map_append, List.map_append, List.map_append, updated_ids]
  values earlier x later hcalls := by
    refine List.mem_append_right _ (List.mem_append_left _ ?_)
    simp only at hcalls
    rw [hcalls]
    exact mem_updated func [] earlier later x
  others x hx hne := by
    rcases lt_or_gt_of_ne hne with hlt | hgt
    · exact List.mem_append_left _ (List.mem_filter.mpr ⟨hx, by simpa using hlt⟩)
    · have hafter : x ∈ after key nodes k := List.mem_filter.mpr ⟨hx, by simpa using hgt⟩
      exact List.mem_append_right _ (List.mem_append_right _ hafter)
  count := rfl

theorem updateRange_eq {replace : List (Node V) → Nat → V → List (Node V)} {key : V → K}
    {nodes : List (Node V)} (h : Sorted key nodes) (func : List V → V → V) (turns : Nat) (k : K) :
    updateRange replace key func turns nodes k =
      loop replace func (begin (after key nodes k)) turns
        (before key nodes k ++ (range key nodes k ++ after key nodes k))
        (begin (range key nodes k ++ after key nodes k)) [] 0 := by
  rw [updateRange, lowerBound_eq h, upperBound_eq h, split_range h]

/-- **When `UpdateRange` updates the range**: the new values, in the place of the old ones, are in
order, and none but the last is beyond the key; and an `int` can count them. -/
theorem updateRange_iff {replace : List (Node V) → Nat → V → List (Node V)} {key : V → K}
    (hreplace : Replaces key replace) (c : Index key) (k : K) (func : List V → V → V) :
    (∃ turns r, updateRange replace key func turns c.nodes k = some r ∧
      UpdatesRange key func c.nodes k r) ↔
      Sorted key (before key c.nodes k ++
        (updated func [] (range key c.nodes k) ++ after key c.nodes k)) ∧
        (∀ x ∈ (updated func [] (range key c.nodes k)).dropLast, key x.val ≤ k) ∧
        (range key c.nodes k).length ≤ 2147483647 := by
  have hsorted : Sorted key
      (before key c.nodes k ++ (range key c.nodes k ++ after key c.nodes k)) := by
    rw [split_range c.sorted]
    exact c.sorted
  have hdistinct : Distinct
      (before key c.nodes k ++ (range key c.nodes k ++ after key c.nodes k)) := by
    rw [split_range c.sorted]
    exact c.nodup
  rw [← and_assoc, ← inPlace_iff _ key_of_mem_range _ [] hsorted]
  refine ⟨?_, ?_⟩
  · rintro ⟨turns, r, hrun, hr⟩
    rw [updateRange_eq c.sorted] at hrun
    obtain ⟨hin, hlen⟩ := inPlace_of_loop hreplace _ key_of_mem_range _ [] 0 turns hsorted
      hdistinct hrun hr.calls (by decide)
    exact ⟨hin, by omega⟩
  · rintro ⟨hin, hlen⟩
    have hrun := loop_inPlace hreplace _ _ [] 0 hsorted hdistinct hin ⟨Int.le_refl 0, by omega⟩
    rw [← updateRange_eq c.sorted, List.nil_append, Int.zero_add] at hrun
    exact ⟨_, _, hrun, updatesRange_updated c.sorted k func⟩

-- ---------------------------------------------------------------------------
-- An index that replaces
-- ---------------------------------------------------------------------------

instance (key : V → K) (nodes : List (Node V)) : Decidable (Sorted key nodes) :=
  inferInstanceAs (Decidable (nodes.Pairwise fun x y => key x.val ≤ key y.val))

/-- `replace` that leaves the node where it is if it can, and else puts it behind the nodes with no
greater key. -/
def orderedReplace (key : V → K) (nodes : List (Node V)) (id : Nat) (val : V) : List (Node V) :=
  let stay := nodes.map fun x => if x.id = id then ⟨id, val⟩ else x
  let others := nodes.filter fun x => x.id ≠ id
  if Sorted key stay then stay
  else others.takeWhile (fun x => key x.val ≤ key val) ++
    ⟨id, val⟩ :: others.dropWhile fun x => key x.val ≤ key val

theorem sorted_dropWhile {key : V → K} {nodes : List (Node V)} (h : Sorted key nodes) (k : K) :
    ∀ y ∈ nodes.dropWhile (fun x => key x.val ≤ k), k ≤ key y.val := by
  induction nodes with
  | nil => exact nofun
  | cons x nodes ih =>
    obtain ⟨hx, hrest⟩ := List.pairwise_cons.mp h
    rw [List.dropWhile_cons]
    split_ifs with hle
    · exact ih hrest
    · have hlt : k < key x.val := by simpa using hle
      intro y hy
      rcases List.mem_cons.mp hy with rfl | hy
      · exact hlt.le
      · exact hlt.le.trans (hx y hy)

theorem orderedReplace_eq {key : V → K} {front rest : List (Node V)} {x : Node V} (val : V)
    (h : Distinct (front ++ x :: rest)) :
    orderedReplace key (front ++ x :: rest) x.id val =
      if Sorted key (front ++ ⟨x.id, val⟩ :: rest) then front ++ ⟨x.id, val⟩ :: rest
      else (front ++ rest).takeWhile (fun y => key y.val ≤ key val) ++
        ⟨x.id, val⟩ :: (front ++ rest).dropWhile fun y => key y.val ≤ key val := by
  have hother : ∀ y ∈ front ++ rest, y.id ≠ x.id := h.ne
  have hmap : ∀ nodes : List (Node V), (∀ y ∈ nodes, y.id ≠ x.id) →
      nodes.map (fun y => if y.id = x.id then ⟨x.id, val⟩ else y) = nodes := fun nodes hnodes => by
    rw [List.map_congr_left fun y hy => if_neg (hnodes y hy), List.map_id']
  have hstay : (front ++ x :: rest).map (fun y => if y.id = x.id then ⟨x.id, val⟩ else y) =
      front ++ ⟨x.id, val⟩ :: rest := by
    rw [List.map_append, List.map_cons, if_pos rfl,
      hmap front fun y hy => hother y (List.mem_append_left _ hy),
      hmap rest fun y hy => hother y (List.mem_append_right _ hy)]
  have hothers : (front ++ x :: rest).filter (fun y => y.id ≠ x.id) = front ++ rest := by
    rw [List.filter_append, List.filter_cons_of_neg (by simp), ← List.filter_append]
    exact List.filter_eq_self.mpr fun y hy => decide_eq_true (hother y hy)
  unfold orderedReplace
  rw [hstay, hothers]

theorem orderedReplace_replaces (key : V → K) : Replaces key (orderedReplace key) where
  moves front x rest val hsorted hnodup := by
    rw [orderedReplace_eq val hnodup]
    split_ifs with hstay
    · exact ⟨front, rest, rfl, rfl, hstay⟩
    · refine ⟨_, _, rfl, List.takeWhile_append_dropWhile, ?_⟩
      have hothers := (sorted_parts hsorted).1
      refine sorted_insert ?_ (fun y hy => ?_) (sorted_dropWhile hothers (key val))
      · rw [List.takeWhile_append_dropWhile]
        exact hothers
      · simpa using List.mem_takeWhile_imp hy
  stays front x rest val _ hnodup hstay := by rw [orderedReplace_eq val hnodup, if_pos hstay]

/-- Two elements with one key. -/
def tens : Index (K := Nat) fun val : Nat => val / 10 where
  nodes := [⟨0, 10⟩, ⟨1, 11⟩]
  nodup := by decide
  sorted := by decide

/-- A greater key takes the first element past the second: the loop ends there, with one element
updated and the other not. -/
theorem updateRange_greater_key :
    Replaces (fun val : Nat => val / 10) (orderedReplace fun val : Nat => val / 10) ∧
      ¬ ∃ turns r, updateRange (orderedReplace fun val : Nat => val / 10) (fun val => val / 10)
        (fun _ val => val + 10) turns tens.nodes 1 = some r ∧
        UpdatesRange (fun val => val / 10) (fun _ val => val + 10) tens.nodes 1 r := by
  refine ⟨orderedReplace_replaces _, ?_⟩
  rintro ⟨turns, r, hrun, hr⟩
  rcases turns with _ | _ | turns
  · cases hrun
  · cases hrun
  · have hend : updateRange (orderedReplace fun val : Nat => val / 10) (fun val => val / 10)
        (fun _ val => val + 10) (turns + 2) tens.nodes 1 =
          some ⟨[⟨1, 11⟩, ⟨0, 20⟩], [⟨0, 10⟩], 1⟩ := rfl
    cases hend.symm.trans hrun
    exact absurd hr.count (by decide)

/-- With a smaller key, and no elements before, both are updated. -/
theorem updateRange_smaller_key :
    ∃ turns r, updateRange (orderedReplace fun val : Nat => val / 10) (fun val => val / 10)
      (fun _ val => val - 10) turns tens.nodes 1 = some r ∧
      UpdatesRange (fun val => val / 10) (fun _ val => val - 10) tens.nodes 1 r :=
  (updateRange_iff (orderedReplace_replaces _) tens 1 _).mpr (by decide)

end Zrtools.Bmic

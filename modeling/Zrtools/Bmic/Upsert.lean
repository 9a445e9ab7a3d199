import Mathlib.Data.List.Perm.Lattice
import Mathlib.Data.List.Nodup
import Zrtools.Bmic

/-!
# zrtools — `BMIC::Update` (`zrt_bmic.h`)

A container has any number of indices, and no two of its elements have the same key in a unique
one. `replace` and `emplace` are refused where a value would break that, and say so; `Update` does
not ask.

* `update_returns` — the result tells whether an element was found, and nothing else;
* `update_upserts_iff` — when that is what was done.
-/

namespace Zrtools.Bmic

variable {V : Type}

-- ---------------------------------------------------------------------------
-- Containers
-- ---------------------------------------------------------------------------

/-- An index: the keys of elements, which are the same if the index takes them for equal. -/
structure KeyIndex (V : Type) where
  Key : Type
  key : V → Key
  unique : Bool
  decEq : DecidableEq Key

instance (index : KeyIndex V) : DecidableEq index.Key := index.decEq

/-- A value has the key of one of the nodes, in a unique index. -/
def Collides (indices : List (KeyIndex V)) (nodes : List (Node V)) (val : V) : Prop :=
  ∃ index ∈ indices, index.unique = true ∧ ∃ x ∈ nodes, index.key x.val = index.key val

instance (indices : List (KeyIndex V)) (nodes : List (Node V)) (val : V) :
    Decidable (Collides indices nodes val) :=
  inferInstanceAs (Decidable (∃ index ∈ indices,
    index.unique = true ∧ ∃ x ∈ nodes, index.key x.val = index.key val))

/-- The nodes are different ones, and so are their keys in a unique index. -/
structure Valid (indices : List (KeyIndex V)) (nodes : List (Node V)) : Prop where
  distinct : Distinct nodes
  keys : ∀ index ∈ indices, index.unique = true → (nodes.map fun x => index.key x.val).Nodup

/-- The content of a container. -/
structure Content (indices : List (KeyIndex V)) where
  nodes : List (Node V)
  valid : Valid indices nodes

variable {indices : List (KeyIndex V)}

/-- A value for the node of an iterator, or for a new one, would collide with another node. -/
def Refused (c : Content indices) (iter : Iter) (val : V) : Prop :=
  Collides indices (c.nodes.filter fun x => some x.id ≠ iter) val

instance (c : Content indices) (iter : Iter) (val : V) : Decidable (Refused c iter val) :=
  inferInstanceAs (Decidable (Collides _ _ _))

/-- The members of a container that the code calls. -/
structure MultiIndex (indices : List (KeyIndex V)) where
  find : (index : KeyIndex V) → Content indices → index.Key → Iter
  replace : Content indices → Nat → V → Content indices × Bool
  emplace : Content indices → V → Content indices × Bool

/-- What they do: `find` an element with the key if there is one; `replace` the value of a node, and
`emplace` a value in a node of its own, or leave the content alone and return false. -/
structure MultiIndex.Lawful (b : MultiIndex indices) : Prop where
  find_some : ∀ {index c k id}, index ∈ indices → b.find index c k = some id →
    ∃ x ∈ c.nodes, x.id = id ∧ index.key x.val = k
  find_none : ∀ {index c k}, index ∈ indices → b.find index c k = none →
    ∀ x ∈ c.nodes, index.key x.val ≠ k
  replace_done : ∀ {c x others val}, c.nodes.Perm (x :: others) → ¬Refused c (some x.id) val →
    (b.replace c x.id val).1.nodes.Perm (⟨x.id, val⟩ :: others) ∧
      (b.replace c x.id val).2 = true
  replace_refused : ∀ {c id val}, Refused c (some id) val → b.replace c id val = (c, false)
  emplace_done : ∀ {c val}, ¬Refused c none val →
    (∃ id, (b.emplace c val).1.nodes.Perm (⟨id, val⟩ :: c.nodes)) ∧ (b.emplace c val).2 = true
  emplace_refused : ∀ {c val}, Refused c none val → b.emplace c val = (c, false)

-- ---------------------------------------------------------------------------
-- The code
-- ---------------------------------------------------------------------------

/-- `Update<Index>(key, val)`. -/
def update (b : MultiIndex indices) (index : KeyIndex V) (c : Content indices) (k : index.Key)
    (val : V) : Content indices × Bool :=
  match b.find index c k with
  | some iter => ((b.replace c iter val).1, true)
  | none => ((b.emplace c val).1, false)

/-- `UpdateBmic<Index>(container, key, val)`. -/
def updateBmic (b : MultiIndex indices) (index : KeyIndex V) (c : Content indices)
    (k : index.Key) (val : V) : Content indices :=
  match b.find index c k with
  | some iter => (b.replace c iter val).1
  | none => (b.emplace c val).1

theorem updateBmic_eq (b : MultiIndex indices) (index : KeyIndex V) (c : Content indices)
    (k : index.Key) (val : V) : updateBmic b index c k val = (update b index c k val).1 := by
  unfold updateBmic update
  split <;> rfl

-- ---------------------------------------------------------------------------
-- Nodes and their keys
-- ---------------------------------------------------------------------------

theorem collides_perm {nodes nodes' : List (Node V)} (h : nodes.Perm nodes') (val : V) :
    Collides indices nodes val ↔ Collides indices nodes' val := by
  simp only [Collides, h.mem_iff]

theorem Valid.perm {nodes nodes' : List (Node V)} (hvalid : Valid indices nodes)
    (h : nodes.Perm nodes') : Valid indices nodes' where
  distinct := (h.map Node.id).nodup_iff.mp hvalid.distinct
  keys index hindex hunique := (h.map _).nodup_iff.mp (hvalid.keys index hindex hunique)

/-- A node more. -/
theorem valid_cons {x : Node V} {others : List (Node V)} :
    Valid indices (x :: others) ↔
      (x.id ∉ others.map Node.id ∧ ¬Collides indices others x.val) ∧ Valid indices others := by
  refine ⟨?_, ?_⟩
  · intro h
    obtain ⟨hid, hdistinct⟩ := List.nodup_cons.mp h.distinct
    refine ⟨⟨hid, ?_⟩, hdistinct, fun index hindex hunique => ?_⟩
    · rintro ⟨index, hindex, hunique, y, hy, hkey⟩
      have hkeys := h.keys index hindex hunique
      rw [List.map_cons] at hkeys
      exact (List.nodup_cons.mp hkeys).1 (List.mem_map.mpr ⟨y, hy, hkey⟩)
    · have hkeys := h.keys index hindex hunique
      rw [List.map_cons] at hkeys
      exact (List.nodup_cons.mp hkeys).2
  · rintro ⟨⟨hid, hcollides⟩, h⟩
    refine ⟨List.nodup_cons.mpr ⟨hid, h.distinct⟩, fun index hindex hunique => ?_⟩
    rw [List.map_cons]
    refine List.nodup_cons.mpr ⟨fun hmem => ?_, h.keys index hindex hunique⟩
    obtain ⟨y, hy, hkey⟩ := List.mem_map.mp hmem
    exact hcollides ⟨index, hindex, hunique, y, hy, hkey⟩

/-- The node of an iterator and the others. -/
theorem Content.exists_others (c : Content indices) {x : Node V} (hx : x ∈ c.nodes) :
    ∃ others, c.nodes.Perm (x :: others) := by
  obtain ⟨front, rest, hsplit⟩ := List.append_of_mem hx
  exact ⟨front ++ rest, hsplit ▸ List.perm_middle⟩

theorem refused_some {c : Content indices} {x : Node V} {others : List (Node V)}
    (h : c.nodes.Perm (x :: others)) (val : V) :
    Refused c (some x.id) val ↔ Collides indices others val := by
  have hnot := (valid_cons.mp (c.valid.perm h)).1.1
  have hothers : (x :: others).filter (fun y => some y.id ≠ some x.id) = others := by
    rw [List.filter_cons_of_neg (by simp), List.filter_eq_self]
    intro y hy
    have hne : y.id ≠ x.id := fun heq => hnot (heq ▸ List.mem_map_of_mem hy)
    simpa using hne
  have hperm := h.filter fun y => decide (some y.id ≠ some x.id)
  rw [hothers] at hperm
  exact collides_perm hperm val

theorem refused_none (c : Content indices) (val : V) :
    Refused c none val ↔ Collides indices c.nodes val := by
  rw [Refused, List.filter_eq_self.mpr fun _ _ => by simp]

-- ---------------------------------------------------------------------------
-- Update
-- ---------------------------------------------------------------------------

/-- `Update` was an upsert: the container holds the value; it returned true if the value took the
place of the one that was found, and false if it came in as a new one; and all else is as it
was. -/
structure Upserts (b : MultiIndex indices) (index : KeyIndex V) (c : Content indices)
    (k : index.Key) (val : V) (r : Content indices × Bool) : Prop where
  holds : val ∈ r.1.nodes.map Node.val
  replaced : r.2 = true ↔ ∃ x others, b.find index c k = some x.id ∧
    c.nodes.Perm (x :: others) ∧ r.1.nodes.Perm (⟨x.id, val⟩ :: others)
  inserted : r.2 = false ↔ ∃ id, r.1.nodes.Perm (⟨id, val⟩ :: c.nodes)

/-- The result tells whether there was an element with the key. -/
theorem update_returns {b : MultiIndex indices} (hb : b.Lawful) {index : KeyIndex V}
    (hindex : index ∈ indices) (c : Content indices) (k : index.Key) (val : V) :
    (update b index c k val).2 = true ↔ ∃ x ∈ c.nodes, index.key x.val = k := by
  unfold update
  split
  · rename_i id hfind
    obtain ⟨x, hx, -, hkey⟩ := hb.find_some hindex hfind
    exact iff_of_true rfl ⟨x, hx, hkey⟩
  · rename_i hfind
    refine iff_of_false Bool.false_ne_true ?_
    rintro ⟨x, hx, hkey⟩
    exact hb.find_none hindex hfind x hx hkey

section Outcomes

variable {b : MultiIndex indices} {index : KeyIndex V} {c : Content indices} {k : index.Key}
  {val : V}

/-- An element is found, and its node takes the value. -/
theorem upserts_replaced {x : Node V} {others : List (Node V)} {c' : Content indices}
    (hfind : b.find index c k = some x.id) (hothers : c.nodes.Perm (x :: others))
    (hafter : c'.nodes.Perm (⟨x.id, val⟩ :: others)) : Upserts b index c k val (c', true) where
  holds := List.mem_map.mpr ⟨_, hafter.mem_iff.mpr (List.mem_cons_self ..), rfl⟩
  replaced := iff_of_true rfl ⟨x, others, hfind, hothers, hafter⟩
  inserted := by
    refine iff_of_false (by simp) ?_
    rintro ⟨id, hinserted⟩
    have hlen := (hafter.symm.trans hinserted).length_eq
    have hlen' := hothers.length_eq
    simp only [List.length_cons] at hlen hlen'
    omega

/-- No element is found, and a new node has the value. -/
theorem upserts_inserted {id : Nat} {c' : Content indices} (hfind : b.find index c k = none)
    (hafter : c'.nodes.Perm (⟨id, val⟩ :: c.nodes)) : Upserts b index c k val (c', false) where
  holds := List.mem_map.mpr ⟨_, hafter.mem_iff.mpr (List.mem_cons_self ..), rfl⟩
  replaced := by
    refine iff_of_false Bool.false_ne_true ?_
    rintro ⟨x, others, hnode, -⟩
    rw [hfind] at hnode
    cases hnode
  inserted := iff_of_true rfl ⟨id, hafter⟩

/-- The node that was found would hold the value already, and collide with no other. -/
theorem not_upserts_of_refused_some {id : Nat} (hfind : b.find index c k = some id)
    (hrefused : Refused c (some id) val) : ¬Upserts b index c k val (c, true) := by
  intro h
  obtain ⟨y, rest, hnode, hrest, hafter⟩ := h.replaced.mp rfl
  have hcollides : ¬Collides indices rest val := (valid_cons.mp (c.valid.perm hafter)).1.2
  rw [hfind, Option.some.injEq] at hnode
  rw [hnode] at hrefused
  exact hcollides ((refused_some hrest val).mp hrefused)

/-- Nothing is new. -/
theorem not_upserts_unchanged : ¬Upserts b index c k val (c, false) := by
  intro h
  obtain ⟨id, hinserted⟩ := h.inserted.mp rfl
  have hlen := hinserted.length_eq
  simp only [List.length_cons] at hlen
  omega

end Outcomes

/-- **When `Update` is an upsert**: the value collides with no node but the one that was found. -/
theorem update_upserts_iff {b : MultiIndex indices} (hb : b.Lawful) {index : KeyIndex V}
    (hindex : index ∈ indices) (c : Content indices) (k : index.Key) (val : V) :
    Upserts b index c k val (update b index c k val) ↔ ¬Refused c (b.find index c k) val := by
  cases hfind : b.find index c k with
  | some id =>
    obtain ⟨x, hx, rfl, -⟩ := hb.find_some hindex hfind
    obtain ⟨others, hothers⟩ := c.exists_others hx
    have hupdate : update b index c k val = ((b.replace c x.id val).1, true) := by
      rw [update, hfind]
    rw [hupdate]
    refine ⟨?_, ?_⟩
    · intro h hrefused
      rw [hb.replace_refused hrefused] at h
      exact not_upserts_of_refused_some hfind hrefused h
    · intro hok
      exact upserts_replaced hfind hothers (hb.replace_done hothers hok).1
  | none =>
    have hupdate : update b index c k val = ((b.emplace c val).1, false) := by
      rw [update, hfind]
    rw [hupdate]
    refine ⟨?_, ?_⟩
    · intro h hrefused
      rw [hb.emplace_refused hrefused] at h
      exact not_upserts_unchanged h
    · intro hok
      obtain ⟨⟨id, hafter⟩, -⟩ := hb.emplace_done hok
      exact upserts_inserted hfind hafter

-- ---------------------------------------------------------------------------
-- A container that keeps its nodes in a list
-- ---------------------------------------------------------------------------

def assign (nodes : List (Node V)) (id : Nat) (val : V) : List (Node V) :=
  nodes.map fun x => if x.id = id then ⟨id, val⟩ else x

theorem assign_of_not_mem {nodes : List (Node V)} {id : Nat} (h : id ∉ nodes.map Node.id)
    (val : V) : assign nodes id val = nodes := by
  have hsame : ∀ x ∈ nodes, (if x.id = id then ⟨id, val⟩ else x) = x := by
    intro x hx
    refine if_neg ?_
    rintro rfl
    exact h (List.mem_map_of_mem hx)
  rw [assign, List.map_congr_left hsame, List.map_id']

theorem assign_perm {c : Content indices} {x : Node V} {others : List (Node V)}
    (h : c.nodes.Perm (x :: others)) (val : V) :
    (assign c.nodes x.id val).Perm (⟨x.id, val⟩ :: others) := by
  have hnot := (valid_cons.mp (c.valid.perm h)).1.1
  have hperm := h.map fun y => if y.id = x.id then (⟨x.id, val⟩ : Node V) else y
  rw [List.map_cons, if_pos rfl, ← assign, ← assign, assign_of_not_mem hnot] at hperm
  exact hperm

theorem valid_assign {c : Content indices} {id : Nat} {val : V} (h : ¬Refused c (some id) val) :
    Valid indices (assign c.nodes id val) := by
  by_cases hid : id ∈ c.nodes.map Node.id
  · obtain ⟨x, hx, rfl⟩ := List.mem_map.mp hid
    obtain ⟨others, hothers⟩ := c.exists_others hx
    obtain ⟨⟨hnot, -⟩, hvalid⟩ := valid_cons.mp (c.valid.perm hothers)
    rw [refused_some hothers] at h
    have hafter : Valid indices (⟨x.id, val⟩ :: others) := valid_cons.mpr ⟨⟨hnot, h⟩, hvalid⟩
    exact hafter.perm (assign_perm hothers val).symm
  · rw [assign_of_not_mem hid]
    exact c.valid

/-- A number that no node has. -/
def fresh : List (Node V) → Nat
  | [] => 0
  | x :: nodes => max (x.id + 1) (fresh nodes)

theorem lt_fresh {nodes : List (Node V)} {x : Node V} (h : x ∈ nodes) : x.id < fresh nodes := by
  induction nodes with
  | nil => cases h
  | cons y nodes ih =>
    rw [fresh]
    rcases List.mem_cons.mp h with rfl | h
    · exact Nat.lt_of_lt_of_le (Nat.lt_succ_self _) (Nat.le_max_left ..)
    · exact Nat.lt_of_lt_of_le (ih h) (Nat.le_max_right ..)

theorem fresh_not_mem (nodes : List (Node V)) : fresh nodes ∉ nodes.map Node.id := by
  intro hmem
  obtain ⟨x, hx, hid⟩ := List.mem_map.mp hmem
  exact Nat.ne_of_lt (lt_fresh hx) hid

theorem valid_fresh {c : Content indices} {val : V} (h : ¬Refused c none val) :
    Valid indices (⟨fresh c.nodes, val⟩ :: c.nodes) :=
  valid_cons.mpr ⟨⟨fresh_not_mem c.nodes, (refused_none c val).not.mp h⟩, c.valid⟩

def listIndex (indices : List (KeyIndex V)) : MultiIndex indices where
  find index c k := begin (c.nodes.filter fun x => index.key x.val = k)
  replace c id val :=
    if h : Refused c (some id) val then (c, false) else (⟨_, valid_assign h⟩, true)
  emplace c val := if h : Refused c none val then (c, false) else (⟨_, valid_fresh h⟩, true)

theorem listIndex_lawful (indices : List (KeyIndex V)) : (listIndex indices).Lawful where
  find_some {index c k id} _ hfind := by
    obtain ⟨x, hhead, rfl⟩ := Option.map_eq_some_iff.mp hfind
    obtain ⟨hx, hkey⟩ := List.mem_filter.mp (List.mem_of_head? hhead)
    exact ⟨x, hx, rfl, by simpa using hkey⟩
  find_none {index c k} _ hfind := by
    have hnil := List.head?_eq_none_iff.mp (Option.map_eq_none_iff.mp hfind)
    intro x hx
    simpa using List.filter_eq_nil_iff.mp hnil x hx
  replace_done {c x others val} hothers h := by
    have hreplace : (listIndex indices).replace c x.id val = (⟨_, valid_assign h⟩, true) :=
      dif_neg h
    rw [hreplace]
    exact ⟨assign_perm hothers val, rfl⟩
  replace_refused h := dif_pos h
  emplace_done {c val} h := by
    have hemplace : (listIndex indices).emplace c val = (⟨_, valid_fresh h⟩, true) := dif_neg h
    rw [hemplace]
    exact ⟨⟨_, List.Perm.refl _⟩, rfl⟩
  emplace_refused h := dif_pos h

/-- Two unique indices, by either half of a pair. -/
def halves : List (KeyIndex (Nat × Nat)) :=
  [⟨Nat, Prod.fst, true, inferInstance⟩, ⟨Nat, Prod.snd, true, inferInstance⟩]

def twoPairs : Content halves where
  nodes := [⟨0, (1, 10)⟩, ⟨1, (2, 20)⟩]
  valid := ⟨by unfold Distinct; decide, by decide⟩

/-- The second half of the value is taken: nothing is replaced, and the result is true. -/
theorem update_collision :
    (listIndex halves).Lawful ∧ ∃ index ∈ halves, ∃ k : index.Key,
      (update (listIndex halves) index twoPairs k (1, 20)).2 = true ∧
        ¬Upserts (listIndex halves) index twoPairs k (1, 20)
          (update (listIndex halves) index twoPairs k (1, 20)) :=
  ⟨listIndex_lawful halves, _, List.mem_cons_self .., (1 : Nat), rfl, fun h => by
    have hmem := h.holds
    revert hmem
    decide⟩

theorem update_freeHalf :
    ∃ index ∈ halves, ∃ k : index.Key,
      Upserts (listIndex halves) index twoPairs k (1, 30)
        (update (listIndex halves) index twoPairs k (1, 30)) :=
  ⟨_, List.mem_cons_self .., (1 : Nat), (update_upserts_iff (listIndex_lawful halves)
    (List.mem_cons_self ..) twoPairs _ _).mpr (by decide)⟩

end Zrtools.Bmic

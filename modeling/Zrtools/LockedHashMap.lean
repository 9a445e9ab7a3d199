import Zrtools.Lib.SharedMutex
import Mathlib.Data.List.AList

/-!
# zrtools — `LockedHashMap`

A `std::unordered_map` behind a `std::shared_mutex`. Each member function takes the
mutex, shared if it is `const`, and then works on the map in several accesses: `find`
looks the key up and then reads `it->second`, the loops visit one element at a time.

* `Represents` — the map as a partial function, whatever the iteration order;
* `lockedHashMap_linearizable` — threads see a map whose calls take effect at once;
* `no_update_lost` — updates by `update_if_exists` from any number of threads are all in
  the final value.
-/

namespace Zrtools.LockedHashMap

open SharedMutex

-- ---------------------------------------------------------------------------
-- `std::unordered_map`
-- ---------------------------------------------------------------------------

section Map

variable {K V : Type} [DecidableEq K]

/-- The order of iteration after an insertion, which the buckets decide; `n` counts the
insertions. -/
structure Buckets (K V : Type) where
  arrange : Nat → AList (fun _ : K => V) → AList (fun _ : K => V)
  perm : ∀ n a, (arrange n a).entries.Perm a.entries

structure HashMap (K V : Type) where
  elements : AList (fun _ : K => V)
  insertions : Nat

namespace HashMap

variable (buckets : Buckets K V) (m : HashMap K V)

omit [DecidableEq K] in
def empty : HashMap K V := ⟨∅, 0⟩

def find (k : K) : Option V := m.elements.lookup k

/-- A new element. -/
def add (k : K) (v : V) : HashMap K V :=
  ⟨buckets.arrange m.insertions (m.elements.insert k v), m.insertions + 1⟩

/-- `it->second = v`, where `it` points to the element of `k`. -/
def assign (k : K) (v : V) : HashMap K V := { m with elements := m.elements.replace k v }

def insertOrAssign (k : K) (v : V) : HashMap K V :=
  if (m.find k).isNone then m.add buckets k v else m.assign k v

def insert (k : K) (v : V) : HashMap K V :=
  if (m.find k).isNone then m.add buckets k v else m

def erase (k : K) : HashMap K V := { m with elements := m.elements.erase k }

def clear : HashMap K V := { m with elements := ∅ }

end HashMap

-- ---------------------------------------------------------------------------
-- The member functions
-- ---------------------------------------------------------------------------

/-- The calls. The callbacks of `for_each_mutable` and `update_if_exists` are functions of what
they are given. -/
inductive Op (K V : Type) where
  | insertOrAssign (key : K) (value : V)
  | insert (key : K) (value : V)
  | emplace (key : K) (value : V)
  | find (key : K)
  | getOrDefault (key : K) (defaultValue : V)
  | index (key : K)
  | contains (key : K)
  | erase (key : K)
  | size
  | isEmpty
  | clear
  | forEach
  | forEachMutable (func : K → V → V)
  | updateIfExists (key : K) (func : V → V)
  | keys
  | values

/-- What a call answers; a loop answers with what its callback was given. -/
inductive Answer (K V : Type) where
  | void
  | bool (b : Bool)
  | value (v : V)
  | optional (o : Option V)
  | size (n : Nat)
  | visited (elements : List (Σ _ : K, V))
  | keys (ks : List K)
  | values (vs : List V)

/-- An access that only looks. -/
def look (next : HashMap K V → Code (HashMap K V) (Answer K V)) :
    Code (HashMap K V) (Answer K V) :=
  .access id next

/-- The loop over the elements from the `i`-th on, with `n` of them left at most: what is done to
each, and what it makes of those it has seen. -/
def walk (visit : Nat → HashMap K V → HashMap K V) (answer : List (Σ _ : K, V) → Answer K V) :
    Nat → Nat → List (Σ _ : K, V) → Code (HashMap K V) (Answer K V)
  | 0, _, seen => .ret (answer seen)
  | n + 1, i, seen => .access (visit i) fun m =>
    match m.elements.entries[i]? with
    | some e => walk visit answer n (i + 1) (seen ++ [e])
    | none => .ret (answer seen)

/-- A loop over all elements. -/
def walkAll (visit : Nat → HashMap K V → HashMap K V) (answer : List (Σ _ : K, V) → Answer K V) :
    Code (HashMap K V) (Answer K V) :=
  look fun m => walk visit answer m.elements.entries.length 0 []

/-- `func(key, value)` on the `i`-th element. -/
def visitMutable (func : K → V → V) (i : Nat) (m : HashMap K V) : HashMap K V :=
  match m.elements.entries[i]? with
  | some e => m.assign e.1 (func e.1 e.2)
  | none => m

variable [Inhabited V] (buckets : Buckets K V)

/-- `const` member functions take the mutex in shared mode. -/
def mode : Op K V → Mode
  | .find _ => .shared
  | .getOrDefault _ _ => .shared
  | .contains _ => .shared
  | .size => .shared
  | .isEmpty => .shared
  | .forEach => .shared
  | .keys => .shared
  | .values => .shared
  | _ => .exclusive

/-- The member functions, under the mutex. -/
def code : Op K V → Code (HashMap K V) (Answer K V)
  | .insertOrAssign k v =>
    .access (·.insertOrAssign buckets k v) fun m => .ret (.bool (m.find k).isNone)
  | .insert k v => .access (·.insert buckets k v) fun m => .ret (.bool (m.find k).isNone)
  | .emplace k v => .access (·.insert buckets k v) fun m => .ret (.bool (m.find k).isNone)
  | .find k => look fun m =>
    if (m.find k).isSome then look fun m => .ret (.optional (m.find k))
    else .ret (.optional none)
  | .getOrDefault k d => look fun m =>
    if (m.find k).isSome then look fun m => .ret (.value ((m.find k).getD d))
    else .ret (.value d)
  -- `m_map[key]` adds a value-initialised element, and the reference is read after that
  | .index k =>
    .access (·.insert buckets k default) fun _ =>
      look fun m => .ret (.value ((m.find k).getD default))
  | .contains k => look fun m => .ret (.bool (m.find k).isSome)
  | .erase k => .access (·.erase k) fun m => .ret (.bool (m.find k).isSome)
  | .size => look fun m => .ret (.size m.elements.entries.length)
  | .isEmpty => look fun m => .ret (.bool m.elements.entries.isEmpty)
  | .clear => .access (·.clear) fun _ => .ret .void
  | .forEach => walkAll (fun _ => id) .visited
  | .forEachMutable func => walkAll (visitMutable func) .visited
  | .updateIfExists k func => look fun m =>
    if (m.find k).isSome then look fun m =>
      match m.find k with
      | some v => .access (·.assign k (func v)) fun _ => .ret (.bool true)
      | none => .ret (.bool true)
    else .ret (.bool false)
  | .keys => walkAll (fun _ => id) fun seen => .keys (seen.map Sigma.fst)
  | .values => walkAll (fun _ => id) fun seen => .values (seen.map Sigma.snd)

omit [DecidableEq K] [Inhabited V] in
theorem readOnly_walk (answer : List (Σ _ : K, V) → Answer K V) (n i : Nat)
    (seen : List (Σ _ : K, V)) : (walk (fun _ => id) answer n i seen).ReadOnly := by
  induction n generalizing i seen with
  | zero => trivial
  | succ n ih =>
    refine ⟨fun _ => rfl, fun m => ?_⟩
    dsimp only
    split
    · exact ih _ _
    · trivial

omit [DecidableEq K] [Inhabited V] in
theorem readOnly_walkAll (answer : List (Σ _ : K, V) → Answer K V) :
    (walkAll (fun _ => id) answer).ReadOnly :=
  ⟨fun _ => rfl, fun _ => readOnly_walk _ _ _ _⟩

/-- What is called in shared mode does not write. -/
theorem readOnly_code (op : Op K V) (h : mode op = .shared) : (code buckets op).ReadOnly := by
  cases op with
  | find k =>
    refine ⟨fun _ => rfl, fun m => ?_⟩
    dsimp only
    split
    · exact ⟨fun _ => rfl, fun _ => trivial⟩
    · trivial
  | getOrDefault k d =>
    refine ⟨fun _ => rfl, fun m => ?_⟩
    dsimp only
    split
    · exact ⟨fun _ => rfl, fun _ => trivial⟩
    · trivial
  | contains k => exact ⟨fun _ => rfl, fun _ => trivial⟩
  | size => exact ⟨fun _ => rfl, fun _ => trivial⟩
  | isEmpty => exact ⟨fun _ => rfl, fun _ => trivial⟩
  | forEach => exact readOnly_walkAll _
  | keys => exact readOnly_walkAll _
  | values => exact readOnly_walkAll _
  | _ => cases h

/-- `LockedHashMap`. -/
def object : Object (Op K V) (HashMap K V) (Answer K V) where
  mode := mode
  code := code buckets
  readOnly := readOnly_code buckets

-- ---------------------------------------------------------------------------
-- What the map is for
-- ---------------------------------------------------------------------------

/-- The elements of a partial function, each once, in some order. -/
structure Lists (M : K → Option V) (elements : List (Σ _ : K, V)) : Prop where
  nodup : elements.NodupKeys
  mem : ∀ k v, ⟨k, v⟩ ∈ elements ↔ M k = some v

/-- What a call may answer and leave behind. -/
def Spec (M : K → Option V) : Op K V → Answer K V → (K → Option V) → Prop
  | .insertOrAssign k v, b, M' => b = .bool (M k).isNone ∧ M' = Function.update M k (some v)
  | .insert k v, b, M' =>
    b = .bool (M k).isNone ∧ M' = Function.update M k (some ((M k).getD v))
  | .emplace k v, b, M' =>
    b = .bool (M k).isNone ∧ M' = Function.update M k (some ((M k).getD v))
  | .find k, b, M' => b = .optional (M k) ∧ M' = M
  | .getOrDefault k d, b, M' => b = .value ((M k).getD d) ∧ M' = M
  | .index k, b, M' => b = .value ((M k).getD default) ∧
    M' = Function.update M k (some ((M k).getD default))
  | .contains k, b, M' => b = .bool (M k).isSome ∧ M' = M
  | .erase k, b, M' => b = .bool (M k).isSome ∧ M' = Function.update M k none
  | .size, b, M' => (∃ elements, Lists M elements ∧ b = .size elements.length) ∧ M' = M
  | .isEmpty, b, M' => (∃ e, b = .bool e ∧ (e = true ↔ ∀ k, M k = none)) ∧ M' = M
  | .clear, b, M' => b = .void ∧ M' = fun _ => none
  | .forEach, b, M' => (∃ elements, Lists M elements ∧ b = .visited elements) ∧ M' = M
  | .forEachMutable func, b, M' =>
    (∃ elements, Lists M elements ∧ b = .visited elements) ∧ M' = fun k => (M k).map (func k)
  | .updateIfExists k func, b, M' =>
    b = .bool (M k).isSome ∧ M' = Function.update M k ((M k).map func)
  | .keys, b, M' => (∃ elements, Lists M elements ∧ b = .keys (elements.map Sigma.fst)) ∧ M' = M
  | .values, b, M' => (∃ elements, Lists M elements ∧ b = .values (elements.map Sigma.snd)) ∧ M' = M

/-- The partial function that a map holds. -/
def Represents (m : HashMap K V) (M : K → Option V) : Prop := ∀ k, m.find k = M k

namespace HashMap

variable {m : HashMap K V} {M : K → Option V} {buckets}

omit [Inhabited V] in
theorem lists (h : Represents m M) : Lists M m.elements.entries := by
  refine ⟨m.elements.nodupKeys, fun k v => ?_⟩
  rw [← h k, ← Option.mem_def]
  exact AList.mem_lookup_iff.symm

omit [Inhabited V] in
theorem find_add (k : K) (v : V) :
    Represents (m.add buckets k v) (Function.update m.find k (some v)) := by
  intro k'
  show (buckets.arrange m.insertions (m.elements.insert k v)).lookup k' = _
  rw [AList.perm_lookup (buckets.perm _ _)]
  rcases eq_or_ne k' k with rfl | hne
  · rw [AList.lookup_insert, Function.update_self]
  · rw [AList.lookup_insert_ne hne, Function.update_of_ne hne]
    rfl

omit [Inhabited V] in
/-- The elements after `it->second = v`: the same, with the value replaced where it stands. -/
theorem entries_assign {front back : List (Σ _ : K, V)} {k : K} {u : V}
    (h : m.elements.entries = front ++ ⟨k, u⟩ :: back) (v : V) :
    (m.assign k v).elements.entries = front ++ ⟨k, v⟩ :: back := by
  have hnodup := m.elements.nodupKeys
  show List.kreplace k v m.elements.entries = _
  rw [h] at hnodup ⊢
  clear h
  induction front with
  | nil => exact List.lookmap_cons_some _ _ (if_pos rfl)
  | cons e front ih =>
    rw [List.cons_append, List.nodupKeys_cons] at hnodup
    have hne : k ≠ e.1 := by
      rintro rfl
      exact hnodup.1 (List.mem_keys_of_mem (s := ⟨e.1, u⟩) (by simp))
    have hstep := List.lookmap_cons_none
      (fun s : Σ _ : K, V => if k = s.1 then some ⟨k, v⟩ else none)
      (front ++ ⟨k, u⟩ :: back) (if_neg hne)
    rw [List.cons_append, List.kreplace, hstep]
    rw [List.cons_append, ← ih hnodup.2]
    rfl

omit [Inhabited V] in
theorem find_eq_some {k : K} {v : V} : m.find k = some v ↔ ⟨k, v⟩ ∈ m.elements.entries :=
  AList.mem_lookup_iff

omit [Inhabited V] in
theorem find_assign {k : K} {u : V} (hk : m.find k = some u) (v : V) :
    Represents (m.assign k v) (Function.update m.find k (some v)) := by
  obtain ⟨front, back, hsplit⟩ := List.append_of_mem (find_eq_some.mp hk)
  have hafter := entries_assign hsplit v
  intro k'
  rcases eq_or_ne k' k with rfl | hne
  · rw [Function.update_self, find_eq_some, hafter]
    simp
  · rw [Function.update_of_ne hne]
    refine Option.ext fun w => ?_
    rw [find_eq_some, find_eq_some, hafter, hsplit]
    simp [hne]

omit [Inhabited V] in
theorem represents_insert (h : Represents m M) (k : K) (v : V) :
    Represents (m.insert buckets k v) (Function.update M k (some ((M k).getD v))) := by
  obtain rfl : m.find = M := funext h
  rw [insert]
  cases hk : m.find k with
  | none => exact find_add k v
  | some u =>
    intro k'
    rcases eq_or_ne k' k with rfl | hne
    · simpa using hk
    · simp [hne]

omit [Inhabited V] in
theorem represents_insertOrAssign (h : Represents m M) (k : K) (v : V) :
    Represents (m.insertOrAssign buckets k v) (Function.update M k (some v)) := by
  obtain rfl : m.find = M := funext h
  rw [insertOrAssign]
  cases hk : m.find k with
  | none => exact find_add k v
  | some u => exact find_assign hk v

omit [Inhabited V] in
theorem represents_erase (h : Represents m M) (k : K) :
    Represents (m.erase k) (Function.update M k none) := by
  intro k'
  show (m.elements.erase k).lookup k' = _
  rcases eq_or_ne k' k with rfl | hne
  · rw [AList.lookup_erase, Function.update_self]
  · rw [AList.lookup_erase_ne hne, Function.update_of_ne hne]
    exact h k'

end HashMap

-- ---------------------------------------------------------------------------
-- The loops
-- ---------------------------------------------------------------------------

/-- An element after `func` worked on it. -/
def visitedElement (func : K → V → V) (e : Σ _ : K, V) : Σ _ : K, V := ⟨e.1, func e.1 e.2⟩

omit [DecidableEq K] [Inhabited V] in
/-- A loop that works on each element where it stands works on all of them. -/
theorem eval_walk {visit : Nat → HashMap K V → HashMap K V} {func : K → V → V}
    (hvisit : ∀ (m : HashMap K V) front e back, m.elements.entries = front ++ e :: back →
      (visit front.length m).elements.entries = front ++ visitedElement func e :: back)
    (answer : List (Σ _ : K, V) → Answer K V) (rest seen : List (Σ _ : K, V)) (m : HashMap K V)
    (hm : m.elements.entries = seen.map (visitedElement func) ++ rest) :
    ((walk visit answer rest.length seen.length seen).eval m).2 = answer (seen ++ rest) ∧
      ((walk visit answer rest.length seen.length seen).eval m).1.elements.entries =
        (seen ++ rest).map (visitedElement func) := by
  induction rest generalizing seen m with
  | nil =>
    rw [List.append_nil] at hm
    rw [List.append_nil]
    exact ⟨rfl, hm⟩
  | cons e rest ih =>
    have hfront : (seen.map (visitedElement func)).length = seen.length := List.length_map _
    have hget : m.elements.entries[seen.length]? = some e := by
      rw [hm, ← hfront]
      simp
    have hafter := hvisit m _ e rest hm
    rw [hfront] at hafter
    have hnext := ih (seen ++ [e]) (visit seen.length m) (by
      rw [hafter, List.map_append, List.append_assoc]
      rfl)
    rw [List.length_append, List.length_singleton, List.append_assoc,
      List.singleton_append] at hnext
    rw [List.length_cons, walk, Code.eval, hget]
    exact hnext

omit [Inhabited V] in
theorem visitMutable_entries (func : K → V → V) (m : HashMap K V) (front : List (Σ _ : K, V))
    (e : Σ _ : K, V) (back : List (Σ _ : K, V)) (hm : m.elements.entries = front ++ e :: back) :
    (visitMutable func front.length m).elements.entries =
      front ++ visitedElement func e :: back := by
  have hget : m.elements.entries[front.length]? = some e := by
    rw [hm]
    simp
  rw [visitMutable, hget]
  exact HashMap.entries_assign hm _

omit [DecidableEq K] [Inhabited V] in
/-- What a loop without writes answers. -/
theorem eval_walkAll (answer : List (Σ _ : K, V) → Answer K V) (m : HashMap K V) :
    (walkAll (fun _ => id) answer).eval m = (m, answer m.elements.entries) := by
  refine Prod.ext ((readOnly_walkAll answer).eval_fst m) ?_
  have hsame : ∀ e : Σ _ : K, V, visitedElement (fun _ v => v) e = e := fun _ => rfl
  have hvisit : ∀ (m : HashMap K V) front e back, m.elements.entries = front ++ e :: back →
      ((fun _ => id : Nat → HashMap K V → HashMap K V) front.length m).elements.entries =
        front ++ visitedElement (fun _ v => v) e :: back := by
    intro m front e back hm
    rw [hsame]
    exact hm
  exact (eval_walk hvisit answer m.elements.entries [] m rfl).1

-- ---------------------------------------------------------------------------
-- Every member function does what it is for
-- ---------------------------------------------------------------------------

variable {buckets}

omit [Inhabited V] in
theorem isEmpty_iff {m : HashMap K V} {M : K → Option V} (h : Represents m M) :
    m.elements.entries.isEmpty = true ↔ ∀ k, M k = none := by
  rw [List.isEmpty_iff, List.eq_nil_iff_forall_not_mem]
  refine ⟨?_, ?_⟩
  · intro hnone k
    refine Option.eq_none_iff_forall_ne_some.mpr fun v hv => ?_
    exact hnone _ (((HashMap.lists h).mem k v).mpr hv)
  · rintro hnone ⟨k, v⟩ hmem
    have hv := ((HashMap.lists h).mem k v).mp hmem
    rw [hnone k] at hv
    cases hv

omit [Inhabited V] in
/-- The elements of a map after `func` worked on all of them. -/
theorem represents_visited {m m' : HashMap K V} {M : K → Option V} (h : Represents m M)
    {func : K → V → V}
    (hentries : m'.elements.entries = m.elements.entries.map (visitedElement func)) :
    Represents m' fun k => (M k).map (func k) := by
  intro k
  refine Option.ext fun w => ?_
  rw [HashMap.find_eq_some, hentries, Option.map_eq_some_iff, List.mem_map]
  refine ⟨?_, ?_⟩
  · rintro ⟨⟨k', v⟩, hin, heq⟩
    cases heq
    exact ⟨v, ((HashMap.lists h).mem _ v).mp hin, rfl⟩
  · rintro ⟨v, hv, rfl⟩
    exact ⟨⟨k, v⟩, ((HashMap.lists h).mem k v).mpr hv, rfl⟩

theorem forEachMutable_refines {m : HashMap K V} {M : K → Option V} (h : Represents m M)
    (func : K → V → V) :
    ((code buckets (.forEachMutable func)).eval m).2 = .visited m.elements.entries ∧
      Represents ((code buckets (.forEachMutable func)).eval m).1 fun k => (M k).map (func k) := by
  obtain ⟨hanswer, hentries⟩ := eval_walk (visitMutable_entries func) Answer.visited
    m.elements.entries [] m rfl
  exact ⟨hanswer, represents_visited h hentries⟩

theorem updateIfExists_refines {m : HashMap K V} {M : K → Option V} (h : Represents m M) (k : K)
    (func : V → V) :
    ((code buckets (.updateIfExists k func)).eval m).2 = .bool (M k).isSome ∧
      Represents ((code buckets (.updateIfExists k func)).eval m).1
        (Function.update M k ((M k).map func)) := by
  obtain rfl : m.find = M := funext h
  cases hk : m.find k with
  | none =>
    have heval : (code buckets (.updateIfExists k func)).eval m = (m, .bool false) := by
      simp [code, look, Code.eval, hk]
    rw [heval, Option.map_none, ← hk, Function.update_eq_self]
    exact ⟨by rw [hk]; rfl, fun _ => rfl⟩
  | some v =>
    have heval : (code buckets (.updateIfExists k func)).eval m =
        (m.assign k (func v), .bool true) := by
      simp [code, look, Code.eval, hk]
    rw [heval]
    exact ⟨rfl, HashMap.find_assign hk (func v)⟩

/-- A call that only looks, run alone. -/
theorem look_refines {op : Op K V} {m : HashMap K V} {M : K → Option V} (h : Represents m M)
    {b : Answer K V} (heval : (code buckets op).eval m = (m, b)) (hspec : Spec M op b M) :
    ∃ M', Spec M op ((code buckets op).eval m).2 M' ∧
      Represents ((code buckets op).eval m).1 M' := by
  rw [heval]
  exact ⟨M, hspec, h⟩

/-- **One call**, run alone. -/
theorem code_refines (op : Op K V) (m : HashMap K V) (M : K → Option V) (h : Represents m M) :
    ∃ M', Spec M op ((code buckets op).eval m).2 M' ∧
      Represents ((code buckets op).eval m).1 M' := by
  have hM : m.find = M := funext h
  cases op with
  | insertOrAssign k v =>
    refine ⟨_, ⟨?_, rfl⟩, HashMap.represents_insertOrAssign h k v⟩
    rw [← hM]
    rfl
  | insert k v =>
    refine ⟨_, ⟨?_, rfl⟩, HashMap.represents_insert h k v⟩
    rw [← hM]
    rfl
  | emplace k v =>
    refine ⟨_, ⟨?_, rfl⟩, HashMap.represents_insert h k v⟩
    rw [← hM]
    rfl
  | find k =>
    refine look_refines h (b := .optional (m.find k)) ?_ ⟨by rw [hM], rfl⟩
    cases hk : m.find k <;> simp [code, look, Code.eval, hk]
  | getOrDefault k d =>
    refine look_refines h (b := .value ((m.find k).getD d)) ?_ ⟨by rw [hM], rfl⟩
    cases hk : m.find k <;> simp [code, look, Code.eval, hk]
  | index k =>
    have hafter : Represents (m.insert buckets k default)
        (Function.update M k (some ((M k).getD default))) :=
      HashMap.represents_insert h k default
    refine ⟨_, ⟨?_, rfl⟩, hafter⟩
    show Answer.value (((m.insert buckets k default).find k).getD default) = _
    rw [hafter k, Function.update_self]
    rfl
  | contains k => exact look_refines h rfl ⟨by rw [hM], rfl⟩
  | erase k =>
    refine ⟨_, ⟨?_, rfl⟩, HashMap.represents_erase h k⟩
    rw [← hM]
    rfl
  | size => exact look_refines h rfl ⟨⟨_, HashMap.lists h, rfl⟩, rfl⟩
  | isEmpty => exact look_refines h rfl ⟨⟨_, rfl, isEmpty_iff h⟩, rfl⟩
  | clear => exact ⟨_, ⟨rfl, rfl⟩, fun k => AList.lookup_empty k⟩
  | forEach => exact look_refines h (eval_walkAll _ m) ⟨⟨_, HashMap.lists h, rfl⟩, rfl⟩
  | forEachMutable func =>
    obtain ⟨hanswer, hafter⟩ := forEachMutable_refines h func
    exact ⟨_, ⟨⟨_, HashMap.lists h, hanswer⟩, rfl⟩, hafter⟩
  | updateIfExists k func =>
    obtain ⟨hanswer, hafter⟩ := updateIfExists_refines h k func
    exact ⟨_, ⟨hanswer, rfl⟩, hafter⟩
  | keys => exact look_refines h (eval_walkAll _ m) ⟨⟨_, HashMap.lists h, rfl⟩, rfl⟩
  | values => exact look_refines h (eval_walkAll _ m) ⟨⟨_, HashMap.lists h, rfl⟩, rfl⟩

variable {T : Type} [DecidableEq T]

/-- **Threads and a map.** Any number of threads call the member functions of one `LockedHashMap`.
What they see is what they would see if every call took effect at once at some moment between the
call and its return, whatever the buckets do. -/
theorem lockedHashMap_linearizable {acts : List (Action T (Op K V))}
    {s : Sys T (Op K V) (HashMap K V) (Answer K V)}
    (hrun : Schedule.run (Sys.step (object buckets)) (Sys.initial HashMap.empty) acts = some s) :
    ∃ a : Atomic T (Op K V) (K → Option V) (Answer K V),
      Atomic.Run Spec (Atomic.initial fun _ => none)
        (Schedule.outputs (Sys.step (object buckets)) Sys.events (Sys.initial HashMap.empty) acts)
        a := by
  obtain ⟨a, ha, -⟩ := linearizable code_refines (fun k => AList.lookup_empty k) hrun
  exact ⟨a, ha⟩

-- ---------------------------------------------------------------------------
-- Updates
-- ---------------------------------------------------------------------------

omit [DecidableEq K] [Inhabited V] in
/-- The call has nothing to do with the value of `k`. -/
def Op.Leaves (k : K) : Op K V → Prop
  | .insertOrAssign k' _ => k' ≠ k
  | .insert k' _ => k' ≠ k
  | .emplace k' _ => k' ≠ k
  | .index k' => k' ≠ k
  | .erase k' => k' ≠ k
  | .updateIfExists k' _ => k' ≠ k
  | .clear => False
  | .forEachMutable _ => False
  | _ => True

/-- The update of `k` that a call makes. -/
def Op.update (k : K) : Op K V → Option (V → V)
  | .updateIfExists k' func => if k' = k then some func else none
  | _ => none

theorem spec_leaves {k : K} {op : Op K V} (hop : op.Leaves k) {M M' : K → Option V}
    {b : Answer K V} (h : Spec M op b M') : M' k = M k := by
  cases op with
  | clear => exact hop.elim
  | forEachMutable func => exact hop.elim
  | _ =>
    obtain ⟨-, rfl⟩ := h
    first
      | rfl
      | exact Function.update_of_ne (Ne.symm hop) _ _

omit [Inhabited V] in
theorem update_of_leaves {k : K} {op : Op K V} (hop : op.Leaves k) : op.update k = none := by
  cases op with
  | updateIfExists k' func => exact if_neg hop
  | _ => rfl

/-- The value of a key that is only updated, after a sequence of calls. -/
theorem trace_updates {k : K} {ops : List (Op K V)} {answers : List (Answer K V)}
    {M M' : K → Option V} (h : Refinement.Trace Spec M ops answers M')
    (hops : ∀ op ∈ ops, op.Leaves k ∨ ∃ func, op = .updateIfExists k func) {v : V}
    (hv : M k = some v) :
    M' k = some ((ops.filterMap (Op.update k)).foldl (fun u func => func u) v) := by
  induction h generalizing v with
  | nil M => exact hv
  | @cons M M₁ M' op b ops answers head rest ih =>
    have hrest : ∀ op' ∈ ops, op'.Leaves k ∨ ∃ func, op' = .updateIfExists k func :=
      fun op' hop' => hops op' (List.mem_cons_of_mem _ hop')
    rcases hops op (List.mem_cons_self ..) with hleaves | ⟨func, rfl⟩
    · have hv₁ : M₁ k = some v := (spec_leaves hleaves head).trans hv
      rw [ih hrest hv₁, List.filterMap_cons, update_of_leaves hleaves]
    · have hv₁ : M₁ k = some (func v) := by
        obtain ⟨-, rfl⟩ := head
        rw [Function.update_self, hv]
        rfl
      rw [ih hrest hv₁, List.filterMap_cons, Op.update, if_pos rfl]
      rfl

/-- **Updates.** As long as the element of a key is only changed by `update_if_exists`, and all
calls have returned, its value is the first one with all their functions applied to it, one after
the other. -/
theorem no_update_lost {k : K} {m : HashMap K V} {v : V} (hv : m.find k = some v)
    {acts : List (Action T (Op K V))}
    (hcalls : ∀ t op, .call t op ∈ acts → op.Leaves k ∨ ∃ func, op = .updateIfExists k func)
    {s : Sys T (Op K V) (HashMap K V) (Answer K V)}
    (hrun : Schedule.run (Sys.step (object buckets)) (Sys.initial m) acts = some s)
    (hidle : ∀ t, s.position t = .idle) :
    ∃ funcs : List (V → V),
      funcs.Perm ((returnedCalls (Schedule.outputs (Sys.step (object buckets)) Sys.events
        (Sys.initial m) acts)).filterMap fun c => c.2.1.update k) ∧
      s.value.find k = some (funcs.foldl (fun u func => func u) v) := by
  obtain ⟨a, ha, hs⟩ := linearizable code_refines (fun _ => rfl : Represents m m.find) hrun
  set past := Schedule.outputs (Sys.step (object buckets)) Sys.events (Sys.initial m) acts
    with hpast
  obtain ⟨done, pending, htrace, hperm, -, hpending⟩ := ha.exists_order
  -- nobody is in a call, so that every call has returned
  have hnil : pending = [] := by
    rw [List.eq_nil_iff_forall_not_mem]
    rintro ⟨t, op, b⟩ hmem
    have hphase := (hpending t op b).mp hmem
    rw [hs.phase t, hidle t] at hphase
    cases hphase
  rw [hnil, List.append_nil] at hperm
  have hfree : s.writer = none := by
    by_contra hsome
    obtain ⟨t, ht⟩ := Option.ne_none_iff_exists'.mp hsome
    obtain ⟨-, op, rest, hpos, -⟩ := hs.writer t ht
    rw [hidle t] at hpos
    cases hpos
  have hops : ∀ op ∈ done.map (fun c => c.2.1),
      op.Leaves k ∨ ∃ func, op = .updateIfExists k func := by
    intro op hop
    obtain ⟨⟨t, op', b⟩, hc, rfl⟩ := List.mem_map.mp hop
    have hreturned : .returned t op' b ∈ past := mem_returnedCalls.mp (hperm.mem_iff.mp hc)
    have hcalled : .called t op' ∈ past := ha.called (.inr (.inr ⟨b, hreturned⟩))
    obtain ⟨u, act, hact, hmem⟩ := Schedule.mem_outputs _ hcalled
    cases act with
    | call t' op'' =>
      cases List.mem_singleton.mp hmem
      exact hcalls t op' hact
    | lock t' => cases hmem
    | access t' => cases hmem
    | unlock t' =>
      simp only [Sys.events] at hmem
      split at hmem
      · cases List.mem_singleton.mp hmem
      · cases hmem
  refine ⟨(done.map fun c => c.2.1).filterMap (Op.update k), ?_, ?_⟩
  · rw [List.filterMap_map]
    exact hperm.filterMap _
  · rw [hs.value hfree k]
    exact trace_updates htrace hops hv

end Map

-- ---------------------------------------------------------------------------
-- Two threads
-- ---------------------------------------------------------------------------

/-- Buckets that leave every element where it was put. -/
def plainBuckets : Buckets Bool Nat where
  arrange _ a := a
  perm _ a := .refl a.entries

/-- One thread looks for a key while another one adds it. -/
def findWhileInsert : List (Action Bool (Op Bool Nat)) :=
  [.call false (.find true), .call true (.insert true 5), .lock true, .access true, .unlock true,
    .lock false, .access false, .access false, .unlock false]

theorem lockedHashMap_linearizable_find : ∃ a : Atomic Bool (Op Bool Nat) (Bool → Option Nat) _,
    Atomic.Run Spec (Atomic.initial fun _ => none)
      (Schedule.outputs (Sys.step (object plainBuckets)) Sys.events (Sys.initial HashMap.empty)
        findWhileInsert) a :=
  @lockedHashMap_linearizable Bool Nat _ _ plainBuckets Bool _ findWhileInsert _ rfl

/-- A map with one element. -/
def oneElement : HashMap Bool Nat := HashMap.empty.add plainBuckets true 5

def addOne (n : Nat) : Nat := n + 1

/-- Two threads add one to it, and the second waits for the first. -/
def twoUpdates : List (Action Bool (Op Bool Nat)) :=
  [.call false (.updateIfExists true addOne), .call true (.updateIfExists true addOne),
    .lock false, .access false, .access false, .access false, .unlock false,
    .lock true, .access true, .access true, .access true, .unlock true]

theorem no_update_lost_twoUpdates : ∃ s, Schedule.run (Sys.step (object plainBuckets))
      (Sys.initial oneElement) twoUpdates = some s ∧
    ∃ funcs : List (Nat → Nat),
      funcs.Perm ((returnedCalls (Schedule.outputs (Sys.step (object plainBuckets)) Sys.events
        (Sys.initial oneElement) twoUpdates)).filterMap fun c => c.2.1.update true) ∧
      s.value.find true = some (funcs.foldl (fun u func => func u) 5) := by
  refine ⟨_, rfl, no_update_lost rfl ?_ rfl ?_⟩
  · intro t op hmem
    right
    simp only [twoUpdates, List.mem_cons, reduceCtorEq, Action.call.injEq, List.not_mem_nil,
      or_false] at hmem
    rcases hmem with ⟨-, rfl⟩ | ⟨-, rfl⟩ <;> exact ⟨addOne, rfl⟩
  · rintro (_ | _) <;> rfl

end Zrtools.LockedHashMap

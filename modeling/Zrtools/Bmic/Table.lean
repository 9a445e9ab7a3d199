import Mathlib.Data.Multiset.Filter
import Mathlib.Data.Multiset.MapFold
import Mathlib.Data.Multiset.UnionInter
import Zrtools.Bmic.Upsert
import Zrtools.Lib.Refinement

/-!
# zrtools — a `BMIC` over its calls (`zrt_bmic.h`)

A `BMIC` is a table: a multiset of rows, no two of which have the same key in a unique index. Every
call looks rows up by one index, and changes what all of them find. The calls that only look do
not change it; `UpdateRange`, and what a call does with the text of a row, is not here.

* `table_of_run` — every sequence of calls returns, and answers as the table does;
* `map_of_run` — a table with one unique index, used by its key, is a partial function.
-/

namespace Zrtools.Bmic

open CInteger Refinement

variable {V : Type} {indices : List (KeyIndex V)}

-- ---------------------------------------------------------------------------
-- The container
-- ---------------------------------------------------------------------------

/-- The members that the other calls use: `erase(iter)`, and the elements that an index goes
through, all of them or those of `equal_range(key)`. -/
structure Container (indices : List (KeyIndex V)) extends MultiIndex indices where
  erase : Content indices → Nat → Content indices
  elements : KeyIndex V → Content indices → List (Node V)
  equalRange : (index : KeyIndex V) → Content indices → index.Key → List (Node V)

/-- What they do. -/
structure Container.Lawful (b : Container indices) : Prop where
  multiIndex : b.toMultiIndex.Lawful
  erase : ∀ {c x others}, c.nodes.Perm (x :: others) → (b.erase c x.id).nodes.Perm others
  elements : ∀ {index c}, index ∈ indices → (b.elements index c).Perm c.nodes
  equalRange : ∀ {index c k}, index ∈ indices →
    (b.equalRange index c k).Perm (c.nodes.filter fun x => index.key x.val = k)

/-- An index of the container, by its tag. -/
abbrev Tag (indices : List (KeyIndex V)) := { index : KeyIndex V // index ∈ indices }

-- ---------------------------------------------------------------------------
-- The code
-- ---------------------------------------------------------------------------

namespace Container

variable (b : Container indices)

/-- `Set(val)`, and `SetBmic`. -/
def set (c : Content indices) (val : V) : Content indices := (b.emplace c val).1

/-- `Remove<Index>(key)`. -/
def remove (index : KeyIndex V) (c : Content indices) (k : index.Key) :
    Content indices × Bool :=
  match b.find index c k with
  | some iter => (b.erase c iter, true)
  | none => (c, false)

/-- `RemoveRange<Index>(key)`, which compiles for the first index only. -/
def removeRange (index : KeyIndex V) (c : Content indices) (k : index.Key) : Content indices :=
  (b.equalRange index c k).foldl (fun c x => b.erase c x.id) c

/-- `Has<Index>(key)`. -/
def has (index : KeyIndex V) (c : Content indices) (k : index.Key) : Bool :=
  (b.find index c k).isSome

/-- `TryCopy<Index>(key, val)`, and `TryCopyBmicVal`: the result and `val`. -/
def tryCopy (index : KeyIndex V) (c : Content indices) (k : index.Key) (val : V) :
    Option (Bool × V) :=
  match b.find index c k with
  | some iter => (deref c.nodes iter).map fun v => (true, v)
  | none => some (false, val)

/-- `Copy<Index>(key)`, and `CopyBmicVal`; `init` is `Val val {}`. -/
def copy (init : V) (index : KeyIndex V) (c : Content indices) (k : index.Key) :
    Option (Option V) :=
  (b.tryCopy index c k init).map fun r => if r.1 then some r.2 else none

end Container

/-- The loop of `ForEach`: the arguments of `func`, and `ret_count`. There is no result if the
count overflows. -/
def visit : List (Node V) → List V → Int → Option (List V × Int)
  | [], args, count => some (args, count)
  | x :: nodes, args, count =>
    (int32 (count + 1)).bind fun count => visit nodes (args ++ [x.val]) count

inductive Call (indices : List (KeyIndex V)) where
  | set (val : V)
  | update (tag : Tag indices) (k : tag.1.Key) (val : V)
  | remove (tag : Tag indices) (k : tag.1.Key)
  | removeRange (tag : Tag indices) (k : tag.1.Key)
  | has (tag : Tag indices) (k : tag.1.Key)
  | tryCopy (tag : Tag indices) (k : tag.1.Key) (val : V)
  | copy (tag : Tag indices) (k : tag.1.Key) (init : V)
  | forEach (tag : Tag indices)
  | forEachKey (tag : Tag indices) (k : tag.1.Key)
  | getSize
  | isEmpty

inductive Reply (V : Type) where
  | done
  | flag (b : Bool)
  | value (found : Bool) (val : V)
  | copied (val : Option V)
  | visited (args : List V) (count : Int)
  | size (n : Nat)

def call (b : Container indices) (c : Content indices) :
    Call indices → Option (Content indices × Reply V)
  | .set val => some (b.set c val, .done)
  | .update tag k val =>
    let (c, found) := update b.toMultiIndex tag.1 c k val
    some (c, .flag found)
  | .remove tag k =>
    let (c, found) := b.remove tag.1 c k
    some (c, .flag found)
  | .removeRange tag k => some (b.removeRange tag.1 c k, .done)
  | .has tag k => some (c, .flag (b.has tag.1 c k))
  | .tryCopy tag k val => (b.tryCopy tag.1 c k val).map fun r => (c, .value r.1 r.2)
  | .copy tag k init => (b.copy init tag.1 c k).map fun r => (c, .copied r)
  | .forEach tag => (visit (b.elements tag.1 c) [] 0).map fun r => (c, .visited r.1 r.2)
  | .forEachKey tag k => (visit (b.equalRange tag.1 c k) [] 0).map fun r => (c, .visited r.1 r.2)
  | .getSize => some (c, .size c.nodes.length)
  | .isEmpty => some (c, .flag c.nodes.isEmpty)

/-- A container that has just been constructed. -/
def Content.empty : Content indices where
  nodes := []
  valid := ⟨List.nodup_nil, fun _ _ _ => List.nodup_nil⟩

-- ---------------------------------------------------------------------------
-- The table
-- ---------------------------------------------------------------------------

/-- A row with this value would have the key of another one, in a unique index. -/
def Taken (indices : List (KeyIndex V)) (rows : Multiset V) (val : V) : Prop :=
  ∃ index ∈ indices, index.unique = true ∧ ∃ v ∈ rows, index.key v = index.key val

/-- **The table**: rows, and their keys are different in a unique index. -/
structure Table (indices : List (KeyIndex V)) where
  rows : Multiset V
  keyed : ∀ index ∈ indices, index.unique = true → (rows.map index.key).Nodup

/-- A row comes in, unless its place is taken. -/
def Inserts (rows : Multiset V) (val : V) (t' : Table indices) : Prop :=
  (¬Taken indices rows val ∧ t'.rows = val ::ₘ rows) ∨ (Taken indices rows val ∧ t'.rows = rows)

/-- A row with the key is there. -/
def Found (rows : Multiset V) (tag : Tag indices) (k : tag.1.Key) : Prop :=
  ∃ v ∈ rows, tag.1.key v = k

/-- **The calls**, on the table. A refused `Update` leaves the row that it found, and returns
true. -/
inductive Spec : Table indices → Call indices → Reply V → Table indices → Prop
  | set {t t' : Table indices} {val : V} (h : Inserts t.rows val t') : Spec t (.set val) .done t'
  | replaced {t t' : Table indices} {tag : Tag indices} {k : tag.1.Key} {v val : V}
      {others : Multiset V} (hkey : tag.1.key v = k) (h : t.rows = v ::ₘ others)
      (h' : (¬Taken indices others val ∧ t'.rows = val ::ₘ others) ∨
        (Taken indices others val ∧ t'.rows = t.rows)) :
      Spec t (.update tag k val) (.flag true) t'
  | inserted {t t' : Table indices} {tag : Tag indices} {k : tag.1.Key} {val : V}
      (h : ¬Found t.rows tag k) (h' : Inserts t.rows val t') :
      Spec t (.update tag k val) (.flag false) t'
  | removed {t t' : Table indices} {tag : Tag indices} {k : tag.1.Key} {v : V}
      (hkey : tag.1.key v = k) (h : t.rows = v ::ₘ t'.rows) :
      Spec t (.remove tag k) (.flag true) t'
  | kept {t : Table indices} {tag : Tag indices} {k : tag.1.Key} (h : ¬Found t.rows tag k) :
      Spec t (.remove tag k) (.flag false) t
  | removeRange {t t' : Table indices} {tag : Tag indices} {k : tag.1.Key}
      (h : t'.rows = t.rows.filter fun v => tag.1.key v ≠ k) :
      Spec t (.removeRange tag k) .done t'
  | has {t : Table indices} {tag : Tag indices} {k : tag.1.Key} {found : Bool}
      (h : found = true ↔ Found t.rows tag k) : Spec t (.has tag k) (.flag found) t
  | value {t : Table indices} {tag : Tag indices} {k : tag.1.Key} {v val : V}
      (hkey : tag.1.key v = k) (h : v ∈ t.rows) : Spec t (.tryCopy tag k val) (.value true v) t
  | noValue {t : Table indices} {tag : Tag indices} {k : tag.1.Key} {val : V}
      (h : ¬Found t.rows tag k) : Spec t (.tryCopy tag k val) (.value false val) t
  | copied {t : Table indices} {tag : Tag indices} {k : tag.1.Key} {v init : V}
      (hkey : tag.1.key v = k) (h : v ∈ t.rows) : Spec t (.copy tag k init) (.copied (some v)) t
  | noCopy {t : Table indices} {tag : Tag indices} {k : tag.1.Key} {init : V}
      (h : ¬Found t.rows tag k) : Spec t (.copy tag k init) (.copied none) t
  | forEach {t : Table indices} {tag : Tag indices} {args : List V} (h : ↑args = t.rows) :
      Spec t (.forEach tag) (.visited args args.length) t
  | forEachKey {t : Table indices} {tag : Tag indices} {k : tag.1.Key} {args : List V}
      (h : ↑args = t.rows.filter fun v => tag.1.key v = k) :
      Spec t (.forEachKey tag k) (.visited args args.length) t
  | getSize {t : Table indices} : Spec t .getSize (.size t.rows.card) t
  | isEmpty {t : Table indices} {b : Bool} (h : b = true ↔ t.rows = 0) :
      Spec t .isEmpty (.flag b) t

/-- The rows of a container. -/
def Content.table (c : Content indices) : Table indices where
  rows := c.nodes.map Node.val
  keyed index hindex hunique := by
    rw [Multiset.map_coe, Multiset.coe_nodup, List.map_map]
    exact c.valid.keys index hindex hunique

-- ---------------------------------------------------------------------------
-- One call
-- ---------------------------------------------------------------------------

theorem taken_iff {nodes : List (Node V)} {val : V} :
    Taken indices (nodes.map Node.val) val ↔ Collides indices nodes val := by
  unfold Taken Collides
  simp only [Multiset.mem_coe, List.mem_map, exists_exists_and_eq_and]

/-- One row and the others. -/
theorem rows_of_perm {c : Content indices} {x : Node V} {others : List (Node V)}
    (h : c.nodes.Perm (x :: others)) : c.table.rows = x.val ::ₘ ↑(others.map Node.val) := by
  rw [Multiset.cons_coe]
  exact Multiset.coe_eq_coe.mpr (h.map Node.val)

theorem mem_rows {c : Content indices} {x : Node V} (hx : x ∈ c.nodes) : x.val ∈ c.table.rows :=
  Multiset.mem_coe.mpr (List.mem_map_of_mem hx)

/-- Some of the rows. -/
theorem filter_rows (c : Content indices) (p : V → Prop) [DecidablePred p] :
    c.table.rows.filter p = ↑((c.nodes.filter fun x => p x.val).map Node.val) := by
  rw [Content.table, Multiset.filter_coe, List.filter_map]
  rfl

theorem deref_of_mem (c : Content indices) {x : Node V} (hx : x ∈ c.nodes) :
    deref c.nodes x.id = some x.val := by
  obtain ⟨front, rest, hsplit⟩ := List.append_of_mem hx
  have hdistinct := c.valid.distinct
  rw [hsplit] at hdistinct ⊢
  exact deref_append hdistinct.not_mem_front

theorem card_rows (c : Content indices) : c.table.rows.card = c.nodes.length := by
  simp [Content.table]

section Calls

variable {b : Container indices} (hb : b.Lawful) (c : Content indices)
include hb

/-- `find` finds a node with the key, or there is none. -/
theorem find_cases (tag : Tag indices) (k : tag.1.Key) :
    (∃ x others, b.find tag.1 c k = some x.id ∧ tag.1.key x.val = k ∧ x ∈ c.nodes ∧
        c.nodes.Perm (x :: others)) ∨
      b.find tag.1 c k = none ∧ ¬Found c.table.rows tag k := by
  cases hfind : b.find tag.1 c k with
  | some id =>
    obtain ⟨x, hx, rfl, hkey⟩ := hb.multiIndex.find_some tag.2 hfind
    obtain ⟨others, hothers⟩ := c.exists_others hx
    exact Or.inl ⟨x, others, rfl, hkey, hx, hothers⟩
  | none =>
    refine Or.inr ⟨rfl, ?_⟩
    rintro ⟨v, hv, hkey⟩
    obtain ⟨x, hx, rfl⟩ := List.mem_map.mp (Multiset.mem_coe.mp hv)
    exact hb.multiIndex.find_none tag.2 hfind x hx hkey

/-- `emplace` inserts a row. -/
theorem emplace_inserts (val : V) :
    Inserts c.table.rows val (b.emplace c val).1.table ∧
      (b.emplace c val).1.nodes.length ≤ c.nodes.length + 1 := by
  by_cases hrefused : Refused c none val
  · have htaken := taken_iff.mpr ((refused_none c val).mp hrefused)
    rw [hb.multiIndex.emplace_refused hrefused]
    exact ⟨Or.inr ⟨htaken, rfl⟩, Nat.le_succ _⟩
  · have hfree := taken_iff.not.mpr ((refused_none c val).not.mp hrefused)
    obtain ⟨⟨id, hafter⟩, -⟩ := hb.multiIndex.emplace_done hrefused
    exact ⟨Or.inl ⟨hfree, rows_of_perm hafter⟩, hafter.length_eq.le⟩

/-- `replace` puts the value in the place of a row. -/
theorem replace_rows {x : Node V} {others : List (Node V)} (h : c.nodes.Perm (x :: others))
    (val : V) :
    ((¬Taken indices (others.map Node.val) val ∧
          (b.replace c x.id val).1.table.rows = val ::ₘ ↑(others.map Node.val)) ∨
        (Taken indices (others.map Node.val) val ∧
          (b.replace c x.id val).1.table.rows = c.table.rows)) ∧
      (b.replace c x.id val).1.nodes.length = c.nodes.length := by
  by_cases hrefused : Refused c (some x.id) val
  · have htaken := taken_iff.mpr ((refused_some h val).mp hrefused)
    rw [hb.multiIndex.replace_refused hrefused]
    exact ⟨Or.inr ⟨htaken, rfl⟩, rfl⟩
  · have hfree := taken_iff.not.mpr ((refused_some h val).not.mp hrefused)
    obtain ⟨hafter, -⟩ := hb.multiIndex.replace_done h hrefused
    exact ⟨Or.inl ⟨hfree, rows_of_perm hafter⟩, hafter.length_eq.trans h.length_eq.symm⟩

/-- Nodes that are erased one after the other. -/
theorem erase_all (c : Content indices) {gone others : List (Node V)}
    (h : c.nodes.Perm (gone ++ others)) :
    (gone.foldl (fun c x => b.erase c x.id) c).nodes.Perm others := by
  induction gone generalizing c with
  | nil => exact h
  | cons x gone ih => exact ih _ (hb.erase h)

/-- `TryCopy` gives a row with the key, or there is none. -/
theorem tryCopy_cases (tag : Tag indices) (k : tag.1.Key) (val : V) :
    (∃ v, b.tryCopy tag.1 c k val = some (true, v) ∧ tag.1.key v = k ∧ v ∈ c.table.rows) ∨
      b.tryCopy tag.1 c k val = some (false, val) ∧ ¬Found c.table.rows tag k := by
  rcases find_cases hb c tag k with ⟨x, others, hfind, hkey, hx, -⟩ | ⟨hfind, hnone⟩
  · refine Or.inl ⟨x.val, ?_, hkey, mem_rows hx⟩
    simp only [Container.tryCopy, hfind, deref_of_mem c hx, Option.map_some]
  · refine Or.inr ⟨?_, hnone⟩
    simp only [Container.tryCopy, hfind]

end Calls

/-- `ForEach` goes through all of the nodes, if they can be counted. -/
theorem visit_eq (nodes : List (Node V)) (args : List V) {count : Int} (hcount : 0 ≤ count)
    (hmost : count + nodes.length ≤ 2147483647) :
    visit nodes args count = some (args ++ nodes.map Node.val, count + nodes.length) := by
  induction nodes generalizing args count with
  | nil => simp [visit]
  | cons x nodes ih =>
    rw [List.length_cons] at hmost
    push_cast at hmost
    have hint : InInt32 (count + 1) := ⟨by omega, by omega⟩
    rw [visit, int32_of_mem hint, Option.bind_some, ih _ (by omega) (by omega)]
    have hlen : count + 1 + nodes.length = count + (x :: nodes).length := by
      rw [List.length_cons]
      push_cast
      omega
    rw [hlen, List.append_assoc]
    rfl

/-- **One call** of a container with room answers as the table does. -/
theorem call_spec {b : Container indices} (hb : b.Lawful) (c : Content indices)
    (a : Call indices) (hroom : c.nodes.length ≤ 2147483647) :
    ∃ c' reply, call b c a = some (c', reply) ∧ Spec c.table a reply c'.table ∧
      c'.nodes.length ≤ c.nodes.length + 1 := by
  cases a with
  | set val =>
    obtain ⟨hinserts, hlen⟩ := emplace_inserts hb c val
    exact ⟨_, _, rfl, .set hinserts, hlen⟩
  | update tag k val =>
    rcases find_cases hb c tag k with ⟨x, others, hfind, hkey, -, hothers⟩ | ⟨hfind, hnone⟩
    · obtain ⟨hrows, hlen⟩ := replace_rows hb c hothers val
      refine ⟨(b.replace c x.id val).1, .flag true, ?_, .replaced hkey (rows_of_perm hothers) hrows,
        by omega⟩
      simp only [call, update, hfind]
    · obtain ⟨hinserts, hlen⟩ := emplace_inserts hb c val
      refine ⟨(b.emplace c val).1, .flag false, ?_, .inserted hnone hinserts, hlen⟩
      simp only [call, update, hfind]
  | remove tag k =>
    rcases find_cases hb c tag k with ⟨x, others, hfind, hkey, -, hothers⟩ | ⟨hfind, hnone⟩
    · have hafter := hb.erase hothers
      have hlen := hothers.length_eq
      rw [List.length_cons] at hlen
      refine ⟨b.erase c x.id, .flag true, ?_, .removed hkey ?_, by rw [hafter.length_eq]; omega⟩
      · simp only [call, Container.remove, hfind]
      · rw [rows_of_perm hothers]
        exact congrArg (x.val ::ₘ ·) (Multiset.coe_eq_coe.mpr (hafter.map Node.val)).symm
    · refine ⟨c, .flag false, ?_, .kept hnone, Nat.le_succ _⟩
      simp only [call, Container.remove, hfind]
  | removeRange tag k =>
    have hsplit : c.nodes.Perm (b.equalRange tag.1 c k ++
        c.nodes.filter fun x => tag.1.key x.val ≠ k) := by
      refine (List.filter_append_perm (fun x => tag.1.key x.val = k) c.nodes).symm.trans ?_
      refine List.Perm.append (hb.equalRange tag.2).symm ?_
      simp
    have hafter := erase_all hb c hsplit
    refine ⟨_, _, rfl, .removeRange ?_, ?_⟩
    · rw [filter_rows]
      exact Multiset.coe_eq_coe.mpr (hafter.map Node.val)
    · refine hafter.length_eq.le.trans ((List.length_filter_le _ _).trans ?_)
      exact Nat.le_succ _
  | has tag k =>
    refine ⟨c, _, rfl, .has ?_, Nat.le_succ _⟩
    rcases find_cases hb c tag k with ⟨x, others, hfind, rfl, hx, -⟩ | ⟨hfind, hnone⟩
    · rw [Container.has, hfind]
      exact iff_of_true rfl ⟨x.val, mem_rows hx, rfl⟩
    · rw [Container.has, hfind]
      exact iff_of_false (by simp) hnone
  | tryCopy tag k val =>
    rcases tryCopy_cases hb c tag k val with ⟨v, hcopy, hkey, hv⟩ | ⟨hcopy, hnone⟩
    · refine ⟨c, .value true v, ?_, .value hkey hv, Nat.le_succ _⟩
      rw [call, hcopy, Option.map_some]
    · refine ⟨c, .value false val, ?_, .noValue hnone, Nat.le_succ _⟩
      rw [call, hcopy, Option.map_some]
  | copy tag k init =>
    rcases tryCopy_cases hb c tag k init with ⟨v, hcopy, hkey, hv⟩ | ⟨hcopy, hnone⟩
    · refine ⟨c, .copied (some v), ?_, .copied hkey hv, Nat.le_succ _⟩
      rw [call, Container.copy, hcopy]
      rfl
    · refine ⟨c, .copied none, ?_, .noCopy hnone, Nat.le_succ _⟩
      rw [call, Container.copy, hcopy]
      rfl
  | forEach tag =>
    have hall := hb.elements (c := c) tag.2
    have hvisit := visit_eq (b.elements tag.1 c) [] (Int.le_refl 0) (by rw [hall.length_eq]; omega)
    have hlen : (0 : Int) + (b.elements tag.1 c).length =
        ((b.elements tag.1 c).map Node.val).length := by simp
    refine ⟨c, _, ?_, .forEach (Multiset.coe_eq_coe.mpr (hall.map Node.val)), Nat.le_succ _⟩
    rw [call, hvisit, hlen]
    rfl
  | forEachKey tag k =>
    have hall := hb.equalRange (c := c) (k := k) tag.2
    have hless := hall.length_eq.le.trans (List.length_filter_le _ _)
    have hvisit := visit_eq (b.equalRange tag.1 c k) [] (Int.le_refl 0) (by omega)
    have hlen : (0 : Int) + (b.equalRange tag.1 c k).length =
        ((b.equalRange tag.1 c k).map Node.val).length := by simp
    refine ⟨c, _, ?_, .forEachKey ((Multiset.coe_eq_coe.mpr (hall.map Node.val)).trans ?_),
      Nat.le_succ _⟩
    · rw [call, hvisit, hlen]
      rfl
    · exact (filter_rows c fun v => tag.1.key v = k).symm
  | getSize =>
    refine ⟨c, .size c.nodes.length, rfl, ?_, Nat.le_succ _⟩
    rw [← card_rows]
    exact .getSize
  | isEmpty =>
    refine ⟨c, _, rfl, .isEmpty ?_, Nat.le_succ _⟩
    simp [Content.table]

/-- **A `BMIC` is a table**: every sequence of calls on a new one that an `int` can count returns,
with answers of the table. -/
theorem table_of_run {b : Container indices} (hb : b.Lawful) (calls : List (Call indices))
    (hcount : calls.length ≤ 2147483647) :
    ∃ c answers, runCalls (call b) Content.empty calls = some (c, answers) ∧
      Trace Spec (Content.table Content.empty) calls answers c.table := by
  have hstep : ∀ (c : Content indices) t a, t = c.table → t.rows.card ≤ 2147483647 →
      ∃ c' reply t', call b c a = some (c', reply) ∧ Spec t a reply t' ∧ t' = c'.table ∧
        t'.rows.card ≤ t.rows.card + 1 := by
    rintro c _ a rfl hroom
    rw [card_rows] at hroom
    obtain ⟨c', reply, hcall, hspec, hlen⟩ := call_spec hb c a hroom
    refine ⟨c', reply, _, hcall, hspec, rfl, ?_⟩
    rw [card_rows, card_rows]
    exact hlen
  have hroom : (Content.table (Content.empty : Content indices)).rows.card + calls.length ≤
      2147483647 := by
    rw [card_rows]
    exact (Nat.zero_add _).le.trans hcount
  obtain ⟨c, answers, t, hrun, htrace, rfl⟩ :=
    run_of_room (fun t : Table indices => t.rows.card) hstep rfl calls hroom
  exact ⟨c, answers, hrun, htrace⟩

-- ---------------------------------------------------------------------------
-- A container that keeps its nodes in a list
-- ---------------------------------------------------------------------------

theorem valid_filter (c : Content indices) (p : Node V → Bool) :
    Valid indices (c.nodes.filter p) where
  distinct := ((List.filter_sublist ..).map Node.id).nodup c.valid.distinct
  keys index hindex hunique :=
    ((List.filter_sublist ..).map _).nodup (c.valid.keys index hindex hunique)

def listContainer (indices : List (KeyIndex V)) : Container indices where
  toMultiIndex := listIndex indices
  erase c id := ⟨_, valid_filter c fun x => x.id ≠ id⟩
  elements _ c := c.nodes
  equalRange index c k := c.nodes.filter fun x => index.key x.val = k

theorem listContainer_lawful (indices : List (KeyIndex V)) : (listContainer indices).Lawful where
  multiIndex := listIndex_lawful indices
  erase {c x others} h := by
    have hnot := (valid_cons.mp (c.valid.perm h)).1.1
    have hothers : (x :: others).filter (fun y => y.id ≠ x.id) = others := by
      rw [List.filter_cons_of_neg (by simp), List.filter_eq_self]
      intro y hy
      have hne : y.id ≠ x.id := fun heq => hnot (heq ▸ List.mem_map_of_mem hy)
      simpa using hne
    have hperm := h.filter fun y => decide (y.id ≠ x.id)
    rw [hothers] at hperm
    exact hperm
  elements _ := List.Perm.refl _
  equalRange _ := List.Perm.refl _

/-- Two unique indices, and a value that would take a place of the second one. -/
theorem table_of_run_halves :
    ∃ c answers, runCalls (call (listContainer halves)) Content.empty
        [.set (1, 10), .set (2, 20), .update ⟨halves.head (by decide), by simp [halves]⟩ (1 : Nat)
          (3, 20), .getSize] = some (c, answers) ∧
      Trace Spec (Content.table Content.empty) [.set (1, 10), .set (2, 20),
        .update ⟨halves.head (by decide), by simp [halves]⟩ (1 : Nat) (3, 20), .getSize] answers
        c.table :=
  table_of_run (listContainer_lawful halves) _ (by decide)

-- ---------------------------------------------------------------------------
-- One unique index
-- ---------------------------------------------------------------------------

/-- Calls that use the container by the keys of one index. -/
inductive ByKey (tag : Tag indices) : Call indices → Prop
  | set (val : V) : ByKey tag (.set val)
  | update (val : V) : ByKey tag (.update tag (tag.1.key val) val)
  | remove (k : tag.1.Key) : ByKey tag (.remove tag k)
  | has (k : tag.1.Key) : ByKey tag (.has tag k)
  | tryCopy (k : tag.1.Key) (val : V) : ByKey tag (.tryCopy tag k val)
  | copy (k : tag.1.Key) (init : V) : ByKey tag (.copy tag k init)

/-- **A partial function** from keys to values. `Set` does not overwrite. -/
inductive Map (tag : Tag indices) :
    (tag.1.Key → Option V) → Call indices → Reply V → (tag.1.Key → Option V) → Prop
  | set {m : tag.1.Key → Option V} {val : V} :
      Map tag m (.set val) .done
        (Function.update m (tag.1.key val) ((m (tag.1.key val)).or (some val)))
  | update {m : tag.1.Key → Option V} {val : V} :
      Map tag m (.update tag (tag.1.key val) val) (.flag (m (tag.1.key val)).isSome)
        (Function.update m (tag.1.key val) (some val))
  | remove {m : tag.1.Key → Option V} {k : tag.1.Key} :
      Map tag m (.remove tag k) (.flag (m k).isSome) (Function.update m k none)
  | has {m : tag.1.Key → Option V} {k : tag.1.Key} : Map tag m (.has tag k) (.flag (m k).isSome) m
  | tryCopy {m : tag.1.Key → Option V} {k : tag.1.Key} {val : V} :
      Map tag m (.tryCopy tag k val) (.value (m k).isSome ((m k).getD val)) m
  | copy {m : tag.1.Key → Option V} {k : tag.1.Key} {init : V} :
      Map tag m (.copy tag k init) (.copied (m k)) m

/-- The rows of a table, by their keys. -/
def Along (tag : Tag indices) (t : Table indices) (m : tag.1.Key → Option V) : Prop :=
  ∀ k v, m k = some v ↔ v ∈ t.rows ∧ tag.1.key v = k

section OneIndex

variable {tag : Tag indices} (honly : ∀ index ∈ indices, index.unique = true ↔ index = tag.1)
include honly

/-- Only a row with the key takes the place. -/
theorem taken_iff_key {rows : Multiset V} {val : V} :
    Taken indices rows val ↔ ∃ v ∈ rows, tag.1.key v = tag.1.key val := by
  refine ⟨?_, fun h => ⟨tag.1, tag.2, (honly _ tag.2).mpr rfl, h⟩⟩
  rintro ⟨index, hindex, hunique, h⟩
  obtain rfl := (honly index hindex).mp hunique
  exact h

/-- The other rows have other keys. -/
theorem key_ne_of_rows {t : Table indices} {v : V} {others : Multiset V}
    (h : t.rows = v ::ₘ others) : ∀ w ∈ others, tag.1.key w ≠ tag.1.key v := by
  have hkeys := t.keyed tag.1 tag.2 ((honly _ tag.2).mpr rfl)
  rw [h, Multiset.map_cons, Multiset.nodup_cons] at hkeys
  exact fun w hw heq => hkeys.1 (heq ▸ Multiset.mem_map_of_mem _ hw)

omit honly in
/-- The key of a row gives that row. -/
theorem Along.of_mem {t : Table indices} {m : tag.1.Key → Option V} (h : Along tag t m) {v : V}
    (hv : v ∈ t.rows) : m (tag.1.key v) = some v := (h _ v).mpr ⟨hv, rfl⟩

omit honly in
theorem Along.isSome_iff {t : Table indices} {m : tag.1.Key → Option V} (h : Along tag t m)
    {k : tag.1.Key} : (m k).isSome = true ↔ Found t.rows tag k := by
  simp only [Option.isSome_iff_exists, h k, Found]

omit honly in
theorem Along.eq_none {t : Table indices} {m : tag.1.Key → Option V} (h : Along tag t m)
    {k : tag.1.Key} (hnone : ¬Found t.rows tag k) : m k = none := by
  rw [← h.isSome_iff, Option.not_isSome_iff_eq_none] at hnone
  exact hnone

omit honly in
theorem Along.congr {t t' : Table indices} {m : tag.1.Key → Option V} (h : Along tag t m)
    (hrows : t'.rows = t.rows) : Along tag t' m := by
  intro k v
  rw [hrows]
  exact h k v

omit honly in
/-- A row in the place of those with its key. -/
theorem Along.put {t t' : Table indices} {m : tag.1.Key → Option V} (h : Along tag t m)
    {val : V} {others : Multiset V} (hrows : t'.rows = val ::ₘ others)
    (hothers : ∀ w, w ∈ others ↔ w ∈ t.rows ∧ tag.1.key w ≠ tag.1.key val) :
    Along tag t' (Function.update m (tag.1.key val) (some val)) := by
  intro k v
  rw [hrows, Multiset.mem_cons]
  by_cases hk : k = tag.1.key val
  · subst hk
    rw [Function.update_self, Option.some.injEq]
    refine ⟨fun heq => ⟨Or.inl heq.symm, congrArg _ heq.symm⟩, ?_⟩
    rintro ⟨rfl | hv, hkey⟩
    · rfl
    · exact absurd hkey ((hothers v).mp hv).2
  · rw [Function.update_of_ne hk, h k v]
    refine ⟨?_, ?_⟩
    · rintro ⟨hv, rfl⟩
      exact ⟨Or.inr ((hothers v).mpr ⟨hv, hk⟩), rfl⟩
    · rintro ⟨rfl | hv, rfl⟩
      · exact absurd rfl hk
      · exact ⟨((hothers v).mp hv).1, rfl⟩

/-- A row goes. -/
theorem Along.drop {t t' : Table indices} {m : tag.1.Key → Option V} (h : Along tag t m) {v : V}
    (hrows : t.rows = v ::ₘ t'.rows) : Along tag t' (Function.update m (tag.1.key v) none) := by
  have hne := key_ne_of_rows honly hrows
  intro k w
  by_cases hk : k = tag.1.key v
  · subst hk
    rw [Function.update_self]
    exact iff_of_false (by simp) fun hw => hne w hw.1 hw.2
  · rw [Function.update_of_ne hk, h k w, hrows, Multiset.mem_cons]
    refine ⟨?_, fun hw => ⟨Or.inr hw.1, hw.2⟩⟩
    rintro ⟨rfl | hw, rfl⟩
    · exact absurd rfl hk
    · exact ⟨hw, rfl⟩

/-- A row that comes in. -/
theorem Along.insert {t t' : Table indices} {m : tag.1.Key → Option V} (h : Along tag t m)
    {val : V} (hinserts : Inserts t.rows val t') (hnone : ¬Found t.rows tag (tag.1.key val)) :
    Along tag t' (Function.update m (tag.1.key val) (some val)) := by
  rcases hinserts with ⟨-, hrows⟩ | ⟨htaken, -⟩
  · refine h.put hrows fun w => ⟨fun hw => ⟨hw, fun heq => hnone ⟨w, hw, heq⟩⟩, And.left⟩
  · exact absurd ((taken_iff_key honly).mp htaken) hnone

/-- **The map follows** each call. -/
theorem along_step {t t' : Table indices} {m : tag.1.Key → Option V} {a : Call indices}
    {reply : Reply V} (ha : ByKey tag a) (h : Along tag t m) (hspec : Spec t a reply t') :
    ∃ m', Map tag m a reply m' ∧ Along tag t' m' := by
  cases ha with
  | set val =>
    cases hspec with
    | set hinserts =>
      refine ⟨_, .set, ?_⟩
      by_cases hfound : Found t.rows tag (tag.1.key val)
      · obtain ⟨v, hv, hkey⟩ := hfound
        have hsome : m (tag.1.key val) = some v := hkey ▸ h.of_mem hv
        rw [hsome, Option.some_or, ← hsome, Function.update_eq_self]
        have htaken := (taken_iff_key honly).mpr ⟨v, hv, hkey⟩
        exact h.congr (hinserts.resolve_left fun hfree => hfree.1 htaken).2
      · rw [h.eq_none hfound, Option.none_or]
        exact h.insert honly hinserts hfound
  | update val =>
    have hmap : Map tag m (.update tag (tag.1.key val) val)
      (.flag (m (tag.1.key val)).isSome) _ := .update
    cases hspec with
    | replaced hkey hrows hafter =>
      rename_i v others
      have hv : v ∈ t.rows := hrows ▸ Multiset.mem_cons_self v others
      have hne := key_ne_of_rows honly hrows
      rw [hkey] at hne
      rw [h.isSome_iff.mpr ⟨v, hv, hkey⟩] at hmap
      have hfree : ¬Taken indices others val := by
        rw [taken_iff_key honly]
        rintro ⟨w, hw, heq⟩
        exact hne w hw heq
      refine ⟨_, hmap, h.put (hafter.resolve_right fun htaken => hfree htaken.1).2 fun w => ?_⟩
      rw [hrows, Multiset.mem_cons]
      refine ⟨fun hw => ⟨Or.inr hw, hne w hw⟩, ?_⟩
      rintro ⟨rfl | hw, hother⟩
      · exact absurd hkey hother
      · exact hw
    | inserted hnone hinserts =>
      rw [h.eq_none hnone] at hmap
      exact ⟨_, hmap, h.insert honly hinserts hnone⟩
  | remove k =>
    have hmap : Map tag m (.remove tag k) (.flag (m k).isSome) _ := .remove
    cases hspec with
    | removed hkey hrows =>
      rename_i v
      have hv : v ∈ t.rows := hrows ▸ Multiset.mem_cons_self v t'.rows
      rw [h.isSome_iff.mpr ⟨v, hv, hkey⟩] at hmap
      exact ⟨_, hmap, hkey ▸ h.drop honly hrows⟩
    | kept hnone =>
      have hm := h.eq_none hnone
      rw [hm, ← hm, Function.update_eq_self, hm] at hmap
      exact ⟨m, hmap, h⟩
  | has k =>
    have hmap : Map tag m (.has tag k) (.flag (m k).isSome) m := .has
    cases hspec with
    | has hfound =>
      rw [Bool.eq_iff_iff.mpr (h.isSome_iff.trans hfound.symm)] at hmap
      exact ⟨m, hmap, h⟩
  | tryCopy k val =>
    have hmap : Map tag m (.tryCopy tag k val) (.value (m k).isSome ((m k).getD val)) m := .tryCopy
    cases hspec with
    | value hkey hv =>
      rw [← hkey, h.of_mem hv, hkey] at hmap
      exact ⟨m, hmap, h⟩
    | noValue hnone =>
      rw [h.eq_none hnone] at hmap
      exact ⟨m, hmap, h⟩
  | copy k init =>
    have hmap : Map tag m (.copy tag k init) (.copied (m k)) m := .copy
    cases hspec with
    | copied hkey hv =>
      rw [← hkey, h.of_mem hv, hkey] at hmap
      exact ⟨m, hmap, h⟩
    | noCopy hnone =>
      rw [h.eq_none hnone] at hmap
      exact ⟨m, hmap, h⟩

end OneIndex

/-- **A `BMIC` with one unique index is a partial function**, when it is used by the keys of that
index: `Set` adds a value and never overwrites, `Update` overwrites, `Remove` takes away. -/
theorem map_of_run {b : Container indices} (hb : b.Lawful) (tag : Tag indices)
    (honly : ∀ index ∈ indices, index.unique = true ↔ index = tag.1) (calls : List (Call indices))
    (hcalls : ∀ a ∈ calls, ByKey tag a) (hcount : calls.length ≤ 2147483647) :
    ∃ c answers m, runCalls (call b) Content.empty calls = some (c, answers) ∧
      Trace (Map tag) (fun _ => none) calls answers m ∧
      ∀ k v, m k = some v ↔ v ∈ c.nodes.map Node.val ∧ tag.1.key v = k := by
  obtain ⟨c, answers, hrun, htrace⟩ := table_of_run hb calls hcount
  have hempty : Along tag (Content.table Content.empty) fun _ => none := by
    intro k v
    simp [Content.table, Content.empty]
  have hfollows : ∀ (t : Table indices) (m : tag.1.Key → Option V) a reply (t' : Table indices),
      a ∈ calls → Along tag t m → Spec t a reply t' →
        ∃ m', Map tag m a reply m' ∧ Along tag t' m' :=
    fun _ _ a _ _ ha h hspec => along_step honly (hcalls a ha) h hspec
  obtain ⟨m, hmap, halong⟩ := htrace.simulate hfollows hempty
  exact ⟨c, answers, m, hrun, hmap, fun k v => halong k v⟩

/-- One unique index, by the first half of a pair. -/
def firstHalf : KeyIndex (Nat × Nat) := ⟨Nat, Prod.fst, true, inferInstance⟩

def firstTag : Tag [firstHalf] := ⟨firstHalf, List.mem_singleton.mpr rfl⟩

theorem map_of_run_firstHalf :
    ∃ c answers m, runCalls (call (listContainer [firstHalf])) Content.empty
        [.set (1, 10), .update firstTag (firstHalf.key (1, 11)) (1, 11), .set (1, 12),
          .copy firstTag (1 : Nat) (0, 0), .remove firstTag (1 : Nat)] = some (c, answers) ∧
      Trace (Map firstTag) (fun _ => none)
        [.set (1, 10), .update firstTag (firstHalf.key (1, 11)) (1, 11), .set (1, 12),
          .copy firstTag (1 : Nat) (0, 0), .remove firstTag (1 : Nat)] answers m ∧
      ∀ k v, m k = some v ↔ v ∈ c.nodes.map Node.val ∧ firstHalf.key v = k := by
  refine map_of_run (listContainer_lawful [firstHalf]) firstTag ?_ _ ?_ (by decide)
  · intro index hindex
    obtain rfl := List.mem_singleton.mp hindex
    exact iff_of_true rfl rfl
  · intro a ha
    simp only [List.mem_cons, List.not_mem_nil, or_false] at ha
    rcases ha with rfl | rfl | rfl | rfl | rfl
    · exact .set _
    · exact .update (1, 11)
    · exact .set _
    · exact .copy _ _
    · exact .remove _

end Zrtools.Bmic

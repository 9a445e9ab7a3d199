import Mathlib.Data.List.Forall2
import Mathlib.Data.Stream.Init
import Mathlib.Order.Lattice

/-!
# zrtools — random numbers in bounds (`zrt_misc.h`)

`get_random` draws from a distribution and an engine that are `thread_local` statics: both are made
at the first call of the thread, the distribution with the bounds of that call.

* `getRandom_made` — what a later call draws from (step lemma);
* `results_within_first`, `results_reach` — what a run of calls returns (run lemmas);
* `getRandom_within_iff` — when every call is inside its own bounds.
-/

namespace Zrtools.Misc

variable {T ω : Type} [LinearOrder T]

/-- The arguments of a call. -/
structure Bounds (T : Type) [LinearOrder T] where
  low : T
  high : T
  le : low ≤ high

namespace Bounds

def Within (b : Bounds T) (v : T) : Prop := b.low ≤ v ∧ v ≤ b.high

theorem within_low (b : Bounds T) : b.Within b.low := ⟨le_refl _, b.le⟩

theorem within_high (b : Bounds T) : b.Within b.high := ⟨b.le, le_refl _⟩

/-- All that is within `b` is within `c`. -/
def Inside (b c : Bounds T) : Prop := c.low ≤ b.low ∧ b.high ≤ c.high

theorem Inside.within {b c : Bounds T} (h : b.Inside c) {v : T} (hv : b.Within v) : c.Within v :=
  ⟨le_trans h.1 hv.1, le_trans hv.2 h.2⟩

end Bounds

/-- `std::uniform_int_distribution`: from what the engine puts out, a value inside the bounds of the
distribution; each of them can be drawn. -/
structure Distribution (T ω : Type) [LinearOrder T] where
  draw : Bounds T → Stream' ω → T × Stream' ω
  inside : ∀ (b : Bounds T) generator, b.Within (draw b generator).1
  reaches : ∀ (b : Bounds T) v, b.Within v →
    ∃ outputs : List ω, ∀ rest, draw b (outputs ++ₛ rest) = (v, rest)

/-- The `thread_local` statics of `get_random`, where they have been made. -/
structure Statics (T ω : Type) [LinearOrder T] where
  generator : Option (Stream' ω) := none
  distribution : Option (Bounds T) := none

variable (uniform : Distribution T ω) (device : Stream' ω)

/-- `get_random`, where an engine of `std::random_device` would put out `device`. -/
def getRandom (call : Bounds T) (s : Statics T ω) : T × Statics T ω :=
  let generator := s.generator.getD device
  let distribution := s.distribution.getD call
  let (v, generator) := uniform.draw distribution generator
  (v, { generator := some generator, distribution := some distribution })

/-- What calls after each other return on one thread. -/
def results : List (Bounds T) → Statics T ω → List T
  | [], _ => []
  | call :: calls, s =>
    (getRandom uniform device call s).1 :: results calls (getRandom uniform device call s).2

-- ---------------------------------------------------------------------------
-- One call
-- ---------------------------------------------------------------------------

/-- Once the statics are made, the bounds of a call are not looked at. -/
theorem getRandom_made (call first : Bounds T) (generator : Stream' ω) :
    getRandom uniform device call { generator := some generator, distribution := some first } =
      ((uniform.draw first generator).1,
        { generator := some (uniform.draw first generator).2, distribution := some first }) := rfl

/-- The first call makes them. -/
theorem getRandom_first (first : Bounds T) :
    getRandom uniform device first {} =
      getRandom uniform device first
        { generator := some device, distribution := some first } := rfl

-- ---------------------------------------------------------------------------
-- A run of calls
-- ---------------------------------------------------------------------------

theorem results_first (first : Bounds T) (calls : List (Bounds T)) :
    results uniform device (first :: calls) {} =
      results uniform device (first :: calls)
        { generator := some device, distribution := some first } := by
  simp only [results, getRandom_first]

theorem length_results (calls : List (Bounds T)) (s : Statics T ω) :
    (results uniform device calls s).length = calls.length := by
  induction calls generalizing s with
  | nil => rfl
  | cons call calls ih => rw [results, List.length_cons, List.length_cons, ih]

/-- Every result is inside the bounds of the first call. -/
theorem results_within_first (first : Bounds T) (calls : List (Bounds T))
    (generator : Stream' ω) :
    ∀ v ∈ results uniform device calls
      { generator := some generator, distribution := some first }, first.Within v := by
  induction calls generalizing generator with
  | nil =>
    intro v hv
    cases hv
  | cons call calls ih =>
    intro v hv
    rw [results, getRandom_made, List.mem_cons] at hv
    rcases hv with rfl | hv
    · exact uniform.inside first generator
    · exact ih _ v hv

/-- Each value inside the bounds of the first call can be the result of every call. -/
theorem results_reach (first : Bounds T) {v : T} (hv : first.Within v)
    (calls : List (Bounds T)) :
    ∃ outputs : List ω, ∀ device rest, results uniform device calls
      { generator := some (outputs ++ₛ rest), distribution := some first } =
        calls.map fun _ => v := by
  induction calls with
  | nil => exact ⟨[], fun _ _ => rfl⟩
  | cons call calls ih =>
    obtain ⟨outputs, hdraw⟩ := uniform.reaches first v hv
    obtain ⟨later, hlater⟩ := ih
    refine ⟨outputs ++ later, fun device rest => ?_⟩
    rw [results, getRandom_made, Stream'.append_append_stream, hdraw, hlater, List.map_cons]

/-- All results of a run are in the bounds of their own calls. -/
def RunWithin (calls : List (Bounds T)) : Prop :=
  List.Forall₂ Bounds.Within calls (results uniform device calls {})

theorem runWithin_of_inside {first : Bounds T} {calls : List (Bounds T)}
    (h : ∀ call ∈ calls, first.Inside call) (generator : Stream' ω) :
    List.Forall₂ Bounds.Within calls (results uniform device calls
      { generator := some generator, distribution := some first }) := by
  refine List.forall₂_iff_zip.mpr ⟨(length_results ..).symm, fun {call v} hzip => ?_⟩
  obtain ⟨hcall, hv⟩ := List.of_mem_zip hzip
  exact (h call hcall).within (results_within_first uniform device first calls generator v hv)

/-- The bounds of the first call are all that counts: what lies in them can come out of each. -/
theorem within_of_runWithin {first : Bounds T} {calls : List (Bounds T)} [Inhabited ω]
    (h : ∀ device, RunWithin uniform device (first :: calls)) {v : T} (hv : first.Within v) :
    ∀ call ∈ first :: calls, call.Within v := by
  obtain ⟨outputs, hreach⟩ := results_reach uniform first hv (first :: calls)
  have hrun := h (outputs ++ₛ Stream'.const default)
  rw [RunWithin, results_first, hreach, List.forall₂_map_right_iff, List.forall₂_same] at hrun
  exact hrun

/-- **When all calls of a thread stay in their own bounds.** -/
theorem getRandom_within_iff [Inhabited ω] (calls : List (Bounds T)) :
    (∀ device, RunWithin uniform device calls) ↔
      ∀ first ∈ calls.head?, ∀ call ∈ calls, first.Inside call := by
  cases calls with
  | nil => simp [RunWithin, results]
  | cons first calls =>
    simp only [List.head?_cons, Option.mem_some_iff, forall_eq']
    refine ⟨?_, ?_⟩
    · intro h call hcall
      -- the ends of the first bounds are results of every call
      have hlow := within_of_runWithin uniform h first.within_low call hcall
      have hhigh := within_of_runWithin uniform h first.within_high call hcall
      exact ⟨hlow.1, hhigh.2⟩
    · intro h device
      rw [RunWithin, results_first]
      exact runWithin_of_inside uniform device h device

/-- A distribution that counts up from the low end of its bounds, with one output a draw. -/
def counting : Distribution Nat Nat where
  draw b generator := (b.low + generator.head % (b.high - b.low + 1), generator.tail)
  inside b generator := by
    have hmod := Nat.mod_lt generator.head (Nat.add_one_pos (b.high - b.low))
    have hle := b.le
    exact ⟨Nat.le_add_right .., by omega⟩
  reaches b v hv := by
    refine ⟨[v - b.low], fun rest => ?_⟩
    have hhead : ([v - b.low] ++ₛ rest).head = v - b.low := rfl
    have htail : ([v - b.low] ++ₛ rest).tail = rest := rfl
    have hlow := hv.1
    have hhigh := hv.2
    rw [hhead, htail, Nat.mod_eq_of_lt (by omega), Nat.add_sub_cancel' hlow]

/-- From 0 to 10, then from 20 to 30 on the same thread: both are drawn from 0 to 10. -/
theorem getRandom_other_bounds :
    results counting (Stream'.const 0) [⟨0, 10, by decide⟩, ⟨20, 30, by decide⟩] {} = [0, 0] ∧
    ¬∀ (device : Stream' Nat) (calls : List (Bounds Nat)), RunWithin counting device calls := by
  have hresults :
      results counting (Stream'.const 0) [⟨0, 10, by decide⟩, ⟨20, 30, by decide⟩] {} = [0, 0] :=
    rfl
  refine ⟨hresults, fun h => ?_⟩
  have hrun := h (Stream'.const 0) [⟨0, 10, by decide⟩, ⟨20, 30, by decide⟩]
  rw [RunWithin, hresults, List.forall₂_cons, List.forall₂_cons] at hrun
  exact absurd hrun.2.1.1 (by decide)

end Zrtools.Misc

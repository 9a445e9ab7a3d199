import Zrtools.Snowflake

/-!
# zrtools — Snowflake IDs over restarts (`zrt_snowflake.h`)

A generator keeps its packed word in memory only: the process that starts after another one begins
at zero, and knows nothing of the IDs that the other gave out under the same server number. What
keeps the lives of a server apart is the clock alone.

* `Lives.Later` — the clock readings of a life are past the timestamps of the former ones;
* `Lives.Inv` — the invariant: the words of a life are above those of the former ones;
* `unique_over_restarts` — with such a clock, all IDs of all lives are different, and increase.
-/

namespace Zrtools.Snowflake

open PackedWord

variable {p : Params}

-- ---------------------------------------------------------------------------
-- Lives
-- ---------------------------------------------------------------------------

/-- The generator of the call that a thread is in. -/
def Pc.generator {G : Type} : Pc G → Option G
  | .idle => none
  | .top g => some g
  | .clocked g _ => some g
  | .waiting g _ _ => some g
  | .ready g _ _ _ => some g

/-- The generators that live, and the largest word that each had in a former life. -/
structure Lives (G T : Type) where
  sys : Sys G T
  former : G → UInt64

inductive Event (G T : Type) where
  | act (a : Action G T)
  | restart (g : G)

namespace Lives

variable {G T : Type} [DecidableEq G] [DecidableEq T]

def initial : Lives G T := { sys := Sys.initial, former := fun _ => 0 }

/-- The process ends with all of its calls, and another one constructs the generator. -/
def restart (s : Lives G T) (g : G) : Lives G T where
  sys :=
    { state := Function.update s.sys.state g 0,
      pc := fun t => if (s.sys.pc t).generator = some g then .idle else s.sys.pc t }
  former := Function.update s.former g
    (if s.former g < s.sys.state g then s.sys.state g else s.former g)

variable (p) in
def step (s : Lives G T) : Event G T → Option (Lives G T)
  | .act a => (s.sys.step p a).map fun sys => { s with sys }
  | .restart g => some (s.restart g)

def returned (gens : G → Generator p) (s : Lives G T) : Event G T → List (G × UInt64)
  | .act a => s.sys.returned gens a
  | .restart _ => []

variable (p) in
/-- Every clock reading is in range, and past the last timestamp of the former lives. -/
def Later (s : Lives G T) : Event G T → Prop
  | .act (.clock t now) => now.toNat < 2 ^ (64 - p.sequenceBits) ∧
      ∀ g, (s.sys.pc t).generator = some g →
        s.former g = 0 ∨ high p.sequenceBits (s.former g) < now
  | _ => True

instance decidableLater (s : Lives G T) : (e : Event G T) → Decidable (s.Later p e)
  | .act (.clock t now) => inferInstanceAs (Decidable (now.toNat < 2 ^ (64 - p.sequenceBits) ∧
      ∀ g ∈ (s.sys.pc t).generator, s.former g = 0 ∨ high p.sequenceBits (s.former g) < now))
  | .act (.call _ _) => isTrue trivial
  | .act (.load _) => isTrue trivial
  | .act (.cas _ _) => isTrue trivial
  | .restart _ => isTrue trivial

/-- All IDs of all lives. -/
def ids (gens : G → Generator p) (events : List (Event G T)) : List (G × UInt64) :=
  Schedule.outputs (step p) (returned gens) initial events

end Lives

-- ---------------------------------------------------------------------------
-- One step
-- ---------------------------------------------------------------------------

/-- A new generator goes on with the time that it read. -/
theorem afterLoad_zero {now timestamp newSequence : UInt64}
    (h : afterLoad p now 0 = .update timestamp newSequence) : timestamp = now := by
  have hdrift : checkDrift p now 0 = .proceed now := by
    rw [checkDrift, if_neg (UInt64.not_lt.mpr (UInt64.zero_le))]
  have hzero : (0 : UInt64) >>> UInt64.ofNat p.sequenceBits = 0 := UInt64.zero_shiftRight
  rw [afterLoad, hzero, hdrift] at h
  dsimp only at h
  split at h
  · split at h
    · cases h
    · cases h
      rfl
  · cases h
    rfl

/-- A word that is later than the former ones is above them. -/
theorem former_lt {former oldState timestamp newSequence : UInt64}
    (hfits : Fits p timestamp newSequence) (hlt : oldState < newState p timestamp newSequence)
    (hlater : former = 0 ∨ high p.sequenceBits former < timestamp) :
    former < newState p timestamp newSequence := by
  rcases hlater with rfl | hlater
  · exact UInt64.lt_of_le_of_lt UInt64.zero_le hlt
  · exact lt_newState_of_timestamp_lt hfits hlater

section Runs

variable {G T : Type} [DecidableEq G] [DecidableEq T] (gens : G → Generator p)

/-- What a thread knows at each point of a call, of the former lives too. -/
def PcLater (p : Params) (former : G → UInt64) : Pc G → Prop
  | .clocked g now => now.toNat < 2 ^ (64 - p.sequenceBits) ∧
      (former g = 0 ∨ high p.sequenceBits (former g) < now)
  | .waiting _ oldState timestamp => timestamp = high p.sequenceBits oldState
  | .ready g oldState timestamp newSequence =>
    Fits p timestamp newSequence ∧ oldState < newState p timestamp newSequence ∧
      former g < newState p timestamp newSequence
  | _ => True

/-- An ID was made from a word that its generator has reached, in this life or another. -/
def Lives.Issued (s : Lives G T) (x : G × UInt64) : Prop :=
  ∃ t q, Fits p t q ∧ makeId (gens x.1) t q = some x.2 ∧
    (newState p t q ≤ s.former x.1 ∨ newState p t q ≤ s.sys.state x.1)

/-- **The invariant.** -/
structure Lives.Inv (s : Lives G T) (past : List (G × UInt64)) : Prop where
  pcs : ∀ t, PcLater p s.former (s.sys.pc t)
  words : ∀ g, s.sys.state g = 0 ∨ s.former g < s.sys.state g
  issued : ∀ x ∈ past, s.Issued gens x
  increasing : past.Pairwise fun x y => x.1 = y.1 → x.2 < y.2

variable {gens}

omit [DecidableEq G] [DecidableEq T] in
theorem PcLater.congr {former former' : G → UInt64} {pc : Pc G} (h : PcLater p former pc)
    (hsame : ∀ g, pc.generator = some g → former' g = former g) : PcLater p former' pc := by
  cases pc with
  | idle => trivial
  | top => trivial
  | clocked g now =>
    refine ⟨h.1, ?_⟩
    rw [hsame g rfl]
    exact h.2
  | waiting => exact h
  | ready g =>
    refine ⟨h.1, h.2.1, ?_⟩
    rw [hsame g rfl]
    exact h.2.2

omit [DecidableEq G] in
/-- Moving one thread leaves the words and the IDs alone. -/
theorem Lives.Inv.setPc {s : Lives G T} {past : List (G × UInt64)} (h : s.Inv gens past) {t : T}
    {pc : Pc G} (hpc : PcLater p s.former pc) :
    ({ s with sys := s.sys.setPc t pc } : Lives G T).Inv gens past where
  pcs := (Function.forall_update_iff _ fun _ pc => PcLater p s.former pc).mpr
    ⟨hpc, fun u _ => h.pcs u⟩
  words := h.words
  issued := h.issued
  increasing := h.increasing

/-- A successful compare-and-swap. -/
theorem Lives.Inv.store {s : Lives G T} {past : List (G × UInt64)} (h : s.Inv gens past) {t : T}
    {g : G} {timestamp newSequence : UInt64} (hfits : Fits p timestamp newSequence)
    (hlt : s.sys.state g < newState p timestamp newSequence)
    (hformer : s.former g < newState p timestamp newSequence) :
    ({ s with
        sys := ⟨Function.update s.sys.state g (newState p timestamp newSequence),
          Function.update s.sys.pc t .idle⟩ } : Lives G T).Inv gens
      (past ++ match makeId (gens g) timestamp newSequence with
        | some id => [(g, id)]
        | none => []) := by
  set s' : Lives G T := { s with
    sys := ⟨Function.update s.sys.state g (newState p timestamp newSequence),
      Function.update s.sys.pc t .idle⟩ } with hs'
  have hpcs : ∀ u, PcLater p s'.former (s'.sys.pc u) :=
    (Function.forall_update_iff _ fun _ pc => PcLater p s.former pc).mpr
      ⟨trivial, fun u _ => h.pcs u⟩
  have hwords : ∀ g', s'.sys.state g' = 0 ∨ s'.former g' < s'.sys.state g' :=
    (Function.forall_update_iff _ fun g' word => word = 0 ∨ s.former g' < word).mpr
      ⟨Or.inr hformer, fun g' _ => h.words g'⟩
  have hkeep : ∀ x ∈ past, s'.Issued gens x := by
    intro x hx
    obtain ⟨t', q', hfits', hid', hle⟩ := h.issued x hx
    refine ⟨t', q', hfits', hid', hle.imp_right fun hle => ?_⟩
    show newState p t' q' ≤ Function.update s.sys.state g (newState p timestamp newSequence) x.1
    rcases eq_or_ne x.1 g with heq | hne
    · rw [heq] at hle ⊢
      rw [Function.update_self]
      exact UInt64.le_trans hle (UInt64.le_of_lt hlt)
    · rwa [Function.update_of_ne hne]
  cases hid : makeId (gens g) timestamp newSequence with
  | none => exact ⟨hpcs, hwords, by simpa using hkeep, by simpa using h.increasing⟩
  | some id =>
    refine ⟨hpcs, hwords, ?_, ?_⟩
    · intro x hx
      rcases List.mem_append.mp hx with hx | hx
      · exact hkeep x hx
      · obtain rfl := List.mem_singleton.mp hx
        refine ⟨timestamp, newSequence, hfits, hid, Or.inr ?_⟩
        show _ ≤ Function.update s.sys.state g _ g
        rw [Function.update_self]
        exact UInt64.le_refl _
    · rw [List.pairwise_append]
      refine ⟨h.increasing, List.pairwise_singleton _ _, ?_⟩
      intro x hx y hy hsame
      obtain rfl := List.mem_singleton.mp hy
      obtain ⟨t', q', hfits', hid', hle⟩ := h.issued x hx
      obtain rfl : x.1 = g := hsame
      refine makeId_lt_makeId hfits' hfits hid' hid ?_
      rcases hle with hle | hle
      · exact UInt64.lt_of_le_of_lt hle hformer
      · exact UInt64.lt_of_le_of_lt hle hlt

/-- **A step of a thread.** -/
theorem Lives.Inv.act {s s' : Lives G T} {a : Action G T} {past : List (G × UInt64)}
    (h : s.Inv gens past) (hlater : s.Later p (.act a)) (hstep : s.step p (.act a) = some s') :
    s'.Inv gens (past ++ s.returned gens (.act a)) := by
  obtain ⟨sys, hsys, rfl⟩ := Option.map_eq_some_iff.mp hstep
  rw [Lives.returned]
  cases a with
  | call t g =>
    rw [Sys.returned, List.append_nil]
    rw [Sys.step] at hsys
    split at hsys
    · obtain rfl := Option.some.inj hsys
      exact h.setPc trivial
    · simp at hsys
  | clock t now =>
    rw [Sys.returned, List.append_nil]
    obtain ⟨hrange, hlater⟩ := hlater
    have hpc := h.pcs t
    rw [Sys.step] at hsys
    split at hsys
    · rename_i g heq
      obtain rfl := Option.some.inj hsys
      exact h.setPc ⟨hrange, hlater g (by rw [heq]; rfl)⟩
    · rename_i g oldState timestamp heq
      rw [heq] at hpc
      split at hsys
      · obtain rfl := Option.some.inj hsys
        exact h
      · rename_i hpast
        obtain rfl := Option.some.inj hsys
        have hfits : Fits p now 0 := ⟨hrange, Nat.two_pow_pos _⟩
        have hup : oldState < newState p now 0 := by
          refine lt_newState_of_timestamp_lt hfits ?_
          rw [← show timestamp = high p.sequenceBits oldState from hpc]
          exact UInt64.not_le.mp hpast
        exact h.setPc ⟨hfits, hup, former_lt hfits hup (hlater g (by rw [heq]; rfl))⟩
    · simp at hsys
  | load t =>
    rw [Sys.returned, List.append_nil]
    have hpc := h.pcs t
    rw [Sys.step] at hsys
    split at hsys
    · rename_i g now heq
      rw [heq] at hpc
      obtain ⟨hrange, hnow⟩ := hpc
      split at hsys
      · obtain rfl := Option.some.inj hsys
        exact h.setPc trivial
      · obtain rfl := Option.some.inj hsys
        exact h.setPc trivial
      · rename_i hverdict
        obtain rfl := Option.some.inj hsys
        exact h.setPc (afterLoad_waitNext hverdict)
      · rename_i timestamp newSequence hverdict
        obtain rfl := Option.some.inj hsys
        obtain ⟨hfits, hup⟩ := afterLoad_update hrange hverdict
        refine h.setPc ⟨hfits, hup, ?_⟩
        rcases h.words g with hzero | hword
        · rw [hzero] at hverdict
          exact former_lt hfits hup (afterLoad_zero hverdict ▸ hnow)
        · exact UInt64.lt_trans hword hup
    · simp at hsys
  | cas t spurious =>
    have hpc := h.pcs t
    rw [Sys.step] at hsys
    rw [Sys.returned]
    split at hsys
    · rename_i g oldState timestamp newSequence heq
      rw [heq] at hpc
      obtain ⟨hfits, hlt, hformer⟩ := hpc
      split at hsys
      · rename_i hswap
        obtain rfl := Option.some.inj hsys
        rw [if_pos hswap]
        exact h.store hfits (hswap.1 ▸ hlt) hformer
      · rename_i hfail
        obtain rfl := Option.some.inj hsys
        rw [if_neg hfail, List.append_nil]
        exact h.setPc trivial
    · simp at hsys

omit [DecidableEq T] in
/-- **A restart**: what was issued is of a former life now. -/
theorem Lives.Inv.restart {s : Lives G T} {past : List (G × UInt64)} (h : s.Inv gens past) (g : G) :
    (s.restart g).Inv gens past where
  pcs t := by
    show PcLater p _ (if (s.sys.pc t).generator = some g then .idle else s.sys.pc t)
    split
    · trivial
    · rename_i hother
      refine (h.pcs t).congr fun g' hg' => Function.update_of_ne ?_ _ _
      rintro rfl
      exact hother hg'
  words g' := by
    show Function.update s.sys.state g 0 g' = 0 ∨
      Function.update s.former g _ g' < Function.update s.sys.state g 0 g'
    rcases eq_or_ne g' g with rfl | hne
    · exact Or.inl (Function.update_self ..)
    · rw [Function.update_of_ne hne, Function.update_of_ne hne]
      exact h.words g'
  issued x hx := by
    obtain ⟨t, q, hfits, hid, hle⟩ := h.issued x hx
    refine ⟨t, q, hfits, hid, ?_⟩
    show newState p t q ≤ Function.update s.former g _ x.1 ∨
      newState p t q ≤ Function.update s.sys.state g 0 x.1
    rcases eq_or_ne x.1 g with heq | hne
    · left
      rw [heq] at hle ⊢
      rw [Function.update_self]
      split
      · rename_i hless
        exact hle.elim (fun hle => UInt64.le_trans hle (UInt64.le_of_lt hless)) id
      · rename_i hless
        exact hle.elim id fun hle => UInt64.le_trans hle (UInt64.not_lt.mp hless)
    · rwa [Function.update_of_ne hne, Function.update_of_ne hne]
  increasing := h.increasing

/-- **Uniqueness over restarts.** Where every clock reading of a life is past the last timestamp of
the former lives of its generator, all IDs of all lives are different and below 2^63, and those of
one server increase from one life to the next. -/
theorem unique_over_restarts {events : List (Event G T)} {s : Lives G T}
    (hservers : ∀ g g', (gens g).serverId = (gens g').serverId → g = g')
    (hepoch : ∀ g g', (gens g).epochMs = (gens g').epochMs)
    (hlater : Schedule.StepsMeet (Lives.step p) (Lives.Later p) Lives.initial events)
    (hrun : Schedule.run (Lives.step p) Lives.initial events = some s) :
    ((Lives.ids gens events).map Prod.snd).Nodup ∧
      (∀ x ∈ Lives.ids gens events, x.2.toNat < 2 ^ 63) ∧
      (Lives.ids gens events).Pairwise fun x y => x.1 = y.1 → x.2 < y.2 := by
  have hinv : s.Inv gens ([] ++ Lives.ids gens events) := by
    refine Schedule.run_invariant_outputs (Lives.step p) (Lives.Inv gens) ?_ ?_ hlater hrun
    · intro s a s' past h hok hstep
      cases a with
      | act a => exact h.act hok hstep
      | restart g =>
        obtain rfl := Option.some.inj hstep
        rw [Lives.returned, List.append_nil]
        exact h.restart g
    · exact ⟨fun _ => trivial, fun _ => Or.inl rfl, by simp, List.Pairwise.nil⟩
  rw [List.nil_append] at hinv
  refine ⟨?_, ?_, hinv.increasing⟩
  · rw [List.Nodup, List.pairwise_map]
    refine List.Pairwise.imp_of_mem ?_ hinv.increasing
    intro x y hx hy hlt heq
    obtain ⟨t, q, hfits, hid, -⟩ := hinv.issued x hx
    obtain ⟨t', q', hfits', hid', -⟩ := hinv.issued y hy
    -- equal IDs parse to equal server numbers, so they are of one generator
    have hparse := parseId_makeId hfits.2 hid
    have hparse' := parseId_makeId hfits'.2 hid'
    have hsame : parseId (gens x.1) x.2 = parseId (gens y.1) y.2 := by
      rw [heq, parseId, parseId, hepoch x.1 y.1]
    rw [hparse, hparse', ParsedId.mk.injEq] at hsame
    have := hlt (hservers _ _ hsame.2.1)
    rw [heq] at this
    exact UInt64.lt_irrefl _ this
  · intro x hx
    obtain ⟨t, q, hfits, hid, -⟩ := hinv.issued x hx
    exact (makeId_isId hfits.2 hid).lt

end Runs

/-- A call on server 0, and after a restart another one that reads the clock at `now`. -/
def restartedCalls (now : UInt64) : List (Event Bool Bool) :=
  [.act (.call false false), .act (.clock false 1704067200007), .act (.load false),
    .act (.cas false false), .restart false, .act (.call true false), .act (.clock true now),
    .act (.load true), .act (.cas true false)]

/-- A millisecond later the second ID is another one, and in the same millisecond it is not. -/
theorem unique_over_restarts_oneLater :
    (((Lives.ids twoServers (restartedCalls 1704067200008)).map Prod.snd).Nodup ∧
      (∀ x ∈ Lives.ids twoServers (restartedCalls 1704067200008), x.2.toNat < 2 ^ 63) ∧
      (Lives.ids twoServers (restartedCalls 1704067200008)).Pairwise
        fun x y => x.1 = y.1 → x.2 < y.2) ∧
      ¬((Lives.ids twoServers (restartedCalls 1704067200007)).map Prod.snd).Nodup := by
  have hservers : ∀ g g', (twoServers g).serverId = (twoServers g').serverId → g = g' := by
    decide
  exact ⟨unique_over_restarts hservers (fun _ _ => rfl) (by decide +kernel) rfl,
    by decide +kernel⟩

end Zrtools.Snowflake

import Zrtools.Time.DateTime

/-!
# zrtools — Normal `DateTime<kUTC>`s (`zrt_time.h`, `zrt_time-inl.h`)

Comparisons take seconds and nanoseconds together, and the calendar takes the seconds only. So
equal times look equal if the nanoseconds are those of a second. Divisions round to zero, and
`SetNano` does not divide at all.

* `shift_normal_iff` — which calls leave a time normal;
* `normal_run_iff` — all along a run, exactly if it starts normal and each call leaves it so;
* `equal_times_look_equal` — two such runs that end in equal times.
-/

namespace Zrtools.Time

open CInteger

/-- A call that moves the time, or sets its nanoseconds. -/
inductive Shift
  | setNano (nano : Int)
  | offset (unit : Offset) (amount : Int)
  deriving DecidableEq

namespace DateTime

def shift (d : DateTime) : Shift → Option DateTime
  | .setNano nano => some (d.setNano nano)
  | .offset unit amount => d.offset unit amount

/-- `operator==`. -/
def same (d rhs : DateTime) : Option Bool := do
  let left ← d.epoch19
  let right ← rhs.epoch19
  some (left == right)

/-- The nanoseconds since 1970. -/
def nanos (d : DateTime) : Int := d.tvSec * 1000000000 + d.tvNsec

/-- The nanoseconds are those of a second, and the seconds are rounded down. -/
structure Normal (d : DateTime) : Prop where
  nsec : 0 ≤ d.tvNsec ∧ d.tvNsec < 1000000000
  epoch10 : ∀ epoch19, d.epoch19 = some epoch19 → d.epoch10 = epoch19 / 1000000000

theorem epoch19_eq {d : DateTime} {epoch19 : Int} (h : d.epoch19 = some epoch19) :
    epoch19 = d.nanos := by
  obtain ⟨_, hmul, h⟩ := Option.bind_eq_some_iff.mp h
  obtain ⟨-, rfl⟩ := int64_eq_some_iff.mp hmul
  exact (int64_eq_some_iff.mp h).2

theorem normal_iff {d : DateTime} : Normal d ↔ 0 ≤ d.tvNsec ∧ d.tvNsec < 1000000000 := by
  refine ⟨Normal.nsec, fun h => ⟨h, fun epoch19 heq => ?_⟩⟩
  rw [epoch19_eq heq, epoch10, nanos]
  omega

-- ---------------------------------------------------------------------------
-- Calls
-- ---------------------------------------------------------------------------

/-- Offsets by seconds. -/
theorem offset_seconds {d d' : DateTime} {unit : Offset} {amount length : Int}
    (hunit : unit.seconds = some length) (h : d.offset unit amount = some d') :
    d' = { d with tvSec := d.tvSec + amount * length, cachedEpoch := -1 } := by
  have hsec : ∀ sec, d.offsetSec sec = some d' →
      d' = { d with tvSec := d.tvSec + sec, cachedEpoch := -1 } := by
    intro sec hoffset
    obtain ⟨_, hsum, hoffset⟩ := Option.bind_eq_some_iff.mp hoffset
    obtain ⟨-, rfl⟩ := int64_eq_some_iff.mp hsum
    cases hoffset
    rfl
  cases unit with
  | day | hour | min =>
    cases hunit
    obtain ⟨_, hmul, h⟩ := Option.bind_eq_some_iff.mp h
    obtain ⟨-, rfl⟩ := int64_eq_some_iff.mp hmul
    exact hsec _ h
  | sec =>
    cases hunit
    rw [Int.mul_one]
    exact hsec _ h
  | mSec | uSec | nano => cases hunit

/-- Offsets by nanoseconds. -/
theorem offset_nanos {d d' : DateTime} {unit : Offset} {amount length : Int}
    (hunit : unit.nanos = some length) (h : d.offset unit amount = some d') :
    d' = { d with
      tvSec := (d.nanos + amount * length).tdiv 1000000000
      tvNsec := (d.nanos + amount * length).tmod 1000000000
      cachedEpoch := -1 } := by
  have hnano : ∀ nano, d.offsetNano nano = some d' → d' = { d with
      tvSec := (d.nanos + nano).tdiv 1000000000
      tvNsec := (d.nanos + nano).tmod 1000000000
      cachedEpoch := -1 } := by
    intro nano hoffset
    obtain ⟨_, hepoch, hoffset⟩ := Option.bind_eq_some_iff.mp hoffset
    obtain ⟨_, hsum, hoffset⟩ := Option.bind_eq_some_iff.mp hoffset
    obtain ⟨-, rfl⟩ := int64_eq_some_iff.mp hsum
    obtain rfl := epoch19_eq hepoch
    cases hoffset
    rfl
  cases unit with
  | mSec =>
    cases hunit
    obtain ⟨_, hmul, h⟩ := Option.bind_eq_some_iff.mp h
    obtain ⟨-, rfl⟩ := int64_eq_some_iff.mp hmul
    obtain ⟨_, hmul, h⟩ := Option.bind_eq_some_iff.mp h
    obtain ⟨-, rfl⟩ := int64_eq_some_iff.mp hmul
    rw [show (1000000 : Int) = 1000 * 1000 from rfl, ← Int.mul_assoc]
    exact hnano _ h
  | uSec =>
    cases hunit
    obtain ⟨_, hmul, h⟩ := Option.bind_eq_some_iff.mp h
    obtain ⟨-, rfl⟩ := int64_eq_some_iff.mp hmul
    exact hnano _ h
  | nano =>
    cases hunit
    rw [Int.mul_one]
    exact hnano _ h
  | day | hour | min | sec => cases hunit

/-- An offset moves the seconds, or divides the nanoseconds. -/
theorem offset_cases {d d' : DateTime} {unit : Offset} {amount : Int}
    (h : d.offset unit amount = some d') :
    (∃ sec, unit.nanos = none ∧ d' = { d with tvSec := sec, cachedEpoch := -1 }) ∨
      ∃ length, unit.nanos = some length ∧
        d' = { d with
          tvSec := (d.nanos + amount * length).tdiv 1000000000
          tvNsec := (d.nanos + amount * length).tmod 1000000000
          cachedEpoch := -1 } := by
  cases unit with
  | day | hour | min | sec => exact Or.inl ⟨_, rfl, offset_seconds rfl h⟩
  | mSec | uSec | nano => exact Or.inr ⟨_, rfl, offset_nanos rfl h⟩

/-- What a call needs so as to leave a normal time: `SetNano` nanoseconds of a second, and an
offset by nanoseconds nothing to round up. -/
def KeepsNormal (d : DateTime) : Shift → Prop
  | .setNano nano => 0 ≤ nano ∧ nano < 1000000000
  | .offset unit amount =>
    ∀ length, unit.nanos = some length →
      0 ≤ d.nanos + amount * length ∨ 1000000000 ∣ d.nanos + amount * length

/-- **The calls that leave a normal time normal.** -/
theorem shift_normal_iff {d d' : DateTime} {a : Shift} (hd : Normal d) (h : d.shift a = some d') :
    Normal d' ↔ d.KeepsNormal a := by
  rw [normal_iff]
  cases a with
  | setNano nano =>
    cases h
    exact Iff.rfl
  | offset unit amount =>
    rcases offset_cases h with ⟨sec, hunit, rfl⟩ | ⟨length, hunit, rfl⟩
    · refine iff_of_true hd.nsec fun length hlength => ?_
      rw [hunit] at hlength
      cases hlength
    · rw [tmod_mem_iff (by decide)]
      simp [KeepsNormal, hunit]

/-- What a constructor needs, since it divides in the same way. -/
def StartsNormal : Origin → Prop
  | .epoch10 _ => True
  | .epoch epoch digits =>
    (digits = 13 → 0 ≤ epoch ∨ 1000 ∣ epoch) ∧ (digits = 16 → 0 ≤ epoch ∨ 1000000 ∣ epoch) ∧
      (digits = 19 → 0 ≤ epoch ∨ 1000000000 ∣ epoch)

theorem start_normal_iff {o : Origin} : Normal o.start ↔ StartsNormal o := by
  rw [normal_iff]
  cases o with
  | epoch10 n => exact iff_of_true (show (0 : Int) ≤ 0 ∧ (0 : Int) < 1000000000 by decide) trivial
  | epoch n digits =>
    have h13 := tmod_mem_iff (a := n) (k := 1000) (by decide)
    have h16 := tmod_mem_iff (a := n) (k := 1000000) (by decide)
    have h19 := tmod_mem_iff (a := n) (k := 1000000000) (by decide)
    rw [StartsNormal, ← h13, ← h16, ← h19]
    show 0 ≤ (ofEpoch n digits).tvNsec ∧ (ofEpoch n digits).tvNsec < 1000000000 ↔ _
    unfold ofEpoch
    split_ifs <;> simp only <;> omega

-- ---------------------------------------------------------------------------
-- Runs
-- ---------------------------------------------------------------------------

/-- Nothing is decoded, since no call decodes anything. -/
def Undecoded (d : DateTime) : Prop := d.tm = {} ∧ d.cachedEpoch = -1

theorem shift_undecoded {d d' : DateTime} {a : Shift} (hd : Undecoded d)
    (h : d.shift a = some d') : Undecoded d' := by
  cases a with
  | setNano nano =>
    cases h
    exact hd
  | offset unit amount =>
    rcases offset_cases h with ⟨sec, -, rfl⟩ | ⟨length, -, rfl⟩ <;> exact ⟨hd.1, rfl⟩

theorem run_undecoded {o : Origin} {acts : List Shift} {d : DateTime}
    (hrun : Schedule.run shift o.start acts = some d) : Undecoded d :=
  Schedule.run_invariant shift Undecoded (fun _ _ _ => shift_undecoded) o.start_undecoded hrun

/-- A getter needs the second and what is decoded. -/
theorem call_congr {a b : DateTime} (hsec : a.tvSec = b.tvSec) (ha : Undecoded a)
    (hb : Undecoded b) (g : Getter) : (a.call g).map Prod.fst = (b.call g).map Prod.fst := by
  rw [call_eq, call_eq, get, get, updateTM, updateTM, ha.2, hb.2, hsec]
  split_ifs
  · simp only [Option.bind_eq_bind, Option.bind_some, ha.1, hb.1]
    cases g.read {} <;> rfl
  · cases civilFromEpochUtc b.tvSec with
    | none => rfl
    | some tm =>
      simp only [Option.bind_eq_bind, Option.bind_some]
      cases g.read tm <;> rfl

end DateTime

open DateTime

/-- A run that starts normal, and whose calls leave it so. -/
def NormalRun (o : Origin) (acts : List Shift) : Prop :=
  StartsNormal o ∧ Schedule.StepsMeet shift KeepsNormal o.start acts

/-- **Normal runs**: these are the runs all along which the time is normal. -/
theorem normal_run_iff {o : Origin} {acts : List Shift} {d : DateTime}
    (hrun : Schedule.run shift o.start acts = some d) :
    (∀ front rest t, acts = front ++ rest → Schedule.run shift o.start front = some t →
      Normal t) ↔ NormalRun o acts := by
  have hexact : Normal o.start → _ := fun hstart =>
    Schedule.forall_reached_iff_stepsMeet shift Normal (fun _ _ _ => shift_normal_iff) hstart hrun
  rw [NormalRun, ← start_normal_iff]
  refine ⟨?_, ?_⟩
  · intro h
    have hstart := h [] acts _ rfl rfl
    exact ⟨hstart, (hexact hstart).mp h⟩
  · rintro ⟨hstart, hok⟩
    exact (hexact hstart).mpr hok

/-- The second is what equal normal times have in common. -/
theorem tvSec_eq_of_same {a b : DateTime} (ha : Normal a) (hb : Normal b)
    (h : a.same b = some true) : a.tvSec = b.tvSec := by
  obtain ⟨left, hleft, h⟩ := Option.bind_eq_some_iff.mp h
  obtain ⟨right, hright, h⟩ := Option.bind_eq_some_iff.mp h
  have heq : left = right := by simpa using h
  have hsec := ha.epoch10 left hleft
  have hsec' := hb.epoch10 right hright
  unfold epoch10 at hsec hsec'
  rw [hsec, hsec', heq]

/-- **Equal times look equal** at the end of normal runs, and normal runs are those all along which
the time is normal. -/
theorem equal_times_look_equal {o o' : Origin} {acts acts' : List Shift} {a b : DateTime}
    (hrun : Schedule.run shift o.start acts = some a)
    (hrun' : Schedule.run shift o'.start acts' = some b) :
    ((∀ front rest t, acts = front ++ rest → Schedule.run shift o.start front = some t →
      Normal t) ↔ NormalRun o acts) ∧
    (NormalRun o acts → NormalRun o' acts' → a.same b = some true →
      a.epoch10 = b.epoch10 ∧
        (a.call .ymdHMS).map Prod.fst = (b.call .ymdHMS).map Prod.fst) := by
  refine ⟨normal_run_iff hrun, fun hok hok' hsame => ?_⟩
  have ha := (normal_run_iff hrun).mpr hok _ [] _ (List.append_nil _).symm hrun
  have hb := (normal_run_iff hrun').mpr hok' _ [] _ (List.append_nil _).symm hrun'
  have hsec := tvSec_eq_of_same ha hb hsame
  exact ⟨hsec, call_congr hsec (run_undecoded hrun) (run_undecoded hrun') .ymdHMS⟩

/-- A millisecond before 1970, by the constructor and by a setter. -/
theorem equal_times_before_1970 :
    ∃ b, Schedule.run shift (Origin.epoch10 (-1)).start [.setNano 999000000] = some b ∧
      (Origin.epoch (-1) 13).start.same b = some true ∧
      (Origin.epoch (-1) 13).start.epoch10 ≠ b.epoch10 ∧ ¬Normal (Origin.epoch (-1) 13).start :=
  ⟨⟨-1, 999000000, {}, -1⟩, by decide, by decide, by decide, fun h => by
    have := h.nsec.1
    revert this
    decide⟩

/-- The same millisecond, by offsets. -/
theorem equal_times_normal :
    ∃ a b, Schedule.run shift (Origin.epoch10 (-1)).start [.setNano 999000000] = some a ∧
      Schedule.run shift (Origin.epoch10 (-2)).start [.setNano 999000000, .offset .sec 1] =
        some b ∧ a.epoch10 = b.epoch10 := by
  have hrun : Schedule.run shift (Origin.epoch10 (-1)).start [.setNano 999000000] =
    some ⟨-1, 999000000, {}, -1⟩ := by decide
  have hrun' : Schedule.run shift (Origin.epoch10 (-2)).start
    [.setNano 999000000, .offset .sec 1] = some ⟨-1, 999000000, {}, -1⟩ := by decide
  have hok : NormalRun (.epoch10 (-1)) [.setNano 999000000] :=
    ⟨trivial, by unfold KeepsNormal; decide, fun _ _ => trivial⟩
  have hok' : NormalRun (.epoch10 (-2)) [.setNano 999000000, .offset .sec 1] :=
    ⟨trivial, by unfold KeepsNormal; decide, fun _ _ => ⟨nofun, fun _ _ => trivial⟩⟩
  exact ⟨_, _, hrun, hrun', ((equal_times_look_equal hrun hrun').2 hok hok' (by decide)).1⟩

end Zrtools.Time

import Zrtools.Wal.Restart

/-!
# zrtools — file names that decode to their number

`CreateNewFile` puts the prefix, an underscore and the number into a name, and
`ParseSeqFromFilename` takes what lies between the first underscore and the first dot of it.

* `parseSeqFromFilename_const` — with an underscore in the prefix all numbers decode alike;
* `FilledDir` — what clean sessions leave: files one after the other, each ending at or
  above its own number;
* `names_decode_iff` — names decode iff the prefix has no underscore, and then a clean restart
  takes a new name.
-/

namespace Zrtools.Wal

-- ---------------------------------------------------------------------------
-- Names
-- ---------------------------------------------------------------------------

/-- Of the text behind the underscore only what stands before the next one counts. -/
theorem stoull_take_append_underscore (count : Nat) (l rest : List Char) :
    stoull ((l ++ '_' :: rest).take count) = stoull (l.take count) := by
  by_cases hcount : count ≤ l.length
  · rw [List.take_append_of_le_length hcount]
  · have hsucc : count - l.length = count - l.length - 1 + 1 := by omega
    rw [List.take_append, hsucc, List.take_succ_cons, stoull_append_stop stopsNumber_underscore]

/-- **With an underscore in the prefix** the number in the name is never looked at. -/
theorem parseSeqFromFilename_const {filePrefix : List Char} (hlen : filePrefix.length < 2 ^ 63)
    (hmem : '_' ∈ filePrefix) (seq seq' : UInt64) :
    parseSeqFromFilename (walFileName filePrefix seq) =
      parseSeqFromFilename (walFileName filePrefix seq') := by
  obtain ⟨before, after, hsplit, hfirst⟩ := List.eq_append_cons_of_mem hmem
  have hprefixLen : filePrefix.length = before.length + 1 + after.length := by
    rw [hsplit, List.length_append, List.length_cons]
    omega
  have hname : ∀ n : UInt64, walFileName filePrefix n = before ++ '_' ::
      (after ++ '_' :: (Nat.toDigits 10 n.toNat ++ '.' :: "wal".toList)) := by
    intro n
    rw [walFileName_eq, hsplit, List.append_assoc, List.cons_append]
  have hunderscore : ∀ n : UInt64, (walFileName filePrefix n).findIdx? (· == '_') =
      some before.length := by
    intro n
    rw [hname]
    exact findIdx?_char hfirst _
  have hdrop : ∀ n : UInt64, (walFileName filePrefix n).drop (before.length + 1) =
      after ++ '_' :: (Nat.toDigits 10 n.toNat ++ '.' :: "wal".toList) := by
    intro n
    rw [hname, ← List.drop_drop, List.drop_left]
    rfl
  by_cases hdot : '.' ∈ filePrefix
  · -- the count comes from the prefix alone
    obtain ⟨front, back, hdotSplit, hdotFirst⟩ := List.eq_append_cons_of_mem hdot
    have hindex : ∀ n : UInt64, (walFileName filePrefix n).findIdx? (· == '.') =
        some front.length := by
      intro n
      rw [walFileName_eq, hdotSplit, List.append_assoc, List.cons_append]
      exact findIdx?_char hdotFirst _
    rw [parseSeqFromFilename, parseSeqFromFilename, hunderscore, hunderscore, hindex, hindex]
    dsimp only
    rw [hdrop, hdrop, stoull_take_append_underscore, stoull_take_append_underscore]
  · -- the count covers all that stands between the two underscores
    have hparse : ∀ n : UInt64,
        parseSeqFromFilename (walFileName filePrefix n) = (stoull after).getD 0 := by
      intro n
      have hshort := length_toDigits_le n
      have hcount : after.length ≤ (filePrefix.length + 1 + (Nat.toDigits 10 n.toNat).length +
          2 ^ 64 - before.length - 1) % 2 ^ 64 := by
        omega
      rw [parseSeqFromFilename, hunderscore, findIdx?_dot hdot]
      dsimp only
      rw [hdrop, stoull_take_append_underscore, List.take_of_length_le hcount]
    rw [hparse, hparse]

/-- A string holds fewer than 2^63 characters. -/
theorem names_decode_iff_not_mem {filePrefix : List Char} (hlen : filePrefix.length < 2 ^ 63) :
    (∀ seq, parseSeqFromFilename (walFileName filePrefix seq) = seq) ↔ '_' ∉ filePrefix := by
  refine ⟨?_, ?_⟩
  · intro h hmem
    have hsame := parseSeqFromFilename_const hlen hmem 0 1
    rw [h, h] at hsame
    exact absurd hsame (by decide)
  · exact fun hmem seq => parseSeqFromFilename_walFileName hmem (fun _ => hlen) seq

-- ---------------------------------------------------------------------------
-- Clean sessions
-- ---------------------------------------------------------------------------

/-- A file that a clean session left: it ends at or above the number in its name. -/
structure FilledFile (f : FileName × Bytes) : Prop where
  wal : isWalFile f = true
  pos : 0 < fileNumber f
  number_le : fileNumber f ≤ lastSeq f
  room : lastSeq f + 1 < 2 ^ 64

/-- Files of clean sessions, one behind the other. -/
structure FilledDir (dir : Directory) : Prop where
  files : ∀ f ∈ dir, FilledFile f
  apart : dir.Pairwise fun f g => lastSeq f < fileNumber g

theorem filledDir_nil : FilledDir [] where
  files := by simp
  apart := List.Pairwise.nil

theorem FilledDir.snoc {dir : Directory} (h : FilledDir dir) {f : FileName × Bytes}
    (hf : FilledFile f) (hlast : ∀ g ∈ dir, lastSeq g < fileNumber f) : FilledDir (dir ++ [f]) where
  files := by
    intro g hg
    rcases List.mem_append.mp hg with hg | hg
    · exact h.files g hg
    · rw [List.mem_singleton.mp hg]
      exact hf
  apart := by
    rw [List.pairwise_append]
    refine ⟨h.apart, List.pairwise_singleton _ _, ?_⟩
    intro g hg f' hf'
    rw [List.mem_singleton.mp hf']
    exact hlast g hg

theorem FilledDir.apart_of_ne {dir : Directory} (h : FilledDir dir) {f g : FileName × Bytes}
    (hf : f ∈ dir) (hg : g ∈ dir) (hne : f ≠ g) :
    lastSeq f < fileNumber g ∨ lastSeq g < fileNumber f := by
  have hsymm : Std.Symm fun a b : FileName × Bytes =>
      lastSeq a < fileNumber b ∨ lastSeq b < fileNumber a := ⟨fun _ _ => Or.symm⟩
  have hboth : dir.Pairwise fun a b => lastSeq a < fileNumber b ∨ lastSeq b < fileNumber a :=
    h.apart.imp Or.inl
  exact hboth.forall hf hg hne

/-- **The scan of `Init`** on clean files, in any order: the result is the greatest number
any of them ends at. -/
theorem FilledDir.foldl_scanStep {dir : Directory} (h : FilledDir dir) {listing : Directory}
    (hmem : ∀ f ∈ listing, f ∈ dir) {m : UInt64}
    (hm : m = 0 ∨ ∃ g ∈ dir, getLastSeqInFile g.2 = m) :
    m ≤ listing.foldl WalFileWriter.scanStep m ∧
      (∀ f ∈ listing, lastSeq f ≤ (listing.foldl WalFileWriter.scanStep m).toNat) ∧
      (listing.foldl WalFileWriter.scanStep m = 0 ∨
        ∃ g ∈ dir, getLastSeqInFile g.2 = listing.foldl WalFileWriter.scanStep m) := by
  induction listing generalizing m with
  | nil => exact ⟨UInt64.le_refl m, by simp, hm⟩
  | cons f listing ih =>
    have hf := hmem f (List.mem_cons_self ..)
    obtain ⟨hwal, hpos, hle, -⟩ := h.files f hf
    have hrest : ∀ g ∈ listing, g ∈ dir := fun g hg => hmem g (List.mem_cons_of_mem _ hg)
    rw [List.foldl_cons, WalFileWriter.scanStep, if_pos hwal]
    by_cases hnewer : m < parseSeqFromFilename f.1
    · -- the file outbids all that were seen, and ends above them
      have hup := UInt64.lt_iff_toNat_lt.mp hnewer
      change m.toNat < fileNumber f at hup
      obtain ⟨hmono, hall, hfound⟩ := ih hrest (Or.inr ⟨f, hf, rfl⟩)
      rw [if_pos hnewer]
      have hmono' := UInt64.le_iff_toNat_le.mp hmono
      change lastSeq f ≤ _ at hmono'
      refine ⟨?_, ?_, hfound⟩
      · rw [UInt64.le_iff_toNat_le]
        omega
      · intro g hg
        rcases List.mem_cons.mp hg with rfl | hg
        · exact hmono'
        · exact hall g hg
    · -- it is the one that was last taken over, or below that one
      have hold : fileNumber f ≤ m.toNat := by
        rw [UInt64.lt_iff_toNat_lt] at hnewer
        exact Nat.not_lt.mp hnewer
      have hbelow : lastSeq f ≤ m.toNat := by
        rcases hm with rfl | ⟨g, hg, rfl⟩
        · change fileNumber f ≤ 0 at hold
          omega
        · by_cases hfg : f = g
          · rw [hfg]
            exact Nat.le_refl _
          · have hglast : (getLastSeqInFile g.2).toNat = lastSeq g := rfl
            have hgle := (h.files g hg).number_le
            rcases h.apart_of_ne hf hg hfg with hlt | hlt <;> omega
      obtain ⟨hmono, hall, hfound⟩ := ih hrest hm
      rw [if_neg hnewer]
      refine ⟨hmono, ?_, hfound⟩
      intro g hg
      rcases List.mem_cons.mp hg with rfl | hg
      · exact hbelow.trans (UInt64.le_iff_toNat_le.mp hmono)
      · exact hall g hg

theorem FilledDir.scanMaxSeq {dir listing : Directory} (h : FilledDir dir)
    (hperm : listing.Perm dir) :
    (∀ f ∈ dir, lastSeq f ≤ (WalFileWriter.scanMaxSeq listing).toNat) ∧
      (WalFileWriter.scanMaxSeq listing + 1).toNat =
        (WalFileWriter.scanMaxSeq listing).toNat + 1 := by
  obtain ⟨-, hall, hfound⟩ :=
    h.foldl_scanStep (fun f hf => hperm.mem_iff.mp hf) (Or.inl (rfl : (0 : UInt64) = 0))
  refine ⟨fun f hf => hall f (hperm.mem_iff.mpr hf), ?_⟩
  have hroom : (WalFileWriter.scanMaxSeq listing).toNat + 1 < 2 ^ 64 := by
    rcases hfound with hzero | ⟨g, hg, hlast⟩
    · rw [WalFileWriter.scanMaxSeq, hzero]
      decide
    · rw [WalFileWriter.scanMaxSeq, ← hlast]
      exact (h.files g hg).room
  rw [UInt64.toNat_add]
  exact Nat.mod_eq_of_lt hroom

/-- Names that decode tell the files of a directory apart from the next one. -/
theorem FilledFile.name_ne {filePrefix : List Char}
    (hdecode : ∀ seq, parseSeqFromFilename (walFileName filePrefix seq) = seq)
    {f : FileName × Bytes} (h : FilledFile f) {n : UInt64} (hbelow : lastSeq f < n.toNat) :
    f.1 ≠ walFileName filePrefix n := by
  intro hname
  have hle := h.number_le
  rw [fileNumber, hname, hdecode] at hle
  omega

/-- A clean session on file number `n`. -/
structure LogDir.FilledSession (s : LogDir) (filePrefix : List Char) (w : WalFileWriter)
    (closed : Directory) (n : UInt64) (es : List Entry) : Prop where
  writer : s.writer = some w
  dir : s.dir = closed ++ [(w.currentFile, [])]
  logs : w.Logs filePrefix n es
  clean : FilledDir closed
  pos : 0 < n.toNat
  below : ∀ f ∈ closed, lastSeq f < n.toNat
  fits : n.toNat + es.length < 2 ^ 64

/-- The invariant of clean runs. -/
def LogDir.Filled (filePrefix : List Char) (s : LogDir) : Prop :=
  match s.writer with
  | none => FilledDir s.dir
  | some w => ∃ closed n es, s.FilledSession filePrefix w closed n es

/-- A run is clean when nothing crashes, every session that is closed has appended
something, and the counter stays below its last numbers. -/
def FilledOk (s : LogDir) : Action → Prop
  | .append _ _ _ => ∀ w, s.writer = some w → w.currentSeq.toNat + 2 < 2 ^ 64
  | .close _ => ∀ w, s.writer = some w → w.entryCount ≠ 0
  | .crash _ => False
  | _ => True

section Filled

variable {filePrefix : List Char}
  (hdecode : ∀ seq, parseSeqFromFilename (walFileName filePrefix seq) = seq)

include hdecode

/-- **`Init` takes a new name** in a directory of clean sessions. -/
theorem FilledDir.init_name_ne {dir listing : Directory} (h : FilledDir dir)
    (hperm : listing.Perm dir) (now : UInt64) {f : FileName × Bytes} (hf : f ∈ dir) :
    f.1 ≠ (WalFileWriter.init filePrefix listing now).currentFile := by
  obtain ⟨hall, hnext⟩ := h.scanMaxSeq hperm
  have hlast := hall f hf
  exact (h.files f hf).name_ne hdecode (by omega)

/-- What `Close` leaves of a clean session. -/
theorem LogDir.FilledSession.filledFile {s : LogDir} {w : WalFileWriter} {closed : Directory}
    {n : UInt64} {es : List Entry} (h : s.FilledSession filePrefix w closed n es) {out : OStream}
    (hout : w.file = some out) (hcount : w.entryCount ≠ 0) (now : UInt64) :
    FilledFile (w.currentFile, w.closedContent out now) ∧
      fileNumber (w.currentFile, w.closedContent out now) = n.toNat := by
  obtain ⟨hfile, -, hentries⟩ := h.logs.walFile_closed h.pos h.fits hout now
  have hnumber : fileNumber (w.currentFile, w.closedContent out now) = n.toNat := by
    rw [fileNumber, h.logs.named, hdecode]
  have hlen : es.length ≠ 0 := by
    intro hzero
    apply hcount
    rw [h.logs.count, hzero]
    rfl
  have hne : fileEntries (w.closedContent out now) ≠ [] := by
    rw [hentries]
    exact List.ne_nil_of_length_pos (by omega)
  have hlast := hfile.getLastSeqInFile_toNat hne
  dsimp only at hlast
  rw [hentries] at hlast
  have hfits := h.fits
  refine ⟨?_, hnumber⟩
  constructor
  case wal =>
    rw [h.logs.named]
    exact isWalFile_walFileName ..
  case pos =>
    rw [hnumber]
    exact h.pos
  case number_le =>
    rw [hnumber]
    show n.toNat ≤ (getLastSeqInFile (w.closedContent out now)).toNat
    omega
  case room =>
    show (getLastSeqInFile (w.closedContent out now)).toNat + 1 < 2 ^ 64
    omega

/-- **One clean step** keeps the invariant. -/
theorem LogDir.Filled.step {s s' : LogDir} {a : Action} (h : s.Filled filePrefix)
    (hok : FilledOk s a) (hstep : LogDir.step filePrefix s a = some s') : s'.Filled filePrefix := by
  have hsession : ∀ {w}, s.writer = some w → ∃ closed n es,
      s.FilledSession filePrefix w closed n es := by
    intro w hw
    rwa [LogDir.Filled, hw] at h
  have hcall : ∀ {w}, s.writer = some w → a.isCall = true →
      (s.appended a = [] ∨ w.currentSeq.toNat + 2 < 2 ^ 64) → s'.Filled filePrefix := by
    intro w hw ha hroom
    obtain ⟨closed, n, es, hs⟩ := hsession hw
    obtain ⟨w', rfl, hlogs⟩ := LogDir.step_call hs.writer hs.logs ha hstep
    refine ⟨closed, n, es ++ s.appended a, rfl, ?_, hlogs, hs.clean, hs.pos, hs.below, ?_⟩
    · rw [hs.dir, hs.logs.named, hlogs.named]
    · exact hs.logs.fits_appended hs.pos hs.fits hroom
  cases a with
  | init listing now =>
    obtain ⟨hnone, hperm, rfl⟩ := LogDir.step_init hstep
    have hdir : FilledDir s.dir := by rwa [LogDir.Filled, hnone] at h
    obtain ⟨hall, hnext⟩ := hdir.scanMaxSeq hperm
    refine ⟨s.dir, WalFileWriter.scanMaxSeq listing + 1, [], rfl, ?_,
      WalFileWriter.logs_init _ _ _, hdir, by omega, ?_, ?_⟩
    · -- no file makes way for the new one
      rw [putFile, List.filter_eq_self.mpr]
      intro f hf
      simpa using hdir.init_name_ne hdecode hperm now hf
    · intro f hf
      have := hall f hf
      omega
    · exact (WalFileWriter.scanMaxSeq listing + 1).toNat_lt
  | append type data now =>
    obtain ⟨w, -, -, hw, -⟩ := LogDir.step_append hstep
    exact hcall hw rfl (Or.inr (hok w hw))
  | sync =>
    obtain ⟨w, hw, -⟩ := LogDir.step_sync hstep
    exact hcall hw rfl (Or.inl rfl)
  | close now =>
    obtain ⟨w, out, hw, hout, rfl⟩ := LogDir.step_close hstep
    obtain ⟨closed, n, es, hs⟩ := hsession hw
    obtain ⟨hclean, hnumber⟩ := hs.filledFile hdecode hout (hok w hw) now
    have hput : putFile s.dir w.currentFile (w.closedContent out now) =
        closed ++ [(w.currentFile, w.closedContent out now)] := by
      rw [hs.dir]
      refine putFile_last (fun f hf => ?_) _ _
      rw [hs.logs.named]
      exact (hs.clean.files f hf).name_ne hdecode (hs.below f hf)
    show FilledDir (putFile s.dir w.currentFile (w.closedContent out now))
    rw [hput]
    exact hs.clean.snoc hclean (by rw [hnumber]; exact hs.below)
  | crash kept => exact hok.elim

end Filled

/-- **File names.** For every prefix the constructor accepts: names decode to their number
iff the prefix has no underscore; and then, in every clean run, `Init` opens a file under
a name that none of the existing ones has. -/
theorem names_decode_iff {filePrefix : List Char} (hlen : filePrefix.length < 2 ^ 63) :
    ((∀ seq, parseSeqFromFilename (walFileName filePrefix seq) = seq) ↔ '_' ∉ filePrefix) ∧
      ('_' ∉ filePrefix → ∀ acts s,
        Schedule.StepsMeet (LogDir.step filePrefix) FilledOk LogDir.empty acts →
        Schedule.run (LogDir.step filePrefix) LogDir.empty acts = some s → s.writer = none →
        ∀ listing now, listing.Perm s.dir →
          ∀ f ∈ s.dir, f.1 ≠ (WalFileWriter.init filePrefix listing now).currentFile) := by
  refine ⟨names_decode_iff_not_mem hlen, ?_⟩
  intro hmem acts s hok hrun hclosed listing now hperm f hf
  have hdecode := parseSeqFromFilename_walFileName hmem fun _ => hlen
  have hclean : s.Filled filePrefix :=
    Schedule.run_invariant_of_meets (LogDir.step filePrefix) (LogDir.Filled filePrefix)
      (fun _ _ _ h hok hstep => h.step hdecode hok hstep)
      (show LogDir.empty.Filled filePrefix from filledDir_nil) hok hrun
  rw [LogDir.Filled, hclosed] at hclean
  exact hclean.init_name_ne hdecode hperm now hf

/-- The one session that leaves `closedOne` is clean, under any prefix. -/
theorem stepsMeet_closedOneSession (filePrefix : List Char) :
    Schedule.StepsMeet (LogDir.step filePrefix) FilledOk LogDir.empty closedOneSession := by
  refine ⟨trivial, fun t ht => ?_⟩
  obtain rfl := Option.some.inj ht
  refine ⟨?_, ?_⟩
  · intro w hw
    obtain rfl := Option.some.inj hw
    show (0 : UInt64).toNat + 2 < 2 ^ 64
    decide
  · intro t ht
    obtain rfl := Option.some.inj ht
    refine ⟨fun w hw => ?_, fun _ _ => trivial⟩
    obtain rfl := Option.some.inj hw
    show (0 + 1 : UInt64) ≠ 0
    decide

/-- The restart after that session, with the default prefix. -/
theorem names_decode_iff_closedOne :
    ((∀ seq, parseSeqFromFilename (walFileName defaultPrefix seq) = seq) ↔
        '_' ∉ defaultPrefix) ∧
      ∀ f ∈ [closedOne],
        f.1 ≠ (WalFileWriter.init defaultPrefix [closedOne] 0).currentFile :=
  ⟨(names_decode_iff (by decide)).1,
    (names_decode_iff (by decide)).2 (by decide) closedOneSession ⟨[closedOne], none⟩
      (stepsMeet_closedOneSession _) rfl rfl [closedOne] 0 (List.Perm.refl _)⟩

/-- A prefix with an underscore. -/
def underscorePrefix : List Char := "my_wal".toList

/-- Under it every number reads as 0, and after one clean session the restart takes the
file of that session. -/
theorem not_names_decode :
    parseSeqFromFilename (walFileName underscorePrefix 5) = 0 ∧
      ∃ f, Schedule.run (LogDir.step underscorePrefix) LogDir.empty closedOneSession =
          some ⟨[f], none⟩ ∧
        fileEntries f.2 ≠ [] ∧
        f.1 = (WalFileWriter.init underscorePrefix [f] 0).currentFile :=
  ⟨by decide +kernel, (walFileName underscorePrefix 1, closedOne.2), by decide +kernel,
    by decide +kernel, by decide +kernel⟩

end Zrtools.Wal

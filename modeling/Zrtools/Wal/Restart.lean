import Zrtools.Wal.Sessions
import Mathlib.Data.List.Pairwise

/-!
# zrtools — restarting a WAL writer

`Init` scans the directory for the highest number in use. For every file whose
name is above the maximum so far it takes over what `GetLastSeqInFile` finds in
the file, also when that is less: a file whose header a crash cut short reads as
a small start, and puts the maximum back.

* `Ordered` — the invariant of a directory: numbers and entries of its files lie
  one after the other, and a file with a torn header is at most one ahead;
* `scanMaxSeq_spec` — when the newest whole file wins the scan, the scan is right;
* `restartSafe_of_meets` — restarts are safe in every run whose `Init` calls list
  torn files before the newest whole one.
-/

namespace Zrtools.Wal

-- ---------------------------------------------------------------------------
-- Numbers of a file
-- ---------------------------------------------------------------------------

/-- The number in a file's name. -/
def fileNumber (f : FileName × Bytes) : Nat := (parseSeqFromFilename f.1).toNat

/-- What the scan of `Init` takes from a file. -/
def lastSeq (f : FileName × Bytes) : Nat := (getLastSeqInFile f.2).toNat

/-- The header of the file still says what its name says. -/
def Intact (f : FileName × Bytes) : Prop := storedStart f = parseSeqFromFilename f.1

theorem parseSeqFromFilename_default (seq : UInt64) :
    parseSeqFromFilename (walFileName defaultPrefix seq) = seq :=
  parseSeqFromFilename_walFileName (by decide) (by decide) seq

theorem WalFile.number_eq {n : UInt64} {f : FileName × Bytes} (h : WalFile defaultPrefix n f) :
    parseSeqFromFilename f.1 = n := by
  rw [h.named, parseSeqFromFilename_default]

theorem WalFile.fileNumber_eq {n : UInt64} {f : FileName × Bytes}
    (h : WalFile defaultPrefix n f) : fileNumber f = n.toNat := by
  rw [fileNumber, h.number_eq]

theorem WalFile.isWalFile_eq {n : UInt64} {f : FileName × Bytes} (h : WalFile defaultPrefix n f) :
    isWalFile f = true := by
  obtain ⟨name, content⟩ := f
  obtain rfl : name = walFileName defaultPrefix n := h.named
  exact isWalFile_walFileName _ _ _

theorem WalFile.lastSeq_of_nil {n : UInt64} {f : FileName × Bytes} (h : WalFile defaultPrefix n f)
    (hnil : fileEntries f.2 = []) : lastSeq f = (storedStart f).toNat := by
  rw [lastSeq, getLastSeqInFile_eq, if_pos h.known, hnil]
  rfl

/-- A file with readable entries ends at the last of their numbers. -/
theorem WalFile.getLastSeqInFile_toNat {filePrefix : List Char} {n : UInt64}
    {f : FileName × Bytes} (h : WalFile filePrefix n f) (hne : fileEntries f.2 ≠ []) :
    (getLastSeqInFile f.2).toNat + 1 = n.toNat + (fileEntries f.2).length := by
  have hlen : 0 < (fileEntries f.2).length := List.length_pos_of_ne_nil hne
  have hlast : (fileEntries f.2)[(fileEntries f.2).length - 1]? =
      some ((fileEntries f.2).getLast hne) := by
    rw [← List.getLast?_eq_getElem?, List.getLast?_eq_some_getLast hne]
  have hseq := h.seqs.toNat_eq h.fits hlast
  rw [getLastSeqInFile_eq, if_pos h.known, List.getLast?_eq_some_getLast hne]
  show ((fileEntries f.2).getLast hne).1.seq.toNat + 1 = _
  rw [hseq]
  omega

theorem WalFile.lastSeq_of_ne_nil {n : UInt64} {f : FileName × Bytes}
    (h : WalFile defaultPrefix n f) (hne : fileEntries f.2 ≠ []) :
    lastSeq f + 1 = fileNumber f + (fileEntries f.2).length := by
  rw [h.fileNumber_eq]
  exact h.getLastSeqInFile_toNat hne

/-- An intact file reads as at least its own number. -/
theorem WalFile.number_le_lastSeq {n : UInt64} {f : FileName × Bytes}
    (h : WalFile defaultPrefix n f) (hintact : Intact f) : fileNumber f ≤ lastSeq f := by
  by_cases hnil : fileEntries f.2 = []
  · rw [h.lastSeq_of_nil hnil, hintact, fileNumber]
  · have := h.lastSeq_of_ne_nil hnil
    have hlen : 0 < (fileEntries f.2).length := List.length_pos_of_ne_nil hnil
    omega

/-- A torn header hides all entries and reads as a smaller start. -/
theorem WalFile.of_torn {n : UInt64} {f : FileName × Bytes} (h : WalFile defaultPrefix n f)
    (htorn : ¬ Intact f) :
    fileEntries f.2 = [] ∧ lastSeq f = (storedStart f).toNat ∧ lastSeq f < fileNumber f := by
  have hstart : storedStart f ≠ n := by
    intro heq
    apply htorn
    rw [Intact, heq, h.number_eq]
  have hnil : fileEntries f.2 = [] := by
    by_contra hne
    exact hstart (h.whole hne)
  have hlast := h.lastSeq_of_nil hnil
  refine ⟨hnil, hlast, ?_⟩
  have hle := h.start_le
  have hne : (storedStart f).toNat ≠ n.toNat := fun heq => hstart (UInt64.toNat_inj.mp heq)
  rw [hlast, h.fileNumber_eq]
  omega

theorem WalFile.seq_le_lastSeq {n : UInt64} {f : FileName × Bytes} (h : WalFile defaultPrefix n f)
    {e : Entry} (he : e ∈ fileEntries f.2) :
    fileNumber f ≤ e.1.seq.toNat ∧ e.1.seq.toNat ≤ lastSeq f := by
  obtain ⟨i, hi⟩ := List.mem_iff_getElem?.mp he
  obtain ⟨hlt, -⟩ := List.getElem?_eq_some_iff.mp hi
  have hseq := h.seqs.toNat_eq h.fits hi
  have hlast := h.lastSeq_of_ne_nil (List.ne_nil_of_mem he)
  rw [h.fileNumber_eq] at hlast ⊢
  omega

-- ---------------------------------------------------------------------------
-- The invariant of a directory
-- ---------------------------------------------------------------------------

/-- The files of a directory, oldest first: each is past everything in the ones
before it, and a torn one is no further ahead than the next `Init` will be. -/
structure Ordered (dir : Directory) : Prop where
  files : ∀ f ∈ dir, ∃ n, WalFile defaultPrefix n f
  apart : dir.Pairwise fun f g => fileNumber f < fileNumber g ∧ lastSeq f < fileNumber g
  torn : ∀ t ∈ dir, ¬ Intact t →
    fileNumber t = 1 ∨ ∃ g ∈ dir, Intact g ∧ fileNumber t ≤ lastSeq g + 1

/-- What holds of the finished files while a session writes number `n`. -/
structure Ready (closed : Directory) (n : Nat) : Prop where
  ordered : Ordered closed
  pos : 0 < n
  below : ∀ f ∈ closed, fileNumber f < n ∧ lastSeq f < n
  next : n = 1 ∨ ∃ g ∈ closed, Intact g ∧ n ≤ lastSeq g + 1

theorem ordered_nil : Ordered [] where
  files := by simp
  apart := List.Pairwise.nil
  torn := by simp

/-- Of two files one is wholly below the number of the other. -/
theorem Ordered.apart_of_ne {dir : Directory} (h : Ordered dir) {f g : FileName × Bytes}
    (hf : f ∈ dir) (hg : g ∈ dir) (hne : f ≠ g) :
    (fileNumber f < fileNumber g ∧ lastSeq f < fileNumber g) ∨
      (fileNumber g < fileNumber f ∧ lastSeq g < fileNumber f) := by
  have hsymm : Std.Symm fun a b : FileName × Bytes =>
      (fileNumber a < fileNumber b ∧ lastSeq a < fileNumber b) ∨
        (fileNumber b < fileNumber a ∧ lastSeq b < fileNumber a) := ⟨fun _ _ => Or.symm⟩
  have hboth : dir.Pairwise fun a b => (fileNumber a < fileNumber b ∧ lastSeq a < fileNumber b) ∨
      (fileNumber b < fileNumber a ∧ lastSeq b < fileNumber a) := h.apart.imp Or.inl
  exact hboth.forall hf hg hne

theorem Ordered.nodup {dir : Directory} (h : Ordered dir) : dir.Nodup := by
  refine h.apart.imp fun {a b} hab => ?_
  rintro rfl
  exact Nat.lt_irrefl _ hab.1

/-- When the session is over, its file joins the others. -/
theorem Ready.ordered_append {closed : Directory} {n : UInt64} (h : Ready closed n.toNat)
    {f : FileName × Bytes} (hf : WalFile defaultPrefix n f) : Ordered (closed ++ [f]) where
  files := by
    intro g hg
    rcases List.mem_append.mp hg with hg | hg
    · exact h.ordered.files g hg
    · obtain rfl := List.mem_singleton.mp hg
      exact ⟨n, hf⟩
  apart := by
    rw [List.pairwise_append]
    refine ⟨h.ordered.apart, List.pairwise_singleton _ _, ?_⟩
    intro g hg f' hf'
    obtain rfl := List.mem_singleton.mp hf'
    rw [hf.fileNumber_eq]
    exact h.below g hg
  torn := by
    intro t ht htorn
    have hlift : (∃ g ∈ closed, Intact g ∧ fileNumber t ≤ lastSeq g + 1) →
        ∃ g ∈ closed ++ [f], Intact g ∧ fileNumber t ≤ lastSeq g + 1 := by
      rintro ⟨g, hg, hrest⟩
      exact ⟨g, List.mem_append_left _ hg, hrest⟩
    rcases List.mem_append.mp ht with ht | ht
    · exact (h.ordered.torn t ht htorn).imp_right hlift
    · obtain rfl := List.mem_singleton.mp ht
      rw [hf.fileNumber_eq] at hlift ⊢
      exact h.next.imp_right hlift

-- ---------------------------------------------------------------------------
-- The scan
-- ---------------------------------------------------------------------------

theorem foldl_scanStep_keep {l : Directory} {m : UInt64} (h : ∀ f ∈ l, fileNumber f ≤ m.toNat) :
    l.foldl WalFileWriter.scanStep m = m := by
  induction l with
  | nil => rfl
  | cons f l ih =>
    have hf : ¬ m < parseSeqFromFilename f.1 := by
      rw [UInt64.lt_iff_toNat_lt]
      exact Nat.not_lt.mpr (h f (List.mem_cons_self ..))
    have hstep : WalFileWriter.scanStep m f = m := by
      rw [WalFileWriter.scanStep, if_neg hf, ite_self]
    rw [List.foldl_cons, hstep]
    exact ih fun g hg => h g (List.mem_cons_of_mem _ hg)

theorem foldl_scanStep_lt {l : Directory} {m : UInt64} {b : Nat} (hm : m.toNat < b)
    (h : ∀ f ∈ l, lastSeq f < b) : (l.foldl WalFileWriter.scanStep m).toNat < b := by
  induction l generalizing m with
  | nil => exact hm
  | cons f l ih =>
    rw [List.foldl_cons]
    apply ih
    · unfold WalFileWriter.scanStep
      split
      · split
        · exact h f (List.mem_cons_self ..)
        · exact hm
      · exact hm
    · exact fun g hg => h g (List.mem_cons_of_mem _ hg)

/-- The scan ends at a file that outbids everything before it and is not outbid. -/
theorem scanMaxSeq_winner {pre post : Directory} {g : FileName × Bytes}
    (hwal : isWalFile g = true) (hpos : 0 < fileNumber g)
    (hpre : ∀ f ∈ pre, lastSeq f < fileNumber g) (hpost : ∀ f ∈ post, fileNumber f ≤ lastSeq g) :
    WalFileWriter.scanMaxSeq (pre ++ g :: post) = getLastSeqInFile g.2 := by
  have hbefore : (pre.foldl WalFileWriter.scanStep 0).toNat < fileNumber g :=
    foldl_scanStep_lt hpos hpre
  have hwin : WalFileWriter.scanStep (pre.foldl WalFileWriter.scanStep 0) g =
      getLastSeqInFile g.2 := by
    rw [WalFileWriter.scanStep, if_pos hwal, if_pos (UInt64.lt_iff_toNat_lt.mpr hbefore)]
  rw [WalFileWriter.scanMaxSeq, List.foldl_append, List.foldl_cons, hwin]
  exact foldl_scanStep_keep hpost

/-- The condition on a listing: no file is intact, or the newest intact file comes
after every torn one and its number is above the starts left in those. -/
def NewestWins (listing : Directory) : Prop :=
  (∀ f ∈ listing, ¬ Intact f) ∨
    ∃ pre g post, listing = pre ++ g :: post ∧ Intact g ∧
      (∀ f ∈ listing, Intact f → fileNumber f ≤ fileNumber g) ∧
      (∀ f ∈ pre, ¬ Intact f → (storedStart f).toNat < fileNumber g) ∧ ∀ f ∈ post, Intact f

instance (f : FileName × Bytes) : Decidable (Intact f) :=
  inferInstanceAs (Decidable (storedStart f = parseSeqFromFilename f.1))

/-- The file at place `i` wins the scan. -/
def WinsAt (listing : Directory) (i : Fin listing.length) : Prop :=
  Intact (listing.get i) ∧
    (∀ f ∈ listing, Intact f → fileNumber f ≤ fileNumber (listing.get i)) ∧
    (∀ f ∈ listing.take i, ¬Intact f → (storedStart f).toNat < fileNumber (listing.get i)) ∧
    ∀ f ∈ listing.drop (i + 1), Intact f

instance (listing : Directory) (i : Fin listing.length) : Decidable (WinsAt listing i) := by
  unfold WinsAt
  infer_instance

instance (listing : Directory) : Decidable (NewestWins listing) :=
  decidable_of_iff ((∀ f ∈ listing, ¬Intact f) ∨ ∃ i, WinsAt listing i) (by
    refine or_congr_right ⟨?_, ?_⟩
    · rintro ⟨i, h⟩
      refine ⟨listing.take i, listing.get i, listing.drop (i + 1), ?_, h⟩
      rw [List.get_eq_getElem, ← List.drop_eq_getElem_cons i.isLt, List.take_append_drop]
    · rintro ⟨pre, g, post, rfl, h⟩
      exact ⟨⟨pre.length, by simp⟩, by simpa [WinsAt] using h⟩)

section Scan

variable {dir listing : Directory} (h : Ordered dir) (hperm : listing.Perm dir)
include h hperm

/-- Where all files are torn, they are all number 1, and the scan ends at zero. -/
theorem scanMaxSeq_torn (hnone : ∀ f ∈ listing, ¬Intact f) :
    (WalFileWriter.scanMaxSeq listing).toNat = 0 := by
  have hone : (WalFileWriter.scanMaxSeq listing).toNat < 1 := by
    apply foldl_scanStep_lt (by decide)
    intro f hf
    have hmem := hperm.mem_iff.mp hf
    obtain ⟨n, hfile⟩ := h.files f hmem
    obtain ⟨-, -, hlt⟩ := hfile.of_torn (hnone f hf)
    rcases h.torn f hmem (hnone f hf) with hone | ⟨g, hg, hgint, -⟩
    · omega
    · exact absurd hgint (hnone g (hperm.mem_iff.mpr hg))
  omega

/-- An intact file that is not the newest ends below its number. -/
theorem lastSeq_lt_newest {g : FileName × Bytes} (hg : g ∈ dir)
    (hnewest : ∀ f ∈ listing, Intact f → fileNumber f ≤ fileNumber g)
    {f : FileName × Bytes} (hf : f ∈ listing) (hint : Intact f) (hne : f ≠ g) :
    lastSeq f < fileNumber g := by
  rcases h.apart_of_ne (hperm.mem_iff.mp hf) hg hne with ⟨-, hlt⟩ | ⟨hlt, -⟩
  · exact hlt
  · exact absurd (hnewest f hf hint) (Nat.not_le.mpr hlt)

/-- The newest intact file outbids the files before it, and the intact ones after it do not outbid
it. -/
theorem scanMaxSeq_newest {pre post : Directory} {g : FileName × Bytes}
    (hlist : listing = pre ++ g :: post) (hintact : Intact g)
    (hnewest : ∀ f ∈ listing, Intact f → fileNumber f ≤ fileNumber g)
    (hpre : ∀ f ∈ pre, ¬Intact f → (storedStart f).toNat < fileNumber g)
    (hpost : ∀ f ∈ post, Intact f) :
    WalFileWriter.scanMaxSeq listing = getLastSeqInFile g.2 := by
  have hgdir : g ∈ dir := hperm.mem_iff.mp (by simp [hlist])
  obtain ⟨n, hgfile⟩ := h.files g hgdir
  have hle := hgfile.number_le_lastSeq hintact
  have hnodup : listing.Nodup := hperm.nodup_iff.mpr h.nodup
  rw [hlist, List.nodup_middle, List.nodup_cons] at hnodup
  rw [hlist]
  apply scanMaxSeq_winner hgfile.isWalFile_eq
  · rw [hgfile.fileNumber_eq]
    exact hgfile.pos
  · intro f hf
    have hflist : f ∈ listing := by simp [hlist, hf]
    by_cases hint : Intact f
    · apply lastSeq_lt_newest h hperm hgdir hnewest hflist hint
      rintro rfl
      exact hnodup.1 (List.mem_append_left _ hf)
    · obtain ⟨m, hfile⟩ := h.files f (hperm.mem_iff.mp hflist)
      obtain ⟨-, hlast, -⟩ := hfile.of_torn hint
      rw [hlast]
      exact hpre f hf hint
  · intro f hf
    exact (hnewest f (by simp [hlist, hf]) (hpost f hf)).trans hle

/-- **The scan of `Init`** on a listing that meets the condition. -/
theorem scanMaxSeq_spec (hwins : NewestWins listing) :
    (∀ f ∈ dir, Intact f → lastSeq f ≤ (WalFileWriter.scanMaxSeq listing).toNat) ∧
      ((WalFileWriter.scanMaxSeq listing).toNat = 0 ∨
        ∃ g ∈ dir, Intact g ∧ (WalFileWriter.scanMaxSeq listing).toNat = lastSeq g) := by
  rcases hwins with hnone | ⟨pre, g, post, hlist, hintact, hnewest, hpre, hpost⟩
  · refine ⟨fun f hf hint => ?_, Or.inl (scanMaxSeq_torn h hperm hnone)⟩
    exact absurd hint (hnone f (hperm.mem_iff.mpr hf))
  · have hgdir : g ∈ dir := hperm.mem_iff.mp (by simp [hlist])
    obtain ⟨n, hgfile⟩ := h.files g hgdir
    have hle := hgfile.number_le_lastSeq hintact
    rw [scanMaxSeq_newest h hperm hlist hintact hnewest hpre hpost]
    refine ⟨fun f hf hint => ?_, Or.inr ⟨g, hgdir, hintact, rfl⟩⟩
    by_cases hfg : f = g
    · rw [hfg]
      exact Nat.le_refl _
    · have hlt := lastSeq_lt_newest h hperm hgdir hnewest (hperm.mem_iff.mpr hf) hint hfg
      show lastSeq f ≤ lastSeq g
      omega

end Scan

-- ---------------------------------------------------------------------------
-- Init
-- ---------------------------------------------------------------------------

/-- No file starts at the last number there is. -/
def StartsInRange (listing : Directory) : Prop := ∀ f ∈ listing, (storedStart f).toNat + 1 < 2 ^ 64

theorem scanMaxSeq_lt {dir listing : Directory} (h : Ordered dir) (hperm : listing.Perm dir)
    (hrange : StartsInRange listing) :
    (WalFileWriter.scanMaxSeq listing).toNat + 1 < 2 ^ 64 := by
  have hlt : (WalFileWriter.scanMaxSeq listing).toNat < 2 ^ 64 - 1 := by
    apply foldl_scanStep_lt (by decide)
    intro f hf
    obtain ⟨n, hfile⟩ := h.files f (hperm.mem_iff.mp hf)
    by_cases hnil : fileEntries f.2 = []
    · rw [hfile.lastSeq_of_nil hnil]
      have := hrange f hf
      omega
    · have hlast := hfile.lastSeq_of_ne_nil hnil
      have hfits := hfile.fits
      rw [hfile.fileNumber_eq] at hlast
      omega
  omega

/-- **A restart is safe** for a directory and the writer `Init` starts on it: no
readable entry is above its number, and the file it opens held none. -/
def RestartSafe (dir : Directory) (w : WalFileWriter) : Prop :=
  (∀ f ∈ dir, ∀ e ∈ fileEntries f.2, e.1.seq ≤ w.currentSeq) ∧
    ∀ f ∈ dir, f.1 = w.currentFile → fileEntries f.2 = []

instance (dir : Directory) (w : WalFileWriter) : Decidable (RestartSafe dir w) :=
  inferInstanceAs (Decidable (_ ∧ _))

section Init

variable {dir listing : Directory} (h : Ordered dir) (hperm : listing.Perm dir)
  (hwins : NewestWins listing) (hrange : StartsInRange listing)

include h hperm hrange in
theorem nextNumber_toNat : (WalFileWriter.scanMaxSeq listing + 1).toNat =
    (WalFileWriter.scanMaxSeq listing).toNat + 1 := by
  have hlt := scanMaxSeq_lt h hperm hrange
  rw [UInt64.toNat_add]
  exact Nat.mod_eq_of_lt hlt

include h hperm hwins hrange

/-- The file `Init` opens is none of the intact ones. -/
theorem intact_lt_next {f : FileName × Bytes} (hf : f ∈ dir) (hintact : Intact f) :
    fileNumber f < (WalFileWriter.scanMaxSeq listing + 1).toNat ∧
      lastSeq f < (WalFileWriter.scanMaxSeq listing + 1).toNat := by
  obtain ⟨n, hfile⟩ := h.files f hf
  have hle := (scanMaxSeq_spec h hperm hwins).1 f hf hintact
  have hnum := hfile.number_le_lastSeq hintact
  rw [nextNumber_toNat h hperm hrange]
  omega

theorem restartSafe_init (now : UInt64) :
    RestartSafe dir (WalFileWriter.init defaultPrefix listing now) := by
  refine ⟨?_, ?_⟩
  · intro f hf e he
    obtain ⟨n, hfile⟩ := h.files f hf
    have hintact : Intact f := by
      by_contra htorn
      rw [(hfile.of_torn htorn).1] at he
      simp at he
    have hle := (scanMaxSeq_spec h hperm hwins).1 f hf hintact
    exact UInt64.le_iff_toNat_le.mpr ((hfile.seq_le_lastSeq he).2.trans hle)
  · intro f hf hname
    obtain ⟨n, hfile⟩ := h.files f hf
    by_contra hne
    have hintact : Intact f := by
      by_contra htorn
      exact hne (hfile.of_torn htorn).1
    have hlt := (intact_lt_next h hperm hwins hrange hf hintact).1
    have hnum : parseSeqFromFilename f.1 = WalFileWriter.scanMaxSeq listing + 1 := by
      rw [hname]
      exact parseSeqFromFilename_default _
    rw [fileNumber, hnum] at hlt
    exact Nat.lt_irrefl _ hlt

/-- What `Init` leaves of the directory is ready for a session under its number. -/
theorem ready_scanMaxSeq :
    Ready (dir.filter fun f =>
        f.1 ≠ walFileName defaultPrefix (WalFileWriter.scanMaxSeq listing + 1))
      (WalFileWriter.scanMaxSeq listing + 1).toNat := by
  set next := WalFileWriter.scanMaxSeq listing + 1 with hnext
  have hnextNat : next.toNat = (WalFileWriter.scanMaxSeq listing).toNat + 1 :=
    nextNumber_toNat h hperm hrange
  -- an intact file is not the one that was opened
  have hkept : ∀ g ∈ dir, Intact g →
      g ∈ dir.filter fun f => f.1 ≠ walFileName defaultPrefix next := by
    intro g hg hintact
    have hlt := (intact_lt_next h hperm hwins hrange hg hintact).1
    rw [List.mem_filter]
    refine ⟨hg, ?_⟩
    simp only [decide_eq_true_eq]
    intro hname
    rw [fileNumber, hname, parseSeqFromFilename_default] at hlt
    exact Nat.lt_irrefl _ hlt
  constructor
  case ordered =>
    constructor
    case files => exact fun f hf => h.files f (List.mem_of_mem_filter hf)
    case apart => exact h.apart.sublist List.filter_sublist
    case torn =>
      intro t ht htorn
      refine (h.torn t (List.mem_of_mem_filter ht) htorn).imp_right ?_
      rintro ⟨g, hg, hintact, hle⟩
      exact ⟨g, hkept g hg hintact, hintact, hle⟩
  case pos => omega
  case below =>
    intro f hf
    rw [List.mem_filter] at hf
    obtain ⟨hfdir, hname⟩ := hf
    by_cases hintact : Intact f
    · exact intact_lt_next h hperm hwins hrange hfdir hintact
    · -- a torn file is at most the next one, and that one was replaced
      obtain ⟨n, hfile⟩ := h.files f hfdir
      obtain ⟨-, -, hlast⟩ := hfile.of_torn hintact
      have hne : fileNumber f ≠ next.toNat := by
        intro heq
        rw [hfile.fileNumber_eq] at heq
        rw [hfile.named, UInt64.toNat_inj.mp heq] at hname
        simp at hname
      have hle : fileNumber f ≤ next.toNat := by
        rcases h.torn f hfdir hintact with hone | ⟨g, hg, hgint, hle⟩
        · omega
        · have hlast : lastSeq g < next.toNat := (intact_lt_next h hperm hwins hrange hg hgint).2
          omega
      omega
  case next =>
    rcases (scanMaxSeq_spec h hperm hwins).2 with hzero | ⟨g, hg, hintact, heq⟩
    · left
      omega
    · right
      refine ⟨g, hkept g hg hintact, hintact, ?_⟩
      omega

end Init

-- ---------------------------------------------------------------------------
-- Runs
-- ---------------------------------------------------------------------------

/-- Replacing the last file of a directory. -/
theorem putFile_last {closed : Directory} {name : FileName} (h : ∀ f ∈ closed, f.1 ≠ name)
    (old content : Bytes) :
    putFile (closed ++ [(name, old)]) name content = closed ++ [(name, content)] := by
  have hkeep : closed.filter (fun f => f.1 ≠ name) = closed := by
    rw [List.filter_eq_self]
    intro f hf
    simpa using h f hf
  rw [putFile, List.filter_append, hkeep]
  simp

/-- A session on file number `n` that has appended `es` to it. -/
structure LogDir.InSession (s : LogDir) (w : WalFileWriter) (closed : Directory) (n : UInt64)
    (es : List Entry) : Prop where
  writer : s.writer = some w
  dir : s.dir = closed ++ [(w.currentFile, [])]
  logs : w.Logs defaultPrefix n es
  ready : Ready closed n.toNat
  fits : n.toNat + es.length < 2 ^ 64

/-- The invariant of all runs: between sessions the directory is ordered, and in a
session the open file is the newest. -/
def LogDir.Safe (s : LogDir) : Prop :=
  match s.writer with
  | none => Ordered s.dir
  | some w => ∃ closed n es, s.InSession w closed n es

/-- The condition on each step: torn files do not win the scan, and no counter is
at its end. -/
def ActionOk (s : LogDir) : Action → Prop
  | .init listing _ => NewestWins listing ∧ StartsInRange listing
  | .append _ _ _ => ∀ w, s.writer = some w → w.currentSeq.toNat + 2 < 2 ^ 64
  | _ => True

instance decidableActionOk (s : LogDir) : (a : Action) → Decidable (ActionOk s a)
  | .init listing _ => inferInstanceAs (Decidable (NewestWins listing ∧
      ∀ f ∈ listing, (storedStart f).toNat + 1 < 2 ^ 64))
  | .append _ _ _ => inferInstanceAs (Decidable (∀ w ∈ s.writer, w.currentSeq.toNat + 2 < 2 ^ 64))
  | .sync => isTrue trivial
  | .close _ => isTrue trivial
  | .crash _ => isTrue trivial

theorem Ready.name_ne {closed : Directory} {n : UInt64} (h : Ready closed n.toNat)
    {f : FileName × Bytes} (hf : f ∈ closed) : f.1 ≠ walFileName defaultPrefix n := by
  intro hname
  have hlt := (h.below f hf).1
  rw [fileNumber, hname, parseSeqFromFilename_default] at hlt
  exact Nat.lt_irrefl _ hlt

/-- The counter of an open session as a number. -/
theorem WalFileWriter.Logs.currentSeq_toNat {w : WalFileWriter} {filePrefix : List Char}
    {n : UInt64} {es : List Entry} (h : w.Logs filePrefix n es) (hpos : 0 < n.toNat)
    (hfits : n.toNat + es.length < 2 ^ 64) : w.currentSeq.toNat + 1 = n.toNat + es.length := by
  have hnext : (w.currentSeq + 1).toNat = n.toNat + es.length := by
    rw [h.current, UInt64.toNat_add, UInt64.toNat_ofNat']
    omega
  rw [UInt64.toNat_add] at hnext
  have hlt := w.currentSeq.toNat_lt
  change (w.currentSeq.toNat + 1) % 2 ^ 64 = _ at hnext
  omega

/-- While a number is left, the next one fits as well. -/
theorem WalFileWriter.Logs.fits_appended {w : WalFileWriter} {filePrefix : List Char}
    {n : UInt64} {es : List Entry} (h : w.Logs filePrefix n es) (hpos : 0 < n.toNat)
    (hfits : n.toNat + es.length < 2 ^ 64) {s : LogDir} {a : Action}
    (hroom : s.appended a = [] ∨ w.currentSeq.toNat + 2 < 2 ^ 64) :
    n.toNat + (es ++ s.appended a).length < 2 ^ 64 := by
  have hcur := h.currentSeq_toNat hpos hfits
  have hone := s.length_appended_le a
  rw [List.length_append]
  rcases hroom with hnil | hlt
  · rw [hnil]
    exact hfits
  · omega

/-- `Init` opens a session on the next number. -/
theorem LogDir.inSession_init {s s' : LogDir} {listing : Directory} {now : UInt64}
    (h : Ordered s.dir) (hwins : NewestWins listing) (hrange : StartsInRange listing)
    (hstep : LogDir.step defaultPrefix s (.init listing now) = some s') :
    s'.InSession (WalFileWriter.init defaultPrefix listing now)
      (s.dir.filter fun f => f.1 ≠ walFileName defaultPrefix (WalFileWriter.scanMaxSeq listing + 1))
      (WalFileWriter.scanMaxSeq listing + 1) [] := by
  obtain ⟨-, hperm, rfl⟩ := LogDir.step_init hstep
  constructor
  case writer => rfl
  case dir => rfl
  case logs => exact WalFileWriter.logs_init _ _ _
  case ready => exact ready_scanMaxSeq h hperm hwins hrange
  case fits => exact (WalFileWriter.scanMaxSeq listing + 1).toNat_lt

/-- A call in a session, while a number is left for an append. -/
theorem LogDir.InSession.call {s s' : LogDir} {w : WalFileWriter} {closed : Directory}
    {n : UInt64} {es : List Entry} (h : s.InSession w closed n es) {a : Action}
    (ha : a.isCall = true) (hroom : s.appended a = [] ∨ w.currentSeq.toNat + 2 < 2 ^ 64)
    (hstep : LogDir.step defaultPrefix s a = some s') :
    ∃ w', s'.InSession w' closed n (es ++ s.appended a) := by
  obtain ⟨w', rfl, hlogs⟩ := LogDir.step_call h.writer h.logs ha hstep
  refine ⟨w', ?_⟩
  constructor
  case writer => rfl
  case dir => rw [h.dir, h.logs.named, hlogs.named]
  case logs => exact hlogs
  case ready => exact h.ready
  case fits => exact h.logs.fits_appended h.ready.pos h.fits hroom

/-- The end of a session, one way or the other: its file joins the others, and after
`Close` the file is whole. -/
theorem LogDir.InSession.finish {s s' : LogDir} {w : WalFileWriter} {closed : Directory}
    {n : UInt64} {es : List Entry} (h : s.InSession w closed n es) {a : Action}
    (ha : (∃ now, a = .close now) ∨ ∃ kept, a = .crash kept)
    (hstep : LogDir.step defaultPrefix s a = some s') :
    ∃ f, s' = { dir := closed ++ [f], writer := none } ∧ WalFile defaultPrefix n f ∧
      ((∃ now, a = .close now) → storedStart f = n ∧ fileEntries f.2 = es) := by
  obtain ⟨hw, hdir, hlogs, hready, hfits⟩ := h
  have hput := putFile_last (fun f hf => hlogs.named ▸ hready.name_ne hf) []
  rcases ha with ⟨now, rfl⟩ | ⟨kept, rfl⟩
  · obtain ⟨w', out, hw', hout, rfl⟩ := LogDir.step_close hstep
    obtain rfl : w' = w := Option.some.inj (hw'.symm.trans hw)
    obtain ⟨hfile, hstart, hentries⟩ := hlogs.walFile_closed hready.pos hfits hout now
    rw [hdir, hput]
    exact ⟨_, rfl, hfile, fun _ => ⟨hstart, hentries⟩⟩
  · obtain ⟨w', out, hw', hout, -, rfl⟩ := LogDir.step_crash hstep
    obtain rfl : w' = w := Option.some.inj (hw'.symm.trans hw)
    rw [hdir, hput]
    refine ⟨_, rfl, hlogs.walFile_take hready.pos hfits hout kept, ?_⟩
    rintro ⟨now, hne⟩
    simp at hne

theorem LogDir.Safe.inSession {s : LogDir} (h : s.Safe) {w : WalFileWriter}
    (hw : s.writer = some w) : ∃ closed n es, s.InSession w closed n es := by
  rwa [LogDir.Safe, hw] at h

theorem LogDir.InSession.safe {s : LogDir} {w : WalFileWriter} {closed : Directory} {n : UInt64}
    {es : List Entry} (h : s.InSession w closed n es) : s.Safe := by
  rw [LogDir.Safe, h.writer]
  exact ⟨closed, n, es, h⟩

/-- **One step** under the condition keeps the invariant. -/
theorem LogDir.Safe.step {s s' : LogDir} {a : Action} (h : s.Safe) (hok : ActionOk s a)
    (hstep : LogDir.step defaultPrefix s a = some s') : s'.Safe := by
  have hend : ∀ {w}, s.writer = some w → ((∃ now, a = .close now) ∨ ∃ kept, a = .crash kept) →
      s'.Safe := by
    intro w hw ha
    obtain ⟨closed, n, es, hsession⟩ := h.inSession hw
    obtain ⟨f, rfl, hfile, -⟩ := hsession.finish ha hstep
    exact hsession.ready.ordered_append hfile
  have hcall : ∀ {w}, s.writer = some w → a.isCall = true →
      (s.appended a = [] ∨ w.currentSeq.toNat + 2 < 2 ^ 64) → s'.Safe := by
    intro w hw ha hroom
    obtain ⟨closed, n, es, hsession⟩ := h.inSession hw
    obtain ⟨w', hsession'⟩ := hsession.call ha hroom hstep
    exact hsession'.safe
  cases a with
  | init listing now =>
    obtain ⟨hwins, hrange⟩ := hok
    rw [LogDir.Safe, (LogDir.step_init hstep).1] at h
    exact (LogDir.inSession_init h hwins hrange hstep).safe
  | append type data now =>
    obtain ⟨w, -, -, hw, -⟩ := LogDir.step_append hstep
    exact hcall hw rfl (Or.inr (hok w hw))
  | sync =>
    obtain ⟨w, hw, -⟩ := LogDir.step_sync hstep
    exact hcall hw rfl (Or.inl rfl)
  | close now =>
    obtain ⟨w, -, hw, -⟩ := LogDir.step_close hstep
    exact hend hw (Or.inl ⟨now, rfl⟩)
  | crash kept =>
    obtain ⟨w, -, hw, -⟩ := LogDir.step_crash hstep
    exact hend hw (Or.inr ⟨kept, rfl⟩)

/-- **Restart safety.** In every run whose steps meet the condition, the next `Init`
is safe for every listing that meets it. -/
theorem restartSafe_of_meets {s : LogDir} {acts : List Action} {listing : Directory}
    {now : UInt64}
    (hok : Schedule.StepsMeet (LogDir.step defaultPrefix) ActionOk LogDir.empty acts)
    (hrun : Schedule.run (LogDir.step defaultPrefix) LogDir.empty acts = some s)
    (hclosed : s.writer = none) (hlist : listing.Perm s.dir)
    (hinit : ActionOk s (.init listing now)) :
    RestartSafe s.dir (WalFileWriter.init defaultPrefix listing now) := by
  have hsafe : s.Safe := by
    refine Schedule.run_invariant_of_meets (LogDir.step defaultPrefix) LogDir.Safe
      (fun _ _ _ h hok hstep => h.step hok hstep) ?_ hok hrun
    exact ordered_nil
  rw [LogDir.Safe, hclosed] at hsafe
  exact restartSafe_init hsafe hlist hinit.1 hinit.2 now

/-- `wal_1.wal` after one empty append and `Close`. -/
def closedOne : FileName × Bytes :=
  (walFileName defaultPrefix 1, logImage { startSeq := 1, entryCount := 1 }
    [({ seq := 1, timestampNs := 0, type := 5, dataLen := 0, crc32 := 0 }, [])])

/-- The session that leaves it. -/
def closedOneSession : List Action := [.init [] 0, .append 5 .empty 0, .close 0]

/-- The restart after that session goes on at number 2. -/
theorem restartSafe_closedOne :
    ∃ s, Schedule.run (LogDir.step defaultPrefix) LogDir.empty closedOneSession = some s ∧
      RestartSafe s.dir (WalFileWriter.init defaultPrefix [closedOne] 0) := by
  refine ⟨⟨[closedOne], none⟩, rfl, ?_⟩
  have hmeets : Schedule.StepsMeet (LogDir.step defaultPrefix) ActionOk LogDir.empty
      closedOneSession := by
    refine ⟨⟨Or.inl (by simp), by simp [StartsInRange]⟩, fun t ht => ?_⟩
    obtain rfl := Option.some.inj ht
    refine ⟨fun w hw => ?_, fun t ht => ⟨trivial, fun _ _ => trivial⟩⟩
    obtain rfl := Option.some.inj hw
    decide
  have hlist : ActionOk ⟨[closedOne], none⟩ (.init [closedOne] 0) := by
    refine ⟨Or.inr ⟨[], closedOne, [], rfl, by unfold Intact; decide +kernel, ?_, by simp, by simp⟩,
      by unfold StartsInRange; decide +kernel⟩
    intro f hf _
    rw [List.mem_singleton.mp hf]
  exact restartSafe_of_meets hmeets rfl rfl (List.Perm.refl _) hlist

/-- A second session that crashes before its header reaches the file leaves
`wal_2.wal` empty. Listed last it puts the scan back to 0, and the next `Init`
truncates `wal_1.wal` with its entry. -/
theorem not_restartSafe_after_crash :
    ∃ s, Schedule.run (LogDir.step defaultPrefix) LogDir.empty
        (closedOneSession ++ [.init [closedOne] 0, .crash 0]) = some s ∧ s.writer = none ∧
      s.dir = [closedOne, (walFileName defaultPrefix 2, [])] ∧
      ¬ RestartSafe s.dir (WalFileWriter.init defaultPrefix s.dir 0) :=
  ⟨⟨[closedOne, (walFileName defaultPrefix 2, [])], none⟩, by decide +kernel, rfl, rfl,
    by decide +kernel⟩

end Zrtools.Wal

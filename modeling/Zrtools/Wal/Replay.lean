import Zrtools.Wal.Restart
import Mathlib.Data.Finset.Max

/-!
# zrtools — replaying a WAL directory

`ReadAfter` goes through the files in the order of their names. The entries of a
cleanly written directory are numbered in the order of their start numbers, and
the two orders agree only as long as the decimal numbers in the names sort like
the numbers themselves: `wal_10.wal` comes before `wal_9.wal`.

* `replay_of_ordered` — paging through any log in seq order returns all of it;
* `clean_run_entries` — what clean sessions leave in a directory;
* `replays_iff` — the directory replays in order and can be paged iff the names
  of its non-empty files are in the order of their numbers.
-/

namespace Zrtools.Wal

-- ---------------------------------------------------------------------------
-- Paging
-- ---------------------------------------------------------------------------

/-- Calling `ReadAfter` with the last seq of the page before, until a page is
empty; at most `fuel` pages. -/
def replay (dir : Directory) (pageSize : Nat) : Nat → UInt64 → List Entry
  | 0, _ => []
  | fuel + 1, afterSeq =>
    match (readAfter dir afterSeq pageSize).getLast? with
    | none => []
    | some e => readAfter dir afterSeq pageSize ++ replay dir pageSize fuel e.1.seq

/-- Entries in the order of their seqs. -/
def InSeqOrder (es : List Entry) : Prop := es.Pairwise fun e f => e.1.seq < f.1.seq

instance (es : List Entry) : Decidable (InSeqOrder es) :=
  inferInstanceAs (Decidable (List.Pairwise _ _))

/-- **A directory replays** the entries `es`: in seq order, `n` at a time the `n`
smallest that follow, and page after page all of them. -/
structure Replays (dir : Directory) (es : List Entry) : Prop where
  written : InSeqOrder es
  inOrder : ∀ afterSeq maxCount, InSeqOrder (readAfter dir afterSeq maxCount)
  smallest : ∀ afterSeq maxCount,
    readAfter dir afterSeq maxCount = limit maxCount (entriesAfter afterSeq es)
  pages : ∀ afterSeq pageSize fuel, 0 < pageSize → es.length < fuel →
    replay dir pageSize fuel afterSeq = readAfter dir afterSeq 0

theorem InSeqOrder.entriesAfter {es : List Entry} (h : InSeqOrder es) (afterSeq : UInt64) :
    InSeqOrder (entriesAfter afterSeq es) := h.filter _

/-- What follows the last entry of a page is the rest behind the page. -/
theorem entriesAfter_last {es : List Entry} (h : InSeqOrder es) {afterSeq : UInt64}
    {n : Nat} {e : Entry} (he : ((entriesAfter afterSeq es).take n).getLast? = some e) :
    entriesAfter e.1.seq es = (entriesAfter afterSeq es).drop n := by
  set page := (entriesAfter afterSeq es).take n with hpage
  set rest := (entriesAfter afterSeq es).drop n with hrest
  have hsplit : entriesAfter afterSeq es = page ++ rest := (List.take_append_drop ..).symm
  obtain ⟨front, hfront⟩ : ∃ front, page = front ++ [e] := by
    refine ⟨page.dropLast, ?_⟩
    exact (List.dropLast_append_getLast? e he).symm
  have hmem : e ∈ entriesAfter afterSeq es := by
    rw [hsplit, hfront]
    simp
  have hafter : afterSeq < e.1.seq := by
    simpa [entriesAfter] using (List.mem_filter.mp hmem).2
  -- past `e` is also past `after_seq`
  have hnarrow : entriesAfter e.1.seq es = entriesAfter e.1.seq (entriesAfter afterSeq es) := by
    rw [entriesAfter, entriesAfter, entriesAfter, List.filter_filter]
    apply List.filter_congr
    intro f _
    by_cases hf : e.1.seq < f.1.seq
    · simp [hf, UInt64.lt_trans hafter hf]
    · simp [hf]
  have hsorted := h.entriesAfter afterSeq
  rw [hsplit, InSeqOrder, List.pairwise_append] at hsorted
  obtain ⟨hpageSorted, -, hcross⟩ := hsorted
  rw [hfront, List.pairwise_append] at hpageSorted
  have hpageOut : entriesAfter e.1.seq page = [] := by
    rw [entriesAfter, List.filter_eq_nil_iff]
    intro f hf
    rw [hfront] at hf
    rcases List.mem_append.mp hf with hf | hf
    · have hlt := hpageSorted.2.2 f hf e (List.mem_singleton_self e)
      simpa using UInt64.le_of_lt hlt
    · rw [List.mem_singleton.mp hf]
      simp
  have hrestIn : entriesAfter e.1.seq rest = rest := by
    rw [entriesAfter, List.filter_eq_self]
    intro f hf
    have hlast : e ∈ page := by
      rw [hfront]
      simp
    simpa using hcross e hlast f hf
  rw [hnarrow, hsplit, entriesAfter_append, hpageOut, hrestIn, List.nil_append]

/-- **Paging.** Where `ReadAfter` serves a log in seq order, any page size gives all
that follows. -/
theorem replay_of_ordered {dir : Directory} {es : List Entry} (h : InSeqOrder es)
    (hread : ∀ afterSeq maxCount,
      readAfter dir afterSeq maxCount = limit maxCount (entriesAfter afterSeq es))
    {pageSize fuel : Nat} (hpage : 0 < pageSize) {afterSeq : UInt64}
    (hfuel : (entriesAfter afterSeq es).length < fuel) :
    replay dir pageSize fuel afterSeq = entriesAfter afterSeq es := by
  induction fuel generalizing afterSeq with
  | zero => omega
  | succ fuel ih =>
    have hlimit : readAfter dir afterSeq pageSize = (entriesAfter afterSeq es).take pageSize := by
      rw [hread, limit, if_neg (by omega)]
    rw [replay, hlimit]
    cases hlast : ((entriesAfter afterSeq es).take pageSize).getLast? with
    | none =>
      -- an empty page: nothing follows
      rw [List.getLast?_eq_none_iff, List.take_eq_nil_iff] at hlast
      rcases hlast with hzero | hnil
      · omega
      · exact hnil.symm
    | some e =>
      have hnext := entriesAfter_last h hlast
      have hpos : 0 < (entriesAfter afterSeq es).length := by
        rcases Nat.eq_zero_or_pos (entriesAfter afterSeq es).length with hzero | hpos
        · rw [List.eq_nil_of_length_eq_zero hzero, List.take_nil] at hlast
          simp at hlast
        · exact hpos
      dsimp only
      rw [ih, hnext, List.take_append_drop]
      rw [hnext, List.length_drop]
      omega

theorem replays_of_read {dir : Directory} {es : List Entry} (h : InSeqOrder es)
    (hread : ∀ afterSeq maxCount,
      readAfter dir afterSeq maxCount = limit maxCount (entriesAfter afterSeq es)) :
    Replays dir es where
  written := h
  inOrder := by
    intro afterSeq maxCount
    rw [hread, limit]
    split
    · exact h.entriesAfter afterSeq
    · exact (h.entriesAfter afterSeq).sublist (List.take_sublist ..)
  smallest := hread
  pages := by
    intro afterSeq pageSize fuel hpage hfuel
    rw [replay_of_ordered h hread hpage, hread, limit, if_pos rfl]
    exact lt_of_le_of_lt (List.length_filter_le ..) hfuel

-- ---------------------------------------------------------------------------
-- Clean sessions
-- ---------------------------------------------------------------------------

/-- All entries of a directory, file by file. -/
def allEntries (dir : Directory) : List Entry := dir.flatMap fun f => fileEntries f.2

theorem allEntries_append (a b : Directory) :
    allEntries (a ++ b) = allEntries a ++ allEntries b := by
  simp [allEntries]

/-- The condition on each step of a clean run: no crash, and no counter at its end. -/
def CleanOk (s : LogDir) : Action → Prop
  | .init listing _ => StartsInRange listing
  | .append _ _ _ => ∀ w, s.writer = some w → w.currentSeq.toNat + 2 < 2 ^ 64
  | .sync => True
  | .close _ => True
  | .crash _ => False

/-- The invariant of clean runs that have appended `past`. -/
def LogDir.Clean (s : LogDir) (past : List Entry) : Prop :=
  match s.writer with
  | none => Ordered s.dir ∧ (∀ f ∈ s.dir, Intact f) ∧ past = allEntries s.dir
  | some w => ∃ closed n es, s.InSession w closed n es ∧ (∀ f ∈ closed, Intact f) ∧
      past = allEntries closed ++ es

/-- With no torn file about, any listing is scanned right. -/
theorem newestWins_of_intact {listing : Directory} (h : ∀ f ∈ listing, Intact f) :
    NewestWins listing := by
  rcases List.eq_nil_or_concat' listing with rfl | ⟨front, last, hsnoc⟩
  · exact Or.inl (by simp)
  · right
    have hne : listing ≠ [] := by simp [hsnoc]
    obtain ⟨g, hg, hmax⟩ : ∃ g ∈ listing, ∀ f ∈ listing, fileNumber f ≤ fileNumber g := by
      obtain ⟨g, hg, hmax⟩ := listing.toFinset.exists_max_image fileNumber (by simpa using hne)
      exact ⟨g, by simpa using hg, fun f hf => hmax f (by simpa using hf)⟩
    obtain ⟨pre, post, hsplit⟩ := List.append_of_mem hg
    refine ⟨pre, g, post, hsplit, h g hg, fun f hf _ => hmax f hf, ?_, ?_⟩
    · intro f hf htorn
      exact absurd (h f (by simp [hsplit, hf])) htorn
    · intro f hf
      exact h f (by simp [hsplit, hf])

theorem LogDir.Clean.inSession {s : LogDir} {past : List Entry} (h : s.Clean past)
    {w : WalFileWriter} (hw : s.writer = some w) :
    ∃ closed n es, s.InSession w closed n es ∧ (∀ f ∈ closed, Intact f) ∧
      past = allEntries closed ++ es := by
  rwa [LogDir.Clean, hw] at h

theorem LogDir.InSession.clean {s : LogDir} {w : WalFileWriter} {closed : Directory} {n : UInt64}
    {es past : List Entry} (h : s.InSession w closed n es) (hintact : ∀ f ∈ closed, Intact f)
    (hpast : past = allEntries closed ++ es) : s.Clean past := by
  rw [LogDir.Clean, h.writer]
  exact ⟨closed, n, es, h, hintact, hpast⟩

/-- **One clean step** keeps the invariant. -/
theorem LogDir.Clean.step {s s' : LogDir} {a : Action} {past : List Entry} (h : s.Clean past)
    (hok : CleanOk s a) (hstep : LogDir.step defaultPrefix s a = some s') :
    s'.Clean (past ++ s.appended a) := by
  have hcall : ∀ {w}, s.writer = some w → a.isCall = true →
      (s.appended a = [] ∨ w.currentSeq.toNat + 2 < 2 ^ 64) →
      s'.Clean (past ++ s.appended a) := by
    intro w hw ha hroom
    obtain ⟨closed, n, es, hsession, hintact, rfl⟩ := h.inSession hw
    obtain ⟨w', hsession'⟩ := hsession.call ha hroom hstep
    exact hsession'.clean hintact (List.append_assoc ..)
  cases a with
  | init listing now =>
    obtain ⟨hw, hperm, -⟩ := LogDir.step_init hstep
    rw [LogDir.Clean, hw] at h
    obtain ⟨hordered, hintact, rfl⟩ := h
    have hwins := newestWins_of_intact fun f hf => hintact f (hperm.mem_iff.mp hf)
    have hsession := LogDir.inSession_init hordered hwins hok hstep
    -- no file is replaced
    have hkeep : s.dir.filter (fun f => f.1 ≠
        walFileName defaultPrefix (WalFileWriter.scanMaxSeq listing + 1)) = s.dir := by
      rw [List.filter_eq_self]
      intro f hf
      have hlt := (intact_lt_next hordered hperm hwins hok hf (hintact f hf)).1
      simp only [ne_eq, decide_not, Bool.not_eq_true', decide_eq_false_iff_not]
      intro hname
      rw [fileNumber, hname, parseSeqFromFilename_default] at hlt
      exact Nat.lt_irrefl _ hlt
    rw [hkeep] at hsession
    exact hsession.clean hintact rfl
  | append type data now =>
    obtain ⟨w, -, -, hw, -⟩ := LogDir.step_append hstep
    exact hcall hw rfl (Or.inr (hok w hw))
  | sync =>
    obtain ⟨w, hw, -⟩ := LogDir.step_sync hstep
    exact hcall hw rfl (Or.inl rfl)
  | close now =>
    obtain ⟨w, -, hw, -⟩ := LogDir.step_close hstep
    obtain ⟨closed, n, es, hsession, hintact, rfl⟩ := h.inSession hw
    obtain ⟨f, rfl, hfile, hwhole⟩ := hsession.finish (Or.inl ⟨now, rfl⟩) hstep
    obtain ⟨hstart, hentries⟩ := hwhole ⟨now, rfl⟩
    refine ⟨hsession.ready.ordered_append hfile, ?_, ?_⟩
    · intro g hg
      rcases List.mem_append.mp hg with hg | hg
      · exact hintact g hg
      · rw [List.mem_singleton.mp hg, Intact, hstart, hfile.number_eq]
    · show allEntries closed ++ es ++ [] = _
      rw [List.append_nil, allEntries_append]
      simp [allEntries, hentries]
  | crash kept => exact hok.elim

/-- **What clean sessions leave**: whole files in the order of their numbers, and in
them all entries that were appended. -/
theorem clean_run_entries {s : LogDir} {acts : List Action}
    (hok : Schedule.StepsMeet (LogDir.step defaultPrefix) CleanOk LogDir.empty acts)
    (hrun : Schedule.run (LogDir.step defaultPrefix) LogDir.empty acts = some s)
    (hclosed : s.writer = none) :
    Ordered s.dir ∧ LogDir.empty.entriesOf defaultPrefix acts = allEntries s.dir := by
  have hclean : s.Clean ([] ++ LogDir.empty.entriesOf defaultPrefix acts) := by
    refine Schedule.run_invariant_outputs (LogDir.step defaultPrefix) LogDir.Clean
      (fun _ _ _ _ h hok hstep => h.step hok hstep) ?_ hok hrun
    exact ⟨ordered_nil, by simp [LogDir.empty], rfl⟩
  rw [LogDir.Clean, hclosed, List.nil_append] at hclean
  exact ⟨hclean.1, hclean.2.2⟩

-- ---------------------------------------------------------------------------
-- Name order
-- ---------------------------------------------------------------------------

/-- The names of the non-empty files sort like their numbers. -/
def NamesInOrder (dir : Directory) : Prop :=
  ∀ f ∈ dir, ∀ g ∈ dir, fileEntries f.2 ≠ [] → fileEntries g.2 ≠ [] →
    fileNumber f < fileNumber g → f.1 < g.1

/-- Entries of different files are ordered like the files. -/
theorem Ordered.seq_lt {dir : Directory} (h : Ordered dir) {f g : FileName × Bytes}
    (hf : f ∈ dir) (hg : g ∈ dir) (hlt : fileNumber f < fileNumber g) {e e' : Entry}
    (he : e ∈ fileEntries f.2) (he' : e' ∈ fileEntries g.2) : e.1.seq < e'.1.seq := by
  obtain ⟨n, hfile⟩ := h.files f hf
  obtain ⟨m, hgile⟩ := h.files g hg
  have hne : f ≠ g := by
    rintro rfl
    exact Nat.lt_irrefl _ hlt
  have hfe := (hfile.seq_le_lastSeq he).2
  have hge := (hgile.seq_le_lastSeq he').1
  rw [UInt64.lt_iff_toNat_lt]
  rcases h.apart_of_ne hf hg hne with ⟨-, hlast⟩ | ⟨hback, -⟩
  · omega
  · omega

theorem WalFile.inSeqOrder {n : UInt64} {f : FileName × Bytes} (h : WalFile defaultPrefix n f) :
    InSeqOrder (fileEntries f.2) := by
  rw [InSeqOrder, List.pairwise_iff_getElem]
  intro i j hi hj hij
  have hei := h.seqs.toNat_eq h.fits (List.getElem?_eq_getElem hi)
  have hej := h.seqs.toNat_eq h.fits (List.getElem?_eq_getElem hj)
  rw [UInt64.lt_iff_toNat_lt]
  omega

theorem Ordered.inSeqOrder {dir : Directory} (h : Ordered dir) : InSeqOrder (allEntries dir) := by
  rw [InSeqOrder, allEntries, List.pairwise_flatMap]
  refine ⟨?_, ?_⟩
  · intro f hf
    obtain ⟨n, hfile⟩ := h.files f hf
    exact hfile.inSeqOrder
  · refine List.Pairwise.imp_of_mem ?_ h.apart
    intro f g hf hg hlt e he e' he'
    exact h.seq_lt hf hg hlt.1 he he'

theorem sortedWalFiles_perm {dir : Directory} (h : Ordered dir) :
    (sortedWalFiles dir).Perm dir := by
  have hall : dir.filter isWalFile = dir := by
    rw [List.filter_eq_self]
    intro f hf
    obtain ⟨n, hfile⟩ := h.files f hf
    exact hfile.isWalFile_eq
  rw [sortedWalFiles, hall]
  exact List.perm_insertionSort _ _

theorem sortedWalFiles_pairwise (dir : Directory) :
    (sortedWalFiles dir).Pairwise fun f g => f.1 ≤ g.1 := by
  have htotal : Std.Total fun f g : FileName × Bytes => f.1 ≤ g.1 :=
    ⟨fun f g => le_total f.1 g.1⟩
  have htrans : IsTrans (FileName × Bytes) fun f g => f.1 ≤ g.1 := ⟨fun _ _ _ => le_trans⟩
  exact List.pairwise_insertionSort _ _

/-- Empty files contribute nothing. -/
theorem allEntries_filter (dir : Directory) :
    allEntries (dir.filter fun f => !(fileEntries f.2).isEmpty) = allEntries dir := by
  induction dir with
  | nil => rfl
  | cons f dir ih =>
    have hcons : allEntries (f :: dir) = fileEntries f.2 ++ allEntries dir := by
      simp [allEntries]
    rw [List.filter_cons, hcons]
    cases hempty : (fileEntries f.2).isEmpty with
    | true =>
      rw [List.isEmpty_iff.mp hempty]
      simpa using ih
    | false => simpa [allEntries] using ih

/-- Names in order: the files are read in the order they were written. -/
theorem allEntries_sortedWalFiles {dir : Directory} (h : Ordered dir) (hnames : NamesInOrder dir) :
    allEntries (sortedWalFiles dir) = allEntries dir := by
  have hperm := sortedWalFiles_perm h
  have hmem : ∀ f, f ∈ sortedWalFiles dir → f ∈ dir := fun f hf => hperm.mem_iff.mp hf
  -- both filtered lists are the same files, sorted by number
  have hsorted : ((sortedWalFiles dir).filter fun f => !(fileEntries f.2).isEmpty).Pairwise
      fun f g => fileNumber f ≤ fileNumber g := by
    rw [List.pairwise_filter]
    refine List.Pairwise.imp_of_mem ?_ (sortedWalFiles_pairwise dir)
    intro f g hf hg hle hfne hgne
    by_contra hgt
    have hlt := hnames g (hmem g hg) f (hmem f hf) (by simpa using hgne) (by simpa using hfne)
      (Nat.lt_of_not_le hgt)
    exact absurd hle (not_le_of_gt hlt)
  have hwritten : (dir.filter fun f => !(fileEntries f.2).isEmpty).Pairwise
      fun f g => fileNumber f ≤ fileNumber g := by
    refine (h.apart.imp ?_).filter _
    exact fun hlt => Nat.le_of_lt hlt.1
  have hanti : ∀ f g, f ∈ (sortedWalFiles dir).filter (fun f => !(fileEntries f.2).isEmpty) →
      g ∈ dir.filter (fun f => !(fileEntries f.2).isEmpty) →
      fileNumber f ≤ fileNumber g → fileNumber g ≤ fileNumber f → f = g := by
    intro f g hf hg hle hge
    by_contra hne
    rcases h.apart_of_ne (hmem f (List.mem_of_mem_filter hf)) (List.mem_of_mem_filter hg) hne
      with ⟨hlt, -⟩ | ⟨hlt, -⟩
    · omega
    · omega
  have heq : (sortedWalFiles dir).filter (fun f => !(fileEntries f.2).isEmpty) =
      dir.filter (fun f => !(fileEntries f.2).isEmpty) :=
    List.Perm.eq_of_pairwise hanti hsorted hwritten (hperm.filter _)
  rw [← allEntries_filter, heq, allEntries_filter]

/-- Reading in seq order needs the names in order. -/
theorem namesInOrder_of_read {dir : Directory} (h : Ordered dir)
    (hread : InSeqOrder (allEntries (sortedWalFiles dir))) : NamesInOrder dir := by
  intro f hf g hg hfne hgne hlt
  have hperm := sortedWalFiles_perm h
  rw [InSeqOrder, allEntries, List.pairwise_flatMap] at hread
  -- of two files in the sorted list, the first has the smaller name and the smaller seqs
  have hboth := (sortedWalFiles_pairwise dir).and hread.2
  have hsymm : Std.Symm fun a b : FileName × Bytes =>
      (a.1 ≤ b.1 ∧ ∀ e ∈ fileEntries a.2, ∀ e' ∈ fileEntries b.2, e.1.seq < e'.1.seq) ∨
        (b.1 ≤ a.1 ∧ ∀ e ∈ fileEntries b.2, ∀ e' ∈ fileEntries a.2, e.1.seq < e'.1.seq) :=
    ⟨fun _ _ => Or.symm⟩
  have hone : (sortedWalFiles dir).Pairwise fun a b =>
      (a.1 ≤ b.1 ∧ ∀ e ∈ fileEntries a.2, ∀ e' ∈ fileEntries b.2, e.1.seq < e'.1.seq) ∨
        (b.1 ≤ a.1 ∧ ∀ e ∈ fileEntries b.2, ∀ e' ∈ fileEntries a.2, e.1.seq < e'.1.seq) :=
    hboth.imp Or.inl
  have hne : f ≠ g := by
    rintro rfl
    exact Nat.lt_irrefl _ hlt
  have hname : f.1 ≠ g.1 := by
    intro heq
    rw [fileNumber, fileNumber, heq] at hlt
    exact Nat.lt_irrefl _ hlt
  rcases hone.forall (hperm.mem_iff.mpr hf) (hperm.mem_iff.mpr hg) hne with ⟨hle, -⟩ | ⟨-, hback⟩
  · exact lt_of_le_of_ne hle hname
  · -- the other order would put larger seqs first
    obtain ⟨e, he⟩ := List.exists_mem_of_ne_nil _ hfne
    obtain ⟨e', he'⟩ := List.exists_mem_of_ne_nil _ hgne
    exact absurd (hback e' he' e he) (UInt64.lt_asymm (h.seq_lt hf hg hlt he he'))

/-- **Ordered and pageable replay.** What any clean sessions have written replays in
seq order and page by page iff the names of the non-empty files are in the order of
their numbers. -/
theorem replays_iff {s : LogDir} {acts : List Action}
    (hok : Schedule.StepsMeet (LogDir.step defaultPrefix) CleanOk LogDir.empty acts)
    (hrun : Schedule.run (LogDir.step defaultPrefix) LogDir.empty acts = some s)
    (hclosed : s.writer = none) :
    Replays s.dir (LogDir.empty.entriesOf defaultPrefix acts) ↔ NamesInOrder s.dir := by
  obtain ⟨hordered, hentries⟩ := clean_run_entries hok hrun hclosed
  rw [hentries]
  refine ⟨?_, ?_⟩
  · intro h
    have hall := h.inOrder 0 0
    rw [readAfter_eq, limit, if_pos rfl] at hall
    apply namesInOrder_of_read hordered
    -- `after_seq` = 0 leaves nothing out
    have hzero : entriesAfter 0 (allEntries (sortedWalFiles s.dir)) =
        allEntries (sortedWalFiles s.dir) := by
      rw [entriesAfter, List.filter_eq_self]
      intro e he
      obtain ⟨f, hf, hef⟩ := List.mem_flatMap.mp he
      obtain ⟨n, hfile⟩ := hordered.files f ((sortedWalFiles_perm hordered).mem_iff.mp hf)
      have hpos := hfile.seqs.seq_pos hfile.pos hfile.fits hef
      rw [decide_eq_true_iff, UInt64.lt_iff_toNat_lt]
      exact hpos
    rw [← hzero]
    exact hall
  · intro hnames
    apply replays_of_read hordered.inSeqOrder
    intro afterSeq maxCount
    rw [readAfter_eq]
    show limit maxCount (entriesAfter afterSeq (allEntries (sortedWalFiles s.dir))) = _
    rw [allEntries_sortedWalFiles hordered hnames]

/-- One session, one file: nothing to put in the wrong order. -/
theorem replays_closedOne :
    ∃ s, Schedule.run (LogDir.step defaultPrefix) LogDir.empty closedOneSession = some s ∧
      (Replays s.dir (LogDir.empty.entriesOf defaultPrefix closedOneSession) ↔
        NamesInOrder s.dir) := by
  refine ⟨⟨[closedOne], none⟩, rfl, ?_⟩
  have hmeets : Schedule.StepsMeet (LogDir.step defaultPrefix) CleanOk LogDir.empty
      closedOneSession := by
    refine ⟨by simp [CleanOk, StartsInRange], fun t ht => ?_⟩
    obtain rfl := Option.some.inj ht
    refine ⟨fun w hw => ?_, fun t ht => ⟨trivial, fun _ _ => trivial⟩⟩
    obtain rfl := Option.some.inj hw
    decide
  exact replays_iff hmeets rfl rfl

/-- A closed file of `count` empty entries from number `n` on. -/
def closedFile (n : UInt64) (count : Nat) : FileName × Bytes :=
  (walFileName defaultPrefix n, logImage { startSeq := n, entryCount := UInt64.ofNat count }
    ((List.range count).map fun i =>
      ({ seq := n + UInt64.ofNat i, timestampNs := 0, type := 5, dataLen := 0, crc32 := 0 }, [])))

/-- Sessions with start numbers 1, 9 and 10. -/
def threeSessions : List Action :=
  [Action.init [] 0] ++ List.replicate 8 (Action.append 5 .empty 0) ++
    [Action.close 0, .init [closedFile 1 8] 0, .append 5 .empty 0, .close 0,
      .init [closedFile 1 8, closedFile 9 1] 0, .append 5 .empty 0, .close 0]

/-- `wal_10.wal` is read before `wal_9.wal`: seq 9 comes last, and reading page by
page never returns it. -/
theorem not_replays_threeSessions :
    ∃ s, Schedule.run (LogDir.step defaultPrefix) LogDir.empty threeSessions = some s ∧
      s.writer = none ∧
      (readAfter s.dir 0 0).map (fun e => e.1.seq) = [1, 2, 3, 4, 5, 6, 7, 8, 10, 9] ∧
      (replay s.dir 9 20 0).map (fun e => e.1.seq) = [1, 2, 3, 4, 5, 6, 7, 8, 10] ∧
      ¬ Replays s.dir (LogDir.empty.entriesOf defaultPrefix threeSessions) := by
  refine ⟨⟨[closedFile 1 8, closedFile 9 1, closedFile 10 1], none⟩, by decide +kernel, rfl,
    by decide +kernel, by decide +kernel, fun h => ?_⟩
  have hnot : ¬ InSeqOrder
      (readAfter [closedFile 1 8, closedFile 9 1, closedFile 10 1] 0 0) := by
    decide +kernel
  exact hnot (h.inOrder 0 0)

end Zrtools.Wal

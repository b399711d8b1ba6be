import Bewe.Lib.Run
import Bewe.Archive.Store

/-!
# What archive operations leave alone

An operation of the archive names files: the file that it uploads, renames, finalizes or joins, with
its sidecar. `keeps_of_run` says that a run of operations that meet `Clear` keeps every file that
none of them names, under its name and with its content. `Clear` asks that the name an operation
gives to a file is free. Where a loop looks for a free name that means that there is one among the
99 it tries; a rename by an operator, the sidecars and the join of a segment look for none.
-/

namespace Bewe.Archive

open Lib Hist

/-- The operations, with what each is given: the room, the packet, the time, and what the system
refuses. `LIST` is its visits of directory entries. -/
inductive Op
  | pushMeta (r : ℕ) (m : PktMissionFilePushMeta) (f : PushFaults) (now : ℕ)
  | list (dir n : Bytes) (refused : Bool) (now : ℕ)
  | liveStart (r : ℕ) (ls : PktLwfLiveStart) (refused : Bool) (now : ℕ)
  | liveStop (r : ℕ) (filename : Bytes) (refused : Bool) (now : ℕ)
  | rename (key : MissionFileKey) (new_filename : Bytes)
  | merge (f : MergeFaults) (seg : Bytes) (now : ℕ)

section

variable (z : Zstd) (root : Bytes)

/-- What an operation does. -/
def Op.apply : Op → State → State
  | .pushMeta r m f now, s => (Archive.pushMeta root r m f now s).1
  | .list dir n refused now, s => listEntry dir n refused now s
  | .liveStart r ls refused now, s => Archive.liveStart root r ls refused now s
  | .liveStop r filename refused now, s => Archive.liveStop r filename refused now s
  | .rename key new_filename, s => renameFile root key new_filename s
  | .merge f seg now, s => mergeSegment z f seg now s

/-- A file and its sidecar. -/
def WithSidecar (p q : Bytes) : Prop := q = p ∨ q = sidecarPath p

/-- The names of the files that an operation is about. A live recording that ends is the file that
its stream writes, if the path of the stream still leads to it. -/
def Op.Named : Op → State → Bytes → Prop
  | .pushMeta _ m _ _, _, q =>
    ∃ dir ∈ m.key.dir root, WithSidecar (join dir m.key.filenameStr) q
  | .list dir n _ _, _, q => WithSidecar (join dir n) q
  | .liveStart .., _, _ => False
  | .liveStop r filename _ _, s, q =>
    ∃ st ∈ (s.rooms r).hist_streams.lookup (cStr (filename.take 64)),
      q = st.archive_path ∧ s.fs.find q = some st.fp ∨ q = st.archive_path ++ ascii ".info"
  | .rename key _, _, q => ∃ dir ∈ key.dir root, WithSidecar (join dir key.filenameStr) q
  | .merge f seg _, s, q => ∃ m ∈ findMerge f s.fs seg, q = m.best.path ∨ q = seg ∨ q = m.tmp

/-- Whether a file may be renamed: there is none, or its new name is its old one or free. -/
def RenameClear (fs : ArchiveFs) (a b : Bytes) : Prop :=
  fs.find a ≠ none → b = a ∨ fs.find b = none

instance (fs : ArchiveFs) (a b : Bytes) : Decidable (RenameClear fs a b) :=
  inferInstanceAs (Decidable (_ → _))

/-- Whether the path of a stream leads to the file that it writes, or nowhere. -/
def LeadsHome (fs : ArchiveFs) (st : MissionHistStream) : Prop :=
  fs.find st.archive_path = some st.fp ∨ fs.find st.archive_path = none

/-- When an operation overwrites nothing. -/
def Op.Clear : Op → State → Prop
  | .pushMeta .., _ => True
  | .list dir n refused now, s =>
    ∀ i, s.fs.find (join dir n) = some i →
      let fin := buildHistFilenameFinalize n (s.mtime i)
      let try_full := freeName s.fs dir fin (ascii ".bewehist")
      contains liveTail n = true → s.mtime i + STALE_LIVE_SEC < now → fin ≠ n → refused = false →
        HasFreeName s.fs dir fin (ascii ".bewehist") ∧
          RenameClear (s.fs.rename (join dir n) try_full) (sidecarPath (join dir n))
            (sidecarPath try_full)
  | .liveStart r ls refused _, s =>
    ∀ a ∈ (s.rooms r).active, ∀ dir ∈ archiveDir root a.station a.year a.code MFS_HIST,
      refused = false → HasFreeName s.fs dir (cStr (ls.filename.take 64)) liveTail
  | .liveStop r filename refused now, s =>
    ∀ st ∈ (s.rooms r).hist_streams.lookup (cStr (filename.take 64)),
      if st.rows_written = 0 ∨ histIsShortStub st.start_utc now then LeadsHome s.fs st
      else
        ∀ dir ∈ dirOf st.archive_path,
          let base := baseOf st.archive_path
          let fin := buildHistFilenameFinalize base now
          fin ≠ base → refused = false →
            LeadsHome s.fs st ∧
              (s.fs.find st.archive_path ≠ none → HasFreeName s.fs dir fin (ascii ".bewehist"))
  | .rename key new_filename, s =>
    ∀ dir ∈ key.dir root,
      let src := join dir key.filenameStr
      let dst := join dir (cStr (new_filename.take 128))
      RenameClear s.fs src dst ∧
        RenameClear (s.fs.rename src dst) (sidecarPath src) (sidecarPath dst)
  | .merge f seg _, s =>
    ∀ m ∈ findMerge f s.fs seg, ∀ pb ∈ s.fs.read m.best.path,
      f.copy = false → f.append = false → f.rename = false → m.rawCopy z pb ≠ none →
        m.merged = m.best.path ∨ m.merged = seg ∨ s.fs.find m.merged = none

end

/-! ## One step -/

section

variable {z : Zstd} {root : Bytes}

theorem keeps_of_renameClear {N : Bytes → Prop} {fs : ArchiveFs} {a b : Bytes} (ha : N a)
    (h : RenameClear fs a b) : Fs.Keeps N fs (fs.rename a b) := by
  refine Fs.keeps_rename fs (.inl ha) fun hfind => ?_
  rcases h hfind with rfl | hfree
  · exact .inl ha
  · exact .inr hfree

theorem keeps_openUpload {N : Bytes → Prop} (s : State) (append : Bool) {p : Bytes} (now : ℕ)
    (hp : N p) : Fs.Keeps N s.fs (s.openUpload append p now).1.fs := by
  cases append with
  | true =>
    unfold State.openUpload State.openAppend
    rw [if_pos rfl]
    split
    · exact Fs.Keeps.refl N s.fs
    · exact Fs.keeps_create s.fs [] (.inl hp)
  | false => exact Fs.keeps_create s.fs [] (.inl hp)

theorem keeps_pushMeta (r : ℕ) (m : PktMissionFilePushMeta) (f : PushFaults) (now : ℕ) (s : State) :
    Fs.Keeps (Op.Named root (.pushMeta r m f now) s) s.fs (pushMeta root r m f now s).1.fs := by
  unfold pushMeta
  by_cases hvalid : m.key.valid = true
  · rw [if_neg (not_not.mpr hvalid)]
    cases hdir : m.key.dir root with
    | none => exact Fs.Keeps.refl _ s.fs
    | some dir =>
      dsimp only
      cases hopen : f.open_ with
      | some err => exact Fs.Keeps.refl _ s.fs
      | none =>
        have hopened := keeps_openUpload (N := Op.Named root (.pushMeta r m f now) s) s
          (decide (m.mode = 1)) now (show Op.Named root (.pushMeta r m f now) s
            (join dir m.key.filenameStr) from ⟨dir, hdir, .inl rfl⟩)
        dsimp only
        split_ifs
        · exact hopened.trans (Fs.keeps_create _ _ (.inl ⟨dir, hdir, .inr rfl⟩))
        · exact hopened
  · rw [if_pos hvalid]
    exact Fs.Keeps.refl _ s.fs

theorem keeps_listEntry {dir n : Bytes} {refused : Bool} {now : ℕ} {s : State}
    (h : Op.Clear z root (.list dir n refused now) s) :
    Fs.Keeps (Op.Named root (.list dir n refused now) s) s.fs (listEntry dir n refused now s).fs := by
  unfold listEntry
  dsimp only
  split_ifs with hskip
  · exact Fs.Keeps.refl _ _
  · cases hi : s.fs.find (join dir n) with
    | none => exact Fs.Keeps.refl _ _
    | some i =>
      dsimp only
      by_cases hstale : contains liveTail n = true ∧ s.mtime i + STALE_LIVE_SEC < now
      · rw [if_pos hstale]
        by_cases hfin : buildHistFilenameFinalize n (s.mtime i) ≠ n ∧ ¬ refused
        · rw [if_pos hfin]
          obtain ⟨hfree, hside⟩ := h i hi hstale.1 hstale.2 hfin.1 (by simpa using hfin.2)
          have hrenamed := keeps_of_renameClear (N := Op.Named root (.list dir n refused now) s)
            (.inl rfl) fun _ => .inr (find_freeName hfree)
          dsimp only
          split_ifs
          · exact hrenamed.trans (keeps_of_renameClear (.inr rfl) hside)
          · exact hrenamed
        · rw [if_neg hfin]
          exact Fs.Keeps.refl _ _
      · rw [if_neg hstale]
        exact Fs.Keeps.refl _ _

theorem keeps_liveStart {r : ℕ} {ls : PktLwfLiveStart} {refused : Bool} {now : ℕ} {s : State}
    (h : Op.Clear z root (.liveStart r ls refused now) s) :
    Fs.Keeps (Op.Named root (.liveStart r ls refused now) s) s.fs
      (liveStart root r ls refused now s).fs := by
  unfold liveStart
  dsimp only
  cases ha : (s.rooms r).active with
  | none => exact Fs.Keeps.refl _ s.fs
  | some a =>
    dsimp only
    by_cases hsafe : pathComponentSafe (cStr (ls.filename.take 64)) 128 = true
    · rw [if_neg (not_not.mpr hsafe)]
      cases hdir : archiveDir root a.station a.year a.code MFS_HIST with
      | none => exact Fs.Keeps.refl _ s.fs
      | some dir =>
        dsimp only
        by_cases hrefused : refused = true
        · rw [if_pos hrefused]
          exact Fs.Keeps.refl _ s.fs
        · rw [if_neg hrefused]
          have hfree := h a ha dir hdir (by simpa using hrefused)
          exact Fs.keeps_create s.fs _ (.inr (find_freeName hfree))
    · rw [if_pos hsafe]
      exact Fs.Keeps.refl _ s.fs

/-- The end of a recording keeps every file but that of the recording. -/
theorem keeps_liveStop {r : ℕ} {filename : Bytes} {refused : Bool} {now : ℕ} {s : State}
    (h : Op.Clear z root (.liveStop r filename refused now) s) :
    Fs.Keeps (Op.Named root (.liveStop r filename refused now) s) s.fs
      (liveStop r filename refused now s).fs := by
  unfold liveStop
  dsimp only
  cases hst : (s.rooms r).hist_streams.lookup (cStr (filename.take 64)) with
  | none => exact Fs.Keeps.refl _ s.fs
  | some st =>
    dsimp only
    have hclear := h st hst
    have hhome : LeadsHome s.fs st → Op.Named root (.liveStop r filename refused now) s
        st.archive_path ∨ s.fs.find st.archive_path = none := by
      rintro (hown | hnone)
      · exact .inl ⟨st, hst, .inl ⟨rfl, hown⟩⟩
      · exact .inr hnone
    by_cases hstub : st.rows_written = 0 ∨ histIsShortStub st.start_utc now = true
    · rw [if_pos hstub] at hclear ⊢
      exact (Fs.keeps_unlink s.fs (hhome hclear)).trans
        (Fs.keeps_unlink _ (.inl ⟨st, hst, .inr rfl⟩))
    · rw [if_neg hstub] at hclear ⊢
      cases hdir : dirOf st.archive_path with
      | none => exact Fs.Keeps.refl _ s.fs
      | some dir =>
        dsimp only
        by_cases hfin : buildHistFilenameFinalize (baseOf st.archive_path) now ≠
            baseOf st.archive_path ∧ ¬ refused
        · rw [if_pos hfin]
          obtain ⟨hleads, hfree⟩ := hclear dir hdir hfin.1 (by simpa using hfin.2)
          exact Fs.keeps_rename s.fs (hhome hleads) fun hfind =>
            .inr (find_freeName (hfree hfind))
        · rw [if_neg hfin]
          exact Fs.Keeps.refl _ s.fs

theorem keeps_renameFile {key : MissionFileKey} {new_filename : Bytes} {s : State}
    (h : Op.Clear z root (.rename key new_filename) s) :
    Fs.Keeps (Op.Named root (.rename key new_filename) s) s.fs
      (renameFile root key new_filename s).fs := by
  unfold renameFile
  dsimp only
  by_cases hvalid : ¬ key.valid = true ∨ ¬ pathComponentSafe (cStr (new_filename.take 128)) 128 = true
  · rw [if_pos hvalid]
    exact Fs.Keeps.refl _ s.fs
  · rw [if_neg hvalid]
    cases hdir : key.dir root with
    | none => exact Fs.Keeps.refl _ s.fs
    | some dir =>
      obtain ⟨hfile, hside⟩ := h dir hdir
      exact (keeps_of_renameClear ⟨dir, hdir, .inl rfl⟩ hfile).trans
        (keeps_of_renameClear ⟨dir, hdir, .inr rfl⟩ hside)

/-- The join of a segment keeps every file but those it has found, the temporary file, and the one
that the joined name leads to. -/
theorem keeps_merge {N : Bytes → Prop} {f : MergeFaults} {seg : Bytes} {now : ℕ} {s : State}
    (h : ∀ m ∈ findMerge f s.fs seg, N m.best.path ∧ N seg ∧ N m.tmp ∧
      ∀ pb ∈ s.fs.read m.best.path, f.copy = false → f.append = false → f.rename = false →
        m.rawCopy z pb ≠ none → N m.merged ∨ s.fs.find m.merged = none) :
    Fs.Keeps N s.fs (mergeSegment z f seg now s).fs := by
  unfold mergeSegment mergeHistSegment
  dsimp only
  cases hm : findMerge f s.fs seg with
  | none => exact Fs.Keeps.refl _ _
  | some m =>
    obtain ⟨pb, sb, hfound⟩ := findMerge_found hm
    obtain ⟨hbest, hseg, htmp, hmerged⟩ := h m hm
    have h0 := Fs.keeps_unlink s.fs (.inl htmp)
    dsimp only
    split
    · exact h0.trans (Fs.keeps_unlink _ (.inl htmp))
    · next raw hraw =>
      have h1 := h0.trans (Fs.keeps_create _ raw (.inl htmp))
      split
      · exact h1.trans (Fs.keeps_unlink _ (.inl htmp))
      · next body hbody =>
        -- the handle writes the temporary file
        have hcreated : ∀ q, ((s.fs.unlink m.tmp).create m.tmp raw).1.find q =
            some ((s.fs.unlink m.tmp).create m.tmp raw).2 → N q := by
          intro q hq
          have htmpfind : ((s.fs.unlink m.tmp).create m.tmp raw).1.find m.tmp =
              some ((s.fs.unlink m.tmp).create m.tmp raw).2 := by rw [Fs.find_create, if_pos rfl]
          rwa [Fs.inj _ q m.tmp _ hq htmpfind]
        have h2 := h1.trans (Fs.keeps_write _ (raw ++ body) hcreated)
        by_cases hrename : f.rename = true
        · rw [if_pos hrename]
          exact h2.trans (Fs.keeps_unlink _ (.inl htmp))
        · rw [if_neg hrename]
          have hcopy : f.copy = false := by
            by_contra hc
            rw [if_pos (by simpa using hc)] at hraw
            cases hraw
          have happend : f.append = false := by
            by_contra hc
            rw [if_pos (by simpa using hc)] at hbody
            cases hbody
          rw [hcopy, if_neg Bool.false_ne_true, Fs.read_unlink, if_neg hfound.best_ne_tmp,
            hfound.best_read, Option.bind_some] at hraw
          have htarget := hmerged pb hfound.best_read hcopy happend (by simpa using hrename)
            (by rw [hraw]; simp)
          have hfree : N m.merged ∨
              ((s.fs.unlink m.tmp).create m.tmp raw).1.find m.merged = none := by
            rw [Fs.find_create, if_neg hfound.merged_ne_tmp, Fs.find_unlink,
              if_neg hfound.merged_ne_tmp]
            exact htarget
          have h3 := h2.trans (Fs.keeps_rename _ (.inl htmp) fun _ => hfree)
          have hunlink : ∀ {g : ArchiveFs} (p : Bytes), N p →
              Fs.Keeps N g (if p ≠ m.merged then g.unlink p else g) := by
            intro g p hp
            split_ifs
            · exact Fs.keeps_unlink g (.inl hp)
            · exact Fs.Keeps.refl _ g
          exact (h3.trans (hunlink m.best.path hbest)).trans (hunlink seg hseg)

/-- The join of a segment keeps every file but the two that it joins. -/
theorem keeps_mergeSegment {f : MergeFaults} {seg : Bytes} {now : ℕ} {s : State}
    (h : Op.Clear z root (.merge f seg now) s) :
    Fs.Keeps (Op.Named root (.merge f seg now) s) s.fs (mergeSegment z f seg now s).fs := by
  refine keeps_merge fun m hm => ?_
  have hbest : Op.Named root (.merge f seg now) s m.best.path := ⟨m, hm, .inl rfl⟩
  have hseg : Op.Named root (.merge f seg now) s seg := ⟨m, hm, .inr (.inl rfl)⟩
  refine ⟨hbest, hseg, ⟨m, hm, .inr (.inr rfl)⟩, fun pb hpb hcopy happend hrename hraw => ?_⟩
  rcases h m hm pb hpb hcopy happend hrename hraw with h' | h' | h'
  · exact .inl (h' ▸ hbest)
  · exact .inl (h' ▸ hseg)
  · exact .inr h'

/-- An operation that is clear keeps every file that it does not name. -/
theorem keeps_apply {op : Op} {s : State} (h : op.Clear z root s) :
    Fs.Keeps (op.Named root s) s.fs (op.apply z root s).fs := by
  cases op with
  | pushMeta r m f now => exact keeps_pushMeta r m f now s
  | list dir n refused now => exact keeps_listEntry h
  | liveStart r ls refused now => exact keeps_liveStart h
  | liveStop r filename refused now => exact keeps_liveStop h
  | rename key new_filename => exact keeps_renameFile h
  | merge f seg now => exact keeps_mergeSegment h

/-! ## Runs -/

/-- A step by an operation that overwrites nothing. -/
def ClearStep (z : Zstd) (root : Bytes) (s : State) (op : Op) (t : State) : Prop :=
  op.Clear z root s ∧ t = op.apply z root s

/-- The names of the files that the operations of a run are about, each in the state it finds. -/
def NamedInRun (z : Zstd) (root : Bytes) : State → List Op → Bytes → Prop
  | _, [], _ => False
  | s, op :: ops, q => op.Named root s q ∨ NamedInRun z root (op.apply z root s) ops q

/-- In a run of operations that are clear every file that none of them names keeps its name and its
content. -/
theorem keeps_of_run {s t : State} {ops : List Op} (h : Run (ClearStep z root) s ops t) :
    Fs.Keeps (NamedInRun z root s ops) s.fs t.fs := by
  induction h with
  | nil s => exact Fs.Keeps.refl _ s.fs
  | cons hstep _ ih =>
    obtain ⟨hclear, rfl⟩ := hstep
    exact ((keeps_apply hclear).mono fun _ => .inl).trans (ih.mono fun _ => .inr)

end

/-! Three recordings of a mission, `a`, `b` and `c`, in which an operator renames `a`. -/

/-- An archive without streams and uploads. -/
def idleArchive (files : List (String × Bytes)) : State :=
  ⟨archiveOf files, fun _ => 0, fun _ => ⟨none, ∅, ∅⟩⟩

/-- The archive of the recordings. -/
def threeRecordings : State :=
  idleArchive [("r/S/2026/A1/hist/a.bewehist", [1]), ("r/S/2026/A1/hist/b.bewehist", [2]),
    ("r/S/2026/A1/hist/c.bewehist", [3])]

/-- The key of `a`. -/
def keyOfA : MissionFileKey := ⟨ascii "S", 2026, MFS_HIST, ascii "A1", ascii "a.bewehist"⟩

theorem named_rename_a {new_filename q : Bytes}
    (h : Op.Named (ascii "r") (.rename keyOfA new_filename) threeRecordings q) :
    q = ascii "r/S/2026/A1/hist/a.bewehist" ∨ q = ascii "r/S/2026/A1/hist/a.bewehist.info" := by
  obtain ⟨dir, hdir, hq⟩ := h
  have hd : keyOfA.dir (ascii "r") = some (ascii "r/S/2026/A1/hist") := by decide
  obtain rfl := Option.some.inj (hd.symm.trans hdir)
  have h1 : join (ascii "r/S/2026/A1/hist") keyOfA.filenameStr =
      ascii "r/S/2026/A1/hist/a.bewehist" := by decide
  have h2 : sidecarPath (ascii "r/S/2026/A1/hist/a.bewehist") =
      ascii "r/S/2026/A1/hist/a.bewehist.info" := by decide
  rwa [WithSidecar, h1, h2] at hq

/-- To a name that is free: `b` and `c` are kept. -/
theorem keeps_of_run_rename :
    Fs.Keeps (NamedInRun storedZstd (ascii "r") threeRecordings
        [.rename keyOfA (ascii "d.bewehist")]) threeRecordings.fs
      ((Op.rename keyOfA (ascii "d.bewehist")).apply storedZstd (ascii "r") threeRecordings).fs :=
  keeps_of_run (.cons ⟨by
    show ∀ dir ∈ keyOfA.dir (ascii "r"), _
    decide, rfl⟩ (.nil _))

/-- To the name of `b`: the file `b` is lost. -/
theorem not_keeps_rename_existing :
    ¬ Fs.Keeps (Op.Named (ascii "r") (.rename keyOfA (ascii "b.bewehist")) threeRecordings)
      threeRecordings.fs
      ((Op.rename keyOfA (ascii "b.bewehist")).apply storedZstd (ascii "r") threeRecordings).fs := by
  intro h
  have hb : threeRecordings.fs.find (ascii "r/S/2026/A1/hist/b.bewehist") = some 1 := by
    decide
  have hafter : ((Op.rename keyOfA (ascii "b.bewehist")).apply storedZstd (ascii "r")
      threeRecordings).fs.find (ascii "r/S/2026/A1/hist/b.bewehist") = some 0 := by
    decide
  have hnot : ¬ Op.Named (ascii "r") (.rename keyOfA (ascii "b.bewehist")) threeRecordings
      (ascii "r/S/2026/A1/hist/b.bewehist") := by
    intro hn
    rcases named_rename_a hn with h' | h'
    · exact absurd h' (by decide)
    · exact absurd h' (by decide)
  have hkept := (h _ _ hnot hb).1
  rw [hafter] at hkept
  exact absurd hkept (by decide)

end Bewe.Archive

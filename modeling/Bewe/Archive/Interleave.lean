import Bewe.Lib.Regroup
import Bewe.Lib.Run
import Bewe.Archive.Compress

/-!
# Compression, merges and uploads side by side

The compress worker, a merge and uploads work in one directory without a common lock. A state has
the files and how far each of them is; an event is one file operation of one of them, and events
come in any order. What a worker or a merge has read is kept with its progress: the code keeps what
it needs of it in memory or in its temporary file, and the rest is there for the statements.

`Race.rowsAt` is what the recordings stand for: recordings that are still being uploaded do not
count yet, and the two originals of a merge do not count any more once the joined file has its name.
`regroups_of_run` says that the rows that were there and those that arrive stay, each file's rows
together and in exactly one place, as long as each commit finds what was read unchanged (`clear`).
-/

namespace Bewe.Archive

open Lib Hist

/-! ## The machine -/

/-- How far the compress worker is with its file: nothing to do; the file `ino` of content `src` was
opened under `path` and compresses to `dst`; the temporary file was written. -/
inductive Worker
  | idle
  | packed (path : Bytes) (ino : ℕ) (src dst : Bytes)
  | written (path : Bytes) (ino : ℕ) (src dst : Bytes)

/-- How far a merge is: nothing to do; the directory is listed for the segment of content `sb`, with
the best entry so far and its content; the predecessor of content `pb` was found; its raw copy was
made; the segment was appended to it, which is to give `content`; the joined file has its name; the
predecessor is gone. -/
inductive Merger
  | idle
  | scanning (seg dir : Bytes) (sh : FileHeader) (srows : ℕ) (sb : Bytes)
    (best : Option (Predecessor × Bytes))
  | found (seg : Bytes) (m : Merge) (pb sb : Bytes)
  | copied (seg : Bytes) (m : Merge) (pb sb raw : Bytes)
  | appended (seg : Bytes) (m : Merge) (pb sb content : Bytes)
  | renamed (seg : Bytes) (m : Merge)
  | unlinked (seg : Bytes) (m : Merge)

/-- The files, the files that are being uploaded, the worker and the merge. -/
structure Race where
  fs : ArchiveFs
  uploads : List ℕ
  worker : Worker
  merger : Merger

/-- The file operations: of the worker, of the merge, of an upload. `giveUp` and `abandon` are the
paths on which an operation of the worker or of the merge has failed. -/
inductive Event
  | openRaw (level : ℕ) (path : Bytes)
  | writeTmp
  | giveUp
  | renameOver
  | scan (seg : Bytes)
  | visit (p : Bytes)
  | choose
  | copy
  | append
  | abandon
  | renameMerged
  | unlinkBest
  | unlinkSegment
  | pushOpen (p : Bytes)
  | pushWrite (i : ℕ) (b : Bytes)
  | pushDone (p : Bytes) (i : ℕ)

/-- `fopen` of a name with `"ab"` and a write. -/
def appendTo (fs : ArchiveFs) (p b : Bytes) : ArchiveFs :=
  match fs.find p with
  | some o => fs.write o (fs.content o ++ b)
  | none => (fs.create p b).1

section

variable (z : Zstd)

/-- What an event does; nothing, if it is not the turn of that operation. -/
def Event.apply : Event → Race → Race
  | .openRaw level path, s =>
    match s.worker, s.fs.find path with
    | .idle, some i =>
      match compressHistFile z level (s.fs.content i) with
      | some dst => { s with worker := .packed path i (s.fs.content i) dst }
      | none => s
    | _, _ => s
  | .writeTmp, s =>
    match s.worker with
    | .packed path i src dst =>
      { s with fs := (s.fs.create (zstTmp path) dst).1, worker := .written path i src dst }
    | _ => s
  | .giveUp, s =>
    match s.worker with
    | .packed .. => { s with worker := .idle }
    | .written path _ _ _ => { s with fs := s.fs.unlink (zstTmp path), worker := .idle }
    | .idle => s
  | .renameOver, s =>
    match s.worker with
    | .written path _ _ _ => { s with fs := s.fs.rename (zstTmp path) path, worker := .idle }
    | _ => s
  | .scan seg, s =>
    match s.merger, s.fs.read seg, dirOf seg with
    | .idle, some sb, some dir =>
      match histReadHeader sb with
      | some (sh, srows) =>
        if sh.version = FILE_VERSION then { s with merger := .scanning seg dir sh srows sb none }
        else s
      | none => s
    | _, _, _ => s
  | .visit p, s =>
    match s.merger with
    | .scanning seg dir sh srows sb best =>
      match (entryIn dir p).bind (candidate s.fs dir seg sh), s.fs.read p with
      | some c, some pb =>
        -- the later start wins
        let best := if best.all fun b => b.1.h.start_utc_unix < c.h.start_utc_unix then some (c, pb)
          else best
        { s with merger := .scanning seg dir sh srows sb best }
      | _, _ => s
    | _ => s
  | .choose, s =>
    match s.merger with
    | .scanning seg dir sh srows sb best =>
      match best with
      | some (b, pb) => { s with merger := .found seg ⟨dir, sh, srows, b⟩ pb sb }
      | none => { s with merger := .idle }
    | _ => s
  | .copy, s =>
    match s.merger with
    | .found seg m pb sb =>
      let fs := s.fs.unlink m.tmp
      match (fs.read m.best.path).bind (m.rawCopy z) with
      | some raw =>
        { s with fs := (fs.create m.tmp raw).1, merger := .copied seg m pb sb raw }
      | none => { s with fs := fs.unlink m.tmp, merger := .idle }
    | _ => s
  | .append, s =>
    match s.merger with
    | .copied seg m pb sb raw =>
      match (s.fs.read seg).bind (fread headerSize (m.srows * rowWidth m.sh)) with
      | some body =>
        { s with fs := appendTo s.fs m.tmp body, merger := .appended seg m pb sb (raw ++ body) }
      | none => { s with fs := s.fs.unlink m.tmp, merger := .idle }
    | _ => s
  | .abandon, s =>
    match s.merger with
    | .scanning .. => { s with merger := .idle }
    | .found .. => { s with merger := .idle }
    | .copied _ m _ _ _ => { s with fs := s.fs.unlink m.tmp, merger := .idle }
    | .appended _ m _ _ _ => { s with fs := s.fs.unlink m.tmp, merger := .idle }
    | _ => s
  | .renameMerged, s =>
    match s.merger with
    | .appended seg m _ _ _ =>
      { s with fs := s.fs.rename m.tmp m.merged, merger := .renamed seg m }
    | _ => s
  | .unlinkBest, s =>
    match s.merger with
    | .renamed seg m =>
      { s with
        fs := if m.best.path ≠ m.merged then s.fs.unlink m.best.path else s.fs
        merger := .unlinked seg m }
    | _ => s
  | .unlinkSegment, s =>
    match s.merger with
    | .unlinked seg m =>
      { s with
        fs := if seg ≠ m.merged then s.fs.unlink seg else s.fs
        merger := .idle }
    | _ => s
  | .pushOpen p, s =>
    let (fs, i) := s.fs.create p []
    { s with fs := fs, uploads := i :: s.uploads }
  | .pushWrite i b, s => if i ∈ s.uploads then { s with fs := s.fs.write i b } else s
  | .pushDone _ i, s => { s with uploads := s.uploads.filter (· ≠ i) }

/-! ## What the recordings stand for -/

/-- The rows of the recordings under their names. -/
def archiveRows (fs : ArchiveFs) (p : Bytes) : Option (List Bytes) :=
  if isBewehist p then (fs.read p).bind (fileRows z) else none

/-- The originals that a merge has joined and is about to unlink. -/
def Race.leaving (s : Race) : List Bytes :=
  match s.merger with
  | .renamed seg m => [m.best.path, seg].filter (· ≠ m.merged)
  | .unlinked seg m => [seg].filter (· ≠ m.merged)
  | _ => []

/-- Whether a name leads to a file that is being uploaded. -/
def Race.uploading (s : Race) (p : Bytes) : Prop := ∃ i ∈ s.fs.find p, i ∈ s.uploads

instance (s : Race) (p : Bytes) : Decidable (s.uploading p) :=
  inferInstanceAs (Decidable (∃ i ∈ s.fs.find p, i ∈ s.uploads))

/-- The rows that a name stands for. -/
def Race.rowsAt (s : Race) (p : Bytes) : Option (List Bytes) :=
  if p ∈ s.leaving ∨ s.uploading p then none else archiveRows z s.fs p

/-- When an event finds what it relies on. The worker renames over the file that it opened, still of
the content that it compressed and completely uploaded, and its temporary file is its own. A merge
copies the predecessor that it found, without a torn row, appends the segment that it found, and
renames when both are still in place with the rows that it copied, its temporary file is its own,
and the joined name is free. An upload comes under a free name, and has it when it ends. -/
def Event.clear : Event → Race → Bool
  | .renameOver, s =>
    match s.worker with
    | .written path i src dst =>
      (s.fs.find path = some i ∧ s.fs.content i = src ∧ i ∉ s.uploads) ∧
        (s.fs.read (zstTmp path) = some dst ∧ ¬ s.uploading (zstTmp path)) ∧
        src.length < 2 ^ 38 ∧ ∀ h ∈ FileHeader.read src, h.fft_size < 2 ^ 25
    | _ => true
  | .scan seg, _ => isBewehist seg
  | .copy, s =>
    match s.merger with
    | .found _ m pb _ =>
      s.fs.read m.best.path = some pb ∧
        (m.best.h.version = FILE_VERSION_ZSTD ∨ rowWidth m.sh ∣ pb.length - headerSize)
    | _ => true
  | .append, s =>
    match s.merger with
    | .copied seg _ _ sb _ => s.fs.read seg = some sb
    | _ => true
  | .renameMerged, s =>
    match s.merger with
    | .appended seg m pb sb content =>
      (s.rowsAt z m.best.path = fileRows z pb ∧ s.rowsAt z seg = fileRows z sb) ∧
        (s.fs.read m.tmp = some content ∧ ¬ s.uploading m.tmp) ∧
        (m.merged = m.best.path ∨ m.merged = seg ∨ s.fs.find m.merged = none)
    | _ => true
  | .pushOpen p, s => s.fs.find p = none
  | .pushDone p i, s => i ∈ s.uploads → s.fs.find p = some i
  | _, _ => true

/-- The rows of the recording whose upload an event ends. -/
def Event.arrived : Event → Race → List (List Bytes)
  | .pushDone p i, s =>
    if i ∈ s.uploads ∧ isBewehist p then (fileRows z (s.fs.content i)).toList else []
  | _, _ => []

/-- The rows of the recordings whose uploads end in the course of events. -/
def arrivals : Race → List Event → List (List Bytes)
  | _, [] => []
  | s, e :: es => e.arrived z s ++ arrivals (e.apply z s) es

/-- The events, one after another. -/
def Race.after (s : Race) (es : List Event) : Race := es.foldl (fun s e => e.apply z s) s

/-- A directory in which nothing goes on. -/
def Race.start (fs : ArchiveFs) : Race := ⟨fs, [], .idle, .idle⟩

/-- The clear steps. -/
def ClearEvent (s : Race) (e : Event) (t : Race) : Prop := e.clear z s = true ∧ t = e.apply z s

end

/-! ## The recordings are left alone -/

/-- Two directories have the same recordings. -/
structure SameRecordings (fs fs' : ArchiveFs) : Prop where
  find : ∀ p, isBewehist p = true → fs'.find p = fs.find p
  read : ∀ p, isBewehist p = true → fs'.read p = fs.read p
  next : fs.next ≤ fs'.next

namespace SameRecordings

variable {fs fs' fs'' : ArchiveFs} {p : Bytes}

theorem refl (fs : ArchiveFs) : SameRecordings fs fs := ⟨fun _ _ => rfl, fun _ _ => rfl, le_rfl⟩

theorem trans (h : SameRecordings fs fs') (h' : SameRecordings fs' fs'') : SameRecordings fs fs'' :=
  ⟨fun p hp => (h'.find p hp).trans (h.find p hp), fun p hp => (h'.read p hp).trans (h.read p hp),
    h.next.trans h'.next⟩

/-- A name that is not that of a recording is not the name of a recording. -/
theorem ne_of_isBewehist (hp : isBewehist p = false) {q : Bytes} (hq : isBewehist q = true) :
    q ≠ p := by
  rintro rfl
  rw [hp] at hq
  cases hq

theorem unlink (fs : ArchiveFs) (hp : isBewehist p = false) : SameRecordings fs (fs.unlink p) where
  find q hq := by rw [Fs.find_unlink, if_neg (ne_of_isBewehist hp hq)]
  read q hq := by rw [Fs.read_unlink, if_neg (ne_of_isBewehist hp hq)]
  next := le_rfl

theorem create (fs : ArchiveFs) (hp : isBewehist p = false) (b : Bytes) :
    SameRecordings fs (fs.create p b).1 where
  find q hq := by rw [Fs.find_create, if_neg (ne_of_isBewehist hp hq)]
  read q hq := by rw [Fs.read_create, if_neg (ne_of_isBewehist hp hq)]
  next := fs.next_le_create p b

theorem appendTo (fs : ArchiveFs) (hp : isBewehist p = false) (b : Bytes) :
    SameRecordings fs (appendTo fs p b) := by
  unfold Archive.appendTo
  split
  · next o ho =>
    refine ⟨fun q _ => rfl, fun q hq => ?_, le_rfl⟩
    rw [Fs.read_write, if_neg]
    intro hqo
    exact ne_of_isBewehist hp hq (fs.inj q p o hqo ho)
  · exact create fs hp b

end SameRecordings

/-! ## One step -/

section

variable {z : Zstd}

/-- What a merge has found, whatever has happened to the files since. -/
def Joins (seg : Bytes) (m : Merge) (pb sb : Bytes) : Prop :=
  isBewehist seg = true ∧ ∃ fs, m.Found fs seg pb sb

/-- The compressed text is the compressed text. -/
def Worker.Ok (z : Zstd) : Worker → Prop
  | .idle => True
  | .packed _ _ src dst | .written _ _ src dst => ∃ level, compressHistFile z level src = some dst

/-- The raw copy and the joined text are those of what was found. -/
def Merger.Ok (z : Zstd) : Merger → Prop
  | .idle => True
  | .scanning seg dir sh srows sb best =>
    (isBewehist seg = true ∧ dirOf seg = some dir ∧ histReadHeader sb = some (sh, srows) ∧
      sh.version = FILE_VERSION) ∧ ∀ b ∈ best, Joins seg ⟨dir, sh, srows, b.1⟩ b.2 sb
  | .found seg m pb sb => Joins seg m pb sb
  | .copied seg m pb sb raw =>
    Joins seg m pb sb ∧ m.rawCopy z pb = some raw ∧
      (m.best.h.version = FILE_VERSION_ZSTD ∨ rowWidth m.sh ∣ pb.length - headerSize)
  | .appended seg m pb sb content =>
    Joins seg m pb sb ∧ ∃ rp rs, fileRows z pb = some rp ∧ fileRows z sb = some rs ∧
      fileRows z content = some (rp ++ rs)
  | .renamed seg m | .unlinked seg m => ∃ pb sb, Joins seg m pb sb

/-- What holds between the steps: the lists `B` are in the recordings, the files that are being
uploaded exist, the worker and the merge have what they say, and the originals about to be unlinked
are there. -/
structure Good (z : Zstd) (B : List (List Bytes)) (s : Race) : Prop where
  rows : Regroups B (s.rowsAt z)
  uploads_lt : ∀ i ∈ s.uploads, i < s.fs.next
  worker : s.worker.Ok z
  merger : s.merger.Ok z
  leaving : ∀ p ∈ s.leaving, s.fs.find p ≠ none ∧ ¬ s.uploading p

theorem isBewehist_leaving {s : Race} (h : s.merger.Ok z) {p : Bytes} (hp : p ∈ s.leaving) :
    isBewehist p = true := by
  unfold Race.leaving at hp
  split at hp
  · next seg m hm =>
    rw [hm] at h
    obtain ⟨pb, sb, hseg, fs, hfound⟩ := h
    simp only [List.mem_filter, List.mem_cons, List.not_mem_nil, or_false] at hp
    rcases hp.1 with rfl | rfl
    · exact hfound.isBewehist_best
    · exact hseg
  · next seg m hm =>
    rw [hm] at h
    obtain ⟨pb, sb, hseg, -⟩ := h
    simp only [List.mem_filter, List.mem_singleton] at hp
    rw [hp.1]
    exact hseg
  · simp at hp

/-- A name stands for the same rows if nothing about it has changed, what it reads apart while it is
being uploaded. -/
theorem rowsAt_congr {s t : Race} {p : Bytes} (hleaving : p ∈ t.leaving ↔ p ∈ s.leaving)
    (huploading : t.uploading p ↔ s.uploading p)
    (hread : ¬ s.uploading p → t.fs.read p = s.fs.read p) : t.rowsAt z p = s.rowsAt z p := by
  unfold Race.rowsAt archiveRows
  simp only [hleaving, huploading]
  by_cases hup : s.uploading p
  · rw [if_pos (.inr hup), if_pos (.inr hup)]
  · rw [hread hup]

/-- A name that is not that of a recording stands for nothing. -/
theorem rowsAt_of_not_bewehist {s : Race} {p : Bytes} (hp : isBewehist p = false) :
    s.rowsAt z p = none := by
  simp [Race.rowsAt, archiveRows, hp]

/-- A name that leads nowhere stands for nothing. -/
theorem rowsAt_of_find_eq_none {s : Race} {p : Bytes} (hp : s.fs.find p = none) :
    s.rowsAt z p = none := by
  simp [Race.rowsAt, archiveRows, Fs.read_eq_none_iff.mpr hp]

/-- A name that stands for rows leads to a recording that is not being uploaded. -/
theorem of_rowsAt_eq_some {s : Race} {p : Bytes} {rs : List Bytes} (h : s.rowsAt z p = some rs) :
    s.fs.find p ≠ none ∧ ¬ s.uploading p := by
  constructor
  · intro hf
    rw [rowsAt_of_find_eq_none hf] at h
    cases h
  · intro hup
    rw [Race.rowsAt, if_pos (.inr hup)] at h
    cases h

/-- What leaves the recordings alone. -/
theorem Good.of_same {B : List (List Bytes)} {s t : Race} (h : Good z B s)
    (hfs : SameRecordings s.fs t.fs) (hup : t.uploads = s.uploads) (hleaving : t.leaving = s.leaving)
    (hw : t.worker.Ok z) (hm : t.merger.Ok z) : Good z B t := by
  have huploading : ∀ p, isBewehist p = true → (t.uploading p ↔ s.uploading p) := fun p hp => by
    unfold Race.uploading
    rw [hfs.find p hp, hup]
  refine ⟨?_, ?_, hw, hm, ?_⟩
  · have hrows : t.rowsAt z = s.rowsAt z := by
      funext p
      cases hp : isBewehist p with
      | false => rw [rowsAt_of_not_bewehist hp, rowsAt_of_not_bewehist hp]
      | true => exact rowsAt_congr (by rw [hleaving]) (huploading p hp) fun _ => hfs.read p hp
    rw [hrows]
    exact h.rows
  · intro i hi
    rw [hup] at hi
    exact (h.uploads_lt i hi).trans_le hfs.next
  · intro p hp
    rw [hleaving] at hp
    have hbew := isBewehist_leaving h.merger hp
    rw [hfs.find p hbew, huploading p hbew]
    exact h.leaving p hp

variable {B : List (List Bytes)} {s : Race}

/-- A temporary file takes the name of a recording: that name leads to it and reads what it held,
and every other recording is as it was. -/
theorem of_rename_tmp {t : Race} {tmp name c : Bytes} (htmp : isBewehist tmp = false)
    (hread : s.fs.read tmp = some c) (hup : ¬ s.uploading tmp)
    (hfs : t.fs = s.fs.rename tmp name) (huploads : t.uploads = s.uploads) {p : Bytes}
    (hp : isBewehist p = true) :
    (t.fs.find p = none ↔ p ≠ name ∧ s.fs.find p = none) ∧
      (t.fs.read p = if p = name then some c else s.fs.read p) ∧
      (t.uploading p ↔ p ≠ name ∧ s.uploading p) := by
  obtain ⟨j, hj, -⟩ := Option.map_eq_some_iff.mp hread
  have hjn : j ∉ s.uploads := fun hmem => hup ⟨j, hj, hmem⟩
  have hne := SameRecordings.ne_of_isBewehist htmp hp
  have hfind : t.fs.find p = if p = name then some j else s.fs.find p := by
    rw [hfs, Fs.find_rename s.fs hj, if_neg hne]
  have hread' : t.fs.read p = if p = name then some c else s.fs.read p := by
    rw [hfs, Fs.read_rename s.fs (by rw [hj]; simp), hread, if_neg hne]
  refine ⟨?_, hread', ?_⟩
  · rw [hfind]
    split_ifs with hpn <;> simp [hpn]
  · unfold Race.uploading
    rw [hfind, huploads]
    split_ifs with hpn <;> simp [hpn, hjn]

/-- The worker renames over the file that it compressed: the rows are the same. -/
theorem Good.renameOver (hz : z.RoundTrips) (hb : z.Bounded) (h : Good z B s)
    (hc : Event.clear z .renameOver s = true) : Good z B (Event.apply z .renameOver s) := by
  unfold Event.clear at hc
  unfold Event.apply
  dsimp only at hc ⊢
  cases hworker : s.worker with
  | idle => exact h
  | packed => exact h
  | written path i src dst =>
    rw [hworker] at hc
    simp only [decide_eq_true_eq] at hc
    obtain ⟨⟨hfind, hsrc, hi⟩, ⟨htmp, hjup⟩, hsize, h25⟩ := hc
    have hok := h.worker
    rw [hworker] at hok
    obtain ⟨level, hcompress⟩ := hok
    obtain ⟨hh, -, -, hread, -⟩ := of_compressHistFile hcompress
    have hrows : fileRows z dst = fileRows z src :=
      fileRows_compress hz hb hread hsize (h25 _ hread) hcompress
    set t : Race := ⟨s.fs.rename (zstTmp path) path, s.uploads, .idle, s.merger⟩ with ht
    have hpath : s.fs.read path = some src := by rw [Fs.read, hfind, Option.map_some, hsrc]
    have hnot : ¬ s.uploading path := by simp [Race.uploading, hfind, hi]
    have hrec := fun p (hp : isBewehist p = true) =>
      of_rename_tmp (t := t) (isBewehist_zstTmp path) htmp hjup rfl rfl hp
    have hup : ∀ p, isBewehist p = true → (t.uploading p ↔ s.uploading p) := by
      intro p hp
      rw [(hrec p hp).2.2]
      exact ⟨And.right, fun hu => ⟨fun hpp => hnot (hpp ▸ hu), hu⟩⟩
    refine ⟨?_, ?_, trivial, h.merger, ?_⟩
    · have hsame : t.rowsAt z = s.rowsAt z := by
        funext p
        cases hp : isBewehist p with
        | false => rw [rowsAt_of_not_bewehist hp, rowsAt_of_not_bewehist hp]
        | true =>
          obtain ⟨-, hreadp, -⟩ := hrec p hp
          by_cases hpp : p = path
          · -- the compressed text in place of the raw one
            subst hpp
            unfold Race.rowsAt archiveRows
            simp only [hup p hp]
            rw [hreadp, if_pos rfl, hpath, Option.bind_some, Option.bind_some, hrows]
            rfl
          · refine rowsAt_congr Iff.rfl (hup p hp) fun _ => ?_
            rw [hreadp, if_neg hpp]
      rw [hsame]
      exact h.rows
    · intro k hk
      rw [Fs.next_rename]
      exact h.uploads_lt k hk
    · intro p hp
      have hbew := isBewehist_leaving h.merger hp
      obtain ⟨h1, h2⟩ := h.leaving p hp
      exact ⟨fun hf => h1 ((hrec p hbew).1.mp hf).2, fun hu => h2 ((hup p hbew).mp hu)⟩

/-- The joined file gets its name: it takes over the rows of both originals. -/
theorem Good.renameMerged (h : Good z B s) (hc : Event.clear z .renameMerged s = true) :
    Good z B (Event.apply z .renameMerged s) := by
  unfold Event.clear at hc
  unfold Event.apply
  dsimp only at hc ⊢
  cases hmerger : s.merger with
  | idle => exact h
  | scanning => exact h
  | found => exact h
  | copied => exact h
  | renamed => exact h
  | unlinked => exact h
  | appended seg m pb sb content =>
    rw [hmerger] at hc
    simp only [decide_eq_true_eq] at hc
    obtain ⟨⟨hbest, hsegr⟩, ⟨htmp, hjup⟩, hfree⟩ := hc
    have hok := h.merger
    rw [hmerger] at hok
    obtain ⟨hjoins, rp, rs, hrp, hrs, hcontent⟩ := hok
    obtain ⟨hseg, fs0, hfound⟩ := id hjoins
    rw [hrp] at hbest
    rw [hrs] at hsegr
    have hnil : s.leaving = [] := by rw [Race.leaving, hmerger]
    set t : Race := ⟨s.fs.rename m.tmp m.merged, s.uploads, s.worker, .renamed seg m⟩ with ht
    have hleaving : ∀ p, p ∈ t.leaving ↔ (p = m.best.path ∨ p = seg) ∧ p ≠ m.merged := by
      intro p
      simp [ht, Race.leaving]
    have hrec := fun p (hp : isBewehist p = true) =>
      of_rename_tmp (t := t) m.isBewehist_mergeTmp htmp hjup rfl rfl hp
    refine ⟨?_, ?_, h.worker, ⟨pb, sb, hjoins⟩, ?_⟩
    · have hfree' : m.merged = m.best.path ∨ m.merged = seg ∨ s.rowsAt z m.merged = none :=
        hfree.imp_right fun h' => h'.imp_right rowsAt_of_find_eq_none
      have hrows : t.rowsAt z = Function.update (Function.update (Function.update (s.rowsAt z)
          m.best.path none) seg none) m.merged (some (rp ++ rs)) := by
        funext p
        by_cases hpm : p = m.merged
        · subst hpm
          obtain ⟨-, hread, hup⟩ := hrec _ hfound.isBewehist_merged
          rw [Function.update_self, Race.rowsAt, if_neg, archiveRows,
            if_pos hfound.isBewehist_merged, hread, if_pos rfl, Option.bind_some, hcontent]
          exact not_or.mpr ⟨fun hl => ((hleaving _).mp hl).2 rfl, fun hu => (hup.mp hu).1 rfl⟩
        · rw [Function.update_of_ne hpm]
          by_cases hpo : p = m.best.path ∨ p = seg
          · rw [Race.rowsAt, if_pos (.inl ((hleaving p).mpr ⟨hpo, hpm⟩))]
            by_cases hps : p = seg
            · rw [hps, Function.update_self]
            · rw [Function.update_of_ne hps, hpo.resolve_right hps, Function.update_self]
          · obtain ⟨hpb, hps⟩ := not_or.mp hpo
            rw [Function.update_of_ne hps, Function.update_of_ne hpb]
            cases hp : isBewehist p with
            | false => rw [rowsAt_of_not_bewehist hp, rowsAt_of_not_bewehist hp]
            | true =>
              obtain ⟨-, hread, hup⟩ := hrec p hp
              refine rowsAt_congr ?_ ?_ fun _ => ?_
              · rw [hleaving, hnil]
                simp [hpo]
              · simp [hup, hpm]
              · rw [hread, if_neg hpm]
      rw [hrows]
      exact h.rows.join hbest hsegr hfound.best_ne hfree'
    · intro i hi
      rw [Fs.next_rename]
      exact h.uploads_lt i hi
    · intro p hp
      obtain ⟨hpo, hpm⟩ := (hleaving p).mp hp
      obtain ⟨hbew, rs', hrs'⟩ : isBewehist p = true ∧ ∃ rs', s.rowsAt z p = some rs' := by
        rcases hpo with rfl | rfl
        · exact ⟨hfound.isBewehist_best, rp, hbest⟩
        · exact ⟨hseg, rs, hsegr⟩
      obtain ⟨h1, h2⟩ := of_rowsAt_eq_some hrs'
      obtain ⟨hfind, -, hup⟩ := hrec p hbew
      exact ⟨fun hf => h1 (hfind.mp hf).2, fun hu => h2 (hup.mp hu).2⟩

/-- An original of a merge goes, if it does not have the joined name: its rows are in the joined
file. -/
theorem Good.unlinkOriginal {t : Race} (p merged : Bytes) (l : List Bytes) (h : Good z B s)
    (hpl : p ∉ l) (hs : s.leaving = (p :: l).filter (· ≠ merged))
    (ht : t.leaving = l.filter (· ≠ merged))
    (hfs : t.fs = if p ≠ merged then s.fs.unlink p else s.fs) (hup : t.uploads = s.uploads)
    (hw : t.worker = s.worker) (hm : t.merger.Ok z) : Good z B t := by
  by_cases hpm : p = merged
  · rw [if_neg (not_not.mpr hpm)] at hfs
    refine h.of_same (hfs ▸ SameRecordings.refl s.fs) hup ?_ (hw ▸ h.worker) hm
    rw [ht, hs, List.filter_cons_of_neg (by simp [hpm])]
  · rw [if_pos hpm] at hfs
    rw [List.filter_cons_of_pos (by simp [hpm])] at hs
    have hpt : p ∉ t.leaving := fun hp => hpl (List.mem_filter.mp (ht ▸ hp)).1
    have hleaving : ∀ q, q ≠ p → (q ∈ t.leaving ↔ q ∈ s.leaving) := by
      intro q hq
      rw [hs, ht, List.mem_cons, or_iff_right hq]
    have hfind : ∀ q, q ≠ p → t.fs.find q = s.fs.find q := fun q hq => by
      rw [hfs, Fs.find_unlink, if_neg hq]
    have hupq : ∀ q, q ≠ p → (t.uploading q ↔ s.uploading q) := fun q hq => by
      unfold Race.uploading
      rw [hfind q hq, hup]
    refine ⟨?_, ?_, hw ▸ h.worker, hm, ?_⟩
    · have hrows : t.rowsAt z = s.rowsAt z := by
        funext q
        by_cases hq : q = p
        · subst hq
          rw [rowsAt_of_find_eq_none (by rw [hfs, Fs.find_unlink, if_pos rfl]), Race.rowsAt,
            if_pos (.inl (by rw [hs]; exact List.mem_cons_self))]
        · refine rowsAt_congr (hleaving q hq) (hupq q hq) fun _ => ?_
          rw [hfs, Fs.read_unlink, if_neg hq]
      rw [hrows]
      exact h.rows
    · intro i hi
      rw [hup] at hi
      rw [hfs]
      exact h.uploads_lt i hi
    · intro q hq
      have hqp : q ≠ p := fun h' => hpt (h' ▸ hq)
      rw [hfind q hqp, hupq q hqp]
      exact h.leaving q ((hleaving q hqp).mp hq)

theorem Good.unlinkBest (h : Good z B s) : Good z B (Event.apply z .unlinkBest s) := by
  unfold Event.apply
  dsimp only
  cases hmerger : s.merger with
  | idle => exact h
  | scanning => exact h
  | found => exact h
  | copied => exact h
  | appended => exact h
  | unlinked => exact h
  | renamed seg m =>
    have hok := h.merger
    rw [hmerger] at hok
    obtain ⟨pb, sb, hseg, fs0, hfound⟩ := id hok
    refine h.unlinkOriginal m.best.path m.merged [seg] ?_ ?_ rfl rfl rfl rfl hok
    · simpa using hfound.best_ne
    · rw [Race.leaving, hmerger]

theorem Good.unlinkSegment (h : Good z B s) : Good z B (Event.apply z .unlinkSegment s) := by
  unfold Event.apply
  dsimp only
  cases hmerger : s.merger with
  | idle => exact h
  | scanning => exact h
  | found => exact h
  | copied => exact h
  | appended => exact h
  | renamed => exact h
  | unlinked seg m =>
    refine h.unlinkOriginal seg m.merged [] (by simp) ?_ rfl rfl rfl rfl trivial
    rw [Race.leaving, hmerger]

/-- An upload begins under a free name: it does not count yet. -/
theorem Good.pushOpen {p : Bytes} (h : Good z B s) (hc : Event.clear z (.pushOpen p) s = true) :
    Good z B (Event.apply z (.pushOpen p) s) := by
  have hfree : s.fs.find p = none := by simpa [Event.clear] using hc
  obtain ⟨hi, hnext⟩ := Fs.create_of_find_eq_none hfree ([] : Bytes)
  unfold Event.apply
  dsimp only
  rw [hi]
  set t : Race := ⟨(s.fs.create p []).1, s.fs.next :: s.uploads, s.worker, s.merger⟩ with ht
  have hfind : ∀ q, t.fs.find q = if q = p then some s.fs.next else s.fs.find q := fun q => by
    rw [Fs.find_create, hi]
  have hup : ∀ q, q ≠ p → (t.uploading q ↔ s.uploading q) := by
    intro q hq
    unfold Race.uploading
    rw [hfind q, if_neg hq]
    refine exists_congr fun i => and_congr_right fun hqi => ?_
    rw [ht, List.mem_cons, or_iff_right (s.fs.lt_next q i hqi).ne]
  refine ⟨?_, ?_, h.worker, h.merger, ?_⟩
  · have hrows : t.rowsAt z = s.rowsAt z := by
      funext q
      by_cases hq : q = p
      · subst hq
        have hupq : t.uploading q := ⟨s.fs.next, by rw [hfind q, if_pos rfl]; simp, by simp [ht]⟩
        rw [rowsAt_of_find_eq_none hfree, Race.rowsAt, if_pos (.inr hupq)]
      · refine rowsAt_congr Iff.rfl (hup q hq) fun _ => ?_
        rw [Fs.read_create, if_neg hq]
    rw [hrows]
    exact h.rows
  · intro i hmem
    rw [ht, hnext]
    rcases List.mem_cons.mp hmem with rfl | hmem
    · exact Nat.lt_succ_self _
    · exact (h.uploads_lt i hmem).trans (Nat.lt_succ_self _)
  · intro q hq
    obtain ⟨h1, h2⟩ := h.leaving q hq
    have hqp : q ≠ p := fun h' => h1 (h' ▸ hfree)
    rw [hfind q, if_neg hqp, hup q hqp]
    exact ⟨h1, h2⟩

/-- An upload writes to its file. -/
theorem Good.pushWrite {i : ℕ} {b : Bytes} (h : Good z B s) :
    Good z B (Event.apply z (.pushWrite i b) s) := by
  unfold Event.apply
  dsimp only
  by_cases hi : i ∈ s.uploads
  · rw [if_pos hi]
    refine ⟨?_, h.uploads_lt, h.worker, h.merger, h.leaving⟩
    have hrows : Race.rowsAt z ⟨s.fs.write i b, s.uploads, s.worker, s.merger⟩ = s.rowsAt z := by
      funext q
      refine rowsAt_congr Iff.rfl Iff.rfl fun hup => ?_
      rw [Fs.read_write, if_neg]
      exact fun hq => hup ⟨i, hq, hi⟩
    rw [hrows]
    exact h.rows
  · rw [if_neg hi]
    exact h

/-- An upload ends: its rows have arrived. -/
theorem Good.pushDone {p : Bytes} {i : ℕ} (h : Good z B s)
    (hc : Event.clear z (.pushDone p i) s = true) :
    Good z (B ++ Event.arrived z (.pushDone p i) s) (Event.apply z (.pushDone p i) s) := by
  have hclear : i ∈ s.uploads → s.fs.find p = some i := by
    unfold Event.clear at hc
    exact of_decide_eq_true hc
  unfold Event.apply Event.arrived
  dsimp only
  by_cases hi : i ∈ s.uploads
  · have hfind := hclear hi
    set t : Race := ⟨s.fs, s.uploads.filter (· ≠ i), s.worker, s.merger⟩ with ht
    have hps : s.uploading p := ⟨i, hfind, hi⟩
    have hpl : p ∉ s.leaving := fun hp => (h.leaving p hp).2 hps
    have hpt : ¬ t.uploading p := by
      rintro ⟨j, hj, hmem⟩
      obtain rfl := Option.some.inj (hfind.symm.trans hj)
      simp [ht] at hmem
    have hup : ∀ q, q ≠ p → (t.uploading q ↔ s.uploading q) := by
      intro q hq
      refine exists_congr fun j => and_congr_right fun hj => ?_
      have hji : j ≠ i := fun h' => hq (s.fs.inj q p i (h' ▸ hj) hfind)
      simp [ht, hji]
    have hnone : s.rowsAt z p = none := by rw [Race.rowsAt, if_pos (.inr hps)]
    have hrows : t.rowsAt z = Function.update (s.rowsAt z) p (archiveRows z s.fs p) := by
      funext q
      by_cases hq : q = p
      · subst hq
        rw [Function.update_self, Race.rowsAt, if_neg]
        exact not_or.mpr ⟨hpl, hpt⟩
      · rw [Function.update_of_ne hq]
        exact rowsAt_congr Iff.rfl (hup q hq) fun _ => rfl
    refine ⟨?_, fun j hj => h.uploads_lt j (List.mem_filter.mp hj).1, h.worker, h.merger, ?_⟩
    · have harch : archiveRows z s.fs p =
          if isBewehist p then fileRows z (s.fs.content i) else none := by
        rw [archiveRows, Fs.read, hfind, Option.map_some, Option.bind_some]
      rw [hrows, harch]
      simp only [hi, true_and]
      by_cases hp : isBewehist p = true
      · rw [if_pos hp, if_pos hp]
        cases hr : fileRows z (s.fs.content i) with
        | none =>
          rw [Option.toList_none, List.append_nil, ← hnone, Function.update_eq_self]
          exact h.rows
        | some rs => exact h.rows.arrive hnone rs
      · rw [if_neg hp, if_neg hp, List.append_nil, ← hnone, Function.update_eq_self]
        exact h.rows
    · intro q hq
      obtain ⟨h1, h2⟩ := h.leaving q hq
      have hqp : q ≠ p := fun h' => hpl (h' ▸ hq)
      exact ⟨h1, fun hu => h2 ((hup q hqp).mp hu)⟩
  · have hsame : s.uploads.filter (· ≠ i) = s.uploads :=
      List.filter_eq_self.mpr fun j hj => by
        have hji : j ≠ i := fun h' => hi (h' ▸ hj)
        simpa using hji
    simp only [hi, false_and, if_false, List.append_nil, hsame]
    exact h

/-- The worker reads, writes its temporary file, or gives up. -/
theorem Good.worker_event (h : Good z B s) {e : Event}
    (he : (∃ level path, e = .openRaw level path) ∨ e = .writeTmp ∨ e = .giveUp) :
    Good z B (e.apply z s) := by
  have hok := h.worker
  rcases he with ⟨level, path, rfl⟩ | rfl | rfl
  · unfold Event.apply
    dsimp only
    split
    · split
      · next dst hdst =>
        exact h.of_same (SameRecordings.refl s.fs) rfl rfl ⟨level, hdst⟩ h.merger
      · exact h
    · exact h
  · unfold Event.apply
    dsimp only
    split
    · next path i src dst hw =>
      rw [hw] at hok
      exact h.of_same (SameRecordings.create s.fs (isBewehist_zstTmp path) dst) rfl rfl hok h.merger
    · exact h
  · unfold Event.apply
    dsimp only
    split
    · exact h.of_same (SameRecordings.refl s.fs) rfl rfl trivial h.merger
    · next path _ _ _ _ =>
      exact h.of_same (SameRecordings.unlink s.fs (isBewehist_zstTmp path)) rfl rfl trivial h.merger
    · exact h

theorem Good.scan {seg : Bytes} (h : Good z B s) (hc : Event.clear z (.scan seg) s = true) :
    Good z B (Event.apply z (.scan seg) s) := by
  have hseg : isBewehist seg = true := hc
  unfold Event.apply
  dsimp only
  split
  · next sb dir hidle hsb hdir =>
    split
    · next sh srows hsh =>
      split_ifs with hv
      · refine h.of_same (SameRecordings.refl s.fs) rfl ?_ h.worker ⟨⟨hseg, hdir, hsh, hv⟩, by simp⟩
        simp only [Race.leaving, hidle]
      · exact h
    · exact h
  · exact h

/-- A merge looks at an entry of the directory. -/
theorem Good.visit {p : Bytes} (h : Good z B s) : Good z B (Event.apply z (.visit p) s) := by
  have hok := h.merger
  unfold Event.apply
  dsimp only
  split
  · next seg dir sh srows sb best hscanning =>
    rw [hscanning] at hok
    obtain ⟨⟨hseg, hdir, hsh, hv⟩, hbest⟩ := id hok
    split
    · next c pb hc hpb =>
      obtain ⟨n, hn, hcandidate⟩ := Option.bind_eq_some_iff.mp hc
      obtain ⟨rfl, hslash⟩ := entryIn_eq_some.mp hn
      obtain ⟨hf, hpath, hne, hp, pb', hpb', hh⟩ := candidate_eq_some.mp hcandidate
      obtain rfl : pb' = pb := by
        rw [hpath, hpb] at hpb'
        exact (Option.some.inj hpb').symm
      -- the two files side by side, as they were read
      have hfound : Merge.Found (s.fs.create seg sb).1 seg ⟨dir, sh, srows, c⟩ pb' sb :=
        ⟨hdir, by rw [Fs.read_create, if_pos rfl], hsh, hv,
          by rw [Fs.read_create, if_neg hne, hpb'], hh, hne, hp, n, hpath, hslash, hf⟩
      refine h.of_same (SameRecordings.refl s.fs) rfl ?_ h.worker ⟨⟨hseg, hdir, hsh, hv⟩, ?_⟩
      · simp only [Race.leaving, hscanning]
      · split_ifs
        · rintro b hb
          obtain rfl := Option.some.inj hb
          exact ⟨hseg, _, hfound⟩
        · exact hbest
    · exact h
  · exact h

/-- A merge has looked at every entry. -/
theorem Good.choose (h : Good z B s) : Good z B (Event.apply z .choose s) := by
  have hok := h.merger
  unfold Event.apply
  dsimp only
  split
  · next seg dir sh srows sb best hscanning =>
    rw [hscanning] at hok
    have hnil : s.leaving = [] := by rw [Race.leaving, hscanning]
    split
    · exact h.of_same (SameRecordings.refl s.fs) rfl hnil.symm h.worker (hok.2 _ rfl)
    · exact h.of_same (SameRecordings.refl s.fs) rfl hnil.symm h.worker trivial
  · exact h

theorem Good.copy (h : Good z B s) (hc : Event.clear z .copy s = true) :
    Good z B (Event.apply z .copy s) := by
  unfold Event.clear at hc
  unfold Event.apply
  dsimp only at hc ⊢
  cases hmerger : s.merger with
  | idle => exact h
  | scanning => exact h
  | copied => exact h
  | appended => exact h
  | renamed => exact h
  | unlinked => exact h
  | found seg m pb sb =>
    rw [hmerger] at hc
    simp only [decide_eq_true_eq] at hc
    obtain ⟨hread, hal⟩ := hc
    have hok := h.merger
    rw [hmerger] at hok
    obtain ⟨hseg, fs0, hfound⟩ := id hok
    have hnil : s.leaving = [] := by rw [Race.leaving, hmerger]
    have htmp := SameRecordings.unlink s.fs m.isBewehist_mergeTmp
    dsimp only
    rw [htmp.read _ hfound.isBewehist_best, hread, Option.bind_some]
    cases hraw : m.rawCopy z pb with
    | none =>
      exact h.of_same (htmp.trans (SameRecordings.unlink _ m.isBewehist_mergeTmp)) rfl hnil.symm
        h.worker trivial
    | some raw =>
      exact h.of_same (htmp.trans (SameRecordings.create _ m.isBewehist_mergeTmp raw)) rfl hnil.symm
        h.worker ⟨hok, hraw, hal⟩

theorem Good.append (h : Good z B s) (hc : Event.clear z .append s = true) :
    Good z B (Event.apply z .append s) := by
  unfold Event.clear at hc
  unfold Event.apply
  dsimp only at hc ⊢
  cases hmerger : s.merger with
  | idle => exact h
  | scanning => exact h
  | found => exact h
  | appended => exact h
  | renamed => exact h
  | unlinked => exact h
  | copied seg m pb sb raw =>
    rw [hmerger] at hc
    simp only [decide_eq_true_eq] at hc
    have hok := h.merger
    rw [hmerger] at hok
    obtain ⟨hjoins, hraw, hal⟩ := hok
    obtain ⟨hseg, fs0, hfound⟩ := id hjoins
    have hnil : s.leaving = [] := by rw [Race.leaving, hmerger]
    dsimp only
    rw [hc, Option.bind_some, hfound.fread_seg]
    exact h.of_same (SameRecordings.appendTo s.fs m.isBewehist_mergeTmp _) rfl hnil.symm h.worker
      ⟨hjoins, hfound.fileRows_joined hraw hal⟩

theorem Good.abandon (h : Good z B s) : Good z B (Event.apply z .abandon s) := by
  unfold Event.apply
  dsimp only
  cases hmerger : s.merger with
  | idle => exact h
  | renamed => exact h
  | unlinked => exact h
  | scanning =>
    refine h.of_same (SameRecordings.refl s.fs) rfl ?_ h.worker trivial
    simp only [Race.leaving, hmerger]
  | found =>
    refine h.of_same (SameRecordings.refl s.fs) rfl ?_ h.worker trivial
    simp only [Race.leaving, hmerger]
  | copied seg m =>
    refine h.of_same (SameRecordings.unlink s.fs m.isBewehist_mergeTmp) rfl ?_ h.worker trivial
    simp only [Race.leaving, hmerger]
  | appended seg m =>
    refine h.of_same (SameRecordings.unlink s.fs m.isBewehist_mergeTmp) rfl ?_ h.worker trivial
    simp only [Race.leaving, hmerger]

/-- A clear event keeps the rows that are there, and adds those that it brings. -/
theorem Good.step (hz : z.RoundTrips) (hb : z.Bounded) (h : Good z B s) {e : Event}
    (hc : e.clear z s = true) : Good z (B ++ e.arrived z s) (e.apply z s) := by
  have hnil : B ++ [] = B := List.append_nil B
  cases e with
  | openRaw level path => exact hnil.symm ▸ h.worker_event (.inl ⟨level, path, rfl⟩)
  | writeTmp => exact hnil.symm ▸ h.worker_event (.inr (.inl rfl))
  | giveUp => exact hnil.symm ▸ h.worker_event (.inr (.inr rfl))
  | renameOver => exact hnil.symm ▸ h.renameOver hz hb hc
  | scan seg => exact hnil.symm ▸ h.scan hc
  | visit p => exact hnil.symm ▸ h.visit
  | choose => exact hnil.symm ▸ h.choose
  | copy => exact hnil.symm ▸ h.copy hc
  | append => exact hnil.symm ▸ h.append hc
  | abandon => exact hnil.symm ▸ h.abandon
  | renameMerged => exact hnil.symm ▸ h.renameMerged hc
  | unlinkBest => exact hnil.symm ▸ h.unlinkBest
  | unlinkSegment => exact hnil.symm ▸ h.unlinkSegment
  | pushOpen p => exact hnil.symm ▸ h.pushOpen hc
  | pushWrite i b => exact hnil.symm ▸ h.pushWrite
  | pushDone p i => exact h.pushDone hc

end

/-! ## A run -/

section

variable {z : Zstd}

/-- Where nothing is being uploaded and no merge is between its rename and its end, the recordings
stand for what they hold. -/
theorem rowsAt_of_quiet {s : Race} (hm : s.merger = .idle) (hu : s.uploads = []) :
    s.rowsAt z = archiveRows z s.fs := by
  funext p
  have hleaving : p ∉ s.leaving := by simp [Race.leaving, hm]
  have huploading : ¬ s.uploading p := by simp [Race.uploading, hu]
  rw [Race.rowsAt, if_neg (not_or.mpr ⟨hleaving, huploading⟩)]

/-- A directory in which nothing goes on is as it should be. -/
theorem good_start (fs : ArchiveFs) :
    Good z (fs.names.filterMap (archiveRows z fs)) (Race.start fs) := by
  refine ⟨?_, by simp [Race.start], trivial, trivial, by simp [Race.start, Race.leaving]⟩
  have hquiet : (Race.start fs).rowsAt z = archiveRows z fs := rowsAt_of_quiet rfl rfl
  rw [hquiet]
  refine regroups_of_names (AList.keys_nodup fs.dir) fun p hp => Fs.mem_names.mpr fun hfind => hp ?_
  simp [archiveRows, Fs.read_eq_none_iff.mpr hfind]

/-- A run of clear events keeps the rows that are there, and adds those that arrive. -/
theorem Good.run (hz : z.RoundTrips) (hb : z.Bounded) {s t : Race} {es : List Event}
    (hrun : Run (ClearEvent z) s es t) {B : List (List Bytes)} (h : Good z B s) :
    Good z (B ++ arrivals z s es) t := by
  induction hrun generalizing B with
  | nil => rwa [arrivals, List.append_nil]
  | cons hstep _ ih =>
    obtain ⟨hc, rfl⟩ := hstep
    rw [arrivals, ← List.append_assoc]
    exact ih (h.step hz hb hc)

/-- In every order of clear events, the rows of each recording that was there and of each that has
arrived stay, all of them, in their order and in exactly one place; and when nothing is going on any
more these places are the recordings. -/
theorem regroups_of_run (hz : z.RoundTrips) (hb : z.Bounded) {fs : ArchiveFs} {es : List Event}
    {t : Race} (hrun : Run (ClearEvent z) (Race.start fs) es t) :
    Regroups (fs.names.filterMap (archiveRows z fs) ++ arrivals z (Race.start fs) es) (t.rowsAt z) ∧
      (t.merger = .idle → t.uploads = [] → t.rowsAt z = archiveRows z t.fs) :=
  ⟨((good_start fs).run hz hb hrun).rows, rowsAt_of_quiet⟩

end

/-! ## One operation after another -/

/-- The other operations of a merge. -/
def joinEvents : List Event := [.copy, .append, .renameMerged, .unlinkBest, .unlinkSegment]

/-! A recording, which a segment may follow, under the name that it keeps when it is joined. The
worker and a merge take turns. -/

/-- Events that are clear one after another are a run. -/
theorem run_of_clearRun {z : Zstd} {s : Race} {es : List Event}
    (h : follows (fun e s => e.clear z s) (fun e s => e.apply z s) s es = true) :
    Run (ClearEvent z) s es (s.after z es) :=
  run_of_follows _ (fun _ _ hstep => ⟨hstep, rfl⟩) es s h

/-- A recording of five rows, and other files. -/
def raceArchive (others : List (String × Bytes)) : ArchiveFs :=
  archiveOf (("h/a-0916.bewehist", recording 1000 [1, 2, 3, 4, 5, 6, 7, 8, 9, 10]) :: others)

/-- The worker compresses the recording while a segment is uploaded, and then they are joined. -/
def clearTurns : List Event :=
  [.openRaw 3 (ascii "h/a-0916.bewehist"), .pushOpen (ascii "h/b.bewehist"), .writeTmp,
    .pushWrite 1 (recording 1001 [11, 12]), .renameOver, .pushDone (ascii "h/b.bewehist") 1] ++
    [.scan (ascii "h/b.bewehist"), .visit (ascii "h/a-0916.bewehist"),
      .visit (ascii "h/b.bewehist"), .choose] ++ joinEvents

/-- These turns keep all rows. -/
theorem regroups_of_run_clearTurns :
    let fs := raceArchive []
    let t := (Race.start fs).after storedZstd clearTurns
    Regroups (fs.names.filterMap (archiveRows storedZstd fs) ++
        arrivals storedZstd (Race.start fs) clearTurns) (t.rowsAt storedZstd) ∧
      (t.merger = .idle → t.uploads = [] → t.rowsAt storedZstd = archiveRows storedZstd t.fs) :=
  regroups_of_run storedZstd_roundTrips storedZstd_bounded (run_of_clearRun (by decide +kernel))

/-- The worker has read the recording and written its temporary file when a merge joins the segment
to it; then the worker renames. -/
def lateTurns : List Event :=
  [.openRaw 3 (ascii "h/a-0916.bewehist"), .writeTmp] ++
    [.scan (ascii "h/b.bewehist"), .visit (ascii "h/a-0916.bewehist"),
      .visit (ascii "h/b.bewehist"), .choose] ++ joinEvents ++ [.renameOver]

/-- The joined file is replaced by the recording without the segment: the segment's row is
nowhere. -/
theorem not_regroups_lateTurns :
    let fs := raceArchive [("h/b.bewehist", recording 1001 [11, 12])]
    let t := (Race.start fs).after storedZstd lateTurns
    ¬ Regroups (fs.names.filterMap (archiveRows storedZstd fs) ++
        arrivals storedZstd (Race.start fs) lateTurns) (t.rowsAt storedZstd) := by
  intro fs t h
  have hin : [[11, 12]] ∈ fs.names.filterMap (archiveRows storedZstd fs) := by decide +kernel
  obtain ⟨n, c, hn, hc⟩ := h.infix (List.mem_append_left _ hin)
  have hlisted : n ∈ t.fs.names := Fs.mem_names.mpr (of_rowsAt_eq_some hn).1
  have hlost : ∀ n ∈ t.fs.names, ∀ c ∈ t.rowsAt storedZstd n, ¬ [[11, 12]] <:+: c := by
    decide +kernel
  exact hlost n hlisted c hn hc

end Bewe.Archive

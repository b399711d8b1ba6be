import Bewe.Hist.Codec
import Bewe.Lib.Fs

/-!
# Merging a recovery segment

`CentralServer::merge_hist_segment` of `central/central_mission_archive.cpp`: a raw segment that has
arrived is put behind the file that ends where it begins, under the name of the joined recording,
and both originals go. The archive is the files under their paths. What a directory lists comes in
the order of the file system; the operations that the code expects to fail are switches
(`MergeFaults`).

`mergeLossless_iff` says when a merge loses nothing: the predecessor is compressed or ends in a
whole row, and the joined name is free.
-/

namespace Bewe.Archive

open Lib Hist

/-- Files under their paths. -/
abbrev ArchiveFs := Fs Bytes Bytes

/-- A file that a segment may follow: its path, and what `hist_read_header` gave for it. -/
structure Predecessor where
  path : Bytes
  h : FileHeader
  rows : ℕ
  deriving DecidableEq

/-- Whether a directory entry is a finished recording: `.bewehist`, not hidden, not live. -/
def isFinished (n : Bytes) : Bool :=
  n.head? ≠ some 46 && isBewehist n && !contains liveTail n

/-- The seconds from the end of a file to the start of a segment. -/
def mergeGap (h : FileHeader) (rows : ℕ) (sh : FileHeader) : ℤ :=
  (sh.start_utc_unix : ℤ) - endUtc h rows

/-- Whether a file of `rows` rows ends where a segment starts, as far as the header says. -/
def precedes (h : FileHeader) (rows : ℕ) (sh : FileHeader) : Bool :=
  histGeomMatch h sh && h.start_utc_unix < sh.start_utc_unix &&
    -2 ≤ mergeGap h rows sh && mergeGap h rows sh ≤ 2

/-- The entry `n` of the segment's directory, if the segment may follow it. -/
def candidate (fs : ArchiveFs) (dir seg : Bytes) (sh : FileHeader) (n : Bytes) :
    Option Predecessor :=
  if isFinished n ∧ join dir n ≠ seg then
    match (fs.read (join dir n)).bind histReadHeader with
    | some (h, rows) => if precedes h rows sh then some ⟨join dir n, h, rows⟩ else none
    | none => none
  else none

/-- One turn of the `readdir` loop: the later start wins. -/
def betterOf (fs : ArchiveFs) (dir seg : Bytes) (sh : FileHeader) (best : Option Predecessor)
    (n : Bytes) : Option Predecessor :=
  match candidate fs dir seg sh n, best with
  | none, best => best
  | some c, none => some c
  | some c, some b => if b.h.start_utc_unix < c.h.start_utc_unix then some c else some b

/-- The `readdir` loop. -/
def bestPredecessor (fs : ArchiveFs) (dir seg : Bytes) (sh : FileHeader) : Option Predecessor :=
  (fs.names.filterMap (entryIn dir)).foldl (betterOf fs dir seg sh) none

/-- The file operations that the code expects to fail: listing the directory, making the raw copy,
appending the segment, and the rename. -/
structure MergeFaults where
  opendir : Bool
  copy : Bool
  append : Bool
  rename : Bool

/-- What a merge has found when it begins to write: the segment's directory, header and number of
rows, and the file it follows. -/
structure Merge where
  dir : Bytes
  sh : FileHeader
  srows : ℕ
  best : Predecessor

/-- The first half of `merge_hist_segment`. -/
def findMerge (f : MergeFaults) (fs : ArchiveFs) (seg : Bytes) : Option Merge :=
  match (fs.read seg).bind histReadHeader with
  | none => none
  | some (sh, srows) =>
    if sh.version ≠ FILE_VERSION then none
    else
      match dirOf seg with
      | none => none
      | some dir =>
        if f.opendir then none
        else (bestPredecessor fs dir seg sh).map fun best => ⟨dir, sh, srows, best⟩

namespace Merge

/-- `dir + "/.merge.tmp"`. -/
def tmp (m : Merge) : Bytes := join m.dir (ascii ".merge.tmp")

theorem isBewehist_mergeTmp (m : Merge) : isBewehist m.tmp = false := by
  have hsplit : m.tmp = join m.dir (ascii ".merge") ++ ascii ".tmp" := by
    rw [tmp, show ascii ".merge.tmp" = ascii ".merge" ++ ascii ".tmp" by decide]
    simp [join]
  rw [hsplit, isBewehist_tmp]

theorem ne_tmp (m : Merge) {p : Bytes} (hp : isBewehist p = true) : p ≠ m.tmp := by
  rintro rfl
  rw [m.isBewehist_mergeTmp] at hp
  cases hp

/-- The name of the joined recording: the end of the predecessor's name, from its last dash on,
becomes the joined end. -/
def mergedName (m : Merge) : Bytes :=
  let bbase := baseOf m.best.path
  match rfind (ascii "-") bbase with
  | some p2 =>
    if p2 + 5 ≤ bbase.length then
      bbase.take p2 ++ endTail (endUtc m.best.h (m.best.rows + m.srows))
    else bbase
  | none => bbase

/-- The path of the joined recording. -/
def merged (m : Merge) : Bytes := join m.dir m.mergedName

/-- The raw copy of the predecessor: decompressed, or copied as it is. -/
def rawCopy (z : Zstd) (m : Merge) (content : Bytes) : Option Bytes :=
  if m.best.h.version = FILE_VERSION_ZSTD then decompressHistFile z content else some content

end Merge

/-- `merge_hist_segment`. -/
def mergeHistSegment (z : Zstd) (f : MergeFaults) (fs : ArchiveFs) (seg : Bytes) : ArchiveFs :=
  match findMerge f fs seg with
  | none => fs
  | some m =>
    let fs := fs.unlink m.tmp
    match if f.copy then none else (fs.read m.best.path).bind (m.rawCopy z) with
    -- whatever the copy holds so far goes with its name
    | none => fs.unlink m.tmp
    | some raw =>
      let (fs, o) := fs.create m.tmp raw
      match if f.append then none
          else (fs.read seg).bind (fread headerSize (m.srows * rowWidth m.sh)) with
      | none => fs.unlink m.tmp
      | some body =>
        let fs := fs.write o (raw ++ body)
        if f.rename then fs.unlink m.tmp
        else
          let fs := fs.rename m.tmp m.merged
          let fs := if m.best.path ≠ m.merged then fs.unlink m.best.path else fs
          if seg ≠ m.merged then fs.unlink seg else fs

/-! ## What a merge has found -/

/-- What is known of a merge that was found: the two files and their headers, that the predecessor
is another finished file of the directory, and that the segment follows it. -/
structure Merge.Found (fs : ArchiveFs) (seg : Bytes) (m : Merge) (pb sb : Bytes) : Prop where
  dirOf : dirOf seg = some m.dir
  seg_read : fs.read seg = some sb
  seg_header : histReadHeader sb = some (m.sh, m.srows)
  seg_raw : m.sh.version = FILE_VERSION
  best_read : fs.read m.best.path = some pb
  best_header : histReadHeader pb = some (m.best.h, m.best.rows)
  best_ne : m.best.path ≠ seg
  best_precedes : precedes m.best.h m.best.rows m.sh = true
  best_entry : ∃ n, m.best.path = join m.dir n ∧ slash ∉ n ∧ isFinished n = true

theorem candidate_eq_some {fs : ArchiveFs} {dir seg n : Bytes} {sh : FileHeader} {b : Predecessor} :
    candidate fs dir seg sh n = some b ↔
      isFinished n = true ∧ b.path = join dir n ∧ b.path ≠ seg ∧ precedes b.h b.rows sh = true ∧
        ∃ pb, fs.read b.path = some pb ∧ histReadHeader pb = some (b.h, b.rows) := by
  unfold candidate
  constructor
  · intro hc
    split_ifs at hc with hn
    split at hc
    · next h rows hr =>
      split_ifs at hc with hp
      obtain rfl := Option.some.inj hc
      obtain ⟨pb, hpb, hh⟩ := Option.bind_eq_some_iff.mp hr
      exact ⟨hn.1, rfl, hn.2, hp, pb, hpb, hh⟩
    · cases hc
  · rintro ⟨hf, hpath, hne, hp, pb, hpb, hh⟩
    rw [hpath] at hne hpb
    rw [if_pos ⟨hf, hne⟩, hpb, Option.bind_some, hh]
    dsimp only
    rw [if_pos hp, ← hpath]

theorem bestPredecessor_mem {fs : ArchiveFs} {dir seg : Bytes} {sh : FileHeader} {b : Predecessor}
    (hb : bestPredecessor fs dir seg sh = some b) :
    ∃ n, slash ∉ n ∧ candidate fs dir seg sh n = some b := by
  have key : ∀ (l : List Bytes) (best : Option Predecessor),
      (∀ n ∈ l, slash ∉ n) → (∀ c, best = some c → ∃ n, slash ∉ n ∧
        candidate fs dir seg sh n = some c) →
      ∀ c, l.foldl (betterOf fs dir seg sh) best = some c → ∃ n, slash ∉ n ∧
        candidate fs dir seg sh n = some c := by
    intro l
    induction l with
    | nil => exact fun best _ h => h
    | cons n l ih =>
      intro best hl h
      refine ih _ (fun k hk => hl k (List.mem_cons_of_mem _ hk)) fun c hc => ?_
      -- the turn keeps the best so far or takes the entry
      unfold betterOf at hc
      split at hc
      · exact h c hc
      · next c' hc' => exact ⟨n, hl n (by simp), hc'.trans hc⟩
      · next c' b' hc' =>
        split_ifs at hc
        · exact ⟨n, hl n (by simp), hc'.trans hc⟩
        · exact h c hc
  refine key _ none (fun n hn => ?_) (by simp) b hb
  obtain ⟨path, -, hpath⟩ := List.mem_filterMap.mp hn
  exact (entryIn_eq_some.mp hpath).2

theorem findMerge_found {f : MergeFaults} {fs : ArchiveFs} {seg : Bytes} {m : Merge}
    (hm : findMerge f fs seg = some m) : ∃ pb sb, m.Found fs seg pb sb := by
  unfold findMerge at hm
  split at hm
  · cases hm
  · next sh srows hsh =>
    split_ifs at hm with hv hopen
    · split at hm <;> cases hm
    split at hm
    · cases hm
    · next dir hdir =>
      obtain ⟨best, hbest, rfl⟩ := Option.map_eq_some_iff.mp hm
      obtain ⟨sb, hsb, hsh⟩ := Option.bind_eq_some_iff.mp hsh
      obtain ⟨n, hn, hc⟩ := bestPredecessor_mem hbest
      obtain ⟨hf, hpath, hne, hp, pb, hpb, hh⟩ := candidate_eq_some.mp hc
      exact ⟨pb, sb, hdir, hsb, hsh, not_not.mp hv, hpb, hh, hne, hp, n, hpath, hn, hf⟩

theorem of_histReadHeader {b : Bytes} {h : FileHeader} {n : ℕ}
    (hr : histReadHeader b = some (h, n)) :
    FileHeader.read b = some h ∧ countRows h b.length = some n ∧ 0 < n := by
  unfold histReadHeader at hr
  split at hr
  · cases hr
  · next h' hh' =>
    split at hr
    · next k hk =>
      obtain ⟨rfl, rfl⟩ := Prod.mk.inj (Option.some.inj hr)
      exact ⟨hh', hk, Nat.succ_pos k⟩
    · cases hr

theorem rows_of_raw {b : Bytes} {h : FileHeader} {n : ℕ} (hr : histReadHeader b = some (h, n))
    (hv : h.version = FILE_VERSION) :
    0 < rowWidth h ∧ n = (b.length - headerSize) / rowWidth h := by
  obtain ⟨-, hc, -⟩ := of_histReadHeader hr
  rw [countRows, hv, if_neg (by decide), if_pos rfl] at hc
  split_ifs at hc with hw
  exact ⟨Nat.pos_of_ne_zero hw, (Option.some.inj hc).symm⟩

namespace Merge.Found

variable {fs : ArchiveFs} {seg : Bytes} {m : Merge} {pb sb : Bytes}

theorem isBewehist_best (hm : m.Found fs seg pb sb) : isBewehist m.best.path = true := by
  obtain ⟨n, hpath, -, hn⟩ := hm.best_entry
  simp only [isFinished, Bool.and_eq_true] at hn
  rw [hpath]
  exact isBewehist_join hn.1.2

theorem isBewehist_merged (hm : m.Found fs seg pb sb) : isBewehist m.merged = true := by
  obtain ⟨n, hpath, hslash, hn⟩ := hm.best_entry
  simp only [isFinished, Bool.and_eq_true] at hn
  refine isBewehist_join ?_
  have hend : ∀ a : Bytes, ∀ utc, isBewehist (a ++ endTail utc) = true := fun a utc =>
    isBewehist_iff.mpr ⟨_, by rw [endTail, ← List.append_assoc]⟩
  unfold Merge.mergedName
  rw [hpath, baseOf_join hslash]
  dsimp only
  split
  · split_ifs
    · exact hend _ _
    · exact hn.1.2
  · exact hn.1.2

theorem best_ne_tmp (hm : m.Found fs seg pb sb) : m.best.path ≠ m.tmp :=
  m.ne_tmp hm.isBewehist_best

theorem merged_ne_tmp (hm : m.Found fs seg pb sb) : m.merged ≠ m.tmp :=
  m.ne_tmp hm.isBewehist_merged

theorem fread_seg (hm : m.Found fs seg pb sb) :
    fread headerSize (m.srows * rowWidth m.sh) sb =
      some (rows (rowWidth m.sh) (sb.drop headerSize)).flatten := by
  obtain ⟨hw, hn⟩ := rows_of_raw hm.seg_header hm.seg_raw
  have hle : m.srows * rowWidth m.sh ≤ sb.length - headerSize := by
    rw [hn]
    exact Nat.div_mul_le_self _ _
  have hsize := (FileHeader.bytes_of_read (of_histReadHeader hm.seg_header).1).2.1
  rw [fread_eq_some (by omega), flatten_rows, List.length_drop, ← hn, slice]

end Merge.Found

/-! ## What a merge does -/

/-- The rows that a merge appends. -/
def Merge.body (m : Merge) (sb : Bytes) : Bytes :=
  (rows (rowWidth m.sh) (sb.drop headerSize)).flatten

/-- A merge that fails, in whichever operation or because the predecessor does not decompress,
changes no file other than the temporary one. -/
theorem read_merge_of_fault {z : Zstd} {f : MergeFaults} {fs : ArchiveFs} {seg : Bytes} {m : Merge}
    {pb sb : Bytes} (hm : findMerge f fs seg = some m) (hfound : m.Found fs seg pb sb)
    (hf : f.copy = true ∨ f.append = true ∨ f.rename = true ∨ m.rawCopy z pb = none) {q : Bytes}
    (hq : q ≠ m.tmp) : (mergeHistSegment z f fs seg).read q = fs.read q := by
  unfold mergeHistSegment
  rw [hm]
  dsimp only
  split
  · rw [Fs.read_unlink, if_neg hq, Fs.read_unlink, if_neg hq]
  · next raw hraw =>
    split
    · rw [Fs.read_unlink, if_neg hq, Fs.read_create, if_neg hq, Fs.read_unlink, if_neg hq]
    · next body hbody =>
      have hrename : f.rename = true := by
        rcases hf with h | h | h | h
        · simp [h] at hraw
        · simp [h] at hbody
        · exact h
        · rw [Fs.read_unlink, if_neg hfound.best_ne_tmp, hfound.best_read, Option.bind_some,
            h] at hraw
          simp at hraw
      rw [if_pos hrename, Fs.read_unlink, if_neg hq, Fs.read_write_create, if_neg hq,
        Fs.read_unlink, if_neg hq]

/-- A merge that succeeds: the joined name reads the raw copy and the segment's rows behind it, the
two originals are gone unless they have that name, and every other file is as it was. -/
theorem read_merge {z : Zstd} {f : MergeFaults} {fs : ArchiveFs} {seg : Bytes} {m : Merge}
    {pb sb raw : Bytes} (hm : findMerge f fs seg = some m) (hfound : m.Found fs seg pb sb)
    (hseg : isBewehist seg = true) (hcopy : f.copy = false) (happend : f.append = false)
    (hrename : f.rename = false) (hraw : m.rawCopy z pb = some raw) {q : Bytes} (hq : q ≠ m.tmp) :
    (mergeHistSegment z f fs seg).read q =
      if q = m.merged then some (raw ++ m.body sb)
      else if q = m.best.path ∨ q = seg then none
      else fs.read q := by
  have hbest : (fs.unlink m.tmp).read m.best.path = some pb := by
    rw [Fs.read_unlink, if_neg hfound.best_ne_tmp, hfound.best_read]
  have hsegr : ((fs.unlink m.tmp).create m.tmp raw).1.read seg = some sb := by
    rw [Fs.read_create, if_neg (m.ne_tmp hseg), Fs.read_unlink,
      if_neg (m.ne_tmp hseg), hfound.seg_read]
  unfold mergeHistSegment
  rw [hm]
  dsimp only
  rw [hcopy, if_neg Bool.false_ne_true, hbest, Option.bind_some, hraw]
  dsimp only
  rw [happend, if_neg Bool.false_ne_true, hsegr, Option.bind_some, hfound.fread_seg]
  dsimp only
  rw [hrename, if_neg Bool.false_ne_true]
  set fs1 := ((fs.unlink m.tmp).create m.tmp raw).1.write ((fs.unlink m.tmp).create m.tmp raw).2
    (raw ++ (rows (rowWidth m.sh) (sb.drop headerSize)).flatten) with hfs1
  have hread1 : ∀ k, fs1.read k = if k = m.tmp then some (raw ++ m.body sb) else
      (fs.unlink m.tmp).read k := fun k => Fs.read_write_create _ _ _ _ _
  have htmp : fs1.find m.tmp ≠ none := by
    rw [Ne, ← Fs.read_eq_none_iff, hread1, if_pos rfl]
    simp
  have hrenamed : ∀ k, k ≠ m.tmp → (fs1.rename m.tmp m.merged).read k =
      if k = m.merged then some (raw ++ m.body sb) else fs.read k := by
    intro k hk
    rw [Fs.read_rename fs1 htmp, hread1, if_pos rfl, if_neg hk, hread1, if_neg hk, Fs.read_unlink,
      if_neg hk]
  have hunlink : ∀ (g : ArchiveFs) (p : Bytes), (if p ≠ m.merged then g.unlink p else g).read q =
      if p ≠ m.merged ∧ q = p then none else g.read q := by
    intro g p
    by_cases hp : p ≠ m.merged
    · rw [if_pos hp, Fs.read_unlink]
      simp only [hp, ne_eq, not_false_eq_true, true_and]
    · rw [if_neg hp, if_neg fun h => hp h.1]
  rw [hunlink, hunlink, hrenamed q hq]
  by_cases hqm : q = m.merged
  · subst hqm
    rw [if_neg fun h => h.1 h.2.symm, if_neg fun h => h.1 h.2.symm, if_pos rfl, if_pos rfl]
  · have hp : ∀ p, (p ≠ m.merged ∧ q = p) ↔ q = p := fun p =>
      ⟨And.right, fun h => ⟨h ▸ hqm, h⟩⟩
    rw [if_neg hqm, if_neg hqm]
    simp only [hp]
    split_ifs <;> tauto

/-! ## Losing nothing -/

/-- The header of a file once it is raw. -/
def rawHeader (h : FileHeader) : FileHeader :=
  if h.version = FILE_VERSION_ZSTD then v3Header h else h

/-- The temporary file of the merges in a segment's directory. -/
def mergeTmp (seg : Bytes) : Option Bytes :=
  (dirOf seg).map fun dir => join dir (ascii ".merge.tmp")

/-- One predecessor `P` and the segment are replaced by one file, which has the predecessor's header
and the rows of both, every row of the one width; every other file is as it was. -/
structure Replaced (z : Zstd) (fs fs' : ArchiveFs) (seg P merged : Bytes) : Prop where
  ne : P ≠ seg
  joined : ∃ pb sb h n sh k rp rs,
    fs.read P = some pb ∧ histReadHeader pb = some (h, n) ∧ fileRows z pb = some rp ∧
    fs.read seg = some sb ∧ histReadHeader sb = some (sh, k) ∧ fileRows z sb = some rs ∧
    precedes h n sh = true ∧ (∀ r ∈ rp ++ rs, r.length = rowWidth sh) ∧
    fs'.read merged = some ((rawHeader h).bytes ++ (rp ++ rs).flatten)
  free : merged = P ∨ merged = seg ∨ fs.read merged = none
  gone : ∀ q, q = P ∨ q = seg → q ≠ merged → fs'.read q = none
  frame : ∀ q, q ≠ P → q ≠ seg → q ≠ merged → mergeTmp seg ≠ some q → fs'.read q = fs.read q

/-- What the arrival of a segment may do: nothing, the temporary file aside, or one replacement. -/
def MergeLossless (z : Zstd) (fs fs' : ArchiveFs) (seg : Bytes) : Prop :=
  (∀ q, mergeTmp seg ≠ some q → fs'.read q = fs.read q) ∨
    ∃ P merged, mergeTmp seg ≠ some merged ∧ Replaced z fs fs' seg P merged

/-- When a merge loses nothing: where it has a predecessor and nothing fails, the predecessor is
compressed or its body is whole rows, and the joined name is that of the one or the other original
or of no file. -/
def MergeSafe (z : Zstd) (f : MergeFaults) (fs : ArchiveFs) (seg : Bytes) : Prop :=
  ∀ m pb, findMerge f fs seg = some m → fs.read m.best.path = some pb →
    (f.copy = true ∨ f.append = true ∨ f.rename = true ∨ m.rawCopy z pb = none) ∨
      (m.best.h.version = FILE_VERSION_ZSTD ∨ rowWidth m.sh ∣ pb.length - headerSize) ∧
        (m.merged = m.best.path ∨ m.merged = seg ∨ fs.read m.merged = none)

namespace Merge.Found

variable {fs : ArchiveFs} {seg : Bytes} {m : Merge} {pb sb : Bytes}

theorem mergeTmp_eq (hm : m.Found fs seg pb sb) : mergeTmp seg = some m.tmp := by
  rw [mergeTmp, hm.dirOf, Option.map_some, Merge.tmp]

theorem mergeTmp_ne_iff (hm : m.Found fs seg pb sb) {q : Bytes} :
    mergeTmp seg ≠ some q ↔ q ≠ m.tmp := by
  rw [hm.mergeTmp_eq, Ne, Option.some.injEq, eq_comm]

theorem rowWidth_eq (hm : m.Found fs seg pb sb) : rowWidth m.best.h = rowWidth m.sh := by
  have hp := hm.best_precedes
  simp only [precedes, Bool.and_eq_true] at hp
  exact (rowWidth_of_match hp.1.1.1).2

theorem start_lt (hm : m.Found fs seg pb sb) : m.best.h.start_utc_unix < m.sh.start_utc_unix := by
  have hp := hm.best_precedes
  simp only [precedes, Bool.and_eq_true, decide_eq_true_eq] at hp
  exact hp.1.1.2

theorem version_cases (hm : m.Found fs seg pb sb) :
    m.best.h.version = FILE_VERSION_ZSTD ∨
      m.best.h.version ≠ FILE_VERSION_ZSTD ∧ m.best.h.version = FILE_VERSION := by
  obtain ⟨-, hc, -⟩ := of_histReadHeader hm.best_header
  unfold countRows at hc
  split_ifs at hc with h4 h3
  · exact .inl h4
  · exact .inr ⟨h4, h3⟩

theorem fileRows_seg (z : Zstd) (hm : m.Found fs seg pb sb) :
    fileRows z sb = some (rows (rowWidth m.sh) (sb.drop headerSize)) := by
  unfold fileRows rawRows
  rw [(of_histReadHeader hm.seg_header).1]
  dsimp only
  rw [hm.seg_raw, if_neg (by decide), if_pos rfl, Option.map_some]

theorem body_ne_nil (hm : m.Found fs seg pb sb) : m.body sb ≠ [] := by
  obtain ⟨hw, hn⟩ := rows_of_raw hm.seg_header hm.seg_raw
  obtain ⟨-, -, hpos⟩ := of_histReadHeader hm.seg_header
  have hlen : (m.body sb).length = m.srows * rowWidth m.sh := by
    rw [Merge.body, length_flatten_of_forall fun r hr => length_of_mem_rows hr, rows_length,
      List.length_drop, hn]
  have hlt : 0 < m.srows * rowWidth m.sh := Nat.mul_pos hpos hw
  rintro h
  rw [h] at hlen
  simp only [List.length_nil] at hlen
  omega

theorem fileRows_raw (z : Zstd) (hm : m.Found fs seg pb sb)
    (hv : m.best.h.version = FILE_VERSION) :
    fileRows z pb = some (rows (rowWidth m.sh) (pb.drop headerSize)) := by
  unfold fileRows rawRows
  rw [(of_histReadHeader hm.best_header).1]
  dsimp only
  rw [hv, if_neg (by decide), if_pos rfl, Option.map_some, hm.rowWidth_eq]

/-- The raw copy has the header of the predecessor, and behind it the rows if there is no torn
row. -/
theorem rawCopy_eq {z : Zstd} {raw : Bytes} (hm : m.Found fs seg pb sb)
    (hraw : m.rawCopy z pb = some raw) :
    (∃ body, raw = (rawHeader m.best.h).bytes ++ body ∧
      FileHeader.read raw = some (rawHeader m.best.h)) ∧
      (m.best.h.version = FILE_VERSION_ZSTD ∨ rowWidth m.sh ∣ pb.length - headerSize →
        ∃ rp, fileRows z pb = some rp ∧ (∀ r ∈ rp, r.length = rowWidth m.sh) ∧
          raw = (rawHeader m.best.h).bytes ++ rp.flatten) := by
  obtain ⟨hread, -, -⟩ := of_histReadHeader hm.best_header
  unfold Merge.rawCopy at hraw
  unfold rawHeader
  rcases hm.version_cases with hv | ⟨hv4, hv⟩
  · rw [if_pos hv] at hraw ⊢
    obtain ⟨h, body, hh, -, hw, hdvd, hdst, hrd⟩ := of_decompressHistFile hraw
    obtain rfl := Option.some.inj (hread.symm.trans hh)
    have hwidth : m.best.h.fft_size = rowWidth m.sh := by
      rw [← hm.rowWidth_eq, rowWidth, if_pos hw.ne']
    refine ⟨⟨body, hdst, hrd⟩, fun _ => ⟨rows (rowWidth m.sh) body, ?_,
      fun r hr => length_of_mem_rows hr, ?_⟩⟩
    · unfold fileRows
      rw [hread]
      dsimp only
      rw [if_pos hv, hraw, Option.bind_some, rawRows, hrd, Option.map_some, rowWidth_v3Header,
        hm.rowWidth_eq, hdst, ← (v3Header m.best.h).size, List.drop_left]
    · rw [hdst, flatten_rows_of_dvd (hwidth ▸ hdvd)]
  · rw [if_neg hv4] at hraw ⊢
    obtain rfl := Option.some.inj hraw
    obtain ⟨hbytes, hsize, -⟩ := FileHeader.bytes_of_read hread
    have hsplit : pb = m.best.h.bytes ++ pb.drop headerSize := by
      rw [hbytes, List.take_append_drop]
    refine ⟨⟨pb.drop headerSize, hsplit, hread⟩, fun hal => ?_⟩
    have hdvd : rowWidth m.sh ∣ (pb.drop headerSize).length := by
      rw [List.length_drop]
      exact hal.resolve_left hv4
    refine ⟨_, hm.fileRows_raw z hv, fun r hr => length_of_mem_rows hr, ?_⟩
    rw [flatten_rows_of_dvd hdvd]
    exact hsplit

theorem read_joined {z : Zstd} {raw : Bytes} (hm : m.Found fs seg pb sb)
    (hraw : m.rawCopy z pb = some raw) :
    FileHeader.read (raw ++ m.body sb) = some (rawHeader m.best.h) := by
  obtain ⟨⟨body, hsplit, hread⟩, -⟩ := hm.rawCopy_eq hraw
  rw [hsplit] at hread ⊢
  rw [List.append_assoc]
  exact FileHeader.read_append _ (FileHeader.magic_of_read hread) _

theorem fileRows_joined {z : Zstd} {raw : Bytes} (hm : m.Found fs seg pb sb)
    (hraw : m.rawCopy z pb = some raw)
    (hal : m.best.h.version = FILE_VERSION_ZSTD ∨ rowWidth m.sh ∣ pb.length - headerSize) :
    ∃ rp rs, fileRows z pb = some rp ∧ fileRows z sb = some rs ∧
      fileRows z (raw ++ m.body sb) = some (rp ++ rs) := by
  obtain ⟨-, hrows⟩ := hm.rawCopy_eq hraw
  obtain ⟨rp, hrp, hwidth, hsplit⟩ := hrows hal
  refine ⟨rp, _, hrp, hm.fileRows_seg z, ?_⟩
  obtain ⟨hversion, hw⟩ : (rawHeader m.best.h).version = FILE_VERSION ∧
      rowWidth (rawHeader m.best.h) = rowWidth m.sh := by
    unfold rawHeader
    rcases hm.version_cases with hv | ⟨hv4, hv⟩
    · rw [if_pos hv, rowWidth_v3Header]
      exact ⟨(fields_v3Header _).1, hm.rowWidth_eq⟩
    · rw [if_neg hv4]
      exact ⟨hv, hm.rowWidth_eq⟩
  have hbody : (raw ++ m.body sb).drop headerSize =
      (rp ++ rows (rowWidth m.sh) (sb.drop headerSize)).flatten := by
    rw [hsplit, List.append_assoc, List.drop_left' (rawHeader m.best.h).size, List.flatten_append,
      Merge.body]
  unfold fileRows rawRows
  rw [hm.read_joined hraw]
  dsimp only
  rw [hversion, if_neg (by decide), if_pos rfl, Option.map_some, hw, hbody,
    rows_flatten (rows_of_raw hm.seg_header hm.seg_raw).1]
  intro r hr
  rcases List.mem_append.mp hr with hr | hr
  · exact hwidth r hr
  · exact length_of_mem_rows hr

theorem joined_ne_seg {z : Zstd} {raw : Bytes} (hm : m.Found fs seg pb sb)
    (hraw : m.rawCopy z pb = some raw) : raw ++ m.body sb ≠ sb := by
  intro h
  have hread := hm.read_joined hraw
  rw [h, (of_histReadHeader hm.seg_header).1, Option.some.injEq] at hread
  have hstart : (rawHeader m.best.h).start_utc_unix = m.best.h.start_utc_unix := by
    unfold rawHeader
    split_ifs
    · exact (fields_v3Header _).2 38 8 (by omega) (by omega)
    · rfl
  have hlt := hm.start_lt
  rw [hread, hstart] at hlt
  omega

theorem joined_ne_best {z : Zstd} {raw : Bytes} (hm : m.Found fs seg pb sb)
    (hraw : m.rawCopy z pb = some raw) : raw ++ m.body sb ≠ pb := by
  intro h
  rcases hm.version_cases with hv | ⟨hv4, hv⟩
  · have hread := hm.read_joined hraw
    rw [h, (of_histReadHeader hm.best_header).1, Option.some.injEq, rawHeader, if_pos hv] at hread
    have hv3 := (fields_v3Header m.best.h).1
    rw [← hread, hv] at hv3
    exact absurd hv3 (by decide)
  · rw [Merge.rawCopy, if_neg hv4, Option.some.injEq] at hraw
    rw [← hraw] at h
    exact hm.body_ne_nil (List.append_right_eq_self.mp h)

theorem joined_ne_of_torn {z : Zstd} {raw : Bytes} {rp : List Bytes} (hm : m.Found fs seg pb sb)
    (hraw : m.rawCopy z pb = some raw)
    (htorn : ¬ (m.best.h.version = FILE_VERSION_ZSTD ∨ rowWidth m.sh ∣ pb.length - headerSize))
    (hrp : fileRows z pb = some rp) :
    raw ++ m.body sb ≠ (rawHeader m.best.h).bytes ++
      (rp ++ rows (rowWidth m.sh) (sb.drop headerSize)).flatten := by
  intro h
  obtain ⟨hv4, hdvd⟩ := not_or.mp htorn
  have hv := (hm.version_cases.resolve_left hv4).2
  rw [hm.fileRows_raw z hv, Option.some.injEq] at hrp
  rw [Merge.rawCopy, if_neg hv4, Option.some.injEq] at hraw
  obtain ⟨-, hsize, -⟩ := FileHeader.bytes_of_read (of_histReadHeader hm.best_header).1
  have hlen := congrArg List.length h
  rw [List.flatten_append, List.length_append, List.length_append, List.length_append,
    (rawHeader m.best.h).size, ← hrp, flatten_rows, List.length_take, List.length_drop, ← hraw,
    Merge.body, Nat.min_eq_left (Nat.div_mul_le_self _ _)] at hlen
  exact hdvd (Dvd.intro_left ((pb.length - headerSize) / rowWidth m.sh) (by omega))

end Merge.Found

section Success

variable {z : Zstd} {f : MergeFaults} {fs : ArchiveFs} {seg : Bytes} {m : Merge} {pb sb raw : Bytes}

theorem replaced_merge (hm : findMerge f fs seg = some m) (hfound : m.Found fs seg pb sb)
    (hseg : isBewehist seg = true) (hcopy : f.copy = false) (happend : f.append = false)
    (hrename : f.rename = false) (hraw : m.rawCopy z pb = some raw)
    (hal : m.best.h.version = FILE_VERSION_ZSTD ∨ rowWidth m.sh ∣ pb.length - headerSize)
    (hfree : m.merged = m.best.path ∨ m.merged = seg ∨ fs.read m.merged = none) :
    Replaced z fs (mergeHistSegment z f fs seg) seg m.best.path m.merged := by
  have hread := fun q => read_merge (q := q) hm hfound hseg hcopy happend hrename hraw
  obtain ⟨-, hrows⟩ := hfound.rawCopy_eq hraw
  obtain ⟨rp, hrp, hwidth, hsplit⟩ := hrows hal
  refine ⟨hfound.best_ne, ⟨pb, sb, m.best.h, m.best.rows, m.sh, m.srows, rp, _,
    hfound.best_read, hfound.best_header, hrp, hfound.seg_read, hfound.seg_header,
    hfound.fileRows_seg z, hfound.best_precedes, ?_, ?_⟩, hfree, ?_, ?_⟩
  · intro r hr
    rcases List.mem_append.mp hr with hr | hr
    · exact hwidth r hr
    · exact length_of_mem_rows hr
  · rw [hread _ hfound.merged_ne_tmp, if_pos rfl, hsplit, List.flatten_append, List.append_assoc,
      Merge.body]
  · rintro q hq hqm
    have hqt : q ≠ m.tmp := by
      rcases hq with rfl | rfl
      · exact hfound.best_ne_tmp
      · exact m.ne_tmp hseg
    rw [hread q hqt, if_neg hqm, if_pos hq]
  · intro q hqP hqS hqm hqt
    rw [hread q (hfound.mergeTmp_ne_iff.mp hqt), if_neg hqm, if_neg (by tauto)]

theorem read_merge_ne (hm : findMerge f fs seg = some m) (hfound : m.Found fs seg pb sb)
    (hseg : isBewehist seg = true) (hcopy : f.copy = false) (happend : f.append = false)
    (hrename : f.rename = false) (hraw : m.rawCopy z pb = some raw) :
    (mergeHistSegment z f fs seg).read seg ≠ fs.read seg := by
  -- the segment is gone, or replaced by a file that starts earlier
  rw [read_merge hm hfound hseg hcopy happend hrename hraw (m.ne_tmp hseg),
    hfound.seg_read]
  intro h
  split_ifs at h with h1 h2
  · exact hfound.joined_ne_seg hraw (Option.some.inj h)
  · exact h2 (.inr rfl)

/-- If a successful merge is a replacement at all, it is the one of the predecessor that was found
by the file under the joined name. -/
theorem eq_of_replaced {P merged : Bytes} (hm : findMerge f fs seg = some m)
    (hfound : m.Found fs seg pb sb) (hseg : isBewehist seg = true) (hcopy : f.copy = false)
    (happend : f.append = false) (hrename : f.rename = false) (hraw : m.rawCopy z pb = some raw)
    (hvis : mergeTmp seg ≠ some merged)
    (hrep : Replaced z fs (mergeHistSegment z f fs seg) seg P merged) :
    P = m.best.path ∧ merged = m.merged := by
  have hread := fun q => read_merge (q := q) hm hfound hseg hcopy happend hrename hraw
  have hP : P = m.best.path := by
    by_contra hne
    have hbm : m.best.path ≠ merged := by
      rintro rfl
      rcases hrep.free with h1 | h1 | h1
      · exact hne h1.symm
      · exact hfound.best_ne h1
      · rw [hfound.best_read] at h1
        cases h1
    -- the predecessor does not stay as it was
    have h1 := hrep.frame m.best.path (Ne.symm hne) hfound.best_ne hbm
      (hfound.mergeTmp_ne_iff.mpr hfound.best_ne_tmp)
    rw [hread _ hfound.best_ne_tmp, hfound.best_read] at h1
    split_ifs at h1 with h2 h3
    · exact hfound.joined_ne_best hraw (Option.some.inj h1)
    · exact h3 (.inl rfl)
  subst hP
  refine ⟨rfl, ?_⟩
  by_contra hne
  obtain ⟨_, _, _, _, _, _, _, _, -, -, -, -, -, -, -, -, hmb⟩ := hrep.joined
  rw [hread _ (hfound.mergeTmp_ne_iff.mp hvis), if_neg hne] at hmb
  split_ifs at hmb with h1
  rw [not_or] at h1
  rcases hrep.free with h2 | h2 | h2
  · exact h1.1 h2
  · exact h1.2 h2
  · rw [h2] at hmb
    cases hmb

end Success

theorem mergeSafe_of_lossless {z : Zstd} {f : MergeFaults} {fs : ArchiveFs} {seg : Bytes}
    (hseg : isBewehist seg = true)
    (hl : MergeLossless z fs (mergeHistSegment z f fs seg) seg) : MergeSafe z f fs seg := by
  intro m pb hm hpb
  obtain ⟨pb', sb, hfound⟩ := findMerge_found hm
  obtain rfl : pb' = pb := Option.some.inj (hfound.best_read.symm.trans hpb)
  refine or_iff_not_imp_left.mpr fun hok => ?_
  obtain ⟨hcopy, happend, hrename, hdec⟩ : f.copy = false ∧ f.append = false ∧
      f.rename = false ∧ m.rawCopy z pb' ≠ none := by
    simpa only [not_or, Bool.not_eq_true] using hok
  obtain ⟨raw, hraw⟩ := Option.ne_none_iff_exists'.mp hdec
  rcases hl with hsame | ⟨P, merged, hvis, hrep⟩
  · exact absurd (hsame seg (hfound.mergeTmp_ne_iff.mpr (m.ne_tmp hseg)))
      (read_merge_ne hm hfound hseg hcopy happend hrename hraw)
  · obtain ⟨rfl, rfl⟩ := eq_of_replaced hm hfound hseg hcopy happend hrename hraw hvis hrep
    refine ⟨?_, hrep.free⟩
    by_contra htorn
    obtain ⟨pb2, sb2, h, n, sh, k, rp, rs, hP, hPh, hrp, hS, hSh, hrs, -, -, hmb⟩ := hrep.joined
    obtain rfl : pb' = pb2 := Option.some.inj (hfound.best_read.symm.trans hP)
    obtain rfl : sb = sb2 := Option.some.inj (hfound.seg_read.symm.trans hS)
    obtain ⟨rfl, -⟩ := Prod.mk.inj (Option.some.inj (hfound.best_header.symm.trans hPh))
    obtain rfl := Option.some.inj ((hfound.fileRows_seg z).symm.trans hrs)
    rw [read_merge hm hfound hseg hcopy happend hrename hraw hfound.merged_ne_tmp, if_pos rfl,
      Option.some.injEq] at hmb
    exact hfound.joined_ne_of_torn hraw htorn hrp hmb

/-- A merge loses nothing exactly when there is nothing to join, something fails, or the predecessor
has no torn row and the joined name is free. -/
theorem mergeLossless_iff (z : Zstd) (f : MergeFaults) (fs : ArchiveFs) {seg : Bytes}
    (hseg : isBewehist seg = true) :
    MergeLossless z fs (mergeHistSegment z f fs seg) seg ↔ MergeSafe z f fs seg := by
  refine ⟨mergeSafe_of_lossless hseg, fun hsafe => ?_⟩
  cases hm : findMerge f fs seg with
  | none =>
    refine .inl fun q _ => ?_
    unfold mergeHistSegment
    rw [hm]
  | some m =>
    obtain ⟨pb, sb, hfound⟩ := findMerge_found hm
    by_cases hfault : f.copy = true ∨ f.append = true ∨ f.rename = true ∨ m.rawCopy z pb = none
    · exact .inl fun q hq =>
        read_merge_of_fault hm hfound hfault (hfound.mergeTmp_ne_iff.mp hq)
    · obtain ⟨hal, hfree⟩ := (hsafe m pb hm hfound.best_read).resolve_left hfault
      obtain ⟨hcopy, happend, hrename, hdec⟩ : f.copy = false ∧ f.append = false ∧
          f.rename = false ∧ m.rawCopy z pb ≠ none := by
        simpa only [not_or, Bool.not_eq_true] using hfault
      obtain ⟨raw, hraw⟩ := Option.ne_none_iff_exists'.mp hdec
      exact .inr ⟨m.best.path, m.merged, hfound.mergeTmp_ne_iff.mpr hfound.merged_ne_tmp,
        replaced_merge hm hfound hseg hcopy happend hrename hraw hal hfree⟩

/-! A recording of two bins at 5 rows per second, a segment that starts where it ends, and files
under the joined name. -/

/-- A raw file of two bins with a start and a body. -/
def recording (start : ℕ) (body : Bytes) : Bytes :=
  (liveHeader ⟨ascii "a-LIVE.bewehist", 2, 2, 2000000, 433900000, 0x40a00000, 0xc2f00000, 0, start, 0,
    9, ascii "A", 0, 0x40a00000⟩).bytes ++ body

/-- Files under paths. -/
def archiveOf (files : List (String × Bytes)) : ArchiveFs :=
  files.foldl (fun fs f => (fs.create (ascii f.1) f.2).1) (Fs.empty [])

/-- No operation fails. -/
def noFaults : MergeFaults := ⟨false, false, false, false⟩

/-- Five rows with something behind them, a segment of one row, and other files. -/
def segmentArrives (torn : Bytes) (others : List (String × Bytes)) : ArchiveFs :=
  archiveOf ([("h/a-0900.bewehist", recording 1000 ([1, 2, 3, 4, 5, 6, 7, 8, 9, 10] ++ torn)),
    ("h/b.bewehist", recording 1001 [11, 12])] ++ others)

/-- Without a torn row and another file of the joined name the merge loses nothing. -/
theorem mergeLossless_recording :
    MergeLossless storedZstd (segmentArrives [] [])
      (mergeHistSegment storedZstd noFaults (segmentArrives [] []) (ascii "h/b.bewehist"))
      (ascii "h/b.bewehist") := by
  have key : ∀ m ∈ findMerge noFaults (segmentArrives [] []) (ascii "h/b.bewehist"),
      ∀ pb ∈ (segmentArrives [] []).read m.best.path,
        rowWidth m.sh ∣ pb.length - headerSize ∧ (segmentArrives [] []).read m.merged = none := by
    decide +kernel
  refine (mergeLossless_iff storedZstd _ _ (by decide)).mpr fun m pb hm hpb => .inr ?_
  obtain ⟨hdvd, hfree⟩ := key m hm pb hpb
  exact ⟨.inr hdvd, .inr (.inr hfree)⟩

/-- Whether the merge of a segment meets a raw predecessor with a torn row, or another file of the
joined name. -/
def meetsTornOrTaken (fs : ArchiveFs) (seg : Bytes) : Bool :=
  (findMerge noFaults fs seg).any fun m => (fs.read m.best.path).any fun pb =>
    m.best.h.version ≠ FILE_VERSION_ZSTD &&
      (¬ rowWidth m.sh ∣ pb.length - headerSize ||
        m.merged ≠ m.best.path && m.merged ≠ seg && fs.read m.merged ≠ none)

theorem not_mergeLossless_of_meets (z : Zstd) {fs : ArchiveFs} {seg : Bytes}
    (hseg : isBewehist seg = true) (h : meetsTornOrTaken fs seg = true) :
    ¬ MergeLossless z fs (mergeHistSegment z noFaults fs seg) seg := by
  intro hl
  simp only [meetsTornOrTaken, Option.any_eq_true, Bool.and_eq_true, Bool.or_eq_true,
    decide_eq_true_eq] at h
  obtain ⟨m, hm, pb, hpb, hv, hbad⟩ := h
  have hsafe := mergeSafe_of_lossless hseg hl m pb hm hpb
  have hraw : m.rawCopy z pb ≠ none := by simp [Merge.rawCopy, hv]
  obtain ⟨hal, hfree⟩ := hsafe.resolve_left (by simp [noFaults, hraw])
  rcases hbad with hbad | ⟨⟨h1, h2⟩, h3⟩
  · exact hbad (hal.resolve_left hv)
  · tauto

/-- A byte of a torn row, or a later recording under the joined name: something is lost. -/
theorem not_mergeLossless_torn :
    (¬ MergeLossless storedZstd (segmentArrives [0] [])
      (mergeHistSegment storedZstd noFaults (segmentArrives [0] []) (ascii "h/b.bewehist"))
      (ascii "h/b.bewehist")) ∧
    ¬ MergeLossless storedZstd (segmentArrives [] [("h/a-0916.bewehist", recording 5000 [13, 14])])
      (mergeHistSegment storedZstd noFaults
        (segmentArrives [] [("h/a-0916.bewehist", recording 5000 [13, 14])]) (ascii "h/b.bewehist"))
      (ascii "h/b.bewehist") :=
  ⟨not_mergeLossless_of_meets storedZstd (by decide +kernel) (by decide +kernel),
    not_mergeLossless_of_meets storedZstd (by decide +kernel) (by decide +kernel)⟩

end Bewe.Archive

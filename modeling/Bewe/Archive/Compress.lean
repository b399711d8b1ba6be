import Bewe.Hist.Blocks
import Bewe.Archive.Merge

/-!
# Compressing a recording in place

`compress_hist_file` of `central/central_mission_archive.cpp` with its file operations: the
compressed file is written beside the recording and takes its name at the end. Each operation
succeeds or fails (`CompressIo`). The results of `fflush`, `fsync` and `fclose` are not looked at;
if one of them fails, the temporary file may hold anything when it takes the recording's name.

`keepsRecording_iff` says when the recording is never lost: a call that fails leaves it as it is,
and what a call that succeeds leaves decompresses to its header and its whole rows.
-/

namespace Bewe.Archive

open Lib Hist

/-- `path + ".zst.tmp"`. -/
def zstTmp (path : Bytes) : Bytes := path ++ ascii ".zst.tmp"

theorem isBewehist_zstTmp (path : Bytes) : isBewehist (zstTmp path) = false := by
  have hsplit : zstTmp path = (path ++ ascii ".zst") ++ ascii ".tmp" := by
    rw [zstTmp, show ascii ".zst.tmp" = ascii ".zst" ++ ascii ".tmp" by decide, List.append_assoc]
  rw [hsplit, isBewehist_tmp]

theorem zstTmp_ne (path : Bytes) : path ≠ zstTmp path := by
  intro h
  have hlen := congrArg List.length h
  have h8 : (ascii ".zst.tmp").length = 8 := by decide
  rw [zstTmp, List.length_append, h8] at hlen
  omega

/-- Which file operations succeed. -/
structure CompressIo where
  /-- Opening the recording, reading its header and seeking in it. -/
  open_in : Bool
  open_out : Bool
  /-- The first `fwrite` of the header. -/
  write_header : Bool
  /-- `fread` of the rows and `fwrite` of the frame of each block. -/
  read_rows : ℕ → Bool
  write_frame : ℕ → Bool
  write_index : Bool
  /-- `fflush` before the header is written again. -/
  flush_index : Bool
  seek : Bool
  write_again : Bool
  /-- `fflush`, `fsync` and `fclose` at the end. -/
  flush_header : Bool
  sync : Bool
  close : Bool
  rename : Bool

namespace CompressIo

/-- `ok` stays true for a number of blocks. -/
def ok (io : CompressIo) (num_blocks : ℕ) : Bool :=
  io.write_header && (List.range num_blocks).all (fun b => io.read_rows b && io.write_frame b) &&
    io.write_index && io.seek && io.write_again

/-- Every operation succeeds whose result is looked at. -/
def Checked (io : CompressIo) (num_blocks : ℕ) : Prop :=
  io.open_in = true ∧ io.open_out = true ∧ io.ok num_blocks = true ∧ io.rename = true

/-- Every operation succeeds whose result is not looked at. -/
def Flushed (io : CompressIo) : Prop :=
  io.flush_index = true ∧ io.flush_header = true ∧ io.sync = true ∧ io.close = true

instance (io : CompressIo) : Decidable io.Flushed := inferInstanceAs (Decidable (_ ∧ _ ∧ _ ∧ _))

end CompressIo

/-- The header of a raw recording that has a row. -/
def compressible (src : Bytes) : Option FileHeader :=
  (FileHeader.read src).filter fun h =>
    h.version = FILE_VERSION ∧ h.fft_size ≠ 0 ∧ numRows h src ≠ 0

/-- `compress_hist_file`: what it returns, and the files then. `left` is what the temporary file
holds if an operation fails whose result is not looked at. -/
def compressHist (z : Zstd) (level : ℕ) (io : CompressIo) (left : Bytes) (fs : ArchiveFs)
    (path : Bytes) : Bool × ArchiveFs :=
  match fs.read path with
  | none => (false, fs)
  | some src =>
    match if io.open_in then compressible src else none with
    | none => (false, fs)
    | some h =>
      if io.open_out = false then (false, fs)
      else
        let (fs, o) := fs.create (zstTmp path) []
        match if io.ok (numBlocks h src % 2 ^ 32) then compressHistFile z level src else none with
        | none => (false, fs.unlink (zstTmp path))
        | some dst =>
          let fs := fs.write o (if io.Flushed then dst else left)
          if io.rename then (true, fs.rename (zstTmp path) path)
          else (false, fs.unlink (zstTmp path))

/-- The recording `src` under a path is kept, whatever an operation that failed has left: if the
call fails, it is untouched, and if it succeeds, the file decompresses to the header, with its
reserved bytes zero, and the whole rows. -/
def KeepsRecording (z : Zstd) (level : ℕ) (io : CompressIo) (fs : ArchiveFs) (path src : Bytes)
    (h : FileHeader) : Prop :=
  ∀ left,
    ((compressHist z level io left fs path).1 = true →
      ∃ dst, (compressHist z level io left fs path).2.read path = some dst ∧
        decompressHistFile z dst =
          some ((v3Header h).bytes ++ (rows h.fft_size (src.drop headerSize)).flatten)) ∧
    ((compressHist z level io left fs path).1 = false →
      (compressHist z level io left fs path).2.read path = some src)

/-- Nothing is in the way that is looked at: the recording has a row, the operations whose results
are looked at succeed, and zstd compresses the blocks. -/
structure Goes (z : Zstd) (level : ℕ) (io : CompressIo) (src : Bytes) (h : FileHeader) : Prop where
  rows : numRows h src ≠ 0
  checked : io.Checked (numBlocks h src % 2 ^ 32)
  frames : ∀ b, b < numBlocks h src % 2 ^ 32 → ∃ c, blockFrame z level h src b = some c

theorem compressHist_goes {z : Zstd} {level : ℕ} {io : CompressIo} {fs : ArchiveFs}
    {path src : Bytes} {h : FileHeader} (hsrc : fs.read path = some src)
    (hh : FileHeader.read src = some h) (hver : h.version = FILE_VERSION) (hw : h.fft_size ≠ 0)
    (hgo : Goes z level io src h) : ∃ dst, compressHistFile z level src = some dst ∧
      ∀ left, (compressHist z level io left fs path).1 = true ∧
        (compressHist z level io left fs path).2.read path =
          some (if io.Flushed then dst else left) := by
  obtain ⟨hn, ⟨hin, hout, hok, hrename⟩, hframes⟩ := hgo
  obtain ⟨dst, hdst⟩ := (exists_compressHistFile z level hh hver hw hn).mpr hframes
  refine ⟨dst, hdst, fun left => ?_⟩
  have hhead : compressible src = some h := by
    rw [compressible, hh]
    exact Option.filter_eq_some_iff.mpr ⟨rfl, by simp [hver, hw, hn]⟩
  have hcreate : (fs.create (zstTmp path) []).1.find (zstTmp path) ≠ none := by
    rw [Fs.find_create, if_pos rfl]
    exact Option.some_ne_none _
  unfold compressHist
  rw [hsrc]
  dsimp only
  rw [if_pos hin, hhead]
  dsimp only
  rw [if_neg (by rw [hout]; decide), if_pos hok, hdst]
  dsimp only
  rw [if_pos hrename]
  refine ⟨rfl, ?_⟩
  rw [Fs.read_rename _ (by rw [Fs.find_write]; exact hcreate), if_pos rfl, Fs.read_write_create,
    if_pos rfl]

theorem compressHist_stays {z : Zstd} {level : ℕ} {io : CompressIo} {fs : ArchiveFs}
    {path src : Bytes} {h : FileHeader} (hsrc : fs.read path = some src)
    (hh : FileHeader.read src = some h) (hver : h.version = FILE_VERSION) (hw : h.fft_size ≠ 0)
    (hgo : ¬Goes z level io src h) (left : Bytes) :
    (compressHist z level io left fs path).1 = false ∧
      (compressHist z level io left fs path).2.read path = some src := by
  have hne := zstTmp_ne path
  unfold compressHist
  rw [hsrc]
  dsimp only
  cases hopen : (if io.open_in then compressible src else none) with
  | none => exact ⟨rfl, hsrc⟩
  | some h' =>
    have hin : io.open_in = true := by
      by_contra hin
      rw [if_neg hin] at hopen
      cases hopen
    rw [if_pos hin] at hopen
    obtain ⟨hh', hhead⟩ := Option.filter_eq_some_iff.mp hopen
    obtain rfl := Option.some.inj (hh.symm.trans hh')
    have hn : numRows h src ≠ 0 := (of_decide_eq_true hhead).2.2
    dsimp only
    by_cases hout : io.open_out = false
    · rw [if_pos hout]
      exact ⟨rfl, hsrc⟩
    rw [if_neg hout]
    cases hdst : (if io.ok (numBlocks h src % 2 ^ 32) then compressHistFile z level src
        else none) with
    | none =>
      refine ⟨rfl, ?_⟩
      rw [Fs.read_unlink, if_neg hne, Fs.read_create, if_neg hne, hsrc]
    | some dst =>
      have hok : io.ok (numBlocks h src % 2 ^ 32) = true := by
        by_contra hok
        rw [if_neg hok] at hdst
        cases hdst
      rw [if_pos hok] at hdst
      dsimp only
      by_cases hrename : io.rename = true
      · -- then nothing was in the way
        have hframes := (exists_compressHistFile z level hh hver hw hn).mp ⟨dst, hdst⟩
        exact absurd ⟨hn, ⟨hin, by simpa using hout, hok, hrename⟩, hframes⟩ hgo
      · rw [if_neg hrename]
        refine ⟨rfl, ?_⟩
        rw [Fs.read_unlink, if_neg hne, Fs.read_write_create, if_neg hne, hsrc]

theorem flushed_of_keeps {z : Zstd} {level : ℕ} {io : CompressIo} {fs : ArchiveFs}
    {path src : Bytes} {h : FileHeader} (hsrc : fs.read path = some src)
    (hh : FileHeader.read src = some h) (hver : h.version = FILE_VERSION) (hw : h.fft_size ≠ 0)
    (hkeep : KeepsRecording z level io fs path src h) (hgo : Goes z level io src h) :
    io.Flushed := by
  obtain ⟨dst, -, hrun⟩ := compressHist_goes hsrc hh hver hw hgo
  obtain ⟨hret, hread⟩ := hrun []
  obtain ⟨dst', hdst', hdec⟩ := (hkeep []).1 hret
  by_contra hfl
  -- an empty file is no recording
  rw [if_neg hfl, hdst'] at hread
  obtain rfl := Option.some.inj hread
  obtain ⟨v, body, hv, -⟩ := of_decompressHistFile hdec
  obtain ⟨-, hlen, -⟩ := FileHeader.bytes_of_read hv
  exact absurd hlen (by decide)

/-- A recording is kept exactly if, where nothing is in the way of its compressed file, what was
written reaches the file, and the number of blocks and the frames fit their fields. -/
theorem keepsRecording_iff {z : Zstd} (hz : z.RoundTrips) (hb : z.Bounded) (hwhole : z.Whole)
    {level : ℕ} {io : CompressIo} {fs : ArchiveFs} {path src : Bytes} {h : FileHeader}
    (hsrc : fs.read path = some src) (hh : FileHeader.read src = some h)
    (hver : h.version = FILE_VERSION) (hw : h.fft_size ≠ 0) (hsize : src.length < 2 ^ 63) :
    KeepsRecording z level io fs path src h ↔
      (Goes z level io src h → io.Flushed ∧ numBlocks h src < 2 ^ 32 ∧
        FramesFit z level h src (numRows h src)) := by
  obtain ⟨-, hlen, -⟩ := FileHeader.bytes_of_read hh
  by_cases hgo : Goes z level io src h
  · obtain ⟨dst, hdst, hrun⟩ := compressHist_goes hsrc hh hver hw hgo
    obtain ⟨v, index, hp⟩ := packed_of_compress hb hh hsize hdst
    have hiff := hp.decompress_iff hz hwhole hlen (Nat.pos_of_ne_zero hw) hgo.rows
    constructor
    · intro hkeep _
      have hfl := flushed_of_keeps hsrc hh hver hw hkeep hgo
      obtain ⟨hret, hread⟩ := hrun []
      obtain ⟨dst', hdst', hdec⟩ := (hkeep []).1 hret
      rw [if_pos hfl, hdst'] at hread
      obtain rfl := Option.some.inj hread
      exact ⟨hfl, hiff.mp hdec⟩
    · intro hcond left
      obtain ⟨hfl, hfit⟩ := hcond hgo
      obtain ⟨hret, hread⟩ := hrun left
      rw [if_pos hfl] at hread
      exact ⟨fun _ => ⟨dst, hread, hiff.mpr hfit⟩,
        fun hnot => absurd (hret.symm.trans hnot) (by decide)⟩
  · refine ⟨fun _ hgo' => absurd hgo' hgo, fun _ left => ?_⟩
    obtain ⟨hret, hread⟩ := compressHist_stays hsrc hh hver hw hgo left
    exact ⟨fun hyes => absurd (hret.symm.trans hyes) (by decide), fun _ => hread⟩

/-- Every operation succeeds, the last `fsync` perhaps not. -/
def syncing (sync : Bool) : CompressIo where
  open_in := true
  open_out := true
  write_header := true
  read_rows _ := true
  write_frame _ := true
  write_index := true
  flush_index := true
  seek := true
  write_again := true
  flush_header := true
  sync := sync
  close := true
  rename := true

/-- An archive with one recording. -/
def oneFile (path src : Bytes) : ArchiveFs := (Fs.create (Fs.empty []) path src).1

theorem read_oneFile (path src : Bytes) : (oneFile path src).read path = some src := by
  rw [oneFile, Fs.read_create, if_pos rfl]

/-- An archive with a recording of three rows and a torn one. -/
def tornArchive : ArchiveFs := oneFile (ascii "h/a.bewehist") tornRecording

theorem goes_torn (sync : Bool) :
    Goes framedZstd 3 (syncing sync) tornRecording (liveHeader (startOf 2)) := by
  obtain ⟨hh, hver, hw, hlen⟩ := tornRecording_header
  have hn : numRows (liveHeader (startOf 2)) tornRecording = 3 := by
    rw [numRows, hlen, hw]
    decide
  have hnb : numBlocks (liveHeader (startOf 2)) tornRecording = 1 := by
    rw [numBlocks, hn, hw]
    decide
  refine ⟨by rw [hn]; decide, ?_, fun b _ => framedZstd_blockFrame (by omega) b⟩
  rw [hnb]
  exact ⟨rfl, rfl, rfl, rfl⟩

/-- Where every operation succeeds, the recording is kept. -/
theorem keepsRecording_torn : KeepsRecording framedZstd 3 (syncing true) tornArchive
    (ascii "h/a.bewehist") tornRecording (liveHeader (startOf 2)) := by
  obtain ⟨hh, hver, hw, hlen⟩ := tornRecording_header
  have hn : numRows (liveHeader (startOf 2)) tornRecording = 3 := by
    rw [numRows, hlen, hw]
    decide
  have hsrc : tornArchive.read (ascii "h/a.bewehist") = some tornRecording := read_oneFile _ _
  refine (keepsRecording_iff framedZstd_roundTrips framedZstd_bounded framedZstd_whole hsrc hh hver
    (by rw [hw]; decide) (by omega)).mpr fun _ =>
      ⟨⟨rfl, rfl, rfl, rfl⟩, ?_, framesFit_framedZstd (by omega) _⟩
  rw [numBlocks, hn, hw]
  decide

/-- Where `fsync` fails, it may be lost. -/
theorem not_keepsRecording_torn : ¬KeepsRecording framedZstd 3 (syncing false) tornArchive
    (ascii "h/a.bewehist") tornRecording (liveHeader (startOf 2)) := by
  obtain ⟨hh, hver, hw, hlen⟩ := tornRecording_header
  intro hkeep
  have hsrc : tornArchive.read (ascii "h/a.bewehist") = some tornRecording := read_oneFile _ _
  have hfl := flushed_of_keeps hsrc hh hver (by rw [hw]; decide) hkeep (goes_torn false)
  exact absurd hfl.2.2.1 (by decide)

end Bewe.Archive

import Bewe.Hist.Codec

/-!
# The blocks of a compressed file

What a reader of a compressed file finds there, for raw files of any size (`Packed`): the header,
and for each block an index entry and the frame that zstd made of the block. The entries' `comp_len`
and the header's `num_blocks` have 32 bits, so they hold the length of a frame and the number of
blocks modulo `2^32`. A frame that is cut short decompresses to nothing (`Zstd.Whole`), as
`ZSTD_decompress` wants the exact size of its frames.

`Packed.decompress_iff` says when a compressed file gives the raw one back.
-/

namespace Bewe.Hist

open Lib

/-! ## Frames that are cut short -/

/-- A frame that is cut short is an error, or nothing if nothing is left of it. -/
def Zstd.Whole (z : Zstd) : Prop :=
  ∀ level b c k r, z.compress level b = some c → k < c.length → z.decompress (c.take k) = some r →
    r = []

/-- Frames that hold the bytes as they are, behind their number. -/
def framedZstd : Zstd where
  compress _ b := if b.length < 2 ^ 64 then some (leBytes 8 b.length ++ b) else none
  decompress c :=
    if c = [] then some []
    else if 8 ≤ c.length ∧ leNat (c.take 8) = c.length - 8 then some (c.drop 8) else none

theorem of_framedZstd_compress {level : ℕ} {b c : Bytes}
    (h : framedZstd.compress level b = some c) :
    b.length < 2 ^ 64 ∧ c = leBytes 8 b.length ++ b := by
  simp only [framedZstd] at h
  split_ifs at h with hlen
  exact ⟨hlen, (Option.some.inj h).symm⟩

theorem framedZstd_compress {level : ℕ} {b : Bytes} (h : b.length < 2 ^ 64) :
    framedZstd.compress level b = some (leBytes 8 b.length ++ b) := if_pos h

theorem framedZstd_length {b : Bytes} (h : b.length < 2 ^ 64) (k : ℕ) (hk : 8 ≤ k) :
    leNat (((leBytes 8 b.length ++ b).take k).take 8) = b.length := by
  have h8 : (leBytes 8 b.length).length = 8 := leBytes_length 8 _
  rw [List.take_take, Nat.min_eq_left hk, List.take_left' h8, leNat_leBytes (by omega)]

theorem framedZstd_roundTrips : framedZstd.RoundTrips := by
  intro level b c h
  obtain ⟨hlen, rfl⟩ := of_framedZstd_compress h
  have h8 : (leBytes 8 b.length).length = 8 := leBytes_length 8 _
  have hc : (leBytes 8 b.length ++ b).length = 8 + b.length := by rw [List.length_append, h8]
  have hne : leBytes 8 b.length ++ b ≠ [] := List.ne_nil_of_length_pos (by omega)
  have hnum := framedZstd_length hlen (8 + b.length) (by omega)
  rw [← hc, List.take_length] at hnum
  simp only [framedZstd]
  rw [if_neg hne, if_pos ⟨by omega, by rw [hnum]; omega⟩, List.drop_left' h8]

theorem framedZstd_bounded : framedZstd.Bounded := by
  intro level b c h
  obtain ⟨-, rfl⟩ := of_framedZstd_compress h
  rw [List.length_append, leBytes_length]
  omega

theorem framedZstd_whole : framedZstd.Whole := by
  intro level b c k r h hk hr
  obtain ⟨hlen, rfl⟩ := of_framedZstd_compress h
  have hc : (leBytes 8 b.length ++ b).length = 8 + b.length := by
    rw [List.length_append, leBytes_length]
  have htake : ((leBytes 8 b.length ++ b).take k).length = k := by
    rw [List.length_take]
    omega
  simp only [framedZstd] at hr
  split_ifs at hr with h0 hfull
  · exact (Option.some.inj hr).symm
  · -- eight bytes are left, and they tell that there should be more
    rw [framedZstd_length hlen k (by omega)] at hfull
    omega

/-! ## The blocks of a raw file -/

/-- `num_rows` of `compress_hist_file`, which drops a torn last row. -/
def numRows (h : FileHeader) (src : Bytes) : ℕ := (src.length - headerSize) / h.fft_size

/-- The number of blocks, before it is stored in 32 bits. -/
def numBlocks (h : FileHeader) (src : Bytes) : ℕ :=
  (numRows h src + histDefaultBlockRows h.fft_size - 1) / histDefaultBlockRows h.fft_size

/-- `rows_here` of a block. -/
def rowsHere (h : FileHeader) (src : Bytes) (b : ℕ) : ℕ :=
  min (histDefaultBlockRows h.fft_size) (numRows h src - b * histDefaultBlockRows h.fft_size)

/-- The rows of a block. -/
def blockRaw (h : FileHeader) (src : Bytes) (b : ℕ) : Bytes :=
  slice (headerSize + b * histDefaultBlockRows h.fft_size * h.fft_size)
    (rowsHere h src b * h.fft_size) src

/-- What zstd makes of the differences of a block. -/
def blockFrame (z : Zstd) (level : ℕ) (h : FileHeader) (src : Bytes) (b : ℕ) : Option Bytes :=
  z.compress level (deltaRows h.fft_size (blockRaw h src b))

/-- Every block that begins within the first `m` rows has a frame below 4 GiB. -/
def FramesFit (z : Zstd) (level : ℕ) (h : FileHeader) (src : Bytes) (m : ℕ) : Prop :=
  ∀ b c, b * histDefaultBlockRows h.fft_size < m → blockFrame z level h src b = some c →
    c.length < 2 ^ 32

theorem histDefaultBlockRows_range (w : ℕ) :
    64 ≤ histDefaultBlockRows w ∧ histDefaultBlockRows w ≤ 1024 := by
  unfold histDefaultBlockRows
  split_ifs <;> omega

theorem rows_le_length {h : FileHeader} {src : Bytes} (hsrc : headerSize ≤ src.length) {m : ℕ}
    (hm : m ≤ numRows h src) : headerSize + m * h.fft_size ≤ src.length := by
  have hle : m * h.fft_size ≤ numRows h src * h.fft_size := Nat.mul_le_mul_right _ hm
  have hdiv := Nat.div_mul_le_self (src.length - headerSize) h.fft_size
  rw [numRows] at hle
  omega

theorem blockRaw_length {h : FileHeader} {src : Bytes} (hsrc : headerSize ≤ src.length) (b : ℕ) :
    (blockRaw h src b).length = rowsHere h src b * h.fft_size := by
  rcases Nat.lt_or_ge (b * histDefaultBlockRows h.fft_size) (numRows h src) with hb | hb
  · refine slice_length ?_
    have hin : b * histDefaultBlockRows h.fft_size + rowsHere h src b ≤ numRows h src := by
      rw [rowsHere]
      omega
    calc headerSize + b * histDefaultBlockRows h.fft_size * h.fft_size +
          rowsHere h src b * h.fft_size
        = headerSize + (b * histDefaultBlockRows h.fft_size + rowsHere h src b) * h.fft_size := by
          ring
      _ ≤ src.length := rows_le_length hsrc hin
  · have h0 : rowsHere h src b = 0 := by
      rw [rowsHere]
      omega
    rw [blockRaw, h0, Nat.zero_mul]
    simp [slice]

/-- The blocks reach the last row, and a block is one of them if it begins before the last row. -/
theorem numBlocks_spec (h : FileHeader) (src : Bytes) :
    numRows h src ≤ numBlocks h src * histDefaultBlockRows h.fft_size ∧
      ∀ b, b < numBlocks h src ↔ b * histDefaultBlockRows h.fft_size < numRows h src := by
  obtain ⟨hbr, -⟩ := histDefaultBlockRows_range h.fft_size
  unfold numBlocks
  generalize histDefaultBlockRows h.fft_size = br at *
  generalize numRows h src = n at *
  refine ⟨?_, fun b => ?_⟩
  · have hrem := Nat.lt_div_mul_add (a := n + br - 1) (show 0 < br by omega)
    omega
  · rw [Nat.lt_iff_add_one_le, Nat.le_div_iff_mul_le (by omega), add_mul, one_mul]
    omega

/-- The rows within a block number of which only 32 bits are kept are in the blocks that are there:
the row count loses the same multiple of the rows of `2^32` blocks. -/
theorem block_lt_of_row_lt {h : FileHeader} {src : Bytes} (h0 : numBlocks h src % 2 ^ 32 ≠ 0)
    {b : ℕ} (hb : b * histDefaultBlockRows h.fft_size < numRows h src % 2 ^ 32) :
    b < numBlocks h src % 2 ^ 32 := by
  obtain ⟨hbr, -⟩ := histDefaultBlockRows_range h.fft_size
  obtain ⟨hn, hlast⟩ := numBlocks_spec h src
  have hlow : (numBlocks h src - 1) * histDefaultBlockRows h.fft_size < numRows h src :=
    (hlast _).mp (by omega)
  rw [Nat.sub_mul, one_mul] at hlow
  generalize histDefaultBlockRows h.fft_size = br at *
  generalize numRows h src = n at *
  generalize numBlocks h src = nb at *
  -- the blocks that are not kept are whole
  have hsplit : nb = 2 ^ 32 * (nb / 2 ^ 32) + nb % 2 ^ 32 := (Nat.div_add_mod nb (2 ^ 32)).symm
  have hmul : nb * br = 2 ^ 32 * (nb / 2 ^ 32 * br) + nb % 2 ^ 32 * br := by
    conv_lhs => rw [hsplit]
    ring
  have hone : br ≤ nb % 2 ^ 32 * br := Nat.le_mul_of_pos_left br (Nat.pos_of_ne_zero h0)
  obtain ⟨d, hd⟩ : ∃ d, n = 2 ^ 32 * (nb / 2 ^ 32 * br) + d := ⟨n - 2 ^ 32 * (nb / 2 ^ 32 * br),
    by omega⟩
  have hmod : n % 2 ^ 32 ≤ d := by
    rw [hd, Nat.mul_add_mod]
    exact Nat.mod_le _ _
  have hend : d ≤ nb % 2 ^ 32 * br := by omega
  exact Nat.lt_of_mul_lt_mul_right (lt_of_lt_of_le hb (hmod.trans hend))

/-! ## What the loop of `compress_hist_file` writes -/

/-- A block of a run that was encoded: its frame is where its entry says. -/
theorem block_of_encodeBlocks {z : Zstd} {level w br n : ℕ} {src : Bytes} {k b off : ℕ}
    {frames : Bytes} {index : List HistBlockIndex}
    (he : encodeBlocks z level w br n src k b off = some (frames, index)) {j : ℕ} (hj : j < k) :
    ∃ c o, z.compress level (deltaRows w (slice (headerSize + (b + j) * br * w)
        (min br (n - (b + j) * br) * w) src)) = some c ∧
      index[j]? = some ⟨off + o, c.length, min br (n - (b + j) * br)⟩ ∧
      slice o c.length frames = c ∧ o + c.length ≤ frames.length := by
  induction k generalizing b off frames index j with
  | zero => omega
  | succ k ih =>
    obtain ⟨raw, c, frames', index', hraw, hc, hrest, rfl, rfl⟩ := of_encodeBlocks_succ he
    cases j with
    | zero =>
      rw [(of_fread_eq_some hraw).1] at hc
      exact ⟨c, 0, hc, rfl, by rw [slice, List.drop_zero, List.take_left], by simp⟩
    | succ j =>
      obtain ⟨c', o, hc', hentry, hslice, hlen⟩ := ih hrest (by omega : j < k)
      rw [show b + 1 + j = b + (j + 1) by omega] at hc' hentry
      refine ⟨c', c.length + o, hc', ?_, ?_, ?_⟩
      · rw [List.getElem?_cons_succ, hentry, Nat.add_assoc]
      · rwa [slice, ← List.drop_drop, List.drop_left, ← slice]
      · rw [List.length_append]
        omega

/-- The frames of a run are hardly longer than its rows. -/
theorem frames_of_encodeBlocks {z : Zstd} (hz : z.Bounded) {level w br n : ℕ} (hw : 0 < w)
    {src : Bytes} {k b off : ℕ} {frames : Bytes} {index : List HistBlockIndex}
    (he : encodeBlocks z level w br n src k b off = some (frames, index)) :
    index.length = k ∧
      frames.length ≤ (n - b * br) * w + (n - b * br) * w / 256 + 64 * k := by
  induction k generalizing b off frames index with
  | zero =>
    obtain ⟨rfl, rfl⟩ : [] = frames ∧ [] = index := by simpa [encodeBlocks] using he
    simp
  | succ k ih =>
    obtain ⟨raw, c, frames', index', hraw, hc, hrest, rfl, rfl⟩ := of_encodeBlocks_succ he
    obtain ⟨hlen, hframes⟩ := ih hrest
    have hrawlen := (of_fread_eq_some hraw).2
    have hbound := hz _ _ _ hc
    rw [(sumRows_deltaRows hw (Dvd.intro_left _ hrawlen.symm)).2, hrawlen] at hbound
    have hrows : (n - b * br) * w = min br (n - b * br) * w + (n - (b + 1) * br) * w := by
      rw [← Nat.add_mul, add_mul b, one_mul]
      congr 1
      omega
    refine ⟨by rw [List.length_cons, hlen], ?_⟩
    rw [List.length_append, hrows]
    generalize min br (n - b * br) * w = x at *
    generalize (n - (b + 1) * br) * w = y at *
    omega

/-- A run is encoded if zstd compresses its blocks. -/
theorem exists_encodeBlocks {z : Zstd} {level w n : ℕ} (br : ℕ) {src : Bytes}
    (hsrc : headerSize + n * w ≤ src.length) {k b : ℕ} (off : ℕ)
    (hz : ∀ j, j < k → ∃ c, z.compress level (deltaRows w (slice (headerSize + (b + j) * br * w)
      (min br (n - (b + j) * br) * w) src)) = some c) :
    ∃ frames index, encodeBlocks z level w br n src k b off = some (frames, index) := by
  induction k generalizing b off with
  | zero => exact ⟨[], [], rfl⟩
  | succ k ih =>
    obtain ⟨raw, hraw⟩ : ∃ raw, fread (headerSize + b * br * w) (min br (n - b * br) * w) src =
        some raw := by
      rcases Nat.lt_or_ge (b * br) n with hb | hb
      · refine ⟨_, fread_eq_some ?_⟩
        have hin : b * br + min br (n - b * br) ≤ n := by omega
        have hmul := Nat.mul_le_mul_right w hin
        rw [add_mul] at hmul
        omega
      · have h0 : min br (n - b * br) * w = 0 := by
          rw [show n - b * br = 0 by omega, Nat.min_zero, Nat.zero_mul]
        exact ⟨_, by rw [h0, fread, if_pos (by simp [slice])]⟩
    obtain ⟨c, hc⟩ := hz 0 (by omega)
    rw [Nat.add_zero, ← (of_fread_eq_some hraw).1] at hc
    obtain ⟨frames, index, hrest⟩ := ih (b := b + 1) (off + c.length) fun j hj => by
      simpa only [Nat.add_assoc, Nat.add_comm 1 j] using hz (j + 1) (by omega)
    rw [encodeBlocks, hraw]
    dsimp only
    rw [hc]
    dsimp only
    rw [hrest]
    exact ⟨_, _, rfl⟩

/-- A raw file with a row is compressed exactly if zstd compresses its blocks. -/
theorem exists_compressHistFile (z : Zstd) (level : ℕ) {src : Bytes} {h : FileHeader}
    (hh : FileHeader.read src = some h) (hver : h.version = FILE_VERSION) (hw : h.fft_size ≠ 0)
    (hn : numRows h src ≠ 0) : (∃ dst, compressHistFile z level src = some dst) ↔
      ∀ b, b < numBlocks h src % 2 ^ 32 → ∃ c, blockFrame z level h src b = some c := by
  obtain ⟨-, hsrc, -⟩ := FileHeader.bytes_of_read hh
  constructor
  · rintro ⟨dst, hc⟩ b hb
    obtain ⟨h', frames, index, hh', -, -, -, he, -⟩ := of_compressHistFile hc
    obtain rfl := Option.some.inj (hh.symm.trans hh')
    obtain ⟨c, o, hframe, -⟩ := block_of_encodeBlocks he hb
    rw [Nat.zero_add] at hframe
    exact ⟨c, hframe⟩
  · intro hz
    obtain ⟨frames, index, he⟩ := exists_encodeBlocks (histDefaultBlockRows h.fft_size)
      (rows_le_length hsrc le_rfl) headerSize (k := numBlocks h src % 2 ^ 32) (b := 0)
      fun j hj => by
        rw [Nat.zero_add]
        exact hz j hj
    unfold numBlocks numRows at he
    unfold numRows at hn
    unfold compressHistFile
    rw [hh]
    dsimp only
    rw [if_neg (by simp [hver, hw]), if_neg hn, he]
    exact ⟨_, rfl⟩

/-- Deltas of a block are no longer than the block. -/
theorem deltaRows_length_le (w : ℕ) (raw : Bytes) : (deltaRows w raw).length ≤ raw.length := by
  have hlen : (deltaRows w raw).length = ((rows w raw).flatten).length := by
    rw [deltaRows, List.length_flatten, List.length_flatten, List.map_map]
    congr 1
    exact List.map_congr_left fun r _ => deltaFrom_length 0 r
  rw [hlen, flatten_rows, List.length_take]
  omega

/-! ## What a compressed file is read as -/

/-- The header and the index of a compressed file, against the raw file. -/
structure Packed (z : Zstd) (level : ℕ) (h : FileHeader) (src dst : Bytes) (v : FileHeader)
    (index : List HistBlockIndex) : Prop where
  read : FileHeader.read dst = some v
  version : v.version = FILE_VERSION_ZSTD
  codec : v.codec = HIST_CODEC_ZSTD
  flags : v.flags = HIST_V4_FLAG_COL_DELTA
  fft_size : v.fft_size = h.fft_size
  block_rows : v.block_rows = histDefaultBlockRows h.fft_size
  num_blocks : v.num_blocks = numBlocks h src % 2 ^ 32
  num_rows : v.num_rows = numRows h src
  header : v3Header v = v3Header h
  index_offset : headerSize ≤ v.index_offset
  index_end : v.index_offset + HistBlockIndex.size * v.num_blocks = dst.length
  size : dst.length < 2 ^ 64
  index_read : readIndex v.index_offset v.num_blocks dst = some index
  length : index.length = numBlocks h src % 2 ^ 32
  run : ∃ frames entries, encodeBlocks z level h.fft_size (histDefaultBlockRows h.fft_size)
    (numRows h src) src (numBlocks h src % 2 ^ 32) 0 headerSize = some (frames, entries) ∧
      dst = v.bytes ++ frames ++ indexBytes entries ∧ index = entries.map HistBlockIndex.wrap
  /-- Each block's entry has the number of its rows, and leads to its frame up to the length that
  32 bits hold. -/
  entry : ∀ b, b < numBlocks h src % 2 ^ 32 → ∃ c e, blockFrame z level h src b = some c ∧
    index[b]? = some e ∧ e.raw_rows = rowsHere h src b ∧
      fread e.frame_offset e.comp_len dst = some (c.take (c.length % 2 ^ 32))

/-- The magic of a compressed file's header. -/
theorem magic_v4Header (h : FileHeader) (br nb n io : ℕ) :
    slice 0 4 (v4Header h br nb n io).bytes = slice 0 4 h.bytes := by
  have hsize4 := (h.put 4 (leBytes 2 FILE_VERSION_ZSTD) (by decide)).size
  have hsize := h.size
  have h128 : headerSize = 128 := rfl
  simp only [v4Header, FileHeader.put] at hsize4 ⊢
  rw [slice_splice_of_le (by omega) (by omega), slice_splice_of_le (by omega) (by omega)]

theorem fread_of_slice {off len k : ℕ} {b c : Bytes} (hc : slice off len b = c) (hk : k ≤ len)
    (hle : off + len ≤ b.length) : fread off k b = some (c.take k) := by
  have htake : slice off k b = (slice off len b).take k := by
    rw [slice, slice, List.take_take, Nat.min_eq_left hk]
  rw [fread_eq_some (by omega), htake, hc]

/-- A compressed file, for a raw file of any size that a file can have. -/
theorem packed_of_compress {z : Zstd} (hb : z.Bounded) {level : ℕ} {src dst : Bytes}
    {h : FileHeader} (hh : FileHeader.read src = some h) (hsize : src.length < 2 ^ 63)
    (hc : compressHistFile z level src = some dst) :
    ∃ v index, Packed z level h src dst v index := by
  obtain ⟨h', frames, index, hh', -, hw, hn, he, rfl⟩ := of_compressHistFile hc
  obtain rfl := Option.some.inj (hh.symm.trans hh')
  obtain ⟨hbr64, hbr1024⟩ := histDefaultBlockRows_range h.fft_size
  obtain ⟨-, hsrc, -⟩ := FileHeader.bytes_of_read hh
  have hrows := rows_le_length (h := h) hsrc le_rfl
  have hnw : numRows h src ≤ numRows h src * h.fft_size := Nat.le_mul_of_pos_right _ hw
  obtain ⟨hlen, hframes⟩ := frames_of_encodeBlocks hb hw he
  rw [← numRows] at he hlen hframes ⊢
  rw [← numBlocks] at he hlen hframes ⊢
  have hnb32 : numBlocks h src % 2 ^ 32 < 2 ^ 32 := Nat.mod_lt _ (by decide)
  have h128 : headerSize = 128 := rfl
  have hframes64 : headerSize + frames.length + 2 ^ 36 < 2 ^ 64 := by
    rw [Nat.zero_mul, Nat.sub_zero] at hframes
    omega
  obtain ⟨hver, hcodec, hflags, hvbr, hvnb, hvn, hvio, hvw⟩ :=
    fields_v4Header h (histDefaultBlockRows h.fft_size) (numBlocks h src % 2 ^ 32) (numRows h src)
      (headerSize + frames.length) (by omega) hnb32 (by omega) (by omega)
  have hmagic := (magic_v4Header h (histDefaultBlockRows h.fft_size) (numBlocks h src % 2 ^ 32)
    (numRows h src) (headerSize + frames.length)).trans (FileHeader.magic_of_read hh)
  have hv3 := v3Header_v4Header h (histDefaultBlockRows h.fft_size) (numBlocks h src % 2 ^ 32)
    (numRows h src) (headerSize + frames.length)
  generalize v4Header h (histDefaultBlockRows h.fft_size) (numBlocks h src % 2 ^ 32)
    (numRows h src) (headerSize + frames.length) = v at *
  have hpre : (v.bytes ++ frames).length = headerSize + frames.length := by
    rw [List.length_append, v.size]
  refine ⟨v, index.map HistBlockIndex.wrap, ⟨?_, hver, hcodec, hflags, hvw, hvbr, hvnb, hvn, hv3,
    by omega, ?_, ?_, ?_, by rw [List.length_map, hlen], ⟨frames, index, he, rfl, rfl⟩, ?_⟩⟩
  · rw [List.append_assoc]
    exact FileHeader.read_append v hmagic _
  · rw [List.length_append, hpre, indexBytes_length, hvio, hvnb, hlen]
  · rw [List.length_append, hpre, indexBytes_length, HistBlockIndex.size]
    omega
  · rw [hvio, hvnb, ← hpre, ← hlen]
    exact readIndex_append_wrap _ _
  · intro b hb
    obtain ⟨c, o, hc, hentry, hslice, hle⟩ := block_of_encodeBlocks he hb
    rw [Nat.zero_add] at hc hentry
    have hmod : (headerSize + o) % 2 ^ 64 = v.bytes.length + o := by
      rw [Nat.mod_eq_of_lt (by omega), v.size]
    have hat : slice (v.bytes.length + o) c.length (v.bytes ++ frames ++ indexBytes index) = c := by
      rw [List.append_assoc, slice, ← List.drop_drop, List.drop_left,
        List.drop_append_of_le_length (by omega), List.take_append_of_le_length
          (by rw [List.length_drop]; omega)]
      exact hslice
    refine ⟨c, _, hc, by rw [List.getElem?_map, hentry]; rfl, ?_, ?_⟩
    · have hle : rowsHere h src b ≤ histDefaultBlockRows h.fft_size := min_le_left _ _
      exact Nat.mod_eq_of_lt (a := rowsHere h src b) (by omega)
    · change fread ((headerSize + o) % 2 ^ 64) (c.length % 2 ^ 32) _ = _
      rw [hmod]
      refine fread_of_slice hat (Nat.mod_le _ _) ?_
      rw [List.length_append, List.length_append]
      omega

/-! ## Decompression -/

/-- If the frames fit, `decompress_hist_file` gives the rows of the blocks that are there. -/
theorem Packed.decompress_of_fit {z : Zstd} (hz : z.RoundTrips) {level : ℕ} {h v : FileHeader}
    {src dst : Bytes} {index : List HistBlockIndex} (hp : Packed z level h src dst v index)
    (hw : 0 < h.fft_size) (hnb : numBlocks h src % 2 ^ 32 ≠ 0)
    (hfit : ∀ b c, b < numBlocks h src % 2 ^ 32 → blockFrame z level h src b = some c →
      c.length < 2 ^ 32) :
    decompressHistFile z dst = some ((v3Header h).bytes ++ slice headerSize
      (min (numBlocks h src % 2 ^ 32 * histDefaultBlockRows h.fft_size) (numRows h src) *
        h.fft_size) src) := by
  obtain ⟨hbr64, hbr1024⟩ := histDefaultBlockRows_range h.fft_size
  obtain ⟨frames, entries, he, hdstdef, hindex⟩ := hp.run
  have hlen : entries.length = numBlocks h src % 2 ^ 32 := by
    rw [← hp.length, hindex, List.length_map]
  have hid : index = entries := by
    rw [hindex]
    conv_rhs => rw [← List.map_id entries]
    refine List.map_congr_left fun e hmem => HistBlockIndex.wrap_of_fits ?_
    -- an entry of the run is that of some block
    obtain ⟨j, hj, hentry⟩ := List.getElem_of_mem hmem
    obtain ⟨c, o, hc, hentry', -, hle⟩ := block_of_encodeBlocks he (j := j) (by omega)
    rw [List.getElem?_eq_getElem hj, hentry, Nat.zero_add] at hentry'
    rw [Nat.zero_add] at hc
    obtain rfl := Option.some.inj hentry'
    have hc32 := hfit j c (by omega) hc
    have hdst := hp.size
    rw [hdstdef, List.length_append, List.length_append, v.size] at hdst
    exact ⟨by dsimp only; omega, hc32, by dsimp only; omega⟩
  have hblocks : decodeBlocks z v dst index = some (slice headerSize
      (min (numBlocks h src % 2 ^ 32 * histDefaultBlockRows h.fft_size) (numRows h src) *
        h.fft_size) src) := by
    rw [← hp.block_rows, ← hp.fft_size] at he
    rw [hid, hdstdef, decodeBlocks_encodeBlocks hz (by rw [hp.block_rows]; omega)
      (by rw [hp.fft_size]; exact hw) (by rw [hp.flags]; decide) he ?_ v.size, hp.fft_size,
      hp.block_rows, Nat.zero_mul, Nat.zero_mul, Nat.sub_zero, Nat.add_zero]
    intro i hi
    rw [Nat.zero_add, hp.block_rows]
    exact ((numBlocks_spec h src).2 i).mp (hi.trans_le (Nat.mod_le _ _))
  have hoff := hp.index_offset
  have h128 : headerSize = 128 := rfl
  unfold decompressHistFile
  rw [hp.read]
  dsimp only
  rw [if_neg (by rw [hp.version, hp.codec, hp.num_blocks, hp.block_rows, hp.fft_size]; omega),
    hp.index_read]
  dsimp only
  rw [hblocks, Option.map_some, hp.header]

theorem decodeBlock_of_decodeBlocks {z : Zstd} {v : FileHeader} {dst body : Bytes}
    {index : List HistBlockIndex} (hd : decodeBlocks z v dst index = some body)
    {e : HistBlockIndex} (he : e ∈ index) : ∃ raw, decodeBlock z v dst e = some raw := by
  induction index generalizing body with
  | nil => cases he
  | cons e' es ih =>
    rw [decodeBlocks] at hd
    split at hd
    · cases hd
    · next raw hraw =>
      obtain ⟨rest, hrest, -⟩ := Option.map_eq_some_iff.mp hd
      rcases List.mem_cons.mp he with rfl | he
      · exact ⟨raw, hraw⟩
      · exact ih hrest he

/-- If a file is decompressed, its blocks are there and their frames fit. -/
theorem Packed.fit_of_decompress {z : Zstd} (hwhole : z.Whole) {level : ℕ} {h v : FileHeader}
    {src dst out : Bytes} {index : List HistBlockIndex} (hp : Packed z level h src dst v index)
    (hw : 0 < h.fft_size) (hd : decompressHistFile z dst = some out) :
    numBlocks h src % 2 ^ 32 ≠ 0 ∧ ∀ b c, b < numBlocks h src % 2 ^ 32 →
      blockFrame z level h src b = some c → c.length < 2 ^ 32 := by
  unfold decompressHistFile at hd
  rw [hp.read] at hd
  dsimp only at hd
  split_ifs at hd with hext
  rw [hp.index_read] at hd
  obtain ⟨body, hbody, -⟩ := Option.map_eq_some_iff.mp hd
  refine ⟨fun h0 => hext (by rw [hp.num_blocks]; omega), fun b c hb hc => ?_⟩
  by_contra hbig
  obtain ⟨c', e, hc', he, hrows, hread⟩ := hp.entry b hb
  obtain rfl := Option.some.inj (hc.symm.trans hc')
  have hcut : c.length % 2 ^ 32 < c.length := by
    have := Nat.mod_lt c.length (show 0 < 2 ^ 32 by decide)
    omega
  obtain ⟨raw, hraw⟩ := decodeBlock_of_decodeBlocks hbody (List.mem_of_getElem? he)
  obtain ⟨⟨h0, -⟩, comp, raw', hcomp, hdec, hlen, -⟩ := decodeBlock_eq_some.mp hraw
  obtain rfl := Option.some.inj (hread.symm.trans hcomp)
  -- what is left of the frame is too short for the rows of the block
  obtain rfl := hwhole _ _ _ _ _ hc hcut hdec
  have hpos := Nat.mul_pos (Nat.pos_of_ne_zero h0) hw
  rw [hp.fft_size, List.length_nil] at hlen
  omega

/-- The whole rows of a raw file are as many bytes of it. -/
theorem flatten_rows_drop (h : FileHeader) (src : Bytes) :
    (rows h.fft_size (src.drop headerSize)).flatten =
      slice headerSize (numRows h src * h.fft_size) src := by
  rw [flatten_rows, List.length_drop, slice, numRows]

/-- If the number of blocks and every frame fit their fields, a compressed file decompresses to the
header, with its reserved bytes zero, and the whole rows. -/
theorem Packed.decompress_whole {z : Zstd} (hz : z.RoundTrips) {level : ℕ} {h v : FileHeader}
    {src dst : Bytes} {index : List HistBlockIndex} (hp : Packed z level h src dst v index)
    (hw : 0 < h.fft_size) (hn : numRows h src ≠ 0) (hnb : numBlocks h src < 2 ^ 32)
    (hfit : FramesFit z level h src (numRows h src)) :
    decompressHistFile z dst =
      some ((v3Header h).bytes ++ (rows h.fft_size (src.drop headerSize)).flatten) := by
  obtain ⟨hreach, hblock⟩ := numBlocks_spec h src
  have hmod := Nat.mod_eq_of_lt hnb
  have h0 : numBlocks h src ≠ 0 := by
    intro h0
    rw [h0, Nat.zero_mul] at hreach
    omega
  rw [hp.decompress_of_fit hz hw (by omega)
    (fun b c hb hc => hfit b c ((hblock b).mp (by omega)) hc), hmod, Nat.min_eq_right hreach,
    flatten_rows_drop]

theorem Packed.decompress_iff {z : Zstd} (hz : z.RoundTrips) (hwhole : z.Whole) {level : ℕ}
    {h v : FileHeader} {src dst : Bytes} {index : List HistBlockIndex}
    (hp : Packed z level h src dst v index) (hsrc : headerSize ≤ src.length) (hw : 0 < h.fft_size)
    (hn : numRows h src ≠ 0) :
    decompressHistFile z dst =
        some ((v3Header h).bytes ++ (rows h.fft_size (src.drop headerSize)).flatten) ↔
      numBlocks h src < 2 ^ 32 ∧ FramesFit z level h src (numRows h src) := by
  refine ⟨fun hd => ?_, fun ⟨hnb, hfit⟩ => hp.decompress_whole hz hw hn hnb hfit⟩
  obtain ⟨-, hblock⟩ := numBlocks_spec h src
  obtain ⟨hnb, hfit⟩ := hp.fit_of_decompress hwhole hw hd
  have hvalue := hp.decompress_of_fit hz hw hnb hfit
  have hout := List.append_cancel_left (Option.some.inj (hvalue.symm.trans hd))
  rw [flatten_rows_drop] at hout
  have hlen := congrArg List.length hout
  rw [slice_length (rows_le_length hsrc (min_le_right _ _)),
    slice_length (rows_le_length hsrc le_rfl)] at hlen
  have hmin := Nat.eq_of_mul_eq_mul_right hw hlen
  -- the blocks that are there reach the last row, so they are all
  have hall : numBlocks h src ≤ numBlocks h src % 2 ^ 32 := by
    by_contra hlt
    have := (hblock (numBlocks h src % 2 ^ 32)).mp (by omega)
    omega
  have hlt := Nat.mod_lt (numBlocks h src) (show 0 < 2 ^ 32 by decide)
  exact ⟨by omega, fun b c hb hc => hfit b c (((hblock b).mpr hb).trans_le hall) hc⟩

/-- What was compressed decompresses to the header, with its reserved bytes zero, and the whole
rows, for files below 2^38 bytes and rows below 2^25 bins. -/
theorem decompress_compress {z : Zstd} (hz : z.RoundTrips) (hb : z.Bounded) {level : ℕ}
    {src dst : Bytes} {h : FileHeader} (hh : FileHeader.read src = some h)
    (hsize : src.length < 2 ^ 38) (h25 : h.fft_size < 2 ^ 25)
    (hc : compressHistFile z level src = some dst) :
    decompressHistFile z dst =
      some ((v3Header h).bytes ++ (rows h.fft_size (src.drop headerSize)).flatten) := by
  obtain ⟨v, index, hp⟩ := packed_of_compress hb hh (by omega) hc
  obtain ⟨h', -, -, hh', -, hw, hn, -⟩ := of_compressHistFile hc
  obtain rfl := Option.some.inj (hh.symm.trans hh')
  obtain ⟨-, hsrc, -⟩ := FileHeader.bytes_of_read hh
  obtain ⟨hbr, -, hblock⟩ := histDefaultBlockRows_bounds hw h25
  refine hp.decompress_whole hz hw hn ?_ fun b c _ hframe => ?_
  · have hrows : numRows h src ≤ src.length - headerSize := Nat.div_le_self _ _
    have h128 : headerSize = 128 := rfl
    rw [numBlocks, Nat.div_lt_iff_lt_mul (by omega)]
    omega
  · have hle := hb _ _ _ hframe
    have hdelta := deltaRows_length_le h.fft_size (blockRaw h src b)
    have hraw : rowsHere h src b * h.fft_size ≤ histDefaultBlockRows h.fft_size * h.fft_size :=
      Nat.mul_le_mul_right _ (min_le_left _ _)
    rw [← blockRaw_length hsrc] at hraw
    omega

/-- The rows of what a compressed file decompresses to. -/
theorem rawRows_whole {src : Bytes} {h : FileHeader} (hh : FileHeader.read src = some h)
    (hw : 0 < h.fft_size) :
    rawRows ((v3Header h).bytes ++ (rows h.fft_size (src.drop headerSize)).flatten) =
      some (rows h.fft_size (src.drop headerSize)) := by
  have hwidth : rowWidth h = h.fft_size := by rw [rowWidth, if_pos hw.ne']
  have hread := FileHeader.read_append (v3Header h)
    ((magic_v3Header h).trans (FileHeader.magic_of_read hh))
    (rows h.fft_size (src.drop headerSize)).flatten
  have hsize := (v3Header h).size
  rw [rawRows, hread, Option.map_some, rowWidth_v3Header, hwidth, ← hsize, List.drop_left, hsize,
    rows_flatten hw fun r hr => length_of_mem_rows hr]

/-- Compression keeps the rows that a file stands for. -/
theorem fileRows_compress {z : Zstd} (hz : z.RoundTrips) (hb : z.Bounded) {level : ℕ}
    {src dst : Bytes} {h : FileHeader} (hh : FileHeader.read src = some h)
    (hsize : src.length < 2 ^ 38) (h25 : h.fft_size < 2 ^ 25)
    (hc : compressHistFile z level src = some dst) : fileRows z dst = fileRows z src := by
  have hd := decompress_compress hz hb hh hsize h25 hc
  obtain ⟨v, body, hv, hv4, -, -, -, hread⟩ := of_decompressHistFile hd
  obtain ⟨h', -, -, hh', hv3, hw, -, -, -⟩ := of_compressHistFile hc
  obtain rfl := Option.some.inj (hh.symm.trans hh')
  have hwidth : rowWidth h = h.fft_size := by rw [rowWidth, if_pos hw.ne']
  unfold fileRows
  rw [hv, hh]
  dsimp only
  rw [if_pos hv4, if_neg (by rw [hv3]; decide), if_pos hv3, hd, Option.bind_some,
    rawRows_whole hh hw, rawRows, hh, Option.map_some, hwidth]

/-! ## A recording of two bins -/

theorem framedZstd_blockFrame {level : ℕ} {h : FileHeader} {src : Bytes}
    (hsize : src.length < 2 ^ 64) (b : ℕ) : ∃ c, blockFrame framedZstd level h src b = some c := by
  have hle := deltaRows_length_le h.fft_size (blockRaw h src b)
  have hraw : (blockRaw h src b).length ≤ src.length := by
    rw [blockRaw, slice, List.length_take, List.length_drop]
    omega
  exact ⟨_, framedZstd_compress (by omega)⟩

/-- Frames that hold the bytes as they are fit for files below 4 GiB. -/
theorem framesFit_framedZstd {level : ℕ} {h : FileHeader} {src : Bytes}
    (hsize : src.length + 8 < 2 ^ 32) (m : ℕ) : FramesFit framedZstd level h src m := by
  intro b c _ hc
  obtain ⟨-, rfl⟩ := of_framedZstd_compress hc
  have hle := deltaRows_length_le h.fft_size (blockRaw h src b)
  have hraw : (blockRaw h src b).length ≤ src.length := by
    rw [blockRaw, slice, List.length_take, List.length_drop]
    omega
  rw [List.length_append, leBytes_length]
  omega

/-- The start of a recording with rows of a given width. -/
def startOf (fft_size : ℕ) : PktLwfLiveStart where
  filename := ascii "A_G27_Jul27.2026_433.9MHz_0100-LIVE.bewehist"
  fft_size := fft_size
  fft_input_size := fft_size
  sample_rate_hz := 2400000
  center_freq_hz := 433900000
  row_rate_hz := 0x40a00000
  db_min := 0xc2f00000
  db_max := 0
  start_utc_unix := 1785081600
  station_lon := 0
  utc_offset_hours := 9
  station_name := ascii "A"
  station_lat := 0
  fft_row_rate_hz := 0x40a00000

/-- A recording with rows of a given width. -/
def recordingOf (fft_size : ℕ) (body : Bytes) : Bytes :=
  (liveHeader (startOf fft_size)).bytes ++ body

/-- Three rows of two bins, and a torn one. -/
def tornRecording : Bytes := recordingOf 2 [3, 1, 4, 1, 5, 9, 2]

theorem tornRecording_header : FileHeader.read tornRecording = some (liveHeader (startOf 2)) ∧
    (liveHeader (startOf 2)).version = FILE_VERSION ∧ (liveHeader (startOf 2)).fft_size = 2 ∧
      tornRecording.length = 135 :=
  ⟨FileHeader.read_append _ (by decide) _, by decide, by decide,
    by decide +kernel⟩

end Bewe.Hist

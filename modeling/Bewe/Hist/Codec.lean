import Bewe.Hist.Format

/-!
# The compressed file

`compress_hist_file` and `decompress_hist_file` of `central/central_mission_archive.cpp`: the rows
of a version 3 file in blocks, each with the differences of neighbouring bins compressed by zstd,
and an index of the blocks behind them. zstd is a parameter of which only the round trip is used.
What each function leaves in its target file is its result, none where it gives up and keeps the
source.

`decodeBlocks_encodeBlocks` is the round trip of a run of blocks.
-/

namespace Bewe.Hist

open Lib

/-- `ZSTD_compress` at a level, and `ZSTD_decompress`; none for an error. -/
structure Zstd where
  compress : ℕ → Bytes → Option Bytes
  decompress : Bytes → Option Bytes

/-- What was compressed decompresses to what it was. -/
def Zstd.RoundTrips (z : Zstd) : Prop :=
  ∀ level b c, z.compress level b = some c → z.decompress c = some b

/-- A frame is not longer than `ZSTD_compressBound` of what it holds. -/
def Zstd.Bounded (z : Zstd) : Prop :=
  ∀ level b c, z.compress level b = some c → c.length ≤ b.length + b.length / 256 + 64

/-- Frames that hold the bytes as they are, as zstd has for what it cannot compress. -/
def storedZstd : Zstd := ⟨fun _ b => some b, some⟩

theorem storedZstd_roundTrips : storedZstd.RoundTrips := fun _ _ _ h => h.symm

theorem storedZstd_bounded : storedZstd.Bounded := by
  intro _ b c h
  rw [← Option.some.inj h]
  omega

/-- `fseeko` and `fread` of `len` bytes; none for a short read. -/
def fread (off len : ℕ) (b : Bytes) : Option Bytes :=
  if (slice off len b).length = len then some (slice off len b) else none

theorem fread_eq_some {off len : ℕ} {b : Bytes} (h : off + len ≤ b.length) :
    fread off len b = some (slice off len b) := by
  rw [fread, if_pos (slice_length h)]

theorem of_fread_eq_some {off len : ℕ} {b r : Bytes} (h : fread off len b = some r) :
    r = slice off len b ∧ r.length = len := by
  unfold fread at h
  split_ifs at h with hlen
  obtain rfl := Option.some.inj h
  exact ⟨rfl, hlen⟩

/-! ## Differences along a row -/

/-- `d[i] = x[i] - x[i-1]`, from a previous value on. -/
def deltaFrom : UInt8 → Bytes → Bytes
  | _, [] => []
  | prev, x :: xs => (x - prev) :: deltaFrom x xs

/-- Sums along a row, from an accumulator on. -/
def sumFrom : UInt8 → Bytes → Bytes
  | _, [] => []
  | acc, d :: ds => (acc + d) :: sumFrom (acc + d) ds

@[simp] theorem deltaFrom_length (prev : UInt8) (xs : Bytes) :
    (deltaFrom prev xs).length = xs.length := by
  induction xs generalizing prev with
  | nil => rfl
  | cons x xs ih => simp [deltaFrom, ih]

@[simp] theorem sumFrom_length (acc : UInt8) (ds : Bytes) : (sumFrom acc ds).length = ds.length := by
  induction ds generalizing acc with
  | nil => rfl
  | cons d ds ih => simp [sumFrom, ih]

theorem sumFrom_deltaFrom (prev : UInt8) (xs : Bytes) : sumFrom prev (deltaFrom prev xs) = xs := by
  induction xs generalizing prev with
  | nil => rfl
  | cons x xs ih =>
    have hx : prev + (x - prev) = x := by rw [UInt8.add_comm, UInt8.sub_add_cancel]
    rw [deltaFrom, sumFrom, hx, ih]

/-- The differences of every row of a block. -/
def deltaRows (w : ℕ) (raw : Bytes) : Bytes := ((rows w raw).map (deltaFrom 0)).flatten

/-- The sums of every row of a block. -/
def sumRows (w : ℕ) (raw : Bytes) : Bytes := ((rows w raw).map (sumFrom 0)).flatten

theorem sumRows_deltaRows {w : ℕ} (hw : 0 < w) {raw : Bytes} (h : w ∣ raw.length) :
    sumRows w (deltaRows w raw) = raw ∧ (deltaRows w raw).length = raw.length := by
  have hrows : ∀ r ∈ (rows w raw).map (deltaFrom 0), r.length = w := by
    intro r hr
    obtain ⟨x, hx, rfl⟩ := List.mem_map.mp hr
    rw [deltaFrom_length, length_of_mem_rows hx]
  have hdelta : rows w (deltaRows w raw) = (rows w raw).map (deltaFrom 0) := rows_flatten hw hrows
  refine ⟨?_, ?_⟩
  · rw [sumRows, hdelta, List.map_map]
    have hid : sumFrom 0 ∘ deltaFrom 0 = id := funext fun r => sumFrom_deltaFrom 0 r
    rw [hid, List.map_id, flatten_rows_of_dvd h]
  · rw [deltaRows, List.length_flatten, List.map_map]
    have hcomp : (List.length ∘ deltaFrom 0) = List.length := funext fun r => deltaFrom_length 0 r
    rw [hcomp, ← List.length_flatten, flatten_rows_of_dvd h]

/-! ## The index -/

/-- `HistBlockIndex`. -/
structure HistBlockIndex where
  frame_offset : ℕ
  comp_len : ℕ
  raw_rows : ℕ
  deriving DecidableEq

namespace HistBlockIndex

/-- `sizeof(HistBlockIndex)`. -/
def size : ℕ := 16

/-- The 16 bytes of an entry. -/
def toBytes (e : HistBlockIndex) : Bytes :=
  leBytes 8 e.frame_offset ++ leBytes 4 e.comp_len ++ leBytes 4 e.raw_rows

/-- The entry in 16 bytes. -/
def ofBytes (b : Bytes) : HistBlockIndex :=
  ⟨leNat (slice 0 8 b), leNat (slice 8 4 b), leNat (slice 12 4 b)⟩

/-- An entry whose numbers fit their fields. -/
structure Fits (e : HistBlockIndex) : Prop where
  frame_offset : e.frame_offset < 2 ^ 64
  comp_len : e.comp_len < 2 ^ 32
  raw_rows : e.raw_rows < 2 ^ 32

theorem toBytes_length (e : HistBlockIndex) : e.toBytes.length = size := by
  simp [toBytes, size]

/-- The entry that the fields hold. -/
def wrap (e : HistBlockIndex) : HistBlockIndex :=
  ⟨e.frame_offset % 2 ^ 64, e.comp_len % 2 ^ 32, e.raw_rows % 2 ^ 32⟩

theorem ofBytes_toBytes_wrap (e : HistBlockIndex) : ofBytes e.toBytes = e.wrap := by
  have h0 : slice 0 8 e.toBytes = leBytes 8 e.frame_offset := rfl
  have h1 : slice 8 4 e.toBytes = leBytes 4 e.comp_len := rfl
  have h2 : slice 12 4 e.toBytes = leBytes 4 e.raw_rows := rfl
  rw [ofBytes, h0, h1, h2, leNat_leBytes_mod, leNat_leBytes_mod, leNat_leBytes_mod]
  rfl

theorem wrap_of_fits {e : HistBlockIndex} (h : e.Fits) : e.wrap = e := by
  rw [wrap, Nat.mod_eq_of_lt h.frame_offset, Nat.mod_eq_of_lt h.comp_len,
    Nat.mod_eq_of_lt h.raw_rows]

end HistBlockIndex

/-- The index as it is written. -/
def indexBytes (index : List HistBlockIndex) : Bytes :=
  (index.map HistBlockIndex.toBytes).flatten

/-- `fread` of the index. -/
def readIndex (off n : ℕ) (b : Bytes) : Option (List HistBlockIndex) :=
  (fread off (HistBlockIndex.size * n) b).map fun r =>
    (rows HistBlockIndex.size r).map HistBlockIndex.ofBytes

theorem indexBytes_length (index : List HistBlockIndex) :
    (indexBytes index).length = HistBlockIndex.size * index.length := by
  induction index with
  | nil => rfl
  | cons e es ih =>
    rw [indexBytes, List.map_cons, List.flatten_cons, List.length_append, e.toBytes_length]
    rw [indexBytes] at ih
    rw [ih, List.length_cons, Nat.mul_succ, add_comm]

theorem readIndex_append_wrap (pre : Bytes) (index : List HistBlockIndex) :
    readIndex pre.length index.length (pre ++ indexBytes index) =
      some (index.map HistBlockIndex.wrap) := by
  have hslice : slice pre.length (HistBlockIndex.size * index.length) (pre ++ indexBytes index) =
      indexBytes index := by
    rw [slice, List.drop_left, ← indexBytes_length, List.take_length]
  have hlen : pre.length + HistBlockIndex.size * index.length ≤
      (pre ++ indexBytes index).length := by
    rw [List.length_append, indexBytes_length]
  have hrows : rows HistBlockIndex.size (indexBytes index) =
      index.map HistBlockIndex.toBytes := by
    have hw : ∀ r ∈ index.map HistBlockIndex.toBytes, r.length = HistBlockIndex.size := by
      intro r hr
      obtain ⟨e, -, rfl⟩ := List.mem_map.mp hr
      exact e.toBytes_length
    exact rows_flatten (by decide) hw
  have hcomp : HistBlockIndex.ofBytes ∘ HistBlockIndex.toBytes = HistBlockIndex.wrap :=
    funext HistBlockIndex.ofBytes_toBytes_wrap
  rw [readIndex, fread_eq_some hlen, hslice, Option.map_some, hrows, List.map_map, hcomp]

/-! ## Blocks -/

/-- `hist_default_block_rows`: as many rows as give about 2 MiB, from 64 to 1024. -/
def histDefaultBlockRows (fft_size : ℕ) : ℕ :=
  if fft_size = 0 then 256 else min (max (2 * 1024 * 1024 / fft_size) 64) 1024

/-- The loop of `compress_hist_file` from block `b` on, with the frames going to offset `off`: the
frames and their index. -/
def encodeBlocks (z : Zstd) (level w block_rows num_rows : ℕ) (src : Bytes) :
    ℕ → ℕ → ℕ → Option (Bytes × List HistBlockIndex)
  | 0, _, _ => some ([], [])
  | k + 1, b, off =>
    let rows_here := min block_rows (num_rows - b * block_rows)
    match fread (headerSize + b * block_rows * w) (rows_here * w) src with
    | none => none
    | some raw =>
      match z.compress level (deltaRows w raw) with
      | none => none
      | some c =>
        match encodeBlocks z level w block_rows num_rows src k (b + 1) (off + c.length) with
        | none => none
        | some (frames, index) => some (c ++ frames, ⟨off, c.length, rows_here⟩ :: index)

/-- The rows of a block as they were, if the file says that it has differences. -/
def undoDelta (h : FileHeader) (raw : Bytes) : Bytes :=
  if h.flags &&& HIST_V4_FLAG_COL_DELTA ≠ 0 then sumRows h.fft_size raw else raw

theorem histDefaultBlockRows_bounds {w : ℕ} (hw : 0 < w) (h25 : w < 2 ^ 25) :
    64 ≤ histDefaultBlockRows w ∧ histDefaultBlockRows w ≤ 1024 ∧
      histDefaultBlockRows w * w < 2 ^ 31 := by
  have hdiv : 2 * 1024 * 1024 / w * w ≤ 2 * 1024 * 1024 := Nat.div_mul_le_self _ _
  rw [histDefaultBlockRows, if_neg hw.ne']
  refine ⟨by omega, by omega, ?_⟩
  rcases Nat.lt_or_ge (2 * 1024 * 1024 / w) 64 with hlt | hge
  · have h64 : min (max (2 * 1024 * 1024 / w) 64) 1024 = 64 := by omega
    rw [h64]
    omega
  · calc min (max (2 * 1024 * 1024 / w) 64) 1024 * w
        ≤ 2 * 1024 * 1024 / w * w := Nat.mul_le_mul_right w (by omega)
      _ < 2 ^ 31 := by omega

/-- One turn of the loop of `decompress_hist_file`: the rows of a block. -/
def decodeBlock (z : Zstd) (h : FileHeader) (src : Bytes) (e : HistBlockIndex) : Option Bytes :=
  if e.raw_rows = 0 ∨ h.block_rows < e.raw_rows then none
  else
    match fread e.frame_offset e.comp_len src with
    | none => none
    | some comp =>
      match z.decompress comp with
      | none => none
      | some raw =>
        if raw.length = e.raw_rows * h.fft_size then some (undoDelta h raw) else none

/-- The loop of `decompress_hist_file`. -/
def decodeBlocks (z : Zstd) (h : FileHeader) (src : Bytes) : List HistBlockIndex → Option Bytes
  | [] => some []
  | e :: es =>
    match decodeBlock z h src e with
    | none => none
    | some raw => (decodeBlocks z h src es).map (raw ++ ·)

theorem decodeBlock_eq_some {z : Zstd} {h : FileHeader} {src out : Bytes} {e : HistBlockIndex} :
    decodeBlock z h src e = some out ↔
      (e.raw_rows ≠ 0 ∧ e.raw_rows ≤ h.block_rows) ∧
        ∃ comp raw, fread e.frame_offset e.comp_len src = some comp ∧
          z.decompress comp = some raw ∧ raw.length = e.raw_rows * h.fft_size ∧
            undoDelta h raw = out := by
  unfold decodeBlock
  by_cases hrows : e.raw_rows = 0 ∨ h.block_rows < e.raw_rows
  · rw [if_pos hrows]
    simp only [reduceCtorEq, false_iff]
    rintro ⟨⟨h0, hle⟩, -⟩
    rcases hrows with hz | hlt
    · exact h0 hz
    · omega
  · rw [if_neg hrows]
    cases hf : fread e.frame_offset e.comp_len src with
    | none => simp
    | some comp =>
      cases hz : z.decompress comp with
      | none => simp [hz]
      | some raw =>
        have hr : e.raw_rows ≠ 0 ∧ e.raw_rows ≤ h.block_rows := by omega
        simp [hz, hr]

theorem dvd_of_decodeBlock {z : Zstd} {h : FileHeader} {src out : Bytes} {e : HistBlockIndex}
    (hd : decodeBlock z h src e = some out) : h.fft_size ∣ out.length := by
  obtain ⟨-, -, raw, -, -, hlen, rfl⟩ := decodeBlock_eq_some.mp hd
  unfold undoDelta
  split_ifs with hflag
  · -- every row of sums has the width of the row it was made of
    have hrows : ∀ r ∈ (rows h.fft_size raw).map (sumFrom 0), r.length = h.fft_size := by
      intro r hr
      obtain ⟨y, hy, rfl⟩ := List.mem_map.mp hr
      rw [sumFrom_length, length_of_mem_rows hy]
    rw [sumRows, length_flatten_of_forall hrows]
    exact Dvd.intro_left _ rfl
  · rw [hlen]
    exact Dvd.intro_left _ rfl

theorem dvd_of_decodeBlocks {z : Zstd} {h : FileHeader} {src : Bytes} {es : List HistBlockIndex}
    {body : Bytes} (hd : decodeBlocks z h src es = some body) : h.fft_size ∣ body.length := by
  induction es generalizing body with
  | nil =>
    obtain rfl := Option.some.inj hd
    simp
  | cons e es ih =>
    rw [decodeBlocks] at hd
    split at hd
    · cases hd
    · next raw hraw =>
      obtain ⟨rest, hrest, rfl⟩ := Option.map_eq_some_iff.mp hd
      rw [List.length_append]
      exact dvd_add (dvd_of_decodeBlock hraw) (ih hrest)

theorem of_encodeBlocks_succ {z : Zstd} {level w br n : ℕ} {src : Bytes} {k b off : ℕ}
    {frames : Bytes} {index : List HistBlockIndex}
    (he : encodeBlocks z level w br n src (k + 1) b off = some (frames, index)) :
    ∃ raw c frames' index',
      fread (headerSize + b * br * w) (min br (n - b * br) * w) src = some raw ∧
        z.compress level (deltaRows w raw) = some c ∧
        encodeBlocks z level w br n src k (b + 1) (off + c.length) = some (frames', index') ∧
        frames = c ++ frames' ∧ index = ⟨off, c.length, min br (n - b * br)⟩ :: index' := by
  rw [encodeBlocks] at he
  split at he
  · cases he
  · next raw hraw =>
    split at he
    · cases he
    · next c hc =>
      split at he
      · cases he
      · next frames' index' hrest =>
        obtain ⟨rfl, rfl⟩ := Prod.mk.inj (Option.some.inj he)
        exact ⟨raw, c, frames', index', hraw, hc, hrest, rfl, rfl⟩

/-- A block of rows and the blocks behind it: a full block ends where the next begins, and a partial
block is the last. -/
theorem slice_blocks (w br k m o : ℕ) (src : Bytes) :
    slice o (min br m * w) src ++ slice (o + br * w) (min (k * br) (m - br) * w) src =
      slice o (min ((k + 1) * br) m * w) src := by
  rcases Nat.lt_or_ge m br with hlast | hfull
  · have h0 : m - br = 0 := by omega
    have h1 : min br m = m := by omega
    have hall : min ((k + 1) * br) m = m := by rw [add_mul, one_mul]; omega
    rw [h0, h1, hall, Nat.min_zero, Nat.zero_mul]
    simp [slice]
  · have h1 : min br m = br := by omega
    have hall : min ((k + 1) * br) m = br + min (k * br) (m - br) := by
      rw [add_mul, one_mul]
      omega
    rw [h1, hall, slice_append_slice, add_mul]

theorem decodeBlocks_encodeBlocks {z : Zstd} (hz : z.RoundTrips) {h : FileHeader} {level n : ℕ}
    (hbr : 0 < h.block_rows) (hw : 0 < h.fft_size)
    (hflag : h.flags &&& HIST_V4_FLAG_COL_DELTA ≠ 0) {src : Bytes} {k b off : ℕ} {frames : Bytes}
    {index : List HistBlockIndex}
    (he : encodeBlocks z level h.fft_size h.block_rows n src k b off = some (frames, index))
    (hk : ∀ i, i < k → (b + i) * h.block_rows < n) {pre : Bytes} (hpre : pre.length = off)
    (suf : Bytes) :
    decodeBlocks z h (pre ++ frames ++ suf) index =
      some (slice (headerSize + b * h.block_rows * h.fft_size)
        (min (k * h.block_rows) (n - b * h.block_rows) * h.fft_size) src) := by
  induction k generalizing b off frames index pre with
  | zero =>
    obtain ⟨rfl, rfl⟩ : [] = frames ∧ [] = index := by simpa [encodeBlocks] using he
    simp [decodeBlocks, slice]
  | succ k ih =>
    obtain ⟨raw, c, frames', index', hraw, hc, hrest, rfl, rfl⟩ := of_encodeBlocks_succ he
    have hb : b * h.block_rows < n := by simpa using hk 0 (by omega)
    obtain ⟨hrawdef, hrawlen⟩ := of_fread_eq_some hraw
    obtain ⟨hsum, hdlen⟩ := sumRows_deltaRows hw (Dvd.intro_left _ hrawlen.symm)
    have hread : fread off c.length (pre ++ (c ++ frames') ++ suf) = some c := by
      rw [fread_eq_some (by simp [hpre]), slice, ← hpre, List.append_assoc,
        List.drop_left, List.append_assoc, List.take_left' rfl]
    have hblock : decodeBlock z h (pre ++ (c ++ frames') ++ suf)
        ⟨off, c.length, min h.block_rows (n - b * h.block_rows)⟩ = some raw := by
      rw [decodeBlock_eq_some]
      refine ⟨⟨by dsimp only; omega, min_le_left _ _⟩, c, deltaRows h.fft_size raw, hread,
        hz _ _ _ hc, hdlen.trans hrawlen, ?_⟩
      rw [undoDelta, if_pos hflag, hsum]
    have hpre' : (pre ++ c).length = off + c.length := by rw [List.length_append, hpre]
    have hrec := ih hrest
      (fun i hi => by simpa [add_assoc, add_comm 1 i] using hk (i + 1) (by omega)) hpre'
    have hnext : headerSize + (b + 1) * h.block_rows * h.fft_size =
        headerSize + b * h.block_rows * h.fft_size + h.block_rows * h.fft_size := by ring
    have hleft : n - (b + 1) * h.block_rows = n - b * h.block_rows - h.block_rows := by
      rw [add_mul, one_mul, Nat.sub_sub]
    rw [decodeBlocks, hblock]
    dsimp only
    rw [← List.append_assoc, hrec, Option.map_some, hrawdef, hnext, hleft, slice_blocks]

/-! ## Files -/

/-- `V4Ext` over `reserved_v3`. -/
def v4ext (codec flags block_rows num_blocks num_rows index_offset : ℕ) : Bytes :=
  leBytes 1 codec ++ leBytes 1 flags ++ leBytes 4 block_rows ++ leBytes 4 num_blocks ++
    leBytes 8 num_rows ++ leBytes 8 index_offset

theorem v4ext_length (codec flags br nb n io : ℕ) : (v4ext codec flags br nb n io).length = 26 := by
  simp [v4ext]

theorem v4ext_fits (codec flags br nb n io : ℕ) :
    100 + (v4ext codec flags br nb n io).length ≤ headerSize := by
  rw [v4ext_length]
  decide

/-- The header that `compress_hist_file` writes. -/
def v4Header (h : FileHeader) (block_rows num_blocks num_rows index_offset : ℕ) : FileHeader :=
  (h.put 4 (leBytes 2 FILE_VERSION_ZSTD) (by decide)).put 100
    (v4ext HIST_CODEC_ZSTD HIST_V4_FLAG_COL_DELTA block_rows num_blocks num_rows index_offset)
    (v4ext_fits _ _ _ _ _ _)

/-- The header that `decompress_hist_file` writes: version 3 and `reserved_v3` zero. -/
def v3Header (h : FileHeader) : FileHeader :=
  (h.put 4 (leBytes 2 FILE_VERSION) (by decide)).put 100 (List.replicate 28 0)
    (by decide)

/-- `compress_hist_file` at a level, on the bytes of the file: the bytes of the compressed file. A
torn last row is dropped. -/
def compressHistFile (z : Zstd) (level : ℕ) (src : Bytes) : Option Bytes :=
  match FileHeader.read src with
  | none => none
  | some h =>
    if h.version ≠ FILE_VERSION ∨ h.fft_size = 0 then none
    else
      let num_rows := (src.length - headerSize) / h.fft_size
      if num_rows = 0 then none
      else
        let block_rows := histDefaultBlockRows h.fft_size
        let num_blocks := (num_rows + block_rows - 1) / block_rows % 2 ^ 32
        match encodeBlocks z level h.fft_size block_rows num_rows src num_blocks 0 headerSize with
        | none => none
        | some (frames, index) =>
          some ((v4Header h block_rows num_blocks num_rows (headerSize + frames.length)).bytes ++
            frames ++ indexBytes index)

/-- `decompress_hist_file` on the bytes of the file: the bytes of the raw file. -/
def decompressHistFile (z : Zstd) (src : Bytes) : Option Bytes :=
  match FileHeader.read src with
  | none => none
  | some h =>
    if h.version ≠ FILE_VERSION_ZSTD ∨ h.fft_size = 0 ∨ h.codec ≠ HIST_CODEC_ZSTD ∨
        h.num_blocks = 0 ∨ h.block_rows = 0 ∨ h.index_offset = 0 then none
    else
      match readIndex h.index_offset h.num_blocks src with
      | none => none
      | some index => (decodeBlocks z h src index).map ((v3Header h).bytes ++ ·)

/-- The fields of the header of a compressed file: the extension is what was put there, the fields
before it other than the version are the raw file's. -/
theorem fields_v4Header (h : FileHeader) (br nb n io : ℕ) (hbr : br < 2 ^ 32) (hnb : nb < 2 ^ 32)
    (hn : n < 2 ^ 64) (hio : io < 2 ^ 64) :
    let v := v4Header h br nb n io
    v.version = FILE_VERSION_ZSTD ∧ v.codec = HIST_CODEC_ZSTD ∧ v.flags = HIST_V4_FLAG_COL_DELTA ∧
      v.block_rows = br ∧ v.num_blocks = nb ∧ v.num_rows = n ∧ v.index_offset = io ∧
      v.fft_size = h.fft_size := by
  have ext : ∀ i len, i + len ≤ 26 → (v4Header h br nb n io).field (100 + i) len =
      leNat (slice i len (v4ext HIST_CODEC_ZSTD HIST_V4_FLAG_COL_DELTA br nb n io)) :=
    fun i len hi => FileHeader.field_put_within (v4ext_fits _ _ _ _ _ _)
      (by rwa [v4ext_length])
  have pre : ∀ off len, off + len ≤ 100 → (v4Header h br nb n io).field off len =
      (h.put 4 (leBytes 2 FILE_VERSION_ZSTD) (by decide)).field off len :=
    fun off len hoff => FileHeader.field_put_of_disjoint (v4ext_fits _ _ _ _ _ _) (.inl hoff)
  refine ⟨?_, ?_, ?_, ?_, ?_, ?_, ?_, ?_⟩
  · exact (pre 4 2 (by omega)).trans (FileHeader.field_put_self (by decide) (by decide))
  · exact (ext 0 1 (by omega)).trans (leNat_leBytes (w := 1) (by decide))
  · exact (ext 1 1 (by omega)).trans (leNat_leBytes (w := 1) (by decide))
  · exact (ext 2 4 (by omega)).trans (leNat_leBytes (w := 4) (by omega))
  · exact (ext 6 4 (by omega)).trans (leNat_leBytes (w := 4) (by omega))
  · exact (ext 10 8 (by omega)).trans (leNat_leBytes (w := 8) (by omega))
  · exact (ext 18 8 (by omega)).trans (leNat_leBytes (w := 8) (by omega))
  · exact (pre 6 4 (by omega)).trans (FileHeader.field_put_of_disjoint (by decide) (.inr (by simp)))

theorem fields_v3Header (h : FileHeader) :
    (v3Header h).version = FILE_VERSION ∧ ∀ off len, 6 ≤ off → off + len ≤ 100 →
      (v3Header h).field off len = h.field off len := by
  have pre : ∀ off len, off + len ≤ 100 → (v3Header h).field off len =
      (h.put 4 (leBytes 2 FILE_VERSION) (by decide)).field off len :=
    fun off len hoff => FileHeader.field_put_of_disjoint (by decide) (.inl hoff)
  refine ⟨?_, fun off len h6 hoff => ?_⟩
  · exact (pre 4 2 (by omega)).trans (FileHeader.field_put_self (by decide) (by decide))
  · exact (pre off len hoff).trans (FileHeader.field_put_of_disjoint (by decide) (.inr (by simpa)))

theorem v3Header_v4Header (h : FileHeader) (br nb n io : ℕ) :
    v3Header (v4Header h br nb n io) = v3Header h := by
  have hbytes : (v3Header (v4Header h br nb n io)).bytes = (v3Header h).bytes := by
    -- byte by byte: outside the version and the extension both are the byte of `h`
    refine List.ext_getElem? fun i => ?_
    unfold v3Header v4Header
    simp only [FileHeader.getElem?_put, v4ext_length, leBytes_length, List.length_replicate]
    split_ifs <;> first | rfl | omega
  exact FileHeader.ext hbytes

theorem of_compressHistFile {z : Zstd} {level : ℕ} {src dst : Bytes}
    (hc : compressHistFile z level src = some dst) :
    ∃ h frames index, FileHeader.read src = some h ∧ h.version = FILE_VERSION ∧ 0 < h.fft_size ∧
      let n := (src.length - headerSize) / h.fft_size
      let br := histDefaultBlockRows h.fft_size
      let nb := (n + br - 1) / br % 2 ^ 32
      n ≠ 0 ∧ encodeBlocks z level h.fft_size br n src nb 0 headerSize = some (frames, index) ∧
        dst = (v4Header h br nb n (headerSize + frames.length)).bytes ++ frames ++
          indexBytes index := by
  unfold compressHistFile at hc
  split at hc
  · cases hc
  · next h hh =>
    by_cases hv : h.version ≠ FILE_VERSION ∨ h.fft_size = 0
    · rw [if_pos hv] at hc
      cases hc
    · rw [if_neg hv] at hc
      obtain ⟨hv3, hw⟩ := not_or.mp hv
      dsimp only at hc
      by_cases hn : (src.length - headerSize) / h.fft_size = 0
      · rw [if_pos hn] at hc
        cases hc
      · rw [if_neg hn] at hc
        split at hc
        · cases hc
        · next frames index he =>
          exact ⟨h, frames, index, hh, not_not.mp hv3, Nat.pos_of_ne_zero hw, hn, he,
            (Option.some.inj hc).symm⟩

/-- The rows of a raw file. -/
def rawRows (b : Bytes) : Option (List Bytes) :=
  (FileHeader.read b).map fun h => rows (rowWidth h) (b.drop headerSize)

/-- The rows that a file stands for: those of a raw file, and of a compressed file those of what it
decompresses to. -/
def fileRows (z : Zstd) (b : Bytes) : Option (List Bytes) :=
  match FileHeader.read b with
  | none => none
  | some h =>
    if h.version = FILE_VERSION_ZSTD then (decompressHistFile z b).bind rawRows
    else if h.version = FILE_VERSION then rawRows b
    else none

theorem rowWidth_v3Header (h : FileHeader) : rowWidth (v3Header h) = rowWidth h := by
  have hfields := (fields_v3Header h).2
  have h1 : (v3Header h).fft_size = h.fft_size := hfields 6 4 (by omega) (by omega)
  have h2 : (v3Header h).fft_input_size = h.fft_input_size := hfields 50 4 (by omega) (by omega)
  rw [rowWidth, rowWidth, h1, h2]

theorem magic_v3Header (h : FileHeader) : slice 0 4 (v3Header h).bytes = slice 0 4 h.bytes := by
  have hsize4 := (h.put 4 (leBytes 2 FILE_VERSION) (by decide)).size
  have hsize := h.size
  have h128 : headerSize = 128 := rfl
  simp only [v3Header, FileHeader.put] at hsize4 ⊢
  rw [slice_splice_of_le (by omega) (by omega), slice_splice_of_le (by omega) (by omega)]

theorem of_decompressHistFile {z : Zstd} {src dst : Bytes}
    (hd : decompressHistFile z src = some dst) :
    ∃ h body, FileHeader.read src = some h ∧ h.version = FILE_VERSION_ZSTD ∧ 0 < h.fft_size ∧
      h.fft_size ∣ body.length ∧ dst = (v3Header h).bytes ++ body ∧
        FileHeader.read dst = some (v3Header h) := by
  unfold decompressHistFile at hd
  split at hd
  · cases hd
  · next h hh =>
    split_ifs at hd with hext
    split at hd
    · cases hd
    · next index hindex =>
      obtain ⟨body, hbody, rfl⟩ := Option.map_eq_some_iff.mp hd
      simp only [not_or, not_not] at hext
      refine ⟨h, body, hh, hext.1, Nat.pos_of_ne_zero hext.2.1, dvd_of_decodeBlocks hbody, rfl, ?_⟩
      exact FileHeader.read_append _ ((magic_v3Header h).trans (FileHeader.magic_of_read hh)) body

end Bewe.Hist

import Bewe.Hist.Blocks

/-!
# Reading rows of a recording

`HistReader` of `src/hist_reader.cpp`: a recording is opened, its rows are read one at a time, a
compressed one may be decompressed as a whole first (`preload_full`), and a worker reads a copy of
its own (`clone_for_thread`). Memory maps and reads of the file give the same bytes; each opening
has a map or has none. Sums of 64-bit offsets are taken as numbers: those of a file that
`compress_hist_file` wrote do not wrap. `refresh_live`, for raw files that still grow, is left out,
and so is the path: the file stays what it is.

`sameRows_iff` says when the rows of a compressed file are read as those of the raw file, whatever
was called before: unless the number of blocks is lost in 32 bits, or a block's frame has 4 GiB.
-/

namespace Bewe.Hist

open Lib

/-- `HistReader`. `v4_flags_` and `block_rows_` are those of the header. -/
structure HistReader where
  file : Bytes
  hdr : FileHeader
  num_rows : ℕ
  /-- Whether the file is open. -/
  fp : Bool
  /-- Whether it is mapped. -/
  map : Bool
  is_v4 : Bool
  index : List HistBlockIndex
  /-- `cache_block_`, none for -1. -/
  cache_block : Option ℕ
  cache_buf : Bytes
  full : Option Bytes

/-- `open`; none if it fails. `map` tells whether `mmap` works. -/
def HistReader.open (map : Bool) (file : Bytes) : Option HistReader :=
  match FileHeader.read file with
  | none => none
  | some h =>
    if (h.version ≠ FILE_VERSION ∧ h.version ≠ FILE_VERSION_ZSTD) ∨ h.fft_size = 0 then none
    else if h.version = FILE_VERSION_ZSTD then
      if h.codec ≠ HIST_CODEC_ZSTD ∨ h.block_rows = 0 ∨ h.num_blocks = 0 ∨
          h.index_offset < headerSize ∨
          file.length < h.index_offset + HistBlockIndex.size * h.num_blocks then none
      else (readIndex h.index_offset h.num_blocks file).map fun index =>
        ⟨file, h, h.num_rows % 2 ^ 32, true, map, true, index, none, [], none⟩
    else
      some ⟨file, h, (file.length - headerSize) / h.fft_size % 2 ^ 32, true, map, false, [], none, [],
        none⟩

namespace HistReader

/-- `full_ready`. -/
def fullReady (s : HistReader) : Bool := s.full.any fun buf => buf ≠ []

/-- The bytes at an offset, from the map or with `fread`. -/
def readAt (s : HistReader) (off len : ℕ) : Option Bytes :=
  if s.map = true ∧ off + len ≤ s.file.length then some (slice off len s.file)
  else if s.fp = true then fread off len s.file
  else none

/-- `(uint32_t)cache_block_`. -/
def cachedBlock (s : HistReader) : ℕ := s.cache_block.getD (2 ^ 32 - 1)

section Calls

/- zstd, and what a failing `ZSTD_decompress` leaves in its buffer. -/
variable (z : Zstd) (junk : Bytes → Bytes)

/-- The block that `get_row` wants in the cache; false if it cannot be had. -/
def loadBlock (s : HistReader) (block : ℕ) : Bool × HistReader :=
  if block = s.cachedBlock then (true, s)
  else
    match s.index[block]? with
    | none => (false, s)
    | some e =>
      match s.readAt e.frame_offset e.comp_len with
      | none => (false, s)
      | some comp =>
        let cap := s.hdr.block_rows * s.hdr.fft_size
        let buf := s.cache_buf ++ List.replicate (cap - s.cache_buf.length) 0
        match z.decompress comp with
        | none => (false, { s with cache_block := none, cache_buf := junk buf })
        | some raw =>
          if raw.length ≤ cap ∧ raw.length = e.raw_rows * s.hdr.fft_size then
            (true,
              { s with cache_block := some block, cache_buf := splice 0 (undoDelta s.hdr raw) buf })
          else (false, { s with cache_block := none, cache_buf := junk buf })

/-- `get_row`: the row, none for a null pointer, and the reader then. -/
def getRow (s : HistReader) (r : ℕ) : Option Bytes × HistReader :=
  let fft_sz := s.hdr.fft_size
  if fft_sz = 0 ∨ s.num_rows ≤ r then (none, s)
  else if s.is_v4 = false then (s.readAt (headerSize + r * fft_sz) fft_sz, s)
  else if s.fullReady then
    match s.full with
    | some buf =>
      (if r * fft_sz + fft_sz ≤ buf.length then some (slice (r * fft_sz) fft_sz buf) else none, s)
    | none => (none, s)
  else if s.hdr.block_rows = 0 then (none, s)
  else
    let block := r / s.hdr.block_rows
    match loadBlock z junk s block with
    | (false, s') => (none, s')
    | (true, s') =>
      (some (slice ((r - block * s.hdr.block_rows) * fft_sz) fft_sz s'.cache_buf), s')

/-- The loop of `preload_full`: `k` rows from row `r` on. -/
def preloadRows : ℕ → ℕ → HistReader → Option Bytes × HistReader
  | 0, _, s => (some [], s)
  | k + 1, r, s =>
    match getRow z junk s r with
    | (none, s') => (none, s')
    | (some p, s') =>
      match preloadRows k (r + 1) s' with
      | (none, s'') => (none, s'')
      | (some rest, s'') => (some (p ++ rest), s'')

/-- `preload_full`; `alloc` tells whether there is memory. -/
def preloadFull (max_bytes : ℕ) (alloc : Bool) (s : HistReader) : Bool × HistReader :=
  if s.is_v4 = false ∨ s.fullReady = true then (s.fullReady, s)
  else if s.num_rows = 0 ∨ s.hdr.fft_size = 0 then (false, s)
  else if max_bytes < s.num_rows * s.hdr.fft_size ∨ alloc = false then (false, s)
  else
    match preloadRows z junk s.num_rows 0 s with
    | (none, s') => (false, s')
    | (some buf, s') => (true, { s' with full := some buf, cache_buf := [], cache_block := none })

/-- `clone_for_thread`; `opened` and `mapped` tell whether `fopen` and `mmap` work. -/
def cloneForThread (opened mapped : Bool) (s : HistReader) : HistReader :=
  if s.fullReady then { s with fp := false, map := false, cache_block := none, cache_buf := [] }
  else { s with fp := opened, map := opened && mapped, cache_block := none, cache_buf := [] }

/-- A call. What follows the call of a clone is called on it: a clone shares nothing that changes,
so the history of a reader is its own calls after those before it was cloned. -/
inductive Call where
  | getRow (r : ℕ)
  | preloadFull (max_bytes : ℕ) (alloc : Bool)
  | cloneForThread (opened mapped : Bool)

/-- A clone can open the file. -/
def Call.Opens : Call → Prop
  | .cloneForThread opened _ => opened = true
  | _ => True

/-- The reader after a call. -/
def call (s : HistReader) : Call → HistReader
  | .getRow r => (getRow z junk s r).2
  | .preloadFull max_bytes alloc => (preloadFull z junk max_bytes alloc s).2
  | .cloneForThread opened mapped => cloneForThread opened mapped s

/-- The row that is read after some calls. -/
def rowAfter (s : HistReader) (calls : List Call) (r : ℕ) : Option Bytes :=
  (getRow z junk (calls.foldl (call z junk) s) r).1

end Calls

end HistReader

/-- Both files open, and whatever is called on each, every row below the row count of the raw file
is read from both, with the same bytes, and every other row from neither. -/
def SameRows (z : Zstd) (junk : Bytes → Bytes) (src dst : Bytes) : Prop :=
  ∀ map₃ map₄, ∃ s t, HistReader.open map₃ src = some s ∧ HistReader.open map₄ dst = some t ∧
    ∀ calls₃ calls₄ : List HistReader.Call, (∀ c ∈ calls₃, c.Opens) → (∀ c ∈ calls₄, c.Opens) → ∀ i,
      if i < s.num_rows then ∃ row, s.rowAfter z junk calls₃ i = some row ∧
        t.rowAfter z junk calls₄ i = some row
      else s.rowAfter z junk calls₃ i = none ∧ t.rowAfter z junk calls₄ i = none

/-- A row of a raw file. -/
def rowAt (h : FileHeader) (src : Bytes) (i : ℕ) : Bytes :=
  slice (headerSize + i * h.fft_size) h.fft_size src

/-- What every row reads as, from a file with `m` rows. -/
def rowOr (h : FileHeader) (src : Bytes) (m i : ℕ) : Option Bytes :=
  if i < m then some (rowAt h src i) else none

namespace HistReader

variable {z : Zstd} (junk : Bytes → Bytes)

theorem readAt_of_fread {s : HistReader} (hfp : s.fp = true) {off len : ℕ} {b : Bytes}
    (hread : fread off len s.file = some b) : s.readAt off len = some b := by
  unfold readAt
  split_ifs with hmap
  · rw [(of_fread_eq_some hread).1]
  · exact hread

/-- A row of a compressed file that was not decompressed as a whole is a row of its block. -/
theorem getRow_of_block {s : HistReader} {r : ℕ} (hw : s.hdr.fft_size ≠ 0) (hr : r < s.num_rows)
    (h4 : s.is_v4 = true) (hfull : s.fullReady = false) (hbr : s.hdr.block_rows ≠ 0) :
    getRow z junk s r =
      match loadBlock z junk s (r / s.hdr.block_rows) with
      | (false, s') => (none, s')
      | (true, s') => (some (slice ((r - r / s.hdr.block_rows * s.hdr.block_rows) * s.hdr.fft_size)
          s.hdr.fft_size s'.cache_buf), s') := by
  unfold getRow
  dsimp only
  rw [if_neg (by omega), if_neg (by rw [h4]; decide), if_neg (by rw [hfull]; decide), if_neg hbr]

theorem foldl_call (P : HistReader → Prop) (hstep : ∀ s c, P s → c.Opens → P (call z junk s c))
    {calls : List Call} (hcalls : ∀ c ∈ calls, c.Opens) {s : HistReader} (hs : P s) :
    P (calls.foldl (call z junk) s) := by
  induction calls generalizing s with
  | nil => exact hs
  | cons c calls ih =>
    rw [List.forall_mem_cons] at hcalls
    exact ih hcalls.2 (hstep s c hs hcalls.1)

/-! ## The raw file -/

/-- A reader of a raw file. -/
structure Plain (h : FileHeader) (src : Bytes) (s : HistReader) : Prop where
  file : s.file = src
  hdr : s.hdr = h
  num_rows : s.num_rows = numRows h src % 2 ^ 32
  fp : s.fp = true
  is_v4 : s.is_v4 = false
  full : s.full = none

theorem Plain.fullReady {h : FileHeader} {src : Bytes} {s : HistReader} (hs : Plain h src s) :
    s.fullReady = false := by
  rw [HistReader.fullReady, hs.full]
  rfl

theorem open_plain {h : FileHeader} {src : Bytes} (hh : FileHeader.read src = some h)
    (hver : h.version = FILE_VERSION) (hw : 0 < h.fft_size) (map : Bool) :
    ∃ s, HistReader.open map src = some s ∧ Plain h src s := by
  have hne : h.version ≠ FILE_VERSION_ZSTD := by
    rw [hver]
    decide
  unfold HistReader.open
  rw [hh]
  dsimp only
  rw [if_neg (by simp [hver, hw.ne']), if_neg hne]
  exact ⟨_, rfl, rfl, rfl, rfl, rfl, rfl, rfl⟩

theorem fread_row {h : FileHeader} {src : Bytes} (hsrc : headerSize ≤ src.length) {i : ℕ}
    (hi : i < numRows h src) :
    fread (headerSize + i * h.fft_size) h.fft_size src = some (rowAt h src i) := by
  refine fread_eq_some ?_
  calc headerSize + i * h.fft_size + h.fft_size
      = headerSize + (i + 1) * h.fft_size := by ring
    _ ≤ src.length := rows_le_length hsrc hi

theorem getRow_plain {h : FileHeader} {src : Bytes} {s : HistReader} (hs : Plain h src s)
    (hw : 0 < h.fft_size) (hsrc : headerSize ≤ src.length) (i : ℕ) :
    getRow z junk s i = (rowOr h src (numRows h src % 2 ^ 32) i, s) := by
  unfold getRow rowOr
  rw [hs.hdr, hs.num_rows]
  dsimp only
  rcases Nat.lt_or_ge i (numRows h src % 2 ^ 32) with hi | hi
  · have hin : i < numRows h src := hi.trans_le (Nat.mod_le _ _)
    have hread : fread (headerSize + i * h.fft_size) h.fft_size s.file = some (rowAt h src i) := by
      rw [hs.file]
      exact fread_row hsrc hin
    rw [if_neg (by omega), if_pos hs.is_v4, readAt_of_fread hs.fp hread, if_pos hi]
  · rw [if_pos (.inr hi), if_neg (by omega)]

theorem call_plain {h : FileHeader} {src : Bytes} {s : HistReader} (hs : Plain h src s)
    (hw : 0 < h.fft_size) (hsrc : headerSize ≤ src.length) {c : Call} (hc : c.Opens) :
    Plain h src (call z junk s c) := by
  cases c with
  | getRow r =>
    rw [call, getRow_plain junk hs hw hsrc]
    exact hs
  | preloadFull max_bytes alloc =>
    rw [call, preloadFull, if_pos (.inl hs.is_v4)]
    exact hs
  | cloneForThread opened mapped =>
    rw [call, cloneForThread, if_neg (by rw [hs.fullReady]; decide)]
    exact ⟨hs.file, hs.hdr, hs.num_rows, hc, hs.is_v4, hs.full⟩

/-! ## The compressed file -/

/-- A reader of a compressed file: what is in its cache, and what it has decompressed as a whole,
are rows of the raw file. -/
structure Serves (h : FileHeader) (src dst : Bytes) (v : FileHeader) (index : List HistBlockIndex)
    (s : HistReader) : Prop where
  file : s.file = dst
  hdr : s.hdr = v
  num_rows : s.num_rows = numRows h src % 2 ^ 32
  is_v4 : s.is_v4 = true
  index : s.index = index
  fp : s.fullReady = false → s.fp = true
  cached : ∀ b, s.cache_block = some b → ∀ i, i < rowsHere h src b →
    slice (i * h.fft_size) h.fft_size s.cache_buf =
      rowAt h src (b * histDefaultBlockRows h.fft_size + i)
  full : ∀ buf, s.full = some buf →
    buf = slice headerSize (numRows h src % 2 ^ 32 * h.fft_size) src

theorem slice_blockRaw {h : FileHeader} {src : Bytes} {b i : ℕ} (hi : i < rowsHere h src b) :
    slice (i * h.fft_size) h.fft_size (blockRaw h src b) =
      rowAt h src (b * histDefaultBlockRows h.fft_size + i) := by
  have hin : i * h.fft_size + h.fft_size ≤ rowsHere h src b * h.fft_size := by
    rw [← Nat.succ_mul]
    exact Nat.mul_le_mul_right _ hi
  rw [blockRaw, slice_slice hin, rowAt, add_mul, Nat.add_assoc]

/-- A block that is in the row count can be loaded, if its frame fits. -/
theorem loadBlock_serves (hz : z.RoundTrips) {level : ℕ} {h v : FileHeader} {src dst : Bytes}
    {index : List HistBlockIndex} (hp : Packed z level h src dst v index) (hw : 0 < h.fft_size)
    (hsrc : headerSize ≤ src.length) (hnb : numBlocks h src % 2 ^ 32 ≠ 0)
    (hfit : FramesFit z level h src (numRows h src % 2 ^ 32)) {s : HistReader}
    (hs : Serves h src dst v index s) (hfull : s.fullReady = false) {b : ℕ}
    (hb : b * histDefaultBlockRows h.fft_size < numRows h src % 2 ^ 32) :
    ∃ s', loadBlock z junk s b = (true, s') ∧ Serves h src dst v index s' ∧
      s'.cache_block = some b := by
  have hm : numRows h src % 2 ^ 32 < 2 ^ 32 := Nat.mod_lt _ (by decide)
  unfold loadBlock
  by_cases hcached : b = s.cachedBlock
  · -- the number that stands for no block is that of no block of a file
    refine ⟨s, if_pos hcached, hs, ?_⟩
    rw [cachedBlock] at hcached
    cases hc : s.cache_block with
    | some b' =>
      rw [hc] at hcached
      exact congrArg some hcached.symm
    | none =>
      rw [hc] at hcached
      obtain ⟨hbr, -⟩ := histDefaultBlockRows_range h.fft_size
      have hle : b * 64 ≤ b * histDefaultBlockRows h.fft_size := Nat.mul_le_mul_left b hbr
      have hval : b = 2 ^ 32 - 1 := hcached
      omega
  · obtain ⟨c, e, hc, he, hrows, hread⟩ := hp.entry b (block_lt_of_row_lt hnb hb)
    have hlen : c.length % 2 ^ 32 = c.length := Nat.mod_eq_of_lt (hfit b c hb hc)
    rw [hlen, List.take_length, ← hs.file] at hread
    have hraw := blockRaw_length (h := h) hsrc b
    obtain ⟨hsum, hdlen⟩ := sumRows_deltaRows hw (Dvd.intro_left _ hraw.symm)
    have hundo : undoDelta v (deltaRows h.fft_size (blockRaw h src b)) = blockRaw h src b := by
      rw [undoDelta, if_pos (by rw [hp.flags]; decide), hp.fft_size, hsum]
    have hcap : rowsHere h src b * h.fft_size ≤ histDefaultBlockRows h.fft_size * h.fft_size :=
      Nat.mul_le_mul_right _ (min_le_left _ _)
    rw [if_neg hcached, hs.index, he]
    dsimp only
    rw [readAt_of_fread (hs.fp hfull) hread]
    dsimp only
    rw [hz _ _ _ hc]
    dsimp only
    rw [hs.hdr, hp.fft_size, hp.block_rows, hrows, hdlen, hraw, hundo, if_pos ⟨hcap, rfl⟩]
    refine ⟨_, rfl, ⟨hs.file, rfl, hs.num_rows, hs.is_v4, rfl, hs.fp, ?_, hs.full⟩, rfl⟩
    rintro b' hb' i hi
    obtain rfl := Option.some.inj hb'
    have hin : i * h.fft_size + h.fft_size ≤ (blockRaw h src b).length := by
      rw [hraw, ← Nat.succ_mul]
      exact Nat.mul_le_mul_right _ hi
    have hwithin := slice_splice_within (Nat.zero_le (s.cache_buf ++ List.replicate
      (histDefaultBlockRows h.fft_size * h.fft_size - s.cache_buf.length) 0).length) hin
    rw [Nat.zero_add] at hwithin
    exact hwithin.trans (slice_blockRaw hi)

/-- Every row is read as it is in the raw file, whatever is in the cache. -/
theorem getRow_serves (hz : z.RoundTrips) {level : ℕ} {h v : FileHeader} {src dst : Bytes}
    {index : List HistBlockIndex} (hp : Packed z level h src dst v index) (hw : 0 < h.fft_size)
    (hsrc : headerSize ≤ src.length) (hnb : numBlocks h src % 2 ^ 32 ≠ 0)
    (hfit : FramesFit z level h src (numRows h src % 2 ^ 32)) {s : HistReader}
    (hs : Serves h src dst v index s) (i : ℕ) :
    ∃ s', getRow z junk s i = (rowOr h src (numRows h src % 2 ^ 32) i, s') ∧
      Serves h src dst v index s' := by
  rcases Nat.lt_or_ge i (numRows h src % 2 ^ 32) with hi | hi
  · rw [rowOr, if_pos hi]
    cases hfull : s.fullReady with
    | true =>
      obtain ⟨buf, hbuf⟩ : ∃ buf, s.full = some buf := by
        cases hbuf : s.full with
        | some buf => exact ⟨buf, rfl⟩
        | none =>
          rw [fullReady, hbuf] at hfull
          cases hfull
      have hin : i * h.fft_size + h.fft_size ≤ numRows h src % 2 ^ 32 * h.fft_size := by
        rw [← Nat.succ_mul]
        exact Nat.mul_le_mul_right _ hi
      have hend := rows_le_length hsrc (Nat.mod_le (numRows h src) (2 ^ 32))
      unfold getRow
      rw [hs.hdr, hp.fft_size, hs.num_rows]
      dsimp only
      rw [if_neg (by omega), if_neg (by rw [hs.is_v4]; decide), if_pos hfull, hbuf]
      dsimp only
      rw [hs.full buf hbuf, slice_length hend, if_pos hin, slice_slice hin]
      exact ⟨s, rfl, hs⟩
    | false =>
      obtain ⟨hbr, -⟩ := histDefaultBlockRows_range h.fft_size
      have hdiv : i / histDefaultBlockRows h.fft_size * histDefaultBlockRows h.fft_size ≤ i :=
        Nat.div_mul_le_self _ _
      obtain ⟨s', hload, hs', hblock⟩ := loadBlock_serves junk hz hp hw hsrc hnb
        hfit hs hfull (lt_of_le_of_lt hdiv hi)
      have hrem := Nat.lt_div_mul_add (a := i) (show 0 < histDefaultBlockRows h.fft_size by omega)
      have hmod : numRows h src % 2 ^ 32 ≤ numRows h src := Nat.mod_le _ _
      rw [getRow_of_block junk (by rw [hs.hdr, hp.fft_size]; omega) (by rw [hs.num_rows]; exact hi)
        hs.is_v4 hfull (by rw [hs.hdr, hp.block_rows]; omega), hs.hdr, hp.block_rows, hp.fft_size,
        hload]
      dsimp only
      rw [hs'.cached _ hblock _ (by rw [rowsHere]; omega), Nat.add_sub_cancel' hdiv]
      exact ⟨s', rfl, hs'⟩
  · refine ⟨s, ?_, hs⟩
    rw [rowOr, if_neg (by omega), getRow, if_pos (.inr (by rw [hs.num_rows]; exact hi))]

theorem preloadRows_serves (hz : z.RoundTrips) {level : ℕ} {h v : FileHeader} {src dst : Bytes}
    {index : List HistBlockIndex} (hp : Packed z level h src dst v index) (hw : 0 < h.fft_size)
    (hsrc : headerSize ≤ src.length) (hnb : numBlocks h src % 2 ^ 32 ≠ 0)
    (hfit : FramesFit z level h src (numRows h src % 2 ^ 32)) {k r : ℕ} {s : HistReader}
    (hs : Serves h src dst v index s) (hk : r + k ≤ numRows h src % 2 ^ 32) :
    ∃ s', preloadRows z junk k r s =
        (some (slice (headerSize + r * h.fft_size) (k * h.fft_size) src), s') ∧
      Serves h src dst v index s' := by
  induction k generalizing r s with
  | zero => exact ⟨s, by simp [preloadRows, slice], hs⟩
  | succ k ih =>
    obtain ⟨s', hrow, hs'⟩ := getRow_serves junk hz hp hw hsrc hnb hfit hs r
    obtain ⟨s'', hrest, hs''⟩ := ih hs' (by omega : r + 1 + k ≤ _)
    have hnext : headerSize + (r + 1) * h.fft_size = headerSize + r * h.fft_size + h.fft_size := by
      ring
    have hlen : h.fft_size + k * h.fft_size = (k + 1) * h.fft_size := by ring
    rw [rowOr, if_pos (by omega)] at hrow
    rw [preloadRows, hrow]
    dsimp only
    rw [hrest]
    dsimp only
    rw [rowAt, hnext, slice_append_slice, hlen]
    exact ⟨s'', rfl, hs''⟩

theorem call_serves (hz : z.RoundTrips) {level : ℕ} {h v : FileHeader} {src dst : Bytes}
    {index : List HistBlockIndex} (hp : Packed z level h src dst v index) (hw : 0 < h.fft_size)
    (hsrc : headerSize ≤ src.length) (hnb : numBlocks h src % 2 ^ 32 ≠ 0)
    (hfit : FramesFit z level h src (numRows h src % 2 ^ 32)) {s : HistReader}
    (hs : Serves h src dst v index s) {c : Call} (hc : c.Opens) :
    Serves h src dst v index (call z junk s c) := by
  cases c with
  | getRow r =>
    obtain ⟨s', hrow, hs'⟩ := getRow_serves junk hz hp hw hsrc hnb hfit hs r
    rw [call, hrow]
    exact hs'
  | preloadFull max_bytes alloc =>
    rw [call, preloadFull]
    split_ifs with hready hzero hmem
    · exact hs
    · exact hs
    · exact hs
    · obtain ⟨s', hpre, hs'⟩ := preloadRows_serves junk hz hp hw hsrc hnb hfit
        (k := s.num_rows) (r := 0) hs (by rw [hs.num_rows, Nat.zero_add])
      rw [hpre]
      refine ⟨hs'.file, hs'.hdr, hs'.num_rows, hs'.is_v4, hs'.index, ?_, ?_, ?_⟩
      · -- what was decompressed has a row, so it is used from now on
        intro hnot
        have hend := rows_le_length hsrc (Nat.mod_le (numRows h src) (2 ^ 32))
        have hpos : 0 < numRows h src % 2 ^ 32 * h.fft_size := by
          rw [← hs.num_rows]
          exact Nat.mul_pos (by omega) hw
        have hlen := slice_length hend
        simp only [fullReady, hs.num_rows, Nat.zero_mul, Nat.add_zero, Option.any_some,
          decide_eq_false_iff_not, not_not] at hnot
        rw [hnot, List.length_nil] at hlen
        omega
      · intro b hb
        cases hb
      · rintro buf hbuf
        obtain rfl := Option.some.inj hbuf
        rw [hs.num_rows, Nat.zero_mul, Nat.add_zero]
  | cloneForThread opened mapped =>
    rw [call, cloneForThread]
    split_ifs with hready
    · refine ⟨hs.file, hs.hdr, hs.num_rows, hs.is_v4, hs.index, fun hnot => ?_, ?_, hs.full⟩
      · cases hready.symm.trans hnot
      · intro b hb
        cases hb
    · refine ⟨hs.file, hs.hdr, hs.num_rows, hs.is_v4, hs.index, fun _ => hc, ?_, hs.full⟩
      intro b hb
      cases hb

/-- The reader of a compressed file that has just been opened. -/
def opened (h : FileHeader) (src dst : Bytes) (v : FileHeader) (index : List HistBlockIndex)
    (map : Bool) : HistReader :=
  ⟨dst, v, numRows h src % 2 ^ 32, true, map, true, index, none, [], none⟩

theorem open_packed {level : ℕ} {h v : FileHeader} {src dst : Bytes} {index : List HistBlockIndex}
    (hp : Packed z level h src dst v index) (hw : 0 < h.fft_size) (map : Bool) :
    HistReader.open map dst =
      if numBlocks h src % 2 ^ 32 = 0 then none else some (opened h src dst v index map) := by
  obtain ⟨hbr, -⟩ := histDefaultBlockRows_range h.fft_size
  have hoff := hp.index_offset
  have hend := hp.index_end
  unfold HistReader.open
  rw [hp.read]
  dsimp only
  rw [if_neg (by simp [hp.version, hp.fft_size, hw.ne']), if_pos hp.version, hp.index_read,
    hp.num_rows, Option.map_some]
  by_cases hnb : numBlocks h src % 2 ^ 32 = 0
  · rw [if_pos hnb, if_pos (.inr (.inr (.inl (hp.num_blocks.trans hnb))))]
  · rw [if_neg hnb, if_neg]
    · rfl
    · rw [hp.codec, hp.block_rows, hp.num_blocks] at *
      omega

theorem opened_serves {h v : FileHeader} {src dst : Bytes}
    {index : List HistBlockIndex} (map : Bool) :
    Serves h src dst v index (opened h src dst v index map) :=
  ⟨rfl, rfl, rfl, rfl, rfl, fun _ => rfl, fun _ hb => (by cases hb), fun _ hb => (by cases hb)⟩

/-- The first row of a block whose frame does not fit cannot be read. -/
theorem getRow_opened (hwhole : z.Whole) {level : ℕ} {h v : FileHeader} {src dst : Bytes}
    {index : List HistBlockIndex} (hp : Packed z level h src dst v index) (hw : 0 < h.fft_size)
    (hnb : numBlocks h src % 2 ^ 32 ≠ 0) {b : ℕ} {c : Bytes} (map : Bool)
    (hb : b * histDefaultBlockRows h.fft_size < numRows h src % 2 ^ 32)
    (hc : blockFrame z level h src b = some c) (hbig : 2 ^ 32 ≤ c.length) :
    (getRow z junk (opened h src dst v index map) (b * histDefaultBlockRows h.fft_size)).1 =
      none := by
  obtain ⟨hbr, -⟩ := histDefaultBlockRows_range h.fft_size
  have hm : numRows h src % 2 ^ 32 < 2 ^ 32 := Nat.mod_lt _ (by decide)
  have hle : b * 64 ≤ b * histDefaultBlockRows h.fft_size := Nat.mul_le_mul_left b hbr
  obtain ⟨c', e, hc', he, hrows, hread⟩ := hp.entry b (block_lt_of_row_lt hnb hb)
  obtain rfl := Option.some.inj (hc.symm.trans hc')
  have hcut : c.length % 2 ^ 32 < c.length := by
    have := Nat.mod_lt c.length (show 0 < 2 ^ 32 by decide)
    omega
  have hpos : 0 < e.raw_rows * v.fft_size := by
    have hmod : numRows h src % 2 ^ 32 ≤ numRows h src := Nat.mod_le _ _
    rw [hrows, hp.fft_size]
    exact Nat.mul_pos (by rw [rowsHere]; omega) hw
  have hat : (opened h src dst v index map).readAt e.frame_offset e.comp_len =
      some (c.take (c.length % 2 ^ 32)) := readAt_of_fread rfl hread
  have hload : (loadBlock z junk (opened h src dst v index map) b).1 = false := by
    unfold loadBlock
    rw [if_neg (by change b ≠ 2 ^ 32 - 1; omega)]
    change (match index[b]? with | none => _ | some e => _ : Bool × HistReader).1 = false
    rw [he]
    dsimp only
    rw [hat]
    dsimp only
    cases hr : z.decompress (c.take (c.length % 2 ^ 32)) with
    | none => rfl
    | some raw =>
      -- no more than nothing is left of the frame
      obtain rfl := hwhole _ _ _ _ _ hc hcut hr
      dsimp only
      rw [if_neg]
      rintro ⟨-, hlen⟩
      change 0 = e.raw_rows * v.fft_size at hlen
      omega
  have hblock : b * histDefaultBlockRows h.fft_size /
      (opened h src dst v index map).hdr.block_rows = b :=
    (congrArg _ hp.block_rows).trans (Nat.mul_div_cancel b (by omega))
  have hrow := getRow_of_block junk (z := z) (s := opened h src dst v index map)
    (r := b * histDefaultBlockRows h.fft_size) (hp.fft_size.trans_ne hw.ne') hb rfl rfl
    (hp.block_rows.trans_ne (by omega))
  rw [hrow, hblock]
  split
  · rfl
  · next hs => rw [hs] at hload; cases hload

end HistReader

/-- If the rows are the same, the number of blocks is not lost and the frames fit. -/
theorem fits_of_sameRows {z : Zstd} (hwhole : z.Whole) {junk : Bytes → Bytes} {level : ℕ}
    {src dst : Bytes} {h v : FileHeader} {index : List HistBlockIndex}
    (hh : FileHeader.read src = some h) (hver : h.version = FILE_VERSION) (hw : 0 < h.fft_size)
    (hp : Packed z level h src dst v index) (hsame : SameRows z junk src dst) :
    numBlocks h src % 2 ^ 32 ≠ 0 ∧ FramesFit z level h src (numRows h src % 2 ^ 32) := by
  obtain ⟨s, t, hs, ht, hrows⟩ := hsame true true
  obtain ⟨s', hs', hplain⟩ := HistReader.open_plain hh hver hw true
  obtain rfl := Option.some.inj (hs.symm.trans hs')
  rw [HistReader.open_packed hp hw] at ht
  split_ifs at ht with hnb
  obtain rfl := Option.some.inj ht
  refine ⟨hnb, fun b c hbm hframe => ?_⟩
  by_contra hbig
  have hrow := hrows [] [] (by simp) (by simp) (b * histDefaultBlockRows h.fft_size)
  rw [if_pos (by rw [hplain.num_rows]; exact hbm)] at hrow
  obtain ⟨row, -, hrow⟩ := hrow
  have hnone := HistReader.getRow_opened junk hwhole hp hw hnb true hbm hframe (by omega)
  cases hnone.symm.trans hrow

/-- The rows of a compressed file are read as those of the raw file exactly if its number of blocks
is not a multiple of `2^32` and every block within the row count has a frame below 4 GiB. -/
theorem sameRows_iff {z : Zstd} (hz : z.RoundTrips) (hb : z.Bounded) (hwhole : z.Whole)
    (junk : Bytes → Bytes) {level : ℕ} {src dst : Bytes} {h : FileHeader}
    (hh : FileHeader.read src = some h) (hsize : src.length < 2 ^ 63)
    (hc : compressHistFile z level src = some dst) :
    SameRows z junk src dst ↔ numBlocks h src % 2 ^ 32 ≠ 0 ∧
      FramesFit z level h src (numRows h src % 2 ^ 32) := by
  obtain ⟨v, index, hp⟩ := packed_of_compress hb hh hsize hc
  obtain ⟨h', -, -, hh', hver, hw, -⟩ := of_compressHistFile hc
  obtain rfl := Option.some.inj (hh.symm.trans hh')
  obtain ⟨-, hsrc, -⟩ := FileHeader.bytes_of_read hh
  constructor
  · exact fits_of_sameRows hwhole hh hver hw hp
  · rintro ⟨hnb, hfit⟩ map₃ map₄
    obtain ⟨s, hs, hplain⟩ := HistReader.open_plain hh hver hw map₃
    have ht := HistReader.open_packed hp hw map₄
    rw [if_neg hnb] at ht
    refine ⟨s, _, hs, ht, fun calls₃ calls₄ h₃ h₄ i => ?_⟩
    have hplain' : HistReader.Plain h src (calls₃.foldl (HistReader.call z junk) s) :=
      HistReader.foldl_call junk (HistReader.Plain h src)
        (fun s c hs hc => HistReader.call_plain junk hs hw hsrc hc) h₃ hplain
    have hserves : HistReader.Serves h src dst v index
        (calls₄.foldl (HistReader.call z junk) (HistReader.opened h src dst v index map₄)) :=
      HistReader.foldl_call junk (HistReader.Serves h src dst v index)
        (fun s c hs hc => HistReader.call_serves junk hz hp hw hsrc hnb hfit hs hc) h₄
        (HistReader.opened_serves map₄)
    obtain ⟨t, hrow, -⟩ := HistReader.getRow_serves junk hz hp hw hsrc hnb hfit hserves i
    rw [HistReader.rowAfter, HistReader.rowAfter, HistReader.getRow_plain junk hplain' hw hsrc, hrow,
      hplain.num_rows]
    split_ifs with hi
    · exact ⟨rowAt h src i, if_pos hi, if_pos hi⟩
    · exact ⟨if_neg hi, if_neg hi⟩

/-- The three whole rows are read the same. -/
theorem sameRows_torn : ∃ dst, compressHistFile framedZstd 3 tornRecording = some dst ∧
    SameRows framedZstd id tornRecording dst := by
  obtain ⟨hh, hver, hw, hlen⟩ := tornRecording_header
  have hn : numRows (liveHeader (startOf 2)) tornRecording = 3 := by
    rw [numRows, hlen, hw]
    decide
  obtain ⟨dst, hdst⟩ := (exists_compressHistFile framedZstd 3 hh hver (by rw [hw]; decide)
    (by rw [hn]; decide)).mpr fun b _ => framedZstd_blockFrame (by omega) b
  refine ⟨dst, hdst, (sameRows_iff framedZstd_roundTrips framedZstd_bounded framedZstd_whole id hh
    (by omega) hdst).mpr ⟨?_, framesFit_framedZstd (by omega) _⟩⟩
  rw [numBlocks, hn, hw]
  decide

/-- A byte of noise. -/
def noise (i : ℕ) : UInt8 := UInt8.ofNat ((i + 1) * (i + 1) * 2654435761 / 2 ^ 24)

/-- Sixty-four rows of noise, of 2^26 bins. -/
def wideRecording : Bytes := recordingOf (2 ^ 26) ((List.range (2 ^ 32)).map noise)

/-- The block of noise has a frame of more than 4 GiB, and its rows cannot be read. -/
theorem not_sameRows_wide : ∃ dst, compressHistFile framedZstd 3 wideRecording = some dst ∧
    ¬SameRows framedZstd id wideRecording dst := by
  have hh : FileHeader.read wideRecording = some (liveHeader (startOf (2 ^ 26))) :=
    FileHeader.read_append _ (by decide) _
  have hw : (liveHeader (startOf (2 ^ 26))).fft_size = 2 ^ 26 := by decide
  have hver : (liveHeader (startOf (2 ^ 26))).version = FILE_VERSION := by decide
  have hlen : wideRecording.length = headerSize + 2 ^ 32 := by
    rw [wideRecording, recordingOf, List.length_append, (liveHeader _).size, List.length_map,
      List.length_range]
  have h128 : headerSize = 128 := rfl
  have hn : numRows (liveHeader (startOf (2 ^ 26))) wideRecording = 64 := by
    rw [numRows, hlen, hw]
    decide
  obtain ⟨dst, hdst⟩ := (exists_compressHistFile framedZstd 3 hh hver (by rw [hw]; decide)
    (by rw [hn]; decide)).mpr fun b _ => framedZstd_blockFrame (by omega) b
  refine ⟨dst, hdst, fun hsame => ?_⟩
  obtain ⟨v, index, hp⟩ := packed_of_compress framedZstd_bounded hh (by omega) hdst
  obtain ⟨-, hfit⟩ := fits_of_sameRows framedZstd_whole hh hver (by rw [hw]; decide) hp hsame
  have hraw : (blockRaw (liveHeader (startOf (2 ^ 26))) wideRecording 0).length = _ :=
    blockRaw_length (by omega) 0
  have hrows : rowsHere (liveHeader (startOf (2 ^ 26))) wideRecording 0 = 64 := by
    rw [rowsHere, hn, hw]
    decide
  rw [hrows, hw] at hraw
  have hdelta := (sumRows_deltaRows (w := 2 ^ 26) (by decide) (Dvd.intro_left _ hraw.symm)).2
  have hframe : blockFrame framedZstd 3 (liveHeader (startOf (2 ^ 26))) wideRecording 0 = _ :=
    framedZstd_compress (by rw [hw, hdelta, hraw]; decide)
  have hbig := hfit 0 _ (by rw [hn]; decide) hframe
  rw [List.length_append, leBytes_length, hw, hdelta, hraw] at hbig
  omega

end Bewe.Hist

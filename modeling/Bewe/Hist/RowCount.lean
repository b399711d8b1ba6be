import Bewe.Hist.Reader

/-!
# The number of rows of a recording

Four places count the rows of a `.bewehist` file: Central when the host asks what it has
(`handle_hist_stat_req`) and when it joins a segment to the file before it (`hist_read_header`, both
of `central/central_mission_archive.cpp`), the viewer (`HistReader`, when it lists a file and when it
opens one), and the host, which compares its own file with Central's answer (`read_local` of
`src/hist_check.cpp`). Each takes the number from the extension of a compressed file and divides the
size of a raw one by the width of a row; a host has no compressed files, and leaves them alone.

The width of a row is `fft_size`, as the writers have it and `hist_reader.hpp` says. Central's answer
and the host's comparison take `fft_input_size`. `counts_iff` says when this, or the 32 bits in which
an opened file keeps the number, makes a difference.
-/

namespace Bewe.Hist

open Lib

/-! ## The counts -/

/-- `h.fft_input_size ? h.fft_input_size : h.fft_size`. -/
def inputWidth (h : FileHeader) : ℕ :=
  if h.fft_input_size ≠ 0 then h.fft_input_size else h.fft_size

/-- The rows that `handle_hist_stat_req` finds in a file; none if it passes over the file. -/
def histStatRows (b : Bytes) : Option ℕ :=
  match FileHeader.read b with
  | none => none
  | some h =>
    if h.version = FILE_VERSION_ZSTD then some h.num_rows
    else if h.version = FILE_VERSION then
      some (if inputWidth h ≠ 0 then (b.length - headerSize) / inputWidth h else 0)
    else none

/-- `HistReader::read_header`: the header; none if it fails. -/
def readHeader (b : Bytes) : Option FileHeader :=
  (FileHeader.read b).filter fun h => h.version = FILE_VERSION ∨ h.version = FILE_VERSION_ZSTD

/-- `HistReader::rows_from_header`. -/
def rowsFromHeader (h : FileHeader) (file_size : ℕ) : ℕ :=
  if h.version = FILE_VERSION_ZSTD then h.num_rows
  else if h.fft_size = 0 then 0
  else (file_size - headerSize) / h.fft_size

/-- The rows that `read_local` finds; none if it fails. -/
def readLocal (b : Bytes) : Option ℕ :=
  match FileHeader.read b with
  | none => none
  | some h =>
    if h.version ≠ FILE_VERSION ∨ inputWidth h = 0 then none
    else
      let rows := (b.length - headerSize) / inputWidth h
      if 0 < rows then some rows else none

/-- Whoever counts the rows of a file counts `n`. -/
structure Counts (b : Bytes) (n : ℕ) : Prop where
  stat : ∀ k, histStatRows b = some k → k = n
  merge : ∀ h k, histReadHeader b = some (h, k) → k = n
  listed : ∀ h, readHeader b = some h → rowsFromHeader h b.length = n
  opened : ∀ map s, HistReader.open map b = some s → s.num_rows = n
  check : ∀ k, readLocal b = some k → k = n

/-- A recording: a raw file, with any bytes behind the header, or what `compress_hist_file` makes of
one. -/
inductive Recorded (z : Zstd) (b : Bytes) : Prop
  | raw {h : FileHeader} : FileHeader.read b = some h → h.version = FILE_VERSION → Recorded z b
  | packed {level : ℕ} {src : Bytes} : src.length < 2 ^ 63 →
      compressHistFile z level src = some b → Recorded z b

/-- The width does not matter, and the number of rows fits in 32 bits. -/
structure Countable (h : FileHeader) (size : ℕ) : Prop where
  width : h.version = FILE_VERSION →
    (size - headerSize) / inputWidth h = (size - headerSize) / h.fft_size
  narrow : rowsFromHeader h size < 2 ^ 32

/-! ## Raw files -/

section

variable {z : Zstd} {b : Bytes} {h : FileHeader}

theorem rowsFromHeader_raw (hver : h.version = FILE_VERSION) (size : ℕ) :
    rowsFromHeader h size = (size - headerSize) / h.fft_size := by
  unfold rowsFromHeader
  rw [if_neg (by rw [hver]; decide)]
  split_ifs with hw
  · rw [hw, Nat.div_zero]
  · rfl

theorem histStatRows_raw (hh : FileHeader.read b = some h) (hver : h.version = FILE_VERSION) :
    histStatRows b = some ((b.length - headerSize) / inputWidth h) := by
  unfold histStatRows
  rw [hh]
  dsimp only
  rw [if_neg (by rw [hver]; decide), if_pos hver]
  split_ifs with hw
  · rfl
  · rw [not_not.1 hw, Nat.div_zero]

theorem readHeader_eq (hh : FileHeader.read b = some h)
    (hver : h.version = FILE_VERSION ∨ h.version = FILE_VERSION_ZSTD) : readHeader b = some h := by
  rw [readHeader, hh, Option.filter_some, if_pos (decide_eq_true hver)]

theorem readLocal_raw (hh : FileHeader.read b = some h) {k : ℕ} (hk : readLocal b = some k) :
    k = (b.length - headerSize) / inputWidth h := by
  unfold readLocal at hk
  rw [hh] at hk
  dsimp only at hk
  split_ifs at hk
  exact (Option.some.inj hk).symm

theorem fileRows_raw_length (hh : FileHeader.read b = some h) (hver : h.version = FILE_VERSION)
    {rs : List Bytes} (hrs : fileRows z b = some rs) :
    rs.length = (b.length - headerSize) / rowWidth h := by
  unfold fileRows at hrs
  rw [hh] at hrs
  dsimp only at hrs
  rw [if_neg (by rw [hver]; decide), if_pos hver, rawRows, hh, Option.map_some] at hrs
  rw [← Option.some.inj hrs, rows_length, List.length_drop]

/-- With whatever width, the rows of a raw file are those of its `fft_size`, where that gives as many
as the other one. -/
theorem div_rowWidth {size : ℕ}
    (hwidth : (size - headerSize) / inputWidth h = (size - headerSize) / h.fft_size) :
    (size - headerSize) / rowWidth h = (size - headerSize) / h.fft_size := by
  unfold rowWidth
  split_ifs with hw
  · rfl
  · have hzero : h.fft_size = 0 := not_not.1 hw
    rw [← hwidth, inputWidth, hzero]
    split_ifs with hin
    · rfl
    · rw [not_not.1 hin]

theorem histReadHeader_eq {h' : FileHeader} {k : ℕ} (hk : histReadHeader b = some (h', k)) :
    FileHeader.read b = some h' ∧ countRows h' b.length = some k := by
  unfold histReadHeader at hk
  split at hk
  · cases hk
  · next h hh =>
    split at hk
    · next n hn =>
      obtain ⟨rfl, rfl⟩ := Prod.mk.inj (Option.some.inj hk)
      exact ⟨hh, hn⟩
    · cases hk

theorem counts_raw_iff (hh : FileHeader.read b = some h) (hver : h.version = FILE_VERSION)
    {rs : List Bytes} (hrs : fileRows z b = some rs) :
    Counts b rs.length ↔ Countable h b.length := by
  have hlisted := rowsFromHeader_raw hver b.length
  have hne : h.version ≠ FILE_VERSION_ZSTD := by
    rw [hver]
    decide
  constructor
  · intro hcounts
    have hall := hcounts.listed h (readHeader_eq hh (Or.inl hver))
    have hstat := hcounts.stat _ (histStatRows_raw hh hver)
    refine ⟨fun _ => by rw [hstat, ← hlisted, hall], ?_⟩
    rcases Nat.eq_zero_or_pos h.fft_size with hzero | hw
    · rw [hlisted, hzero, Nat.div_zero]
      decide
    · obtain ⟨s, hopen, hplain⟩ := HistReader.open_plain hh hver hw true
      have hmod := hplain.num_rows
      rw [hcounts.opened true s hopen, ← hall] at hmod
      rw [hmod]
      exact Nat.mod_lt _ (by decide)
  · rintro ⟨hwidth, hnarrow⟩
    have hwidth := hwidth hver
    have hrows : rs.length = (b.length - headerSize) / h.fft_size := by
      rw [fileRows_raw_length hh hver hrs, div_rowWidth hwidth]
    rw [hlisted] at hnarrow
    constructor
    · intro k hk
      rw [histStatRows_raw hh hver] at hk
      rw [← Option.some.inj hk, hwidth, hrows]
    · intro h' k hk
      obtain ⟨hh', hcount⟩ := histReadHeader_eq hk
      obtain rfl := Option.some.inj (hh.symm.trans hh')
      rw [countRows, if_neg hne, if_pos hver] at hcount
      split_ifs at hcount
      rw [← Option.some.inj hcount, div_rowWidth hwidth, hrows]
    · intro h' hh'
      obtain rfl := Option.some.inj ((readHeader_eq hh (Or.inl hver)).symm.trans hh')
      rw [hlisted, hrows]
    · intro map s hopen
      rcases Nat.eq_zero_or_pos h.fft_size with hzero | hw
      · unfold HistReader.open at hopen
        rw [hh] at hopen
        dsimp only at hopen
        rw [if_pos (Or.inr hzero)] at hopen
        cases hopen
      · obtain ⟨s', hopen', hplain⟩ := HistReader.open_plain hh hver hw map
        obtain rfl := Option.some.inj (hopen.symm.trans hopen')
        rw [hplain.num_rows, numRows, Nat.mod_eq_of_lt hnarrow, hrows]
    · intro k hk
      rw [readLocal_raw hh hk, hwidth, hrows]

/-! ## Compressed files -/

theorem rowsFromHeader_packed (hver : h.version = FILE_VERSION_ZSTD) (size : ℕ) :
    rowsFromHeader h size = h.num_rows := by
  rw [rowsFromHeader, if_pos hver]

/-- A compressed file from which rows can be had is counted alike if their number fits in
32 bits. -/
theorem counts_packed_iff (hz : z.RoundTrips) (hb : z.Bounded) (hwhole : z.Whole) {level : ℕ}
    {src : Bytes} (hsize : src.length < 2 ^ 63) (hc : compressHistFile z level src = some b)
    (hh : FileHeader.read b = some h) {rs : List Bytes} (hrs : fileRows z b = some rs) :
    Counts b rs.length ↔ Countable h b.length := by
  obtain ⟨h₀, -, -, hh₀, -, hw, hn, -⟩ := of_compressHistFile hc
  obtain ⟨v, index, hp⟩ := packed_of_compress hb hh₀ hsize hc
  obtain rfl := Option.some.inj (hh.symm.trans hp.read)
  have hlisted := rowsFromHeader_packed hp.version b.length
  have hne : h.version ≠ FILE_VERSION := by
    rw [hp.version]
    decide
  have hstat : histStatRows b = some h.num_rows := by
    rw [histStatRows, hh]
    exact if_pos hp.version
  -- rows can be had from it only if its blocks are there and their frames fit
  obtain ⟨out, hout⟩ : ∃ out, decompressHistFile z b = some out := by
    unfold fileRows at hrs
    rw [hh] at hrs
    dsimp only at hrs
    rw [if_pos hp.version] at hrs
    obtain ⟨out, hout, -⟩ := Option.bind_eq_some_iff.1 hrs
    exact ⟨out, hout⟩
  obtain ⟨hnb, hfit⟩ := hp.fit_of_decompress hwhole hw hout
  have hopen : ∀ map, HistReader.open map b = some (HistReader.opened h₀ src b h index map) :=
    fun map => by rw [HistReader.open_packed hp hw, if_neg hnb]
  constructor
  · intro hcounts
    refine ⟨fun hver => absurd hver hne, ?_⟩
    have hmod : numRows h₀ src % 2 ^ 32 = rs.length := hcounts.opened true _ (hopen true)
    rw [hcounts.listed h (readHeader_eq hh (Or.inr hp.version)), ← hmod]
    exact Nat.mod_lt _ (by decide)
  · rintro ⟨-, hnarrow⟩
    rw [hlisted, hp.num_rows] at hnarrow
    obtain ⟨-, hblock⟩ := numBlocks_spec h₀ src
    obtain ⟨hbr, -⟩ := histDefaultBlockRows_range h₀.fft_size
    have hnb32 : numBlocks h₀ src < 2 ^ 32 := by
      by_contra hbig
      have hlast := (hblock (2 ^ 32 - 1)).1 (by omega)
      have hmul := Nat.mul_le_mul_left (2 ^ 32 - 1) hbr
      omega
    have hframes : FramesFit z level h₀ src (numRows h₀ src) := by
      intro k c hk hframe
      rw [Nat.mod_eq_of_lt hnb32] at hfit
      exact hfit k c ((hblock k).2 hk) hframe
    have hrows : rs.length = numRows h₀ src := by
      have hall := hp.decompress_whole hz hw hn hnb32 hframes
      unfold fileRows at hrs
      rw [hh] at hrs
      dsimp only at hrs
      rw [if_pos hp.version, hall, Option.bind_some, rawRows_whole hh₀ hw] at hrs
      rw [← Option.some.inj hrs, rows_length, List.length_drop, numRows]
    constructor
    · intro k hk
      rw [hstat, hp.num_rows] at hk
      rw [← Option.some.inj hk, hrows]
    · intro h' k hk
      obtain ⟨hh', hcount⟩ := histReadHeader_eq hk
      obtain rfl := Option.some.inj (hh.symm.trans hh')
      rw [countRows, if_pos hp.version, hp.num_rows] at hcount
      rw [← Option.some.inj hcount, hrows]
    · intro h' hh'
      obtain rfl := Option.some.inj ((readHeader_eq hh (Or.inr hp.version)).symm.trans hh')
      rw [hlisted, hp.num_rows, hrows]
    · intro map s hs
      rw [← Option.some.inj ((hopen map).symm.trans hs), HistReader.opened, hrows]
      exact Nat.mod_eq_of_lt hnarrow
    · intro k hk
      unfold readLocal at hk
      rw [hh] at hk
      dsimp only at hk
      rw [if_pos (Or.inl hne)] at hk
      cases hk

/-- Everybody who counts the rows of a recording counts those that are stored in it, exactly if
`fft_input_size` gives as many as `fft_size`, and they fit in 32 bits. -/
theorem counts_iff (hz : z.RoundTrips) (hb : z.Bounded) (hwhole : z.Whole) (hrec : Recorded z b)
    (hh : FileHeader.read b = some h) {rs : List Bytes} (hrs : fileRows z b = some rs) :
    Counts b rs.length ↔ Countable h b.length := by
  cases hrec with
  | raw hh' hver =>
    obtain rfl := Option.some.inj (hh.symm.trans hh')
    exact counts_raw_iff hh hver hrs
  | packed hsize hc => exact counts_packed_iff hz hb hwhole hsize hc hh hrs

/-- Three rows of two bins, and a torn one. -/
theorem counts_iff_tornRecording :
    Counts tornRecording [[3, 1], [4, 1], [5, (9 : UInt8)]].length ↔
      Countable (liveHeader (startOf 2)) tornRecording.length :=
  counts_iff framedZstd_roundTrips framedZstd_bounded framedZstd_whole
    (.raw tornRecording_header.1 tornRecording_header.2.1) tornRecording_header.1
    (by decide +kernel)

/-- A recording with rows of eight bins, of a host that pads its spectrum fourfold. -/
def paddedRecording : Bytes :=
  (liveHeader { startOf 8 with fft_input_size := 2 }).bytes ++ [1, 2, 3, 4, 5, 6, 7, 8]

/-- Central answers that it has four rows, where there is one. -/
theorem paddedRecording_miscounted : ¬ ∀ (z : Zstd) (b : Bytes), z.RoundTrips → z.Bounded →
    z.Whole → Recorded z b → ∀ rs, fileRows z b = some rs → Counts b rs.length := by
  intro hall
  have hread : FileHeader.read paddedRecording =
      some (liveHeader { startOf 8 with fft_input_size := 2 }) :=
    FileHeader.read_append _ (by decide) _
  have hcounts := hall framedZstd paddedRecording framedZstd_roundTrips framedZstd_bounded
    framedZstd_whole (.raw hread (by decide)) [[1, 2, 3, 4, 5, 6, 7, 8]]
    (by decide +kernel)
  exact absurd (hcounts.stat 4 (by decide +kernel)) (by decide)

end

end Bewe.Hist

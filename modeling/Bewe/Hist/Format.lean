import Bewe.Lib.Binary
import Bewe.Lib.Layout
import Bewe.Text

/-!
# The HIST file format

A `.bewehist` file (`src/long_waterfall.hpp`): a header of 128 bytes laid over its fields, and rows
of one byte for each frequency bin. Version 3 has the rows as they are; version 4 has them
compressed in blocks, with an index behind the blocks and the extension fields `V4Ext` over
`reserved_v3`. A header is its bytes, as the packed struct is; a field is the number at its offset.
Float fields are exact rationals, none for an infinity or a NaN; a `float` result is rounded to 24
bits.
-/

namespace Bewe.Hist

open Lib

/-- `sizeof(FileHeader)`. -/
def headerSize : ℕ := 128

/-- `"BWWF"`. -/
def magic : Bytes := ascii "BWWF"

/-- `FILE_VERSION` and `FILE_VERSION_ZSTD`. -/
def FILE_VERSION : ℕ := 3
@[inherit_doc FILE_VERSION] def FILE_VERSION_ZSTD : ℕ := 4

/-- `HIST_CODEC_ZSTD` and `HIST_V4_FLAG_COL_DELTA`. -/
def HIST_CODEC_ZSTD : ℕ := 1
@[inherit_doc HIST_CODEC_ZSTD] def HIST_V4_FLAG_COL_DELTA : ℕ := 2

/-- `FileHeader`: 128 bytes with fields laid over them. -/
@[ext]
structure FileHeader where
  bytes : Bytes
  size : bytes.length = headerSize
  deriving DecidableEq

namespace FileHeader

/-- The number in `len` bytes at an offset. -/
def field (h : FileHeader) (off len : ℕ) : ℕ := leNat (slice off len h.bytes)

def version (h : FileHeader) : ℕ := h.field 4 2
def fft_size (h : FileHeader) : ℕ := h.field 6 4
def sample_rate_hz (h : FileHeader) : ℕ := h.field 10 8
def center_freq_hz (h : FileHeader) : ℕ := h.field 18 8
def row_rate_hz (h : FileHeader) : Option ℚ := decode32 (h.field 26 4)
def db_min (h : FileHeader) : Option ℚ := decode32 (h.field 30 4)
def db_max (h : FileHeader) : Option ℚ := decode32 (h.field 34 4)
def start_utc_unix (h : FileHeader) : ℕ := h.field 38 8
def fft_input_size (h : FileHeader) : ℕ := h.field 50 4

/-! The fields of `V4Ext`, over `reserved_v3`. -/

def codec (h : FileHeader) : ℕ := h.field 100 1
def flags (h : FileHeader) : ℕ := h.field 101 1
def block_rows (h : FileHeader) : ℕ := h.field 102 4
def num_blocks (h : FileHeader) : ℕ := h.field 106 4
def num_rows (h : FileHeader) : ℕ := h.field 110 8
def index_offset (h : FileHeader) : ℕ := h.field 118 8

/-- Storing bytes over a field. -/
def put (h : FileHeader) (off : ℕ) (v : Bytes) (hv : off + v.length ≤ headerSize) : FileHeader :=
  ⟨splice off v h.bytes, by rw [splice_length (by rw [h.size]; exact hv), h.size]⟩

theorem getElem?_put (h : FileHeader) {off : ℕ} {v : Bytes} (hv : off + v.length ≤ headerSize)
    (i : ℕ) : (h.put off v hv).bytes[i]? =
      if i < off then h.bytes[i]? else if i < off + v.length then v[i - off]? else h.bytes[i]? :=
  getElem?_splice (by rw [h.size]; omega) i

/-- A header read from the start of a file: 128 bytes with the magic. -/
def read (b : Bytes) : Option FileHeader :=
  if h : headerSize ≤ b.length ∧ b.take 4 = magic then
    some ⟨b.take headerSize, by simp [h.1]⟩
  else none

theorem bytes_of_read {b : Bytes} {h : FileHeader} (hr : read b = some h) :
    h.bytes = b.take headerSize ∧ headerSize ≤ b.length ∧ b.take 4 = magic := by
  unfold read at hr
  split_ifs at hr with hb
  exact ⟨by rw [← Option.some.inj hr], hb⟩

theorem read_append (h : FileHeader) (hm : slice 0 4 h.bytes = magic) (body : Bytes) :
    read (h.bytes ++ body) = some h := by
  have hsize := h.size
  have hlen : headerSize ≤ (h.bytes ++ body).length := by simp [hsize]
  have htake : (h.bytes ++ body).take headerSize = h.bytes := List.take_left' hsize
  have h4 : (h.bytes ++ body).take 4 = magic := by
    rw [List.take_append_of_le_length (by rw [hsize]; decide), ← hm, slice, List.drop_zero]
  rw [read, dif_pos ⟨hlen, h4⟩]
  congr 1
  cases h
  simp only [mk.injEq]
  exact htake

theorem field_put_of_disjoint {h : FileHeader} {off off' len : ℕ} {v : Bytes}
    (hv : off' + v.length ≤ headerSize) (hd : off + len ≤ off' ∨ off' + v.length ≤ off) :
    (h.put off' v hv).field off len = h.field off len := by
  have hsize := h.size
  unfold field put
  rcases hd with hd | hd
  · rw [slice_splice_of_le hd (by omega)]
  · rw [slice_splice_of_ge hd (by omega)]

theorem field_put_self {h : FileHeader} {off len n : ℕ} (hv : off + (leBytes len n).length ≤ headerSize)
    (hn : n < 256 ^ len) : (h.put off (leBytes len n) hv).field off len = n := by
  have hsize := h.size
  have hs := slice_splice_self (v := leBytes len n) (show off ≤ h.bytes.length by omega)
  rw [leBytes_length] at hs
  rw [field, put, hs, leNat_leBytes hn]

theorem field_put_within {h : FileHeader} {off i len : ℕ} {v : Bytes}
    (hv : off + v.length ≤ headerSize) (hi : i + len ≤ v.length) :
    (h.put off v hv).field (off + i) len = leNat (slice i len v) := by
  have hsize := h.size
  rw [field, put, slice_splice_within (by omega) hi]

theorem magic_of_read {b : Bytes} {h : FileHeader} (hr : read b = some h) :
    slice 0 4 h.bytes = magic := by
  obtain ⟨hb, -, hm⟩ := bytes_of_read hr
  rw [hb, slice, List.drop_zero, List.take_take, ← hm]
  rfl

end FileHeader

/-! ## Rows and times -/

/-- `h.fft_size ? h.fft_size : h.fft_input_size`, the width of a row. -/
def rowWidth (h : FileHeader) : ℕ := if h.fft_size ≠ 0 then h.fft_size else h.fft_input_size

/-- The number of rows of a file of a given size, as `hist_read_header` counts them; none if the
version is unknown or the width zero. -/
def countRows (h : FileHeader) (size : ℕ) : Option ℕ :=
  if h.version = FILE_VERSION_ZSTD then some h.num_rows
  else if h.version = FILE_VERSION then
    if rowWidth h = 0 then none else some ((size - headerSize) / rowWidth h)
  else none

/-- `hist_read_header`: the header and the number of rows of a file that has any. -/
def histReadHeader (b : Bytes) : Option (FileHeader × ℕ) :=
  match FileHeader.read b with
  | none => none
  | some h =>
    match countRows h b.length with
    | some (n + 1) => some (h, n + 1)
    | _ => none

/-- `fabsf(a - b) < 0.01f`. -/
def closeF (a b : Option ℚ) : Bool :=
  match a, b with
  | some a, some b => |roundBits 24 (a - b)| < 10737418 / 2 ^ 30
  | _, _ => false

/-- `hist_geom_match`. -/
def histGeomMatch (a b : FileHeader) : Bool :=
  a.fft_size = b.fft_size && a.fft_input_size = b.fft_input_size &&
    a.sample_rate_hz = b.sample_rate_hz && a.center_freq_hz = b.center_freq_hz &&
    closeF a.row_rate_hz b.row_rate_hz && closeF a.db_min b.db_min && closeF a.db_max b.db_max

theorem rowWidth_of_match {a b : FileHeader} (h : histGeomMatch a b = true) :
    a.fft_size = b.fft_size ∧ rowWidth a = rowWidth b := by
  simp only [histGeomMatch, Bool.and_eq_true, decide_eq_true_eq] at h
  obtain ⟨⟨⟨⟨⟨⟨h1, h2⟩, -⟩, -⟩, -⟩, -⟩, -⟩ := h
  exact ⟨h1, by rw [rowWidth, rowWidth, h1, h2]⟩

/-- `x > 0.5f`, which holds of an infinite `x`. -/
def aboveHalf (bits : ℕ) : Bool := bits = 0x7f800000 || (decode32 bits).any fun r => 1 / 2 < r

/-- The seconds that a number of rows take: `(int64_t)(rows / rr)`, divided as `float`s, with the
row rate of the header, or 5 Hz if that is not above one half. -/
def rowSeconds (h : FileHeader) (n : ℕ) : ℕ :=
  if aboveHalf (h.field 26 4) then
    match h.row_rate_hz with
    | some r => ⌊roundBits 24 (roundBits 24 n / r)⌋₊
    -- an infinite rate
    | none => 0
  else ⌊roundBits 24 (roundBits 24 n / 5)⌋₊

/-- The time at which a recording of `n` rows ends. -/
def endUtc (h : FileHeader) (n : ℕ) : ℕ := h.start_utc_unix + rowSeconds h n

/-! ## Opening a recording -/

/-- `PktLwfLiveStart`. The `float` fields are their 32 bits. -/
structure PktLwfLiveStart where
  filename : Bytes
  fft_size : ℕ
  fft_input_size : ℕ
  sample_rate_hz : ℕ
  center_freq_hz : ℕ
  row_rate_hz : ℕ
  db_min : ℕ
  db_max : ℕ
  start_utc_unix : ℕ
  station_lon : ℕ
  utc_offset_hours : ℕ
  station_name : Bytes
  station_lat : ℕ
  fft_row_rate_hz : ℕ

/-- A `char` array of `n` bytes. -/
def charArray (n : ℕ) (s : Bytes) : Bytes := (s ++ List.replicate n 0).take n

/-- The row rate of an archive file: that of the frames, or the recording's if none is given. -/
def archiveRowRate (ls : PktLwfLiveStart) : ℕ :=
  if aboveHalf ls.fft_row_rate_hz then ls.fft_row_rate_hz else ls.row_rate_hz

/-- The header that Central writes for a recording that starts. -/
def liveHeader (ls : PktLwfLiveStart) : FileHeader where
  bytes := magic ++ leBytes 2 FILE_VERSION ++ leBytes 4 ls.fft_size ++ leBytes 8 ls.sample_rate_hz ++
    leBytes 8 ls.center_freq_hz ++ leBytes 4 (archiveRowRate ls) ++ leBytes 4 ls.db_min ++
    leBytes 4 ls.db_max ++ leBytes 8 ls.start_utc_unix ++ leBytes 4 ls.station_lon ++
    leBytes 4 ls.fft_input_size ++ leBytes 4 ls.utc_offset_hours ++ List.replicate 6 0 ++
    charArray 32 ls.station_name ++ leBytes 4 ls.station_lat ++ List.replicate 28 0
  size := by
    have hmagic : magic.length = 4 := by decide
    have hname : (charArray 32 ls.station_name).length = 32 := by
      simp [charArray]
    simp only [List.length_append, leBytes_length, List.length_replicate, hmagic, hname]
    rfl

/-! ## Names -/

/-- Two decimal digits. -/
def twoDigits (n : ℕ) : Bytes := padDigits 2 n

/-- The tail `-%02d%02d.bewehist` of a name, with the hour and the minute of a time in Korea. -/
def endTail (utc : ℕ) : Bytes :=
  ascii "-" ++ twoDigits ((utc + 9 * 3600) % 86400 / 3600) ++
    twoDigits ((utc + 9 * 3600) % 3600 / 60) ++ ascii ".bewehist"

/-- `"-LIVE.bewehist"`. -/
def liveTail : Bytes := ascii "-LIVE.bewehist"

/-- Whether a name ends in `.bewehist` from its last dot on. -/
def isBewehist (n : Bytes) : Bool :=
  match rfind (ascii ".") n with
  | some i => n.drop i = ascii ".bewehist"
  | none => false

theorem isBewehist_iff {n : Bytes} : isBewehist n = true ↔ ∃ a, n = a ++ ascii ".bewehist" := by
  unfold isBewehist
  constructor
  · intro h
    split at h
    · next i hi => exact ⟨n.take i, by rw [← of_decide_eq_true h, List.take_append_drop]⟩
    · cases h
  · rintro ⟨a, rfl⟩
    have hdot : rfind (ascii ".") (a ++ ascii ".bewehist") = some a.length :=
      rfind_append_cons (show (46 : UInt8) ∉ ascii "bewehist" by decide)
    rw [hdot]
    simp

theorem isBewehist_tmp (a : Bytes) : isBewehist (a ++ ascii ".tmp") = false := by
  have hdot : rfind (ascii ".") (a ++ ascii ".tmp") = some a.length :=
    rfind_append_cons (show (46 : UInt8) ∉ ascii "tmp" by decide)
  rw [isBewehist, hdot]
  simp only [List.drop_left]
  decide

theorem isBewehist_join {dir n : Bytes} (h : isBewehist n = true) :
    isBewehist (join dir n) = true := by
  obtain ⟨a, rfl⟩ := isBewehist_iff.mp h
  exact isBewehist_iff.mpr ⟨join dir a, by simp [join]⟩

/-- The year, the month from 0 to 11 and the day of a number of days since 1970. -/
def civilOfDays (days : ℕ) : ℕ × ℕ × ℕ :=
  -- counted in 400-year eras that begin on a first of March
  let z := days + 719468
  let doe := z % 146097
  let yoe := (doe - doe / 1460 + doe / 36524 - doe / 146096) / 365
  let doy := doe - (365 * yoe + yoe / 4 - yoe / 100)
  let mp := (5 * doy + 2) / 153
  let m := if mp < 10 then mp + 2 else mp - 10
  (yoe + z / 146097 * 400 + if m < 2 then 1 else 0, m, doy - (153 * mp + 2) / 5 + 1)

example : civilOfDays 0 = (1970, 0, 1) ∧ civilOfDays 19782 = (2024, 1, 29) ∧
    civilOfDays 20661 = (2026, 6, 27) := by decide

/-- `month_abbr3`. -/
def monthAbbr3 (m : ℕ) : Bytes := slice (3 * m) 3 (ascii "JanFebMarAprMayJunJulAugSepOctNovDec")

/-- `sanitize_station_hist`. -/
def sanitizeStationHist (sn : Bytes) : Bytes :=
  (if sn = [] then ascii "host" else sn).map fun c =>
    if isDigit c || 65 ≤ c && c ≤ 90 || 97 ≤ c && c ≤ 122 || c = 45 || c = 95 || c = 46 then c
    else 95

/-- `build_hist_filename_live`. -/
def buildHistFilenameLive (start_utc cf_hz : ℕ) (station_name : Bytes) : Bytes :=
  let utc := start_utc + 9 * 3600
  let (y, m, d) := civilOfDays (utc / 86400)
  let year := if y < 10000 then padDigits 4 y else natText y
  let cf_mhz := roundBits 53 (roundBits 53 cf_hz / 10 ^ 6)
  (sanitizeStationHist station_name ++ ascii "_" ++ [UInt8.ofNat (65 + m)] ++ twoDigits d ++
    ascii "_" ++ monthAbbr3 m ++ twoDigits d ++ ascii "." ++ year ++ ascii "_" ++
    fmtFixed 1 cf_mhz ++ ascii "MHz_" ++ twoDigits (utc % 86400 / 3600) ++
    twoDigits (utc % 3600 / 60) ++ liveTail).take 127

example : buildHistFilenameLive 1785081600 433900000 (ascii "A") =
    ascii "A_G27_Jul27.2026_433.9MHz_0100-LIVE.bewehist" := by decide +kernel

/-- `build_hist_filename_finalize`. -/
def buildHistFilenameFinalize (live_name : Bytes) (end_utc : ℕ) : Bytes :=
  match rfind liveTail live_name with
  | some i => live_name.take i ++ endTail end_utc
  | none => live_name

example : buildHistFilenameFinalize (ascii "A_G27_Jul27.2026_433.9MHz_0100-LIVE.bewehist") 1785086400 =
    ascii "A_G27_Jul27.2026_433.9MHz_0100-0220.bewehist" := by decide

end Bewe.Hist

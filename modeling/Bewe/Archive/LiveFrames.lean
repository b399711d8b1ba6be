import Bewe.Hist.LiveRow
import Bewe.Archive.Store

/-!
# Rows of live recordings

How rows come into the recordings that a room has open: `archive_hist_on_fft`, which takes a frame
for every recording of the room, and `archive_hist_on_live_row`, which takes a row for one. The
first frame puts its range of power values into the header, and a frame of another range ends the
recording. A `float` is its bits. The handle of a recording stands at the end of its file, and the
recordings are gone through in the order of the list.
-/

namespace Bewe.Archive

open Lib Hist

/-! ## Frames -/

/-- The flags in `fft_size`. -/
def FFT_FLAG_QUANT_U8 : ℕ := 0x80000000
@[inherit_doc FFT_FLAG_QUANT_U8] def FFT_FLAG_ZSTD : ℕ := 0x40000000
@[inherit_doc FFT_FLAG_QUANT_U8] def FFT_FLAG_QUANT_U6 : ℕ := 0x20000000
@[inherit_doc FFT_FLAG_QUANT_U8] def FFT_FFT_SIZE_MASK : ℕ := 0x1FFFFFFF

/-- `u6_packed_bytes`. -/
def u6PackedBytes (n : ℕ) : ℕ := (n * 6 + 7) / 8

/-- `u6_unpack`. -/
def u6Unpack (src : Bytes) (n : ℕ) : Bytes :=
  (List.range n).map fun i =>
    let v := (List.range 6).foldl (fun v k =>
      let b := i * 6 + k
      2 * v + if (src.getD (b / 8) 0).toNat.testBit (7 - b % 8) then 1 else 0) 0
    UInt8.ofNat (v <<< 2 ||| v >>> 4)

/-- What `archive_hist_on_fft` reads of `PktFftFrame`. -/
structure PktFftFrame where
  fft_size : ℕ
  power_min : ℕ
  power_max : ℕ

/-- The number of bins of a frame. -/
def PktFftFrame.bins (fh : PktFftFrame) : ℕ := fh.fft_size &&& FFT_FFT_SIZE_MASK

/-- The row of a frame; none if it is not of quantised values, or does not unpack. -/
def fftRow (z : Zstd) (fh : PktFftFrame) (body : Bytes) : Option Bytes :=
  let fft_size := fh.bins
  let quantized := fh.fft_size &&& FFT_FLAG_QUANT_U8 ≠ 0
  let zstd_c := fh.fft_size &&& FFT_FLAG_ZSTD ≠ 0
  let u6_c := fh.fft_size &&& FFT_FLAG_QUANT_U6 ≠ 0
  let inner := if u6_c then u6PackedBytes fft_size else fft_size
  if ¬quantized ∨ fft_size = 0 then none
  else
    match if zstd_c then z.decompress body else some body with
    | none => none
    | some packed =>
      if packed.length ≠ inner then none
      else some (if u6_c then u6Unpack packed fft_size else packed)

/-- Whether two `float`s are the same number. -/
def floatEq (a b : ℕ) : Bool :=
  let nan x := 0x7f800000 < x % 2 ^ 31
  !nan a && !nan b && (a = b || a % 2 ^ 31 = 0 && b % 2 ^ 31 = 0)

/-! ## Recordings -/

/-- Writing a row to a recording. -/
def writeRow (r : ℕ) (fname row : Bytes) (now : ℕ) (s : State) : State :=
  let room := s.rooms r
  match room.hist_streams.lookup fname with
  | none => s
  | some st =>
    (s.write st.fp (s.fs.content st.fp ++ row) now).setRoom r
      { room with
        hist_streams := room.hist_streams.insert fname
          { st with rows_written := (st.rows_written + 1) % 2 ^ 32 } }

/-- `OFF_DB_MIN`. -/
def OFF_DB_MIN : ℕ := 30

/-- The range of a frame goes into the header of a recording that has none yet. -/
def setRange (r : ℕ) (fname : Bytes) (fh : PktFftFrame) (now : ℕ) (s : State) : State :=
  let room := s.rooms r
  match room.hist_streams.lookup fname with
  | none => s
  | some st =>
    if st.q.isSome then s
    else
      let range := leBytes 4 fh.power_min ++ leBytes 4 fh.power_max
      (s.write st.fp (pwrite OFF_DB_MIN range (s.fs.content st.fp)) now).setRoom r
        { room with
          hist_streams := room.hist_streams.insert fname
            { st with q := some (fh.power_min, fh.power_max) } }

/-- Whether a recording has another range than a frame. -/
def otherRange (fh : PktFftFrame) (st : MissionHistStream) : Bool :=
  match st.q with
  | none => false
  | some (q_db_min, q_db_max) =>
    !floatEq fh.power_min q_db_min || !floatEq fh.power_max q_db_max

/-- `archive_hist_on_fft`; `refused` says for which recordings the system refuses the rename. -/
def onFft (z : Zstd) (r : ℕ) (fh : PktFftFrame) (body : Bytes) (refused : Bytes → Bool) (now : ℕ)
    (s : State) : State :=
  match fftRow z fh body with
  | none => s
  | some row =>
    let streams := (s.rooms r).hist_streams
    let rotate_keys := streams.keys.filter fun k => (streams.lookup k).any (otherRange fh)
    let s := streams.keys.foldl (fun s k => setRange r k fh now s) s
    -- the name goes through `stop.filename`, which has room for 63 characters
    let s := rotate_keys.foldl (fun s k => liveStop r (k.take 63) (refused k) now s) s
    (s.rooms r).hist_streams.keys.foldl (fun s k =>
      match ((s.rooms r).hist_streams.lookup k).bind fun st => foldRow st.fft_size fh.bins row with
      | none => s
      | some out => writeRow r k out now s) s

/-- `archive_hist_on_live_row`. -/
def onLiveRow (z : Zstd) (r : ℕ) (filename row : Bytes) (now : ℕ) (s : State) : State :=
  let fname := cStr (filename.take 64)
  match (s.rooms r).hist_streams.lookup fname with
  | none => s
  | some st =>
    if row = [] then s
    else if st.fft_size ≠ 0 ∧ row.length ≠ st.fft_size then
      match z.decompress row with
      | none => s
      | some packed =>
        if packed.length ≠ u6PackedBytes st.fft_size then s
        else writeRow r fname (u6Unpack packed st.fft_size) now s
    else writeRow r fname row now s

end Bewe.Archive

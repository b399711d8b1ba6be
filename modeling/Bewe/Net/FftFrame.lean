import Bewe.Lib.BitStream
import Bewe.Net.ClientLoop

/-!
# Spectrum frames

A HOST sends each row of its spectrum as a FFT_FRAME: the row quantised to bytes, packed to six bits
a bin where that is on, and compressed where that makes it shorter (`broadcast_fft` of
`src/net_server.cpp`). A JOIN takes the layers off again to draw it (`NetClient`), and Central to
archive it (`archive_hist_on_fft`). The two were written apart, and `rows_of_frame` says that they
recover the same row: the HOST's bytes, or what unpacking makes of them, which has their upper six
bits (`u6_spec`).

The quantisation is any function from values to bytes. The frame of a HOST that is paused, a JOIN
that takes no frames and a room without an open stream are left out; the fields that are handed on
are bit patterns.
-/

namespace Bewe.Net

open Lib Hist

/-! ## Six bits a byte -/

/-- `u6_packed_bytes`. -/
def u6PackedBytes (n : ℕ) : ℕ := (n * 6 + 7) / 8

/-- `u6_pack`. -/
def u6Pack (src : Bytes) (n : ℕ) : Bytes :=
  (List.range n).foldl (fun dst i =>
    let v := (src.getD i 0).toNat >>> 2
    let b := i * 6
    (List.range 6).foldl (fun dst k => if v.testBit (5 - k) then setBit dst (b + k) else dst) dst)
    (List.replicate (u6PackedBytes n) 0)

/-- `u6_unpack`. -/
def u6Unpack (src : Bytes) (n : ℕ) : Bytes :=
  (List.range n).map fun i =>
    let b := i * 6
    let v := (List.range 6).foldl (fun v k => v <<< 1 ||| (getBit src (b + k)).toNat) 0
    UInt8.ofNat (v <<< 2 ||| v >>> 4)

/-! ## Frames -/

/-- The flags in the upper bits of `fft_size`, and the size below. -/
def FFT_FLAG_QUANT_U8 : ℕ := 0x80000000
@[inherit_doc FFT_FLAG_QUANT_U8] def FFT_FLAG_ZSTD : ℕ := 0x40000000
@[inherit_doc FFT_FLAG_QUANT_U8] def FFT_FLAG_QUANT_U6 : ℕ := 0x20000000
@[inherit_doc FFT_FLAG_QUANT_U8] def FFT_FFT_SIZE_MASK : ℕ := 0x1FFFFFFF

/-- `PacketType::FFT_FRAME`. -/
def FFT_FRAME : UInt8 := 0x03

/-- `sizeof(PktFftFrame)`. -/
def fftFrameSize : ℕ := 48

/-- The fields of `PktFftFrame` that are handed on. -/
structure FrameInfo where
  center_freq_hz : BitVec 64
  sample_rate : BitVec 32
  power_min : BitVec 32
  power_max : BitVec 32
  wall_time : BitVec 64
  iq_write_sample : BitVec 64
  iq_total_samples : BitVec 64

/-- `PktFftFrame`. -/
def pktFftFrame (m : FrameInfo) (fft_size : ℕ) : Bytes :=
  leBytes 8 m.center_freq_hz.toNat ++ leBytes 4 m.sample_rate.toNat ++ leBytes 4 fft_size ++
    leBytes 4 m.power_min.toNat ++ leBytes 4 m.power_max.toNat ++ leBytes 8 m.wall_time.toNat ++
    leBytes 8 m.iq_write_sample.toNat ++ leBytes 8 m.iq_total_samples.toNat

/-- The field `fft_size` of a frame. -/
def frameFftSize (payload : Bytes) : ℕ := leNat (slice 12 4 payload)

/-- `broadcast_fft`. -/
def broadcastFft {α : Type*} (z : Zstd) (u6_on zstd_on : Bool) (quant : α → UInt8) (m : FrameInfo)
    (data : List α) : Bytes :=
  let qbuf := data.map quant
  let src := if u6_on then u6Pack qbuf qbuf.length else qbuf
  let short := if zstd_on then (z.compress 1 src).filter fun c => c.length < src.length else none
  let flags := FFT_FLAG_QUANT_U8 ||| (if u6_on then FFT_FLAG_QUANT_U6 else 0) |||
    if short.isSome then FFT_FLAG_ZSTD else 0
  makePacket FFT_FRAME (pktFftFrame m (data.length ||| flags) ++ short.getD src)

/-- `ZSTD_decompress` to a buffer. -/
def decompressTo (z : Zstd) (cap : ℕ) (src : Bytes) : Option Bytes :=
  (z.decompress src).filter fun d => d.length ≤ cap

/-- The bytes of the row that `NetClient` takes from a FFT_FRAME, before it scales them; none if it
drops the frame, or for a frame of floats. -/
def clientRow (z : Zstd) (payload : Bytes) : Option Bytes :=
  if payload.length < fftFrameSize then none
  else
    let fft_size := frameFftSize payload
    let quantized := fft_size &&& FFT_FLAG_QUANT_U8 ≠ 0
    let zstd_c := fft_size &&& FFT_FLAG_ZSTD ≠ 0
    let u6_c := fft_size &&& FFT_FLAG_QUANT_U6 ≠ 0
    let real_fft_size := fft_size &&& FFT_FFT_SIZE_MASK
    let inner := if u6_c then u6PackedBytes real_fft_size else real_fft_size
    let body := payload.drop fftFrameSize
    let packed :=
      if zstd_c then
        if ¬quantized then none
        else (decompressTo z inner body).filter fun d => d.length = inner
      else if quantized then
        if body.length ≠ inner then none else some body
      else none
    packed.map fun packed => if u6_c then u6Unpack packed real_fft_size else packed

/-- The row that `archive_hist_on_fft` takes from a packet; none where it returns. -/
def archiveRow (z : Zstd) (bewe_pkt : Bytes) : Option Bytes :=
  if bewe_pkt.length < Relay.BEWE_HDR_SIZE + fftFrameSize then none
  else
    let flags := frameFftSize (bewe_pkt.drop Relay.BEWE_HDR_SIZE)
    let fft_size := flags &&& FFT_FFT_SIZE_MASK
    let quantized := flags &&& FFT_FLAG_QUANT_U8 ≠ 0
    let zstd_c := flags &&& FFT_FLAG_ZSTD ≠ 0
    let u6_c := flags &&& FFT_FLAG_QUANT_U6 ≠ 0
    if ¬quantized ∨ fft_size = 0 then none
    else
      let body := bewe_pkt.drop (Relay.BEWE_HDR_SIZE + fftFrameSize)
      let inner := if u6_c then u6PackedBytes fft_size else fft_size
      let packed :=
        if zstd_c then (decompressTo z inner body).filter fun d => d.length = inner
        else if body.length ≠ inner then none
        else some body
      packed.map fun packed => if u6_c then u6Unpack packed fft_size else packed.take fft_size

/-- The row that is sent. -/
def sentRow (u6_on : Bool) (row : Bytes) : Bytes :=
  if u6_on then u6Unpack (u6Pack row row.length) row.length else row

/-! ## Packing -/

/-- The upper six bits of the bytes, one after another. -/
def upperBit (src : Bytes) (j : ℕ) : Bool := ((src.getD (j / 6) 0).toNat >>> 2).testBit (5 - j % 6)

/-- The positions that the loops of `u6_pack` go through. -/
def u6Positions (n : ℕ) : List ℕ := (List.range n).flatMap fun i => (List.range 6).map (i * 6 + ·)

theorem mem_u6Positions {n j : ℕ} : j ∈ u6Positions n ↔ j < n * 6 := by
  simp only [u6Positions, List.mem_flatMap, List.mem_map, List.mem_range]
  constructor
  · rintro ⟨i, hi, k, hk, rfl⟩
    omega
  · intro h
    exact ⟨j / 6, by omega, j % 6, by omega, by omega⟩

theorem u6Pack_eq (src : Bytes) (n : ℕ) :
    u6Pack src n = (u6Positions n).foldl
      (fun dst j => if upperBit src j then setBit dst j else dst)
      (List.replicate (u6PackedBytes n) 0) := by
  rw [u6Pack, u6Positions, List.foldl_flatMap]
  refine List.foldl_ext _ _ _ fun dst i hi => ?_
  rw [List.foldl_map]
  refine List.foldl_ext _ _ _ fun dst k hk => ?_
  have hlt := List.mem_range.1 hk
  have hdiv : (i * 6 + k) / 6 = i := by omega
  have hmod : (i * 6 + k) % 6 = k := by omega
  rw [upperBit, hdiv, hmod]

theorem length_u6Pack (src : Bytes) (n : ℕ) : (u6Pack src n).length = u6PackedBytes n := by
  rw [u6Pack_eq, length_foldl_setBit, List.length_replicate]

theorem getBit_u6Pack (src : Bytes) (n j : ℕ) :
    getBit (u6Pack src n) j = (decide (j < n * 6) && upperBit src j) := by
  rw [u6Pack_eq, getBit_foldl_setBit, getBit_replicate_zero, Bool.false_or]
  · simp only [mem_u6Positions]
  · intro i hi
    have hlt := mem_u6Positions.1 hi
    rw [List.length_replicate, u6PackedBytes]
    omega

theorem u6Pack_congr {src src' : Bytes} {n : ℕ}
    (h : ∀ i < n, (src.getD i 0).toNat >>> 2 = (src'.getD i 0).toNat >>> 2) :
    u6Pack src n = u6Pack src' n := by
  refine eq_of_getBit (by rw [length_u6Pack, length_u6Pack]) fun j _ => ?_
  rw [getBit_u6Pack, getBit_u6Pack]
  rcases Nat.lt_or_ge j (n * 6) with hlt | hge
  · rw [upperBit, upperBit, h (j / 6) (by omega)]
  · rw [decide_eq_false (by omega), Bool.false_and, Bool.false_and]

theorem shift_lt (c : UInt8) : c.toNat >>> 2 < 2 ^ 6 := by
  have hlt := UInt8.toNat_lt c
  rw [Nat.shiftRight_eq_div_pow]
  omega

theorem getD_u6Unpack (src : Bytes) {n i : ℕ} (hi : i < n) :
    (u6Unpack (u6Pack src n) n).getD i 0 =
      UInt8.ofNat (((src.getD i 0).toNat >>> 2) <<< 2 ||| ((src.getD i 0).toNat >>> 2) >>> 4) := by
  have hbits : (List.range 6).foldl
      (fun v k => v <<< 1 ||| (getBit (u6Pack src n) (i * 6 + k)).toNat) 0 =
        (src.getD i 0).toNat >>> 2 := by
    have hshift := foldl_shiftIn (le_refl 6) (shift_lt (src.getD i 0))
    rw [Nat.sub_self, Nat.shiftRight_zero] at hshift
    rw [← hshift]
    refine List.foldl_ext _ _ _ fun v k hk => ?_
    have hlt := List.mem_range.1 hk
    have hdiv : (i * 6 + k) / 6 = i := by omega
    have hmod : (i * 6 + k) % 6 = k := by omega
    rw [getBit_u6Pack, decide_eq_true (by omega), Bool.true_and, upperBit, hdiv, hmod]
  rw [u6Unpack, List.getD_eq_getElem?_getD, List.getElem?_map, List.getElem?_range hi,
    Option.map_some, Option.getD_some]
  dsimp only
  rw [hbits]

theorem toNat_stretch : ∀ v < 2 ^ 6, (UInt8.ofNat (v <<< 2 ||| v >>> 4)).toNat >>> 2 = v := by
  decide

theorem length_u6Unpack (src : Bytes) (n : ℕ) : (u6Unpack src n).length = n := by
  rw [u6Unpack, List.length_map, List.length_range]

theorem u6_spec (row : Bytes) :
    ((u6Unpack (u6Pack row row.length) row.length).map fun c : UInt8 => c >>> 2) =
        row.map (fun c : UInt8 => c >>> 2) ∧
      u6Pack (u6Unpack (u6Pack row row.length) row.length) row.length = u6Pack row row.length := by
  have hupper : ∀ i < row.length,
      ((u6Unpack (u6Pack row row.length) row.length).getD i 0).toNat >>> 2 =
        (row.getD i 0).toNat >>> 2 := by
    intro i hi
    rw [getD_u6Unpack row hi, toNat_stretch _ (shift_lt _)]
  refine ⟨List.ext_getElem (by simp [length_u6Unpack]) fun i hi hi' => ?_, u6Pack_congr hupper⟩
  have hlt : i < row.length := by simpa using hi'
  have hup := hupper i hlt
  rw [List.getD_eq_getElem _ _ (by rwa [length_u6Unpack]), List.getD_eq_getElem _ _ hlt] at hup
  rw [List.getElem_map, List.getElem_map, ← UInt8.toNat_inj, UInt8.toNat_shiftRight,
    UInt8.toNat_shiftRight]
  exact hup

/-! ## Flags -/

theorem and_two_pow_ne_zero (x i : ℕ) : x &&& 2 ^ i ≠ 0 ↔ x.testBit i = true := by
  rw [Nat.and_two_pow]
  cases x.testBit i <;> simp

/-- The flags of a frame. -/
def frameFlags (u6_on zstd : Bool) : ℕ :=
  FFT_FLAG_QUANT_U8 ||| (if u6_on then FFT_FLAG_QUANT_U6 else 0) |||
    if zstd then FFT_FLAG_ZSTD else 0

theorem flags_spec {n : ℕ} (hn : n < 2 ^ 29) (u6_on zstd : Bool) :
    (n ||| frameFlags u6_on zstd) &&& FFT_FFT_SIZE_MASK = n ∧
      ((n ||| frameFlags u6_on zstd) &&& FFT_FLAG_QUANT_U8 ≠ 0) ∧
      ((n ||| frameFlags u6_on zstd) &&& FFT_FLAG_ZSTD ≠ 0 ↔ zstd = true) ∧
      ((n ||| frameFlags u6_on zstd) &&& FFT_FLAG_QUANT_U6 ≠ 0 ↔ u6_on = true) ∧
      n ||| frameFlags u6_on zstd < 2 ^ 32 := by
  have hlow : frameFlags u6_on zstd % 2 ^ 29 = 0 ∧ frameFlags u6_on zstd < 2 ^ 32 ∧
      (frameFlags u6_on zstd).testBit 31 = true ∧ (frameFlags u6_on zstd).testBit 30 = zstd ∧
      (frameFlags u6_on zstd).testBit 29 = u6_on := by
    revert u6_on zstd
    decide
  obtain ⟨hmod, hlt, h31, h30, h29⟩ := hlow
  have hbit : ∀ i, 29 ≤ i → n.testBit i = false := fun i hi =>
    Nat.testBit_lt_two_pow (lt_of_lt_of_le hn (Nat.pow_le_pow_right (by norm_num) hi))
  have hmask : FFT_FFT_SIZE_MASK = 2 ^ 29 - 1 := by norm_num [FFT_FFT_SIZE_MASK]
  have hu8 : FFT_FLAG_QUANT_U8 = 2 ^ 31 := by norm_num [FFT_FLAG_QUANT_U8]
  have hzstd : FFT_FLAG_ZSTD = 2 ^ 30 := by norm_num [FFT_FLAG_ZSTD]
  have hu6 : FFT_FLAG_QUANT_U6 = 2 ^ 29 := by norm_num [FFT_FLAG_QUANT_U6]
  refine ⟨?_, ?_, ?_, ?_, Nat.or_lt_two_pow (by omega) hlt⟩
  · rw [hmask, Nat.and_two_pow_sub_one_eq_mod, Nat.or_mod_two_pow, hmod, Nat.or_zero,
      Nat.mod_eq_of_lt hn]
  · rw [hu8, and_two_pow_ne_zero, Nat.testBit_or, h31, Bool.or_true]
  · rw [hzstd, and_two_pow_ne_zero, Nat.testBit_or, h30, hbit 30 (by norm_num), Bool.false_or]
  · rw [hu6, and_two_pow_ne_zero, Nat.testBit_or, h29, hbit 29 le_rfl, Bool.false_or]

/-! ## Frames and rows -/

@[simp]
theorem length_pktFftFrame (m : FrameInfo) (n : ℕ) : (pktFftFrame m n).length = fftFrameSize := by
  simp [pktFftFrame, fftFrameSize]

theorem frameFftSize_pktFftFrame (m : FrameInfo) {n : ℕ} (hn : n < 2 ^ 32) (body : Bytes) :
    frameFftSize (pktFftFrame m n ++ body) = n := by
  have hslice : slice 12 4 (pktFftFrame m n ++ body) = leBytes 4 n := by
    have hpre : (leBytes 8 m.center_freq_hz.toNat ++ leBytes 4 m.sample_rate.toNat).length = 12 := by
      simp
    rw [slice, pktFftFrame]
    simp only [List.append_assoc]
    rw [← List.append_assoc, List.drop_left' hpre, List.take_left' (leBytes_length 4 n)]
  rw [frameFftSize, hslice, leNat_leBytes (by norm_num; omega)]

theorem decompressTo_of_compress {z : Zstd} (hz : z.RoundTrips) {src c : Bytes}
    (h : z.compress 1 src = some c) :
    (decompressTo z src.length c).filter (fun d => d.length = src.length) = some src := by
  rw [decompressTo, hz 1 src c h]
  simp

/-- The length of what is compressed, or sent as it is. -/
def innerBytes (u6_on : Bool) (n : ℕ) : ℕ := if u6_on then u6PackedBytes n else n

/-- What a decoder takes for the packed row of a frame. -/
def packedOf (z : Zstd) (zstd : Bool) (inner : ℕ) (body : Bytes) : Option Bytes :=
  if zstd then (decompressTo z inner body).filter fun d => d.length = inner
  else if body.length ≠ inner then none
  else some body

theorem length_of_packedOf {z : Zstd} {zstd : Bool} {inner : ℕ} {body packed : Bytes}
    (h : packedOf z zstd inner body = some packed) : packed.length = inner := by
  unfold packedOf at h
  split_ifs at h with hz hlen
  · exact of_decide_eq_true (Option.filter_eq_some_iff.1 h).2
  · rw [← Option.some.inj h]
    exact not_not.1 hlen

theorem clientRow_frame (z : Zstd) (m : FrameInfo) {n : ℕ} (hn : n < 2 ^ 29) (u6_on zstd : Bool)
    (body : Bytes) :
    clientRow z (pktFftFrame m (n ||| frameFlags u6_on zstd) ++ body) =
      (packedOf z zstd (innerBytes u6_on n) body).map fun packed =>
        if u6_on then u6Unpack packed n else packed := by
  obtain ⟨hsize, hu8, hzstd, hu6, hlt⟩ := flags_spec hn u6_on zstd
  unfold clientRow packedOf innerBytes
  dsimp only
  rw [if_neg (by simp), frameFftSize_pktFftFrame m hlt, hsize,
    List.drop_left' (length_pktFftFrame m _)]
  simp only [hu8, hzstd, hu6, not_true_eq_false, if_false, ne_eq, not_false_eq_true, if_true]

theorem archiveRow_frame (z : Zstd) (m : FrameInfo) {n : ℕ} (hpos : n ≠ 0) (hn : n < 2 ^ 29)
    (u6_on zstd : Bool) (body : Bytes) :
    archiveRow z (makePacket FFT_FRAME (pktFftFrame m (n ||| frameFlags u6_on zstd) ++ body)) =
      (packedOf z zstd (innerBytes u6_on n) body).map fun packed =>
        if u6_on then u6Unpack packed n else packed := by
  obtain ⟨hsize, hu8, hzstd, hu6, hlt⟩ := flags_spec hn u6_on zstd
  have hpayload : (makePacket FFT_FRAME
      (pktFftFrame m (n ||| frameFlags u6_on zstd) ++ body)).drop Relay.BEWE_HDR_SIZE =
        pktFftFrame m (n ||| frameFlags u6_on zstd) ++ body :=
    List.drop_left' (pktHdr_length _ _)
  have hlen : ¬(makePacket FFT_FRAME
      (pktFftFrame m (n ||| frameFlags u6_on zstd) ++ body)).length <
        Relay.BEWE_HDR_SIZE + fftFrameSize := by
    simp [makePacket, PKT_HDR_SIZE, Relay.BEWE_HDR_SIZE]
  have hwhole : (packedOf z zstd (innerBytes u6_on n) body).map (fun packed =>
        if u6_on then u6Unpack packed n else packed.take n) =
      (packedOf z zstd (innerBytes u6_on n) body).map fun packed =>
        if u6_on then u6Unpack packed n else packed := by
    refine Option.map_congr fun packed hpacked => ?_
    have hinner := length_of_packedOf hpacked
    cases u6_on with
    | true => rfl
    | false => exact List.take_of_length_le hinner.le
  rw [← hwhole]
  unfold archiveRow packedOf innerBytes
  dsimp only
  rw [if_neg hlen, ← List.drop_drop, hpayload, frameFftSize_pktFftFrame m hlt, hsize,
    List.drop_left' (length_pktFftFrame m _), if_neg (by tauto)]
  simp only [hzstd, hu6]

theorem rows_of_frame {α : Type*} {z : Zstd} (hz : z.RoundTrips) (u6_on zstd_on : Bool)
    (quant : α → UInt8) (m : FrameInfo) {data : List α} (hne : data ≠ [])
    (hlen : data.length < 2 ^ 29) :
    clientRow z ((broadcastFft z u6_on zstd_on quant m data).drop PKT_HDR_SIZE) =
        some (sentRow u6_on (data.map quant)) ∧
      archiveRow z (broadcastFft z u6_on zstd_on quant m data) =
        some (sentRow u6_on (data.map quant)) := by
  have hpos : data.length ≠ 0 := fun h => hne (List.length_eq_zero_iff.1 h)
  -- the packed row, and what was made of it
  obtain ⟨src, hsrc⟩ : ∃ src, src = if u6_on then u6Pack (data.map quant) (data.map quant).length
      else data.map quant := ⟨_, rfl⟩
  obtain ⟨short, hshort⟩ : ∃ short : Option Bytes, short = if zstd_on then
      (z.compress 1 src).filter fun c => c.length < src.length else none := ⟨_, rfl⟩
  have hinner : src.length = innerBytes u6_on data.length := by
    rw [hsrc, innerBytes]
    split_ifs
    · rw [length_u6Pack, List.length_map]
    · exact List.length_map _
  have hpacked : packedOf z short.isSome (innerBytes u6_on data.length) (short.getD src) =
      some src := by
    rw [← hinner]
    cases hc : short with
    | none => exact if_neg (not_not.2 rfl)
    | some c =>
      rw [hc] at hshort
      split_ifs at hshort
      have hcomp := (Option.filter_eq_some_iff.1 hshort.symm).1
      exact decompressTo_of_compress hz hcomp
  have hrow : (if u6_on then u6Unpack src data.length else src) =
      sentRow u6_on (data.map quant) := by
    rw [hsrc, sentRow, List.length_map]
    split_ifs <;> rfl
  have hframe : broadcastFft z u6_on zstd_on quant m data = makePacket FFT_FRAME
      (pktFftFrame m (data.length ||| frameFlags u6_on short.isSome) ++ short.getD src) := by
    rw [hshort, hsrc]
    rfl
  have hpayload : (broadcastFft z u6_on zstd_on quant m data).drop PKT_HDR_SIZE =
      pktFftFrame m (data.length ||| frameFlags u6_on short.isSome) ++ short.getD src := by
    rw [hframe]
    exact List.drop_left' (pktHdr_length _ _)
  rw [hpayload, hframe, clientRow_frame z m hlen, archiveRow_frame z m hpos hlen, hpacked,
    Option.map_some, hrow]
  exact ⟨rfl, rfl⟩

/-- The spectrum frames are consistent: six bits a byte come back, and both decoders recover the row
that was sent. -/
theorem fftFrame_spec {z : Zstd} (hz : z.RoundTrips) :
    (∀ row : Bytes,
      ((u6Unpack (u6Pack row row.length) row.length).map fun c : UInt8 => c >>> 2) =
          row.map (fun c : UInt8 => c >>> 2) ∧
        u6Pack (u6Unpack (u6Pack row row.length) row.length) row.length =
          u6Pack row row.length) ∧
      ∀ (α : Type) (u6_on zstd_on : Bool) (quant : α → UInt8) (m : FrameInfo) (data : List α),
        data ≠ [] → data.length < 2 ^ 29 →
        clientRow z ((broadcastFft z u6_on zstd_on quant m data).drop PKT_HDR_SIZE) =
            some (sentRow u6_on (data.map quant)) ∧
          archiveRow z (broadcastFft z u6_on zstd_on quant m data) =
            some (sentRow u6_on (data.map quant)) :=
  ⟨u6_spec, fun _ u6_on zstd_on quant m _ hne hlen =>
    rows_of_frame hz u6_on zstd_on quant m hne hlen⟩

/-! ## The rows of a HOST -/

/-- Frames that count zeros, and hold other bytes as they are. -/
def zeroRunZstd : Zstd where
  compress _ b :=
    some (if b = List.replicate b.length 0 ∧ b.length < 256 ^ 8 then 1 :: leBytes 8 b.length
      else 0 :: b)
  decompress c :=
    match c with
    | [] => none
    | kind :: b => some (if kind = 0 then b else List.replicate (leNat b) 0)

theorem zeroRunZstd_roundTrips : zeroRunZstd.RoundTrips := by
  have hframe : ∀ kind b, zeroRunZstd.decompress (kind :: b) =
      some (if kind = 0 then b else List.replicate (leNat b) 0) := fun _ _ => rfl
  intro level b c h
  rw [← Option.some.inj h]
  split_ifs with hzero
  · rw [hframe, if_neg (by decide), leNat_leBytes hzero.2, ← hzero.1]
  · rw [hframe, if_pos rfl]

theorem fftFrame_spec_zeros :
    clientRow zeroRunZstd ((broadcastFft zeroRunZstd true true UInt8.ofNat ⟨0, 0, 0, 0, 0, 0, 0⟩
        (List.replicate 512 0)).drop PKT_HDR_SIZE) =
          some (sentRow true (List.replicate 512 0)) ∧
      archiveRow zeroRunZstd (broadcastFft zeroRunZstd true true UInt8.ofNat
        ⟨0, 0, 0, 0, 0, 0, 0⟩ (List.replicate 512 0)) =
          some (sentRow true (List.replicate 512 0)) := by
  have hlen : (List.replicate 512 0 : List ℕ).length = 512 := List.length_replicate
  have h := (fftFrame_spec zeroRunZstd_roundTrips).2 ℕ true true UInt8.ofNat
    ⟨0, 0, 0, 0, 0, 0, 0⟩ (List.replicate 512 0) (List.ne_nil_of_length_pos (by rw [hlen]; norm_num))
    (by rw [hlen]; norm_num)
  rwa [List.map_replicate] at h

end Bewe.Net

import Bewe.Adsb.Process

/-!
# The BLE advertising stream

`BtleDecoder` of `btle_decode.hpp` gets the output of an FM discriminator in pieces. At every sample
it correlates 40 bits with the preamble and the access address, slices the bits behind them by their
sign, takes the whitening off, and checks the CRC of the packet. A packet that passes is skipped, and
one that does not is looked at again from the next sample on.

The last bit of the longest packet is not behind the samples that `process` requires after a position
(`offTab_le`), so it does not matter how the stream is cut (`foldl_process`). That holds of both
decoders (`chunks_decode_alike`).
-/

namespace Bewe.Btle

open Lib

/-! ## Samples -/

/-- A `float`. -/
abbrev Level := Fp 24

/-- A constant of the source as a `float`. -/
def Level.ofRat (q : ℚ) : Level := Fp.ofRat float_pos q

/-- What `buf` and `buf_amp` have at one index. -/
structure FmSample where
  d : Level
  amp : Level

/-- `off_tab_[k]`: the sample in the middle of bit `k`. -/
def offTab (spb : ℚ) (k : ℕ) : ℕ := offsetOf spb (k + 1 / 2)

/-- `samp`. -/
def samp (spb : ℚ) (buf : List FmSample) (j k : ℕ) : Level :=
  match buf[j + offTab spb k]? with
  | none => Level.ofRat 0
  | some x => x.d

/-- `SYNC_BITS` -/
@[irreducible] def SYNC_BITS : ℕ := 40

/-- `build_ref`: the bits of the preamble and of the access address, least significant first. -/
def ref : List Bool :=
  let aa := leBytes 4 0x8E89BED6
  let pre : UInt8 := if (aa.getD 0 0).toNat.testBit 0 then 0x55 else 0xAA
  (pre :: aa).flatMap fun B => (List.range 8).map B.toNat.testBit

/-- `find_sync`, of the samples of the bits: whether the polarity is positive, and the level between
the bits. -/
def findSync (sync_thresh : Level) (x : ℕ → Level) : Option (Bool × Level) :=
  let vals := (List.range SYNC_BITS).map x
  let mean := Fp.divRat float_pos SYNC_BITS (vals.foldl (Fp.add float_pos) (Level.ofRat 0))
  let devs := vals.map fun v => Fp.sub float_pos v mean
  let corr := (devs.zip ref).foldl (fun corr sr =>
    Fp.add float_pos corr (if sr.2 then sr.1 else Fp.neg float_pos sr.1)) (Level.ofRat 0)
  let energy := devs.foldl (fun energy s => Fp.add float_pos energy (Fp.abs float_pos s))
    (Level.ofRat 0)
  if Fp.lt energy (Level.ofRat (1 / 100000)) then none
  else
    let score := Fp.div float_pos corr energy
    if Fp.lt (Fp.abs float_pos score) sync_thresh then none
    else some (Fp.lt (Level.ofRat 0) score, mean)

/-! ## Bits -/

/-- The shift register of the whitening, `r[0]` to `r[6]`. -/
structure Whiten where
  r0 : Bool
  r1 : Bool
  r2 : Bool
  r3 : Bool
  r4 : Bool
  r5 : Bool
  r6 : Bool

/-- `Whiten::init`. -/
def Whiten.init (chan : ℕ) : Whiten :=
  ⟨true, chan.testBit 5, chan.testBit 4, chan.testBit 3, chan.testBit 2, chan.testBit 1,
    chan.testBit 0⟩

/-- `Whiten::step`. -/
def Whiten.step (w : Whiten) : Bool × Whiten :=
  (w.r6, ⟨w.r6, w.r0, w.r1, w.r2, w.r3 ^^ w.r6, w.r4, w.r5⟩)

/-- The sign of a bit: `(samp(j,k)-dc)*pol > 0.f`. -/
def rawbit (x : ℕ → Level) (pol : Bool) (dc : Level) (k : ℕ) : Bool :=
  let s := Fp.sub float_pos (x k) dc
  Fp.lt (Level.ofRat 0) (if pol then s else Fp.neg float_pos s)

/-- `get_byte`: eight bits, least significant first, without the whitening. -/
def getByte (x : ℕ → Level) (pol : Bool) (dc : Level) (w : Whiten) (bytePos : ℕ) :
    UInt8 × Whiten :=
  (List.range 8).foldl (fun (v, w) bit =>
    let out := rawbit x pol dc (SYNC_BITS + bytePos * 8 + bit) ^^ w.step.1
    (if out then v ||| (1 <<< UInt8.ofNat bit) else v, w.step.2)) (0, w)

/-- The bytes from one position to another, behind those that there are. -/
def getBytes (x : ℕ → Level) (pol : Bool) (dc : Level) (raw : Bytes × Whiten) (first n : ℕ) :
    Bytes × Whiten :=
  (List.range' first n).foldl (fun (raw, w) b =>
    let r := getByte x pol dc w b
    (raw ++ [r.1], r.2)) raw

/-- `ble_crc`: the 24 bits of `crc`. -/
def bleCrc (data : Bytes) (init : BitVec 24) : BitVec 24 :=
  data.foldl (fun crc d =>
    (List.range 8).foldl (fun crc b =>
      if (d.toNat.testBit b ^^ crc.getLsbD 0) then (crc >>> 1) ^^^ 0xDA6000 else crc >>> 1) crc) init

/-! ## Records -/

/-- What is computed from a packet and not looked at again: the power of the samples of a packet in
dB (`rssi`), the carrier offset (`cfo_hz`), and the fields that `parse_ad` reads. -/
structure PacketMath where
  Power : Type
  Offset : Type
  Ad : Type
  rssi : List Level → Power
  cfo : Level → Offset
  parseAd : Bytes → Ad

/-- The parameters of a CONNECT_IND. -/
structure ConnectInd where
  init_mac : Bytes
  access_addr : ℕ
  crc_init : ℕ
  interval : ℕ
  latency : ℕ
  timeout : ℕ
  chan_map : ℕ
  hop : ℕ
  sca : ℕ

/-- `BtleRecord`; the parameters of a connection that there are not stand for `is_connect` not set. -/
structure BtleRecord (P : PacketMath) where
  crc_ok : Bool
  adv_chan : ℕ
  pdu_type : ℕ
  addr_type : ℕ
  rssi : P.Power
  cfo_hz : P.Offset
  mac : Bytes
  connect : Option ConnectInd
  ad : Option P.Ad

/-- The record of a packet with the bytes `raw`, whose payload has `length` bytes. -/
def recordOf {P : PacketMath} (adv_chan : ℕ) (rssi : P.Power) (cfo_hz : P.Offset) (raw : Bytes)
    (length : ℕ) : BtleRecord P :=
  let pdu_type := (raw.getD 0 0).toNat % 16
  let pl := raw.drop 2
  let ll := pl.drop 12
  let m : BtleRecord P :=
    { crc_ok := true
      adv_chan := adv_chan
      pdu_type := pdu_type
      addr_type := (raw.getD 0 0).toNat / 64 % 2
      rssi := rssi
      cfo_hz := cfo_hz
      mac := (pl.take 6).reverse
      connect := none
      ad := none }
  if pdu_type = 5 then
    { m with
      mac := (slice 6 6 pl).reverse
      connect := some
        { init_mac := (pl.take 6).reverse
          access_addr := leNat (slice 0 4 ll)
          crc_init := leNat (slice 4 3 ll)
          interval := leNat (slice 10 2 ll)
          latency := leNat (slice 12 2 ll)
          timeout := leNat (slice 14 2 ll)
          chan_map := leNat (slice 16 5 ll)
          hop := (ll.getD 21 0).toNat % 32
          sca := (ll.getD 21 0).toNat / 32 } }
  else if pdu_type = 0 ∨ pdu_type = 2 ∨ pdu_type = 4 ∨ pdu_type = 6 then
    { m with ad := some (P.parseAd (slice 6 (length - 6) pl)) }
  else m

/-! ## Positions -/

/-- What the decoder makes of the stream: its counters, and the records that it emitted. -/
structure Output (P : PacketMath) where
  dg_sync : ℕ
  dg_lenok : ℕ
  dg_ok : ℕ
  dg_fail : ℕ
  records : List (BtleRecord P)

section

variable {P : PacketMath} (spb : ℚ) (sync_thresh : Level) (adv_chan : ℕ)

/-- `decode_at`. -/
def decodeAt (buf : List FmSample) (j : ℕ) (pol : Bool) (dc : Level) (o : Output P) :
    ℕ × Output P :=
  let x := samp spb buf j
  let header := getBytes x pol dc ([], Whiten.init adv_chan) 0 2
  let length := (header.1.getD 1 0).toNat % 64
  if length < 6 ∨ 37 < length then (0, o)
  else
    let total := 2 + length + 3
    let o := { o with dg_lenok := o.dg_lenok + 1 }
    let raw := (getBytes x pol dc header 2 (total - 2)).1
    let crc := bleCrc (raw.take (2 + length)) 0xAAAAAA
    let rx := leNat (slice (2 + length) 3 raw)
    if crc.toNat ≠ rx then (0, { o with dg_fail := o.dg_fail + 1 })
    else
      let consumed := spanOf spb (SYNC_BITS + total * 8)
      let rssi := P.rssi ((slice j consumed buf).map FmSample.amp)
      let raw := raw ++ List.replicate (44 - raw.length) 0
      (consumed,
        { o with
          dg_ok := o.dg_ok + 1
          records := o.records ++ [recordOf adv_chan rssi (P.cfo dc) raw length] })

/-- The body of the loop of `process`. -/
def scanAt (buf : List FmSample) (j : ℕ) (o : Output P) : ℕ × Output P :=
  match findSync sync_thresh (samp spb buf j) with
  | none => (0, o)
  | some (pol, dc) => decodeAt spb adv_chan buf j pol dc { o with dg_sync := o.dg_sync + 1 }

/-- `need`: the longest packet, two bits, and eight samples more. -/
def need : ℕ := spanOf spb 378 + 8

/-! ## How far a step looks -/

variable {spb}

theorem offTab_le (hspb : 0 < spb) {k : ℕ} (hk : k < 376) : offTab spb k + 1 ≤ need spb := by
  have hcast : (k : ℚ) + 1 ≤ 376 := by exact_mod_cast hk
  have hoff : offsetOf spb (k + 1 / 2) ≤ spanOf spb 378 + 1 :=
    offsetOf_le hspb (by positivity) (by linarith)
  rw [offTab, need]
  omega

theorem spanOf_packet_le (hspb : 0 < spb) (length : ℕ) (hlen : length ≤ 37) :
    spanOf spb (SYNC_BITS + (2 + length + 3 : ℕ) * 8) ≤ need spb := by
  have hcast : (length : ℚ) ≤ 37 := by exact_mod_cast hlen
  have hspan : spanOf spb (SYNC_BITS + (2 + length + 3 : ℕ) * 8) ≤ spanOf spb 378 :=
    spanOf_le hspb (by unfold SYNC_BITS; push_cast; linarith)
  exact hspan.trans (Nat.le_add_right _ _)

theorem samp_slice (hspb : 0 < spb) (buf : List FmSample) (j : ℕ) {k : ℕ} (hk : k < 376) :
    samp spb buf j k = samp spb (slice j (need spb) buf) 0 k := by
  have hoff := offTab_le hspb hk
  have hget : (slice j (need spb) buf)[0 + offTab spb k]? = buf[j + offTab spb k]? := by
    rw [slice, List.getElem?_take_of_lt (by omega), List.getElem?_drop, Nat.zero_add]
  rw [samp, samp, hget]

theorem findSync_congr {x x' : ℕ → Level} (h : ∀ k < 376, x k = x' k) :
    findSync sync_thresh x = findSync sync_thresh x' := by
  have hvals : (List.range SYNC_BITS).map x = (List.range SYNC_BITS).map x' := by
    refine List.map_congr_left fun k hk => h k ?_
    have hlt := List.mem_range.1 hk
    unfold SYNC_BITS at hlt
    omega
  rw [findSync, findSync, hvals]

theorem getByte_congr {x x' : ℕ → Level} (h : ∀ k < 376, x k = x' k) (pol : Bool) (dc : Level)
    (w : Whiten) {b : ℕ} (hb : b < 42) : getByte x pol dc w b = getByte x' pol dc w b := by
  refine List.foldl_ext _ _ _ fun (v, w) bit hbit => ?_
  have hlt := List.mem_range.1 hbit
  have hk : SYNC_BITS + b * 8 + bit < 376 := by
    unfold SYNC_BITS
    omega
  rw [rawbit, rawbit, h _ hk]

theorem getBytes_congr {x x' : ℕ → Level} (h : ∀ k < 376, x k = x' k) (pol : Bool) (dc : Level)
    (raw : Bytes × Whiten) {first n : ℕ} (hn : first + n ≤ 42) :
    getBytes x pol dc raw first n = getBytes x' pol dc raw first n := by
  refine List.foldl_ext _ _ _ fun (raw, w) b hb => ?_
  have hlt := (List.mem_range'_1.1 hb).2
  dsimp only
  rw [getByte_congr h pol dc w (by omega)]

theorem decodeAt_slice (hspb : 0 < spb) (buf : List FmSample) (j : ℕ) (pol : Bool) (dc : Level)
    (o : Output P) : decodeAt spb adv_chan buf j pol dc o =
      decodeAt spb adv_chan (slice j (need spb) buf) 0 pol dc o := by
  have hsamp : ∀ k < 376, samp spb buf j k = samp spb (slice j (need spb) buf) 0 k :=
    fun k hk => samp_slice hspb buf j hk
  rw [decodeAt, decodeAt]
  dsimp only
  rw [getBytes_congr hsamp pol dc _ (by omega : 0 + 2 ≤ 42)]
  generalize getBytes (samp spb (slice j (need spb) buf) 0) pol dc ([], Whiten.init adv_chan) 0 2 =
    header
  generalize (header.1.getD 1 0).toNat % 64 = length
  by_cases hlen : length < 6 ∨ 37 < length
  · rw [if_pos hlen, if_pos hlen]
  · have hpacket := spanOf_packet_le hspb length (by omega)
    have hamp : slice 0 (spanOf spb (SYNC_BITS + (2 + length + 3 : ℕ) * 8))
        (slice j (need spb) buf) = slice j (spanOf spb (SYNC_BITS + (2 + length + 3 : ℕ) * 8)) buf :=
      slice_slice (by rwa [Nat.zero_add]) buf
    rw [if_neg hlen, if_neg hlen, getBytes_congr hsamp pol dc header
      (by omega : 2 + (2 + length + 3 - 2) ≤ 42), hamp]

theorem scanAt_slice (hspb : 0 < spb) (buf : List FmSample) (j : ℕ) (o : Output P) :
    scanAt spb sync_thresh adv_chan buf j o =
      scanAt spb sync_thresh adv_chan (slice j (need spb) buf) 0 o := by
  have hsamp : ∀ k < 376, samp spb buf j k = samp spb (slice j (need spb) buf) 0 k :=
    fun k hk => samp_slice hspb buf j hk
  rw [scanAt, scanAt, findSync_congr sync_thresh hsamp]
  cases findSync sync_thresh (samp spb (slice j (need spb) buf) 0) with
  | none => rfl
  | some found =>
    obtain ⟨pol, dc⟩ := found
    exact decodeAt_slice adv_chan hspb buf j pol dc _

theorem scanAt_le (hspb : 0 < spb) (buf : List FmSample) (j : ℕ) (o : Output P) :
    (scanAt spb sync_thresh adv_chan buf j o).1 ≤ need spb := by
  unfold scanAt
  split
  · exact Nat.zero_le _
  · unfold decodeAt
    dsimp only
    split_ifs with hlen hcrc
    · exact Nat.zero_le _
    · exact Nat.zero_le _
    · exact spanOf_packet_le hspb _ (by omega)

theorem records_scanAt (spb : ℚ) (buf : List FmSample) (j : ℕ) (o : Output P) :
    o.records <+: (scanAt spb sync_thresh adv_chan buf j o).2.records := by
  unfold scanAt
  split
  · exact List.prefix_rfl
  · unfold decodeAt
    dsimp only
    split_ifs
    · exact List.prefix_rfl
    · exact List.prefix_rfl
    · exact List.prefix_append _ _

end

/-! ## The decoder -/

/-- `BtleDecoder`; `buf`, `buf_amp` and `samp_base` are in `scanned` with the output. -/
structure BtleDecoder (P : PacketMath) where
  spb : ℚ
  spb_pos : 0 < spb
  ch : ℤ
  adv_chan : ℕ
  sync_thresh : Level
  dg_samp : ℕ
  dg_maxlev : Level
  scanned : Scanned FmSample (Output P)

namespace BtleDecoder

variable {P : PacketMath}

/-- `reset`; the counters are as they are before the first sample. -/
def reset (P : PacketMath) (sync_thresh : Level) (sample_rate : ℚ) (ch_idx : ℤ) (adv_channel : ℕ) :
    BtleDecoder P :=
  let sr := if 1 < sample_rate then sample_rate else 4000000
  { spb := roundBits 53 (sr / 1000000)
    spb_pos := roundBits_pos (by norm_num) (by
      have hsr : 0 < sr := by
        dsimp only [sr]
        split_ifs with h
        · exact lt_trans one_pos h
        · norm_num
      positivity)
    ch := ch_idx
    adv_chan := adv_channel
    sync_thresh := sync_thresh
    dg_samp := 0
    dg_maxlev := Level.ofRat 0
    scanned := { buf := [], base := 0, state := ⟨0, 0, 0, 0, []⟩ } }

/-- The loop of a decoder. -/
def scanner (d : BtleDecoder P) : Scanner FmSample (Output P) where
  need := need d.spb
  step buf _ j o := scanAt d.spb d.sync_thresh d.adv_chan buf j o
  need_pos := Nat.succ_pos _
  step_slice buf _ j o _ := scanAt_slice d.sync_thresh d.adv_chan d.spb_pos buf j o
  step_le buf _ j o := scanAt_le d.sync_thresh d.adv_chan d.spb_pos buf j o

/-- `process`. -/
def process (d : BtleDecoder P) (fm : List FmSample) : BtleDecoder P :=
  { d with
    dg_samp := d.dg_samp + fm.length
    dg_maxlev := fm.foldl (fun mx x =>
      if Fp.lt mx (Fp.abs float_pos x.d) then Fp.abs float_pos x.d else mx) d.dg_maxlev
    scanned := d.scanner.feed d.scanned fm }

/-- The records that were emitted. -/
def records (d : BtleDecoder P) : List (BtleRecord P) := d.scanned.state.records

theorem process_append (d : BtleDecoder P) (a b : List FmSample) :
    (d.process a).process b = d.process (a ++ b) := by
  have hfeed := d.scanner.feed_append d.scanned a b
  simp only [process, List.foldl_append, List.length_append, Nat.add_assoc]
  rw [← hfeed]
  rfl

theorem foldl_process (sync_thresh : Level) (sample_rate : ℚ) (ch_idx : ℤ) (adv_channel : ℕ)
    (chunks : List (List FmSample)) :
    chunks.foldl process (reset P sync_thresh sample_rate ch_idx adv_channel) =
      (reset P sync_thresh sample_rate ch_idx adv_channel).process chunks.flatten := by
  refine foldl_eq_flatten process_append ?_ chunks
  unfold process
  rw [Scanner.feed_nil _ (reset P sync_thresh sample_rate ch_idx adv_channel).scanned
    (reset P sync_thresh sample_rate ch_idx adv_channel).scanner.need_pos]
  rfl

theorem records_process (d : BtleDecoder P) (fm : List FmSample) :
    d.records <+: (d.process fm).records :=
  d.scanner.prefix_feed Output.records
    (fun buf _ => records_scanAt d.sync_thresh d.adv_chan d.spb buf) d.scanned fm

end BtleDecoder

/-- It does not matter to either decoder how a stream is cut. However the samples so far were cut, the
decoder is where it would be had they come at once, and goes on from there with the rest of the stream
as it would have; so the records so far are the first of those of the stream. -/
theorem chunks_decode_alike :
    (∀ (F : Adsb.FieldMath) (sample_rate : ℚ) (ch_idx : ℤ) (chunks : List (List Adsb.Mag))
      (rest : List Adsb.Mag),
      let reset := Adsb.AdsbDecoder.reset F sample_rate ch_idx
      let d := chunks.foldl Adsb.AdsbDecoder.process reset
      d = reset.process chunks.flatten ∧
        d.process rest = reset.process (chunks.flatten ++ rest) ∧
        d.records <+: (reset.process (chunks.flatten ++ rest)).records) ∧
    (∀ (P : PacketMath) (sync_thresh : Level) (sample_rate : ℚ) (ch_idx : ℤ) (adv_channel : ℕ)
      (chunks : List (List FmSample)) (rest : List FmSample),
      let reset := BtleDecoder.reset P sync_thresh sample_rate ch_idx adv_channel
      let d := chunks.foldl BtleDecoder.process reset
      d = reset.process chunks.flatten ∧
        d.process rest = reset.process (chunks.flatten ++ rest) ∧
        d.records <+: (reset.process (chunks.flatten ++ rest)).records) := by
  constructor
  · intro F sample_rate ch_idx chunks rest
    dsimp only
    rw [Adsb.AdsbDecoder.foldl_process, ← Adsb.AdsbDecoder.process_append]
    exact ⟨rfl, rfl, Adsb.AdsbDecoder.records_process _ rest⟩
  · intro P sync_thresh sample_rate ch_idx adv_channel chunks rest
    dsimp only
    rw [BtleDecoder.foldl_process, ← BtleDecoder.process_append]
    exact ⟨rfl, rfl, BtleDecoder.records_process _ rest⟩

end Bewe.Btle

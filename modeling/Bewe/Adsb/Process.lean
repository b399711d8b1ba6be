import Bewe.Adsb.Decode
import Bewe.Lib.Compare
import Bewe.Lib.Grid
import Bewe.Lib.Scan

/-!
# The Mode S stream

`AdsbDecoder::process` gets the magnitudes of a channel in pieces, looks for the preamble of a frame
at every sample, and slices the bits of a frame by comparing the halves of a bit (`adsb_decode.hpp`).
The halves are averages over the samples between two points of a grid of half microseconds, and the
last point of a frame is not behind the samples that `process` requires after a position
(`offHalf_le`). So a step looks no further, and it does not matter how the stream is cut
(`foldl_process`).
-/

namespace Bewe.Adsb

open Lib

/-! ## Samples -/

/-- A `float`. -/
abbrev Mag := Fp 24

/-- A constant of the source as a `float`. -/
def Mag.ofRat (q : ℚ) : Mag := Fp.ofRat float_pos q

/-- `c? s/c : 0.f` -/
def average (l : List Mag) : Mag :=
  if l = [] then Mag.ofRat 0
  else Fp.divRat float_pos l.length (l.foldl (Fp.add float_pos) (Mag.ofRat 0))

/-- `off_half_[h]`: the sample at which half microsecond `h` begins. -/
def offHalf (spb : ℚ) (h : ℕ) : ℕ := offsetOf spb (h / 2)

/-- `win(j, h/2)`: the average over half microsecond `h`. -/
def win (spb : ℚ) (buf : List Mag) (j h : ℕ) : Mag :=
  let a := j + offHalf spb h
  let b := j + offHalf spb (h + 1)
  let b := if b ≤ a then a + 1 else b
  average (slice a (b - a) buf)

/-- `preamble_ok`, of the averages behind a position. -/
def preambleOk (w : ℕ → Mag) : Bool :=
  let pmin := Fp.fmin (Fp.fmin (w 0) (w 2)) (Fp.fmin (w 7) (w 9))
  let pmax := Fp.fmax (Fp.fmax (w 0) (w 2)) (Fp.fmax (w 7) (w 9))
  let gmax := [1, 3, 4, 5, 6, 8].foldl (fun gmax h => Fp.fmax gmax (w h)) (Mag.ofRat 0)
  let qmax := [11, 12, 13, 14, 15].foldl (fun qmax h => Fp.fmax qmax (w h)) (Mag.ofRat 0)
  !(Fp.le pmin (Mag.ofRat (1 / 1000000)) || Fp.lt (Fp.mulRat float_pos 4 pmin) pmax ||
    Fp.lt pmin (Fp.mulRat float_pos 2 gmax) || Fp.lt (Fp.mulRat float_pos (1 / 2) pmin) qmax)

/-- The bytes that `decode_at` slices: a bit is set if its first half is the stronger. -/
def sliceBits (w : ℕ → Mag) : Bytes :=
  (List.range 112).foldl (fun msg b =>
    if Fp.lt (w (17 + 2 * b)) (w (16 + 2 * b)) then
      msg.modify (b / 8) (· ||| (0x80 >>> UInt8.ofNat (b % 8)))
    else msg) (List.replicate 14 0)

/-! ## Positions -/

/-- What the decoder makes of the stream: what it knows, its counters, and the records that it
emitted. -/
structure Output (F : FieldMath) where
  known : Known F
  dg_pre : ℕ
  dg_ok : ℕ
  dg_fail : ℕ
  records : List (AdsbRecord F)

section

variable {F : FieldMath} (spb : ℚ)

/-- `decode_at`. The first sample of the buffer has the number `samp_base`. -/
def decodeAt (buf : List Mag) (samp_base j : ℕ) (o : Output F) : ℕ × Output F :=
  let msg := sliceBits (win spb buf j)
  match decodeMsg o.known (F.time (samp_base + j)) msg with
  | none => (0, o)
  | some (m, known) =>
    (spanOf spb (8 + nbitsOf (formatOf msg)),
      { o with known := known, dg_ok := o.dg_ok + 1, records := o.records ++ [m] })

/-- The body of the loop of `process`. -/
def scanAt (buf : List Mag) (samp_base j : ℕ) (o : Output F) : ℕ × Output F :=
  if preambleOk (win spb buf j) then
    let r := decodeAt spb buf samp_base j { o with dg_pre := o.dg_pre + 1 }
    if 0 < r.1 then r else (0, { r.2 with dg_fail := r.2.dg_fail + 1 })
  else (0, o)

/-- `need`: a preamble and the longest frame, and eight samples more. -/
def need : ℕ := spanOf spb 120 + 8

/-! ## How far a step looks -/

variable {spb}

theorem offHalf_le (hspb : 0 < spb) {h : ℕ} (hh : h ≤ 240) : offHalf spb h + 1 ≤ need spb := by
  have hle : (h : ℚ) / 2 ≤ 120 := by
    have hcast : (h : ℚ) ≤ 240 := by exact_mod_cast hh
    linarith
  have hoff := offsetOf_le hspb (by positivity) hle
  rw [offHalf, need]
  omega

theorem win_slice (hspb : 0 < spb) (buf : List Mag) (j : ℕ) {h : ℕ} (hh : h < 240) :
    win spb buf j h = win spb (slice j (need spb) buf) 0 h := by
  have ha := offHalf_le hspb (h := h) (by omega)
  have hb := offHalf_le hspb (h := h + 1) (by omega)
  unfold win
  dsimp only
  split_ifs
  · rw [slice_slice (by omega), Nat.zero_add, Nat.add_sub_cancel_left, Nat.add_sub_cancel_left]
  · omega
  · omega
  · rw [slice_slice (by omega), Nat.zero_add, Nat.zero_add, Nat.add_sub_add_left]

theorem preambleOk_congr {w w' : ℕ → Mag} (h : ∀ i < 240, w i = w' i) :
    preambleOk w = preambleOk w' := by
  simp only [preambleOk, List.foldl_cons, List.foldl_nil]
  rw [h 0 (by omega), h 1 (by omega), h 2 (by omega), h 3 (by omega), h 4 (by omega),
    h 5 (by omega), h 6 (by omega), h 7 (by omega), h 8 (by omega), h 9 (by omega),
    h 11 (by omega), h 12 (by omega), h 13 (by omega), h 14 (by omega), h 15 (by omega)]

theorem sliceBits_congr {w w' : ℕ → Mag} (h : ∀ i < 240, w i = w' i) :
    sliceBits w = sliceBits w' := by
  refine List.foldl_ext _ _ _ fun msg b hb => ?_
  have hlt := List.mem_range.1 hb
  rw [h (17 + 2 * b) (by omega), h (16 + 2 * b) (by omega)]

theorem scanAt_slice (hspb : 0 < spb) (buf : List Mag) (samp_base j : ℕ) (o : Output F) :
    scanAt spb buf samp_base j o =
      scanAt spb (slice j (need spb) buf) (samp_base + j) 0 o := by
  have hwin : ∀ i < 240, win spb buf j i = win spb (slice j (need spb) buf) 0 i :=
    fun i hi => win_slice hspb buf j hi
  rw [scanAt, scanAt, preambleOk_congr hwin, decodeAt, decodeAt, sliceBits_congr hwin]
  rfl

theorem scanAt_le (hspb : 0 < spb) (buf : List Mag) (samp_base j : ℕ) (o : Output F) :
    (scanAt spb buf samp_base j o).1 ≤ need spb := by
  have hframe : ∀ df, spanOf spb (8 + nbitsOf df) ≤ need spb := by
    intro df
    have hle : spanOf spb (8 + nbitsOf df) ≤ spanOf spb 120 := by
      refine spanOf_le hspb ?_
      unfold nbitsOf
      split_ifs <;> norm_num
    exact hle.trans (Nat.le_add_right _ _)
  have hdecode : ∀ o : Output F, (decodeAt spb buf samp_base j o).1 ≤ need spb := by
    intro o
    unfold decodeAt
    dsimp only
    split
    · exact Nat.zero_le _
    · exact hframe _
  unfold scanAt
  dsimp only
  split_ifs
  · exact hdecode _
  · exact Nat.zero_le _
  · exact Nat.zero_le _

theorem records_scanAt (spb : ℚ) (buf : List Mag) (samp_base j : ℕ) (o : Output F) :
    o.records <+: (scanAt spb buf samp_base j o).2.records := by
  have hdecode : ∀ o : Output F, o.records <+: (decodeAt spb buf samp_base j o).2.records := by
    intro o
    unfold decodeAt
    dsimp only
    split
    · exact List.prefix_rfl
    · exact List.prefix_append _ _
  unfold scanAt
  dsimp only
  split_ifs
  · exact hdecode { o with dg_pre := o.dg_pre + 1 }
  · exact hdecode { o with dg_pre := o.dg_pre + 1 }
  · exact List.prefix_rfl

end

/-! ## The decoder -/

/-- `AdsbDecoder`; `buf` and `samp_base`, which is a `double` that counts samples, are in `scanned`
with the output. -/
structure AdsbDecoder (F : FieldMath) where
  spb : ℚ
  spb_pos : 0 < spb
  ch : ℤ
  dg_samp : ℕ
  dg_maxmag : Mag
  scanned : Scanned Mag (Output F)

namespace AdsbDecoder

variable {F : FieldMath}

/-- `reset`; the counters are as they are before the first sample. -/
def reset (F : FieldMath) (sample_rate : ℚ) (ch_idx : ℤ) : AdsbDecoder F :=
  let sr := if 1 < sample_rate then sample_rate else 2400000
  { spb := roundBits 53 (sr / 1000000)
    spb_pos := roundBits_pos (by norm_num) (by
      have hsr : 0 < sr := by
        dsimp only [sr]
        split_ifs with h
        · exact lt_trans one_pos h
        · norm_num
      positivity)
    ch := ch_idx
    dg_samp := 0
    dg_maxmag := Mag.ofRat 0
    scanned := { buf := [], base := 0, state := ⟨⟨F.cprEmpty, []⟩, 0, 0, 0, []⟩ } }

/-- The loop of a decoder. -/
def scanner (d : AdsbDecoder F) : Scanner Mag (Output F) where
  need := need d.spb
  step := scanAt d.spb
  need_pos := Nat.succ_pos _
  step_slice buf base j o _ := scanAt_slice d.spb_pos buf base j o
  step_le := scanAt_le d.spb_pos

/-- `process`. -/
def process (d : AdsbDecoder F) (mag : List Mag) : AdsbDecoder F :=
  { d with
    dg_samp := d.dg_samp + mag.length
    dg_maxmag := mag.foldl (fun mx x => if Fp.lt mx x then x else mx) d.dg_maxmag
    scanned := d.scanner.feed d.scanned mag }

/-- The records that were emitted. -/
def records (d : AdsbDecoder F) : List (AdsbRecord F) := d.scanned.state.records

theorem process_append (d : AdsbDecoder F) (a b : List Mag) :
    (d.process a).process b = d.process (a ++ b) := by
  have hfeed := d.scanner.feed_append d.scanned a b
  simp only [process, List.foldl_append, List.length_append, Nat.add_assoc]
  rw [← hfeed]
  rfl

theorem foldl_process (sample_rate : ℚ) (ch_idx : ℤ) (chunks : List (List Mag)) :
    chunks.foldl process (reset F sample_rate ch_idx) =
      (reset F sample_rate ch_idx).process chunks.flatten := by
  refine foldl_eq_flatten process_append ?_ chunks
  unfold process
  rw [Scanner.feed_nil _ (reset F sample_rate ch_idx).scanned
    (reset F sample_rate ch_idx).scanner.need_pos]
  rfl

theorem records_process (d : AdsbDecoder F) (mag : List Mag) :
    d.records <+: (d.process mag).records :=
  d.scanner.prefix_feed Output.records (records_scanAt d.spb) d.scanned mag

end AdsbDecoder

end Bewe.Adsb

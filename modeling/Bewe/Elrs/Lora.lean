import Bewe.Lib.BitGroups

/-!
# The byte codec of the LoRa modem

`LoRaFrameCodec` of `lora.py`. A byte becomes two code words of 8 bits, the lower nibble first, and
their bits are cut into symbols of `sf` bits behind a Gray code, of which the last is filled up. Back
from the symbols come the code words with zeros behind them (`Lib.getD_regroup`), and a code word has
its nibble in the lower bits. `codec_inverse` says that the bytes come back for every `sf`.
-/

namespace Bewe.Elrs

open Lib (starts group ungroup lowBits)

/-! ## Codes -/

/-- `gray_encode`. -/
def grayEncode (x : ℕ) : ℕ := Lib.gray x

/-- `gray_decode`. -/
def grayDecode (x : ℕ) : ℕ := Lib.grayLoop x x

/-- `hamming84_encode`. -/
def hamming84Encode (nibble : ℕ) : ℕ :=
  let d := fun i => (nibble >>> i) &&& 1
  let p0 := d 0 ^^^ d 1 ^^^ d 3
  let p1 := d 0 ^^^ d 2 ^^^ d 3
  let p2 := d 1 ^^^ d 2 ^^^ d 3
  let p3 := d 0 ^^^ d 1 ^^^ d 2
  d 0 ||| (d 1 <<< 1) ||| (d 2 <<< 2) ||| (d 3 <<< 3) ||| (p0 <<< 4) ||| (p1 <<< 5) ||| (p2 <<< 6) |||
    (p3 <<< 7)

/-- `hamming84_decode`. -/
def hamming84Decode (byte : ℕ) : ℕ := byte &&& 0x0F

/-! ## Bytes and symbols -/

/-- The code words of some bytes. -/
def codeWords (data : List UInt8) : List ℕ :=
  data.flatMap fun byte =>
    (List.range 2).map fun i => hamming84Encode ((byte.toNat >>> (4 * i)) &&& 0x0F)

/-- `bytes_to_symbols`: the zeros that fill up the last symbol are the bits that it has not got. -/
def bytesToSymbols (sf : ℕ) (data : List UInt8) : List ℕ :=
  let bits := ungroup 8 (codeWords data)
  (group sf bits).map grayEncode

/-- The loop that fills `out`, which it leaves when there are bytes enough. -/
def fillBytes (nibbles : List ℕ) (n_bytes : ℕ) : List ℕ → List UInt8 → List UInt8
  | [], out => out
  | i :: is, out =>
    -- a nibble is below 16, so the two of them are a byte
    let out := out ++ [UInt8.ofNat (nibbles.getD i 0 ||| (nibbles.getD (i + 1) 0 <<< 4))]
    if n_bytes ≤ out.length then out else fillBytes nibbles n_bytes is out

/-- `symbols_to_bytes`. -/
def symbolsToBytes (sf : ℕ) (syms : List ℕ) (n_bytes : ℕ) : List UInt8 :=
  let bits := ungroup sf (syms.map grayDecode)
  let nibbles := (group 8 bits).map hamming84Decode
  (fillBytes nibbles n_bytes (starts (nibbles.length - 1) 2) []).take n_bytes

/-! ## Code words -/

theorem hamming84_spec {nibble : ℕ} (h : nibble < 16) :
    hamming84Encode nibble < 2 ^ 8 ∧ hamming84Decode (hamming84Encode nibble) = nibble := by
  revert nibble
  decide

theorem nibble_lt (n : ℕ) : n &&& 0x0F < 16 := lt_of_le_of_lt Nat.and_le_right (by decide)

theorem codeWords_cons (byte : UInt8) (data : List UInt8) :
    codeWords (byte :: data) = hamming84Encode (byte.toNat &&& 0x0F) ::
      hamming84Encode ((byte.toNat >>> 4) &&& 0x0F) :: codeWords data := rfl

theorem codeWords_lt (data : List UInt8) : ∀ cw ∈ codeWords data, cw < 2 ^ 8 := by
  intro cw hcw
  obtain ⟨byte, -, hcw⟩ := List.mem_flatMap.1 hcw
  obtain ⟨i, -, rfl⟩ := List.mem_map.1 hcw
  exact (hamming84_spec (nibble_lt _)).1

theorem length_codeWords (data : List UInt8) : (codeWords data).length = 2 * data.length := by
  induction data with
  | nil => rfl
  | cons byte data ih =>
    rw [codeWords_cons, List.length_cons, List.length_cons, ih, List.length_cons]
    ring

theorem decode_codeWords (data : List UInt8) {k : ℕ} (hk : k < data.length) :
    UInt8.ofNat (hamming84Decode ((codeWords data).getD (2 * k) 0) |||
      (hamming84Decode ((codeWords data).getD (2 * k + 1) 0) <<< 4)) = data[k] := by
  induction data generalizing k with
  | nil => cases hk
  | cons byte data ih =>
    rw [codeWords_cons]
    cases k with
    | zero =>
      have hbyte : ∀ n < 256, UInt8.ofNat ((n &&& 0x0F) ||| (((n >>> 4) &&& 0x0F) <<< 4)) =
          UInt8.ofNat n := by
        decide +kernel
      rw [Nat.mul_zero, List.getD_cons_zero, List.getD_cons_succ, List.getD_cons_zero,
        (hamming84_spec (nibble_lt _)).2, (hamming84_spec (nibble_lt _)).2,
        hbyte _ byte.toNat_lt, UInt8.ofNat_toNat]
      rfl
    | succ k =>
      have hlt : k < data.length := Nat.lt_of_succ_lt_succ hk
      rw [show 2 * (k + 1) = 2 * k + 1 + 1 by ring, List.getD_cons_succ, List.getD_cons_succ,
        List.getD_cons_succ, List.getD_cons_succ, ih hlt]
      rfl

/-! ## The loop that fills the bytes -/

theorem take_fillBytes (nibbles : List ℕ) (n_bytes : ℕ) (is : List ℕ) (out : List UInt8) :
    (fillBytes nibbles n_bytes is out).take n_bytes =
      (out ++ is.map fun i =>
        UInt8.ofNat (nibbles.getD i 0 ||| (nibbles.getD (i + 1) 0 <<< 4))).take n_bytes := by
  induction is generalizing out with
  | nil =>
    unfold fillBytes
    rw [List.map_nil, List.append_nil]
  | cons i is ih =>
    unfold fillBytes
    dsimp only
    rw [List.map_cons, ← List.singleton_append (l := is.map _), ← List.append_assoc]
    split_ifs with hfull
    · rw [List.take_append_of_le_length hfull]
    · exact ih _

/-! ## There and back -/

section

variable {sf : ℕ} (hsf : 1 ≤ sf) (data : List UInt8)

theorem bytesToSymbols_lt : ∀ s ∈ bytesToSymbols sf data, s < 2 ^ sf := by
  intro s hs
  obtain ⟨val, hval, rfl⟩ := List.mem_map.1 hs
  exact Lib.gray_lt (Lib.group_lt _ _ val hval)

theorem map_grayDecode_bytesToSymbols :
    (bytesToSymbols sf data).map grayDecode = group sf (ungroup 8 (codeWords data)) := by
  unfold bytesToSymbols
  rw [List.map_map]
  refine (List.map_congr_left fun val _ => ?_).trans (List.map_id _)
  exact Lib.grayLoop_self val

include hsf in
theorem symbolsToBytes_bytesToSymbols :
    symbolsToBytes sf (bytesToSymbols sf data) data.length = data := by
  unfold symbolsToBytes
  rw [map_grayDecode_bytesToSymbols, take_fillBytes, List.nil_append]
  generalize hbits : ungroup sf (group sf (ungroup 8 (codeWords data))) = bits
  have hlen : 16 * data.length ≤ bits.length := by
    have hle := Lib.length_le_ungroup_group hsf (ungroup 8 (codeWords data))
    rw [hbits, Lib.length_ungroup, length_codeWords] at hle
    omega
  -- the code words are there again, whatever the bits behind them are grouped to
  have hwords : ∀ k, ((group 8 bits).map hamming84Decode).getD k 0 =
      hamming84Decode ((codeWords data).getD k 0) := by
    intro k
    have hget : (group 8 bits).getD k 0 = (codeWords data).getD k 0 := by
      refine Lib.getD_regroup (by decide) (codeWords_lt data) (fun j => ?_) k
      rw [← hbits, Lib.getD_ungroup_group hsf]
    rw [← hget, List.getD_eq_getElem?_getD, List.getD_eq_getElem?_getD, List.getElem?_map]
    cases (group 8 bits)[k]? <;> rfl
  have hcount : (group 8 bits).length = (bits.length + 8 - 1) / 8 := Lib.length_group 8 bits
  refine List.ext_getElem? fun k => ?_
  rcases Nat.lt_or_ge k data.length with hk | hk
  · have hstart : k < (((group 8 bits).map hamming84Decode).length - 1 + 2 - 1) / 2 := by
      rw [List.length_map, hcount]
      omega
    rw [List.getElem?_take_of_lt hk, List.getElem?_map, Lib.getElem?_starts hstart, Option.map_some,
      hwords, hwords, Nat.mul_comm, decode_codeWords data hk, List.getElem?_eq_getElem hk]
  · rw [List.getElem?_eq_none hk, List.getElem?_eq_none]
    exact le_trans (List.length_take_le _ _) hk

end

/-- For every spreading factor and every byte string the symbols are below `2 ^ sf`, and the bytes
come back from them. -/
theorem codec_inverse {sf : ℕ} (hsf : 1 ≤ sf) (data : List UInt8) :
    (∀ s ∈ bytesToSymbols sf data, s < 2 ^ sf) ∧
      symbolsToBytes sf (bytesToSymbols sf data) data.length = data :=
  ⟨bytesToSymbols_lt data, symbolsToBytes_bytesToSymbols hsf data⟩

/-- A packet of three bytes with symbols of five bits, of which the last is filled up. -/
theorem codec_inverse_five :
    1 ≤ 5 ∧ symbolsToBytes 5 (bytesToSymbols 5 [0x02, 0xC5, 0x99]) 3 = [0x02, 0xC5, 0x99] :=
  ⟨by decide, (codec_inverse (by decide) [0x02, 0xC5, 0x99]).2⟩

end Bewe.Elrs

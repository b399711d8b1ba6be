import Bewe.Lib.Burst
import Mathlib.Data.Nat.Bitwise
import Mathlib.Tactic.Common

/-!
# The check of an ELRS packet

`crc.py` of the ELRS analysis: a check of 8 to 16 bits that goes a byte at a time by a table, in a
register of 16 bits whatever its width is. The bits above the width take no part, so the register is
the cyclic check of the width (`calcCrc_eq`). With a constant term in the polynomial the
check of a message tells the lower bits of the seed (`Crc2Byte.calcCrc_inj`), and an error among as
many neighbouring bits as the check has changes it (`Crc2Byte.calcCrc_burst`).
-/

namespace Bewe.Elrs

/-- `Crc2Byte(bits, poly)`. -/
structure Crc2Byte where
  bits : ℕ
  poly : ℕ
  eight_le : 8 ≤ bits
  le_sixteen : bits ≤ 16

namespace Crc2Byte

variable (c : Crc2Byte)

/-- `bitmask`. -/
def bitmask : ℕ := (1 <<< c.bits) - 1

/-- `highbit`. -/
def highbit : ℕ := 1 <<< (c.bits - 1)

/-- A turn of the inner loop that fills the table. -/
def shift (crc : ℕ) : ℕ :=
  ((crc <<< 1) ^^^ (if crc &&& c.highbit ≠ 0 then c.poly else 0)) &&& 0xFFFF

/-- `tab`. -/
def tab : List ℕ := (List.range 256).map fun i => c.shift^[8] ((i <<< (c.bits - 8)) &&& 0xFFFF)

/-- A byte of `calc`. -/
def calcByte (crc : ℕ) (byte : UInt8) : ℕ :=
  let idx := ((crc >>> (c.bits - 8)) ^^^ byte.toNat) &&& 0xFF
  ((crc <<< 8) ^^^ c.tab.getD idx 0) &&& 0xFFFF

/-- `calc`. -/
def calcCrc (data : List UInt8) (length crc : ℕ) : ℕ :=
  (data.take length).foldl c.calcByte crc &&& c.bitmask

/-! ## The register -/

/-- The bits of the register that the check is made of. -/
def reg (crc : ℕ) : BitVec c.bits := BitVec.ofNat c.bits crc

theorem testBit_0xFFFF (i : ℕ) : (0xFFFF : ℕ).testBit i = decide (i < 16) :=
  Nat.testBit_two_pow_sub_one 16 i

theorem testBit_0xFF (i : ℕ) : (0xFF : ℕ).testBit i = decide (i < 8) :=
  Nat.testBit_two_pow_sub_one 8 i

@[simp] theorem getLsbD_reg (crc i : ℕ) :
    (c.reg crc).getLsbD i = (decide (i < c.bits) && crc.testBit i) :=
  BitVec.getLsbD_ofNat _ _ _

theorem reg_mask (crc : ℕ) : c.reg (crc &&& 0xFFFF) = c.reg crc := by
  have h16 := c.le_sixteen
  refine BitVec.eq_of_getLsbD_eq fun i hi => ?_
  rw [getLsbD_reg, getLsbD_reg, Nat.testBit_and, testBit_0xFFFF,
    decide_eq_true (show i < 16 by omega), Bool.and_true]

theorem reg_xor (a b : ℕ) : c.reg (a ^^^ b) = c.reg a ^^^ c.reg b := by
  refine BitVec.eq_of_getLsbD_eq fun i hi => ?_
  rw [BitVec.getLsbD_xor, getLsbD_reg, getLsbD_reg, getLsbD_reg, Nat.testBit_xor,
    decide_eq_true hi]
  rfl

theorem reg_shiftLeft (a k : ℕ) : c.reg (a <<< k) = c.reg a <<< k := by
  refine BitVec.eq_of_getLsbD_eq fun i hi => ?_
  rw [BitVec.getLsbD_shiftLeft, getLsbD_reg, getLsbD_reg, Nat.testBit_shiftLeft,
    decide_eq_true hi, decide_eq_true (show i - k < c.bits by omega), Bool.true_and, Bool.true_and]
  by_cases hk : i < k
  · rw [decide_eq_false (show ¬ i ≥ k by omega), decide_eq_true hk]
    rfl
  · rw [decide_eq_true (show i ≥ k by omega), decide_eq_false hk]
    rfl

theorem msb_reg (crc : ℕ) : (c.reg crc).msb = decide (crc &&& c.highbit ≠ 0) := by
  have h8 := c.eight_le
  rw [BitVec.msb_eq_getLsbD_last, getLsbD_reg, decide_eq_true (show c.bits - 1 < c.bits by omega),
    Bool.true_and, highbit, Nat.one_shiftLeft, Nat.and_two_pow]
  cases crc.testBit (c.bits - 1) with
  | false => simp
  | true => simp

theorem reg_shift (crc : ℕ) : c.reg (c.shift crc) = Lib.crcStep (c.reg c.poly) (c.reg crc) := by
  rw [shift, reg_mask, reg_xor, reg_shiftLeft, Lib.crcStep, msb_reg]
  by_cases hbit : crc &&& c.highbit ≠ 0
  · rw [if_pos hbit, if_pos (decide_eq_true hbit)]
  · rw [if_neg hbit, if_neg (by rw [decide_eq_false hbit]; exact Bool.false_ne_true)]
    exact BitVec.xor_zero

theorem reg_shifts (k crc : ℕ) :
    c.reg (c.shift^[k] crc) = (Lib.crcStep (c.reg c.poly))^[k] (c.reg crc) := by
  induction k generalizing crc with
  | zero => rfl
  | succ k ih => rw [Function.iterate_succ_apply, Function.iterate_succ_apply, ih, reg_shift]

theorem reg_idx (crc : ℕ) (byte : UInt8) :
    c.reg ((((crc >>> (c.bits - 8)) ^^^ byte.toNat) &&& 0xFF) <<< (c.bits - 8)) =
      (c.reg crc >>> (c.bits - 8) ^^^ byte.toBitVec.setWidth c.bits) <<< (c.bits - 8) := by
  have h8 := c.eight_le
  rw [reg_shiftLeft]
  congr 1
  refine BitVec.eq_of_getLsbD_eq fun i hi => ?_
  have hbyte : byte.toNat.testBit i = (decide (i < c.bits) && byte.toBitVec.getLsbD i) := by
    rw [decide_eq_true hi, Bool.true_and]
    rfl
  rw [getLsbD_reg, Nat.testBit_and, testBit_0xFF, Nat.testBit_xor, Nat.testBit_shiftRight,
    BitVec.getLsbD_xor, BitVec.getLsbD_ushiftRight, BitVec.getLsbD_setWidth, getLsbD_reg, ← hbyte,
    decide_eq_true hi, Bool.true_and]
  by_cases hlow : i < 8
  · rw [decide_eq_true hlow, decide_eq_true (show c.bits - 8 + i < c.bits by omega), Bool.and_true,
      Bool.true_and]
  · have hzero : byte.toNat.testBit i = false := by
      refine Nat.testBit_eq_false_of_lt (lt_of_lt_of_le byte.toNat_lt ?_)
      exact Nat.pow_le_pow_right (by omega) (show 8 ≤ i by omega)
    rw [decide_eq_false hlow, decide_eq_false (show ¬ c.bits - 8 + i < c.bits by omega), hzero,
      Bool.and_false]
    rfl

theorem reg_calcByte (crc : ℕ) (byte : UInt8) :
    c.reg (c.calcByte crc byte) = Lib.crcByte (c.reg c.poly) (c.reg crc) byte := by
  have hidx : ((crc >>> (c.bits - 8)) ^^^ byte.toNat) &&& 0xFF < 256 :=
    lt_of_le_of_lt Nat.and_le_right (by decide)
  have hentry : c.tab.getD (((crc >>> (c.bits - 8)) ^^^ byte.toNat) &&& 0xFF) 0 = c.shift^[8]
      (((((crc >>> (c.bits - 8)) ^^^ byte.toNat) &&& 0xFF) <<< (c.bits - 8)) &&& 0xFFFF) := by
    rw [List.getD_eq_getElem?_getD, tab, List.getElem?_map, List.getElem?_range hidx]
    rfl
  rw [calcByte, hentry, reg_mask, reg_xor, reg_shiftLeft, reg_shifts, reg_mask, reg_idx,
    Lib.crcByte_eq_table _ c.eight_le]

theorem reg_foldl (bs : List UInt8) (crc : ℕ) :
    c.reg (bs.foldl c.calcByte crc) = bs.foldl (Lib.crcByte (c.reg c.poly)) (c.reg crc) := by
  induction bs generalizing crc with
  | nil => rfl
  | cons b bs ih => rw [List.foldl_cons, List.foldl_cons, ih, reg_calcByte]

/-! ## The check -/

theorem calcCrc_append {data : List UInt8} (more : List UInt8) {length : ℕ}
    (h : data.length = length) (crc : ℕ) :
    c.calcCrc (data ++ more) length crc = c.calcCrc data length crc := by
  rw [calcCrc, calcCrc, List.take_left' h, List.take_of_length_le h.le]

theorem calcCrc_eq (data : List UInt8) (length crc : ℕ) :
    c.calcCrc data length crc =
      ((data.take length).foldl (Lib.crcByte (c.reg c.poly)) (c.reg crc)).toNat := by
  rw [← reg_foldl, calcCrc, bitmask, Nat.one_shiftLeft, Nat.and_two_pow_sub_one_eq_mod]
  exact (BitVec.toNat_ofNat _ _).symm

theorem calcCrc_lt (data : List UInt8) (length crc : ℕ) :
    c.calcCrc data length crc < 2 ^ c.bits := by
  rw [calcCrc_eq]
  exact BitVec.isLt _

theorem reg_term (hpoly : c.poly % 2 = 1) : (c.reg c.poly).getLsbD 0 = true := by
  have h8 := c.eight_le
  rw [getLsbD_reg, decide_eq_true (show 0 < c.bits by omega), Nat.testBit_zero, hpoly]
  rfl

/-- The check of a message tells the lower bits of the seed, if the polynomial has a constant
term. -/
theorem calcCrc_inj (hpoly : c.poly % 2 = 1) (data : List UInt8) (length : ℕ) {seed seed' : ℕ} :
    c.calcCrc data length seed = c.calcCrc data length seed' ↔
      seed % 2 ^ c.bits = seed' % 2 ^ c.bits := by
  rw [calcCrc_eq, calcCrc_eq, BitVec.toNat_inj,
    (Lib.foldl_crcByte_injective _ (c.reg_term hpoly) (data.take length)).eq_iff]
  constructor
  · intro h
    simpa [reg] using congrArg BitVec.toNat h
  · intro h
    exact BitVec.eq_of_toNat_eq (by simpa [reg] using h)

/-- An error among as many neighbouring bits as the check has changes it, if the polynomial has a
constant term. -/
theorem calcCrc_burst (hpoly : c.poly % 2 = 1) {data e : List UInt8}
    (hlen : data.length = e.length) {length : ℕ} (hburst : Lib.IsBurst c.bits e)
    (hset : ∃ j, Lib.getBit e j = true) (hwithin : ∀ j, Lib.getBit e j = true → j < 8 * length)
    (seed : ℕ) :
    c.calcCrc (Lib.xorBytes data e) length seed ≠ c.calcCrc data length seed := by
  obtain ⟨p, hp⟩ := hburst
  obtain ⟨j, hj⟩ := hset
  have htake : (Lib.xorBytes data e).take length =
      Lib.xorBytes (data.take length) (e.take length) := List.take_zipWith
  -- behind the bytes of the check there is no error
  have hbits : ∀ k < 8 * length, Lib.getBit (e.take length) k = Lib.getBit e k := by
    intro k hk
    rw [Lib.getBit_eq_testBit, Lib.getBit_eq_testBit, List.getD_eq_getElem?_getD,
      List.getElem?_take_of_lt (by omega), ← List.getD_eq_getElem?_getD]
  have hbehind : ∀ k, Lib.getBit (e.take length) k = true → Lib.getBit e k = true := by
    intro k hk
    rcases Nat.lt_or_ge k (8 * length) with hlt | hge
    · rwa [← hbits k hlt]
    · rw [Lib.getBit_eq_testBit, List.getD_eq_default _ _
        (le_trans (List.length_take_le _ _) (show length ≤ k / 8 by omega))] at hk
      simp at hk
  have hne : Lib.crcBytes (c.reg c.poly) (e.take length) ≠ 0 :=
    Lib.crcBytes_burst _ c.eight_le (c.reg_term hpoly) ⟨p, fun k hk => hp k (hbehind k hk)⟩
      ⟨j, (hbits j (hwithin j hj)).trans hj⟩
  rw [calcCrc_eq, calcCrc_eq, htake, Ne, BitVec.toNat_inj,
    Lib.foldl_crcByte_xorBytes _ (by rw [List.length_take, List.length_take, hlen])]
  intro h
  exact hne (BitVec.xor_right_inj _ |>.1 (h.trans BitVec.xor_zero.symm))

end Crc2Byte

end Bewe.Elrs

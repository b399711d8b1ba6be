import Bewe.Lib.Crc
import Bewe.Lib.BitStream

/-!
# Bursts of errors

A cyclic check a bit at a time. The bits go in at the top of the register, so as many bits as the
register has are only added to it before it is shifted (`foldl_crcBit`), and a byte is its eight bits
(`crcByte_eq_foldl`). With a constant term in the generator no shift loses anything: what a few bits
have left in the register stays there while nothing else comes in. Therefore an error among as many
neighbouring bits as the register has always changes the check (`crcBytes_burst`).
-/

namespace Lib

section

variable {n : ℕ} (poly : BitVec n)

/-- A bit goes in at the top. -/
def crcBit (r : BitVec n) (b : Bool) : BitVec n :=
  crcStep poly (r ^^^ if b then BitVec.twoPow n (n - 1) else 0)

/-- Some bits, the first at the top of the register. -/
def topBits : List Bool → BitVec n
  | [] => 0
  | b :: l => (if b then BitVec.twoPow n (n - 1) else 0) ^^^ topBits l >>> 1

theorem getLsbD_topBits (l : List Bool) {i : ℕ} (hi : i < n) :
    (topBits l : BitVec n).getLsbD i = l.getD (n - 1 - i) false := by
  induction l generalizing i with
  | nil => simp [topBits]
  | cons b l ih =>
    have hhead : (if b then BitVec.twoPow n (n - 1) else 0).getLsbD i =
        (b && decide (i = n - 1)) := by
      cases b with
      | false => simp
      | true => simp [hi]
    rw [topBits, BitVec.getLsbD_xor, hhead, BitVec.getLsbD_ushiftRight]
    by_cases htop : i = n - 1
    · -- the first bit, behind which nothing is shifted in
      rw [htop, BitVec.getLsbD_of_ge _ _ (show n ≤ 1 + (n - 1) by omega), Nat.sub_self]
      simp
    · obtain ⟨k, hk⟩ : ∃ k, n - 1 - i = k + 1 := ⟨n - 2 - i, by omega⟩
      rw [ih (show 1 + i < n by omega), show n - 1 - (1 + i) = k by omega, hk]
      simp [htop]

theorem crcStep_topBits {l : List Bool} (hl : l.length < n) :
    crcStep poly (topBits l >>> 1) = topBits l := by
  have hmsb : (topBits l >>> 1 : BitVec n).msb = false := by
    rw [BitVec.msb_eq_getLsbD_last, BitVec.getLsbD_ushiftRight]
    exact BitVec.getLsbD_of_ge _ _ (by omega)
  unfold crcStep
  rw [hmsb, if_neg Bool.false_ne_true]
  refine BitVec.eq_of_getLsbD_eq fun i hi => ?_
  rw [BitVec.getLsbD_shiftLeft, BitVec.getLsbD_ushiftRight, decide_eq_true hi, Bool.true_and]
  rcases Nat.eq_zero_or_pos i with rfl | hpos
  · -- the lowest bit is clear, for the bits end above it
    rw [getLsbD_topBits l hi, List.getD_eq_default _ _ (by omega)]
    rfl
  · rw [decide_eq_false (show ¬ i < 1 by omega), show 1 + (i - 1) = i by omega]
    rfl

/-- As many bits as the register has are added to it, and it is shifted. -/
theorem foldl_crcBit {l : List Bool} (hl : l.length ≤ n) (r : BitVec n) :
    l.foldl (crcBit poly) r = (crcStep poly)^[l.length] (r ^^^ topBits l) := by
  induction l generalizing r with
  | nil => exact (BitVec.xor_zero).symm
  | cons b l ih =>
    have hlt : l.length < n := hl
    rw [List.foldl_cons, ih hlt.le, crcBit, List.length_cons, Function.iterate_succ_apply, topBits,
      ← BitVec.xor_assoc, crcStep_xor poly _ (topBits l >>> 1), crcStep_topBits poly hlt]

/-! ## Bytes -/

/-- The bits of a byte, the highest first. -/
def byteBits (b : UInt8) : List Bool := (List.range 8).map fun k => b.toNat.testBit (7 - k)

/-- The bits of a byte string. -/
def bits (bs : List UInt8) : List Bool := bs.flatMap byteBits

theorem getD_bits (bs : List UInt8) (j : ℕ) : (bits bs).getD j false = getBit bs j := by
  rw [getBit_eq_testBit]
  induction bs generalizing j with
  | nil => simp [bits]
  | cons b bs ih =>
    have hlen : (byteBits b).length = 8 := rfl
    rw [bits, List.flatMap_cons, ← bits]
    rcases Nat.lt_or_ge j 8 with hj | hj
    · rw [List.getD_append _ _ _ _ (by omega), Nat.div_eq_of_lt hj, Nat.mod_eq_of_lt hj,
        List.getD_cons_zero, byteBits, List.getD_eq_getElem?_getD, List.getElem?_map,
        List.getElem?_range hj]
      rfl
    · obtain ⟨i, rfl⟩ : ∃ i, j = i + 8 := ⟨j - 8, by omega⟩
      rw [List.getD_append_right _ _ _ _ (by omega), hlen, Nat.add_sub_cancel, ih,
        Nat.add_div_right _ (by decide), Nat.add_mod_right, List.getD_cons_succ]

theorem crcByte_eq_foldl (hn : 8 ≤ n) (r : BitVec n) (b : UInt8) :
    crcByte poly r b = (byteBits b).foldl (crcBit poly) r := by
  have htop : (topBits (byteBits b) : BitVec n) = b.toBitVec.setWidth n <<< (n - 8) := by
    refine BitVec.eq_of_getLsbD_eq fun i hi => ?_
    rw [getLsbD_topBits _ hi, BitVec.getLsbD_shiftLeft, BitVec.getLsbD_setWidth, decide_eq_true hi,
      decide_eq_true (show i - (n - 8) < n by omega), Bool.true_and, Bool.true_and, byteBits]
    by_cases hlow : i < n - 8
    · rw [List.getD_eq_default _ _ (by simp; omega), decide_eq_true hlow]
      rfl
    · rw [List.getD_eq_getElem?_getD, List.getElem?_map,
        List.getElem?_range (show n - 1 - i < 8 by omega), decide_eq_false hlow,
        show i - (n - 8) = 7 - (n - 1 - i) by omega]
      rfl
  rw [foldl_crcBit poly (show (byteBits b).length ≤ n from hn), htop]
  rfl

theorem foldl_crcByte_eq (hn : 8 ≤ n) (r : BitVec n) (bs : List UInt8) :
    bs.foldl (crcByte poly) r = (bits bs).foldl (crcBit poly) r := by
  induction bs generalizing r with
  | nil => rfl
  | cons b bs ih =>
    rw [List.foldl_cons, ih, crcByte_eq_foldl poly hn, bits, bits, List.flatMap_cons,
      List.foldl_append]

/-! ## Bursts -/

/-- All the bits that are set lie among `w` neighbouring ones. -/
def IsBurst (w : ℕ) (e : List UInt8) : Prop :=
  ∃ p, ∀ j, getBit e j = true → p ≤ j ∧ j < p + w

theorem foldl_crcBit_clear {l : List Bool} (hl : ∀ b ∈ l, b = false) (r : BitVec n) :
    l.foldl (crcBit poly) r = (crcStep poly)^[l.length] r := by
  induction l generalizing r with
  | nil => rfl
  | cons b l ih =>
    obtain ⟨rfl, hclear⟩ := List.forall_mem_cons.1 hl
    rw [List.foldl_cons, ih hclear, crcBit, if_neg Bool.false_ne_true, List.length_cons,
      Function.iterate_succ_apply]
    exact congrArg _ (congrArg _ BitVec.xor_zero)

theorem crcStep_zero : crcStep poly 0 = 0 := by
  unfold crcStep
  simp

/-- With a constant term a register that is not zero does not become it. -/
theorem crcSteps_ne_zero (hpoly : poly.getLsbD 0 = true) (k : ℕ) {r : BitVec n} (hr : r ≠ 0) :
    (crcStep poly)^[k] r ≠ 0 := by
  intro h
  refine hr ((crcStep_injective poly hpoly).iterate k ?_)
  rw [h, Function.iterate_fixed (crcStep_zero poly)]

theorem crcBytes_burst (hn : 8 ≤ n) (hpoly : poly.getLsbD 0 = true) {e : List UInt8}
    (hburst : IsBurst n e) (hset : ∃ j, getBit e j = true) : crcBytes poly e ≠ 0 := by
  obtain ⟨p, hp⟩ := hburst
  obtain ⟨j, hj⟩ := hset
  have hget : ∀ k (hk : k < (bits e).length), (bits e)[k] = getBit e k := fun k hk => by
    rw [← getD_bits, List.getD_eq_getElem _ _ hk]
  -- the bits before the burst, those of the burst, and those behind it
  have hsplit : bits e =
      (bits e).take p ++ (((bits e).drop p).take n ++ ((bits e).drop p).drop n) := by
    rw [List.take_append_drop, List.take_append_drop]
  have hbefore : ∀ b ∈ (bits e).take p, b = false := by
    intro b hb
    obtain ⟨k, hk, rfl⟩ := List.getElem_of_mem hb
    rw [List.length_take] at hk
    rw [List.getElem_take, hget, Bool.eq_false_iff]
    exact fun htrue => absurd (hp k htrue).1 (by omega)
  have hbehind : ∀ b ∈ ((bits e).drop p).drop n, b = false := by
    intro b hb
    obtain ⟨k, hk, rfl⟩ := List.getElem_of_mem hb
    rw [List.getElem_drop, List.getElem_drop, hget, Bool.eq_false_iff]
    exact fun htrue => absurd (hp _ htrue).2 (by omega)
  have hwithin : (topBits (((bits e).drop p).take n) : BitVec n) ≠ 0 := by
    intro hzero
    obtain ⟨hle, hlt⟩ := hp j hj
    have hbit := congrArg (·.getLsbD (n - 1 - (j - p))) hzero
    have hlast : n - 1 - (n - 1 - (j - p)) = j - p := by omega
    simp only [getLsbD_topBits _ (show n - 1 - (j - p) < n by omega), hlast] at hbit
    have hjp : (((bits e).drop p).take n).getD (j - p) false = getBit e j := by
      rw [List.getD_eq_getElem?_getD, List.getElem?_take_of_lt (by omega), List.getElem?_drop,
        Nat.add_sub_cancel' hle, ← List.getD_eq_getElem?_getD, getD_bits]
    rw [hjp, hj] at hbit
    exact absurd hbit (by simp)
  unfold crcBytes
  rw [foldl_crcByte_eq poly hn, hsplit, List.foldl_append, List.foldl_append,
    foldl_crcBit_clear poly hbefore, Function.iterate_fixed (crcStep_zero poly),
    foldl_crcBit poly (List.length_take_le _ _), foldl_crcBit_clear poly hbehind]
  refine crcSteps_ne_zero poly hpoly _ (crcSteps_ne_zero poly hpoly _ ?_)
  exact fun h => hwithin ((BitVec.zero_xor).symm.trans h)

/-- An error changes the remainder from any register if it leaves one of its own. -/
theorem foldl_crcByte_xorBytes {a e : List UInt8} (hlen : a.length = e.length) (r : BitVec n) :
    (xorBytes a e).foldl (crcByte poly) r = a.foldl (crcByte poly) r ^^^ crcBytes poly e := by
  have hlinear := foldl_crcByte_xor poly hlen r 0
  rwa [show r ^^^ 0 = r from BitVec.xor_zero] at hlinear

end

end Lib

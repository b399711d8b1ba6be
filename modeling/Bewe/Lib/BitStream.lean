import Mathlib.Data.Nat.Bitwise
import Mathlib.Data.List.GetD
import Mathlib.Tactic

/-!
# Bits in bytes

Bytes as a stream of bits, the first the highest of its byte: `getBit` reads the bit at a position
and `setBit` sets it. `getBit_foldl_setBit` says what a loop has written that sets the bits at some
positions, `eq_of_getBit` that bytes are their bits, and `foldl_shiftIn` what a loop has read that
shifts one bit of a number in after another.
-/

namespace Lib

/-- `src[j >> 3] & (0x80 >> (j & 7))`. -/
def getBit (src : List UInt8) (j : ℕ) : Bool :=
  src.getD (j / 8) 0 &&& 0x80 >>> UInt8.ofNat (j % 8) ≠ 0

/-- `dst[j >> 3] |= 0x80 >> (j & 7)`. -/
def setBit (dst : List UInt8) (j : ℕ) : List UInt8 :=
  dst.modify (j / 8) (· ||| 0x80 >>> UInt8.ofNat (j % 8))

/-! ## Bits of a byte -/

theorem toNat_mask {k : ℕ} (hk : k < 8) :
    ((0x80 : UInt8) >>> UInt8.ofNat k).toNat = 2 ^ (7 - k) := by
  interval_cases k <;> rfl

theorem getBit_eq_testBit (src : List UInt8) (j : ℕ) :
    getBit src j = (src.getD (j / 8) 0).toNat.testBit (7 - j % 8) := by
  have hmask := toNat_mask (Nat.mod_lt j (by norm_num : 0 < 8))
  rw [getBit, Bool.eq_iff_iff, decide_eq_true_eq, ne_eq, ← UInt8.toNat_inj, UInt8.toNat_and, hmask,
    Nat.and_two_pow]
  cases (src.getD (j / 8) 0).toNat.testBit (7 - j % 8) with
  | false => simp
  | true => simp

@[simp]
theorem length_setBit (dst : List UInt8) (j : ℕ) : (setBit dst j).length = dst.length :=
  List.length_modify _ _ _

theorem getBit_setBit {dst : List UInt8} {i : ℕ} (hi : i / 8 < dst.length) (j : ℕ) :
    getBit (setBit dst i) j = (getBit dst j || decide (j = i)) := by
  have hmask := toNat_mask (Nat.mod_lt i (by norm_num : 0 < 8))
  rw [getBit_eq_testBit, getBit_eq_testBit, setBit, List.getD_eq_getElem?_getD,
    List.getElem?_modify, List.getD_eq_getElem?_getD]
  rcases eq_or_ne (i / 8) (j / 8) with hsame | hne
  · simp only [if_pos hsame]
    rw [← hsame, List.getElem?_eq_getElem hi, Option.map_eq_map, Option.map_some, Option.getD_some,
      Option.getD_some, UInt8.toNat_or, hmask, Nat.testBit_or, Nat.testBit_two_pow]
    congr 1
    rw [decide_eq_decide]
    omega
  · simp only [if_neg hne]
    rw [decide_eq_false (fun h => hne (by rw [h])), Bool.or_false]
    cases dst[j / 8]? <;> rfl

/-! ## Bits of bytes -/

theorem getBit_replicate_zero (n j : ℕ) : getBit (List.replicate n 0) j = false := by
  rw [getBit_eq_testBit, List.getD_eq_getElem?_getD, List.getElem?_replicate]
  split_ifs <;> simp

/-- Bytes with the same bits are the same. -/
theorem eq_of_getBit {a b : List UInt8} (hlen : a.length = b.length)
    (h : ∀ j < 8 * a.length, getBit a j = getBit b j) : a = b := by
  refine List.ext_getElem hlen fun i hi hi' => UInt8.toNat_inj.1 (Nat.eq_of_testBit_eq fun k => ?_)
  rcases Nat.lt_or_ge k 8 with hk | hk
  · have hbit := h (8 * i + (7 - k)) (by omega)
    have hdiv : (8 * i + (7 - k)) / 8 = i := by omega
    have hmod : 7 - (8 * i + (7 - k)) % 8 = k := by omega
    rwa [getBit_eq_testBit, getBit_eq_testBit, hdiv, hmod, List.getD_eq_getElem _ _ hi,
      List.getD_eq_getElem _ _ hi'] at hbit
  · have hpow : 2 ^ 8 ≤ 2 ^ k := Nat.pow_le_pow_right (by norm_num) hk
    rw [Nat.testBit_lt_two_pow (lt_of_lt_of_le (UInt8.toNat_lt _) hpow),
      Nat.testBit_lt_two_pow (lt_of_lt_of_le (UInt8.toNat_lt _) hpow)]

theorem length_foldl_setBit (c : ℕ → Bool) (js : List ℕ) (dst : List UInt8) :
    (js.foldl (fun dst j => if c j then setBit dst j else dst) dst).length = dst.length := by
  induction js generalizing dst with
  | nil => rfl
  | cons i js ih =>
    rw [List.foldl_cons, ih]
    split_ifs
    · exact length_setBit dst i
    · rfl

/-- A loop that sets the bits at the positions where something holds. -/
theorem getBit_foldl_setBit (c : ℕ → Bool) {js : List ℕ} {dst : List UInt8}
    (hjs : ∀ i ∈ js, i / 8 < dst.length) (j : ℕ) :
    getBit (js.foldl (fun dst j => if c j then setBit dst j else dst) dst) j =
      (getBit dst j || (decide (j ∈ js) && c j)) := by
  induction js generalizing dst with
  | nil => simp
  | cons i js ih =>
    obtain ⟨hi, hjs⟩ := List.forall_mem_cons.1 hjs
    have hlen : (if c i then setBit dst i else dst).length = dst.length := by
      split_ifs
      · exact length_setBit dst i
      · rfl
    have hone : getBit (if c i then setBit dst i else dst) j =
        (getBit dst j || (decide (j = i) && c i)) := by
      split_ifs with hc
      · rw [getBit_setBit hi, hc, Bool.and_true]
      · rw [Bool.eq_false_iff.2 hc, Bool.and_false, Bool.or_false]
    rw [List.foldl_cons, ih (by rwa [hlen]), hone]
    rcases eq_or_ne j i with rfl | hne
    · cases getBit dst j <;> cases c j <;> simp
    · simp [hne]

/-! ## Numbers -/

/-- A loop that shifts the bits of a number of `w` bits in, the highest first. -/
theorem foldl_shiftIn {w m : ℕ} (hm : m ≤ w) {x : ℕ} (hx : x < 2 ^ w) :
    (List.range m).foldl (fun v k => v <<< 1 ||| (x.testBit (w - 1 - k)).toNat) 0 =
      x >>> (w - m) := by
  induction m with
  | zero =>
    rw [List.range_zero, List.foldl_nil, Nat.sub_zero, Nat.shiftRight_eq_div_pow,
      Nat.div_eq_of_lt hx]
  | succ m ih =>
    rw [List.range_succ, List.foldl_append, ih (by omega), List.foldl_cons, List.foldl_nil]
    refine Nat.eq_of_testBit_eq fun k => ?_
    rw [Nat.testBit_or, Nat.testBit_shiftLeft, Nat.testBit_shiftRight, Nat.testBit_bool_toNat,
      Nat.testBit_shiftRight]
    rcases k with _ | k
    · have hidx : w - 1 - m = w - (m + 1) := by omega
      simp [hidx]
    · have hidx : w - m + (k + 1 - 1) = w - (m + 1) + (k + 1) := by omega
      rw [hidx]
      simp

end Lib

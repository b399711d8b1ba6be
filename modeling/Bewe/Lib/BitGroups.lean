import Mathlib.Data.Nat.Bitwise
import Mathlib.Data.List.GetD
import Mathlib.Tactic

/-!
# Bits in groups

A string of bits cut into numbers of `w` bits, the first bit the lowest, and the bits of numbers of
one width put one after the other. The last number is filled up with clear bits, so what comes back
is the string with clear bits behind it (`getD_ungroup_group`), and numbers that go through groups of
any other width come back with zeros behind them (`getD_regroup`).
-/

namespace Lib

/-! ## Numbers and bits -/

/-- `val |= bit << b` for the bits of a group. -/
def orBits (l : List Bool) : ℕ :=
  (l.zipIdx).foldl (fun val p => val ||| p.1.toNat <<< p.2) 0

/-- The `w` lowest bits of a number. -/
def lowBits (w val : ℕ) : List Bool := (List.range w).map val.testBit

theorem length_lowBits (w val : ℕ) : (lowBits w val).length = w := by
  unfold lowBits
  rw [List.length_map, List.length_range]

theorem getD_lowBits (w val j : ℕ) :
    (lowBits w val).getD j false = (decide (j < w) && val.testBit j) := by
  unfold lowBits
  rw [List.getD_eq_getElem?_getD, List.getElem?_map]
  by_cases hj : j < w
  · rw [List.getElem?_range hj, decide_eq_true hj]
    rfl
  · rw [List.getElem?_eq_none (by rw [List.length_range]; omega), decide_eq_false hj]
    rfl

theorem testBit_orBits (l : List Bool) (j : ℕ) : (orBits l).testBit j = l.getD j false := by
  unfold orBits
  induction l using List.reverseRecOn with
  | nil => simp
  | append_singleton l b ih =>
    rw [List.zipIdx_append, List.foldl_append, List.zipIdx_singleton, List.foldl_cons, List.foldl_nil,
      Nat.testBit_or, ih, Nat.testBit_shiftLeft, Nat.testBit_bool_toNat, Nat.zero_add]
    rcases lt_trichotomy j l.length with hlt | rfl | hgt
    · rw [List.getD_append _ _ _ _ hlt, decide_eq_false (show ¬ j ≥ l.length by omega)]
      simp
    · rw [List.getD_append_right _ _ _ _ le_rfl, List.getD_eq_default _ _ le_rfl]
      simp
    · rw [List.getD_append_right _ _ _ _ hgt.le, List.getD_eq_default _ _ hgt.le,
        List.getD_eq_default _ _ (by simp; omega), decide_eq_false (show ¬ j - l.length = 0 by omega)]
      simp

theorem orBits_lt {w : ℕ} {l : List Bool} (h : l.length ≤ w) : orBits l < 2 ^ w := by
  refine Nat.lt_pow_two_of_testBit _ fun j hj => ?_
  rw [testBit_orBits, List.getD_eq_default _ _ (by omega)]

/-! ## Groups -/

/-- `range(0, n, w)`. -/
def starts (n w : ℕ) : List ℕ := (List.range ((n + w - 1) / w)).map (· * w)

theorem length_starts (n w : ℕ) : (starts n w).length = (n + w - 1) / w := by
  unfold starts
  rw [List.length_map, List.length_range]

theorem getElem?_starts {n w k : ℕ} (hk : k < (n + w - 1) / w) : (starts n w)[k]? = some (k * w) := by
  unfold starts
  rw [List.getElem?_map, List.getElem?_range hk]
  rfl

/-- A string of bits in groups of `w`. -/
def group (w : ℕ) (bits : List Bool) : List ℕ :=
  (starts bits.length w).map fun i => orBits ((bits.drop i).take w)

/-- The bits of numbers of `w` bits. -/
def ungroup (w : ℕ) (vals : List ℕ) : List Bool := vals.flatMap (lowBits w)

theorem length_group (w : ℕ) (bits : List Bool) :
    (group w bits).length = (bits.length + w - 1) / w := by
  unfold group
  rw [List.length_map, length_starts]

theorem length_ungroup (w : ℕ) (vals : List ℕ) : (ungroup w vals).length = w * vals.length := by
  unfold ungroup
  induction vals with
  | nil => rfl
  | cons v vals ih =>
    rw [List.flatMap_cons, List.length_append, ih, length_lowBits, List.length_cons]
    ring

theorem getD_group {w : ℕ} (hw : 0 < w) (bits : List Bool) (k : ℕ) :
    (group w bits).getD k 0 = orBits ((bits.drop (k * w)).take w) := by
  unfold group
  rw [List.getD_eq_getElem?_getD, List.getElem?_map]
  by_cases hk : k < (bits.length + w - 1) / w
  · rw [getElem?_starts hk]
    rfl
  · have hend : bits.length ≤ k * w := by
      have hle : bits.length + w - 1 < w * (k + 1) :=
        lt_of_lt_of_le (Nat.lt_mul_div_succ _ hw) (Nat.mul_le_mul_left w (by omega))
      rw [Nat.mul_succ, Nat.mul_comm] at hle
      omega
    rw [List.getElem?_eq_none (by rw [length_starts]; omega), List.drop_eq_nil_of_le hend,
      List.take_nil]
    rfl

theorem getD_ungroup {w : ℕ} (hw : 0 < w) (vals : List ℕ) (j : ℕ) :
    (ungroup w vals).getD j false = (vals.getD (j / w) 0).testBit (j % w) := by
  unfold ungroup
  induction vals generalizing j with
  | nil => simp
  | cons v vals ih =>
    rw [List.flatMap_cons]
    rcases Nat.lt_or_ge j w with hj | hj
    · rw [List.getD_append _ _ _ _ (by rwa [length_lowBits]), getD_lowBits, Nat.div_eq_of_lt hj,
        Nat.mod_eq_of_lt hj, decide_eq_true hj, List.getD_cons_zero, Bool.true_and]
    · obtain ⟨i, rfl⟩ : ∃ i, j = i + w := ⟨j - w, by omega⟩
      rw [List.getD_append_right _ _ _ _ (by rw [length_lowBits]; omega), length_lowBits,
        Nat.add_sub_cancel, ih, Nat.add_div_right _ hw, Nat.add_mod_right, List.getD_cons_succ]

theorem getD_ungroup_group {w : ℕ} (hw : 0 < w) (bits : List Bool) (j : ℕ) :
    (ungroup w (group w bits)).getD j false = bits.getD j false := by
  have hmod : j % w < w := Nat.mod_lt j hw
  rw [getD_ungroup hw, getD_group hw, testBit_orBits, List.getD_eq_getElem?_getD,
    List.getElem?_take_of_lt hmod, List.getElem?_drop, Nat.mul_comm, Nat.div_add_mod,
    ← List.getD_eq_getElem?_getD]

theorem length_le_ungroup_group {w : ℕ} (hw : 0 < w) (bits : List Bool) :
    bits.length ≤ (ungroup w (group w bits)).length := by
  have hlt := Nat.lt_mul_div_succ (bits.length + w - 1) hw
  rw [Nat.mul_succ] at hlt
  rw [length_ungroup, length_group]
  omega

theorem group_lt (w : ℕ) (bits : List Bool) : ∀ val ∈ group w bits, val < 2 ^ w := by
  intro val hval
  obtain ⟨i, -, rfl⟩ := List.mem_map.1 hval
  exact orBits_lt (List.length_take_le _ _)

/-- Numbers of `w` bits come back out of any bits that are theirs with clear bits behind them. -/
theorem getD_regroup {w : ℕ} (hw : 0 < w) {vals : List ℕ} (hvals : ∀ val ∈ vals, val < 2 ^ w)
    {bits : List Bool} (hbits : ∀ j, bits.getD j false = (ungroup w vals).getD j false) (k : ℕ) :
    (group w bits).getD k 0 = vals.getD k 0 := by
  have hlt : vals.getD k 0 < 2 ^ w := by
    rcases Nat.lt_or_ge k vals.length with hk | hk
    · rw [List.getD_eq_getElem _ _ hk]
      exact hvals _ (List.getElem_mem hk)
    · rw [List.getD_eq_default _ _ hk]
      exact Nat.two_pow_pos w
  refine Nat.eq_of_testBit_eq fun i => ?_
  rw [getD_group hw, testBit_orBits, List.getD_eq_getElem?_getD]
  rcases Nat.lt_or_ge i w with hi | hi
  · rw [List.getElem?_take_of_lt hi, List.getElem?_drop, ← List.getD_eq_getElem?_getD, hbits,
      getD_ungroup hw, Nat.mul_comm, Nat.mul_add_div hw, Nat.div_eq_of_lt hi, Nat.add_zero,
      Nat.mul_add_mod, Nat.mod_eq_of_lt hi]
  · rw [List.getElem?_eq_none (by rw [List.length_take]; omega),
      Nat.testBit_lt_two_pow (lt_of_lt_of_le hlt (Nat.pow_le_pow_right (by decide) hi))]
    rfl

/-! ## The Gray code -/

/-- `x ^ (x >> 1)`. -/
def gray (x : ℕ) : ℕ := x ^^^ (x >>> 1)

/-- `while x > 0: x >>= 1; m ^= x`. -/
def grayLoop (m x : ℕ) : ℕ := if 0 < x then grayLoop (m ^^^ (x >>> 1)) (x >>> 1) else m
termination_by x
decreasing_by
  rw [Nat.shiftRight_eq_div_pow]
  omega

theorem grayLoop_gray (m y : ℕ) : grayLoop m (gray y) = m ^^^ (y >>> 1) := by
  induction y using Nat.strong_induction_on generalizing m with
  | _ y ih =>
    unfold grayLoop
    by_cases hy : y = 0
    · subst hy
      simp [gray]
    · have hshift : gray y >>> 1 = gray (y >>> 1) := by
        unfold gray
        rw [Nat.shiftRight_xor_distrib]
      have hlt : y >>> 1 < y := by
        rw [Nat.shiftRight_eq_div_pow]
        omega
      have hpos : 0 < gray y := by
        refine Nat.pos_of_ne_zero fun h => ?_
        have hsame : y = y >>> 1 := Nat.xor_eq_zero_iff.1 h
        omega
      rw [if_pos hpos, hshift, ih _ hlt]
      unfold gray
      rw [Nat.xor_assoc, Nat.xor_assoc, Nat.xor_self, Nat.xor_zero]

theorem grayLoop_self (x : ℕ) : grayLoop (gray x) (gray x) = x := by
  rw [grayLoop_gray]
  unfold gray
  rw [Nat.xor_assoc, Nat.xor_self, Nat.xor_zero]

theorem gray_lt {w x : ℕ} (h : x < 2 ^ w) : gray x < 2 ^ w := by
  unfold gray
  exact Nat.xor_lt_two_pow h (lt_of_le_of_lt (Nat.shiftRight_le x 1) h)

end Lib

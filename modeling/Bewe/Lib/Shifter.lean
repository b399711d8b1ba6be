import Mathlib.Tactic

/-!
# Shift registers

A register of `w` bits gets one bit at a time, least significant first: the new one comes in at the
top, and the lowest one falls out. So it has the last `w` bits of those that it had and got
(`lsbBits_shiftAll`), and after `w` bits nothing is left of what it had.
-/

namespace Lib

variable {w : ℕ}

/-- The bits of a word, least significant first. -/
def lsbBits (v : BitVec w) : List Bool := (List.range w).map v.getLsbD

/-- A bit comes in at the top of a register. -/
def shiftIn (s : BitVec w) (b : Bool) : BitVec w :=
  (s >>> 1) ||| (if b then BitVec.twoPow w (w - 1) else 0)

/-- Bits come in one after the other. -/
def shiftAll (s : BitVec w) (bs : List Bool) : BitVec w := bs.foldl shiftIn s

@[simp] theorem length_lsbBits (v : BitVec w) : (lsbBits v).length = w := by simp [lsbBits]

theorem getElem_lsbBits (v : BitVec w) (i : ℕ) (h : i < (lsbBits v).length) :
    (lsbBits v)[i] = v.getLsbD i := by
  simp [lsbBits]

theorem lsbBits_injective : Function.Injective (lsbBits (w := w)) := by
  intro u v h
  apply BitVec.eq_of_getLsbD_eq
  intro i hi
  have hu := getElem_lsbBits u i (by simpa using hi)
  have hv := getElem_lsbBits v i (by simpa using hi)
  rw [← hu, ← hv]
  simp only [h]

theorem lsbBits_shiftIn (hw : 0 < w) (s : BitVec w) (b : Bool) :
    lsbBits (shiftIn s b) = (lsbBits s).drop 1 ++ [b] := by
  apply List.ext_getElem
  · simp
    omega
  intro i hi hi'
  rw [length_lsbBits] at hi
  rw [getElem_lsbBits, List.getElem_append]
  have hbit : (shiftIn s b).getLsbD i = (s.getLsbD (1 + i) || (b && decide (i = w - 1))) := by
    cases b
    · simp [shiftIn]
    · simp [shiftIn, BitVec.getLsbD_twoPow, hw, eq_comm]
  rw [hbit]
  split_ifs with hlast
  · have hne : i ≠ w - 1 := by
      simp at hlast
      omega
    simp [getElem_lsbBits, hne, Nat.add_comm]
  · have heq : i = w - 1 := by
      simp at hlast
      omega
    have hover : s.getLsbD (1 + i) = false := BitVec.getLsbD_of_ge _ _ (by omega)
    rw [hover, decide_eq_true heq, Bool.false_or, Bool.and_true, List.getElem_singleton]

theorem lsbBits_shiftAll (hw : 0 < w) (s : BitVec w) (bs : List Bool) :
    lsbBits (shiftAll s bs) = (lsbBits s ++ bs).drop bs.length := by
  induction bs generalizing s with
  | nil => simp [shiftAll]
  | cons b bs ih =>
    have hstep : shiftAll s (b :: bs) = shiftAll (shiftIn s b) bs := rfl
    have hone : 1 ≤ (lsbBits s).length := by
      rw [length_lsbBits]
      exact hw
    rw [hstep, ih, lsbBits_shiftIn hw, List.length_cons, Nat.add_comm bs.length, ← List.drop_drop,
      List.append_assoc, List.singleton_append, List.drop_append_of_le_length hone]

theorem shiftAll_lsbBits (hw : 0 < w) (s v : BitVec w) : shiftAll s (lsbBits v) = v := by
  apply lsbBits_injective
  rw [lsbBits_shiftAll hw, length_lsbBits, List.drop_left' (length_lsbBits s)]

end Lib

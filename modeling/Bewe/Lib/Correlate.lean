import Mathlib.Algebra.BigOperators.Ring.Finset
import Mathlib.Algebra.Order.Ring.Abs
import Mathlib.Tactic.Ring

/-!
# Correlation of signs

Two sequences of bits, written as signs and correlated, agree more often the larger the correlation
is (`dot_eq`), and the correlation with the complement is the opposite number (`dot_not`). So among
several partners the one of largest modulus is the one that agrees most, itself or complemented
according to the sign (`agree_le_of_abs_le`).
-/

namespace Lib

/-- A bit as a sign. -/
def sgn (b : Bool) : ℤ := if b then 1 else -1

variable {ι : Type*}

/-- The correlation of two sequences over some places. -/
def dot (s : Finset ι) (u v : ι → Bool) : ℤ := ∑ i ∈ s, sgn (u i) * sgn (v i)

/-- The number of places at which two sequences agree. -/
def agree (s : Finset ι) (u v : ι → Bool) : ℕ := (s.filter fun i => u i = v i).card

theorem sgn_not (b : Bool) : sgn (!b) = -sgn b := by
  cases b <;> rfl

theorem sgn_mul_sgn (a b : Bool) : sgn a * sgn b = 2 * (if a = b then 1 else 0) - 1 := by
  cases a <;> cases b <;> rfl

theorem dot_eq (s : Finset ι) (u v : ι → Bool) : dot s u v = 2 * agree s u v - s.card := by
  have hterm : dot s u v = ∑ i ∈ s, (2 * (if u i = v i then (1 : ℤ) else 0) - 1) :=
    Finset.sum_congr rfl fun i _ => sgn_mul_sgn (u i) (v i)
  rw [hterm, Finset.sum_sub_distrib, ← Finset.mul_sum, Finset.sum_boole, Finset.sum_const,
    nsmul_one]
  rfl

theorem dot_not (s : Finset ι) (u v : ι → Bool) : dot s u (fun i => !v i) = -dot s u v := by
  unfold dot
  rw [← Finset.sum_neg_distrib]
  refine Finset.sum_congr rfl fun i _ => ?_
  rw [sgn_not]
  ring

theorem agree_le (s : Finset ι) (u v : ι → Bool) : agree s u v ≤ s.card :=
  Finset.card_filter_le _ _

theorem agree_eq_card_iff {s : Finset ι} {u v : ι → Bool} :
    agree s u v = s.card ↔ ∀ i ∈ s, u i = v i :=
  Finset.card_filter_eq_iff

/-- A sequence, or its complement. -/
def polar (inverted : Bool) (v : ι → Bool) : ι → Bool := fun i => v i ^^ inverted

theorem dot_polar (s : Finset ι) (u v : ι → Bool) (inverted : Bool) :
    dot s u (polar inverted v) = if inverted then -dot s u v else dot s u v := by
  cases inverted with
  | false =>
    rw [if_neg Bool.false_ne_true]
    exact congrArg (dot s u) (funext fun i => Bool.xor_false (v i))
  | true =>
    rw [if_pos rfl, ← dot_not]
    exact congrArg (dot s u) (funext fun i => Bool.xor_true (v i))

/-- A partner of larger modulus, taken with the sign of its correlation, agrees at least as often as
another one with any sign. -/
theorem agree_le_of_abs_le {s : Finset ι} {u v w : ι → Bool} (h : |dot s u w| ≤ |dot s u v|)
    (inverted : Bool) :
    agree s u (polar inverted w) ≤ agree s u (polar (decide (dot s u v < 0)) v) := by
  have hw : dot s u (polar inverted w) ≤ |dot s u w| := by
    rw [dot_polar]
    split_ifs
    · exact neg_le_abs _
    · exact le_abs_self _
  have hv : dot s u (polar (decide (dot s u v < 0)) v) = |dot s u v| := by
    rw [dot_polar]
    by_cases hneg : dot s u v < 0
    · rw [if_pos (decide_eq_true hneg), abs_of_neg hneg]
    · rw [if_neg (by rwa [decide_eq_true_iff]), abs_of_nonneg (not_lt.1 hneg)]
  have hle : dot s u (polar inverted w) ≤ dot s u (polar (decide (dot s u v < 0)) v) := by
    rw [hv]
    exact hw.trans h
  rw [dot_eq, dot_eq] at hle
  omega

end Lib

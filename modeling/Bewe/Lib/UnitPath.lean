import Mathlib.Analysis.InnerProductSpace.Basic
import Mathlib.Analysis.Normed.Module.Normalize
import Mathlib.Tactic.Linarith

/-!
# Normalised paths between unit vectors

The straight way from one unit vector of a real inner product space to another, brought back to
length 1. It passes through zero at its middle only (`abs_one_sub_le_norm_onPath`), and a point before
the middle tells where the way began (`eq_of_normalize_onPath`): two ways to the same end with the
same normalised point have begun at the same vector.
-/

namespace Lib

open NormedSpace (norm_normalize norm_smul_normalize)

variable {E : Type*} [NormedAddCommGroup E] [InnerProductSpace ℝ E] {a b w : E} {t : ℝ}

/-- The point at the part `t` of the straight way. -/
def onPath (t : ℝ) (a w : E) : E := (1 - t) • a + t • w

/-- The straight way between two unit vectors stays away from zero, its middle apart. -/
theorem abs_one_sub_le_norm_onPath (ha : ‖a‖ = 1) (hw : ‖w‖ = 1) (h0 : 0 ≤ t) (h1 : t ≤ 1) :
    |1 - 2 * t| ≤ ‖onPath t a w‖ := by
  have hsub := abs_norm_sub_norm_le ((1 - t) • a) (-(t • w))
  rw [sub_neg_eq_add, norm_neg, norm_smul, norm_smul, ha, hw, Real.norm_of_nonneg h0,
    Real.norm_of_nonneg (by linarith), mul_one, mul_one] at hsub
  rw [onPath]
  calc |1 - 2 * t| = |1 - t - t| := by ring_nf
    _ ≤ ‖(1 - t) • a + t • w‖ := hsub

theorem norm_onPath_pos (ha : ‖a‖ = 1) (hw : ‖w‖ = 1) (h0 : 0 ≤ t) (ht : 2 * t < 1) :
    0 < ‖onPath t a w‖ :=
  lt_of_lt_of_le (abs_pos.2 (by linarith)) (abs_one_sub_le_norm_onPath ha hw h0 (by linarith))

theorem onPath_self (t : ℝ) (a : E) : onPath t a a = a := by
  rw [onPath, ← add_smul, sub_add_cancel, one_smul]

theorem norm_sq_of_onPath {n : E} {r : ℝ} (ha : ‖a‖ = 1) (hw : ‖w‖ = 1) (hn : ‖n‖ = 1)
    (h : onPath t a w = r • n) : r ^ 2 - 2 * t * inner ℝ n w * r + t ^ 2 = (1 - t) ^ 2 := by
  have hback : (1 - t) • a = r • n - t • w := by
    rw [← h, onPath, add_sub_cancel_right]
  have hsq := congrArg (fun x => ‖x‖ ^ 2) hback
  rw [norm_sub_sq_real, norm_smul, norm_smul, norm_smul, ha, hw, hn, real_inner_smul_left,
    real_inner_smul_right, mul_one, mul_one, mul_one, Real.norm_eq_abs, Real.norm_eq_abs,
    Real.norm_eq_abs, sq_abs, sq_abs, sq_abs] at hsq
  linarith

/-- The normalised point of a way before its middle tells where the way began. -/
theorem eq_of_normalize_onPath (ha : ‖a‖ = 1) (hb : ‖b‖ = 1) (hw : ‖w‖ = 1) (h0 : 0 ≤ t)
    (ht : 2 * t < 1)
    (h : NormedSpace.normalize (onPath t a w) = NormedSpace.normalize (onPath t b w)) : a = b := by
  have hpa := norm_onPath_pos ha hw h0 ht
  have hpb := norm_onPath_pos hb hw h0 ht
  have hn : ‖NormedSpace.normalize (onPath t a w)‖ = 1 := norm_normalize (norm_pos_iff.1 hpa)
  have hqa := norm_sq_of_onPath ha hw hn (norm_smul_normalize _).symm
  have hqb := norm_sq_of_onPath (r := ‖onPath t b w‖) hb hw hn (by rw [h, norm_smul_normalize])
  -- both lengths solve one quadratic equation, whose roots have different signs
  have hlen : ‖onPath t a w‖ = ‖onPath t b w‖ := by
    have hprod : (‖onPath t a w‖ - ‖onPath t b w‖) *
        (‖onPath t a w‖ * ‖onPath t b w‖ + (1 - 2 * t)) = 0 := by
      linear_combination ‖onPath t b w‖ * hqa - ‖onPath t a w‖ * hqb
    rcases mul_eq_zero.1 hprod with hzero | hzero
    · linarith
    · have hpos := mul_pos hpa hpb
      linarith
  have hpath : onPath t a w = onPath t b w := by
    calc onPath t a w = ‖onPath t a w‖ • NormedSpace.normalize (onPath t a w) :=
          (norm_smul_normalize _).symm
      _ = ‖onPath t b w‖ • NormedSpace.normalize (onPath t b w) := by rw [hlen, h]
      _ = onPath t b w := norm_smul_normalize _
  rw [onPath, onPath, add_left_inj] at hpath
  exact smul_right_injective E (by linarith : (1 - t) ≠ 0) hpath

end Lib

import Bewe.Lib.Float

/-!
# Sample grids

A signal with `spb` samples a bit, in `double` arithmetic: the number of samples in a time of `c` bits
(`spanOf`), and the sample nearest to a time (`offsetOf`). A rounded product keeps the order of times.
-/

namespace Lib

/-- `(size_t)(c*spb)` -/
def spanOf (spb c : ℚ) : ℕ := ⌊roundBits 53 (c * spb)⌋₊

/-- `llround(c*spb)` -/
def offsetOf (spb c : ℚ) : ℕ := ⌊roundBits 53 (c * spb) + 1 / 2⌋₊

variable {spb c c' : ℚ}

theorem spanOf_le (hspb : 0 < spb) (hle : c ≤ c') : spanOf spb c ≤ spanOf spb c' :=
  Nat.floor_le_floor (roundBits_mono (by norm_num) (mul_le_mul_of_nonneg_right hle hspb.le))

theorem offsetOf_le (hspb : 0 < spb) (hc : 0 ≤ c) (hle : c ≤ c') : offsetOf spb c ≤ spanOf spb c' + 1 := by
  have hround := roundBits_mono (p := 53) (by norm_num) (mul_le_mul_of_nonneg_right hle hspb.le)
  have hpos : 0 ≤ roundBits 53 (c' * spb) :=
    roundBits_nonneg (by norm_num) (mul_nonneg (hc.trans hle) hspb.le)
  rw [offsetOf, spanOf, ← Nat.floor_add_one hpos]
  exact Nat.floor_le_floor (by linarith)

end Lib

import Bewe.Lib.Decimal

/-!
# Binary significands

Rounding to a binary significand, as a conversion to a floating-point type does it in the range
where its exponent does not matter.
-/

namespace Lib

/-- A number rounded to a significand of `p` bits, ties to even. -/
def roundBits (p : ℕ) (q : ℚ) : ℚ :=
  if q = 0 then 0
  else
    let u : ℚ := 2 ^ (Int.log 2 |q| - ((p : ℤ) - 1))
    (if q < 0 then -1 else 1) * (roundHalfEven (|q| / u) * u)

/-- The number of steps of a `p`-bit significand in an integer of at most `p` bits is whole. -/
theorem exists_steps {p a : ℕ} (hp : 0 < p) (ha : a ≠ 0) (h : a ≤ 2 ^ p) :
    ∃ m : ℤ, (a : ℚ) / 2 ^ (Int.log 2 (a : ℚ) - ((p : ℤ) - 1)) = m := by
  rw [Int.log_natCast]
  rcases h.lt_or_eq with hlt | rfl
  · have hlog : Nat.log 2 a < p := Nat.log_lt_of_lt_pow ha hlt
    refine ⟨(a : ℤ) * 2 ^ (p - 1 - Nat.log 2 a), ?_⟩
    have hexp : (Nat.log 2 a : ℤ) - ((p : ℤ) - 1) = -((p - 1 - Nat.log 2 a : ℕ) : ℤ) := by omega
    rw [hexp, zpow_neg, zpow_natCast, div_inv_eq_mul]
    push_cast
    ring
  · rw [Nat.log_pow (by norm_num)]
    obtain ⟨j, rfl⟩ : ∃ j, p = j + 1 := ⟨p - 1, by omega⟩
    refine ⟨2 ^ j, ?_⟩
    have hexp : ((j + 1 : ℕ) : ℤ) - (((j + 1 : ℕ) : ℤ) - 1) = 1 := by omega
    rw [hexp, zpow_one]
    push_cast
    rw [pow_succ]
    ring

theorem roundBits_intCast {p : ℕ} (hp : 0 < p) {z : ℤ} (h : |z| ≤ 2 ^ p) : roundBits p z = z := by
  unfold roundBits
  by_cases h0 : z = 0
  · simp [h0]
  · have hz : (z : ℚ) ≠ 0 := by exact_mod_cast h0
    have habs : |(z : ℚ)| = (z.natAbs : ℚ) := by rw [Nat.cast_natAbs, Int.cast_abs]
    have hle : z.natAbs ≤ 2 ^ p := by
      have h' : ((z.natAbs : ℕ) : ℤ) ≤ ((2 ^ p : ℕ) : ℤ) := by
        rw [Int.natCast_natAbs]
        exact_mod_cast h
      exact_mod_cast h'
    obtain ⟨m, hm⟩ := exists_steps hp (by simpa using h0) hle
    have hu : (2 : ℚ) ^ (Int.log 2 (z.natAbs : ℚ) - ((p : ℤ) - 1)) ≠ 0 := by positivity
    rw [if_neg hz, habs]
    dsimp only
    rw [hm, roundHalfEven_intCast, ← hm, div_mul_cancel₀ _ hu, ← habs]
    rcases lt_or_gt_of_ne hz with hneg | hpos
    · rw [if_pos hneg, abs_of_neg hneg]
      ring
    · rw [if_neg hpos.not_gt, abs_of_pos hpos, one_mul]

/-- The number that the 32 bits of a `float` stand for; none for an infinity or a NaN. -/
def decode32 (bits : ℕ) : Option ℚ :=
  let e : ℕ := bits / 2 ^ 23 % 2 ^ 8
  let m : ℚ := (bits % 2 ^ 23 : ℕ)
  if e = 255 then none
  else some ((if bits / 2 ^ 31 % 2 = 1 then -1 else 1) *
    if e = 0 then m * 2 ^ (-149 : ℤ) else (2 ^ 23 + m) * 2 ^ ((e : ℤ) - 150))

example : decode32 0x41a00000 = some 20 := by decide +kernel

end Lib

import Bewe.Lib.Float

/-!
# Single precision

The values of `float`, which are bounded as well as rounded: a number from `2^128` on is an
infinity. What `%.6f` prints of one has 47 bytes at most, and none but zeros behind the point from `2^24` on.
So the text can be cut behind its integer part and is read as the same number.
-/

namespace Lib

/-- A number below a bound, or no number. -/
def Fp.AbsLt {p : ℕ} (b : ℚ) : Fp p → Prop
  | .fin q _ => |q| < b
  | _ => True

instance {p : ℕ} (b : ℚ) : DecidablePred (Fp.AbsLt b : Fp p → Prop) := fun x =>
  match x with
  | .fin q _ => inferInstanceAs (Decidable (|q| < b))
  | .inf _ => inferInstanceAs (Decidable True)
  | .nan _ => inferInstanceAs (Decidable True)

/-- `float`. -/
structure Single where
  val : Fp 24
  bounded : val.AbsLt (2 ^ 128)
  deriving DecidableEq

namespace Single

/-- Zero. -/
def zero : Single := ⟨.ofRat float_pos 0, by
  have h : roundBits 24 0 = 0 := by simp [roundBits]
  simp [Fp.ofRat, Fp.AbsLt, h]⟩

/-- The conversion of a `double`, which goes to an infinity beyond the range. -/
def ofDouble (x : Fp 53) : Single :=
  if h : (x.cast float_pos : Fp 24).AbsLt (2 ^ 128) then ⟨x.cast float_pos, h⟩
  else
    match x with
    | .fin q _ => ⟨.inf (q < 0), trivial⟩
    | _ => zero

/-! ## Large numbers -/

/-- From `2^24` on, a number with 24 bits is an integer. -/
theorem exists_int_of_le {q : ℚ} (h : roundBits 24 q = q) (hq : (2 : ℚ) ^ 24 ≤ |q|) :
    ∃ z : ℤ, q = z := by
  obtain ⟨z, hz⟩ := exists_ulp_of_roundBits h
  have hlog : 24 ≤ Int.log 2 |q| := by
    have hpos : 0 < |q| := lt_of_lt_of_le (by norm_num) hq
    refine (Int.zpow_le_iff_le_log (by norm_num) hpos).1 ?_
    push_cast
    exact_mod_cast hq
  obtain ⟨k, hk⟩ := Int.eq_ofNat_of_zero_le (show 0 ≤ Int.log 2 |q| - 23 by omega)
  refine ⟨z * 2 ^ k, ?_⟩
  have hulp : ulp 24 q = 2 ^ k := by
    rw [ulp, ← zpow_natCast]
    exact congrArg (fun e : ℤ => (2 : ℚ) ^ e) hk
  rw [hz, hulp]
  push_cast
  rfl

theorem roundFixed_intCast (n : ℕ) (z : ℤ) : roundFixed n z = z := by
  have habs : |(z : ℚ)| * 10 ^ n = ((|z| * 10 ^ n : ℤ) : ℚ) := by
    push_cast
    rfl
  rw [roundFixed, habs, roundHalfEven_intCast]
  push_cast
  rw [mul_div_cancel_right₀ _ (by positivity), sign_mul_abs]

end Single

theorem length_natText (n : ℕ) : (natText n).length = Nat.log 10 n + 1 := padDigits_length _ _

theorem length_natText_le {n k : ℕ} (hk : 0 < k) (h : n < 10 ^ k) : (natText n).length ≤ k := by
  rw [length_natText]
  rcases eq_or_ne n 0 with rfl | hn
  · rw [Nat.log_zero_right]
    omega
  · exact Nat.log_lt_of_lt_pow hn h

theorem length_fmtFixed_le {n k : ℕ} (hn : 0 < n) (hk : 0 < k) {q : ℚ} (hq : 0 ≤ q)
    (hlt : q + 1 < 10 ^ k) : (fmtFixed n q).length ≤ k + (n + 1) := by
  have hround := (abs_le.1 (abs_roundHalfEven_sub_le (|q| * 10 ^ n))).2
  generalize hz : roundHalfEven (|q| * 10 ^ n) = z at hround
  have hpow : (1 : ℚ) ≤ 10 ^ n := one_le_pow₀ (by norm_num)
  have hzlt : (z : ℚ) < (10 ^ k * 10 ^ n : ℤ) := by
    have hmul : (q + 1) * 10 ^ n ≤ 10 ^ k * 10 ^ n := by gcongr
    rw [abs_of_nonneg hq] at hround
    push_cast
    linarith
  have hnat : z.toNat / 10 ^ n < 10 ^ k := by
    rw [Nat.div_lt_iff_lt_mul (by positivity)]
    have hint : z < 10 ^ k * 10 ^ n := by exact_mod_cast hzlt
    have hpos : (0 : ℤ) < 10 ^ k * 10 ^ n := by positivity
    zify
    omega
  have hlen := length_natText_le hk hnat
  simp only [fmtFixed, hz, not_lt.mpr hq, decide_false, signText, Bool.false_eq_true, if_false,
    hn.ne', List.nil_append, List.length_append, List.length_cons, padDigits_length]
  omega

/-- A printed number consists of the bytes of a number. -/
theorem isNumByte_of_mem_fmtFixed {n : ℕ} {q : ℚ} {c : UInt8} (h : c ∈ fmtFixed n q) :
    isNumByte c = true := by
  unfold fmtFixed at h
  rcases List.mem_append.mp h with h | h
  · rcases List.mem_append.mp h with h | h
    · exact isNumByte_of_mem_signText h
    · exact isNumByte_of_isDigit (isDigit_of_mem_natText h)
  · split_ifs at h
    · cases h
    · rcases List.mem_cons.mp h with rfl | h
      · rfl
      · exact isNumByte_of_isDigit (isDigit_of_mem_padDigits h)

theorem length_signText_le (neg : Bool) : (signText neg).length ≤ 1 := by
  cases neg with
  | true => exact le_rfl
  | false => exact Nat.zero_le 1

end Lib

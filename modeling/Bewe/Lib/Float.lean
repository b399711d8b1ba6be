import Bewe.Lib.Binary

/-!
# Floating-point values

Values of a binary floating-point type with `p` bits of significand, infinities and NaNs included;
the two zeros are one. They are what `roundBits p` keeps, so the range of the exponent does not
matter. `abs_roundBits_sub_le` bounds the distance of the rounding, `roundBits_eq_of_near` says
where it goes, and from them `abs_float_sub_le` says that a `float` printed with six decimals and
read back through a `double` is at most `10^-6` away.
-/

namespace Lib

/-! ## Rounding to a significand -/

theorem float_pos : 0 < 24 := by norm_num

theorem double_pos : 0 < 53 := by norm_num

/-- The step of a significand of `p` bits at a number. -/
def ulp (p : ℕ) (q : ℚ) : ℚ := 2 ^ (Int.log 2 |q| - ((p : ℤ) - 1))

theorem ulp_pos (p : ℕ) (q : ℚ) : 0 < ulp p q := by
  unfold ulp
  positivity

theorem roundBits_eq {p : ℕ} {q : ℚ} (hq : q ≠ 0) :
    roundBits p q = (if q < 0 then -1 else 1) * (roundHalfEven (|q| / ulp p q) * ulp p q) := by
  rw [roundBits, if_neg hq]
  rfl

/-- A number is its sign times its absolute value. -/
theorem sign_mul_abs (q : ℚ) : (if q < 0 then -1 else 1) * |q| = q := by
  split_ifs with h
  · rw [abs_of_neg h]
    ring
  · rw [abs_of_nonneg (not_lt.1 h)]
    ring

theorem abs_sign_mul (q r : ℚ) : |(if q < 0 then -1 else 1) * r| = |r| := by
  split_ifs
  · rw [neg_one_mul, abs_neg]
  · rw [one_mul]

/-- Rounding to `p` bits goes half a step at most. -/
theorem abs_roundBits_sub_le {p : ℕ} {q : ℚ} (hq : q ≠ 0) :
    |roundBits p q - q| ≤ ulp p q / 2 := by
  have hu := ulp_pos p q
  have hround := abs_roundHalfEven_sub_le (|q| / ulp p q)
  calc |roundBits p q - q|
    _ = |(if q < 0 then -1 else 1) * (roundHalfEven (|q| / ulp p q) * ulp p q - |q|)| := by
      rw [mul_sub, sign_mul_abs, ← roundBits_eq hq]
    _ = |(roundHalfEven (|q| / ulp p q) - |q| / ulp p q) * ulp p q| := by
      rw [abs_sign_mul, sub_mul, div_mul_cancel₀ _ hu.ne']
    _ = |(roundHalfEven (|q| / ulp p q) : ℚ) - |q| / ulp p q| * ulp p q := by
      rw [abs_mul, abs_of_pos hu]
    _ ≤ 1 / 2 * ulp p q := mul_le_mul_of_nonneg_right hround hu.le
    _ = ulp p q / 2 := by ring

theorem roundHalfEven_mono {q r : ℚ} (h : q ≤ r) : roundHalfEven q ≤ roundHalfEven r := by
  by_contra hlt
  have hq := abs_le.1 (abs_roundHalfEven_sub_le q)
  have hr := abs_le.1 (abs_roundHalfEven_sub_le r)
  have hgap : (roundHalfEven r : ℚ) + 1 ≤ roundHalfEven q := by exact_mod_cast not_le.1 hlt
  -- both are the same tie
  have heq : q = r := le_antisymm h (by linarith)
  rw [heq] at hlt
  exact hlt le_rfl

/-- The integer less than one half away is the nearest one. -/
theorem roundHalfEven_eq_of_abs_lt {q : ℚ} {z : ℤ} (h : |q - z| < 1 / 2) : roundHalfEven q = z := by
  have hround := abs_le.1 (abs_roundHalfEven_sub_le q)
  rw [abs_lt] at h
  have hlo : ((z - 1 : ℤ) : ℚ) < roundHalfEven q := by
    push_cast
    linarith
  have hhi : (roundHalfEven q : ℚ) < ((z + 1 : ℤ) : ℚ) := by
    push_cast
    linarith
  have hlo' : z - 1 < roundHalfEven q := by exact_mod_cast hlo
  have hhi' : roundHalfEven q < z + 1 := by exact_mod_cast hhi
  omega

/-- The multiple of the step that is less than half a step away is what a number is rounded to. -/
theorem roundBits_eq_of_near {p : ℕ} {q : ℚ} (hq : q ≠ 0) {z : ℤ}
    (h : |q - z * ulp p q| < ulp p q / 2) : roundBits p q = z * ulp p q := by
  have hu := ulp_pos p q
  have hscaled : |q / ulp p q - z| < 1 / 2 := by
    rw [← mul_lt_mul_iff_of_pos_right hu]
    calc |q / ulp p q - z| * ulp p q
      _ = |(q / ulp p q - z) * ulp p q| := by rw [abs_mul, abs_of_pos hu]
      _ = |q - z * ulp p q| := by rw [sub_mul, div_mul_cancel₀ _ hu.ne']
      _ < ulp p q / 2 := h
      _ = 1 / 2 * ulp p q := by ring
  rw [roundBits_eq hq]
  rcases lt_or_gt_of_ne hq with hneg | hpos
  · have hz : roundHalfEven (|q| / ulp p q) = -z := by
      refine roundHalfEven_eq_of_abs_lt ?_
      rw [abs_of_neg hneg, neg_div]
      push_cast
      rwa [← neg_add', abs_neg, ← sub_eq_add_neg]
    rw [hz, if_pos hneg]
    push_cast
    ring
  · have hz : roundHalfEven (|q| / ulp p q) = z := by
      refine roundHalfEven_eq_of_abs_lt ?_
      rwa [abs_of_pos hpos]
    rw [hz, if_neg hpos.not_gt, one_mul]

theorem log_mul_zpow {q : ℚ} (hq : q ≠ 0) (k : ℤ) :
    Int.log 2 |q * 2 ^ k| = Int.log 2 |q| + k := by
  have hq' : 0 < |q| := abs_pos.2 hq
  have hk : (0 : ℚ) < 2 ^ k := by positivity
  have hlo := Int.zpow_log_le_self (b := 2) (by norm_num) hq'
  have hhi := Int.lt_zpow_succ_log_self (b := 2) (by norm_num) |q|
  push_cast at hlo hhi
  have habs : |q * 2 ^ k| = |q| * 2 ^ k := by rw [abs_mul, abs_of_pos hk]
  rw [habs]
  refine le_antisymm ?_ ?_
  · refine Int.lt_add_one_iff.1 ((Int.lt_zpow_iff_log_lt (by norm_num) (by positivity)).1 ?_)
    push_cast
    rw [add_right_comm, zpow_add₀ (by norm_num)]
    exact mul_lt_mul_of_pos_right hhi hk
  · refine (Int.zpow_le_iff_le_log (by norm_num) (by positivity)).1 ?_
    push_cast
    rw [zpow_add₀ (by norm_num)]
    exact mul_le_mul_of_nonneg_right hlo hk.le

theorem roundBits_mul_zpow (p : ℕ) (q : ℚ) (k : ℤ) :
    roundBits p (q * 2 ^ k) = roundBits p q * 2 ^ k := by
  have hk : (0 : ℚ) < 2 ^ k := by positivity
  rcases eq_or_ne q 0 with rfl | hq
  · simp [roundBits]
  · have hulp : ulp p (q * 2 ^ k) = ulp p q * 2 ^ k := by
      rw [ulp, ulp, log_mul_zpow hq, ← zpow_add₀ (by norm_num)]
      congr 1
      ring
    have hsign : (q * 2 ^ k < 0) ↔ q < 0 :=
      ⟨fun h => neg_of_mul_neg_left h hk.le, fun h => mul_neg_of_neg_of_pos h hk⟩
    rw [roundBits_eq (mul_ne_zero hq hk.ne'), roundBits_eq hq, hulp, abs_mul, abs_of_pos hk,
      mul_div_mul_right _ _ hk.ne']
    simp only [hsign]
    ring

theorem abs_lt_ulp {p : ℕ} (q : ℚ) : |q| < 2 ^ p * ulp p q := by
  have hhi := Int.lt_zpow_succ_log_self (b := 2) (by norm_num) |q|
  push_cast at hhi
  refine hhi.trans_eq ?_
  rw [ulp, ← zpow_natCast, ← zpow_add₀ (by norm_num)]
  congr 1
  ring

/-- A number that is not zero is `2^(p - 1)` steps at least. -/
theorem ulp_le_abs {p : ℕ} {q : ℚ} (hq : q ≠ 0) : 2 ^ ((p : ℤ) - 1) * ulp p q ≤ |q| := by
  have hlo := Int.zpow_log_le_self (b := 2) (by norm_num) (abs_pos.2 hq)
  push_cast at hlo
  refine le_of_eq_of_le ?_ hlo
  rw [ulp, ← zpow_add₀ (by norm_num)]
  congr 1
  ring

theorem roundBits_neg (p : ℕ) (q : ℚ) : roundBits p (-q) = -roundBits p q := by
  rcases eq_or_ne q 0 with rfl | hq
  · simp [roundBits]
  · have hulp : ulp p (-q) = ulp p q := by rw [ulp, ulp, abs_neg]
    rw [roundBits_eq (neg_ne_zero.2 hq), roundBits_eq hq, hulp, abs_neg]
    rcases lt_or_gt_of_ne hq with hneg | hpos
    · rw [if_neg (by linarith), if_pos hneg]
      ring
    · rw [if_pos (by linarith), if_neg (by linarith)]
      ring

theorem roundBits_of_pos {p : ℕ} {q : ℚ} (hq : 0 < q) :
    roundBits p q = roundHalfEven (q / ulp p q) * ulp p q := by
  rw [roundBits_eq hq.ne', if_neg hq.not_gt, one_mul, abs_of_pos hq]

/-- A number between two powers of two is rounded to one between them. -/
theorem roundBits_between {p : ℕ} (hp : 0 < p) {q : ℚ} (hq : 0 < q) :
    (2 : ℚ) ^ Int.log 2 q ≤ roundBits p q ∧ roundBits p q ≤ 2 ^ (Int.log 2 q + 1) := by
  have hu := ulp_pos p q
  have hlo := ulp_le_abs (p := p) hq.ne'
  have hhi := abs_lt_ulp (p := p) q
  rw [abs_of_pos hq] at hlo hhi
  obtain ⟨j, rfl⟩ : ∃ j, p = j + 1 := ⟨p - 1, by omega⟩
  have hpow : (2 : ℚ) ^ (((j + 1 : ℕ) : ℤ) - 1) = 2 ^ j := by
    rw [← zpow_natCast]
    congr 1
    push_cast
    ring
  rw [hpow] at hlo
  have hlow : (2 : ℤ) ^ j ≤ roundHalfEven (q / ulp (j + 1) q) := by
    have h := roundHalfEven_mono ((le_div_iff₀ hu).2 hlo)
    have hint : ((2 : ℚ) ^ j) = ((2 ^ j : ℤ) : ℚ) := by push_cast; rfl
    rwa [hint, roundHalfEven_intCast] at h
  have hhigh : roundHalfEven (q / ulp (j + 1) q) ≤ (2 : ℤ) ^ (j + 1) := by
    have h := roundHalfEven_mono ((div_le_iff₀ hu).2 hhi.le)
    have hint : ((2 : ℚ) ^ (j + 1)) = ((2 ^ (j + 1) : ℤ) : ℚ) := by push_cast; rfl
    rwa [hint, roundHalfEven_intCast] at h
  have hulp : ulp (j + 1) q = 2 ^ (Int.log 2 q - j) := by
    rw [ulp, abs_of_pos hq]
    congr 1
    push_cast
    ring
  rw [roundBits_of_pos hq]
  constructor
  · calc (2 : ℚ) ^ Int.log 2 q
      _ = 2 ^ j * ulp (j + 1) q := by
        rw [hulp, ← zpow_natCast, ← zpow_add₀ (by norm_num)]
        congr 1
        ring
      _ ≤ roundHalfEven (q / ulp (j + 1) q) * ulp (j + 1) q :=
        mul_le_mul_of_nonneg_right (by exact_mod_cast hlow) hu.le
  · calc (roundHalfEven (q / ulp (j + 1) q) : ℚ) * ulp (j + 1) q
      _ ≤ 2 ^ (j + 1) * ulp (j + 1) q := mul_le_mul_of_nonneg_right (by exact_mod_cast hhigh) hu.le
      _ = 2 ^ (Int.log 2 q + 1) := by
        rw [hulp, ← zpow_natCast, ← zpow_add₀ (by norm_num)]
        congr 1
        push_cast
        ring

theorem roundBits_mono_of_pos {p : ℕ} (hp : 0 < p) {q r : ℚ} (hq : 0 < q) (h : q ≤ r) :
    roundBits p q ≤ roundBits p r := by
  have hr := hq.trans_le h
  rcases (Int.log_mono_right hq h).lt_or_eq with hlt | heq
  · calc roundBits p q
      _ ≤ 2 ^ (Int.log 2 q + 1) := (roundBits_between hp hq).2
      _ ≤ 2 ^ Int.log 2 r := zpow_le_zpow_right₀ (by norm_num) hlt
      _ ≤ roundBits p r := (roundBits_between hp hr).1
  · have hulp : ulp p q = ulp p r := by rw [ulp, ulp, abs_of_pos hq, abs_of_pos hr, heq]
    rw [roundBits_of_pos hq, roundBits_of_pos hr, hulp]
    have hu := ulp_pos p r
    have hround : (roundHalfEven (q / ulp p r) : ℚ) ≤ roundHalfEven (r / ulp p r) := by
      exact_mod_cast roundHalfEven_mono (div_le_div_of_nonneg_right h hu.le)
    exact mul_le_mul_of_nonneg_right hround hu.le

/-- A positive number is rounded to a positive one. -/
theorem roundBits_pos {p : ℕ} (hp : 0 < p) {q : ℚ} (hq : 0 < q) : 0 < roundBits p q := by
  have hpow : (0 : ℚ) < 2 ^ Int.log 2 q := by positivity
  exact hpow.trans_le (roundBits_between hp hq).1

theorem roundBits_nonneg {p : ℕ} (hp : 0 < p) {q : ℚ} (hq : 0 ≤ q) : 0 ≤ roundBits p q := by
  rcases hq.eq_or_lt with rfl | hq
  · simp [roundBits]
  · exact (roundBits_pos hp hq).le

theorem roundBits_mono {p : ℕ} (hp : 0 < p) {q r : ℚ} (h : q ≤ r) : roundBits p q ≤ roundBits p r := by
  rcases lt_or_ge 0 q with hq | hq
  · exact roundBits_mono_of_pos hp hq h
  rcases lt_or_ge r 0 with hr | hr
  · have hneg := roundBits_mono_of_pos hp (neg_pos.2 hr) (neg_le_neg h)
    rw [roundBits_neg, roundBits_neg] at hneg
    exact neg_le_neg_iff.1 hneg
  · have hq' := roundBits_nonneg hp (neg_nonneg.2 hq)
    rw [roundBits_neg] at hq'
    exact (neg_nonneg.1 hq').trans (roundBits_nonneg hp hr)

theorem roundBits_idem {p : ℕ} (hp : 0 < p) (q : ℚ) : roundBits p (roundBits p q) = roundBits p q := by
  rcases eq_or_ne q 0 with rfl | hq
  · simp [roundBits]
  · have hu := ulp_pos p q
    obtain ⟨z, hz, hle⟩ : ∃ z : ℤ, roundBits p q = z * ulp p q ∧ |z| ≤ 2 ^ p := by
      have h0 : (0 : ℤ) ≤ roundHalfEven (|q| / ulp p q) :=
        le_roundHalfEven (by push_cast; positivity)
      have hround := abs_le.1 (abs_roundHalfEven_sub_le (|q| / ulp p q))
      have hdiv : |q| / ulp p q < 2 ^ p := (div_lt_iff₀ hu).2 (abs_lt_ulp q)
      have hlt : (roundHalfEven (|q| / ulp p q) : ℚ) < ((2 ^ p + 1 : ℤ) : ℚ) := by
        push_cast
        linarith
      have hlt' : roundHalfEven (|q| / ulp p q) < 2 ^ p + 1 := by exact_mod_cast hlt
      refine ⟨(if q < 0 then -1 else 1) * roundHalfEven (|q| / ulp p q), ?_, ?_⟩
      · rw [roundBits_eq hq]
        push_cast
        ring
      · split_ifs
        · rw [neg_one_mul, abs_neg, abs_of_nonneg h0]
          omega
        · rw [one_mul, abs_of_nonneg h0]
          omega
    rw [hz, ulp, roundBits_mul_zpow, roundBits_intCast hp hle]

theorem exists_ulp_of_roundBits {p : ℕ} {q : ℚ} (h : roundBits p q = q) :
    ∃ z : ℤ, q = z * ulp p q := by
  rcases eq_or_ne q 0 with rfl | hq
  · exact ⟨0, by simp⟩
  · refine ⟨(if q < 0 then -1 else 1) * roundHalfEven (|q| / ulp p q), ?_⟩
    calc q
      _ = (if q < 0 then -1 else 1) * (roundHalfEven (|q| / ulp p q) * ulp p q) := by
        rw [← roundBits_eq hq, h]
      _ = ((if q < 0 then -1 else 1) * roundHalfEven (|q| / ulp p q) : ℤ) * ulp p q := by
        push_cast
        ring

/-- The multiples of a step that are less than half a step away from a number are what it is
rounded to, also where they lie below the power of two at which the step changes. -/
theorem roundBits_eq_of_abs_lt {p : ℕ} (hp : 0 < p) {x y : ℚ} (hx : roundBits p x = x) (hy : y ≠ 0)
    (h : |y - x| < ulp p y / 2) : roundBits p y = x := by
  obtain ⟨z, hz⟩ := exists_ulp_of_roundBits hx
  suffices hm : ∃ m : ℤ, x = m * ulp p y by
    obtain ⟨m, hm⟩ := hm
    rw [hm]
    exact roundBits_eq_of_near hy (hm ▸ h)
  rcases eq_or_ne x 0 with hx0 | hx0
  · exact ⟨0, by simp [hx0]⟩
  rcases le_or_gt (Int.log 2 |y|) (Int.log 2 |x|) with hlog | hlog
  · -- the step at x is a multiple of that at y
    obtain ⟨k, hk⟩ := Int.eq_ofNat_of_zero_le (sub_nonneg.2 hlog)
    refine ⟨z * 2 ^ k, ?_⟩
    have hstep : ulp p x = 2 ^ k * ulp p y := by
      rw [ulp, ulp, ← zpow_natCast, ← zpow_add₀ (by norm_num)]
      congr 1
      omega
    rw [hz, hstep]
    push_cast
    ring
  · -- x would lie below the power of two, and at least its own step below it
    exfalso
    have hu := ulp_pos p y
    have hylow := ulp_le_abs (p := p) hy
    have hdist : |y| - |x| ≤ |y - x| := abs_sub_abs_le_abs_sub y x
    obtain ⟨j, rfl⟩ : ∃ j, p = j + 1 := ⟨p - 1, by omega⟩
    have hpow : (2 : ℚ) ^ (((j + 1 : ℕ) : ℤ) - 1) = 2 ^ j := by
      rw [← zpow_natCast]
      congr 1
      push_cast
      ring
    have hone : (1 : ℚ) ≤ 2 ^ j := one_le_pow₀ (by norm_num)
    rw [hpow] at hylow
    have hxlow : 2 ^ j * ulp (j + 1) y / 2 ≤ |x| := by nlinarith
    have hlogx : Int.log 2 |y| - 1 ≤ Int.log 2 |x| := by
      refine (Int.zpow_le_iff_le_log (by norm_num) (abs_pos.2 hx0)).1 (le_of_eq_of_le ?_ hxlow)
      rw [ulp, zpow_sub₀ (by norm_num), ← zpow_natCast, ← zpow_add₀ (by norm_num)]
      push_cast
      ring_nf
    have hstep : ulp (j + 1) x = ulp (j + 1) y / 2 := by
      have hlogx' : Int.log 2 |x| = Int.log 2 |y| - 1 := by omega
      rw [ulp, ulp, hlogx', sub_right_comm, zpow_sub₀ (by norm_num) _ 1, zpow_one]
    have habsx : |x| = |z| * ulp (j + 1) x := by
      calc |x|
        _ = |z * ulp (j + 1) x| := by rw [← hz]
        _ = |z| * ulp (j + 1) x := by rw [abs_mul, abs_of_pos (ulp_pos _ _)]; push_cast; rfl
    have hzlt : |z| + 1 ≤ 2 ^ (j + 1) := by
      have hlt := abs_lt_ulp (p := j + 1) x
      rw [habsx] at hlt
      have hlt' := lt_of_mul_lt_mul_right hlt (ulp_pos _ _).le
      exact_mod_cast hlt'
    have hzle : ((|z| : ℤ) : ℚ) ≤ 2 * 2 ^ j - 1 := by
      have hcast : ((|z| + 1 : ℤ) : ℚ) ≤ ((2 ^ (j + 1) : ℤ) : ℚ) := by exact_mod_cast hzlt
      push_cast at hcast ⊢
      rw [pow_succ] at hcast
      linarith
    rw [habsx, hstep] at hdist
    nlinarith

/-- What a significand holds, a longer one holds. -/
theorem roundBits_of_le {p p' : ℕ} (hp : p ≤ p') {q : ℚ} (h : roundBits p q = q) :
    roundBits p' q = q := by
  rcases eq_or_ne q 0 with rfl | hq
  · simp [roundBits]
  obtain ⟨z, hz⟩ := exists_ulp_of_roundBits h
  obtain ⟨k, rfl⟩ := Nat.exists_eq_add_of_le hp
  have hulp : ulp p q = 2 ^ k * ulp (p + k) q := by
    rw [ulp, ulp, ← zpow_natCast, ← zpow_add₀ (by norm_num)]
    congr 1
    push_cast
    ring
  have hsteps : q = (z * 2 ^ k : ℤ) * ulp (p + k) q := by
    rw [hulp] at hz
    push_cast
    rw [mul_assoc]
    exact hz
  have hnear : |q - (z * 2 ^ k : ℤ) * ulp (p + k) q| < ulp (p + k) q / 2 := by
    rw [← hsteps, sub_self, abs_zero]
    exact half_pos (ulp_pos _ _)
  rw [roundBits_eq_of_near hq hnear, ← hsteps]

/-! ## Values -/

/-- A value of a floating-point type: a number that its significand holds, an infinity, or a NaN.
-/
inductive Fp (p : ℕ)
  | fin (q : ℚ) (h : roundBits p q = q)
  | inf (neg : Bool)
  | nan (neg : Bool)
  deriving DecidableEq

namespace Fp

variable {p : ℕ}

/-- The nearest value to a number. -/
def ofRat (hp : 0 < p) (q : ℚ) : Fp p := .fin (roundBits p q) (roundBits_idem hp q)

/-- A conversion between the types. -/
def cast {p' : ℕ} (hp' : 0 < p') : Fp p → Fp p'
  | .fin q _ => ofRat hp' q
  | .inf neg => .inf neg
  | .nan neg => .nan neg

/-- Values that differ by at most `ε`; infinities and NaNs differ from all others. -/
def Within (ε : ℚ) : Fp p → Fp p → Prop
  | .fin q _, .fin r _ => |q - r| ≤ ε
  | .inf n, .inf m => n = m
  | .nan n, .nan m => n = m
  | _, _ => False

end Fp

/-! ## Reading back a decimal -/

theorem abs_roundBits_sub_le_mul (p : ℕ) (q : ℚ) :
    |roundBits p q - q| ≤ 2 ^ (-(p : ℤ)) * |q| := by
  rcases eq_or_ne q 0 with rfl | hq
  · simp [roundBits]
  · refine (abs_roundBits_sub_le hq).trans ?_
    calc ulp p q / 2
      _ = 2 ^ (-(p : ℤ)) * (2 ^ ((p : ℤ) - 1) * ulp p q) := by
        rw [← mul_assoc, ← zpow_add₀ (by norm_num)]
        have hexp : -(p : ℤ) + ((p : ℤ) - 1) = -1 := by ring
        rw [hexp, zpow_neg_one]
        ring
      _ ≤ 2 ^ (-(p : ℤ)) * |q| := mul_le_mul_of_nonneg_left (ulp_le_abs hq) (by positivity)

/-- A rounding changes a number by half of it at most. -/
theorem abs_roundBits_sub_le_half {p : ℕ} (hp : 0 < p) (q : ℚ) : |roundBits p q - q| ≤ |q| / 2 := by
  have hpow : (2 : ℚ) ^ (-(p : ℤ)) ≤ 2 ^ (-1 : ℤ) := zpow_le_zpow_right₀ (by norm_num) (by omega)
  calc |roundBits p q - q|
    _ ≤ 2 ^ (-(p : ℤ)) * |q| := abs_roundBits_sub_le_mul p q
    _ ≤ 2 ^ (-1 : ℤ) * |q| := mul_le_mul_of_nonneg_right hpow (abs_nonneg q)
    _ = |q| / 2 := by rw [zpow_neg_one]; ring

theorem half_le_abs_roundBits {p : ℕ} (hp : 0 < p) (q : ℚ) : |q| / 2 ≤ |roundBits p q| := by
  have h := abs_roundBits_sub_le_half hp q
  have htri := abs_sub_abs_le_abs_sub q (roundBits p q)
  rw [abs_sub_comm] at htri
  linarith

theorem abs_roundBits_le {p : ℕ} (hp : 0 < p) (q : ℚ) : |roundBits p q| ≤ 3 / 2 * |q| := by
  have h := abs_roundBits_sub_le_half hp q
  have htri := abs_sub_abs_le_abs_sub (roundBits p q) q
  linarith

/-- What is read through a `double` is as near to a `float` as it was printed, but for the last
bits of the `double`. -/
theorem abs_double_sub_le {x d ε : ℚ} (hd : |d - x| ≤ ε) :
    |roundBits 53 d - x| ≤ ε + 2 ^ (-52 : ℤ) * |roundBits 53 d| := by
  have hrel := abs_roundBits_sub_le_mul 53 d
  have hbig : |d| ≤ |roundBits 53 d| + |roundBits 53 d - d| := by
    have htri := abs_sub (roundBits 53 d) (roundBits 53 d - d)
    rwa [sub_sub_cancel] at htri
  have h53 : (2 : ℚ) ^ (-52 : ℤ) = 2 * 2 ^ (-((53 : ℕ) : ℤ)) := by norm_num
  have hsmall : (2 : ℚ) ^ (-((53 : ℕ) : ℤ)) ≤ 1 / 2 := by norm_num
  have hnn := abs_nonneg (roundBits 53 d)
  have hdouble : |d| ≤ 2 * |roundBits 53 d| := by
    have hhalf := hrel.trans (mul_le_mul_of_nonneg_right hsmall (abs_nonneg d))
    linarith
  calc |roundBits 53 d - x|
    _ = |(roundBits 53 d - d) + (d - x)| := by ring_nf
    _ ≤ |roundBits 53 d - d| + |d - x| := abs_add_le _ _
    _ ≤ 2 ^ (-((53 : ℕ) : ℤ)) * |d| + ε := add_le_add hrel hd
    _ ≤ 2 ^ (-((53 : ℕ) : ℤ)) * (2 * |roundBits 53 d|) + ε := by gcongr
    _ = ε + 2 ^ (-52 : ℤ) * |roundBits 53 d| := by rw [h53]; ring

/-- A `float` printed to within `ε` and read back through a `double` is at most `2 ε` away: below a
power of two by the error of the rounding, from there on since the steps of a `float` are wider than
`2 ε` and it comes back itself. -/
theorem abs_float_sub_le_of {x d ε : ℚ} {m : ℤ} (hx : roundBits 24 x = x) (hd : |d - x| ≤ ε)
    (hlow : 2 ^ (m - 25) + 2 ^ (m - 52) ≤ ε) (hhigh : ε < 2 ^ (m - 24) * (1 - 2 ^ (-27 : ℤ))) :
    |roundBits 24 (roundBits 53 d) - x| ≤ 2 * ε := by
  have hε : 0 ≤ ε := (abs_nonneg _).trans hd
  have hnear := abs_double_sub_le hd
  generalize hy : roundBits 53 d = y at *
  rcases eq_or_ne y 0 with rfl | hy0
  · have h0 : roundBits 24 (0 : ℚ) = 0 := by simp [roundBits]
    rw [h0]
    rw [abs_zero, mul_zero, add_zero] at hnear
    linarith
  have hypos := abs_pos.2 hy0
  have hulp : (0 : ℚ) < ulp 24 y := ulp_pos 24 y
  have hlt := abs_lt_ulp (p := 24) y
  rcases lt_or_ge |y| (2 ^ m) with hm | hm
  · have hlog : Int.log 2 |y| < m :=
      (Int.lt_zpow_iff_log_lt (by norm_num) hypos).1 (by exact_mod_cast hm)
    have hstep : ulp 24 y ≤ 2 ^ (m - 24) :=
      zpow_le_zpow_right₀ (by norm_num) (by push_cast; omega)
    have hhalf : (2 : ℚ) ^ (m - 24) / 2 = 2 ^ (m - 25) := by
      rw [show m - 25 = m - 24 - 1 by ring, zpow_sub_one₀ (by norm_num)]
      ring
    have hlast : (2 : ℚ) ^ (-52 : ℤ) * 2 ^ m = 2 ^ (m - 52) := by
      rw [← zpow_add₀ (by norm_num)]
      ring_nf
    have hround := abs_roundBits_sub_le (p := 24) hy0
    calc |roundBits 24 y - x|
      _ = |(roundBits 24 y - y) + (y - x)| := by ring_nf
      _ ≤ |roundBits 24 y - y| + |y - x| := abs_add_le _ _
      _ ≤ 2 ^ (m - 24) / 2 + (ε + 2 ^ (-52 : ℤ) * 2 ^ m) := by
        refine add_le_add (hround.trans (by gcongr)) (hnear.trans ?_)
        gcongr
      _ = (2 ^ (m - 25) + 2 ^ (m - 52)) + ε := by rw [hhalf, hlast]; ring
      _ ≤ 2 * ε := by linarith
  · have hlog : m ≤ Int.log 2 |y| :=
      (Int.zpow_le_iff_le_log (by norm_num) hypos).1 (by exact_mod_cast hm)
    have hstep : (2 : ℚ) ^ (m - 23) ≤ ulp 24 y :=
      zpow_le_zpow_right₀ (by norm_num) (by push_cast; omega)
    have hhalf : (2 : ℚ) ^ (m - 24) = 2 ^ (m - 23) / 2 := by
      rw [show m - 24 = m - 23 - 1 by ring, zpow_sub_one₀ (by norm_num)]
      ring
    have hclose : |y - x| < ulp 24 y / 2 := by
      calc |y - x|
        _ ≤ ε + 2 ^ (-52 : ℤ) * |y| := hnear
        _ ≤ ε + 2 ^ (-52 : ℤ) * (2 ^ 24 * ulp 24 y) := by gcongr
        _ < ulp 24 y / 2 := by
          rw [hhalf] at hhigh
          norm_num at hhigh ⊢
          linarith
    rw [roundBits_eq_of_abs_lt (by norm_num) hx hy0 hclose, sub_self, abs_zero]
    linarith

/-- A `float` printed with six decimals and read back through a `double` is at most `10^-6` away. -/
theorem abs_float_sub_le {x d : ℚ} (hx : roundBits 24 x = x) (hd : |d - x| ≤ 1 / 2000000) :
    |roundBits 24 (roundBits 53 d) - x| ≤ 1 / 1000000 := by
  have h := abs_float_sub_le_of (m := 4) hx hd (by norm_num) (by norm_num)
  norm_num at h ⊢
  exact h

/-! ## Text -/

/-- The letters of `inf`, `infinity`, and `nan`. -/
def infText : List UInt8 := [105, 110, 102]
@[inherit_doc infText] def infinityText : List UInt8 := [105, 110, 102, 105, 110, 105, 116, 121]
@[inherit_doc infText] def nanText : List UInt8 := [110, 97, 110]

/-- `%.nf` of a value. -/
def Fp.fmt {p : ℕ} (n : ℕ) : Fp p → List UInt8
  | .fin q _ => fmtFixed n q
  | .inf neg => signText neg ++ infText
  | .nan neg => signText neg ++ nanText

/-- A number rounded to `n` decimals, as `%.nf` prints it. -/
def roundFixed (n : ℕ) (q : ℚ) : ℚ :=
  (if q < 0 then -1 else 1) * (roundHalfEven (|q| * 10 ^ n) / 10 ^ n)

/-- A letter in lower case. -/
def lowerLetter (c : UInt8) : UInt8 := if 65 ≤ c ∧ c ≤ 90 then c + 32 else c

/-- What follows a word, whatever the case of its letters. -/
def dropWord (w t : List UInt8) : Option (List UInt8) :=
  if (t.take w.length).map lowerLetter = w then some (t.drop w.length) else none

/-- An exponent and what follows it; `0` if there is none. -/
def takeExp : List UInt8 → ℤ × List UInt8
  | [] => (0, [])
  | c :: t =>
    if c = expByte ∨ c = 69 then
      let (neg, ds) := readSign t
      if ds.takeWhile isDigit = [] then (0, c :: t)
      else
        ((if neg then -1 else 1) * (valueOf (ds.takeWhile isDigit) : ℤ), ds.dropWhile isDigit)
    else (0, c :: t)

/-- A number without a sign and what follows it. -/
def takeNumber (t : List UInt8) : Option (ℚ × List UInt8) :=
  let ip := t.takeWhile isDigit
  let (fp, u) := readFrac (t.dropWhile isDigit)
  if ip = [] ∧ fp = [] then none
  else some ((valueOf ip + fracVal fp) * 10 ^ (takeExp u).1, (takeExp u).2)

/-- Whether `isspace` holds of a byte in the C locale. -/
def isSpace (c : UInt8) : Bool := c = 32 || (9 ≤ c && c ≤ 13)

/-- `strtod`: the value at the start of a text and what follows it; zero and the text itself if
there is none. The hexadecimal form is left out. -/
def strtod (t : List UInt8) : Fp 53 × List UInt8 :=
  let (neg, u) := readSign (t.dropWhile isSpace)
  match (dropWord infinityText u).orElse fun _ => dropWord infText u with
  | some r => (.inf neg, r)
  | none =>
    match dropWord nanText u with
    | some r => (.nan neg, r)
    | none =>
      match takeNumber u with
      | some (q, r) => (Fp.ofRat double_pos ((if neg then -1 else 1) * q), r)
      | none => (Fp.ofRat double_pos 0, t)

/-- The same for a type of `p` bits: `strtof` for 24. -/
def strtofp {p : ℕ} (hp : 0 < p) (t : List UInt8) : Fp p × List UInt8 :=
  let (neg, u) := readSign (t.dropWhile isSpace)
  match (dropWord infinityText u).orElse fun _ => dropWord infText u with
  | some r => (.inf neg, r)
  | none =>
    match dropWord nanText u with
    | some r => (.nan neg, r)
    | none =>
      match takeNumber u with
      | some (q, r) => (Fp.ofRat hp ((if neg then -1 else 1) * q), r)
      | none => (Fp.ofRat hp 0, t)

theorem strtod_eq_strtofp (t : List UInt8) : strtod t = strtofp (by norm_num) t := rfl

/-- `strtoll` to the base ten: the value at the start of a text and what follows it; zero and the text
itself if there is none. A value that is out of range becomes the nearest one that is not.
-/
def strtoll (t : List UInt8) : ℤ × List UInt8 :=
  let (neg, u) := readSign (t.dropWhile isSpace)
  if u.takeWhile isDigit = [] then (0, t)
  else
    (max (-2 ^ 63) (min (2 ^ 63 - 1) ((if neg then -1 else 1) * (valueOf (u.takeWhile isDigit) : ℤ))),
      u.dropWhile isDigit)

/-! ### Where the conversions leave off -/

theorem readSign_suffix (t : List UInt8) : (readSign t).2 <:+ t := by
  cases t with
  | nil => exact List.suffix_rfl
  | cons c t =>
    unfold readSign
    dsimp only
    split_ifs
    exacts [List.suffix_cons c t, List.suffix_cons c t, List.suffix_rfl]

theorem readFrac_suffix (t : List UInt8) : (readFrac t).2 <:+ t := by
  cases t with
  | nil => exact List.suffix_rfl
  | cons c t =>
    unfold readFrac
    dsimp only
    split_ifs
    exacts [(List.dropWhile_suffix _).trans (List.suffix_cons c t), List.suffix_rfl]

theorem takeExp_suffix (t : List UInt8) : (takeExp t).2 <:+ t := by
  cases t with
  | nil => exact List.suffix_rfl
  | cons c t =>
    have hexp : (readSign t).2.dropWhile isDigit <:+ c :: t :=
      ((List.dropWhile_suffix _).trans (readSign_suffix t)).trans (List.suffix_cons c t)
    unfold takeExp
    dsimp only
    split_ifs
    exacts [List.suffix_rfl, hexp, hexp, List.suffix_rfl]

theorem suffix_of_dropWord {w t r : List UInt8} (h : dropWord w t = some r) : r <:+ t := by
  unfold dropWord at h
  split_ifs at h
  obtain rfl := Option.some.inj h
  exact List.drop_suffix _ _

theorem suffix_of_takeNumber {t r : List UInt8} {q : ℚ} (h : takeNumber t = some (q, r)) : r <:+ t := by
  unfold takeNumber at h
  dsimp only at h
  split_ifs at h
  obtain ⟨-, rfl⟩ := Prod.mk.inj (Option.some.inj h)
  exact ((takeExp_suffix _).trans (readFrac_suffix _)).trans (List.dropWhile_suffix _)

/-- `strtod` leaves off somewhere in the text. -/
theorem strtod_suffix (t : List UInt8) : (strtod t).2 <:+ t := by
  have hsign : (readSign (t.dropWhile isSpace)).2 <:+ t :=
    (readSign_suffix _).trans (List.dropWhile_suffix _)
  unfold strtod
  dsimp only
  split
  · next r hr =>
    rcases (Option.orElse_eq_some _ _ _).1 hr with hinf | ⟨-, hinf⟩
    exacts [(suffix_of_dropWord hinf).trans hsign, (suffix_of_dropWord hinf).trans hsign]
  · split
    · next r hr => exact (suffix_of_dropWord hr).trans hsign
    · split
      · next q r hr => exact (suffix_of_takeNumber hr).trans hsign
      · exact List.suffix_rfl

/-- `strtoll` leaves off somewhere in the text. -/
theorem strtoll_suffix (t : List UInt8) : (strtoll t).2 <:+ t := by
  have hdigits : (readSign (t.dropWhile isSpace)).2.dropWhile isDigit <:+ t :=
    ((List.dropWhile_suffix _).trans (readSign_suffix _)).trans (List.dropWhile_suffix _)
  unfold strtoll
  dsimp only
  split_ifs
  exacts [List.suffix_rfl, hdigits, hdigits]

/-- A text that does not continue a number, nor `inf`. -/
def EndsNumber (t : List UInt8) : Prop :=
  ∀ c ∈ t.head?, isDigit c = false ∧ c ≠ dotByte ∧ c ≠ expByte ∧ c ≠ 69 ∧ lowerLetter c ≠ 105

theorem endsNumber_nil : EndsNumber [] := fun c hc => by simp at hc

theorem takeExp_of_endsNumber {t : List UInt8} (ht : EndsNumber t) : takeExp t = (0, t) := by
  cases t with
  | nil => rfl
  | cons c t =>
    obtain ⟨-, -, h1, h2, -⟩ := ht c (by simp)
    simp [takeExp, h1, h2]

/-- Digits, perhaps with a point and more digits, are taken as the number they denote. -/
theorem takeNumber_digits {ip fp t : List UInt8} (hi : ∀ c ∈ ip, isDigit c = true) (hne : ip ≠ [])
    (hf : ∀ c ∈ fp, isDigit c = true) (ht : EndsNumber t) :
    takeNumber (ip ++ (if fp = [] then [] else dotByte :: fp) ++ t) =
      some (valueOf ip + fracVal fp, t) := by
  have hends : EndsDigits t := fun c hc => (ht c hc).1
  have hdot : ∀ c ∈ t.head?, c ≠ dotByte := fun c hc => (ht c hc).2.1
  have hfrac : EndsDigits ((if fp = [] then [] else dotByte :: fp) ++ t) ∧
      readFrac ((if fp = [] then [] else dotByte :: fp) ++ t) = (fp, t) := by
    split_ifs with h
    · rw [h, List.nil_append]
      refine ⟨hends, ?_⟩
      cases t with
      | nil => rfl
      | cons c t => simp [readFrac, hdot c (by simp)]
    · obtain ⟨h1, h2⟩ := span_digits hf hends
      refine ⟨fun c hc => ?_, by simp [readFrac, h1, h2]⟩
      obtain rfl : dotByte = c := by simpa using hc
      decide
  obtain ⟨h1, h2⟩ := span_digits hi hfrac.1
  rw [List.append_assoc]
  simp only [takeNumber]
  simp only [h1, h2, hfrac.2, hne, false_and, if_false, takeExp_of_endsNumber ht, zpow_zero,
    mul_one]

theorem exists_digitByte {c : UInt8} (h : isDigit c = true) : ∃ d < 10, c = digitByte d := by
  rw [isDigit, Bool.and_eq_true, decide_eq_true_eq, decide_eq_true_eq, UInt8.le_iff_toNat_le,
    UInt8.le_iff_toNat_le] at h
  obtain ⟨h1, h2⟩ := h
  refine ⟨c.toNat - 48, ?_, ?_⟩
  · simp at h1 h2
    omega
  · have hsum : 48 + (c.toNat - 48) = c.toNat := by
      simp at h1
      omega
    rw [digitByte, hsum, UInt8.ofNat_toNat]

theorem dropWord_of_isDigit {c : UInt8} (h : isDigit c = true) (t : List UInt8) :
    dropWord infinityText (c :: t) = none ∧ dropWord infText (c :: t) = none ∧
      dropWord nanText (c :: t) = none := by
  have hlow : lowerLetter c ≠ 105 ∧ lowerLetter c ≠ 110 := by
    obtain ⟨d, hd, rfl⟩ := exists_digitByte h
    revert d
    decide
  simp [dropWord, infinityText, infText, nanText, hlow.1, hlow.2]

theorem dropWhile_isSpace_signText (neg : Bool) {c : UInt8} (h : isSpace c = false)
    (t : List UInt8) :
    (signText neg ++ c :: t).dropWhile isSpace = signText neg ++ c :: t := by
  cases neg with
  | true => simp [signText, isSpace, minusByte]
  | false => simp [signText, h]

theorem isSpace_of_isDigit {c : UInt8} (h : isDigit c = true) : isSpace c = false := by
  obtain ⟨d, hd, rfl⟩ := exists_digitByte h
  revert d
  decide

/-- A sign and what is taken as a number from its first digit on are read. -/
theorem strtofp_of_takeNumber {p : ℕ} (hp : 0 < p) (neg : Bool) {ip w r : List UInt8} {v : ℚ}
    (hi : ∀ c ∈ ip, isDigit c = true) (hne : ip ≠ []) (h : takeNumber (ip ++ w) = some (v, r)) :
    strtofp hp (signText neg ++ (ip ++ w)) = (Fp.ofRat hp ((if neg then -1 else 1) * v), r) := by
  obtain ⟨c, cs, rfl⟩ := List.exists_cons_of_ne_nil hne
  have hc := hi c (by simp)
  have hsign := readSign_signText neg (t := w) hi hne
  rw [List.cons_append] at h hsign ⊢
  obtain ⟨w1, w2, w3⟩ := dropWord_of_isDigit hc (cs ++ w)
  simp only [strtofp, dropWhile_isSpace_signText neg (isSpace_of_isDigit hc), hsign, w1, w2, w3, h,
    Option.orElse_none]

/-- A sign and digits, perhaps with a point and more digits, are read as the number they denote. -/
theorem strtofp_digits {p : ℕ} (hp : 0 < p) (neg : Bool) {ip fp t : List UInt8}
    (hi : ∀ c ∈ ip, isDigit c = true) (hne : ip ≠ []) (hf : ∀ c ∈ fp, isDigit c = true)
    (ht : EndsNumber t) :
    strtofp hp (signText neg ++ (ip ++ (if fp = [] then [] else dotByte :: fp) ++ t)) =
      (Fp.ofRat hp ((if neg then -1 else 1) * (valueOf ip + fracVal fp)), t) := by
  have hnum := takeNumber_digits hi hne hf ht
  rw [List.append_assoc] at hnum ⊢
  exact strtofp_of_takeNumber hp neg hi hne hnum

theorem strtod_digits (neg : Bool) {ip fp t : List UInt8} (hi : ∀ c ∈ ip, isDigit c = true)
    (hne : ip ≠ []) (hf : ∀ c ∈ fp, isDigit c = true) (ht : EndsNumber t) :
    strtod (signText neg ++ (ip ++ (if fp = [] then [] else dotByte :: fp) ++ t)) =
      (Fp.ofRat (by norm_num) ((if neg then -1 else 1) * (valueOf ip + fracVal fp)), t) :=
  strtofp_digits (by norm_num) neg hi hne hf ht

/-- The same where the point stands there in any case. -/
theorem strtofp_point {p : ℕ} (hp : 0 < p) (neg : Bool) {ip fp t : List UInt8}
    (hi : ∀ c ∈ ip, isDigit c = true) (hne : ip ≠ []) (hf : ∀ c ∈ fp, isDigit c = true)
    (ht : EndsNumber t) :
    strtofp hp (signText neg ++ (ip ++ dotByte :: (fp ++ t))) =
      (Fp.ofRat hp ((if neg then -1 else 1) * (valueOf ip + fracVal fp)), t) := by
  refine strtofp_of_takeNumber hp neg hi hne ?_
  have hends : EndsDigits (dotByte :: (fp ++ t)) := by
    intro c hc
    obtain rfl : dotByte = c := by simpa using hc
    decide
  obtain ⟨h1, h2⟩ := span_digits hi hends
  obtain ⟨h3, h4⟩ := span_digits hf fun c hc => (ht c hc).1
  simp only [takeNumber, readFrac, h1, h2, h3, h4, hne, false_and, if_true, if_false,
    takeExp_of_endsNumber ht, zpow_zero, mul_one]

theorem strtod_intText (z : ℤ) {t : List UInt8} (ht : EndsNumber t) :
    strtod (intText z ++ t) = (Fp.ofRat (by norm_num) z, t) := by
  have hnil : ∀ c ∈ ([] : List UInt8), isDigit c = true := by simp
  have h := strtod_digits (decide (z < 0)) (fun c hc => isDigit_of_mem_natText hc)
    (natText_ne_nil z.natAbs) hnil ht
  rw [if_pos rfl, List.append_nil, ← List.append_assoc, ← intText, valueOf_natText] at h
  rw [h]
  congr 2
  have habs : (z.natAbs : ℚ) = |(z : ℚ)| := by rw [Nat.cast_natAbs, Int.cast_abs]
  have hsign : (decide (z < 0) = true) ↔ (z : ℚ) < 0 := by simp
  simp only [hsign, fracVal, valueOf, List.foldl_nil, Nat.cast_zero, zero_div, add_zero, habs,
    sign_mul_abs]

theorem strtod_natText (n : ℕ) {t : List UInt8} (ht : EndsNumber t) :
    strtod (natText n ++ t) = (Fp.ofRat (by norm_num) n, t) := by
  have hneg : ¬ ((n : ℤ) < 0) := by omega
  have h := strtod_intText n ht
  rwa [intText, decide_eq_false hneg, Int.natAbs_natCast] at h

/-- The sign of a number is printed before its magnitude. -/
theorem fmtFixed_eq_abs (n : ℕ) (q : ℚ) : fmtFixed n q = signText (q < 0) ++ fmtFixed n |q| := by
  have hneg : ¬ |q| < 0 := not_lt.2 (abs_nonneg q)
  simp only [fmtFixed, abs_abs, hneg, decide_false, signText, Bool.false_eq_true, if_false,
    List.nil_append, List.append_assoc]

/-- A sign and `%.nf` of a magnitude are read back as the number rounded to `n` decimals. -/
theorem strtofp_fmtFixed {p n : ℕ} (hp : 0 < p) (hn : 0 < n) (neg : Bool) {a : ℚ} (ha : 0 ≤ a)
    {t : List UInt8} (ht : EndsNumber t) :
    strtofp hp (signText neg ++ (fmtFixed n a ++ t)) =
      (Fp.ofRat hp ((if neg then -1 else 1) * (roundHalfEven (a * 10 ^ n) / 10 ^ n)), t) := by
  have h0 : (0 : ℤ) ≤ roundHalfEven (a * 10 ^ n) := le_roundHalfEven (by push_cast; positivity)
  obtain ⟨m, hm⟩ := Int.eq_ofNat_of_zero_le h0
  have hpad : padDigits n m ≠ [] := by
    rw [← List.length_pos_iff, padDigits_length]
    exact hn
  have h := strtofp_digits hp neg (fun c hc => isDigit_of_mem_natText hc)
    (natText_ne_nil (m / 10 ^ n)) (fun c hc => isDigit_of_mem_padDigits (k := n) (n := m) hc) ht
  rw [if_neg hpad, split_digits] at h
  have htext : fmtFixed n a = natText (m / 10 ^ n) ++ dotByte :: padDigits n m := by
    simp only [fmtFixed, abs_of_nonneg ha, hm, not_lt.2 ha, decide_false, signText,
      Bool.false_eq_true, if_false, hn.ne', List.nil_append, Int.toNat_natCast]
  rw [htext, hm, h]
  rfl

/-- A part of what is printed of a number is read as a whole, if anything is read of it. -/
theorem strtofp_take_fmtFixed {p n : ℕ} (hp : 0 < p) (hn : 0 < n) (neg : Bool) {a : ℚ} (ha : 0 ≤ a)
    (k : ℕ) :
    let kept := (signText neg ++ fmtFixed n a).take k
    (strtofp hp kept).2 = kept ∨ (strtofp hp kept).2 = [] := by
  have hends : EndsNumber [] := fun c hc => by simp at hc
  obtain ⟨m, htext⟩ : ∃ m, fmtFixed n a = natText (m / 10 ^ n) ++ dotByte :: padDigits n m := by
    refine ⟨(roundHalfEven (a * 10 ^ n)).toNat, ?_⟩
    simp only [fmtFixed, abs_of_nonneg ha, not_lt.2 ha, decide_false, signText, Bool.false_eq_true,
      if_false, hn.ne', List.nil_append]
  have hip : ∀ c ∈ natText (m / 10 ^ n), isDigit c = true := fun c hc => isDigit_of_mem_natText hc
  have hne := natText_ne_nil (m / 10 ^ n)
  rw [htext]
  generalize natText (m / 10 ^ n) = ip at hip hne
  dsimp only
  rcases Nat.lt_or_ge (signText neg).length k with hsign | hsign
  · rw [List.take_append, List.take_of_length_le hsign.le]
    obtain ⟨j, hj⟩ := Nat.exists_eq_add_of_lt hsign
    have hsub : k - (signText neg).length = j + 1 := by omega
    rw [hsub]
    right
    rcases Nat.lt_or_ge ip.length (j + 1) with hlt | hge
    · -- the point is kept
      obtain ⟨i, hi⟩ := Nat.exists_eq_add_of_lt hlt
      have hrest : j + 1 - ip.length = i + 1 := by omega
      have hfp : ∀ c ∈ (padDigits n m).take i, isDigit c = true := fun c hc =>
        isDigit_of_mem_padDigits (List.mem_of_mem_take hc)
      have hread := strtofp_point hp neg hip hne hfp hends
      rw [List.append_nil] at hread
      rw [List.take_append, List.take_of_length_le hlt.le, hrest, List.take_succ_cons, hread]
    · have hnil : ∀ c ∈ ([] : List UInt8), isDigit c = true := by simp
      have hread := strtofp_digits hp neg (fun c hc => hip c (List.mem_of_mem_take hc))
        (show ip.take (j + 1) ≠ [] by simp [hne]) hnil hends
      rw [if_pos rfl, List.append_nil, List.append_nil] at hread
      rw [List.take_append_of_le_length hge, hread]
  · -- no digit is kept
    rw [List.take_append_of_le_length hsign]
    cases neg with
    | false => exact Or.inl (by rw [signText, if_neg Bool.false_ne_true, List.take_nil]; rfl)
    | true =>
      have hle : k ≤ 1 := hsign
      obtain rfl | rfl : k = 0 ∨ k = 1 := by omega
      · exact Or.inl rfl
      · exact Or.inl rfl

/-- `%.nf` of a number is read back as the number rounded to `n` decimals. -/
theorem strtod_fmtFixed {n : ℕ} (hn : 0 < n) (q : ℚ) {t : List UInt8} (ht : EndsNumber t) :
    strtod (fmtFixed n q ++ t) = (Fp.ofRat (by norm_num) (roundFixed n q), t) := by
  have h := strtofp_fmtFixed (p := 53) (by norm_num) hn (decide (q < 0)) (abs_nonneg q) ht
  rw [fmtFixed_eq_abs, List.append_assoc, strtod_eq_strtofp, h, roundFixed]
  simp only [decide_eq_true_eq]

/-- `%.nf` of a value is read back, a number rounded to `n` decimals. -/
def Fp.decimal {p : ℕ} (n : ℕ) : Fp p → Fp 53
  | .fin q _ => Fp.ofRat double_pos (roundFixed n q)
  | .inf neg => .inf neg
  | .nan neg => .nan neg

@[inherit_doc Fp.decimal]
theorem strtod_fmt {p n : ℕ} (hn : 0 < n) (x : Fp p) {t : List UInt8} (ht : EndsNumber t) :
    strtod (x.fmt n ++ t) = (x.decimal n, t) := by
  cases x with
  | fin q h => exact strtod_fmtFixed hn q ht
  | inf neg =>
    have hinf : dropWord infinityText (infText ++ t) = none := by
      cases t with
      | nil => rfl
      | cons c t => simp [dropWord, infinityText, infText, (ht c (by simp)).2.2.2.2]
    have hdrop : dropWord infText (infText ++ t) = some t := rfl
    have hspace := dropWhile_isSpace_signText neg (c := 105) (by decide) ([110, 102] ++ t)
    have hsign : readSign (signText neg ++ (infText ++ t)) = (neg, infText ++ t) := by
      cases neg <;> rfl
    have hin : (105 : UInt8) :: ([110, 102] ++ t) = infText ++ t := rfl
    rw [hin] at hspace
    simp only [Fp.fmt, Fp.decimal, strtod, List.append_assoc, hspace, hsign, hinf, hdrop,
      Option.orElse_none]
  | nan neg =>
    have hdrop : dropWord nanText (nanText ++ t) = some t := rfl
    have hinf : dropWord infText (nanText ++ t) = none := rfl
    have hinfinity : dropWord infinityText (nanText ++ t) = none := rfl
    have hspace := dropWhile_isSpace_signText neg (c := 110) (by decide) ([97, 110] ++ t)
    have hsign : readSign (signText neg ++ (nanText ++ t)) = (neg, nanText ++ t) := by
      cases neg <;> rfl
    have hin : (110 : UInt8) :: ([97, 110] ++ t) = nanText ++ t := rfl
    rw [hin] at hspace
    simp only [Fp.fmt, Fp.decimal, strtod, List.append_assoc, hspace, hsign, hinf, hinfinity,
      hdrop, Option.orElse_none]

/-- Rounding to `n` decimals goes half a unit of the last one at most. -/
theorem abs_roundFixed_sub_le (n : ℕ) (q : ℚ) : |roundFixed n q - q| ≤ 1 / (2 * 10 ^ n) := by
  have hpow : (0 : ℚ) < 10 ^ n := by positivity
  have hround := abs_roundHalfEven_sub_le (|q| * 10 ^ n)
  calc |roundFixed n q - q|
    _ = |(if q < 0 then -1 else 1) * (roundHalfEven (|q| * 10 ^ n) / 10 ^ n - |q|)| := by
      rw [mul_sub, sign_mul_abs, roundFixed]
    _ = |(roundHalfEven (|q| * 10 ^ n) - |q| * 10 ^ n) / 10 ^ n| := by
      rw [abs_sign_mul, sub_div, mul_div_cancel_right₀ _ hpow.ne']
    _ = |(roundHalfEven (|q| * 10 ^ n) : ℚ) - |q| * 10 ^ n| / 10 ^ n := by
      rw [abs_div, abs_of_pos hpow]
    _ ≤ 1 / 2 / 10 ^ n := by gcongr
    _ = 1 / (2 * 10 ^ n) := by rw [div_div]

theorem roundFixed_nonneg (n : ℕ) {q : ℚ} (hq : 0 ≤ q) : 0 ≤ roundFixed n q := by
  have h0 : (0 : ℤ) ≤ roundHalfEven (|q| * 10 ^ n) := le_roundHalfEven (by push_cast; positivity)
  have h0' : (0 : ℚ) ≤ roundHalfEven (|q| * 10 ^ n) := by exact_mod_cast h0
  rw [roundFixed, if_neg (not_lt.2 hq), one_mul]
  positivity

/-- A `float` printed with six decimals and read back is at most `10^-6` away. -/
theorem Fp.within_decimal (x : Fp 24) :
    Fp.Within (1 / 1000000) x ((x.decimal 6).cast (by norm_num) : Fp 24) := by
  cases x with
  | fin q h =>
    have hd := abs_roundFixed_sub_le 6 q
    norm_num at hd
    have hle := abs_float_sub_le h (d := roundFixed 6 q) (by norm_num; exact hd)
    rw [abs_sub_comm] at hle
    exact hle
  | inf neg => rfl
  | nan neg => rfl

end Lib

import Bewe.Lib.Compare
import Bewe.Lib.Single

/-!
# The bits of a `float`

A `float` by its 32 bits, with the sign of zero and the infinities and NaNs that a memory comparison
tells apart: what it stands for, what `%.nf` prints of it, and the conversion of a `double`. A number
that was printed comes back to within the last decimal (`near_reread_of`), and no text is longer than
`length_fmt_le` says.
-/

namespace Lib

/-- `float`, by its bits. -/
structure Binary32 where
  bits : UInt32
  deriving DecidableEq, Repr

namespace Binary32

/-- The sign bit. -/
def neg (x : Binary32) : Bool := x.bits.toNat / 2 ^ 31 % 2 = 1

/-- The number; none for an infinity or a NaN. -/
def value (x : Binary32) : Option ℚ := decode32 x.bits.toNat

/-- `%.nf`. -/
def fmt (n : ℕ) (x : Binary32) : List UInt8 :=
  signText x.neg ++
    match x.value with
    | some q => fmtFixed n |q|
    | none => if x.bits.toNat % 2 ^ 23 = 0 then infText else nanText

/-- The bits of a number that is not negative and has a significand of 24 bits: a denormal one below
`2^-126`, an infinity from `2^128` on. -/
def encodeAbs (a : ℚ) : ℕ :=
  let e := Int.log 2 a
  if e < -126 then (roundHalfEven (a * 2 ^ 149)).toNat
  else if 127 < e then 255 * 2 ^ 23
  else (e + 127).toNat * 2 ^ 23 + (⌊a / 2 ^ (e - 23)⌋.toNat - 2 ^ 23)

/-- The conversion of a `double`. Its zero has no sign. -/
def ofDouble : Fp 53 → Binary32
  | .fin q _ => ⟨UInt32.ofNat ((if q < 0 then 2 ^ 31 else 0) +
      if q = 0 then 0 else encodeAbs |roundBits 24 q|)⟩
  | .inf neg => ⟨UInt32.ofNat ((if neg then 2 ^ 31 else 0) + 255 * 2 ^ 23)⟩
  | .nan neg => ⟨UInt32.ofNat ((if neg then 2 ^ 31 else 0) + 255 * 2 ^ 23 + 2 ^ 22)⟩

/-- `<` of numbers. -/
def lt (x y : Binary32) : Bool :=
  match x.value, y.value with
  | some q, some r => q < r
  | _, _ => false

example : (ofDouble (.ofRat (by norm_num) (-50))).bits = 0xc2480000 := by decide +kernel

/-! ## Values -/

theorem roundBits_abs (p : ℕ) (q : ℚ) : roundBits p |q| = |roundBits p q| := by
  rcases eq_or_ne q 0 with rfl | hq
  · simp [roundBits]
  · have hulp : ulp p |q| = ulp p q := by rw [ulp, ulp, abs_abs]
    have hnonneg : (0 : ℚ) ≤ roundHalfEven (|q| / ulp p q) * ulp p q := by
      have hle : (0 : ℤ) ≤ roundHalfEven (|q| / ulp p q) := by
        refine le_roundHalfEven ?_
        push_cast
        exact div_nonneg (abs_nonneg q) (ulp_pos p q).le
      have hle' : (0 : ℚ) ≤ roundHalfEven (|q| / ulp p q) := by exact_mod_cast hle
      exact mul_nonneg hle' (ulp_pos p q).le
    rw [roundBits_eq (abs_pos.2 hq).ne', roundBits_eq hq, hulp, abs_abs, abs_sign_mul,
      if_neg (abs_nonneg q).not_gt, one_mul, abs_of_nonneg hnonneg]

theorem roundBits_neg_iff {p : ℕ} {q : ℚ} (h : roundBits p q ≠ 0) : roundBits p q < 0 ↔ q < 0 := by
  rcases eq_or_ne q 0 with rfl | hq
  · simp [roundBits]
  have hu := ulp_pos p q
  have hle : (0 : ℤ) ≤ roundHalfEven (|q| / ulp p q) := by
    refine le_roundHalfEven ?_
    push_cast
    exact div_nonneg (abs_nonneg q) hu.le
  have hle' : (0 : ℚ) ≤ roundHalfEven (|q| / ulp p q) * ulp p q :=
    mul_nonneg (by exact_mod_cast hle) hu.le
  rw [roundBits_eq hq] at h ⊢
  split_ifs at h ⊢ with hneg
  · simp only [hneg, iff_true]
    rw [neg_one_mul] at h ⊢
    exact neg_neg_of_pos (lt_of_le_of_ne hle' fun h0 => h (by rw [← h0, neg_zero]))
  · simp only [hneg, iff_false, not_lt, one_mul]
    exact hle'

theorem decode32_normal {s f m : ℕ} (hs : s < 2) (hf : 0 < f) (hf' : f < 255) (hm : m < 2 ^ 23) :
    decode32 (s * 2 ^ 31 + (f * 2 ^ 23 + m)) =
      some ((if s = 1 then -1 else 1) * ((2 ^ 23 + (m : ℚ)) * 2 ^ ((f : ℤ) - 150))) := by
  have he : (s * 2 ^ 31 + (f * 2 ^ 23 + m)) / 2 ^ 23 % 2 ^ 8 = f := by omega
  have hr : (s * 2 ^ 31 + (f * 2 ^ 23 + m)) % 2 ^ 23 = m := by omega
  have hn : (s * 2 ^ 31 + (f * 2 ^ 23 + m)) / 2 ^ 31 % 2 = s := by omega
  simp only [decode32, he, hr, hn, hf'.ne, hf.ne', if_false]

/-- A number with 24 bits in the range of the normal ones has its bits, which stand for it. -/
theorem exists_encodeAbs {a : ℚ} (ha : 0 < a) (h : roundBits 24 a = a) (hlow : -126 ≤ Int.log 2 a)
    (hhigh : Int.log 2 a ≤ 127) :
    ∃ f m : ℕ, 0 < f ∧ f < 255 ∧ m < 2 ^ 23 ∧ encodeAbs a = f * 2 ^ 23 + m ∧
      a = (2 ^ 23 + m) * 2 ^ ((f : ℤ) - 150) := by
  obtain ⟨z, hz⟩ := exists_ulp_of_roundBits h
  have hu := ulp_pos 24 a
  have hulp : ulp 24 a = 2 ^ (Int.log 2 a - 23) := by
    rw [ulp, abs_of_pos ha]
    norm_num
  have hlo := ulp_le_abs (p := 24) ha.ne'
  have hhi := abs_lt_ulp (p := 24) a
  rw [abs_of_pos ha] at hlo hhi
  -- the significand has 24 bits
  have hzlo : (2 ^ 23 : ℤ) ≤ z := by
    have hle : (2 : ℚ) ^ 23 * ulp 24 a ≤ z * ulp 24 a := by
      rw [← hz]
      norm_num at hlo ⊢
      exact hlo
    exact_mod_cast le_of_mul_le_mul_right hle hu
  have hzhi : z < 2 ^ 24 := by
    have hlt : (z : ℚ) * ulp 24 a < 2 ^ 24 * ulp 24 a := by
      rw [← hz]
      exact hhi
    exact_mod_cast lt_of_mul_lt_mul_right hlt hu.le
  obtain ⟨w, rfl⟩ := Int.eq_ofNat_of_zero_le (show 0 ≤ z by omega)
  obtain ⟨f, hf⟩ := Int.eq_ofNat_of_zero_le (show 0 ≤ Int.log 2 a + 127 by omega)
  have hfloor : ⌊a / 2 ^ (Int.log 2 a - 23)⌋ = w := by
    rw [← hulp]
    nth_rewrite 1 [hz]
    rw [mul_div_cancel_right₀ _ hu.ne', Int.floor_intCast]
  refine ⟨f, w - 2 ^ 23, by omega, by omega, by omega, ?_, ?_⟩
  · rw [encodeAbs, if_neg (by omega), if_neg (by omega), hfloor, hf]
    rfl
  · have hcast : ((w - 2 ^ 23 : ℕ) : ℚ) = w - 2 ^ 23 := by
      rw [Nat.cast_sub (by omega)]
      push_cast
      rfl
    have hexp : (f : ℤ) - 150 = Int.log 2 a - 23 := by omega
    rw [hcast, hexp, ← hulp, add_sub_cancel]
    exact hz

/-- A number in the range of the normal ones is converted to the nearest one. -/
theorem value_ofDouble {q : ℚ} {h : roundBits 53 q = q}
    (hlow : q ≠ 0 → 2 ^ (-126 : ℤ) ≤ |roundBits 24 q|) (hhigh : |roundBits 24 q| < 2 ^ 128) :
    (ofDouble (.fin q h)).value = some (roundBits 24 q) := by
  rcases eq_or_ne q 0 with rfl | hq
  · simp [ofDouble, value, decode32, roundBits]
  have hpos : 0 < |roundBits 24 q| := lt_of_lt_of_le (by positivity) (hlow hq)
  have hround : roundBits 24 |roundBits 24 q| = |roundBits 24 q| := by
    rw [roundBits_abs, roundBits_idem (by norm_num)]
  have hlog : Int.log 2 |roundBits 24 q| ≤ 127 := by
    refine Int.lt_add_one_iff.1 ((Int.lt_zpow_iff_log_lt (by norm_num) hpos).1 ?_)
    exact_mod_cast hhigh
  obtain ⟨f, m, hf, hf', hm, hbits, hval⟩ := exists_encodeAbs hpos hround
    ((Int.zpow_le_iff_le_log (by norm_num) hpos).1 (by exact_mod_cast hlow hq)) hlog
  have hsign : (if q < 0 then (2 ^ 31 : ℕ) else 0) = (if q < 0 then 1 else 0) * 2 ^ 31 := by
    split_ifs <;> rfl
  generalize hs : (if q < 0 then 1 else 0) = s at hsign
  have hs2 : s < 2 := by
    rw [← hs]
    split_ifs <;> norm_num
  have hnat : (UInt32.ofNat (s * 2 ^ 31 + (f * 2 ^ 23 + m))).toNat =
      s * 2 ^ 31 + (f * 2 ^ 23 + m) := by
    rw [UInt32.toNat_ofNat']
    omega
  rw [ofDouble, if_neg hq, hbits, hsign, value, hnat, decode32_normal hs2 hf hf' hm, ← hval]
  congr 1
  have hneg : s = 1 ↔ roundBits 24 q < 0 := by
    rw [← hs, roundBits_neg_iff (abs_pos.1 hpos)]
    split_ifs with h <;> simp [h]
  simp only [hneg, sign_mul_abs]

theorem roundBits_mul_pow {m : ℕ} (hm : m ≤ 2 ^ 24) (k : ℤ) :
    roundBits 24 ((m : ℚ) * 2 ^ k) = m * 2 ^ k := by
  have hint : roundBits 24 ((m : ℤ) : ℚ) = (m : ℤ) :=
    roundBits_intCast (by norm_num) (by rw [Nat.abs_cast]; exact_mod_cast hm)
  rw [roundBits_mul_zpow]
  exact_mod_cast congrArg (· * (2 : ℚ) ^ k) hint

/-- What the bits stand for: a sign, a significand of 24 bits, and an exponent up to 104. -/
theorem exists_of_value {x : Binary32} {q : ℚ} (h : x.value = some q) :
    ∃ (m : ℕ) (k : ℤ), m < 2 ^ 24 ∧ k ≤ 104 ∧
      q = (if x.neg then -1 else 1) * ((m : ℚ) * 2 ^ k) := by
  have hsign : (if x.bits.toNat / 2 ^ 31 % 2 = 1 then (-1 : ℚ) else 1) = if x.neg then -1 else 1 := by
    simp [neg]
  simp only [value, decode32, hsign] at h
  by_cases h255 : x.bits.toNat / 2 ^ 23 % 2 ^ 8 = 255
  · rw [if_pos h255] at h
    exact absurd h (by simp)
  rw [if_neg h255] at h
  by_cases h0 : x.bits.toNat / 2 ^ 23 % 2 ^ 8 = 0
  · rw [if_pos h0] at h
    exact ⟨x.bits.toNat % 2 ^ 23, -149, by omega, by norm_num, (Option.some.inj h).symm⟩
  · rw [if_neg h0] at h
    refine ⟨2 ^ 23 + x.bits.toNat % 2 ^ 23, (x.bits.toNat / 2 ^ 23 % 2 ^ 8 : ℕ) - 150, by omega,
      by omega, ?_⟩
    rw [Nat.cast_add, Nat.cast_pow]
    exact (Option.some.inj h).symm

theorem abs_sign_mul_of_nonneg (neg : Bool) {a : ℚ} (ha : 0 ≤ a) :
    |(if neg then -1 else 1) * a| = a := by
  cases neg <;> simp [abs_of_nonneg ha]

theorem roundBits_of_value {x : Binary32} {q : ℚ} (h : x.value = some q) : roundBits 24 q = q := by
  obtain ⟨m, k, hm, -, rfl⟩ := exists_of_value h
  cases x.neg with
  | true =>
    have hneg := roundBits_mul_pow hm.le k
    have hint : roundBits 24 ((-(m : ℤ) : ℤ) : ℚ) = (-(m : ℤ) : ℤ) :=
      roundBits_intCast (by norm_num) (by rw [abs_neg, Nat.abs_cast]; exact_mod_cast hm.le)
    have hmul : (if (true : Bool) then (-1 : ℚ) else 1) * (m * 2 ^ k) = ((-(m : ℤ) : ℤ) : ℚ) * 2 ^ k := by
      push_cast
      simp
    rw [hmul, roundBits_mul_zpow, hint]
  | false => simpa using roundBits_mul_pow hm.le k

theorem abs_lt_of_value {x : Binary32} {q : ℚ} (h : x.value = some q) : |q| < 2 ^ 128 := by
  obtain ⟨m, k, hm, hk, rfl⟩ := exists_of_value h
  rw [abs_sign_mul_of_nonneg _ (by positivity)]
  have hm' : (m : ℚ) < 2 ^ 24 := by exact_mod_cast hm
  calc (m : ℚ) * 2 ^ k
    _ ≤ m * 2 ^ (104 : ℤ) := by gcongr; norm_num
    _ < 2 ^ 24 * 2 ^ (104 : ℤ) := by gcongr
    _ = 2 ^ 128 := by norm_num

theorem sign_mul_abs_of_value {x : Binary32} {q : ℚ} (h : x.value = some q) :
    (if x.neg then -1 else 1) * |q| = q := by
  obtain ⟨m, k, -, -, rfl⟩ := exists_of_value h
  rw [abs_sign_mul_of_nonneg _ (by positivity)]

/-! ## Reading back -/

theorem roundFixed_sign (n : ℕ) (neg : Bool) {a : ℚ} (ha : 0 ≤ a) :
    roundFixed n ((if neg then -1 else 1) * a) = (if neg then -1 else 1) * roundFixed n a := by
  rw [roundFixed, roundFixed, abs_sign_mul_of_nonneg neg ha, abs_of_nonneg ha,
    if_neg ha.not_gt, one_mul]
  cases neg with
  | true =>
    rcases ha.lt_or_eq with hpos | rfl
    · simp [hpos]
    · have h0 : roundHalfEven 0 = 0 := by exact_mod_cast roundHalfEven_intCast 0
      simp [h0]
  | false => simp [ha.not_gt]

theorem strtod_fmt {n : ℕ} (hn : 0 < n) {x : Binary32} {q : ℚ} (h : x.value = some q)
    {t : List UInt8} (ht : EndsNumber t) :
    strtod (x.fmt n ++ t) = (Fp.ofRat (by norm_num) (roundFixed n q), t) := by
  have h0 : (0 : ℤ) ≤ roundHalfEven (|q| * 10 ^ n) := le_roundHalfEven (by push_cast; positivity)
  obtain ⟨m, hm⟩ := Int.eq_ofNat_of_zero_le h0
  have hpad : padDigits n m ≠ [] := by
    rw [← List.length_pos_iff, padDigits_length]
    exact hn
  have hread := strtod_digits x.neg (fun c hc => isDigit_of_mem_natText hc)
    (natText_ne_nil (m / 10 ^ n)) (fun c hc => isDigit_of_mem_padDigits (k := n) (n := m) hc) ht
  rw [if_neg hpad, split_digits] at hread
  have htext : x.fmt n = signText x.neg ++ (natText (m / 10 ^ n) ++ dotByte :: padDigits n m) := by
    simp only [fmt, h, fmtFixed, abs_abs, hm, if_neg hn.ne', (abs_nonneg q).not_gt, decide_false]
    rfl
  have hround : roundFixed n q = (if x.neg then -1 else 1) * (m / 10 ^ n : ℚ) := by
    rw [← sign_mul_abs_of_value h, roundFixed_sign n x.neg (abs_nonneg q), roundFixed, abs_abs,
      if_neg (abs_nonneg q).not_gt, one_mul, hm]
    rfl
  rw [htext, List.append_assoc, hread, hround]

/-- Numbers that differ by at most `ε`; an infinity or a NaN differs from all. -/
def Near (ε : ℚ) (x y : Binary32) : Prop :=
  ∃ q ∈ x.value, ∃ r ∈ y.value, |r - q| ≤ ε

/-- The `float` that is read where `%.nf` was printed. -/
def reread (n : ℕ) (x : Binary32) : Binary32 := ofDouble (strtod (x.fmt n)).1

/-- A decimal that is not zero stays away from the denormal numbers. -/
theorem le_abs_roundBits {n : ℕ} (hn : n ≤ 6) {q : ℚ} (h : roundFixed n q ≠ 0) :
    2 ^ (-126 : ℤ) ≤ |roundBits 24 (roundBits 53 (roundFixed n q))| := by
  have hpow : (10 : ℚ) ^ n ≤ 10 ^ 6 := pow_le_pow_right₀ (by norm_num) hn
  have hpos : (0 : ℚ) < 10 ^ n := by positivity
  have h0 : (0 : ℤ) ≤ roundHalfEven (|q| * 10 ^ n) := le_roundHalfEven (by push_cast; positivity)
  have hone : (1 : ℤ) ≤ roundHalfEven (|q| * 10 ^ n) := by
    refine lt_of_le_of_ne h0 fun hz => h ?_
    simp [roundFixed, ← hz]
  have hdec : 1 / 10 ^ n ≤ |roundFixed n q| := by
    have hone' : (1 : ℚ) ≤ roundHalfEven (|q| * 10 ^ n) := by exact_mod_cast hone
    have hq : (0 : ℚ) ≤ roundHalfEven (|q| * 10 ^ n) / 10 ^ n := by positivity
    rw [roundFixed, abs_sign_mul, abs_of_nonneg hq]
    gcongr
  have hdouble := half_le_abs_roundBits (p := 53) (by norm_num) (roundFixed n q)
  have hsingle := half_le_abs_roundBits (p := 24) (by norm_num) (roundBits 53 (roundFixed n q))
  calc (2 : ℚ) ^ (-126 : ℤ)
    _ ≤ 1 / 10 ^ 6 / 2 / 2 := by norm_num
    _ ≤ 1 / 10 ^ n / 2 / 2 := by gcongr
    _ ≤ |roundFixed n q| / 2 / 2 := by gcongr
    _ ≤ |roundBits 53 (roundFixed n q)| / 2 := by gcongr
    _ ≤ |roundBits 24 (roundBits 53 (roundFixed n q))| := hsingle

theorem abs_roundBits_lt {n : ℕ} {x : Binary32} {q : ℚ} (h : x.value = some q) :
    |roundBits 24 (roundBits 53 (roundFixed n q))| < 2 ^ 128 := by
  have hround := roundBits_of_value h
  rcases le_or_gt ((2 : ℚ) ^ 24) |q| with hbig | hsmall
  · -- an integer comes back as it is
    obtain ⟨z, rfl⟩ := Single.exists_int_of_le hround hbig
    rw [Single.roundFixed_intCast, roundBits_of_le (by norm_num) hround, hround]
    exact abs_lt_of_value h
  · have hdec : |roundFixed n q| ≤ |q| + 1 := by
      have hle := abs_roundFixed_sub_le n q
      have hpow : (1 : ℚ) ≤ 10 ^ n := one_le_pow₀ (by norm_num)
      have hone : 1 / (2 * 10 ^ n) ≤ (1 : ℚ) := by
        rw [div_le_one (by positivity)]
        linarith
      have htri := abs_sub_abs_le_abs_sub (roundFixed n q) q
      linarith
    have hdouble := abs_roundBits_le (p := 53) (by norm_num) (roundFixed n q)
    have hsingle := abs_roundBits_le (p := 24) (by norm_num) (roundBits 53 (roundFixed n q))
    norm_num at hsmall ⊢
    linarith

theorem value_reread {n : ℕ} (hn : 0 < n) (hn' : n ≤ 6) {x : Binary32} {q : ℚ}
    (h : x.value = some q) :
    (x.reread n).value = some (roundBits 24 (roundBits 53 (roundFixed n q))) := by
  have hread := strtod_fmt hn h (t := []) (by simp [EndsNumber])
  rw [List.append_nil] at hread
  rw [reread, hread]
  refine value_ofDouble (fun h0 => le_abs_roundBits hn' fun hz => h0 ?_) (abs_roundBits_lt h)
  rw [hz]
  simp [roundBits]

/-- A number that is printed with `n` decimals and read back, where half a unit of the last one lies
between half a step and a step below some power of two. -/
theorem near_reread_of {n : ℕ} (hn : 0 < n) (hn' : n ≤ 6) {m : ℤ}
    (hlow : 2 ^ (m - 25) + 2 ^ (m - 52) ≤ (1 / (2 * 10 ^ n) : ℚ))
    (hhigh : (1 / (2 * 10 ^ n) : ℚ) < 2 ^ (m - 24) * (1 - 2 ^ (-27 : ℤ))) {x : Binary32}
    (h : x.value.isSome) : Near (1 / 10 ^ n) x (x.reread n) := by
  obtain ⟨q, hq⟩ := Option.isSome_iff_exists.mp h
  refine ⟨q, hq, _, value_reread hn hn' hq, ?_⟩
  refine (abs_float_sub_le_of (m := m) (roundBits_of_value hq) (abs_roundFixed_sub_le n q) hlow
    hhigh).trans_eq ?_
  field_simp

theorem near_reread_four {x : Binary32} (h : x.value.isSome) : Near (1 / 10 ^ 4) x (x.reread 4) :=
  near_reread_of (m := 10) (by norm_num) (by norm_num) (by norm_num) (by norm_num) h

/-- The `float` of the decimals that are printed of a number. -/
def decimals (n : ℕ) (q : ℚ) : ℚ := roundBits 24 (roundBits 53 (roundFixed n q))

theorem Near.isSome {ε : ℚ} {x y : Binary32} (h : Near ε x y) : x.value.isSome := by
  obtain ⟨q, hq, -⟩ := h
  exact Option.isSome_iff_exists.mpr ⟨q, hq⟩

/-! ## Arithmetic -/

/-- The value that the arithmetic of a `float` computes with. -/
def toFp (x : Binary32) : Fp 24 :=
  match h : x.value with
  | some q => .fin q (roundBits_of_value h)
  | none => if x.bits.toNat % 2 ^ 23 = 0 then .inf x.neg else .nan x.neg

theorem toFp_of_value {x : Binary32} {q : ℚ} (h : x.value = some q) :
    x.toFp = .fin q (roundBits_of_value h) := by
  unfold toFp
  split
  · rename_i r hr
    obtain rfl : r = q := Option.some.inj (hr.symm.trans h)
    rfl
  · rename_i hnone
    rw [h] at hnone
    cases hnone

/-- Finite floats compare as their values do. -/
theorem lt_toFp_iff {x y : Binary32} {q r : ℚ} (hx : x.value = some q) (hy : y.value = some r) :
    x.toFp.lt y.toFp = true ↔ q < r := by
  simp [toFp_of_value hx, toFp_of_value hy, Fp.lt]

/-- So it is with `<=`. -/
theorem le_toFp_iff {x y : Binary32} {q r : ℚ} (hx : x.value = some q) (hy : y.value = some r) :
    x.toFp.le y.toFp = true ↔ q ≤ r := by
  simp [toFp_of_value hx, toFp_of_value hy, Fp.le]

/-- `fabs(x - y)`. -/
def dist (x y : Binary32) : Fp 24 := (x.toFp.sub float_pos y.toFp).abs float_pos

theorem dist_of_value {x y : Binary32} {q r : ℚ} (hx : x.value = some q) (hy : y.value = some r) :
    dist x y = .ofRat (by norm_num) |q - r| := by
  simp [dist, toFp_of_value hx, toFp_of_value hy, Fp.sub, Fp.abs, Fp.ofRat, ← roundBits_abs,
    roundBits_idem]

/-- A distance is the same both ways, also between infinities. -/
theorem dist_comm (x y : Binary32) : dist x y = dist y x := by
  unfold dist
  generalize x.toFp = u
  generalize y.toFp = v
  cases u with
  | fin q hq =>
    cases v with
    | fin r hr => simp [Fp.sub, Fp.abs, Fp.ofRat, ← roundBits_abs, abs_sub_comm]
    | inf neg => rfl
    | nan neg => rfl
  | inf neg =>
    cases v with
    | fin r hr => rfl
    | inf neg' =>
      by_cases h : neg = neg'
      · subst h
        rfl
      · simp [Fp.sub, Fp.abs, h, Ne.symm h]
    | nan neg' => rfl
  | nan neg => cases v <;> rfl

/-! ## The bytes of the text -/

theorem fmt_of_value_eq_none {n : ℕ} {x : Binary32} (h : x.value = none) :
    x.fmt n = signText x.neg ++ infText ∨ x.fmt n = signText x.neg ++ nanText := by
  simp only [fmt, h]
  split_ifs
  · exact Or.inl rfl
  · exact Or.inr rfl

theorem fmt_of_value {n : ℕ} {x : Binary32} {q : ℚ} (h : x.value = some q) :
    x.fmt n = signText x.neg ++ fmtFixed n |q| := by
  simp only [fmt, h]

/-- The bytes of a text are those of a number exactly if it is one. -/
theorem forall_isNumByte_fmt_iff (n : ℕ) (x : Binary32) :
    (∀ c ∈ x.fmt n, isNumByte c = true) ↔ x.value.isSome := by
  cases hx : x.value with
  | none =>
    simp only [Option.isSome_none, Bool.false_eq_true, iff_false, not_forall]
    rcases fmt_of_value_eq_none (n := n) hx with h | h <;> rw [h]
    · exact ⟨105, by simp [infText], by decide⟩
    · exact ⟨110, by simp [nanText], by decide⟩
  | some q =>
    simp only [Option.isSome_some, iff_true]
    intro c hc
    rw [fmt_of_value hx] at hc
    rcases List.mem_append.1 hc with hc | hc
    · exact isNumByte_of_mem_signText hc
    · exact isNumByte_of_mem_fmtFixed hc

theorem fmt_ne_nil (n : ℕ) (x : Binary32) : x.fmt n ≠ [] := by
  cases hx : x.value with
  | none => rcases fmt_of_value_eq_none (n := n) hx with h | h <;> simp [h, infText, nanText]
  | some q => simp [fmt_of_value hx, fmtFixed, natText_ne_nil]

/-- A text has at most 39 digits before the point, a sign, and the point. -/
theorem length_fmt_le {n : ℕ} (hn : 0 < n) (x : Binary32) : (x.fmt n).length ≤ n + 41 := by
  have hsign := length_signText_le x.neg
  cases hx : x.value with
  | none =>
    rcases fmt_of_value_eq_none (n := n) hx with h | h <;> rw [h, List.length_append]
    · simp only [infText, List.length_cons, List.length_nil]
      omega
    · simp only [nanText, List.length_cons, List.length_nil]
      omega
  | some q =>
    have hlt : |q| + 1 < 10 ^ 39 := by
      have hle := abs_lt_of_value hx
      norm_num at hle ⊢
      linarith
    have hlen := length_fmtFixed_le hn (k := 39) (by norm_num) (abs_nonneg q) hlt
    rw [fmt_of_value hx, List.length_append]
    omega

end Binary32

end Lib

import Mathlib

/-!
# Decimal text

The decimal renderings of C's `printf` and the reader of `strtod`, on bytes, with numbers kept as
exact rationals. `fmtFixed` is `%.nf` and `fmtG` is `%.ng`: both round half to even, `fmtG` to `n`
significant digits (`roundSig`), and drop nothing else. `parseDecimal` reads a sign, digits, a
fraction, and an exponent. `parseDecimal_fmtG` says that reading what `%.ng` prints gives the
number rounded to `n` digits, and `abs_roundSig_sub_le` bounds the distance.
-/

namespace Lib

/-! ## Rounding half to even -/

/-- The nearest integer, ties to even. -/
def roundHalfEven (q : ℚ) : ℤ :=
  if q - ⌊q⌋ < 1 / 2 then ⌊q⌋
  else if 1 / 2 < q - ⌊q⌋ then ⌊q⌋ + 1
  else if ⌊q⌋ % 2 = 0 then ⌊q⌋ else ⌊q⌋ + 1

theorem abs_roundHalfEven_sub_le (q : ℚ) : |(roundHalfEven q : ℚ) - q| ≤ 1 / 2 := by
  have h0 := Int.floor_le q
  have h1 := Int.lt_floor_add_one q
  unfold roundHalfEven
  rw [abs_le]
  split_ifs <;> push_cast <;> constructor <;> linarith

theorem le_roundHalfEven {q : ℚ} {n : ℤ} (h : (n : ℚ) ≤ q) : n ≤ roundHalfEven q := by
  have hf : n ≤ ⌊q⌋ := Int.le_floor.mpr h
  unfold roundHalfEven
  split_ifs <;> omega

@[simp] theorem roundHalfEven_intCast (z : ℤ) : roundHalfEven z = z := by
  simp [roundHalfEven]

/-! ## Digits -/

/-- The byte of a decimal digit. -/
def digitByte (d : ℕ) : UInt8 := UInt8.ofNat (48 + d)

/-- The value of a digit's byte. -/
def digitVal (c : UInt8) : ℕ := c.toNat - 48

/-- Whether a byte is one of `0` to `9`. -/
def isDigit (c : UInt8) : Bool := 48 ≤ c && c ≤ 57

@[simp] theorem digitVal_digitByte : ∀ {d : ℕ}, d < 10 → digitVal (digitByte d) = d := by
  decide

@[simp] theorem isDigit_digitByte : ∀ {d : ℕ}, d < 10 → isDigit (digitByte d) = true := by
  decide

/-- The last `k` decimal digits of `n`, the most significant first. -/
def padDigits : ℕ → ℕ → List UInt8
  | 0, _ => []
  | k + 1, n => padDigits k (n / 10) ++ [digitByte (n % 10)]

/-- The decimal digits of `n`, with no leading zero. -/
def natText (n : ℕ) : List UInt8 := padDigits (Nat.log 10 n + 1) n

/-- The number that a string of digits denotes. -/
def valueOf (ds : List UInt8) : ℕ := ds.foldl (fun a c => 10 * a + digitVal c) 0

theorem valueOf_concat (ds : List UInt8) (c : UInt8) :
    valueOf (ds ++ [c]) = 10 * valueOf ds + digitVal c := by
  simp [valueOf, List.foldl_append]

@[simp] theorem padDigits_length (k n : ℕ) : (padDigits k n).length = k := by
  induction k generalizing n with
  | zero => rfl
  | succ k ih => simp [padDigits, ih]

theorem valueOf_padDigits (k n : ℕ) : valueOf (padDigits k n) = n % 10 ^ k := by
  induction k generalizing n with
  | zero => simp [padDigits, valueOf, Nat.mod_one]
  | succ k ih =>
    rw [padDigits, valueOf_concat, ih, digitVal_digitByte (Nat.mod_lt _ (by norm_num)), pow_succ',
      Nat.mod_mul]
    ring

theorem isDigit_of_mem_padDigits {k n : ℕ} {c : UInt8} (h : c ∈ padDigits k n) :
    isDigit c = true := by
  induction k generalizing n with
  | zero => simp [padDigits] at h
  | succ k ih =>
    rcases List.mem_append.mp h with h | h
    · exact ih h
    · rw [List.mem_singleton.mp h]
      exact isDigit_digitByte (Nat.mod_lt _ (by norm_num))

@[simp] theorem valueOf_natText (n : ℕ) : valueOf (natText n) = n := by
  rw [natText, valueOf_padDigits, Nat.mod_eq_of_lt (Nat.lt_pow_succ_log_self (by norm_num) n)]

theorem isDigit_of_mem_natText {n : ℕ} {c : UInt8} (h : c ∈ natText n) : isDigit c = true :=
  isDigit_of_mem_padDigits h

theorem natText_ne_nil (n : ℕ) : natText n ≠ [] := by
  rw [← List.length_pos_iff, natText, padDigits_length]
  omega

/-! ## Printing -/

/-- The bytes of `-`, `.`, `+`, and `e`. -/
def minusByte : UInt8 := 45
@[inherit_doc minusByte] def dotByte : UInt8 := 46
@[inherit_doc minusByte] def plusByte : UInt8 := 43
@[inherit_doc minusByte] def expByte : UInt8 := 101

/-- A minus sign for a negative number. -/
def signText (neg : Bool) : List UInt8 := if neg then [minusByte] else []

/-- `%lld`. -/
def intText (z : ℤ) : List UInt8 := signText (z < 0) ++ natText z.natAbs

/-- `%.nf`: `n` digits after the point. -/
def fmtFixed (n : ℕ) (q : ℚ) : List UInt8 :=
  let m := (roundHalfEven (|q| * 10 ^ n)).toNat
  signText (q < 0) ++ natText (m / 10 ^ n) ++ if n = 0 then [] else dotByte :: padDigits n m

/-- The mantissa and the exponent that `%.ng` prints a positive number with: `n` digits, and the
power of ten of the first one. -/
def sigDigits (n : ℕ) (a : ℚ) : ℕ × ℤ :=
  let x := Int.log 10 a
  let m := (roundHalfEven (a / 10 ^ (x - (n - 1)))).toNat
  if m = 10 ^ n then (10 ^ (n - 1), x + 1) else (m, x)

/-- Digits without their trailing zeros. -/
def dropZeros : List UInt8 → List UInt8
  | [] => []
  | c :: cs => if dropZeros cs = [] ∧ c = digitByte 0 then [] else c :: dropZeros cs

/-- A fraction without its trailing zeros, after a point if anything is left. -/
def fracText (ds : List UInt8) : List UInt8 :=
  if dropZeros ds = [] then [] else dotByte :: dropZeros ds

/-- An exponent, of two digits at least. -/
def expText (x : ℤ) : List UInt8 :=
  expByte :: (if x < 0 then minusByte else plusByte) ::
    (if x.natAbs < 10 then padDigits 2 x.natAbs else natText x.natAbs)

/-- `%.ng` of a positive number with the digits `m` and the exponent `x`: positional for an exponent
from `-4` to `n - 1`, scientific otherwise. -/
def sigText (n m : ℕ) (x : ℤ) : List UInt8 :=
  if x < -4 ∨ (n : ℤ) ≤ x then
    natText (m / 10 ^ (n - 1)) ++ fracText (padDigits (n - 1) m) ++ expText x
  else
    let p := (n - 1 - x).toNat
    natText (m / 10 ^ p) ++ fracText (padDigits p m)

/-- `%.ng`: `n` significant digits, without trailing zeros. -/
def fmtG (n : ℕ) (q : ℚ) : List UInt8 :=
  if q = 0 then [digitByte 0]
  else signText (q < 0) ++ sigText n (sigDigits n |q|).1 (sigDigits n |q|).2

/-- A number rounded to `n` significant digits. -/
def roundSig (n : ℕ) (q : ℚ) : ℚ :=
  if q = 0 then 0
  else (if q < 0 then -1 else 1) *
    ((sigDigits n |q|).1 * 10 ^ ((sigDigits n |q|).2 - ((n : ℤ) - 1)))

/-! ## Reading -/

/-- A leading sign and what follows it. -/
def readSign : List UInt8 → Bool × List UInt8
  | c :: t => if c = minusByte then (true, t) else if c = plusByte then (false, t) else (false, c :: t)
  | [] => (false, [])

/-- A fraction's digits after a point, and what follows them. -/
def readFrac : List UInt8 → List UInt8 × List UInt8
  | c :: t => if c = dotByte then (t.takeWhile isDigit, t.dropWhile isDigit) else ([], c :: t)
  | [] => ([], [])

/-- An exponent, `0` if there is none. -/
def readExp : List UInt8 → ℤ
  | c :: t =>
    if c = expByte ∨ c = 69 then
      let (neg, ds) := readSign t
      (if neg then -1 else 1) * (valueOf (ds.takeWhile isDigit) : ℤ)
    else 0
  | [] => 0

/-- The number at the start of a text, as `strtod` reads it but without its rounding to binary. -/
def parseDecimal (t : List UInt8) : ℚ :=
  let (neg, t) := readSign t
  let ip := t.takeWhile isDigit
  let (fp, t) := readFrac (t.dropWhile isDigit)
  (if neg then -1 else 1) * (valueOf ip + valueOf fp / 10 ^ fp.length) * 10 ^ readExp t

/-! ## The bytes of a number -/

/-- Whether a byte can stand in the text of a number. -/
def isNumByte (c : UInt8) : Bool :=
  c = minusByte || c = plusByte || c = dotByte || isDigit c || c = expByte || c = 69

theorem isNumByte_of_isDigit {c : UInt8} (h : isDigit c = true) : isNumByte c = true := by
  simp [isNumByte, h]

theorem isNumByte_of_mem_signText {neg : Bool} {c : UInt8} (h : c ∈ signText neg) :
    isNumByte c = true := by
  unfold signText at h
  split_ifs at h
  · rw [List.mem_singleton.mp h]
    decide
  · simp at h

theorem isNumByte_of_mem_intText {z : ℤ} {c : UInt8} (h : c ∈ intText z) : isNumByte c = true := by
  rcases List.mem_append.mp h with h | h
  · exact isNumByte_of_mem_signText h
  · exact isNumByte_of_isDigit (isDigit_of_mem_natText h)

theorem intText_ne_nil (z : ℤ) : intText z ≠ [] := by
  simp [intText, natText_ne_nil]

/-! ## Reading what was printed -/

/-- A text that does not continue a run of digits. -/
def EndsDigits (t : List UInt8) : Prop := ∀ c ∈ t.head?, isDigit c = false

theorem span_digits {ds t : List UInt8} (hd : ∀ c ∈ ds, isDigit c = true) (ht : EndsDigits t) :
    (ds ++ t).takeWhile isDigit = ds ∧ (ds ++ t).dropWhile isDigit = t := by
  rw [List.takeWhile_append_of_pos hd, List.dropWhile_append_of_pos hd]
  cases t with
  | nil => simp
  | cons c t => simp [ht c (by simp)]

theorem ne_sign_of_isDigit {c : UInt8} (h : isDigit c = true) : c ≠ minusByte ∧ c ≠ plusByte := by
  constructor <;> rintro rfl <;> simp [isDigit, minusByte, plusByte] at h

theorem readSign_signText (neg : Bool) {ds t : List UInt8} (hd : ∀ c ∈ ds, isDigit c = true)
    (hne : ds ≠ []) : readSign (signText neg ++ (ds ++ t)) = (neg, ds ++ t) := by
  obtain ⟨c, cs, rfl⟩ := List.exists_cons_of_ne_nil hne
  have hc := ne_sign_of_isDigit (hd c (by simp))
  cases neg <;> simp [signText, readSign, hc.1, hc.2]

theorem mem_of_mem_dropZeros {ds : List UInt8} {c : UInt8} (h : c ∈ dropZeros ds) : c ∈ ds := by
  induction ds with
  | nil => simp [dropZeros] at h
  | cons d ds ih =>
    rw [dropZeros] at h
    split_ifs at h
    · simp at h
    · rcases List.mem_cons.mp h with rfl | h
      · simp
      · exact List.mem_cons_of_mem _ (ih h)

/-- The value of a string of digits as a fraction. -/
def fracVal (ds : List UInt8) : ℚ := valueOf ds / 10 ^ ds.length

theorem fracVal_cons (c : UInt8) (ds : List UInt8) :
    fracVal (c :: ds) = (digitVal c + fracVal ds) / 10 := by
  have key : valueOf (c :: ds) = digitVal c * 10 ^ ds.length + valueOf ds := by
    induction ds using List.reverseRecOn with
    | nil => simp [valueOf]
    | append_singleton ds d ih =>
      rw [← List.cons_append, valueOf_concat, valueOf_concat, ih, List.length_append]
      simp only [List.length_singleton, pow_succ]
      ring
  unfold fracVal
  rw [key, List.length_cons, pow_succ, ← div_div]
  push_cast
  rw [add_div, mul_div_cancel_right₀ _ (by positivity)]

theorem fracVal_dropZeros (ds : List UInt8) : fracVal (dropZeros ds) = fracVal ds := by
  induction ds with
  | nil => rfl
  | cons c ds ih =>
    rw [dropZeros]
    split_ifs with h
    · rw [fracVal_cons, ← ih, h.1, h.2]
      simp [fracVal, valueOf]
    · rw [fracVal_cons, fracVal_cons, ih]

theorem readFrac_fracText {ds t : List UInt8} (hd : ∀ c ∈ ds, isDigit c = true)
    (ht : EndsDigits t) (hdot : dotByte ∉ t.head?) :
    readFrac (fracText ds ++ t) = (dropZeros ds, t) := by
  unfold fracText
  split_ifs with h
  · rw [h, List.nil_append]
    cases t with
    | nil => rfl
    | cons c t =>
      have hc : c ≠ dotByte := fun e => hdot (by simp [e])
      simp [readFrac, hc]
  · have hd' : ∀ c ∈ dropZeros ds, isDigit c = true := fun c hc => hd c (mem_of_mem_dropZeros hc)
    obtain ⟨h1, h2⟩ := span_digits hd' ht
    simp [readFrac, h1, h2]

theorem endsDigits_fracText (ds : List UInt8) {t : List UInt8} (ht : EndsDigits t) :
    EndsDigits (fracText ds ++ t) := by
  unfold fracText
  split_ifs with h
  · exact ht
  · intro c hc
    obtain rfl : dotByte = c := by simpa using hc
    decide

theorem takeWhile_digits {ds : List UInt8} (hd : ∀ c ∈ ds, isDigit c = true) :
    ds.takeWhile isDigit = ds := by
  simpa using (span_digits (t := []) hd (by simp [EndsDigits])).1

theorem expDigits (k : ℕ) :
    (∀ c ∈ (if k < 10 then padDigits 2 k else natText k), isDigit c = true) ∧
      valueOf (if k < 10 then padDigits 2 k else natText k) = k := by
  split_ifs with h
  · refine ⟨fun c hc => isDigit_of_mem_padDigits hc, ?_⟩
    rw [valueOf_padDigits]
    omega
  · exact ⟨fun c hc => isDigit_of_mem_natText hc, valueOf_natText k⟩

theorem readExp_expText (x : ℤ) : readExp (expText x) = x := by
  obtain ⟨hd, hv⟩ := expDigits x.natAbs
  have hp : plusByte ≠ minusByte := by decide
  unfold expText
  by_cases hx : x < 0
  · simp only [readExp, readSign, hx, true_or, if_true, takeWhile_digits hd, hv]
    omega
  · simp only [readExp, readSign, hx, hp, true_or, if_true, if_false, takeWhile_digits hd, hv,
      Bool.false_eq_true]
    omega

/-- Reading a sign, digits, a fraction, and a rest that starts neither with a digit nor with a
point. -/
theorem parseDecimal_parts (neg : Bool) (ip fp t : List UInt8) (hi : ∀ c ∈ ip, isDigit c = true)
    (hne : ip ≠ []) (hf : ∀ c ∈ fp, isDigit c = true) (ht : EndsDigits t) (hdot : dotByte ∉ t.head?) :
    parseDecimal (signText neg ++ (ip ++ (fracText fp ++ t))) =
      (if neg then -1 else 1) * (valueOf ip + fracVal fp) * 10 ^ readExp t := by
  obtain ⟨h1, h2⟩ := span_digits hi (endsDigits_fracText fp ht)
  simp only [parseDecimal]
  rw [readSign_signText neg hi hne]
  simp only [h1, h2, readFrac_fracText hf ht hdot]
  rw [← fracVal_dropZeros fp, fracVal]

theorem parseDecimal_intText (z : ℤ) : parseDecimal (intText z) = z := by
  have h := parseDecimal_parts (decide (z < 0)) (natText z.natAbs) [] []
    (fun c hc => isDigit_of_mem_natText hc) (natText_ne_nil _) (by simp) (by simp [EndsDigits])
    (by simp)
  simp only [fracText, dropZeros, if_true, List.append_nil, valueOf_natText] at h
  rw [intText, h]
  simp only [fracVal, valueOf, readExp, List.foldl_nil, List.length_nil]
  have habs : (z.natAbs : ℚ) = |(z : ℚ)| := by rw [Nat.cast_natAbs, Int.cast_abs]
  rw [habs]
  by_cases hz : z < 0
  · have hq : (z : ℚ) < 0 := by exact_mod_cast hz
    simp [hz, abs_of_neg hq]
  · have hq : (0 : ℚ) ≤ z := by exact_mod_cast not_lt.mp hz
    simp [hz, abs_of_nonneg hq]

theorem split_digits (m p : ℕ) :
    (valueOf (natText (m / 10 ^ p)) : ℚ) + fracVal (padDigits p m) = m / 10 ^ p := by
  rw [valueOf_natText, fracVal, valueOf_padDigits, padDigits_length, eq_div_iff (by positivity),
    add_mul, div_mul_cancel₀ _ (by positivity)]
  exact_mod_cast Nat.div_add_mod' m (10 ^ p)

theorem parseDecimal_sigText (neg : Bool) {n : ℕ} (hn : 0 < n) (m : ℕ) (x : ℤ) :
    parseDecimal (signText neg ++ sigText n m x) =
      (if neg then -1 else 1) * (m * 10 ^ (x - ((n : ℤ) - 1))) := by
  have hpad : ∀ p, ∀ c ∈ padDigits p m, isDigit c = true := fun p c hc => isDigit_of_mem_padDigits hc
  have hnat : ∀ p, ∀ c ∈ natText (m / 10 ^ p), isDigit c = true :=
    fun p c hc => isDigit_of_mem_natText hc
  unfold sigText
  by_cases h : x < -4 ∨ (n : ℤ) ≤ x
  · rw [if_pos h, List.append_assoc, parseDecimal_parts neg _ _ _ (hnat _) (natText_ne_nil _) (hpad _)
      (by intro c hc; obtain rfl : expByte = c := by simpa [expText] using hc
          decide)
      (by simp [expText, dotByte, expByte]), split_digits, readExp_expText]
    have hsub : x - ((n : ℤ) - 1) = x - ((n - 1 : ℕ) : ℤ) := by omega
    rw [hsub, zpow_sub₀ (by norm_num), zpow_natCast]
    ring
  · have hp := parseDecimal_parts neg _ _ [] (hnat (n - 1 - x).toNat) (natText_ne_nil _)
      (hpad (n - 1 - x).toNat) (by simp [EndsDigits]) (by simp)
    simp only [List.append_nil] at hp
    rw [if_neg h, hp, split_digits]
    have hsub : x - ((n : ℤ) - 1) = -(((n : ℤ) - 1 - x).toNat : ℤ) := by omega
    rw [hsub, zpow_neg, zpow_natCast, readExp, zpow_zero]
    ring

theorem parseDecimal_fmtG {n : ℕ} (hn : 0 < n) (q : ℚ) : parseDecimal (fmtG n q) = roundSig n q := by
  unfold fmtG roundSig
  split_ifs with h0
  · simp [parseDecimal, readSign, readFrac, readExp, isDigit, digitByte, valueOf, digitVal,
      minusByte, plusByte]
  · rw [parseDecimal_sigText _ hn]; simp [*]
  · rw [parseDecimal_sigText _ hn]; simp [*]

theorem isNumByte_of_mem_fracText {ds : List UInt8} (hd : ∀ c ∈ ds, isDigit c = true) {c : UInt8}
    (h : c ∈ fracText ds) : isNumByte c = true := by
  unfold fracText at h
  split_ifs at h
  · simp at h
  · rcases List.mem_cons.mp h with rfl | h
    · decide
    · exact isNumByte_of_isDigit (hd c (mem_of_mem_dropZeros h))

theorem isNumByte_of_mem_expText {x : ℤ} {c : UInt8} (h : c ∈ expText x) : isNumByte c = true := by
  have hsign : ∀ c, c = (if x < 0 then minusByte else plusByte) → isNumByte c = true := by
    rintro c rfl
    split_ifs <;> decide
  rcases List.mem_cons.mp h with rfl | h
  · decide
  · rcases List.mem_cons.mp h with h | h
    · exact hsign c h
    · exact isNumByte_of_isDigit ((expDigits x.natAbs).1 c h)

theorem fmtG_text (n : ℕ) (q : ℚ) : (∀ c ∈ fmtG n q, isNumByte c = true) ∧ fmtG n q ≠ [] := by
  have hpad : ∀ k m, ∀ c ∈ padDigits k m, isDigit c = true := fun k m c hc =>
    isDigit_of_mem_padDigits hc
  have hsig : ∀ m x, (∀ c ∈ sigText n m x, isNumByte c = true) ∧ sigText n m x ≠ [] := by
    intro m x
    unfold sigText
    split_ifs
    · refine ⟨fun c hc => ?_, by simp [natText_ne_nil]⟩
      rcases List.mem_append.mp hc with hc | hc
      · rcases List.mem_append.mp hc with hc | hc
        · exact isNumByte_of_isDigit (isDigit_of_mem_natText hc)
        · exact isNumByte_of_mem_fracText (hpad _ _) hc
      · exact isNumByte_of_mem_expText hc
    · refine ⟨fun c hc => ?_, by simp [natText_ne_nil]⟩
      rcases List.mem_append.mp hc with hc | hc
      · exact isNumByte_of_isDigit (isDigit_of_mem_natText hc)
      · exact isNumByte_of_mem_fracText (hpad _ _) hc
  by_cases h0 : q = 0
  · rw [fmtG, if_pos h0]
    refine ⟨fun c hc => ?_, by simp⟩
    rw [List.mem_singleton.mp hc]
    decide
  · rw [fmtG, if_neg h0]
    obtain ⟨h1, h2⟩ := hsig (sigDigits n |q|).1 (sigDigits n |q|).2
    refine ⟨fun c hc => ?_, by simp [h2]⟩
    rcases List.mem_append.mp hc with hc | hc
    · exact isNumByte_of_mem_signText hc
    · exact h1 c hc

/-! ## The precision of a number rounded to significant digits -/

/-- The step between the numbers that `%.ng` prints near `q`. -/
def sigUnit (n : ℕ) (q : ℚ) : ℚ := 10 ^ (Int.log 10 |q| - ((n : ℤ) - 1))

theorem sigUnit_pos (n : ℕ) (q : ℚ) : 0 < sigUnit n q := by
  unfold sigUnit
  positivity

theorem roundSig_eq {n : ℕ} (hn : 0 < n) {q : ℚ} (hq : 0 < q) :
    roundSig n q = roundHalfEven (q / sigUnit n q) * sigUnit n q := by
  have h0 : (0 : ℤ) ≤ roundHalfEven (q / sigUnit n q) :=
    le_roundHalfEven (by have := sigUnit_pos n q; push_cast; positivity)
  obtain ⟨k, hk⟩ := Int.eq_ofNat_of_zero_le h0
  rw [roundSig, if_neg hq.ne', if_neg hq.not_gt, one_mul, hk]
  simp only [sigDigits, abs_of_pos hq]
  rw [sigUnit, abs_of_pos hq] at hk ⊢
  rw [hk]
  simp only [Int.toNat_natCast, Int.cast_natCast]
  split_ifs with hc
  · obtain ⟨j, rfl⟩ : ∃ j, n = j + 1 := ⟨n - 1, by omega⟩
    have hx : Int.log 10 q + 1 - (((j + 1 : ℕ) : ℤ) - 1) =
        Int.log 10 q - (((j + 1 : ℕ) : ℤ) - 1) + 1 := by omega
    rw [hc, hx, zpow_add₀ (by norm_num), zpow_one, Nat.add_sub_cancel]
    push_cast
    rw [pow_succ]
    ring
  · rfl

theorem abs_roundHalfEven_sub_le_abs (q : ℚ) (k : ℤ) :
    |(roundHalfEven q : ℚ) - q| ≤ |(k : ℚ) - q| := by
  have h0 := Int.floor_le q
  have h1 := Int.lt_floor_add_one q
  rcases le_or_gt k ⌊q⌋ with hk | hk
  · have hk' : (k : ℚ) ≤ ⌊q⌋ := by exact_mod_cast hk
    rw [abs_of_nonpos (by linarith : (k : ℚ) - q ≤ 0), abs_le]
    have hd := abs_le.mp (abs_roundHalfEven_sub_le q)
    unfold roundHalfEven at hd ⊢
    split_ifs at hd ⊢ <;> push_cast at hd ⊢ <;> constructor <;> linarith
  · have hk' : (⌊q⌋ : ℚ) + 1 ≤ k := by exact_mod_cast hk
    rw [abs_of_nonneg (by linarith : (0 : ℚ) ≤ (k : ℚ) - q), abs_le]
    have hd := abs_le.mp (abs_roundHalfEven_sub_le q)
    unfold roundHalfEven at hd ⊢
    split_ifs at hd ⊢ <;> push_cast at hd ⊢ <;> constructor <;> linarith

theorem abs_mul_sigUnit_sub (n : ℕ) (q : ℚ) (k : ℤ) :
    |k * sigUnit n q - q| = |(k : ℚ) - q / sigUnit n q| * sigUnit n q := by
  have hu := sigUnit_pos n q
  calc |k * sigUnit n q - q| = |((k : ℚ) - q / sigUnit n q) * sigUnit n q| := by
        rw [sub_mul, div_mul_cancel₀ _ hu.ne']
    _ = |(k : ℚ) - q / sigUnit n q| * sigUnit n q := by rw [abs_mul, abs_of_pos hu]

theorem abs_roundSig_sub_le_abs {n : ℕ} (hn : 0 < n) {q : ℚ} (hq : 0 < q) (k : ℤ) :
    |roundSig n q - q| ≤ |k * sigUnit n q - q| := by
  rw [roundSig_eq hn hq, abs_mul_sigUnit_sub, abs_mul_sigUnit_sub]
  exact mul_le_mul_of_nonneg_right (abs_roundHalfEven_sub_le_abs _ k) (sigUnit_pos n q).le

theorem abs_roundSig_sub_le {n : ℕ} (hn : 0 < n) {q : ℚ} (hq : 0 < q) :
    |roundSig n q - q| ≤ sigUnit n q / 2 := by
  calc |roundSig n q - q|
      = |(roundHalfEven (q / sigUnit n q) : ℚ) - q / sigUnit n q| * sigUnit n q := by
        rw [roundSig_eq hn hq, abs_mul_sigUnit_sub]
    _ ≤ 1 / 2 * sigUnit n q :=
        mul_le_mul_of_nonneg_right (abs_roundHalfEven_sub_le _) (sigUnit_pos n q).le
    _ = sigUnit n q / 2 := by ring

/-- Rounding to `n` significant digits keeps a number within `t` exactly when some multiple of the
step is. -/
theorem abs_roundSig_sub_lt_iff {n : ℕ} (hn : 0 < n) {q : ℚ} (hq : 0 < q) (t : ℚ) :
    |roundSig n q - q| < t ↔ ∃ k : ℤ, |k * sigUnit n q - q| < t := by
  constructor
  · intro h
    exact ⟨roundHalfEven (q / sigUnit n q), by rwa [← roundSig_eq hn hq]⟩
  · rintro ⟨k, hk⟩
    exact (abs_roundSig_sub_le_abs hn hq k).trans_lt hk

end Lib

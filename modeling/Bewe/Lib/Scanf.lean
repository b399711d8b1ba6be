import Bewe.Lib.Float

/-!
# Reading formatted text

The directives of `sscanf` and `strptime`, each a function from a text to a value and the rest of
the text, so that a format is their composition in `Option`. Numbers that were printed in decimal,
padded or not, are read back by `scanInt_digits` and `getNumber_digits`.
-/

namespace Lib

/-! ## `sscanf` -/

/-- White space in a format: any amount of it. -/
def scanSpace (t : List UInt8) : List UInt8 := t.dropWhile isSpace

/-- A byte in a format that stands for itself. -/
def scanByte (c : UInt8) : List UInt8 → Option (List UInt8)
  | [] => none
  | d :: t => if d = c then some t else none

/-- `%d`. -/
def scanInt (t : List UInt8) : Option (ℤ × List UInt8) :=
  let (neg, u) := readSign (scanSpace t)
  if u.takeWhile isDigit = [] then none
  else some ((if neg then -1 else 1) * valueOf (u.takeWhile isDigit), u.dropWhile isDigit)

/-- `%ns`: up to `n` bytes that are not white space. -/
def scanWord (n : ℕ) (t : List UInt8) : Option (List UInt8 × List UInt8) :=
  let w := ((scanSpace t).takeWhile fun c => !isSpace c).take n
  if w = [] then none else some (w, (scanSpace t).drop w.length)

/-- `%lf`: what `strtod` reads, if it is a number. -/
def scanDouble (t : List UInt8) : Option (ℚ × List UInt8) :=
  match strtod t with
  | (.fin q _, r) => if r = t then none else some (q, r)
  | _ => none

/-- `%lf` of a decimal number without the rounding to binary. -/
def scanNumber (t : List UInt8) : Option (ℚ × List UInt8) :=
  let (neg, u) := readSign (scanSpace t)
  (takeNumber u).map fun x => ((if neg then -1 else 1) * x.1, x.2)

/-- `atof`, where it gives a number. -/
def atof (t : List UInt8) : ℚ :=
  match (strtod t).1 with
  | .fin q _ => q
  | _ => 0

/-- `atoll`: what `%d` reads, within the range of 64 bits. -/
def atoll (t : List UInt8) : ℤ :=
  max (-2 ^ 63) (min (2 ^ 63 - 1) (((scanInt t).map Prod.fst).getD 0))

/-- `strtoul` in base 10, for 64 bits: a number behind a minus sign wraps, one out of range does not. -/
def strtoul (t : List UInt8) : ℕ :=
  let z := ((scanInt t).map Prod.fst).getD 0
  if 2 ^ 64 ≤ z.natAbs then 2 ^ 64 - 1 else (z % 2 ^ 64).toNat

theorem scanSpace_cons {c : UInt8} (h : isSpace c = false) (t : List UInt8) :
    scanSpace (c :: t) = c :: t := by
  simp [scanSpace, h]

theorem scanSpace_blank (t : List UInt8) : scanSpace (32 :: t) = scanSpace t := by
  simp [scanSpace, isSpace]

theorem scanSpace_of_head {t : List UInt8} (h : ∀ c ∈ t.head?, isSpace c = false) :
    scanSpace t = t := by
  cases t with
  | nil => rfl
  | cons c t => exact scanSpace_cons (h c (by simp)) t

theorem atof_blank (t : List UInt8) : atof (32 :: t) = atof t := by
  have hdrop : (32 :: t).dropWhile isSpace = t.dropWhile isSpace := by simp [isSpace]
  have hvalue : (strtod (32 :: t)).1 = (strtod t).1 := by
    simp only [strtod, hdrop]
    generalize readSign (t.dropWhile isSpace) = p
    -- only a text with no number is handed back with its blank
    split
    · rfl
    · split
      · rfl
      · split <;> rfl
  rw [atof, atof, hvalue]

theorem scanSpace_digits {ds : List UInt8} (hd : ∀ c ∈ ds, isDigit c = true) (hne : ds ≠ [])
    (t : List UInt8) : scanSpace (ds ++ t) = ds ++ t := by
  obtain ⟨c, cs, rfl⟩ := List.exists_cons_of_ne_nil hne
  exact scanSpace_cons (isSpace_of_isDigit (hd c (by simp))) (cs ++ t)

theorem scanInt_digits {ds t : List UInt8} (hd : ∀ c ∈ ds, isDigit c = true) (hne : ds ≠ [])
    (ht : EndsDigits t) : scanInt (ds ++ t) = some ((valueOf ds : ℤ), t) := by
  obtain ⟨htake, hdrop⟩ := span_digits hd ht
  have hsign : readSign (ds ++ t) = (false, ds ++ t) := readSign_signText false hd hne
  simp only [scanInt, scanSpace_digits hd hne, hsign, htake, hdrop, hne, if_false]
  simp

theorem scanInt_intText (z : ℤ) {t : List UInt8} (ht : EndsDigits t) :
    scanInt (intText z ++ t) = some (z, t) := by
  have hd : ∀ c ∈ natText z.natAbs, isDigit c = true := fun c hc => isDigit_of_mem_natText hc
  have hne := natText_ne_nil z.natAbs
  obtain ⟨c, cs, hcs⟩ := List.exists_cons_of_ne_nil hne
  have hspace : scanSpace (signText (z < 0) ++ (natText z.natAbs ++ t)) =
      signText (z < 0) ++ (natText z.natAbs ++ t) := by
    rw [hcs]
    exact dropWhile_isSpace_signText _ (isSpace_of_isDigit (hd c (by rw [hcs]; simp))) (cs ++ t)
  obtain ⟨htake, hdrop⟩ := span_digits hd ht
  have hsign := readSign_signText (decide (z < 0)) (t := t) hd hne
  rw [intText, List.append_assoc, scanInt, hspace, hsign]
  dsimp only
  rw [htake, hdrop, if_neg hne, valueOf_natText]
  have hz : (if decide (z < 0) = true then -1 else 1) * (z.natAbs : ℤ) = z := by
    split_ifs with h <;> simp at h <;> omega
  rw [hz]

theorem atoll_intText (z : ℤ) {t : List UInt8} (ht : EndsDigits t) :
    atoll (intText z ++ t) = max (-2 ^ 63) (min (2 ^ 63 - 1) z) := by
  rw [atoll, scanInt_intText z ht, Option.map_some, Option.getD_some]

theorem scanInt_blank (t : List UInt8) : scanInt (32 :: t) = scanInt t := by
  simp only [scanInt, scanSpace_blank]

theorem strtoul_natText {n : ℕ} (hn : n < 2 ^ 64) {t : List UInt8} (ht : EndsDigits t) :
    strtoul (natText n ++ t) = n := by
  have hread := scanInt_digits (fun c hc => isDigit_of_mem_natText hc) (natText_ne_nil n) ht
  rw [strtoul, hread, valueOf_natText, Option.map_some, Option.getD_some]
  dsimp only
  rw [if_neg (by rw [Int.natAbs_natCast]; omega)]
  omega

theorem scanWord_append {n : ℕ} {w t : List UInt8} (hw : ∀ c ∈ w, isSpace c = false) (hne : w ≠ [])
    (hn : w.length ≤ n) (ht : ∀ c ∈ t.head?, isSpace c = true) :
    scanWord n (w ++ t) = some (w, t) := by
  obtain ⟨c, cs, rfl⟩ := List.exists_cons_of_ne_nil hne
  have hspace : scanSpace (c :: cs ++ t) = c :: cs ++ t := scanSpace_cons (hw c (by simp)) (cs ++ t)
  have htake : (c :: cs ++ t).takeWhile (fun c => !isSpace c) = c :: cs := by
    rw [List.takeWhile_append_of_pos fun d hd => by rw [hw d hd]; rfl]
    cases t with
    | nil => simp
    | cons d t => simp [ht d (by simp)]
  simp only [scanWord, hspace, htake, List.take_of_length_le hn, hne, if_false, List.drop_left]

/-- A printed number is read as the double next to what was printed. -/
theorem scanDouble_fmtFixed {n : ℕ} (hn : 0 < n) (q : ℚ) {t : List UInt8} (ht : EndsNumber t) :
    scanDouble (fmtFixed n q ++ t) = some (roundBits 53 (roundFixed n q), t) := by
  have hne : t ≠ fmtFixed n q ++ t := by
    intro h
    have hlen := congrArg List.length h
    have htext := List.length_pos_of_ne_nil (natText_ne_nil ((roundHalfEven (|q| * 10 ^ n)).toNat / 10 ^ n))
    simp only [fmtFixed, List.length_append] at hlen
    omega
  simp only [scanDouble, strtod_fmtFixed hn q ht, Fp.ofRat, hne, if_false]

/-- `atof` reads it so, too. -/
theorem atof_fmtFixed {n : ℕ} (hn : 0 < n) (q : ℚ) {t : List UInt8} (ht : EndsNumber t) :
    atof (fmtFixed n q ++ t) = roundBits 53 (roundFixed n q) := by
  simp only [atof, strtod_fmtFixed hn q ht, Fp.ofRat]

theorem atof_natText (n : ℕ) {t : List UInt8} (ht : EndsNumber t) :
    atof (natText n ++ t) = roundBits 53 n := by
  simp only [atof, strtod_natText n ht, Fp.ofRat]

/-- A text that begins neither as a number does nor as a word for one is read as zero. -/
theorem atof_of_letter {c d : UInt8} (hspace : isSpace c = false) (hdigit : isDigit c = false)
    (hsign : c ≠ minusByte ∧ c ≠ plusByte ∧ c ≠ dotByte) (hinf : lowerLetter c ≠ 105)
    (hnan : lowerLetter c ≠ 110 ∨ lowerLetter d ≠ 97) (t : List UInt8) : atof (c :: d :: t) = 0 := by
  have h1 : dropWord infinityText (c :: d :: t) = none := by
    simp [dropWord, infinityText, hinf]
  have h2 : dropWord infText (c :: d :: t) = none := by
    simp [dropWord, infText, hinf]
  have h3 : dropWord nanText (c :: d :: t) = none := by
    rcases hnan with h | h <;> simp [dropWord, nanText, h]
  have h4 : takeNumber (c :: d :: t) = none := by
    simp [takeNumber, hdigit, readFrac, hsign.2.2]
  have h5 : readSign ((c :: d :: t).dropWhile isSpace) = (false, c :: d :: t) := by
    simp [hspace, readSign, hsign.1, hsign.2.1]
  simp [atof, strtod, h1, h2, h3, h4, h5, Fp.ofRat, roundBits]

/-! ## `%lf` without the rounding -/

/-- Digits, a fraction, and what may follow it are taken as the number they denote. -/
theorem takeNumber_parts {ip fp w : List UInt8} (hi : ∀ c ∈ ip, isDigit c = true) (hne : ip ≠ [])
    (hf : ∀ c ∈ fp, isDigit c = true) (hw : EndsDigits w) (hdot : dotByte ∉ w.head?) :
    takeNumber (ip ++ (fracText fp ++ w)) =
      some ((valueOf ip + fracVal fp) * 10 ^ (takeExp w).1, (takeExp w).2) := by
  obtain ⟨htake, hdrop⟩ := span_digits hi (endsDigits_fracText fp hw)
  simp only [takeNumber, htake, hdrop, readFrac_fracText hf hw hdot, hne, false_and, if_false,
    fracVal_dropZeros]

theorem takeExp_expText (x : ℤ) {t : List UInt8} (ht : EndsDigits t) :
    takeExp (expText x ++ t) = (x, t) := by
  obtain ⟨hd, hv⟩ := expDigits x.natAbs
  have hne : (if x.natAbs < 10 then padDigits 2 x.natAbs else natText x.natAbs) ≠ [] := by
    split_ifs
    · rw [← List.length_pos_iff, padDigits_length]
      norm_num
    · exact natText_ne_nil _
  unfold expText
  generalize (if x.natAbs < 10 then padDigits 2 x.natAbs else natText x.natAbs) = ds at hd hv hne
  obtain ⟨htake, hdrop⟩ := span_digits hd ht
  have hp : plusByte ≠ minusByte := by decide
  by_cases hx : x < 0
  · simp only [List.cons_append, takeExp, readSign, hx, true_or, if_true, htake, hdrop, hne, hv,
      if_false]
    congr 1
    omega
  · simp only [List.cons_append, takeExp, readSign, hx, hp, true_or, if_true, if_false, htake,
      hdrop, hne, hv, Bool.false_eq_true]
    congr 1
    omega

/-- The text of `m` digits with the exponent `x` is taken as `m` scaled to it. -/
theorem takeNumber_sigText {n : ℕ} (hn : 0 < n) (m : ℕ) (x : ℤ) {t : List UInt8}
    (ht : EndsNumber t) :
    takeNumber (sigText n m x ++ t) = some ((m : ℚ) * 10 ^ (x - ((n : ℤ) - 1)), t) := by
  have hpad : ∀ p, ∀ c ∈ padDigits p m, isDigit c = true := fun p c hc => isDigit_of_mem_padDigits hc
  have hnat : ∀ p, ∀ c ∈ natText (m / 10 ^ p), isDigit c = true :=
    fun p c hc => isDigit_of_mem_natText hc
  have hends : EndsDigits t := fun c hc => (ht c hc).1
  unfold sigText
  split_ifs with h
  · have hexp : EndsDigits (expText x ++ t) ∧ dotByte ∉ (expText x ++ t).head? := by
      rw [expText, List.cons_append, List.head?_cons, Option.mem_some_iff]
      refine ⟨fun c hc => ?_, by decide⟩
      obtain rfl : expByte = c := by simpa using hc
      decide
    rw [List.append_assoc, List.append_assoc,
      takeNumber_parts (hnat _) (natText_ne_nil _) (hpad _) hexp.1 hexp.2, takeExp_expText x hends,
      split_digits]
    have hsub : x - ((n : ℤ) - 1) = x - ((n - 1 : ℕ) : ℤ) := by omega
    rw [hsub, zpow_sub₀ (by norm_num), zpow_natCast]
    congr 2
    ring
  · have hdot : dotByte ∉ t.head? := fun hc => (ht _ hc).2.1 rfl
    rw [List.append_assoc, takeNumber_parts (hnat _) (natText_ne_nil _) (hpad _) hends hdot,
      takeExp_of_endsNumber ht, split_digits]
    have hsub : x - ((n : ℤ) - 1) = -(((n : ℤ) - 1 - x).toNat : ℤ) := by omega
    rw [hsub, zpow_neg, zpow_natCast, zpow_zero]
    congr 2
    ring

theorem scanNumber_of_takeNumber (neg : Bool) {ip w r : List UInt8} {v : ℚ}
    (hi : ∀ c ∈ ip, isDigit c = true) (hne : ip ≠ []) (h : takeNumber (ip ++ w) = some (v, r)) :
    scanNumber (signText neg ++ (ip ++ w)) = some ((if neg then -1 else 1) * v, r) := by
  have hsign := readSign_signText neg (t := w) hi hne
  obtain ⟨c, cs, rfl⟩ := List.exists_cons_of_ne_nil hne
  have hspace := dropWhile_isSpace_signText neg (isSpace_of_isDigit (hi c (by simp))) (cs ++ w)
  rw [List.cons_append] at hsign h ⊢
  rw [scanNumber, scanSpace, hspace, hsign]
  simp only [h, Option.map_some]

theorem scanNumber_fmtFixed {n : ℕ} (hn : 0 < n) (q : ℚ) {t : List UInt8} (ht : EndsNumber t) :
    scanNumber (fmtFixed n q ++ t) = some (roundFixed n q, t) := by
  have h0 : (0 : ℤ) ≤ roundHalfEven (|q| * 10 ^ n) := le_roundHalfEven (by push_cast; positivity)
  obtain ⟨m, hm⟩ := Int.eq_ofNat_of_zero_le h0
  have hpad : padDigits n m ≠ [] := by
    rw [← List.length_pos_iff, padDigits_length]
    exact hn
  have hnum := takeNumber_digits (fun c hc => isDigit_of_mem_natText hc) (natText_ne_nil (m / 10 ^ n))
    (fun c hc => isDigit_of_mem_padDigits (k := n) (n := m) hc) ht
  rw [if_neg hpad, split_digits, List.append_assoc] at hnum
  have hread := scanNumber_of_takeNumber (decide (q < 0)) (fun c hc => isDigit_of_mem_natText hc)
    (natText_ne_nil (m / 10 ^ n)) hnum
  simp only [fmtFixed, roundFixed, hm, Int.toNat_natCast, hn.ne', if_false, List.append_assoc]
  rw [hread]
  simp only [decide_eq_true_eq, Int.cast_natCast]

theorem scanNumber_fmtG {n : ℕ} (hn : 0 < n) (q : ℚ) {t : List UInt8} (ht : EndsNumber t) :
    scanNumber (fmtG n q ++ t) = some (roundSig n q, t) := by
  unfold fmtG roundSig
  split_ifs with h0 hneg
  · have hdigit : ∀ c ∈ [digitByte 0], isDigit c = true := by simp
    have hnone : ∀ c ∈ ([] : List UInt8), isDigit c = true := fun c hc => absurd hc (by simp)
    have hnum := takeNumber_digits hdigit (by simp) hnone ht
    have hread := scanNumber_of_takeNumber false hdigit (by simp) (w := t)
      (by simpa only [if_true, List.append_nil] using hnum)
    rw [signText, if_neg Bool.false_ne_true, List.nil_append] at hread
    rw [hread]
    simp [valueOf, fracVal]
  all_goals
    rw [List.append_assoc]
    generalize hm : (sigDigits n |q|).1 = m
    generalize hx : (sigDigits n |q|).2 = x
    have hnum := takeNumber_sigText hn m x ht
    obtain ⟨ip, w, htext, hi, hne⟩ : ∃ ip w, sigText n m x = ip ++ w ∧
        (∀ c ∈ ip, isDigit c = true) ∧ ip ≠ [] := by
      unfold sigText
      split_ifs
      · exact ⟨_, _, List.append_assoc _ _ _, fun c hc => isDigit_of_mem_natText hc,
          natText_ne_nil _⟩
      · exact ⟨_, _, rfl, fun c hc => isDigit_of_mem_natText hc, natText_ne_nil _⟩
    rw [htext, List.append_assoc] at hnum ⊢
    rw [scanNumber_of_takeNumber _ hi hne hnum]
    simp [hneg]

/-! ## `strptime` -/

/-- The digits of a number of at most `n` more digits, as long as one more keeps it up to `hi`. -/
def takeDigits (hi : ℕ) : ℕ → ℕ → List UInt8 → ℕ × List UInt8
  | n + 1, v, c :: t =>
    if isDigit c ∧ 10 * v ≤ hi then takeDigits hi n (10 * v + digitVal c) t else (v, c :: t)
  | _, v, t => (v, t)

/-- A number from `lo` to `hi` in at most `n` digits, with blanks before it. -/
def getNumber (lo hi n : ℕ) (t : List UInt8) : Option (ℕ × List UInt8) :=
  let u := t.dropWhile (· = 32)
  if u.head?.any isDigit then
    let (v, r) := takeDigits hi n 0 u
    if lo ≤ v ∧ v ≤ hi then some (v, r) else none
  else none

theorem le_foldl_digits (ds : List UInt8) (v : ℕ) :
    v ≤ ds.foldl (fun a c => 10 * a + digitVal c) v := by
  induction ds generalizing v with
  | nil => exact le_rfl
  | cons c ds ih => exact le_trans (by omega) (ih (10 * v + digitVal c))

/-- As many digits as are allowed are all taken, if the number they make is. -/
theorem takeDigits_append {hi : ℕ} {ds t : List UInt8} (hd : ∀ c ∈ ds, isDigit c = true) (v : ℕ)
    (hle : ds.foldl (fun a c => 10 * a + digitVal c) v ≤ hi) :
    takeDigits hi ds.length v (ds ++ t) = (ds.foldl (fun a c => 10 * a + digitVal c) v, t) := by
  induction ds generalizing v with
  | nil => cases t <;> rfl
  | cons c ds ih =>
    have hmore := le_foldl_digits ds (10 * v + digitVal c)
    rw [List.foldl_cons] at hle
    have hv : 10 * v ≤ hi := by omega
    simp only [List.length_cons, List.cons_append, takeDigits, hd c (by simp), hv, and_self, if_true,
      List.foldl_cons]
    exact ih (fun d h => hd d (by simp [h])) (10 * v + digitVal c) hle

/-- What follows the digits that are taken begins with a digit, if there are more than allowed. -/
theorem takeDigits_head (hi : ℕ) {n : ℕ} {ds t : List UInt8} (hd : ∀ c ∈ ds, isDigit c = true)
    (hn : n < ds.length) (v : ℕ) : ∃ c r, (takeDigits hi n v (ds ++ t)).2 = c :: r ∧ isDigit c := by
  induction n generalizing ds v with
  | zero =>
    obtain ⟨c, cs, rfl⟩ := List.exists_cons_of_length_pos hn
    exact ⟨c, cs ++ t, rfl, hd c (by simp)⟩
  | succ n ih =>
    obtain ⟨c, cs, rfl⟩ := List.exists_cons_of_length_pos (Nat.zero_lt_of_lt hn)
    rw [List.cons_append, takeDigits]
    split
    · exact ih (fun d h => hd d (by simp [h])) (by simpa using hn) _
    · exact ⟨c, cs ++ t, rfl, hd c (by simp)⟩

theorem dropWhile_blank_digits {ds : List UInt8} (hd : ∀ c ∈ ds, isDigit c = true) (hne : ds ≠ [])
    (t : List UInt8) : (ds ++ t).dropWhile (fun c => decide (c = 32)) = ds ++ t := by
  obtain ⟨c, cs, rfl⟩ := List.exists_cons_of_ne_nil hne
  have hc : c ≠ 32 := by
    rintro rfl
    exact absurd (hd 32 (by simp)) (by decide)
  simp [hc]

theorem getNumber_digits (lo hi : ℕ) {ds t : List UInt8} (hd : ∀ c ∈ ds, isDigit c = true)
    (hne : ds ≠ []) (hlo : lo ≤ valueOf ds) (hhi : valueOf ds ≤ hi) :
    getNumber lo hi ds.length (ds ++ t) = some (valueOf ds, t) := by
  have htake : takeDigits hi ds.length 0 (ds ++ t) = (valueOf ds, t) := takeDigits_append hd 0 hhi
  have hhead : (ds ++ t).head?.any isDigit = true := by
    obtain ⟨c, cs, rfl⟩ := List.exists_cons_of_ne_nil hne
    simpa using hd c (by simp)
  simp only [getNumber, dropWhile_blank_digits hd hne, hhead, if_true, htake, hlo, hhi, and_self]

theorem getNumber_of_lt_length {lo hi n : ℕ} {ds t : List UInt8} (hd : ∀ c ∈ ds, isDigit c = true)
    (hn : n < ds.length) {v : ℕ} {r : List UInt8} (h : getNumber lo hi n (ds ++ t) = some (v, r)) :
    ∃ c u, r = c :: u ∧ isDigit c := by
  have hne : ds ≠ [] := List.ne_nil_of_length_pos (Nat.zero_lt_of_lt hn)
  obtain ⟨c, u, hrest, hc⟩ := takeDigits_head hi (t := t) hd hn 0
  simp only [getNumber, dropWhile_blank_digits hd hne] at h
  split at h
  · rw [Option.ite_none_right_eq_some, Option.some.injEq, Prod.mk.injEq] at h
    exact ⟨c, u, h.2.2.symm.trans hrest, hc⟩
  · cases h

theorem getNumber_eq_none {lo hi n : ℕ} {c : UInt8} {t : List UInt8} (hc : c ≠ 32)
    (hd : isDigit c = false) : getNumber lo hi n (c :: t) = none := by
  simp [getNumber, hc, hd]

end Lib

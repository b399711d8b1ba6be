import Mathlib.Data.Bool.AllAny
import Bewe.Lib.Single
import Bewe.Report.InfoParse

/-!
# Reading printed values

The `extract` functions of `InfoParse`, `strptime`, and `trim` on the texts that the two writers
print: a number comes back as the nearest `float` to what was printed, and a time comes back as it
was.
-/

namespace Bewe.Report

open Lib
open EmitterDb (colon carriageReturn truncate)

/-! ## White space -/

/-- A text with no white space at its ends is left as it is. -/
theorem trim_eq_self {s : Bytes} (hhead : ∀ c ∈ s.head?, isSpace c = false)
    (hlast : ∀ c ∈ s.getLast?, isSpace c = false) : trim s = s := by
  have hdrop : s.dropWhile isSpace = s := scanSpace_of_head hhead
  rw [trim, hdrop]
  rcases List.eq_nil_or_concat s with rfl | ⟨l, c, rfl⟩
  · rfl
  · have hc : isSpace c = false := hlast c (by simp)
    simp [hc]

/-- What is trimmed does not end in white space. -/
theorem getLast?_trim {s : Bytes} {c : UInt8} (h : c ∈ (trim s).getLast?) : isSpace c = false := by
  have hne : trim s ≠ [] := List.ne_nil_of_mem (List.mem_of_getLast? h)
  have hlast := List.rdropWhile_last_not isSpace (s.dropWhile isSpace) hne
  have hc : (trim s).getLast hne = c := by
    rw [List.getLast?_eq_some_getLast hne] at h
    exact Option.some.inj h
  rw [← hc]
  exact Bool.eq_false_iff.mpr hlast

theorem trim_blank (s : Bytes) : trim (32 :: s) = trim s := by
  simp [trim, isSpace]

theorem trim_concat (s : Bytes) {c : UInt8} (hc : isSpace c = true) : trim (s ++ [c]) = trim s := by
  by_cases hs : ∀ d ∈ s, isSpace d = true
  · have h1 : s.dropWhile isSpace = [] := List.dropWhile_eq_nil_iff.mpr hs
    have h2 : (s ++ [c]).dropWhile isSpace = [] := by
      refine List.dropWhile_eq_nil_iff.mpr fun d hd => ?_
      rcases List.mem_append.mp hd with hd | hd
      · exact hs d hd
      · rwa [List.mem_singleton.mp hd]
    rw [trim, trim, h1, h2]
  · have hne : s.dropWhile isSpace ≠ [] := by
      rw [ne_eq, List.dropWhile_eq_nil_iff]
      exact hs
    rw [trim, List.dropWhile_append, if_neg (by simpa using hne), List.rdropWhile_concat_pos _ _ _ hc,
      trim]

/-! ## Numbers -/

/-- The rounding of a `double` changes it no more. -/
theorem double_double (q : ℚ) : double (double q) = double q := roundBits_idem (by norm_num) q

theorem abs_double_sub_le_mul {q : ℚ} (hq : 0 ≤ q) : |double q - q| ≤ q / 2 ^ 53 := by
  have h := abs_roundBits_sub_le_mul 53 q
  rw [abs_of_nonneg hq, zpow_neg, mul_comm, ← div_eq_mul_inv] at h
  exact_mod_cast h

theorem abs_float_sub_le_mul {q : ℚ} (hq : 0 ≤ q) : |float q - q| ≤ q / 2 ^ 24 := by
  have h := abs_roundBits_sub_le_mul 24 q
  rw [abs_of_nonneg hq, zpow_neg, mul_comm, ← div_eq_mul_inv] at h
  exact_mod_cast h

theorem double_nonneg {q : ℚ} (hq : 0 ≤ q) : 0 ≤ double q := by
  have h := abs_le.1 (abs_double_sub_le_mul hq)
  linarith [h.1, div_le_self hq (by norm_num : (1 : ℚ) ≤ 2 ^ 53)]

/-- A number that is not negative is printed as digits, a point, and digits. -/
theorem exists_fmtFixed {n : ℕ} (hn : 0 < n) {q : ℚ} (hq : 0 ≤ q) :
    ∃ a m, fmtFixed n q = natText a ++ dotByte :: padDigits n m := by
  refine ⟨(roundHalfEven (|q| * 10 ^ n)).toNat / 10 ^ n, (roundHalfEven (|q| * 10 ^ n)).toNat, ?_⟩
  simp only [fmtFixed, not_lt.mpr hq, decide_false, signText, Bool.false_eq_true, if_false, hn.ne',
    List.nil_append]

theorem scanUnit_fmtFixed {n : ℕ} (hn : 0 < n) (q : ℚ) {u : Bytes} (hu : ∀ c ∈ u, isSpace c = false)
    (hne : u ≠ []) (hlen : u.length ≤ 15) :
    scanUnit (fmtFixed n q ++ 32 :: u) = some (double (roundFixed n q), InfoParse.lower u) := by
  have hends : EndsNumber (32 :: u) := by
    intro c hc
    obtain rfl : 32 = c := by simpa using hc
    decide
  have hword : scanWord 15 (32 :: u) = some (u, []) := by
    have hblank : scanWord 15 (32 :: u) = scanWord 15 u := by simp only [scanWord, scanSpace_blank]
    have hread := scanWord_append (t := []) hu hne hlen (by simp)
    rw [hblank]
    rwa [List.append_nil] at hread
  simp only [scanUnit, scanDouble_fmtFixed hn q hends, Option.map_some, hword, Option.getD_some]
  rfl

/-- The `float` that is read where `%.nf` was printed. -/
def shown (n : ℕ) (q : ℚ) : ℚ := float (double (roundFixed n q))

theorem extractFreqMhz_fmtFixed {n : ℕ} (hn : 0 < n) (q : ℚ) :
    extractFreqMhz (fmtFixed n q ++ ascii " MHz") = some (shown n q) := by
  have hread := scanUnit_fmtFixed hn q (u := ascii "MHz") (List.all_iff_forall_prop.1 rfl)
    (by decide) (by decide)
  rw [extractFreqMhz, show ascii " MHz" = 32 :: ascii "MHz" from rfl, hread, Option.map_some]
  have h1 : contains (ascii "ghz") (InfoParse.lower (ascii "MHz")) = false := by decide
  have h2 : contains (ascii "khz") (InfoParse.lower (ascii "MHz")) = false := by decide
  have h3 : contains (ascii "mhz") (InfoParse.lower (ascii "MHz")) = true := by decide
  simp only [h1, h2, h3, if_true, Bool.false_eq_true, if_false, mul_one, double_double, shown]

theorem extractBwKhz_fmtFixed {n : ℕ} (hn : 0 < n) (q : ℚ) :
    extractBwKhz (fmtFixed n q ++ ascii " kHz") = some (shown n q) := by
  have hread := scanUnit_fmtFixed hn q (u := ascii "kHz") (List.all_iff_forall_prop.1 rfl)
    (by decide) (by decide)
  rw [extractBwKhz, show ascii " kHz" = 32 :: ascii "kHz" from rfl, hread, Option.map_some]
  have h1 : contains (ascii "mhz") (InfoParse.lower (ascii "kHz")) = false := by decide
  have h2 : contains (ascii "khz") (InfoParse.lower (ascii "kHz")) = true := by decide
  simp only [h1, h2, if_true, Bool.false_eq_true, if_false, mul_one, double_double, shown]

/-- The whole seconds of a duration as it is printed. -/
def wholeSeconds (q : ℚ) : UInt32 :=
  UInt32.ofInt (truncate (double (double (roundFixed 1 q) + 1 / 2)))

theorem extractDurationS_fmtFixed {q : ℚ} (hq : 0 ≤ q) :
    extractDurationS (fmtFixed 1 q ++ ascii " s") = some (wholeSeconds q) := by
  -- the number is followed by a point, not by a colon
  obtain ⟨a, m, htext⟩ := exists_fmtFixed one_pos hq
  have hpoint : EndsDigits (dotByte :: (padDigits 1 m ++ ascii " s")) := by
    intro c hc
    obtain rfl : dotByte = c := by simpa using hc
    decide
  have hint : scanInt (fmtFixed 1 q ++ ascii " s") =
      some ((a : ℤ), dotByte :: (padDigits 1 m ++ ascii " s")) := by
    rw [htext, List.append_assoc, List.cons_append,
      scanInt_digits (fun c hc => isDigit_of_mem_natText hc) (natText_ne_nil a) hpoint,
      valueOf_natText]
  have hcolon : ∀ t, scanByte colon (dotByte :: t) = none := fun t => rfl
  have hhms : scanHms (fmtFixed 1 q ++ ascii " s") = none := by
    simp only [scanHms, hint, Option.bind_eq_bind, Option.bind_some, hcolon, Option.bind_none]
  have hms : scanMs (fmtFixed 1 q ++ ascii " s") = none := by
    simp only [scanMs, hint, Option.bind_eq_bind, Option.bind_some, hcolon, Option.bind_none]
  have hread := scanUnit_fmtFixed one_pos q (u := ascii "s") (List.all_iff_forall_prop.1 rfl)
    (by decide) (by decide)
  have h1 : ¬ (contains (ascii "min") (InfoParse.lower (ascii "s")) = true ∨
      InfoParse.lower (ascii "s") = ascii "m") := by decide
  have h2 : ¬ (InfoParse.lower (ascii "s") = ascii "h" ∨
      contains (ascii "hour") (InfoParse.lower (ascii "s")) = true) := by decide
  rw [show ascii " s" = 32 :: ascii "s" from rfl] at hhms hms ⊢
  simp only [extractDurationS, hhms, hms, hread, Option.map_some, h1, h2, if_false, mul_one,
    double_double, wholeSeconds]

/-! ## Times -/

theorem isDigit_of_mem_twoDigits {z : ℤ} {c : UInt8} (h : c ∈ twoDigits z) : isDigit c = true :=
  isDigit_of_mem_padDigits h

theorem twoDigits_ne_nil (z : ℤ) : twoDigits z ≠ [] := by
  rw [← List.length_pos_iff, twoDigits, padDigits_length]
  norm_num

/-- Two digits denote a number below one hundred. -/
theorem valueOf_twoDigits {z : ℤ} (h0 : 0 ≤ z) (h1 : z < 100) : valueOf (twoDigits z) = z.toNat := by
  rw [twoDigits, valueOf_padDigits, Nat.mod_eq_of_lt (by omega)]

theorem scanInt_twoDigits {z : ℤ} (h0 : 0 ≤ z) (h1 : z < 100) {t : Bytes} (ht : EndsDigits t) :
    scanInt (twoDigits z ++ t) = some (z, t) := by
  rw [scanInt_digits (fun c => isDigit_of_mem_twoDigits) (twoDigits_ne_nil z) ht,
    valueOf_twoDigits h0 h1, Int.toNat_of_nonneg h0]

theorem getNumber_twoDigits (lo hi : ℕ) {z : ℤ} (h0 : 0 ≤ z) (h1 : z < 100) (hlo : lo ≤ z.toNat)
    (hhi : z.toNat ≤ hi) (t : Bytes) : getNumber lo hi 2 (twoDigits z ++ t) = some (z.toNat, t) := by
  have hlen : (twoDigits z).length = 2 := by rw [twoDigits, padDigits_length]
  have hread := getNumber_digits lo hi (t := t)
    (fun c => isDigit_of_mem_twoDigits (z := z)) (twoDigits_ne_nil z)
    (by rwa [valueOf_twoDigits h0 h1]) (by rwa [valueOf_twoDigits h0 h1])
  rwa [hlen, valueOf_twoDigits h0 h1] at hread

/-- A text that begins with a byte that is no digit ends a run of digits. -/
theorem endsDigits_cons {c : UInt8} (h : isDigit c = false) (t : Bytes) : EndsDigits (c :: t) := by
  intro d hd
  obtain rfl : c = d := by simpa using hd
  exact h

theorem scanHms_hmsText {tm : Tm} (h : tm.Valid) {z : Bytes} (hz : EndsDigits z) :
    scanHms (hmsText tm ++ z) = some (tm.hour, tm.min, tm.sec) := by
  have hcolon := fun t => endsDigits_cons (c := colon) rfl t
  have hh := scanInt_twoDigits h.hour_nonneg (by linarith [h.hour_lt])
    (hcolon (twoDigits tm.min ++ colon :: (twoDigits tm.sec ++ z)))
  have hm := scanInt_twoDigits h.min_nonneg (by linarith [h.min_lt])
    (hcolon (twoDigits tm.sec ++ z))
  have hs := scanInt_twoDigits h.sec_nonneg (by linarith [h.sec_lt]) hz
  have htext : hmsText tm ++ z = twoDigits tm.hour ++
      colon :: (twoDigits tm.min ++ colon :: (twoDigits tm.sec ++ z)) := by
    simp only [hmsText, List.append_assoc]
    rfl
  simp only [scanHms, htext, hh, hm, hs, scanByte, if_true, Option.bind_eq_bind, Option.bind_some]

/-- The name of a month is a word of three letters that is found again. -/
theorem monthNames_spec : ∀ i < 12, (∀ c ∈ ascii (monthNames.getD i ""), isSpace c = false) ∧
    (ascii (monthNames.getD i "")).length = 3 ∧
    (monthNames.findIdx? fun name =>
      InfoParse.lower (ascii (monthNames.getD i "")) = InfoParse.lower (ascii name)) = some i := by
  have hall : ∀ i < 12, (ascii (monthNames.getD i "")).all (fun c => isSpace c = false) = true ∧
      (ascii (monthNames.getD i "")).length = 3 ∧
      (monthNames.findIdx? fun name =>
        InfoParse.lower (ascii (monthNames.getD i "")) = InfoParse.lower (ascii name)) = some i := by
    decide
  intro i hi
  obtain ⟨hspace, hlen, hfind⟩ := hall i hi
  exact ⟨List.all_iff_forall_prop.1 hspace, hlen, hfind⟩

/-- `%b %d, %Y` is read back by ` %3s %d , %d`. -/
theorem scanDay_dayText {tm : Tm} (h : tm.Valid) (hy : 0 ≤ tm.year) :
    scanDay (dayText tm) = some (ascii (monthNames.getD tm.mon.toNat ""), tm.mday, tm.year) := by
  obtain ⟨hspace, hlen, -⟩ := monthNames_spec tm.mon.toNat (by have := h.mon_lt; omega)
  have hne : ascii (monthNames.getD tm.mon.toNat "") ≠ [] := by
    rw [← List.length_pos_iff, hlen]
    norm_num
  have hword := scanWord_append (t := 32 :: (twoDigits tm.mday ++ 44 :: 32 :: natText tm.year.toNat))
    hspace hne hlen.le (by simp [isSpace])
  have hday := scanInt_twoDigits (z := tm.mday) (by linarith [h.mday_pos]) (by linarith [h.mday_le])
    (endsDigits_cons (c := 44) rfl (32 :: natText tm.year.toNat))
  have hcomma := scanSpace_cons (c := 44) (by decide) (32 :: natText tm.year.toNat)
  have hyear := scanInt_digits (t := []) (fun c hc => isDigit_of_mem_natText hc)
    (natText_ne_nil tm.year.toNat) (by simp [EndsDigits])
  rw [List.append_nil, valueOf_natText, Int.toNat_of_nonneg hy] at hyear
  have htext : dayText tm = ascii (monthNames.getD tm.mon.toNat "") ++
      32 :: (twoDigits tm.mday ++ 44 :: 32 :: natText tm.year.toNat) := by
    simp only [dayText, List.append_assoc]
    rfl
  simp only [scanDay, htext, hword, scanInt_blank, hday, hcomma, scanByte, if_true, hyear,
    Option.bind_eq_bind, Option.bind_some, Option.orElse_some]

/-- What `%b %d, %Y` and `%H:%M:%S` print is read back as the same time, at the offset of what
follows. -/
theorem extractStartUtc_text {tm : Tm} (h : tm.Valid) (hy : 0 ≤ tm.year) (hpos : 0 ≤ timegm tm)
    {z : Bytes} (hz : EndsDigits z) :
    extractStartUtc (dayText tm) (hmsText tm ++ z) =
      some (timegm tm - utcOffset (hmsText tm ++ z) * 3600) := by
  obtain ⟨-, -, hmonth⟩ := monthNames_spec tm.mon.toNat (by have := h.mon_lt; omega)
  have htm : (⟨tm.year, (tm.mon.toNat : ℤ), tm.mday, tm.hour, tm.min, tm.sec⟩ : Tm) = tm := by
    rw [Int.toNat_of_nonneg h.mon_nonneg]
  simp only [extractStartUtc, scanDay_dayText h hy, hmonth, scanHms_hmsText h hz, htm,
    Option.bind_eq_bind, Option.bind_some]
  rw [if_neg (by omega)]

theorem letterU_not_mem_hmsText (tm : Tm) : (85 : UInt8) ∉ hmsText tm := by
  have hdigits : ∀ z, (85 : UInt8) ∉ twoDigits z := fun z hz =>
    absurd (isDigit_of_mem_twoDigits hz) (by decide)
  have hcolon : (85 : UInt8) ∉ ascii ":" := by decide
  simp [hmsText, hdigits, hcolon]

theorem utcOffset_hmsText (tm : Tm) : utcOffset (hmsText tm) = 9 := by
  have hfind := findAfter_append (letterU_not_mem_hmsText tm) (ascii "TC") []
  rw [List.append_nil] at hfind
  rw [utcOffset, show ascii "UTC" = 85 :: ascii "TC" from rfl, hfind]
  rfl

theorem utcOffset_hmsText_utc (tm : Tm) : utcOffset (hmsText tm ++ ascii " UTC+0") = 0 := by
  have hfind := findAfter_append (letterU_not_mem_hmsText tm) (ascii "TC") (ascii " UTC+0")
  rw [utcOffset, show ascii "UTC" = 85 :: ascii "TC" from rfl, hfind]
  decide

/-- What the `.info` says of a time is read back. -/
theorem extractStartUtc_kst (t : ℕ) :
    extractStartUtc (dayText (kst t)) (hmsText (kst t)) = some (t : ℤ) := by
  have hread := extractStartUtc_text (valid_gmtime (t + 9 * 3600))
    (by linarith [le_year_gmtime (t + 9 * 3600)]) (by rw [timegm_gmtime]; positivity)
    (z := []) (by simp [EndsDigits])
  rw [List.append_nil, utcOffset_hmsText, timegm_gmtime] at hread
  have hzone : ((t + 9 * 3600 : ℕ) : ℤ) - 9 * 3600 = t := by
    push_cast
    ring
  rw [kst, hread, hzone]

/-- What is made of the time of a `.sigmf-meta` is read back. -/
theorem extractStartUtc_utc (t : ℕ) :
    extractStartUtc (dayText (gmtime t)) (hmsText (gmtime t) ++ ascii " UTC+0") = some (t : ℤ) := by
  have hread := extractStartUtc_text (valid_gmtime t) (by linarith [le_year_gmtime t])
    (by rw [timegm_gmtime]; positivity) (z := ascii " UTC+0") (endsDigits_cons rfl _)
  rw [hread, utcOffset_hmsText_utc, timegm_gmtime, zero_mul, sub_zero]

/-- A year from 1000 to 9999 has four digits. -/
theorem length_natText_year {n : ℕ} (h0 : 1000 ≤ n) (h1 : n < 10000) : (natText n).length = 4 := by
  rw [natText, padDigits_length, Nat.log_eq_of_pow_le_of_lt_pow (m := 3) (by omega) (by omega)]

theorem lt_length_natText_year {n : ℕ} (h : 10000 ≤ n) : 4 < (natText n).length := by
  have hlog : 4 ≤ Nat.log 10 n := Nat.le_log_of_pow_le (by norm_num) (by omega)
  rw [natText, padDigits_length]
  omega

/-- `%Y-%m-%dT%H:%M:%SZ` is read back by `strptime` if the year has four digits, and not at all if
it has more. -/
theorem strptimeIso_isoText (t : ℕ) :
    strptimeIso (isoText (gmtime t)) =
      if t < 253402300800 then some (gmtime t) else none := by
  have hvalid := valid_gmtime t
  have hyear := le_year_gmtime t
  have hlt := year_gmtime_lt_iff t
  generalize gmtime t = tm at *
  have htext : isoText tm = natText tm.year.toNat ++ 45 :: (twoDigits (tm.mon + 1) ++
      45 :: (twoDigits tm.mday ++ 84 :: (twoDigits tm.hour ++ colon :: (twoDigits tm.min ++
        colon :: (twoDigits tm.sec ++ [90]))))) := by
    simp only [isoText, hmsText, List.append_assoc]
    rfl
  split_ifs with h
  · have h1 := hlt.mpr h
    have hlen := length_natText_year (n := tm.year.toNat) (by omega) (by omega)
    have hy := fun tail => getNumber_digits 0 9999 (t := tail)
      (fun c hc => isDigit_of_mem_natText hc) (natText_ne_nil tm.year.toNat) (Nat.zero_le _)
      (by rw [valueOf_natText]; omega)
    rw [hlen, valueOf_natText] at hy
    have hmon := getNumber_twoDigits 1 12 (z := tm.mon + 1)
      (by linarith [hvalid.mon_nonneg]) (by linarith [hvalid.mon_lt])
      (by have := hvalid.mon_nonneg; omega) (by have := hvalid.mon_lt; omega)
    have hday := getNumber_twoDigits 1 31 (z := tm.mday)
      (by linarith [hvalid.mday_pos]) (by linarith [hvalid.mday_le])
      (by have := hvalid.mday_pos; omega) (by have := hvalid.mday_le; omega)
    have hhour := getNumber_twoDigits 0 23 hvalid.hour_nonneg
      (by linarith [hvalid.hour_lt]) (Nat.zero_le _) (by have := hvalid.hour_lt; omega)
    have hmin := getNumber_twoDigits 0 59 hvalid.min_nonneg
      (by linarith [hvalid.min_lt]) (Nat.zero_le _) (by have := hvalid.min_lt; omega)
    have hsec := getNumber_twoDigits 0 61 hvalid.sec_nonneg
      (by linarith [hvalid.sec_lt]) (Nat.zero_le _) (by have := hvalid.sec_lt; omega)
    simp only [strptimeIso, htext, hy, scanByte, if_true, hmon, hday, hhour, hmin, hsec,
      Option.bind_eq_bind, Option.bind_some, Option.some.injEq]
    have hmon0 := hvalid.mon_nonneg
    have hday0 := hvalid.mday_pos
    rw [Int.toNat_of_nonneg (by omega), Int.toNat_of_nonneg (by omega),
      Int.toNat_of_nonneg (by omega), Int.toNat_of_nonneg hvalid.hour_nonneg,
      Int.toNat_of_nonneg hvalid.min_nonneg, Int.toNat_of_nonneg hvalid.sec_nonneg]
    simp
  · -- four digits are taken, and a digit stands where the dash should
    have hlong : 4 < (natText tm.year.toNat).length := lt_length_natText_year (by omega)
    rw [strptimeIso, htext]
    generalize 45 :: (twoDigits (tm.mon + 1) ++ _) = tail
    cases hget : getNumber 0 9999 4 (natText tm.year.toNat ++ tail) with
    | none => rfl
    | some p =>
      obtain ⟨v, r⟩ := p
      obtain ⟨c, u, rfl, hc⟩ := getNumber_of_lt_length
        (fun c hc => isDigit_of_mem_natText hc) hlong hget
      have hdash : c ≠ 45 := by
        rintro rfl
        exact absurd hc (by decide)
      simp [scanByte, hdash]

end Bewe.Report

import Bewe.Hist.Format
import Bewe.Lib.Find
import Bewe.Lib.Single

/-!
# The names of recordings

A recording is named when it begins (`buildHistFilenameLive`), after the station, the day, the
frequency and the minute, and named anew when it ends (`buildHistFilenameFinalize`). A name that the
128 bytes of the formatter hold is a stem and `-LIVE.bewehist`, and the end puts the minute in which
it ended in the place of `LIVE`. `stem_inj` says that the stem tells the minute of the beginning: the
calendar gives different days different dates.
-/

namespace Bewe.Hist

open Lib

/-! ## Dates -/

/-- The years of an era before a day of it, `yoe` times 365 and what is left, as `civilOfDays` has
it. -/
def eraDays (doe : ℕ) : ℕ := doe - doe / 1460 + doe / 36524 - doe / 146096

/-- The day of an era on which a year of it begins. -/
def yearStart (yoe : ℕ) : ℕ := 365 * yoe + yoe / 4 - yoe / 100

theorem eraDays_mono {d e : ℕ} (h : d ≤ e) : eraDays d ≤ eraDays e := by
  induction e, h using Nat.le_induction with
  | base => exact le_refl _
  | succ e _ ih =>
    refine ih.trans ?_
    unfold eraDays
    omega

theorem eraDays_yearStart : ∀ y < 400, 365 * y ≤ eraDays (yearStart y) ∧
    eraDays (yearStart (y + 1) - 1) < 365 * (y + 1) := by
  decide +kernel

/-- The year of a day of an era is the one in which it lies. -/
theorem yoe_spec (doe : ℕ) (h : doe < 146097) :
    eraDays doe / 365 < 400 ∧ yearStart (eraDays doe / 365) ≤ doe ∧
      doe ≤ yearStart (eraDays doe / 365) + 365 := by
  have hlast : eraDays doe ≤ 145999 := eraDays_mono (e := 146096) (by omega)
  have hyoe : eraDays doe / 365 < 400 := by omega
  refine ⟨hyoe, ?_, ?_⟩
  · by_contra hlt
    generalize hy : eraDays doe / 365 = y at *
    cases y with
    | zero => exact hlt (Nat.zero_le _)
    | succ y =>
      have hend := (eraDays_yearStart y (by omega)).2
      have hmono := eraDays_mono (d := doe) (e := yearStart (y + 1) - 1) (by omega)
      omega
  · by_contra hge
    generalize hy : eraDays doe / 365 = y at *
    rcases Nat.lt_or_ge (y + 1) 400 with hnext | hnext
    · have hbegin := (eraDays_yearStart (y + 1) hnext).1
      have hlong : yearStart (y + 1) ≤ yearStart y + 366 := by
        unfold yearStart
        omega
      have hmono := eraDays_mono (d := yearStart (y + 1)) (e := doe) (by omega)
      omega
    · have hy399 : y = 399 := by omega
      have hstart : yearStart 399 = 145731 := by decide
      rw [hy399, hstart] at hge
      omega

theorem civilOfDays_inj {d e : ℕ} (h : civilOfDays d = civilOfDays e) : d = e := by
  have hd := yoe_spec ((d + 719468) % 146097) (Nat.mod_lt _ (by decide))
  have he := yoe_spec ((e + 719468) % 146097) (Nat.mod_lt _ (by decide))
  have hdera := Nat.div_add_mod (d + 719468) 146097
  have heera := Nat.div_add_mod (e + 719468) 146097
  simp only [civilOfDays, Prod.mk.injEq] at h
  obtain ⟨hyear, hmonth, hday⟩ := h
  unfold eraDays yearStart at hd he
  generalize (d + 719468) % 146097 = doe at *
  generalize (e + 719468) % 146097 = doe' at *
  generalize (doe - doe / 1460 + doe / 36524 - doe / 146096) / 365 = yoe at *
  generalize (doe' - doe' / 1460 + doe' / 36524 - doe' / 146096) / 365 = yoe' at *
  generalize (d + 719468) / 146097 = era at *
  generalize (e + 719468) / 146097 = era' at *
  obtain ⟨hyoe, hbegin, hend⟩ := hd
  obtain ⟨hyoe', hbegin', hend'⟩ := he
  have hmp : (5 * (doe - (365 * yoe + yoe / 4 - yoe / 100)) + 2) / 153 < 12 := by omega
  have hmp' : (5 * (doe' - (365 * yoe' + yoe' / 4 - yoe' / 100)) + 2) / 153 < 12 := by omega
  have hdoy : (5 * (doe - (365 * yoe + yoe / 4 - yoe / 100)) + 2) / 153 =
      (5 * (doe' - (365 * yoe' + yoe' / 4 - yoe' / 100)) + 2) / 153 := by
    split_ifs at hmonth <;> omega
  rw [hdoy] at hyear hday
  have hyears : yoe + era * 400 = yoe' + era' * 400 := by omega
  have hera : era = era' := by omega
  have hyoe : yoe = yoe' := by omega
  subst hera hyoe
  omega

/-- A month is one of twelve, and a day one of at most 31. -/
theorem civilOfDays_lt (d : ℕ) : (civilOfDays d).2.1 < 12 ∧ (civilOfDays d).2.2 ≤ 31 := by
  have hd := yoe_spec ((d + 719468) % 146097) (Nat.mod_lt _ (by decide))
  unfold eraDays yearStart at hd
  simp only [civilOfDays]
  generalize (d + 719468) % 146097 = doe at *
  generalize (doe - doe / 1460 + doe / 36524 - doe / 146096) / 365 = yoe at *
  obtain ⟨-, hbegin, hend⟩ := hd
  have hmp : (5 * (doe - (365 * yoe + yoe / 4 - yoe / 100)) + 2) / 153 < 12 := by omega
  refine ⟨?_, by omega⟩
  split_ifs <;> omega

/-! ## Stems -/

/-- The text of a station, a date, a frequency and a time of the day. -/
def stemText (station : Bytes) (date : ℕ × ℕ × ℕ) (cf_mhz : Bytes) (hour minute : ℕ) : Bytes :=
  station ++ ascii "_" ++ [UInt8.ofNat (65 + date.2.1)] ++ twoDigits date.2.2 ++ ascii "_" ++
    monthAbbr3 date.2.1 ++ twoDigits date.2.2 ++ ascii "." ++
    (if date.1 < 10000 then padDigits 4 date.1 else natText date.1) ++ ascii "_" ++ cf_mhz ++
    ascii "MHz_" ++ twoDigits hour ++ twoDigits minute

/-- The name of a recording in front of `-LIVE.bewehist`. -/
def recordingStem (start_utc cf_hz : ℕ) (station_name : Bytes) : Bytes :=
  let utc := start_utc + 9 * 3600
  stemText (sanitizeStationHist station_name) (civilOfDays (utc / 86400))
    (fmtFixed 1 (roundBits 53 (roundBits 53 cf_hz / 10 ^ 6))) (utc % 86400 / 3600)
    (utc % 3600 / 60)

theorem buildHistFilenameLive_eq (start_utc cf_hz : ℕ) (station_name : Bytes) :
    buildHistFilenameLive start_utc cf_hz station_name =
      (recordingStem start_utc cf_hz station_name ++ liveTail).take 127 := by
  rcases hdate : civilOfDays ((start_utc + 9 * 3600) / 86400) with ⟨y, m, d⟩
  simp only [buildHistFilenameLive, recordingStem, stemText, hdate]

/-- A name that is shorter than the formatter's buffer is whole. -/
theorem live_of_length {start_utc cf_hz : ℕ} {station_name : Bytes}
    (h : (buildHistFilenameLive start_utc cf_hz station_name).length < 127) :
    buildHistFilenameLive start_utc cf_hz station_name =
      recordingStem start_utc cf_hz station_name ++ liveTail := by
  rw [buildHistFilenameLive_eq, List.length_take] at h
  rw [buildHistFilenameLive_eq, List.take_of_length_le (by omega)]

/-- What stands at the end of a text occurs there for the last time. -/
theorem rfind_append_self (a sub : Bytes) : rfind sub (a ++ sub) = some a.length := by
  refine rfind_eq_some.2 ⟨mem_occurrences.2 ⟨?_, ?_⟩, fun j hj => ?_⟩
  · rw [List.length_append]
    omega
  · rw [List.drop_left]
  · have hlt := (mem_occurrences.1 hj).1
    rw [List.length_append] at hlt
    omega

theorem finalize_append_liveTail (a : Bytes) (end_utc : ℕ) :
    buildHistFilenameFinalize (a ++ liveTail) end_utc = a ++ endTail end_utc := by
  unfold buildHistFilenameFinalize
  simp only [rfind_append_self, List.take_left]

theorem twoDigits_inj {m n : ℕ} (hm : m < 100) (hn : n < 100) (h : twoDigits m = twoDigits n) :
    m = n := by
  have hval := congrArg valueOf h
  rw [twoDigits, twoDigits, valueOf_padDigits, valueOf_padDigits] at hval
  omega

theorem yearText_inj {m n : ℕ} (h : (if m < 10000 then padDigits 4 m else natText m) =
    if n < 10000 then padDigits 4 n else natText n) : m = n := by
  have hval : ∀ k : ℕ, valueOf (if k < 10000 then padDigits 4 k else natText k) = k := by
    intro k
    split_ifs with hk
    · rw [valueOf_padDigits, Nat.mod_eq_of_lt (by omega)]
    · exact valueOf_natText k
  rw [← hval m, h, hval n]

theorem underscore_not_mem_yearText (n : ℕ) :
    (95 : UInt8) ∉ (if n < 10000 then padDigits 4 n else natText n) := by
  intro h
  split_ifs at h
  · exact absurd (isDigit_of_mem_padDigits h) (by decide)
  · exact absurd (isDigit_of_mem_natText h) (by decide)

theorem stemText_inj {station cf_mhz cf_mhz' : Bytes} {date date' : ℕ × ℕ × ℕ}
    {hour hour' minute minute' : ℕ} (hdate : date.2.1 < 12 ∧ date.2.2 ≤ 31)
    (hdate' : date'.2.1 < 12 ∧ date'.2.2 ≤ 31) (hclock : hour < 100 ∧ minute < 100)
    (hclock' : hour' < 100 ∧ minute' < 100)
    (h : stemText station date cf_mhz hour minute = stemText station date' cf_mhz' hour' minute') :
    date = date' ∧ hour = hour' ∧ minute = minute' := by
  unfold stemText at h
  simp only [List.append_assoc, List.append_cancel_left_eq, List.cons_append, List.nil_append,
    List.cons.injEq] at h
  -- month and day stand first
  obtain ⟨hletter, h⟩ := h
  obtain ⟨hday, h⟩ := List.append_inj h (by simp only [twoDigits, padDigits_length])
  have hmonth : date.2.1 = date'.2.1 := by
    have hnat := congrArg UInt8.toNat hletter
    simp only [UInt8.toNat_ofNat'] at hnat
    omega
  have hday := twoDigits_inj (by omega) (by omega) hday
  rw [hmonth, hday] at h
  simp only [List.append_cancel_left_eq] at h
  -- then the year, up to the next underscore
  have hyear := eq_of_append_cons (underscore_not_mem_yearText _) (underscore_not_mem_yearText _) h
  rw [hyear] at h
  have hyear := yearText_inj hyear
  simp only [List.append_cancel_left_eq] at h
  -- hour and minute stand last
  rw [← List.append_assoc cf_mhz, ← List.append_assoc cf_mhz'] at h
  obtain ⟨-, h⟩ := List.append_inj' h (by simp only [List.length_append, twoDigits, padDigits_length])
  obtain ⟨hhour, hminute⟩ := List.append_inj h (by simp only [twoDigits, padDigits_length])
  exact ⟨Prod.ext hyear (Prod.ext hmonth hday), twoDigits_inj hclock.1 hclock'.1 hhour,
    twoDigits_inj hclock.2 hclock'.2 hminute⟩

/-- The stem tells the minute in which the recording began. -/
theorem stem_inj {s s' cf cf' : ℕ} {station : Bytes}
    (h : recordingStem s cf station = recordingStem s' cf' station) :
    (s + 9 * 3600) / 60 = (s' + 9 * 3600) / 60 := by
  obtain ⟨hdate, hhour, hminute⟩ := stemText_inj (civilOfDays_lt _) (civilOfDays_lt _)
    ⟨by omega, by omega⟩ ⟨by omega, by omega⟩ h
  have hday := civilOfDays_inj hdate
  omega

end Bewe.Hist

import Bewe.Report.InfoText
import Bewe.Report.SigmfMeta

/-!
# The same sighting from either sidecar

Whether Central makes the same sighting of a recording from its `.sigmf-meta` as from its `.info`.
`InfoParse::parse` maps neither the station nor the tags of a `.sigmf-meta`, does not trim its
strings, and searches it for keys as text, and `strptime` takes no year of five digits. So the
sightings are the same exactly where none of this shows (`sameSighting_iff`), and not for a
recording whose station is not its reporter.
-/

namespace Bewe.Report

open Lib
open EmitterDb (quote truncate)

/-- Numbers that agree up to a step of the last digit printed, or to the precision of a `float`. -/
def Near (tol x y : ℚ) : Prop := |x - y| ≤ tol + (|x| + |y|) / 2 ^ 23

/-- Two sightings of one report: the frequency agrees to the four decimals of a `.info`, the
bandwidth to its one, and the other fields are the same. -/
structure SameSighting (s t : Sighting) : Prop where
  sighting_id : s.sighting_id = t.sighting_id
  filename : s.filename = t.filename
  reporter : s.reporter = t.reporter
  station : s.station = t.station
  freq_mhz : Near (1 / 10 ^ 4) s.freq_mhz t.freq_mhz
  bw_khz : Near (1 / 10) s.bw_khz t.bw_khz
  modulation : s.modulation = t.modulation
  protocol : s.protocol = t.protocol
  target : s.target = t.target
  tags : s.tags = t.tags
  operator_name : s.operator_name = t.operator_name
  start_utc : s.start_utc = t.start_utc
  duration_s : s.duration_s = t.duration_s
  emitter_uid : s.emitter_uid = t.emitter_uid
  match_status : s.match_status = t.match_status

/-- The recordings whose sidecars give the same sighting: the station is blank or the reporter, there
are no tags, no string that is used has white space at its ends, the time is before the year 10000,
and no value is, or ends in a quote and, a key that stands behind it; where it is the key of a
number, the number is below what a `.info` shows as two steps of its last digit, or as half a
second. -/
structure Alike (r : Recording) (reporter : Bytes) : Prop where
  station : trim r.station = [] ∨ trim r.station = reporter
  tags : trim r.tags = []
  modulation : ¬ Lost r.toMeta "bewe:modulation" ∧ trim r.modulation = r.modulation
  operator : ¬ Lost r.toMeta "bewe:operator" ∧ trim r.op = r.op
  target : ¬ Lost r.toMeta "bewe:target" ∧ trim r.target = r.target
  protocol : ¬ Lost r.toMeta "bewe:protocol" ∧ trim r.protocol = r.protocol
  start : ¬ Lost r.toMeta "core:datetime" ∧ r.start_unix < 253402300800
  frequency : Lost r.toMeta "core:frequency" →
    double (r.center_freq_hz.toNat / 10 ^ 6) * 10 ^ 4 < 3 / 2
  bandwidth : Lost r.toMeta "bewe:bandwidth_hz" → double (r.bandwidth_hz / 1000) * 10 < 3 / 2
  duration : Lost r.toMeta "bewe:duration_s" → r.duration_s * 10 ≤ 9 / 2

/-! ## Numbers -/

/-- The bounds of a rounding of a number that is not negative. -/
theorem double_mem {q : ℚ} (hq : 0 ≤ q) :
    q - q / 2 ^ 53 ≤ double q ∧ double q ≤ q + q / 2 ^ 53 := by
  have h := abs_le.1 (abs_double_sub_le_mul hq)
  exact ⟨by linarith [h.1], by linarith [h.2]⟩

@[inherit_doc double_mem]
theorem float_mem {q : ℚ} (hq : 0 ≤ q) : q - q / 2 ^ 24 ≤ float q ∧ float q ≤ q + q / 2 ^ 24 := by
  have h := abs_le.1 (abs_float_sub_le_mul hq)
  exact ⟨by linarith [h.1], by linarith [h.2]⟩

/-- What is read is not negative if what was printed is not. -/
theorem shown_nonneg (n : ℕ) {q : ℚ} (hq : 0 ≤ q) : 0 ≤ shown n q := by
  have h0 := double_nonneg (roundFixed_nonneg n hq)
  have hfloat := (float_mem h0).1
  have hsmall := div_le_self h0 (by norm_num : (1 : ℚ) ≤ 2 ^ 24)
  rw [shown]
  linarith

/-- What is read is as near to the number printed as the last digit, but for the precision of a
`float`. -/
theorem shown_mem (n : ℕ) {q : ℚ} (hq : 0 ≤ q) :
    roundFixed n q * (1 - 1 / 2 ^ 24 - 1 / 2 ^ 52) ≤ shown n q ∧
      shown n q ≤ roundFixed n q * (1 + 1 / 2 ^ 24 + 1 / 2 ^ 52) := by
  have hr := roundFixed_nonneg n hq
  have hd := double_mem hr
  have hf := float_mem (double_nonneg hr)
  rw [shown]
  constructor <;> linarith

/-- A number that is not negative is rounded to a multiple of the last digit. -/
theorem roundFixed_eq (n : ℕ) {q : ℚ} (hq : 0 ≤ q) :
    roundFixed n q = roundHalfEven (q * 10 ^ n) / 10 ^ n := by
  rw [roundFixed, if_neg (not_lt.mpr hq), one_mul, abs_of_nonneg hq]

@[simp] theorem double_zero : double 0 = 0 := by simp [double, roundBits]

@[simp] theorem roundFixed_zero (n : ℕ) : roundFixed n 0 = 0 := by
  have h0 : roundHalfEven 0 = 0 := by simpa using roundHalfEven_intCast 0
  simp [roundFixed, h0]

@[simp] theorem shown_zero (n : ℕ) : shown n 0 = 0 := by simp [shown, float, roundBits]

theorem infoMhz_eq (m : Meta) : infoMhz m = shown 4 (double (m.center_freq_hz.toNat / 10 ^ 6)) := by
  rw [infoMhz]
  split_ifs with h
  · rfl
  · have h0 : m.center_freq_hz.toNat = 0 := by
      rw [UInt64.lt_iff_toNat_lt] at h
      simpa using h
    simp [h0]

theorem infoKhz_eq {m : Meta} (h0 : 0 ≤ m.bandwidth_hz) :
    infoKhz m = shown 1 (double (m.bandwidth_hz / 1000)) := by
  rw [infoKhz]
  split_ifs with h
  · rfl
  · have hzero : m.bandwidth_hz = 0 := le_antisymm (not_lt.mp h) h0
    simp [hzero]

/-- Numbers read from two texts are near if those printed are. -/
theorem near_shown {m n : ℕ} {x y tol : ℚ} (hx : 0 ≤ x) (hy : 0 ≤ y)
    (h : |roundFixed m x - roundFixed n y| ≤ tol + (roundFixed m x + roundFixed n y) / 2 ^ 25) :
    Near tol (shown m x) (shown n y) := by
  have hmx := roundFixed_nonneg m hx
  have hny := roundFixed_nonneg n hy
  have hsx := shown_mem m hx
  have hsy := shown_mem n hy
  rw [abs_le] at h
  rw [Near, abs_of_nonneg (shown_nonneg m hx), abs_of_nonneg (shown_nonneg n hy), abs_le]
  constructor <;> linarith

/-- A frequency that is read from both sidecars is nearly the same. -/
theorem near_frequency (m : Meta) :
    Near (1 / 10 ^ 4) (mhzOf (double m.center_freq_hz.toNat)) (infoMhz m) := by
  obtain ⟨x, hx⟩ : ∃ x : ℚ, (m.center_freq_hz.toNat : ℚ) = x := ⟨_, rfl⟩
  have h0 : 0 ≤ x := hx ▸ Nat.cast_nonneg _
  rw [infoMhz_eq, mhzOf, hx]
  have h1 := double_nonneg h0
  have h2 : 0 ≤ double x / 10 ^ 6 := by positivity
  have h3 : 0 ≤ x / 10 ^ 6 := by positivity
  have hd := double_mem h0
  have hq := double_mem h2
  have hq' := double_mem h3
  have hr := abs_le.1 (abs_roundFixed_sub_le 6 (double (double x / 10 ^ 6)))
  have hr' := abs_le.1 (abs_roundFixed_sub_le 4 (double (x / 10 ^ 6)))
  refine near_shown (double_nonneg h2) (double_nonneg h3) ?_
  rw [abs_le]
  norm_num at *
  constructor <;> linarith

/-- A bandwidth that is read from both sidecars is nearly the same. -/
theorem near_bandwidth {m : Meta} (h0 : 0 ≤ m.bandwidth_hz) :
    Near (1 / 10) (khzOf (double (roundFixed 1 m.bandwidth_hz))) (infoKhz m) := by
  rw [infoKhz_eq h0, khzOf]
  generalize m.bandwidth_hz = x at h0
  have h1 := roundFixed_nonneg 1 h0
  have h2 := double_nonneg h1
  have h3 : 0 ≤ double (roundFixed 1 x) / 1000 := by positivity
  have h4 : 0 ≤ x / 1000 := by positivity
  have hp := abs_le.1 (abs_roundFixed_sub_le 1 x)
  have hd := double_mem h1
  have hq := double_mem h3
  have hq' := double_mem h4
  have hr := abs_le.1 (abs_roundFixed_sub_le 3 (double (double (roundFixed 1 x) / 1000)))
  have hr' := abs_le.1 (abs_roundFixed_sub_le 1 (double (x / 1000)))
  refine near_shown (double_nonneg h3) (double_nonneg h4) ?_
  rw [abs_le]
  norm_num at *
  constructor <;> linarith

/-- Three halves, a tie, go up to two; what is less is rounded to one or less. -/
theorem roundHalfEven_le_one_iff (q : ℚ) : roundHalfEven q ≤ 1 ↔ q < 3 / 2 := by
  have hround := abs_le.1 (abs_roundHalfEven_sub_le q)
  constructor
  · intro h
    have hcast : (roundHalfEven q : ℚ) ≤ 1 := by exact_mod_cast h
    refine lt_of_le_of_ne (by linarith [hround.1]) ?_
    rintro rfl
    have htie : roundHalfEven (3 / 2) = 2 := by decide +kernel
    omega
  · intro h
    have hcast : (roundHalfEven q : ℚ) < (2 : ℤ) := by
      push_cast
      linarith [hround.2]
    have hlt : roundHalfEven q < 2 := by exact_mod_cast hcast
    omega

/-- Nine halves, a tie, go down to four; what is more is rounded to five or more. -/
theorem roundHalfEven_le_four_iff (q : ℚ) : roundHalfEven q ≤ 4 ↔ q ≤ 9 / 2 := by
  have hround := abs_le.1 (abs_roundHalfEven_sub_le q)
  constructor
  · intro h
    have hcast : (roundHalfEven q : ℚ) ≤ 4 := by exact_mod_cast h
    linarith [hround.1]
  · intro h
    rcases h.lt_or_eq with hlt | rfl
    · have hcast : (roundHalfEven q : ℚ) < (5 : ℤ) := by
        push_cast
        linarith [hround.2]
      have hint : roundHalfEven q < 5 := by exact_mod_cast hcast
      omega
    · have htie : roundHalfEven (9 / 2) = 4 := by decide +kernel
      omega

/-- Zero is near to what a number is read as if the number is below one and a half steps of the last
digit. -/
theorem near_zero_iff (n : ℕ) {q : ℚ} (hq : 0 ≤ q) :
    Near (1 / 10 ^ n) 0 (shown n q) ↔ q * 10 ^ n < 3 / 2 := by
  have hy := shown_nonneg n hq
  have hshown := shown_mem n hq
  have hstep : (0 : ℚ) < 1 / 10 ^ n := by positivity
  have hr : roundFixed n q = roundHalfEven (q * 10 ^ n) * (1 / 10 ^ n) := by
    rw [roundFixed_eq n hq, mul_one_div]
  rw [Near, zero_sub, abs_neg, abs_zero, zero_add, abs_of_nonneg hy, ← roundHalfEven_le_one_iff]
  generalize (1 : ℚ) / 10 ^ n = e at *
  constructor
  · intro h
    by_contra! hlt
    have hcast : (2 : ℚ) ≤ roundHalfEven (q * 10 ^ n) := by exact_mod_cast hlt
    have htwo : 2 * e ≤ roundFixed n q := by
      rw [hr]
      gcongr
    linarith [hshown.1]
  · intro h
    have hcast : (roundHalfEven (q * 10 ^ n) : ℚ) ≤ 1 := by exact_mod_cast h
    have hone : roundFixed n q ≤ 1 * e := by
      rw [hr]
      gcongr
    linarith [hshown.2]

/-! ## Durations -/

/-- The seconds before they are cut: what is read of a duration, and one half. -/
theorem wholeSeconds_double {q : ℚ} (hq : 0 ≤ q) (hlt : q < 2 ^ 32) :
    wholeSeconds (double (roundFixed 1 q)) = wholeSeconds q := by
  have hr := roundFixed_nonneg 1 hq
  have hd := double_mem hr
  have hle := roundFixed_le 1 q
  have hfix : roundFixed 1 (double (roundFixed 1 q)) = roundFixed 1 q := by
    rw [roundFixed_eq 1 (double_nonneg hr)]
    have hz : roundHalfEven (double (roundFixed 1 q) * 10 ^ 1) = roundHalfEven (q * 10 ^ 1) := by
      refine roundHalfEven_eq_of_abs_lt ?_
      have hint : (roundHalfEven (q * 10 ^ 1) : ℚ) = roundFixed 1 q * 10 ^ 1 := by
        rw [roundFixed_eq 1 hq, div_mul_cancel₀ _ (by norm_num)]
      rw [hint, abs_lt]
      constructor <;> linarith
    rw [hz, ← roundFixed_eq 1 hq]
  rw [wholeSeconds, hfix, wholeSeconds]

theorem wholeSeconds_zero : wholeSeconds 0 = 0 := by
  have hhalf : truncate (double (0 + 1 / 2)) = 0 := by decide +kernel
  rw [wholeSeconds, roundFixed_zero, double_zero, hhalf]
  rfl

/-- What is at least one half and has no more than one decimal stays at least one half, and with one
half more at least one. -/
theorem one_le_double_add {k : ℤ} (hk : 5 ≤ k) : 1 ≤ double (double (k / 10) + 1 / 2) := by
  rcases hk.eq_or_lt with rfl | hlt
  · -- the rounding of one half is exact, which its bounds do not say
    decide +kernel
  · have hcast : (6 : ℚ) ≤ k := by exact_mod_cast hlt
    have hd := double_mem (q := (k : ℚ) / 10) (by linarith)
    have hs := double_mem (q := double ((k : ℚ) / 10) + 1 / 2) (by linarith [hd.1])
    linarith [hd.1, hs.1]

/-- A duration is no whole seconds if it is printed as less than one half. -/
theorem wholeSeconds_eq_zero_iff {q : ℚ} (hq : 0 ≤ q) (hlt : q < 2 ^ 32 - 1) :
    wholeSeconds q = 0 ↔ q * 10 ≤ 9 / 2 := by
  have hr := roundFixed_nonneg 1 hq
  have hr1 := (abs_le.1 (abs_roundFixed_sub_le 1 q)).2
  have hd0 := double_nonneg hr
  have hd := double_mem hr
  have hs := double_mem (q := double (roundFixed 1 q) + 1 / 2) (by linarith)
  have hs0 : 0 ≤ double (double (roundFixed 1 q) + 1 / 2) := double_nonneg (by linarith)
  have hs1 : double (double (roundFixed 1 q) + 1 / 2) < 2 ^ 32 := by
    norm_num at hr1 hs hd hlt ⊢
    linarith [hs.2, hd.2]
  have hz : roundFixed 1 q = roundHalfEven (q * 10) / 10 := by
    rw [roundFixed_eq 1 hq, pow_one]
  -- the cast is zero exactly where the sum is below one
  have hcast : wholeSeconds q = 0 ↔ double (double (roundFixed 1 q) + 1 / 2) < 1 := by
    have hfloor0 : 0 ≤ ⌊double (double (roundFixed 1 q) + 1 / 2)⌋ := Int.floor_nonneg.mpr hs0
    have hfloor1 : ⌊double (double (roundFixed 1 q) + 1 / 2)⌋ < 2 ^ 32 := by
      rw [Int.floor_lt]
      exact_mod_cast hs1
    rw [wholeSeconds, truncate, if_neg (not_lt.mpr hs0), UInt32.ofInt,
      Int.emod_eq_of_lt hfloor0 hfloor1, ← UInt32.toNat_inj, UInt32.toNat_ofNat', UInt32.toNat_zero,
      Nat.mod_eq_of_lt (by omega)]
    constructor
    · intro h
      have hle : ⌊double (double (roundFixed 1 q) + 1 / 2)⌋ < 1 := by omega
      simpa using Int.floor_lt.mp hle
    · intro h
      have hle : ⌊double (double (roundFixed 1 q) + 1 / 2)⌋ < 1 := Int.floor_lt.mpr (by simpa using h)
      omega
  rw [hcast, ← roundHalfEven_le_four_iff]
  constructor
  · intro h
    by_contra! hfive
    have hone := one_le_double_add (k := roundHalfEven (q * 10)) hfive
    rw [← hz] at hone
    linarith
  · intro h
    have hle : (roundHalfEven (q * 10) : ℚ) ≤ 4 := by exact_mod_cast h
    linarith [hs.2, hd.2]

theorem infoSeconds_eq {m : Meta} (h0 : 0 ≤ m.duration_s) : infoSeconds m = wholeSeconds m.duration_s := by
  rw [infoSeconds]
  split_ifs with h
  · rfl
  · have hzero : m.duration_s = 0 := le_antisymm (not_lt.mp h) h0
    rw [hzero, wholeSeconds_zero]

/-! ## Sightings -/

theorem trim_ne_colon (v : Bytes) : trim v ≠ ascii ": " := by
  intro h
  have hlast := getLast?_trim (s := v) (c := 32) (by rw [h]; rfl)
  exact absurd hlast (by decide)

/-- A string is the same in both sightings if it is not lost and has no white space at its ends. -/
theorem readStr_eq_trim_iff (m : Meta) (k : String) (v : Bytes) :
    readStr m k v = trim v ↔ ¬ Lost m k ∧ trim v = v := by
  unfold readStr
  split_ifs with h
  · simp only [h, not_true_eq_false, false_and, iff_false]
    exact (trim_ne_colon v).symm
  · simp only [h, not_false_eq_true, true_and]
    exact eq_comm

/-- Both sidecars of a recording give the same sighting exactly if it is `Alike`. -/
theorem sameSighting_iff (sightingIdFrom : Bytes → Bytes → Bytes) (filename reporter : Bytes)
    (r : Recording) :
    SameSighting (sightingOf sightingIdFrom filename reporter (writeMeta r.toMeta))
        (sightingOf sightingIdFrom filename reporter (infoText r.stem r.toMeta)) ↔
      Alike r reporter := by
  have hpos := r.start_pos
  have hfreq : Near (1 / 10 ^ 4)
      (mhzOf (readNum r.toMeta "core:frequency" (double r.center_freq_hz.toNat)))
      (infoMhz r.toMeta) ↔
        (Lost r.toMeta "core:frequency" →
          double (r.center_freq_hz.toNat / 10 ^ 6) * 10 ^ 4 < 3 / 2) := by
    unfold readNum
    split_ifs with h
    · simp only [h, forall_const, mhzOf, zero_div, double_zero, shown_zero, infoMhz_eq]
      exact near_zero_iff 4 (double_nonneg (by positivity))
    · simp only [h, false_imp_iff, iff_true]
      exact near_frequency r.toMeta
  have hbw : Near (1 / 10)
      (khzOf (readNum r.toMeta "bewe:bandwidth_hz" (double (roundFixed 1 r.bandwidth_hz))))
      (infoKhz r.toMeta) ↔
        (Lost r.toMeta "bewe:bandwidth_hz" → double (r.bandwidth_hz / 1000) * 10 < 3 / 2) := by
    unfold readNum
    split_ifs with h
    · simp only [h, forall_const, khzOf, zero_div, double_zero, shown_zero,
        infoKhz_eq r.bandwidth_nonneg]
      have hq : 0 ≤ r.bandwidth_hz / 1000 := div_nonneg r.bandwidth_nonneg (by norm_num)
      simpa using near_zero_iff 1 (double_nonneg hq)
    · simp only [h, false_imp_iff, iff_true]
      exact near_bandwidth r.bandwidth_nonneg
  have hdur : wholeSeconds (readNum r.toMeta "bewe:duration_s" (double (roundFixed 1 r.duration_s))) =
      infoSeconds r.toMeta ↔ (Lost r.toMeta "bewe:duration_s" → r.duration_s * 10 ≤ 9 / 2) := by
    rw [infoSeconds_eq r.duration_nonneg]
    unfold readNum
    split_ifs with h
    · rw [wholeSeconds_zero, eq_comm, wholeSeconds_eq_zero_iff r.duration_nonneg r.duration_lt]
      simp only [h, forall_const]
    · simp only [h, false_imp_iff, iff_true]
      exact wholeSeconds_double r.duration_nonneg (by linarith [r.duration_lt])
  have hstart : (if Lost r.toMeta "core:datetime" ∨ 253402300800 ≤ r.start_unix then 0
      else r.start_unix) = r.start_unix ↔
        ¬ Lost r.toMeta "core:datetime" ∧ r.start_unix < 253402300800 := by
    rw [← not_le, ← not_or]
    split_ifs with h
    · simp only [h, not_true_eq_false, iff_false]
      omega
    · simp only [h, not_false_eq_true]
  have hstation : reporter = (if trim r.station = [] then reporter else trim r.station) ↔
      trim r.station = [] ∨ trim r.station = reporter := by
    split_ifs with h
    · simp [h]
    · rw [or_iff_right h, eq_comm]
  rw [sightingOf_writeMeta, sightingOf_infoText]
  constructor
  · intro h
    exact
      { station := hstation.mp h.station
        tags := h.tags.symm
        modulation := (readStr_eq_trim_iff _ _ _).mp h.modulation
        operator := (readStr_eq_trim_iff _ _ _).mp h.operator_name
        target := (readStr_eq_trim_iff _ _ _).mp h.target
        protocol := (readStr_eq_trim_iff _ _ _).mp h.protocol
        start := hstart.mp h.start_utc
        frequency := hfreq.mp h.freq_mhz
        bandwidth := hbw.mp h.bw_khz
        duration := hdur.mp h.duration_s }
  · intro h
    exact
      { sighting_id := rfl
        filename := rfl
        reporter := rfl
        station := hstation.mpr h.station
        freq_mhz := hfreq.mpr h.frequency
        bw_khz := hbw.mpr h.bandwidth
        modulation := (readStr_eq_trim_iff _ _ _).mpr h.modulation
        protocol := (readStr_eq_trim_iff _ _ _).mpr h.protocol
        target := (readStr_eq_trim_iff _ _ _).mpr h.target
        tags := h.tags.symm
        operator_name := (readStr_eq_trim_iff _ _ _).mpr h.operator
        start_utc := hstart.mpr h.start
        duration_s := hdur.mpr h.duration
        emitter_uid := rfl
        match_status := rfl }

/-- A recording of a station that a reporter of another name hands in. -/
def stationRecording : Recording where
  station := ascii "seoul"
  start_unix := 1777459281
  center_freq_hz := 145230000
  stem := ascii "IQ_1"
  one_line := by decide
  start_pos := by norm_num
  start_lt := by norm_num
  bandwidth_nonneg := le_rfl
  bandwidth_lt := by norm_num
  duration_nonneg := le_rfl
  duration_lt := by norm_num

/-- The `.info` names the station, and the `.sigmf-meta` leaves the reporter in its place. -/
theorem not_sameSighting_of_station :
    ¬ ∀ (sightingIdFrom : Bytes → Bytes → Bytes) (filename reporter : Bytes) (r : Recording),
      SameSighting (sightingOf sightingIdFrom filename reporter (writeMeta r.toMeta))
        (sightingOf sightingIdFrom filename reporter (infoText r.stem r.toMeta)) := by
  intro h
  have hstation := (h (fun _ r => r) (ascii "IQ_1.sigmf-data") (ascii "kim") stationRecording).station
  rw [sightingOf_writeMeta, sightingOf_infoText] at hstation
  exact absurd hstation (by decide)

end Bewe.Report

import Bewe.EmitterDb.Restart
import Bewe.Report.Values

/-!
# The sighting of a `.info`

`parse` gives each key of a `.info` the value of its line, trimmed, since a value fills one line and
no key is written twice. So every field of the sighting is the trimmed value, the printed number, or
the time of the recording (`sightingOf_infoText`).
-/

namespace Bewe.Report

open Lib
open EmitterDb (colon openBrace lineFeed carriageReturn splitLines splitLines_flatMap)

/-- A line puts its trimmed value under its key. -/
theorem parseLine_infoLine (m : Kv) {k : String} (hcolon : colon ∉ ascii k)
    (htrim : trim (ascii k) = ascii k) (hne : ascii k ≠ []) (v : Bytes) :
    parseLine m (ascii k ++ ascii ": " ++ v) = Function.update m (ascii k) (some (trim v)) := by
  -- a carriage return behind the value is dropped here and would be trimmed below
  obtain ⟨w, hline, hw⟩ : ∃ w, (if (ascii k ++ ascii ": " ++ v).getLast? = some carriageReturn then
      (ascii k ++ ascii ": " ++ v).dropLast else ascii k ++ ascii ": " ++ v) =
        ascii k ++ colon :: 32 :: w ∧ trim w = trim v := by
    have htext : ascii k ++ ascii ": " ++ v = ascii k ++ colon :: 32 :: v := by
      rw [List.append_assoc]
      rfl
    rw [htext]
    split_ifs with hcr
    · rcases List.eq_nil_or_concat' v with rfl | ⟨w, c, rfl⟩
      · have hblank : (ascii k ++ [colon, 32]).getLast? = some 32 := by simp
        rw [hblank] at hcr
        exact absurd hcr (by decide)
      · obtain rfl : c = carriageReturn := by
          have happ : ascii k ++ colon :: 32 :: (w ++ [c]) = (ascii k ++ colon :: 32 :: w) ++ [c] := by
            simp
          rw [happ, List.getLast?_concat] at hcr
          exact Option.some.inj hcr
        refine ⟨w, ?_, ?_⟩
        · have happ : ascii k ++ colon :: 32 :: (w ++ [carriageReturn]) =
              (ascii k ++ colon :: 32 :: w) ++ [carriageReturn] := by simp
          rw [happ, List.dropLast_concat]
        · rw [trim_concat w (by decide)]
    · exact ⟨v, rfl, rfl⟩
  have hfind : findAfter [colon] (ascii k ++ colon :: 32 :: w) = some (32 :: w) := by
    rw [findAfter_append hcolon, findAfter, if_pos (by simp)]
    rfl
  have htake : (ascii k ++ colon :: 32 :: w).takeWhile (fun c => decide (c ≠ colon)) = ascii k := by
    have hpos : ∀ c ∈ ascii k, decide (c ≠ colon) = true := fun c hc =>
      decide_eq_true fun h : c = colon => hcolon (h ▸ hc)
    rw [List.takeWhile_append_of_pos hpos]
    simp
  simp only [parseLine, hline, hfind, htake, htrim, hne, if_false, trim_blank, hw]

/-- The keys of a `.info`. -/
def infoKeys : List String :=
  ["File Name", "Day", "Up Time", "Down Time", "Duration", "Frequency", "Target", "Location",
    "Modulation", "Bandwidth", "Signal Strength", "Protocol", "Recorder", "Notes", "Tags",
    "Priority", "Operator"]

/-- The keys are what `parseLine_infoLine` asks for, and no two are the same. -/
theorem infoKeys_spec :
    (∀ k ∈ infoKeys, colon ∉ ascii k ∧ lineFeed ∉ ascii k ∧ trim (ascii k) = ascii k ∧
      ascii k ≠ []) ∧ (infoKeys.map ascii).Nodup := by
  decide

/-- Lines with other keys leave a key alone. -/
theorem foldl_update_of_not_mem {ls : List (String × Bytes)} {a : Bytes}
    (h : a ∉ ls.map fun kv => ascii kv.1) (m : Kv) :
    ls.foldl (fun (m : Kv) kv => Function.update m (ascii kv.1) (some (trim kv.2))) m a = m a := by
  induction ls generalizing m with
  | nil => rfl
  | cons kv ls ih =>
    rw [List.map_cons, List.mem_cons, not_or] at h
    rw [List.foldl_cons, ih h.2, Function.update_of_ne h.1]

theorem foldl_update_of_mem {ls : List (String × Bytes)}
    (hnodup : (ls.map fun kv => ascii kv.1).Nodup) {k : String} {v : Bytes} (h : (k, v) ∈ ls)
    (m : Kv) :
    ls.foldl (fun (m : Kv) kv => Function.update m (ascii kv.1) (some (trim kv.2))) m (ascii k) =
      some (trim v) := by
  induction ls generalizing m with
  | nil => cases h
  | cons kv ls ih =>
    rw [List.map_cons, List.nodup_cons] at hnodup
    rw [List.foldl_cons]
    rcases List.mem_cons.mp h with rfl | h
    · rw [foldl_update_of_not_mem hnodup.1, Function.update_self]
    · exact ih hnodup.2 h _

variable (r : Recording)

/-- A time of day has no line feed in it. -/
theorem lineFeed_not_mem_hmsText (tm : Tm) : lineFeed ∉ hmsText tm := by
  have hdigits : ∀ z, lineFeed ∉ twoDigits z := fun z hz =>
    absurd (isDigit_of_mem_twoDigits hz) (by decide)
  have hcolon : lineFeed ∉ ascii ":" := by decide
  simp [hmsText, hdigits, hcolon]

/-- Nor has a day. -/
theorem lineFeed_not_mem_dayText {tm : Tm} (h : tm.Valid) : lineFeed ∉ dayText tm := by
  have hdigits : ∀ z, lineFeed ∉ twoDigits z := fun z hz =>
    absurd (isDigit_of_mem_twoDigits hz) (by decide)
  have hyear : lineFeed ∉ natText tm.year.toNat := fun hz =>
    absurd (isDigit_of_mem_natText hz) (by decide)
  have hmonth : lineFeed ∉ ascii (monthNames.getD tm.mon.toNat "") := by
    have hall : ∀ i < 12, lineFeed ∉ ascii (monthNames.getD i "") := by decide
    exact hall _ (by have := h.mon_lt; omega)
  have hsep : lineFeed ∉ ascii " " ∧ lineFeed ∉ ascii ", " := by decide
  simp only [dayText, List.mem_append, not_or]
  exact ⟨⟨⟨⟨hmonth, hsep.1⟩, hdigits _⟩, hsep.2⟩, hyear⟩

/-- A printed number and its unit fill one line. -/
theorem lineFeed_not_mem_fmtFixed (n : ℕ) (q : ℚ) {u : Bytes} (hu : lineFeed ∉ u) :
    lineFeed ∉ fmtFixed n q ++ u := by
  rw [List.mem_append, not_or]
  exact ⟨EmitterDb.lineFeed_not_mem_of_isNumByte fun c hc => isNumByte_of_mem_fmtFixed hc, hu⟩

/-- The strings of a recording fill one line each. -/
theorem Recording.lineFeed_not_mem {k : String} {v : Bytes} (h : (k, v) ∈ r.toMeta.strings) :
    lineFeed ∉ v :=
  (r.one_line v (List.mem_cons_of_mem _ (List.mem_map_of_mem h))).2

/-- The recorder does too, although it is not written when it is empty. -/
theorem Recording.lineFeed_not_mem_recorder : lineFeed ∉ r.recorder := by
  by_cases h : r.recorder = []
  · simp [h]
  · exact r.lineFeed_not_mem (k := "core:recorder") (by simp [Meta.strings, h])

/-- The values of a `.info` fill one line each. -/
theorem lineFeed_not_mem_infoLines : ∀ kv ∈ infoLines r.stem r.toMeta, lineFeed ∉ kv.2 := by
  have hstr : ∀ {k v}, (k, v) ∈ r.toMeta.strings → lineFeed ∉ v := fun h => r.lineFeed_not_mem h
  have hblank : ∀ (p : Prop) [Decidable p] {v : Bytes}, lineFeed ∉ v →
      lineFeed ∉ if p then v else [] := by
    intro p _ v hv
    split_ifs
    · exact hv
    · simp
  simp only [infoLines, List.forall_mem_cons]
  exact ⟨(r.one_line r.stem (by simp)).2,
    lineFeed_not_mem_dayText (valid_gmtime _),
    lineFeed_not_mem_hmsText _,
    hblank _ (lineFeed_not_mem_hmsText _),
    hblank _ (lineFeed_not_mem_fmtFixed _ _ (by decide)),
    hblank _ (lineFeed_not_mem_fmtFixed _ _ (by decide)),
    hstr (k := "bewe:target") (by simp [Meta.strings]),
    hstr (k := "bewe:station") (by simp [Meta.strings]),
    hstr (k := "bewe:modulation") (by simp [Meta.strings]),
    hblank _ (lineFeed_not_mem_fmtFixed _ _ (by decide)),
    hstr (k := "bewe:signal_strength") (by simp [Meta.strings]),
    hstr (k := "bewe:protocol") (by simp [Meta.strings]),
    r.lineFeed_not_mem_recorder,
    hstr (k := "bewe:notes") (by simp [Meta.strings]),
    hstr (k := "bewe:tags") (by simp [Meta.strings]),
    hstr (k := "bewe:priority") (by simp [Meta.strings]),
    hstr (k := "bewe:operator") (by simp [Meta.strings]),
    by simp⟩

/-- A key of a `.info` is read as the trimmed value of its line. -/
theorem parse_infoText {k : String} {v : Bytes} (h : (k, v) ∈ infoLines r.stem r.toMeta) :
    parse (infoText r.stem r.toMeta) (ascii k) = some (trim v) := by
  have hkeys : (infoLines r.stem r.toMeta).map Prod.fst = infoKeys := rfl
  have hkey : ∀ kv ∈ infoLines r.stem r.toMeta, kv.1 ∈ infoKeys := fun kv hkv =>
    hkeys ▸ List.mem_map_of_mem hkv
  obtain ⟨hspec, hnodup⟩ := infoKeys_spec
  have hlines : splitLines (infoText r.stem r.toMeta) =
      (infoLines r.stem r.toMeta).map fun kv => ascii kv.1 ++ ascii ": " ++ kv.2 := by
    refine splitLines_flatMap fun kv hkv => ?_
    have hsep : lineFeed ∉ ascii ": " := by decide
    simp only [List.mem_append, not_or]
    exact ⟨⟨(hspec _ (hkey kv hkv)).2.1, hsep⟩, lineFeed_not_mem_infoLines r kv hkv⟩
  -- the first byte is that of `File Name`
  have hhead : ((infoText r.stem r.toMeta).dropWhile fun c =>
      c = 32 || c = EmitterDb.tab || c = carriageReturn || c = lineFeed).head? ≠ some openBrace := by
    have ht : infoText r.stem r.toMeta = ascii "File Name" ++ (ascii ": " ++ r.stem ++ [lineFeed] ++
        (infoLines r.stem r.toMeta).tail.flatMap fun kv => infoLine kv.1 kv.2) := by
      simp [infoText, infoLines, infoLine]
    rw [ht, show ascii "File Name" = 70 :: ascii "ile Name" from rfl, List.cons_append,
      List.dropWhile_cons_of_neg (by decide), List.head?_cons]
    decide
  have hfold : ∀ (ls : List (String × Bytes)) (m : Kv), (∀ kv ∈ ls, kv.1 ∈ infoKeys) →
      (ls.map fun kv => ascii kv.1 ++ ascii ": " ++ kv.2).foldl parseLine m =
        ls.foldl (fun (m : Kv) kv => Function.update m (ascii kv.1) (some (trim kv.2))) m := by
    intro ls
    induction ls with
    | nil => exact fun m _ => rfl
    | cons kv ls ih =>
      intro m hls
      obtain ⟨h1, -, h3, h4⟩ := hspec _ (hls kv (by simp))
      rw [List.map_cons, List.foldl_cons, List.foldl_cons, parseLine_infoLine m h1 h3 h4]
      exact ih _ fun kv' h' => hls kv' (by simp [h'])
  rw [parse, if_neg hhead, hlines, hfold _ _ hkey]
  refine foldl_update_of_mem ?_ h _
  rw [show (fun kv : String × Bytes => ascii kv.1) = ascii ∘ Prod.fst from rfl, ← List.map_map, hkeys]
  exact hnodup

/-! ## The fields -/

/-- The frequency that a `.info` gives. -/
def infoMhz (m : Meta) : ℚ :=
  if 0 < m.center_freq_hz then shown 4 (double (m.center_freq_hz.toNat / 10 ^ 6)) else 0

/-- The bandwidth that a `.info` gives. -/
def infoKhz (m : Meta) : ℚ :=
  if 0 < m.bandwidth_hz then shown 1 (double (m.bandwidth_hz / 1000)) else 0

/-- The duration that a `.info` gives. -/
def infoSeconds (m : Meta) : UInt32 := if 0 < m.duration_s then wholeSeconds m.duration_s else 0

/-- A printed number with its unit is left as it is. -/
theorem trim_fmtFixed {n : ℕ} (hn : 0 < n) {q : ℚ} (hq : 0 ≤ q) {u : Bytes} {c : UInt8}
    (hu : u.getLast? = some c) (hc : isSpace c = false) : trim (fmtFixed n q ++ u) = fmtFixed n q ++ u := by
  obtain ⟨a, m, htext⟩ := exists_fmtFixed hn hq
  obtain ⟨d, ds, hd⟩ := List.exists_cons_of_ne_nil (natText_ne_nil a)
  refine trim_eq_self ?_ ?_
  · intro e he
    rw [htext, hd] at he
    obtain rfl : d = e := by simpa using he
    exact isSpace_of_isDigit (isDigit_of_mem_natText (n := a) (by simp [hd]))
  · intro e he
    rw [List.getLast?_append, hu] at he
    obtain rfl : c = e := by simpa using he
    exact hc

/-- A text from a byte that is no white space to a digit is left as it is. -/
theorem trim_of_digits {s ds : Bytes} (hhead : ∀ c ∈ s.head?, isSpace c = false)
    (hd : ∀ c ∈ ds, isDigit c = true) (hne : ds ≠ []) : trim (s ++ ds) = s ++ ds := by
  refine trim_eq_self ?_ ?_
  · intro c hc
    cases s with
    | nil => exact isSpace_of_isDigit (hd c (List.mem_of_mem_head? hc))
    | cons d s => exact hhead c (by simpa using hc)
  · intro c hc
    rw [List.getLast?_append_of_ne_nil _ hne] at hc
    exact isSpace_of_isDigit (hd c (List.mem_of_getLast? hc))

/-- A time of day has no blanks at its ends. -/
theorem trim_hmsText (tm : Tm) : trim (hmsText tm) = hmsText tm := by
  refine trim_of_digits ?_ (fun c => isDigit_of_mem_twoDigits) (twoDigits_ne_nil tm.sec)
  obtain ⟨d, ds, hd⟩ := List.exists_cons_of_ne_nil (twoDigits_ne_nil tm.hour)
  intro c hc
  rw [hd] at hc
  obtain rfl : d = c := by simpa using hc
  exact isSpace_of_isDigit (isDigit_of_mem_twoDigits (z := tm.hour) (by simp [hd]))

/-- Nor has a day. -/
theorem trim_dayText {tm : Tm} (h : tm.Valid) : trim (dayText tm) = dayText tm := by
  refine trim_of_digits ?_ (fun c => isDigit_of_mem_natText) (natText_ne_nil tm.year.toNat)
  have hmonth : ∀ i < 12, ∀ u, ∀ c ∈ (ascii (monthNames.getD i "") ++ u).head?, isSpace c = false := by
    intro i hi u c hc
    obtain ⟨hspace, hlen, -⟩ := monthNames_spec i hi
    obtain ⟨d, ds, hd⟩ := List.exists_cons_of_length_pos (l := ascii (monthNames.getD i ""))
      (by rw [hlen]; norm_num)
    rw [hd] at hc
    obtain rfl : d = c := by simpa using hc
    exact hspace d (hd ▸ List.mem_cons_self)
  rw [List.append_assoc, List.append_assoc]
  exact hmonth _ (by have := h.mon_lt; omega) _

/-- A value that is not blank where a condition holds is trimmed where it holds. -/
theorem trim_ite (p : Prop) [Decidable p] {v : Bytes} (hv : trim v = v) :
    trim (if p then v else []) = if p then v else [] := by
  split_ifs
  · exact hv
  · rfl

theorem sightingOf_infoText (sightingIdFrom : Bytes → Bytes → Bytes) (filename reporter : Bytes) :
    sightingOf sightingIdFrom filename reporter (infoText r.stem r.toMeta) =
      { sighting_id := sightingIdFrom filename reporter
        filename
        reporter
        station := if trim r.station = [] then reporter else trim r.station
        freq_mhz := infoMhz r.toMeta
        bw_khz := infoKhz r.toMeta
        modulation := trim r.modulation
        protocol := trim r.protocol
        target := trim r.target
        tags := trim r.tags
        operator_name := trim r.op
        start_utc := r.start_unix
        duration_s := infoSeconds r.toMeta } := by
  have hread := fun {k v} (h : (k, v) ∈ infoLines r.stem r.toMeta) => parse_infoText r h
  have hne : infoText r.stem r.toMeta ≠ [] := by simp [infoText, infoLines, infoLine]
  have hpos := r.start_pos
  have hstation : ((some (trim r.station)).filter fun v => decide (v ≠ [])).getD reporter =
      if trim r.station = [] then reporter else trim r.station := by
    by_cases h : trim r.station = [] <;> simp [Option.filter, h]
  have hstart : extractStartUtc (trim (dayText (kst r.start_unix.toNat)))
      (trim (hmsText (kst r.start_unix.toNat))) = some r.start_unix := by
    have hvalid : (kst r.start_unix.toNat).Valid := valid_gmtime _
    rw [trim_dayText hvalid, trim_hmsText, extractStartUtc_kst,
      Int.toNat_of_nonneg hpos.le]
  have hfreq : (extractFreqMhz (trim (if 0 < r.center_freq_hz then
      fmtFixed 4 (double (r.center_freq_hz.toNat / 10 ^ 6)) ++ ascii " MHz" else []))).getD 0 =
        infoMhz r.toMeta := by
    rw [trim_ite _ (trim_fmtFixed (by norm_num) (double_nonneg (by positivity)) (c := 122) rfl rfl),
      infoMhz]
    split_ifs
    · rw [extractFreqMhz_fmtFixed (by norm_num)]
      rfl
    · rfl
  have hbw0 : 0 ≤ r.bandwidth_hz / 1000 := div_nonneg r.bandwidth_nonneg (by norm_num)
  have hbw : (extractBwKhz (trim (if 0 < r.bandwidth_hz then
      fmtFixed 1 (double (r.bandwidth_hz / 1000)) ++ ascii " kHz" else []))).getD 0 =
        infoKhz r.toMeta := by
    rw [trim_ite _ (trim_fmtFixed (by norm_num) (double_nonneg hbw0) (c := 122) rfl rfl), infoKhz]
    split_ifs
    · rw [extractBwKhz_fmtFixed (by norm_num)]
      rfl
    · rfl
  have hdur : (extractDurationS (trim (if 0 < r.duration_s then
      fmtFixed 1 r.duration_s ++ ascii " s" else []))).getD 0 = infoSeconds r.toMeta := by
    rw [trim_ite _ (trim_fmtFixed (by norm_num) r.duration_nonneg (c := 115) rfl rfl), infoSeconds]
    split_ifs
    · rw [extractDurationS_fmtFixed r.duration_nonneg]
      rfl
    · rfl
  rw [sightingOf, if_neg hne,
    hread (k := "Location") (v := r.station) (by simp [infoLines]), hstation,
    hread (k := "Frequency") (by simp [infoLines]; rfl), Option.bind_some, hfreq,
    hread (k := "Bandwidth") (by simp [infoLines]; rfl), Option.bind_some, hbw,
    hread (k := "Modulation") (v := r.modulation) (by simp [infoLines]),
    hread (k := "Protocol") (v := r.protocol) (by simp [infoLines]),
    hread (k := "Target") (v := r.target) (by simp [infoLines]),
    hread (k := "Tags") (v := r.tags) (by simp [infoLines]),
    hread (k := "Operator") (v := r.op) (by simp [infoLines]),
    hread (k := "Day") (v := dayText (kst r.start_unix.toNat)) (by simp [infoLines]),
    hread (k := "Up Time") (v := hmsText (kst r.start_unix.toNat)) (by simp [infoLines]),
    Option.bind_some, Option.bind_some, hstart,
    hread (k := "Duration") (by simp [infoLines]; rfl), Option.bind_some, hdur]
  rfl

end Bewe.Report

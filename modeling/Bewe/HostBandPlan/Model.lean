import Bewe.HostState.Channels
import Bewe.Lib.Upsert

/-!
# The band plan of HOST

`host_band_plan.cpp`: the segments that HOST keeps, the edits that its operators make of them, and
how they go into `band_plan.json` and come back from it. An edit finds its segment by the edges,
each to within `1e-4` MHz; adding and updating are one operation. The file is read by `JScan`, and
where it is missing or empty, the plan that comes with the program is written and read in its place.
-/

namespace Bewe.HostBandPlan

open Lib
open Saved (Chars jsonEscape numberOr0 toLongLong)
open Saved.JScan (readKey readNumber readString skipUnknown consume peek)
open HostState (readItems)
open EmitterDb (quote comma colon openBrace closeBrace openBracket closeBracket)

/-! ## Segments -/

/-- The most segments of a plan. -/
def MAX_BAND_SEGMENTS : ℕ := 128

/-- `PktBandEntry`. -/
structure PktBandEntry where
  valid : UInt8 := 0
  category : UInt8 := 0
  freq_lo_mhz : Binary32 := ⟨0⟩
  freq_hi_mhz : Binary32 := ⟨0⟩
  label : Chars 24 := .ofStr 24 []
  description : Chars 128 := .ofStr 128 []
  deriving DecidableEq

/-- `PktBandRemove`. -/
structure PktBandRemove where
  freq_lo_mhz : Binary32
  freq_hi_mhz : Binary32
  deriving DecidableEq

/-- `1e-4f`. -/
def edgeTolerance : Fp 24 := .ofRat float_pos (1 / 10000)

/-- `entries_equal`. -/
def entriesEqual (a b : PktBandEntry) : Bool :=
  if edgeTolerance.lt (Binary32.dist a.freq_lo_mhz b.freq_lo_mhz) then false
  else if edgeTolerance.lt (Binary32.dist a.freq_hi_mhz b.freq_hi_mhz) then false
  else true

/-! ## Edits -/

/-- What `apply_add` and `apply_update` do: whether the entry is taken, and the segments after it.
-/
def put (entry : PktBandEntry) (segments : List PktBandEntry) : Bool × List PktBandEntry :=
  if entry.freq_hi_mhz.toFp.le entry.freq_lo_mhz.toFp then (false, segments)
  else
    match upsert MAX_BAND_SEGMENTS (fun e => entriesEqual e entry) { entry with valid := 1 }
        segments with
    | some segments' => (true, segments')
    | none => (false, segments)

/-- `apply_add`. -/
def applyAdd (entry : PktBandEntry) (segments : List PktBandEntry) : Bool × List PktBandEntry :=
  put entry segments

/-- `apply_update`; an entry that is not found is added. -/
def applyUpdate (entry : PktBandEntry) (segments : List PktBandEntry) : Bool × List PktBandEntry :=
  put entry segments

/-- The segments that `apply_remove` takes out. -/
def isRemoved (rm : PktBandRemove) (e : PktBandEntry) : Bool :=
  (Binary32.dist e.freq_lo_mhz rm.freq_lo_mhz).lt edgeTolerance &&
    (Binary32.dist e.freq_hi_mhz rm.freq_hi_mhz).lt edgeTolerance

/-- `apply_remove`. -/
def applyRemove (rm : PktBandRemove) (segments : List PktBandEntry) : Bool × List PktBandEntry :=
  if segments.any (isRemoved rm) then (true, segments.filter fun e => !isRemoved rm e)
  else (false, segments)

/-! ## Saving -/

/-- What `snprintf` leaves of a text in `buf`. -/
def inBuf (t : Bytes) : Bytes := t.take 511

/-- One segment of `save_to_file`. -/
def bandText (e : PktBandEntry) : Bytes :=
  inBuf (ascii "    " ++ openBrace :: ascii "\"freq_lo\":" ++ e.freq_lo_mhz.fmt 4 ++
    ascii ",\"freq_hi\":" ++ e.freq_hi_mhz.fmt 4 ++ ascii ",\"category\":" ++
      natText e.category.toNat ++ ascii ",\"label\":\"") ++
    jsonEscape e.label.str ++ ascii "\",\"description\":\"" ++ jsonEscape e.description.str ++
      quote :: [closeBrace]

/-- The file with the texts of its segments. -/
def planText (bands : List Bytes) : Bytes :=
  openBrace :: ascii "\n  \"bands\": [\n" ++ List.intercalate (ascii ",\n") bands ++
    ascii "\n  ]\n" ++ closeBrace :: ascii "\n"

/-- `save_to_file`: the bytes of the file. -/
def saveToFile (segments : List PktBandEntry) : Bytes :=
  planText ((segments.filter fun e => e.valid ≠ 0).map bandText)

/-! ## The plan that comes with the program -/

/-- One segment of `DEFAULT_BAND_PLAN_JSON`: its edges, its label, its category, and its
description.
-/
def defaultBandText : String × String × String × ℕ × String → Bytes
  | (freq_lo, freq_hi, label, category, description) =>
    ascii "    " ++ openBrace :: ascii "\"freq_lo\":" ++ ascii freq_lo ++ ascii ",\"freq_hi\":" ++
      ascii freq_hi ++ ascii ",\"label\":\"" ++ ascii label ++ ascii "\",\"category\":" ++
      natText category ++ ascii ",\"description\":\"" ++ ascii description ++ quote :: [closeBrace]

/-- The segments of `DEFAULT_BAND_PLAN_JSON`. -/
def defaultBands : List (String × String × String × ℕ × String) :=
  [("0.526", "1.606", "AM", 0, "AM Broadcast (MW)"),
    ("1.800", "2.000", "160m", 3, "Amateur 160m (HF)"),
    ("3.500", "3.900", "80m", 3, "Amateur 80m (HF)"),
    ("7.000", "7.300", "40m", 3, "Amateur 40m (HF)"),
    ("10.100", "10.150", "30m", 3, "Amateur 30m (HF, CW/Digi only)"),
    ("13.553", "13.567", "ISM", 5, "ISM 13.56 MHz (RFID/NFC)"),
    ("14.000", "14.350", "20m", 3, "Amateur 20m (HF)"),
    ("18.068", "18.168", "17m", 3, "Amateur 17m (HF)"),
    ("21.000", "21.450", "15m", 3, "Amateur 15m (HF)"),
    ("24.890", "24.990", "12m", 3, "Amateur 12m (HF)"),
    ("26.957", "27.283", "ISM/CB", 5, "ISM 27.12 / CB Radio"),
    ("28.000", "29.700", "10m", 3, "Amateur 10m (HF)"),
    ("40.660", "40.700", "ISM", 5, "ISM 40.68 MHz"),
    ("50.000", "54.000", "6m", 3, "Amateur 6m (VHF Low)"),
    ("76.000", "88.000", "TV", 0, "VHF TV Low (legacy)"),
    ("88.000", "108.000", "FM", 0, "FM Broadcast"),
    ("108.000", "117.975", "VOR/ILS", 1, "Aero VOR / ILS Localizer"),
    ("118.000", "137.000", "Aero", 1, "Aero Voice (AM, ATC)"),
    ("137.000", "138.000", "WX-Sat", 1, "NOAA APT / Weather satellite downlink"),
    ("144.000", "148.000", "2m", 3, "Amateur 2m (VHF)"),
    ("156.000", "162.025", "Marine", 2, "Marine VHF + AIS (161.975/162.025)"),
    ("162.400", "162.550", "WX", 8, "NOAA Weather Radio"),
    ("174.000", "216.000", "TV/DAB", 0, "VHF TV High / DAB"),
    ("225.000", "328.600", "Mil Aero", 7, "Military Aero (UHF)"),
    ("380.000", "400.000", "P-Safety", 8, "Public Safety / Trunked (TETRA)"),
    ("403.000", "406.000", "WX-Sonde", 8, "Radiosonde / Weather telemetry"),
    ("420.000", "450.000", "70cm", 3, "Amateur 70cm (UHF)"),
    ("462.000", "467.000", "FRS/GMRS", 8, "Family/General Mobile Radio"),
    ("470.000", "698.000", "DTV", 0, "UHF Digital TV"),
    ("824.000", "894.000", "Cell800", 4, "Cellular 800/850 (LTE B5/B26)"),
    ("902.000", "928.000", "ISM915", 5, "ISM 915 (LoRa US, Wi-SUN)"),
    ("925.000", "960.000", "GSM900", 4, "GSM/LTE 900 DL"),
    ("1227.000", "1230.000", "GPS L2", 9, "GPS L2 1227.6 MHz"),
    ("1240.000", "1300.000", "23cm", 3, "Amateur 23cm"),
    ("1525.000", "1559.000", "L-Sat DL", 1, "Inmarsat / Aero-Sat downlink"),
    ("1559.000", "1610.000", "GNSS L1", 9, "GPS/Galileo/GLONASS L1"),
    ("1710.000", "1880.000", "DCS/LTE", 4, "GSM1800 / LTE B3"),
    ("1880.000", "1920.000", "DECT", 6, "DECT cordless phone"),
    ("1920.000", "2170.000", "UMTS", 4, "UMTS / LTE B1"),
    ("2300.000", "2400.000", "WiBro", 4, "LTE B40 / WiBro"),
    ("2400.000", "2483.500", "WiFi/BT", 6, "Wi-Fi 2.4 GHz / Bluetooth / Zigbee / ISM"),
    ("2500.000", "2690.000", "LTE B7", 4, "LTE B7 / B41 (TDD)"),
    ("3300.000", "3800.000", "5G n78", 4, "5G NR n77/n78 (mid-band)"),
    ("5150.000", "5875.000", "WiFi5", 6, "Wi-Fi 5/6 (5 GHz UNII)")]

/-- `DEFAULT_BAND_PLAN_JSON`. -/
def defaultBandPlanJson : Bytes := planText (defaultBands.map defaultBandText)

/-! ## Loading -/

/-- `strncpy` into `char[n + 1]`, which keeps the last byte zero. -/
def copyText (n : ℕ) (s : Bytes) : Chars (n + 1) := .ofStr (n + 1) ((cStr s).take n)

/-- The branches of the keys of a segment. -/
def bandField (k : Bytes) (e : PktBandEntry) (t : Bytes) : PktBandEntry × Bytes :=
  let n := readNumber t
  let s := readString t
  if k = ascii "freq_lo" then ({ e with freq_lo_mhz := .ofDouble (numberOr0 n) }, n.2)
  else if k = ascii "freq_hi" then ({ e with freq_hi_mhz := .ofDouble (numberOr0 n) }, n.2)
  else if k = ascii "category" then
    ({ e with category := UInt8.ofInt (toLongLong (numberOr0 n)) }, n.2)
  else if k = ascii "label" then ({ e with label := copyText 23 (s.1.getD []) }, s.2)
  else if k = ascii "description" then ({ e with description := copyText 127 (s.1.getD []) }, s.2)
  else (e, skipUnknown t)

/-- `freq_hi > freq_lo`. -/
def PktBandEntry.isWide (e : PktBandEntry) : Bool := e.freq_lo_mhz.toFp.lt e.freq_hi_mhz.toFp

/-- The value of another key than `bands` is passed over, unless it is a number. -/
def skipOther (t : Bytes) : Bytes :=
  if peek quote t then (readString t).2
  else
    match consume openBracket t with
    | (true, t) => Saved.skipDepth 1 t
    | (false, t) =>
      match consume openBrace t with
      | (true, t) => Saved.skipDepth 1 t
      | (false, t) => t

/-- The loop over the segments. -/
def readBands (t : Bytes) : List PktBandEntry :=
  (readItems bandField { valid := 1 } PktBandEntry.isWide MAX_BAND_SEGMENTS (t.length + 1) [] t).1

/-- The loop over the members of the file. -/
def readPlan : ℕ → Bytes → List PktBandEntry
  | 0, _ => []
  | fuel + 1, t =>
    match readKey t with
    | (none, _) => []
    | (some k, t) =>
      if k = ascii "bands" then
        match consume openBracket t with
        | (false, _) => []
        | (true, t) => readBands t
      else readPlan fuel (skipOther t)

/-- `load_from_file` of the bytes of the file, if there is one. -/
def loadFromFile (file : Option Bytes) : List PktBandEntry :=
  let body := match file with
    | none => defaultBandPlanJson
    | some [] => defaultBandPlanJson
    | some body => body
  match consume openBrace body with
  | (false, _) => []
  | (true, t) => readPlan (t.length + 1) t

end Bewe.HostBandPlan

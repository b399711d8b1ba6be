import Mathlib.Data.List.DropRight
import Bewe.Lib.Find
import Bewe.Lib.Scanf
import Bewe.Report.Sidecar

/-!
# A sighting from a sidecar

How Central reads the sidecar that comes with a report: the flat scan of `SigMF` for JSON, the
`InfoParse` functions for `Key: Value` lines and for the values of both, and the `Sighting` that
`ingest_report_to_emitter_db` makes of them. Numbers are rounded where the source keeps a `double`
or a `float`; the infinities, which a `Sighting` has no place for, count as no number.
-/

namespace Bewe.Report

open Lib
open EmitterDb (quote backslash colon openBrace lineFeed carriageReturn letterN letterR letterT tab
  splitLines truncate)

/-! ## The flat scan -/

/-- What a byte after a backslash stands for. -/
def unescapeByte (c : UInt8) : UInt8 :=
  if c = letterN then lineFeed
  else if c = letterR then carriageReturn
  else if c = letterT then tab
  else c

/-- A string up to its closing quote. -/
def readQuoted : Bytes → Bytes
  | [] => []
  | [c] => if c = quote then [] else [c]
  | c :: d :: t =>
    if c = quote then []
    else if c = backslash then unescapeByte d :: readQuoted t
    else c :: readQuoted (d :: t)

/-- `SigMF::meta_find_num`. -/
def metaFindNum (s : Bytes) (key : String) : Option ℚ := do
  let p ← findAfter (enclosed quote (ascii key)) s
  let p ← findAfter [colon] p
  some (atof p)

/-- `SigMF::meta_find_str`. -/
def metaFindStr (s : Bytes) (key : String) : Option Bytes := do
  let p ← findAfter (enclosed quote (ascii key)) s
  let p ← findAfter [colon] p
  let p ← findAfter [quote] p
  some (readQuoted p)

/-- `strptime` with `%Y-%m-%dT%H:%M:%SZ`. -/
def strptimeIso (s : Bytes) : Option Tm := do
  let (year, s) ← getNumber 0 9999 4 s
  let s ← scanByte 45 s
  let (mon, s) ← getNumber 1 12 2 s
  let s ← scanByte 45 s
  let (mday, s) ← getNumber 1 31 2 s
  let s ← scanByte 84 s
  let (hour, s) ← getNumber 0 23 2 s
  let s ← scanByte colon s
  let (min, s) ← getNumber 0 59 2 s
  let s ← scanByte colon s
  let (sec, s) ← getNumber 0 61 2 s
  let _ ← scanByte 90 s
  some ⟨year, (mon : ℤ) - 1, mday, hour, min, sec⟩

/-! ## `InfoParse` -/

/-- `InfoParse::trim`. -/
def trim (s : Bytes) : Bytes := (s.dropWhile isSpace).rdropWhile isSpace

/-- A `std::map` of strings. -/
abbrev Kv := Bytes → Option Bytes

/-- `m[k] = v`, if there is a value. -/
def Kv.put (m : Kv) (k : String) (v : Option Bytes) : Kv :=
  if v.isSome then Function.update m (ascii k) v else m

/-- What `snprintf` leaves in a buffer of 64 bytes. -/
def buf64 (s : Bytes) : Bytes := s.take 63

/-- The branch of `parse` for JSON. -/
def parseMeta (text : Bytes) : Kv :=
  let time := ((metaFindStr text "core:datetime").filter (· ≠ [])).bind strptimeIso
  Kv.put (Kv.put (Kv.put (Kv.put (Kv.put (Kv.put (Kv.put (Kv.put (Kv.put (fun _ => none)
    "Frequency" ((metaFindNum text "core:frequency").map fun d =>
      buf64 (fmtFixed 6 (double (d / 10 ^ 6)) ++ ascii " MHz")))
    "Bandwidth" ((metaFindNum text "bewe:bandwidth_hz").map fun d =>
      buf64 (fmtFixed 3 (double (d / 1000)) ++ ascii " kHz")))
    "Duration" ((metaFindNum text "bewe:duration_s").map fun d =>
      buf64 (fmtFixed 1 d ++ ascii " s")))
    "Modulation" (metaFindStr text "bewe:modulation"))
    "Operator" (metaFindStr text "bewe:operator"))
    "Target" (metaFindStr text "bewe:target"))
    "Protocol" (metaFindStr text "bewe:protocol"))
    "Day" (time.map dayText))
    "Up Time" (time.map fun g => hmsText g ++ ascii " UTC+0")

/-- One turn of the loop of `parse` over lines. -/
def parseLine (m : Kv) (line : Bytes) : Kv :=
  let line := if line.getLast? = some carriageReturn then line.dropLast else line
  match findAfter [colon] line with
  | none => m
  | some val =>
    let key := trim (line.takeWhile (· ≠ colon))
    if key = [] then m else Function.update m key (some (trim val))

/-- `InfoParse::parse`. -/
def parse (text : Bytes) : Kv :=
  if (text.dropWhile fun c => c = 32 || c = tab || c = carriageReturn || c = lineFeed).head? =
      some openBrace then
    parseMeta text
  else (splitLines text).foldl parseLine fun _ => none

/-- A number and the word behind it, in lower case: ` %lf %15s`. -/
def scanUnit (v : Bytes) : Option (ℚ × Bytes) :=
  (scanDouble v).map fun (num, t) => (num, InfoParse.lower (((scanWord 15 t).map Prod.fst).getD []))

/-- `InfoParse::extract_freq_mhz`. -/
def extractFreqMhz (v : Bytes) : Option ℚ :=
  (scanUnit v).map fun (num, s) =>
    let mult :=
      if contains (ascii "ghz") s then 1000
      else if contains (ascii "khz") s then double (1 / 1000)
      else if contains (ascii "mhz") s then 1
      else if contains (ascii "hz") s then double (1 / 10 ^ 6)
      else 1
    float (double (num * mult))

/-- `InfoParse::extract_bw_khz`. -/
def extractBwKhz (v : Bytes) : Option ℚ :=
  (scanUnit v).map fun (num, s) =>
    let mult :=
      if contains (ascii "mhz") s then 1000
      else if contains (ascii "khz") s then 1
      else if contains (ascii "hz") s then double (1 / 1000)
      else 1
    float (double (num * mult))

/-- ` %d:%d:%d`. -/
def scanHms (v : Bytes) : Option (ℤ × ℤ × ℤ) := do
  let (h, t) ← scanInt v
  let t ← scanByte colon t
  let (m, t) ← scanInt t
  let t ← scanByte colon t
  let (s, _) ← scanInt t
  some (h, m, s)

/-- ` %d:%d`. -/
def scanMs (v : Bytes) : Option (ℤ × ℤ) := do
  let (m, t) ← scanInt v
  let t ← scanByte colon t
  let (s, _) ← scanInt t
  some (m, s)

/-- `InfoParse::extract_duration_s`. -/
def extractDurationS (v : Bytes) : Option UInt32 :=
  match scanHms v with
  | some (h, m, s) => some (UInt32.ofInt (h * 3600 + m * 60 + s))
  | none =>
    match scanMs v with
    | some (m, s) => some (UInt32.ofInt (m * 60 + s))
    | none =>
      (scanUnit v).map fun (sec, sx) =>
        let mult :=
          if contains (ascii "min") sx ∨ sx = ascii "m" then 60
          else if sx = ascii "h" ∨ contains (ascii "hour") sx then 3600
          else 1
        UInt32.ofInt (truncate (double (double (sec * mult) + 1 / 2)))

/-- ` %3s %d , %d`, or the same with no comma. -/
def scanDay (day : Bytes) : Option (Bytes × ℤ × ℤ) :=
  (do
    let (mon, t) ← scanWord 3 day
    let (dd, t) ← scanInt t
    let t ← scanByte 44 (scanSpace t)
    let (yy, _) ← scanInt t
    some (mon, dd, yy)).orElse fun _ => do
    let (mon, t) ← scanWord 3 day
    let (dd, t) ← scanInt t
    let (yy, _) ← scanInt t
    some (mon, dd, yy)

/-- The offset that `UTC` in a time names, nine hours if there is none. -/
def utcOffset (time : Bytes) : ℤ :=
  match (findAfter (ascii "UTC") time).bind scanInt with
  | some (off, _) => off
  | none => 9

/-- `InfoParse::extract_start_utc`. -/
def extractStartUtc (day time : Bytes) : Option ℤ := do
  let (mon, dd, yy) ← scanDay day
  let i ← monthNames.findIdx? fun name => InfoParse.lower mon = InfoParse.lower (ascii name)
  let (hh, mm, ss) ← scanHms time
  let t := timegm ⟨yy, i, dd, hh, mm, ss⟩
  if t = -1 then none else some (t - utcOffset time * 3600)

/-! ## The sighting -/

/-- The `Sighting` of `ingest_report_to_emitter_db`; `sightingIdFrom` is `sighting_id_from`. -/
def sightingOf (sightingIdFrom : Bytes → Bytes → Bytes) (filename reporter info_data : Bytes) :
    Sighting :=
  let id := sightingIdFrom filename reporter
  let kv := parse info_data
  if info_data = [] then
    { sighting_id := id, filename, reporter, station := reporter, operator_name := reporter }
  else
    { sighting_id := id
      filename
      reporter
      station := ((kv (ascii "Location")).filter (· ≠ [])).getD reporter
      freq_mhz := ((kv (ascii "Frequency")).bind extractFreqMhz).getD 0
      bw_khz := ((kv (ascii "Bandwidth")).bind extractBwKhz).getD 0
      modulation := (kv (ascii "Modulation")).getD []
      protocol := (kv (ascii "Protocol")).getD []
      target := (kv (ascii "Target")).getD []
      tags := (kv (ascii "Tags")).getD []
      operator_name := (kv (ascii "Operator")).getD reporter
      start_utc :=
        ((kv (ascii "Day")).bind fun day =>
          (kv (ascii "Up Time")).bind fun time => extractStartUtc day time).getD 0
      duration_s := ((kv (ascii "Duration")).bind extractDurationS).getD 0 }

end Bewe.Report

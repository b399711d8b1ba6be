import Bewe.EmitterDb.Jsonl
import Bewe.Lib.Calendar
import Bewe.Lib.Float

/-!
# The sidecar of a recording

What describes a recording next to its file: a `.sigmf-meta` of JSON (`SigMF::write_meta` in
`sigmf.hpp`) for raw samples, and a `.info` of `Key: Value` lines (`write_default_info_file` in
`iq_record.cpp`) for other files. Both are written from the same record here. The lines that
`write_default_info_file` leaves blank for the operator to fill in have the value of the record, and
the file is new, so that a line is not kept from an older one.
-/

namespace Bewe.Report

open Lib
open EmitterDb (quote backslash colon lineFeed carriageReturn letterN letterR letterT tab)

/-- The value of a `double` nearest to a number. -/
def double (q : ℚ) : ℚ := roundBits 53 q

/-- The value of a `float` nearest to a number. -/
def float (q : ℚ) : ℚ := roundBits 24 q

/-- `SigMF::Meta`. -/
structure Meta where
  sample_rate : UInt32 := 0
  center_freq_hz : UInt64 := 0
  start_unix : ℤ := 0
  bandwidth_hz : ℚ := 0
  duration_s : ℚ := 0
  station : Bytes := []
  modulation : Bytes := []
  op : Bytes := []
  target : Bytes := []
  protocol : Bytes := []
  recorder : Bytes := []
  notes : Bytes := []
  tags : Bytes := []
  priority : Bytes := []
  signal_strength : Bytes := []
  deriving DecidableEq

/-! ## Times -/

/-- The names that `%b` prints. -/
def monthNames : List String :=
  ["Jan", "Feb", "Mar", "Apr", "May", "Jun", "Jul", "Aug", "Sep", "Oct", "Nov", "Dec"]

/-- Two digits. -/
def twoDigits (z : ℤ) : Bytes := padDigits 2 z.toNat

/-- `%b %d, %Y`. -/
def dayText (tm : Tm) : Bytes :=
  ascii (monthNames.getD tm.mon.toNat "") ++ ascii " " ++ twoDigits tm.mday ++ ascii ", " ++
    natText tm.year.toNat

/-- `%H:%M:%S`. -/
def hmsText (tm : Tm) : Bytes :=
  twoDigits tm.hour ++ ascii ":" ++ twoDigits tm.min ++ ascii ":" ++ twoDigits tm.sec

/-- `%Y-%m-%dT%H:%M:%SZ`. -/
def isoText (tm : Tm) : Bytes :=
  natText tm.year.toNat ++ ascii "-" ++ twoDigits (tm.mon + 1) ++ ascii "-" ++ twoDigits tm.mday ++
    ascii "T" ++ hmsText tm ++ ascii "Z"

/-- `KST::to_tm`. -/
def kst (t : ℕ) : Tm := gmtime (t + 9 * 3600)

/-! ## `.sigmf-meta` -/

/-- One byte of `json_esc`. -/
def jsonEscByte (c : UInt8) : Bytes :=
  if c = quote then [backslash, quote]
  else if c = backslash then [backslash, backslash]
  else if c = lineFeed then [backslash, letterN]
  else if c = carriageReturn then [backslash, letterR]
  else if c = tab then [backslash, letterT]
  else [c]

/-- `SigMF::json_esc`. -/
def jsonEsc (s : Bytes) : Bytes := s.flatMap jsonEscByte

/-- What `kv_str` puts before a value. -/
def kvHead (k : String) : Bytes := ascii "    \"" ++ ascii k ++ ascii "\": "

/-- `kv_str`. -/
def kvStr (k : String) (v : Bytes) : Bytes :=
  kvHead k ++ quote :: (jsonEsc v ++ quote :: ascii ",\n")

/-- The strings that are written, in their order. -/
def Meta.strings (m : Meta) : List (String × Bytes) :=
  (if m.recorder = [] then [] else [("core:recorder", m.recorder)]) ++
    [("bewe:station", m.station), ("bewe:modulation", m.modulation), ("bewe:operator", m.op),
      ("bewe:target", m.target), ("bewe:protocol", m.protocol),
      ("bewe:signal_strength", m.signal_strength), ("bewe:tags", m.tags),
      ("bewe:priority", m.priority), ("bewe:notes", m.notes)]

/-- What is written before the strings. -/
def metaHead (m : Meta) : Bytes :=
  ascii "\x7b\n  \"global\": \x7b\n    \"core:datatype\": \"ci16_le\",\n    \"core:sample_rate\": " ++
    natText m.sample_rate.toNat ++ ascii ",\n    \"core:version\": \"1.0.0\",\n"

/-- What is written after the strings; the lines of the two numbers go through a buffer of 80 bytes.
-/
def metaTail (m : Meta) : Bytes :=
  (kvHead "bewe:bandwidth_hz" ++ (fmtFixed 1 m.bandwidth_hz ++ ascii ",\n")).take 79 ++
    ((kvHead "bewe:duration_s" ++ (fmtFixed 1 m.duration_s ++ ascii "\n")).take 79 ++
      (ascii "  \x7d,\n  \"captures\": [\n    \x7b\n      \"core:sample_start\": 0,\n  " ++
        (kvHead "core:frequency" ++ (natText m.center_freq_hz.toNat ++
          ((if 0 < m.start_unix then
              ascii ",\n  " ++ (kvHead "core:datetime" ++
                quote :: (isoText (gmtime m.start_unix.toNat) ++ quote :: ascii "\n"))
            else ascii "\n") ++
            ascii "    \x7d\n  ],\n  \"annotations\": []\n\x7d\n")))))

/-- `SigMF::write_meta`: the text that it writes. -/
def writeMeta (m : Meta) : Bytes :=
  metaHead m ++ (m.strings.flatMap (fun kv => kvStr kv.1 kv.2) ++ metaTail m)

/-! ## `.info` -/

/-- A `Key: Value` line with its line feed. -/
def infoLine (k : String) (v : Bytes) : Bytes := ascii k ++ ascii ": " ++ v ++ [lineFeed]

/-- The lines of `write_default_info_file`; `stem` is the name of the file without its extension. A
number that is not positive is left blank. -/
def infoLines (stem : Bytes) (m : Meta) : List (String × Bytes) :=
  [("File Name", stem),
    ("Day", dayText (kst m.start_unix.toNat)),
    ("Up Time", hmsText (kst m.start_unix.toNat)),
    ("Down Time",
      if 0 < m.duration_s then hmsText (kst (m.start_unix.toNat + ⌊m.duration_s + 1 / 2⌋.toNat))
      else []),
    ("Duration", if 0 < m.duration_s then fmtFixed 1 m.duration_s ++ ascii " s" else []),
    ("Frequency",
      if 0 < m.center_freq_hz then
        fmtFixed 4 (double (m.center_freq_hz.toNat / 10 ^ 6)) ++ ascii " MHz"
      else []),
    ("Target", m.target),
    ("Location", m.station),
    ("Modulation", m.modulation),
    ("Bandwidth",
      if 0 < m.bandwidth_hz then fmtFixed 1 (double (m.bandwidth_hz / 1000)) ++ ascii " kHz"
      else []),
    ("Signal Strength", m.signal_strength),
    ("Protocol", m.protocol),
    ("Recorder", m.recorder),
    ("Notes", m.notes),
    ("Tags", m.tags),
    ("Priority", m.priority),
    ("Operator", m.op)]

/-- The text of a `.info`. -/
def infoText (stem : Bytes) (m : Meta) : Bytes :=
  (infoLines stem m).flatMap fun kv => infoLine kv.1 kv.2

/-! ## Recordings -/

/-- What describes a recording in both sidecars: values that fill one line each, the time at which
it began (both writers put the present in place of a time that is not positive) in a year that an
`int` holds, and sizes that the buffers and the fields of a sighting hold. -/
structure Recording extends Meta where
  /-- The name of the file without its extension. -/
  stem : Bytes
  one_line : ∀ v ∈ stem :: toMeta.strings.map Prod.snd, (0 : UInt8) ∉ v ∧ lineFeed ∉ v
  start_pos : 0 < start_unix
  start_lt : start_unix < 2 ^ 55
  bandwidth_nonneg : 0 ≤ bandwidth_hz
  bandwidth_lt : bandwidth_hz < 10 ^ 40
  duration_nonneg : 0 ≤ duration_s
  duration_lt : duration_s < 2 ^ 32 - 1

end Bewe.Report

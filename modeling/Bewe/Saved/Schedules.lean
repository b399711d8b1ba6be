import Bewe.Saved.Missions

/-!
# The saved schedules

The SCHED_SYNC packets that Central keeps for its stations (`sched_by_station_`), and how they go
into `schedules.json` and come back from it (`save_schedules_to_json`, `load_schedules_from_json`).
Only entries that wait are saved, and only those whose end is not past are loaded. The reader is
`JScan`, a cursor that takes any number of commas for white space; the fuel of a loop is the length
of the text before it.
-/

namespace Bewe.Saved

open Lib
open EmitterDb (quote comma colon openBrace closeBrace openBracket closeBracket member object)

/-! ## Schedules -/

/-- The most entries of a packet. -/
def MAX_SCHED_ENTRIES : ℕ := 32

/-- `SchedSyncEntry`. -/
structure SchedSyncEntry where
  valid : UInt8 := 0
  status : UInt8 := 0
  op_index : UInt8 := 0
  start_time : Int64 := 0
  duration_sec : Fp 24 := .ofRat float_pos 0
  freq_mhz : Fp 24 := .ofRat float_pos 0
  bw_khz : Fp 24 := .ofRat float_pos 0
  operator_name : Chars 32 := .ofStr 32 []
  target : Chars 32 := .ofStr 32 []
  mission_year : UInt16 := 0
  mission_code : Chars 8 := .ofStr 8 []
  sr_hz : UInt32 := 0
  deriving DecidableEq

/-- `PktSchedSync`. -/
structure PktSchedSync where
  count : UInt8
  entries : List SchedSyncEntry
  size : entries.length = MAX_SCHED_ENTRIES
  deriving DecidableEq

/-- The entries that the count covers. -/
def PktSchedSync.counted (p : PktSchedSync) : List SchedSyncEntry :=
  p.entries.take (min p.count.toNat MAX_SCHED_ENTRIES)

/-- The entries that are saved: the valid ones that wait. -/
def PktSchedSync.kept (p : PktSchedSync) : List SchedSyncEntry :=
  p.counted.filter fun e => e.valid ≠ 0 ∧ e.status = 0

/-- `sched_by_station_`. -/
abbrev SchedMap := StationMap PktSchedSync

/-- The entries kept under a key. -/
def SchedMap.entriesAt (m : SchedMap) (k : Bytes) : List SchedSyncEntry :=
  match m.find k with
  | some (some p) => p.kept
  | _ => []

/-! ## Saving -/

/-- The members of an entry that `save_schedules_to_json` writes. -/
def schedMembers (e : SchedSyncEntry) : List (String × Bytes) :=
  [("start_time", intText e.start_time.toInt),
    ("duration_sec", e.duration_sec.fmt 3),
    ("freq_mhz", e.freq_mhz.fmt 6),
    ("bw_khz", e.bw_khz.fmt 3),
    ("sr_hz", natText e.sr_hz.toNat),
    ("status", natText e.status.toNat),
    ("op_index", natText e.op_index.toNat),
    ("operator_name", quoted e.operator_name.str),
    ("target", quoted e.target.str)]

/-- One entry of `save_schedules_to_json`. -/
def schedEntryText (e : SchedSyncEntry) : Bytes :=
  object ((schedMembers e).map fun m => member m.1 m.2)

/-- One station of `save_schedules_to_json`. -/
def schedStationText (sid : Bytes) (entries : List SchedSyncEntry) : Bytes :=
  ascii "    " ++ openBrace :: ascii "\"station_id\":" ++ quoted (cStr sid) ++
    ascii ",\"entries\":[" ++ List.intercalate [comma] (entries.map schedEntryText) ++
    closeBracket :: [closeBrace]

/-- The stations that have something to save, and what. -/
def SchedMap.saved (m : SchedMap) : List (Bytes × List SchedSyncEntry) :=
  (m.snapshots.map fun kp => (kp.1, kp.2.kept)).filter fun ke => ke.2 ≠ []

/-- `save_schedules_to_json`. -/
def saveSchedulesToJson (m : SchedMap) : Bytes :=
  openBrace :: ascii "\n  \"stations\": [\n" ++
    List.intercalate (ascii ",\n") (m.saved.map fun ke => schedStationText ke.1 ke.2) ++
    ascii "\n  ]\n" ++ closeBrace :: ascii "\n"

/-! ## `JScan` -/

namespace JScan

/-- `skip_ws`. -/
def skipWs (t : Bytes) : Bytes := t.dropWhile isSep

/-- `consume`: whether the next byte is `c`, and the text after it if it is. -/
def consume (c : UInt8) (t : Bytes) : Bool × Bytes :=
  match skipWs t with
  | d :: r => if d = c then (true, r) else (false, d :: r)
  | [] => (false, [])

/-- `peek`. -/
def peek (c : UInt8) (t : Bytes) : Bool := (skipWs t).head? = some c

/-- `read_string`: the string, if there is one. -/
def readString (t : Bytes) : Option Bytes × Bytes :=
  match skipWs t with
  | c :: r =>
    if c = quote then (some (scanChars r).1, (scanChars r).2.tail) else (none, c :: r)
  | [] => (none, [])

/-- `read_number`: the number, if there is one. -/
def readNumber (t : Bytes) : Option (Fp 53) × Bytes :=
  let s := (skipWs t).takeWhile isNumByte
  if s = [] then (none, skipWs t) else (some (strtod s).1, (skipWs t).dropWhile isNumByte)

/-- `read_key`: the key, if there is one with a colon behind it. -/
def readKey (t : Bytes) : Option Bytes × Bytes :=
  match readString t with
  | (none, t) => (none, t)
  | (some k, t) =>
    match skipWs t with
    | c :: r => if c = colon then (some k, r) else (none, c :: r)
    | [] => (none, [])

/-- A value of an unknown key is passed over. -/
def skipUnknown (t : Bytes) : Bytes :=
  if peek quote t then (readString t).2 else (readNumber t).2

end JScan

/-! ## Loading -/

/-- A number read into a field that is zero where there is none. -/
def numberOr0 (r : Option (Fp 53) × Bytes) : Fp 53 := r.1.getD (.ofRat double_pos 0)

/-- `strncpy` into `char[32]`, which keeps the last byte zero. -/
def copyName (s : Bytes) : Chars 32 := .ofStr 32 ((cStr s).take 31)

/-- The branches of an entry's keys. -/
def schedField (key : Bytes) (e : SchedSyncEntry) (t : Bytes) : SchedSyncEntry × Bytes :=
  let n := JScan.readNumber t
  let s := JScan.readString t
  if key = ascii "start_time" then
    ({ e with start_time := Int64.ofInt (toLongLong (numberOr0 n)) }, n.2)
  else if key = ascii "duration_sec" then
    ({ e with duration_sec := (numberOr0 n).cast float_pos }, n.2)
  else if key = ascii "freq_mhz" then
    ({ e with freq_mhz := (numberOr0 n).cast float_pos }, n.2)
  else if key = ascii "bw_khz" then ({ e with bw_khz := (numberOr0 n).cast float_pos }, n.2)
  else if key = ascii "sr_hz" then
    ({ e with sr_hz := UInt32.ofInt (toLongLong (numberOr0 n)) }, n.2)
  else if key = ascii "status" then
    ({ e with status := UInt8.ofInt (toLongLong (numberOr0 n)) }, n.2)
  else if key = ascii "op_index" then
    ({ e with op_index := UInt8.ofInt (toLongLong (numberOr0 n)) }, n.2)
  else if key = ascii "operator_name" then
    ({ e with operator_name := copyName (s.1.getD []) }, s.2)
  else if key = ascii "target" then ({ e with target := copyName (s.1.getD []) }, s.2)
  else (e, JScan.skipUnknown t)

/-- The loop over the members of an entry. -/
def readEntry : ℕ → SchedSyncEntry → Bytes → SchedSyncEntry × Bytes
  | 0, e, t => (e, t)
  | fuel + 1, e, t =>
    match JScan.readKey t with
    | (none, t) => (e, t)
    | (some k, t) =>
      let r := schedField k e t
      if JScan.peek closeBrace r.2 then (r.1, JScan.skipWs r.2) else readEntry fuel r.1 r.2

/-- A duration in whole seconds, as the conversion to `time_t` leaves it. -/
def wholeSeconds : Fp 24 → ℤ
  | .fin q _ => toLongLong (.ofRat double_pos q)
  | _ => -2 ^ 63

/-- An entry whose end is past. -/
def SchedSyncEntry.isPast (now : ℤ) (e : SchedSyncEntry) : Bool :=
  e.start_time.toInt + wholeSeconds e.duration_sec < now

/-- The loop over the entries of a station. -/
def readEntries (now : ℤ) : ℕ → List SchedSyncEntry → Bytes → List SchedSyncEntry × Bytes
  | 0, es, t => (es, t)
  | fuel + 1, es, t =>
    if JScan.peek closeBracket t then (es, JScan.skipWs t)
    else
      match JScan.consume openBrace t with
      | (false, t) => (es, t)
      | (true, t) =>
        let r := readEntry (t.length + 1) { valid := 1 } t
        let t := (JScan.consume closeBrace r.2).2
        readEntries now fuel (if r.1.isPast now then es else es ++ [r.1]) t

/-- What is read of a station. -/
structure Station where
  sid : Bytes := []
  entries : List SchedSyncEntry := []

/-- The loop over the members of a station. -/
def readStation (now : ℤ) : ℕ → Station → Bytes → Station × Bytes
  | 0, s, t => (s, t)
  | fuel + 1, s, t =>
    match JScan.readKey t with
    | (none, t) => (s, t)
    | (some k, t) =>
      if k = ascii "entries" ∧ (JScan.consume openBracket t).1 = false then
        (s, (JScan.consume openBracket t).2)
      else
        let r : Station × Bytes :=
          if k = ascii "station_id" then
            ({ s with sid := (JScan.readString t).1.getD s.sid }, (JScan.readString t).2)
          else if k = ascii "entries" then
            let t := (JScan.consume openBracket t).2
            let r := readEntries now (t.length + 1) s.entries t
            ({ s with entries := r.1 }, (JScan.consume closeBracket r.2).2)
          else (s, JScan.skipUnknown t)
        if JScan.peek closeBrace r.2 then (r.1, JScan.skipWs r.2)
        else readStation now fuel r.1 r.2

/-- `pkt_sched_sync_from_entries`. -/
def pktSchedSyncFromEntries (entries : List SchedSyncEntry) : PktSchedSync where
  count := UInt8.ofNat (min entries.length MAX_SCHED_ENTRIES)
  entries :=
    (entries ++ List.replicate MAX_SCHED_ENTRIES ({} : SchedSyncEntry)).take MAX_SCHED_ENTRIES
  size := by simp

/-- A station that has been read is kept if it has an id and entries. -/
def SchedMap.keep (m : SchedMap) (s : Station) : SchedMap :=
  if s.sid ≠ [] ∧ s.entries ≠ [] then m.set s.sid (some (pktSchedSyncFromEntries s.entries)) else m

/-- The loop over the stations. -/
def readSchedStations (now : ℤ) : ℕ → SchedMap → Bytes → SchedMap
  | 0, m, _ => m
  | fuel + 1, m, t =>
    if JScan.peek closeBracket t then m
    else
      match JScan.consume openBrace t with
      | (false, _) => m
      | (true, t) =>
        let r := readStation now (t.length + 1) {} t
        readSchedStations now fuel (m.keep r.1) (JScan.consume closeBrace r.2).2

/-- The loop that passes over the value of another key, at a depth. -/
def skipDepth : ℕ → Bytes → Bytes
  | _, [] => []
  | 0, t => t
  | depth + 1, c :: t =>
    if c = openBracket ∨ c = openBrace then skipDepth (depth + 2) t
    else if c = closeBracket ∨ c = closeBrace then skipDepth depth t
    else skipDepth (depth + 1) t

/-- The loop over the members of the file. -/
def readSchedFile (now : ℤ) : ℕ → Bytes → SchedMap
  | 0, _ => StationMap.empty
  | fuel + 1, t =>
    match JScan.readKey t with
    | (none, _) => StationMap.empty
    | (some k, t) =>
      if k ≠ ascii "stations" then
        match JScan.consume openBracket t with
        | (true, t) => readSchedFile now fuel (skipDepth 1 t)
        | (false, t) =>
          match JScan.consume openBrace t with
          | (true, t) => readSchedFile now fuel (skipDepth 1 t)
          | (false, _) => StationMap.empty
      else
        match JScan.consume openBracket t with
        | (false, _) => StationMap.empty
        | (true, t) => readSchedStations now (t.length + 1) StationMap.empty t

/-- `load_schedules_from_json` at the time `now`, of the bytes of the file. -/
def loadSchedulesFromJson (now : ℤ) (file : Bytes) : SchedMap :=
  match JScan.consume openBrace file with
  | (false, _) => StationMap.empty
  | (true, t) => readSchedFile now (t.length + 1) t

/-- What Central has after a restart at the time `now`. -/
def SchedMap.restart (now : ℤ) (m : SchedMap) : SchedMap :=
  loadSchedulesFromJson now (saveSchedulesToJson m)

end Bewe.Saved

import Bewe.Saved.StationMap
import Bewe.Saved.Text

/-!
# The saved missions

The MISSION_SYNC packets that Central keeps for its stations (`missions_by_station_`), and how they
go into `missions.json` and come back from it (`save_missions_to_json`, `load_missions_from_json`).
The reader is a cursor over the text of the file up to a NUL, with the loops of the source; the
fuel of a loop is the length of the text before it. A `long long` that a `double` does not fit into
is the least one, as the conversion leaves it.
-/

namespace Bewe.Saved

open Lib
open EmitterDb (quote comma colon openBrace closeBrace openBracket closeBracket lineFeed
  carriageReturn tab member object truncate)

/-! ## Snapshots -/

/-- The most missions in the history of a packet. -/
def MAX_MISSION_HISTORY_PER_PKT : ℕ := 32

/-- `MissionSyncEntry`. -/
structure MissionSyncEntry where
  valid : UInt8 := 0
  state : UInt8 := 0
  op_index : UInt8 := 0
  rollover : UInt8 := 0
  year : UInt16 := 0
  code : Chars 8 := .ofStr 8 []
  start_utc : Int64 := 0
  end_utc : Int64 := 0
  started_by : Chars 32 := .ofStr 32 []
  station_name : Chars 64 := .ofStr 64 []
  host_name : Chars 32 := .ofStr 32 []
  lat : Fp 24 := .ofRat float_pos 0
  lon : Fp 24 := .ofRat float_pos 0
  sdr_kind : Chars 24 := .ofStr 24 []
  antenna : Chars 64 := .ofStr 64 []
  deriving DecidableEq

/-- `PktMissionSync`. -/
structure PktMissionSync where
  active_valid : UInt8
  history_count : UInt16
  active : MissionSyncEntry
  entries : List MissionSyncEntry
  size : entries.length = MAX_MISSION_HISTORY_PER_PKT
  deriving DecidableEq

/-- The entries that the count covers. -/
def PktMissionSync.history (p : PktMissionSync) : List MissionSyncEntry :=
  p.entries.take (min p.history_count.toNat MAX_MISSION_HISTORY_PER_PKT)

/-- The missions of a packet: the active one, and the valid ones of the history. -/
def PktMissionSync.missions (p : PktMissionSync) : List MissionSyncEntry :=
  (if p.active_valid ≠ 0 then [p.active] else []) ++ p.history.filter (·.valid ≠ 0)

/-- `history_count + (active_valid ? 1 : 0)`. -/
def PktMissionSync.count (p : PktMissionSync) : ℕ :=
  p.history_count.toNat + if p.active_valid ≠ 0 then 1 else 0

/-- A packet of MISSION_SYNC as it is kept; none if it is too short to hold a `PktMissionSync`. -/
abbrev Blob := Option PktMissionSync

/-- The name of an entry's station. HOST ends it with a NUL; without one the source would read on. -/
def nameOf (e : MissionSyncEntry) : Option Bytes :=
  if e.valid ≠ 0 ∧ e.station_name.str ≠ [] then some e.station_name.str else none

/-- `mission_sync_station_key`: the name in the active mission, or the first one in the history, or
the id of the room, empty where there is no room. -/
def missionSyncStationKey (room_id : Bytes) : Blob → Bytes
  | none => room_id
  | some p =>
    match (if p.active_valid ≠ 0 then nameOf p.active else none) with
    | some n => n
    | none => (p.history.findSome? nameOf).getD room_id

/-- `missions_by_station_`. -/
abbrev MissionMap := StationMap PktMissionSync

/-- The missions kept under a key. -/
def MissionMap.missionsAt (m : MissionMap) (k : Bytes) : List MissionSyncEntry :=
  match m.find k with
  | some (some p) => p.missions
  | _ => []

/-! ## Saving -/

/-- The members that `mission_entry_to_json` writes. -/
def missionMembers (e : MissionSyncEntry) : List (String × Bytes) :=
  [("state", natText e.state.toNat),
    ("op_index", natText e.op_index.toNat),
    ("rollover", natText e.rollover.toNat),
    ("year", natText e.year.toNat),
    ("code", quoted e.code.str),
    ("start_utc", intText e.start_utc.toInt),
    ("end_utc", intText e.end_utc.toInt),
    ("started_by", quoted e.started_by.str),
    ("station", quoted e.station_name.str),
    ("host", quoted e.host_name.str),
    ("lat", e.lat.fmt 6),
    ("lon", e.lon.fmt 6),
    ("sdr", quoted e.sdr_kind.str),
    ("antenna", quoted e.antenna.str)]

/-- `mission_entry_to_json`. -/
def missionEntryToJson (e : MissionSyncEntry) : Bytes :=
  object ((missionMembers e).map fun m => member m.1 m.2)

/-- One station of `save_missions_to_json`. -/
def stationText (sid : Bytes) (missions : List MissionSyncEntry) : Bytes :=
  ascii "    " ++ openBrace :: ascii "\"station_id\":" ++ quoted (cStr sid) ++
    ascii ",\"missions\":[" ++ List.intercalate [comma] (missions.map missionEntryToJson) ++
    closeBracket :: [closeBrace]

/-- `save_missions_to_json`. -/
def saveMissionsToJson (m : MissionMap) : Bytes :=
  openBrace :: ascii "\n  \"stations\": [\n" ++
    List.intercalate (ascii ",\n") (m.list.filterMap fun kb =>
      kb.2.map fun p => stationText kb.1 p.missions) ++
    ascii "\n  ]\n" ++ closeBrace :: ascii "\n"

/-! ## Loading -/

/-- What the loops pass over after a colon, and after a value. -/
def isBlank (c : UInt8) : Bool := c = 32 || c = tab
@[inherit_doc isBlank] def isGap (c : UInt8) : Bool := c = 32 || c = tab || c = lineFeed

/-- `strstr`: the text from the first place on at which `pat` stands. -/
def strstr (pat : Bytes) : Bytes → Option Bytes
  | [] => if pat = [] then some [] else none
  | c :: t => if pat.isPrefixOf (c :: t) then some (c :: t) else strstr pat t

/-- The conversion of a `double` to a `long long`. -/
def toLongLong : Fp 53 → ℤ
  | .fin q _ => if -2 ^ 63 ≤ truncate q ∧ truncate q < 2 ^ 63 then truncate q else -2 ^ 63
  | _ => -2 ^ 63

/-- The branches for a string. -/
def setString (key val : Bytes) (e : MissionSyncEntry) : MissionSyncEntry :=
  if key = ascii "code" then { e with code := .ofStr 8 val }
  else if key = ascii "started_by" then { e with started_by := .ofStr 32 val }
  else if key = ascii "station" then { e with station_name := .ofStr 64 val }
  else if key = ascii "host" then { e with host_name := .ofStr 32 val }
  else if key = ascii "sdr" then { e with sdr_kind := .ofStr 24 val }
  else if key = ascii "antenna" then { e with antenna := .ofStr 64 val }
  else e

/-- The branches for a number. -/
def setNumber (key : Bytes) (dv : Fp 53) (e : MissionSyncEntry) : MissionSyncEntry :=
  let iv := toLongLong dv
  if key = ascii "state" then { e with state := UInt8.ofInt iv }
  else if key = ascii "op_index" then { e with op_index := UInt8.ofInt iv }
  else if key = ascii "rollover" then { e with rollover := UInt8.ofInt iv }
  else if key = ascii "year" then { e with year := UInt16.ofInt iv }
  else if key = ascii "start_utc" then { e with start_utc := Int64.ofInt iv }
  else if key = ascii "end_utc" then { e with end_utc := Int64.ofInt iv }
  else if key = ascii "lat" then { e with lat := dv.cast float_pos }
  else if key = ascii "lon" then { e with lon := dv.cast float_pos }
  else e

/-- A value, put where its key says. -/
def readValue (key : Bytes) (e : MissionSyncEntry) (t : Bytes) : MissionSyncEntry × Bytes :=
  if t.head? = some quote then
    (setString key (parseStr 512 t).2.1 e, (parseStr 512 t).2.2)
  else (setNumber key (strtod t).1 e, (strtod t).2)

/-- The loop over the members of a mission. -/
def readFields : ℕ → MissionSyncEntry → Bytes → MissionSyncEntry × Bytes
  | 0, e, t => (e, t)
  | fuel + 1, e, t =>
    if t = [] ∨ t.head? = some closeBrace then (e, t)
    else
      let t := t.dropWhile isSep
      if t.head? = some closeBrace then (e, t)
      else
        match parseStr 32 t with
        | (false, _, t) => (e, t)
        | (true, key, t) =>
          match t.dropWhile (· ≠ colon) with
          | [] => (e, [])
          | _ :: t =>
            let r := readValue key e (t.dropWhile isBlank)
            readFields fuel r.1 (r.2.dropWhile isGap)

/-- Whether a mission goes into the slot of the active one. -/
def MissionSyncEntry.isActive (e : MissionSyncEntry) : Bool := e.state = 1 && e.end_utc = 0

theorem nil_fits : ([] : List MissionSyncEntry).length ≤ MAX_MISSION_HISTORY_PER_PKT := by decide

/-- The packet of a station as it is put together. -/
structure Loading where
  active : Option MissionSyncEntry := none
  hist : List MissionSyncEntry := []
  size : hist.length ≤ MAX_MISSION_HISTORY_PER_PKT := by exact Bewe.Saved.nil_fits

/-- A mission is put into the slot of the active one, behind the history, or nowhere. -/
def Loading.place (s : Loading) (e : MissionSyncEntry) : Loading :=
  if e.isActive && s.active.isNone then { s with active := some e }
  else if h : s.hist.length < MAX_MISSION_HISTORY_PER_PKT then
    { s with hist := s.hist ++ [e], size := by simpa using h }
  else s

/-- The missions that the packet has. -/
def Loading.missions (s : Loading) : List MissionSyncEntry := s.active.toList ++ s.hist

theorem Loading.length_filled (s : Loading) (e : MissionSyncEntry) :
    (s.hist ++ List.replicate (MAX_MISSION_HISTORY_PER_PKT - s.hist.length) e).length =
      MAX_MISSION_HISTORY_PER_PKT := by
  have := s.size
  simp
  omega

/-- The packet. -/
def Loading.pkt (s : Loading) : PktMissionSync where
  active_valid := if s.active.isSome then 1 else 0
  history_count := UInt16.ofNat s.hist.length
  active := s.active.getD {}
  entries := s.hist ++ List.replicate (MAX_MISSION_HISTORY_PER_PKT - s.hist.length) {}
  size := s.length_filled {}

/-- The loop over the missions of a station. -/
def readMissions : ℕ → Loading → Bytes → Loading × Bytes
  | 0, s, t => (s, t)
  | fuel + 1, s, t =>
    match t.dropWhile isSep with
    | [] => (s, [])
    | c :: r =>
      if c = openBrace then
        let r := readFields (r.length + 1) { valid := 1 } r
        readMissions fuel (s.place r.1) (if r.2.head? = some closeBrace then r.2.tail else r.2)
      else (s, c :: r)

/-- The key of a packet that is loaded: the name of its station, or the id in the file. -/
def storeKey (sid : Bytes) (p : PktMissionSync) : Bytes :=
  if missionSyncStationKey [] (some p) = [] then sid else missionSyncStationKey [] (some p)

/-- A packet is kept under its key, unless there is one with as many missions. -/
def MissionMap.store (m : MissionMap) (sid : Bytes) (p : PktMissionSync) : MissionMap :=
  match m.find (storeKey sid p) with
  | some (some old) => if p.count ≤ old.count then m else m.set (storeKey sid p) (some p)
  | _ => m.set (storeKey sid p) (some p)

/-- The loop over the stations. -/
def readStations : ℕ → MissionMap → Bytes → MissionMap
  | 0, m, _ => m
  | fuel + 1, m, t =>
    match strstr (ascii "\"station_id\"") t with
    | none => m
    | some t =>
      match parseStr 64 (t.drop 12) with
      | (false, _, _) => m
      | (true, sid, t) =>
        match strstr (ascii "\"missions\"") t with
        | none => readStations fuel m t
        | some missions_key =>
          -- the key belongs to a station further on
          if ((strstr (ascii "\"station_id\"") t).any fun n => missions_key.length < n.length) then
            readStations fuel m t
          else
            match (missions_key.drop 10).dropWhile (· ≠ openBracket) with
            | [] => m
            | _ :: t =>
              let r := readMissions (t.length + 1) {} t
              readStations fuel
                (if r.1.missions = [] then m else m.store sid r.1.pkt) r.2

/-- `load_missions_from_json`, of the bytes of the file. -/
def loadMissionsFromJson (file : Bytes) : MissionMap :=
  readStations ((cStr file).length + 1) StationMap.empty (cStr file)

/-- What Central has after a restart. -/
def MissionMap.restart (m : MissionMap) : MissionMap := loadMissionsFromJson (saveMissionsToJson m)

end Bewe.Saved

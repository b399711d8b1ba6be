import Bewe.Lib.Single
import Bewe.Lib.Tree
import Bewe.Paths.Contained
import Bewe.Saved.Missions

/-!
# The missions of HOST

What HOST knows of its missions (`mission_state`, the fields of the active mission,
`mission_history`) and what it writes of them to its disk: `missions.json`, which lists the active
mission and those of the history, and `mission.info` in the directory of the active one. The disk is
a tree of directories and files, in which the missions have their directories by station, year and
code.
-/

namespace Bewe.HostMission

open Lib
open EmitterDb (quote comma colon openBrace closeBrace member)
open Paths (components)
open Saved (jsonEscape quoted)

/-! ## Strings and missions -/

/-- A C string. -/
structure CString where
  bytes : Bytes
  no_nul : (0 : UInt8) ∉ bytes
  deriving DecidableEq

/-- The string in a `char[cap]`. -/
structure Str (cap : ℕ) extends CString where
  fits : bytes.length < cap
  deriving DecidableEq

/-- What `strncpy(dst, s, sizeof(dst) - 1)` leaves in an array of zeros. -/
def Str.copy (cap : ℕ) (hcap : 0 < cap) (s : Bytes) : Str cap where
  bytes := (cStr s).take (cap - 1)
  no_nul h := Saved.zero_not_mem_cStr s (List.mem_of_mem_take h)
  fits := by
    rw [List.length_take]
    omega

/-- The empty string. -/
def Str.empty (cap : ℕ) (hcap : 0 < cap) : Str cap := .copy cap hcap []

theorem code_room : 0 < 8 := by decide
theorem kind_room : 0 < 24 := by decide
theorem name_room : 0 < 32 := by decide
theorem station_room : 0 < 64 := by decide

/-- `MissionEntry`. -/
structure MissionEntry where
  year : Int32 := 0
  code : Str 8 := .empty 8 code_room
  start_utc : Int64 := 0
  end_utc : Int64 := 0
  started_by : Str 32 := .empty 32 name_room
  op_index : UInt8 := 0
  rollover : UInt8 := 0
  station_name : Str 64 := .empty 64 station_room
  host_name : Str 32 := .empty 32 name_room
  lat : Single := .zero
  lon : Single := .zero
  sdr_kind : Str 24 := .empty 24 kind_room
  antenna : Str 64 := .empty 64 station_room
  deriving DecidableEq

/-- `Mission::State`. -/
inductive MissionState
  | idle
  | active
  | closing
  deriving DecidableEq

/-- The number of a state in `missions.json`. -/
def MissionState.toNat : MissionState → ℕ
  | .idle => 0
  | .active => 1
  | .closing => 2

/-- What HOST has: the state, the fields `mission_*`, the history, and the disk. -/
structure Host where
  mission_state : MissionState
  mission : MissionEntry
  mission_history : List MissionEntry
  disk : Tree Bytes Bytes

/-- The active mission. -/
def Host.active (h : Host) : Option MissionEntry :=
  if h.mission_state = .active then some h.mission else none

/-- All missions that HOST knows. -/
def Host.missions (h : Host) : List MissionEntry := h.active.toList ++ h.mission_history

/-! ## Text -/

/-- `mj_escape`. -/
def mjEscape (s : Bytes) : Bytes := jsonEscape s

/-- What `snprintf` leaves in `char buf[160]`. -/
def inBuf (s : Bytes) : Bytes := s.take 159

/-- The members of an entry up to its code. -/
def headText (state : MissionState) (e : MissionEntry) : Bytes :=
  openBrace :: ascii "\"state\":" ++ natText state.toNat ++ ascii ",\"op_index\":" ++
    natText e.op_index.toNat ++ ascii ",\"rollover\":" ++ natText e.rollover.toNat ++
    ascii ",\"year\":" ++ intText e.year.toInt ++ ascii ",\"code\":\""

/-- The members with numbers behind its code. -/
def scalarsText (e : MissionEntry) : Bytes :=
  ascii "\",\"start_utc\":" ++ intText e.start_utc.toInt ++ ascii ",\"end_utc\":" ++
    intText e.end_utc.toInt ++ ascii ",\"lat\":" ++ e.lat.val.fmt 6 ++ ascii ",\"lon\":" ++
    e.lon.val.fmt 6 ++ ascii ","

/-- `mj_entry_write`. -/
def mjEntryWrite (state : MissionState) (e : MissionEntry) : Bytes :=
  inBuf (headText state e) ++ mjEscape e.code.bytes ++ inBuf (scalarsText e) ++
    ascii "\"started_by\":\"" ++ mjEscape e.started_by.bytes ++
    ascii "\",\"station_name\":\"" ++ mjEscape e.station_name.bytes ++
    ascii "\",\"host_name\":\"" ++ mjEscape e.host_name.bytes ++
    ascii "\",\"sdr_kind\":\"" ++ mjEscape e.sdr_kind.bytes ++
    ascii "\",\"antenna\":\"" ++ mjEscape e.antenna.bytes ++ ascii "\"\x7d"

/-- The active mission as it is written, if it has a code: without an end and a rollover. -/
def writtenActive (active : Option MissionEntry) : List MissionEntry :=
  (active.toList.filter fun e => e.code.bytes ≠ []).map fun e =>
    { e with end_utc := 0, rollover := 0 }

/-- `missions.json`. -/
def missionsJson (active : Option MissionEntry) (history : List MissionEntry) : Bytes :=
  openBrace :: ascii "\n  \"version\": 1,\n  \"missions\": [\n" ++
    List.intercalate (ascii ",\n")
      (((writtenActive active).map (mjEntryWrite .active) ++ history.map (mjEntryWrite .idle)).map
        (ascii "    " ++ ·)) ++
    ascii "\n  ]\n" ++ closeBrace :: ascii "\n"

/-- `%0wd`. -/
def padInt (w : ℕ) (z : ℤ) : Bytes :=
  signText (z < 0) ++
    List.replicate (w - (intText z).length) (digitByte 0) ++ natText z.natAbs

/-- `struct tm`, as far as it is printed. -/
structure Tm where
  tm_year : ℤ
  tm_mon : ℤ
  tm_mday : ℤ
  tm_hour : ℤ
  tm_min : ℤ
  tm_sec : ℤ

section

-- `KST::to_tm`, and the place of the directory with the recordings
variable (toTm : Int64 → Tm) (recordings : List Bytes)

/-- `mission.info`. -/
def missionInfo (e : MissionEntry) : Bytes :=
  let tu := toTm e.start_utc
  ascii "Mission Code: " ++ padInt 4 e.year.toInt ++ ascii "/" ++ e.code.bytes ++
    ascii "\nStarted By: " ++ e.started_by.bytes ++
    ascii "\nStart: " ++ padInt 4 (1900 + tu.tm_year) ++ ascii "-" ++ padInt 2 (1 + tu.tm_mon) ++
    ascii "-" ++ padInt 2 tu.tm_mday ++ ascii " " ++ padInt 2 tu.tm_hour ++ ascii ":" ++
    padInt 2 tu.tm_min ++ ascii ":" ++ padInt 2 tu.tm_sec ++
    ascii "\nStation: " ++ e.station_name.bytes ++ ascii "\nHost: " ++ e.host_name.bytes ++
    ascii "\nLat: " ++ e.lat.val.fmt 6 ++ ascii "\nLon: " ++ e.lon.val.fmt 6 ++
    ascii "\nSDR: " ++ e.sdr_kind.bytes ++ ascii "\nAntenna: " ++ e.antenna.bytes ++
    ascii "\nOp Index: " ++ natText e.op_index.toNat ++ ascii "\n"

/-! ## Directories -/

/-- A path, as its components. -/
abbrev Path := List (PathStep Bytes)

/-- `missions_root`, as a place. -/
def missionsRoot : List Bytes := recordings ++ [ascii "missions"]

/-- `mission_dir`. -/
def missionDir (station : Bytes) (year : Int32) (code : Bytes) : Path :=
  (missionsRoot recordings).map .name ++
    components (join (join station (padInt 4 year.toInt)) code)

/-- The station of missions without one. -/
def unknownStation : Bytes := ascii "_unknown_"

/-- The station in whose directory a mission is. -/
def stationOf (e : MissionEntry) : Bytes :=
  if e.station_name.bytes = [] then unknownStation else e.station_name.bytes

/-- The directory of a mission. -/
def MissionEntry.dir (e : MissionEntry) : Path :=
  missionDir recordings (stationOf e) e.year e.code.bytes

/-! ## Saving and ending -/

/-- The disk with the directory of the missions and with `missions.json`. -/
def saveJson (h : Host) : Tree Bytes Bytes :=
  (h.disk.mkdir (recordings.map .name) (ascii "missions")).write
    ((missionsRoot recordings).map .name) (ascii "missions.json")
    (missionsJson h.active h.mission_history)

/-- `mission_save_meta_to_disk`. -/
def saveMetaToDisk (h : Host) : Host :=
  if h.mission_state = .active ∧ h.mission.code.bytes ≠ [] then
    { h with disk := (saveJson recordings h).write (h.mission.dir recordings)
                (ascii "mission.info") (missionInfo toTm h.mission) }
  else { h with disk := saveJson recordings h }

/-- `mission_end` at a time. The recorders that it stops are not part of the model. -/
def missionEnd (now : Int64) (h : Host) : Bool × Host :=
  if h.mission_state ≠ .active then (false, h)
  else
    (true, saveMetaToDisk toTm recordings
      { h with
        mission_state := .idle
        mission := {}
        mission_history :=
          h.mission_history ++ [{ h.mission with end_utc := now, rollover := 0 }] })

end

end Bewe.HostMission

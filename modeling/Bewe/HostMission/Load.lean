import Mathlib.Data.Bool.AllAny
import Bewe.HostMission.Model
import Bewe.Saved.MissionsRead
import Bewe.Saved.Missions

/-!
# Loading the missions of HOST

What `mission_load_history` does with a value of `missions.json`, by the key in front of it, and with a
mission that had not ended.
-/

namespace Bewe.HostMission

open Lib

/-! ## The reader -/

/-- Whether a value is taken for a number. -/
def startsNumber (c : UInt8) : Bool := isDigit c || c = minusByte || c = plusByte

/-- The branches for a string. -/
def setString (key val : Bytes) (e : MissionEntry) : MissionEntry :=
  if key = ascii "code" then { e with code := .copy 8 code_room val }
  else if key = ascii "started_by" then { e with started_by := .copy 32 name_room val }
  else if key = ascii "station_name" then { e with station_name := .copy 64 station_room val }
  else if key = ascii "host_name" then { e with host_name := .copy 32 name_room val }
  else if key = ascii "sdr_kind" then { e with sdr_kind := .copy 24 kind_room val }
  else if key = ascii "antenna" then { e with antenna := .copy 64 station_room val }
  else e

/-- The branches for a `double`. -/
def setDouble (key : Bytes) (v : Fp 53) (e : MissionEntry) : MissionEntry :=
  if key = ascii "lat" then { e with lat := .ofDouble v }
  else if key = ascii "lon" then { e with lon := .ofDouble v }
  else e

/-- The branches for a `long long`. -/
def setInteger (key : Bytes) (v : ℤ) (e : MissionEntry) : MissionEntry :=
  if key = ascii "op_index" then { e with op_index := UInt8.ofInt v }
  else if key = ascii "rollover" then { e with rollover := UInt8.ofInt v }
  else if key = ascii "year" then { e with year := Int32.ofInt v }
  else if key = ascii "start_utc" then { e with start_utc := Int64.ofInt v }
  else if key = ascii "end_utc" then { e with end_utc := Int64.ofInt v }
  else e

/-- A mission that had not ended is closed at the time of loading. -/
def closed (now : Int64) (e : MissionEntry) : MissionEntry :=
  if e.end_utc = 0 ∧ 0 < e.start_utc then { e with end_utc := now } else e

end Bewe.HostMission

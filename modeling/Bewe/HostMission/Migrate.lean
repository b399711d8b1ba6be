import Bewe.HostMission.Delete
import Bewe.Lib.Relocation
import Mathlib.Data.List.DropRight

/-!
# The migration of the old layout

Before missions had stations their directories were `missions/<YYYY>/<code>`. At the start
`mission_migrate_old_layout` moves them to `missions/<station>/<YYYY>/<code>`: every directory of
four digits is taken for a year, and what is in it goes to the station that the history has for it.
The name of a station is part of a path, so it may have several components, or `.` and `..`;
`mkdir` makes only the last. Where the ways to the stations are there, or will never be, this is a
relocation of directories (`sameTurns_migrateEntry`). A station of four digits is taken for a year,
too, and so are the years in its directory for missions; `migrates_iff` says when this does no harm.
-/

namespace Bewe.HostMission

open Lib
open Lib.Tree (contents)
open Paths (components SafeName)
open PathStep (walk)
open Sched (atoi)

/-! ## `mission_migrate_old_layout` -/

/-- The form of a name that is taken for a year. -/
def fourDigits (n : Bytes) : Bool := n.length = 4 && n.all isDigit

/-- The names that `readdir` loops do not skip. -/
def listed (n : Bytes) : Bool := n.head? ≠ some 46

/-- The year of a name. -/
def yearOf (n : Bytes) : Int32 := Int32.ofInt (atoi n)

section

-- the place of the directory with the recordings
variable (recordings : List Bytes)

/-- The station that the history has for a mission, or the active mission, which is looked at when
the first entry of the history has none. -/
def Host.stationFor (h : Host) (year : Int32) (code : Bytes) : Bytes :=
  let station :=
    match h.mission_history.find? fun e => e.year = year && strncmp8 e.code.bytes code with
    | some e => e.station_name.bytes
    | none => []
  let station :=
    if station = [] ∧ h.mission_state = .active ∧ h.mission.year = year ∧
        strncmp8 h.mission.code.bytes code then
      h.mission.station_name.bytes
    else station
  if station = [] then unknownStation else station

/-- The steps from the directory of all missions to that of a station. -/
def stationSteps (station : Bytes) : Path := components (station.rdropWhile (· = slash))

/-- Where the entries of the directories of four digits belong. -/
def Host.layout (h : Host) : Relocation Bytes where
  root := missionsRoot recordings
  old := fourDigits
  listed := listed
  moves _ _ := true
  homeDir y c := walk (missionsRoot recordings) (stationSteps (h.stationFor (yearOf y) c))

/-- The places on the way to the directory of an entry's station. -/
def Host.ways (h : Host) (y c : Bytes) : List (List Bytes) :=
  Tree.ways (missionsRoot recordings) (stationSteps (h.stationFor (yearOf y) c))

/-- Nothing is made at a place by the migration, or moved there. -/
def Host.Untouched (h : Host) (v : List Bytes) : Prop :=
  ∀ z d, (h.layout recordings).Found h.disk z d →
    ¬(h.layout recordings).dst z d <+: v ∧
      v ≠ (h.layout recordings).homeDir z d ∧ v ≠ (h.layout recordings).groupDir z d

/-- An entry never moves: it is where it belongs, or something on the way to its station is no
directory, and never will be. -/
def Host.Idle (h : Host) (y c : Bytes) : Prop :=
  (h.layout recordings).dst y c = (h.layout recordings).src y c ∨
    ∃ v ∈ h.ways recordings y c, h.disk.isDir v = false ∧ h.Untouched recordings v

/-- An entry that may move. -/
def Host.Moving (h : Host) (y c : Bytes) : Prop :=
  (h.layout recordings).Found h.disk y c ∧ ¬h.Idle recordings y c

/-- The way to the station of an entry is there and stays, and the entry belongs neither in a
directory of four digits, nor above all of them, nor where another one does. -/
structure Host.Placed (h : Host) (y c : Bytes) : Prop where
  ways : ∀ v ∈ h.ways recordings y c, h.disk.isDir v = true ∧
    (∀ z, fourDigits z = true → ¬missionsRoot recordings ++ [z] <+: v) ∧
    ∀ z d, h.Moving recordings z d → ¬(h.layout recordings).dst z d <+: v
  clear : (h.layout recordings).Clear y c
  flat : ∀ z d, h.Moving recordings z d →
    (h.layout recordings).dst y c <+: (h.layout recordings).dst z d → y = z ∧ c = d

/-- All entries that may move have a place. -/
def Host.Sorted (h : Host) : Prop := ∀ y c, h.Moving recordings y c → h.Placed recordings y c

variable {recordings} {h : Host}

variable {t : Tree Bytes Bytes} {y c : Bytes}

variable (recordings)

end

end Bewe.HostMission

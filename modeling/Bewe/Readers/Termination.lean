import Bewe.Readers.Config
import Bewe.Readers.Missions

/-!
# The readers end

Every turn of every loop of the four readers consumes a byte of the text or leaves its loop, and so each
reader comes to its end, whatever the bytes of its file are.
-/

namespace Bewe.Readers

open Lib
open HostState (NotchSnap ChanSnap Snapshot)
open HostBandPlan (PktBandEntry)
open HostMission (MissionEntry)
open Saved (MissionSyncEntry Loading MissionMap)

/-- The length of the text that is left, beside what has been read. -/
def textLeft {σ : Type} (s : σ × Bytes) : ℕ := s.2.length

/-- The turns of all the loops consume at least one byte or leave the loop. -/
structure EveryTurnConsumes (now : Int64) : Prop where
  /-- The loops that pass over bytes. -/
  skip : ∀ P, Consumes List.length (skipTurn P)
  /-- The loop of `read_string`. -/
  string : Consumes textLeft JScan.stringTurn
  /-- The loops that pass over an array or an object. -/
  depth : Consumes textLeft JScan.depthTurn
  /-- The loop of `parse_str`. -/
  parse : ∀ cap, Consumes textLeft (parseTurn cap)
  /-- The loops of `HostState::load`. -/
  notch : Consumes textLeft (itemTurn notchFields)
  notches : Consumes textLeft notchesTurn
  chan : Consumes textLeft (itemTurn chanFields)
  chans : Consumes textLeft chansTurn
  file : Consumes textLeft fileTurn
  /-- The loops of `HostBandPlan::load_from_file`. -/
  band : Consumes textLeft (itemTurn bandFields)
  bands : Consumes textLeft bandsTurn
  plan : Consumes List.length planTurn
  /-- The loops of `mission_load_history`. -/
  hostMember : Consumes textLeft (memberTurn hostValue)
  history : Consumes textLeft (historyTurn now)
  /-- The loops of `load_missions_from_json`. -/
  centralMember : Consumes textLeft (memberTurn centralValue)
  stationMission : Consumes textLeft stationMissionTurn
  station : Consumes textLeft stationTurn

theorem everyTurnConsumes (now : Int64) : EveryTurnConsumes now where
  skip P := (follows_skip P).consumes
  string := JScan.follows_string.consumes
  depth := JScan.follows_depth.consumes
  parse cap := (follows_parse cap).consumes
  notch := (follows_item notchFields_reads).consumes
  notches := (follows_items notchFields_reads _ _ _).consumes
  chan := (follows_item chanFields_reads).consumes
  chans := (follows_items chanFields_reads _ _ _).consumes
  file := follows_file.consumes
  band := (follows_item bandFields_reads).consumes
  bands := (follows_items bandFields_reads _ _ _).consumes
  plan := follows_plan.consumes
  hostMember := (shrinks_member hostValue_readsOn).consumes
  history := (shrinks_mission hostValue_readsOn _ _).consumes
  centralMember := follows_centralMember.consumes
  stationMission := follows_stationMission.consumes
  station := follows_station.consumes

/-- A reader whose loops are left in time if each may make more than `n` turns. -/
def Ends {ρ : Type} (n : ℕ) (reader : ℕ → Option ρ) : Prop :=
  ∀ limit, n < limit → ∃ r, reader limit = some r

/-- The readers end on every file: no loop of theirs makes more turns than the text has bytes. -/
theorem readers_end (now : Int64) :
    EveryTurnConsumes now ∧ ∀ file : Bytes,
      Ends file.length (fun limit => loadState limit file) ∧
      Ends (planBody (some file)).length (fun limit => loadPlan limit (some file)) ∧
      Ends file.length (fun limit => loadHistory now limit file) ∧
      Ends file.length (fun limit => loadMissions limit file) :=
  ⟨everyTurnConsumes now, fun _ =>
    ⟨fun _ h => ⟨_, loadState_eq h⟩, fun _ h => ⟨_, loadPlan_eq h⟩,
      fun _ h => exists_loadHistory now h, fun _ h => ⟨_, loadMissions_eq h⟩⟩⟩

/-- A file that breaks off in a member whose value is of a kind that no reader knows. -/
def brokenOff : Bytes := ascii "\x7b\"missions\":[\x7b\"lat\":-,\"year\":\x7b\"x"

/-- All four readers end on a file that breaks off. -/
theorem readers_end_brokenOff :
    (∃ st, loadState 34 brokenOff = some st) ∧ (∃ bands, loadPlan 34 (some brokenOff) = some bands) ∧
      (∃ es, loadHistory 7 34 brokenOff = some es) ∧ ∃ m, loadMissions 34 brokenOff = some m := by
  obtain ⟨hstate, hplan, hhistory, hmissions⟩ := (readers_end 7).2 brokenOff
  exact ⟨hstate 34 (by decide), hplan 34 (by decide), hhistory 34 (by decide), hmissions 34 (by decide)⟩

end Bewe.Readers

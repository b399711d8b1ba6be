import Bewe.Lib.Decimal
import Bewe.Text

/-!
# The signal library

Central's emitter database (`central/emitter_db.cpp`): sightings, one for each report, and emitters,
the groups of sightings taken for one signal. The two `std::map`s are `TreeMap`s, in the same key
order. A frequency or a score is the rational that the `float` stands for. What the operations take
from outside, the score, the random uid of a new emitter and the time, are parameters. An operation
returns the new database, and what it writes through its reference arguments.
-/

namespace Bewe

open Lib

/-- `MS_AUTO_HIGH` to `MS_MANUAL`, the values of `match_status`. -/
def MS_AUTO_HIGH : UInt8 := 0
@[inherit_doc MS_AUTO_HIGH] def MS_AUTO_LOW : UInt8 := 1
@[inherit_doc MS_AUTO_HIGH] def MS_PENDING : UInt8 := 2
@[inherit_doc MS_AUTO_HIGH] def MS_CONFIRMED : UInt8 := 3
@[inherit_doc MS_AUTO_HIGH] def MS_MANUAL : UInt8 := 5

/-- One observation: one report file. -/
structure Sighting where
  sighting_id : Bytes := []
  filename : Bytes := []
  reporter : Bytes := []
  station : Bytes := []
  freq_mhz : ℚ := 0
  bw_khz : ℚ := 0
  modulation : Bytes := []
  protocol : Bytes := []
  target : Bytes := []
  operator_name : Bytes := []
  tags : Bytes := []
  start_utc : ℤ := 0
  duration_s : UInt32 := 0
  /-- The emitter it belongs to, empty for none. -/
  emitter_uid : Bytes := []
  match_status : UInt8 := MS_PENDING
  deriving DecidableEq

/-- The sightings taken for one signal, and what is aggregated from them. -/
structure Emitter where
  emitter_uid : Bytes := []
  display_name : Bytes := []
  freq_center_mhz : ℚ := 0
  freq_tolerance_khz : ℚ := 1
  bw_khz : ℚ := 0
  modulation : Bytes := []
  protocol : Bytes := []
  tags_id : Bytes := []
  first_seen_utc : ℤ := 0
  last_seen_utc : ℤ := 0
  sighting_count : UInt32 := 0
  contributing_stations : List Bytes := []
  operator_notes : Bytes := []
  member_sighting_ids : List Bytes := []
  created_by : Bytes := []
  created_utc : ℤ := 0
  deriving DecidableEq

/-- `EmitterDb`: `emitters_` by uid and `sightings_` by id. -/
structure EmitterDb where
  emitters : Std.TreeMap Bytes Emitter := {}
  sightings : Std.TreeMap Bytes Sighting := {}

/-- `EmitterDb::MatchResult`. -/
structure MatchResult where
  emitter_uid : Bytes := []
  score : ℚ := 0
  status : UInt8 := MS_PENDING
  deriving DecidableEq

namespace EmitterDb

/-! ## Matching -/

/-- The best score of an emitter and its uid; `-1` and no uid when there is no emitter. The first
emitter wins among equals. -/
def bestMatch (score : Sighting → Emitter → ℚ) (s : Sighting)
    (emitters : Std.TreeMap Bytes Emitter) : ℚ × Bytes :=
  emitters.toList.foldl (fun best kv => if best.1 < score s kv.2 then (score s kv.2, kv.1) else best)
    (-1, [])

/-! ## Aggregates -/

/-- `INT64_MAX`. -/
def int64Max : ℤ := 2 ^ 63 - 1

/-- One member's share of the loop of `recompute_emitter_aggregate_`: the earliest start so far, the
latest, and the stations in the order they appear. -/
def aggregateStep (sightings : Std.TreeMap Bytes Sighting) (acc : ℤ × ℤ × List Bytes) (sid : Bytes) :
    ℤ × ℤ × List Bytes :=
  match sightings[sid]? with
  | none => acc
  | some s =>
    (if 0 < s.start_utc ∧ s.start_utc < acc.1 then s.start_utc else acc.1,
      if acc.2.1 < s.start_utc then s.start_utc else acc.2.1,
      if s.station ≠ [] ∧ s.station ∉ acc.2.2 then acc.2.2 ++ [s.station] else acc.2.2)

/-- `recompute_emitter_aggregate_`. -/
def recomputeEmitterAggregate (sightings : Std.TreeMap Bytes Sighting) (e : Emitter) : Emitter :=
  let acc := e.member_sighting_ids.foldl (aggregateStep sightings) (int64Max, 0, [])
  { e with
    sighting_count := UInt32.ofNat e.member_sighting_ids.length
    first_seen_utc := if acc.1 = int64Max then 0 else acc.1
    last_seen_utc := acc.2.1
    contributing_stations := acc.2.2 }

/-! ## Operations -/

/-- `snprintf(…, "%.4f MHz", f)`. -/
def mhzText (f : ℚ) : Bytes := fmtFixed 4 f ++ ascii " MHz"

/-- `make_emitter_from_`, with the uid that `new_emitter_uid` gives and the current time. -/
def makeEmitterFrom (uid : Bytes) (now : ℤ) (s : Sighting) (creator : Bytes) : Emitter where
  emitter_uid := uid
  display_name :=
    (mhzText s.freq_mhz ++ if s.modulation ≠ [] then ascii " " ++ cStr s.modulation else []).take 127
  freq_center_mhz := s.freq_mhz
  freq_tolerance_khz := 1
  bw_khz := s.bw_khz
  modulation := s.modulation
  protocol := s.protocol
  first_seen_utc := s.start_utc
  last_seen_utc := s.start_utc
  created_by := creator
  created_utc := now

/-- `emitters_[uid].member_sighting_ids.push_back(sid)` and the recomputation that follows it. -/
def pushMember (db : EmitterDb) (uid sid : Bytes) : EmitterDb :=
  let e := (db.emitters[uid]?).getD {}
  { db with emitters := db.emitters.insert uid (recomputeEmitterAggregate db.sightings
      { e with member_sighting_ids := e.member_sighting_ids ++ [sid] }) }

/-- A new emitter made from the sighting `s` of id `sid` in an `EmitterDb`, with it as the only
member, and the sighting stored as belonging to it. -/
def addNewEmitter (uid : Bytes) (now : ℤ) (status : UInt8) (db : EmitterDb) (sid : Bytes)
    (s : Sighting) : EmitterDb :=
  let sightings := db.sightings.insert sid { s with emitter_uid := uid, match_status := status }
  let ne := { makeEmitterFrom uid now s s.reporter with member_sighting_ids := [sid] }
  { emitters := db.emitters.insert uid (recomputeEmitterAggregate sightings ne), sightings }

/-- `ingest_sighting`, for a scoring function: the new database, the sighting as it is left in the
caller's variable, and the result. A sighting whose id is known keeps its link and replaces the
rest; one without a frequency waits; any other joins the emitter that scores best, or gets one of
its own. -/
def ingestSighting (score : Sighting → Emitter → ℚ) (uid : Bytes) (now : ℤ) (db : EmitterDb)
    (s : Sighting) : EmitterDb × Sighting × MatchResult :=
  match db.sightings[s.sighting_id]? with
  | some old =>
    let s := { s with emitter_uid := old.emitter_uid, match_status := old.match_status }
    ({ db with sightings := db.sightings.insert s.sighting_id s }, s,
      { emitter_uid := old.emitter_uid, status := old.match_status })
  | none =>
    if ¬0 < s.freq_mhz then
      let s := { s with match_status := MS_PENDING, emitter_uid := [] }
      ({ db with sightings := db.sightings.insert s.sighting_id s }, s, { status := MS_PENDING })
    else
      let best := bestMatch score s db.emitters
      if 17 / 20 ≤ best.1 then
        let s := { s with emitter_uid := best.2, match_status := MS_AUTO_HIGH }
        (pushMember { db with sightings := db.sightings.insert s.sighting_id s } best.2 s.sighting_id,
          s, { emitter_uid := best.2, score := best.1, status := MS_AUTO_HIGH })
      else if 11 / 20 ≤ best.1 then
        let s := { s with emitter_uid := best.2, match_status := MS_PENDING }
        (pushMember { db with sightings := db.sightings.insert s.sighting_id s } best.2 s.sighting_id,
          s, { emitter_uid := best.2, score := best.1, status := MS_PENDING })
      else
        (addNewEmitter uid now MS_AUTO_LOW db s.sighting_id s,
          { s with emitter_uid := uid, match_status := MS_AUTO_LOW },
          { emitter_uid := uid, score := if best.1 < 0 then 0 else best.1, status := MS_AUTO_LOW })

/-- The emitter that `upsert_emitter` stores: under a new uid if it brings none, with the managed
fields of the stored emitter if its uid is known, and with a name and a tolerance if it has none. -/
def upserted (uid : Bytes) (now : ℤ) (db : EmitterDb) (e : Emitter) : Emitter :=
  let e :=
    if e.emitter_uid = [] then
      { e with emitter_uid := uid, created_utc := if e.created_utc = 0 then now else e.created_utc }
    else
      match db.emitters[e.emitter_uid]? with
      | some old =>
        { e with
          first_seen_utc := old.first_seen_utc
          last_seen_utc := old.last_seen_utc
          sighting_count := old.sighting_count
          contributing_stations := old.contributing_stations
          member_sighting_ids := old.member_sighting_ids
          created_by := old.created_by
          created_utc := old.created_utc }
      | none => e
  { e with
    display_name := if e.display_name = [] then (mhzText e.freq_center_mhz).take 63 else e.display_name
    freq_tolerance_khz := if e.freq_tolerance_khz ≤ 0 then 1 else e.freq_tolerance_khz }

/-- `upsert_emitter`. -/
def upsertEmitter (uid : Bytes) (now : ℤ) (db : EmitterDb) (e : Emitter) : EmitterDb × Emitter :=
  let e := upserted uid now db e
  ({ db with emitters := db.emitters.insert e.emitter_uid e }, e)

/-- A sighting loses its emitter and waits again, as `delete_emitter` leaves each member. -/
def clearSighting (sightings : Std.TreeMap Bytes Sighting) (sid : Bytes) :
    Std.TreeMap Bytes Sighting :=
  match sightings[sid]? with
  | none => sightings
  | some s => sightings.insert sid { s with emitter_uid := [], match_status := MS_PENDING }

/-- `delete_emitter`. -/
def deleteEmitter (db : EmitterDb) (uid : Bytes) : EmitterDb × Bool :=
  match db.emitters[uid]? with
  | none => (db, false)
  | some e =>
    ({ emitters := db.emitters.erase uid
       sightings := e.member_sighting_ids.foldl clearSighting db.sightings }, true)

/-- Appending an id to an output list that may hold it already. -/
def noteUid (uids : List Bytes) (uid : Bytes) : List Bytes :=
  if uid ∈ uids then uids else uids ++ [uid]

/-- The database and the two output lists of `delete_sighting_by_filename`. -/
structure Removal where
  db : EmitterDb
  affected_out : List Bytes
  orphaned_out : List Bytes

/-- One turn of the loop of `delete_sighting_by_filename`: the sighting goes, its emitter forgets
it, and an emitter left without members goes too. -/
def removeSighting (r : Removal) (sid : Bytes) : Removal :=
  match r.db.sightings[sid]? with
  | none => r
  | some s =>
    let db := { r.db with sightings := r.db.sightings.erase sid }
    if s.emitter_uid = [] then { r with db }
    else
      match r.db.emitters[s.emitter_uid]? with
      | none => { r with db }
      | some e =>
        let e := { e with member_sighting_ids := e.member_sighting_ids.filter (· ≠ sid) }
        if e.member_sighting_ids = [] then
          { r with
            db := { db with emitters := db.emitters.erase s.emitter_uid }
            orphaned_out := noteUid r.orphaned_out s.emitter_uid }
        else
          { r with
            db := { db with emitters :=
              db.emitters.insert s.emitter_uid (recomputeEmitterAggregate db.sightings e) }
            affected_out := if s.emitter_uid ∈ r.orphaned_out then r.affected_out
              else noteUid r.affected_out s.emitter_uid }

/-- The ids of the sightings of a file, in the order of the map. -/
def sightingsOfFile (db : EmitterDb) (filename : Bytes) : List Bytes :=
  (db.sightings.toList.filter fun kv => kv.2.filename = filename).map Prod.fst

/-- `delete_sighting_by_filename`. -/
def deleteSightingByFilename (db : EmitterDb) (filename : Bytes)
    (affected_out orphaned_out : List Bytes) : Removal × Bool :=
  let sids := sightingsOfFile db filename
  (sids.foldl removeSighting ⟨db, affected_out, orphaned_out⟩, sids ≠ [])

/-- `remove_from_emitter` of `link_sighting`: the emitter forgets the sighting, and stays even when
it has no other. -/
def removeFromEmitter (sid : Bytes) (db : EmitterDb) (uid : Bytes) : EmitterDb :=
  if uid = [] then db
  else
    match db.emitters[uid]? with
    | none => db
    | some e =>
      { db with emitters := db.emitters.insert uid (recomputeEmitterAggregate db.sightings
          { e with member_sighting_ids := e.member_sighting_ids.filter (· ≠ sid) }) }

/-- `add_to_emitter` of `link_sighting`. -/
def addToEmitter (sid : Bytes) (db : EmitterDb) (uid : Bytes) : EmitterDb :=
  match db.emitters[uid]? with
  | none => db
  | some e =>
    { db with emitters := db.emitters.insert uid (recomputeEmitterAggregate db.sightings
        { e with member_sighting_ids :=
            if sid ∈ e.member_sighting_ids then e.member_sighting_ids
            else e.member_sighting_ids ++ [sid] }) }

/-- `link_sighting`: confirm (`0`), reject (`1`), move to a target (`2`), split off (`3`). -/
def linkSighting (uid : Bytes) (now : ℤ) (db : EmitterDb) (sid target : Bytes) (action : UInt8) :
    EmitterDb × Bool :=
  match db.sightings[sid]? with
  | none => (db, false)
  | some s =>
    if action = 0 then
      (if s.emitter_uid ≠ [] then
        { db with sightings := db.sightings.insert sid { s with match_status := MS_CONFIRMED } }
      else db, true)
    else if action = 1 ∨ action = 3 then
      (addNewEmitter uid now MS_MANUAL (removeFromEmitter sid db s.emitter_uid) sid s, true)
    else if action = 2 then
      let db := removeFromEmitter sid db s.emitter_uid
      let db := { db with sightings :=
        db.sightings.insert sid { s with emitter_uid := target, match_status := MS_MANUAL } }
      (if target ≠ [] then addToEmitter sid db target else db, true)
    else (db, false)

end EmitterDb

end Bewe

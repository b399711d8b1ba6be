import Bewe.Lib.Compare
import Bewe.Lib.Rebuild
import Bewe.Saved.Schedules

/-!
# The scheduler of recordings

The list of reservations of a HOST (`sched_entries`), the index of the one that is armed or records
(`sched_active_idx`), and what changes them: `on_add_sched` and `on_remove_sched` of the operators,
`SatSched::tick`, the list that Central sends back (`set_on_central_sched_sync`), and `sched_tick`.
Each operation is one critical section of `sched_mtx`; a `SatSched::tick` is a `satClean` and then
a `satFill` for each pass, with room for the others in between. Of the recorders the state keeps
those that `sched_tick` has started and that have not ended. Sums of a time and a duration are
exact, since a signed sum that overflows is undefined.
-/

namespace Bewe.Sched

open Lib
open Saved (Chars SchedSyncEntry PktSchedSync MAX_SCHED_ENTRIES wholeSeconds)

/-! ## Entries -/

/-- `SchedEntry::Status`; a list from Central brings any byte. -/
inductive Status
  | waiting
  | armed
  | recording
  | done
  | failed
  | other (b : UInt8)
  deriving DecidableEq

/-- The status that a byte is cast to. -/
def Status.ofByte (b : UInt8) : Status :=
  if b = 0 then .waiting
  else if b = 1 then .armed
  else if b = 2 then .recording
  else if b = 3 then .done
  else if b = 4 then .failed
  else .other b

/-- `MAX_CHANNELS`. -/
def MAX_CHANNELS : ℕ := 50

/-- `SCHED_PRE_ARM_SEC`, as a `time_t`. -/
def SCHED_PRE_ARM_SEC : ℤ := 5

/-- `SchedEntry`; `rec_started` is in nanoseconds of the steady clock. -/
structure SchedEntry where
  start_time : ℤ := 0
  duration_sec : Fp 24 := .ofRat float_pos 0
  freq_mhz : Fp 24 := .ofRat float_pos 0
  bw_khz : Fp 24 := .ofRat float_pos 0
  status : Status := .waiting
  temp_ch_idx : ℤ := -1
  rec_started : ℤ := 0
  operator_name : Chars 32 := .ofStr 32 []
  op_index : UInt8 := 0
  target : Chars 32 := .ofStr 32 []
  mission_year : ℤ := 0
  mission_code : Chars 8 := .ofStr 8 []
  sr_hz : UInt32 := 0
  deriving DecidableEq

/-- What a recording runs in: the full-band recorder, or that of a channel slot. -/
inductive Recorder
  | fullBand
  | channel (slot : ℤ)
  deriving DecidableEq

namespace SchedEntry

/-- The entry is armed or records. -/
def Busy (e : SchedEntry) : Prop := e.status = .armed ∨ e.status = .recording

instance (e : SchedEntry) : Decidable e.Busy := inferInstanceAs (Decidable (_ ∨ _))

/-- The entry is done or has failed. -/
def Finished (e : SchedEntry) : Prop := e.status = .done ∨ e.status = .failed

instance (e : SchedEntry) : Decidable e.Finished := inferInstanceAs (Decidable (_ ∨ _))

/-- The end of the entry in whole seconds. -/
def endTime (e : SchedEntry) : ℤ := e.start_time + wholeSeconds e.duration_sec

/-- The recorder that `sched_begin_rec` starts and `sched_stop_entry` stops, if there is one. -/
def recorder (e : SchedEntry) : Option Recorder :=
  if e.sr_hz > 0 then some .fullBand
  else if e.temp_ch_idx < 0 ∨ MAX_CHANNELS ≤ e.temp_ch_idx then none
  else some (.channel e.temp_ch_idx)

end SchedEntry

/-- `fabsf(x - y)`. -/
def fabsDiff (x y : Fp 24) : Fp 24 := (x.sub float_pos y).abs float_pos

/-- `0.0001f`, the distance in MHz from which on two frequencies differ. -/
def FREQ_EPS : Fp 24 := .ofRat float_pos (1 / 10000)

/-- The scheduler's part of `FFTViewer`, and the recorders that it has started. -/
structure State where
  sched_entries : List SchedEntry := []
  sched_active_idx : Option ℕ := none
  recorders : List Recorder := []

/-- The entry at the active index, if the index is one of the list. -/
def State.active (s : State) : Option SchedEntry :=
  s.sched_active_idx.bind fun i => s.sched_entries[i]?

/-! ## Producers -/

/-- `sched_has_overlap`. -/
def schedHasOverlap (entries : List SchedEntry) (start : ℤ) (dur : Fp 24) : Bool :=
  entries.any fun e => ¬e.Finished ∧
    start - SCHED_PRE_ARM_SEC < e.endTime ∧
      e.start_time - SCHED_PRE_ARM_SEC < start + wholeSeconds dur

/-- What an operator asks for, and the mission that is active then. -/
structure AddRequest where
  op_idx : UInt8
  op_name : Bytes
  start_time : Int64
  duration_sec : Fp 24
  freq_mhz : Fp 24
  bw_khz : Fp 24
  target : Bytes
  mission : Option (ℤ × Chars 8)

/-- The entry of a request. -/
def AddRequest.entry (q : AddRequest) : SchedEntry where
  start_time := q.start_time.toInt
  duration_sec := q.duration_sec
  freq_mhz := q.freq_mhz
  bw_khz := q.bw_khz
  op_index := q.op_idx
  operator_name := .ofStr 32 ((cStr q.op_name).take 31)
  target := .ofStr 32 ((cStr q.target).take 31)
  mission_year := (q.mission.map Prod.fst).getD 0
  mission_code := (q.mission.map Prod.snd).getD (.ofStr 8 [])

/-- Why an entry is not added. -/
inductive Refusal
  | invalidParams
  | pastTime
  | duplicate
  | overlap
  | listFull
  deriving DecidableEq

/-- The two tests that every producer makes. -/
def roomRefusal (entries : List SchedEntry) (start : ℤ) (dur : Fp 24) : Option Refusal :=
  if schedHasOverlap entries start dur then some .overlap
  else if MAX_SCHED_ENTRIES ≤ entries.length then some .listFull
  else none

/-- The tests of `on_add_sched`. -/
def addRefusal (now : ℕ) (q : AddRequest) (entries : List SchedEntry) : Option Refusal :=
  let zero : Fp 24 := .ofRat float_pos 0
  if q.duration_sec.le zero ∨ q.freq_mhz.le zero ∨ q.bw_khz.le zero then some .invalidParams
  else if q.start_time.toInt + wholeSeconds q.duration_sec < now then some .pastTime
  else roomRefusal entries q.start_time.toInt q.duration_sec

/-- `on_add_sched`. -/
def onAddSched (now : ℕ) (q : AddRequest) (s : State) : State :=
  match addRefusal now q s.sched_entries with
  | some _ => s
  | none => { s with sched_entries := s.sched_entries ++ [q.entry] }

/-- The entry is the one of a request to remove; a frequency that is a NaN is that of any entry. -/
def SchedEntry.named (start_time : Int64) (freq_mhz : Fp 24) (e : SchedEntry) : Bool :=
  start_time.toInt = e.start_time ∧ ¬FREQ_EPS.lt (fabsDiff freq_mhz e.freq_mhz)

/-- `on_remove_sched`; the index of the active entry stays as it is. -/
def onRemoveSched (start_time : Int64) (freq_mhz : Fp 24) (s : State) : State :=
  match s.sched_entries.findIdx? (·.named start_time freq_mhz) with
  | none => s
  | some i =>
    match s.sched_entries[i]? with
    | none => s
    | some e => if e.Busy then s else { s with sched_entries := s.sched_entries.eraseIdx i }

/-! ## `SatSched::tick` -/

/-- `SatSched::Rule`. -/
structure Rule where
  norad : ℤ
  cf_hz : Fp 53
  cap_hz : UInt32

/-- `(float)(cf_hz / 1e6)`. -/
def Rule.freq_mhz (r : Rule) : Fp 24 := (r.cf_hz.divRat double_pos (10 ^ 6)).cast float_pos

/-- `cap_hz / 1000.0f`. -/
def Rule.bw_khz (r : Rule) : Fp 24 :=
  (Fp.ofRat (p := 24) float_pos r.cap_hz.toNat).divRat float_pos 1000

/-- `HORIZON`, the seconds that passes are predicted ahead. -/
def HORIZON : ℤ := 86400

/-- `SatSched::Pass`, as `predict` finds it up to `now + HORIZON`. -/
structure Pass (now : ℕ) where
  aos : ℤ
  los : ℤ
  los_le : los ≤ now + HORIZON

/-- `atoi`. -/
def atoi (t : Bytes) : ℤ :=
  let s := readSign (t.dropWhile isSpace)
  (if s.1 then -1 else 1) * (valueOf (s.2.takeWhile isDigit) : ℤ)

/-- `target_of`. -/
def targetOf (norad : ℤ) : Bytes := ascii "SAT " ++ intText norad

/-- A rule from which the entry may have come. -/
def Rule.covers (r : Rule) (e : SchedEntry) : Bool :=
  r.norad = atoi (e.target.str.drop 4) ∧ e.sr_hz = 0 ∧
    (fabsDiff e.freq_mhz r.freq_mhz).lt FREQ_EPS ∧
      (fabsDiff e.bw_khz r.bw_khz).lt (.ofRat float_pos (1 / 100))

/-- An entry that `SatSched::tick` clears away: one of a satellite that waits without a rule, or
that has ended an hour ago. -/
def SchedEntry.cleared (now : ℕ) (rules : List Rule) (e : SchedEntry) : Bool :=
  ascii "SAT " <+: e.target.str ∧
    (¬rules.any (·.covers e) ∧ e.status = .waiting ∨ e.Finished ∧ e.endTime < now - 3600)

/-- One entry of the list that `SatSched::tick` keeps, and whether it is the active one. -/
def cleanEntry (now : ℕ) (rules : List Rule) (active : Option ℕ) (x : SchedEntry × ℕ) :
    Option (SchedEntry × Bool) :=
  if active = some x.2 then some (x.1, true)
  else if x.1.cleared now rules then none
  else some (x.1, false)

/-- The first critical section of `SatSched::tick`. -/
def satClean (now : ℕ) (rules : List Rule) (s : State) : State :=
  let kept := rebuild
    (s.sched_entries.zipIdx.filterMap (cleanEntry now rules s.sched_active_idx))
  { s with sched_entries := kept.1, sched_active_idx := kept.2 }

/-- Where the entry of a pass starts. -/
def Pass.start {now : ℕ} (p : Pass now) : ℤ := max p.aos (now + SCHED_PRE_ARM_SEC + 2)

/-- How long the entry of a pass lasts. -/
def Pass.dur {now : ℕ} (p : Pass now) : Fp 24 := .ofRat float_pos (p.los - p.start : ℤ)

/-- The entry of a pass. -/
def Pass.entry {now : ℕ} (p : Pass now) (r : Rule) : SchedEntry where
  start_time := p.start
  duration_sec := p.dur
  freq_mhz := r.freq_mhz
  bw_khz := r.bw_khz
  operator_name := .ofStr 32 (ascii "SAT")
  target := .ofStr 32 (targetOf r.norad)

/-- The tests that `SatSched::tick` makes for a pass. -/
def passRefusal {now : ℕ} (r : Rule) (p : Pass now) (entries : List SchedEntry) : Option Refusal :=
  if p.los - p.start < 10 then some .invalidParams
  else if entries.any fun e => e.target.str = targetOf r.norad ∧ e.start_time < p.los ∧
      p.aos < e.endTime then some .duplicate
  else roomRefusal entries p.start p.dur

/-- The critical section of `SatSched::tick` for a pass. -/
def satFill {now : ℕ} (r : Rule) (p : Pass now) (s : State) : State :=
  match passRefusal r p s.sched_entries with
  | some _ => s
  | none => { s with sched_entries := s.sched_entries ++ [p.entry r] }

/-! ## The list of Central -/

/-- The start time and the frequency by which the active entry is found in a list of Central; those
of no entry if there is none. -/
def State.activeKey (s : State) : ℤ × Fp 24 :=
  match s.active with
  | some e => (e.start_time, e.freq_mhz)
  | none => (-1, .ofRat float_pos 0)

/-- The entry of a list that is taken for the active one. -/
def State.isActive (s : State) (se : SchedSyncEntry) : Bool :=
  s.activeKey.1 = se.start_time.toInt ∧ (fabsDiff s.activeKey.2 se.freq_mhz).lt FREQ_EPS

/-- One entry of the list, and whether it is the active one. The status, the slot and the start of
an active entry come from `sched_entries[sched_active_idx]`, which is `outside` where the index is
not one of the list. -/
def restoreEntry (s : State) (outside : SchedEntry) (se : SchedSyncEntry) :
    Option (SchedEntry × Bool) :=
  if se.valid = 0 then none
  else
    let ne : SchedEntry :=
      { start_time := se.start_time.toInt
        duration_sec := se.duration_sec
        freq_mhz := se.freq_mhz
        bw_khz := se.bw_khz
        sr_hz := se.sr_hz
        op_index := se.op_index
        operator_name := .ofStr 32 (se.operator_name.str.take 31)
        target := .ofStr 32 (se.target.str.take 31) }
    let src := s.active.getD outside
    some (
      if s.isActive se then
        ({ ne with
            status := src.status, temp_ch_idx := src.temp_ch_idx, rec_started := src.rec_started },
          true)
      else ({ ne with status := .ofByte se.status }, false))

/-- What `set_on_central_sched_sync` does with a packet. -/
def onCentralSchedSync (pkt : PktSchedSync) (outside : SchedEntry) (s : State) : State :=
  let next := rebuild (pkt.counted.filterMap (restoreEntry s outside))
  { s with sched_entries := next.1, sched_active_idx := next.2 }

/-! ## `sched_tick` -/

/-- What a `sched_tick` finds: the two clocks, whether the recorder starts, and what
`sched_arm_entry` asks of the SDR. -/
structure TickEnv where
  now : ℕ
  steady : ℤ
  start_ok : Bool
  remote_mode : Bool
  sdr_ok : Bool
  rec_on : Bool
  free_slot : Option (Fin MAX_CHANNELS)

/-- The seconds that an entry has recorded, counted in a `float`. -/
def TickEnv.elapsed (env : TickEnv) (e : SchedEntry) : Fp 24 :=
  (Fp.ofRat float_pos (env.steady - e.rec_started : ℤ)).divRat float_pos (10 ^ 9)

/-- `sched_arm_entry`: the entry, and the active index if it is armed. -/
def schedArmEntry (env : TickEnv) (idx : ℕ) (e : SchedEntry) : SchedEntry × Option ℕ :=
  if env.remote_mode then ({ e with status := .failed }, none)
  else if ¬env.sdr_ok then ({ e with status := .failed }, none)
  else if e.sr_hz > 0 then
    if env.rec_on then ({ e with status := .failed }, none)
    else ({ e with status := .armed }, some idx)
  else
    match env.free_slot with
    | none => ({ e with status := .failed }, none)
    | some slot => ({ e with temp_ch_idx := slot, status := .armed }, some idx)

/-- `sched_begin_rec`: the entry, and the recorder that runs for it; without one the active index is
cleared. -/
def schedBeginRec (env : TickEnv) (e : SchedEntry) : SchedEntry × Option Recorder :=
  let recording := { e with status := .recording, rec_started := env.steady }
  let failed := { e with status := .failed }
  if e.sr_hz > 0 then
    if ¬env.start_ok then (failed, none) else (recording, some .fullBand)
  else if e.temp_ch_idx < 0 ∨ MAX_CHANNELS ≤ e.temp_ch_idx then (failed, none)
  else if ¬env.start_ok then (failed, none)
  else (recording, some (.channel e.temp_ch_idx))

/-- `sched_stop_entry`. -/
def schedStopEntry (i : ℕ) (e : SchedEntry) (s : State) : State :=
  { sched_entries := s.sched_entries.set i { e with status := .done }
    sched_active_idx := none
    recorders := s.recorders.filter fun r => e.recorder ≠ some r }

/-- What `sched_tick` does for the active entry `e` at the index `i`. -/
def serveEntry (env : TickEnv) (i : ℕ) (e : SchedEntry) (s : State) : State :=
  match e.status with
  | .armed =>
    if e.start_time ≤ env.now then
      match schedBeginRec env e with
      | (e, some r) =>
        { s with sched_entries := s.sched_entries.set i e, recorders := r :: s.recorders }
      | (e, none) => { s with sched_entries := s.sched_entries.set i e, sched_active_idx := none }
    else s
  | .recording => if e.duration_sec.le (env.elapsed e) then schedStopEntry i e s else s
  | _ => s

/-- The part of `sched_tick` for the active slot. -/
def serveActive (env : TickEnv) (s : State) : State :=
  match s.sched_active_idx with
  | none => s
  | some i =>
    match s.sched_entries[i]? with
    | none => s
    | some e => serveEntry env i e s

/-- The loop of `sched_tick` over the entries from the index `i` on: the entries, and the active
index if one of them is armed. -/
def armNext (env : TickEnv) : ℕ → List SchedEntry → List SchedEntry × Option ℕ
  | _, [] => ([], none)
  | i, e :: es =>
    let skip (e : SchedEntry) := (e :: (armNext env (i + 1) es).1, (armNext env (i + 1) es).2)
    if e.status ≠ .waiting then skip e
    -- entirely missed
    else if e.endTime < env.now then skip { e with status := .failed }
    -- the pre-arm window is reached
    else if e.start_time - SCHED_PRE_ARM_SEC ≤ env.now then
      ((schedArmEntry env i e).1 :: es, (schedArmEntry env i e).2)
    else skip e

/-- `sched_tick`. -/
def schedTick (env : TickEnv) (s : State) : State :=
  let s := serveActive env s
  match s.sched_active_idx with
  | some _ => s
  | none =>
    let next := armNext env 0 s.sched_entries
    { s with sched_entries := next.1, sched_active_idx := next.2 }

/-! ## Runs -/

/-- An operation of the HOST on its own list. -/
inductive Op
  | add (now : ℕ) (q : AddRequest)
  | remove (start_time : Int64) (freq_mhz : Fp 24)
  | clean (now : ℕ) (rules : List Rule)
  | fill {now : ℕ} (r : Rule) (p : Pass now)
  | tick (env : TickEnv)

/-- What an operation does. -/
def Op.next (s : State) : Op → State
  | .add now q => onAddSched now q s
  | .remove start_time freq_mhz => onRemoveSched start_time freq_mhz s
  | .clean now rules => satClean now rules s
  | .fill r p => satFill r p s
  | .tick env => schedTick env s

/-- An operation, a list from Central, or the end of a recorder by itself. -/
inductive Event
  | op (o : Op)
  | restore (pkt : PktSchedSync) (outside : SchedEntry)
  | recorderEnds (r : Recorder)

/-- What an event does. -/
def Event.next (s : State) : Event → State
  | .op o => o.next s
  | .restore pkt outside => onCentralSchedSync pkt outside s
  | .recorderEnds r => { s with recorders := s.recorders.filter (· ≠ r) }

end Bewe.Sched

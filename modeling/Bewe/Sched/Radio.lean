import Bewe.Sched.Active

/-!
# The radio under the scheduler

What `sched_arm_entry`, `sched_begin_rec` and `sched_stop_entry` do to the tuner, to the channels
and to the recorders, beside the list of `Machine.lean`, and what operators do to the same channels
between two of them. A `sched_tick` is `serve` and then `arm`, and on the list it is
the `schedTick` of `Machine.lean` whose recorder, free slot and busy band are those of the
radio. The demodulators are left out: nothing here depends on them. `maker` and `before` are not in
the source: they record who made a channel, and what the tuner was set to when a recording was
armed.
-/

namespace Bewe.Sched

open Lib
open Saved (Chars PktSchedSync)

/-! ## State -/

/-- `DemodMode`. -/
inductive DemodMode
  | none
  | am
  | fm
  deriving DecidableEq

/-- Who made the channel of a slot. -/
inductive Maker
  | nobody
  | operator
  | scheduler
  deriving DecidableEq

/-- What the scheduler and the operators use of `Channel`. -/
structure Channel where
  s : Fp 24 := .ofRat float_pos 0
  e : Fp 24 := .ofRat float_pos 0
  filter_active : Bool := false
  owner : Chars 32 := .ofStr 32 []
  mode : DemodMode := .none
  audio_mask : UInt32 := 1
  iq_rec_force_all : Bool := false
  iq_rec_on : Bool := false
  maker : Maker := .nobody
  deriving DecidableEq

/-- `reset_slot`; a recording that runs goes on. -/
def Channel.resetSlot (ch : Channel) : Channel := { iq_rec_on := ch.iq_rec_on }

/-- The Doppler function of a satellite, by what it is made from. -/
structure Doppler where
  norad : ℤ
  freq_mhz : Fp 24
  deriving DecidableEq

/-- `PendingSchedMeta`. -/
structure PendingSchedMeta where
  active : Bool := false
  start_utc : ℤ := 0
  end_utc : ℤ := 0
  deriving DecidableEq

/-- What the tuner is set to when an entry is armed, and whether the entry asks for another sample
rate. -/
structure Tuning where
  cf : Fp 24 := .ofRat float_pos 0
  sr_msps : Fp 24 := .ofRat float_pos 0
  sr_asked : Bool := false
  deriving DecidableEq

/-- A channel slot. -/
abbrev Slot := Fin MAX_CHANNELS

/-- The slot of an index, if it is one. -/
def slotOf (idx : ℤ) : Option Slot :=
  if h : 0 ≤ idx ∧ idx < MAX_CHANNELS then some ⟨idx.toNat, by omega⟩ else none

/-- The radio of a HOST. -/
structure Radio where
  channels : Slot → Channel := fun _ => {}
  iq_doppler_fn : Slot → Option Doppler := fun _ => none
  rec_on : Bool := false
  pending_cf : Fp 24 := .ofRat float_pos 0
  pending_sr_msps : Fp 24 := .ofRat float_pos (6144 / 100)
  sr_change_req : Bool := false
  sched_saved_cf : Fp 24 := .ofRat float_pos 0
  sched_saved_sr_msps : Fp 24 := .ofRat float_pos 0
  pending_sched_meta : PendingSchedMeta := {}
  before : Recorder → Tuning := fun _ => {}

/-- A channel in a slot. -/
def Radio.setChannel (r : Radio) (k : Slot) (ch : Channel) : Radio :=
  { r with channels := Function.update r.channels k ch }

/-- The first slot that no channel is in. -/
def Radio.freeSlot (r : Radio) : Option Slot :=
  (List.finRange MAX_CHANNELS).find? fun k => !(r.channels k).filter_active

/-! ## Tuner -/

/-- `set_frequency`. -/
def setFrequency (cf_mhz : Fp 24) (r : Radio) : Radio := { r with pending_cf := cf_mhz }

/-- `sched_restore_sdr`. -/
def schedRestoreSdr (r : Radio) : Radio :=
  let zero : Fp 24 := .ofRat float_pos 0
  let r :=
    if zero.lt r.sched_saved_sr_msps then
      { r with
        pending_sr_msps := r.sched_saved_sr_msps, sr_change_req := true,
        sched_saved_sr_msps := zero }
    else r
  setFrequency r.sched_saved_cf r

/-! ## Recorders -/

/-- What `start_iq_rec` finds: the folder of the active mission, if there is one, and whether the
file opens. -/
structure StartEnv where
  mission_dir : Bool
  fopen_ok : Bool

/-- `start_iq_rec`. -/
def startIqRec (env : StartEnv) (k : Slot) (r : Radio) : Radio :=
  let ch := r.channels k
  if ¬ch.filter_active then r
  else if ch.iq_rec_on then r
  -- no active mission, and no recording of the scheduler
  else if ¬r.pending_sched_meta.active ∧ ¬env.mission_dir then r
  else
    let r := { r with pending_sched_meta := { r.pending_sched_meta with active := false } }
    if ¬env.fopen_ok then r else r.setChannel k { ch with iq_rec_on := true }

/-- `stop_iq_rec`. -/
def stopIqRec (k : Slot) (r : Radio) : Radio :=
  r.setChannel k { r.channels k with iq_rec_on := false }

/-- `start_sched_fullband_rec`, where it does not refuse. -/
def startSchedFullbandRec (r : Radio) : Radio :=
  { r with
    rec_on := true, pending_sched_meta := { r.pending_sched_meta with active := false } }

/-! ## `sched_tick` -/

/-- What a `sched_tick` finds beside the radio itself: the clocks, the SDR and its header, the TLEs,
and what `start_iq_rec` does. -/
structure RadioEnv where
  now : ℕ
  steady : ℤ
  remote_mode : Bool
  sdr_ok : Bool
  center_frequency : UInt64
  sample_rate : UInt32
  has_tle : ℤ → Bool
  start : StartEnv

/-- `center_frequency / 1e6` as a `float`. -/
def RadioEnv.cfMhz (env : RadioEnv) : Fp 24 :=
  ((Fp.ofRat (p := 53) double_pos env.center_frequency.toNat).divRat double_pos
    (10 ^ 6)).cast float_pos

/-- A sample rate in MSPS, as a `float`. -/
def toMsps (sr : UInt32) : Fp 24 :=
  (Fp.ofRat float_pos sr.toNat).divRat float_pos (10 ^ 6)

/-- `norad_of`. -/
def noradOf (target : Bytes) : ℤ :=
  if ascii "SAT " <+: target then atoi (target.drop 4) else 0

/-- `SatSched::doppler_fn`. -/
def dopplerFn (env : RadioEnv) (norad : ℤ) (freq_mhz : Fp 24) : Option Doppler :=
  if norad ≤ 0 ∨ ¬env.has_tle norad then none else some ⟨norad, freq_mhz⟩

/-- The offset of the centre frequency from a channel that keeps the DC spike out of it. -/
def dcOffset (bw_khz : Fp 24) (sample_rate : UInt32) : Fp 24 :=
  let bw_mhz := bw_khz.divRat float_pos 1000
  let zero : Fp 24 := .ofRat float_pos 0
  let max_off := ((toMsps sample_rate).mulRat float_pos (roundBits 24 (45 / 100))).sub
    float_pos (bw_mhz.mulRat float_pos (1 / 2))
  if max_off.le zero then zero
  else if max_off.lt bw_mhz then max_off else bw_mhz

/-- The range of the channel of an entry. -/
def SchedEntry.range (e : SchedEntry) : Fp 24 × Fp 24 :=
  let half_bw := e.bw_khz.divRat float_pos 2000
  (e.freq_mhz.sub float_pos half_bw, e.freq_mhz.add float_pos half_bw)

/-- The channel that `sched_arm_entry` makes for an entry in a slot. -/
def SchedEntry.channel (e : SchedEntry) (ch : Channel) : Channel :=
  { ch.resetSlot with
    s := e.range.1
    e := e.range.2
    filter_active := true
    owner := .ofStr 32
      ((if e.operator_name.str = [] then ascii "SCHED" else e.operator_name.str).take 31)
    audio_mask := 0
    iq_rec_force_all := true
    maker := .scheduler }

/-- `sched_arm_entry` for an entry with a sample rate of its own. -/
def armFullBand (env : RadioEnv) (e : SchedEntry) (r : Radio) : Radio :=
  if r.rec_on then r
  else
    let want_msps := toMsps e.sr_hz
    let cur_msps := toMsps env.sample_rate
    let asked := (Fp.ofRat float_pos (1 / 10 ^ 6)).lt (fabsDiff want_msps cur_msps)
    let r :=
      if asked then
        { r with
          sched_saved_sr_msps := cur_msps, pending_sr_msps := want_msps, sr_change_req := true }
      else r
    setFrequency e.freq_mhz
      { r with before := Function.update r.before .fullBand ⟨env.cfMhz, cur_msps, asked⟩ }

/-- `sched_arm_entry` for an entry that records in a channel. -/
def armChannel (env : RadioEnv) (e : SchedEntry) (r : Radio) : Radio :=
  let r := setFrequency (e.freq_mhz.add float_pos (dcOffset e.bw_khz env.sample_rate)) r
  match r.freeSlot with
  | none => setFrequency r.sched_saved_cf r
  | some k =>
    let r := r.setChannel k (e.channel (r.channels k))
    let norad := noradOf e.target.str
    { r with
      iq_doppler_fn :=
        if norad = 0 then r.iq_doppler_fn
        else Function.update r.iq_doppler_fn k (dopplerFn env norad e.freq_mhz)
      before := Function.update r.before (.channel k) ⟨env.cfMhz, toMsps env.sample_rate, false⟩ }

/-- `sched_arm_entry`. -/
def armRadio (env : RadioEnv) (e : SchedEntry) (r : Radio) : Radio :=
  if env.remote_mode then r
  else if ¬env.sdr_ok then r
  else
    let r := { r with sched_saved_cf := env.cfMhz, sched_saved_sr_msps := .ofRat float_pos 0 }
    if e.sr_hz > 0 then armFullBand env e r else armChannel env e r

/-- `pending_sched_meta` as `sched_begin_rec` sets it. -/
def SchedEntry.meta (e : SchedEntry) : PendingSchedMeta := ⟨true, e.start_time, e.endTime⟩

/-- `sched_begin_rec`. -/
def beginRadio (env : RadioEnv) (e : SchedEntry) (r : Radio) : Radio :=
  if e.sr_hz > 0 then
    let r := { r with pending_sched_meta := e.meta }
    if r.rec_on then
      schedRestoreSdr
        { r with pending_sched_meta := { r.pending_sched_meta with active := false } }
    else startSchedFullbandRec r
  else
    match slotOf e.temp_ch_idx with
    | none => r
    | some k =>
      let r := startIqRec env.start k { r with pending_sched_meta := e.meta }
      if ¬(r.channels k).iq_rec_on then
        setFrequency r.sched_saved_cf (r.setChannel k (r.channels k).resetSlot)
      else r

/-- `sched_stop_entry`. -/
def stopRadio (e : SchedEntry) (r : Radio) : Radio :=
  schedRestoreSdr (
    if e.sr_hz > 0 then { r with rec_on := false }
    else
      match slotOf e.temp_ch_idx with
      | none => r
      | some k =>
        let r := stopIqRec k r
        let r := { r with iq_doppler_fn := Function.update r.iq_doppler_fn k none }
        r.setChannel k (r.channels k).resetSlot)

/-! ## Steps -/

/-- A HOST: its scheduler and its radio. -/
structure RadioState where
  base : State := {}
  radio : Radio := {}

/-- What the list of `Machine.lean` finds of the radio. -/
def RadioEnv.tick (env : RadioEnv) (start_ok : Bool) (r : Radio) : TickEnv where
  now := env.now
  steady := env.steady
  start_ok := start_ok
  remote_mode := env.remote_mode
  sdr_ok := env.sdr_ok
  rec_on := r.rec_on
  free_slot := r.freeSlot

/-- Whether the recorder of an entry starts. -/
def startOk (env : RadioEnv) (e : SchedEntry) (r : Radio) : Bool :=
  if e.sr_hz > 0 then !r.rec_on
  else
    match slotOf e.temp_ch_idx with
    | none => false
    | some k =>
      ((startIqRec env.start k { r with pending_sched_meta := e.meta }).channels k).iq_rec_on

/-- What `sched_tick` does to the radio for the active entry. -/
def serveRadio (env : RadioEnv) (e : SchedEntry) (r : Radio) : Radio :=
  match e.status with
  | .armed => if e.start_time ≤ env.now then beginRadio env e r else r
  | .recording =>
    if e.duration_sec.le ((env.tick true r).elapsed e) then stopRadio e r else r
  | _ => r

/-- The part of `sched_tick` for the active slot. -/
def serve (env : RadioEnv) (s : RadioState) : RadioState :=
  match s.base.active with
  | none => s
  | some e =>
    { base := serveActive (env.tick (startOk env e s.radio) s.radio) s.base
      radio := serveRadio env e s.radio }

/-- The entry that the loop over the waiting ones hands to `sched_arm_entry`, if there is one. -/
def armTarget (now : ℕ) (es : List SchedEntry) : Option SchedEntry :=
  es.find? fun e => e.status = .waiting ∧ ¬e.endTime < now ∧
    e.start_time - SCHED_PRE_ARM_SEC ≤ now

/-- The part of `sched_tick` for the waiting entries, on the list. -/
def armIdle (env : TickEnv) (s : State) : State :=
  match s.sched_active_idx with
  | some _ => s
  | none =>
    let next := armNext env 0 s.sched_entries
    { s with sched_entries := next.1, sched_active_idx := next.2 }

/-- The part of `sched_tick` for the waiting entries. -/
def arm (env : RadioEnv) (s : RadioState) : RadioState :=
  { base := armIdle (env.tick true s.radio) s.base
    radio :=
      if s.base.sched_active_idx = none then
        match armTarget env.now s.base.sched_entries with
        | none => s.radio
        | some e => armRadio env e s.radio
      else s.radio }

/-- A step of the scheduler. -/
inductive SchedStep
  | add (now : ℕ) (q : AddRequest)
  | remove (start_time : Int64) (freq_mhz : Fp 24)
  | clean (now : ℕ) (rules : List Rule)
  | fill {now : ℕ} (r : Rule) (p : Pass now)
  | serve (env : RadioEnv)
  | arm (env : RadioEnv)

/-- What a step of the scheduler does. -/
def SchedStep.next (s : RadioState) : SchedStep → RadioState
  | .add now q => { s with base := onAddSched now q s.base }
  | .remove start_time freq_mhz => { s with base := onRemoveSched start_time freq_mhz s.base }
  | .clean now rules => { s with base := satClean now rules s.base }
  | .fill r p => { s with base := satFill r p s.base }
  | .serve env => Sched.serve env s
  | .arm env => Sched.arm env s

/-- A command of an operator for a channel. -/
inductive ChannelCommand
  | create (idx : ℤ) (s e : Fp 24) (creator : Bytes)
  | delete (idx : ℤ)
  | setMode (idx mode : ℤ)

/-- The mode of a number, if it is one. -/
def DemodMode.ofInt (mode : ℤ) : Option DemodMode :=
  if mode = 0 then some .none
  else if mode = 1 then some .am
  else if mode = 2 then some .fm
  else Option.none

/-- `on_create_ch`, `on_delete_ch` and `on_set_ch_mode`. -/
def ChannelCommand.next (r : Radio) : ChannelCommand → Radio
  | .create idx s e creator =>
    match slotOf idx with
    | none => r
    | some k =>
      r.setChannel k
        { (r.channels k).resetSlot with
          s := s, e := e, filter_active := true, owner := .ofStr 32 ((cStr creator).take 31),
          audio_mask := 0xFFFFFFFE, maker := .operator }
  | .delete idx =>
    match slotOf idx with
    | none => r
    | some k => r.setChannel k (r.channels k).resetSlot
  | .setMode idx mode =>
    match slotOf idx, DemodMode.ofInt mode with
    | some k, some mode => r.setChannel k { r.channels k with mode := mode }
    | _, _ => r

/-- A step of the scheduler or a command of an operator for a channel. -/
inductive Turn
  | sched (x : SchedStep)
  | command (c : ChannelCommand)

/-- What a turn does. -/
def Turn.next (s : RadioState) : Turn → RadioState
  | .sched x => x.next s
  | .command c => { s with radio := c.next s.radio }

end Bewe.Sched

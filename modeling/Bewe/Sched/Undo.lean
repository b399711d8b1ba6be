import Bewe.Sched.Channels

/-!
# Undoing an arm

`sched_arm_entry` tunes the radio away, takes a slot and gives it a Doppler function, and each of
the places where an entry ends puts these back by hand. `undoes_of_keeps` says when they all do:
in every run in which the channel of an entry that is due is active and not recorded yet, and its
file opens or it has no Doppler function, each end of an entry undoes its arm. The end that forgets
is the one in `sched_begin_rec` for a channel: it leaves the Doppler function, which
`sched_stop_entry` takes away, and where `start_iq_rec` returns early it leaves
`pending_sched_meta`, which the end for the whole band takes away.
-/

namespace Bewe.Sched

open Lib
open Saved (PktSchedSync SchedSyncEntry)

/-! ## Events -/

/-- A turn, a list from Central, a recording that an operator starts or stops in a channel or in the
whole band, a tuning, a change of the sample rate, or the moment in which that is made. -/
inductive RadioEvent
  | turn (t : Turn)
  | restore (pkt : PktSchedSync) (outside : SchedEntry)
  | startIqRec (env : StartEnv) (k : Slot)
  | stopIqRec (k : Slot)
  | startRec
  | stopRec
  | tune (cf_mhz : Fp 24)
  | requestRate (sr_msps : Fp 24)
  | rateChanged

/-- What an event does. -/
def RadioEvent.next (s : RadioState) : RadioEvent → RadioState
  | .turn t => t.next s
  | .restore pkt outside => { s with base := onCentralSchedSync pkt outside s.base }
  | .startIqRec env k => { s with radio := Sched.startIqRec env k s.radio }
  | .stopIqRec k =>
    { base := Event.next s.base (.recorderEnds (.channel (k : ℕ)))
      radio := Sched.stopIqRec k s.radio }
  | .startRec => { s with radio := { s.radio with rec_on := true } }
  | .stopRec =>
    { base := Event.next s.base (.recorderEnds .fullBand)
      radio := { s.radio with rec_on := false } }
  | .tune cf_mhz => { s with radio := setFrequency cf_mhz s.radio }
  | .requestRate sr_msps =>
    { s with radio := { s.radio with pending_sr_msps := sr_msps, sr_change_req := true } }
  | .rateChanged => { s with radio := { s.radio with sr_change_req := false } }

/-! ## What is to be undone -/

/-- The arm of a recorder is undone: the tuner is asked back to what it was set to before, the slot
is free and follows no satellite, and no recording will be taken for a scheduled one. -/
structure Undone (r : Radio) (rec : Recorder) : Prop where
  cf : r.pending_cf = (r.before rec).cf
  rate : (r.before rec).sr_asked = true →
    r.pending_sr_msps = (r.before rec).sr_msps ∧ r.sr_change_req = true
  slot : ∀ k : Slot, rec = .channel (k : ℕ) →
    (r.channels k).filter_active = false ∧ r.iq_doppler_fn k = none
  handoff : r.pending_sched_meta.active = false

/-- An arm that is refused has changed nothing, but that it may have tuned back to where the tuner
was. -/
structure LeftAlone (cf : Fp 24) (r r' : Radio) : Prop where
  cf : r'.pending_cf = r.pending_cf ∨ r'.pending_cf = cf
  rate : r'.pending_sr_msps = r.pending_sr_msps ∧ r'.sr_change_req = r.sr_change_req
  channels : r'.channels = r.channels
  doppler : r'.iq_doppler_fn = r.iq_doppler_fn
  handoff : r'.pending_sched_meta.active = false

/-- The entries that end with an event were armed, and their arms are undone; what was refused has
left the radio alone. -/
def Undoes (s : RadioState) : RadioEvent → Prop
  | .turn (.sched (.serve env)) =>
    ∀ (i : ℕ) (e f : SchedEntry), s.base.sched_entries[i]? = some e → e.Busy →
      (serve env s).base.sched_entries[i]? = some f → f.Finished →
        ∃ rec, e.recorder = some rec ∧ Undone (serve env s).radio rec
  | .turn (.sched (.arm env)) =>
    s.base.sched_active_idx = none →
      ∀ e, armTarget env.now s.base.sched_entries = some e →
        (arm env s).base.sched_active_idx = none →
          LeftAlone env.cfMhz s.radio (arm env s).radio
  | _ => True

/-- The channel of an entry that is due is active and not recorded, and its file opens or it has no
Doppler function. -/
def beginOk (env : RadioEnv) (r : Radio) (e : SchedEntry) : Bool :=
  if e.status = .armed ∧ e.start_time ≤ env.now ∧ e.sr_hz = 0 then
    (slotOf e.temp_ch_idx).all fun k =>
      (r.channels k).filter_active && !(r.channels k).iq_rec_on &&
        (env.start.fopen_ok || (r.iq_doppler_fn k).isNone)
  else true

/-- An entry for the whole band finds a sample rate that is not 0, which is what stands for none. -/
def armOk (env : RadioEnv) (e : SchedEntry) : Bool := e.sr_hz = 0 ∨ 0 < env.sample_rate

/-- An entry of a list that is taken for the active one is, in its band. -/
def BandKeeps (s : State) (pkt : PktSchedSync) : Prop :=
  ∀ se ∈ pkt.counted, s.Takes se → ∃ e, s.active = some e ∧ (se.sr_hz = 0 ↔ e.sr_hz = 0)

/-- The events after which every arm can be, or is, undone. -/
def EventKeeps (s : RadioState) : RadioEvent → Prop
  | .turn (.sched (.remove start_time freq_mhz)) => RemoveKeeps s.base start_time freq_mhz
  | .turn (.sched (.serve env)) => s.base.active.all (beginOk env s.radio) = true
  | .turn (.sched (.arm env)) =>
    (armTarget env.now s.base.sched_entries).all (armOk env) = true
  | .restore pkt outside => RestoreKeeps s.base pkt outside ∧ BandKeeps s.base pkt
  | _ => True

/-! ## What a radio remembers of an arm -/

/-- The radio knows what the tuner was set to before a recorder was armed. -/
structure Remembers (r : Radio) (rec : Recorder) : Prop where
  cf : r.sched_saved_cf = (r.before rec).cf
  asked : (r.before rec).sr_asked = true →
    r.sched_saved_sr_msps = (r.before rec).sr_msps ∧
      Fp.lt (.ofRat float_pos 0) r.sched_saved_sr_msps = true
  channel : rec ≠ .fullBand → (r.before rec).sr_asked = false

/-- What holds between two events: the active entry can be undone, and no recording would be taken
for a scheduled one. -/
structure Undoable (s : RadioState) : Prop where
  sound : Sound s.base
  handoff : s.radio.pending_sched_meta.active = false
  remembers : ∀ e, s.base.active = some e → ∃ rec, e.recorder = some rec ∧ Remembers s.radio rec

theorem Remembers.congr {r r' : Radio} {rec : Recorder} (h : Remembers r rec)
    (hcf : r'.sched_saved_cf = r.sched_saved_cf)
    (hsr : r'.sched_saved_sr_msps = r.sched_saved_sr_msps) (hbefore : r'.before = r.before) :
    Remembers r' rec := by
  refine ⟨?_, ?_, ?_⟩
  · rw [hcf, hbefore]
    exact h.cf
  · rw [hsr, hbefore]
    exact h.asked
  · rw [hbefore]
    exact h.channel

/-- `sched_restore_sdr` asks the tuner back to what the radio remembers. -/
theorem Remembers.schedRestoreSdr {r : Radio} {rec : Recorder} (h : Remembers r rec) :
    (schedRestoreSdr r).pending_cf = (r.before rec).cf ∧
      ((r.before rec).sr_asked = true → (schedRestoreSdr r).pending_sr_msps =
        (r.before rec).sr_msps ∧ (schedRestoreSdr r).sr_change_req = true) := by
  constructor
  · simp only [Sched.schedRestoreSdr]
    split_ifs <;> exact h.cf
  · intro hasked
    obtain ⟨hsaved, hpos⟩ := h.asked hasked
    simp only [Sched.schedRestoreSdr]
    rw [if_pos hpos]
    exact ⟨hsaved, rfl⟩

theorem schedRestoreSdr_frame (r : Radio) :
    (schedRestoreSdr r).before = r.before ∧ (schedRestoreSdr r).channels = r.channels ∧
      (schedRestoreSdr r).iq_doppler_fn = r.iq_doppler_fn ∧
      (schedRestoreSdr r).pending_sched_meta = r.pending_sched_meta := by
  simp only [schedRestoreSdr]
  split_ifs <;> exact ⟨rfl, rfl, rfl, rfl⟩

/-- Where the tuner is asked back, the arm is undone that has a free slot. -/
theorem Remembers.undone {r : Radio} {rec : Recorder} (h : Remembers r rec)
    (hslot : ∀ k : Slot, rec = .channel (k : ℕ) →
      (r.channels k).filter_active = false ∧ r.iq_doppler_fn k = none)
    (hmeta : r.pending_sched_meta.active = false) : Undone (Sched.schedRestoreSdr r) rec := by
  obtain ⟨hbefore, hchannels, hdoppler, hframe⟩ := schedRestoreSdr_frame r
  obtain ⟨hcf, hrate⟩ := h.schedRestoreSdr
  refine ⟨?_, ?_, ?_, ?_⟩
  · rw [hbefore, hcf]
  · rw [hbefore]
    exact hrate
  · rw [hchannels, hdoppler]
    exact hslot
  · rw [hframe]
    exact hmeta

/-! ## Recorders of entries -/

theorem recorder_fullBand {e : SchedEntry} (h : e.sr_hz > 0) : e.recorder = some .fullBand :=
  if_pos h

/-- The recorder of an entry that records in a channel, if it has a slot. -/
theorem recorder_channel {e : SchedEntry} (h : ¬e.sr_hz > 0) {rec : Recorder}
    (hrec : e.recorder = some rec) :
    ∃ k : Slot, slotOf e.temp_ch_idx = some k ∧ rec = .channel (k : ℕ) := by
  unfold SchedEntry.recorder at hrec
  rw [if_neg h] at hrec
  split_ifs at hrec with hslot
  have hin : 0 ≤ e.temp_ch_idx ∧ e.temp_ch_idx < MAX_CHANNELS := by
    rw [not_or] at hslot
    exact ⟨by omega, by omega⟩
  refine ⟨⟨e.temp_ch_idx.toNat, by omega⟩, by rw [slotOf, dif_pos hin], ?_⟩
  rw [← Option.some.inj hrec, Recorder.channel.injEq]
  exact (Int.toNat_of_nonneg hin.1).symm

theorem slot_injective {j k : Slot} (h : Recorder.channel (j : ℕ) = .channel (k : ℕ)) : j = k := by
  rw [Recorder.channel.injEq] at h
  exact Fin.ext (by exact_mod_cast h)

/-! ## `start_iq_rec` -/

theorem startIqRec_frame (env : StartEnv) (k : Slot) (r : Radio) :
    (startIqRec env k r).sched_saved_cf = r.sched_saved_cf ∧
      (startIqRec env k r).sched_saved_sr_msps = r.sched_saved_sr_msps ∧
      (startIqRec env k r).before = r.before ∧
      (startIqRec env k r).iq_doppler_fn = r.iq_doppler_fn := by
  simp only [startIqRec]
  split_ifs <;> exact ⟨rfl, rfl, rfl, rfl⟩

/-- Without a name to hand over there is none afterwards. -/
theorem startIqRec_handoff (env : StartEnv) (k : Slot) {r : Radio}
    (h : r.pending_sched_meta.active = false) :
    (startIqRec env k r).pending_sched_meta.active = false := by
  simp only [startIqRec]
  split_ifs <;> first | exact h | rfl

/-- In a channel that is active and not recorded `start_iq_rec` takes the name that the scheduler
hands over, and starts the recorder if the file opens. -/
theorem startIqRec_ready {env : StartEnv} {k : Slot} {r : Radio}
    (hactive : (r.channels k).filter_active = true) (hrec : (r.channels k).iq_rec_on = false)
    (hmeta : r.pending_sched_meta.active = true) :
    (startIqRec env k r).pending_sched_meta.active = false ∧
      ((startIqRec env k r).channels k).iq_rec_on = env.fopen_ok := by
  have hfolder : ¬(¬r.pending_sched_meta.active = true ∧ ¬env.mission_dir = true) :=
    fun h => h.1 hmeta
  simp only [startIqRec]
  rw [if_neg (by simp [hactive]), if_neg (by simp [hrec]), if_neg hfolder]
  cases env.fopen_ok with
  | true => exact ⟨rfl, by rw [if_neg (by simp), setChannel_self]⟩
  | false =>
    rw [if_pos (by simp)]
    exact ⟨rfl, hrec⟩

/-! ## The ends of an entry -/

/-- The end for the whole band undoes the arm, and where the recorder starts the radio still
remembers. -/
theorem beginRadio_fullBand {env : RadioEnv} {e : SchedEntry} {r : Radio} (hsr : e.sr_hz > 0)
    (h : Remembers r .fullBand) :
    (beginRadio env e r).pending_sched_meta.active = false ∧
      (startOk env e r = false → Undone (beginRadio env e r) .fullBand) ∧
      (startOk env e r = true → Remembers (beginRadio env e r) .fullBand) := by
  simp only [beginRadio, startOk, if_pos hsr]
  cases hrec : r.rec_on with
  | true =>
    have hundone : Undone (schedRestoreSdr
        { r with rec_on := true, pending_sched_meta := { e.meta with active := false } })
        .fullBand :=
      Remembers.undone (h.congr rfl rfl rfl) (fun k hk => Recorder.noConfusion hk) rfl
    rw [if_pos rfl]
    refine ⟨hundone.handoff, fun _ => hundone, fun hok => ?_⟩
    simp at hok
  | false =>
    refine ⟨rfl, fun hok => ?_, fun _ => h.congr rfl rfl rfl⟩
    simp at hok

/-- The end for a channel undoes the arm where the channel is active and not recorded yet and
nothing is left of a satellite, and where the recorder starts the radio still remembers. -/
theorem beginRadio_channel {env : RadioEnv} {e : SchedEntry} {r : Radio} {k : Slot}
    (hsr : ¬e.sr_hz > 0) (hk : slotOf e.temp_ch_idx = some k)
    (hactive : (r.channels k).filter_active = true) (hrec : (r.channels k).iq_rec_on = false)
    (hfile : env.start.fopen_ok = true ∨ r.iq_doppler_fn k = none)
    (h : Remembers r (.channel (k : ℕ))) :
    (beginRadio env e r).pending_sched_meta.active = false ∧
      (startOk env e r = false → Undone (beginRadio env e r) (.channel (k : ℕ))) ∧
      (startOk env e r = true → Remembers (beginRadio env e r) (.channel (k : ℕ))) := by
  let r₀ : Radio := { r with pending_sched_meta := e.meta }
  have hready : (startIqRec env.start k r₀).pending_sched_meta.active = false ∧
      ((startIqRec env.start k r₀).channels k).iq_rec_on = env.start.fopen_ok :=
    startIqRec_ready hactive hrec rfl
  obtain ⟨hmeta, hon⟩ := hready
  obtain ⟨hcf, hsaved, hbefore, hdoppler⟩ := startIqRec_frame env.start k r₀
  simp only [beginRadio, startOk, if_neg hsr, hk, r₀] at hon ⊢
  simp only [hon]
  cases hopen : env.start.fopen_ok with
  | true =>
    refine ⟨hmeta, fun hok => Bool.noConfusion hok, fun _ => ?_⟩
    exact h.congr hcf hsaved hbefore
  | false =>
    rw [if_pos (by simp)]
    refine ⟨hmeta, fun _ => ⟨?_, fun hasked => ?_, fun j hj => ?_, hmeta⟩,
      fun hok => Bool.noConfusion hok⟩
    · -- the tuner is asked back to the frequency
      exact (hcf.trans h.cf).trans (congrFun hbefore.symm _ ▸ rfl)
    · -- a channel asks for no sample rate
      have hasked' : (r.before (.channel (k : ℕ))).sr_asked = true := by
        rw [← congrFun hbefore (.channel (k : ℕ))]
        exact hasked
      rw [h.channel Recorder.noConfusion] at hasked'
      exact Bool.noConfusion hasked'
    · obtain rfl := slot_injective hj
      refine ⟨congrArg Channel.filter_active (setChannel_self _ _ _), ?_⟩
      rcases hfile with hfile | hfile
      · simp [hopen] at hfile
      · exact (congrFun hdoppler k).trans hfile

theorem stopRadio_undone {e : SchedEntry} {r : Radio} {rec : Recorder}
    (hrec : e.recorder = some rec) (hmeta : r.pending_sched_meta.active = false)
    (h : Remembers r rec) : Undone (stopRadio e r) rec := by
  unfold stopRadio
  split_ifs with hsr
  · have hfull : rec = .fullBand :=
      Option.some.inj (hrec.symm.trans (recorder_fullBand hsr))
    refine Remembers.undone (h.congr rfl rfl rfl) (fun k hk => ?_) hmeta
    rw [hfull] at hk
    exact Recorder.noConfusion hk
  · obtain ⟨k, hk, rfl⟩ := recorder_channel hsr hrec
    simp only [hk]
    refine Remembers.undone (h.congr rfl rfl rfl) (fun j hj => ?_) hmeta
    obtain rfl := slot_injective hj
    refine ⟨congrArg Channel.filter_active (setChannel_self _ _ _), ?_⟩
    simp [Radio.setChannel]

/-! ## Steps -/

/-- A recorder that starts is that of an entry which records from then on. -/
theorem schedBeginRec_startOk (env : RadioEnv) (e : SchedEntry) (r : Radio) :
    (startOk env e r = true ∧
        (schedBeginRec (env.tick (startOk env e r) r) e).1.status = .recording ∧
        ∃ rec, (schedBeginRec (env.tick (startOk env e r) r) e).2 = some rec) ∨
      (startOk env e r = false ∧
        (schedBeginRec (env.tick (startOk env e r) r) e).1.status = .failed ∧
        (schedBeginRec (env.tick (startOk env e r) r) e).2 = none) := by
  cases hok : startOk env e r with
  | false =>
    refine Or.inr ⟨rfl, ?_⟩
    simp only [schedBeginRec, RadioEnv.tick]
    split_ifs <;> simp_all
  | true =>
    refine Or.inl ⟨rfl, ?_⟩
    by_cases hsr : e.sr_hz > 0
    · simp [schedBeginRec, RadioEnv.tick, hsr]
    · -- the slot is one
      have hslot : ¬(e.temp_ch_idx < 0 ∨ MAX_CHANNELS ≤ e.temp_ch_idx) := by
        intro hout
        have hnone : slotOf e.temp_ch_idx = none := dif_neg (by omega)
        simp [startOk, hsr, hnone] at hok
      simp [schedBeginRec, RadioEnv.tick, hsr, hslot]

/-- What the first part of a tick does with the active entry: nothing, it starts the recorder, the
recorder does not start, or it stops the recorder. -/
theorem serve_active_cases {s : RadioState} {i : ℕ} {e : SchedEntry}
    (hi : s.base.sched_active_idx = some i) (he : s.base.sched_entries[i]? = some e)
    (env : RadioEnv) :
    serve env s = s ∨
      ∃ f : SchedEntry, (serve env s).base.sched_entries = s.base.sched_entries.set i f ∧
        f.recorder = e.recorder ∧
        (e.status = .armed ∧ e.start_time ≤ env.now ∧
            (serve env s).radio = beginRadio env e s.radio ∧
            (startOk env e s.radio = true ∧ f.status = .recording ∨
              startOk env e s.radio = false ∧ (serve env s).base.sched_active_idx = none) ∨
          e.status = .recording ∧ (serve env s).base.sched_active_idx = none ∧
            (serve env s).radio = stopRadio e s.radio) := by
  have hact : s.base.active = some e := active_eq_some.2 ⟨i, hi, he⟩
  have hserve : serve env s = ⟨serveEntry (env.tick (startOk env e s.radio) s.radio) i e s.base,
      serveRadio env e s.radio⟩ := by
    simp only [serve, hact, serveActive_eq hi he]
  have hsame : serveEntry (env.tick (startOk env e s.radio) s.radio) i e s.base = s.base →
      serveRadio env e s.radio = s.radio → serve env s = s := by
    intro hbase hradio
    rw [hserve, hbase, hradio]
  rw [hserve]
  cases hstatus : e.status with
  | armed =>
    by_cases hdue : e.start_time ≤ env.now
    · refine Or.inr ⟨(schedBeginRec (env.tick (startOk env e s.radio) s.radio) e).1, ?_⟩
      have hdue' : e.start_time ≤ (env.tick (startOk env e s.radio) s.radio).now := hdue
      obtain ⟨htemp, hsr, -⟩ :=
        schedBeginRec_same (env.tick (startOk env e s.radio) s.radio) e
      have hrecorder : (schedBeginRec (env.tick (startOk env e s.radio) s.radio) e).1.recorder =
          e.recorder := recorder_congr (by rw [hsr]) htemp
      have hcases := schedBeginRec_startOk env e s.radio
      have hradio : serveRadio env e s.radio = beginRadio env e s.radio := by
        simp only [serveRadio, hstatus, if_pos hdue]
      simp only [serveEntry, hstatus, if_pos hdue', hradio]
      revert hrecorder hcases
      rcases schedBeginRec (env.tick (startOk env e s.radio) s.radio) e with ⟨f, o⟩
      rintro hrecorder (⟨hok, hf, rec, hrec⟩ | ⟨hok, -, hrec⟩)
      · obtain rfl : o = some rec := hrec
        exact ⟨rfl, hrecorder, Or.inl ⟨trivial, hdue, trivial, Or.inl ⟨hok, hf⟩⟩⟩
      · obtain rfl : o = none := hrec
        exact ⟨rfl, hrecorder, Or.inl ⟨trivial, hdue, trivial, Or.inr ⟨hok, rfl⟩⟩⟩
    · refine Or.inl ?_
      rw [← hserve]
      have hdue' : ¬e.start_time ≤ (env.tick (startOk env e s.radio) s.radio).now := hdue
      exact hsame (by simp only [serveEntry, hstatus, if_neg hdue'])
        (by simp only [serveRadio, hstatus, if_neg hdue])
  | recording =>
    by_cases hpast : e.duration_sec.le ((env.tick true s.radio).elapsed e) = true
    · refine Or.inr ⟨{ e with status := .done }, ?_⟩
      have hpast' : e.duration_sec.le ((env.tick (startOk env e s.radio) s.radio).elapsed e) =
          true := hpast
      simp only [serveEntry, serveRadio, hstatus, if_pos hpast, if_pos hpast', schedStopEntry]
      exact ⟨trivial, rfl, Or.inr ⟨trivial, trivial, trivial⟩⟩
    · refine Or.inl ?_
      rw [← hserve]
      have hpast' : ¬e.duration_sec.le ((env.tick (startOk env e s.radio) s.radio).elapsed e) =
          true := hpast
      exact hsame (by simp only [serveEntry, hstatus, if_neg hpast'])
        (by simp only [serveRadio, hstatus, if_neg hpast])
  | waiting =>
    rw [← hserve]
    exact Or.inl (hsame (by simp only [serveEntry, hstatus]) (by simp only [serveRadio, hstatus]))
  | done =>
    rw [← hserve]
    exact Or.inl (hsame (by simp only [serveEntry, hstatus]) (by simp only [serveRadio, hstatus]))
  | failed =>
    rw [← hserve]
    exact Or.inl (hsame (by simp only [serveEntry, hstatus]) (by simp only [serveRadio, hstatus]))
  | other b =>
    rw [← hserve]
    exact Or.inl (hsame (by simp only [serveEntry, hstatus]) (by simp only [serveRadio, hstatus]))

/-- The start of a recorder undoes the arm or leaves it to be undone. -/
theorem beginRadio_keeps {env : RadioEnv} {e : SchedEntry} {r : Radio} {rec : Recorder}
    (hrec : e.recorder = some rec) (h : Remembers r rec) (hstatus : e.status = .armed)
    (hdue : e.start_time ≤ env.now) (hok : beginOk env r e = true) :
    (beginRadio env e r).pending_sched_meta.active = false ∧
      (startOk env e r = false → Undone (beginRadio env e r) rec) ∧
      (startOk env e r = true → Remembers (beginRadio env e r) rec) := by
  by_cases hsr : e.sr_hz > 0
  · obtain rfl : rec = .fullBand := Option.some.inj (hrec.symm.trans (recorder_fullBand hsr))
    exact beginRadio_fullBand hsr h
  · obtain ⟨k, hk, rfl⟩ := recorder_channel hsr hrec
    have hzero : e.sr_hz = 0 := by simpa [UInt32.pos_iff_ne_zero] using hsr
    have hready : ((r.channels k).filter_active = true ∧ (r.channels k).iq_rec_on = false) ∧
        (env.start.fopen_ok = true ∨ r.iq_doppler_fn k = none) := by
      simpa [beginOk, hstatus, hdue, hzero, hk] using hok
    exact beginRadio_channel hsr hk hready.1.1 hready.1.2 hready.2 h

/-- The first part of a tick undoes the arms of the entries that end with it. -/
theorem Undoable.undoes_serve {s : RadioState} (h : Undoable s) {env : RadioEnv}
    (hok : s.base.active.all (beginOk env s.radio) = true) :
    Undoes s (.turn (.sched (.serve env))) := by
  intro i e f hie hb hif hf
  have hi : s.base.sched_active_idx = some i := h.sound.index.index i e hie hb
  have hact : s.base.active = some e := active_eq_some.2 ⟨i, hi, hie⟩
  have hlt : i < s.base.sched_entries.length := (List.getElem?_eq_some_iff.1 hie).1
  obtain ⟨rec, hrec, hrem⟩ := h.remembers e hact
  have hready : beginOk env s.radio e = true := by
    rw [hact] at hok
    exact hok
  refine ⟨rec, hrec, ?_⟩
  rcases serve_active_cases hi hie env with hsame | ⟨g, hentries, -, hcases⟩
  · -- the entry has not ended
    rw [hsame, hie, Option.some.injEq] at hif
    subst hif
    rcases hb with hb | hb <;> rcases hf with hf | hf <;> simp [hb] at hf
  · rw [hentries, List.getElem?_set_self hlt, Option.some.injEq] at hif
    subst hif
    rcases hcases with ⟨hstatus, hdue, hradio, hstart⟩ | ⟨-, -, hradio⟩
    · obtain ⟨-, hundone, -⟩ := beginRadio_keeps hrec hrem hstatus hdue hready
      rcases hstart with ⟨-, hrecording⟩ | ⟨hno, -⟩
      · rcases hf with hf | hf <;> simp [hrecording] at hf
      · rw [hradio]
        exact hundone hno
    · rw [hradio]
      exact stopRadio_undone hrec h.handoff hrem

/-- The first part of a tick leaves what is armed to be undone. -/
theorem Undoable.serve {s : RadioState} (h : Undoable s) {env : RadioEnv}
    (hok : s.base.active.all (beginOk env s.radio) = true) : Undoable (serve env s) := by
  cases hact : s.base.active with
  | none =>
    have hsame : Sched.serve env s = s := by simp only [Sched.serve, hact]
    rwa [hsame]
  | some e =>
    obtain ⟨i, hi, hie⟩ := active_eq_some.1 hact
    have hlt : i < s.base.sched_entries.length := (List.getElem?_eq_some_iff.1 hie).1
    obtain ⟨rec, hrec, hrem⟩ := h.remembers e hact
    have hready : beginOk env s.radio e = true := by
      rw [hact] at hok
      exact hok
    have hsound : Sound (Sched.serve env s).base := by
      have hbase : (Sched.serve env s).base =
          serveActive (env.tick (startOk env e s.radio) s.radio) s.base := by
        simp only [Sched.serve, hact]
      rw [hbase]
      exact h.sound.serveActive _
    have hidle : (Sched.serve env s).base.sched_active_idx = none →
        ∀ f, (Sched.serve env s).base.active ≠ some f := by
      intro hnone f hf
      simp [State.active, hnone] at hf
    rcases serve_active_cases hi hie env with hsame | ⟨f, hentries, hf, hcases⟩
    · rwa [hsame]
    · rcases hcases with ⟨hstatus, hdue, hradio, hstart⟩ | ⟨-, hnone, hradio⟩
      · obtain ⟨hmeta, -, hstarted⟩ := beginRadio_keeps hrec hrem hstatus hdue hready
        rw [← hradio] at hmeta hstarted
        rcases hstart with ⟨hyes, hrecording⟩ | ⟨-, hnone⟩
        · -- the entry that records is the active one
          have hget : (Sched.serve env s).base.sched_entries[i]? = some f := by
            rw [hentries, List.getElem?_set_self hlt]
          have hactive : (Sched.serve env s).base.active = some f :=
            hsound.index.active (List.mem_of_getElem? hget) (busy_of_recording hrecording)
          refine ⟨hsound, hmeta, fun g hg => ⟨rec, ?_, hstarted hyes⟩⟩
          rw [← Option.some.inj (hactive.symm.trans hg), hf, hrec]
        · exact ⟨hsound, hmeta, fun g hg => absurd hg (hidle hnone g)⟩
      · refine ⟨hsound, ?_, fun g hg => absurd hg (hidle hnone g)⟩
        rw [hradio]
        exact (stopRadio_undone hrec h.handoff hrem).handoff

/-- The loop over the waiting entries hands one entry to `sched_arm_entry`, and the active index is
what that says. -/
theorem armNext_snd (env : TickEnv) (es : List SchedEntry) (i : ℕ) :
    (armTarget env.now es = none ∧ (armNext env i es).2 = none) ∨
      ∃ e j, armTarget env.now es = some e ∧
        (armNext env i es).2 = (schedArmEntry env (i + j) e).2 ∧
        (armNext env i es).1[j]? = some (schedArmEntry env (i + j) e).1 := by
  induction es generalizing i with
  | nil => exact Or.inl ⟨rfl, rfl⟩
  | cons e es ih =>
    -- an entry that is passed over leaves the rest of the loop
    have hskip : ∀ e', armTarget env.now (e :: es) = armTarget env.now es →
        armNext env i (e :: es) =
          (e' :: (armNext env (i + 1) es).1, (armNext env (i + 1) es).2) →
          (armTarget env.now (e :: es) = none ∧ (armNext env i (e :: es)).2 = none) ∨
            ∃ f j, armTarget env.now (e :: es) = some f ∧
              (armNext env i (e :: es)).2 = (schedArmEntry env (i + j) f).2 ∧
              (armNext env i (e :: es)).1[j]? = some (schedArmEntry env (i + j) f).1 := by
      intro e' htarget hnext
      rw [htarget, hnext]
      rcases ih (i + 1) with ⟨hnone, hidx⟩ | ⟨f, j, hf, hidx, hget⟩
      · exact Or.inl ⟨hnone, hidx⟩
      · have hsum : i + 1 + j = i + (j + 1) := by omega
        rw [hsum] at hidx hget
        exact Or.inr ⟨f, j + 1, hf, hidx, hget⟩
    by_cases hwait : e.status = .waiting
    · by_cases hmissed : e.endTime < env.now
      · refine hskip { e with status := .failed } (List.find?_cons_of_neg (by simp [hmissed])) ?_
        simp [armNext, hwait, hmissed]
      · by_cases hnear : e.start_time - SCHED_PRE_ARM_SEC ≤ env.now
        · refine Or.inr ⟨e, 0, List.find?_cons_of_pos (by
            simp [hwait, not_lt.1 hmissed, hnear]), ?_⟩
          simp [armNext, hwait, hmissed, hnear]
        · refine hskip e (List.find?_cons_of_neg (by simp [hnear])) ?_
          simp [armNext, hwait, hmissed, hnear]
    · refine hskip e (List.find?_cons_of_neg (by simp [hwait])) ?_
      simp [armNext, hwait]

/-- `sched_arm_entry` leaves the name that the scheduler hands over. -/
theorem armRadio_handoff (env : RadioEnv) (e : SchedEntry) (r : Radio) :
    (armRadio env e r).pending_sched_meta = r.pending_sched_meta := by
  unfold armRadio
  split_ifs
  · rfl
  · simp only [armFullBand]
    split_ifs <;> rfl
  · simp only [armChannel]
    split <;> rfl
  · rfl

theorem armRadio_leftAlone {env : RadioEnv} {e : SchedEntry} {r : Radio} {j : ℕ}
    (hmeta : r.pending_sched_meta.active = false)
    (hno : (schedArmEntry (env.tick true r) j e).2 = none) :
    LeftAlone env.cfMhz r (armRadio env e r) := by
  have hsame : LeftAlone env.cfMhz r r := ⟨Or.inl rfl, ⟨rfl, rfl⟩, rfl, rfl, hmeta⟩
  cases hmode : env.remote_mode with
  | true =>
    rw [armRadio, if_pos hmode]
    exact hsame
  | false =>
    cases hsdr : env.sdr_ok with
    | false =>
      rw [armRadio, if_neg (by simp [hmode]), if_pos (by simp [hsdr])]
      exact hsame
    | true =>
      by_cases hsr : e.sr_hz > 0
      · -- the recorder of the whole band is busy
        have hrec : r.rec_on = true := by
          by_contra hfree
          simp [schedArmEntry, RadioEnv.tick, hmode, hsdr, hsr, hfree] at hno
        simp only [armRadio, hmode, hsdr, hsr, Bool.false_eq_true, if_false, not_true, if_true,
          armFullBand, hrec]
        exact ⟨Or.inl rfl, ⟨rfl, rfl⟩, rfl, rfl, hmeta⟩
      · cases hk : r.freeSlot with
        | some k => simp [schedArmEntry, RadioEnv.tick, hmode, hsdr, hsr, hk] at hno
        | none =>
          -- no slot is free, and the tuner is asked back
          have hfree : ∀ (cf : Fp 24) (saved : Fp 24 × Fp 24), (setFrequency cf
              { r with
                sched_saved_cf := saved.1, sched_saved_sr_msps := saved.2 }).freeSlot = none :=
            fun _ _ => hk
          simp only [armRadio, hmode, hsdr, hsr, Bool.false_eq_true, if_false, not_true,
            armChannel, hfree _ (_, _)]
          exact ⟨Or.inr rfl, ⟨rfl, rfl⟩, rfl, rfl, hmeta⟩

/-- An entry that is armed has a recorder, and the radio remembers what the tuner was set to. -/
theorem armRadio_remembers {env : RadioEnv} {e : SchedEntry} {r : Radio} {j i : ℕ}
    (hok : armOk env e = true) (hyes : (schedArmEntry (env.tick true r) j e).2 = some i) :
    ∃ rec, (schedArmEntry (env.tick true r) j e).1.recorder = some rec ∧
      Remembers (armRadio env e r) rec := by
  cases hmode : env.remote_mode with
  | true => simp [schedArmEntry, RadioEnv.tick, hmode] at hyes
  | false =>
    cases hsdr : env.sdr_ok with
    | false => simp [schedArmEntry, RadioEnv.tick, hmode, hsdr] at hyes
    | true =>
      by_cases hsr : e.sr_hz > 0
      · cases hrec : r.rec_on with
        | true => simp [schedArmEntry, RadioEnv.tick, hmode, hsdr, hsr, hrec] at hyes
        | false =>
          refine ⟨.fullBand, ?_, ?_⟩
          · simp [schedArmEntry, RadioEnv.tick, hmode, hsdr, hsr, hrec, SchedEntry.recorder]
          · -- a sample rate that is asked for is remembered by one that is not 0
            have hrate : 0 < env.sample_rate := by
              simpa [armOk, (UInt32.pos_iff_ne_zero.1 hsr)] using hok
            have hpos : Fp.lt (.ofRat (by norm_num) 0) (toMsps env.sample_rate) = true :=
              Fp.lt_zero_divRat (by norm_num) (by exact_mod_cast hrate) (by norm_num)
            simp only [armRadio, hmode, hsdr, hsr, Bool.false_eq_true, if_false, not_true,
              if_true, armFullBand, hrec, setFrequency]
            refine ⟨?_, ?_, fun h => absurd rfl h⟩
            · simp only [Function.update_self]
              split_ifs <;> rfl
            · simp only [Function.update_self]
              intro hasked
              rw [if_pos hasked]
              exact ⟨rfl, hpos⟩
      · cases hk : r.freeSlot with
        | none => simp [schedArmEntry, RadioEnv.tick, hmode, hsdr, hsr, hk] at hyes
        | some k =>
          refine ⟨.channel (k : ℕ), ?_, ?_⟩
          · simp [schedArmEntry, RadioEnv.tick, hmode, hsdr, hsr, hk, SchedEntry.recorder]
          · have hfree : ∀ (cf : Fp 24) (saved : Fp 24 × Fp 24), (setFrequency cf
                { r with
                  sched_saved_cf := saved.1, sched_saved_sr_msps := saved.2 }).freeSlot = some k :=
              fun _ _ => hk
            simp only [armRadio, hmode, hsdr, hsr, Bool.false_eq_true, if_false, not_true,
              armChannel, hfree _ (_, _)]
            -- a channel asks for no sample rate
            refine ⟨?_, ?_, ?_⟩ <;> simp only [Function.update_self]
            · rfl
            · intro hasked
              exact Bool.noConfusion hasked
            · exact fun _ => trivial

/-- The second part of a tick leaves the radio alone where it arms nothing. -/
theorem Undoable.undoes_arm {s : RadioState} (h : Undoable s) (env : RadioEnv) :
    Undoes s (.turn (.sched (.arm env))) := by
  intro hidle e htarget hnone
  simp only [Sched.arm, armIdle, hidle, htarget, if_true] at hnone ⊢
  rcases armNext_snd (env.tick true s.radio) s.base.sched_entries 0 with
    ⟨hno, -⟩ | ⟨f, j, hf, hidx, -⟩
  · rw [show armTarget env.now s.base.sched_entries = none from hno] at htarget
    simp at htarget
  · obtain rfl : e = f := Option.some.inj (htarget.symm.trans hf)
    exact armRadio_leftAlone h.handoff (hidx.symm.trans hnone)

/-- What the second part of a tick arms can be undone. -/
theorem Undoable.arm {s : RadioState} (h : Undoable s) {env : RadioEnv}
    (hok : (armTarget env.now s.base.sched_entries).all (armOk env) = true) :
    Undoable (arm env s) := by
  cases hi : s.base.sched_active_idx with
  | some i =>
    have hsame : Sched.arm env s = s := by
      simp only [Sched.arm, armIdle, hi, reduceCtorEq, if_false]
    rwa [hsame]
  | none =>
    have hbase : (Sched.arm env s).base =
        { s.base with
          sched_entries := (armNext (env.tick true s.radio) 0 s.base.sched_entries).1
          sched_active_idx := (armNext (env.tick true s.radio) 0 s.base.sched_entries).2 } := by
      simp only [Sched.arm, armIdle, hi]
    have hradio : (Sched.arm env s).radio =
        (armTarget env.now s.base.sched_entries).elim s.radio fun e => armRadio env e s.radio := by
      refine (if_pos hi).trans ?_
      cases armTarget env.now s.base.sched_entries <;> rfl
    refine ⟨?_, ?_, fun f hf => ?_⟩
    · rw [hbase]
      exact h.sound.armNext hi _
    · rw [hradio]
      cases armTarget env.now s.base.sched_entries with
      | none => exact h.handoff
      | some e =>
        exact (congrArg PendingSchedMeta.active (armRadio_handoff env e _)).trans h.handoff
    · obtain ⟨i, hact, hget⟩ := active_eq_some.1 hf
      rw [hbase] at hact hget
      rcases armNext_snd (env.tick true s.radio) s.base.sched_entries 0 with
        ⟨-, hnone⟩ | ⟨e, j, htarget, hidx, hentry⟩
      · simp [hnone] at hact
      · have htarget' : armTarget env.now s.base.sched_entries = some e := htarget
        have hyes : (schedArmEntry (env.tick true s.radio) (0 + j) e).2 = some i :=
          hidx.symm.trans hact
        -- the active index is that of the entry
        obtain rfl : 0 + j = i := by
          obtain ⟨-, -, ⟨-, hidx'⟩ | ⟨-, hidx'⟩⟩ :=
            schedArmEntry_cases (env.tick true s.radio) (0 + j) e
          · exact Option.some.inj (hidx'.symm.trans hyes)
          · rw [hidx'] at hyes
            simp at hyes
        rw [htarget', Option.all_some] at hok
        obtain ⟨rec, hrec, hrem⟩ := armRadio_remembers hok hyes
        simp only [Nat.zero_add] at hget hentry hrec
        refine ⟨rec, ?_, ?_⟩
        · rw [← Option.some.inj (hentry.symm.trans hget)]
          exact hrec
        · rw [hradio, htarget']
          exact hrem

/-- What keeps the index sound and adds no entry that is armed or records leaves what is armed to be
undone. -/
theorem Undoable.of_base {s : RadioState} (h : Undoable s) {b : State} (hb : Sound b)
    (hsub : ∀ f ∈ b.sched_entries, f.Busy → f ∈ s.base.sched_entries) :
    Undoable { s with base := b } := by
  refine ⟨hb, h.handoff, fun f hf => h.remembers f ?_⟩
  have hbusy : f.Busy := hb.index.busy hf
  exact h.sound.index.active (hsub f (mem_of_active hf) hbusy) hbusy

/-- What leaves the list and what the radio has saved leaves what is armed to be undone. -/
theorem Undoable.of_radio {s : RadioState} (h : Undoable s) {r : Radio}
    (hmeta : r.pending_sched_meta.active = false) (hcf : r.sched_saved_cf = s.radio.sched_saved_cf)
    (hsr : r.sched_saved_sr_msps = s.radio.sched_saved_sr_msps)
    (hbefore : r.before = s.radio.before) : Undoable { s with radio := r } := by
  refine ⟨h.sound, hmeta, fun f hf => ?_⟩
  obtain ⟨rec, hrec, hrem⟩ := h.remembers f hf
  exact ⟨rec, hrec, hrem.congr hcf hsr hbefore⟩

/-- An entry that waits is added to those that are armed or record. -/
theorem busy_push {es : List SchedEntry} {e : SchedEntry} (he : e.status = .waiting) :
    ∀ f ∈ es ++ [e], f.Busy → f ∈ es := by
  intro f hf hb
  rcases List.mem_append.1 hf with hf | hf
  · exact hf
  · rw [List.mem_singleton.1 hf] at hb
    rcases hb with h | h <;> simp [he] at h

/-- A step of the scheduler leaves what is armed to be undone. -/
theorem Undoable.sched {s : RadioState} (h : Undoable s) (x : SchedStep)
    (hok : EventKeeps s (.turn (.sched x))) : Undoable (x.next s) := by
  cases x with
  | add now q =>
    refine h.of_base (h.sound.onAddSched now q) fun f hf hb => ?_
    simp only [onAddSched] at hf
    split at hf
    · exact hf
    · exact busy_push rfl f hf hb
  | remove start_time freq_mhz =>
    exact h.of_base ((h.sound.onRemoveSched_iff start_time freq_mhz).2 hok) fun f hf _ =>
      (onRemoveSched_sublist start_time freq_mhz s.base).subset hf
  | clean now rules =>
    exact h.of_base (h.sound.satClean now rules) fun f hf _ =>
      (satClean_sublist now rules s.base).subset hf
  | fill r p =>
    refine h.of_base (h.sound.satFill r p) fun f hf hb => ?_
    simp only [satFill] at hf
    split at hf
    · exact hf
    · exact busy_push rfl f hf hb
  | serve env => exact h.serve hok
  | arm env => exact h.arm hok

theorem ChannelCommand.next_frame (r : Radio) (c : ChannelCommand) :
    (c.next r).pending_sched_meta = r.pending_sched_meta ∧
      (c.next r).sched_saved_cf = r.sched_saved_cf ∧
      (c.next r).sched_saved_sr_msps = r.sched_saved_sr_msps ∧
      (c.next r).before = r.before := by
  cases c with
  | create idx lo hi creator =>
    simp only [ChannelCommand.next]
    split <;> exact ⟨rfl, rfl, rfl, rfl⟩
  | delete idx =>
    simp only [ChannelCommand.next]
    split <;> exact ⟨rfl, rfl, rfl, rfl⟩
  | setMode idx mode =>
    simp only [ChannelCommand.next]
    split <;> exact ⟨rfl, rfl, rfl, rfl⟩

/-- A list of Central that has the active entry in its band leaves what is armed to be undone. -/
theorem Undoable.restore {s : RadioState} (h : Undoable s) {pkt : PktSchedSync}
    {outside : SchedEntry} (hkeeps : RestoreKeeps s.base pkt outside)
    (hband : BandKeeps s.base pkt) :
    Undoable { s with base := onCentralSchedSync pkt outside s.base } := by
  have hsound : Sound (onCentralSchedSync pkt outside s.base) :=
    h.sound.onCentralSchedSync_iff.2 hkeeps
  refine ⟨hsound, h.handoff, fun f hf => ?_⟩
  have hmem : f ∈ (restored s.base pkt outside).map Prod.fst := by
    have hlist : (onCentralSchedSync pkt outside s.base).sched_entries =
        (restored s.base pkt outside).map Prod.fst := rebuild_fst _
    rw [← hlist]
    exact mem_of_active hf
  obtain ⟨⟨g, marked⟩, hg, rfl⟩ := List.mem_map.1 hmem
  -- what is active afterwards was taken for the active entry
  obtain rfl : marked = true :=
    (busy_of_indexSound_restore hsound.index hg).1 (hsound.index.busy hf)
  obtain ⟨se, hse, hv, hmark, heq⟩ := exists_of_mem_restored hg
  obtain ⟨e, hact, hsr⟩ := hband se hse ⟨hv, hmark.symm⟩
  obtain ⟨-, -, hsr', hslot, -⟩ := restoreEntry_eq_some heq
  rw [hact, Option.getD_some] at hslot
  obtain ⟨rec, hrec, hrem⟩ := h.remembers e hact
  refine ⟨rec, ?_, hrem⟩
  rw [recorder_congr (by rw [hsr', hsr]) hslot]
  exact hrec

/-- The end of a recorder leaves what is armed to be undone. -/
theorem Undoable.recorderEnds {s : RadioState} (h : Undoable s) (rec : Recorder) :
    Undoable { s with base := Event.next s.base (.recorderEnds rec) } :=
  h.of_base (h.sound.recorderEnds rec) fun _ hf _ => hf

theorem Undoable.next {s : RadioState} (h : Undoable s) (e : RadioEvent) (hok : EventKeeps s e) :
    Undoable (e.next s) := by
  cases e with
  | turn t =>
    cases t with
    | sched x => exact h.sched x hok
    | command c =>
      obtain ⟨hmeta, hcf, hsr, hbefore⟩ := c.next_frame s.radio
      exact h.of_radio (hmeta ▸ h.handoff) hcf hsr hbefore
  | restore pkt outside => exact h.restore hok.1 hok.2
  | startIqRec env k =>
    obtain ⟨hcf, hsr, hbefore, -⟩ := startIqRec_frame env k s.radio
    exact h.of_radio (startIqRec_handoff env k h.handoff) hcf hsr hbefore
  | stopIqRec k => exact (h.recorderEnds _).of_radio h.handoff rfl rfl rfl
  | startRec => exact h.of_radio h.handoff rfl rfl rfl
  | stopRec => exact (h.recorderEnds _).of_radio h.handoff rfl rfl rfl
  | tune cf_mhz => exact h.of_radio h.handoff rfl rfl rfl
  | requestRate sr_msps => exact h.of_radio h.handoff rfl rfl rfl
  | rateChanged => exact h.of_radio h.handoff rfl rfl rfl

/-- An event undoes the arms of the entries that end with it. -/
theorem Undoable.undoes {s : RadioState} (h : Undoable s) (e : RadioEvent)
    (hok : EventKeeps s e) : Undoes s e := by
  cases e with
  | turn t =>
    cases t with
    | sched x =>
      cases x with
      | serve env => exact h.undoes_serve hok
      | arm env => exact h.undoes_arm env
      | _ => trivial
    | command c => trivial
  | _ => trivial

/-! ## Runs -/

/-- The state that a sequence of events leads to. -/
def afterEvents (es : List RadioEvent) : RadioState := es.foldl RadioEvent.next {}

theorem undoable_start : Undoable {} :=
  ⟨sound_start, rfl, fun e he => by simp [State.active] at he⟩

/-- In a run whose events all leave what is armed to be undone, each of them undoes the arms of the
entries that end with it. -/
theorem undoes_of_keeps (es : List RadioEvent)
    (hes : ∀ es' e, es' ++ [e] <+: es → EventKeeps (afterEvents es') e) :
    ∀ es' e, es' ++ [e] <+: es → Undoes (afterEvents es') e := by
  intro es' e hpre
  have hall : ∀ es', es' <+: es → Undoable (afterEvents es') :=
    forall_prefix_foldl (fun s e h hok => h.next e hok) undoable_start hes
  exact (hall es' ((List.prefix_append es' [e]).trans hpre)).undoes e (hes es' e hpre)

/-- A recording is armed whose file does not open. -/
def refusedRun : List RadioEvent :=
  [.turn (.sched (.add 900 (secondsRequest 1000 60 200))),
    .turn (.sched (.arm (radioAt 995 true)))]

/-- When it fails, its arm is undone. -/
theorem undoes_refusedRun :
    (serve (radioAt 1000 false) (afterEvents refusedRun)).base.sched_entries.map
        SchedEntry.status = [.failed] ∧
      Undoes (afterEvents refusedRun) (.turn (.sched (.serve (radioAt 1000 false)))) := by
  refine ⟨by decide +kernel, ?_⟩
  refine undoes_of_keeps (refusedRun ++ [.turn (.sched (.serve (radioAt 1000 false)))]) ?_ _ _
    (List.prefix_refl _)
  refine forall_prefix_cons trivial (forall_prefix_cons ?_ (forall_prefix_cons ?_
    forall_prefix_nil))
  · change Option.all _ _ = true
    decide +kernel
  · change Option.all _ _ = true
    decide +kernel

/-! ## A Doppler function that is left -/

/-- A pass of a satellite is armed. -/
def satelliteRun : List RadioEvent :=
  [.turn (.sched (.fill ⟨25544, .ofRat double_pos 145800000, 50000⟩
      (⟨1000, 1060, by decide⟩ : Pass 900))),
    .turn (.sched (.arm (radioAt 995 true)))]

/-- When the file does not open, the entry fails, and its slot still follows the satellite. -/
theorem satelliteRun_state :
    (afterEvents satelliteRun).base.sched_entries.map SchedEntry.status = [.armed] ∧
      (afterEvents satelliteRun).base.sched_entries.map SchedEntry.recorder =
        [some (.channel 0)] ∧
      (serve (radioAt 1000 false) (afterEvents satelliteRun)).base.sched_entries.map
        SchedEntry.status = [.failed] ∧
      ((serve (radioAt 1000 false) (afterEvents satelliteRun)).radio.iq_doppler_fn
        ⟨0, by decide⟩).isSome = true := by
  decide +kernel

/-- The arm of the run is not undone. -/
theorem not_undoes_satelliteRun :
    ¬Undoes (afterEvents satelliteRun) (.turn (.sched (.serve (radioAt 1000 false)))) := by
  obtain ⟨harmed, hrecorder, hfailed, hdoppler⟩ := satelliteRun_state
  intro h
  obtain ⟨e, he⟩ := List.map_eq_singleton_iff.1 harmed
  obtain ⟨f, hf, hstatus⟩ := List.map_eq_singleton_iff.1 hfailed
  obtain ⟨rec, hrec, hundone⟩ := h 0 e f (by simp [he.1]) (Or.inl he.2) (by simp [hf])
    (Or.inr hstatus)
  rw [he.1, List.map_singleton, List.singleton_inj, hrec, Option.some.injEq] at hrecorder
  have hnone := (hundone.slot ⟨0, by decide⟩ (by rw [hrecorder]; rfl)).2
  rw [hnone] at hdoppler
  exact Bool.noConfusion hdoppler

end Bewe.Sched

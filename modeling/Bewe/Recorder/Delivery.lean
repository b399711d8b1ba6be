import Bewe.MissionPush.Packets
import Bewe.Recorder.Squelch
import Bewe.Report.InfoParse
import Bewe.Sched.Machine

/-!
# A recording that a JOIN stops

A JOIN starts and stops the IQ recording of a channel through `on_start_iq_rec` and `on_stop_iq_rec`
of `cli_host.cpp`. `stop_iq_rec` of `iq_record.cpp` closes the file, gives it the name under which
it stays, hands it to the queue of `mission_push.cpp`, whose worker sends it to Central and removes
it once Central has it, and last forgets its path. `on_stop_iq_rec` is to send the file to the JOINs
as one stream of IQ_CHUNK packets and to remove it behind that, but asks the channel for the path
when it is forgotten. So it sends nothing of any recording (`delivered_iff`).

What other code decides comes with the events: the name of a recording and the text of its sidecar,
the sample rate, the clock.
-/

namespace Bewe.Recorder

open Lib Hist Archive MissionPush
open Report (kst twoDigits metaFindNum)
open Sched (MAX_CHANNELS atoi)

/-! ## Packets -/

/-- `PktIqChunkHdr` and the bytes behind it; `data_len` is their number. -/
structure PktIqChunk where
  req_id : ℕ
  seq : ℕ
  filename : Bytes
  filesize : ℕ
  sample_rate : ℕ
  data : Bytes
  deriving DecidableEq

/-- `CHUNK` of a stream. -/
def IQ_CHUNK : ℕ := 64 * 1024

/-- What goes to Central and comes from it, in the order of HOST. -/
inductive Traffic
  | iqChunk (p : PktIqChunk)
  | push (p : Packet)
  | ack (a : PktMissionFilePushAck)

/-- The stream of a file: the start, its data in order, the end. -/
def iqStream (req_id sample_rate : ℕ) (fn content : Bytes) : List PktIqChunk :=
  [⟨req_id, 0, fn.take 127, content.length, sample_rate, []⟩] ++
    (List.range ((content.length + IQ_CHUNK - 1) / IQ_CHUNK)).map (fun i =>
      ⟨req_id, i + 1, fn.take 127, content.length, 0, slice (i * IQ_CHUNK) IQ_CHUNK content⟩) ++
    [⟨req_id, 0xFFFFFFFF, fn.take 127, content.length, 0, []⟩]

/-- The packets of a push: META and all of DATA. -/
def pushPackets (u : Upload) : List Packet :=
  (List.range (chunkCount u.content + 1)).filterMap u.packet

/-! ## State -/

/-- What `Channel` has for its IQ recording; `file` is the file of `iq_rec_fp`. -/
structure IqChannel extends IqRec where
  filter_active : Bool
  dem_run : Bool
  s : Level
  e : Level
  iq_rec_path : Bytes
  file : ℕ

/-- A channel nobody uses. -/
def IqChannel.unused : IqChannel where
  dem_paused := false
  iq_rec_on := false
  iq_rec_force_all := false
  iq_rec_fp := none
  iq_rec_frames := 0
  iq_rec_sr := 0
  iq_rec_buf := []
  iq_sqr_state := .SQR_IDLE
  iq_sqr_tail_remain := 0
  filter_active := false
  dem_run := false
  s := .ofRat float_pos 0
  e := .ofRat float_pos 0
  iq_rec_path := []
  file := 0

/-- `QueueItem` -/
structure QueueItem where
  path : Bytes
  subdir : ℕ
  year : ℕ
  code : Bytes
  filename : Bytes
  station : Bytes

/-- What `push_one` has of the file it sends: `fp` is the file, and `acked` what `ack_map` has under
the id. The worker is alone, so the map has no other id. -/
structure Push where
  item : QueueItem
  fp : ℕ
  total : ℕ
  tid : ℕ
  off : ℕ
  sent_any : Bool
  acked : Option PktMissionFilePushAck

/-- A thread of `on_stop_iq_rec`: `opened` is its file and `fsz`. -/
structure IqSend where
  path : Bytes
  req_id : ℕ
  opened : Option (ℕ × ℕ)
  sent : ℕ
  seq : ℕ

/-- HOST. -/
structure Host where
  fs : Fs Bytes Bytes
  channels : ℕ → IqChannel
  running : Bool
  q : List QueueItem
  pushing : Option Push
  next_transfer_id : ℕ
  g_iq_req : ℕ
  sends : List IqSend
  traffic : List Traffic

namespace Host

/-- HOST when it has started, with what is on its disk. -/
def boot (fs : Fs Bytes Bytes) (running : Bool) : Host where
  fs := fs
  channels _ := .unused
  running := running
  q := []
  pushing := none
  next_transfer_id := 1
  g_iq_req := 2000
  sends := []
  traffic := []

/-- A channel becomes another. -/
def setChannel (h : Host) (c : ℕ) (ch : IqChannel) : Host :=
  { h with channels := Function.update h.channels c ch }

/-- A packet goes to Central. -/
def transmit (h : Host) (p : Traffic) : Host := { h with traffic := h.traffic ++ [p] }

/-- Two files are removed. -/
def remove (h : Host) (a b : Bytes) : Host := { h with fs := (h.fs.unlink a).unlink b }

/-! ## The queue of pushes -/

/-- A path's part before its first slash, and the part behind. -/
def cutSlash (t : Bytes) : Option (Bytes × Bytes) :=
  if slash ∈ t then some (t.takeWhile (· ≠ slash), (t.dropWhile (· ≠ slash)).drop 1) else none

/-- `parse_mission_path` -/
def parseMissionPath (root full : Bytes) (subdir : ℕ) : Option QueueItem := do
  guard (root ++ [slash] <+: full)
  let (station, rest) ← cutSlash (full.drop (root.length + 1))
  let (ys, rest) ← cutSlash rest
  let (code, rest) ← cutSlash rest
  let (subs, fn) ← cutSlash rest
  guard (station ≠ [] ∧ ys ≠ [] ∧ code ≠ [] ∧ fn ≠ [])
  guard (subs = (subdirName subdir).getD [])
  guard (1970 ≤ atoi ys ∧ atoi ys ≤ 3000)
  some ⟨full, subdir, (atoi ys).toNat, code, fn, station⟩

variable (root : Bytes)

/-- `MissionPush::enqueue` -/
def enqueue (h : Host) (path : Bytes) (subdir : ℕ) : Host :=
  if !h.running then h
  else
    match parseMissionPath root path subdir with
    | none => h
    | some it =>
      if h.fs.find path = none then h
      else if h.q.any fun e => e.path = path then h
      else { h with q := h.q ++ [it] }

/-- The worker gives up a file and puts it at the end of the queue. -/
def requeue (h : Host) (it : QueueItem) : Host := { h with pushing := none, q := h.q ++ [it] }

/-- `alloc_transfer_id`: the counter has a byte and skips zero. -/
def allocTransferId (h : Host) : ℕ :=
  if h.next_transfer_id % 256 = 0 then 1 else h.next_transfer_id % 256

/-- META of a file. -/
def metaOf (h : Host) (it : QueueItem) (total tid : ℕ) : PktMissionFilePushMeta where
  key :=
    { station := charArray 64 (it.station.take 63)
      year := it.year
      subdir := it.subdir
      code := charArray 8 (it.code.take 7)
      filename := charArray 128 (it.filename.take 127) }
  total_bytes := total
  transfer_id := tid
  mode := 0
  info_data := charArray 1024 (cStr (((h.fs.read (sidecarPath it.path)).getD []).take 1023))

/-- `push_one` up to the first chunk. -/
def pushOne (h : Host) (it : QueueItem) : Host :=
  match h.fs.find it.path with
  | none => h.requeue it
  | some fp =>
    if it.station = [] then h.requeue it
    else
      let total := (h.fs.content fp).length
      let tid := h.allocTransferId
      { h with
        pushing := some ⟨it, fp, total, tid, 0, false, none⟩
        next_transfer_id := tid + 1 }.transmit (.push (.pushMeta (h.metaOf it total tid)))

/-- A chunk, unless the file has become shorter. -/
def pushChunk (h : Host) (t : Push) : Host :=
  let want := min CHUNK (t.total - t.off)
  let got := slice t.off want (h.fs.content t.fp)
  if got.length ≠ want then h.requeue t.item
  else
    { h with pushing := some { t with off := t.off + want, sent_any := true } }.transmit
      (.push (.pushData ⟨t.tid, t.total ≤ t.off + want, t.off, got⟩))

/-- `push_one` behind the wait for the acknowledgement. -/
def pushed (h : Host) (t : Push) : Host :=
  if t.acked.any (·.status = 0) then
    { h with pushing := none }.remove t.item.path (sidecarPath t.item.path)
  else h.requeue t.item

/-- The worker goes on; it waits for the acknowledgement of a file until `timeout`. -/
def work (h : Host) (timeout : Bool) : Host :=
  if !h.running then h
  else
    match h.pushing with
    | none =>
      match h.q with
      | [] => h
      | it :: q => { h with q := q }.pushOne it
    | some t =>
      if t.off < t.total ∨ !t.sent_any then h.pushChunk t
      else if t.acked.isSome || timeout then h.pushed t
      else h

/-- What the acknowledgement of a transfer given up does: files of its name that are in the queue
again are removed. -/
def lateAck (h : Host) (a : PktMissionFilePushAck) : Host :=
  if a.status ≠ 0 then h
  else
    let named := fun it : QueueItem => decide (it.year = a.key.year ∧ it.code = a.key.codeStr ∧
      it.filename = a.key.filenameStr)
    (h.q.filter named).foldl (fun h it => h.remove it.path (sidecarPath it.path))
      { h with q := h.q.filter fun it => !named it }

/-- The callback for acknowledgements. -/
def onPushAck (h : Host) (a : PktMissionFilePushAck) : Host :=
  match h.pushing with
  | some t =>
    if a.transfer_id = t.tid then { h with pushing := some { t with acked := some a } }
    else h.lateAck a
  | none => h.lateAck a

/-! ## Recording -/

/-- The recorder of a channel comes to be `next`; what that has written more goes to the file, behind
what the channel has written before. -/
def record (h : Host) (c : ℕ) (next : IqRec) : Host :=
  let ch := h.channels c
  let place := (ch.iq_rec_fp.getD []).length
  let more := (next.iq_rec_fp.getD []).drop place
  { h with fs := h.fs.write ch.file (pwrite place more (h.fs.content ch.file)) }.setChannel c
    { ch with toIqRec := next }

end Host

/-- What `start_iq_rec` finds: the file, unless there is no mission or the file cannot be opened,
the sample rate and the sidecar. -/
structure RecStart where
  fn : Option Bytes
  sr : ℕ
  info : Bytes

/-- What `stop_iq_rec` finds: the clock, and the sidecar with the duration. -/
structure RecStop where
  te : ℕ
  info : Bytes

/-- `SigMF::meta_path` -/
def metaPath (p : Bytes) : Bytes := stripIqExt p ++ ascii ".sigmf-meta"

/-- `add_end_hms_to_path` -/
def addEndHmsToPath (path : Bytes) (te : ℕ) : Bytes :=
  match rfind (ascii ".") path with
  | none => path
  | some dot =>
    let tm := kst te
    path.take dot ++ ascii "-" ++ twoDigits tm.hour ++ twoDigits tm.min ++ twoDigits tm.sec ++
      path.drop dot

/-- `rename_with_end_hms`: the files behind it, and the path of the recording. -/
def renameWithEndHms (fs : Fs Bytes Bytes) (old : Bytes) (te : ℕ) : Fs Bytes Bytes × Bytes :=
  if ascii "SCHED_" <+: baseOf old then (fs, old)
  else
    let new := addEndHmsToPath old te
    if new ≠ old ∧ fs.find old ≠ none then
      let fs := fs.rename old new
      if extensionOf old = ascii ".sigmf-data" then (fs.rename (metaPath old) (metaPath new), new)
      else (fs.rename (old ++ ascii ".info") (new ++ ascii ".info"), new)
    else (fs, old)

namespace Host

/-- `start_iq_rec` -/
def startIqRec (h : Host) (c : ℕ) (r : RecStart) : Host :=
  let ch := h.channels c
  if MAX_CHANNELS ≤ c ∨ !ch.filter_active ∨ ch.iq_rec_on then h
  else
    match r.fn with
    | none => h.setChannel c { ch with iq_rec_sr := r.sr }
    | some fn =>
      let opened := h.fs.create fn []
      { h with fs := (opened.1.create (sidecarPath fn) r.info).1 }.setChannel c
        { ch with
          toIqRec := .started ch.dem_paused ch.iq_rec_force_all r.sr
          iq_rec_path := fn
          file := opened.2 }

/-- What a channel has written goes to the file, and the file is closed. -/
def closeIqRec (h : Host) (c : ℕ) : Host :=
  let h := h.record c (h.channels c).iqRecDrain
  h.setChannel c { h.channels c with iq_rec_on := false, iq_rec_fp := none }

/-- The end of a recording that has frames: the sidecar gets the duration, and both files get their
names. -/
def nameIqRec (h : Host) (c : ℕ) (r : RecStop) : Host × Bytes :=
  let ch := h.channels c
  let side := sidecarPath ch.iq_rec_path
  let fs := if 0 < ch.iq_rec_sr ∧ h.fs.find side ≠ none then (h.fs.create side r.info).1 else h.fs
  let named := renameWithEndHms fs ch.iq_rec_path r.te
  ({ h with fs := named.1 }.setChannel c { ch with iq_rec_path := named.2 }, named.2)

/-- `ch.iq_rec_path.clear()` -/
def clearPath (h : Host) (c : ℕ) : Host :=
  h.setChannel c { h.channels c with iq_rec_path := [] }

variable (root : Bytes)

/-- `stop_iq_rec` -/
def stopIqRec (h : Host) (c : ℕ) (push : Bool) (r : RecStop) : Host :=
  if MAX_CHANNELS ≤ c ∨ !(h.channels c).iq_rec_on then h
  else
    let h := h.closeIqRec c
    let ch := h.channels c
    if ch.iq_rec_frames = 0 then
      (h.remove ch.iq_rec_path (metaPath ch.iq_rec_path)).clearPath c
    else
      let named := h.nameIqRec c r
      (if push then named.1.enqueue root named.2 MFS_IQ else named.1).clearPath c

/-- `on_start_iq_rec`: a filter of more than 100 kHz is denied. -/
def onStartIqRec (h : Host) (c : ℕ) (r : RecStart) : Host :=
  let ch := h.channels c
  let bw : Level := ((ch.e.sub float_pos ch.s).abs float_pos).mulRat float_pos 1000
  if MAX_CHANNELS ≤ c then h
  else if !ch.filter_active || !ch.dem_run then h
  else if (Fp.ofRat float_pos 100).lt bw then h
  else if ch.iq_rec_on then h
  else h.startIqRec c r

/-- `on_stop_iq_rec` -/
def onStopIqRec (h : Host) (c : ℕ) (r : RecStop) : Host :=
  if MAX_CHANNELS ≤ c then h
  else if !(h.channels c).iq_rec_on then h
  else
    let h := h.stopIqRec root c true r
    let path := (h.channels c).iq_rec_path
    if path ≠ [] then
      { h with sends := h.sends ++ [⟨path, h.g_iq_req, none, 0, 1⟩], g_iq_req := h.g_iq_req + 1 }
    else h

/-- The sample rate in the sidecar of a file. -/
def sampleRate (h : Host) (path : Bytes) : ℕ :=
  let d := (h.fs.read (metaPath path)).bind fun text => metaFindNum text "core:sample_rate"
  (d.map fun d => (EmitterDb.truncate d).toNat % 2 ^ 32).getD 0

/-- A thread of `on_stop_iq_rec` goes on: it opens the file and sends the start, or a chunk, or the
end, and then removes the file. -/
def send (h : Host) (i : ℕ) : Host :=
  match h.sends[i]? with
  | none => h
  | some t =>
    let fn := (baseOf t.path).take 127
    match t.opened with
    | none =>
      match h.fs.find t.path with
      | none => { h with sends := h.sends.eraseIdx i }
      | some fp =>
        let fsz := (h.fs.content fp).length
        { h with sends := h.sends.set i { t with opened := some (fp, fsz) } }.transmit
          (.iqChunk ⟨t.req_id, 0, fn, fsz, h.sampleRate t.path, []⟩)
    | some (fp, fsz) =>
      let data := slice t.sent IQ_CHUNK (h.fs.content fp)
      if data ≠ [] then
        { h with
          sends := h.sends.set i { t with sent := t.sent + data.length, seq := t.seq + 1 } }.transmit
          (.iqChunk ⟨t.req_id, t.seq, fn, fsz, 0, data⟩)
      else
        ({ h with sends := h.sends.eraseIdx i }.transmit
          (.iqChunk ⟨t.req_id, 0xFFFFFFFF, fn, fsz, 0, []⟩)).remove t.path (sidecarPath t.path)

/-! ## Events -/

/-- `reset_slot`, as far as recording goes. -/
def resetSlot (h : Host) (c : ℕ) : Host :=
  h.setChannel c
    { h.channels c with
      s := .ofRat float_pos 0
      e := .ofRat float_pos 0
      filter_active := false
      dem_paused := false
      iq_sqr_state := .SQR_IDLE
      iq_sqr_tail_remain := 0
      iq_rec_force_all := false }

end Host

/-- What happens to HOST: a filter is set, a slot is given back; a JOIN, or HOST itself, starts and
stops the recording of a channel; the recorder of a channel gets a sample; a thread of
`on_stop_iq_rec`, or the worker, goes on; an acknowledgement comes; some other file is to be
pushed. -/
inductive HostEvent
  | tune (c : ℕ) (s e : Level) (filter_active dem_run : Bool)
  | resetSlot (c : ℕ)
  | onStartIqRec (c : ℕ) (r : RecStart)
  | onStopIqRec (c : ℕ) (r : RecStop)
  | startIqRec (c : ℕ) (r : RecStart)
  | stopIqRec (c : ℕ) (push : Bool) (r : RecStop)
  | record (c : ℕ) (e : IqEvent)
  | send (i : ℕ)
  | work (timeout : Bool)
  | ack (a : PktMissionFilePushAck)
  | enqueue (path : Bytes) (subdir : ℕ)

namespace Host

variable (root : Bytes)

/-- What an event does. -/
def step (h : Host) : HostEvent → Host
  | .tune c s e filter_active dem_run =>
    h.setChannel c { h.channels c with
      s := s, e := e, filter_active := filter_active, dem_run := dem_run }
  | .resetSlot c => h.resetSlot c
  | .onStartIqRec c r => h.onStartIqRec c r
  | .onStopIqRec c r => h.onStopIqRec root c r
  | .startIqRec c r => h.startIqRec c r
  | .stopIqRec c push r => h.stopIqRec root c push r
  | .record c e => h.record c ((h.channels c).toIqRec.step e)
  | .send i => h.send i
  | .work timeout => h.work timeout
  | .ack a => (h.transmit (.ack a)).onPushAck a
  | .enqueue path subdir => h.enqueue root path subdir

/-- What a run of events leads to. -/
def run (h : Host) (es : List HostEvent) : Host := es.foldl (step root) h

/-! ## Delivery -/

/-- The channel records, and has a frame. -/
def Records (h : Host) (c : ℕ) : Prop :=
  c < MAX_CHANNELS ∧ (h.channels c).iq_rec_on = true ∧ 0 < (h.channels c).iq_rec_frames

instance (h : Host) (c : ℕ) : Decidable (h.Records c) := inferInstanceAs (Decidable (_ ∧ _))

/-- A JOIN stops a recording that has a frame. -/
def Stops (h : Host) : HostEvent → Prop
  | .onStopIqRec c _ => h.Records c
  | _ => False

end Host

/-- A file has been sent as one stream. -/
def Streamed (traffic : List Traffic) (fn content : Bytes) : Prop :=
  ∃! req_id, ∃ sample_rate,
    ((iqStream req_id sample_rate fn content).map Traffic.iqChunk).Sublist traffic

/-- A push has carried a file, and Central has acknowledged it. -/
def Carried (traffic : List Traffic) (content : Bytes) : Prop :=
  ∃ (u : Upload) (a : PktMissionFilePushAck), u.content = content ∧ a.status = 0 ∧
    a.transfer_id = u.transfer_id ∧ ((pushPackets u).map Traffic.push ++ [Traffic.ack a]).Sublist traffic

/-- Whenever a JOIN stops a recording that has a frame, its file can still come to be sent as one
stream, and leaves its name only behind that stream or an acknowledged push of it. -/
def Delivered (root : Bytes) (h : Host) (es : List HostEvent) : Prop :=
  ∀ es₁ c r es₂, es = es₁ ++ .onStopIqRec c r :: es₂ → (h.run root es₁).Records c →
    let file := ((h.run root es₁).channels c).file
    let named := ((h.run root es₁).closeIqRec c).nameIqRec c r
    let content := named.1.fs.content file
    (∃ more, Streamed (h.run root (es ++ more)).traffic (baseOf named.2) content) ∧
      ∀ es₃, es₃ <+: es₂ →
        let now := h.run root (es₁ ++ .onStopIqRec c r :: es₃)
        now.fs.find named.2 ≠ some file →
          Streamed now.traffic (baseOf named.2) content ∨ Carried now.traffic content

/-! ## No thread is started -/

/-- HOST has no thread that sends a recording, and none has sent a packet. -/
def Host.Silent (h : Host) : Prop := h.sends = [] ∧ ∀ p, .iqChunk p ∉ h.traffic

namespace Host

variable {root : Bytes} {h : Host}

/-- Packets of a push are no chunks of a stream. -/
theorem silent_transmit (hs : h.Silent) {p : Traffic} (hp : ∀ c, p ≠ .iqChunk c) :
    (h.transmit p).Silent := by
  refine ⟨hs.1, fun c hc => ?_⟩
  rcases List.mem_append.1 hc with hold | hnew
  · exact hs.2 c hold
  · exact hp c (List.mem_singleton.1 hnew).symm

/-- Queueing a file starts no thread. -/
theorem silent_enqueue (hs : h.Silent) (path : Bytes) (subdir : ℕ) :
    (h.enqueue root path subdir).Silent := by
  unfold enqueue
  split
  · exact hs
  · split
    · exact hs
    · split_ifs <;> exact hs

/-- Nor does starting a recorder. -/
theorem silent_startIqRec (hs : h.Silent) (c : ℕ) (r : RecStart) :
    (h.startIqRec c r).Silent := by
  unfold startIqRec
  dsimp only
  split
  · exact hs
  · split <;> exact hs

/-- Nor does stopping one. -/
theorem silent_stopIqRec (hs : h.Silent) (c : ℕ) (push : Bool) (r : RecStop) :
    (h.stopIqRec root c push r).Silent := by
  unfold stopIqRec
  dsimp only
  split
  · exact hs
  · split
    · exact hs
    · have hnamed : ((h.closeIqRec c).nameIqRec c r).1.Silent := hs
      split
      · exact silent_enqueue hnamed _ _
      · exact hnamed

/-- The worker sends META only. -/
theorem silent_pushOne (hs : h.Silent) (it : QueueItem) : (h.pushOne it).Silent := by
  unfold pushOne
  split
  · exact hs
  · split
    · exact hs
    · exact silent_transmit hs fun c hc => by cases hc

/-- Then it sends DATA only. -/
theorem silent_pushChunk (hs : h.Silent) (t : Push) : (h.pushChunk t).Silent := by
  unfold pushChunk
  dsimp only
  split
  · exact hs
  · exact silent_transmit hs fun c hc => by cases hc

/-- A turn of the worker starts no thread. -/
theorem silent_work (hs : h.Silent) (timeout : Bool) : (h.work timeout).Silent := by
  unfold work
  split
  · exact hs
  · split
    · split
      · exact hs
      · rename_i it q _
        have hq : ({ h with q := q } : Host).Silent := hs
        exact silent_pushOne hq it
    · split
      · exact silent_pushChunk hs _
      · split
        · unfold pushed
          split <;> exact hs
        · exact hs

theorem silent_foldl_remove (hs : h.Silent) (items : List QueueItem) :
    (items.foldl (fun h it => h.remove it.path (sidecarPath it.path)) h).Silent := by
  induction items generalizing h with
  | nil => exact hs
  | cons it items ih =>
    have hremoved : (h.remove it.path (sidecarPath it.path)).Silent := hs
    exact ih hremoved

/-- An acknowledgement only removes files. -/
theorem silent_lateAck (hs : h.Silent) (a : PktMissionFilePushAck) : (h.lateAck a).Silent := by
  unfold lateAck
  dsimp only
  split
  · exact hs
  · have hq : ({ h with q := h.q.filter fun it => !decide (it.year = a.key.year ∧
        it.code = a.key.codeStr ∧ it.filename = a.key.filenameStr) } : Host).Silent := hs
    exact silent_foldl_remove hq _

theorem silent_onPushAck (hs : h.Silent) (a : PktMissionFilePushAck) :
    (h.onPushAck a).Silent := by
  unfold onPushAck
  split
  · split
    · exact hs
    · exact silent_lateAck hs a
  · exact silent_lateAck hs a

/-- A recorder that was stopped has no path. -/
theorem iq_rec_path_stopIqRec {c : ℕ} (hc : ¬MAX_CHANNELS ≤ c)
    (hon : (h.channels c).iq_rec_on = true) (push : Bool) (r : RecStop) :
    ((h.stopIqRec root c push r).channels c).iq_rec_path = [] := by
  unfold stopIqRec
  dsimp only
  rw [if_neg (by simp [hc, hon])]
  split <;> simp [clearPath, setChannel]

/-- Without a path the command of a JOIN starts no thread. -/
theorem silent_onStopIqRec (hs : h.Silent) (c : ℕ) (r : RecStop) :
    (h.onStopIqRec root c r).Silent := by
  unfold onStopIqRec
  dsimp only
  split
  · exact hs
  · split
    · exact hs
    · rename_i hc hon
      have hpath : ((h.stopIqRec root c true r).channels c).iq_rec_path = [] :=
        iq_rec_path_stopIqRec hc (by simpa using hon) true r
      rw [if_neg (not_not.2 hpath)]
      exact silent_stopIqRec hs c true r

theorem silent_send (hs : h.Silent) (i : ℕ) : (h.send i).Silent := by
  unfold send
  rw [hs.1]
  exact hs

/-- No event starts a thread. -/
theorem silent_step (hs : h.Silent) (e : HostEvent) : (h.step root e).Silent := by
  cases e with
  | tune c s e filter_active dem_run => exact hs
  | resetSlot c => exact hs
  | onStartIqRec c r =>
    unfold step onStartIqRec
    dsimp only
    split_ifs
    any_goals exact hs
    exact silent_startIqRec hs c r
  | onStopIqRec c r => exact silent_onStopIqRec hs c r
  | startIqRec c r => exact silent_startIqRec hs c r
  | stopIqRec c push r => exact silent_stopIqRec hs c push r
  | record c e => exact hs
  | send i => exact silent_send hs i
  | work timeout => exact silent_work hs timeout
  | ack a => exact silent_onPushAck (silent_transmit hs fun c hc => by cases hc) a
  | enqueue path subdir => exact silent_enqueue hs path subdir

/-- No run does. -/
theorem silent_run (hs : h.Silent) (es : List HostEvent) : (h.run root es).Silent := by
  induction es generalizing h with
  | nil => exact hs
  | cons e es ih => exact ih (silent_step hs e)

theorem silent_boot (fs : Fs Bytes Bytes) (running : Bool) : (boot fs running).Silent :=
  ⟨rfl, fun _ hp => by cases hp⟩

end Host

/-- Without a chunk no file has been streamed. -/
theorem not_streamed {traffic : List Traffic} (h : ∀ p, .iqChunk p ∉ traffic) (fn content : Bytes) :
    ¬Streamed traffic fn content := by
  rintro ⟨req_id, ⟨sample_rate, hsub⟩, -⟩
  exact h _ (hsub.subset (List.mem_map_of_mem List.mem_cons_self))

/-- What a JOIN stops is never streamed, so there is no such stop if all is delivered. -/
theorem stops_of_delivered {root : Bytes} {fs : Fs Bytes Bytes} {running : Bool}
    {es : List HostEvent} (h : Delivered root (.boot fs running) es) :
    ∀ es' e, es' ++ [e] <+: es → ¬((Host.boot fs running).run root es').Stops e := by
  rintro es' e ⟨rest, hes⟩ hstops
  cases e with
  | onStopIqRec c r =>
    obtain ⟨⟨more, hsent⟩, -⟩ := h es' c r rest (by rw [← hes]; simp) hstops
    have hsilent : ((Host.boot fs running).run root (es ++ more)).Silent :=
      Host.silent_run (Host.silent_boot fs running) (es ++ more)
    exact not_streamed hsilent.2 _ _ hsent
  | _ => exact hstops

/-- The recordings of a run are delivered just if JOINs stop none with a frame in it. -/
theorem delivered_iff (root : Bytes) (fs : Fs Bytes Bytes) (running : Bool) (es : List HostEvent) :
    Delivered root (.boot fs running) es ↔
      ∀ es' e, es' ++ [e] <+: es → ¬((Host.boot fs running).run root es').Stops e := by
  constructor
  · exact stops_of_delivered
  · intro hnone es₁ c r es₂ hes hrecords
    exact absurd hrecords (hnone es₁ (.onStopIqRec c r) ⟨es₂, by rw [hes]; simp⟩)

/-- HOST with a mission. -/
def hostAtWork : Host := .boot (.empty []) true

/-- A JOIN starts a recording, a sample comes with the gate open, and the JOIN stops it. -/
def recordOne : List HostEvent :=
  [.tune 0 (.ofRat float_pos 100) (.ofRat float_pos (100 + 1 / 16)) true true,
    .onStartIqRec 0 ⟨some (ascii "r/S/2026/A1/iq/a.sigmf-data"), 80000, []⟩,
    .record 0 (.sample (.ofRat float_pos 0) (.ofRat float_pos 1) true),
    .onStopIqRec 0 ⟨0, []⟩]

/-- It is not delivered. -/
theorem not_delivered_of_one : ¬Delivered (ascii "r") hostAtWork recordOne := by
  intro h
  have hrecords : (hostAtWork.run (ascii "r") (recordOne.take 3)).Records 0 := by decide +kernel
  exact stops_of_delivered h (recordOne.take 3) (.onStopIqRec 0 ⟨0, []⟩) ⟨[], rfl⟩ hrecords

namespace Host

variable {root : Bytes} {h : Host}

end Host

end Bewe.Recorder

import Bewe.Lib.Backlog
import Bewe.Text

/-!
# The send queues of a JOIN

`JoinEntry` on the relay: a queue of control packets, and queues of file, FFT and audio packets with
a limit each, fed by any thread (`enqueue_ctrl`, `enqueue_file`, `enqueue_data`, `enqueue_audio`) and
emptied by one send worker (`start_send_worker`). An event is a critical section under `send_mtx`, a
`send_raw`, or the end of the connection, which clears `alive` and closes the socket. An
`enqueue_file` that has to wait changes nothing, and is the same event again when it is woken.

The history is part of the state: what was enqueued, sent, dropped, and left unsent for want of a
connection (`skipped`). `promises_of_run` says what holds after every run, and that a worker that goes
on sends everything.
-/

namespace Bewe.Relay

open Lib

/-! ## The queues -/

/-- The queue a packet is enqueued to. -/
inductive SendKind
  | ctrl
  | file
  | fft
  | audio
  deriving DecidableEq, Repr

/-- A `PktBuf`, with its queue and the number of the call that enqueued it. -/
structure PktBuf where
  data : Bytes
  kind : SendKind
  seq : ℕ
  deriving DecidableEq

/-- The size of a packet. -/
def PktBuf.size (p : PktBuf) : ℕ := p.data.length

/-- FFT 2MB. -/
def SEND_QUEUE_MAX_BYTES : ℕ := 2 * 1024 * 1024

/-- Audio 512KB. -/
def AUDIO_QUEUE_MAX_BYTES : ℕ := 512 * 1024

/-- File 16MB. -/
def FILE_QUEUE_MAX_BYTES : ℕ := 16 * 1024 * 1024

/-- The sending side of `JoinEntry`; `batch` is what the worker has taken and not been through, and
`exited` says that it has ended. -/
structure SendQueues where
  alive : Bool
  send_stop : Bool
  exited : Bool
  ctrl_queue : List PktBuf
  file_queue : Backlog PktBuf
  send_queue : Backlog PktBuf
  audio_queue : Backlog PktBuf
  batch : List PktBuf
  enqueued : List PktBuf
  sent : List PktBuf
  skipped : List PktBuf
  dropped : List PktBuf

/-- A JOIN that has just come. -/
def SendQueues.start : SendQueues where
  alive := true
  send_stop := false
  exited := false
  ctrl_queue := []
  file_queue := .empty
  send_queue := .empty
  audio_queue := .empty
  batch := []
  enqueued := []
  sent := []
  skipped := []
  dropped := []

/-- The packet of the next call. -/
def SendQueues.packet (s : SendQueues) (kind : SendKind) (data : Bytes) : PktBuf :=
  { data, kind, seq := s.enqueued.length }

/-- `enqueue_ctrl`. -/
def enqueueCtrl (data : Bytes) (s : SendQueues) : SendQueues :=
  let p := s.packet .ctrl data
  { s with ctrl_queue := s.ctrl_queue ++ [p], enqueued := s.enqueued ++ [p] }

/-- A queue that drops its oldest packets for a packet of `len` bytes. -/
def dropOldest (limit len : ℕ) (q : Backlog PktBuf) : List PktBuf × Backlog PktBuf :=
  Backlog.evict PktBuf.size limit (fun _ => true) len q.queue q.bytes

/-- `enqueue_data`. -/
def enqueueData (data : Bytes) (s : SendQueues) : SendQueues :=
  let p := s.packet .fft data
  let room := dropOldest SEND_QUEUE_MAX_BYTES p.size s.send_queue
  { s with
    send_queue := room.2.push PktBuf.size p
    enqueued := s.enqueued ++ [p]
    dropped := s.dropped ++ room.1 }

/-- `enqueue_audio`. -/
def enqueueAudio (data : Bytes) (s : SendQueues) : SendQueues :=
  let p := s.packet .audio data
  let room := dropOldest AUDIO_QUEUE_MAX_BYTES p.size s.audio_queue
  { s with
    audio_queue := room.2.push PktBuf.size p
    enqueued := s.enqueued ++ [p]
    dropped := s.dropped ++ room.1 }

/-- `enqueue_file`: a packet for which there is no room waits; without a connection it is left. -/
def enqueueFile (data : Bytes) (s : SendQueues) : SendQueues :=
  let p := s.packet .file data
  if !s.alive || s.send_stop then s
  else if s.file_queue.queue.isEmpty || decide (s.file_queue.bytes + p.size ≤ FILE_QUEUE_MAX_BYTES)
    then { s with file_queue := s.file_queue.push PktBuf.size p, enqueued := s.enqueued ++ [p] }
  else s

/-! ## The send worker -/

/-- Whether there is nothing to send. -/
def SendQueues.idle (s : SendQueues) : Bool :=
  s.ctrl_queue.isEmpty && s.file_queue.queue.isEmpty && s.send_queue.queue.isEmpty &&
    s.audio_queue.queue.isEmpty

/-- A round of the worker that is through with its batch: all control packets or, if there is none,
all audio, up to four FFT and up to two file packets. -/
def takeRound (s : SendQueues) : SendQueues :=
  if s.exited || !s.batch.isEmpty then s
  else if s.send_stop && s.idle then { s with exited := true }
  else if !s.ctrl_queue.isEmpty then { s with batch := s.ctrl_queue, ctrl_queue := [] }
  else
    let audio := s.audio_queue.pop PktBuf.size s.audio_queue.queue.length
    let fft := s.send_queue.pop PktBuf.size 4
    let file := s.file_queue.pop PktBuf.size 2
    { s with
      audio_queue := audio.2
      send_queue := fft.2
      file_queue := file.2
      batch := audio.1 ++ fft.1 ++ file.1 }

/-- `send_raw` of the next packet of the batch, which does nothing without a connection. -/
def sendRaw (s : SendQueues) : SendQueues :=
  match s.batch with
  | [] => s
  | p :: batch =>
    if s.alive then { s with batch := batch, sent := s.sent ++ [p] }
    else { s with batch := batch, skipped := s.skipped ++ [p] }

/-- `send_raw` fails: the connection is over. -/
def sendRawFails (s : SendQueues) : SendQueues :=
  match s.batch with
  | [] => s
  | p :: batch => { s with alive := false, batch := batch, skipped := s.skipped ++ [p] }

/-- What happens to a JOIN; `die` clears `alive` from outside, and `stop` is `stop_send_worker`. -/
inductive JoinEvent
  | enqueueCtrl (data : Bytes)
  | enqueueData (data : Bytes)
  | enqueueAudio (data : Bytes)
  | enqueueFile (data : Bytes)
  | takeRound
  | sendRaw
  | sendRawFails
  | die
  | stop

/-- One event. -/
def SendQueues.next (s : SendQueues) : JoinEvent → SendQueues
  | .enqueueCtrl data => Relay.enqueueCtrl data s
  | .enqueueData data => Relay.enqueueData data s
  | .enqueueAudio data => Relay.enqueueAudio data s
  | .enqueueFile data => Relay.enqueueFile data s
  | .takeRound => Relay.takeRound s
  | .sendRaw => Relay.sendRaw s
  | .sendRawFails => Relay.sendRawFails s
  | .die => { s with alive := false }
  | .stop => { s with send_stop := true }

/-! ## The promises -/

/-- What the worker has taken, in its order: what it sent, what it left, and what it has in hand. -/
def SendQueues.taken (s : SendQueues) : List PktBuf := s.sent ++ s.skipped ++ s.batch

/-- The packets of a queue. -/
def SendQueues.lane (s : SendQueues) : SendKind → List PktBuf
  | .ctrl => s.ctrl_queue
  | .file => s.file_queue.queue
  | .fft => s.send_queue.queue
  | .audio => s.audio_queue.queue

/-- The packets of a kind. -/
def ofKind (k : SendKind) (l : List PktBuf) : List PktBuf := l.filter fun p => p.kind = k

/-- A queue is within its limit or holds a single packet. -/
def Within (limit : ℕ) (q : Backlog PktBuf) : Prop := q.bytes ≤ limit ∨ q.queue.length ≤ 1

/-- The promises of the queues: each counter of bytes is the size of what is queued; the packets of
each queue leave it in front, and those that are taken are taken in their order; control and file
packets are not dropped; a control packet goes before every packet that was enqueued after it; a
queue exceeds its limit with a single packet only; and while there is a connection no packet is left.
Packets are told apart by the number of their call. -/
structure Promises (s : SendQueues) : Prop where
  file_bytes : s.file_queue.Counted PktBuf.size
  send_bytes : s.send_queue.Counted PktBuf.size
  audio_bytes : s.audio_queue.Counted PktBuf.size
  flow : ∀ k, Flow (ofKind k s.enqueued) (s.lane k) (ofKind k s.taken) (ofKind k s.dropped)
  lossless : ∀ p ∈ s.dropped, p.kind = .fft ∨ p.kind = .audio
  ctrl_first : (s.taken ++ s.ctrl_queue).Pairwise fun p c => c.kind = .ctrl → p.seq < c.seq
  file_limit : Within FILE_QUEUE_MAX_BYTES s.file_queue
  send_limit : Within SEND_QUEUE_MAX_BYTES s.send_queue
  audio_limit : Within AUDIO_QUEUE_MAX_BYTES s.audio_queue
  unsent : s.alive = true → s.skipped = []
  ended : s.exited = true → s.send_stop = true
  told_apart : s.enqueued.map PktBuf.seq = List.range s.enqueued.length

variable {s : SendQueues}

@[simp]
theorem ofKind_append (k : SendKind) (l m : List PktBuf) :
    ofKind k (l ++ m) = ofKind k l ++ ofKind k m :=
  List.filter_append ..

theorem ofKind_of_forall {l : List PktBuf} {k' : SendKind} (h : ∀ p ∈ l, p.kind = k') (k : SendKind) :
    ofKind k l = if k = k' then l else [] := by
  split_ifs with hk
  · exact List.filter_eq_self.2 fun p hp => by simp [h p hp, hk]
  · exact List.filter_eq_nil_iff.2 fun p hp => by simp [h p hp, Ne.symm hk]

theorem Promises.kind_of_lane (h : Promises s) {k : SendKind} {p : PktBuf} (hp : p ∈ s.lane k) :
    p.kind = k ∧ p ∈ s.enqueued := by
  have hmem : p ∈ ofKind k s.enqueued :=
    (h.flow k).sublist.subset (List.mem_append_right _ hp)
  simpa [ofKind, and_comm] using hmem

theorem Promises.enqueued_of_taken (h : Promises s) {p : PktBuf} (hp : p ∈ s.taken) :
    p ∈ s.enqueued := by
  have hmem : p ∈ ofKind p.kind s.enqueued := by
    refine (h.flow p.kind).sublist.subset (List.mem_append_left _ ?_)
    simp [ofKind, hp]
  simp only [ofKind, decide_true, List.mem_filter, and_true] at hmem
  exact hmem

theorem Promises.seq_lt (h : Promises s) {p : PktBuf} (hp : p ∈ s.enqueued) :
    p.seq < s.enqueued.length := by
  have hmem : p.seq ∈ s.enqueued.map PktBuf.seq := List.mem_map_of_mem hp
  rw [h.told_apart] at hmem
  exact List.mem_range.1 hmem

/-! ### Sizes -/

theorem within_push {limit : ℕ} {q : Backlog PktBuf} {p : PktBuf}
    (h : q.queue = [] ∨ q.bytes + p.size ≤ limit) : Within limit (q.push PktBuf.size p) := by
  rcases h with hempty | hroom
  · right
    rw [Backlog.push, hempty]
    exact Nat.le_refl 1
  · exact Or.inl hroom

theorem within_pop {limit : ℕ} {q : Backlog PktBuf} (hcount : q.Counted PktBuf.size)
    (h : Within limit q) (n : ℕ) : Within limit (q.pop PktBuf.size n).2 := by
  obtain ⟨-, hdrop, hcount'⟩ := hcount.pop n
  have hsub := List.drop_sublist n q.queue
  rcases h with hbytes | hlength
  · left
    unfold Backlog.Counted at hcount hcount'
    rw [hcount', hdrop]
    exact ((hsub.map PktBuf.size).sum_le_sum (fun _ _ => Nat.zero_le _)).trans (hcount ▸ hbytes)
  · right
    rw [hdrop]
    exact hsub.length_le.trans hlength

theorem dropOldest_spec {q : Backlog PktBuf} (h : q.Counted PktBuf.size) (limit len : ℕ) :
    let room := dropOldest limit len q
    q.queue = room.1 ++ room.2.queue ∧ room.2.Counted PktBuf.size ∧
      (room.2.queue = [] ∨ room.2.bytes + len ≤ limit) := by
  obtain ⟨hsplit, hroom⟩ := Backlog.evict_oldest PktBuf.size limit len q.queue q.bytes
  obtain ⟨-, -, -, -, hcount⟩ := Backlog.evict_spec PktBuf.size limit (fun _ => true) len q.queue 0
  rw [Nat.zero_add, Nat.zero_add, ← show q.bytes = (q.queue.map PktBuf.size).sum from h] at hcount
  exact ⟨hsplit, hcount, hroom⟩

/-! ### The steps -/

theorem Promises.flow_enqueue (h : Promises s) (p : PktBuf) (room : List PktBuf)
    {rest : List PktBuf} (hsplit : s.lane p.kind = room ++ rest) (k : SendKind) :
    Flow (ofKind k (s.enqueued ++ [p])) (if k = p.kind then rest ++ [p] else s.lane k)
      (ofKind k s.taken) (ofKind k (s.dropped ++ room)) := by
  have hroom : ∀ q ∈ room, q.kind = p.kind := fun q hq =>
    (h.kind_of_lane (hsplit ▸ List.mem_append_left rest hq)).1
  have hp : ∀ q ∈ [p], q.kind = p.kind := fun q hq => by rw [List.mem_singleton.1 hq]
  rw [ofKind_append, ofKind_append, ofKind_of_forall hroom, ofKind_of_forall hp]
  have hflow := h.flow k
  split_ifs with hk
  · subst hk
    rw [hsplit] at hflow
    exact hflow.drop.push p
  · rw [List.append_nil, List.append_nil]
    exact hflow

theorem Promises.told_apart_enqueue (h : Promises s) (kind : SendKind) (data : Bytes) :
    (s.enqueued ++ [s.packet kind data]).map PktBuf.seq =
      List.range (s.enqueued ++ [s.packet kind data]).length := by
  rw [List.map_append, h.told_apart, List.length_append, List.length_singleton, List.range_succ]
  rfl

theorem Promises.enqueueCtrl (h : Promises s) (data : Bytes) : Promises (enqueueCtrl data s) where
  file_bytes := h.file_bytes
  send_bytes := h.send_bytes
  audio_bytes := h.audio_bytes
  flow k := by
    have hflow := h.flow_enqueue (s.packet .ctrl data) [] (List.nil_append _).symm k
    rw [List.append_nil] at hflow
    cases k <;> exact hflow
  lossless := h.lossless
  ctrl_first := by
    show (s.taken ++ (s.ctrl_queue ++ [s.packet .ctrl data])).Pairwise _
    rw [← List.append_assoc, List.pairwise_append]
    refine ⟨h.ctrl_first, List.pairwise_singleton _ _, ?_⟩
    intro p hp c hc _
    rw [List.mem_singleton.1 hc]
    refine h.seq_lt ((List.mem_append.1 hp).elim h.enqueued_of_taken fun hctrl => ?_)
    exact (h.kind_of_lane (k := .ctrl) hctrl).2
  file_limit := h.file_limit
  send_limit := h.send_limit
  audio_limit := h.audio_limit
  unsent := h.unsent
  ended := h.ended
  told_apart := h.told_apart_enqueue .ctrl data

theorem Promises.enqueueData (h : Promises s) (data : Bytes) : Promises (enqueueData data s) := by
  have hspec := dropOldest_spec h.send_bytes SEND_QUEUE_MAX_BYTES (s.packet .fft data).size
  have hflow := h.flow_enqueue (s.packet .fft data) _ hspec.1
  unfold Relay.enqueueData
  dsimp only at hspec ⊢
  generalize dropOldest SEND_QUEUE_MAX_BYTES (s.packet .fft data).size s.send_queue = room at *
  obtain ⟨hsplit, hcount, hroom⟩ := hspec
  refine { h with
    send_bytes := hcount.push _
    flow := fun k => by cases k <;> exact hflow _
    lossless := fun p hp => ?_
    send_limit := within_push hroom
    told_apart := h.told_apart_enqueue .fft data }
  refine (List.mem_append.1 hp).elim (h.lossless p) fun hdropped => Or.inl ?_
  have hqueued : p ∈ s.lane .fft := by
    show p ∈ s.send_queue.queue
    rw [hsplit]
    exact List.mem_append_left room.2.queue hdropped
  exact (h.kind_of_lane hqueued).1

theorem Promises.enqueueAudio (h : Promises s) (data : Bytes) : Promises (enqueueAudio data s) := by
  have hspec := dropOldest_spec h.audio_bytes AUDIO_QUEUE_MAX_BYTES (s.packet .audio data).size
  have hflow := h.flow_enqueue (s.packet .audio data) _ hspec.1
  unfold Relay.enqueueAudio
  dsimp only at hspec ⊢
  generalize dropOldest AUDIO_QUEUE_MAX_BYTES (s.packet .audio data).size s.audio_queue = room at *
  obtain ⟨hsplit, hcount, hroom⟩ := hspec
  refine { h with
    audio_bytes := hcount.push _
    flow := fun k => by cases k <;> exact hflow _
    lossless := fun p hp => ?_
    audio_limit := within_push hroom
    told_apart := h.told_apart_enqueue .audio data }
  refine (List.mem_append.1 hp).elim (h.lossless p) fun hdropped => Or.inr ?_
  have hqueued : p ∈ s.lane .audio := by
    show p ∈ s.audio_queue.queue
    rw [hsplit]
    exact List.mem_append_left room.2.queue hdropped
  exact (h.kind_of_lane hqueued).1

theorem Promises.enqueueFile (h : Promises s) (data : Bytes) : Promises (enqueueFile data s) := by
  unfold Relay.enqueueFile
  dsimp only
  split_ifs with hover hroom
  · exact h
  · have hflow := h.flow_enqueue (s.packet .file data) [] (List.nil_append _).symm
    rw [List.append_nil] at hflow
    have hroom' : s.file_queue.queue = [] ∨
        s.file_queue.bytes + (s.packet .file data).size ≤ FILE_QUEUE_MAX_BYTES := by
      simpa [List.isEmpty_iff] using hroom
    exact { h with
      file_bytes := h.file_bytes.push _
      flow := fun k => by cases k <;> exact hflow _
      file_limit := within_push hroom'
      told_apart := h.told_apart_enqueue .file data }
  · exact h

theorem Promises.flow_take (h : Promises s) (hbatch : s.batch = []) {batch rest : List PktBuf}
    {k : SendKind} (hsplit : s.lane k = ofKind k batch ++ rest) :
    Flow (ofKind k s.enqueued) rest (ofKind k (s.sent ++ s.skipped ++ batch))
      (ofKind k s.dropped) := by
  have hflow := h.flow k
  rw [hsplit, SendQueues.taken, hbatch, List.append_nil] at hflow
  rw [ofKind_append k (s.sent ++ s.skipped)]
  exact hflow.take

theorem Promises.takeCtrl (h : Promises s) (hbatch : s.batch = []) :
    Promises { s with batch := s.ctrl_queue, ctrl_queue := [] } where
  file_bytes := h.file_bytes
  send_bytes := h.send_bytes
  audio_bytes := h.audio_bytes
  flow k := by
    have hctrl : ofKind k s.ctrl_queue = if k = .ctrl then s.ctrl_queue else [] :=
      ofKind_of_forall (fun p hp => (h.kind_of_lane (k := .ctrl) hp).1) k
    refine h.flow_take hbatch ?_
    show s.lane k = ofKind k s.ctrl_queue ++ _
    rw [hctrl]
    cases k with
    | ctrl => exact (List.append_nil s.ctrl_queue).symm
    | file | fft | audio => rfl
  lossless := h.lossless
  ctrl_first := by
    have hfirst := h.ctrl_first
    rw [SendQueues.taken, hbatch, List.append_nil] at hfirst
    simpa only [SendQueues.taken, List.append_nil] using hfirst
  file_limit := h.file_limit
  send_limit := h.send_limit
  audio_limit := h.audio_limit
  unsent := h.unsent
  ended := h.ended
  told_apart := h.told_apart

theorem Promises.takeOthers (h : Promises s) (hbatch : s.batch = []) (hctrl : s.ctrl_queue = []) :
    let audio := s.audio_queue.pop PktBuf.size s.audio_queue.queue.length
    let fft := s.send_queue.pop PktBuf.size 4
    let file := s.file_queue.pop PktBuf.size 2
    Promises
      { s with
        audio_queue := audio.2
        send_queue := fft.2
        file_queue := file.2
        batch := audio.1 ++ fft.1 ++ file.1 } := by
  obtain ⟨haudio, haudio', haudioc⟩ := h.audio_bytes.pop s.audio_queue.queue.length
  obtain ⟨hfft, hfft', hfftc⟩ := h.send_bytes.pop 4
  obtain ⟨hfile, hfile', hfilec⟩ := h.file_bytes.pop 2
  have haudiolimit := within_pop h.audio_bytes h.audio_limit s.audio_queue.queue.length
  have hfftlimit := within_pop h.send_bytes h.send_limit 4
  have hfilelimit := within_pop h.file_bytes h.file_limit 2
  generalize s.audio_queue.pop PktBuf.size s.audio_queue.queue.length = audio at *
  generalize s.send_queue.pop PktBuf.size 4 = fft at *
  generalize s.file_queue.pop PktBuf.size 2 = file at *
  have hkaudio : ∀ p ∈ audio.1, p.kind = .audio := fun p hp =>
    (h.kind_of_lane (k := .audio) (List.mem_of_mem_take (haudio ▸ hp))).1
  have hkfft : ∀ p ∈ fft.1, p.kind = .fft := fun p hp =>
    (h.kind_of_lane (k := .fft) (List.mem_of_mem_take (hfft ▸ hp))).1
  have hkfile : ∀ p ∈ file.1, p.kind = .file := fun p hp =>
    (h.kind_of_lane (k := .file) (List.mem_of_mem_take (hfile ▸ hp))).1
  have hkinds : ∀ k, ofKind k (audio.1 ++ fft.1 ++ file.1) =
      (if k = .audio then audio.1 else []) ++ (if k = .fft then fft.1 else []) ++
        if k = .file then file.1 else [] := by
    intro k
    rw [ofKind_append, ofKind_append, ofKind_of_forall hkaudio, ofKind_of_forall hkfft,
      ofKind_of_forall hkfile]
  have hnoctrl : ∀ p ∈ audio.1 ++ fft.1 ++ file.1, p.kind ≠ .ctrl := by
    intro p hp hk
    have hmem : p ∈ ofKind .ctrl (audio.1 ++ fft.1 ++ file.1) :=
      List.mem_filter.2 ⟨hp, decide_eq_true hk⟩
    rw [hkinds] at hmem
    exact absurd hmem (by simp)
  refine { h with
    file_bytes := hfilec
    send_bytes := hfftc
    audio_bytes := haudioc
    flow := fun k => h.flow_take hbatch ?_
    ctrl_first := ?_
    file_limit := hfilelimit
    send_limit := hfftlimit
    audio_limit := haudiolimit }
  · rw [hkinds]
    cases k with
    | ctrl => rfl
    | file => simp [SendQueues.lane, hfile, hfile', -List.length_take]
    | fft => simp [SendQueues.lane, hfft, hfft', -List.length_take]
    | audio => simp [SendQueues.lane, haudio, haudio', -List.length_take]
  · have hfirst := h.ctrl_first
    rw [SendQueues.taken, hbatch, hctrl, List.append_nil, List.append_nil] at hfirst
    show (s.sent ++ s.skipped ++ (audio.1 ++ fft.1 ++ file.1) ++ s.ctrl_queue).Pairwise _
    rw [hctrl, List.append_nil, List.pairwise_append]
    refine ⟨hfirst, List.pairwise_of_forall_mem_list ?_, ?_⟩
    · intro p _ c hc hk
      exact absurd hk (hnoctrl c hc)
    · intro p _ c hc hk
      exact absurd hk (hnoctrl c hc)

theorem Promises.takeRound (h : Promises s) : Promises (takeRound s) := by
  unfold Relay.takeRound
  split_ifs with hbusy hstop hctrl
  · exact h
  · rw [Bool.and_eq_true] at hstop
    exact { h with ended := fun _ => hstop.1 }
  · exact h.takeCtrl (by simp_all)
  · exact h.takeOthers (by simp_all) (by simp_all)

theorem Promises.of_taken {s' : SendQueues} (h : Promises s) (htaken : s'.taken = s.taken)
    (hunsent : s'.alive = true → s'.skipped = [])
    (hsame : s' = { s with
      alive := s'.alive, sent := s'.sent, skipped := s'.skipped, batch := s'.batch }) :
    Promises s' := by
  rw [hsame] at htaken hunsent ⊢
  exact { h with
    flow := fun k => by rw [htaken]; exact h.flow k
    ctrl_first := by rw [htaken]; exact h.ctrl_first
    unsent := hunsent }

theorem Promises.sendRaw (h : Promises s) : Promises (sendRaw s) := by
  unfold Relay.sendRaw
  split
  next => exact h
  next p batch hbatch =>
    split_ifs with halive
    · refine h.of_taken ?_ h.unsent rfl
      simp only [SendQueues.taken]
      rw [hbatch, h.unsent halive]
      simp only [List.append_nil, List.append_assoc, List.singleton_append]
    · refine h.of_taken ?_ (fun ha => absurd ha halive) rfl
      simp only [SendQueues.taken]
      rw [hbatch]
      simp only [List.append_assoc, List.singleton_append]

theorem Promises.sendRawFails (h : Promises s) : Promises (sendRawFails s) := by
  unfold Relay.sendRawFails
  split
  next => exact h
  next p batch hbatch =>
    refine h.of_taken ?_ (fun ha => Bool.noConfusion ha) rfl
    simp only [SendQueues.taken]
    rw [hbatch]
    simp only [List.append_assoc, List.singleton_append]

theorem Promises.next (h : Promises s) (e : JoinEvent) : Promises (s.next e) := by
  cases e with
  | enqueueCtrl data => exact h.enqueueCtrl data
  | enqueueData data => exact h.enqueueData data
  | enqueueAudio data => exact h.enqueueAudio data
  | enqueueFile data => exact h.enqueueFile data
  | takeRound => exact h.takeRound
  | sendRaw => exact h.sendRaw
  | sendRawFails => exact h.sendRawFails
  | die => exact { h with unsent := fun halive => Bool.noConfusion halive }
  | stop => exact { h with ended := fun _ => rfl }

/-- Of control and file packets nothing is dropped: those that were enqueued were taken, in their
order, or are queued. -/
theorem Promises.eq_taken (h : Promises s) {k : SendKind} (hk : k = .ctrl ∨ k = .file) :
    ofKind k s.enqueued = ofKind k s.taken ++ s.lane k := by
  have hflow := h.flow k
  have hdropped : ofKind k s.dropped = [] := by
    refine List.filter_eq_nil_iff.2 fun p hp => ?_
    rcases h.lossless p hp with hp | hp <;> rcases hk with rfl | rfl <;> simp [hp]
  rw [hdropped] at hflow
  exact hflow.eq_append

/-! ## Draining -/

/-- What the worker does next on a connection that holds. -/
def workerStep (s : SendQueues) : SendQueues := if s.batch.isEmpty then takeRound s else sendRaw s

/-- How much the worker has before it: each packet is taken and then sent. -/
def SendQueues.load (s : SendQueues) : ℕ :=
  2 * (s.ctrl_queue.length + s.file_queue.queue.length + s.send_queue.queue.length +
    s.audio_queue.queue.length) + s.batch.length

/-- A worker that is to go on, with a connection. -/
structure Going (s : SendQueues) : Prop where
  promises : Promises s
  alive : s.alive = true
  going : s.send_stop = false

theorem Going.workerStep (h : Going s) :
    Going (workerStep s) ∧ (Relay.workerStep s).enqueued = s.enqueued ∧
      (Relay.workerStep s).load ≤ s.load - 1 := by
  obtain ⟨hpromises, halive, hgoing⟩ := h
  unfold Relay.workerStep
  split_ifs with hbatch
  · have hround := hpromises.takeRound
    have hexited : s.exited = false := by
      cases hexited : s.exited with
      | false => rfl
      | true => rw [hpromises.ended hexited] at hgoing; exact Bool.noConfusion hgoing
    obtain ⟨haudio, haudio', -⟩ := hpromises.audio_bytes.pop s.audio_queue.queue.length
    obtain ⟨hfft, hfft', -⟩ := hpromises.send_bytes.pop 4
    obtain ⟨hfile, hfile', -⟩ := hpromises.file_bytes.pop 2
    rw [List.isEmpty_iff] at hbatch
    have hfree : ¬(s.exited || !s.batch.isEmpty) = true := by simp [hexited, hbatch]
    have hstays : ¬(s.send_stop && s.idle) = true := by simp [hgoing]
    unfold takeRound at hround ⊢
    rw [if_neg hfree, if_neg hstays] at hround ⊢
    split_ifs at hround ⊢ with hctrl
    · refine ⟨⟨hround, halive, hgoing⟩, rfl, ?_⟩
      have hlen : 0 < s.ctrl_queue.length := List.length_pos_iff.2 (by simpa using hctrl)
      simp only [SendQueues.load, hbatch, List.length_nil]
      omega
    · refine ⟨⟨hround, halive, hgoing⟩, rfl, ?_⟩
      have hlen : s.ctrl_queue.length = 0 := List.length_eq_zero_iff.2 (by simpa using hctrl)
      simp only [SendQueues.load, hbatch, haudio, haudio', hfft, hfft', hfile, hfile',
        List.length_append, List.length_take, List.length_drop, List.length_nil]
      omega
  · have hsend := hpromises.sendRaw
    obtain ⟨p, batch, hb⟩ := List.exists_cons_of_ne_nil (mt List.isEmpty_iff.2 hbatch)
    have hnext : sendRaw s = { s with batch := batch, sent := s.sent ++ [p] } := by
      unfold sendRaw
      simp only [hb]
      exact if_pos halive
    rw [hnext] at hsend ⊢
    refine ⟨⟨hsend, halive, hgoing⟩, rfl, ?_⟩
    simp only [SendQueues.load, hb, List.length_cons]
    omega

/-- A worker that goes on for as long as it has anything before it has sent every control and file
packet, in their order, and has room for a file packet that waits. -/
theorem Going.drain (h : Going s) {n : ℕ} (hn : s.load ≤ n) :
    let t := Relay.workerStep^[n] s
    t.idle = true ∧ t.enqueued = s.enqueued ∧
      ∀ k, k = .ctrl ∨ k = .file → ofKind k t.sent = ofKind k s.enqueued := by
  induction n generalizing s with
  | succ n ih =>
    obtain ⟨hgoing, henqueued, hload⟩ := h.workerStep
    obtain ⟨hidle, hsame, hsent⟩ := ih hgoing (by omega)
    refine ⟨hidle, hsame.trans henqueued, fun k hk => ?_⟩
    rw [← henqueued]
    exact hsent k hk
  | zero =>
    have hempty : s.ctrl_queue = [] ∧ s.file_queue.queue = [] ∧ s.send_queue.queue = [] ∧
        s.audio_queue.queue = [] ∧ s.batch = [] := by
      simp only [SendQueues.load] at hn
      simp only [← List.length_eq_zero_iff]
      omega
    obtain ⟨hctrl, hfile, hfft, haudio, hbatch⟩ := hempty
    refine ⟨by simp [SendQueues.idle, hctrl, hfile, hfft, haudio], rfl, fun k hk => ?_⟩
    have hall := h.promises.eq_taken hk
    rw [SendQueues.taken, h.promises.unsent h.alive, hbatch, List.append_nil, List.append_nil] at hall
    show ofKind k s.sent = ofKind k s.enqueued
    rw [hall]
    rcases hk with rfl | rfl
    · exact (by rw [SendQueues.lane, hctrl, List.append_nil])
    · exact (by rw [SendQueues.lane, hfile, List.append_nil])

/-! ## Runs -/

/-- Whether `enqueue_file` need not wait for a packet, and finds a connection. -/
def SendQueues.roomFor (s : SendQueues) (data : Bytes) : Bool :=
  s.alive && !s.send_stop &&
    (s.file_queue.queue.isEmpty || decide (s.file_queue.bytes + data.length ≤ FILE_QUEUE_MAX_BYTES))

/-- The packet that an event is to enqueue. -/
def SendQueues.call (s : SendQueues) : JoinEvent → Option (SendKind × Bytes)
  | .enqueueCtrl data => some (.ctrl, data)
  | .enqueueData data => some (.fft, data)
  | .enqueueAudio data => some (.audio, data)
  | .enqueueFile data => if s.roomFor data then some (.file, data) else none
  | _ => none

end Bewe.Relay

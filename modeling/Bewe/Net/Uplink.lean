import Bewe.Lib.Backlog
import Bewe.Text

/-!
# The uplink of HOST

The queue of packets for Central (`enqueue_central`) and the thread that sends them
(`central_sender_loop`), on one connection. A call of `enqueue_central` is its critical section: the
look at `central_sender_running_` comes before the lock, so that a packet may still be queued when
the sender has stopped, and a call that finds it stopped does nothing. The sender looks at the flag,
takes a batch under the lock and sends its packets one after another without it. Sizes add up
exactly, since the packets are in memory.

The history of a connection is part of the state: what was queued, sent and dropped, and what the
sender had in its hands when a send failed, which ends the connection. `accounts_of_run` says what
holds of all this after every run.
-/

namespace Bewe.Net

open Lib

/-! ## The queue -/

/-- `CENTRAL_QUEUE_MAX_BYTES`. -/
def CENTRAL_QUEUE_MAX_BYTES : ℕ := 4 * 1024 * 1024

/-- `QueueEntry`, with the number of the call that queued it and whether that took it for a
heartbeat. -/
structure QueueEntry where
  data : Bytes
  no_drop : Bool
  seq : ℕ
  heartbeat : Bool
  deriving DecidableEq

/-- The size of an entry. -/
def QueueEntry.size (p : QueueEntry) : ℕ := p.data.length

/-- The sender's side of `CentralClient`. `queue` is `central_send_queue_` with
`central_queue_bytes_`; `looked` says that the sender has seen `central_sender_running_` and goes for
a batch, and `batch` is what it has taken and not sent. -/
structure Uplink where
  central_sender_running : Bool
  looked : Bool
  queue : Backlog QueueEntry
  central_drop_count : ℕ
  batch : List QueueEntry
  failed : Bool
  enqueued : List QueueEntry
  sent : List QueueEntry
  dropped : List QueueEntry
  lost : List QueueEntry

/-- A connection at its beginning: `start_mux_adapter` has cleared the queue, the count of drops goes
on. -/
def Uplink.start (drop_count : ℕ) : Uplink where
  central_sender_running := true
  looked := false
  queue := .empty
  central_drop_count := drop_count
  batch := []
  failed := false
  enqueued := []
  sent := []
  dropped := []
  lost := []

/-- Whether a packet is put in front: a BEWE packet of the type HEARTBEAT. -/
def isHeartbeat (data : Bytes) : Bool := decide (9 ≤ data.length) && data.getD 4 0 = 0x14

/-- What is dropped for a packet of `total` bytes, and the queue without it. -/
def makeRoom (queue : Backlog QueueEntry) (no_drop : Bool) (total : ℕ) :
    List QueueEntry × Backlog QueueEntry :=
  if !no_drop && decide (CENTRAL_QUEUE_MAX_BYTES < queue.bytes + total) then
    Backlog.evict QueueEntry.size CENTRAL_QUEUE_MAX_BYTES (fun p => !p.no_drop) total queue.queue
      queue.bytes
  else ([], queue)

/-- `enqueue_central`. -/
def enqueueCentral (hdr data : Bytes) (no_drop : Bool) (s : Uplink) : Uplink :=
  let room := makeRoom s.queue no_drop (hdr.length + data.length)
  let is_hb := isHeartbeat data
  let pkt := { data := hdr ++ data, no_drop, seq := s.enqueued.length, heartbeat := is_hb }
  { s with
    queue := if is_hb then room.2.pushFront QueueEntry.size pkt else room.2.push QueueEntry.size pkt
    central_drop_count := s.central_drop_count + room.1.length
    enqueued := s.enqueued ++ [pkt]
    dropped := s.dropped ++ room.1 }

/-! ## The sender -/

/-- The head of the loop: a sender that has sent its batch looks whether it is to go on. -/
def lookAtRunning (s : Uplink) : Uplink :=
  if s.batch.isEmpty && !s.failed then { s with looked := s.central_sender_running } else s

/-- The sender takes up to 64 packets. -/
def takeBatch (s : Uplink) : Uplink :=
  if s.looked && s.batch.isEmpty then
    let r := s.queue.pop QueueEntry.size 64
    { s with looked := false, batch := r.1, queue := r.2 }
  else s

/-- `central_send_all` sends the next packet of the batch. -/
def sendNext (s : Uplink) : Uplink :=
  match s.batch with
  | [] => s
  | p :: batch => { s with batch := batch, sent := s.sent ++ [p] }

/-- `central_send_all` fails: the sender gives the connection up with what is left of the batch. -/
def sendFails (s : Uplink) : Uplink :=
  match s.batch with
  | [] => s
  | p :: batch =>
    { s with
      central_sender_running := false
      looked := false
      failed := true
      batch := []
      lost := s.lost ++ p :: batch }

/-- What happens on a connection; `stop` is that of `stop_mux_adapter`. -/
inductive UplinkEvent
  | enqueue (hdr data : Bytes) (no_drop : Bool)
  | lookAtRunning
  | takeBatch
  | sendNext
  | sendFails
  | stop

/-- One event. -/
def Uplink.next (s : Uplink) : UplinkEvent → Uplink
  | .enqueue hdr data no_drop => enqueueCentral hdr data no_drop s
  | .lookAtRunning => lookAtRunning s
  | .takeBatch => takeBatch s
  | .sendNext => sendNext s
  | .sendFails => sendFails s
  | .stop => { s with central_sender_running := false }

/-! ## The accounts -/

/-- The packets in the order in which they are sent: those that were sent, those in the sender's
hands, and those that are queued. -/
def Uplink.line (s : Uplink) : List QueueEntry := s.sent ++ s.lost ++ s.batch ++ s.queue.queue

/-- The accounts of a connection that began with a count of drops: the counter of bytes is the size
of what is queued; the count of drops has gone up by the number of packets that were dropped; every
packet that was queued is in line or was dropped, once, and none that must not be dropped was; the
packets in line other than heartbeats are in the order in which they were queued; and while no send
has failed nothing is lost, and when one has nothing more is taken. Packets are told apart by the
number of their call. -/
structure Accounts (drop_count : ℕ) (s : Uplink) : Prop where
  bytes : s.queue.bytes = (s.queue.queue.map QueueEntry.size).sum
  drops : s.central_drop_count = drop_count + s.dropped.length
  all : s.enqueued.Perm (s.line ++ s.dropped)
  droppable : ∀ p ∈ s.dropped, p.no_drop = false
  in_order : (s.line.filter fun p => !p.heartbeat).Sublist s.enqueued
  lost : s.failed = false → s.lost = []
  ended : s.failed = true → s.looked = false ∧ s.batch = []
  told_apart : s.enqueued.map QueueEntry.seq = List.range s.enqueued.length

variable {drop_count : ℕ} {s : Uplink}

theorem makeRoom_spec {queue : Backlog QueueEntry} (h : queue.Counted QueueEntry.size)
    (no_drop : Bool) (total : ℕ) :
    let room := makeRoom queue no_drop total
    (∀ p ∈ room.1, p.no_drop = false) ∧ queue.queue.Perm (room.1 ++ room.2.queue) ∧
      room.2.queue.Sublist queue.queue ∧ room.2.Counted QueueEntry.size := by
  unfold makeRoom
  split_ifs
  · have hbytes : queue.bytes = 0 + (queue.queue.map QueueEntry.size).sum := by
      rw [Nat.zero_add]
      exact h
    have hspec := Backlog.evict_spec QueueEntry.size CENTRAL_QUEUE_MAX_BYTES
      (fun p => !p.no_drop) total queue.queue 0
    rw [← hbytes] at hspec
    obtain ⟨hdroppable, hperm, hkept, -, hcount⟩ := hspec
    refine ⟨fun p hp => by simpa using hdroppable p hp, hperm, hkept, ?_⟩
    unfold Backlog.Counted
    rw [hcount, Nat.zero_add]
  · exact ⟨by simp, List.Perm.refl _, List.Sublist.refl _, h⟩

theorem Accounts.enqueueCentral (h : Accounts drop_count s) (hdr data : Bytes) (no_drop : Bool) :
    Accounts drop_count (enqueueCentral hdr data no_drop s) := by
  obtain ⟨hdroppable, hperm, hkept, hcount⟩ :=
    makeRoom_spec h.bytes no_drop (hdr.length + data.length)
  unfold Net.enqueueCentral
  dsimp only
  generalize makeRoom s.queue no_drop (hdr.length + data.length) = room at *
  generalize hpkt : QueueEntry.mk (hdr ++ data) no_drop s.enqueued.length (isHeartbeat data) = pkt
  have hhb : pkt.heartbeat = isHeartbeat data := by rw [← hpkt]
  have hseq : pkt.seq = s.enqueued.length := by rw [← hpkt]
  -- what is ahead of the queue in line
  generalize hahead : s.sent ++ s.lost ++ s.batch = ahead
  have hline : s.line = ahead ++ s.queue.queue := by rw [Uplink.line, hahead]
  have hall : s.enqueued.Perm (ahead ++ room.2.queue ++ (s.dropped ++ room.1)) := by
    have hold := h.all
    rw [hline] at hold
    refine hold.trans (((hperm.append_left ahead).append_right s.dropped).trans ?_)
    rw [List.append_assoc ahead, List.append_assoc ahead]
    refine List.Perm.append_left ahead ?_
    rw [List.append_assoc room.1, ← List.append_assoc room.2.queue]
    exact List.perm_append_comm
  have horder : ((ahead ++ room.2.queue).filter fun p => !p.heartbeat).Sublist s.enqueued := by
    refine List.Sublist.trans (List.Sublist.filter _ ?_) h.in_order
    rw [hline]
    exact hkept.append_left ahead
  -- wherever the packet goes, it is in line once
  have hqueued : ∀ queue' : Backlog QueueEntry, queue'.Counted QueueEntry.size →
      (pkt :: (ahead ++ room.2.queue)).Perm (ahead ++ queue'.queue) →
      ((ahead ++ queue'.queue).filter fun p => !p.heartbeat).Sublist (s.enqueued ++ [pkt]) →
      Accounts drop_count
        { s with
          queue := queue'
          central_drop_count := s.central_drop_count + room.1.length
          enqueued := s.enqueued ++ [pkt]
          dropped := s.dropped ++ room.1 } := by
    intro queue' hcount' hperm' horder'
    refine ⟨hcount', ?_, ?_, ?_, ?_, h.lost, h.ended, ?_⟩
    · dsimp only
      rw [h.drops, List.length_append, Nat.add_assoc]
    · rw [Uplink.line, hahead]
      exact (List.perm_append_singleton pkt _).trans
        ((hall.cons pkt).trans (hperm'.append_right (s.dropped ++ room.1)))
    · intro p hp
      exact (List.mem_append.1 hp).elim (h.droppable p) (hdroppable p)
    · rw [Uplink.line, hahead]
      exact horder'
    · dsimp only
      rw [List.map_append, h.told_apart, List.length_append, List.length_singleton,
        List.range_succ, List.map_singleton, hseq]
  cases hkind : isHeartbeat data with
  | true =>
    refine hqueued (room.2.pushFront QueueEntry.size pkt) (hcount.pushFront pkt)
      List.perm_middle.symm ?_
    rw [Backlog.pushFront, List.filter_append, List.filter_cons_of_neg (by simp [hhb, hkind]),
      ← List.filter_append]
    exact horder.trans (List.sublist_append_left _ _)
  | false =>
    refine hqueued (room.2.push QueueEntry.size pkt) (hcount.push pkt) ?_ ?_
    · rw [Backlog.push, ← List.append_assoc]
      exact (List.perm_append_singleton pkt _).symm
    · rw [Backlog.push, ← List.append_assoc, List.filter_append,
        List.filter_cons_of_pos (by simp [hhb, hkind]), List.filter_nil]
      exact List.Sublist.append_right horder [pkt]

theorem Accounts.of_line {s' : Uplink} (h : Accounts drop_count s)
    (hcount : s'.queue.Counted QueueEntry.size) (hline : s'.line = s.line)
    (henqueued : s'.enqueued = s.enqueued) (hdropped : s'.dropped = s.dropped)
    (hdrops : s'.central_drop_count = s.central_drop_count)
    (hlost : s'.failed = false → s'.lost = [])
    (hended : s'.failed = true → s'.looked = false ∧ s'.batch = []) : Accounts drop_count s' where
  bytes := hcount
  drops := by rw [hdrops, hdropped, h.drops]
  all := by rw [henqueued, hline, hdropped]; exact h.all
  droppable p hp := h.droppable p (hdropped ▸ hp)
  in_order := by rw [henqueued, hline]; exact h.in_order
  lost := hlost
  ended := hended
  told_apart := by rw [henqueued]; exact h.told_apart

theorem Accounts.lookAtRunning (h : Accounts drop_count s) :
    Accounts drop_count (lookAtRunning s) := by
  unfold Net.lookAtRunning
  split_ifs with hlooks
  · refine h.of_line h.bytes rfl rfl rfl rfl h.lost fun hfailed => ?_
    simp [show s.failed = true from hfailed] at hlooks
  · exact h

theorem Accounts.takeBatch (h : Accounts drop_count s) : Accounts drop_count (takeBatch s) := by
  unfold Net.takeBatch
  split_ifs with hfree
  · obtain ⟨htake, hdrop, hcount⟩ := Backlog.Counted.pop h.bytes 64
    rw [Bool.and_eq_true, List.isEmpty_iff] at hfree
    refine h.of_line hcount ?_ rfl rfl rfl h.lost fun hfailed => ?_
    · simp only [Uplink.line]
      rw [htake, hdrop, hfree.2, List.append_nil, List.append_assoc, List.take_append_drop]
    · rw [(h.ended hfailed).1] at hfree
      exact Bool.noConfusion hfree.1
  · exact h

theorem Accounts.failed_of_batch (h : Accounts drop_count s) (hbatch : s.batch ≠ []) :
    s.failed = false := by
  cases hfailed : s.failed with
  | false => rfl
  | true => exact absurd (h.ended hfailed).2 hbatch

theorem Accounts.sendNext (h : Accounts drop_count s) : Accounts drop_count (sendNext s) := by
  unfold Net.sendNext
  split
  next => exact h
  next p batch hbatch =>
    have hfailed : s.failed = false := h.failed_of_batch (by rw [hbatch]; exact List.cons_ne_nil _ _)
    refine h.of_line h.bytes ?_ rfl rfl rfl h.lost fun hf => ?_
    · simp only [Uplink.line]
      rw [h.lost hfailed, hbatch]
      simp only [List.append_nil, List.append_assoc, List.singleton_append]
    · rw [show s.failed = true from hf] at hfailed
      exact Bool.noConfusion hfailed

theorem Accounts.sendFails (h : Accounts drop_count s) : Accounts drop_count (sendFails s) := by
  unfold Net.sendFails
  split
  next => exact h
  next p batch hbatch =>
    refine h.of_line h.bytes ?_ rfl rfl rfl (fun hf => Bool.noConfusion hf) fun _ => ⟨rfl, rfl⟩
    simp only [Uplink.line]
    rw [hbatch, List.append_nil, List.append_assoc s.sent s.lost]

theorem Accounts.next (h : Accounts drop_count s) (e : UplinkEvent) :
    Accounts drop_count (s.next e) := by
  cases e with
  | enqueue hdr data no_drop => exact h.enqueueCentral hdr data no_drop
  | lookAtRunning => exact h.lookAtRunning
  | takeBatch => exact h.takeBatch
  | sendNext => exact h.sendNext
  | sendFails => exact h.sendFails
  | stop => exact h.of_line h.bytes rfl rfl rfl rfl h.lost h.ended

end Bewe.Net

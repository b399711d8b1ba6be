import Bewe.Lib.Run
import Bewe.Relay.Packet

/-!
# The receive loop of a JOIN

`recv_all_ex` of `net_protocol.hpp` and the loop of `NetClient::recv_loop` around it, one call of
`recv` at a time. The bytes sent to the JOIN are a stream; a call takes some of them, times out, or
fails. The packets that the loop hands to `handle_packet` are kept in order, so that the loop can
be compared with the packets that were sent. What is in synchrony is at every call a whole number
of packets, and a part of the next one, into the stream.
-/

namespace Bewe.Net

open Lib Hist

/-! ## Packets -/

/-- `sizeof(PktHdr)`. -/
def PKT_HDR_SIZE : ℕ := 9

/-- `BEWE_MAGIC`. -/
def BEWE_MAGIC : Bytes := ascii "BEWE"

/-- The longest payload that `recv_loop` takes. -/
def LEN_MAX : ℕ := 4 * 1024 * 1024

/-- `PktHdr`. -/
def pktHdr (type : UInt8) (len : ℕ) : Bytes := BEWE_MAGIC ++ type :: leBytes 4 len

/-- `make_packet`. -/
def makePacket (type : UInt8) (payload : Bytes) : Bytes :=
  pktHdr type payload.length ++ payload

/-- The fields of `PktHdr`. -/
def hdrMagic (hdr : Bytes) : Bytes := slice 0 4 hdr
@[inherit_doc hdrMagic] def hdrType (hdr : Bytes) : UInt8 := hdr.getD 4 0
@[inherit_doc hdrMagic] def hdrLen (hdr : Bytes) : ℕ := leNat (slice 5 4 hdr)

@[simp] theorem pktHdr_length (type : UInt8) (len : ℕ) :
    (pktHdr type len).length = PKT_HDR_SIZE := by
  simp [pktHdr, BEWE_MAGIC, PKT_HDR_SIZE, ascii]

@[simp] theorem hdrMagic_pktHdr (type : UInt8) (len : ℕ) :
    hdrMagic (pktHdr type len) = BEWE_MAGIC := rfl

@[simp] theorem hdrType_pktHdr (type : UInt8) (len : ℕ) : hdrType (pktHdr type len) = type := rfl

theorem hdrLen_pktHdr (type : UInt8) {len : ℕ} (h : len ≤ LEN_MAX) :
    hdrLen (pktHdr type len) = len := by
  have hlt : len < 256 ^ 4 := lt_of_le_of_lt h (by decide)
  calc hdrLen (pktHdr type len)
    _ = leNat (leBytes 4 len) := rfl
    _ = len := leNat_leBytes hlt

/-- A packet that a HOST may send: its payload is not longer than a JOIN takes. -/
structure Pkt where
  type : UInt8
  payload : Bytes
  len_le : payload.length ≤ LEN_MAX

/-- What `handle_packet` is called with for a packet. -/
def Pkt.args (p : Pkt) : UInt8 × Bytes := (p.type, p.payload)

/-- The bytes of packets sent one after another. -/
def stream (ps : List (UInt8 × Bytes)) : Bytes := (ps.map fun p => makePacket p.1 p.2).flatten

@[simp] theorem stream_nil : stream [] = [] := rfl

@[simp] theorem stream_cons (p : UInt8 × Bytes) (ps : List (UInt8 × Bytes)) :
    stream (p :: ps) = makePacket p.1 p.2 ++ stream ps := rfl

@[simp] theorem stream_append (ps qs : List (UInt8 × Bytes)) :
    stream (ps ++ qs) = stream ps ++ stream qs := by
  simp [stream]

/-! ## The loop -/

/-- What a call of `recv` returns: bytes, `EAGAIN` after the receive timeout, 0 from a peer that
has closed, or another error. -/
inductive Recv
  | data (n : ℕ)
  | again
  | closed
  | error
  deriving DecidableEq

/-- Where one round of the loop of `recv_all_ex` leaves it: it goes on with what it has, or returns
1, 0 or -1. -/
inductive RecvAll
  | pending (got : Bytes)
  | ok (buf : Bytes)
  | timeout
  | fail
  deriving DecidableEq

/-- One round of `recv_all_ex` for `len` bytes, of which it has `got`, and what is left unread. -/
def recvAllRound (alive : Bool) (len : ℕ) (got unread : Bytes) (r : Recv) : RecvAll × Bytes :=
  if !alive then (.fail, unread)
  else
    match r with
    | .data n =>
      let got' := got ++ unread.take n
      (if got'.length < len then .pending got' else .ok got', unread.drop n)
    | .again => (if got = [] then .timeout else .pending got, unread)
    | .closed | .error => (.fail, unread)

/-- `disc_reason`. -/
inductive DiscReason
  | unknown
  | rx_idle_timeout
  | recv_hdr_fail
  | disconnect_called
  | bad_magic
  | oversized
  | recv_payload_fail
  deriving DecidableEq

/-- Where `recv_loop` stands: receiving a header, receiving the payload of a header, or out of the
loop. -/
inductive Phase
  | hdr (got : Bytes)
  | payload (hdr got : Bytes)
  | stopped (disc_reason : DiscReason)
  deriving DecidableEq

/-- A JOIN in `recv_loop`, with the bytes of the stream that it has not read and what it has
handed to `handle_packet`. -/
structure Loop where
  connected : Bool := true
  phase : Phase := .hdr []
  unread : Bytes
  last_rx : ℕ := 0
  pkt_count : ℕ := 0
  stat_rx_bytes : ℕ := 0
  handled : List (UInt8 × Bytes) := []
  deriving DecidableEq

/-- `RX_IDLE_TIMEOUT_SEC`, in nanoseconds. -/
def RX_IDLE_TIMEOUT : ℕ := 15000000000

/-- The top of the loop. -/
def Loop.top (s : Loop) : Loop :=
  { s with phase := if s.connected then .hdr [] else .stopped .unknown }

/-- Out of the loop. -/
def Loop.stop (s : Loop) (r : DiscReason) : Loop :=
  { s with connected := false, phase := .stopped r }

/-- A timeout: out of the loop if nothing has come for too long, else `continue`. -/
def Loop.idle (s : Loop) (now : ℕ) : Loop :=
  if s.last_rx + RX_IDLE_TIMEOUT < now then s.stop .rx_idle_timeout else s.top

/-- The packet is counted and handed over. -/
def Loop.handle (s : Loop) (type : UInt8) (payload : Bytes) : Loop :=
  Loop.top
    { s with pkt_count := s.pkt_count + 1
             stat_rx_bytes := s.stat_rx_bytes + (PKT_HDR_SIZE + payload.length)
             handled := s.handled ++ [(type, payload)] }

/-- A whole header has come. -/
def Loop.gotHdr (s : Loop) (hdr : Bytes) : Loop :=
  if hdrMagic hdr ≠ BEWE_MAGIC then s.stop .bad_magic
  else if LEN_MAX < hdrLen hdr then s.stop .oversized
  else if 0 < hdrLen hdr then { s with phase := .payload hdr [] }
  else s.handle (hdrType hdr) []

/-- A call of `recv` that returns at the time `now`, or `disconnect` from another thread. -/
inductive Event
  | recv (r : Recv) (now : ℕ)
  | disconnect
  deriving DecidableEq

/-- What the loop does with it, to the next call. -/
def Loop.next (s : Loop) : Event → Loop
  | .disconnect => { s with connected := false }
  | .recv r now =>
    match s.phase with
    | .hdr got =>
      match recvAllRound s.connected PKT_HDR_SIZE got s.unread r with
      | (.pending got', unread) => { s with phase := .hdr got', unread }
      | (.timeout, unread) => Loop.idle { s with unread } now
      | (.fail, unread) =>
        Loop.stop { s with unread, last_rx := now }
          (if s.connected then .recv_hdr_fail else .disconnect_called)
      | (.ok hdr, unread) => Loop.gotHdr { s with unread, last_rx := now } hdr
    | .payload hdr got =>
      match recvAllRound s.connected (hdrLen hdr) got s.unread r with
      | (.pending got', unread) => { s with phase := .payload hdr got', unread }
      -- the header that has been read is forgotten
      | (.timeout, unread) => Loop.idle { s with unread } now
      | (.fail, unread) => Loop.stop { s with unread, last_rx := now } .recv_payload_fail
      | (.ok payload, unread) =>
        Loop.handle { s with unread, last_rx := now } (hdrType hdr) payload
    | .stopped _ => s

/-- How many bytes the next call of `recv` asks for; none once the loop is left. -/
def Loop.remaining (s : Loop) : ℕ :=
  match s.phase with
  | .hdr got => PKT_HDR_SIZE - got.length
  | .payload hdr got => hdrLen hdr - got.length
  | .stopped _ => 0

/-- Whether an event can happen: `recv` returns at least one byte, no more than it was asked for and
no more than there are, and it is not called out of the loop. -/
def Loop.enabled (s : Loop) : Event → Bool
  | .disconnect => true
  | .recv (.data n) _ => decide (0 < n ∧ n ≤ s.remaining ∧ n ≤ s.unread.length)
  | .recv _ _ => decide (0 < s.remaining)

/-- A step of the loop. -/
def Step (s : Loop) (e : Event) (t : Loop) : Prop := s.enabled e = true ∧ t = s.next e

/-- A JOIN that has connected, with the packets that come. -/
def start (sent : List Pkt) : Loop := { unread := stream (sent.map Pkt.args) }

/-! ## What every step keeps -/

/-- What has been read of the packet that is being received. -/
def Phase.inFlight : Phase → Bytes
  | .hdr got => got
  | .payload h got => h ++ got
  | .stopped _ => []

/-- A header or a payload is received only while a part of it is missing. -/
def Phase.Partial : Phase → Prop
  | .hdr got => got.length < PKT_HDR_SIZE
  | .payload h got => h.length = PKT_HDR_SIZE ∧ got.length < hdrLen h
  | .stopped _ => True

/-- The counts are those of the packets handed over. -/
structure Counted (s : Loop) : Prop where
  count : s.pkt_count = s.handled.length
  bytes : s.stat_rx_bytes = (stream s.handled).length

/-- What holds of the loop whatever comes. -/
structure Framed (s : Loop) : Prop extends Counted s where
  part : s.phase.Partial

theorem recvAllRound_cases (alive : Bool) (len : ℕ) {got unread : Bytes} {r : Recv}
    (hgot : got.length < len)
    (hr : ∀ n, r = .data n → n ≤ len - got.length ∧ n ≤ unread.length) :
    (∃ got' u, recvAllRound alive len got unread r = (.pending got', u) ∧ got'.length < len ∧
        got' ++ u = got ++ unread) ∨
      (∃ buf u, recvAllRound alive len got unread r = (.ok buf, u) ∧ buf.length = len ∧
        buf ++ u = got ++ unread) ∨
      (recvAllRound alive len got unread r = (.timeout, unread) ∧ alive = true ∧ got = [] ∧
        r = .again) ∨
      recvAllRound alive len got unread r = (.fail, unread) := by
  cases alive with
  | false => exact .inr (.inr (.inr rfl))
  | true =>
    cases r with
    | data n =>
      obtain ⟨hlen, hn⟩ := hr n rfl
      have htake : (got ++ unread.take n).length = got.length + n := by simp [hn]
      have hall : (got ++ unread.take n) ++ unread.drop n = got ++ unread := by simp
      rcases Nat.lt_or_ge (got ++ unread.take n).length len with hlt | hge
      · exact .inl ⟨_, _, by simp only [recvAllRound, Bool.not_true, Bool.false_eq_true, if_false,
          if_pos hlt], hlt, hall⟩
      · refine .inr (.inl ⟨_, _, by simp only [recvAllRound, Bool.not_true, Bool.false_eq_true,
          if_false, if_neg (Nat.not_lt.2 hge)], by omega, hall⟩)
    | again =>
      cases got with
      | nil => exact .inr (.inr (.inl ⟨rfl, rfl, rfl, rfl⟩))
      | cons b got => exact .inl ⟨_, _, rfl, hgot, rfl⟩
    | closed => exact .inr (.inr (.inr rfl))
    | error => exact .inr (.inr (.inr rfl))

theorem enabled_data {s : Loop} {r : Recv} {now : ℕ} (h : s.enabled (.recv r now) = true) (n : ℕ)
    (hr : r = .data n) : n ≤ s.remaining ∧ n ≤ s.unread.length := by
  subst hr
  simp only [Loop.enabled, decide_eq_true_eq] at h
  exact ⟨h.2.1, h.2.2⟩

/-- What a step of the loop can be: `disconnect`, a part of what is being received, the rest of a
header, the rest of a payload, a timeout before anything of a header or of a payload has come, or a
failure. -/
inductive Move (s : Loop) : Event → Loop → Prop
  | disconnect : Move s .disconnect { s with connected := false }
  | part {r : Recv} {now : ℕ} {ph : Phase} {u : Bytes} (hpart : ph.Partial)
      (hopen : ∀ d, s.phase ≠ .stopped d)
      (hbytes : ph.inFlight ++ u = s.phase.inFlight ++ s.unread) :
      Move s (.recv r now) { s with phase := ph, unread := u }
  | gotHdr {r : Recv} {now : ℕ} {got hdr u : Bytes} (hph : s.phase = .hdr got)
      (hlen : hdr.length = PKT_HDR_SIZE) (hbytes : hdr ++ u = got ++ s.unread) :
      Move s (.recv r now) (Loop.gotHdr { s with unread := u, last_rx := now } hdr)
  | gotPayload {r : Recv} {now : ℕ} {hdr got payload u : Bytes} (hph : s.phase = .payload hdr got)
      (hlen : payload.length = hdrLen hdr) (hbytes : payload ++ u = got ++ s.unread) :
      Move s (.recv r now)
        (Loop.handle { s with unread := u, last_rx := now } (hdrType hdr) payload)
  | timeout {now : ℕ} (hph : s.phase = .hdr [] ∨ ∃ hdr, s.phase = .payload hdr [])
      (hc : s.connected = true) : Move s (.recv .again now) (s.idle now)
  | fail {r : Recv} {now : ℕ} (d : DiscReason) :
      Move s (.recv r now) (Loop.stop { s with last_rx := now } d)

theorem Step.move {s t : Loop} {e : Event} (hst : Step s e t) (hpart : s.phase.Partial) :
    Move s e t := by
  obtain ⟨hen, rfl⟩ := hst
  cases e with
  | disconnect => exact .disconnect
  | recv r now =>
    have hdata := enabled_data hen
    unfold Loop.next
    unfold Loop.remaining at hdata
    match hph : s.phase with
    | .hdr got =>
      rw [hph] at hpart hdata
      rcases recvAllRound_cases s.connected PKT_HDR_SIZE hpart hdata with
        ⟨got', u, hr, hlt, hb⟩ | ⟨buf, u, hr, hlen, hb⟩ | ⟨hr, hc, hgot, hagain⟩ | hr <;>
        simp only [hr]
      · exact .part hlt (by simp [hph]) (by rw [hph]; exact hb)
      · exact .gotHdr hph hlen hb
      · subst hgot hagain
        exact .timeout (.inl hph) hc
      · exact .fail _
    | .payload hdr got =>
      rw [hph] at hpart hdata
      rcases recvAllRound_cases s.connected (hdrLen hdr) hpart.2 hdata with
        ⟨got', u, hr, hlt, hb⟩ | ⟨buf, u, hr, hlen, hb⟩ | ⟨hr, hc, hgot, hagain⟩ | hr <;>
        simp only [hr]
      · refine .part ⟨hpart.1, hlt⟩ (by simp [hph]) ?_
        rw [hph, Phase.inFlight, Phase.inFlight, List.append_assoc, hb, List.append_assoc]
      · exact .gotPayload hph hlen hb
      · subst hgot hagain
        exact .timeout (.inr ⟨hdr, hph⟩) hc
      · exact .fail _
    | .stopped d =>
      cases r <;> simp [Loop.enabled, Loop.remaining, hph] at hen
      omega

namespace Framed

variable {s : Loop}

theorem top (h : Counted s) : Framed s.top := by
  refine ⟨⟨h.count, h.bytes⟩, ?_⟩
  unfold Loop.top
  cases s.connected with
  | true => exact Nat.succ_pos 8
  | false => exact True.intro

theorem stop (h : Counted s) (r : DiscReason) : Framed (s.stop r) :=
  ⟨⟨h.count, h.bytes⟩, True.intro⟩

theorem idle (h : Counted s) (now : ℕ) : Framed (s.idle now) := by
  unfold Loop.idle
  split_ifs
  · exact stop h _
  · exact top h

theorem handle (h : Counted s) (type : UInt8) (payload : Bytes) :
    Framed (s.handle type payload) := by
  refine top ⟨?_, ?_⟩
  · simp [h.count]
  · simp [h.bytes, makePacket]

theorem gotHdr (h : Counted s) {hdr : Bytes} (hlen : hdr.length = PKT_HDR_SIZE) :
    Framed (s.gotHdr hdr) := by
  unfold Loop.gotHdr
  split_ifs with _ _ hpos
  · exact stop h _
  · exact stop h _
  · exact ⟨⟨h.count, h.bytes⟩, hlen, hpos⟩
  · exact handle h _ _

theorem step {e : Event} {t : Loop} (hst : Step s e t) (h : Framed s) : Framed t := by
  have hcount {u : Bytes} {now : ℕ} : Counted { s with unread := u, last_rx := now } :=
    ⟨h.count, h.bytes⟩
  cases hst.move h.part with
  | disconnect => exact ⟨⟨h.count, h.bytes⟩, h.part⟩
  | part hpart => exact ⟨⟨h.count, h.bytes⟩, hpart⟩
  | gotHdr _ hlen => exact gotHdr hcount hlen
  | gotPayload => exact handle hcount _ _
  | timeout => exact idle h.toCounted _
  | fail d => exact stop hcount d

end Framed

/-! ## Synchrony -/

/-- The loop is in synchrony with the packets that come: those it has handled are the first of
them, and unless it is left the rest of the stream is what it has not handled. -/
structure Sync (sent : List Pkt) (s : Loop) : Prop where
  handled_prefix : s.handled <+: sent.map Pkt.args
  bytes : (∀ d, s.phase ≠ .stopped d) →
    stream s.handled ++ s.phase.inFlight ++ s.unread = stream (sent.map Pkt.args)

/-- A timeout between a header and the first byte of its payload, with which the loop is not left.
-/
def Loop.dropsHeader (s : Loop) : Event → Bool
  | .recv .again now =>
    match s.phase with
    | .payload _ [] => s.connected && decide (now ≤ s.last_rx + RX_IDLE_TIMEOUT)
    | _ => false
  | _ => false

theorem next_packet {sent : List Pkt} {handled : List (UInt8 × Bytes)} {hdr u : Bytes}
    (hpre : handled <+: sent.map Pkt.args) (hlen : hdr.length = PKT_HDR_SIZE)
    (hb : stream handled ++ hdr ++ u = stream (sent.map Pkt.args)) :
    ∃ (p : Pkt) (rest : List (UInt8 × Bytes)), sent.map Pkt.args = handled ++ p.args :: rest ∧
      hdr = pktHdr p.type p.payload.length ∧ u = p.payload ++ stream rest := by
  obtain ⟨rest, hrest⟩ := hpre
  rw [← hrest, stream_append, List.append_assoc, List.append_cancel_left_eq] at hb
  cases rest with
  | nil =>
    have h0 : hdr = [] := (List.append_eq_nil_iff.1 hb).1
    rw [h0] at hlen
    cases hlen
  | cons a rest =>
    have hmem : a ∈ sent.map Pkt.args := by simp [← hrest]
    obtain ⟨p, -, rfl⟩ := List.mem_map.1 hmem
    rw [stream_cons, makePacket, List.append_assoc] at hb
    obtain ⟨hh, hu⟩ := List.append_inj hb (by rw [hlen, pktHdr_length])
    exact ⟨p, rest, hrest.symm, hh, hu⟩

namespace Sync

variable {sent : List Pkt} {s : Loop}

theorem stop (hpre : s.handled <+: sent.map Pkt.args) (d : DiscReason) : Sync sent (s.stop d) :=
  ⟨hpre, fun h => absurd rfl (h d)⟩

theorem top (hpre : s.handled <+: sent.map Pkt.args)
    (hb : stream s.handled ++ s.unread = stream (sent.map Pkt.args)) : Sync sent s.top := by
  refine ⟨hpre, ?_⟩
  unfold Loop.top
  cases s.connected with
  | true =>
    intro _
    simpa [Phase.inFlight] using hb
  | false => exact fun h => absurd rfl (h .unknown)

theorem handle {p : Pkt} {rest : List (UInt8 × Bytes)}
    (hsent : sent.map Pkt.args = s.handled ++ p.args :: rest) (hu : s.unread = stream rest) :
    Sync sent (s.handle p.type p.payload) := by
  have hall : sent.map Pkt.args = (s.handled ++ [p.args]) ++ rest := by simp [hsent]
  refine top ⟨rest, hall.symm⟩ ?_
  rw [hall, stream_append _ rest]
  exact congrArg (stream (s.handled ++ [p.args]) ++ ·) hu

theorem gotHdr {hdr : Bytes} (hpre : s.handled <+: sent.map Pkt.args)
    (hlen : hdr.length = PKT_HDR_SIZE)
    (hb : stream s.handled ++ hdr ++ s.unread = stream (sent.map Pkt.args)) :
    Sync sent (s.gotHdr hdr) := by
  obtain ⟨p, rest, hsent, rfl, hu⟩ := next_packet hpre hlen hb
  have hplen : hdrLen (pktHdr p.type p.payload.length) = p.payload.length :=
    hdrLen_pktHdr p.type p.len_le
  unfold Loop.gotHdr
  rw [hdrMagic_pktHdr, hdrType_pktHdr, hplen, if_neg (not_not.2 rfl),
    if_neg (Nat.not_lt.2 p.len_le)]
  split_ifs with hpos
  · exact ⟨hpre, fun _ => by simpa [Phase.inFlight] using hb⟩
  · have hnil : p.payload = [] := List.eq_nil_of_length_eq_zero (by omega)
    rw [hnil, List.nil_append] at hu
    rw [← hnil]
    exact handle hsent hu

theorem step {e : Event} {t : Loop} (hst : Step s e t) (hf : Framed s) (h : Sync sent s)
    (hdrop : s.dropsHeader e = false) : Sync sent t := by
  cases hst.move hf.part with
  | disconnect => exact ⟨h.handled_prefix, h.bytes⟩
  | @part r now ph u _ hopen hbytes =>
    refine ⟨h.handled_prefix, fun _ => ?_⟩
    calc stream s.handled ++ ph.inFlight ++ u
      _ = stream s.handled ++ (s.phase.inFlight ++ s.unread) := by
        rw [List.append_assoc, hbytes]
      _ = stream s.handled ++ s.phase.inFlight ++ s.unread := (List.append_assoc ..).symm
      _ = stream (sent.map Pkt.args) := h.bytes hopen
  | @gotHdr r now got hdr u hph hlen hbytes =>
    refine Sync.gotHdr (s := { s with unread := u, last_rx := now }) h.handled_prefix hlen ?_
    have hb := h.bytes (by simp [hph])
    rw [hph, Phase.inFlight, List.append_assoc, ← hbytes, ← List.append_assoc] at hb
    exact hb
  | @gotPayload r now hdr got payload u hph hlen hbytes =>
    have hhdr : hdr.length = PKT_HDR_SIZE := by
      have hpart := hf.part
      rw [hph] at hpart
      exact hpart.1
    have hb := h.bytes (by simp [hph])
    rw [hph, Phase.inFlight, List.append_assoc, List.append_assoc, ← hbytes,
      ← List.append_assoc] at hb
    obtain ⟨p, rest, hsent, rfl, hu⟩ := next_packet h.handled_prefix hhdr hb
    rw [hdrLen_pktHdr p.type p.len_le] at hlen
    obtain ⟨rfl, rfl⟩ := List.append_inj hu hlen
    rw [hdrType_pktHdr]
    exact Sync.handle (s := { s with unread := stream rest, last_rx := now }) hsent rfl
  | @timeout now hph hc =>
    unfold Loop.idle
    split_ifs with hidle
    · exact Sync.stop h.handled_prefix _
    · rcases hph with hph | ⟨hdr, hph⟩
      · have hb := h.bytes (by simp [hph])
        rw [hph, Phase.inFlight, List.append_nil] at hb
        exact Sync.top h.handled_prefix hb
      · simp only [Loop.dropsHeader, hph, hc, Bool.true_and, decide_eq_false_iff_not] at hdrop
        omega
  | @fail r now d => exact Sync.stop (s := { s with last_rx := now }) h.handled_prefix d

end Sync

/-! ## Runs -/

/-- The header at once, a timeout, and the payload. -/
def apart : List Event :=
  [.recv (.data 9) 0, .recv .again 3000000000, .recv (.data 9) 3000000100]

end Bewe.Net

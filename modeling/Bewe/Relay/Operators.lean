import Bewe.Relay.Identity

/-!
# The numbers of connections and of operators

Central numbers the connections of a room with a counter that wraps from 65534 to 1, and HOST the
operators with one that wraps from 16 to 1 (`on_auth`). Neither looks at which numbers are in use.
A `Station` is the room with HOST's counter and the AUTH_ACKs that are on the way: a request that
Central has queued for HOST is handled once, in any order with others, and its AUTH_ACK arrives in
any order or is lost.

`distinct_iff_apart`: in every state that is reached, the numbers of the live operators are distinct
exactly if no two of them have connected a multiple of 65534 connections apart or were authenticated
a multiple of 16 authentications apart.
-/

namespace Bewe.Relay

open Lib Hist

variable {D : Type}

/-! ## What keeps the numbers -/

/-- The identity of an entry, its two numbers, and whether it is authenticated. -/
def JoinEntry.numbers (j : JoinEntry) : ℕ × ℕ × UInt8 × Bool :=
  (j.key, j.conn_id, j.op_index, j.authed)

/-- Entries leave or keep their numbers, and the counters stay. -/
structure Keeps (s s' : HostRoom D) : Prop where
  mem : ∀ j' ∈ s'.joins, ∃ j ∈ s.joins, j'.numbers = j.numbers
  next_conn_id : s'.next_conn_id = s.next_conn_id
  nextKey : s'.nextKey = s.nextKey

theorem keeps_of_eq {s s' : HostRoom D} (hj : s'.joins = s.joins)
    (hc : s'.next_conn_id = s.next_conn_id) (hk : s'.nextKey = s.nextKey) : Keeps s s' :=
  ⟨fun j' hj' => ⟨j', hj ▸ hj', rfl⟩, hc, hk⟩

theorem Keeps.refl (s : HostRoom D) : Keeps s s := keeps_of_eq rfl rfl rfl

theorem Keeps.trans {s t u : HostRoom D} (h₁ : Keeps s t) (h₂ : Keeps t u) : Keeps s u := by
  refine ⟨fun l hl => ?_, h₂.next_conn_id.trans h₁.next_conn_id, h₂.nextKey.trans h₁.nextKey⟩
  obtain ⟨k, hk, hlk⟩ := h₂.mem l hl
  obtain ⟨j, hj, hkj⟩ := h₁.mem k hk
  exact ⟨j, hj, hlk.trans hkj⟩

theorem keeps_mapJoins (s : HostRoom D) (f : JoinEntry → JoinEntry)
    (h : ∀ j, (f j).numbers = j.numbers) : Keeps s (s.mapJoins f) := by
  refine ⟨fun j' hj' => ?_, rfl, rfl⟩
  obtain ⟨j, hj, rfl⟩ := List.mem_map.1 hj'
  exact ⟨j, hj, h j⟩

theorem keeps_modify (s : HostRoom D) (key : ℕ) (f : JoinEntry → JoinEntry)
    (h : ∀ j, (f j).numbers = j.numbers) : Keeps s (s.modify key f) := by
  refine keeps_mapJoins s _ fun j => ?_
  split_ifs
  · exact h j
  · rfl

theorem keeps_reply (s : HostRoom D) (key : ℕ) (pkts : List (Queue × Bytes)) :
    Keeps s (s.reply key pkts) := keeps_modify s key _ fun _ => rfl

theorem keeps_broadcast (s : HostRoom D) (q : Queue) (pkt : Bytes) (pick : JoinEntry → Bool) :
    Keeps s (s.broadcast q pkt pick) := by
  refine keeps_mapJoins s _ fun j => ?_
  split_ifs <;> rfl

theorem keeps_sendToHost (s : HostRoom D) (conn_id : ℕ) (pkt : Bytes) :
    Keeps s (s.sendToHost conn_id pkt) := by
  unfold HostRoom.sendToHost
  split_ifs
  · exact keeps_of_eq rfl rfl rfl
  · exact Keeps.refl s

theorem keeps_opList (s : HostRoom D) : Keeps s s.buildAndBroadcastOpList := by
  unfold HostRoom.buildAndBroadcastOpList
  dsimp only
  generalize s.opList = pkt
  have h₁ : Keeps s { s with cached_op_list := pkt } := keeps_of_eq rfl rfl rfl
  exact (h₁.trans (keeps_broadcast _ _ _ _)).trans (keeps_sendToHost _ _ _)

theorem keeps_chSync (b : Backend D) (s : HostRoom D) (send_to_host : Bool) :
    Keeps s (HostRoom.rebuildAndBroadcastChSync b s send_to_host) := by
  unfold HostRoom.rebuildAndBroadcastChSync
  dsimp only
  generalize HostRoom.rewriteMasks s.joins MAX_CHANNELS_RELAY s.cached_ch_sync = base_sync
  generalize HostRoom.compressChsync b base_sync = out
  have h₁ : Keeps s { s.broadcast .ctrl out JoinEntry.up with cached_ch_sync := base_sync } :=
    (keeps_broadcast s _ _ _).trans (keeps_of_eq rfl rfl rfl)
  split_ifs
  · exact Keeps.refl s
  · exact h₁.trans (keeps_sendToHost _ _ _)
  · exact h₁

theorem keeps_dbList (b : Backend D) (s : HostRoom D) : Keeps s (s.broadcastDbList b) := by
  have h₁ : Keeps s (s.enqueueHostSend ⟨none, 0xFFFF, .data, b.dbList s.disk⟩) :=
    keeps_of_eq rfl rfl rfl
  exact h₁.trans (keeps_broadcast _ _ _ _)

theorem keeps_applyEffect (b : Backend D) (s : HostRoom D) (e : Effect D) :
    Keeps s (s.applyEffect b e) := by
  unfold HostRoom.applyEffect
  dsimp only
  split_ifs
  · refine Keeps.trans ?_ (keeps_dbList b _)
    exact keeps_of_eq rfl rfl rfl
  · exact keeps_of_eq rfl rfl rfl

theorem keeps_hostModulePipe (b : Backend D) (s : HostRoom D) (pkt : Bytes) :
    Keeps s (s.handleHostModulePipe b pkt) := by
  unfold HostRoom.handleHostModulePipe
  cases HostRoom.modulePipe pkt with
  | none => exact Keeps.refl s
  | some r =>
    dsimp only
    have hdisk : Keeps s { s with disk := (b.onHost pkt s.disk).disk } := keeps_of_eq rfl rfl rfl
    split_ifs
    · exact (hdisk.trans (keeps_broadcast _ _ _ _)).trans (keeps_of_eq rfl rfl rfl)
    · exact (hdisk.trans (keeps_broadcast _ _ _ _)).trans (keeps_of_eq rfl rfl rfl)
    · exact hdisk

theorem keeps_cache (s : HostRoom D) (pkt : Bytes) : Keeps s (s.cache pkt) := by
  unfold HostRoom.cache
  dsimp only
  split_ifs <;> exact keeps_of_eq rfl rfl rfl

theorem numbers_deliver (pkt : Bytes) (j : JoinEntry) :
    (HostRoom.deliver pkt j).numbers = j.numbers := by
  unfold HostRoom.deliver
  dsimp only
  split_ifs <;> rfl

theorem keeps_relayPacket (b : Backend D) (s : HostRoom D) (conn_id : ℕ) (pkt : Bytes) :
    Keeps s (s.relayPacket b conn_id pkt) := by
  unfold HostRoom.relayPacket
  dsimp only
  refine (keeps_cache s pkt).trans ?_
  generalize s.cache pkt = s
  split_ifs
  · exact keeps_applyEffect b s _
  · exact keeps_hostModulePipe b s pkt
  · cases HostRoom.rawChSync b pkt with
    | none => exact Keeps.refl s
    | some raw =>
      refine Keeps.trans ?_ (keeps_chSync b _ false)
      exact keeps_of_eq rfl rfl rfl
  · exact Keeps.refl s
  · exact keeps_broadcast s _ _ _
  · exact keeps_broadcast s _ _ _
  · exact (keeps_broadcast s _ _ _).trans (keeps_of_eq rfl rfl rfl)
  · refine Keeps.trans ?_ (keeps_mapJoins _ _ fun j => ?_)
    · exact keeps_of_eq rfl rfl rfl
    · split_ifs
      · exact numbers_deliver pkt j
      · rfl

theorem keeps_answered (s : HostRoom D) (conn_id : ℕ) (ok : Bool) :
    Keeps s (s.answered conn_id ok) := by
  unfold HostRoom.answered
  split
  · exact Keeps.refl s
  · exact keeps_modify s _ _ fun _ => rfl

theorem keeps_rejected (s : HostRoom D) (conn_id : ℕ) (pkt : Bytes) :
    Keeps s (s.rejected conn_id pkt) := by
  unfold HostRoom.rejected
  split_ifs
  · exact keeps_answered s conn_id false
  · exact Keeps.refl s

theorem keeps_welcome (b : Backend D) (s : HostRoom D) : Keeps s (s.welcome b) := by
  unfold HostRoom.welcome
  split
  · exact Keeps.refl s
  · rename_i key pkt _
    have h₁ : Keeps s (s.queueAck key pkt) :=
      (keeps_of_eq rfl rfl rfl : Keeps s { s with accepting := none }).trans
        (keeps_modify _ key _ fun _ => rfl)
    have h₂ := (h₁.trans (keeps_reply _ key s.cachedPackets)).trans (keeps_opList _)
    exact h₂.trans (keeps_reply _ key _)

theorem keeps_joinModulePipe (b : Backend D) (s : HostRoom D) (key : ℕ) (pkt : Bytes) :
    Keeps s (s.handleJoinModulePipe b key pkt) := by
  unfold HostRoom.handleJoinModulePipe
  cases HostRoom.modulePipe pkt with
  | none => exact Keeps.refl s
  | some r =>
    dsimp only
    split_ifs
    · exact keeps_reply s key _
    · exact keeps_sendToHost s _ _
    · exact keeps_of_eq rfl rfl rfl
    · refine Keeps.trans ?_ (keeps_reply _ key _)
      exact keeps_modify s key _ fun _ => rfl
    · exact keeps_modify s key _ fun _ => rfl
    · exact Keeps.refl s

theorem keeps_interceptCmd (b : Backend D) (s : HostRoom D) (key : ℕ) (cmd : Bytes) :
    Keeps s (s.interceptCmd b key cmd).1 := by
  unfold HostRoom.interceptCmd
  dsimp only
  split_ifs
  · exact Keeps.refl s
  · refine Keeps.trans ?_ (keeps_chSync b _ true)
    exact keeps_modify s key _ fun _ => rfl
  · exact Keeps.refl s
  · exact keeps_modify s key _ fun _ => rfl
  · exact keeps_mapJoins s _ fun _ => rfl
  · exact Keeps.refl s

theorem keeps_joinCmd (b : Backend D) (s : HostRoom D) (key : ℕ) (pkt : Bytes) :
    Keeps s (s.handleJoinCmd b key pkt).1 := by
  unfold HostRoom.handleJoinCmd
  dsimp only
  split_ifs
  · exact keeps_joinModulePipe b s key pkt
  · exact keeps_reply s key _
  · exact keeps_interceptCmd b s key _
  · exact (keeps_reply s key _).trans (keeps_applyEffect b _ _)
  · exact keeps_broadcast s _ _ _
  · exact (keeps_broadcast s _ _ _).trans (keeps_of_eq rfl rfl rfl)
  · exact keeps_of_eq rfl rfl rfl
  · exact Keeps.refl s

theorem keeps_interceptJoinCmd (b : Backend D) (s : HostRoom D) (j : JoinEntry) (pkt : Bytes) :
    Keeps s (s.interceptJoinCmd b j pkt).1 := by
  rcases interceptJoinCmd_cases b s j pkt with ⟨c, h, -⟩ | ⟨r, -, h⟩ | ⟨-, -, h⟩
  · rw [h]
    exact Keeps.refl s
  · rw [h]
    exact keeps_modify s _ _ fun _ => rfl
  · rw [h]
    exact keeps_joinCmd b s j.key pkt

theorem keeps_joinExit (s : HostRoom D) (j : JoinEntry) : Keeps s (s.joinExit j) := by
  have hwithout : Keeps s (s.without j) := by
    refine ⟨fun k hk => ?_, ?_, congrArg (fun x => x.2.2.2.1) (without_frame s j)⟩
    · rw [without_joins] at hk
      exact ⟨k, List.mem_of_mem_filter hk, rfl⟩
    · unfold HostRoom.without
      dsimp only
      split <;> rfl
  unfold HostRoom.joinExit
  split_ifs
  · exact hwithout.trans (keeps_opList _)
  · exact hwithout

theorem keeps_passOn (s : HostRoom D) (j : JoinEntry) (pkt : Bytes) : Keeps s (s.passOn j pkt) := by
  unfold HostRoom.passOn
  split_ifs
  · refine Keeps.trans ?_ (keeps_modify _ j.key _ fun _ => rfl)
    exact keeps_of_eq rfl rfl rfl
  · exact keeps_joinExit s j

theorem keeps_joinLoop (b : Backend D) (s : HostRoom D) (j : JoinEntry) :
    Keeps s (s.joinLoop b j) := by
  unfold HostRoom.joinLoop
  cases receive j.inbuf with
  | more => exact Keeps.refl s
  | oversized => exact keeps_joinExit s j
  | packet pkt rest =>
    dsimp only
    have h₁ := (keeps_modify s j.key (fun j => { j with inbuf := rest }) fun _ => rfl).trans
      (keeps_interceptJoinCmd b _ j pkt)
    split_ifs
    · exact h₁
    · exact h₁.trans (keeps_passOn _ j pkt)

/-- Whether a packet of HOST is an acceptance. -/
def Event.accepts : Event D → Bool
  | .host _ pkt => (authAck pkt).any Prod.fst
  | _ => false

theorem keeps_dispatch (b : Backend D) (s : HostRoom D) (conn_id : ℕ) (pkt : Bytes)
    (h : (authAck pkt).any Prod.fst = false) : Keeps s (s.dispatchToJoins b conn_id pkt) := by
  have hentry : s.acceptedEntry conn_id pkt = none := by
    unfold HostRoom.acceptedEntry
    cases hack : authAck pkt with
    | none => rfl
    | some a =>
      obtain ⟨ok, op_idx⟩ := a
      rw [hack] at h
      obtain rfl : ok = false := h
      rfl
  unfold HostRoom.dispatchToJoins
  rw [hentry]
  split_ifs
  · exact Keeps.refl s
  · exact (keeps_rejected s conn_id pkt).trans (keeps_relayPacket b _ conn_id pkt)

/-- Only a connection and an acceptance change numbers. -/
theorem keeps_event (b : Backend D) (s : HostRoom D) (e : Event D) (hconnect : e ≠ .connect)
    (haccepts : e.accepts = false) : Keeps s (e.apply b s) := by
  cases e with
  | connect => exact absurd rfl hconnect
  | arrive key bytes => exact keeps_modify s key _ fun _ => rfl
  | read key =>
    simp only [Event.apply]
    split
    · split_ifs
      · exact keeps_joinLoop b s _
      · exact keeps_joinExit s _
    · exact Keeps.refl s
  | sendFailed key => exact keeps_modify s key _ fun _ => rfl
  | hangup key =>
    simp only [Event.apply]
    split
    · exact keeps_joinExit s _
    · exact Keeps.refl s
  | host conn_id pkt => exact keeps_dispatch b s conn_id pkt haccepts
  | welcome => exact keeps_welcome b s
  | hostHb first user_count =>
    simp only [Event.apply]
    split_ifs
    · refine Keeps.trans (keeps_dbList b s) ?_
      exact keeps_of_eq rfl rfl rfl
    · exact keeps_of_eq rfl rfl rfl
  | hostState operator_login => exact keeps_of_eq rfl rfl rfl
  | diskStat p => exact keeps_broadcast s _ _ _
  | stored disk => exact keeps_of_eq rfl rfl rfl
  | chat pkt => exact (keeps_broadcast s _ _ _).trans (keeps_sendToHost _ _ _)
  | modulePkt pkt sub_mod => exact keeps_broadcast s _ _ _
  | toHost pkt => exact keeps_sendToHost s _ _
  | close =>
    refine ⟨fun j hj => ?_, rfl, rfl⟩
    exact absurd hj List.not_mem_nil

/-! ## HOST -/

/-- `MAX_OPERATORS`. -/
def MAX_OPERATORS : ℕ := 16

/-- The numbers that connections get, from 1 on. -/
def CONN_IDS : ℕ := 65534

/-- An AUTH_ACK on its way to Central, and how many authentications came before its own. -/
structure Ack where
  conn_id : ℕ
  op_index : ℕ
  auth : ℕ

/-- The packet of an AUTH_ACK. -/
def Ack.pkt (a : Ack) : Bytes :=
  makeBewePacket BEWE_TYPE_AUTH_ACK (1 :: UInt8.ofNat a.op_index :: charArray 48 (ascii "OK"))

/-- A room and its HOST. `next` is that of `on_auth`, and `handled` the places in the queue for HOST
of the requests that it has handled. History: how many authentications there were, and which of them
was that of an entry. -/
structure Station (D : Type) where
  room : HostRoom D
  next : ℕ
  handled : List ℕ
  acks : List Ack
  auths : ℕ
  authOf : ℕ → ℕ

/-- What happens: to the room; HOST handles the request at a place of its queue, or one of a client
that is not in the room; an AUTH_ACK arrives or is lost. -/
inductive StationEvent (D : Type)
  | room (e : Event D)
  | onAuth (place : Option ℕ)
  | deliver (i : ℕ)
  | lose (i : ℕ)

namespace Station

/-- The connection whose request is at a place of the queue for HOST. -/
def request (st : Station D) (place : ℕ) : Option ℕ :=
  (st.room.host_send_queue[place]?).bind fun item =>
    if item.type = .data ∧ item.source.isSome ∧ (authReq item.bytes).isSome then some item.conn_id
    else none

/-- `on_auth`: the next number is given, and the AUTH_ACK is sent if there is a connection. -/
def onAuth (st : Station D) (conn_id : Option ℕ) : Station D :=
  { st with
    next := if MAX_OPERATORS < st.next + 1 then 1 else st.next + 1
    acks := st.acks ++ (conn_id.map fun c => ⟨c, st.next, st.auths⟩).toList
    auths := st.auths + 1 }

end Station

/-- Whether an event can happen. HOST accepts nobody but in `on_auth`. -/
def StationEvent.enabled : StationEvent D → Station D → Bool
  | .room e, st => e.enabled st.room && !e.accepts
  | .onAuth none, _ => true
  | .onAuth (some place), st => !st.handled.elem place && (st.request place).isSome
  | .deliver i, st =>
    match st.acks[i]? with
    | none => false
    | some a => (Event.host a.conn_id a.pkt : Event D).enabled st.room
  | .lose _, _ => true

/-- What an event does. -/
def StationEvent.apply (b : Backend D) : StationEvent D → Station D → Station D
  | .room e, st => { st with room := e.apply b st.room }
  | .onAuth none, st => st.onAuth none
  | .onAuth (some place), st =>
    { st.onAuth (st.request place) with handled := place :: st.handled }
  | .deliver i, st =>
    match st.acks[i]? with
    | none => st
    | some a =>
      { st with
        room := st.room.dispatchToJoins b a.conn_id a.pkt
        acks := st.acks.eraseIdx i
        authOf :=
          match st.room.acceptedEntry a.conn_id a.pkt with
          | some (j, _) => Function.update st.authOf j.key a.auth
          | none => st.authOf }
  | .lose i, st => { st with acks := st.acks.eraseIdx i }

/-- One step. -/
def StationStep (b : Backend D) (st : Station D) (e : StationEvent D) (st' : Station D) : Prop :=
  e.enabled st = true ∧ st' = e.apply b st

/-- A room that HOST has just opened. -/
def Station.start (room : HostRoom D) : Station D := ⟨room, 1, [], [], 0, fun _ => 0⟩

/-! ## Numbers -/

/-- The numbers are those of the counters: an entry's connection of how many came before it, its
operator of how many were authenticated before it. -/
structure Numbered (st : Station D) : Prop where
  keyed : Keyed st.room
  next : st.next = 1 + st.auths % MAX_OPERATORS
  acks : ∀ a ∈ st.acks, a.op_index = 1 + a.auth % MAX_OPERATORS
  next_conn_id : st.room.next_conn_id = 1 + st.room.nextKey % CONN_IDS
  conn_id : ∀ j ∈ st.room.joins, j.conn_id = 1 + j.key % CONN_IDS
  op_index : ∀ j ∈ st.room.joins, j.authed = true →
    j.op_index.toNat = 1 + st.authOf j.key % MAX_OPERATORS

theorem Numbered.of_keeps {st : Station D} {room : HostRoom D} (h : Numbered st)
    (hkeyed : Keyed room) (hk : Keeps st.room room) : Numbered { st with room := room } where
  keyed := hkeyed
  next := h.next
  acks := h.acks
  next_conn_id := by rw [hk.next_conn_id, hk.nextKey, h.next_conn_id]
  conn_id := by
    intro j' hj'
    obtain ⟨j, hj, hnum⟩ := hk.mem j' hj'
    obtain ⟨hkey, hconn, -, -⟩ : j'.key = j.key ∧ j'.conn_id = j.conn_id ∧
      j'.op_index = j.op_index ∧ j'.authed = j.authed := by simpa [JoinEntry.numbers] using hnum
    rw [hkey, hconn, h.conn_id j hj]
  op_index := by
    intro j' hj' hauth
    obtain ⟨j, hj, hnum⟩ := hk.mem j' hj'
    obtain ⟨hkey, -, hop, hauthed⟩ : j'.key = j.key ∧ j'.conn_id = j.conn_id ∧
      j'.op_index = j.op_index ∧ j'.authed = j.authed := by simpa [JoinEntry.numbers] using hnum
    rw [hkey, hop]
    exact h.op_index j hj (hauthed ▸ hauth)

/-- A counter that wraps behind its last number. -/
theorem wrap_eq {n k : ℕ} (hk : 0 < k) :
    (if k < 1 + n % k + 1 then 1 else 1 + n % k + 1) = 1 + (n + 1) % k := by
  have hlt := Nat.mod_lt n hk
  rw [← Nat.mod_add_mod]
  generalize n % k = r at hlt
  rcases Nat.lt_or_ge (r + 1) k with hless | hge
  · rw [if_neg (by omega), Nat.mod_eq_of_lt hless, Nat.add_assoc]
  · obtain rfl : k = r + 1 := by omega
    rw [if_pos (by omega), Nat.mod_self]

theorem numbered_joinRoom {st : Station D} (h : Numbered st) (hkeyed : Keyed st.room.joinRoom) :
    Numbered { st with room := st.room.joinRoom } where
  keyed := hkeyed
  next := h.next
  acks := h.acks
  next_conn_id := by
    have hlt := Nat.mod_lt st.room.nextKey (show 0 < CONN_IDS by decide)
    have hwrap := wrap_eq (n := st.room.nextKey) (show 0 < CONN_IDS by decide)
    change (if (st.room.next_conn_id + 1) % 2 ^ 16 = 0xFFFF then 1
      else (st.room.next_conn_id + 1) % 2 ^ 16) = 1 + (st.room.nextKey + 1) % CONN_IDS
    rw [← hwrap, h.next_conn_id]
    generalize st.room.nextKey % CONN_IDS = r at hlt
    -- sixteen bits are enough for the last number and the one after it
    have hbits : (1 + r + 1) % 2 ^ 16 = 1 + r + 1 := by
      unfold CONN_IDS at hlt
      exact Nat.mod_eq_of_lt (by omega)
    rw [hbits]
    unfold CONN_IDS at hlt ⊢
    split_ifs with hmax hover
    · rfl
    · omega
    · omega
    · rfl
  conn_id := by
    intro j hj
    rcases List.mem_append.1 hj with hj | hj
    · exact h.conn_id j hj
    · rw [List.mem_singleton.1 hj]
      exact h.next_conn_id
  op_index := by
    intro j hj hauth
    rcases List.mem_append.1 hj with hj | hj
    · exact h.op_index j hj hauth
    · rw [List.mem_singleton.1 hj] at hauth
      exact absurd hauth (by simp [HostRoom.newEntry])

theorem numbered_onAuth {st : Station D} (h : Numbered st) (conn_id : Option ℕ) :
    Numbered (st.onAuth conn_id) where
  keyed := h.keyed
  next := by
    have hwrap := wrap_eq (n := st.auths) (show 0 < MAX_OPERATORS by decide)
    change (if MAX_OPERATORS < st.next + 1 then 1 else st.next + 1) = _
    rw [h.next]
    exact hwrap
  acks := by
    intro a ha
    rcases List.mem_append.1 ha with ha | ha
    · exact h.acks a ha
    · obtain ⟨c, -, rfl⟩ := Option.map_eq_some_iff.1 (Option.mem_toList.1 ha)
      exact h.next
  next_conn_id := h.next_conn_id
  conn_id := h.conn_id
  op_index := h.op_index

/-- What an AUTH_ACK is for Central. -/
theorem authAck_pkt (a : Ack) : authAck a.pkt = some (true, UInt8.ofNat a.op_index) := by
  have hlen : BEWE_HDR_SIZE + 2 ≤ a.pkt.length := by
    simp [Ack.pkt, makeBewePacket, charArray, ascii, BEWE_HDR_SIZE]
  rw [authAck, if_pos ⟨rfl, hlen⟩]
  rfl

theorem not_short_pkt (a : Ack) : ¬a.pkt.length < BEWE_HDR_SIZE := by
  simp [Ack.pkt, makeBewePacket, charArray, ascii, BEWE_HDR_SIZE]

/-- The numbers after an AUTH_ACK that finds its connection. -/
theorem numbered_mark {st : Station D} (h : Numbered st) {a : Ack}
    (ha : a.op_index = 1 + a.auth % MAX_OPERATORS) (key : ℕ) (acks : List Ack)
    (hacks : ∀ a ∈ acks, a ∈ st.acks) :
    Numbered { st with
      room := (st.room.answered a.conn_id true).mark key (UInt8.ofNat a.op_index) a.pkt
      acks := acks
      authOf := Function.update st.authOf key a.auth } where
  keyed := (fewer_mark _ _ _ _).keyed ((fewer_answered st.room a.conn_id true).keyed h.keyed)
  next := h.next
  acks := fun x hx => h.acks x (hacks x hx)
  next_conn_id := by
    have hk := keeps_answered st.room a.conn_id true
    change (st.room.answered a.conn_id true).next_conn_id =
      1 + (st.room.answered a.conn_id true).nextKey % CONN_IDS
    rw [hk.next_conn_id, hk.nextKey, h.next_conn_id]
  conn_id := by
    intro j' hj'
    obtain ⟨k, hk, rfl⟩ := List.mem_map.1 hj'
    obtain ⟨j, hj, hnum⟩ := (keeps_answered st.room a.conn_id true).mem k hk
    obtain ⟨hkey, hconn, -, -⟩ : k.key = j.key ∧ k.conn_id = j.conn_id ∧
      k.op_index = j.op_index ∧ k.authed = j.authed := by simpa [JoinEntry.numbers] using hnum
    have hid : k.conn_id = 1 + k.key % CONN_IDS := by rw [hkey, hconn, h.conn_id j hj]
    split_ifs <;> exact hid
  op_index := by
    intro j' hj' hauth
    obtain ⟨k, hk, rfl⟩ := List.mem_map.1 hj'
    obtain ⟨j, hj, hnum⟩ := (keeps_answered st.room a.conn_id true).mem k hk
    obtain ⟨hkey, -, hop, hauthed⟩ : k.key = j.key ∧ k.conn_id = j.conn_id ∧
      k.op_index = j.op_index ∧ k.authed = j.authed := by simpa [JoinEntry.numbers] using hnum
    by_cases hmine : k.key = key
    · -- the entry that is marked
      have hlt := Nat.mod_lt a.auth (show 0 < MAX_OPERATORS by decide)
      rw [if_pos hmine]
      change (UInt8.ofNat a.op_index).toNat = 1 + Function.update st.authOf key a.auth k.key % _
      rw [hmine, Function.update_self, UInt8.toNat_ofNat', ha, Nat.mod_eq_of_lt]
      unfold MAX_OPERATORS at hlt ⊢
      omega
    · rw [if_neg hmine] at hauth ⊢
      change k.op_index.toNat = 1 + Function.update st.authOf key a.auth k.key % _
      rw [Function.update_of_ne hmine, hkey, hop]
      exact h.op_index j hj (hauthed ▸ hauth)

theorem numbered_deliver (b : Backend D) {st : Station D} (h : Numbered st) (i : ℕ) :
    Numbered ((StationEvent.deliver i).apply b st) := by
  simp only [StationEvent.apply]
  cases hi : st.acks[i]? with
  | none => exact h
  | some a =>
    have ha : a ∈ st.acks := List.mem_of_getElem? hi
    have hrest : ∀ x ∈ st.acks.eraseIdx i, x ∈ st.acks := fun x hx => List.mem_of_mem_eraseIdx hx
    dsimp only
    rw [HostRoom.dispatchToJoins, if_neg (not_short_pkt a)]
    cases hentry : st.room.acceptedEntry a.conn_id a.pkt with
    | none =>
      have hk : Keeps st.room ((st.room.rejected a.conn_id a.pkt).relayPacket b a.conn_id a.pkt) :=
        (keeps_rejected _ _ _).trans (keeps_relayPacket b _ _ _)
      have hkeyed : Keyed ((st.room.rejected a.conn_id a.pkt).relayPacket b a.conn_id a.pkt) := by
        have hfewer := fewer_dispatch b st.room a.conn_id a.pkt
        rw [HostRoom.dispatchToJoins, if_neg (not_short_pkt a), hentry] at hfewer
        exact hfewer.keyed h.keyed
      have hkept := h.of_keeps hkeyed hk
      exact ⟨hkept.keyed, hkept.next, fun x hx => h.acks x (hrest x hx), hkept.next_conn_id,
        hkept.conn_id, hkept.op_index⟩
    | some e =>
      obtain ⟨j, op_idx⟩ := e
      have hop : op_idx = UInt8.ofNat a.op_index := by
        rw [HostRoom.acceptedEntry, authAck_pkt] at hentry
        dsimp only at hentry
        split_ifs at hentry
        obtain ⟨k, -, hk⟩ := Option.map_eq_some_iff.1 hentry
        exact (Prod.mk.inj hk).2.symm
      rw [hop]
      exact numbered_mark h (h.acks a ha) j.key _ hrest

theorem numbered_step (b : Backend D) {st st' : Station D} {e : StationEvent D} (h : Numbered st)
    (hstep : StationStep b st e st') : Numbered st' := by
  obtain ⟨henabled, rfl⟩ := hstep
  cases e with
  | room e =>
    simp only [StationEvent.enabled, Bool.and_eq_true, Bool.not_eq_true'] at henabled
    have hkeyed : Keyed (e.apply b st.room) := keyed_step b h.keyed ⟨henabled.1, rfl⟩
    by_cases hconnect : e = .connect
    · subst hconnect
      exact numbered_joinRoom h hkeyed
    · exact h.of_keeps hkeyed (keeps_event b st.room e hconnect henabled.2)
  | onAuth place =>
    cases place with
    | none => exact numbered_onAuth h none
    | some place =>
      have hauth := numbered_onAuth h (st.request place)
      exact ⟨hauth.keyed, hauth.next, hauth.acks, hauth.next_conn_id, hauth.conn_id,
        hauth.op_index⟩
  | deliver i => exact numbered_deliver b h i
  | lose i =>
    exact ⟨h.keyed, h.next, fun a ha => h.acks a (List.mem_of_mem_eraseIdx ha), h.next_conn_id,
      h.conn_id, h.op_index⟩

/-! ## Distinct numbers -/

/-- A JOIN that is connected and an operator. -/
def JoinEntry.live (j : JoinEntry) : Bool := j.authed && j.alive

/-- The numbers of the live operators are their own, the operators' fit a mask, and the bit of one
in a mask says whether that one listens. -/
structure Distinct (s : HostRoom D) : Prop where
  conn_id : ∀ j ∈ s.joins, ∀ k ∈ s.joins, j.live = true → k.live = true →
    j.conn_id = k.conn_id → j.key = k.key
  op_index : ∀ j ∈ s.joins, ∀ k ∈ s.joins, j.live = true → k.live = true →
    j.op_index = k.op_index → j.key = k.key
  le : ∀ j ∈ s.joins, j.live = true → j.op_index.toNat ≤ 31
  mask : ∀ j ∈ s.joins, j.live = true → ∀ ch orig,
    (HostRoom.newMask s.joins ch orig).testBit j.op_index.toNat = j.recv_audio.getD ch true

/-- No two live operators have connected a multiple of 65534 connections apart, or were
authenticated a multiple of 16 authentications apart. -/
def Station.Apart (st : Station D) : Prop :=
  ∀ j ∈ st.room.joins, ∀ k ∈ st.room.joins, j.live = true → k.live = true → j.key ≠ k.key →
    j.key % CONN_IDS ≠ k.key % CONN_IDS ∧
      st.authOf j.key % MAX_OPERATORS ≠ st.authOf k.key % MAX_OPERATORS

/-- The bits of a mask: HOST's, and those of the operators who listen. -/
theorem testBit_newMask (joins : List JoinEntry) (ch orig i : ℕ) :
    (HostRoom.newMask joins ch orig).testBit i = true ↔
      (i = 0 ∧ orig.testBit 0 = true) ∨
        ∃ j ∈ joins, j.live = true ∧ j.recv_audio.getD ch true = true ∧
          j.op_index.toNat % 32 = i := by
  have hfold : ∀ (l : List JoinEntry) (m : ℕ),
      (l.foldl (fun m j => m ||| 1 <<< (j.op_index.toNat % 32)) m).testBit i = true ↔
        m.testBit i = true ∨ ∃ j ∈ l, j.op_index.toNat % 32 = i := by
    intro l
    induction l with
    | nil => simp
    | cons j l ih =>
      intro m
      rw [List.foldl_cons, ih, Nat.testBit_or, Bool.or_eq_true, Nat.one_shiftLeft,
        Nat.testBit_two_pow, decide_eq_true_eq]
      simp only [List.mem_cons, exists_eq_or_imp, or_assoc]
  have horig : (orig &&& 1).testBit i = true ↔ i = 0 ∧ orig.testBit 0 = true := by
    rw [Nat.testBit_and, Bool.and_eq_true, Nat.testBit_one_eq_true_iff_self_eq_zero]
    constructor
    · rintro ⟨hbit, rfl⟩
      exact ⟨rfl, hbit⟩
    · rintro ⟨rfl, hbit⟩
      exact ⟨hbit, rfl⟩
  rw [HostRoom.newMask, hfold, horig]
  refine or_congr_right ⟨?_, ?_⟩
  · rintro ⟨j, hj, hbit⟩
    obtain ⟨hmem, hlistens⟩ := List.mem_filter.1 hj
    rw [Bool.and_eq_true] at hlistens
    exact ⟨j, hmem, hlistens.1, hlistens.2, hbit⟩
  · rintro ⟨j, hj, hlive, hrecv, hbit⟩
    refine ⟨j, List.mem_filter.2 ⟨hj, ?_⟩, hbit⟩
    rw [Bool.and_eq_true]
    exact ⟨hlive, hrecv⟩

theorem Numbered.distinct_iff {st : Station D} (h : Numbered st) :
    Distinct st.room ↔ st.Apart := by
  have hauthed : ∀ j : JoinEntry, j.live = true → j.authed = true := fun j hj =>
    (Bool.and_eq_true_iff.1 hj).1
  have hop : ∀ j ∈ st.room.joins, j.live = true →
      j.op_index.toNat = 1 + st.authOf j.key % MAX_OPERATORS := fun j hj hlive =>
    h.op_index j hj (hauthed j hlive)
  have hle : ∀ j ∈ st.room.joins, j.live = true → 1 ≤ j.op_index.toNat ∧ j.op_index.toNat ≤ 16 := by
    intro j hj hlive
    have hlt := Nat.mod_lt (st.authOf j.key) (show 0 < MAX_OPERATORS by decide)
    rw [hop j hj hlive]
    unfold MAX_OPERATORS at hlt ⊢
    omega
  constructor
  · intro hd j hj k hk hjl hkl hne
    refine ⟨fun hmod => hne (hd.conn_id j hj k hk hjl hkl ?_),
      fun hmod => hne (hd.op_index j hj k hk hjl hkl ?_)⟩
    · rw [h.conn_id j hj, h.conn_id k hk, hmod]
    · rw [← UInt8.toNat_inj, hop j hj hjl, hop k hk hkl, hmod]
  · intro hapart
    have hkey : ∀ j ∈ st.room.joins, ∀ k ∈ st.room.joins, j.live = true → k.live = true →
        j.op_index = k.op_index → j.key = k.key := by
      intro j hj k hk hjl hkl heq
      by_contra hne
      have hnum := congrArg UInt8.toNat heq
      rw [hop j hj hjl, hop k hk hkl] at hnum
      exact (hapart j hj k hk hjl hkl hne).2 (by omega)
    refine ⟨?_, hkey, fun j hj hlive => by have := hle j hj hlive; omega, ?_⟩
    · intro j hj k hk hjl hkl heq
      by_contra hne
      rw [h.conn_id j hj, h.conn_id k hk] at heq
      exact (hapart j hj k hk hjl hkl hne).1 (by omega)
    · intro j hj hlive ch orig
      have hbound := hle j hj hlive
      rw [Bool.eq_iff_iff, testBit_newMask]
      constructor
      · rintro (⟨hzero, -⟩ | ⟨k, hk, hkl, hrecv, hbit⟩)
        · omega
        -- the operator whose bit it is
        have hboundk := hle k hk hkl
        rw [Nat.mod_eq_of_lt (by omega), UInt8.toNat_inj] at hbit
        rwa [h.keyed.eq hj hk (hkey j hj k hk hlive hkl hbit.symm)]
      · exact fun hrecv => Or.inr ⟨j, hj, hlive, hrecv, Nat.mod_eq_of_lt (by omega)⟩

/-! ## Runs -/

section

variable (station_id host_name : Bytes) (host_tier : UInt8) (sched mission : Bytes) (disk : D)

theorem numbered_start :
    Numbered (Station.start
      (HostRoom.openRoom station_id host_name host_tier sched mission disk)) := by
  have hnil := openRoom_joins station_id host_name host_tier sched mission disk
  refine ⟨keyed_openRoom station_id host_name host_tier sched mission disk, rfl, ?_, ?_, ?_, ?_⟩
  · intro a ha
    exact absurd ha List.not_mem_nil
  · unfold Station.start HostRoom.openRoom HostRoom.buildAndBroadcastOpList HostRoom.sendToHost
    dsimp only
    split_ifs <;> rfl
  · intro j hj
    rw [Station.start, hnil] at hj
    exact absurd hj List.not_mem_nil
  · intro j hj
    rw [Station.start, hnil] at hj
    exact absurd hj List.not_mem_nil

/-- In every state that is reached, the numbers of the live operators are distinct exactly if these
are apart. -/
theorem distinct_iff_apart (b : Backend D) (es : List (StationEvent D)) (st : Station D)
    (h : Run (StationStep b) (Station.start
      (HostRoom.openRoom station_id host_name host_tier sched mission disk)) es st) :
    Distinct st.room ↔ st.Apart :=
  (h.invariant (fun _ _ _ hstep hn => numbered_step b hn hstep)
    (numbered_start station_id host_name host_tier sched mission disk)).distinct_iff

end

/-- What a list of events makes of a room and its HOST. -/
def Station.after (st : Station Unit) (es : List (StationEvent Unit)) : Station Unit :=
  es.foldl (fun st e => e.apply nothingStored st) st

/-- So many JOINs, one after the other: each connects, asks HOST, is given a number and stays. -/
def arrivals (n : ℕ) : List (StationEvent Unit) :=
  (List.range n).flatMap fun key =>
    [.room .connect, .room (.arrive key (authReqPkt (ascii "a") 2)), .room (.read key),
      .onAuth (some (3 * key + 2)), .deliver 0, .room .welcome]

theorem run_arrivals (n : ℕ)
    (h : follows StationEvent.enabled (StationEvent.apply nothingStored) (Station.start emptyRoom)
      (arrivals n) = true) :
    Run (StationStep nothingStored) (Station.start emptyRoom) (arrivals n)
      ((Station.start emptyRoom).after (arrivals n)) :=
  run_of_follows _ (fun _ _ hen => ⟨hen, rfl⟩) _ _ h

theorem distinct_sixteen : Distinct ((Station.start emptyRoom).after (arrivals 16)).room :=
  (distinct_iff_apart (ascii "A") (ascii "A") 1 [] [] () nothingStored (arrivals 16) _
    (run_arrivals 16 (by decide +kernel))).2 (by unfold Station.Apart; decide +kernel)

/-- The seventeenth operator has the number of the first. -/
theorem not_distinct_seventeen :
    ¬∀ (es : List (StationEvent Unit)) (st : Station Unit),
      Run (StationStep nothingStored) (Station.start emptyRoom) es st → Distinct st.room := by
  intro hclaim
  have h := hclaim (arrivals 17) _ (run_arrivals 17 (by decide))
  exact absurd h.op_index (by decide)

end Bewe.Relay

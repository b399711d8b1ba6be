import Bewe.Lib.Run
import Bewe.Relay.Packet

/-!
# A room of the relay

Central keeps a room for each HOST, and in it an entry for each JOIN that is connected to that HOST.
This is the relay of `central_server.cpp` over one room: what HOST sends and to whom of the JOINs it
is queued (`dispatchToJoins`), what a JOIN sends and what becomes of it (`joinLoop`), and what comes
and goes. Other rooms are outside: what they send arrives as events, and what goes to them is in
`elsewhere`.

HOST's packets are handled by one thread, in order. Handling an acceptance is two steps, because
other threads see the entry when it is marked and its AUTH_ACK is not queued yet: `accepting` says
that the second is to come.

The databases, the archive and the modules' files, with the receptions that are in progress, are a
state `D`; what the handlers of `Backend` do with it, what they reply to the sender, and whether the
list of the database has changed is left open.
-/

namespace Bewe.Relay

open Lib Hist

/-! ## State -/

/-- `MAX_CHANNELS_RELAY`. -/
def MAX_CHANNELS_RELAY : ℕ := 50

/-- The send queues of a JOIN. -/
inductive Queue
  | ctrl
  | audio
  | data
  | file
  deriving DecidableEq

/-- `JoinEntry`. `key` is its identity and `opened` that its socket is (`fd >= 0`); `inbuf` is what
has been received and not read, `queued` all that was ever queued.

The last three fields are history: the requests that HOST was given and has not answered, the one
that it accepted last, and whether an AUTH_ACK with ok was queued. -/
structure JoinEntry where
  key : ℕ
  conn_id : ℕ
  opened : Bool
  alive : Bool
  inbuf : Bytes
  recv_audio : List Bool
  name : Bytes
  tier : UInt8
  op_index : UInt8
  authed : Bool
  active_file_transfers : ℤ
  fft_paused : Bool
  mod_recv : List Bytes
  queued : List (Queue × Bytes)
  requests : List AuthReq
  accepted : Option AuthReq
  acked : Bool

/-- `CentralMuxType`, of what goes to HOST. -/
inductive MuxType
  | connOpen
  | connClose
  | data
  deriving DecidableEq

/-- An entry of `host_send_queue`, with the JOIN whose packet it is, if it is one passed on. -/
structure HostItem where
  source : Option ℕ
  conn_id : ℕ
  type : MuxType
  bytes : Bytes
  deriving DecidableEq

/-- `HostRoom`. A cache is empty until it is filled; `operator_login` is that of the last
`HOST_STATE`, `nextKey` the identity of the next entry. -/
structure HostRoom (D : Type) where
  station_id : Bytes
  opened : Bool
  alive : Bool
  host_send_queue : List HostItem
  joins : List JoinEntry
  next_conn_id : ℕ
  user_count : ℕ
  cached_heartbeat : Bytes
  cached_status : Bytes
  cached_ch_sync : Bytes
  cached_op_list : Bytes
  cached_sched_sync : Bytes
  cached_mission_sync : Bytes
  host_name : Bytes
  operator_login : Bytes
  host_tier : UInt8
  disk : D
  elsewhere : List Bytes
  accepting : Option (ℕ × Bytes)
  nextKey : ℕ

/-- What a handler does: the state of databases, archive and modules after it, the packets for the
JOIN that asked, the packets for HOST with their connection, and whether the list of the database
changed. -/
structure Effect (D : Type) where
  disk : D
  reply : List (Queue × Bytes)
  toHost : List (ℕ × Bytes)
  listChanged : Bool

/-- The handlers of databases, archive and modules, for a packet of a JOIN and for one of HOST; the
packet with the list of the database; and zstd, with whether CH_SYNC is to be compressed. The list
of channels that a JOIN asks for is made of the room's CH_SYNC. -/
structure Backend (D : Type) where
  onJoin : ℕ → Bytes → Bytes → D → Effect D
  onHost : Bytes → D → Effect D
  dbList : D → Bytes
  zstd : Zstd
  chsyncZstd : Bool

variable {D : Type}

/-! ## Queues -/

/-- `enqueue_ctrl` and its like. -/
def JoinEntry.enqueue (j : JoinEntry) (q : Queue) (pkt : Bytes) : JoinEntry :=
  { j with queued := j.queued ++ [(q, pkt)] }

/-- Whether an entry can be sent to. -/
def JoinEntry.up (j : JoinEntry) : Bool := j.alive && j.opened

namespace HostRoom

/-- All entries changed by a function. -/
def mapJoins (s : HostRoom D) (f : JoinEntry → JoinEntry) : HostRoom D :=
  { s with joins := s.joins.map f }

/-- One entry changed. -/
def modify (s : HostRoom D) (key : ℕ) (f : JoinEntry → JoinEntry) : HostRoom D :=
  s.mapJoins fun j => if j.key = key then f j else j

/-- A packet queued to the entries that a test picks. -/
def broadcast (s : HostRoom D) (q : Queue) (pkt : Bytes) (pick : JoinEntry → Bool) : HostRoom D :=
  s.mapJoins fun j => if pick j then j.enqueue q pkt else j

/-- Packets queued to one entry. -/
def reply (s : HostRoom D) (key : ℕ) (pkts : List (Queue × Bytes)) : HostRoom D :=
  s.modify key fun j => { j with queued := j.queued ++ pkts }

/-- `enqueue_host_send`. -/
def enqueueHostSend (s : HostRoom D) (item : HostItem) : HostRoom D :=
  { s with host_send_queue := s.host_send_queue ++ [item] }

/-- A packet for HOST from Central, if HOST is connected. -/
def sendToHost (s : HostRoom D) (conn_id : ℕ) (pkt : Bytes) : HostRoom D :=
  if s.alive && s.opened then s.enqueueHostSend ⟨none, conn_id, .data, pkt⟩ else s

/-- A packet for the other rooms. -/
def sendElsewhere (s : HostRoom D) (pkt : Bytes) : HostRoom D :=
  { s with elsewhere := s.elsewhere ++ [pkt] }

/-- The entry of a JOIN. -/
def find (s : HostRoom D) (key : ℕ) : Option JoinEntry := s.joins.find? fun j => j.key = key

/-! ## Lists for everybody -/

/-- The rows of `OP_LIST`: index, tier and name. -/
def opEntry (index tier : UInt8) (name : Bytes) : Bytes :=
  index :: tier :: charArray 32 (cStr (name.take 31))

/-- `BEWE_MAX_OPERATORS`. -/
def BEWE_MAX_OPERATORS : ℕ := 16

/-- The JOINs in `OP_LIST`. -/
def operators (joins : List JoinEntry) : List JoinEntry :=
  (joins.filter fun j => j.authed && j.alive).take (BEWE_MAX_OPERATORS - 1)

/-- HOST's name in `OP_LIST`. -/
def hostLabel (s : HostRoom D) : Bytes :=
  if cStr s.operator_login ≠ [] then s.operator_login else s.host_name

/-- `OP_LIST`. -/
def opList (s : HostRoom D) : Bytes :=
  let rows := (operators s.joins).map fun j => opEntry j.op_index j.tier j.name
  makeBewePacket BEWE_TYPE_OP_LIST
    (UInt8.ofNat (rows.length + 1) :: opEntry 0 s.host_tier s.hostLabel ++ rows.flatten)

/-- `build_and_broadcast_op_list`. -/
def buildAndBroadcastOpList (s : HostRoom D) : HostRoom D :=
  let pkt := s.opList
  let s := { s with cached_op_list := pkt }
  (s.broadcast .ctrl pkt JoinEntry.up).sendToHost 0xFFFF pkt

/-- `CH_SYNC_ENTRY_SIZE`, `CH_SYNC_MASK_OFFSET`. -/
def CH_SYNC_ENTRY_SIZE : ℕ := 80
@[inherit_doc CH_SYNC_ENTRY_SIZE] def CH_SYNC_MASK_OFFSET : ℕ := 12

/-- `CH_SYNC_RAW_BODY`. -/
def CH_SYNC_RAW_BODY : ℕ := CH_SYNC_ENTRY_SIZE * MAX_CHANNELS_RELAY

/-- A channel's audio mask: HOST's bit as it was, and a bit for each JOIN that listens. The shift is
taken modulo the width, as the processor does. -/
def newMask (joins : List JoinEntry) (ch orig : ℕ) : ℕ :=
  (joins.filter fun j => j.authed && j.alive && j.recv_audio.getD ch true).foldl
    (fun m j => m ||| 1 <<< (j.op_index.toNat % 32)) (orig &&& 1)

/-- The masks of the first channels rewritten. -/
def rewriteMasks (joins : List JoinEntry) : ℕ → Bytes → Bytes
  | 0, sync => sync
  | ch + 1, sync =>
    let sync := rewriteMasks joins ch sync
    let off := BEWE_HDR_SIZE + ch * CH_SYNC_ENTRY_SIZE + CH_SYNC_MASK_OFFSET
    splice off (leBytes 4 (newMask joins ch (leNat (slice off 4 sync)))) sync

/-- `compress_chsync`. -/
def compressChsync (b : Backend D) (raw : Bytes) : Bytes :=
  if !b.chsyncZstd || decide (raw.length < BEWE_HDR_SIZE + CH_SYNC_RAW_BODY) then raw
  else
    match b.zstd.compress 1 (slice BEWE_HDR_SIZE CH_SYNC_RAW_BODY raw) with
    | some z =>
      if z.length < CH_SYNC_RAW_BODY then splice 5 (leBytes 4 z.length) (raw.take BEWE_HDR_SIZE) ++ z
      else raw
    | none => raw

/-- `rebuild_and_broadcast_ch_sync`. -/
def rebuildAndBroadcastChSync (b : Backend D) (s : HostRoom D) (send_to_host : Bool) : HostRoom D :=
  if s.cached_ch_sync.length < BEWE_HDR_SIZE + CH_SYNC_RAW_BODY then s
  else
    let base_sync := rewriteMasks s.joins MAX_CHANNELS_RELAY s.cached_ch_sync
    let out := compressChsync b base_sync
    let s := { s.broadcast .ctrl out JoinEntry.up with cached_ch_sync := base_sync }
    if send_to_host then s.sendToHost 0xFFFF out else s

/-- `broadcast_db_list` to HOST and all JOINs. -/
def broadcastDbList (b : Backend D) (s : HostRoom D) : HostRoom D :=
  let pkt := b.dbList s.disk
  (s.enqueueHostSend ⟨none, 0xFFFF, .data, pkt⟩).broadcast .ctrl pkt fun j => j.up && j.authed

/-- `broadcast_module_pkt_all`, in this room. -/
def broadcastModulePkt (s : HostRoom D) (pkt : Bytes) (sub_mod : Option Bytes) : HostRoom D :=
  s.broadcast .ctrl pkt fun j =>
    j.authed && j.up && (match sub_mod with | none => true | some m => decide (m ∈ j.mod_recv))

/-- `broadcast_room_chat`, and what `broadcast_global_chat` does in this room. -/
def broadcastChat (s : HostRoom D) (skip_join : Option ℕ) (pkt : Bytes) : HostRoom D :=
  s.broadcast .data pkt fun j => j.up && j.authed && decide (some j.key ≠ skip_join)

/-- What a handler leaves: what is stored, its packets for HOST, and the list if it changed. -/
def applyEffect (b : Backend D) (s : HostRoom D) (e : Effect D) : HostRoom D :=
  let s := { s with
    disk := e.disk
    host_send_queue := s.host_send_queue ++ e.toHost.map fun p => ⟨none, p.1, .data, p.2⟩ }
  if e.listChanged then s.broadcastDbList b else s

/-! ## From HOST -/

/-- The header of a `MODULE_PIPE` packet and its data, if they are there: module, kind and data. -/
def modulePipe (pkt : Bytes) : Option (Bytes × UInt8 × Bytes) :=
  let p := payload pkt
  let data_len := leNat (slice 12 4 p)
  if p.length < 16 ∨ p.length < 16 + data_len then none
  else some (cStr (p.take 8), p.getD 8 0, slice 16 data_len p)

/-- `handle_host_module_pipe`. -/
def handleHostModulePipe (b : Backend D) (s : HostRoom D) (pkt : Bytes) : HostRoom D :=
  match modulePipe pkt with
  | none => s
  | some (mod, kind, d) =>
    let s := { s with disk := (b.onHost pkt s.disk).disk }
    if kind = BEWE_MK_STATE ∧ 32 ≤ d.length then (s.broadcastModulePkt pkt none).sendElsewhere pkt
    else if (kind = BEWE_MK_DATA ∧ 24 ≤ d.length) ∨ kind = BEWE_MK_REC_DATA then
      (s.broadcastModulePkt pkt (some mod)).sendElsewhere pkt
    else s

/-- The packets of HOST that the handlers of databases and archive take and no JOIN gets. -/
def hostHandled (pkt : Bytes) : Bool :=
  let t := pktType pkt
  [BEWE_TYPE_MISSION_FILE_PUSH_META, BEWE_TYPE_MISSION_FILE_PUSH_DATA,
    BEWE_TYPE_MISSION_FILE_LIST_REQ, BEWE_TYPE_MISSION_FILE_DL_REQ, BEWE_TYPE_HIST_STAT_REQ,
    BEWE_TYPE_MISSION_SYNC_REQ, BEWE_TYPE_MISSION_FILE_DELETE, BEWE_TYPE_MISSION_FILE_RENAME,
    BEWE_TYPE_MISSION_FILE_SET_NOTE, BEWE_TYPE_DB_SAVE_FROM_ARCHIVE, BEWE_TYPE_DB_SAVE_META,
    BEWE_TYPE_DB_SAVE_DATA, BEWE_TYPE_DB_DL_REQ, BEWE_TYPE_DB_DELETE, BEWE_TYPE_RPT_ADD].elem t ||
  t == BEWE_TYPE_LWF_LIVE_START && decide (152 ≤ (payload pkt).length) ||
  t == BEWE_TYPE_LWF_LIVE_ROW && decide (68 ≤ (payload pkt).length) ||
  t == BEWE_TYPE_LWF_LIVE_STOP && decide (64 ≤ (payload pkt).length)

/-- `is_ctrl`. -/
def isCtrl (t : UInt8) : Bool :=
  [BEWE_TYPE_HEARTBEAT, BEWE_TYPE_STATUS, BEWE_TYPE_CMD, BEWE_TYPE_OP_LIST, BEWE_TYPE_AUTH_ACK,
    BEWE_TYPE_IQ_CHUNK, BEWE_TYPE_SCHED_SYNC, 0x31, 0x35, 0x39, 0x3C, 0x3D, 0x3E, 0x3F, 0x40, 0x5F,
    0x60, 0x61, 0x62].elem t

/-- What the general path does for one of its targets. -/
def deliver (pkt : Bytes) (j : JoinEntry) : JoinEntry :=
  let t := pktType pkt
  if t = BEWE_TYPE_FFT ∧ (0 < j.active_file_transfers ∨ j.fft_paused = true) then j
  else if t = BEWE_TYPE_FILE_META then
    { j.enqueue .file pkt with active_file_transfers := j.active_file_transfers + 1 }
  else if t = BEWE_TYPE_FILE_DATA then
    if 2 ≤ (payload pkt).length ∧ (payload pkt).getD 1 0 = 1 then
      { j.enqueue .file pkt with
        active_file_transfers :=
          if j.active_file_transfers ≤ 0 then 0 else j.active_file_transfers - 1 }
    else j.enqueue .file pkt
  else if isCtrl t then j.enqueue .ctrl pkt
  else j.enqueue .data pkt

/-- The targets of the general path. -/
def isTarget (conn_id : ℕ) (pkt : Bytes) (j : JoinEntry) : Bool :=
  j.up && decide (conn_id = 0xFFFF ∨ conn_id = j.conn_id) &&
    (j.authed || decide (pktType pkt = BEWE_TYPE_AUTH_ACK))

/-- The caches of the room that a packet goes into. -/
def cache (s : HostRoom D) (pkt : Bytes) : HostRoom D :=
  let t := pktType pkt
  if t = BEWE_TYPE_HEARTBEAT then { s with cached_heartbeat := pkt }
  else if t = BEWE_TYPE_STATUS then { s with cached_status := pkt }
  else if t = BEWE_TYPE_SCHED_SYNC then { s with cached_sched_sync := pkt }
  else if t = BEWE_TYPE_MISSION_SYNC then { s with cached_mission_sync := pkt }
  else s

/-- The raw form of `CH_SYNC` that is cached, if the packet is not damaged. -/
def rawChSync (b : Backend D) (pkt : Bytes) : Option Bytes :=
  if (payload pkt).length = CH_SYNC_RAW_BODY then some pkt
  else
    match b.zstd.decompress (payload pkt) with
    | some raw =>
      if raw.length = CH_SYNC_RAW_BODY then
        some (splice 5 (leBytes 4 CH_SYNC_RAW_BODY) (pkt.take BEWE_HDR_SIZE) ++ raw)
      else none
    | none => none

/-- HOST has answered a request of a connection. -/
def answered (s : HostRoom D) (conn_id : ℕ) (ok : Bool) : HostRoom D :=
  match s.joins.find? fun j => j.conn_id = conn_id with
  | none => s
  | some j => s.modify j.key fun j =>
    { j with requests := j.requests.tail
             accepted := if ok then j.requests.head? else j.accepted }

/-- HOST has answered with a packet that accepts nobody. -/
def rejected (s : HostRoom D) (conn_id : ℕ) (pkt : Bytes) : HostRoom D :=
  if (authAck pkt).isSome then s.answered conn_id false else s

/-- The entry that HOST accepts with a packet, if it is there. -/
def acceptedEntry (s : HostRoom D) (conn_id : ℕ) (pkt : Bytes) : Option (JoinEntry × UInt8) :=
  match authAck pkt with
  | some (true, op_idx) =>
    if conn_id = 0xFFFF then none
    else (s.joins.find? fun j => j.conn_id = conn_id).map fun j => (j, op_idx)
  | _ => none

/-- `dispatch_to_joins` for what is not an acceptance. -/
def relayPacket (b : Backend D) (s : HostRoom D) (conn_id : ℕ) (pkt : Bytes) : HostRoom D :=
  let t := pktType pkt
  let s := s.cache pkt
  if hostHandled pkt then s.applyEffect b (b.onHost pkt s.disk)
  else if t = BEWE_TYPE_MODULE_PIPE then s.handleHostModulePipe b pkt
  else if t = BEWE_TYPE_CH_SYNC then
    match rawChSync b pkt with
    | some raw => rebuildAndBroadcastChSync b { s with cached_ch_sync := raw } false
    | none => s
  else if t = BEWE_TYPE_AUDIO then
    let ch_idx := ((payload pkt).getD 0 0).toNat
    if payload pkt = [] ∨ MAX_CHANNELS_RELAY ≤ ch_idx then s
    else s.broadcast .audio pkt fun j =>
      j.up && j.authed && decide (conn_id = 0xFFFF ∨ conn_id = j.conn_id) &&
        j.recv_audio.getD ch_idx true
  else if t = BEWE_TYPE_CHAT then
    if 288 ≤ (payload pkt).length ∧ (payload pkt).take 6 = ascii "SYSTEM" then
      s.broadcastChat none pkt
    else (s.broadcastChat none pkt).sendElsewhere pkt
  else
    -- SCHED_SYNC, MISSION_SYNC and FFT are also stored
    let s := { s with disk := (b.onHost pkt s.disk).disk }
    s.mapJoins fun j => if isTarget conn_id pkt j then deliver pkt j else j

/-- An acceptance marks its entry. -/
def mark (s : HostRoom D) (key : ℕ) (op_idx : UInt8) (pkt : Bytes) : HostRoom D :=
  { s.modify key (fun j => { j with op_index := op_idx, authed := true }) with
    accepting := some (key, pkt) }

/-- `dispatch_to_joins`, for an acceptance as far as it marks the entry. -/
def dispatchToJoins (b : Backend D) (s : HostRoom D) (conn_id : ℕ) (pkt : Bytes) : HostRoom D :=
  if pkt.length < BEWE_HDR_SIZE then s
  else
    match s.acceptedEntry conn_id pkt with
    | some (j, op_idx) => (s.answered conn_id true).mark j.key op_idx pkt
    | none => (s.rejected conn_id pkt).relayPacket b conn_id pkt

/-- The AUTH_ACK of an acceptance is queued. -/
def queueAck (s : HostRoom D) (key : ℕ) (pkt : Bytes) : HostRoom D :=
  HostRoom.modify { s with accepting := none } key fun j =>
    { j.enqueue .ctrl pkt with acked := true }

/-- The packets that are cached. -/
def cachedPackets (s : HostRoom D) : List (Queue × Bytes) :=
  ([s.cached_heartbeat, s.cached_status, s.cached_ch_sync, s.cached_op_list, s.cached_sched_sync,
    s.cached_mission_sync].filter (· ≠ [])).map fun c => (.ctrl, c)

/-- The rest of `dispatch_to_joins` for an acceptance: the AUTH_ACK, what is cached, and the
lists. -/
def welcome (b : Backend D) (s : HostRoom D) : HostRoom D :=
  match s.accepting with
  | none => s
  | some (key, pkt) =>
    let s := ((s.queueAck key pkt).reply key s.cachedPackets).buildAndBroadcastOpList
    s.reply key [(.ctrl, b.dbList s.disk)]

/-! ## From a JOIN -/

/-- The packets of a JOIN that the handlers of databases and archive take and HOST does not get. -/
def joinHandled (t : UInt8) : Bool :=
  [BEWE_TYPE_DB_SAVE_META, BEWE_TYPE_DB_SAVE_DATA, BEWE_TYPE_DB_DL_REQ, BEWE_TYPE_DB_DELETE,
    BEWE_TYPE_DB_SET_NOTE, BEWE_TYPE_RPT_ADD, BEWE_TYPE_EMITTER_LIST_REQ,
    BEWE_TYPE_SIGHTING_LIST_REQ, BEWE_TYPE_EMITTER_UPSERT, BEWE_TYPE_EMITTER_DELETE,
    BEWE_TYPE_SIGHTING_LINK, BEWE_TYPE_MISSION_FILE_LIST_REQ, BEWE_TYPE_MISSION_FILE_DL_REQ,
    BEWE_TYPE_MISSION_SYNC_REQ, BEWE_TYPE_MISSION_FILE_DELETE, BEWE_TYPE_MISSION_FILE_RENAME,
    BEWE_TYPE_MISSION_FILE_SET_NOTE, BEWE_TYPE_DB_SAVE_FROM_ARCHIVE,
    BEWE_TYPE_MISSION_FILE_PUSH_META, BEWE_TYPE_MISSION_FILE_PUSH_DATA].elem t

/-- The kinds of `MODULE_PIPE` that go to the HOST of a station, with the size of their data. -/
def stationKinds : List (UInt8 × ℕ) :=
  [(BEWE_MK_SET, 26), (BEWE_MK_CH_EDIT, 36), (BEWE_MK_CH_ADD, 36), (BEWE_MK_CH_DEL, 36),
    (BEWE_MK_TUNE, 32), (BEWE_MK_REC_REQ, 36)]

/-- The kinds of `MODULE_PIPE` that Central answers itself, with the size of their data. -/
def answeredKinds : List (UInt8 × ℕ) :=
  [(BEWE_MK_VHIST_REQ, 4), (BEWE_MK_HLIST_REQ, 0), (BEWE_MK_HFETCH, 16), (BEWE_MK_CH_LIST_REQ, 0)]

/-- `handle_join_module_pipe`. -/
def handleJoinModulePipe (b : Backend D) (s : HostRoom D) (key : ℕ) (pkt : Bytes) : HostRoom D :=
  match modulePipe pkt with
  | none => s
  | some (mod, kind, d) =>
    let has := fun kinds : List (UInt8 × ℕ) => kinds.any fun k => kind == k.1 && k.2 ≤ d.length
    if has answeredKinds then
      s.reply key (b.onJoin key pkt s.cached_ch_sync s.disk).reply
    else if has stationKinds then
      if cStr (d.take 24) = s.station_id then s.sendToHost 0xFFFF pkt else s.sendElsewhere pkt
    else if kind = BEWE_MK_RECV ∧ 1 ≤ d.length then
      if d.getD 0 0 ≠ 0 then
        (s.modify key fun j => { j with mod_recv := mod :: j.mod_recv }).reply key
          (b.onJoin key pkt s.cached_ch_sync s.disk).reply
      else s.modify key fun j => { j with mod_recv := j.mod_recv.filter (· ≠ mod) }
    else s

/-- The branch of `intercept_join_cmd` for `CMD`. -/
def interceptCmd (b : Backend D) (s : HostRoom D) (key : ℕ) (cmd : Bytes) : HostRoom D × Bool :=
  let ch_idx := (cmd.getD 4 0).toNat
  if cmd.length < 4 then (s, false)
  else if cmd.getD 0 0 = BEWE_CMD_TOGGLE_RECV ∧ 6 ≤ cmd.length then
    if ch_idx < MAX_CHANNELS_RELAY then
      let enable := decide (cmd.getD 5 0 ≠ 0)
      (rebuildAndBroadcastChSync b
        (s.modify key fun j => { j with recv_audio := j.recv_audio.set ch_idx enable }) true, true)
    else (s, true)
  else if cmd.getD 0 0 = BEWE_CMD_TOGGLE_FFT_RECV ∧ 5 ≤ cmd.length then
    (s.modify key fun j => { j with fft_paused := decide (cmd.getD 4 0 = 0) }, true)
  else if cmd.getD 0 0 = BEWE_CMD_CREATE_CH ∧ 5 ≤ cmd.length ∧ ch_idx < MAX_CHANNELS_RELAY then
    (s.mapJoins fun j => { j with recv_audio := j.recv_audio.set ch_idx true }, false)
  else (s, false)

/-- The branches of `intercept_join_cmd` for an authenticated JOIN, but for `AUTH_REQ`. -/
def handleJoinCmd (b : Backend D) (s : HostRoom D) (key : ℕ) (pkt : Bytes) : HostRoom D × Bool :=
  let t := pktType pkt
  if t = BEWE_TYPE_MODULE_PIPE then (s.handleJoinModulePipe b key pkt, true)
  else if t = BEWE_TYPE_DB_LIST_REQ then (s.reply key [(.ctrl, b.dbList s.disk)], true)
  else if t = BEWE_TYPE_CMD then s.interceptCmd b key (payload pkt)
  else if joinHandled t then
    let e := b.onJoin key pkt s.cached_ch_sync s.disk
    ((s.reply key e.reply).applyEffect b e, true)
  else if t = BEWE_TYPE_CHAT then
    if 288 ≤ (payload pkt).length ∧ (payload pkt).getD 32 0 = 47 then
      (s.broadcastChat (some key) pkt, false)
    else ((s.broadcastChat (some key) pkt).sendElsewhere pkt, false)
  else if t = BEWE_TYPE_MISSION_DELETE ∧ 16 ≤ (payload pkt).length then
    ({ s with disk := (b.onJoin key pkt s.cached_ch_sync s.disk).disk }, false)
  else (s, false)

/-- `intercept_join_cmd`: the room after it, and whether the packet is consumed. -/
def interceptJoinCmd (b : Backend D) (s : HostRoom D) (j : JoinEntry) (pkt : Bytes) :
    HostRoom D × Bool :=
  if pkt.length < BEWE_HDR_SIZE then (s, false)
  else if !j.authed && pktType pkt != BEWE_TYPE_AUTH_REQ then (s, true)
  else if pktType pkt = BEWE_TYPE_AUTH_REQ then
    match authReq pkt with
    | some r => (s.modify j.key fun j => { j with name := r.name, tier := r.tier }, false)
    | none => (s, false)
  else s.handleJoinCmd b j.key pkt

/-- The room without the entry of a JOIN; HOST is told. -/
def without (s : HostRoom D) (j : JoinEntry) : HostRoom D :=
  let s := if s.alive && s.opened then s.enqueueHostSend ⟨none, j.conn_id, .connClose, []⟩ else s
  let joins := s.joins.filter fun k => k.key ≠ j.key
  { s with joins := joins, user_count := joins.length % 256 }

/-- The end of `join_loop`: the entry leaves the room, and the list of operators. -/
def joinExit (s : HostRoom D) (j : JoinEntry) : HostRoom D :=
  if s.alive && j.authed then (s.without j).buildAndBroadcastOpList else s.without j

/-- A packet passed on to HOST, which will answer it if it is a request; without HOST `join_loop`
ends. -/
def passOn (s : HostRoom D) (j : JoinEntry) (pkt : Bytes) : HostRoom D :=
  if s.alive && s.opened then
    (s.enqueueHostSend ⟨some j.key, j.conn_id, .data, pkt⟩).modify j.key fun j =>
      { j with requests := j.requests ++ (authReq pkt).toList }
  else s.joinExit j

/-- One round of `join_loop`. -/
def joinLoop (b : Backend D) (s : HostRoom D) (j : JoinEntry) : HostRoom D :=
  match receive j.inbuf with
  | .more => s
  | .oversized => s.joinExit j
  | .packet pkt rest =>
    let s := s.modify j.key fun j => { j with inbuf := rest }
    let (s, consumed) := s.interceptJoinCmd b j pkt
    if consumed then s else s.passOn j pkt

/-- The entry of a new connection. -/
def newEntry (key conn_id : ℕ) : JoinEntry where
  key := key
  conn_id := conn_id
  opened := true
  alive := true
  inbuf := []
  recv_audio := List.replicate MAX_CHANNELS_RELAY true
  name := List.replicate 31 0
  tier := 0
  op_index := 0
  authed := false
  active_file_transfers := 0
  fft_paused := false
  mod_recv := []
  queued := []
  requests := []
  accepted := none
  acked := false

/-- `JOIN_ROOM`. -/
def joinRoom (s : HostRoom D) : HostRoom D :=
  let joins := s.joins ++ [newEntry s.nextKey s.next_conn_id]
  let next := (s.next_conn_id + 1) % 2 ^ 16
  let s' := { s with
    joins := joins
    user_count := joins.length % 256
    next_conn_id := if next = 0xFFFF then 1 else next
    nextKey := s.nextKey + 1 }
  s'.enqueueHostSend ⟨none, s.next_conn_id, .connOpen, []⟩

/-- A room that HOST has opened, with the schedule and the missions that Central had stored. -/
def openRoom (station_id host_name : Bytes) (host_tier : UInt8) (sched mission : Bytes) (disk : D) :
    HostRoom D :=
  let s : HostRoom D :=
    { station_id := station_id, opened := true, alive := true, host_send_queue := [], joins := []
      next_conn_id := 1, user_count := 0, cached_heartbeat := [], cached_status := []
      cached_ch_sync := [], cached_op_list := [], cached_sched_sync := sched
      cached_mission_sync := mission, host_name := host_name, operator_login := []
      host_tier := host_tier, disk := disk, elsewhere := [], accepting := none, nextKey := 0 }
  let s := if sched ≠ [] then s.sendToHost 0xFFFF sched else s
  let s := if mission ≠ [] then s.sendToHost 0xFFFF mission else s
  s.buildAndBroadcastOpList

end HostRoom

/-! ## What happens -/

/-- What can happen to a room: a JOIN connects, sends bytes, is read from, its sending fails, or it
hangs up; HOST sends a packet, its acceptance is carried out, it says how many use it (the first
time the list of the database follows) or who operates it; the watchdog tells the space on the disk;
another room changes what is stored, chats, sends a module's packet, or a JOIN of it sends one to
this HOST; the room closes. -/
inductive Event (D : Type)
  | connect
  | arrive (key : ℕ) (bytes : Bytes)
  | read (key : ℕ)
  | sendFailed (key : ℕ)
  | hangup (key : ℕ)
  | host (conn_id : ℕ) (pkt : Bytes)
  | welcome
  | hostHb (first : Bool) (user_count : ℕ)
  | hostState (operator_login : Bytes)
  | diskStat (payload : Bytes)
  | stored (disk : D)
  | chat (pkt : Bytes)
  | modulePkt (pkt : Bytes) (sub_mod : Option Bytes)
  | toHost (pkt : Bytes)
  | close

/-- Whether an event can happen: HOST's packets wait until an acceptance has been carried out. -/
def Event.enabled : Event D → HostRoom D → Bool
  | .connect, s => s.alive
  | .arrive key _, s | .read key, s | .sendFailed key, s | .hangup key, s => (s.find key).isSome
  | .host _ _, s | .hostHb _ _, s => s.alive && s.accepting.isNone
  | .close, s => s.accepting.isNone
  | _, _ => true

/-- What an event does. -/
def Event.apply (b : Backend D) : Event D → HostRoom D → HostRoom D
  | .connect, s => s.joinRoom
  | .arrive key bytes, s => s.modify key fun j => { j with inbuf := j.inbuf ++ bytes }
  | .read key, s =>
    match s.find key with
    | some j => if j.alive && s.alive then s.joinLoop b j else s.joinExit j
    | none => s
  | .sendFailed key, s => s.modify key fun j => { j with alive := false }
  | .hangup key, s =>
    match s.find key with
    | some j => s.joinExit j
    | none => s
  | .host conn_id pkt, s => s.dispatchToJoins b conn_id pkt
  | .welcome, s => s.welcome b
  | .hostHb first user_count, s =>
    { (if first then s.broadcastDbList b else s) with user_count := user_count }
  | .hostState operator_login, s => { s with operator_login := operator_login }
  | .diskStat payload, s =>
    s.broadcast .ctrl (makeBewePacket BEWE_TYPE_DISK_STAT payload) fun j => j.up && j.authed
  | .stored disk, s => { s with disk := disk }
  | .chat pkt, s => (s.broadcastChat none pkt).sendToHost 0xFFFF pkt
  | .modulePkt pkt sub_mod, s => s.broadcastModulePkt pkt sub_mod
  | .toHost pkt, s => s.sendToHost 0xFFFF pkt
  | .close, s => { s with alive := false, opened := false, joins := [] }

/-- One step of a room. -/
def RoomStep (b : Backend D) (s : HostRoom D) (e : Event D) (s' : HostRoom D) : Prop :=
  e.enabled s = true ∧ s' = e.apply b s

/-- The room after a list of events. -/
def HostRoom.after (b : Backend D) (s : HostRoom D) (es : List (Event D)) : HostRoom D :=
  es.foldl (fun s e => e.apply b s) s

end Bewe.Relay

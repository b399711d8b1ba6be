import Bewe.Relay.Identity

/-!
# What a JOIN does before it is authenticated

Until HOST has accepted it a JOIN can have its AUTH_REQs passed on, and nothing else. `hide` takes
out of a room all that one JOIN has sent: what is in its own entry, and what was passed on.
`silenced` takes it out of a list of events.

`silenced_of_run`: while the JOIN is not authenticated, a room with what it sent taken out is the
room in which it has sent nothing. A JOIN whose header says too long a packet loses its connection,
which is then a connection that ended (`dropped_by_oversized`).
-/

namespace Bewe.Relay

open Lib Hist

variable {D : Type}

/-! ## Without what a JOIN has sent -/

/-- An entry without what its JOIN has sent. -/
def JoinEntry.hidden (j : JoinEntry) : JoinEntry :=
  { j with name := List.replicate 31 0, tier := 0, inbuf := [], requests := [], accepted := none }

/-- One entry hidden. -/
def hideEntry (key : ℕ) (j : JoinEntry) : JoinEntry := if j.key = key then j.hidden else j

/-- A room without what a JOIN has sent. -/
def HostRoom.hide (s : HostRoom D) (key : ℕ) : HostRoom D :=
  { s.mapJoins (hideEntry key) with
    host_send_queue := s.host_send_queue.filter fun item => item.source ≠ some key }

/-- A JOIN is not authenticated. -/
def HostRoom.unauthed (s : HostRoom D) (key : ℕ) : Bool :=
  s.joins.all fun j => decide (j.key = key) → !j.authed

/-- Reading from a JOIN ends its connection: its header says too long a packet, or there is no HOST
to pass its request on to. -/
def HostRoom.drops (s : HostRoom D) (key : ℕ) : Bool :=
  (s.find key).any fun j => j.alive && s.alive &&
    match receive j.inbuf with
    | .more => false
    | .oversized => true
    | .packet pkt _ => pktType pkt == BEWE_TYPE_AUTH_REQ && !s.opened

/-- An event as it would be if a JOIN had sent nothing; where its connection was ended, it hangs
up. -/
def Event.silent (key : ℕ) (s : HostRoom D) : Event D → List (Event D)
  | .arrive k bytes => if k = key then [] else [.arrive k bytes]
  | .read k => if k = key ∧ s.drops key = true then [.hangup k] else [.read k]
  | e => [e]

/-- The events of a run as they would be if a JOIN had sent nothing. -/
def silenced (b : Backend D) (key : ℕ) : HostRoom D → List (Event D) → List (Event D)
  | _, [] => []
  | s, e :: es => e.silent key s ++ silenced b key (e.apply b s) es

section

variable {key : ℕ}

theorem hideEntry_self {j : JoinEntry} (h : j.key = key) : hideEntry key j = j.hidden := if_pos h

theorem hideEntry_ne {j : JoinEntry} (h : j.key ≠ key) : hideEntry key j = j := if_neg h

@[simp] theorem hideEntry_key (j : JoinEntry) : (hideEntry key j).key = j.key := by
  unfold hideEntry
  split_ifs <;> rfl

@[simp] theorem hideEntry_conn_id (j : JoinEntry) : (hideEntry key j).conn_id = j.conn_id := by
  unfold hideEntry
  split_ifs <;> rfl

@[simp] theorem hideEntry_alive (j : JoinEntry) : (hideEntry key j).alive = j.alive := by
  unfold hideEntry
  split_ifs <;> rfl

@[simp] theorem hideEntry_authed (j : JoinEntry) : (hideEntry key j).authed = j.authed := by
  unfold hideEntry
  split_ifs <;> rfl

@[simp] theorem hideEntry_up (j : JoinEntry) : (hideEntry key j).up = j.up := by
  unfold hideEntry
  split_ifs <;> rfl

@[simp] theorem hideEntry_recv_audio (j : JoinEntry) :
    (hideEntry key j).recv_audio = j.recv_audio := by
  unfold hideEntry
  split_ifs <;> rfl

@[simp] theorem hideEntry_mod_recv (j : JoinEntry) : (hideEntry key j).mod_recv = j.mod_recv := by
  unfold hideEntry
  split_ifs <;> rfl

@[simp] theorem hideEntry_active_file_transfers (j : JoinEntry) :
    (hideEntry key j).active_file_transfers = j.active_file_transfers := by
  unfold hideEntry
  split_ifs <;> rfl

@[simp] theorem hideEntry_fft_paused (j : JoinEntry) :
    (hideEntry key j).fft_paused = j.fft_paused := by
  unfold hideEntry
  split_ifs <;> rfl

/-- What does not look at what was sent, and leaves it, can be done before it is hidden. -/
theorem hideEntry_comm (f : JoinEntry → JoinEntry) (hkey : ∀ j, (f j).key = j.key)
    (hf : ∀ j, (f j).hidden = f j.hidden) (j : JoinEntry) :
    hideEntry key (f j) = f (hideEntry key j) := by
  by_cases h : j.key = key
  · rw [hideEntry_self h, hideEntry_self ((hkey j).trans h), hf]
  · rw [hideEntry_ne h, hideEntry_ne fun hk => h ((hkey j).symm.trans hk)]

variable {s : HostRoom D}

@[simp] theorem hide_joins : (s.hide key).joins = s.joins.map (hideEntry key) := rfl
@[simp] theorem hide_alive : (s.hide key).alive = s.alive := rfl
@[simp] theorem hide_opened : (s.hide key).opened = s.opened := rfl
@[simp] theorem hide_disk : (s.hide key).disk = s.disk := rfl
@[simp] theorem hide_station_id : (s.hide key).station_id = s.station_id := rfl
@[simp] theorem hide_cached_ch_sync : (s.hide key).cached_ch_sync = s.cached_ch_sync := rfl
@[simp] theorem hide_accepting : (s.hide key).accepting = s.accepting := rfl

theorem unauthed_iff : s.unauthed key = true ↔ ∀ j ∈ s.joins, j.key = key → j.authed = false := by
  simp [HostRoom.unauthed, List.all_eq_true, ← imp_iff_not_or]

/-! ## Queues -/

theorem hide_mapJoins {f g : JoinEntry → JoinEntry}
    (h : ∀ j ∈ s.joins, hideEntry key (f j) = g (hideEntry key j)) :
    (s.mapJoins f).hide key = (s.hide key).mapJoins g := by
  have hmap : (s.joins.map f).map (hideEntry key) = (s.joins.map (hideEntry key)).map g := by
    rw [List.map_map, List.map_map]
    exact List.map_congr_left h
  simp only [HostRoom.hide, HostRoom.mapJoins, hmap]

theorem hide_modify (k : ℕ) {f : JoinEntry → JoinEntry}
    (h : ∀ j ∈ s.joins, j.key = k → hideEntry key (f j) = f (hideEntry key j)) :
    (s.modify k f).hide key = (s.hide key).modify k f := by
  refine hide_mapJoins fun j hj => ?_
  rw [hideEntry_key]
  by_cases hk : j.key = k
  · rw [if_pos hk, if_pos hk, h j hj hk]
  · rw [if_neg hk, if_neg hk]

/-- What is done to another entry. -/
theorem hide_modify_ne {k : ℕ} (hk : k ≠ key) {f : JoinEntry → JoinEntry}
    (hf : ∀ j, (f j).key = j.key) : (s.modify k f).hide key = (s.hide key).modify k f := by
  refine hide_modify k fun j _ hj => ?_
  have hne : j.key ≠ key := fun h => hk (hj.symm.trans h)
  rw [hideEntry_ne hne, hideEntry_ne fun h => hne ((hf j).symm.trans h)]

/-- What is hidden may change. -/
theorem hide_modify_hidden (k : ℕ) {f : JoinEntry → JoinEntry}
    (hf : ∀ j, j.key = k → hideEntry key (f j) = hideEntry key j) :
    (s.modify k f).hide key = s.hide key := by
  have h : (s.modify k f).hide key = (s.hide key).mapJoins id := by
    refine hide_mapJoins fun j _ => ?_
    by_cases hk : j.key = k
    · rw [if_pos hk, hf j hk, id]
    · rw [if_neg hk, id]
  rw [h, HostRoom.mapJoins, List.map_id]

theorem hide_broadcast (q : Queue) (pkt : Bytes) {pick : JoinEntry → Bool}
    (h : ∀ j, pick (hideEntry key j) = pick j) :
    (s.broadcast q pkt pick).hide key = (s.hide key).broadcast q pkt pick := by
  refine hide_mapJoins fun j _ => ?_
  rw [h]
  split_ifs
  · exact hideEntry_comm (·.enqueue q pkt) (fun _ => rfl) (fun _ => rfl) j
  · rfl

theorem hide_reply (k : ℕ) (pkts : List (Queue × Bytes)) :
    (s.reply k pkts).hide key = (s.hide key).reply k pkts :=
  hide_modify k fun j _ _ =>
    hideEntry_comm (fun j => { j with queued := j.queued ++ pkts }) (fun _ => rfl) (fun _ => rfl) j

theorem hide_enqueueHostSend {item : HostItem} (h : item.source ≠ some key) :
    (s.enqueueHostSend item).hide key = (s.hide key).enqueueHostSend item := by
  simp [HostRoom.hide, HostRoom.enqueueHostSend, HostRoom.mapJoins, h]

theorem hide_sendToHost (conn_id : ℕ) (pkt : Bytes) :
    (s.sendToHost conn_id pkt).hide key = (s.hide key).sendToHost conn_id pkt := by
  have hitem : (⟨none, conn_id, .data, pkt⟩ : HostItem).source ≠ some key := by simp
  unfold HostRoom.sendToHost
  rw [apply_ite (HostRoom.hide · key), hide_enqueueHostSend hitem]
  rfl

theorem hide_sendElsewhere (pkt : Bytes) :
    (s.sendElsewhere pkt).hide key = (s.hide key).sendElsewhere pkt := rfl

theorem hide_find (k : ℕ) : (s.hide key).find k = (s.find k).map (hideEntry key) := by
  unfold HostRoom.find
  rw [hide_joins, List.find?_map]
  simp only [Function.comp_def, hideEntry_key]

/-! ## The lists -/

/-- Who is not authenticated is in no list. -/
theorem filter_hide (joins : List JoinEntry) (p : JoinEntry → Bool)
    (h : ∀ j ∈ joins, j.key = key → p j = false ∧ p j.hidden = false) :
    (joins.map (hideEntry key)).filter p = joins.filter p := by
  induction joins with
  | nil => rfl
  | cons j joins ih =>
    have hrest := ih fun k hk => h k (List.mem_cons_of_mem j hk)
    rw [List.map_cons, List.filter_cons, List.filter_cons, hrest]
    by_cases hk : j.key = key
    · obtain ⟨hp, hhidden⟩ := h j List.mem_cons_self hk
      rw [hideEntry_self hk, hp, hhidden]
      simp
    · rw [hideEntry_ne hk]

theorem opList_hide (h : s.unauthed key = true) : (s.hide key).opList = s.opList := by
  have hops : HostRoom.operators (s.hide key).joins = HostRoom.operators s.joins := by
    unfold HostRoom.operators
    rw [hide_joins, filter_hide]
    intro j hj hk
    simp [unauthed_iff.mp h j hj hk, JoinEntry.hidden]
  unfold HostRoom.opList
  rw [hops]
  rfl

theorem hide_opList (h : s.unauthed key = true) :
    s.buildAndBroadcastOpList.hide key = (s.hide key).buildAndBroadcastOpList := by
  unfold HostRoom.buildAndBroadcastOpList
  dsimp only
  rw [opList_hide h, hide_sendToHost, hide_broadcast _ _ hideEntry_up]
  rfl

theorem newMask_hide (h : s.unauthed key = true) (ch orig : ℕ) :
    HostRoom.newMask (s.hide key).joins ch orig = HostRoom.newMask s.joins ch orig := by
  unfold HostRoom.newMask
  rw [hide_joins, filter_hide]
  intro j hj hk
  simp [unauthed_iff.mp h j hj hk, JoinEntry.hidden]

theorem rewriteMasks_hide (h : s.unauthed key = true) (n : ℕ) (sync : Bytes) :
    HostRoom.rewriteMasks (s.hide key).joins n sync = HostRoom.rewriteMasks s.joins n sync := by
  induction n with
  | zero => rfl
  | succ ch ih =>
    simp only [HostRoom.rewriteMasks]
    rw [ih, newMask_hide h]

theorem hide_chSync (b : Backend D) (h : s.unauthed key = true) (send_to_host : Bool) :
    (s.rebuildAndBroadcastChSync b send_to_host).hide key =
      (s.hide key).rebuildAndBroadcastChSync b send_to_host := by
  unfold HostRoom.rebuildAndBroadcastChSync
  dsimp only
  rw [rewriteMasks_hide h, hide_cached_ch_sync]
  generalize HostRoom.rewriteMasks s.joins MAX_CHANNELS_RELAY s.cached_ch_sync = base_sync
  generalize HostRoom.compressChsync b base_sync = out
  have hsent :
      HostRoom.hide { s.broadcast .ctrl out JoinEntry.up with cached_ch_sync := base_sync } key =
      { (s.hide key).broadcast .ctrl out JoinEntry.up with cached_ch_sync := base_sync } := by
    rw [← hide_broadcast _ _ hideEntry_up]
    rfl
  simp only [apply_ite (HostRoom.hide · key), hide_sendToHost, hsent]

theorem hide_dbList (b : Backend D) :
    (s.broadcastDbList b).hide key = (s.hide key).broadcastDbList b := by
  unfold HostRoom.broadcastDbList
  dsimp only
  rw [hide_broadcast _ _ (by simp), hide_enqueueHostSend (by simp)]
  rfl

theorem hide_modulePkt (pkt : Bytes) (sub_mod : Option Bytes) :
    (s.broadcastModulePkt pkt sub_mod).hide key = (s.hide key).broadcastModulePkt pkt sub_mod :=
  hide_broadcast _ _ (by simp)

theorem hide_chat (skip_join : Option ℕ) (pkt : Bytes) :
    (s.broadcastChat skip_join pkt).hide key = (s.hide key).broadcastChat skip_join pkt :=
  hide_broadcast _ _ (by simp)

theorem hide_applyEffect (b : Backend D) (e : Effect D) :
    (s.applyEffect b e).hide key = (s.hide key).applyEffect b e := by
  have hsent : (e.toHost.map fun p => (⟨none, p.1, .data, p.2⟩ : HostItem)).filter
      (fun item => item.source ≠ some key) = e.toHost.map fun p => ⟨none, p.1, .data, p.2⟩ := by
    rw [List.filter_eq_self]
    intro item hitem
    obtain ⟨p, -, rfl⟩ := List.mem_map.mp hitem
    simp
  unfold HostRoom.applyEffect
  dsimp only
  rw [apply_ite (HostRoom.hide · key), hide_dbList]
  simp only [HostRoom.hide, HostRoom.mapJoins, List.filter_append, hsent]

/-! ## From HOST -/

theorem hide_hostModulePipe (b : Backend D) (pkt : Bytes) :
    (s.handleHostModulePipe b pkt).hide key = (s.hide key).handleHostModulePipe b pkt := by
  unfold HostRoom.handleHostModulePipe
  cases HostRoom.modulePipe pkt with
  | none => rfl
  | some r =>
    dsimp only
    simp only [apply_ite (HostRoom.hide · key), hide_sendElsewhere, hide_modulePkt]
    rfl

theorem hide_cache (pkt : Bytes) : (s.cache pkt).hide key = (s.hide key).cache pkt := by
  unfold HostRoom.cache
  dsimp only
  simp only [apply_ite (HostRoom.hide · key)]
  rfl

theorem hideEntry_deliver (pkt : Bytes) (j : JoinEntry) :
    hideEntry key (HostRoom.deliver pkt j) = HostRoom.deliver pkt (hideEntry key j) := by
  refine hideEntry_comm _ (fun j => ?_) (fun j => ?_) j
  · unfold HostRoom.deliver
    dsimp only
    split_ifs <;> rfl
  · unfold HostRoom.deliver
    dsimp only
    simp only [apply_ite JoinEntry.hidden]
    rfl

theorem unauthed_of_serves {may : Bool → Bool → Prop} {s' : HostRoom D} (h : s.unauthed key = true)
    (hs : Serves may s s') : s'.unauthed key = true := by
  refine unauthed_iff.mpr fun j' hj' hk => ?_
  obtain ⟨j, hj, hserved⟩ := hs.mem hj'
  rw [hserved.authed]
  exact unauthed_iff.mp h j hj (hserved.key.symm.trans hk)

theorem unauthed_modify (h : s.unauthed key = true) (k : ℕ) {f : JoinEntry → JoinEntry}
    (hf : ∀ j, (f j).key = j.key ∧ (f j).authed = j.authed) : (s.modify k f).unauthed key = true := by
  refine unauthed_iff.mpr fun j' hj' hk => ?_
  obtain ⟨j, hj, rfl⟩ := List.mem_map.mp hj'
  split_ifs at hk ⊢
  · rw [(hf j).2]
    exact unauthed_iff.mp h j hj ((hf j).1.symm.trans hk)
  · exact unauthed_iff.mp h j hj hk

theorem hide_relayPacket (b : Backend D) (h : s.unauthed key = true) (conn_id : ℕ) (pkt : Bytes) :
    (s.relayPacket b conn_id pkt).hide key = (s.hide key).relayPacket b conn_id pkt := by
  have hserve : Serves toUp s (s.cache pkt) := serves_cache s pkt
  have hcache : (s.cache pkt).unauthed key = true := unauthed_of_serves h hserve
  unfold HostRoom.relayPacket
  dsimp only
  rw [← hide_cache]
  generalize s.cache pkt = t at hcache ⊢
  have hchSync : ∀ raw, HostRoom.hide
      (HostRoom.rebuildAndBroadcastChSync b { t with cached_ch_sync := raw } false) key =
      HostRoom.rebuildAndBroadcastChSync b { t.hide key with cached_ch_sync := raw } false := by
    intro raw
    have hraw : HostRoom.unauthed { t with cached_ch_sync := raw } key = true := hcache
    exact hide_chSync b hraw false
  have hgeneral : HostRoom.hide (HostRoom.mapJoins { t with disk := (b.onHost pkt t.disk).disk }
      fun j => if HostRoom.isTarget conn_id pkt j then HostRoom.deliver pkt j else j) key =
      HostRoom.mapJoins { t.hide key with disk := (b.onHost pkt t.disk).disk }
        fun j => if HostRoom.isTarget conn_id pkt j then HostRoom.deliver pkt j else j := by
    refine hide_mapJoins fun j _ => ?_
    have htarget : HostRoom.isTarget conn_id pkt (hideEntry key j) =
        HostRoom.isTarget conn_id pkt j := by
      simp [HostRoom.isTarget]
    rw [htarget, apply_ite (hideEntry key), hideEntry_deliver]
  have haudio : ∀ ch_idx : ℕ, HostRoom.hide (t.broadcast .audio pkt fun j =>
      j.up && j.authed && decide (conn_id = 0xFFFF ∨ conn_id = j.conn_id) &&
        j.recv_audio.getD ch_idx true) key =
      (t.hide key).broadcast .audio pkt fun j =>
        j.up && j.authed && decide (conn_id = 0xFFFF ∨ conn_id = j.conn_id) &&
          j.recv_audio.getD ch_idx true := fun ch_idx => hide_broadcast _ _ (by simp)
  cases HostRoom.rawChSync b pkt <;>
    simp only [apply_ite (HostRoom.hide · key), hide_applyEffect, hide_hostModulePipe, hchSync, haudio,
      hide_chat, hide_sendElsewhere, hgeneral, hide_disk]

theorem hide_findConn (conn_id : ℕ) :
    (s.hide key).joins.find? (fun j => j.conn_id = conn_id) =
      (s.joins.find? fun j => j.conn_id = conn_id).map (hideEntry key) := by
  rw [hide_joins, List.find?_map]
  simp only [Function.comp_def, hideEntry_conn_id]

theorem hide_answered (conn_id : ℕ) (ok : Bool) :
    (s.answered conn_id ok).hide key = (s.hide key).answered conn_id ok := by
  unfold HostRoom.answered
  rw [hide_findConn]
  cases s.joins.find? (fun j => j.conn_id = conn_id) with
  | none => rfl
  | some j =>
    simp only [Option.map_some, hideEntry_key]
    refine hide_modify j.key fun j _ _ => hideEntry_comm
      (fun j => { j with
        requests := j.requests.tail, accepted := if ok then j.requests.head? else j.accepted })
      (fun _ => rfl) (fun j => ?_) j
    -- who has sent nothing has no request to answer
    cases ok <;> rfl

theorem hide_acceptedEntry (conn_id : ℕ) (pkt : Bytes) :
    (s.hide key).acceptedEntry conn_id pkt =
      (s.acceptedEntry conn_id pkt).map fun e => (hideEntry key e.1, e.2) := by
  unfold HostRoom.acceptedEntry
  rw [hide_findConn]
  split
  · split_ifs
    · rfl
    · rw [Option.map_map, Option.map_map]
      rfl
  · rfl

theorem hide_mark (k : ℕ) (op_idx : UInt8) (pkt : Bytes) :
    (s.mark k op_idx pkt).hide key = (s.hide key).mark k op_idx pkt := by
  have hmod : (s.modify k fun j => { j with op_index := op_idx, authed := true }).hide key =
      (s.hide key).modify k fun j => { j with op_index := op_idx, authed := true } :=
    hide_modify k fun j _ _ => hideEntry_comm
      (fun j => { j with op_index := op_idx, authed := true }) (fun _ => rfl) (fun _ => rfl) j
  unfold HostRoom.mark
  rw [← hmod]
  rfl

theorem hide_dispatch (b : Backend D) (h : s.unauthed key = true) (conn_id : ℕ) (pkt : Bytes) :
    (s.dispatchToJoins b conn_id pkt).hide key = (s.hide key).dispatchToJoins b conn_id pkt := by
  unfold HostRoom.dispatchToJoins
  rw [hide_acceptedEntry]
  cases s.acceptedEntry conn_id pkt with
  | some e =>
    dsimp only [Option.map_some]
    rw [apply_ite (HostRoom.hide · key), hide_mark, hide_answered, hideEntry_key]
  | none =>
    have hrej : (s.rejected conn_id pkt).hide key = (s.hide key).rejected conn_id pkt := by
      unfold HostRoom.rejected
      rw [apply_ite (HostRoom.hide · key), hide_answered]
    have hun : (s.rejected conn_id pkt).unauthed key = true := by
      unfold HostRoom.rejected
      by_cases hack : (authAck pkt).isSome = true
      · rw [if_pos hack]
        unfold HostRoom.answered
        split
        · exact h
        · exact unauthed_modify h _ fun _ => ⟨rfl, rfl⟩
      · rw [if_neg hack]
        exact h
    dsimp only [Option.map_none]
    rw [apply_ite (HostRoom.hide · key), hide_relayPacket b hun, hrej]

theorem hide_welcome (b : Backend D) (h : s.unauthed key = true) :
    (s.welcome b).hide key = (s.hide key).welcome b := by
  unfold HostRoom.welcome
  rw [hide_accepting]
  split
  · rfl
  · rename_i k pkt _
    have hack : (s.queueAck k pkt).hide key = (s.hide key).queueAck k pkt := by
      refine hide_modify (s := { s with accepting := none }) k fun j _ _ => ?_
      exact hideEntry_comm (fun j => { j.enqueue .ctrl pkt with acked := true })
        (fun _ => rfl) (fun _ => rfl) j
    have hun : ((s.queueAck k pkt).reply k s.cachedPackets).unauthed key = true := by
      have h₀ : HostRoom.unauthed { s with accepting := none } key = true := h
      have h₁ : (s.queueAck k pkt).unauthed key = true :=
        unauthed_modify h₀ k fun _ => ⟨rfl, rfl⟩
      exact unauthed_modify h₁ k fun _ => ⟨rfl, rfl⟩
    have hcached : (s.hide key).cachedPackets = s.cachedPackets := rfl
    dsimp only
    rw [← hack, hcached, ← hide_reply, ← hide_opList hun, hide_disk, hide_reply]

/-! ## From another JOIN -/

theorem hide_joinModulePipe (b : Backend D) {k : ℕ} (hk : k ≠ key) (pkt : Bytes) :
    (s.handleJoinModulePipe b k pkt).hide key = (s.hide key).handleJoinModulePipe b k pkt := by
  unfold HostRoom.handleJoinModulePipe
  cases HostRoom.modulePipe pkt with
  | none => rfl
  | some r =>
    have hsub : ∀ f : JoinEntry → List Bytes,
        (s.modify k fun j => { j with mod_recv := f j }).hide key =
          (s.hide key).modify k fun j => { j with mod_recv := f j } := fun f =>
      hide_modify_ne hk fun _ => rfl
    dsimp only
    simp only [apply_ite (HostRoom.hide · key), hide_reply, hide_sendToHost, hide_sendElsewhere, hsub]
    rfl

theorem hide_interceptCmd (b : Backend D) (h : s.unauthed key = true) {k : ℕ} (hk : k ≠ key)
    (cmd : Bytes) :
    (s.hide key).interceptCmd b k cmd = (s.interceptCmd b k cmd).map (·.hide key) id := by
  have hrecv : ∀ ch_idx enable, (HostRoom.rebuildAndBroadcastChSync b (s.modify k fun j =>
      { j with recv_audio := j.recv_audio.set ch_idx enable }) true).hide key =
      HostRoom.rebuildAndBroadcastChSync b ((s.hide key).modify k fun j =>
        { j with recv_audio := j.recv_audio.set ch_idx enable }) true := by
    intro ch_idx enable
    have hun : (s.modify k fun j => { j with
        recv_audio := j.recv_audio.set ch_idx enable }).unauthed key = true :=
      unauthed_modify h k fun _ => ⟨rfl, rfl⟩
    rw [hide_chSync b hun]
    exact congrArg (HostRoom.rebuildAndBroadcastChSync b · true) (hide_modify_ne hk fun _ => rfl)
  have hfft : ∀ paused, (s.modify k fun j => { j with fft_paused := paused }).hide key =
      (s.hide key).modify k fun j => { j with fft_paused := paused } := fun paused =>
    hide_modify_ne hk fun _ => rfl
  have hcreate : ∀ ch_idx, (s.mapJoins fun j =>
      { j with recv_audio := j.recv_audio.set ch_idx true }).hide key =
      (s.hide key).mapJoins fun j => { j with recv_audio := j.recv_audio.set ch_idx true } :=
    fun ch_idx => hide_mapJoins fun j _ => hideEntry_comm
      (fun j => { j with recv_audio := j.recv_audio.set ch_idx true }) (fun _ => rfl)
      (fun _ => rfl) j
  unfold HostRoom.interceptCmd
  dsimp only
  simp only [apply_ite (Prod.map (HostRoom.hide · key) id), Prod.map_apply, id, hrecv, hfft, hcreate]

theorem hide_joinCmd (b : Backend D) (h : s.unauthed key = true) {k : ℕ} (hk : k ≠ key)
    (pkt : Bytes) :
    (s.hide key).handleJoinCmd b k pkt = (s.handleJoinCmd b k pkt).map (·.hide key) id := by
  unfold HostRoom.handleJoinCmd
  dsimp only
  simp only [apply_ite (Prod.map (HostRoom.hide · key) id), Prod.map_apply, id,
    hide_joinModulePipe b hk, hide_reply, hide_applyEffect, hide_chat, hide_sendElsewhere,
    hide_interceptCmd b h hk]
  rfl

theorem hide_interceptJoinCmd (b : Backend D) (h : s.unauthed key = true) {j : JoinEntry}
    (hk : j.key ≠ key) (pkt : Bytes) :
    (s.hide key).interceptJoinCmd b j pkt = (s.interceptJoinCmd b j pkt).map (·.hide key) id := by
  have hreq : ∀ r : AuthReq, (s.modify j.key fun j => { j with name := r.name, tier := r.tier }).hide
      key = (s.hide key).modify j.key fun j => { j with name := r.name, tier := r.tier } :=
    fun r => hide_modify_ne hk fun _ => rfl
  unfold HostRoom.interceptJoinCmd
  cases authReq pkt <;>
    simp only [apply_ite (Prod.map (HostRoom.hide · key) id), Prod.map_apply, id, hreq,
      hide_joinCmd b h hk]

theorem hide_without (j : JoinEntry) :
    (s.without j).hide key = (s.hide key).without (hideEntry key j) := by
  have hfilter : ((s.joins.filter fun k => k.key ≠ j.key).map (hideEntry key)) =
      (s.joins.map (hideEntry key)).filter fun k => k.key ≠ j.key := by
    rw [List.filter_map]
    simp only [Function.comp_def, hideEntry_key]
  have hsent : HostRoom.hide (if s.alive && s.opened then
        s.enqueueHostSend ⟨none, j.conn_id, .connClose, []⟩ else s) key =
      if s.alive && s.opened then (s.hide key).enqueueHostSend ⟨none, j.conn_id, .connClose, []⟩
      else s.hide key := by
    rw [apply_ite (HostRoom.hide · key), hide_enqueueHostSend (by simp)]
  have hjoins : (if s.alive && s.opened then
      s.enqueueHostSend ⟨none, j.conn_id, .connClose, []⟩ else s).joins = s.joins := by
    split <;> rfl
  unfold HostRoom.without
  dsimp only
  simp only [hideEntry_key, hideEntry_conn_id, hide_alive, hide_opened]
  rw [← hsent]
  generalize (if s.alive && s.opened then
    s.enqueueHostSend ⟨none, j.conn_id, .connClose, []⟩ else s) = t at hjoins ⊢
  simp only [HostRoom.hide, HostRoom.mapJoins, hjoins, ← hfilter, List.length_map]

theorem hide_joinExit (h : s.unauthed key = true) (j : JoinEntry) :
    (s.joinExit j).hide key = (s.hide key).joinExit (hideEntry key j) := by
  have hun : (s.without j).unauthed key = true := by
    refine unauthed_iff.mpr fun k hk => ?_
    rw [without_joins] at hk
    exact unauthed_iff.mp h k (List.mem_of_mem_filter hk)
  unfold HostRoom.joinExit
  rw [apply_ite (HostRoom.hide · key), hide_opList hun, hide_without, hideEntry_authed]
  rfl

theorem hide_passOn (h : s.unauthed key = true) {j : JoinEntry} (hk : j.key ≠ key) (pkt : Bytes) :
    (s.passOn j pkt).hide key = (s.hide key).passOn j pkt := by
  have hsource : (⟨some j.key, j.conn_id, .data, pkt⟩ : HostItem).source ≠ some key := fun hc =>
    hk (Option.some.inj hc)
  have hpass : ((s.enqueueHostSend ⟨some j.key, j.conn_id, .data, pkt⟩).modify j.key fun j =>
        { j with requests := j.requests ++ (authReq pkt).toList }).hide key =
      ((s.hide key).enqueueHostSend ⟨some j.key, j.conn_id, .data, pkt⟩).modify j.key fun j =>
        { j with requests := j.requests ++ (authReq pkt).toList } := by
    rw [← hide_enqueueHostSend hsource]
    exact hide_modify_ne hk fun _ => rfl
  unfold HostRoom.passOn
  rw [apply_ite (HostRoom.hide · key), hpass, hide_joinExit h, hideEntry_ne hk]
  rfl

theorem unauthed_interceptJoinCmd (b : Backend D) (h : s.unauthed key = true) {j : JoinEntry}
    (hj : ∀ k ∈ s.joins, k.key = j.key → k.authed = j.authed) (pkt : Bytes) :
    (s.interceptJoinCmd b j pkt).1.unauthed key = true := by
  rcases interceptJoinCmd_cases b s j pkt with ⟨c, hi, -⟩ | ⟨r, -, hi⟩ | ⟨hauth, -, hi⟩
  · rw [hi]
    exact h
  · rw [hi]
    exact unauthed_modify h _ fun _ => ⟨rfl, rfl⟩
  · rw [hi]
    exact unauthed_of_serves h
      (serves_joinCmd b s j.key pkt fun k hk hkey => (hj k hk hkey).trans hauth)

theorem hide_joinLoop (b : Backend D) (hs : Keyed s) (h : s.unauthed key = true) {j : JoinEntry}
    (hj : j ∈ s.joins) (hk : j.key ≠ key) :
    (s.joinLoop b j).hide key = (s.hide key).joinLoop b j := by
  unfold HostRoom.joinLoop
  cases receive j.inbuf with
  | more => rfl
  | oversized =>
    dsimp only
    rw [hide_joinExit h, hideEntry_ne hk]
  | packet pkt rest =>
    have hbuf : (s.modify j.key fun j => { j with inbuf := rest }).hide key =
        (s.hide key).modify j.key fun j => { j with inbuf := rest } :=
      hide_modify_ne hk fun _ => rfl
    have hun : (s.modify j.key fun j => { j with inbuf := rest }).unauthed key = true :=
      unauthed_modify h _ fun _ => ⟨rfl, rfl⟩
    have hauth := hs.authed_modify hj (f := fun j => { j with inbuf := rest }) fun _ => ⟨rfl, rfl⟩
    dsimp only
    rw [← hbuf, hide_interceptJoinCmd b hun hk]
    have hun₂ := unauthed_interceptJoinCmd b hun hauth pkt
    generalize HostRoom.interceptJoinCmd b _ j pkt = p at hun₂ ⊢
    obtain ⟨s₂, consumed⟩ := p
    dsimp only [Prod.map_apply, id] at hun₂ ⊢
    rw [apply_ite (HostRoom.hide · key), hide_passOn hun₂ hk]

/-! ## From the JOIN itself -/

@[simp] theorem unauthed_hide : (s.hide key).unauthed key = s.unauthed key := by
  unfold HostRoom.unauthed
  rw [hide_joins, List.all_map]
  simp only [Function.comp_def, hideEntry_key, hideEntry_authed]

/-- A packet that is received has a header. -/
theorem receive_length {inbuf pkt rest : Bytes} (h : receive inbuf = .packet pkt rest) :
    BEWE_HDR_SIZE ≤ pkt.length := by
  unfold receive at h
  dsimp only at h
  split_ifs at h with h₁ h₂ h₃
  obtain ⟨rfl, -⟩ := Received.packet.inj h
  rw [List.length_take]
  omega

/-- Of a JOIN that is not authenticated only requests are not consumed, and they change no more than
what is hidden. -/
theorem hide_interceptJoinCmd_self (b : Backend D) {j : JoinEntry} (hauth : j.authed = false)
    {pkt : Bytes} (hlen : BEWE_HDR_SIZE ≤ pkt.length) :
    (s.interceptJoinCmd b j pkt).1.hide j.key = s.hide j.key ∧
      (s.interceptJoinCmd b j pkt).2 = (pktType pkt != BEWE_TYPE_AUTH_REQ) := by
  unfold HostRoom.interceptJoinCmd
  rw [if_neg (not_lt.mpr hlen)]
  by_cases hreq : pktType pkt = BEWE_TYPE_AUTH_REQ
  · rw [if_neg (by simp [hreq]), if_pos hreq]
    cases authReq pkt with
    | none => exact ⟨rfl, by simp [hreq]⟩
    | some r =>
      refine ⟨hide_modify_hidden j.key fun k hk => ?_, by simp [hreq]⟩
      rw [hideEntry_self hk, hideEntry_self (j := { k with name := r.name, tier := r.tier }) hk]
      rfl
  · rw [if_pos (by simp [hauth, hreq])]
    exact ⟨rfl, by simp [hreq]⟩

theorem hide_passOn_self {j : JoinEntry} (h : s.unauthed j.key = true) (pkt : Bytes) :
    (s.passOn j pkt).hide j.key =
      if s.alive && s.opened then s.hide j.key else (s.hide j.key).joinExit j.hidden := by
  have hqueue : (s.enqueueHostSend ⟨some j.key, j.conn_id, .data, pkt⟩).hide j.key = s.hide j.key := by
    simp [HostRoom.hide, HostRoom.enqueueHostSend, HostRoom.mapJoins]
  have hpass : ((s.enqueueHostSend ⟨some j.key, j.conn_id, .data, pkt⟩).modify j.key fun j =>
      { j with requests := j.requests ++ (authReq pkt).toList }).hide j.key = s.hide j.key := by
    rw [← hqueue]
    refine hide_modify_hidden j.key fun k hk => ?_
    rw [hideEntry_self hk, hideEntry_self (j := { k with
      requests := k.requests ++ (authReq pkt).toList }) hk]
    rfl
  unfold HostRoom.passOn
  rw [apply_ite (HostRoom.hide · j.key), hpass, hide_joinExit h, hideEntry_self rfl]

theorem hide_joinLoop_self (b : Backend D) {j : JoinEntry} (hfind : s.find j.key = some j)
    (h : s.unauthed j.key = true) (hup : (j.alive && s.alive) = true) :
    (s.joinLoop b j).hide j.key =
      if s.drops j.key then (s.hide j.key).joinExit j.hidden else s.hide j.key := by
  have hauth : j.authed = false := unauthed_iff.mp h j (find_eq_some hfind).1 rfl
  have halive : s.alive = true := (Bool.and_eq_true_iff.mp hup).2
  unfold HostRoom.joinLoop HostRoom.drops
  rw [hfind, Option.any_some, hup, Bool.true_and]
  cases hrecv : receive j.inbuf with
  | more => rfl
  | oversized =>
    dsimp only
    rw [if_pos rfl, hide_joinExit h, hideEntry_self rfl]
  | packet pkt rest =>
    have hbuf : (s.modify j.key fun j => { j with inbuf := rest }).hide j.key = s.hide j.key := by
      refine hide_modify_hidden j.key fun k hk => ?_
      rw [hideEntry_self hk, hideEntry_self (j := { k with inbuf := rest }) hk]
      rfl
    dsimp only
    obtain ⟨hhide, hconsumed⟩ := hide_interceptJoinCmd_self (s := s.modify j.key fun j =>
      { j with inbuf := rest }) b hauth (receive_length hrecv)
    rw [hbuf] at hhide
    generalize HostRoom.interceptJoinCmd b _ j pkt = p at hhide hconsumed ⊢
    obtain ⟨s₂, consumed⟩ := p
    dsimp only at hhide hconsumed ⊢
    subst hconsumed
    have halive₂ : s₂.alive = s.alive := by simpa using congrArg HostRoom.alive hhide
    have hopen₂ : s₂.opened = s.opened := by simpa using congrArg HostRoom.opened hhide
    have hun₂ : s₂.unauthed j.key = true := by
      rw [← unauthed_hide, hhide, unauthed_hide, h]
    rw [apply_ite (HostRoom.hide · j.key), hide_passOn_self hun₂, hhide, halive₂, hopen₂, halive]
    by_cases hreq : pktType pkt = BEWE_TYPE_AUTH_REQ
    · cases s.opened <;> simp [hreq]
    · simp [hreq]

/-! ## Steps -/

/-- A step on a room, and on the room without what the JOIN has sent. -/
theorem hide_step (b : Backend D) {e : Event D} (hs : Keyed s) (h : s.unauthed key = true)
    (hen : e.enabled s = true) :
    Run (RoomStep b) (s.hide key) (e.silent key s) ((e.apply b s).hide key) := by
  -- an event that is left as it is
  have hone : ∀ e : Event D, e.enabled (s.hide key) = true → ∀ t, t = e.apply b (s.hide key) →
      Run (RoomStep b) (s.hide key) [e] t := fun e hen t ht => Run.cons ⟨hen, ht⟩ (Run.nil t)
  have hfound : ∀ k, ((s.hide key).find k).isSome = (s.find k).isSome := fun k => by
    rw [hide_find, Option.isSome_map]
  cases e with
  | connect =>
    refine hone _ hen _ ?_
    have hnew : hideEntry key (HostRoom.newEntry s.nextKey s.next_conn_id) =
        HostRoom.newEntry s.nextKey s.next_conn_id := by
      unfold hideEntry
      split_ifs <;> rfl
    simp [Event.apply, HostRoom.joinRoom, HostRoom.hide, HostRoom.mapJoins, HostRoom.enqueueHostSend,
      hnew]
  | arrive k bytes =>
    simp only [Event.silent, Event.apply]
    by_cases hk : k = key
    · rw [if_pos hk, hide_modify_hidden k fun j hj => ?_]
      · exact Run.nil _
      rw [hideEntry_self (hj.trans hk),
        hideEntry_self (j := { j with inbuf := j.inbuf ++ bytes }) (hj.trans hk)]
      rfl
    · rw [if_neg hk]
      exact hone (.arrive k bytes) ((hfound k).trans hen) _ (hide_modify_ne hk fun _ => rfl)
  | read k =>
    obtain ⟨j, hfind⟩ := Option.isSome_iff_exists.mp hen
    obtain ⟨hj, rfl⟩ := find_eq_some hfind
    have hfind' : (s.hide key).find j.key = some (hideEntry key j) := by
      rw [hide_find, hfind, Option.map_some]
    simp only [Event.silent, Event.apply, hfind]
    by_cases hk : j.key = key
    · subst hk
      rw [hideEntry_self rfl] at hfind'
      by_cases hup : (j.alive && s.alive) = true
      · rw [if_pos hup, hide_joinLoop_self b hfind h hup]
        by_cases hdrops : s.drops j.key = true
        · rw [if_pos ⟨rfl, hdrops⟩, if_pos hdrops]
          refine hone (.hangup j.key) ((hfound j.key).trans hen) _ ?_
          simp only [Event.apply, hfind']
        · rw [if_neg fun hc => hdrops hc.2, if_neg hdrops]
          refine hone (.read j.key) ((hfound j.key).trans hen) _ ?_
          -- nothing has been received, so nothing is read
          have hup' : (j.hidden.alive && (s.hide j.key).alive) = true := hup
          simp only [Event.apply, hfind']
          rw [if_pos hup']
          rfl
      · have hdrops : ¬ s.drops j.key = true := by
          unfold HostRoom.drops
          rw [hfind, Option.any_some]
          exact fun hc => hup (Bool.and_eq_true_iff.mp hc).1
        rw [if_neg fun hc => hdrops hc.2, if_neg hup, hide_joinExit h, hideEntry_self rfl]
        refine hone (.read j.key) ((hfound j.key).trans hen) _ ?_
        have hup' : ¬ (j.hidden.alive && (s.hide j.key).alive) = true := hup
        simp only [Event.apply, hfind']
        rw [if_neg hup']
    · rw [if_neg fun hc => hk hc.1]
      refine hone (.read j.key) ((hfound j.key).trans hen) _ ?_
      simp only [Event.apply, hfind', hideEntry_ne hk]
      rw [apply_ite (HostRoom.hide · key), hide_joinLoop b hs h hj hk, hide_joinExit h, hideEntry_ne hk]
      rfl
  | sendFailed k =>
    refine hone (.sendFailed k) ((hfound k).trans hen) _ (hide_modify k fun j _ _ => ?_)
    exact hideEntry_comm (fun j => { j with alive := false }) (fun _ => rfl) (fun _ => rfl) j
  | hangup k =>
    refine hone (.hangup k) ((hfound k).trans hen) _ ?_
    simp only [Event.apply, hide_find]
    cases s.find k with
    | none => rfl
    | some j => exact hide_joinExit h j
  | host conn_id pkt => exact hone _ hen _ (hide_dispatch b h conn_id pkt)
  | welcome => exact hone _ hen _ (hide_welcome b h)
  | hostHb first user_count =>
    refine hone _ hen _ ?_
    simp only [Event.apply]
    rw [← hide_dbList, ← apply_ite (HostRoom.hide · key)]
    rfl
  | hostState operator_login => exact hone _ hen _ rfl
  | diskStat p => exact hone _ hen _ (hide_broadcast _ _ (by simp))
  | stored disk => exact hone _ hen _ rfl
  | chat pkt =>
    refine hone _ hen _ ?_
    simp only [Event.apply, hide_sendToHost, hide_chat]
  | modulePkt pkt sub_mod => exact hone _ hen _ (hide_modulePkt pkt sub_mod)
  | toHost pkt => exact hone _ hen _ (hide_sendToHost _ pkt)
  | close => exact hone _ hen _ rfl

/-! ## What is passed on -/

theorem joinExit_passed (s : HostRoom D) (j : JoinEntry) : (s.joinExit j).passed = s.passed := by
  have hwithout : (s.without j).passed = s.passed :=
    congrArg (fun x => x.2.2.2.2) (without_frame s j)
  unfold HostRoom.joinExit
  split_ifs
  · exact (serves_opList _).passed.trans hwithout
  · exact hwithout

theorem answered_passed (conn_id : ℕ) (ok : Bool) : (s.answered conn_id ok).passed = s.passed := by
  unfold HostRoom.answered
  split <;> rfl

theorem dispatch_passed (b : Backend D) (conn_id : ℕ) (pkt : Bytes) :
    (s.dispatchToJoins b conn_id pkt).passed = s.passed := by
  unfold HostRoom.dispatchToJoins
  by_cases hlen : pkt.length < BEWE_HDR_SIZE
  · rw [if_pos hlen]
  rw [if_neg hlen]
  cases s.acceptedEntry conn_id pkt with
  | some e => exact answered_passed conn_id true
  | none =>
    refine (serves_relayPacket b _ conn_id pkt).passed.trans ?_
    unfold HostRoom.rejected
    split_ifs
    · exact answered_passed conn_id false
    · rfl

theorem welcome_passed (b : Backend D) : (s.welcome b).passed = s.passed := by
  unfold HostRoom.welcome
  split
  · rfl
  · rename_i key pkt _
    have hack : ((s.queueAck key pkt).reply key s.cachedPackets).passed = s.passed := rfl
    exact (serves_opList _).passed.trans hack

theorem joinLoop_passed (b : Backend D) (hs : Keyed s) {j : JoinEntry} (hj : j ∈ s.joins) :
    (s.joinLoop b j).passed = s.passed ∨
      ∃ pkt, (s.joinLoop b j).passed = s.passed ++ [⟨some j.key, j.conn_id, .data, pkt⟩] ∧
        (j.authed = true ∨ pktType pkt = BEWE_TYPE_AUTH_REQ) := by
  unfold HostRoom.joinLoop
  cases hrecv : receive j.inbuf with
  | more => exact Or.inl rfl
  | oversized => exact Or.inl (joinExit_passed s j)
  | packet pkt rest =>
    have hauth := hs.authed_modify hj (f := fun j => { j with inbuf := rest }) fun _ => ⟨rfl, rfl⟩
    have hpassed : (s.modify j.key fun j => { j with inbuf := rest }).passed = s.passed := rfl
    dsimp only
    generalize (s.modify j.key fun j => { j with inbuf := rest }) = s₁ at hauth hpassed ⊢
    -- what is intercepted passes nothing on, and of who is not authenticated only requests go further
    have hicept : (s₁.interceptJoinCmd b j pkt).1.passed = s.passed ∧
        ((s₁.interceptJoinCmd b j pkt).2 = false →
          j.authed = true ∨ pktType pkt = BEWE_TYPE_AUTH_REQ) := by
      have hlen := receive_length hrecv
      rcases interceptJoinCmd_cases b s₁ j pkt with ⟨c, hi, hreq, -⟩ | ⟨r, hr, hi⟩ | ⟨ha, -, hi⟩
      · rw [hi]
        exact ⟨hpassed, fun hc => Or.inr ((hreq hc).resolve_left (not_lt.mpr hlen))⟩
      · rw [hi]
        refine ⟨hpassed, fun _ => Or.inr ?_⟩
        unfold authReq at hr
        split_ifs at hr with hreq
        exact hreq.1
      · rw [hi]
        have hserve := serves_joinCmd b s₁ j.key pkt fun k hk hkey => (hauth k hk hkey).trans ha
        exact ⟨hserve.passed.trans hpassed, fun _ => Or.inl ha⟩
    generalize s₁.interceptJoinCmd b j pkt = p at hicept ⊢
    obtain ⟨s₂, consumed⟩ := p
    obtain ⟨hpassed₂, hmay⟩ := hicept
    dsimp only at hpassed₂ hmay ⊢
    cases consumed with
    | true => exact Or.inl hpassed₂
    | false =>
      simp only [Bool.false_eq_true, if_false]
      unfold HostRoom.passOn
      split_ifs
      · refine Or.inr ⟨pkt, ?_, hmay rfl⟩
        rw [← hpassed₂]
        simp [HostRoom.passed, HostRoom.enqueueHostSend, HostRoom.modify, HostRoom.mapJoins]
      · exact Or.inl ((joinExit_passed s₂ j).trans hpassed₂)

/-- A step passes on one packet at most, of a JOIN that is authenticated or asks to be. -/
theorem passed_step (b : Backend D) {s' : HostRoom D} {e : Event D} (hs : Keyed s)
    (hstep : RoomStep b s e s') :
    s'.passed = s.passed ∨ ∃ j ∈ s.joins, ∃ pkt,
      s'.passed = s.passed ++ [⟨some j.key, j.conn_id, .data, pkt⟩] ∧
        (j.authed = true ∨ pktType pkt = BEWE_TYPE_AUTH_REQ) := by
  obtain ⟨-, rfl⟩ := hstep
  cases e with
  | read k =>
    simp only [Event.apply]
    cases hfind : s.find k with
    | none => exact Or.inl rfl
    | some j =>
      dsimp only
      split_ifs
      · exact (joinLoop_passed b hs (find_eq_some hfind).1).imp_right fun h =>
          ⟨j, (find_eq_some hfind).1, h⟩
      · exact Or.inl (joinExit_passed s j)
  | connect =>
    left
    simp [Event.apply, HostRoom.joinRoom, HostRoom.passed, HostRoom.enqueueHostSend]
  | hangup k =>
    left
    simp only [Event.apply]
    split
    · exact joinExit_passed s _
    · rfl
  | host conn_id pkt => exact Or.inl (dispatch_passed b conn_id pkt)
  | welcome => exact Or.inl (welcome_passed b)
  | hostHb first user_count =>
    left
    have hlist : (if first then s.broadcastDbList b else s).passed = s.passed := by
      split_ifs
      · exact (serves_dbList b s).passed
      · rfl
    exact hlist
  | chat pkt => exact Or.inl (serves_chatEvent b s pkt).passed
  | toHost pkt =>
    have hserve : Serves toUp s (s.sendToHost 0xFFFF pkt) := serves_sendToHost s 0xFFFF pkt
    exact Or.inl hserve.passed
  | arrive _ _ | sendFailed _ | hostState _ | diskStat _ | stored _ | modulePkt _ _ | close =>
    exact Or.inl rfl

end

/-! ## Runs -/

/-- A step before which a JOIN is not authenticated. -/
def UnauthedStep (b : Backend D) (key : ℕ) (s : HostRoom D) (e : Event D) (s' : HostRoom D) : Prop :=
  s.unauthed key = true ∧ RoomStep b s e s'

theorem hide_sendCached {s : HostRoom D} {key : ℕ} (cached : Bytes) (h : s.hide key = s) :
    (if cached ≠ [] then s.sendToHost 0xFFFF cached else s).hide key =
      if cached ≠ [] then s.sendToHost 0xFFFF cached else s := by
  rw [apply_ite (HostRoom.hide · key), hide_sendToHost, h]

section

variable (station_id host_name : Bytes) (host_tier : UInt8) (sched mission : Bytes) (disk : D)

/-- Nothing has been sent to a room that was just opened. -/
theorem hide_openRoom (key : ℕ) :
    (HostRoom.openRoom station_id host_name host_tier sched mission disk).hide key =
      HostRoom.openRoom station_id host_name host_tier sched mission disk := by
  unfold HostRoom.openRoom
  dsimp only
  rw [hide_opList, hide_sendCached mission (hide_sendCached sched rfl)]
  unfold HostRoom.sendToHost
  split_ifs <;> rfl

/-- The events of a run, as they would be had the JOIN sent nothing, are a run, and lead to the room
without what it has sent. -/
theorem hide_of_run (b : Backend D) (key : ℕ) {es : List (Event D)} {s t : HostRoom D}
    (h : Run (UnauthedStep b key) s es t) (hs : Keyed s) :
    Run (RoomStep b) (s.hide key) (silenced b key s es) (t.hide key) := by
  induction h with
  | nil s => exact Run.nil _
  | cons hstep _ ih =>
    obtain ⟨hun, hen, rfl⟩ := hstep
    have hstep := hide_step b hs hun hen
    exact hstep.append (ih (keyed_step b hs ⟨hen, rfl⟩))

/-- Until a JOIN is authenticated, the room without what it has sent is the room in which it has
sent nothing; and only its requests have been passed on to HOST. -/
theorem silenced_of_run (b : Backend D) (key : ℕ) (es : List (Event D)) (s : HostRoom D)
    (h : Run (UnauthedStep b key)
      (HostRoom.openRoom station_id host_name host_tier sched mission disk) es s) :
    Run (RoomStep b) (HostRoom.openRoom station_id host_name host_tier sched mission disk)
        (silenced b key (HostRoom.openRoom station_id host_name host_tier sched mission disk) es)
        (s.hide key) ∧
      ∀ item ∈ s.host_send_queue, item.source = some key →
        pktType item.bytes = BEWE_TYPE_AUTH_REQ := by
  have hkeyed := keyed_openRoom station_id host_name host_tier sched mission disk
  have hopen := hide_openRoom station_id host_name host_tier sched mission disk key
  refine ⟨?_, fun item hitem hsource => ?_⟩
  · rw [← hopen]
    have hrun := hide_of_run b key h hkeyed
    rwa [hopen] at hrun ⊢
  · have hinv : Keyed s ∧ ∀ item ∈ s.passed, item.source = some key →
        pktType item.bytes = BEWE_TYPE_AUTH_REQ := by
      refine h.invariant (P := fun s => Keyed s ∧ ∀ item ∈ s.passed, item.source = some key →
        pktType item.bytes = BEWE_TYPE_AUTH_REQ) ?_ ⟨hkeyed, fun item hitem hsource => ?_⟩
      · rintro s e s' ⟨hun, hstep⟩ ⟨hs, hq⟩
        refine ⟨keyed_step b hs hstep, fun item hitem hsource => ?_⟩
        rcases passed_step b hs hstep with heq | ⟨j, hj, pkt, heq, hmay⟩
        · rw [heq] at hitem
          exact hq item hitem hsource
        · rw [heq] at hitem
          rcases List.mem_append.mp hitem with hold | hnew
          · exact hq item hold hsource
          · rw [List.mem_singleton.mp hnew] at hsource ⊢
            have hauth := unauthed_iff.mp hun j hj (Option.some.inj hsource)
            exact hmay.resolve_left (by simp [hauth])
      · -- what is in the queue of the room as it opens has not come from a JOIN
        rw [← hopen] at hitem
        have hhidden := List.mem_filter.mp (List.mem_of_mem_filter hitem)
        simp [hsource] at hhidden
    exact hinv.2 item (List.mem_filter.mpr ⟨hitem, by rw [hsource]; rfl⟩) hsource

end

/-- The first JOIN of a room asks for the list of the database, and to be authenticated; HOST
rejects it. -/
def refused : List (Event Unit) :=
  [.connect, .arrive 0 (makeBewePacket BEWE_TYPE_DB_LIST_REQ [] ++ authReqPkt (ascii "a") 2), .read 0,
    .read 0, .host 1 (authAckPkt 0 0)]

theorem silenced_of_run_refused :
    Run (RoomStep nothingStored) emptyRoom (silenced nothingStored 0 emptyRoom refused)
        ((emptyRoom.after nothingStored refused).hide 0) ∧
      ∀ item ∈ (emptyRoom.after nothingStored refused).host_send_queue, item.source = some 0 →
        pktType item.bytes = BEWE_TYPE_AUTH_REQ :=
  silenced_of_run (ascii "A") (ascii "A") 1 [] [] () nothingStored 0 refused _
    (run_of_canRun nothingStored (fun _ s => s.unauthed 0) refused emptyRoom (by decide))

/-- The bytes that a JOIN sends. -/
def Event.sends (key : ℕ) : Event D → Bool
  | .arrive k _ => k == key
  | _ => false

/-- A header that says too long a packet ends the connection: one JOIN less is in the room than if
it had sent nothing. -/
theorem dropped_by_oversized :
    ¬ ∀ (b : Backend Unit) (key : ℕ) (es : List (Event Unit)) (s t : HostRoom Unit),
      Run (UnauthedStep b key) emptyRoom es s →
        Run (RoomStep b) emptyRoom (es.filter fun e => !e.sends key) t → s.hide key = t := by
  intro hclaim
  have h := hclaim nothingStored 0
    [.connect, .arrive 0 (ascii "BEWE" ++ BEWE_TYPE_AUTH_REQ :: leBytes 4 (BEWE_LEN_MAX + 1)),
      .read 0] _ _
    (run_of_canRun nothingStored (fun _ s => s.unauthed 0) _ emptyRoom (by decide))
    ((run_of_canRun nothingStored (fun _ _ => true) _ emptyRoom (by decide)).mono
      fun _ _ _ hstep => hstep.2)
  exact absurd (congrArg HostRoom.user_count h) (by decide)

end Bewe.Relay

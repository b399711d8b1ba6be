import Bewe.Relay.Room

/-!
# What the relay does to its entries

Most of what happens in a room queues packets to some of its JOINs and changes nothing of who they
are. `Serves` says so, with the condition under which a JOIN may be given a packet that is not an
AUTH_ACK, and there is one lemma for each function of `Room.lean`. Only the lists of operators and
of channels go to every JOIN that is connected; all else asks whether the JOIN is authenticated.
-/

namespace Bewe.Relay

variable {D : Type}

/-- An entry before and after: who it is stays, and packets are queued that it may have. -/
structure Served (may : Bool → Bool → Prop) (j j' : JoinEntry) : Prop where
  key : j'.key = j.key
  conn_id : j'.conn_id = j.conn_id
  opened : j'.opened = j.opened
  alive : j'.alive = j.alive
  name : j'.name = j.name
  tier : j'.tier = j.tier
  authed : j'.authed = j.authed
  requests : j'.requests = j.requests
  accepted : j'.accepted = j.accepted
  acked : j'.acked = j.acked
  queued : ∃ new, j'.queued = j.queued ++ new ∧
    ∀ p ∈ new, may j.authed j.up ∨ pktType p.2 = BEWE_TYPE_AUTH_ACK

/-- The packets of JOINs that were passed on. -/
def HostRoom.passed (s : HostRoom D) : List HostItem :=
  s.host_send_queue.filter fun item => item.source.isSome

/-- What a room says of itself: the acceptance in progress, whether it is open, the next entry, what
JOINs have passed on. -/
def HostRoom.frame (s : HostRoom D) : Option (ℕ × Bytes) × Bool × Bool × ℕ × List HostItem :=
  (s.accepting, s.alive, s.opened, s.nextKey, s.passed)

/-- A room before and after: each entry is served, and the room is what it was. -/
structure Serves (may : Bool → Bool → Prop) (s s' : HostRoom D) : Prop where
  joins : ∃ f, s'.joins = s.joins.map f ∧ ∀ j ∈ s.joins, Served may j (f j)
  frame : s'.frame = s.frame

/-- Packets for those who are authenticated. -/
def toAuthed (authed _ : Bool) : Prop := authed = true

/-- Packets for those who are connected. -/
def toUp (authed up : Bool) : Prop := authed = true ∨ up = true

variable {may : Bool → Bool → Prop}

theorem Served.refl (j : JoinEntry) : Served may j j :=
  ⟨rfl, rfl, rfl, rfl, rfl, rfl, rfl, rfl, rfl, rfl, [], by simp, by simp⟩

theorem Served.trans {j k l : JoinEntry} (h₁ : Served may j k) (h₂ : Served may k l) :
    Served may j l := by
  obtain ⟨new₁, hq₁, hn₁⟩ := h₁.queued
  obtain ⟨new₂, hq₂, hn₂⟩ := h₂.queued
  have hup : k.up = j.up := by rw [JoinEntry.up, h₁.alive, h₁.opened, JoinEntry.up]
  rw [h₁.authed, hup] at hn₂
  refine ⟨h₂.key.trans h₁.key, h₂.conn_id.trans h₁.conn_id, h₂.opened.trans h₁.opened,
    h₂.alive.trans h₁.alive, h₂.name.trans h₁.name, h₂.tier.trans h₁.tier,
    h₂.authed.trans h₁.authed, h₂.requests.trans h₁.requests, h₂.accepted.trans h₁.accepted,
    h₂.acked.trans h₁.acked, new₁ ++ new₂, by rw [hq₂, hq₁, List.append_assoc], fun p hp => ?_⟩
  rcases List.mem_append.mp hp with hp | hp
  · exact hn₁ p hp
  · exact hn₂ p hp

theorem Served.mono {may' : Bool → Bool → Prop} (hmay : ∀ a u, may a u → may' a u)
    {j j' : JoinEntry} (h : Served may j j') : Served may' j j' := by
  obtain ⟨new, hq, hn⟩ := h.queued
  exact ⟨h.key, h.conn_id, h.opened, h.alive, h.name, h.tier, h.authed, h.requests, h.accepted,
    h.acked, new, hq, fun p hp => (hn p hp).imp_left (hmay _ _)⟩

/-- A packet is queued to an entry that may have it. -/
theorem served_enqueue (j : JoinEntry) (q : Queue) (pkt : Bytes)
    (h : may j.authed j.up ∨ pktType pkt = BEWE_TYPE_AUTH_ACK) : Served may j (j.enqueue q pkt) :=
  ⟨rfl, rfl, rfl, rfl, rfl, rfl, rfl, rfl, rfl, rfl, [(q, pkt)], rfl, by simpa using h⟩

/-! ## Rooms -/

/-- Nothing happens to the entries. -/
theorem serves_of_eq {s s' : HostRoom D} (hj : s'.joins = s.joins)
    (ha : s'.frame = s.frame) : Serves may s s' :=
  ⟨⟨id, by rw [hj, List.map_id], fun j _ => Served.refl j⟩, ha⟩

theorem Serves.refl (s : HostRoom D) : Serves may s s := serves_of_eq rfl rfl

theorem Serves.trans {s t u : HostRoom D} (h₁ : Serves may s t) (h₂ : Serves may t u) :
    Serves may s u := by
  obtain ⟨⟨f, hf, hsf⟩, ha₁⟩ := h₁
  obtain ⟨⟨g, hg, hsg⟩, ha₂⟩ := h₂
  refine ⟨⟨g ∘ f, by rw [hg, hf, List.map_map], fun j hj => ?_⟩, ha₂.trans ha₁⟩
  exact (hsf j hj).trans (hsg (f j) (by rw [hf]; exact List.mem_map_of_mem hj))

theorem Serves.mono {may' : Bool → Bool → Prop} (hmay : ∀ a u, may a u → may' a u)
    {s t : HostRoom D} (h : Serves may s t) : Serves may' s t := by
  obtain ⟨⟨f, hf, hs⟩, ha⟩ := h
  exact ⟨⟨f, hf, fun j hj => (hs j hj).mono hmay⟩, ha⟩

theorem Serves.accepting {s s' : HostRoom D} (h : Serves may s s') : s'.accepting = s.accepting :=
  congrArg Prod.fst h.frame

theorem Serves.nextKey {s s' : HostRoom D} (h : Serves may s s') : s'.nextKey = s.nextKey :=
  congrArg (fun x => x.2.2.2.1) h.frame

theorem Serves.passed {s s' : HostRoom D} (h : Serves may s s') : s'.passed = s.passed :=
  congrArg (fun x => x.2.2.2.2) h.frame

/-- An entry after is one of before, served. -/
theorem Serves.mem {s s' : HostRoom D} (h : Serves may s s') {j' : JoinEntry} (hj : j' ∈ s'.joins) :
    ∃ j ∈ s.joins, Served may j j' := by
  obtain ⟨⟨f, hf, hs⟩, -⟩ := h
  rw [hf] at hj
  obtain ⟨j, hmem, rfl⟩ := List.mem_map.mp hj
  exact ⟨j, hmem, hs j hmem⟩

theorem serves_mapJoins (s : HostRoom D) (f : JoinEntry → JoinEntry)
    (h : ∀ j ∈ s.joins, Served may j (f j)) : Serves may s (s.mapJoins f) :=
  ⟨⟨f, rfl, h⟩, rfl⟩

theorem serves_modify (s : HostRoom D) (key : ℕ) (f : JoinEntry → JoinEntry)
    (h : ∀ j ∈ s.joins, j.key = key → Served may j (f j)) : Serves may s (s.modify key f) := by
  refine serves_mapJoins s _ fun j hj => ?_
  split_ifs with hk
  · exact h j hj hk
  · exact Served.refl j

theorem serves_broadcast (s : HostRoom D) (q : Queue) (pkt : Bytes) (pick : JoinEntry → Bool)
    (h : ∀ j, pick j = true → may j.authed j.up) : Serves may s (s.broadcast q pkt pick) := by
  refine serves_mapJoins s _ fun j _ => ?_
  split_ifs with hp
  · exact served_enqueue j q pkt (Or.inl (h j hp))
  · exact Served.refl j

/-- A reply goes to an entry that is authenticated. -/
theorem serves_reply (s : HostRoom D) (key : ℕ) (pkts : List (Queue × Bytes))
    (h : ∀ j ∈ s.joins, j.key = key → j.authed = true) :
    Serves toAuthed s (s.reply key pkts) :=
  serves_modify s key _ fun j hj hk =>
    ⟨rfl, rfl, rfl, rfl, rfl, rfl, rfl, rfl, rfl, rfl, pkts, rfl, fun _ _ => Or.inl (h j hj hk)⟩

/-- What Central itself sends to HOST is not passed on. -/
theorem serves_hostSend (s : HostRoom D) (items : List HostItem) (h : ∀ i ∈ items, i.source = none) :
    Serves may s { s with host_send_queue := s.host_send_queue ++ items } := by
  have hnil : (items.filter fun i => i.source.isSome) = [] := by
    rw [List.filter_eq_nil_iff]
    intro i hi
    simp [h i hi]
  refine serves_of_eq rfl ?_
  simp only [HostRoom.frame, HostRoom.passed, List.filter_append, hnil, List.append_nil]

theorem serves_enqueueHostSend (s : HostRoom D) {item : HostItem} (h : item.source = none) :
    Serves may s (s.enqueueHostSend item) :=
  serves_hostSend s [item] fun i hi => by rw [List.mem_singleton.mp hi, h]

theorem serves_sendToHost (s : HostRoom D) (conn_id : ℕ) (pkt : Bytes) :
    Serves may s (s.sendToHost conn_id pkt) := by
  unfold HostRoom.sendToHost
  split_ifs
  · exact serves_enqueueHostSend s rfl
  · exact Serves.refl s

/-! ## The lists -/

theorem serves_opList (s : HostRoom D) : Serves toUp s s.buildAndBroadcastOpList := by
  unfold HostRoom.buildAndBroadcastOpList
  dsimp only
  generalize s.opList = pkt
  have h₁ : Serves toUp s { s with cached_op_list := pkt } := serves_of_eq rfl rfl
  have h₂ : Serves toUp { s with cached_op_list := pkt }
      (HostRoom.broadcast { s with cached_op_list := pkt } .ctrl pkt JoinEntry.up) :=
    serves_broadcast _ _ _ _ fun j hj => Or.inr hj
  exact (h₁.trans h₂).trans (serves_sendToHost _ _ _)

theorem serves_chSync (b : Backend D) (s : HostRoom D) (send_to_host : Bool) :
    Serves toUp s (HostRoom.rebuildAndBroadcastChSync b s send_to_host) := by
  unfold HostRoom.rebuildAndBroadcastChSync
  dsimp only
  generalize HostRoom.rewriteMasks s.joins MAX_CHANNELS_RELAY s.cached_ch_sync = base_sync
  generalize HostRoom.compressChsync b base_sync = out
  have h₁ : Serves toUp s (s.broadcast .ctrl out JoinEntry.up) :=
    serves_broadcast _ _ _ _ fun j hj => Or.inr hj
  have h₂ : Serves toUp s { s.broadcast .ctrl out JoinEntry.up with cached_ch_sync := base_sync } :=
    h₁.trans (serves_of_eq rfl rfl)
  split_ifs
  · exact Serves.refl s
  · exact h₂.trans (serves_sendToHost _ _ _)
  · exact h₂

theorem serves_dbList (b : Backend D) (s : HostRoom D) : Serves toAuthed s (s.broadcastDbList b) := by
  unfold HostRoom.broadcastDbList
  dsimp only
  generalize b.dbList s.disk = pkt
  have h₁ : Serves toAuthed s (s.enqueueHostSend ⟨none, 0xFFFF, .data, pkt⟩) :=
    serves_enqueueHostSend s rfl
  refine h₁.trans (serves_broadcast _ .ctrl pkt _ fun j hj => ?_)
  simp only [Bool.and_eq_true] at hj
  exact hj.2

theorem serves_modulePkt (s : HostRoom D) (pkt : Bytes) (sub_mod : Option Bytes) :
    Serves toAuthed s (s.broadcastModulePkt pkt sub_mod) := by
  refine serves_broadcast s _ _ _ fun j hj => ?_
  simp only [Bool.and_eq_true] at hj
  exact hj.1.1

theorem serves_chat (s : HostRoom D) (skip_join : Option ℕ) (pkt : Bytes) :
    Serves toAuthed s (s.broadcastChat skip_join pkt) := by
  refine serves_broadcast s _ _ _ fun j hj => ?_
  simp only [Bool.and_eq_true] at hj
  exact hj.1.2

theorem serves_applyEffect (b : Backend D) (s : HostRoom D) (e : Effect D) :
    Serves toAuthed s (s.applyEffect b e) := by
  have h₁ : Serves toAuthed s { s with disk := e.disk } := serves_of_eq rfl rfl
  have hnone : ∀ i ∈ e.toHost.map fun p => (⟨none, p.1, .data, p.2⟩ : HostItem), i.source = none := by
    intro i hi
    obtain ⟨p, -, rfl⟩ := List.mem_map.mp hi
    rfl
  have h₂ := h₁.trans (serves_hostSend _ _ hnone)
  unfold HostRoom.applyEffect
  dsimp only
  split_ifs
  · exact h₂.trans (serves_dbList b _)
  · exact h₂

/-! ## From HOST -/

theorem serves_hostModulePipe (b : Backend D) (s : HostRoom D) (pkt : Bytes) :
    Serves toAuthed s (s.handleHostModulePipe b pkt) := by
  unfold HostRoom.handleHostModulePipe
  cases HostRoom.modulePipe pkt with
  | none => exact Serves.refl s
  | some r =>
    dsimp only
    have hdisk : Serves toAuthed s { s with disk := (b.onHost pkt s.disk).disk } :=
      serves_of_eq rfl rfl
    split_ifs
    · exact (hdisk.trans (serves_modulePkt _ pkt none)).trans (serves_of_eq rfl rfl)
    · exact (hdisk.trans (serves_modulePkt _ pkt (some r.1))).trans (serves_of_eq rfl rfl)
    · exact hdisk

theorem serves_cache (s : HostRoom D) (pkt : Bytes) : Serves may s (s.cache pkt) := by
  unfold HostRoom.cache
  dsimp only
  split_ifs <;> exact serves_of_eq rfl rfl

/-- The general path, for a target. -/
theorem served_deliver (conn_id : ℕ) (pkt : Bytes) (j : JoinEntry)
    (h : HostRoom.isTarget conn_id pkt j = true) : Served toAuthed j (HostRoom.deliver pkt j) := by
  have hmay : toAuthed j.authed j.up ∨ pktType pkt = BEWE_TYPE_AUTH_ACK := by
    simp only [HostRoom.isTarget, Bool.and_eq_true, Bool.or_eq_true, decide_eq_true_eq] at h
    exact h.2
  have hfile : ∀ n, Served toAuthed j { j.enqueue .file pkt with active_file_transfers := n } :=
    fun n => ⟨rfl, rfl, rfl, rfl, rfl, rfl, rfl, rfl, rfl, rfl, [(.file, pkt)], rfl,
      by simpa using hmay⟩
  unfold HostRoom.deliver
  dsimp only
  split_ifs
  · exact Served.refl j
  · exact hfile _
  · exact hfile _
  · exact hfile _
  · exact served_enqueue j .file pkt hmay
  · exact served_enqueue j .ctrl pkt hmay
  · exact served_enqueue j .data pkt hmay

/-- Of what is not an acceptance only CH_SYNC goes to those who are not authenticated. -/
theorem serves_relayPacket (b : Backend D) (s : HostRoom D) (conn_id : ℕ) (pkt : Bytes) :
    Serves (if pktType pkt = BEWE_TYPE_CH_SYNC then toUp else toAuthed) s
      (s.relayPacket b conn_id pkt) := by
  have hmono : ∀ {t : HostRoom D}, Serves toAuthed s t →
      Serves (if pktType pkt = BEWE_TYPE_CH_SYNC then toUp else toAuthed) s t := by
    intro t h
    split_ifs
    · exact h.mono fun _ _ => Or.inl
    · exact h
  have hcache : Serves toAuthed s (s.cache pkt) := serves_cache s pkt
  unfold HostRoom.relayPacket
  dsimp only
  by_cases hh : HostRoom.hostHandled pkt = true
  · rw [if_pos hh]
    exact hmono (hcache.trans (serves_applyEffect b _ _))
  rw [if_neg hh]
  by_cases hm : pktType pkt = BEWE_TYPE_MODULE_PIPE
  · rw [if_pos hm]
    exact hmono (hcache.trans (serves_hostModulePipe b _ pkt))
  rw [if_neg hm]
  by_cases hc : pktType pkt = BEWE_TYPE_CH_SYNC
  · rw [if_pos hc, if_pos hc]
    cases HostRoom.rawChSync b pkt with
    | none => exact serves_cache s pkt
    | some raw =>
      refine Serves.trans ?_ (serves_chSync b _ false)
      exact (serves_cache s pkt).trans (serves_of_eq rfl rfl)
  rw [if_neg hc, if_neg hc]
  refine hcache.trans ?_
  split_ifs
  · exact Serves.refl _
  · refine serves_broadcast _ _ _ _ fun j hj => ?_
    simp only [Bool.and_eq_true] at hj
    exact hj.1.1.2
  · exact serves_chat _ none pkt
  · exact (serves_chat _ none pkt).trans (serves_of_eq rfl rfl)
  · refine Serves.trans ?_ (serves_mapJoins _ _ fun j _ => ?_)
    · exact serves_of_eq rfl rfl
    split_ifs with ht
    · exact served_deliver conn_id pkt j ht
    · exact Served.refl j

/-! ## From a JOIN -/

theorem serves_joinModulePipe (b : Backend D) (s : HostRoom D) (key : ℕ) (pkt : Bytes)
    (h : ∀ j ∈ s.joins, j.key = key → j.authed = true) :
    Serves toAuthed s (s.handleJoinModulePipe b key pkt) := by
  unfold HostRoom.handleJoinModulePipe
  cases HostRoom.modulePipe pkt with
  | none => exact Serves.refl s
  | some r =>
    have hsub : ∀ f : JoinEntry → List Bytes,
        Serves toAuthed s (s.modify key fun j => { j with mod_recv := f j }) := fun f =>
      serves_modify s key _ fun j _ _ =>
        ⟨rfl, rfl, rfl, rfl, rfl, rfl, rfl, rfl, rfl, rfl, [], by simp, by simp⟩
    dsimp only
    split_ifs
    · exact serves_reply s key _ h
    · exact serves_sendToHost s _ _
    · exact serves_of_eq rfl rfl
    · refine (hsub fun j => r.1 :: j.mod_recv).trans (serves_reply _ key _ fun j' hj' hk => ?_)
      obtain ⟨j, hj, hserved⟩ := (hsub fun j => r.1 :: j.mod_recv).mem hj'
      rw [hserved.authed]
      exact h j hj (hserved.key.symm.trans hk)
    · exact hsub _
    · exact Serves.refl s

/-- The commands; a JOIN that changes what it listens to makes CH_SYNC go to everybody. -/
theorem serves_interceptCmd (b : Backend D) (s : HostRoom D) (key : ℕ) (cmd : Bytes) :
    Serves (if cmd.getD 0 0 = BEWE_CMD_TOGGLE_RECV then toUp else toAuthed) s
      (s.interceptCmd b key cmd).1 := by
  have hmod : ∀ {may : Bool → Bool → Prop} (j : JoinEntry) (l : List Bool) (p : Bool),
      Served may j { j with recv_audio := l, fft_paused := p } := fun j l p =>
    ⟨rfl, rfl, rfl, rfl, rfl, rfl, rfl, rfl, rfl, rfl, [], by simp, by simp⟩
  unfold HostRoom.interceptCmd
  dsimp only
  by_cases hlen : cmd.length < 4
  · rw [if_pos hlen]
    exact Serves.refl s
  rw [if_neg hlen]
  by_cases ht : cmd.getD 0 0 = BEWE_CMD_TOGGLE_RECV
  · rw [if_pos ht]
    have hother : ¬ (cmd.getD 0 0 = BEWE_CMD_TOGGLE_FFT_RECV ∧ 5 ≤ cmd.length) := by
      rw [ht]
      exact fun h => absurd h.1 (by decide)
    have hother' : ¬ (cmd.getD 0 0 = BEWE_CMD_CREATE_CH ∧ 5 ≤ cmd.length ∧
        (cmd.getD 4 0).toNat < MAX_CHANNELS_RELAY) := by
      rw [ht]
      exact fun h => absurd h.1 (by decide)
    rw [if_neg hother, if_neg hother']
    split_ifs
    · exact (serves_modify s key _ fun j _ _ => hmod j _ j.fft_paused).trans (serves_chSync b _ true)
    · exact Serves.refl s
    · exact Serves.refl s
  rw [if_neg ht, if_neg fun h => ht h.1]
  split_ifs
  · exact serves_modify s key _ fun j _ _ => hmod j j.recv_audio _
  · exact serves_mapJoins s _ fun j _ => hmod j _ j.fft_paused
  · exact Serves.refl s

/-- Whether a packet changes what its JOIN listens to. -/
def togglesRecv (pkt : Bytes) : Bool :=
  pktType pkt == BEWE_TYPE_CMD && (payload pkt).getD 0 0 == BEWE_CMD_TOGGLE_RECV

/-- What an authenticated JOIN asks for is answered to those who are authenticated. -/
theorem serves_joinCmd (b : Backend D) (s : HostRoom D) (key : ℕ) (pkt : Bytes)
    (h : ∀ j ∈ s.joins, j.key = key → j.authed = true) :
    Serves (if togglesRecv pkt then toUp else toAuthed) s (s.handleJoinCmd b key pkt).1 := by
  have hmono : ∀ {t : HostRoom D}, Serves toAuthed s t →
      Serves (if togglesRecv pkt then toUp else toAuthed) s t := by
    intro t ht
    split_ifs
    · exact ht.mono fun _ _ => Or.inl
    · exact ht
  unfold HostRoom.handleJoinCmd
  dsimp only
  by_cases hcmd : pktType pkt = BEWE_TYPE_CMD
  · have htoggle : togglesRecv pkt = decide ((payload pkt).getD 0 0 = BEWE_CMD_TOGGLE_RECV) := by
      simp [togglesRecv, hcmd, beq_eq_decide]
    have hpipe : ¬ pktType pkt = BEWE_TYPE_MODULE_PIPE := by rw [hcmd]; decide
    have hlist : ¬ pktType pkt = BEWE_TYPE_DB_LIST_REQ := by rw [hcmd]; decide
    simp only [htoggle, decide_eq_true_eq, if_neg hpipe, if_neg hlist, if_pos hcmd]
    exact serves_interceptCmd b s key (payload pkt)
  refine hmono ?_
  split_ifs
  · exact serves_joinModulePipe b s key pkt h
  · exact serves_reply s key _ h
  · exact (serves_reply s key _ h).trans (serves_applyEffect b _ _)
  · exact serves_chat s (some key) pkt
  · exact (serves_chat s (some key) pkt).trans (serves_of_eq rfl rfl)
  · exact serves_of_eq rfl rfl
  · exact Serves.refl s

/-- What `intercept_join_cmd` does: nothing, and then only requests are passed on of a JOIN that is
not authenticated; or it takes name and tier from a request; or it handles what an authenticated
JOIN asks for. -/
theorem interceptJoinCmd_cases (b : Backend D) (s : HostRoom D) (j : JoinEntry) (pkt : Bytes) :
    (∃ consumed, s.interceptJoinCmd b j pkt = (s, consumed) ∧
      (consumed = false → pkt.length < BEWE_HDR_SIZE ∨ pktType pkt = BEWE_TYPE_AUTH_REQ) ∧
      authReq pkt = none) ∨
    (∃ r, authReq pkt = some r ∧ s.interceptJoinCmd b j pkt =
      (s.modify j.key fun j => { j with name := r.name, tier := r.tier }, false)) ∨
    (j.authed = true ∧ authReq pkt = none ∧
      s.interceptJoinCmd b j pkt = s.handleJoinCmd b j.key pkt) := by
  have hnone : pktType pkt ≠ BEWE_TYPE_AUTH_REQ → authReq pkt = none := fun h => by
    rw [authReq, if_neg fun hc => h hc.1]
  unfold HostRoom.interceptJoinCmd
  by_cases hlen : pkt.length < BEWE_HDR_SIZE
  · rw [if_pos hlen]
    refine Or.inl ⟨false, rfl, fun _ => Or.inl hlen, ?_⟩
    rw [authReq, if_neg]
    rintro ⟨-, hsize⟩
    rw [payload, List.length_drop] at hsize
    unfold BEWE_AUTH_REQ_SIZE at hsize
    omega
  rw [if_neg hlen]
  by_cases hreq : pktType pkt = BEWE_TYPE_AUTH_REQ
  · rw [if_neg (by simp [hreq]), if_pos hreq]
    cases hr : authReq pkt with
    | none => exact Or.inl ⟨false, rfl, fun _ => Or.inr hreq, rfl⟩
    | some r => exact Or.inr (Or.inl ⟨r, rfl, rfl⟩)
  · by_cases hauth : j.authed = true
    · rw [if_neg (by simp [hauth]), if_neg hreq]
      exact Or.inr (Or.inr ⟨hauth, hnone hreq, rfl⟩)
    · rw [if_pos (by simp [hauth, hreq])]
      exact Or.inl ⟨true, rfl, fun h => absurd h (by simp), hnone hreq⟩

/-! ## From elsewhere -/

theorem serves_diskStat (b : Backend D) (s : HostRoom D) (p : Bytes) :
    Serves toAuthed s ((Event.diskStat p).apply b s) := by
  refine serves_broadcast s _ _ _ fun j hj => ?_
  simp only [Bool.and_eq_true] at hj
  exact hj.2

theorem serves_chatEvent (b : Backend D) (s : HostRoom D) (pkt : Bytes) :
    Serves toAuthed s ((Event.chat pkt).apply b s) :=
  (serves_chat s none pkt).trans (serves_sendToHost _ _ _)

/-! ## Identities -/

/-- Every entry has its own identity, and the next one is new. -/
structure Keyed (s : HostRoom D) : Prop where
  nodup : (s.joins.map JoinEntry.key).Nodup
  lt : ∀ j ∈ s.joins, j.key < s.nextKey

/-- No entry is new: some may have left. -/
structure Fewer (s s' : HostRoom D) : Prop where
  keys : List.Sublist (s'.joins.map JoinEntry.key) (s.joins.map JoinEntry.key)
  nextKey : s'.nextKey = s.nextKey

theorem Fewer.refl (s : HostRoom D) : Fewer s s := ⟨List.Sublist.refl _, rfl⟩

theorem Fewer.trans {s t u : HostRoom D} (h₁ : Fewer s t) (h₂ : Fewer t u) : Fewer s u :=
  ⟨h₂.keys.trans h₁.keys, h₂.nextKey.trans h₁.nextKey⟩

theorem Fewer.keyed {s s' : HostRoom D} (h : Fewer s s') (hs : Keyed s) : Keyed s' := by
  refine ⟨hs.nodup.sublist h.keys, fun j hj => ?_⟩
  obtain ⟨k, hk, hkey⟩ := List.mem_map.mp (h.keys.subset (List.mem_map_of_mem hj))
  rw [h.nextKey, ← hkey]
  exact hs.lt k hk

theorem fewer_of_serves {s s' : HostRoom D} (h : Serves may s s') : Fewer s s' := by
  refine ⟨?_, h.nextKey⟩
  obtain ⟨⟨f, hf, hs⟩, -⟩ := h
  have hmap : s'.joins.map JoinEntry.key = s.joins.map JoinEntry.key := by
    rw [hf, List.map_map]
    exact List.map_congr_left fun j hj => (hs j hj).key
  rw [hmap]

theorem fewer_of_eq {s s' : HostRoom D} (hj : s'.joins = s.joins) (hn : s'.nextKey = s.nextKey) :
    Fewer s s' := ⟨by rw [hj], hn⟩

theorem fewer_modify (s : HostRoom D) (key : ℕ) (f : JoinEntry → JoinEntry)
    (hf : ∀ j, (f j).key = j.key) : Fewer s (s.modify key f) := by
  refine ⟨?_, rfl⟩
  have hmap : (s.modify key f).joins.map JoinEntry.key = s.joins.map JoinEntry.key := by
    simp only [HostRoom.modify, HostRoom.mapJoins, List.map_map]
    refine List.map_congr_left fun j _ => ?_
    simp only [Function.comp_apply]
    split_ifs
    · exact hf j
    · rfl
  rw [hmap]

/-- Two entries of one identity are the same. -/
theorem Keyed.eq {s : HostRoom D} (h : Keyed s) {j k : JoinEntry} (hj : j ∈ s.joins)
    (hk : k ∈ s.joins) (hkey : j.key = k.key) : j = k :=
  List.inj_on_of_nodup_map h.nodup hj hk hkey

/-- What is found by its identity is in the room. -/
theorem find_eq_some {s : HostRoom D} {key : ℕ} {j : JoinEntry} (h : s.find key = some j) :
    j ∈ s.joins ∧ j.key = key :=
  ⟨List.mem_of_find?_eq_some h, by simpa using List.find?_some h⟩

theorem without_joins (s : HostRoom D) (j : JoinEntry) :
    (s.without j).joins = s.joins.filter fun k => k.key ≠ j.key := by
  unfold HostRoom.without
  dsimp only
  split <;> rfl

theorem without_frame (s : HostRoom D) (j : JoinEntry) : (s.without j).frame = s.frame := by
  have hsent : Serves toUp s (s.enqueueHostSend ⟨none, j.conn_id, .connClose, []⟩) :=
    serves_enqueueHostSend s rfl
  unfold HostRoom.without
  dsimp only
  split
  · exact hsent.frame
  · rfl

theorem fewer_without (s : HostRoom D) (j : JoinEntry) : Fewer s (s.without j) := by
  refine ⟨?_, congrArg (fun x => x.2.2.2.1) (without_frame s j)⟩
  rw [without_joins]
  exact List.filter_sublist.map _

theorem fewer_joinExit (s : HostRoom D) (j : JoinEntry) : Fewer s (s.joinExit j) := by
  unfold HostRoom.joinExit
  split_ifs
  · exact (fewer_without s j).trans (fewer_of_serves (serves_opList _))
  · exact fewer_without s j

theorem fewer_answered (s : HostRoom D) (conn_id : ℕ) (ok : Bool) :
    Fewer s (s.answered conn_id ok) := by
  unfold HostRoom.answered
  split
  · exact Fewer.refl s
  · exact fewer_modify s _ _ fun _ => rfl

theorem fewer_mark (s : HostRoom D) (key : ℕ) (op_idx : UInt8) (pkt : Bytes) :
    Fewer s (s.mark key op_idx pkt) := by
  have h : Fewer s (s.modify key fun j => { j with op_index := op_idx, authed := true }) :=
    fewer_modify s key _ fun _ => rfl
  exact h.trans (fewer_of_eq rfl rfl)

theorem fewer_queueAck (s : HostRoom D) (key : ℕ) (pkt : Bytes) : Fewer s (s.queueAck key pkt) := by
  have h : Fewer s { s with accepting := none } := fewer_of_eq rfl rfl
  refine h.trans ?_
  exact fewer_modify _ key _ fun _ => rfl

theorem fewer_reply (s : HostRoom D) (key : ℕ) (pkts : List (Queue × Bytes)) :
    Fewer s (s.reply key pkts) := fewer_modify s key _ fun _ => rfl

theorem fewer_dispatch (b : Backend D) (s : HostRoom D) (conn_id : ℕ) (pkt : Bytes) :
    Fewer s (s.dispatchToJoins b conn_id pkt) := by
  unfold HostRoom.dispatchToJoins
  by_cases hlen : pkt.length < BEWE_HDR_SIZE
  · rw [if_pos hlen]
    exact Fewer.refl s
  rw [if_neg hlen]
  cases s.acceptedEntry conn_id pkt with
  | some e =>
    refine (fewer_answered s conn_id true).trans ?_
    exact fewer_mark _ e.1.key e.2 pkt
  | none =>
    refine Fewer.trans ?_ (fewer_of_serves (serves_relayPacket b _ conn_id pkt))
    unfold HostRoom.rejected
    split_ifs
    · exact fewer_answered s conn_id false
    · exact Fewer.refl s

theorem fewer_welcome (b : Backend D) (s : HostRoom D) : Fewer s (s.welcome b) := by
  unfold HostRoom.welcome
  split
  · exact Fewer.refl s
  · rename_i key pkt _
    have h₁ := (fewer_queueAck s key pkt).trans (fewer_reply _ key s.cachedPackets)
    have h₂ := h₁.trans (fewer_of_serves (serves_opList _))
    exact h₂.trans (fewer_reply _ key _)

/-- What a JOIN sends is no new entry. -/
theorem fewer_interceptJoinCmd (b : Backend D) (s : HostRoom D) (j : JoinEntry) (pkt : Bytes)
    (hj : ∀ k ∈ s.joins, k.key = j.key → k.authed = j.authed) :
    Fewer s (s.interceptJoinCmd b j pkt).1 := by
  rcases interceptJoinCmd_cases b s j pkt with ⟨c, h, -⟩ | ⟨r, -, h⟩ | ⟨hauth, -, h⟩
  · rw [h]
    exact Fewer.refl s
  · rw [h]
    exact fewer_modify s _ _ fun _ => rfl
  · rw [h]
    exact fewer_of_serves (serves_joinCmd b s j.key pkt fun k hk hkey => (hj k hk hkey).trans hauth)

theorem fewer_passOn (s : HostRoom D) (j : JoinEntry) (pkt : Bytes) : Fewer s (s.passOn j pkt) := by
  unfold HostRoom.passOn
  split_ifs
  · refine Fewer.trans ?_ (fewer_modify _ j.key _ fun _ => rfl)
    exact fewer_of_eq rfl rfl
  · exact fewer_joinExit s j

/-- What is done to one entry leaves its identity, and whether it is authenticated. -/
theorem Keyed.authed_modify {s : HostRoom D} (hs : Keyed s) {j : JoinEntry} (hj : j ∈ s.joins)
    {f : JoinEntry → JoinEntry} (hf : ∀ j, (f j).key = j.key ∧ (f j).authed = j.authed) :
    ∀ k ∈ (s.modify j.key f).joins, k.key = j.key → k.authed = j.authed := by
  intro k' hk' hkey
  obtain ⟨k, hk, rfl⟩ := List.mem_map.mp hk'
  split_ifs at hkey ⊢ with hk₁
  · rw [(hf k).2, hs.eq hk hj hk₁]
  · exact absurd hkey hk₁

theorem fewer_joinLoop (b : Backend D) (s : HostRoom D) (hs : Keyed s) (j : JoinEntry)
    (hj : j ∈ s.joins) : Fewer s (s.joinLoop b j) := by
  unfold HostRoom.joinLoop
  cases receive j.inbuf with
  | more => exact Fewer.refl s
  | oversized => exact fewer_joinExit s j
  | packet pkt rest =>
    dsimp only
    have h₁ : Fewer s (s.modify j.key fun j => { j with inbuf := rest }) :=
      fewer_modify s _ _ fun _ => rfl
    have hauth := hs.authed_modify hj (f := fun j => { j with inbuf := rest }) fun _ => ⟨rfl, rfl⟩
    have h₂ := h₁.trans (fewer_interceptJoinCmd b _ j pkt hauth)
    split_ifs
    · exact h₂
    · exact h₂.trans (fewer_passOn _ j pkt)

/-- Every step gives a new entry a new identity. -/
theorem keyed_step (b : Backend D) {s s' : HostRoom D} {e : Event D} (h : Keyed s)
    (hstep : RoomStep b s e s') : Keyed s' := by
  obtain ⟨-, rfl⟩ := hstep
  cases e with
  | connect =>
    have hmap : (s.joinRoom).joins.map JoinEntry.key = s.joins.map JoinEntry.key ++ [s.nextKey] := by
      simp [HostRoom.joinRoom, HostRoom.enqueueHostSend, HostRoom.newEntry]
    constructor
    · show ((s.joinRoom).joins.map JoinEntry.key).Nodup
      rw [hmap, List.nodup_append]
      refine ⟨h.nodup, by simp, fun a ha c hc => ?_⟩
      obtain ⟨j, hj, rfl⟩ := List.mem_map.mp ha
      rw [List.mem_singleton.mp hc]
      exact (h.lt j hj).ne
    · intro j hj
      have hkey : j.key ∈ s.joins.map JoinEntry.key ++ [s.nextKey] := by
        rw [← hmap]
        exact List.mem_map_of_mem hj
      show j.key < s.nextKey + 1
      rcases List.mem_append.mp hkey with hk | hk
      · obtain ⟨k, hk, hk₁⟩ := List.mem_map.mp hk
        rw [← hk₁]
        exact (h.lt k hk).trans (Nat.lt_succ_self _)
      · rw [List.mem_singleton.mp hk]
        exact Nat.lt_succ_self _
  | close => exact ⟨List.nodup_nil, by simp [Event.apply]⟩
  | arrive key bytes =>
    refine Fewer.keyed ?_ h
    exact fewer_modify s key _ fun _ => rfl
  | read key =>
    simp only [Event.apply]
    split
    · rename_i j hfind
      split_ifs
      · exact (fewer_joinLoop b s h j (find_eq_some hfind).1).keyed h
      · exact (fewer_joinExit s j).keyed h
    · exact h
  | sendFailed key =>
    refine Fewer.keyed ?_ h
    exact fewer_modify s key _ fun _ => rfl
  | hangup key =>
    simp only [Event.apply]
    split
    · exact (fewer_joinExit s _).keyed h
    · exact h
  | host conn_id pkt => exact (fewer_dispatch b s conn_id pkt).keyed h
  | welcome => exact (fewer_welcome b s).keyed h
  | hostHb first user_count =>
    have hlist : Fewer s (if first then s.broadcastDbList b else s) := by
      split_ifs
      · exact fewer_of_serves (serves_dbList b s)
      · exact Fewer.refl s
    refine Fewer.keyed ?_ (hlist.keyed h)
    exact fewer_of_eq rfl rfl
  | hostState operator_login =>
    refine Fewer.keyed ?_ h
    exact fewer_of_eq rfl rfl
  | diskStat p => exact (fewer_of_serves (serves_diskStat b s p)).keyed h
  | stored disk =>
    refine Fewer.keyed ?_ h
    exact fewer_of_eq rfl rfl
  | chat pkt => exact (fewer_of_serves (serves_chatEvent b s pkt)).keyed h
  | modulePkt pkt sub_mod => exact (fewer_of_serves (serves_modulePkt s pkt sub_mod)).keyed h
  | toHost pkt =>
    have hsend : Serves toAuthed s (s.sendToHost 0xFFFF pkt) := serves_sendToHost s _ _
    exact (fewer_of_serves hsend).keyed h

end Bewe.Relay

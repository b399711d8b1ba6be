import Bewe.Relay.Quiet

/-!
# Who an authenticated JOIN is

HOST decides on an AUTH_REQ, but the relay takes name and tier from it when it passes, before HOST
has answered and whatever HOST answers. OP_LIST is made of what the relay holds.

`genuine_of_run`: what the relay holds of an authenticated JOIN is of the request that HOST
accepted last, in every run in which a JOIN that is authenticated or waits for an answer sends no
AUTH_REQ with another name or tier. HOST answers a connection's requests in order, and only those; a
number of a connection is not given again while it is in use.
-/

namespace Bewe.Relay

open Lib Hist

variable {D : Type}

/-- HOST's answers are to requests that it was given. -/
def Event.answers : Event D → HostRoom D → Bool
  | .host conn_id pkt, s =>
    (authAck pkt).isNone || (s.joins.find? fun j => j.conn_id = conn_id).all fun j =>
      !j.requests.isEmpty
  | _, _ => true

/-- A step in which HOST answers what it was asked, and no two JOINs are one connection for it. -/
def AnsweredStep (b : Backend D) (s : HostRoom D) (e : Event D) (s' : HostRoom D) : Prop :=
  e.answers s = true ∧ (s'.joins.map JoinEntry.conn_id).Nodup ∧ RoomStep b s e s'

/-- The condition on a step: who is authenticated, or has a request that is not answered, sends no
request with another name or tier. -/
def Event.faithful : Event D → HostRoom D → Bool
  | .read key, s =>
    (s.find key).all fun j =>
      match receive j.inbuf with
      | .packet pkt _ =>
        (authReq pkt).all fun r =>
          !j.authed && j.requests.isEmpty || decide (r = ⟨j.name, j.tier⟩)
      | _ => true
  | _, _ => true

/-- What the relay holds of a JOIN is of the requests that HOST has not answered, and of the one
that it has accepted. -/
structure Identified (s : HostRoom D) : Prop where
  requests : ∀ j ∈ s.joins, ∀ r ∈ j.requests, r = ⟨j.name, j.tier⟩
  accepted : ∀ j ∈ s.joins, j.authed = true → j.accepted = some ⟨j.name, j.tier⟩

/-- Entries may leave, and change in everything else. -/
theorem identified_of_mem {s s' : HostRoom D} (h : Identified s)
    (hs : ∀ j' ∈ s'.joins, ∃ j ∈ s.joins, j'.requests = j.requests ∧ j'.name = j.name ∧
      j'.tier = j.tier ∧ j'.authed = j.authed ∧ j'.accepted = j.accepted) : Identified s' := by
  constructor
  · intro j' hj'
    obtain ⟨j, hj, hreq, hname, htier, -, -⟩ := hs j' hj'
    rw [hreq, hname, htier]
    exact h.requests j hj
  · intro j' hj'
    obtain ⟨j, hj, -, hname, htier, hauth, hacc⟩ := hs j' hj'
    rw [hauth, hacc, hname, htier]
    exact h.accepted j hj

theorem identified_of_eq {s s' : HostRoom D} (h : Identified s) (hj : s'.joins = s.joins) :
    Identified s' :=
  identified_of_mem h fun j hmem => ⟨j, hj ▸ hmem, rfl, rfl, rfl, rfl, rfl⟩

theorem identified_of_serves {may : Bool → Bool → Prop} {s s' : HostRoom D} (h : Identified s)
    (hs : Serves may s s') : Identified s' := by
  refine identified_of_mem h fun j' hj' => ?_
  obtain ⟨j, hj, hserved⟩ := hs.mem hj'
  exact ⟨j, hj, hserved.requests, hserved.name, hserved.tier, hserved.authed, hserved.accepted⟩

theorem identified_modify {s : HostRoom D} (h : Identified s) (key : ℕ) (f : JoinEntry → JoinEntry)
    (hf : ∀ j, (f j).requests = j.requests ∧ (f j).name = j.name ∧ (f j).tier = j.tier ∧
      (f j).authed = j.authed ∧ (f j).accepted = j.accepted) : Identified (s.modify key f) := by
  refine identified_of_mem h fun j' hj' => ?_
  obtain ⟨j, hj, rfl⟩ := List.mem_map.mp hj'
  split_ifs
  · exact ⟨j, hj, hf j⟩
  · exact ⟨j, hj, rfl, rfl, rfl, rfl, rfl⟩

theorem identified_joinExit {s : HostRoom D} (h : Identified s) (j : JoinEntry) :
    Identified (s.joinExit j) := by
  have hwithout : Identified (s.without j) := by
    refine identified_of_mem h fun k hk => ?_
    rw [without_joins] at hk
    exact ⟨k, List.mem_of_mem_filter hk, rfl, rfl, rfl, rfl, rfl⟩
  unfold HostRoom.joinExit
  split_ifs
  · exact identified_of_serves hwithout (serves_opList _)
  · exact hwithout

/-! ## HOST's answers -/

/-- A rejection takes a request away. -/
theorem identified_answered_false {s : HostRoom D} (h : Identified s) (conn_id : ℕ) :
    Identified (s.answered conn_id false) := by
  cases hfind : s.joins.find? (fun j => j.conn_id = conn_id) with
  | none =>
    simp only [HostRoom.answered, hfind]
    exact h
  | some j =>
    have hans : s.answered conn_id false =
        s.modify j.key fun k => { k with requests := k.requests.tail } := by
      simp only [HostRoom.answered, hfind, Bool.false_eq_true, if_false]
    rw [hans]
    constructor
    · intro k' hk' r hr
      obtain ⟨k, hk, rfl⟩ := List.mem_map.mp hk'
      by_cases hkey : k.key = j.key
      · rw [if_pos hkey] at hr ⊢
        exact h.requests k hk r (List.mem_of_mem_tail hr)
      · rw [if_neg hkey] at hr ⊢
        exact h.requests k hk r hr
    · intro k' hk' hauth
      obtain ⟨k, hk, rfl⟩ := List.mem_map.mp hk'
      by_cases hkey : k.key = j.key
      · rw [if_pos hkey] at hauth ⊢
        exact h.accepted k hk hauth
      · rw [if_neg hkey] at hauth ⊢
        exact h.accepted k hk hauth

/-- An acceptance is of a request that has the name and the tier that the relay holds. -/
theorem identified_accept {s : HostRoom D} (h : Identified s) (hs : Keyed s) {conn_id : ℕ}
    {j : JoinEntry} (hfind : s.joins.find? (fun j => j.conn_id = conn_id) = some j)
    (hreq : j.requests ≠ []) (op_idx : UInt8) (pkt : Bytes) :
    Identified ((s.answered conn_id true).mark j.key op_idx pkt) := by
  have hj := List.mem_of_find?_eq_some hfind
  obtain ⟨r, rs, hrs⟩ := List.exists_cons_of_ne_nil hreq
  have hans : s.answered conn_id true = s.modify j.key fun j =>
      { j with requests := j.requests.tail, accepted := j.requests.head? } := by
    simp only [HostRoom.answered, hfind, if_true]
  rw [hans]
  -- an entry afterwards is that of the request, or another one as it was
  have hmem : ∀ k' ∈ ((s.modify j.key fun j => { j with
      requests := j.requests.tail, accepted := j.requests.head? }).mark j.key op_idx pkt).joins,
      k' = { j with requests := rs, accepted := some r, op_index := op_idx, authed := true } ∨
        k' ∈ s.joins := by
    intro k' hk'
    obtain ⟨k₁, hk₁, rfl⟩ := List.mem_map.mp hk'
    obtain ⟨k, hk, rfl⟩ := List.mem_map.mp hk₁
    by_cases hkey : k.key = j.key
    · left
      rw [if_pos hkey, if_pos hkey, hs.eq hk hj hkey]
      simp [hrs]
    · right
      rw [if_neg hkey, if_neg hkey]
      exact hk
  have hhead : r = ⟨j.name, j.tier⟩ := h.requests j hj r (by rw [hrs]; exact List.mem_cons_self)
  constructor
  · intro k' hk'
    rcases hmem k' hk' with rfl | hk
    · exact fun r' hr' => h.requests j hj r' (by rw [hrs]; exact List.mem_cons_of_mem r hr')
    · exact h.requests k' hk
  · intro k' hk' hauth
    rcases hmem k' hk' with rfl | hk
    · exact congrArg some hhead
    · exact h.accepted k' hk hauth

theorem identified_dispatch (b : Backend D) {s : HostRoom D} (h : Identified s) (hs : Keyed s)
    (conn_id : ℕ) (pkt : Bytes) (hans : (Event.host conn_id pkt).answers s = true) :
    Identified (s.dispatchToJoins b conn_id pkt) := by
  unfold HostRoom.dispatchToJoins
  by_cases hlen : pkt.length < BEWE_HDR_SIZE
  · rw [if_pos hlen]
    exact h
  rw [if_neg hlen]
  cases hentry : s.acceptedEntry conn_id pkt with
  | some e =>
    unfold HostRoom.acceptedEntry at hentry
    cases hack : authAck pkt with
    | none => simp [hack] at hentry
    | some a =>
      obtain ⟨ok, op_idx⟩ := a
      cases ok with
      | false => simp [hack] at hentry
      | true =>
        simp only [hack] at hentry
        split_ifs at hentry
        obtain ⟨j, hfind, rfl⟩ := Option.map_eq_some_iff.mp hentry
        refine identified_accept h hs hfind ?_ op_idx pkt
        simpa [Event.answers, hack, hfind] using hans
  | none =>
    refine identified_of_serves ?_ (serves_relayPacket b _ conn_id pkt)
    unfold HostRoom.rejected
    split_ifs
    · exact identified_answered_false h conn_id
    · exact h

theorem identified_welcome (b : Backend D) {s : HostRoom D} (h : Identified s) :
    Identified (s.welcome b) := by
  unfold HostRoom.welcome
  split
  · exact h
  · rename_i key pkt _
    have h₀ : Identified { s with accepting := none } := identified_of_eq h rfl
    have h₁ : Identified (s.queueAck key pkt) :=
      identified_modify h₀ key _ fun _ => ⟨rfl, rfl, rfl, rfl, rfl⟩
    have h₂ : Identified ((s.queueAck key pkt).reply key s.cachedPackets) :=
      identified_modify h₁ key _ fun _ => ⟨rfl, rfl, rfl, rfl, rfl⟩
    have h₃ := identified_of_serves h₂ (serves_opList _)
    exact identified_modify h₃ key _ fun _ => ⟨rfl, rfl, rfl, rfl, rfl⟩

/-! ## A JOIN's requests -/

/-- A request that is passed on has the name and the tier that the relay holds. -/
theorem identified_passOn {s : HostRoom D} (h : Identified s) (j : JoinEntry) (pkt : Bytes)
    (hreq : ∀ r, authReq pkt = some r → ∀ k ∈ s.joins, k.key = j.key → r = ⟨k.name, k.tier⟩) :
    Identified (s.passOn j pkt) := by
  unfold HostRoom.passOn
  split_ifs
  · constructor
    · intro k' hk' r hr
      obtain ⟨k, hk, rfl⟩ := List.mem_map.mp hk'
      split_ifs at hr ⊢ with hkey
      · rcases List.mem_append.mp hr with hr | hr
        · exact h.requests k hk r hr
        · exact hreq r (Option.mem_toList.mp hr) k hk hkey
      · exact h.requests k hk r hr
    · intro k' hk' hauth
      obtain ⟨k, hk, rfl⟩ := List.mem_map.mp hk'
      split_ifs at hauth ⊢ <;> exact h.accepted k hk hauth
  · exact identified_joinExit h j

/-- A request's name and tier are taken when no other is held that HOST might accept, or has. -/
theorem identified_take {s : HostRoom D} (h : Identified s) (hs : Keyed s) {j : JoinEntry}
    (hj : j ∈ s.joins) (r : AuthReq)
    (hr : j.authed = false ∧ j.requests = [] ∨ r = ⟨j.name, j.tier⟩) :
    Identified (s.modify j.key fun j => { j with name := r.name, tier := r.tier }) := by
  constructor
  · intro k' hk' q hq
    obtain ⟨k, hk, rfl⟩ := List.mem_map.mp hk'
    split_ifs at hq ⊢ with hkey
    · obtain rfl := hs.eq hk hj hkey
      rcases hr with ⟨-, hnil⟩ | rfl
      · exact absurd hq (by simp [hnil])
      · exact h.requests k hk q hq
    · exact h.requests k hk q hq
  · intro k' hk' hauth
    obtain ⟨k, hk, rfl⟩ := List.mem_map.mp hk'
    split_ifs at hauth ⊢ with hkey
    · obtain rfl := hs.eq hk hj hkey
      rcases hr with ⟨hno, -⟩ | rfl
      · exact absurd hauth (by simp [hno])
      · exact h.accepted k hk hauth
    · exact h.accepted k hk hauth

theorem identified_joinLoop (b : Backend D) {s : HostRoom D} (h : Identified s) (hs : Keyed s)
    {j : JoinEntry} (hj : j ∈ s.joins)
    (hreq : ∀ pkt rest r, receive j.inbuf = .packet pkt rest → authReq pkt = some r →
      j.authed = false ∧ j.requests = [] ∨ r = ⟨j.name, j.tier⟩) :
    Identified (s.joinLoop b j) := by
  unfold HostRoom.joinLoop
  cases hrecv : receive j.inbuf with
  | more => exact h
  | oversized => exact identified_joinExit h j
  | packet pkt rest =>
    dsimp only
    set s₁ := s.modify j.key fun j => { j with inbuf := rest } with hs₁
    have h₁ : Identified s₁ := identified_modify h _ _ fun _ => ⟨rfl, rfl, rfl, rfl, rfl⟩
    have hk₁ : Keyed s₁ := Fewer.keyed (fewer_modify s _ _ fun _ => rfl) hs
    set j₁ : JoinEntry := { j with inbuf := rest } with hj₁
    have hmem₁ : j₁ ∈ s₁.joins := List.mem_map.mpr ⟨j, hj, by rw [if_pos rfl]⟩
    have hnopass : authReq pkt = none → ∀ t : HostRoom D, Identified t →
        Identified (t.passOn j pkt) := fun hnone t ht =>
      identified_passOn ht j pkt fun r hr => absurd (hnone.symm.trans hr) (by simp)
    rcases interceptJoinCmd_cases b s₁ j pkt with ⟨c, hi, -, hnone⟩ | ⟨r, hr, hi⟩ | ⟨hauth, hnone, hi⟩
    · rw [hi]
      dsimp only
      split_ifs
      · exact h₁
      · exact hnopass hnone _ h₁
    · rw [hi]
      simp only [Bool.false_eq_true, if_false]
      have htake := identified_take h₁ hk₁ hmem₁ r (hreq pkt rest r hrecv hr)
      refine identified_passOn htake j pkt fun r' hr' k' hk' hkey => ?_
      obtain rfl := Option.some.inj (hr.symm.trans hr')
      obtain ⟨k, hk, rfl⟩ := List.mem_map.mp hk'
      split_ifs at hkey ⊢ with hk₂
      · rfl
      · exact absurd hkey hk₂
    · rw [hi]
      have hserve := serves_joinCmd b s₁ j.key pkt fun k hk hkey => by
        rw [hk₁.eq hk hmem₁ hkey]
        exact hauth
      have h₂ := identified_of_serves h₁ hserve
      generalize s₁.handleJoinCmd b j.key pkt = p at h₂ ⊢
      obtain ⟨s₂, consumed⟩ := p
      dsimp only at h₂ ⊢
      split_ifs
      · exact h₂
      · exact hnopass hnone _ h₂

/-! ## Runs -/

theorem identified_step (b : Backend D) {s s' : HostRoom D} {e : Event D} (h : Identified s)
    (hs : Keyed s) (hclear : e.faithful s = true) (hstep : AnsweredStep b s e s') :
    Identified s' := by
  obtain ⟨hans, -, -, rfl⟩ := hstep
  cases e with
  | connect =>
    constructor
    · intro j hj
      rcases List.mem_append.mp hj with hj | hj
      · exact h.requests j hj
      · rw [List.mem_singleton.mp hj]
        simp [HostRoom.newEntry]
    · intro j hj hauth
      rcases List.mem_append.mp hj with hj | hj
      · exact h.accepted j hj hauth
      · rw [List.mem_singleton.mp hj] at hauth
        exact absurd hauth (by simp [HostRoom.newEntry])
  | arrive key bytes => exact identified_modify h _ _ fun _ => ⟨rfl, rfl, rfl, rfl, rfl⟩
  | sendFailed key => exact identified_modify h _ _ fun _ => ⟨rfl, rfl, rfl, rfl, rfl⟩
  | read key =>
    simp only [Event.apply]
    cases hfind : s.find key with
    | none => exact h
    | some j =>
      dsimp only
      split_ifs
      · refine identified_joinLoop b h hs (find_eq_some hfind).1 fun pkt rest r hrecv hr => ?_
        simpa [Event.faithful, hfind, hrecv, hr] using hclear
      · exact identified_joinExit h j
  | hangup key =>
    simp only [Event.apply]
    split
    · exact identified_joinExit h _
    · exact h
  | host conn_id pkt => exact identified_dispatch b h hs conn_id pkt hans
  | welcome => exact identified_welcome b h
  | hostHb first user_count =>
    have hlist : Identified (if first then s.broadcastDbList b else s) := by
      split_ifs
      · exact identified_of_serves h (serves_dbList b s)
      · exact h
    exact identified_of_eq hlist rfl
  | hostState operator_login => exact identified_of_eq h rfl
  | diskStat p => exact identified_of_serves h (serves_diskStat b s p)
  | stored disk => exact identified_of_eq h rfl
  | chat pkt => exact identified_of_serves h (serves_chatEvent b s pkt)
  | modulePkt pkt sub_mod => exact identified_of_serves h (serves_modulePkt s pkt sub_mod)
  | toHost pkt =>
    have hsend : Serves toAuthed s (s.sendToHost 0xFFFF pkt) := serves_sendToHost s _ _
    exact identified_of_serves h hsend
  | close => exact ⟨by simp [Event.apply], by simp [Event.apply]⟩

/-- The row of OP_LIST that a JOIN should have: of the request that HOST has accepted. -/
def acceptedRow (j : JoinEntry) : Bytes :=
  match j.accepted with
  | some r => HostRoom.opEntry j.op_index r.tier r.name
  | none => []

/-- What the relay holds of authenticated JOINs is of the requests that HOST accepted, and so is
what OP_LIST shows. -/
def Genuine (s : HostRoom D) : Prop :=
  (∀ j ∈ s.joins, j.authed = true → j.accepted = some ⟨j.name, j.tier⟩) ∧
    (HostRoom.operators s.joins).map (fun j => HostRoom.opEntry j.op_index j.tier j.name) =
      (HostRoom.operators s.joins).map acceptedRow

theorem genuine_of_identified {s : HostRoom D} (h : Identified s) : Genuine s := by
  refine ⟨h.accepted, List.map_congr_left fun j hj => ?_⟩
  have hmem := List.mem_filter.mp (List.mem_of_mem_take hj)
  rw [Bool.and_eq_true] at hmem
  rw [acceptedRow, h.accepted j hmem.1 hmem.2.1]

/-- A step that meets the condition. -/
def FaithfulStep (b : Backend D) (s : HostRoom D) (e : Event D) (s' : HostRoom D) : Prop :=
  e.faithful s = true ∧ AnsweredStep b s e s'

/-- In every run under the condition, a JOIN is who HOST accepted. -/
theorem genuine_of_run (station_id host_name : Bytes) (host_tier : UInt8) (sched mission : Bytes)
    (disk : D) (b : Backend D) (es : List (Event D)) (s : HostRoom D)
    (h : Run (FaithfulStep b)
      (HostRoom.openRoom station_id host_name host_tier sched mission disk) es s) : Genuine s := by
  have hnil := openRoom_joins station_id host_name host_tier sched mission disk
  have hinv : Keyed s ∧ Identified s := by
    refine h.invariant (P := fun s => Keyed s ∧ Identified s) ?_
      ⟨keyed_openRoom station_id host_name host_tier sched mission disk, ?_, ?_⟩
    · rintro s e s' ⟨hclear, hstep⟩ ⟨hs, hq⟩
      exact ⟨keyed_step b hs hstep.2.2, identified_step b hq hs hclear hstep⟩
    · rw [hnil]
      simp
    · rw [hnil]
      simp
  exact genuine_of_identified hinv.2

/-- Whether HOST answers what it was asked, and JOINs keep different numbers. -/
def Event.proper (b : Backend D) (e : Event D) (s : HostRoom D) : Bool :=
  e.answers s && decide (((e.apply b s).joins.map JoinEntry.conn_id).Nodup)

theorem answeredStep_of_proper {b : Backend D} {s s' : HostRoom D} {e : Event D}
    (h : e.proper b s = true) (hstep : RoomStep b s e s') : AnsweredStep b s e s' := by
  simp only [Event.proper, Bool.and_eq_true, decide_eq_true_eq] at h
  obtain ⟨hen, rfl⟩ := hstep
  exact ⟨h.1, h.2, hen, rfl⟩

theorem genuine_of_run_accepted : Genuine (emptyRoom.after nothingStored accepted) :=
  genuine_of_run (ascii "A") (ascii "A") 1 [] [] () nothingStored accepted _
    ((run_of_canRun nothingStored (fun e s => e.faithful s && e.proper nothingStored s) accepted
      emptyRoom (by decide)).mono fun s e s' h => by
        rw [Bool.and_eq_true] at h
        exact ⟨h.1.1, answeredStep_of_proper h.1.2 h.2⟩)

/-- A JOIN is accepted as one, and sends a request as another, which HOST rejects: the relay holds
it for the other. -/
theorem renamed_by_rejected :
    ¬ ∀ (b : Backend Unit) (es : List (Event Unit)) (s : HostRoom Unit),
      Run (AnsweredStep b) emptyRoom es s → Genuine s := by
  intro hclaim
  have h := hclaim nothingStored
    [.connect, .arrive 0 (authReqPkt (ascii "a") 2), .read 0, .host 1 (authAckPkt 1 1), .welcome,
      .arrive 0 (authReqPkt (ascii "b") 1), .read 0, .host 1 (authAckPkt 0 0)] _
    ((run_of_canRun nothingStored (fun e s => e.proper nothingStored s) _ emptyRoom
      (by decide)).mono fun s e s' h => answeredStep_of_proper h.1 h.2)
  exact absurd h.1 (by decide)

end Bewe.Relay

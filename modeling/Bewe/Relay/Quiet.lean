import Bewe.Relay.Serve

/-!
# What a JOIN gets before it is accepted

A JOIN waits for AUTH_ACK and takes it for the first packet of its connection, so nothing else may
be queued to it before. `Quiet` is that invariant, with what makes it one: an entry is authenticated
only when its AUTH_ACK has been queued, or is about to be.

`quiet_of_run`: it holds in every run in which the lists of operators and of channels are not sent
while somebody waits, and nothing is sent between an acceptance and its AUTH_ACK. Those two lists
are sent to all JOINs that are connected (`opList_to_waiting`), and an entry is marked before its
AUTH_ACK is queued.
-/

namespace Bewe.Relay

open Lib Hist

variable {D : Type}

/-- Nothing but AUTH_ACK has been queued to a JOIN whose acceptance has not, and who is
authenticated has been sent its acceptance, or is next. -/
structure Quiet (s : HostRoom D) : Prop where
  quiet : ∀ j ∈ s.joins, j.acked = false → ∀ p ∈ j.queued, pktType p.2 = BEWE_TYPE_AUTH_ACK
  acked : ∀ j ∈ s.joins, j.authed = true → j.acked = true ∨ ∃ pkt, s.accepting = some (j.key, pkt)

/-- Somebody is connected and not authenticated. -/
def HostRoom.waiting (s : HostRoom D) : Bool := s.joins.any fun j => j.up && !j.authed

/-- Reading from an authenticated JOIN sends a list to everybody: it leaves, or changes what it
listens to. -/
def HostRoom.tells (s : HostRoom D) (j : JoinEntry) : Bool :=
  s.alive && (!j.alive ||
    match receive j.inbuf with
    | .more => false
    | .oversized => true
    | .packet pkt _ => togglesRecv pkt || !s.opened)

/-- The condition on a step: no list is sent to everybody while somebody waits, and nothing is sent
while an acceptance is being carried out. -/
def Event.clear : Event D → HostRoom D → Bool
  | .welcome, s => s.accepting.isNone || !s.waiting
  | .host _ pkt, s => pktType pkt != BEWE_TYPE_CH_SYNC || !s.waiting
  | .read key, s =>
    match s.find key with
    | none => true
    | some j => !j.authed || s.accepting.isNone && (!s.tells j || !s.waiting)
  | .hangup key, s =>
    match s.find key with
    | none => true
    | some j => !j.authed || !s.alive || s.accepting.isNone && !s.waiting
  | .diskStat _, s | .chat _, s | .modulePkt _ _, s => s.accepting.isNone
  | _, _ => true

/-! ## What keeps the invariant -/

/-- Who is served keeps quiet if only those whose acceptance has been queued may have something. -/
theorem quiet_of_serves {may : Bool → Bool → Prop} {s s' : HostRoom D} (h : Quiet s)
    (hs : Serves may s s') (hmay : ∀ j ∈ s.joins, may j.authed j.up → j.acked = true) : Quiet s' := by
  constructor
  · intro j' hj' hacked p hp
    obtain ⟨j, hj, hserved⟩ := hs.mem hj'
    rw [hserved.acked] at hacked
    obtain ⟨new, hq, hnew⟩ := hserved.queued
    rw [hq] at hp
    rcases List.mem_append.mp hp with hp | hp
    · exact h.quiet j hj hacked p hp
    · rcases hnew p hp with hm | hack
      · exact absurd (hmay j hj hm) (by simp [hacked])
      · exact hack
  · intro j' hj' hauth
    obtain ⟨j, hj, hserved⟩ := hs.mem hj'
    rw [hserved.authed] at hauth
    rw [hserved.acked, hserved.key, hs.accepting]
    exact h.acked j hj hauth

/-- Entries may change in everything else. -/
theorem quiet_mapJoins {s : HostRoom D} (h : Quiet s) (f : JoinEntry → JoinEntry)
    (hf : ∀ j, (f j).key = j.key ∧ (f j).authed = j.authed ∧ (f j).acked = j.acked ∧
      (f j).queued = j.queued) : Quiet (s.mapJoins f) := by
  constructor
  · intro j' hj' hacked p hp
    obtain ⟨j, hj, rfl⟩ := List.mem_map.mp hj'
    obtain ⟨-, -, hk, hq⟩ := hf j
    rw [hk] at hacked
    rw [hq] at hp
    exact h.quiet j hj hacked p hp
  · intro j' hj' hauth
    obtain ⟨j, hj, rfl⟩ := List.mem_map.mp hj'
    obtain ⟨hkey, ha, hk, -⟩ := hf j
    rw [ha] at hauth
    rw [hk, hkey]
    exact h.acked j hj hauth

theorem quiet_modify {s : HostRoom D} (h : Quiet s) (key : ℕ) (f : JoinEntry → JoinEntry)
    (hf : ∀ j, (f j).key = j.key ∧ (f j).authed = j.authed ∧ (f j).acked = j.acked ∧
      (f j).queued = j.queued) : Quiet (s.modify key f) := by
  refine quiet_mapJoins h _ fun j => ?_
  split_ifs
  · exact hf j
  · exact ⟨rfl, rfl, rfl, rfl⟩

theorem quiet_of_eq {s s' : HostRoom D} (h : Quiet s) (hj : s'.joins = s.joins)
    (ha : s'.accepting = s.accepting) : Quiet s' := by
  constructor
  · rw [hj]
    exact h.quiet
  · rw [hj, ha]
    exact h.acked

/-- When no acceptance is in progress, who is authenticated has been sent one. -/
theorem acked_of_authed {s : HostRoom D} (h : Quiet s) (hnone : s.accepting = none) :
    ∀ j ∈ s.joins, toAuthed j.authed j.up → j.acked = true := by
  intro j hj hauth
  rcases h.acked j hj hauth with hacked | ⟨pkt, hpkt⟩
  · exact hacked
  · rw [hnone] at hpkt
    exact absurd hpkt (by simp)

/-- When nobody waits, everybody who is connected has been sent one. -/
theorem acked_of_up {s : HostRoom D} (h : Quiet s) (hnone : s.accepting = none)
    (hwait : s.waiting = false) : ∀ j ∈ s.joins, toUp j.authed j.up → j.acked = true := by
  intro j hj hup
  refine acked_of_authed h hnone j hj ?_
  rcases hup with hauth | hup
  · exact hauth
  · have := List.any_eq_false.mp hwait j hj
    simpa [toAuthed, hup] using this

/-- A JOIN leaves; the list of operators follows if it was one. -/
theorem quiet_joinExit {s : HostRoom D} (h : Quiet s) (j : JoinEntry)
    (hlist : j.authed = true → s.alive = true → s.accepting = none ∧ s.waiting = false) :
    Quiet (s.joinExit j) := by
  have hsub : ∀ k ∈ (s.without j).joins, k ∈ s.joins := by
    rw [without_joins]
    exact fun k hk => List.mem_of_mem_filter hk
  have hacc : (s.without j).accepting = s.accepting := congrArg Prod.fst (without_frame s j)
  have hquiet : Quiet (s.without j) := by
    constructor
    · exact fun k hk => h.quiet k (hsub k hk)
    · intro k hk hauth
      rw [hacc]
      exact h.acked k (hsub k hk) hauth
  unfold HostRoom.joinExit
  split_ifs with hc
  · rw [Bool.and_eq_true] at hc
    obtain ⟨hnone, hwait⟩ := hlist hc.2 hc.1
    refine quiet_of_serves hquiet (serves_opList _) (acked_of_up hquiet (hacc.trans hnone) ?_)
    rw [HostRoom.waiting, List.any_eq_false] at hwait ⊢
    exact fun k hk => hwait k (hsub k hk)
  · exact hquiet

/-! ## Steps -/

theorem quiet_answered {s : HostRoom D} (h : Quiet s) (conn_id : ℕ) (ok : Bool) :
    Quiet (s.answered conn_id ok) := by
  unfold HostRoom.answered
  split
  · exact h
  · exact quiet_modify h _ _ fun j => ⟨rfl, rfl, rfl, rfl⟩

@[simp] theorem answered_accepting (s : HostRoom D) (conn_id : ℕ) (ok : Bool) :
    (s.answered conn_id ok).accepting = s.accepting := by
  unfold HostRoom.answered
  split <;> rfl

/-- Who waits is not changed with what leaves connections and acceptances as they are. -/
theorem waiting_modify (s : HostRoom D) (key : ℕ) (f : JoinEntry → JoinEntry)
    (hf : ∀ j, (f j).up = j.up ∧ (f j).authed = j.authed) :
    (s.modify key f).waiting = s.waiting := by
  simp only [HostRoom.modify, HostRoom.mapJoins, HostRoom.waiting, List.any_map]
  congr 1
  funext k
  simp only [Function.comp_apply]
  split_ifs
  · rw [(hf k).1, (hf k).2]
  · rfl

@[simp] theorem answered_waiting (s : HostRoom D) (conn_id : ℕ) (ok : Bool) :
    (s.answered conn_id ok).waiting = s.waiting := by
  unfold HostRoom.answered
  split
  · rfl
  · exact waiting_modify s _ _ fun j => ⟨rfl, rfl⟩

theorem quiet_mark {s : HostRoom D} (h : Quiet s) (hnone : s.accepting = none) (key : ℕ)
    (op_idx : UInt8) (pkt : Bytes) : Quiet (s.mark key op_idx pkt) := by
  constructor
  · intro k' hk'
    obtain ⟨k, hk, rfl⟩ := List.mem_map.mp hk'
    split_ifs <;> exact h.quiet k hk
  · intro k' hk' hauth
    obtain ⟨k, hk, rfl⟩ := List.mem_map.mp hk'
    by_cases hkey : k.key = key
    · exact Or.inr ⟨pkt, by simp [HostRoom.mark, hkey]⟩
    · left
      rw [if_neg hkey] at hauth ⊢
      exact acked_of_authed h hnone k hk hauth

theorem quiet_dispatch (b : Backend D) {s : HostRoom D} (h : Quiet s) (hnone : s.accepting = none)
    (conn_id : ℕ) (pkt : Bytes) (hclear : pktType pkt = BEWE_TYPE_CH_SYNC → s.waiting = false) :
    Quiet (s.dispatchToJoins b conn_id pkt) := by
  unfold HostRoom.dispatchToJoins
  by_cases hlen : pkt.length < BEWE_HDR_SIZE
  · rw [if_pos hlen]
    exact h
  rw [if_neg hlen]
  have h₁ : ∀ ok, Quiet (s.answered conn_id ok) := fun ok => quiet_answered h conn_id ok
  cases s.acceptedEntry conn_id pkt with
  | some e => exact quiet_mark (h₁ true) (by rw [answered_accepting, hnone]) _ _ _
  | none =>
    have h₂ : Quiet (s.rejected conn_id pkt) ∧ (s.rejected conn_id pkt).accepting = none ∧
        (s.rejected conn_id pkt).waiting = s.waiting := by
      unfold HostRoom.rejected
      split_ifs
      · exact ⟨h₁ false, by rw [answered_accepting, hnone], answered_waiting s conn_id false⟩
      · exact ⟨h, hnone, rfl⟩
    obtain ⟨hq, hacc, hwait⟩ := h₂
    refine quiet_of_serves hq (serves_relayPacket b _ conn_id pkt) ?_
    split_ifs with hc
    · exact acked_of_up hq hacc (hwait.trans (hclear hc))
    · exact acked_of_authed hq hacc

/-- When its AUTH_ACK is queued, the acceptance in progress is over. -/
theorem quiet_queueAck {s : HostRoom D} (h : Quiet s) {key : ℕ} {pkt : Bytes}
    (hacc : s.accepting = some (key, pkt)) : Quiet (s.queueAck key pkt) := by
  constructor
  · intro k' hk' hacked
    obtain ⟨k, hk, rfl⟩ := List.mem_map.mp hk'
    split_ifs at hacked ⊢
    exact h.quiet k hk hacked
  · intro k' hk' hauth
    obtain ⟨k, hk, rfl⟩ := List.mem_map.mp hk'
    left
    split_ifs at hauth ⊢ with hkey
    · rfl
    · rcases h.acked k hk hauth with hacked | ⟨p, hp⟩
      · exact hacked
      · rw [hacc] at hp
        exact absurd (congrArg Prod.fst (Option.some.inj hp)).symm hkey

theorem queueAck_acked (s : HostRoom D) (key : ℕ) (pkt : Bytes) :
    ∀ k ∈ (s.queueAck key pkt).joins, k.key = key → k.acked = true := by
  intro k' hk' hkey
  obtain ⟨k, hk, rfl⟩ := List.mem_map.mp hk'
  split_ifs at hkey ⊢ with hk₁
  · rfl
  · exact absurd hkey hk₁

theorem queueAck_waiting (s : HostRoom D) (key : ℕ) (pkt : Bytes) :
    (s.queueAck key pkt).waiting = s.waiting :=
  waiting_modify { s with accepting := none } key _ fun _ => ⟨rfl, rfl⟩

/-- Who has been sent its acceptance may be sent anything. -/
theorem quiet_reply {s : HostRoom D} (h : Quiet s) (key : ℕ) (pkts : List (Queue × Bytes))
    (hkey : ∀ k ∈ s.joins, k.key = key → k.acked = true) :
    Quiet (s.reply key pkts) ∧ ∀ k ∈ (s.reply key pkts).joins, k.key = key → k.acked = true := by
  refine ⟨⟨?_, ?_⟩, ?_⟩
  · intro k' hk' hacked
    obtain ⟨k, hk, rfl⟩ := List.mem_map.mp hk'
    split_ifs at hacked ⊢ with hk₁
    · exact absurd (hkey k hk hk₁) (by simp [show k.acked = false from hacked])
    · exact h.quiet k hk hacked
  · intro k' hk' hauth
    obtain ⟨k, hk, rfl⟩ := List.mem_map.mp hk'
    split_ifs at hauth ⊢ <;> exact h.acked k hk hauth
  · intro k' hk' hkey'
    obtain ⟨k, hk, rfl⟩ := List.mem_map.mp hk'
    split_ifs at hkey' ⊢ <;> exact hkey k hk hkey'

/-- The acceptance is carried out: its AUTH_ACK first. -/
theorem quiet_welcome (b : Backend D) {s : HostRoom D} (h : Quiet s)
    (hclear : s.accepting = none ∨ s.waiting = false) : Quiet (s.welcome b) := by
  unfold HostRoom.welcome
  cases hacc : s.accepting with
  | none => exact h
  | some a =>
    obtain ⟨key, pkt⟩ := a
    have hwait : s.waiting = false := hclear.resolve_left (by rw [hacc]; simp)
    have hacked := queueAck_acked s key pkt
    have hq := quiet_queueAck h hacc
    have hwait₁ := (queueAck_waiting s key pkt).trans hwait
    have hnone : (s.queueAck key pkt).accepting = none := rfl
    dsimp only
    generalize s.queueAck key pkt = s₁ at *
    obtain ⟨hq₂, hacked₂⟩ := quiet_reply hq key s.cachedPackets hacked
    have hwait₂ : (s₁.reply key s.cachedPackets).waiting = false := by
      rw [← hwait₁]
      exact waiting_modify s₁ key _ fun _ => ⟨rfl, rfl⟩
    have hnone₂ : (s₁.reply key s.cachedPackets).accepting = none := hnone
    generalize s₁.reply key s.cachedPackets = s₂ at *
    have hlist := serves_opList s₂
    refine (quiet_reply (quiet_of_serves hq₂ hlist (acked_of_up hq₂ hnone₂ hwait₂)) key _ ?_).1
    intro k' hk' hkey
    obtain ⟨k, hk, hserved⟩ := hlist.mem hk'
    rw [hserved.acked]
    exact hacked₂ k hk (hserved.key.symm.trans hkey)

/-! ## Reading from a JOIN -/

theorem waiting_of_serves {may : Bool → Bool → Prop} {s s' : HostRoom D} (h : Serves may s s') :
    s'.waiting = s.waiting := by
  obtain ⟨⟨f, hf, hs⟩, -⟩ := h
  have hany : ∀ l : List JoinEntry, (∀ j ∈ l, Served may j (f j)) →
      (l.map f).any (fun j => j.up && !j.authed) = l.any fun j => j.up && !j.authed := by
    intro l hl
    rw [List.any_map]
    induction l with
    | nil => rfl
    | cons j l ih =>
      have hj := hl j List.mem_cons_self
      rw [List.any_cons, List.any_cons, ih fun k hk => hl k (List.mem_cons_of_mem j hk)]
      simp only [Function.comp_apply, JoinEntry.up, hj.alive, hj.opened, hj.authed]
  rw [HostRoom.waiting, HostRoom.waiting, hf, hany s.joins hs]

/-- A JOIN that is not authenticated gets nothing for what it sends, and nobody else does; nor does
the room change. -/
theorem quiet_interceptJoinCmd (b : Backend D) {s : HostRoom D} (h : Quiet s) (j : JoinEntry)
    (pkt : Bytes) (hj : ∀ k ∈ s.joins, k.key = j.key → k.authed = j.authed)
    (hnone : j.authed = true → s.accepting = none)
    (htoggle : j.authed = true → togglesRecv pkt = true → s.waiting = false) :
    Quiet (s.interceptJoinCmd b j pkt).1 ∧ (s.interceptJoinCmd b j pkt).1.frame = s.frame ∧
      (s.interceptJoinCmd b j pkt).1.waiting = s.waiting := by
  rcases interceptJoinCmd_cases b s j pkt with ⟨c, hi, -⟩ | ⟨r, -, hi⟩ | ⟨hauth, -, hi⟩
  · rw [hi]
    exact ⟨h, rfl, rfl⟩
  · rw [hi]
    refine ⟨quiet_modify h _ _ fun j => ⟨rfl, rfl, rfl, rfl⟩, rfl, ?_⟩
    exact waiting_modify s _ _ fun _ => ⟨rfl, rfl⟩
  · rw [hi]
    have hs := serves_joinCmd b s j.key pkt fun k hk hkey => (hj k hk hkey).trans hauth
    refine ⟨quiet_of_serves h hs ?_, hs.frame, waiting_of_serves hs⟩
    split_ifs with ht
    · exact acked_of_up h (hnone hauth) (htoggle hauth ht)
    · exact acked_of_authed h (hnone hauth)

/-- A round of reading, when no list follows that somebody waiting would get. -/
theorem quiet_joinLoop (b : Backend D) {s : HostRoom D} (h : Quiet s) (hs : Keyed s) (j : JoinEntry)
    (hj : j ∈ s.joins) (halive : s.alive = true) (hnone : j.authed = true → s.accepting = none)
    (hlist : j.authed = true → s.tells j = true → s.waiting = false) :
    Quiet (s.joinLoop b j) := by
  unfold HostRoom.joinLoop
  unfold HostRoom.tells at hlist
  rw [halive, Bool.true_and] at hlist
  cases hrecv : receive j.inbuf with
  | more => exact h
  | oversized =>
    refine quiet_joinExit h j fun hauth _ => ⟨hnone hauth, hlist hauth ?_⟩
    simp [hrecv]
  | packet pkt rest =>
    simp only [hrecv] at hlist
    dsimp only
    set s₁ := s.modify j.key fun j => { j with inbuf := rest } with hs₁
    have h₁ : Quiet s₁ := quiet_modify h _ _ fun j => ⟨rfl, rfl, rfl, rfl⟩
    have hwait₁ : s₁.waiting = s.waiting := waiting_modify s _ _ fun _ => ⟨rfl, rfl⟩
    have hframe₁ : s₁.frame = s.frame := rfl
    have hauth₁ : ∀ k ∈ s₁.joins, k.key = j.key → k.authed = j.authed :=
      hs.authed_modify hj fun _ => ⟨rfl, rfl⟩
    obtain ⟨h₂, hframe₂, hwait₂⟩ := quiet_interceptJoinCmd b h₁ j pkt hauth₁ hnone
      fun hauth ht => hwait₁.trans (hlist hauth (by simp [ht]))
    generalize s₁.interceptJoinCmd b j pkt = p at h₂ hframe₂ hwait₂ ⊢
    obtain ⟨s₂, consumed⟩ := p
    dsimp only at h₂ hframe₂ hwait₂ ⊢
    split_ifs
    · exact h₂
    · have hopen : s₂.opened = s.opened := congrArg (fun x => x.2.2.1) (hframe₂.trans hframe₁)
      have hacc : s₂.accepting = s.accepting := congrArg Prod.fst (hframe₂.trans hframe₁)
      unfold HostRoom.passOn
      split_ifs with hup
      · have h₃ : Quiet (s₂.enqueueHostSend ⟨some j.key, j.conn_id, .data, pkt⟩) :=
          quiet_of_eq h₂ rfl rfl
        exact quiet_modify h₃ _ _ fun j => ⟨rfl, rfl, rfl, rfl⟩
      · refine quiet_joinExit h₂ j fun hauth halive₂ => ⟨hacc.trans (hnone hauth), ?_⟩
        rw [hwait₂, hwait₁]
        refine hlist hauth ?_
        rw [Bool.and_eq_true, not_and, Bool.not_eq_true] at hup
        rw [← hopen, hup halive₂]
        simp

/-! ## Runs -/

/-- Every step under the condition keeps quiet. -/
theorem quiet_step (b : Backend D) {s s' : HostRoom D} {e : Event D} (h : Quiet s) (hs : Keyed s)
    (hclear : e.clear s = true) (hstep : RoomStep b s e s') : Quiet s' := by
  obtain ⟨hen, rfl⟩ := hstep
  cases e with
  | connect =>
    constructor
    · intro j hj hacked p hp
      rcases List.mem_append.mp hj with hj | hj
      · exact h.quiet j hj hacked p hp
      · rw [List.mem_singleton.mp hj] at hp
        exact absurd hp (by simp [HostRoom.newEntry])
    · intro j hj hauth
      rcases List.mem_append.mp hj with hj | hj
      · exact h.acked j hj hauth
      · rw [List.mem_singleton.mp hj] at hauth
        exact absurd hauth (by simp [HostRoom.newEntry])
  | arrive key bytes => exact quiet_modify h _ _ fun j => ⟨rfl, rfl, rfl, rfl⟩
  | sendFailed key => exact quiet_modify h _ _ fun j => ⟨rfl, rfl, rfl, rfl⟩
  | read key =>
    simp only [Event.apply]
    unfold Event.clear at hclear
    cases hfind : s.find key with
    | none => exact h
    | some j =>
      simp only [hfind, Bool.or_eq_true, Bool.and_eq_true, Bool.not_eq_true', Option.isNone_iff_eq_none]
        at hclear
      have hnone : j.authed = true → s.accepting = none := fun hauth =>
        (hclear.resolve_left (by simp [hauth])).1
      have hlist : j.authed = true → s.tells j = true → s.waiting = false := fun hauth ht =>
        (hclear.resolve_left (by simp [hauth])).2.resolve_left (by simp [ht])
      dsimp only
      split_ifs with hup
      · rw [Bool.and_eq_true] at hup
        exact quiet_joinLoop b h hs j (find_eq_some hfind).1 hup.2 hnone hlist
      · refine quiet_joinExit h j fun hauth halive => ⟨hnone hauth, hlist hauth ?_⟩
        rw [Bool.and_eq_true, not_and'] at hup
        simp [HostRoom.tells, halive, hup halive]
  | hangup key =>
    simp only [Event.apply]
    unfold Event.clear at hclear
    cases hfind : s.find key with
    | none => exact h
    | some j =>
      simp only [hfind, Bool.or_eq_true, Bool.and_eq_true, Bool.not_eq_true', Option.isNone_iff_eq_none]
        at hclear
      exact quiet_joinExit h j fun hauth halive =>
        hclear.resolve_left (by simp [hauth, halive])
  | host conn_id pkt =>
    simp only [Event.enabled, Bool.and_eq_true, Option.isNone_iff_eq_none] at hen
    simp only [Event.clear, Bool.or_eq_true, bne_iff_ne, ne_eq, Bool.not_eq_true'] at hclear
    exact quiet_dispatch b h hen.2 conn_id pkt fun hc => hclear.resolve_left (not_not.mpr hc)
  | welcome =>
    simp only [Event.clear, Bool.or_eq_true, Option.isNone_iff_eq_none, Bool.not_eq_true'] at hclear
    exact quiet_welcome b h hclear
  | hostHb first user_count =>
    simp only [Event.enabled, Bool.and_eq_true, Option.isNone_iff_eq_none] at hen
    have hlist : Quiet (if first then s.broadcastDbList b else s) := by
      split_ifs
      · exact quiet_of_serves h (serves_dbList b s) (acked_of_authed h hen.2)
      · exact h
    exact quiet_of_eq hlist rfl rfl
  | hostState operator_login => exact quiet_of_eq h rfl rfl
  | diskStat p =>
    simp only [Event.clear, Option.isNone_iff_eq_none] at hclear
    exact quiet_of_serves h (serves_diskStat b s p) (acked_of_authed h hclear)
  | stored disk => exact quiet_of_eq h rfl rfl
  | chat pkt =>
    simp only [Event.clear, Option.isNone_iff_eq_none] at hclear
    exact quiet_of_serves h (serves_chatEvent b s pkt) (acked_of_authed h hclear)
  | modulePkt pkt sub_mod =>
    simp only [Event.clear, Option.isNone_iff_eq_none] at hclear
    exact quiet_of_serves h (serves_modulePkt s pkt sub_mod) (acked_of_authed h hclear)
  | toHost pkt =>
    have hsend : Serves (fun _ _ => False) s (s.sendToHost 0xFFFF pkt) := serves_sendToHost s _ _
    exact quiet_of_serves h hsend fun _ _ hno => hno.elim
  | close => exact ⟨by simp [Event.apply], by simp [Event.apply]⟩

/-- A step that meets the condition. -/
def ClearRoomStep (b : Backend D) (s : HostRoom D) (e : Event D) (s' : HostRoom D) : Prop :=
  e.clear s = true ∧ RoomStep b s e s'

section

variable (station_id host_name : Bytes) (host_tier : UInt8) (sched mission : Bytes) (disk : D)

theorem openRoom_joins :
    (HostRoom.openRoom station_id host_name host_tier sched mission disk).joins = [] := by
  unfold HostRoom.openRoom HostRoom.buildAndBroadcastOpList HostRoom.sendToHost
  dsimp only
  split_ifs <;> rfl

theorem keyed_openRoom :
    Keyed (HostRoom.openRoom station_id host_name host_tier sched mission disk) := by
  have hnil := openRoom_joins station_id host_name host_tier sched mission disk
  exact ⟨by rw [hnil]; exact List.nodup_nil, by rw [hnil]; simp⟩

/-- In every run under the condition, nothing but AUTH_ACK is queued to a JOIN before its acceptance
is. -/
theorem quiet_of_run (b : Backend D) (es : List (Event D)) (s : HostRoom D)
    (h : Run (ClearRoomStep b)
      (HostRoom.openRoom station_id host_name host_tier sched mission disk) es s) :
    ∀ j ∈ s.joins, j.acked = false → ∀ p ∈ j.queued, pktType p.2 = BEWE_TYPE_AUTH_ACK := by
  have hnil := openRoom_joins station_id host_name host_tier sched mission disk
  have hinv : Keyed s ∧ Quiet s := by
    refine h.invariant (P := fun s => Keyed s ∧ Quiet s) ?_
      ⟨keyed_openRoom station_id host_name host_tier sched mission disk, ?_, ?_⟩
    · rintro s e s' ⟨hclear, hstep⟩ ⟨hs, hq⟩
      exact ⟨keyed_step b hs hstep, quiet_step b hq hs hclear hstep⟩
    · rw [hnil]
      simp
    · rw [hnil]
      simp
  exact hinv.2.quiet

end

/-- A list of events that can happen, each of them under a condition, is a run. -/
theorem run_of_canRun (b : Backend D) (ok : Event D → HostRoom D → Bool) (es : List (Event D))
    (s : HostRoom D)
    (h : follows (fun e s => ok e s && e.enabled s) (fun e s => e.apply b s) s es = true) :
    Run (fun s e s' => ok e s = true ∧ RoomStep b s e s') s es (s.after b es) :=
  run_of_follows _ (fun e s hstep => by
    rw [Bool.and_eq_true] at hstep
    exact ⟨hstep.1, hstep.2, rfl⟩) es s h

/-- Databases and an archive in which there is nothing. -/
def nothingStored : Backend Unit where
  onJoin _ _ _ _ := ⟨(), [], [], false⟩
  onHost _ _ := ⟨(), [], [], false⟩
  dbList _ := makeBewePacket BEWE_TYPE_DB_LIST [0, 0]
  zstd := storedZstd
  chsyncZstd := false

/-- A room with nothing in it. -/
def emptyRoom : HostRoom Unit := HostRoom.openRoom (ascii "A") (ascii "A") 1 [] [] ()

/-- The packets of an authentication: of a name, and HOST's answer. -/
def authReqPkt (name : Bytes) (tier : UInt8) : Bytes :=
  makeBewePacket BEWE_TYPE_AUTH_REQ (charArray 32 name ++ charArray 64 [] ++ [tier])

@[inherit_doc authReqPkt] def authAckPkt (ok op_index : UInt8) : Bytes :=
  makeBewePacket BEWE_TYPE_AUTH_ACK (ok :: op_index :: charArray 48 [])

/-- A JOIN connects and is rejected, asks again and is accepted; then HOST sends a heartbeat. -/
def accepted : List (Event Unit) :=
  [.connect, .arrive 0 (authReqPkt (ascii "a") 2), .read 0, .host 1 (authAckPkt 0 0), .welcome,
    .arrive 0 (authReqPkt (ascii "b") 2), .read 0, .host 1 (authAckPkt 1 1), .welcome,
    .host 0xFFFF (makeBewePacket BEWE_TYPE_HEARTBEAT [])]

/-- Then another connects and is rejected. -/
def acceptedRejected : List (Event Unit) :=
  accepted ++ [.connect, .arrive 1 (authReqPkt (ascii "c") 2), .read 1, .host 2 (authAckPkt 0 0)]

theorem quiet_of_run_accepted :
    (emptyRoom.after nothingStored acceptedRejected).joins.map JoinEntry.acked = [true, false] ∧
      ∀ j ∈ (emptyRoom.after nothingStored acceptedRejected).joins, j.acked = false →
        ∀ p ∈ j.queued, pktType p.2 = BEWE_TYPE_AUTH_ACK :=
  ⟨by decide +kernel,
    quiet_of_run (ascii "A") (ascii "A") 1 [] [] () nothingStored acceptedRejected _
      (run_of_canRun nothingStored Event.clear acceptedRejected emptyRoom (by decide))⟩

/-- Two JOINs are connected and HOST accepts the second: the first gets the list of operators. -/
theorem opList_to_waiting :
    ¬ ∀ (b : Backend Unit) (es : List (Event Unit)) (s : HostRoom Unit),
      Run (RoomStep b) emptyRoom es s →
        ∀ j ∈ s.joins, j.acked = false → ∀ p ∈ j.queued, pktType p.2 = BEWE_TYPE_AUTH_ACK := by
  intro hclaim
  have h := hclaim nothingStored
    [.connect, .connect, .arrive 1 (authReqPkt (ascii "a") 2), .read 1, .host 2 (authAckPkt 1 1),
      .welcome] _
    ((run_of_canRun nothingStored (fun _ _ => true) _ emptyRoom (by decide)).mono
      fun _ _ _ hstep => hstep.2)
  exact absurd h (by decide)

end Bewe.Relay

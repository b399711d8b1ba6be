import Bewe.Relay.Room

/-!
# Files on their way to JOINs

HOST sends a file as one FILE_META and a row of FILE_DATA, whose last one is marked; it may give up in
between. Central counts for each JOIN what it relays (`active_file_transfers`: one more with each META,
one less with each last DATA, but never below zero) and withholds FFT from a JOIN whose count is above
zero. What a packet does to a JOIN that it is for is `HostRoom.deliver`; here are also the transfers of
HOST that the packets belong to, and `enqueue_file`, which queues nothing for a JOIN whose connection
has failed since it was chosen.

`counted_of_run` says when the count is right, and `not_counted_of_empty` is a file without content:
HOST sends its META and nothing more.
-/

namespace Bewe.Relay

open Lib Hist

/-! ## Packets of a file -/

/-- What a packet of a file is: the first one, one with content, or the last one of these. -/
inductive FileKind
  | fileMeta
  | chunk
  | last
  deriving DecidableEq

/-- `is_file_meta` and `is_file_last`. -/
def fileKind (pkt : Bytes) : Option FileKind :=
  if pkt.length < BEWE_HDR_SIZE then none
  else if pktType pkt = BEWE_TYPE_FILE_META then some .fileMeta
  else if pktType pkt = BEWE_TYPE_FILE_DATA then
    if 2 ≤ (payload pkt).length ∧ (payload pkt).getD 1 0 = 1 then some .last else some .chunk
  else none

/-- What the count becomes with a packet. -/
def FileKind.count : FileKind → ℤ → ℤ
  | .fileMeta, n => n + 1
  | .chunk, n => n
  | .last, n => if n ≤ 0 then 0 else n - 1

/-! ## The state -/

/-- A JOIN, with the packets of files that were queued to it and the transfers that they belong to. -/
structure Receiver where
  entry : JoinEntry
  files : List (ℕ × FileKind)

/-- A transfer of HOST: to whom, a JOIN or, with `0xFFFF`, all of them, and whether it is in
progress. -/
structure HostTransfer where
  conn_id : ℕ
  in_progress : Bool

/-- The JOINs of a room and the transfers that HOST has begun, by their numbers. -/
structure Files where
  receivers : List Receiver
  transfers : List HostTransfer

/-- What a packet does to a JOIN that it is for: if the connection fails before it is queued, it is
counted only. -/
def Receiver.receive (pkt : Bytes) (t : ℕ) (k : FileKind) (fails : Bool) (r : Receiver) : Receiver :=
  if fails then
    { r with entry :=
      { r.entry with
        alive := false
        active_file_transfers := k.count r.entry.active_file_transfers } }
  else { entry := HostRoom.deliver pkt r.entry, files := r.files ++ [(t, k)] }

/-- A packet is relayed; `failing` has the identities of those whose connections fail meanwhile. -/
def Files.relay (conn_id : ℕ) (pkt : Bytes) (t : ℕ) (k : FileKind) (failing : List ℕ) (s : Files) :
    List Receiver :=
  s.receivers.map fun r =>
    if HostRoom.isTarget conn_id pkt r.entry then r.receive pkt t k (failing.contains r.entry.key)
    else r

/-- What can happen: a JOIN comes, something else happens to one, or it goes; HOST begins a transfer,
goes on with one, even after its last DATA, which a file that grows has more than once, or abandons
it. -/
inductive FileEvent
  | join (key conn_id : ℕ)
  | other (i : ℕ) (j : JoinEntry)
  | leave (i : ℕ)
  | sendMeta (conn_id : ℕ) (pkt : Bytes) (failing : List ℕ)
  | sendData (t : ℕ) (pkt : Bytes) (failing : List ℕ)
  | abandon (t : ℕ)

/-- A transfer is in progress no more. -/
def finish (t : ℕ) (transfers : List HostTransfer) : List HostTransfer :=
  transfers.modify t fun tr => { tr with in_progress := false }

/-- One event. What else happens to a JOIN leaves its connection's number and its count alone. -/
def Files.next (s : Files) : FileEvent → Files
  | .join key conn_id => { s with receivers := s.receivers ++ [⟨HostRoom.newEntry key conn_id, []⟩] }
  | .other i j =>
    { s with receivers := s.receivers.modify i fun r =>
      { r with entry :=
        { j with
          conn_id := r.entry.conn_id
          active_file_transfers := r.entry.active_file_transfers } } }
  | .leave i => { s with receivers := s.receivers.eraseIdx i }
  | .sendMeta conn_id pkt failing =>
    if fileKind pkt = some .fileMeta then
      { receivers := s.relay conn_id pkt s.transfers.length .fileMeta failing
        transfers := s.transfers ++ [⟨conn_id, true⟩] }
    else s
  | .sendData t pkt failing =>
    match s.transfers[t]?, fileKind pkt with
    | some tr, some .chunk => { s with receivers := s.relay tr.conn_id pkt t .chunk failing }
    | some tr, some .last =>
      { receivers := s.relay tr.conn_id pkt t .last failing
        transfers := finish t s.transfers }
    | _, _ => s
  | .abandon t => { s with transfers := finish t s.transfers }

/-- Nobody is there, and nothing sent. -/
def Files.start : Files where
  receivers := []
  transfers := []

/-! ## The count -/

/-- The transfers whose META was queued and whose last DATA was not. -/
def opened (files : List (ℕ × FileKind)) : List ℕ :=
  ((files.filter fun p => p.2 = .fileMeta).map Prod.fst).filter fun t => (t, FileKind.last) ∉ files

/-- A transfer is to a connection. -/
def HostTransfer.To (tr : HostTransfer) (conn_id : ℕ) : Prop :=
  tr.conn_id = 0xFFFF ∨ tr.conn_id = conn_id

/-- The count of a JOIN is right: it is the number of transfers whose META was queued to it and whose
last DATA was not, not negative, and zero if HOST has no transfer to it in progress; and FFT that the
JOIN has not paused is withheld only if one of these transfers is. -/
structure Counted (s : Files) (r : Receiver) : Prop where
  count : r.entry.active_file_transfers = (opened r.files).length
  nonneg : 0 ≤ r.entry.active_file_transfers
  idle : (∀ tr ∈ s.transfers, tr.in_progress = true → ¬tr.To r.entry.conn_id) →
    r.entry.active_file_transfers = 0
  withheld : ∀ pkt, pktType pkt = BEWE_TYPE_FFT → r.entry.fft_paused = false →
    HostRoom.deliver pkt r.entry = r.entry →
      ∃ t ∈ opened r.files, ∃ tr, s.transfers[t]? = some tr ∧ tr.in_progress = true ∧
        tr.To r.entry.conn_id

/-- What an event has to meet. A META reaches everybody that it is for. A last DATA reaches everybody
to whom its META was queued and the DATA was not; and to whom it is otherwise, nothing is open. And a
transfer is abandoned when nobody has its META. -/
def Files.Orderly (s : Files) : FileEvent → Prop
  | .sendMeta conn_id pkt failing => ∀ r ∈ s.receivers,
      HostRoom.isTarget conn_id pkt r.entry = true → r.entry.key ∉ failing
  | .sendData t pkt failing => fileKind pkt = some .last → ∀ tr, s.transfers[t]? = some tr →
      ∀ r ∈ s.receivers,
        (t ∈ opened r.files →
          HostRoom.isTarget tr.conn_id pkt r.entry = true ∧ r.entry.key ∉ failing) ∧
        (t ∉ opened r.files → HostRoom.isTarget tr.conn_id pkt r.entry = true → opened r.files = [])
  | .abandon t => ∀ r ∈ s.receivers, t ∉ opened r.files
  | _ => True

/-! ## What is delivered -/

theorem deliver_file {pkt : Bytes} {k : FileKind} (h : fileKind pkt = some k) (j : JoinEntry) :
    HostRoom.deliver pkt j =
      { j.enqueue .file pkt with active_file_transfers := k.count j.active_file_transfers } := by
  unfold fileKind at h
  unfold HostRoom.deliver
  dsimp only
  split_ifs at h with hshort hmeta hdata hlast
  · obtain rfl := Option.some.inj h
    rw [if_neg (by rw [hmeta]; rintro ⟨heq, -⟩; exact absurd heq (by decide)), if_pos hmeta]
    rfl
  · obtain rfl := Option.some.inj h
    rw [if_neg (by rw [hdata]; rintro ⟨heq, -⟩; exact absurd heq (by decide)), if_neg hmeta,
      if_pos hdata, if_pos hlast]
    rfl
  · obtain rfl := Option.some.inj h
    rw [if_neg (by rw [hdata]; rintro ⟨heq, -⟩; exact absurd heq (by decide)), if_neg hmeta,
      if_pos hdata, if_neg hlast]
    rfl

theorem pos_of_withheld {pkt : Bytes} {j : JoinEntry} (hfft : pktType pkt = BEWE_TYPE_FFT)
    (hpaused : j.fft_paused = false) (h : HostRoom.deliver pkt j = j) :
    0 < j.active_file_transfers := by
  by_contra hzero
  unfold HostRoom.deliver at h
  dsimp only at h
  have hctrl : HostRoom.isCtrl BEWE_TYPE_FFT = false := by decide
  rw [if_neg (by rintro ⟨-, hpos | hp⟩ <;> simp_all), hfft, if_neg (by decide), if_neg (by decide),
    hctrl] at h
  have hqueued := congrArg (fun j => j.queued.length) h
  simp [JoinEntry.enqueue] at hqueued

variable {D : Type}

/-! ## What is open -/

theorem mem_opened {files : List (ℕ × FileKind)} {t : ℕ} :
    t ∈ opened files ↔ (t, FileKind.fileMeta) ∈ files ∧ (t, FileKind.last) ∉ files := by
  simp [opened]

theorem opened_append_meta {files : List (ℕ × FileKind)} {t : ℕ} (h : (t, FileKind.last) ∉ files) :
    opened (files ++ [(t, .fileMeta)]) = opened files ++ [t] := by
  simp [opened, List.filter_append, h]

theorem opened_append_chunk (files : List (ℕ × FileKind)) (t : ℕ) :
    opened (files ++ [(t, .chunk)]) = opened files := by
  simp [opened, List.filter_append]

theorem opened_append_last (files : List (ℕ × FileKind)) (t : ℕ) :
    opened (files ++ [(t, .last)]) = (opened files).filter (· ≠ t) := by
  simp [opened, List.filter_append, List.filter_filter, Bool.and_comm]

/-! ## What is kept -/

/-- The count of a JOIN is the number of the transfers that are open, and these are in progress. -/
structure Receiver.Kept (transfers : List HostTransfer) (r : Receiver) : Prop where
  count : r.entry.active_file_transfers = (opened r.files).length
  going : ∀ t ∈ opened r.files, ∃ tr, transfers[t]? = some tr ∧ tr.in_progress = true ∧
    tr.To r.entry.conn_id
  begun : ∀ p ∈ r.files, p.1 < transfers.length
  nodup : (opened r.files).Nodup

/-- So it is for every JOIN. -/
def Files.Kept (s : Files) : Prop := ∀ r ∈ s.receivers, r.Kept s.transfers

variable {transfers : List HostTransfer} {r : Receiver} {s : Files}

theorem to_of_isTarget {conn_id : ℕ} {pkt : Bytes} {j : JoinEntry}
    (h : HostRoom.isTarget conn_id pkt j = true) (in_progress : Bool) :
    HostTransfer.To ⟨conn_id, in_progress⟩ j.conn_id := by
  unfold HostRoom.isTarget at h
  simp only [Bool.and_eq_true, decide_eq_true_eq] at h
  exact h.1.2

theorem Receiver.Kept.pass (h : r.Kept transfers) (tr : HostTransfer) :
    r.Kept (transfers ++ [tr]) where
  count := h.count
  going t ht := by
    obtain ⟨tr', hget, hrest⟩ := h.going t ht
    refine ⟨tr', ?_, hrest⟩
    rw [List.getElem?_append_left (List.getElem?_eq_some_iff.1 hget).1]
    exact hget
  begun p hp := by
    rw [List.length_append]
    exact (h.begun p hp).trans_le (Nat.le_add_right _ _)
  nodup := h.nodup

theorem Receiver.Kept.sendMeta (h : r.Kept transfers) {conn_id : ℕ} {pkt : Bytes}
    (hkind : fileKind pkt = some .fileMeta) (htarget : HostRoom.isTarget conn_id pkt r.entry = true) :
    (r.receive pkt transfers.length .fileMeta false).Kept (transfers ++ [⟨conn_id, true⟩]) := by
  have hfresh : ∀ k, (transfers.length, k) ∉ r.files := fun k hmem =>
    absurd (h.begun _ hmem) (Nat.lt_irrefl _)
  have hopened : opened (r.files ++ [(transfers.length, .fileMeta)]) =
      opened r.files ++ [transfers.length] := opened_append_meta (hfresh _)
  unfold Receiver.receive
  rw [if_neg Bool.false_ne_true, deliver_file hkind]
  exact
    { count := by
        rw [hopened, List.length_append, Nat.cast_add]
        exact congrArg (· + 1) h.count
      going := fun t ht => by
        rw [hopened] at ht
        rcases List.mem_append.1 ht with ht | ht
        · exact (h.pass _).going t ht
        · rw [List.mem_singleton.1 ht]
          exact ⟨_, List.getElem?_concat_length, rfl, to_of_isTarget htarget true⟩
      begun := fun p hp => by
        rcases List.mem_append.1 hp with hp | hp
        · exact (h.pass _).begun p hp
        · rw [List.mem_singleton.1 hp, List.length_append]
          exact Nat.lt_succ_self _
      nodup := by
        rw [hopened, List.nodup_append_comm]
        exact List.nodup_cons.2 ⟨fun hmem => hfresh _ (mem_opened.1 hmem).1, h.nodup⟩ }

theorem Receiver.Kept.sendChunk (h : r.Kept transfers) {t : ℕ} {pkt : Bytes} (fails : Bool)
    (hkind : fileKind pkt = some .chunk) (ht : t < transfers.length) :
    (r.receive pkt t .chunk fails).Kept transfers := by
  unfold Receiver.receive
  cases fails with
  | true => exact ⟨h.count, h.going, h.begun, h.nodup⟩
  | false =>
    have hopened := opened_append_chunk r.files t
    rw [if_neg Bool.false_ne_true, deliver_file hkind]
    exact
      { count := by rw [hopened]; exact h.count
        going := fun u hu => by rw [hopened] at hu; exact h.going u hu
        begun := fun p hp => by
          rcases List.mem_append.1 hp with hp | hp
          · exact h.begun p hp
          · rw [List.mem_singleton.1 hp]
            exact ht
        nodup := by rw [hopened]; exact h.nodup }

theorem Receiver.Kept.finish (h : r.Kept transfers) {t : ℕ} (ht : t ∉ opened r.files) :
    r.Kept (finish t transfers) where
  count := h.count
  going u hu := by
    obtain ⟨tr, hget, hrest⟩ := h.going u hu
    have hne : t ≠ u := fun heq => ht (heq ▸ hu)
    exact ⟨tr, (List.getElem?_modify_ne _ transfers hne).trans hget, hrest⟩
  begun p hp := by
    rw [Relay.finish, List.length_modify]
    exact h.begun p hp
  nodup := h.nodup

/-- Of different things one is taken away. -/
private theorem length_filter_ne {l : List ℕ} {t : ℕ} (hl : l.Nodup) (ht : t ∈ l) :
    (l.filter (· ≠ t)).length + 1 = l.length := by
  have herase : l.filter (· ≠ t) = l.erase t := by
    rw [hl.erase_eq_filter]
    exact List.filter_congr fun a _ => by simp [bne, beq_eq_decide]
  rw [herase, List.length_erase_of_mem ht]
  have hpos := List.length_pos_of_mem ht
  omega

theorem Receiver.Kept.sendLast (h : r.Kept transfers) {t : ℕ} {pkt : Bytes}
    (hkind : fileKind pkt = some .last) (ht : t ∈ opened r.files) :
    (r.receive pkt t .last false).Kept (Relay.finish t transfers) := by
  have hopened := opened_append_last r.files t
  have hlength := length_filter_ne h.nodup ht
  have hcount := h.count
  have hlt : t < transfers.length := h.begun _ (mem_opened.1 ht).1
  unfold Receiver.receive
  rw [if_neg Bool.false_ne_true, deliver_file hkind]
  exact
    { count := by
        rw [hopened]
        show (if r.entry.active_file_transfers ≤ 0 then 0 else r.entry.active_file_transfers - 1) = _
        rw [if_neg (by omega)]
        omega
      going := fun u hu => by
        rw [hopened] at hu
        obtain ⟨hmem, hne⟩ := List.mem_filter.1 hu
        obtain ⟨tr, hget, hrest⟩ := h.going u hmem
        have hne : t ≠ u := fun heq => by simp [heq] at hne
        exact ⟨tr, (List.getElem?_modify_ne _ transfers hne).trans hget, hrest⟩
      begun := fun p hp => by
        rw [Relay.finish, List.length_modify]
        rcases List.mem_append.1 hp with hp | hp
        · exact h.begun p hp
        · rw [List.mem_singleton.1 hp]
          exact hlt
      nodup := by
        rw [hopened]
        exact h.nodup.filter _ }

theorem Receiver.Kept.sendLateLast (h : r.Kept transfers) {t : ℕ} {pkt : Bytes} (fails : Bool)
    (hkind : fileKind pkt = some .last) (hnone : opened r.files = []) (hlt : t < transfers.length) :
    (r.receive pkt t .last fails).Kept (Relay.finish t transfers) := by
  have hzero : r.entry.active_file_transfers = 0 := by
    rw [h.count, hnone]
    rfl
  have hopened : opened (r.files ++ [(t, .last)]) = [] := by
    rw [opened_append_last, hnone]
    rfl
  have hfinish := h.finish (t := t) (by rw [hnone]; exact List.not_mem_nil)
  unfold Receiver.receive
  cases fails with
  | true =>
    refine ⟨?_, hfinish.going, hfinish.begun, hfinish.nodup⟩
    show (if r.entry.active_file_transfers ≤ 0 then 0 else r.entry.active_file_transfers - 1) =
      ((opened r.files).length : ℤ)
    rw [if_pos hzero.le, hnone]
    rfl
  | false =>
    rw [if_neg Bool.false_ne_true, deliver_file hkind]
    exact
      { count := by
          show (if r.entry.active_file_transfers ≤ 0 then 0 else r.entry.active_file_transfers - 1) = _
          rw [if_pos hzero.le, hopened]
          rfl
        going := fun u hu => by rw [hopened] at hu; exact absurd hu List.not_mem_nil
        begun := fun p hp => by
          rw [Relay.finish, List.length_modify]
          rcases List.mem_append.1 hp with hp | hp
          · exact h.begun p hp
          · rw [List.mem_singleton.1 hp]
            exact hlt
        nodup := by rw [hopened]; exact List.nodup_nil }

theorem Receiver.Kept.counted (h : r.Kept s.transfers) : Counted s r where
  count := h.count
  nonneg := by rw [h.count]; exact Int.natCast_nonneg _
  idle hidle := by
    have hnone : opened r.files = [] := by
      refine List.eq_nil_iff_forall_not_mem.2 fun t ht => ?_
      obtain ⟨tr, hget, hprogress, hto⟩ := h.going t ht
      exact hidle tr (List.mem_of_getElem? hget) hprogress hto
    rw [h.count, hnone]
    rfl
  withheld pkt hfft hpaused hsame := by
    have hpos := pos_of_withheld hfft hpaused hsame
    rw [h.count] at hpos
    obtain ⟨t, ht⟩ := List.exists_mem_of_length_pos (Int.natCast_pos.1 hpos)
    exact ⟨t, ht, h.going t ht⟩

/-! ## Runs -/

theorem relay_forall {P : Receiver → Prop} {conn_id : ℕ} {pkt : Bytes} {t : ℕ} {k : FileKind}
    {failing : List ℕ}
    (hto : ∀ r ∈ s.receivers, HostRoom.isTarget conn_id pkt r.entry = true →
      P (r.receive pkt t k (failing.contains r.entry.key)))
    (hother : ∀ r ∈ s.receivers, ¬HostRoom.isTarget conn_id pkt r.entry = true → P r) :
    ∀ r ∈ s.relay conn_id pkt t k failing, P r := by
  intro r hr
  obtain ⟨r, hmem, rfl⟩ := List.mem_map.1 hr
  split_ifs with htarget
  · exact hto r hmem htarget
  · exact hother r hmem htarget

theorem Files.Kept.next (h : s.Kept) (e : FileEvent) (hok : s.Orderly e) : (s.next e).Kept := by
  cases e with
  | join key conn_id =>
    intro r hr
    rcases List.mem_append.1 hr with hr | hr
    · exact h r hr
    · rw [List.mem_singleton.1 hr]
      exact ⟨rfl, fun t ht => absurd ht List.not_mem_nil, fun p hp => absurd hp List.not_mem_nil,
        List.nodup_nil⟩
  | other i j =>
    intro r hr
    obtain ⟨n, hn⟩ := List.mem_iff_getElem?.1 hr
    change (s.receivers.modify i _)[n]? = some r at hn
    rw [List.getElem?_modify] at hn
    obtain ⟨r', hget, rfl⟩ := Option.map_eq_some_iff.1 hn
    have hr' := h r' (List.mem_of_getElem? hget)
    split_ifs
    · exact ⟨hr'.count, hr'.going, hr'.begun, hr'.nodup⟩
    · exact hr'
  | leave i => exact fun r hr => h r (List.mem_of_mem_eraseIdx hr)
  | sendMeta conn_id pkt failing =>
    unfold Files.next
    dsimp only
    split_ifs with hkind
    · refine relay_forall (fun r hr htarget => ?_) fun r hr _ => (h r hr).pass _
      have halive : failing.contains r.entry.key = false := by
        simpa using hok r hr htarget
      rw [halive]
      exact (h r hr).sendMeta hkind htarget
    · exact h
  | sendData t pkt failing =>
    unfold Files.next
    dsimp only
    split
    next tr hget hkind =>
      have hlt := (List.getElem?_eq_some_iff.1 hget).1
      exact relay_forall (fun r hr _ => (h r hr).sendChunk _ hkind hlt) fun r hr _ => h r hr
    next tr hget hkind =>
      have hlt := (List.getElem?_eq_some_iff.1 hget).1
      have hends := hok hkind tr hget
      refine relay_forall (fun r hr htarget => ?_) fun r hr hother => ?_
      · by_cases hopen : t ∈ opened r.files
        · have halive : failing.contains r.entry.key = false := by
            simpa using ((hends r hr).1 hopen).2
          rw [halive]
          exact (h r hr).sendLast hkind hopen
        · exact (h r hr).sendLateLast _ hkind ((hends r hr).2 hopen htarget) hlt
      · exact (h r hr).finish fun hopen => hother ((hends r hr).1 hopen).1
    next => exact h
  | abandon t => exact fun r hr => (h r hr).finish (hok r hr)

/-- The state after a run. -/
def filesAfter (events : List FileEvent) : Files := events.foldl Files.next .start

/-- In every run, with any transfers side by side, JOINs that come, are authenticated and go: if every
event is orderly, the count of every JOIN is right in every state reached. -/
theorem counted_of_run (events : List FileEvent)
    (hok : ∀ es e, es ++ [e] <+: events → (filesAfter es).Orderly e) :
    ∀ es, es <+: events → ∀ r ∈ (filesAfter es).receivers, Counted (filesAfter es) r := by
  intro es hes r hr
  have hstart : Files.Kept .start := fun r hr => absurd hr List.not_mem_nil
  have hall := Lib.forall_prefix_foldl
    (fun s e (h : Files.Kept s) (hok : s.Orderly e) => h.next e hok) hstart hok
  exact (hall es hes r hr).counted

/-- A JOIN that is authenticated. -/
def authedEntry : JoinEntry := { HostRoom.newEntry 0 1 with authed := true }

/-- A FILE_META, and a FILE_DATA that is the last one. -/
def metaPacket : Bytes := makeBewePacket BEWE_TYPE_FILE_META [1]

@[inherit_doc metaPacket] def lastPacket : Bytes := makeBewePacket BEWE_TYPE_FILE_DATA [1, 1]

/-- A file of one FILE_DATA is sent to the only JOIN. -/
theorem counted_of_run_sent :
    (filesAfter [.join 0 1, .other 0 authedEntry, .sendMeta 1 metaPacket [],
      .sendData 0 lastPacket []]).receivers.length = 1 ∧
    ∀ r ∈ (filesAfter [.join 0 1, .other 0 authedEntry, .sendMeta 1 metaPacket [],
      .sendData 0 lastPacket []]).receivers,
      Counted (filesAfter [.join 0 1, .other 0 authedEntry, .sendMeta 1 metaPacket [],
        .sendData 0 lastPacket []]) r := by
  refine ⟨by decide, counted_of_run [.join 0 1, .other 0 authedEntry, .sendMeta 1 metaPacket [],
    .sendData 0 lastPacket []] ?_ _ List.prefix_rfl⟩
  refine Lib.forall_prefix_cons trivial (Lib.forall_prefix_cons trivial
    (Lib.forall_prefix_cons ?_ (Lib.forall_prefix_cons ?_ Lib.forall_prefix_nil)))
  · exact fun r _ _ => List.not_mem_nil
  · intro _ tr htr r hr
    have hall : (filesAfter [.join 0 1, .other 0 authedEntry, .sendMeta 1 metaPacket []]).receivers.all
        (fun r => decide (opened r.files = [0]) && HostRoom.isTarget 1 lastPacket r.entry) = true := by
      decide
    have hboth := List.all_eq_true.1 hall r hr
    simp only [Bool.and_eq_true, decide_eq_true_eq] at hboth
    obtain ⟨hopen, htarget⟩ := hboth
    obtain rfl : (⟨1, true⟩ : HostTransfer) = tr := Option.some.inj htr
    refine ⟨fun _ => ⟨htarget, List.not_mem_nil⟩, fun hnot => absurd ?_ hnot⟩
    rw [hopen]
    exact List.mem_cons_self

/-! ## A file without content -/

/-- HOST sends the META of an empty file, finds nothing to read, and is done. -/
def emptyFile : List FileEvent :=
  [.join 0 1, .other 0 authedEntry, .sendMeta 1 metaPacket [], .abandon 0]

/-- The JOIN gets no more FFT. -/
theorem not_counted_of_empty :
    ¬∀ events, ∀ r ∈ (filesAfter events).receivers, Counted (filesAfter events) r := by
  intro h
  have hreceivers : (filesAfter emptyFile).receivers.map
      (fun r => r.entry.active_file_transfers) = [1] := by decide
  have htransfers : (filesAfter emptyFile).transfers.map (fun tr => tr.in_progress) = [false] := by
    decide
  have hone : (1 : ℤ) ∈ (filesAfter emptyFile).receivers.map
      (fun r => r.entry.active_file_transfers) := by
    rw [hreceivers]
    exact List.mem_cons_self
  obtain ⟨r, hr, hcount⟩ := List.mem_map.1 hone
  have hidle := (h emptyFile r hr).idle fun tr htr hprogress => by
    have hmem := List.mem_map_of_mem (f := fun tr : HostTransfer => tr.in_progress) htr
    rw [htransfers, hprogress] at hmem
    simp at hmem
  rw [hcount] at hidle
  exact absurd hidle (by decide)

end Bewe.Relay

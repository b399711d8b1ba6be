import Bewe.MissionPush.Packets

/-!
# Several senders in one room

HOST and any number of JOINs push files to the room of their HOST. Each sends its packets in order,
one upload after another, and Central handles them in any order between senders. Transfers are kept
by the id that the sender chose, one byte, and all acknowledgements go to HOST.

`unmixed_of_run`: in every run in which no id and no file of an open transfer is used by another
upload, a file is complete with the bytes of its sender; and each acknowledgement reaches the sender
of the upload exactly if no JOIN's upload is acknowledged.
-/

namespace Bewe.MissionPush

open Lib Hist Archive

/-! ## The room -/

/-- The ids of a sender: `alloc_transfer_id` of HOST, which has no other transfer when it allocates,
and `alloc_upload_xfer_id` of a JOIN. With the id there is the counter after it. -/
def Sender.alloc : Sender → ℕ → ℕ × ℕ
  | .host, next => if next = 0 then (1, 2) else (next, (next + 1) % 256)
  | .join _, next => (if next < 0x80 then 0x80 else next, (next + 1) % 256)

/-- The counter of a sender that has allocated nothing. -/
def Sender.firstId : Sender → ℕ
  | .host => 1
  | .join _ => 0x80

/-- An upload on its way: how many packets its sender sends before it ends or is aborted, and how
many of them Central has handled. -/
structure Sending where
  upload : Upload
  limit : ℕ
  handled : ℕ

/-- The next packet. -/
def Sending.next (e : Sending) : Option Packet :=
  if e.handled < e.limit then e.upload.packet e.handled else none

/-- Some packets have been handled, and others are to come. -/
def Sending.active (e : Sending) : Bool := decide (0 < e.handled) && e.next.isSome

/-- A room with its senders. `sending` is every upload in the order of their start.

The last three fields are history: whose the transfer of an id is, the uploads that are complete,
with what their file read then, and the acknowledgements, each with its upload and whom it went
to. -/
structure PushRoom where
  archive : State
  next_id : Sender → ℕ
  sending : List Sending
  owner : ℕ → Option Upload
  completed : List (Upload × Option Bytes)
  acks : List (Upload × Sender × PktMissionFilePushAck)

/-- A room that was just opened: it has no transfers. -/
def openRoom (r : ℕ) (archive : State) : PushRoom where
  archive := archive.setRoom r { archive.rooms r with mission_xfers := ∅ }
  next_id := Sender.firstId
  sending := []
  owner _ := none
  completed := []
  acks := []

/-- A sender begins an upload, or Central handles the next packet of one, with what the system
refuses. -/
inductive Event
  | start (sender : Sender) (key : MissionFileKey) (info_data content : Bytes) (limit : ℕ)
  | handle (i : ℕ) (f : PushFaults) (mf : MergeFaults) (now : ℕ)

section

variable (z : Zstd) (root : Bytes) (r : ℕ)

/-- The upload that a sender begins. -/
def PushRoom.newUpload (s : PushRoom) (sender : Sender) (key : MissionFileKey)
    (info_data content : Bytes) : Upload :=
  ⟨sender, (sender.alloc (s.next_id sender)).1, key, info_data, content⟩

/-- What Central does with a packet of an upload. `send_push_ack` sends to HOST. -/
def PushRoom.handlePacket (s : PushRoom) (u : Upload) (p : Packet) (f : PushFaults)
    (mf : MergeFaults) (now : ℕ) : PushRoom :=
  match p with
  | .pushMeta m =>
    let (archive, acks) := pushMeta root r m f now s.archive
    { s with
      archive := archive
      owner := if acks = [] then Function.update s.owner m.transfer_id (some u) else s.owner
      acks := s.acks ++ acks.map fun a => (u, .host, a) }
  | .pushData d =>
    let (archive, acks) := pushData z r d f mf now s.archive
    let v := (s.owner d.transfer_id).getD u
    { s with
      archive := archive
      completed := s.completed ++
        (acks.filter fun a => a.status = 0).map fun _ => (v, written r s.archive d)
      acks := s.acks ++ acks.map fun a => (v, .host, a) }

/-- Whether an event can happen: the packets of a sender arrive in order. -/
def Event.enabled : Event → PushRoom → Bool
  | .start .., _ => true
  | .handle i _ _ _, s =>
    (s.sending[i]?).any fun e => e.next.isSome &&
      (s.sending.take i).all fun e' => e'.upload.sender != e.upload.sender || e'.next.isNone

/-- What an event does. -/
def Event.apply : Event → PushRoom → PushRoom
  | .start sender key info_data content limit, s =>
    { s with
      next_id := Function.update s.next_id sender (sender.alloc (s.next_id sender)).2
      sending := s.sending ++ [⟨s.newUpload sender key info_data content, limit, 0⟩] }
  | .handle i f mf now, s =>
    match s.sending[i]? with
    | none => s
    | some e =>
      match e.next with
      | none => s
      | some p =>
        let s := { s with sending := s.sending.set i { e with handled := e.handled + 1 } }
        s.handlePacket z root r e.upload p f mf now

/-- One step of a room. -/
def PushStep (s : PushRoom) (e : Event) (s' : PushRoom) : Prop :=
  e.enabled s = true ∧ s' = e.apply z root r s

/-- The uploads other than one of which Central has handled some packets, and not all. -/
def PushRoom.others (s : PushRoom) (i : ℕ) : List Sending :=
  (s.sending.eraseIdx i).filter Sending.active

/-- There is an open transfer of an id. -/
def PushRoom.isOpen (s : PushRoom) (tid : ℕ) : Bool := ((xfers r s.archive).lookup tid).isSome

/-- The condition on a packet of an upload. A META that opens a transfer has the id of no other
upload that goes on, and does not write the file of one; one that is refused has no id of an open
transfer. A segment that is complete is not joined to, or renamed over, the file of an upload that
goes on. -/
def PushRoom.clearFor (s : PushRoom) (i : ℕ) (u : Upload) (f : PushFaults) (mf : MergeFaults) :
    Packet → Prop
  | .pushMeta _ =>
    if u.path root = none then s.isOpen r u.transfer_id = false
    else f.open_ = none → ∀ e' ∈ s.others i,
      e'.upload.transfer_id ≠ u.transfer_id ∧
        (s.isOpen r e'.upload.transfer_id = true → ∀ p ∈ e'.upload.path root, ¬ u.Names root p)
  | .pushData d =>
    d.is_last = true → u.key.subdir = MFS_HIST → accepts f d = true →
      ∀ e' ∈ s.others i, s.isOpen r e'.upload.transfer_id = true →
        ∀ p ∈ e'.upload.path root, ∀ a ∈ afterWrite r s.archive d, ¬ MergeNames mf a.1 a.2 p

instance (s : PushRoom) (i : ℕ) (u : Upload) (f : PushFaults) (mf : MergeFaults) :
    DecidablePred (s.clearFor root r i u f mf)
  | .pushMeta _ => by
    dsimp only [PushRoom.clearFor]
    infer_instance
  | .pushData _ => inferInstanceAs (Decidable (_ → _))

/-- The condition on a step. -/
def Event.clear : Event → PushRoom → Prop
  | .start .., _ => True
  | .handle i f mf _, s => ∀ e ∈ s.sending[i]?, ∀ p ∈ e.next, s.clearFor root r i e.upload f mf p

instance : (e : Event) → (s : PushRoom) → Decidable (e.clear root r s)
  | .start .., _ => inferInstanceAs (Decidable True)
  | .handle i _ _ _, s => inferInstanceAs (Decidable (∀ e ∈ s.sending[i]?, _))

/-- A step that meets the condition. -/
def ClearPushStep (s : PushRoom) (e : Event) (s' : PushRoom) : Prop :=
  e.clear root r s ∧ PushStep z root r s e s'

end

/-- Every upload that is complete has been complete with the bytes of its sender. -/
def PushRoom.Unmixed (s : PushRoom) : Prop := ∀ c ∈ s.completed, c.2 = some c.1.content

/-- Every acknowledgement has gone to the sender of its upload. -/
def PushRoom.Answered (s : PushRoom) : Prop := ∀ a ∈ s.acks, a.2.1 = a.1.sender

/-! ## What the condition keeps -/

section

variable {z : Zstd} {root : Bytes} {r : ℕ}

/-- What is known of an upload that goes on: its transfer is its own and holds what was sent so far,
or there is no transfer of its id. -/
def Settled (root : Bytes) (r : ℕ) (s : PushRoom) (e : Sending) : Prop :=
  s.isOpen r e.upload.transfer_id = false ∨
    ∃ xf, Writing root r s.archive e.upload (e.handled - 1) xf ∧
      s.owner e.upload.transfer_id = some e.upload

/-- Two uploads that go on: an open transfer has an id of its own and a file of its own. -/
def Apart (root : Bytes) (r : ℕ) (s : PushRoom) (e e' : Sending) : Prop :=
  s.isOpen r e.upload.transfer_id = true → e'.upload.transfer_id ≠ e.upload.transfer_id ∧
    (s.isOpen r e'.upload.transfer_id = true → e'.upload.path root ≠ e.upload.path root)

/-- The invariant of a run under the condition. -/
structure Orderly (root : Bytes) (r : ℕ) (s : PushRoom) : Prop where
  settled : ∀ e ∈ s.sending, e.active = true → Settled root r s e
  apart : ∀ (i j : ℕ) (e e' : Sending), i ≠ j → s.sending[i]? = some e → s.sending[j]? = some e' →
    e.active = true → e'.active = true → Apart root r s e e'
  unmixed : s.Unmixed
  acks : ∀ a ∈ s.acks, a.2.1 = .host ∧ a.2.2.key = a.1.key ∧ a.2.2.transfer_id = a.1.transfer_id

theorem mem_others {s : PushRoom} {i j : ℕ} {e : Sending} (hj : s.sending[j]? = some e)
    (hne : j ≠ i) (hactive : e.active = true) : e ∈ s.others i :=
  List.mem_filter.mpr ⟨List.mem_eraseIdx_iff_getElem?.mpr ⟨j, hne, hj⟩, hactive⟩

theorem Writing.frame {s s' : State} {u : Upload} {i : ℕ} {xf : MissionFileTransfer}
    {N : Bytes → Prop} (h : Writing root r s u i xf)
    (hlookup : (xfers r s').lookup u.transfer_id = (xfers r s).lookup u.transfer_id)
    (hkeeps : Fs.Keeps N s.fs s'.fs) (hN : ¬ N xf.archive_path) : Writing root r s' u i xf := by
  obtain ⟨hfind, hcontent⟩ := hkeeps _ _ hN h.find
  exact ⟨hlookup.trans h.lookup, h.key, h.append, h.path, hfind, hcontent.trans h.content⟩

/-- A packet of one upload is handled: what is to be shown of it, and of the others, for the
invariant to hold. -/
theorem orderly_set {s s' : PushRoom} {i : ℕ} {e : Sending} (h : Orderly root r s)
    (hi : s.sending[i]? = some e)
    (hsending : s'.sending = s.sending.set i { e with handled := e.handled + 1 })
    (hself : Sending.active { e with handled := e.handled + 1 } = true →
      Settled root r s' { e with handled := e.handled + 1 })
    (hothers : ∀ e' ∈ s.others i, Settled root r s e' → Settled root r s' e' ∧
      (s'.isOpen r e'.upload.transfer_id = true → s.isOpen r e'.upload.transfer_id = true))
    (hapart : Sending.active { e with handled := e.handled + 1 } = true → ∀ e' ∈ s.others i,
      Apart root r s' { e with handled := e.handled + 1 } e' ∧
        Apart root r s' e' { e with handled := e.handled + 1 })
    (hunmixed : s'.Unmixed)
    (hacks : ∀ a ∈ s'.acks, a.2.1 = .host ∧ a.2.2.key = a.1.key ∧
      a.2.2.transfer_id = a.1.transfer_id) : Orderly root r s' := by
  have hlen : i < s.sending.length := (List.getElem?_eq_some_iff.mp hi).1
  have hget : ∀ j, s'.sending[j]? =
      if i = j then some { e with handled := e.handled + 1 } else s.sending[j]? := by
    intro j
    rw [hsending, List.getElem?_set]
    split_ifs <;> rfl
  have hother : ∀ j e', j ≠ i → s'.sending[j]? = some e' → e'.active = true →
      s.sending[j]? = some e' ∧ e' ∈ s.others i := by
    intro j e' hne hj hactive
    rw [hget, if_neg hne.symm] at hj
    exact ⟨hj, mem_others hj hne hactive⟩
  refine ⟨fun e' he' hactive => ?_, fun j k e₁ e₂ hne hj hk h₁ h₂ => ?_, hunmixed, hacks⟩
  · obtain ⟨j, hj⟩ := List.getElem?_of_mem he'
    by_cases hji : j = i
    · rw [hji, hget, if_pos rfl] at hj
      obtain rfl := Option.some.inj hj
      exact hself hactive
    · obtain ⟨hold, hmem⟩ := hother j e' hji hj hactive
      exact (hothers e' hmem (h.settled e' (List.mem_of_getElem? hold) hactive)).1
  · by_cases hji : j = i
    · rw [hji, hget, if_pos rfl] at hj
      obtain rfl := Option.some.inj hj
      have hki : k ≠ i := fun hki => hne (hji.trans hki.symm)
      exact (hapart h₁ e₂ (hother k e₂ hki hk h₂).2).1
    · obtain ⟨hold₁, hmem₁⟩ := hother j e₁ hji hj h₁
      by_cases hki : k = i
      · rw [hki, hget, if_pos rfl] at hk
        obtain rfl := Option.some.inj hk
        exact (hapart h₂ e₁ hmem₁).2
      · obtain ⟨hold₂, hmem₂⟩ := hother k e₂ hki hk h₂
        have hset₁ := h.settled e₁ (List.mem_of_getElem? hold₁) h₁
        have hset₂ := h.settled e₂ (List.mem_of_getElem? hold₂) h₂
        intro hopen
        obtain ⟨htid, hpath⟩ := h.apart j k e₁ e₂ hne hold₁ hold₂ h₁ h₂
          ((hothers e₁ hmem₁ hset₁).2 hopen)
        exact ⟨htid, fun hopen₂ => hpath ((hothers e₂ hmem₂ hset₂).2 hopen₂)⟩

theorem acks_append {acks : List (Upload × Sender × PktMissionFilePushAck)} {u : Upload}
    {a : PktMissionFilePushAck}
    (h : ∀ a ∈ acks, a.2.1 = .host ∧ a.2.2.key = a.1.key ∧ a.2.2.transfer_id = a.1.transfer_id)
    (hkey : a.key = u.key) (htid : a.transfer_id = u.transfer_id) :
    ∀ b ∈ acks ++ [(u, .host, a)], b.2.1 = .host ∧ b.2.2.key = b.1.key ∧
      b.2.2.transfer_id = b.1.transfer_id := by
  intro b hb
  rcases List.mem_append.mp hb with hold | hnew
  · exact h b hold
  · rw [List.mem_singleton.mp hnew]
    exact ⟨rfl, hkey, htid⟩

theorem apart_of_closed {s : PushRoom} {e e' : Sending}
    (h : s.isOpen r e.upload.transfer_id = false) : Apart root r s e e' ∧ Apart root r s e' e := by
  refine ⟨fun hopen => absurd hopen (by simp [h]), fun hopen => ⟨fun htid => ?_, fun hopen' => ?_⟩⟩
  · rw [htid, hopen] at h
    cases h
  · rw [h] at hopen'
    cases hopen'

theorem apart_of_ne {s : PushRoom} {e e' : Sending}
    (htid : e'.upload.transfer_id ≠ e.upload.transfer_id)
    (hpath : s.isOpen r e'.upload.transfer_id = true → e'.upload.path root ≠ e.upload.path root) :
    Apart root r s e e' ∧ Apart root r s e' e :=
  ⟨fun _ => ⟨htid, hpath⟩, fun hopen => ⟨htid.symm, fun _ => (hpath hopen).symm⟩⟩

theorem settled_frame {s s' : PushRoom} {e : Sending} {N : Bytes → Prop} (h : Settled root r s e)
    (hlookup : (xfers r s'.archive).lookup e.upload.transfer_id =
      (xfers r s.archive).lookup e.upload.transfer_id)
    (howner : s'.owner e.upload.transfer_id = s.owner e.upload.transfer_id)
    (hkeeps : Fs.Keeps N s.archive.fs s'.archive.fs)
    (hN : s.isOpen r e.upload.transfer_id = true → ∀ p ∈ e.upload.path root, ¬ N p) :
    Settled root r s' e ∧
      (s'.isOpen r e.upload.transfer_id = true → s.isOpen r e.upload.transfer_id = true) := by
  have hopen : s'.isOpen r e.upload.transfer_id = s.isOpen r e.upload.transfer_id := by
    rw [PushRoom.isOpen, hlookup, PushRoom.isOpen]
  refine ⟨?_, fun h' => hopen.symm.trans h'⟩
  rcases h with hclosed | ⟨xf, hw, hown⟩
  · exact .inl (hopen.trans hclosed)
  · have hopen' : s.isOpen r e.upload.transfer_id = true := by
      rw [PushRoom.isOpen, hw.lookup, Option.isSome_some]
    exact .inr ⟨xf, hw.frame hlookup hkeeps (hN hopen' _ hw.path), howner.trans hown⟩

theorem settled_erase {s s' : PushRoom} {tid : ℕ} {e : Sending} {N : Bytes → Prop}
    (h : Settled root r s e) (howner : s'.owner = s.owner)
    (hxfers : xfers r s'.archive = (xfers r s.archive).erase tid)
    (hkeeps : Fs.Keeps N s.archive.fs s'.archive.fs)
    (hN : s.isOpen r e.upload.transfer_id = true → ∀ p ∈ e.upload.path root, ¬ N p) :
    Settled root r s' e ∧
      (s'.isOpen r e.upload.transfer_id = true → s.isOpen r e.upload.transfer_id = true) := by
  by_cases ht : e.upload.transfer_id = tid
  · have hclosed : s'.isOpen r e.upload.transfer_id = false := by
      rw [PushRoom.isOpen, hxfers, ht, AList.lookup_erase, Option.isSome_none]
    exact ⟨.inl hclosed, fun h' => absurd h' (by simp [hclosed])⟩
  · exact settled_frame h (by rw [hxfers, AList.lookup_erase_ne ht]) (by rw [howner]) hkeeps hN

theorem orderly_meta {s : PushRoom} {i : ℕ} {e : Sending} (h : Orderly root r s)
    (hi : s.sending[i]? = some e) (h₀ : e.handled = 0) (f : PushFaults) (mf : MergeFaults) (now : ℕ)
    (hrefused : e.upload.path root = none → s.isOpen r e.upload.transfer_id = false)
    (hopens : e.upload.path root ≠ none → f.open_ = none → ∀ e' ∈ s.others i,
      e'.upload.transfer_id ≠ e.upload.transfer_id ∧
        (s.isOpen r e'.upload.transfer_id = true →
          ∀ p ∈ e'.upload.path root, ¬ e.upload.Names root p)) :
    Orderly root r (PushRoom.handlePacket z root r
      { s with sending := s.sending.set i { e with handled := e.handled + 1 } } e.upload
      (.pushMeta e.upload.metaPacket) f mf now) := by
  unfold PushRoom.handlePacket
  dsimp only
  cases hpath : e.upload.path root with
  | none =>
    obtain ⟨err, hpush⟩ := pushMeta_refused root r now hpath f s.archive
    rw [hpush]
    dsimp only
    rw [if_neg (by simp)]
    have hclosed := hrefused hpath
    exact orderly_set h hi rfl (fun _ => .inl hclosed) (fun e' _ he' => ⟨he', id⟩)
      (fun _ _ _ => apart_of_closed hclosed) h.unmixed (acks_append h.acks rfl rfl)
  | some p =>
    cases hfault : f.open_ with
    | some err =>
      obtain ⟨s', hpush, hfs, hxfers⟩ := pushMeta_fault root r now hpath hfault s.archive
      rw [hpush]
      dsimp only
      rw [if_neg (by simp)]
      have hclosed : ((xfers r s').lookup e.upload.transfer_id).isSome = false := by
        rw [hxfers, AList.lookup_erase, Option.isSome_none]
      have hkeeps : Fs.Keeps (fun _ => False) s.archive.fs s'.fs := by
        rw [hfs]
        exact Fs.Keeps.refl _ _
      exact orderly_set h hi rfl (fun _ => .inl hclosed)
        (fun e' _ he' => settled_erase he' rfl hxfers hkeeps fun _ _ _ => id)
        (fun _ _ _ => apart_of_closed hclosed) h.unmixed (acks_append h.acks rfl rfl)
    | none =>
      obtain ⟨s', xf, hpush, hwriting, hxfers, hkeeps⟩ :=
        pushMeta_opens root r now hpath hfault s.archive
      have hclear := hopens (by simp [hpath]) hfault
      rw [hpush]
      dsimp only
      rw [if_pos rfl]
      have hlookup : ∀ t ≠ e.upload.transfer_id, (xfers r s').lookup t =
          (xfers r s.archive).lookup t := fun t ht => by
        rw [hxfers, AList.lookup_insert_ne ht, AList.lookup_erase_ne ht]
      have hopen : ∀ t ≠ e.upload.transfer_id, ((xfers r s').lookup t).isSome = s.isOpen r t :=
        fun t ht => by rw [hlookup t ht, PushRoom.isOpen]
      refine orderly_set h hi rfl (fun _ => .inr ⟨xf, ?_, ?_⟩) (fun e' he' hset => ?_)
        (fun _ e' he' => apart_of_ne (hclear e' he').1 fun hopen' => ?_) h.unmixed ?_
      · simpa [h₀] using hwriting
      · exact Function.update_self _ _ _
      · obtain ⟨htid, hnames⟩ := hclear e' he'
        exact settled_frame hset (hlookup _ htid) (Function.update_of_ne htid _ _) hkeeps hnames
      · obtain ⟨htid, hnames⟩ := hclear e' he'
        rw [hpath]
        exact fun hp => hnames ((hopen _ htid).symm.trans hopen') p hp ⟨p, hpath, .inl rfl⟩
      · simpa using h.acks

theorem orderly_data {s : PushRoom} {i k : ℕ} {e : Sending} (h : Orderly root r s)
    (hi : s.sending[i]? = some e) (hactive : e.active = true) (hk : e.handled = k + 1)
    (hcount : k < chunkCount e.upload.content) (f : PushFaults) (mf : MergeFaults) (now : ℕ)
    (hmerge : (e.upload.dataPacket k).is_last = true → e.upload.key.subdir = MFS_HIST →
      accepts f (e.upload.dataPacket k) = true →
        ∀ e' ∈ s.others i, s.isOpen r e'.upload.transfer_id = true → ∀ p ∈ e'.upload.path root,
          ∀ a ∈ afterWrite r s.archive (e.upload.dataPacket k), ¬ MergeNames mf a.1 a.2 p) :
    Orderly root r (PushRoom.handlePacket z root r
      { s with sending := s.sending.set i { e with handled := e.handled + 1 } } e.upload
      (.pushData (e.upload.dataPacket k)) f mf now) := by
  have hapart : ∀ e' ∈ s.others i, Apart root r s e e' := by
    intro e' he'
    obtain ⟨hmem, hactive'⟩ := List.mem_filter.mp he'
    obtain ⟨j, hne, hj⟩ := List.mem_eraseIdx_iff_getElem?.mp hmem
    exact h.apart i j e e' hne.symm hi hj hactive hactive'
  unfold PushRoom.handlePacket
  dsimp only
  rcases h.settled e (List.mem_of_getElem? hi) hactive with hclosed | ⟨xf, hw, hown⟩
  · -- no transfer has the id, and nothing happens
    have hnone : (xfers r s.archive).lookup e.upload.transfer_id = none := by
      simpa [PushRoom.isOpen] using hclosed
    have hpush : pushData z r (e.upload.dataPacket k) f mf now s.archive = (s.archive, []) :=
      pushData_unknown z r mf now hnone f
    rw [hpush]
    refine orderly_set h hi rfl (fun _ => .inl hclosed) (fun e' _ he' => ⟨he', id⟩)
      (fun _ _ _ => apart_of_closed hclosed) ?_ ?_
    · simpa [PushRoom.Unmixed] using h.unmixed
    · simpa using h.acks
  have hopen : s.isOpen r e.upload.transfer_id = true := by
    rw [PushRoom.isOpen, hw.lookup, Option.isSome_some]
  have howner : (s.owner (e.upload.dataPacket k).transfer_id).getD e.upload = e.upload := by
    rw [show (e.upload.dataPacket k).transfer_id = e.upload.transfer_id from rfl, hown,
      Option.getD_some]
  have hfile : ∀ e' ∈ s.others i, s.isOpen r e'.upload.transfer_id = true →
      ∀ p ∈ e'.upload.path root, p ≠ xf.archive_path := by
    intro e' he' hopen' p hp heq
    exact ((hapart e' he') hopen).2 hopen' (by rw [hw.path, hp, heq])
  rw [hk, Nat.add_sub_cancel] at hw
  rcases pushData_writing z root r mf now hw hcount f with
    ⟨s', n, err, hpush, hfs, hxfers⟩ | ⟨s', xf', hmore, hpush, hw', hxfers, hkeeps⟩ |
    ⟨s', n, hend, hpush, haccepts, hafter, hwritten, hxfers, hkeeps⟩
  · rw [hpush, howner]
    have hclosed : ((xfers r s').lookup e.upload.transfer_id).isSome = false := by
      rw [hxfers, AList.lookup_erase, Option.isSome_none]
    have hkeeps : Fs.Keeps (fun _ => False) s.archive.fs s'.fs := by
      rw [hfs]
      exact Fs.Keeps.refl _ _
    refine orderly_set h hi rfl (fun _ => .inl hclosed)
      (fun e' _ he' => settled_erase he' rfl hxfers hkeeps fun _ _ _ => id)
      (fun _ _ _ => apart_of_closed hclosed) ?_ (acks_append h.acks rfl rfl)
    simpa [PushRoom.Unmixed] using h.unmixed
  · rw [hpush, howner]
    have hlookup : ∀ e' ∈ s.others i, (xfers r s').lookup e'.upload.transfer_id =
        (xfers r s.archive).lookup e'.upload.transfer_id := fun e' he' => by
      rw [hxfers, AList.lookup_insert_ne ((hapart e' he') hopen).1]
    refine orderly_set h hi rfl (fun _ => .inr ⟨xf', ?_, hown⟩)
      (fun e' he' hset => settled_frame hset (hlookup e' he') rfl hkeeps (hfile e' he'))
      (fun _ e' he' => apart_of_ne ((hapart e' he') hopen).1 fun hopen' => ?_) ?_ ?_
    · simpa [hk] using hw'
    · refine ((hapart e' he') hopen).2 ?_
      rw [PushRoom.isOpen, ← hlookup e' he']
      exact hopen'
    · simpa [PushRoom.Unmixed] using h.unmixed
    · simpa using h.acks
  · rw [hpush, howner, hwritten]
    have hdone : ¬ Sending.active { e with handled := e.handled + 1 } = true := by
      have hnext : e.upload.packet (k + 1 + 1) = none := if_neg (by omega)
      simp [Sending.active, Sending.next, hk, hnext]
    refine orderly_set h hi rfl (fun hact => absurd hact hdone) (fun e' he' hset => ?_)
      (fun hact => absurd hact hdone) ?_ (acks_append h.acks rfl rfl)
    · refine settled_erase hset rfl hxfers hkeeps fun hopen' p hp hN => ?_
      rcases hN with heq | ⟨hhist, hnames⟩
      · exact hfile e' he' hopen' p hp heq
      · exact hmerge ((is_last_dataPacket hcount).mpr hend) hhist haccepts e' he' hopen' p hp _ hafter
          hnames
    · intro c hc
      rcases List.mem_append.mp hc with hold | hnew
      · exact h.unmixed c hold
      · have hc : c = (e.upload, some e.upload.content) := by simpa using hnew
        rw [hc]

theorem orderly_start {s : PushRoom} (h : Orderly root r s) (next_id : Sender → ℕ) (u : Upload)
    (limit : ℕ) : Orderly root r
      { s with next_id := next_id, sending := s.sending ++ [⟨u, limit, 0⟩] } := by
  have hold : ∀ (j : ℕ) (e : Sending), (s.sending ++ [⟨u, limit, 0⟩])[j]? = some e →
      e.active = true → s.sending[j]? = some e := by
    intro j e hj hactive
    by_cases hlen : j < s.sending.length
    · rwa [List.getElem?_append_left hlen] at hj
    · rw [List.getElem?_append_right (not_lt.mp hlen)] at hj
      have he := List.mem_singleton.mp (List.mem_of_getElem? hj)
      rw [he] at hactive
      simp [Sending.active] at hactive
  refine ⟨fun e he hactive => ?_, fun i j e e' hne hi hj hactive hactive' => ?_, h.unmixed, h.acks⟩
  · obtain ⟨j, hj⟩ := List.getElem?_of_mem he
    exact h.settled e (List.mem_of_getElem? (hold j e hj hactive)) hactive
  · exact h.apart i j e e' hne (hold i e hi hactive) (hold j e' hj hactive') hactive hactive'

theorem orderly_step {s s' : PushRoom} {e : Event} (h : Orderly root r s)
    (hstep : ClearPushStep z root r s e s') : Orderly root r s' := by
  obtain ⟨hclear, -, rfl⟩ := hstep
  cases e with
  | start sender key info_data content limit => exact orderly_start h _ _ limit
  | handle i f mf now =>
    simp only [Event.apply]
    cases hi : s.sending[i]? with
    | none => exact h
    | some e =>
      dsimp only
      cases hnext : e.next with
      | none => exact h
      | some p =>
        have hfor : s.clearFor root r i e.upload f mf p := hclear e hi p hnext
        dsimp only
        have hpacket : e.upload.packet e.handled = some p := by
          unfold Sending.next at hnext
          split_ifs at hnext
          exact hnext
        cases hk : e.handled with
        | zero =>
          rw [hk] at hpacket
          obtain rfl := Option.some.inj hpacket
          unfold PushRoom.clearFor at hfor
          have hmeta := orderly_meta (z := z) h hi hk f mf now (fun hpath => ?_) fun hpath => ?_
          · rwa [hk] at hmeta
          · rwa [if_pos hpath] at hfor
          · rwa [if_neg hpath] at hfor
        | succ k =>
          rw [hk] at hpacket
          simp only [Upload.packet] at hpacket
          split_ifs at hpacket with hcount
          obtain rfl := Option.some.inj hpacket
          have hactive : e.active = true := by simp [Sending.active, hk, hnext]
          have hdata := orderly_data (z := z) h hi hactive hk hcount f mf now hfor
          rwa [hk] at hdata

/-! ## Runs -/

/-- In every run under the condition uploads do not mix, and acknowledgements reach the senders
exactly if they are all for HOST's uploads. -/
theorem unmixed_of_run (z : Zstd) (root : Bytes) (r : ℕ) (archive : State) (es : List Event)
    (s : PushRoom) (h : Run (ClearPushStep z root r) (openRoom r archive) es s) :
    s.Unmixed ∧ (s.Answered ↔ ∀ a ∈ s.acks, a.1.sender = .host) := by
  have hopen : Orderly root r (openRoom r archive) := by
    refine ⟨by simp [openRoom], by simp [openRoom], by simp [openRoom, PushRoom.Unmixed],
      by simp [openRoom]⟩
  have horderly : Orderly root r s :=
    h.invariant (P := Orderly root r) (fun _ _ _ hstep h => orderly_step h hstep) hopen
  refine ⟨horderly.unmixed, forall₂_congr fun a ha => ?_⟩
  rw [(horderly.acks a ha).1]
  exact eq_comm

end

/-- The keys of two recordings. -/
def keyNamed (name : String) : MissionFileKey :=
  ⟨ascii "S", 2026, MFS_AUDIO, ascii "A1", ascii name⟩

/-- The system refuses nothing. -/
def handled (i : ℕ) : Event := .handle i PushFaults.none noFaults 0

/-- HOST and a JOIN push a file each, and Central handles their packets in turn. -/
def inTurn : List Event :=
  [.start .host (keyNamed "a") [] [1] 2, .start (.join 0) (keyNamed "b") [] [2] 2, handled 0,
    handled 1, handled 0, handled 1]

/-- What a list of events leads to, in a room without files. -/
def pushed (es : List Event) : PushRoom :=
  es.foldl (fun s e => e.apply storedZstd (ascii "r") 0 s) (openRoom 0 (idleArchive []))

theorem unmixed_of_run_inTurn :
    (pushed inTurn).Unmixed ∧
      ((pushed inTurn).Answered ↔ ∀ a ∈ (pushed inTurn).acks, a.1.sender = .host) :=
  unmixed_of_run storedZstd (ascii "r") 0 (idleArchive []) inTurn _
    (run_of_follows (fun e s => decide (e.clear (ascii "r") 0 s) && e.enabled s)
      (fun e s h => by
        rw [Bool.and_eq_true, decide_eq_true_eq] at h
        exact ⟨h.1, h.2, rfl⟩) inTurn _ (by decide))

/-- Two JOINs begin their first uploads: both have the same id, and the bytes of one are taken for
the file of the other. -/
theorem mixed_by_id :
    ¬ ∀ (z : Zstd) (root : Bytes) (r : ℕ) (archive : State) (es : List Event) (s : PushRoom),
      Run (PushStep z root r) (openRoom r archive) es s → s.Unmixed ∧ s.Answered := by
  intro hclaim
  have hrun := run_of_follows (R := PushStep storedZstd (ascii "r") 0) Event.enabled
    (fun e s h => ⟨h, rfl⟩) [.start (.join 0) (keyNamed "a") [] [1] 2,
      .start (.join 1) (keyNamed "b") [] [2] 2, handled 0, handled 1, handled 0]
    (openRoom 0 (idleArchive [])) (by decide)
  have h := (hclaim storedZstd (ascii "r") 0 (idleArchive []) _ _ hrun).1
  unfold PushRoom.Unmixed at h
  exact absurd h (by decide)

end Bewe.MissionPush

import Bewe.Archive.Frame

/-!
# The packets of a pushed file

HOST's `push_one` and a JOIN's `start_upload` send a file alike: a META packet, and the file in
chunks, of which the last says so. Here is what Central's handlers make of each packet of an upload
whose transfer is open (`pushMeta_opens`, `pushData_writing`), and which files they leave alone.
-/

namespace Bewe.MissionPush

open Lib Hist Archive

/-! ## Uploads -/

/-- The senders of a room: HOST, and its JOINs by number. -/
inductive Sender
  | host
  | join (n : ℕ)
  deriving DecidableEq

/-- A file that is pushed: by whom, the id of the transfer, the key, the text of the sidecar and the
bytes. -/
structure Upload where
  sender : Sender
  transfer_id : ℕ
  key : MissionFileKey
  info_data : Bytes
  content : Bytes
  deriving DecidableEq

/-- `CHUNK`. -/
def CHUNK : ℕ := 256 * 1024

/-- The number of chunks: an empty file has one, too. -/
def chunkCount (content : Bytes) : ℕ := max 1 ((content.length + CHUNK - 1) / CHUNK)

/-- A packet of an upload. -/
inductive Packet
  | pushMeta (m : PktMissionFilePushMeta)
  | pushData (d : PktMissionFilePushData)

namespace Upload

/-- The META packet; `mode` 0 replaces what is there. -/
def metaPacket (u : Upload) : PktMissionFilePushMeta where
  key := u.key
  total_bytes := u.content.length
  transfer_id := u.transfer_id
  mode := 0
  info_data := u.info_data

/-- The chunk at the offset `i * CHUNK`. -/
def dataPacket (u : Upload) (i : ℕ) : PktMissionFilePushData where
  transfer_id := u.transfer_id
  is_last := u.content.length ≤ (i + 1) * CHUNK
  offset := i * CHUNK
  chunk := slice (i * CHUNK) CHUNK u.content

/-- The packet that a sender sends after `k` others. -/
def packet (u : Upload) : ℕ → Option Packet
  | 0 => some (.pushMeta u.metaPacket)
  | i + 1 => if i < chunkCount u.content then some (.pushData (u.dataPacket i)) else none

/-- The file of an upload in the archive, if Central takes its key. -/
def path (root : Bytes) (u : Upload) : Option Bytes :=
  if u.key.valid then (u.key.dir root).map fun dir => join dir u.key.filenameStr else none

/-- The text that goes into the sidecar. -/
def info (u : Upload) : Bytes := cStr (u.info_data.take 1024)

/-- The transfer that META opens, of a file and its path. -/
def transfer (u : Upload) (fp : ℕ) (p : Bytes) : MissionFileTransfer where
  key := u.key
  fp := fp
  append := false
  expected_bytes := u.content.length
  written_bytes := 0
  high_water := 0
  archive_path := p
  info_data := u.info

/-- A name that an upload writes: its file, and its sidecar if there is a text. -/
def Names (root : Bytes) (u : Upload) (q : Bytes) : Prop :=
  ∃ p ∈ u.path root, q = p ∨ q = sidecarPath p ∧ u.info ≠ []

instance (root : Bytes) (u : Upload) (q : Bytes) : Decidable (u.Names root q) :=
  match h : u.path root with
  | none => .isFalse fun ⟨_, hp, _⟩ => by simp [h] at hp
  | some p => decidable_of_iff (q = p ∨ q = sidecarPath p ∧ u.info ≠ []) (by simp [Names, h])

end Upload

/-! ## Chunks -/

theorem chunkCount_bounds (content : Bytes) :
    content.length ≤ chunkCount content * CHUNK ∧
      ∀ i < chunkCount content, i * CHUNK ≤ content.length ∧
        (content.length ≤ (i + 1) * CHUNK ↔ i + 1 = chunkCount content) := by
  have hc : chunkCount content = max 1 ((content.length + CHUNK - 1) / CHUNK) := rfl
  have hdiv := Nat.div_add_mod (content.length + CHUNK - 1) CHUNK
  have hmod := Nat.mod_lt (content.length + CHUNK - 1) (show 0 < CHUNK by decide)
  generalize (content.length + CHUNK - 1) / CHUNK = k at *
  unfold CHUNK at *
  refine ⟨by omega, fun i hi => ⟨by omega, by omega⟩⟩

theorem is_last_dataPacket {u : Upload} {i : ℕ} (hi : i < chunkCount u.content) :
    (u.dataPacket i).is_last = true ↔ i + 1 = chunkCount u.content := by
  simp only [Upload.dataPacket, decide_eq_true_eq]
  exact ((chunkCount_bounds u.content).2 i hi).2

theorem take_chunkCount (content : Bytes) : content.take (chunkCount content * CHUNK) = content :=
  List.take_of_length_le (chunkCount_bounds content).1

theorem pwrite_length (v l : Bytes) : pwrite l.length v l = l ++ v := by
  unfold pwrite
  split_ifs with hv
  · rw [hv, List.append_nil]
  · rw [splice, Nat.sub_self, List.replicate_zero, List.append_nil, List.take_length,
      List.drop_eq_nil_of_le (by omega), List.append_nil]

theorem pwrite_dataPacket {u : Upload} {i : ℕ} (hi : i < chunkCount u.content) :
    pwrite (u.dataPacket i).offset (u.dataPacket i).chunk (u.content.take (i * CHUNK)) =
      u.content.take ((i + 1) * CHUNK) := by
  have hlen : (u.content.take (i * CHUNK)).length = i * CHUNK := by
    rw [List.length_take]
    exact min_eq_left ((chunkCount_bounds u.content).2 i hi).1
  have hpw := pwrite_length (slice (i * CHUNK) CHUNK u.content) (u.content.take (i * CHUNK))
  rw [hlen] at hpw
  rw [show (u.dataPacket i).offset = i * CHUNK from rfl,
    show (u.dataPacket i).chunk = slice (i * CHUNK) CHUNK u.content from rfl, hpw, slice,
    Nat.succ_mul, List.take_add]

theorem sidecarPath_ne (p : Bytes) : sidecarPath p ≠ p := by
  have hsuffix : extensionOf p <:+ p := by
    unfold extensionOf
    split
    · exact List.drop_suffix _ _
    · exact List.nil_suffix
  unfold sidecarPath
  split_ifs with h
  · obtain ⟨a, ha⟩ := hsuffix
    have hlen : a.length = p.length - (extensionOf p).length := by
      have := congrArg List.length ha
      rw [List.length_append] at this
      omega
    have hstrip : stripIqExt p = a :=
      calc stripIqExt p = p.take a.length := by rw [stripIqExt, if_pos (.inl h), hlen]
        _ = (a ++ extensionOf p).take a.length := by rw [ha]
        _ = a := List.take_left
    rw [hstrip]
    conv_rhs => rw [← ha, h]
    intro hp
    exact absurd (List.append_cancel_left hp) (by decide)
  · intro hp
    have hlen := congrArg List.length hp
    rw [List.length_append] at hlen
    simp [ascii] at hlen

/-! ## What Central makes of META -/

section

variable (z : Zstd) (root : Bytes) (r : ℕ) (mf : MergeFaults) (now : ℕ)

/-- The transfers of a room. -/
def xfers (s : State) : AList fun _ : ℕ => MissionFileTransfer := (s.rooms r).mission_xfers

/-- An upload is being written: its transfer is open, the file has its name, and holds the first `i`
chunks. -/
structure Writing (s : State) (u : Upload) (i : ℕ) (xf : MissionFileTransfer) : Prop where
  lookup : (xfers r s).lookup u.transfer_id = some xf
  key : xf.key = u.key
  append : xf.append = false
  path : u.path root = some xf.archive_path
  find : s.fs.find xf.archive_path = some xf.fp
  content : s.fs.content xf.fp = u.content.take (i * CHUNK)

/-- The files when a chunk has been written, and the path of its transfer. -/
def afterWrite (s : State) (d : PktMissionFilePushData) : Option (ArchiveFs × Bytes) :=
  ((xfers r s).lookup d.transfer_id).map fun xf =>
    let content := s.fs.content xf.fp
    let off := if xf.append then content.length else d.offset
    (s.fs.write xf.fp (pwrite off d.chunk content), xf.archive_path)

/-- What the file of a transfer reads when a chunk has been written. -/
def written (s : State) (d : PktMissionFilePushData) : Option Bytes :=
  (afterWrite r s d).bind fun a => a.1.read a.2

theorem pushMeta_refused {u : Upload} (h : u.path root = none) (f : PushFaults) (s : State) :
    ∃ err, pushMeta root r u.metaPacket f now s =
      (s, [⟨u.key, u.transfer_id, 3, 0, err⟩]) := by
  unfold pushMeta Upload.metaPacket
  unfold Upload.path at h
  by_cases hvalid : u.key.valid = true
  · rw [if_pos hvalid, Option.map_eq_none_iff] at h
    rw [if_neg (not_not.mpr hvalid), h]
    exact ⟨_, rfl⟩
  · rw [if_pos hvalid]
    exact ⟨_, rfl⟩

theorem of_path {u : Upload} {p : Bytes} (h : u.path root = some p) :
    u.key.valid = true ∧ ∃ dir, u.key.dir root = some dir ∧ p = join dir u.key.filenameStr := by
  unfold Upload.path at h
  split_ifs at h with hvalid
  obtain ⟨dir, hdir, rfl⟩ := Option.map_eq_some_iff.mp h
  exact ⟨hvalid, dir, hdir, rfl⟩

theorem pushMeta_fault {u : Upload} {p err : Bytes} (h : u.path root = some p) {f : PushFaults}
    (hf : f.open_ = some err) (s : State) :
    ∃ s', pushMeta root r u.metaPacket f now s = (s', [⟨u.key, u.transfer_id, 1, 0, err⟩]) ∧
      s'.fs = s.fs ∧ xfers r s' = (xfers r s).erase u.transfer_id := by
  obtain ⟨hvalid, dir, hdir, -⟩ := of_path root h
  unfold pushMeta Upload.metaPacket
  rw [if_neg (not_not.mpr hvalid), hdir, hf]
  exact ⟨_, rfl, rfl, by simp [xfers, State.setRoom]⟩

theorem pushMeta_opens {u : Upload} {p : Bytes} (h : u.path root = some p) {f : PushFaults}
    (hf : f.open_ = none) (s : State) :
    ∃ s' xf, pushMeta root r u.metaPacket f now s = (s', []) ∧ Writing root r s' u 0 xf ∧
      xfers r s' = ((xfers r s).erase u.transfer_id).insert u.transfer_id xf ∧
      Fs.Keeps (u.Names root) s.fs s'.fs := by
  obtain ⟨hvalid, dir, hdir, rfl⟩ := of_path root h
  unfold pushMeta Upload.metaPacket State.openUpload
  rw [if_neg (not_not.mpr hvalid), hdir, hf]
  simp only [Nat.zero_ne_one, decide_false, Bool.false_eq_true, if_false]
  set p := join dir u.key.filenameStr with hpath
  have hp : (s.fs.create p []).1.find p = some (s.fs.create p []).2 := by
    rw [Fs.find_create, if_pos rfl]
  have hempty : (s.fs.create p []).1.content (s.fs.create p []).2 = [] := by
    rw [Fs.content_create, if_pos rfl]
  have hkeeps := Fs.keeps_create (N := u.Names root) s.fs [] (.inl ⟨p, h, .inl rfl⟩)
  by_cases hinfo : cStr (u.info_data.take 1024) ≠ [] ∧ ¬ f.info = true
  · rw [if_pos hinfo]
    have hside : u.Names root (sidecarPath p) := ⟨p, h, .inr ⟨rfl, hinfo.1⟩⟩
    refine ⟨_, u.transfer (s.fs.create p []).2 p, rfl, ⟨?_, rfl, rfl, h, ?_, ?_⟩, ?_,
      hkeeps.trans (Fs.keeps_create _ _ (.inl hside))⟩
    · simp [xfers, State.setRoom, Upload.transfer, Upload.info]
    · rw [State.create_fs, State.setRoom_fs, Fs.find_create, Upload.transfer,
        if_neg (sidecarPath_ne p).symm]
      exact hp
    · rw [State.create_fs, State.setRoom_fs, Fs.content_create, Upload.transfer, if_neg]
      · exact hempty
      · exact (Fs.create_snd_ne hp (sidecarPath_ne p).symm _).symm
    · simp [xfers, State.setRoom, Upload.transfer, Upload.info]
  · rw [if_neg hinfo]
    refine ⟨_, u.transfer (s.fs.create p []).2 p, rfl, ⟨?_, rfl, rfl, h, hp, hempty⟩, ?_, hkeeps⟩
    · simp [xfers, State.setRoom, Upload.transfer, Upload.info]
    · simp [xfers, State.setRoom, Upload.transfer, Upload.info]

/-! ## What Central makes of DATA -/

theorem pushData_unknown {s : State} {d : PktMissionFilePushData}
    (h : (xfers r s).lookup d.transfer_id = none) (f : PushFaults) :
    pushData z r d f mf now s = (s, []) := by
  unfold pushData
  rw [show (s.rooms r).mission_xfers.lookup d.transfer_id = none from h]

/-- Whether the system takes a chunk. -/
def accepts (f : PushFaults) (d : PktMissionFilePushData) : Bool :=
  !f.seek && !(decide (d.chunk ≠ []) && f.write)

/-- The names that the arrival of a segment may write: of the file before it, the temporary file,
the joined file. -/
def MergeNames (fs : ArchiveFs) (seg q : Bytes) : Prop :=
  ∃ m ∈ findMerge mf fs seg, q = m.best.path ∨ q = m.tmp ∨ q = m.merged

instance (fs : ArchiveFs) (seg q : Bytes) : Decidable (MergeNames mf fs seg q) :=
  inferInstanceAs (Decidable (∃ m ∈ findMerge mf fs seg, _))

/-- A chunk of an upload that is being written: a refused write ends the transfer with an error;
else the file holds it, and the last one ends the transfer and joins a segment to the file before
it. -/
theorem pushData_writing {s : State} {u : Upload} {i : ℕ} {xf : MissionFileTransfer}
    (h : Writing root r s u i xf) (hi : i < chunkCount u.content) (f : PushFaults) :
    (∃ s' n err, pushData z r (u.dataPacket i) f mf now s =
        (s', [⟨u.key, u.transfer_id, 1, n, err⟩]) ∧
      s'.fs = s.fs ∧ xfers r s' = (xfers r s).erase u.transfer_id) ∨
    (∃ s' xf', i + 1 < chunkCount u.content ∧
      pushData z r (u.dataPacket i) f mf now s = (s', []) ∧ Writing root r s' u (i + 1) xf' ∧
      xfers r s' = (xfers r s).insert u.transfer_id xf' ∧
      Fs.Keeps (· = xf.archive_path) s.fs s'.fs) ∨
    (∃ s' n, i + 1 = chunkCount u.content ∧
      pushData z r (u.dataPacket i) f mf now s = (s', [⟨u.key, u.transfer_id, 0, n, []⟩]) ∧
      accepts f (u.dataPacket i) = true ∧
      afterWrite r s (u.dataPacket i) = some (s.fs.write xf.fp u.content, xf.archive_path) ∧
      written r s (u.dataPacket i) = some u.content ∧
      xfers r s' = (xfers r s).erase u.transfer_id ∧
      Fs.Keeps (fun q => q = xf.archive_path ∨ u.key.subdir = MFS_HIST ∧
        MergeNames mf (s.fs.write xf.fp u.content) xf.archive_path q) s.fs s'.fs) := by
  have hlookup : (s.rooms r).mission_xfers.lookup (u.dataPacket i).transfer_id = some xf := h.lookup
  have hwritten : pwrite (u.dataPacket i).offset (u.dataPacket i).chunk (s.fs.content xf.fp) =
      u.content.take ((i + 1) * CHUNK) := by rw [h.content, pwrite_dataPacket hi]
  have hwrite : Fs.Keeps (· = xf.archive_path) s.fs (s.fs.write xf.fp
      (u.content.take ((i + 1) * CHUNK))) :=
    Fs.keeps_write s.fs _ fun q hq => Fs.inj _ q xf.archive_path _ hq h.find
  unfold pushData
  rw [hlookup]
  dsimp only
  rw [h.append, h.key]
  by_cases hseek : f.seek = true
  · rw [if_pos hseek]
    exact .inl ⟨_, _, _, rfl, rfl, by simp [xfers, State.setRoom, Upload.dataPacket]⟩
  rw [if_neg hseek]
  by_cases hshort : (u.dataPacket i).chunk ≠ [] ∧ f.write = true
  · rw [if_pos hshort]
    exact .inl ⟨_, _, _, rfl, rfl, by simp [xfers, State.setRoom, Upload.dataPacket]⟩
  rw [if_neg hshort]
  simp only [Bool.false_eq_true, if_false]
  rw [hwritten]
  right
  by_cases hlast : (u.dataPacket i).is_last = true
  · rw [if_pos hlast]
    -- the last chunk closes the file, and a segment is merged
    have hend := (is_last_dataPacket hi).mp hlast
    have hall : u.content.take ((i + 1) * CHUNK) = u.content := by rw [hend, take_chunkCount]
    rw [hall] at hwrite hwritten ⊢
    right
    have hafter : afterWrite r s (u.dataPacket i) =
        some (s.fs.write xf.fp u.content, xf.archive_path) := by
      unfold afterWrite
      rw [show (xfers r s).lookup (u.dataPacket i).transfer_id = some xf from h.lookup]
      simp only [Option.map_some, h.append, Bool.false_eq_true, if_false, hwritten]
    refine ⟨_, _, hend, rfl, ?_, hafter, ?_, ?_, ?_⟩
    · simpa [accepts, hseek, or_iff_not_imp_left] using hshort
    · rw [written, hafter, Option.bind_some, Fs.read_write, if_pos h.find]
    · split_ifs <;> simp [xfers, State.setRoom, mergeSegment, Upload.dataPacket]
    · by_cases hhist : u.key.subdir = MFS_HIST
      · rw [if_pos hhist]
        have hmerge : ∀ t : State, t.fs = s.fs.write xf.fp u.content →
            Fs.Keeps (fun q => q = xf.archive_path ∨ u.key.subdir = MFS_HIST ∧
              MergeNames mf (s.fs.write xf.fp u.content) xf.archive_path q)
              (s.fs.write xf.fp u.content) (mergeSegment z mf xf.archive_path now t).fs := by
          intro t ht
          rw [← ht]
          refine keeps_merge fun m hm => ?_
          exact ⟨.inr ⟨hhist, m, hm, .inl rfl⟩, .inl rfl, .inr ⟨hhist, m, hm, .inr (.inl rfl)⟩,
            fun _ _ _ _ _ _ => .inl (.inr ⟨hhist, m, hm, .inr (.inr rfl)⟩)⟩
        exact (hwrite.mono fun q hq => .inl hq).trans (hmerge _ rfl)
      · rw [if_neg hhist]
        exact hwrite.mono fun q hq => .inl hq
  · rw [if_neg hlast]
    left
    -- more chunks come
    have hmore : i + 1 < chunkCount u.content := by
      have := (is_last_dataPacket hi).not.mp hlast
      omega
    refine ⟨_, { xf with
      key := u.key
      append := false
      written_bytes := xf.written_bytes + (u.dataPacket i).chunk.length
      high_water := max xf.high_water ((u.dataPacket i).offset + (u.dataPacket i).chunk.length) },
      hmore, rfl, ⟨?_, rfl, rfl, h.path, h.find, ?_⟩, ?_, hwrite⟩
    · simp [xfers, State.setRoom, Upload.dataPacket]
    · simp [State.setRoom, State.write, Fs.write]
    · simp [xfers, State.setRoom, Upload.dataPacket]

end

end Bewe.MissionPush

import Bewe.Archive.Merge

/-!
# Central's mission archive

The handlers of `central/central_mission_archive.cpp` that change files, over a state of all rooms
and the files they share. A handler takes the packet, the time, and which of its file operations the
system refuses; a reply to HOST is part of its result. File handles are files: a stream or a
transfer goes on writing its file whatever becomes of the name.
-/

namespace Bewe.Archive

open Lib Hist

/-! ## Paths -/

/-- `MFS_IQ`, `MFS_AUDIO`, `MFS_HIST`. -/
def MFS_IQ : ℕ := 1
@[inherit_doc MFS_IQ] def MFS_AUDIO : ℕ := 2
@[inherit_doc MFS_IQ] def MFS_HIST : ℕ := 3

/-- `subdir_name`. -/
def subdirName (s : ℕ) : Option Bytes :=
  if s = MFS_IQ then some (ascii "iq")
  else if s = MFS_AUDIO then some (ascii "audio")
  else if s = MFS_HIST then some (ascii "hist")
  else none

/-- `path_component_safe`, of a C string. -/
def pathComponentSafe (s : Bytes) (maxlen : ℕ) : Bool :=
  s ≠ [] && s.length < maxlen && s ≠ ascii "." && s ≠ ascii ".." &&
    s.all fun c => c ≠ slash && c ≠ 92 && 32 ≤ c

/-- `archive_dir`, under the root of the archive. -/
def archiveDir (root station : Bytes) (year : ℕ) (code : Bytes) (subdir : ℕ) : Option Bytes :=
  match subdirName subdir with
  | none => none
  | some sub =>
    if pathComponentSafe station 64 && pathComponentSafe code 8 && 1970 ≤ year && year ≤ 3000 then
      some (join (join (join (join root station) (padDigits 4 year)) code) sub)
    else none

/-- The extension of a path, from its last dot on. -/
def extensionOf (p : Bytes) : Bytes :=
  match rfind (ascii ".") p with
  | some dot => p.drop dot
  | none => []

/-- `strip_iq_ext`. -/
def stripIqExt (p : Bytes) : Bytes :=
  if extensionOf p = ascii ".sigmf-data" ∨ extensionOf p = ascii ".sigmf-meta" ∨
      extensionOf p = ascii ".wav" then
    p.take (p.length - (extensionOf p).length)
  else p

/-- `SigMF::sidecar_path`. -/
def sidecarPath (file : Bytes) : Bytes :=
  if extensionOf file = ascii ".sigmf-data" then stripIqExt file ++ ascii ".sigmf-meta"
  else file ++ ascii ".info"

/-- `MissionFileKey`; the strings are the `char` arrays. -/
structure MissionFileKey where
  station : Bytes
  year : ℕ
  subdir : ℕ
  code : Bytes
  filename : Bytes
  deriving DecidableEq

namespace MissionFileKey

/-- The strings of a key as a handler copies them. -/
def stationStr (k : MissionFileKey) : Bytes := cStr (k.station.take 64)
@[inherit_doc stationStr] def codeStr (k : MissionFileKey) : Bytes := cStr (k.code.take 8)
@[inherit_doc stationStr] def filenameStr (k : MissionFileKey) : Bytes := cStr (k.filename.take 128)

/-- Whether every part of a key is a safe path component. -/
def valid (k : MissionFileKey) : Bool :=
  pathComponentSafe k.stationStr 64 && pathComponentSafe k.codeStr 8 &&
    pathComponentSafe k.filenameStr 128 && (subdirName k.subdir).isSome

/-- The directory of a key's file. -/
def dir (root : Bytes) (k : MissionFileKey) : Option Bytes :=
  archiveDir root k.stationStr k.year k.codeStr k.subdir

end MissionFileKey

/-! ## State -/

/-- `MissionFileTransfer`. `fp` is the file; `append` says that it was opened with `"ab"`, where
every write goes to the end. -/
structure MissionFileTransfer where
  key : MissionFileKey
  fp : ℕ
  append : Bool
  expected_bytes : ℕ
  written_bytes : ℕ
  high_water : ℕ
  archive_path : Bytes
  info_data : Bytes
  deriving DecidableEq

/-- `MissionHistStream`. `fp` is the file; `q` is the range of its rows once a frame has set it. -/
structure MissionHistStream where
  archive_path : Bytes
  fp : ℕ
  station : Bytes
  year : ℕ
  code : Bytes
  fft_size : ℕ
  rows_written : ℕ
  start_utc : ℕ
  q : Option (ℕ × ℕ)
  deriving DecidableEq

/-- The active mission of a room. -/
structure ActiveMission where
  station : Bytes
  year : ℕ
  code : Bytes
  deriving DecidableEq

/-- What a room holds of the archive: `active_mission_*`, `mission_xfers`, `hist_streams`. -/
structure Room where
  active : Option ActiveMission
  mission_xfers : AList fun _ : ℕ => MissionFileTransfer
  hist_streams : AList fun _ : Bytes => MissionHistStream

/-- The files with their modification times, and the rooms. -/
structure State where
  fs : ArchiveFs
  mtime : ℕ → ℕ
  rooms : ℕ → Room

namespace State

/-- `fopen` for writing from the start. -/
def create (s : State) (p b : Bytes) (now : ℕ) : State × ℕ :=
  let (fs, i) := s.fs.create p b
  ({ s with fs := fs, mtime := Function.update s.mtime i now }, i)

/-- `fopen` with `"ab"`. -/
def openAppend (s : State) (p : Bytes) (now : ℕ) : State × ℕ :=
  match s.fs.find p with
  | some i => (s, i)
  | none => s.create p [] now

/-- `fopen` of an upload: with `"ab"`, or from the start. -/
def openUpload (s : State) (append : Bool) (p : Bytes) (now : ℕ) : State × ℕ :=
  if append then s.openAppend p now else s.create p [] now

/-- Giving a file a content. -/
def write (s : State) (i : ℕ) (b : Bytes) (now : ℕ) : State :=
  { s with fs := s.fs.write i b, mtime := Function.update s.mtime i now }

/-- Changing a room. -/
def setRoom (s : State) (r : ℕ) (room : Room) : State :=
  { s with rooms := Function.update s.rooms r room }

@[simp] theorem setRoom_fs (s : State) (r : ℕ) (room : Room) : (s.setRoom r room).fs = s.fs := rfl
@[simp] theorem create_fs (s : State) (p b : Bytes) (now : ℕ) :
    (s.create p b now).1.fs = (s.fs.create p b).1 := rfl
@[simp] theorem create_snd (s : State) (p b : Bytes) (now : ℕ) :
    (s.create p b now).2 = (s.fs.create p b).2 := rfl
@[simp] theorem write_fs (s : State) (i : ℕ) (b : Bytes) (now : ℕ) :
    (s.write i b now).fs = s.fs.write i b := rfl
@[simp] theorem write_rooms (s : State) (i : ℕ) (b : Bytes) (now : ℕ) :
    (s.write i b now).rooms = s.rooms := rfl
@[simp] theorem create_rooms (s : State) (p b : Bytes) (now : ℕ) :
    (s.create p b now).1.rooms = s.rooms := rfl

end State

/-! ## Free names -/

/-- The loop that looks for a free name: the first of the names that does not exist, or the last. -/
def firstFree (isFile : Bytes → Bool) : Bytes → List Bytes → Bytes
  | p, [] => p
  | p, q :: qs => if isFile p then firstFree isFile q qs else p

theorem firstFree_free {isFile : Bytes → Bool} {p : Bytes} {qs : List Bytes}
    (h : ∃ q ∈ p :: qs, isFile q = false) : isFile (firstFree isFile p qs) = false := by
  induction qs generalizing p with
  | nil =>
    obtain ⟨q, hq, hfree⟩ := h
    rw [List.mem_singleton.mp hq] at hfree
    exact hfree
  | cons q qs ih =>
    rw [firstFree]
    split_ifs with hp
    · refine ih ?_
      obtain ⟨x, hx, hfree⟩ := h
      rcases List.mem_cons.mp hx with rfl | hx
      · rw [hp] at hfree
        cases hfree
      · exact ⟨x, hx, hfree⟩
    · simpa using hp

/-- The names `dir/<base>_2<tail>` to `dir/<base>_99<tail>` that the loops try, where the tail
begins at its last place in the name; none if it is not there. -/
def alternatives (dir name tail : Bytes) : List Bytes :=
  match rfind tail name with
  | none => []
  | some pos =>
    (List.range' 2 98).map fun n => join dir (name.take pos ++ ascii "_" ++ natText n ++ tail)

/-- The name that a loop over the alternatives of `dir/<name>` ends at. -/
def freeName (fs : ArchiveFs) (dir name tail : Bytes) : Bytes :=
  firstFree (fun p => (fs.find p).isSome) (join dir name) (alternatives dir name tail)

/-- Whether one of the names that the loop tries is free. -/
def HasFreeName (fs : ArchiveFs) (dir name tail : Bytes) : Prop :=
  ∃ q ∈ join dir name :: alternatives dir name tail, fs.find q = none

theorem find_freeName {fs : ArchiveFs} {dir name tail : Bytes} (h : HasFreeName fs dir name tail) :
    fs.find (freeName fs dir name tail) = none := by
  obtain ⟨q, hq, hfree⟩ := h
  have hex : ∃ q ∈ join dir name :: alternatives dir name tail,
      (fun p => (fs.find p).isSome) q = false := ⟨q, hq, by simp [hfree]⟩
  have hf := firstFree_free hex
  unfold freeName
  simpa using hf

/-! ## Uploads from HOST -/

/-- `PktMissionFilePushMeta`. -/
structure PktMissionFilePushMeta where
  key : MissionFileKey
  total_bytes : ℕ
  transfer_id : ℕ
  mode : ℕ
  info_data : Bytes

/-- `PktMissionFilePushData` and the bytes behind it. -/
structure PktMissionFilePushData where
  transfer_id : ℕ
  is_last : Bool
  offset : ℕ
  chunk : Bytes

/-- `PktMissionFilePushAck`. -/
structure PktMissionFilePushAck where
  key : MissionFileKey
  transfer_id : ℕ
  status : ℕ
  total_bytes : ℕ
  error_msg : Bytes
  deriving DecidableEq

/-- What the system refuses of an upload: opening the file (with its text for the error), opening
the sidecar, seeking, writing. -/
structure PushFaults where
  open_ : Option Bytes
  info : Bool
  seek : Bool
  write : Bool

/-- Nothing is refused. -/
def PushFaults.none : PushFaults := ⟨.none, false, false, false⟩

/-- `handle_mission_file_push_meta`. -/
def pushMeta (root : Bytes) (r : ℕ) (m : PktMissionFilePushMeta) (f : PushFaults) (now : ℕ)
    (s : State) : State × List PktMissionFilePushAck :=
  if ¬ m.key.valid then (s, [⟨m.key, m.transfer_id, 3, 0, ascii "invalid key"⟩])
  else
    match m.key.dir root with
    | none => (s, [⟨m.key, m.transfer_id, 3, 0, ascii "bad path"⟩])
    | some dir =>
      let fullpath := join dir m.key.filenameStr
      let room := s.rooms r
      -- a transfer with this id is closed and dropped
      let room := { room with mission_xfers := room.mission_xfers.erase m.transfer_id }
      match f.open_ with
      | some err => (s.setRoom r room, [⟨m.key, m.transfer_id, 1, 0, err⟩])
      | none =>
        let (s, fp) := s.openUpload (m.mode = 1) fullpath now
        let info := cStr (m.info_data.take 1024)
        let xf : MissionFileTransfer :=
          { key := m.key, fp := fp, append := m.mode = 1, expected_bytes := m.total_bytes
            written_bytes := 0, high_water := 0, archive_path := fullpath, info_data := info }
        let s := s.setRoom r
          { room with mission_xfers := room.mission_xfers.insert m.transfer_id xf }
        if info ≠ [] ∧ ¬ f.info then ((s.create (sidecarPath fullpath) info now).1, [])
        else (s, [])

/-- `merge_hist_segment` on the archive. -/
def mergeSegment (z : Zstd) (f : MergeFaults) (seg : Bytes) (now : ℕ) (s : State) : State :=
  { s with
    fs := mergeHistSegment z f s.fs seg
    mtime := fun i => if s.fs.next ≤ i then now else s.mtime i }

/-- `handle_mission_file_push_data`. -/
def pushData (z : Zstd) (r : ℕ) (d : PktMissionFilePushData) (f : PushFaults) (mf : MergeFaults)
    (now : ℕ) (s : State) : State × List PktMissionFilePushAck :=
  match (s.rooms r).mission_xfers.lookup d.transfer_id with
  | none => (s, [])
  | some xf =>
    let room := s.rooms r
    let dropped := { room with mission_xfers := room.mission_xfers.erase d.transfer_id }
    if f.seek then
      (s.setRoom r dropped, [⟨xf.key, d.transfer_id, 1, xf.written_bytes, ascii "seek failed"⟩])
    else if d.chunk ≠ [] ∧ f.write then
      (s.setRoom r dropped, [⟨xf.key, d.transfer_id, 1, xf.written_bytes, ascii "short write"⟩])
    else
      let content := s.fs.content xf.fp
      let off := if xf.append then content.length else d.offset
      let s := s.write xf.fp (pwrite off d.chunk content) now
      if d.is_last then
        let disk_bytes := match s.fs.read xf.archive_path with
          | some b => b.length
          | none => 0
        let s := s.setRoom r dropped
        -- a segment is joined to the file before it, once HOST has been told that it arrived
        let s := if xf.key.subdir = MFS_HIST then mergeSegment z mf xf.archive_path now s else s
        (s, [⟨xf.key, d.transfer_id, 0, disk_bytes, []⟩])
      else
        let xf' := { xf with
          written_bytes := xf.written_bytes + d.chunk.length
          high_water := max xf.high_water (d.offset + d.chunk.length) }
        (s.setRoom r { room with mission_xfers := room.mission_xfers.insert d.transfer_id xf' }, [])

/-! ## Listing, renaming, deleting -/

/-- `STALE_LIVE_SEC`. -/
def STALE_LIVE_SEC : ℕ := 180

/-- What `handle_mission_file_list_req` does with one directory entry: a live recording that has not
been written for a while gets its final name, and its sidecar with it. `refused` says that the
system refuses the rename. -/
def listEntry (dir n : Bytes) (refused : Bool) (now : ℕ) (s : State) : State :=
  let full := join dir n
  if n.head? = some 46 ∨ ascii ".info" <:+ n ∨ ascii ".sigmf-meta" <:+ n then s
  else
    match s.fs.find full with
    | none => s
    | some i =>
      if contains liveTail n ∧ s.mtime i + STALE_LIVE_SEC < now then
        let fin := buildHistFilenameFinalize n (s.mtime i)
        if fin ≠ n ∧ ¬ refused then
          let try_full := freeName s.fs dir fin (ascii ".bewehist")
          let fs := s.fs.rename full try_full
          let fs := if (fs.find (sidecarPath full)).isSome then
              fs.rename (sidecarPath full) (sidecarPath try_full)
            else fs
          { s with fs := fs }
        else s
      else s

/-- `handle_mission_file_rename`. The two renames fail where there is nothing to rename. -/
def renameFile (root : Bytes) (key : MissionFileKey) (new_filename : Bytes) (s : State) : State :=
  let newfn := cStr (new_filename.take 128)
  if ¬ key.valid ∨ ¬ pathComponentSafe newfn 128 then s
  else
    match key.dir root with
    | none => s
    | some dir =>
      let src := join dir key.filenameStr
      let dst := join dir newfn
      { s with fs := (s.fs.rename src dst).rename (sidecarPath src) (sidecarPath dst) }

/-! ## Live recordings -/

/-- `archive_hist_on_live_start`; `refused` says that the system refuses to open the file. -/
def liveStart (root : Bytes) (r : ℕ) (ls : PktLwfLiveStart) (refused : Bool) (now : ℕ) (s : State) :
    State :=
  let room := s.rooms r
  match room.active with
  | none => s
  | some a =>
    let fname := cStr (ls.filename.take 64)
    if ¬ pathComponentSafe fname 128 then s
    else
      match archiveDir root a.station a.year a.code MFS_HIST with
      | none => s
      | some dir =>
        let room := { room with hist_streams := room.hist_streams.erase fname }
        let full := freeName s.fs dir fname liveTail
        if refused then s.setRoom r room
        else
          let (s, fp) := s.create full (liveHeader ls).bytes now
          let st : MissionHistStream :=
            { archive_path := full, fp := fp, station := a.station, year := a.year, code := a.code
              fft_size := ls.fft_size, rows_written := 0, start_utc := ls.start_utc_unix, q := none }
          s.setRoom r { room with hist_streams := room.hist_streams.insert fname st }

/-- `HIST_STUB_MAX_SECS`. -/
def HIST_STUB_MAX_SECS : ℕ := 90

/-- `hist_is_short_stub`. -/
def histIsShortStub (start_utc end_utc : ℕ) : Bool :=
  start_utc ≤ end_utc && end_utc - start_utc < HIST_STUB_MAX_SECS

/-- `archive_hist_on_live_stop`; `refused` says that the system refuses the rename. -/
def liveStop (r : ℕ) (filename : Bytes) (refused : Bool) (now : ℕ) (s : State) : State :=
  let fname := cStr (filename.take 64)
  let room := s.rooms r
  match room.hist_streams.lookup fname with
  | none => s
  | some st =>
    let closed := s.setRoom r { room with hist_streams := room.hist_streams.erase fname }
    -- an empty or short recording is thrown away
    if st.rows_written = 0 ∨ histIsShortStub st.start_utc now then
      { closed with fs := (s.fs.unlink st.archive_path).unlink (st.archive_path ++ ascii ".info") }
    else
      match dirOf st.archive_path with
      | none => closed
      | some dir =>
        let base := baseOf st.archive_path
        let fin := buildHistFilenameFinalize base now
        if fin ≠ base ∧ ¬ refused then
          { closed with
            fs := s.fs.rename st.archive_path (freeName s.fs dir fin (ascii ".bewehist")) }
        else closed

end Bewe.Archive

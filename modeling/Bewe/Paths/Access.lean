import Bewe.Database.Download
import Bewe.Lib.Path
import Bewe.ModulePipe.ArchivePush
import Bewe.Sched.Machine

/-!
# The paths that Central takes from packets

Three subsystems of Central make paths of what is in packets: the archive of the missions, the
database, and the modules. `Packet.paths` is every path that the handler of a packet opens, creates,
lists, renames or removes, in the order of the source, with the files as the packet finds them. What
a handler keeps for the packets after it is in `Server`: the open transfers of the rooms, and the
receptions of the modules' archives.
-/

namespace Bewe.Paths

open Lib Hist Archive Database
open MissionPush (Sender)
open ModulePipe (ArchRx Zlib archBody validDate8 ARCH_MAX)
open Sched (atoi)

/-! ## Places -/

/-- The components of a path. -/
def components (p : Bytes) : List (PathStep Bytes) :=
  (p.splitOn slash).map fun n =>
    if n = [] ∨ n = ascii "." then .here else if n = ascii ".." then .up else .name n

/-- The place that a path leads to from the root. -/
def resolve (p : Bytes) : List Bytes := PathStep.walk [] (components p)

/-- A path lies in a directory, or is a directory on the way to it, which `mkdir` finds there. -/
def Contained (base p : Bytes) : Prop :=
  (p <+: base ++ [slash] ∧ p.getLast? = some slash) ∨ resolve base <+: resolve p

/-- A name of a file. -/
structure SafeName (n : Bytes) : Prop where
  no_slash : slash ∉ n
  ne_nil : n ≠ []
  ne_dot : n ≠ ascii "."
  ne_dotdot : n ≠ ascii ".."

/-- The files as a packet finds them: those of the archive and the database, and what `readdir`
gives of a directory. -/
structure Files where
  fs : ArchiveFs
  mtime : ℕ → ℕ
  entries : Bytes → List Bytes
  isDir : Bytes → Bool
  ne_nil : ∀ p, ∀ n ∈ entries p, n ≠ []
  no_slash : ∀ p, ∀ n ∈ entries p, slash ∉ n

/-- The directories of the subsystems, below that of the user. -/
def dbBaseDir (home : Bytes) : Bytes := join (join home (ascii "BEWE")) (ascii "DataBase")
@[inherit_doc dbBaseDir] def archiveRoot (home : Bytes) : Bytes :=
  join (dbBaseDir home) (ascii "missions")
@[inherit_doc dbBaseDir] def modulesDir (home : Bytes) : Bytes :=
  join (join home (ascii "BEWE")) (ascii "modules")

/-- `mkdir_p`: every directory on the way, and the last one. -/
def mkdirP (p : Bytes) : List Bytes :=
  (p.inits.filter fun q => q.getLast? = some slash ∧ 1 < q.length) ++ [p]

/-- The paths that a loop looks at, which goes on to the next one if `more` says so. -/
def lookedAt (more : Bytes → Bool) : Bytes → List Bytes → List Bytes
  | p, [] => [p]
  | p, q :: qs => p :: if more p then lookedAt more q qs else []

/-! ## The archive -/

section

variable (root : Bytes)

/-- The paths of a packet with a key; none if the key is refused. -/
def keyPaths (key : MissionFileKey) (paths : Bytes → List Bytes) : List Bytes :=
  if ¬key.valid then []
  else
    match key.dir root with
    | none => []
    | some dir => paths dir

/-- PUSH_META. -/
def pushMetaPaths (m : PktMissionFilePushMeta) (f : PushFaults) : List Bytes :=
  keyPaths root m.key fun dir =>
    let full := join dir m.key.filenameStr
    mkdirP dir ++ full ::
      if f.open_ = none ∧ cStr (m.info_data.take 1024) ≠ [] then [sidecarPath full] else []

/-- `merge_hist_segment`. -/
def mergePaths (f : MergeFaults) (fs : ArchiveFs) (seg : Bytes) : List Bytes :=
  seg ::
    match dirOf seg with
    | none => []
    | some dir =>
      dir :: ((fs.names.filterMap (entryIn dir)).filter isFinished).map (join dir) ++
        match findMerge f fs seg with
        | none => []
        | some m => [m.tmp, m.best.path, m.merged]

/-- PUSH_DATA. The worker that compresses behind it is left out. -/
def pushDataPaths (room : Room) (d : PktMissionFilePushData) (f : PushFaults) (mf : MergeFaults)
    (fs : ArchiveFs) : List Bytes :=
  match room.mission_xfers.lookup d.transfer_id with
  | none => []
  | some xf =>
    if f.seek ∨ d.chunk ≠ [] ∧ f.write ∨ ¬d.is_last then []
    else
      xf.archive_path ::
        if xf.key.subdir = MFS_HIST then
          -- the segment is complete when it is joined
          mergePaths mf (fs.write xf.fp (pwrite (if xf.append then (fs.content xf.fp).length
            else d.offset) d.chunk (fs.content xf.fp))) xf.archive_path
        else []
    -- the chunk itself goes through the handle

/-- `enum_dir`. -/
def enumDir (files : Files) (path : Bytes) : List Bytes :=
  (files.entries path).filter fun n => n.head? ≠ some 46 && files.isDir (join path n)

/-- A directory entry of LIST_REQ, with its sidecar and the names that a live recording that is
given up may get. -/
def listEntryPaths (files : Files) (dir : Bytes) (now : ℕ) (n : Bytes) : List Bytes :=
  if n.head? = some 46 ∨ ascii ".info" <:+ n ∨ ascii ".sigmf-meta" <:+ n then []
  else
    let full := join dir n
    full ::
      match files.fs.find full with
      | none => []
      | some i =>
        let fin := buildHistFilenameFinalize n (files.mtime i)
        let try_full := freeName files.fs dir fin (ascii ".bewehist")
        (if contains liveTail n ∧ files.mtime i + STALE_LIVE_SEC < now ∧ fin ≠ n then
          lookedAt (fun p => (files.fs.find p).isSome) (join dir fin)
            (alternatives dir fin (ascii ".bewehist")) ++ [try_full, sidecarPath try_full]
        else []) ++ [sidecarPath full]

/-- `add_if` of LIST_REQ. -/
def addIfPaths (files : Files) (now : ℕ) (station : Bytes) (year : ℕ) (code : Bytes)
    (subdir : ℕ) : List Bytes :=
  match archiveDir root station year code subdir with
  | none => []
  | some dir => dir :: (files.entries dir).flatMap (listEntryPaths files dir now)

/-- LIST_REQ. -/
def listReqPaths (files : Files) (now : ℕ) (station : Bytes) (year : ℕ) (code : Bytes)
    (subdir : ℕ) : List Bytes :=
  let fstation := cStr (station.take 64)
  let fcode := cStr (code.take 8)
  -- each walk: the directories that are listed, and the names to go on with
  let stations := if pathComponentSafe fstation 64 then [fstation] else enumDir files root
  let stationPaths := if pathComponentSafe fstation 64 then [] else [root]
  stationPaths ++ stations.flatMap fun st =>
    let years := if year ≠ 0 then [(padDigits 4 year, year)]
      else (enumDir files (join root st)).map fun ys => (ys, (atoi ys % 65536).toNat)
    let yearPaths := if year ≠ 0 then [] else [join root st]
    yearPaths ++ years.flatMap fun y =>
      if y.2 < 1970 ∨ 3000 < y.2 then []
      else
        let codes := if pathComponentSafe fcode 8 then [fcode]
          else enumDir files (join (join root st) y.1)
        let codePaths := if pathComponentSafe fcode 8 then [] else [join (join root st) y.1]
        codePaths ++ codes.flatMap fun cs =>
          if subdir ≠ 0 then addIfPaths root files now st y.2 cs subdir
          else
            addIfPaths root files now st y.2 cs MFS_IQ ++
              addIfPaths root files now st y.2 cs MFS_AUDIO ++
              addIfPaths root files now st y.2 cs MFS_HIST

/-- DL_REQ and DELETE: the file and its sidecar. -/
def filePaths (key : MissionFileKey) : List Bytes :=
  keyPaths root key fun dir =>
    let full := join dir key.filenameStr
    [full, sidecarPath full]

/-- RENAME. -/
def renamePaths (key : MissionFileKey) (new_filename : Bytes) : List Bytes :=
  let newfn := cStr (new_filename.take 128)
  if ¬pathComponentSafe newfn 128 then []
  else
    keyPaths root key fun dir =>
      let src := join dir key.filenameStr
      let dst := join dir newfn
      [src, dst, sidecarPath src, sidecarPath dst]

end

/-! ## The database -/

section

variable (base : Bytes)

/-- `db_ensure_dirs`. -/
def dbEnsureDirs : List Bytes :=
  [base, join base (ascii "iq"), join base (ascii "audio"), join base (ascii "hist"),
    join base (ascii "satframe")]

/-- DB_SAVE_META. -/
def dbSaveMetaPaths (sender : Sender) (filename info : Bytes) (fs : ArchiveFs) : List Bytes :=
  let filename := cStr (filename.take 128)
  if ¬dbFilenameSafe filename then []
  else
    let sub := dbSubdirFor filename
    let dir := join base sub
    let dst := savePath base sender fs filename
    dbEnsureDirs base ++
      (if sender = .host ∧ sub = ascii "satframe" then []
        else lookedAt (fun p => (fs.find p).isSome) (join dir filename)
          (dbAlternatives dir filename)) ++
      (if info ≠ [] then [sidecarPath dst] else []) ++ [dst]

/-- The path of a file where it should be, and the other places where it is looked for. -/
def dbPrimary (fn : Bytes) : Bytes := join (join base (dbSubdirFor fn)) fn
@[inherit_doc dbPrimary] def dbPlaces (fn : Bytes) : List Bytes :=
  [join (join base (ascii "iq")) fn, join (join base (ascii "audio")) fn,
    join (join base (ascii "hist")) fn, join base fn]

/-- DB_DL_REQ and DB_DELETE: the places where a file is looked for, and the one where it is, or is
taken to be, with the sidecar. -/
def dbFilePaths (filename : Bytes) (fs : ArchiveFs) (missing : Bytes → Bytes) : List Bytes :=
  let fn := cStr (filename.take 128)
  if ¬dbFilenameSafe fn then []
  else
    let fpath := ((dbPrimary base fn :: dbPlaces base fn).find? fun p =>
      (fs.find p).isSome).getD (missing fn)
    lookedAt (fun p => (fs.find p).isNone) (dbPrimary base fn) (dbPlaces base fn) ++
      [fpath, sidecarPath fpath]

/-- `broadcast_db_list`: the three directories that are listed, and of each file that is, at most
the sidecar. -/
def dbListPaths (files : Files) : List Bytes :=
  [(ascii "iq", [ascii ".wav", ascii ".sigmf-data"]), (ascii "audio", [ascii ".wav"]),
    (ascii "hist", [ascii ".bewehist", ascii ".wav"])].flatMap fun sub =>
      let dir := join base sub.1
      dir :: ((files.entries dir).filter fun n =>
        n.head? ≠ some 46 ∧ ∃ ext ∈ sub.2, ext <:+ n).flatMap fun n =>
          [join dir n, sidecarPath (join dir n)]

/-- DB_SAVE_DATA, of which the last one makes Central send its list. -/
def dbSaveDataPaths (files : Files) (last : Bool) : List Bytes :=
  if last then dbListPaths base files else []

/-- DB_DL_REQ: without a file the first place is tried. -/
def dbDlReqPaths (filename : Bytes) (fs : ArchiveFs) : List Bytes :=
  dbFilePaths base filename fs (dbPrimary base)

/-- DB_DELETE: without a file the last place is tried. -/
def dbDeletePaths (filename : Bytes) (files : Files) : List Bytes :=
  if ¬dbFilenameSafe (cStr (filename.take 128)) then []
  else dbFilePaths base filename files.fs (join base) ++ dbListPaths base files

end

/-! ## The modules -/

section

variable (home : Bytes)

/-- `mod` in the handlers of MODULE_PIPE. -/
def modStr (mod_id : Bytes) : Bytes := cStr (mod_id.take 8)

/-- `module_store_today`, of a day: the directories that are made, and the file. -/
def moduleStorePaths (mod : Bytes) (day : ℕ × ℕ × ℕ) : List Bytes :=
  let dir := join (modulesDir home) mod
  let date := padDigits 4 day.1 ++ padDigits 2 day.2.1 ++ padDigits 2 day.2.2
  mkdirP dir ++ [join dir (mod ++ ascii "_" ++ date ++ ascii ".dat")]

/-- The directory of a module's archive. -/
def moduleArchive (mod : Bytes) : Bytes := join (join (modulesDir home) mod) (ascii "archive")

/-- `module_archive_dir`. -/
def moduleArchiveDirPaths (mod date8 : Bytes) : List Bytes :=
  mkdirP (moduleArchive home mod) ++ [join (moduleArchive home mod) date8]

/-- `arch_station_disp`, into `cap` characters. -/
def archStationDisp (sid : Bytes) (cap : ℕ) : Bytes :=
  let out := ((sid.takeWhile (· ≠ 95)).take (cap - 1)).map fun c =>
    if 48 ≤ c ∧ c ≤ 57 ∨ 65 ≤ c ∧ c ≤ 90 ∨ 97 ≤ c ∧ c ≤ 122 ∨ c = 45 then c else 95
  if out = [] then ascii "LOCAL" else out

/-- The files of a day: the entries that are recordings of a station. -/
def dayPaths (files : Files) (ddir : Bytes) : List Bytes :=
  ddir :: ((files.entries ddir).filter fun n =>
    7 ≤ n.length ∧ ascii ".jsonl" <:+ n).map (join ddir)

/-- ARCH_DONE, for a reception. -/
def archDonePaths (z : Zlib) (station_id mod : Bytes) (rx : ArchRx) : List Bytes :=
  if rx.active ∧ (archBody z rx.raw rx.buf).isSome then
    moduleArchiveDirPaths home mod rx.date ++
      [join (join (moduleArchive home mod) rx.date)
        (archStationDisp station_id 24 ++ ascii ".jsonl")]
  else []

/-- HLIST_REQ. -/
def hlistReqPaths (files : Files) (mod : Bytes) : List Bytes :=
  moduleArchive home mod ::
    ((files.entries (moduleArchive home mod)).filter validDate8).flatMap fun d =>
      dayPaths files (join (moduleArchive home mod) d)

/-- HFETCH. -/
def hfetchPaths (files : Files) (mod date : Bytes) : List Bytes :=
  let date8 := cStr (date.take 8)
  if validDate8 date8 then dayPaths files (join (moduleArchive home mod) date8) else []

end

/-! ## Packets -/

/-- A packet, with what the system refuses of it. -/
inductive Packet
  | pushMeta (m : PktMissionFilePushMeta) (f : PushFaults)
  | pushData (d : PktMissionFilePushData) (f : PushFaults) (mf : MergeFaults)
  | listReq (station : Bytes) (year : ℕ) (code : Bytes) (subdir : ℕ)
  | dlReq (key : MissionFileKey)
  | delete (key : MissionFileKey)
  | rename (key : MissionFileKey) (new_filename : Bytes)
  | dbSaveMeta (sender : Sender) (filename info : Bytes)
  | dbSaveData (last : Bool)
  | dbDlReq (filename : Bytes)
  | dbDelete (filename : Bytes)
  | modState
  | modData (mod_id : Bytes)
  | recData
  | archMeta (mod_id date : Bytes) (total raw : ℕ)
  | archChunk (mod_id bytes : Bytes)
  | archDone (mod_id : Bytes)
  | vhistReq (mod_id : Bytes)
  | hlistReq (mod_id : Bytes)
  | hfetch (mod_id date : Bytes)
  | chListReq
  | toStation
  | recv (mod_id : Bytes) (on : Bool)

/-- What the handlers keep: of the rooms, their stations and the receptions of their modules. -/
structure Server where
  rooms : ℕ → Room
  station_id : ℕ → Bytes
  arch_rx : ℕ → Bytes → Option ArchRx

/-- A packet for a room, with the time, the day, and the files that it finds. -/
structure Arrival where
  room : ℕ
  packet : Packet
  now : ℕ
  day : ℕ × ℕ × ℕ
  files : Files

section

variable (zstd : Zstd) (zlib : Zlib) (home : Bytes)

/-- The paths of a packet. -/
def Arrival.paths (a : Arrival) (s : Server) : List Bytes :=
  match a.packet with
  | .pushMeta m f => pushMetaPaths (archiveRoot home) m f
  | .pushData d f mf => pushDataPaths (s.rooms a.room) d f mf a.files.fs
  | .listReq station year code subdir =>
    listReqPaths (archiveRoot home) a.files a.now station year code subdir
  | .dlReq key => filePaths (archiveRoot home) key
  | .delete key => filePaths (archiveRoot home) key
  | .rename key new_filename => renamePaths (archiveRoot home) key new_filename
  | .dbSaveMeta sender filename info =>
    dbSaveMetaPaths (dbBaseDir home) sender filename info a.files.fs
  | .dbSaveData last => dbSaveDataPaths (dbBaseDir home) a.files last
  | .dbDlReq filename => dbDlReqPaths (dbBaseDir home) filename a.files.fs
  | .dbDelete filename => dbDeletePaths (dbBaseDir home) filename a.files
  | .modState => []
  | .modData mod_id => moduleStorePaths home (modStr mod_id) a.day
  | .recData => []
  | .archMeta .. => []
  | .archChunk .. => []
  | .archDone mod_id =>
    match s.arch_rx a.room (modStr mod_id) with
    | none => []
    | some rx => archDonePaths home zlib (s.station_id a.room) (modStr mod_id) rx
  | .vhistReq mod_id => moduleStorePaths home (modStr mod_id) a.day
  | .hlistReq mod_id => hlistReqPaths home a.files (modStr mod_id)
  | .hfetch mod_id date => hfetchPaths home a.files (modStr mod_id) date
  | .chListReq => []
  | .toStation => []
  | .recv mod_id on => if on then moduleStorePaths home (modStr mod_id) a.day else []

/-- The directory of the subsystem that a packet is for. -/
def Packet.base : Packet → Bytes
  | .pushMeta .. | .pushData .. | .listReq .. | .dlReq .. | .delete .. | .rename .. =>
    archiveRoot home
  | .dbSaveMeta .. | .dbSaveData _ | .dbDlReq .. | .dbDelete .. => dbBaseDir home
  | _ => modulesDir home

/-- The reception of a module in a room replaced. -/
def Server.setRx (s : Server) (r : ℕ) (mod : Bytes) (rx : ArchRx) : Server :=
  { s with arch_rx := Function.update s.arch_rx r (Function.update (s.arch_rx r) mod (some rx)) }

/-- What the handlers keep after a packet. -/
def Arrival.apply (s : Server) (a : Arrival) : Server :=
  match a.packet with
  | .pushMeta m f => { s with
      rooms := (Archive.pushMeta (archiveRoot home) a.room m f a.now
        ⟨a.files.fs, a.files.mtime, s.rooms⟩).1.rooms }
  | .pushData d f mf => { s with
      rooms := (Archive.pushData zstd a.room d f mf a.now
        ⟨a.files.fs, a.files.mtime, s.rooms⟩).1.rooms }
  | .archMeta mod_id date total raw =>
    let date8 := cStr (date.take 8)
    if validDate8 date8 then
      s.setRx a.room (modStr mod_id) ⟨date8, total, raw, [], total ≤ ARCH_MAX⟩
    else s
  | .archChunk mod_id bytes =>
    match s.arch_rx a.room (modStr mod_id) with
    | none => s
    | some rx => s.setRx a.room (modStr mod_id) (rx.add bytes)
  | .archDone mod_id =>
    match s.arch_rx a.room (modStr mod_id) with
    | none => s
    | some rx =>
      if rx.active then s.setRx a.room (modStr mod_id) { rx with active := false, buf := [] } else s
  | _ => s

/-- Central when no packet has come. -/
def Server.start (station_id : ℕ → Bytes) : Server where
  rooms := fun _ => ⟨none, ∅, ∅⟩
  station_id := station_id
  arch_rx := fun _ _ => none

/-- What is kept after some packets. -/
def served (station_id : ℕ → Bytes) (as : List Arrival) : Server :=
  as.foldl (Arrival.apply zstd home) (Server.start station_id)

/-- The paths of a packet lie in the directory of its subsystem. -/
def Arrival.Contained (s : Server) (a : Arrival) : Prop :=
  ∀ p ∈ a.paths zlib home s, Paths.Contained (a.packet.base home) p

end

end Bewe.Paths

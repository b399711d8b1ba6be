import Bewe.MissionPush.Packets
import Bewe.Saved.Text

/-!
# Central's database

The handlers of `central/central_server.cpp` for DB_SAVE_META and DB_SAVE_DATA, and the packets that
`cmd_db_save` of a JOIN and `sched_db_upload_fn` of HOST make of a file. Central keeps one open file
for each sender and does not look at the id of a transfer. The directories of the database exist,
and the system opens every file.
-/

namespace Bewe.Database

open Lib Archive
open MissionPush (Sender)
open Saved (Chars)

/-! ## Names -/

/-- `db_filename_safe`. -/
def dbFilenameSafe (s : Bytes) : Bool := pathComponentSafe s 128

/-- `db_base_dir`, from the directory of BEWE. -/
def database : Bytes := ascii "DataBase"

/-- `db_subdir_for`. -/
def dbSubdirFor (fn : Bytes) : Bytes :=
  if fn = [] then ascii "iq"
  else if ascii ".bewehist" <:+ fn then ascii "hist"
  else if contains (ascii "_DE_") fn then ascii "audio"
  else if (ascii "leo_" <+: fn ∨ ascii "all_" <+: fn) ∧ 4 < fn.length ∧ ascii ".txt" <:+ fn then
    ascii "tle"
  else if ascii "SATFRAME_" <+: fn then ascii "satframe"
  else ascii "iq"

/-- The names that `db_unique_name` tries after the first. -/
def dbAlternatives (dir filename : Bytes) : List Bytes :=
  let ext := extensionOf filename
  let stem := filename.take (filename.length - ext.length)
  (List.range' 2 999).map fun i => join dir (stem ++ ascii "_" ++ natText i ++ ext)

/-- `db_unique_name`, as a path. -/
def dbUniqueName (fs : ArchiveFs) (base subdir filename : Bytes) : Bytes :=
  let dir := join base subdir
  firstFree (fun p => (fs.find p).isSome) (join dir filename) (dbAlternatives dir filename)

/-! ## Packets -/

/-- `PktDbSaveMeta`, of which the handlers use these. -/
structure PktDbSaveMeta where
  filename : Chars 128
  total_bytes : ℕ
  transfer_id : UInt8
  info_data : Chars 1024

/-- `PktDbSaveData` and the bytes behind it. -/
structure PktDbSaveData where
  transfer_id : UInt8
  is_last : Bool
  chunk_bytes : ℕ
  data : Bytes

/-! ## Handlers -/

/-- An open file, and where the next byte goes. -/
structure DbFile where
  file : ℕ
  pos : ℕ

/-- The files of the database, and `db_fp` of the room and of each JOIN. -/
structure DbState where
  fs : ArchiveFs
  db_fp : Sender → Option DbFile

section

variable (base : Bytes)

/-- The path of the file that DB_SAVE_META opens. -/
def savePath (sender : Sender) (fs : ArchiveFs) (filename : Bytes) : Bytes :=
  let sub := dbSubdirFor filename
  -- HOST replaces a frame of a satellite
  if sender = .host ∧ sub = ascii "satframe" then join (join base sub) filename
  else dbUniqueName fs base sub filename

/-- DB_SAVE_META. -/
def saveMeta (sender : Sender) (m : PktDbSaveMeta) (s : DbState) : DbState :=
  let filename := m.filename.str
  if ¬dbFilenameSafe filename then s
  else
    let dst := savePath base sender s.fs filename
    let info := m.info_data.str.take 1023
    let fs := if info ≠ [] then (s.fs.create (sidecarPath dst) info).1 else s.fs
    let opened := fs.create dst []
    { fs := opened.1, db_fp := Function.update s.db_fp sender (some ⟨opened.2, 0⟩) }

end

/-- DB_SAVE_DATA. -/
def saveData (sender : Sender) (d : PktDbSaveData) (s : DbState) : DbState :=
  match s.db_fp sender with
  | none => s
  | some f =>
    let chunk := if d.chunk_bytes ≤ d.data.length then d.data.take d.chunk_bytes else []
    { fs := s.fs.write f.file (pwrite f.pos chunk (s.fs.content f.file))
      db_fp := Function.update s.db_fp sender
        (if d.is_last then none else some ⟨f.file, f.pos + chunk.length⟩) }

/-! ## Senders -/

/-- A file that is saved: by whom, its name, the text of its sidecar and its bytes, and the id that
HOST would give it. -/
structure Upload where
  sender : Sender
  filename : Bytes
  info : Bytes
  content : Bytes
  tid : UInt8 := 0

/-- `CHUNK`. -/
def CHUNK : ℕ := 64 * 1024

/-- A packet of an upload. -/
inductive Packet
  | saveMeta (m : PktDbSaveMeta)
  | saveData (d : PktDbSaveData)

namespace Upload

/-- `transfer_id`; a JOIN says 1. -/
def transferId (u : Upload) : UInt8 :=
  match u.sender with
  | .host => u.tid
  | .join _ => 1

/-- How much of a sidecar is sent: a JOIN copies 511 bytes of the 1023 that it has read. -/
def infoMax (u : Upload) : ℕ :=
  match u.sender with
  | .host => 1023
  | .join _ => 511

/-- The META packet. -/
def metaPacket (u : Upload) : PktDbSaveMeta where
  filename := .ofStr 128 ((cStr u.filename).take 127)
  total_bytes := u.content.length
  transfer_id := u.transferId
  info_data := .ofStr 1024 ((cStr u.info).take u.infoMax)

/-- The chunk at the offset `i * CHUNK`. -/
def dataPacket (u : Upload) (i : ℕ) : PktDbSaveData where
  transfer_id := u.transferId
  is_last := u.content.length ≤ i * CHUNK + (slice (i * CHUNK) CHUNK u.content).length
  chunk_bytes := (slice (i * CHUNK) CHUNK u.content).length
  data := slice (i * CHUNK) CHUNK u.content

/-- The packet that is sent after `k` others. HOST sends nothing of an empty file, and a JOIN no
chunk. -/
def packet (u : Upload) : ℕ → Option Packet
  | 0 => if u.sender = .host ∧ u.content = [] then none else some (.saveMeta u.metaPacket)
  | i + 1 => if i * CHUNK < u.content.length then some (.saveData (u.dataPacket i)) else none

theorem packet_zero (u : Upload) : u.packet 0 =
    if u.sender = .host ∧ u.content = [] then none else some (.saveMeta u.metaPacket) := rfl

theorem packet_succ (u : Upload) (i : ℕ) : u.packet (i + 1) =
    if i * CHUNK < u.content.length then some (.saveData (u.dataPacket i)) else none := rfl

end Upload

end Bewe.Database

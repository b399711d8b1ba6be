import Bewe.EmitterDb.Jsonl
import Bewe.Lib.Dict
import Bewe.Lib.Float
import Bewe.Lib.LineReader

/-!
# The tracker of the guard

`TrackStore` of `tracker.py`: it follows the AIS file of the day line by line and keeps a track for
every MMSI. `_ingest` takes a line apart (`reading`) and puts what it says into the track; where a value
has a type that `int` or `float` does not take, it raises, and so does `poll`. What the standard library
makes of the bytes of a line and of a text is left open (`Python`).
-/

namespace Bewe.AisGuard

open Lib
open EmitterDb (truncate lineFeed)

/-! ## Values -/

/-- A `str`, by its code points. -/
abbrev PyStr := List ℕ

/-- A `str` of the source. -/
def pyStr (s : String) : PyStr := s.toList.map Char.toNat

/-- What `json.loads` returns; a `dict` as its items. -/
inductive Json
  | null
  | bool (b : Bool)
  | int (z : ℤ)
  | float (x : Fp 53)
  | str (s : PyStr)
  | list (xs : List Json)
  | dict (items : List (PyStr × Json))

/-- What can be raised. -/
inductive PyError
  | attributeError
  | typeError
  | valueError
  | overflowError
  deriving DecidableEq

/-- The functions of the standard library that read and print texts; where there is nothing, they
raise.
-/
structure Python where
  /-- `json.loads` of bytes. -/
  loads : Bytes → Option Json
  /-- `int` of a `str`. -/
  int : PyStr → Option ℤ
  /-- `float` of a `str`. -/
  float : PyStr → Option (Fp 53)
  /-- `str` of a value that is none. -/
  str : Json → PyStr

/-- `bool(v)`. -/
def Json.truthy : Json → Bool
  | .null => false
  | .bool b => b
  | .int z => z ≠ 0
  | .float (.fin q _) => q ≠ 0
  | .float _ => true
  | .str s => s ≠ []
  | .list xs => !xs.isEmpty
  | .dict items => !items.isEmpty

/-- `v == 1`. -/
def Json.isOne : Json → Bool
  | .bool b => b
  | .int z => z = 1
  | .float (.fin q _) => q = 1
  | _ => false

/-- What a function of the library has returned, or the `ValueError` that it raises. -/
def orValueError {α : Type} : Option α → Except PyError α
  | some a => .ok a
  | none => .error .valueError

/-- `int(v)`. -/
def Python.toInt (py : Python) : Json → Except PyError ℤ
  | .bool b => .ok (if b then 1 else 0)
  | .int z => .ok z
  | .float (.fin q _) => .ok (truncate q)
  | .float (.inf _) => .error .overflowError
  | .float (.nan _) => .error .valueError
  | .str s => orValueError (py.int s)
  | _ => .error .typeError

/-- `float(v)`; an integer may be too large for one. -/
def Python.toFloat (py : Python) : Json → Except PyError (Fp 53)
  | .bool b => .ok (.ofRat double_pos (if b then 1 else 0))
  | .int z =>
    if |roundBits 53 z| < 2 ^ 1024 then .ok (.ofRat double_pos z) else .error .overflowError
  | .float x => .ok x
  | .str s => orValueError (py.float s)
  | _ => .error .typeError

/-- `str(v)`. -/
def Python.toStr (py : Python) : Json → PyStr
  | .str s => s
  | v => py.str v

/-- `d.get(k)`, if the key is there. -/
def get (d : List (PyStr × Json)) (k : String) : Option Json :=
  (d.find? fun item => item.1 = pyStr k).map Prod.snd

/-- `d.get(k, default)`. -/
def getOr (d : List (PyStr × Json)) (k : String) (default : Json) : Json := (get d k).getD default

/-! ## `_ingest` -/

/-- What a line says. -/
structure Record where
  mmsi : ℤ
  t_ms : ℤ
  /-- `lat`, `lon`, `sog` and `cog`. -/
  pos : Option (Fp 53 × Fp 53 × Fp 53 × Fp 53)
  nm : Option PyStr
  st : Option ℤ
  nav : Option ℤ
  /-- `aist` and `aim`. -/
  matched : Option (ℤ × ℤ)
  /-- `cfo` and `rssi`. -/
  rf : Option (Fp 53 × Fp 53)

/-- A position. -/
def readPos (py : Python) (d : List (PyStr × Json)) :
    Except PyError (Option (Fp 53 × Fp 53 × Fp 53 × Fp 53)) := do
  if (get d "hp").any Json.isOne then
    let lat ← py.toFloat (getOr d "lat" (.float (.ofRat double_pos 0)))
    let lon ← py.toFloat (getOr d "lon" (.float (.ofRat double_pos 0)))
    let sog ← py.toFloat (getOr d "sog" (.float (.ofRat double_pos (-1))))
    let cog ← py.toFloat (getOr d "cog" (.float (.ofRat double_pos (-1))))
    return some (lat, lon, sog, cog)
  return none

/-- The ship type, if it is set. -/
def readShipType (py : Python) (d : List (PyStr × Json)) : Except PyError (Option ℤ) :=
  match get d "st" with
  | none => return none
  | some v => if v.truthy then return some (← py.toInt v) else return none

/-- The navigational status. -/
def readNav (py : Python) (d : List (PyStr × Json)) : Except PyError (Option ℤ) :=
  match get d "ns" with
  | none => return none
  | some v => return some (← py.toInt v)

/-- What the fingerprint was matched to. -/
def readMatch (py : Python) (d : List (PyStr × Json)) : Except PyError (Option (ℤ × ℤ)) :=
  match get d "aist" with
  | none => return none
  | some v => return some (← py.toInt v, ← py.toInt (getOr d "aim" (.int 0)))

/-- The features of the burst. -/
def readRf (py : Python) (d : List (PyStr × Json)) : Except PyError (Option (Fp 53 × Fp 53)) :=
  match get d "cfo" with
  | none => return none
  | some v =>
    return some (← py.toFloat v, ← py.toFloat (getOr d "rssi" (.float (.ofRat double_pos 0))))

/-- The record in an object, in the order of `_ingest`; none if it has no MMSI or was damaged. -/
def readRecord (py : Python) (d : List (PyStr × Json)) : Except PyError (Option Record) := do
  let mmsi := getOr d "mmsi" (.int 0)
  let mmsi ← py.toInt (if mmsi.truthy then mmsi else .int 0)
  if mmsi ≤ 0 ∨ !(getOr d "crc" (.int 0)).isOne then return none
  let t_ms ← py.toInt (getOr d "t" (.int 0))
  let pos ← readPos py d
  let nm := ((get d "nm").filter Json.truthy).map py.toStr
  let st ← readShipType py d
  let nav ← readNav py d
  let matched ← readMatch py d
  let rf ← readRf py d
  return some { mmsi, t_ms, pos, nm, st, nav, matched, rf }

/-- What `_ingest` makes of a line: a record, none, or what it raises. -/
def reading (py : Python) (raw : Bytes) : Except PyError (Option Record) :=
  match py.loads raw with
  | none => .ok none
  | some (.dict d) => readRecord py d
  | some _ => .error .attributeError -- nothing else has a `get`

/-- `Track`. -/
structure Track where
  mmsi : ℤ
  pts : List (ℤ × Fp 53 × Fp 53 × Fp 53 × Fp 53) := []
  matched : List (ℤ × ℤ) := []
  rf : List (ℤ × Fp 53 × Fp 53) := []
  nm : PyStr := []
  st : ℤ := 0
  nav : ℤ := -1
  last_t_ms : ℤ := 0

/-- `append` to a `deque` with a `maxlen`. -/
def push {α : Type} (maxlen : ℕ) (l : List α) (x : α) : List α :=
  (l ++ [x]).drop ((l ++ [x]).length - maxlen)

/-- A record is put into its track. -/
def Track.put (track_window : ℕ) (r : Record) (tr : Track) : Track where
  mmsi := tr.mmsi
  pts := r.pos.elim tr.pts fun p => push track_window tr.pts (r.t_ms, p)
  matched := r.matched.elim tr.matched (push track_window tr.matched)
  rf := r.rf.elim tr.rf fun p => push track_window tr.rf (r.t_ms, p)
  nm := r.nm.getD tr.nm
  st := r.st.getD tr.st
  nav := r.nav.getD tr.nav
  last_t_ms := max tr.last_t_ms r.t_ms

/-- The tracks, and how many lines went into them and how many did not. -/
structure Tracks where
  tracks : Dict ℤ Track := .empty
  n_lines : ℕ := 0
  n_bad : ℕ := 0

/-- `_ingest`: whether the line was taken up. What a raise leaves of the tracks is not kept, since
nothing catches it.
-/
def ingest (py : Python) (track_window : ℕ) (raw : Bytes) (s : Tracks) :
    Except PyError (Bool × Tracks) := do
  match ← reading py raw with
  | none => return (false, { s with n_bad := s.n_bad + 1 })
  | some r =>
    let tr := (s.tracks.find r.mmsi).getD { mmsi := r.mmsi }
    return (true, { s with
      tracks := s.tracks.set r.mmsi (tr.put track_window r), n_lines := s.n_lines + 1 })

/-! ## `poll` -/

/-- The file that is open: the day it is of, and the position. -/
structure OpenFile where
  day : ℕ
  pos : ℕ

/-- `TrackStore`. -/
structure TrackStore where
  file : Option OpenFile := none
  buf : Bytes := []
  data : Tracks := {}

/-- What `poll` or `_drain` has done: the count it returns, the lines it has handed to `_ingest`, and
what it raises.
-/
structure Polled where
  store : TrackStore
  n : ℕ := 0
  handed : List Bytes := []
  raised : Option PyError := none

/-- A line that `_drain` hands to `_ingest`, and the count. -/
def ingestCounted (py : Python) (track_window : ℕ) (raw : Bytes) (s : ℕ × Tracks) :
    Except PyError (ℕ × Tracks) := do
  let r ← ingest py track_window raw s.2
  return (if r.1 then s.1 + 1 else s.1, r.2)

/-- `1 << 16`. -/
def readSize : ℕ := 65536

/-- `_drain` of the open file; `files` has the bytes of the file of each day. -/
def TrackStore.drain (py : Python) (track_window : ℕ) (files : ℕ → Option Bytes) (f : OpenFile)
    (s : TrackStore) : Polled :=
  let text := ((files f.day).getD []).drop f.pos
  let r := Lib.drain lineFeed (ingestCounted py track_window) readSize (text.length + 1) text
    ⟨s.buf, (0, s.data), [], none⟩
  { store :=
      { file := some { f with pos := f.pos + (text.length - r.2.length) }
        buf := r.1.buf
        data := r.1.state.2 }
    n := r.1.state.1
    handed := r.1.handed
    raised := r.1.raised }

/-- `poll` from where no file of another day is open. A file is not replaced by another one here, so
its inode is not looked at.
-/
def TrackStore.pollToday (py : Python) (track_window : ℕ) (files : ℕ → Option Bytes) (today : ℕ)
    (s : TrackStore) : Polled :=
  match s.file.or ((files today).map fun _ => ⟨today, 0⟩) with
  | none => { store := s }
  | some f =>
    if (files f.day).any fun b => b.length < f.pos then
      { s with buf := [] }.drain py track_window files { f with pos := 0 }
    else s.drain py track_window files f

/-- The file of another day is closed, and what had no end in it is dropped. -/
def TrackStore.close (s : TrackStore) : TrackStore := { s with file := none, buf := [] }

/-- `poll`; the call of itself finds no file open. -/
def TrackStore.poll (py : Python) (track_window : ℕ) (files : ℕ → Option Bytes) (today : ℕ)
    (s : TrackStore) : Polled :=
  match s.file with
  | none => s.pollToday py track_window files today
  | some f =>
    if f.day = today then s.pollToday py track_window files today
    else
      let d := s.drain py track_window files f
      if d.raised.isSome then d
      else
        let p := d.store.close.pollToday py track_window files today
        { p with n := d.n + p.n, handed := d.handed ++ p.handed }

end Bewe.AisGuard

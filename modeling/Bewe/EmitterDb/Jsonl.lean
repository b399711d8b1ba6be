import Bewe.Lib.Binary
import Bewe.EmitterDb.Model

/-!
# One record, one line

The JSON lines in which Central keeps emitters and sightings (`js_escape`, `JR`, `emitter_to_jsonl`
and its siblings in `central/emitter_db.cpp`). The reader is a cursor over the rest of the line:
every function takes the text from the cursor on and returns what is left. Numbers are read as the
exact decimal they spell; an integer goes through the 53 bits of a `double`.
-/

namespace Bewe.EmitterDb

open Lib

/-- The bytes that structure a line: `"`, `\`, `,`, `:`, `[`, `]`, and the braces. -/
def quote : UInt8 := 34
@[inherit_doc quote] def backslash : UInt8 := 92
@[inherit_doc quote] def comma : UInt8 := 44
@[inherit_doc quote] def colon : UInt8 := 58
@[inherit_doc quote] def openBracket : UInt8 := 91
@[inherit_doc quote] def closeBracket : UInt8 := 93
@[inherit_doc quote] def openBrace : UInt8 := 123
@[inherit_doc quote] def closeBrace : UInt8 := 125

/-- The bytes of `n`, `r`, `t`, and `u`, as they stand after a backslash, and of what they stand
for. -/
def letterN : UInt8 := 110
@[inherit_doc letterN] def letterR : UInt8 := 114
@[inherit_doc letterN] def letterT : UInt8 := 116
@[inherit_doc letterN] def letterU : UInt8 := 117
@[inherit_doc letterN] def lineFeed : UInt8 := 10
@[inherit_doc letterN] def carriageReturn : UInt8 := 13
@[inherit_doc letterN] def tab : UInt8 := 9

/-! ## Writing -/

/-- A lower-case hexadecimal digit. -/
def hexByte (d : ℕ) : UInt8 := if d < 10 then UInt8.ofNat (48 + d) else UInt8.ofNat (87 + d)

/-- One byte of `js_escape`. -/
def escapeByte (c : UInt8) : Bytes :=
  if c = quote then [backslash, quote]
  else if c = backslash then [backslash, backslash]
  else if c = lineFeed then [backslash, letterN]
  else if c = carriageReturn then [backslash, letterR]
  else if c = tab then [backslash, letterT]
  else if c < 32 then
    -- `\u%04x`, of which the two high digits are zero for a byte
    [backslash, letterU, hexByte 0, hexByte 0, hexByte (c.toNat / 16), hexByte (c.toNat % 16)]
  else [c]

/-- `js_escape`. -/
def jsEscape (s : Bytes) : Bytes := s.flatMap escapeByte

/-- A string with its quotes. -/
def strText (v : Bytes) : Bytes := quote :: jsEscape v ++ [quote]

/-- An array of strings. -/
def arrText (vs : List Bytes) : Bytes :=
  openBracket :: List.intercalate [comma] (vs.map strText) ++ [closeBracket]

/-- A key and a value's text: what `add_str`, `add_num`, `add_int`, and `add_arr` append. -/
def member (k : String) (v : Bytes) : Bytes := quote :: ascii k ++ [quote, colon] ++ v

/-- Members between braces. -/
def object (ms : List Bytes) : Bytes :=
  openBrace :: List.intercalate [comma] ms ++ [closeBrace]

/-- `emitter_to_jsonl`. -/
def emitterToJsonl (e : Emitter) : Bytes :=
  object
    [member "uid" (strText e.emitter_uid),
      member "name" (strText e.display_name),
      member "f_mhz" (fmtG 6 e.freq_center_mhz),
      member "tol_khz" (fmtG 6 e.freq_tolerance_khz),
      member "bw_khz" (fmtG 6 e.bw_khz),
      member "mod" (strText e.modulation),
      member "proto" (strText e.protocol),
      member "tags_id" (strText e.tags_id),
      member "first" (intText e.first_seen_utc),
      member "last" (intText e.last_seen_utc),
      member "count" (intText e.sighting_count.toNat),
      member "stations" (arrText e.contributing_stations),
      member "notes" (strText e.operator_notes),
      member "members" (arrText e.member_sighting_ids),
      member "creator" (strText e.created_by),
      member "created" (intText e.created_utc)]

/-- `sighting_to_jsonl`. -/
def sightingToJsonl (s : Sighting) : Bytes :=
  object
    [member "sid" (strText s.sighting_id),
      member "file" (strText s.filename),
      member "reporter" (strText s.reporter),
      member "station" (strText s.station),
      member "f_mhz" (fmtG 6 s.freq_mhz),
      member "bw_khz" (fmtG 6 s.bw_khz),
      member "mod" (strText s.modulation),
      member "proto" (strText s.protocol),
      member "target" (strText s.target),
      member "op" (strText s.operator_name),
      member "tags" (strText s.tags),
      member "start" (intText s.start_utc),
      member "dur" (intText s.duration_s.toNat),
      member "euid" (strText s.emitter_uid),
      member "status" (intText s.match_status.toNat)]

/-! ## Reading -/

/-- Whether `skip_ws` passes over a byte. -/
def isWs (c : UInt8) : Bool := c = 32 || c = lineFeed || c = carriageReturn || c = tab

/-- `JR::skip_ws`. -/
def skipWs (t : Bytes) : Bytes := t.dropWhile isWs

/-- `JR::consume`: whether the next byte is `c`, and the text after it if it is. -/
def consume (c : UInt8) (t : Bytes) : Bool × Bytes :=
  match skipWs t with
  | d :: r => if d = c then (true, r) else (false, d :: r)
  | [] => (false, [])

/-- `JR::peek`. -/
def peek (c : UInt8) (t : Bytes) : Bool := (skipWs t).head? = some c

/-- The value of a hexadecimal digit. -/
def hexVal (c : UInt8) : Option ℕ :=
  if 48 ≤ c ∧ c ≤ 57 then some (c.toNat - 48)
  else if 97 ≤ c ∧ c ≤ 102 then some (c.toNat - 87)
  else if 65 ≤ c ∧ c ≤ 70 then some (c.toNat - 55)
  else none

/-- The hexadecimal digits at the start of a text. -/
def hexDigits : Bytes → List ℕ
  | c :: t => match hexVal c with
    | some d => d :: hexDigits t
    | none => []
  | [] => []

/-- `strtol(…, nullptr, 16)`: white space, a sign, `0x`, and digits. -/
def strtol16 (t : Bytes) : ℤ :=
  let (neg, t) := readSign (t.dropWhile fun c => isWs c || c = 11 || c = 12)
  let t := match t with
    | z :: x :: r => if z = 48 ∧ (x = 120 ∨ x = 88) then r else t
    | _ => t
  let v : ℤ := (hexDigits t).foldl (fun a d => 16 * a + (d : ℤ)) 0
  if neg then -v else v

/-- What `\uXXXX` adds to a string: one byte if the code is ASCII, otherwise nothing. -/
def codeByte (hex : Bytes) : Bytes :=
  if strtol16 hex < 128 then [UInt8.ofNat (strtol16 hex % 256).toNat] else []

/-- The loop of `JR::read_string`, up to the closing quote or the end, after passing over `skip`
bytes. -/
def readChars : ℕ → Bytes → Bytes × Bytes
  | _, [] => ([], [])
  | skip + 1, _ :: t => readChars skip t
  | 0, [c] => if c = quote then ([], [c]) else ([c], [])
  | 0, c :: d :: t =>
    if c = quote then ([], c :: d :: t)
    else if c = backslash then
      if d = letterN then (lineFeed :: (readChars 0 t).1, (readChars 0 t).2)
      else if d = letterR then (carriageReturn :: (readChars 0 t).1, (readChars 0 t).2)
      else if d = letterT then (tab :: (readChars 0 t).1, (readChars 0 t).2)
      else if d = quote then (quote :: (readChars 0 t).1, (readChars 0 t).2)
      else if d = backslash then (backslash :: (readChars 0 t).1, (readChars 0 t).2)
      else if d = letterU ∧ 4 ≤ t.length then
        -- the four digits are decoded at once and then passed over
        (codeByte (t.take 4) ++ (readChars 4 t).1, (readChars 4 t).2)
      else (d :: (readChars 0 t).1, (readChars 0 t).2)
    else (c :: (readChars 0 (d :: t)).1, (readChars 0 (d :: t)).2)

/-- `JR::read_string`: the string, if there is one. -/
def readString (t : Bytes) : Option Bytes × Bytes :=
  match skipWs t with
  | c :: r =>
    if c = quote then (some (readChars 0 r).1, (readChars 0 r).2.tail) else (none, c :: r)
  | [] => (none, [])

/-- `JR::read_number`: the number, if there is one. -/
def readNumber (t : Bytes) : Option ℚ × Bytes :=
  let s := (skipWs t).takeWhile isNumByte
  if s = [] then (none, skipWs t) else (some (parseDecimal s), (skipWs t).dropWhile isNumByte)

/-- A number without its fraction, as a cast to an integer type makes it. -/
def truncate (q : ℚ) : ℤ := if q < 0 then ⌈q⌉ else ⌊q⌋

/-- `JR::read_int64`. -/
def readInt64 (t : Bytes) : Option ℤ × Bytes :=
  ((readNumber t).1.map fun q => truncate (roundBits 53 q), (readNumber t).2)

/-- The loop of `JR::skip_value` over an array or an object, at a depth. -/
def skipNested (opening closing : UInt8) : ℕ → ℕ → Bytes → Bytes
  | 0, _, t => t
  | _ + 1, _, [] => []
  | fuel + 1, depth, c :: t =>
    if depth = 0 then c :: t
    else if c = quote then skipNested opening closing fuel depth (readString (c :: t)).2
    else if c = opening then skipNested opening closing fuel (depth + 1) t
    else if c = closing then skipNested opening closing fuel (depth - 1) t
    else skipNested opening closing fuel depth t

/-- `JR::skip_value`. -/
def skipValue (t : Bytes) : Bytes :=
  match skipWs t with
  | [] => []
  | c :: r =>
    if c = quote then (readString (c :: r)).2
    else if c = openBracket then skipNested openBracket closeBracket (r.length + 1) 1 r
    else if c = openBrace then skipNested openBrace closeBrace (r.length + 1) 1 r
    else (readNumber (c :: r)).2

/-- The loop over the strings of an array. -/
def readStrings : ℕ → Bytes → List Bytes × Bytes
  | 0, t => ([], t)
  | fuel + 1, t =>
    if peek closeBracket t || skipWs t = [] then ([], t)
    else
      match readString t with
      | (none, t) => ([], t)
      | (some v, t) =>
        let r := readStrings fuel (if peek comma t then (consume comma t).2 else t)
        (v :: r.1, r.2)

/-- An array of strings. -/
def readArray (t : Bytes) : List Bytes × Bytes :=
  let t := (consume openBracket t).2
  let r := readStrings (t.length + 1) t
  (r.1, (consume closeBracket r.2).2)

/-- The loop over the members of an object: `field k r t` reads the value of the key `k` into the
record `r`. -/
def readMembers {ρ : Type*} (field : Bytes → ρ → Bytes → ρ × Bytes) : ℕ → ρ → Bytes → Option ρ
  | 0, _, _ => none
  | fuel + 1, r, t =>
    if peek closeBrace t then some r
    else
      match readString t with
      | (none, _) => none
      | (some k, t) =>
        match consume colon t with
        | (false, _) => none
        | (true, t) =>
          let (r, t) := field k r t
          readMembers field fuel r (if peek comma t then (consume comma t).2 else t)

/-- A record from a line, starting from `r`. -/
def readObject {ρ : Type*} (field : Bytes → ρ → Bytes → ρ × Bytes) (r : ρ) (line : Bytes) :
    Option ρ :=
  match consume openBrace line with
  | (false, _) => none
  | (true, t) => readMembers field (t.length + 1) r t

/-- Reading a value into a field that keeps its value `old` if there is none to read. -/
def into {α : Type*} (r : Option α × Bytes) (old : α) : α × Bytes := (r.1.getD old, r.2)

/-- The branches of `emitter_from_jsonl`. -/
def emitterField (k : Bytes) (e : Emitter) (t : Bytes) : Emitter × Bytes :=
  if k = ascii "uid" then
    let (v, t) := into (readString t) e.emitter_uid
    ({ e with emitter_uid := v }, t)
  else if k = ascii "name" then
    let (v, t) := into (readString t) e.display_name
    ({ e with display_name := v }, t)
  else if k = ascii "f_mhz" then
    let (v, t) := into (readNumber t) e.freq_center_mhz
    ({ e with freq_center_mhz := v }, t)
  else if k = ascii "tol_khz" then
    let (v, t) := into (readNumber t) e.freq_tolerance_khz
    ({ e with freq_tolerance_khz := v }, t)
  else if k = ascii "bw_khz" then
    let (v, t) := into (readNumber t) e.bw_khz
    ({ e with bw_khz := v }, t)
  else if k = ascii "mod" then
    let (v, t) := into (readString t) e.modulation
    ({ e with modulation := v }, t)
  else if k = ascii "proto" then
    let (v, t) := into (readString t) e.protocol
    ({ e with protocol := v }, t)
  else if k = ascii "tags_id" then
    let (v, t) := into (readString t) e.tags_id
    ({ e with tags_id := v }, t)
  else if k = ascii "first" then
    let (v, t) := into (readInt64 t) e.first_seen_utc
    ({ e with first_seen_utc := v }, t)
  else if k = ascii "last" then
    let (v, t) := into (readInt64 t) e.last_seen_utc
    ({ e with last_seen_utc := v }, t)
  else if k = ascii "count" then
    let (v, t) := into (readInt64 t) e.sighting_count.toNat
    ({ e with sighting_count := UInt32.ofNat (v % 2 ^ 32).toNat }, t)
  else if k = ascii "stations" then
    let (vs, t) := readArray t
    ({ e with contributing_stations := vs }, t)
  else if k = ascii "notes" then
    let (v, t) := into (readString t) e.operator_notes
    ({ e with operator_notes := v }, t)
  else if k = ascii "members" then
    let (vs, t) := readArray t
    ({ e with member_sighting_ids := vs }, t)
  else if k = ascii "creator" then
    let (v, t) := into (readString t) e.created_by
    ({ e with created_by := v }, t)
  else if k = ascii "created" then
    let (v, t) := into (readInt64 t) e.created_utc
    ({ e with created_utc := v }, t)
  else (e, skipValue t)

/-- `emitter_from_jsonl`: the record, unless the line is broken or gives no uid. -/
def emitterFromJsonl (line : Bytes) : Option Emitter :=
  (readObject emitterField {} line).filter fun e => e.emitter_uid ≠ []

/-- The branches of `sighting_from_jsonl`. -/
def sightingField (k : Bytes) (s : Sighting) (t : Bytes) : Sighting × Bytes :=
  if k = ascii "sid" then
    let (v, t) := into (readString t) s.sighting_id
    ({ s with sighting_id := v }, t)
  else if k = ascii "file" then
    let (v, t) := into (readString t) s.filename
    ({ s with filename := v }, t)
  else if k = ascii "reporter" then
    let (v, t) := into (readString t) s.reporter
    ({ s with reporter := v }, t)
  else if k = ascii "station" then
    let (v, t) := into (readString t) s.station
    ({ s with station := v }, t)
  else if k = ascii "f_mhz" then
    let (v, t) := into (readNumber t) s.freq_mhz
    ({ s with freq_mhz := v }, t)
  else if k = ascii "bw_khz" then
    let (v, t) := into (readNumber t) s.bw_khz
    ({ s with bw_khz := v }, t)
  else if k = ascii "mod" then
    let (v, t) := into (readString t) s.modulation
    ({ s with modulation := v }, t)
  else if k = ascii "proto" then
    let (v, t) := into (readString t) s.protocol
    ({ s with protocol := v }, t)
  else if k = ascii "target" then
    let (v, t) := into (readString t) s.target
    ({ s with target := v }, t)
  else if k = ascii "op" then
    let (v, t) := into (readString t) s.operator_name
    ({ s with operator_name := v }, t)
  else if k = ascii "tags" then
    let (v, t) := into (readString t) s.tags
    ({ s with tags := v }, t)
  else if k = ascii "start" then
    let (v, t) := into (readInt64 t) s.start_utc
    ({ s with start_utc := v }, t)
  else if k = ascii "dur" then
    let (v, t) := into (readInt64 t) s.duration_s.toNat
    ({ s with duration_s := UInt32.ofNat (v % 2 ^ 32).toNat }, t)
  else if k = ascii "euid" then
    let (v, t) := into (readString t) s.emitter_uid
    ({ s with emitter_uid := v }, t)
  else if k = ascii "status" then
    let (v, t) := into (readInt64 t) s.match_status.toNat
    ({ s with match_status := UInt8.ofNat (v % 2 ^ 8).toNat }, t)
  else (s, skipValue t)

/-- `sighting_from_jsonl`: the record, unless the line is broken or gives no id. -/
def sightingFromJsonl (line : Bytes) : Option Sighting :=
  (readObject sightingField {} line).filter fun s => s.sighting_id ≠ []

/-! ## Files -/

/-- `getline` until the end: the lines of a text. -/
def splitLines : Bytes → List Bytes
  | [] => []
  | c :: t =>
    if c = lineFeed then [] :: splitLines t
    else
      match splitLines t with
      | [] => [[c]]
      | l :: ls => (c :: l) :: ls

/-- What `save_emitters_atomic_unlocked_` writes. -/
def emittersText (m : Std.TreeMap Bytes Emitter) : Bytes :=
  m.toList.flatMap fun kv => emitterToJsonl kv.2 ++ [lineFeed]

/-- What `save_sightings_atomic_unlocked_` writes. -/
def sightingsText (m : Std.TreeMap Bytes Sighting) : Bytes :=
  m.toList.flatMap fun kv => sightingToJsonl kv.2 ++ [lineFeed]

/-- One turn of the loop of a load: a line that gives a record is stored under the record's id. -/
def storeLine {ρ : Type*} (read : Bytes → Option ρ) (id : ρ → Bytes) (m : Std.TreeMap Bytes ρ)
    (line : Bytes) : Std.TreeMap Bytes ρ :=
  if line = [] then m
  else
    match read line with
    | some r => m.insert (id r) r
    | none => m

/-- The loop of a load. -/
def loadLines {ρ : Type*} (read : Bytes → Option ρ) (id : ρ → Bytes) (text : Bytes) :
    Std.TreeMap Bytes ρ :=
  (splitLines text).foldl (storeLine read id) {}

/-- `load_emitters_jsonl_`. -/
def loadEmitters (text : Bytes) : Std.TreeMap Bytes Emitter :=
  loadLines emitterFromJsonl Emitter.emitter_uid text

/-- `load_sightings_jsonl_`. -/
def loadSightings (text : Bytes) : Std.TreeMap Bytes Sighting :=
  loadLines sightingFromJsonl Sighting.sighting_id text

/-- The database that `load` finds where another has saved. -/
def restart (db : EmitterDb) : EmitterDb where
  emitters := loadEmitters (emittersText db.emitters)
  sightings := loadSightings (sightingsText db.sightings)

example : sightingFromJsonl (sightingToJsonl
    { sighting_id := [97, 34, 9, 1, 92, 255], freq_mhz := 1234567 / 1000, start_utc := -7,
      emitter_uid := ascii "e_1" }) =
    some { sighting_id := [97, 34, 9, 1, 92, 255], freq_mhz := 123457 / 100, start_utc := -7,
           emitter_uid := ascii "e_1" } := by decide +kernel

end Bewe.EmitterDb

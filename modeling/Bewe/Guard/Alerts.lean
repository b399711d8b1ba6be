import Bewe.Lib.Alarm
import Bewe.Lib.Dict
import Bewe.Lib.Float
import Bewe.Text

/-!
# The alert book of the guard

`alerts.py`: the lines that the guard daemon appends for the viewers (`make_doc`), and the book that keeps
an event from tick to tick and publishes it as new, as updated, and as cleared (`AlertBook`). Strings are
their UTF-8 bytes, floats are doubles, and what `time.time()` returns is given with each call.
-/

namespace Bewe.Guard

open Lib
open Lib.Alarm (Signal)

/-! ## Lines -/

/-- `ST_NEW`, `ST_UPDATE`, and `ST_CLEAR`. -/
def st_code : Signal → ℕ
  | .new => 1
  | .update => 2
  | .clear => 3

/-- One bit of `zlib.crc32`. -/
def crcBit (x : UInt32) : UInt32 := if x &&& 1 = 1 then (x >>> 1) ^^^ 0xedb88320 else x >>> 1

/-- `zlib.crc32`. -/
def crc32 (s : Bytes) : UInt32 :=
  ~~~s.foldl (fun x c => crcBit^[8] (x ^^^ c.toUInt32)) 0xffffffff

example : crc32 (ascii "123456789") = 0xcbf43926 := by decide +kernel

/-- `make_aid`. -/
def make_aid (typ mmsi mmsi2 : ℤ) : UInt32 :=
  crc32 (intText typ ++ ascii ":" ++ intText mmsi ++ ascii ":" ++ intText mmsi2)

/-- A byte inside of a character of several bytes. -/
def isTrail (c : UInt8) : Bool := c &&& 0xc0 = 0x80

/-- `trunc_utf8`: the bytes that are cut may end in the first byte of a character, which `decode` leaves
out. -/
def trunc_utf8 (s : Bytes) (nbytes : ℕ) : Bytes :=
  if s.length ≤ nbytes then s
  else
    match (s.take nbytes).reverse.dropWhile isTrail with
    | [] => []
    | c :: r => if c < 0x80 then (c :: r).reverse else r.reverse

/-- A line of the contract. -/
structure Doc where
  t : ℤ
  aid : UInt32
  typ : ℤ
  sev : ℤ
  st : Signal
  mmsi : ℤ
  mmsi2 : ℤ
  lat : Fp 53
  lon : Fp 53
  score : Fp 53
  cpa : Fp 53
  tcpa : Fp 53
  msg : Bytes
  reco : Bytes

/-- `make_doc`. -/
def make_doc (t : ℤ) (aid : UInt32) (typ sev : ℤ) (st : Signal) (mmsi mmsi2 : ℤ)
    (lat lon score cpa tcpa : Fp 53) (msg reco : Bytes) : Doc where
  t := t
  aid := aid
  typ := typ
  sev := sev
  st := st
  mmsi := mmsi
  mmsi2 := mmsi2
  lat := lat.decimal 6
  lon := lon.decimal 6
  score := score.decimal 1
  cpa := cpa.decimal 1
  tcpa := tcpa.decimal 1
  msg := trunc_utf8 msg 95
  reco := trunc_utf8 reco 127

/-! ## Floats -/

/-- `a - b`. -/
def fpSub : Fp 53 → Fp 53 → Fp 53
  | .nan s, _ => .nan s
  | _, .nan s => .nan s
  | .inf s, .inf s' => if s = s' then .nan false else .inf s
  | .inf s, .fin _ _ => .inf s
  | .fin _ _, .inf s => .inf !s
  | .fin q _, .fin r _ => .ofRat double_pos (q - r)

/-- `abs(a)`. -/
def fpAbs : Fp 53 → Fp 53
  | .nan _ => .nan false
  | .inf _ => .inf false
  | .fin q _ => .ofRat double_pos |q|

/-- `a >= b`. -/
def fpGe : Fp 53 → Fp 53 → Bool
  | .nan _, _ => false
  | _, .nan _ => false
  | .inf s, .inf s' => !s || s'
  | .inf s, .fin _ _ => !s
  | .fin _ _, .inf s => s
  | .fin q _, .fin r _ => r ≤ q

/-- A literal. -/
def lit (q : ℚ) : Fp 53 := .ofRat double_pos q

/-! ## `AlertBook` -/

/-- The hysteresis of `GuardConfig`. Both counts are of ticks. -/
structure GuardConfig where
  clear_ticks : ℕ := 3
  enter_ticks : ℕ := 2
  update_min_interval_s : Fp 53 := lit 30
  update_score_delta : Fp 53 := lit 5
  clear_pos : 0 < clear_ticks := by decide
  enter_pos : 0 < enter_ticks := by decide

/-- What the clock shows in the calls of an observation and of a line: before, in milliseconds for the
line, and after it. -/
structure Clock where
  now : Fp 53
  ms : ℤ
  emitted : Fp 53

/-- The arguments of `observe`. -/
structure Observation where
  typ : ℤ
  sev : ℤ
  mmsi : ℤ
  mmsi2 : ℤ
  lat : Fp 53
  lon : Fp 53
  score : Fp 53
  cpa : Fp 53
  tcpa : Fp 53
  msg : Bytes
  reco : Bytes
  aid_key2 : Option ℤ := none
  clock : Clock

/-- The event that an observation is about. -/
def Observation.aid (o : Observation) : UInt32 := make_aid o.typ o.mmsi (o.aid_key2.getD o.mmsi2)

/-- An event of `active`. -/
structure Event where
  typ : ℤ
  mmsi : ℤ
  mmsi2 : ℤ
  last_emit : Fp 53
  emit_sev : ℤ
  emit_score : Fp 53
  hits : ℕ
  emitted : Bool
  tick : ℕ
  miss : ℕ
  sev : ℤ
  score : Fp 53
  lat : Fp 53
  lon : Fp 53
  cpa : Fp 53
  tcpa : Fp 53
  msg : Bytes
  reco : Bytes

/-- `AlertBook`. -/
structure AlertBook where
  active : Dict UInt32 Event
  tick : ℕ

/-- A book with no events. -/
def AlertBook.init : AlertBook := ⟨.empty, 0⟩

/-- An event that has not been seen before, with what the first observation has of it. -/
def Observation.event (o : Observation) (tick : ℕ) : Event where
  typ := o.typ
  mmsi := o.mmsi
  mmsi2 := o.mmsi2
  last_emit := lit 0
  emit_sev := 0
  emit_score := lit (-10 ^ 9)
  hits := 0
  emitted := false
  tick := tick
  miss := 0
  sev := o.sev
  score := o.score
  lat := o.lat
  lon := o.lon
  cpa := o.cpa
  tcpa := o.tcpa
  msg := o.msg
  reco := o.reco

/-- `e.update`, and the count of the hit. -/
def Event.hit (e : Event) (o : Observation) (tick : ℕ) : Event :=
  { e with
    tick := tick
    miss := 0
    sev := o.sev
    score := o.score
    lat := o.lat
    lon := o.lon
    cpa := o.cpa
    tcpa := o.tcpa
    msg := o.msg
    reco := o.reco
    mmsi2 := o.mmsi2
    hits := e.hits + 1 }

/-- The line of `_emit`. -/
def Event.doc (e : Event) (aid : UInt32) (st : Signal) (clock : Clock) : Doc :=
  make_doc clock.ms aid e.typ e.sev st e.mmsi e.mmsi2 e.lat e.lon e.score e.cpa e.tcpa e.msg e.reco

/-- What `_emit` keeps of a line. -/
def Event.emit (e : Event) (clock : Clock) : Event :=
  { e with last_emit := clock.emitted, emit_sev := e.sev, emit_score := e.score }

/-- Whether an event that has been observed is published, and as what. -/
def Event.due (cfg : GuardConfig) (e : Event) (now : Fp 53) : Option Signal :=
  if e.hits < cfg.enter_ticks ∧ !e.emitted then none
  else if !e.emitted then some .new
  else if e.sev ≠ e.emit_sev ∨ fpGe (fpAbs (fpSub e.score e.emit_score)) cfg.update_score_delta ∨
      fpGe (fpSub now e.last_emit) cfg.update_min_interval_s then some .update
  else none

/-- `observe`. -/
def AlertBook.observe (cfg : GuardConfig) (b : AlertBook) (o : Observation) : AlertBook × List Doc :=
  let e := ((b.active.find o.aid).getD (o.event b.tick)).hit o b.tick
  match e.due cfg o.clock.now with
  | none => ({ b with active := b.active.set o.aid e }, [])
  | some st =>
    ({ b with active := b.active.set o.aid ({ e with emitted := true }.emit o.clock) },
      [e.doc o.aid st o.clock])

/-- The end of a tick for one event. -/
def AlertBook.endEvent (cfg : GuardConfig) (clock : UInt32 → Clock) (b : AlertBook) (aid : UInt32) :
    AlertBook × List Doc :=
  match b.active.find aid with
  | none => (b, [])
  | some e =>
    if e.tick = b.tick then (b, [])
    else if cfg.clear_ticks ≤ e.miss + 1 then
      ({ b with active := b.active.erase aid },
        if e.emitted then [{ e with miss := e.miss + 1 }.doc aid .clear (clock aid)] else [])
    else ({ b with active := b.active.set aid { e with miss := e.miss + 1 } }, [])

/-- Calls that publish lines, one after the other. -/
def AlertBook.each {α : Type} (f : AlertBook → α → AlertBook × List Doc) (b : AlertBook) :
    List α → AlertBook × List Doc
  | [] => (b, [])
  | a :: as =>
    let r := f b a
    let s := AlertBook.each f r.1 as
    (s.1, r.2 ++ s.2)

/-- `end_tick`. -/
def AlertBook.end_tick (cfg : GuardConfig) (b : AlertBook) (clock : UInt32 → Clock) :
    AlertBook × List Doc :=
  let r := AlertBook.each (AlertBook.endEvent cfg clock) b b.active.keys
  ({ r.1 with tick := r.1.tick + 1 }, r.2)

/-- A tick: what is observed in it, in order, and the clock in `end_tick`. -/
structure Tick where
  observations : List Observation
  clock : UInt32 → Clock

/-- The calls of a tick. -/
def AlertBook.run (cfg : GuardConfig) (b : AlertBook) (k : Tick) : AlertBook × List Doc :=
  let r := AlertBook.each (AlertBook.observe cfg) b k.observations
  let s := r.1.end_tick cfg k.clock
  (s.1, r.2 ++ s.2)

/-- The book before each of the ticks. -/
def bookAt (cfg : GuardConfig) (ks : ℕ → Tick) : ℕ → AlertBook
  | 0 => .init
  | n + 1 => ((bookAt cfg ks n).run cfg (ks n)).1

/-- The states that are published for an event in each of the ticks. -/
def published (cfg : GuardConfig) (ks : ℕ → Tick) (aid : UInt32) (n : ℕ) : List Signal :=
  (((bookAt cfg ks n).run cfg (ks n)).2.filter fun d => d.aid = aid).map Doc.st

/-- How often an event is observed in each of the ticks. -/
def observed (ks : ℕ → Tick) (aid : UInt32) (n : ℕ) : ℕ :=
  (ks n).observations.countP fun o => o.aid = aid

end Bewe.Guard

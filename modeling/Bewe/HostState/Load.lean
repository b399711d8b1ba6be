import Bewe.HostState.Model

/-!
# Loading the state of HOST

`load`, which reads the file member by member and keeps what it has where it cannot go on.
-/

namespace Bewe.HostState

open Lib
open Saved (Chars copyName numberOr0 toLongLong)
open Saved.JScan (readKey readNumber readString consume peek skipWs)
open EmitterDb (quote backslash comma colon openBrace closeBrace openBracket closeBracket member)
open Df (PktDfConfig kMaxElements)

/-- `ChanSnap`. -/
@[ext]
structure ChanSnap where
  s : Binary32 := zero
  e : Binary32 := zero
  mode : Int32 := 0
  owner : Chars 32 := .ofStr 32 []
  audio_mask : UInt32 := 0xffffffff
  pan : Int32 := 0
  sq : Binary32 := sqNone
  sq_manual : Bool := false
  decode_mods : Chars 64 := .ofStr 64 []
  det_on : Bool := false
  det_s : Binary32 := zero
  det_e : Binary32 := zero
  deriving DecidableEq

/-- `NotchSnap`. -/
structure NotchSnap where
  lo : Binary32 := zero
  hi : Binary32 := zero
  deriving DecidableEq

/-- `PktDfConfig{}`. -/
def noConfig : PktDfConfig Binary32 where
  radius_m := zero
  heading_deg := zero
  snr_thr_db := zero
  dc_guard_hz := zero
  c_papr := zero
  target_looks := 0
  fft_size := 0
  elements := 0
  algo := 0
  sense := 0
  avg_frames := 0
  max_frames := 0
  signal_dim := 0
  enable_control := 0
  gain_idx := 0
  array_type := 0
  mrc := 0
  elem_x _ := zero
  elem_y _ := zero

/-- `Snapshot`. -/
structure Snapshot where
  ok : Bool := false
  cf_mhz : Binary32 := zero
  sr_msps : Binary32 := zero
  has_gain : Bool := false
  gain_db : Binary32 := zero
  chans : List ChanSnap := []
  has_df : Bool := false
  df : PktDfConfig Binary32 := noConfig
  notches : List NotchSnap := []

/-- The element that a key of a coordinate is about. -/
def elementKey (p k : Bytes) : Option (Fin kMaxElements) :=
  if k.take 5 = p then (List.finRange kMaxElements).find? fun m => k.drop 5 = natText m else none

/-- A member of the direction finding that is set. -/
def Snapshot.setDf (f : PktDfConfig Binary32 → PktDfConfig Binary32) (st : Snapshot) : Snapshot :=
  { st with df := f st.df, has_df := true }

/-- The keys with a number, and what is done with it. -/
def numberKeys : List (Bytes × (Fp 53 → Snapshot → Snapshot)) :=
  [(ascii "cf_mhz", fun d st => { st with cf_mhz := .ofDouble d }),
    (ascii "sr_msps", fun d st => { st with sr_msps := .ofDouble d }),
    (ascii "gain_db", fun d st => { st with gain_db := .ofDouble d, has_gain := true }),
    (ascii "df_radius_m", fun d => .setDf fun c => { c with radius_m := .ofDouble d }),
    (ascii "df_heading_deg", fun d => .setDf fun c => { c with heading_deg := .ofDouble d }),
    (ascii "df_elements", fun d => .setDf fun c => { c with elements := .ofInt (toLongLong d) }),
    (ascii "df_algo", fun d => .setDf fun c => { c with algo := .ofInt (toLongLong d) }),
    (ascii "df_sense", fun d => .setDf fun c => { c with sense := .ofInt (toLongLong d) }),
    (ascii "df_avg_frames", fun d => .setDf fun c => { c with avg_frames := .ofInt (toLongLong d) }),
    (ascii "df_signal_dim", fun d => .setDf fun c => { c with signal_dim := .ofInt (toLongLong d) }),
    (ascii "df_snr_thr_db", fun d => .setDf fun c => { c with snr_thr_db := .ofDouble d }),
    (ascii "df_dc_guard_hz", fun d => .setDf fun c => { c with dc_guard_hz := .ofDouble d }),
    (ascii "df_c_papr", fun d => .setDf fun c => { c with c_papr := .ofDouble d }),
    (ascii "df_target_looks", fun d => .setDf fun c => { c with target_looks := .ofInt (toLongLong d) }),
    (ascii "df_fft_size", fun d => .setDf fun c => { c with fft_size := .ofInt (toLongLong d) }),
    (ascii "df_max_frames", fun d => .setDf fun c => { c with max_frames := .ofInt (toLongLong d) }),
    (ascii "df_enable_control",
      fun d => .setDf fun c => { c with enable_control := .ofInt (toLongLong d) }),
    (ascii "df_array_type", fun d => .setDf fun c => { c with array_type := .ofInt (toLongLong d) })]

/-- A coordinate that is set. -/
def setElement (k : Bytes) (d : Fp 53) : Option (Snapshot → Snapshot) :=
  ((elementKey (ascii "df_ex") k).map fun m =>
      .setDf fun c => { c with elem_x := Function.update c.elem_x m (.ofDouble d) }) <|>
    (elementKey (ascii "df_ey") k).map fun m =>
      .setDf fun c => { c with elem_y := Function.update c.elem_y m (.ofDouble d) }

/-- What is done with the number of a key, where the key has one. -/
def numberField (k : Bytes) (d : Fp 53) : Option (Snapshot → Snapshot) :=
  ((numberKeys.find? fun p => p.1 = k).map fun p => p.2 d) <|> setElement k d

/-- The value of another key is passed over. -/
def skipValue (t : Bytes) : Bytes :=
  if peek quote t then (readString t).2
  else
    match consume openBracket t with
    | (true, t) => Saved.skipDepth 1 t
    | (false, t) =>
      match consume openBrace t with
      | (true, t) => Saved.skipDepth 1 t
      | (false, t) => (readNumber t).2

/-- The branches of the keys of a notch. -/
def notchField (k : Bytes) (n : NotchSnap) (t : Bytes) : NotchSnap × Bytes :=
  let d := readNumber t
  if k = ascii "lo" then ({ n with lo := .ofDouble (numberOr0 d) }, d.2)
  else if k = ascii "hi" then ({ n with hi := .ofDouble (numberOr0 d) }, d.2)
  else (n, d.2)

/-- A number as a `bool`. -/
def isNonzero : Fp 53 → Bool
  | .fin q _ => q ≠ 0
  | _ => true

/-- The branches of the keys of a channel. -/
def chanField (k : Bytes) (c : ChanSnap) (t : Bytes) : ChanSnap × Bytes :=
  let d := readNumber t
  let x := numberOr0 d
  let s := readString t
  if k = ascii "s" then ({ c with s := .ofDouble x }, d.2)
  else if k = ascii "e" then ({ c with e := .ofDouble x }, d.2)
  else if k = ascii "mode" then ({ c with mode := .ofInt (toLongLong x) }, d.2)
  else if k = ascii "audio_mask" then ({ c with audio_mask := .ofInt (toLongLong x) }, d.2)
  else if k = ascii "pan" then ({ c with pan := .ofInt (toLongLong x) }, d.2)
  else if k = ascii "sq" then ({ c with sq := .ofDouble x }, d.2)
  else if k = ascii "sq_manual" then ({ c with sq_manual := isNonzero x }, d.2)
  else if k = ascii "owner" then ({ c with owner := copyName (s.1.getD []) }, s.2)
  else if k = ascii "decode_mods" then
    ({ c with decode_mods := .ofStr 64 ((cStr (s.1.getD [])).take 63) }, s.2)
  else if k = ascii "det_on" then ({ c with det_on := isNonzero x }, d.2)
  else if k = ascii "det_s" then ({ c with det_s := .ofDouble x }, d.2)
  else if k = ascii "det_e" then ({ c with det_e := .ofDouble x }, d.2)
  else (c, skipValue t)

/-- The loop over the members of a notch or a channel. -/
def readItem {ρ : Type} (field : Bytes → ρ → Bytes → ρ × Bytes) : ℕ → ρ → Bytes → ρ × Bytes
  | 0, r, t => (r, t)
  | fuel + 1, r, t =>
    match readKey t with
    | (none, t) => (r, t)
    | (some k, t) =>
      let n := field k r t
      if peek closeBrace n.2 then (n.1, skipWs n.2) else readItem field fuel n.1 n.2

/-- The loop over the notches or the channels: an item is kept if it has some width and there is room
for it. -/
def readItems {ρ : Type} (field : Bytes → ρ → Bytes → ρ × Bytes) (start : ρ) (keep : ρ → Bool)
    (cap : ℕ) : ℕ → List ρ → Bytes → List ρ × Bytes
  | 0, rs, t => (rs, t)
  | fuel + 1, rs, t =>
    if peek closeBracket t then (rs, skipWs t)
    else
      match consume openBrace t with
      | (false, t) => (rs, t)
      | (true, t) =>
        let r := readItem field (t.length + 1) start t
        readItems field start keep cap fuel
          (if rs.length < cap ∧ keep r.1 then rs ++ [r.1] else rs) (consume closeBrace r.2).2

/-- The channels of the file. -/
def readChans (t : Bytes) (cs : List ChanSnap) : List ChanSnap × Bytes :=
  readItems chanField {} (fun c => c.s.lt c.e) MAX_CHANNELS (t.length + 1) cs t

/-- The notches of the file. -/
def readNotches (t : Bytes) (ns : List NotchSnap) : List NotchSnap × Bytes :=
  readItems notchField {} (fun n => n.lo.lt n.hi) MAX_NOTCHES (t.length + 1) ns t

/-- The loop over the members of the file. -/
def readFile : ℕ → Snapshot → Bytes → Snapshot
  | 0, st, _ => st
  | fuel + 1, st, t =>
    match readKey t with
    | (none, _) => st
    | (some k, t) =>
      match numberField k (numberOr0 (readNumber t)) with
      | some f => readFile fuel (f st) (readNumber t).2
      | none =>
        if k = ascii "notches" then
          match consume openBracket t with
          | (false, _) => st
          | (true, t) =>
            let r := readNotches t st.notches
            readFile fuel { st with notches := r.1 } (consume closeBracket r.2).2
        else if k = ascii "channels" then
          match consume openBracket t with
          | (false, _) => st
          | (true, t) =>
            let r := readChans t st.chans
            readFile fuel { st with chans := r.1 } (consume closeBracket r.2).2
        else readFile fuel st (skipValue t)

/-- `load` of the bytes of the file. -/
def load (body : Bytes) : Snapshot :=
  match consume openBrace body with
  | (false, _) => {}
  | (true, t) => { readFile (t.length + 1) {} t with ok := true }

end Bewe.HostState

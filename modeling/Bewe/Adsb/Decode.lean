import Bewe.Lib.Crc
import Bewe.Text
import Mathlib.Data.List.DropRight

/-!
# The Mode S frame decoder

What `AdsbDecoder::decode_at` of `adsb_decode.hpp` does with the bytes of a frame: it reads the
downlink format, checks the CRC, corrects one bit by the table of syndromes, and reads the fields of
the record. The format is read before the correction.

A frame of formats 17 and 18 without errors has the remainder 0. The syndromes of its 112 bits are
different, and each has an odd number of bits, so those of two bits together are in no table: one
error behind the format is corrected, and two are noticed. `exact_iff` says what an error in the
format itself does.
-/

namespace Bewe.Adsb

open Lib

/-! ## Fields -/

/-- The floating-point arithmetic of `cpr_position` and `parse_velocity`: positions, speeds and times,
the map `cpr` that positions are decoded with, the time of a sample, `(samp_base + j)/sr`, and what is
computed from the numbers in a frame. -/
structure FieldMath where
  Cpr : Type
  Time : Type
  Position : Type
  Velocity : Type
  cprEmpty : Cpr
  time : ℕ → Time
  cprPosition : (icao : ℕ) → (tnow : Time) → (f lacpr locpr : ℕ) → Cpr → Option Position × Cpr
  groundSpeed : (st ew_dir ew_raw ns_dir ns_raw : ℕ) → Velocity
  airspeed : (st hdg_st hdg as_raw : ℕ) → Velocity

/-- `AdsbRecord`; an altitude, a position, a velocity or a vertical rate that there is not stands for
`has_alt`, `has_pos`, `has_vel` or `has_vr` not set. -/
structure AdsbRecord (F : FieldMath) where
  crc_ok : Bool
  df : ℕ
  icao : ℕ
  tc : ℤ
  callsign : Bytes
  category : ℕ
  altitude : Option ℤ
  position : Option F.Position
  velocity : Option F.Velocity
  vert_rate : Option ℤ

/-- What the decoder remembers of the frames before. -/
structure Known (F : FieldMath) where
  cpr : F.Cpr
  roster : List ℕ

/-- `getbits`. -/
def getbits (msg : Bytes) (startbit len : ℕ) : ℕ :=
  (List.range len).foldl (fun v i =>
    2 * v + ((msg.getD ((startbit + i) / 8) 0).toNat.testBit (7 - (startbit + i) % 8)).toNat) 0

/-- `adsb_charset`. -/
def adsbCharset (c : ℕ) : UInt8 :=
  (ascii "#ABCDEFGHIJKLMNOPQRSTUVWXYZ##### ###############0123456789######").getD c 35

section

variable {F : FieldMath} (msg : Bytes) (m : AdsbRecord F)

/-- `parse_ident`. -/
def parseIdent : AdsbRecord F :=
  { m with
    category := getbits msg 37 3
    callsign := ((List.range 8).map fun k => adsbCharset (getbits msg (40 + 6 * k) 6)).rdropWhile
      fun c => c = 32 ∨ c = 35 }

/-- The altitude of an AC field with 25 feet a step, from its number. -/
def altitudeOf (nn : ℕ) : ℤ := nn * 25 - 1000

/-- `parse_airpos`. -/
def parseAirpos (tnow : F.Time) (baro : Bool) (cpr : F.Cpr) : AdsbRecord F × F.Cpr :=
  let ac := getbits msg 40 12
  let nn := (ac &&& 0xFE0) >>> 1 ||| (ac &&& 0xF)
  let m := if baro ∧ ac.testBit 4 then { m with altitude := some (altitudeOf nn) } else m
  let r := F.cprPosition m.icao tnow (getbits msg 53 1) (getbits msg 54 17) (getbits msg 71 17) cpr
  ({ m with position := r.1 }, r.2)

/-- `parse_velocity`. -/
def parseVelocity : AdsbRecord F :=
  let st := getbits msg 37 3
  let vr_raw := getbits msg 69 9
  let vert_rate : ℤ := (vr_raw - 1) * 64 * (if getbits msg 68 1 ≠ 0 then -1 else 1)
  let m := if vr_raw ≠ 0 then { m with vert_rate := some vert_rate } else m
  if st = 1 ∨ st = 2 then
    if getbits msg 46 10 ≠ 0 ∧ getbits msg 57 10 ≠ 0 then
      { m with velocity := some (F.groundSpeed st (getbits msg 45 1) (getbits msg 46 10)
          (getbits msg 56 1) (getbits msg 57 10)) }
    else m
  else if st = 3 ∨ st = 4 then
    if getbits msg 45 1 ≠ 0 ∨ getbits msg 57 10 ≠ 0 then
      { m with velocity := some (F.airspeed st (getbits msg 45 1) (getbits msg 46 10)
          (getbits msg 57 10)) }
    else m
  else m

/-- `parse_surv_alt`. -/
def parseSurvAlt : AdsbRecord F :=
  let ac := getbits msg 19 13
  let nn := (ac &&& 0x1F80) >>> 2 ||| (ac &&& 0x20) >>> 1 ||| (ac &&& 0xF)
  if ac = 0 then m
  else if ac.testBit 6 then m
  else if ac.testBit 4 then { m with altitude := some (altitudeOf nn) }
  else m

end

/-! ## Frames -/

/-- `crc`: the 24 bits that the masks leave of `rem`. -/
def crc (msg : Bytes) (nbytes : ℕ) : BitVec 24 := crcBytes 0xFFF409 (msg.take nbytes)

/-- `msg[0]>>3`. -/
def formatOf (msg : Bytes) : ℕ := (msg.getD 0 0).toNat / 8

/-- The length of a frame of a format. -/
def nbitsOf (df : ℕ) : ℕ := if df.testBit 4 then 112 else 56

/-- The check of a frame whose remainder is to be 0: the frame, with one bit corrected if it has to
be. The table is `synd112` or `synd56`. -/
def corrected (msg : Bytes) (nbytes : ℕ) : Option Bytes :=
  if crc msg nbytes = 0 then some msg
  else
    match (syndromeTable 0xFFF409 nbytes).lookup (crc msg nbytes) with
    | none => none
    | some p => if crc (flipBit msg p) nbytes = 0 then some (flipBit msg p) else none

/-- The formats of replies whose remainder is the address of the aircraft. -/
def Surveillance (df : ℕ) : Prop := df = 0 ∨ df = 4 ∨ df = 5 ∨ df = 16 ∨ df = 20 ∨ df = 21

instance : DecidablePred Surveillance := fun _ => inferInstanceAs (Decidable (_ ∨ _))

/-- The frame that is accepted, corrected, and the address. -/
def accepted (roster : List ℕ) (msg : Bytes) : Option (Bytes × ℕ) :=
  let df := formatOf msg
  let nbytes := nbitsOf df / 8
  if df = 17 ∨ df = 18 ∨ df = 19 ∨ df = 11 then
    (corrected msg nbytes).map fun msg => (msg, getbits msg 8 24)
  else if Surveillance df then
    if (crc msg nbytes).toNat ∈ roster then some (msg, (crc msg nbytes).toNat) else none
  else none

/-- The record of an accepted frame. -/
def recordOf {F : FieldMath} (tnow : F.Time) (df icao : ℕ) (msg : Bytes) (cpr : F.Cpr) :
    AdsbRecord F × F.Cpr :=
  let m : AdsbRecord F := ⟨true, df, icao, -1, [], 0, none, none, none, none⟩
  if df = 17 ∨ df = 18 then
    let tc := getbits msg 32 5
    let m := { m with tc := tc }
    if 1 ≤ tc ∧ tc ≤ 4 then (parseIdent msg m, cpr)
    else if 9 ≤ tc ∧ tc ≤ 18 then parseAirpos msg m tnow true cpr
    else if 20 ≤ tc ∧ tc ≤ 22 then parseAirpos msg m tnow false cpr
    else if tc = 19 then (parseVelocity msg m, cpr)
    else (m, cpr)
  else if df = 4 ∨ df = 20 then (parseSurvAlt msg m, cpr)
  else (m, cpr)

/-- What `decode_at` does with the bytes of a frame: the record that it emits, if it emits one, and
what the decoder then knows. -/
def decodeMsg {F : FieldMath} (k : Known F) (tnow : F.Time) (msg : Bytes) :
    Option (AdsbRecord F × Known F) :=
  let df := formatOf msg
  (accepted k.roster msg).map fun a =>
    let r := recordOf tnow df a.2 a.1 k.cpr
    (r.1, { cpr := r.2
            roster := if df = 17 ∨ df = 18 ∨ df = 11 then k.roster.insert a.2 else k.roster })

/-- The record that is emitted for a frame, if one is. -/
def emitted {F : FieldMath} (k : Known F) (tnow : F.Time) (msg : Bytes) : Option (AdsbRecord F) :=
  (decodeMsg k tnow msg).map Prod.fst

/-! ## Errors -/

/-- A frame of format 17 or 18 without errors. -/
structure IsCodeword (msg : Bytes) : Prop where
  length : msg.length = 14
  format : formatOf msg = 17 ∨ formatOf msg = 18
  remainder : crc msg 14 = 0

/-- The errors in a frame of 112 bits: one or two bits. -/
inductive Errors
  | one (p : Fin 112)
  | two (p q : Fin 112)

/-- What error correction is for: a record that is emitted for a frame with one error is that of the
frame without it, and one is emitted if the error is behind the format; no record is emitted for a
frame with two errors behind the format. -/
def Exact {F : FieldMath} (k : Known F) (tnow : F.Time) (msg : Bytes) : Errors → Prop
  | .one p =>
    (∀ m, emitted k tnow (flipBit msg p) = some m → emitted k tnow msg = some m) ∧
      (5 ≤ p.val → ∃ m, emitted k tnow (flipBit msg p) = some m)
  | .two p q =>
    p ≠ q → 5 ≤ p.val → 5 ≤ q.val → emitted k tnow (flipBit (flipBit msg p) q) = none

/-- An error does not make a frame be read as one that is corrected or accepted as another format:
not as format 19, nor as a reply with the address of an aircraft that is known. -/
def KeepsFormat (roster : List ℕ) (msg : Bytes) : Errors → Prop
  | .one p =>
    formatOf (flipBit msg p) ≠ 19 ∧
      (Surveillance (formatOf (flipBit msg p)) → (crc (flipBit msg p) 14).toNat ∉ roster)
  | .two _ _ => True

/-! ## The format -/

theorem formatOf_flipBit {msg : Bytes} (hmsg : msg ≠ []) (p : ℕ) : formatOf (flipBit msg p) =
    if p < 8 then ((msg.getD 0 0) ^^^ (0x80 >>> UInt8.ofNat p)).toNat / 8 else formatOf msg := by
  cases msg with
  | nil => exact absurd rfl hmsg
  | cons b bs =>
    rw [formatOf, flipBit, formatOf]
    split_ifs with hp
    · rw [Nat.div_eq_of_lt hp, Nat.mod_eq_of_lt hp]
      rfl
    · obtain ⟨i, hi⟩ : ∃ i, p / 8 = i + 1 := ⟨p / 8 - 1, by omega⟩
      rw [hi]
      rfl

theorem formatOf_flipBit_of_le {msg : Bytes} (hmsg : msg ≠ []) {p : ℕ} (hp : 5 ≤ p) :
    formatOf (flipBit msg p) = formatOf msg := by
  have hlow : ∀ n < 256, ∀ p < 8, 5 ≤ p →
      (UInt8.ofNat n ^^^ (0x80 >>> UInt8.ofNat p)).toNat / 8 = (UInt8.ofNat n).toNat / 8 := by
    decide +kernel
  rw [formatOf_flipBit hmsg]
  split_ifs with h8
  · have hbyte := hlow (msg.getD 0 0).toNat (UInt8.toNat_lt _) p h8 hp
    rwa [UInt8.ofNat_toNat] at hbyte
  · rfl

theorem formatOf_flipBit_of_lt {msg : Bytes} (hmsg : msg ≠ [])
    (hformat : formatOf msg = 17 ∨ formatOf msg = 18) {p : ℕ} (hp : p < 5) :
    formatOf (flipBit msg p) ∈ [1, 2, 16, 19, 21, 22, 25, 26] := by
  have hhigh : ∀ n < 256, ∀ p < 5, (n / 8 = 17 ∨ n / 8 = 18) →
      (UInt8.ofNat n ^^^ (0x80 >>> UInt8.ofNat p)).toNat / 8 ∈ [1, 2, 16, 19, 21, 22, 25, 26] := by
    decide +kernel
  have hbyte := hhigh (msg.getD 0 0).toNat (UInt8.toNat_lt _) p hp hformat
  rw [UInt8.ofNat_toNat] at hbyte
  rwa [formatOf_flipBit hmsg, if_pos (by omega)]

/-! ## The remainder -/

theorem syndrome_injective {p q : ℕ} (hp : p < 112) (hq : q < 112)
    (h : syndrome (0xFFF409 : BitVec 24) 14 p = syndrome 0xFFF409 14 q) : p = q := by
  have hnodup : ((List.range 112).map (syndrome (0xFFF409 : BitVec 24) 14)).Nodup := by
    decide +kernel
  exact List.inj_on_of_nodup_map hnodup (List.mem_range.2 hp) (List.mem_range.2 hq) h

theorem parity_syndrome : ∀ p < 112, parity (syndrome (0xFFF409 : BitVec 24) 14 p) = true := by
  decide +kernel

theorem crc_flipBit {msg : Bytes} (h : msg.length = 14) (p : ℕ) :
    crc (flipBit msg p) 14 = crc msg 14 ^^^ syndrome 0xFFF409 14 p := by
  have htake : msg.take 14 = msg := List.take_of_length_le h.le
  have htake' : (flipBit msg p).take 14 = flipBit msg p :=
    List.take_of_length_le (by rw [length_flipBit, h])
  rw [crc, crc, htake, htake', crcBytes_flipBit, h]

variable {msg : Bytes}

theorem IsCodeword.ne_nil (h : IsCodeword msg) : msg ≠ [] := by
  rintro rfl
  cases h.length

theorem IsCodeword.crc_flipBit (h : IsCodeword msg) (p : ℕ) :
    crc (flipBit msg p) 14 = syndrome 0xFFF409 14 p := by
  rw [Adsb.crc_flipBit h.length, h.remainder]
  exact BitVec.zero_xor

theorem IsCodeword.corrected_flipBit (h : IsCodeword msg) {p : ℕ} (hp : p < 112) :
    corrected (flipBit msg p) 14 = some msg := by
  have hlookup := lookup_syndrome (0xFFF409 : BitVec 24) 14 hp fun q hq heq =>
    syndrome_injective hq hp heq
  have hne : syndrome (0xFFF409 : BitVec 24) 14 p ≠ 0 := by
    intro h0
    have hodd := parity_syndrome p hp
    rw [h0] at hodd
    revert hodd
    decide
  rw [corrected, h.crc_flipBit, if_neg hne, hlookup]
  dsimp only
  rw [flipBit_flipBit, if_pos h.remainder]

theorem IsCodeword.corrected_flipBit_flipBit (h : IsCodeword msg) {p q : ℕ} (hp : p < 112)
    (hq : q < 112) (hpq : p ≠ q) : corrected (flipBit (flipBit msg p) q) 14 = none := by
  have hcrc : crc (flipBit (flipBit msg p) q) 14 =
      syndrome 0xFFF409 14 p ^^^ syndrome 0xFFF409 14 q := by
    rw [Adsb.crc_flipBit (by rw [length_flipBit, h.length]), h.crc_flipBit]
  have hne : syndrome (0xFFF409 : BitVec 24) 14 p ^^^ syndrome 0xFFF409 14 q ≠ 0 := fun h0 =>
    hpq (syndrome_injective hp hq (BitVec.xor_eq_zero_iff.1 h0))
  -- an even number of bits
  have heven : parity (syndrome (0xFFF409 : BitVec 24) 14 p ^^^ syndrome 0xFFF409 14 q) = false := by
    rw [parity_xor, parity_syndrome p hp, parity_syndrome q hq]
    rfl
  rw [corrected, hcrc, if_neg hne]
  cases hlookup : (syndromeTable (0xFFF409 : BitVec 24) 14).lookup
      (syndrome 0xFFF409 14 p ^^^ syndrome 0xFFF409 14 q) with
  | none => rfl
  | some r =>
    obtain ⟨hr, heq⟩ := syndrome_of_lookup _ hlookup
    have hodd := parity_syndrome r hr
    rw [heq, heven] at hodd
    cases hodd

/-! ## Records -/

section

variable {F : FieldMath} {k : Known F} {tnow : F.Time}

theorem df_recordOf (df icao : ℕ) (msg : Bytes) (cpr : F.Cpr) :
    (recordOf tnow df icao msg cpr).1.df = df := by
  have hairpos : ∀ (m : AdsbRecord F) (baro : Bool), (parseAirpos msg m tnow baro cpr).1.df = m.df := by
    intro m baro
    unfold parseAirpos
    dsimp only
    split_ifs <;> rfl
  have hvelocity : ∀ m : AdsbRecord F, (parseVelocity msg m).df = m.df := by
    intro m
    unfold parseVelocity
    dsimp only
    split_ifs <;> rfl
  have hsurv : ∀ m : AdsbRecord F, (parseSurvAlt msg m).df = m.df := by
    intro m
    unfold parseSurvAlt
    dsimp only
    split_ifs <;> rfl
  unfold recordOf
  dsimp only
  split_ifs
  · rfl
  · rw [hairpos]
  · rw [hairpos]
  · rw [hvelocity]
  · rfl
  · rw [hsurv]
  · rfl

theorem df_of_emitted {msg : Bytes} {m : AdsbRecord F} (h : emitted k tnow msg = some m) :
    m.df = formatOf msg := by
  rw [emitted, decodeMsg, Option.map_map, Option.map_eq_some_iff] at h
  obtain ⟨a, -, rfl⟩ := h
  exact df_recordOf _ _ _ _

theorem emitted_congr (k : Known F) (tnow : F.Time) {msg msg' : Bytes}
    (hformat : formatOf msg = formatOf msg')
    (haccepted : accepted k.roster msg = accepted k.roster msg') :
    emitted k tnow msg = emitted k tnow msg' := by
  rw [emitted, emitted, decodeMsg, decodeMsg, hformat, haccepted]

theorem emitted_eq_none_iff (k : Known F) (tnow : F.Time) :
    emitted k tnow msg = none ↔ accepted k.roster msg = none := by
  rw [emitted, decodeMsg, Option.map_map, Option.map_eq_none_iff]

theorem accepted_of_format (roster : List ℕ) (h : formatOf msg = 17 ∨ formatOf msg = 18) :
    accepted roster msg = (corrected msg 14).map fun msg => (msg, getbits msg 8 24) := by
  have hnbytes : nbitsOf (formatOf msg) / 8 = 14 := by
    rcases h with h | h <;> rw [h] <;> decide
  rw [accepted, if_pos (by omega), hnbytes]

theorem accepted_flipBit (h : IsCodeword msg) (roster : List ℕ) {p : ℕ} (hp : p < 112)
    (hformat : 5 ≤ p) : accepted roster (flipBit msg p) = accepted roster msg := by
  have hsame := formatOf_flipBit_of_le h.ne_nil hformat
  rw [accepted_of_format roster (by rw [hsame]; exact h.format),
    accepted_of_format roster h.format, h.corrected_flipBit hp, corrected, if_pos h.remainder]

/-- A frame with an error in the format is accepted if it is read as format 19, or as a reply with
the address of an aircraft that is known. -/
theorem accepted_flipBit_format (h : IsCodeword msg) (roster : List ℕ) {p : Fin 112}
    (hp : p.val < 5) :
    accepted roster (flipBit msg p) = none ↔ KeepsFormat roster msg (.one p) := by
  have hformat := formatOf_flipBit_of_lt h.ne_nil h.format hp
  have hcorrected := h.corrected_flipBit (p := p) (by omega)
  rw [accepted, KeepsFormat]
  generalize formatOf (flipBit msg p) = df at *
  simp only [List.mem_cons, List.not_mem_nil, or_false] at hformat
  rcases hformat with rfl | rfl | rfl | rfl | rfl | rfl | rfl | rfl
  -- no reply, and no squitter
  case inl | inr.inl | inr.inr.inr.inr.inr.inl | inr.inr.inr.inr.inr.inr.inl |
      inr.inr.inr.inr.inr.inr.inr =>
    simp [Surveillance]
  -- replies
  case inr.inr.inl | inr.inr.inr.inr.inl =>
    simp [Surveillance, nbitsOf, Nat.testBit]
  -- format 19
  · simp [nbitsOf, Nat.testBit, hcorrected]

/-- The correction of errors does what it is for exactly where the error leaves the frame in its
format, or in one in which it is not accepted. -/
theorem exact_iff (h : IsCodeword msg) (e : Errors) :
    Exact k tnow msg e ↔ KeepsFormat k.roster msg e := by
  have hemitted : ∃ m, emitted k tnow msg = some m := by
    refine Option.ne_none_iff_exists'.1 fun hnone => ?_
    rw [emitted_eq_none_iff, accepted_of_format _ h.format, corrected, if_pos h.remainder] at hnone
    cases hnone
  cases e with
  | one p =>
    rcases lt_or_ge p.val 5 with hp | hp
    · rw [← accepted_flipBit_format h _ hp, ← emitted_eq_none_iff k tnow]
      constructor
      · rintro ⟨hsame, -⟩
        by_contra hne
        obtain ⟨m, hm⟩ := Option.ne_none_iff_exists'.1 hne
        -- the record has another format
        have hformat := formatOf_flipBit_of_lt h.ne_nil h.format hp
        rw [← df_of_emitted hm, df_of_emitted (hsame m hm)] at hformat
        rcases h.format with h17 | h18
        · rw [h17] at hformat
          revert hformat
          decide
        · rw [h18] at hformat
          revert hformat
          decide
      · intro hnone
        refine ⟨fun m hm => ?_, fun h5 => absurd hp (not_lt.2 h5)⟩
        rw [hnone] at hm
        cases hm
    · have hsame := emitted_congr k tnow (formatOf_flipBit_of_le h.ne_nil hp)
        (accepted_flipBit h k.roster p.isLt hp)
      have hformat := formatOf_flipBit_of_le h.ne_nil hp
      refine iff_of_true ⟨fun m hm => by rwa [← hsame], fun _ => by rwa [hsame]⟩ ?_
      rw [KeepsFormat, hformat]
      rcases h.format with h17 | h18
      · rw [h17]
        exact ⟨by decide, fun hs => absurd hs (by decide)⟩
      · rw [h18]
        exact ⟨by decide, fun hs => absurd hs (by decide)⟩
  | two p q =>
    refine iff_of_true (fun hpq hp hq => ?_) trivial
    have hformat : formatOf (flipBit (flipBit msg p) q) = formatOf msg := by
      rw [formatOf_flipBit_of_le _ hq, formatOf_flipBit_of_le h.ne_nil hp]
      rw [ne_eq, ← List.length_eq_zero_iff, length_flipBit, h.length]
      decide
    rw [emitted_eq_none_iff, accepted_of_format _ (by rw [hformat]; exact h.format),
      h.corrected_flipBit_flipBit p.isLt q.isLt fun heq => hpq (Fin.ext heq)]
    rfl

end

/-- Records without positions and speeds. -/
def noFields : FieldMath where
  Cpr := Unit
  Time := Unit
  Position := Unit
  Velocity := Unit
  cprEmpty := ()
  time _ := ()
  cprPosition _ _ _ _ _ _ := (none, ())
  groundSpeed _ _ _ _ _ := ()
  airspeed _ _ _ _ := ()

/-- A frame of format 17 with the callsign of an aircraft. -/
def squitter : Bytes :=
  [0x8D, 0x48, 0x40, 0xD6, 0x20, 0x2C, 0xC3, 0x71, 0xC3, 0x2C, 0xE0, 0x57, 0x60, 0x98]

theorem squitter_isCodeword : IsCodeword squitter :=
  ⟨by decide, by decide, by decide +kernel⟩

theorem exact_iff_squitter : Exact (F := noFields) ⟨(), []⟩ () squitter (.one 40) :=
  (exact_iff squitter_isCodeword _).2 ⟨by decide, by decide⟩

/-- A frame of format 17 that is read as one of format 19 is corrected, and its record has the format
19 and no callsign. -/
theorem squitter_misread : ¬ ∀ (F : FieldMath) (k : Known F) (tnow : F.Time) (msg : Bytes)
    (e : Errors), IsCodeword msg → Exact k tnow msg e := by
  intro h
  have hexact := h noFields ⟨(), []⟩ () squitter (.one 3) squitter_isCodeword
  have hmisread : (emitted (F := noFields) ⟨(), []⟩ () (flipBit squitter 3)).map
      (fun m => m.df) = some 19 := by
    decide +kernel
  have hread : (emitted (F := noFields) ⟨(), []⟩ () squitter).map (fun m => m.df) = some 17 := by
    decide +kernel
  obtain ⟨m, hm, hdf⟩ := Option.map_eq_some_iff.1 hmisread
  rw [hexact.1 m hm, Option.map_some, hdf] at hread
  revert hread
  decide

end Bewe.Adsb

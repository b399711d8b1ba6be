import Bewe.Lib.Layout
import Bewe.Lib.Shifter

/-!
# The framing of ACARS

`AcarsDecoder` of `acars_decode.hpp` from the bits on: `feed` shifts every bit that it decides into
a byte, `take_byte` looks at that byte after `need` bits and goes from the search for the first `SYN`
to the two bytes of the check sequence, and `emit` makes a message of the bytes between `SOH` and
them.

A `SYN` with all bits inverted turns the axis of the decision around, so that the bits behind it are
right whatever the polarity is. The search looks at every bit, and ends at the bits before a block
whatever came before them, as long as there is no `SYN` in it (`Searching.feedBits`). Then the bytes
of the block are taken one by one, to the first `ETX` or `ETB` (`receives_block`).
-/

namespace Bewe.Acars

open Lib

/-! ## Bytes -/

/-- A byte on the air. -/
abbrev Octet := BitVec 8

/-- `C_SYN` -/
def C_SYN : Octet := 0x16

/-- `C_SOH` -/
def C_SOH : Octet := 0x01

/-- `C_ETX` -/
def C_ETX : Octet := 0x83

/-- `C_ETB` -/
def C_ETB : Octet := 0x97

/-- `bcs_crc` -/
def bcsCrc (p : List Octet) : BitVec 16 :=
  p.foldl (fun c x =>
    (List.range 8).foldl (fun c _ => if c.getLsbD 0 then (c >>> 1) ^^^ 0x8408 else c >>> 1)
      (c ^^^ x.setWidth 16)) 0

/-- `pc`: a full stop stands for what is not printable. -/
def pc (c : Octet) : Octet :=
  let c := c &&& 0x7F
  if 0x20 ≤ c ∧ c < 0x7F then c else 0x2E

/-! ## Messages -/

/-- `AcarsMsg`, as far as the decoder sets it. -/
structure AcarsMsg where
  ch : ℤ
  crc_ok : Bool
  downlink : Bool
  mode : Octet
  block : Octet
  ack : Octet
  reg : List Octet
  flight : List Octet
  label : List Octet
  text : List Octet
  deriving DecidableEq

/-- A capital letter. -/
def isLetter (c : Octet) : Bool := decide (0x41 ≤ c ∧ c ≤ 0x5A)

/-- A digit. -/
def isDigit (c : Octet) : Bool := decide (0x30 ≤ c ∧ c ≤ 0x39)

/-- The flight in the text of a downlink: six letters and digits, not only digits, behind four
bytes. -/
def flightOf (downlink : Bool) (text : List Octet) : List Octet :=
  let cs := slice 4 6 text
  let alnum := cs.all fun c => isLetter c || isDigit c
  let letter := cs.any isLetter
  if downlink ∧ 10 ≤ text.length ∧ alnum ∧ letter then cs else []

/-! ## The decoder -/

/-- What `take_byte` waits for. -/
inductive Fr
  | WAIT_SYN
  | GOT_SYN1
  | WAIT_SOH
  | BODY
  | BCS_HI
  | BCS_LO
  deriving DecidableEq

open Fr

/-- `AcarsDecoder`. `sym_n^=2` inverts the bits from then on: `inverted` says if that was done an
odd number of times. `flen` is the length of `frame`; `records` are the messages that were
emitted. -/
structure AcarsDecoder where
  ch : ℤ
  inverted : Bool
  shifter : Octet
  need : ℕ
  fr : Fr
  frame : List Octet
  bcs : Octet × Octet
  d_bits : ℕ
  d_msgs : ℕ
  records : List AcarsMsg
  deriving DecidableEq

namespace AcarsDecoder

/-- `reset` -/
def reset (ch_idx : ℤ) : AcarsDecoder where
  ch := ch_idx
  inverted := false
  shifter := 0
  need := 1
  fr := WAIT_SYN
  frame := []
  bcs := (0, 0)
  d_bits := 0
  d_msgs := 0
  records := []

/-- The body of the loop over the registration. -/
def regStep (reg : List Octet) (x : Octet) : List Octet :=
  let v := x &&& 0x7F
  if (v = 0x2E ∨ v = 0x20) ∧ reg = [] then reg
  else if reg.length < 9 then reg ++ [pc v] else reg

/-- The text of a frame, if there is any. -/
def textOf (frame : List Octet) : List Octet :=
  if 13 < frame.length ∧ frame.getD 12 0 &&& 0x7F = 0x02 then
    ((slice 13 (frame.length - 1 - 13) frame).take 255).map pc
  else []

/-- The message that `emit` makes of a frame. -/
def message (ch : ℤ) (frame : List Octet) (bcs : Octet × Octet) : AcarsMsg :=
  let c := bcsCrc frame
  let block := pc (frame.getD 11 0)
  let downlink := isDigit block
  let text := textOf frame
  { ch := ch
    crc_ok := decide (c.setWidth 8 = bcs.1 ∧ (c >>> 8).setWidth 8 = bcs.2)
    downlink := downlink
    mode := pc (frame.getD 0 0)
    block := block
    ack := pc (frame.getD 8 0)
    reg := (slice 1 7 frame).foldl regStep []
    flight := flightOf downlink text
    label := [pc (frame.getD 9 0), pc (frame.getD 10 0)]
    text := text }

/-- `emit` -/
def emit (d : AcarsDecoder) : AcarsDecoder :=
  if d.frame.length < 13 then d
  else
    { d with
      d_msgs := d.d_msgs + 1
      records := d.records ++ [message d.ch d.frame d.bcs] }

/-- `take_byte` -/
def takeByte (d : AcarsDecoder) (r : Octet) : AcarsDecoder :=
  match d.fr with
  | WAIT_SYN =>
    if r = C_SYN then { d with fr := GOT_SYN1, need := 8 }
    else if r = ~~~C_SYN then { d with inverted := !d.inverted, fr := GOT_SYN1, need := 8 }
    else { d with need := 1 }
  | GOT_SYN1 =>
    if r = C_SYN then { d with fr := WAIT_SOH, need := 8 }
    else if r = ~~~C_SYN then { d with inverted := !d.inverted, need := 8 }
    else { d with fr := WAIT_SYN, need := 1 }
  | WAIT_SOH =>
    if r = C_SOH then { d with fr := BODY, frame := [], need := 8 }
    else { d with fr := WAIT_SYN, need := 1 }
  | BODY =>
    let frame := if d.frame.length < 300 then d.frame ++ [r] else d.frame
    if r = C_ETX ∨ r = C_ETB then { d with frame := frame, fr := BCS_HI, need := 8 }
    else if 250 ≤ frame.length then { d with frame := frame, fr := WAIT_SYN, need := 1 }
    else { d with frame := frame, need := 8 }
  | BCS_HI => { d with bcs := (r, d.bcs.2), fr := BCS_LO, need := 8 }
  | BCS_LO => { emit { d with bcs := (d.bcs.1, r) } with fr := WAIT_SYN, need := 1 }

/-- The end of `feed`, with the sign of the projection on the axis that `sym_n` would have without
the changes of `take_byte`. -/
def feedBit (d : AcarsDecoder) (positive : Bool) : AcarsDecoder :=
  let d := { d with
    shifter := shiftIn d.shifter (positive ^^ d.inverted)
    d_bits := d.d_bits + 1
    need := d.need - 1 }
  if d.need ≤ 0 then takeByte d d.shifter else d

/-- Bits one after the other. -/
def feedBits (d : AcarsDecoder) (bs : List Bool) : AcarsDecoder := bs.foldl feedBit d

end AcarsDecoder

/-! ## Blocks -/

/-- A character with the bit that makes the number of ones odd. -/
def withParity (c : BitVec 7) : Octet :=
  BitVec.cons ((lsbBits c).foldl (fun p b => p ^^ b) true) c

/-- The ones of the pre-key and the two characters `+*` for the bit synchronisation. -/
def preamble (prekey : ℕ) : List Bool :=
  List.replicate prekey true ++ (lsbBits (withParity 0x2B) ++ lsbBits (withParity 0x2A))

/-- A block of text: 7 bit characters, and whether it ends with `ETB` (else with `ETX`). `frame` has
place for 236 characters of text. -/
structure Block where
  mode : BitVec 7
  registration : List (BitVec 7)
  ack : BitVec 7
  label : BitVec 7 × BitVec 7
  block : BitVec 7
  text : List (BitVec 7)
  etb : Bool
  registration_length : registration.length = 7
  text_length : text.length ≤ 236

namespace Block

/-- The characters behind `SOH`; `STX` is there if there is text. -/
def chars (b : Block) : List (BitVec 7) :=
  b.mode :: (b.registration ++ [b.ack, b.label.1, b.label.2, b.block] ++
    if b.text.isEmpty then [] else 0x02 :: b.text)

/-- The bytes that are checked. -/
def frame (b : Block) : List Octet :=
  b.chars.map withParity ++ [if b.etb then C_ETB else C_ETX]

/-- The bytes from the first `SYN` on: `SYN SYN SOH`, the frame, and its check sequence. -/
def octets (b : Block) : List Octet :=
  [C_SYN, C_SYN, C_SOH] ++ b.frame ++
    [(bcsCrc b.frame).setWidth 8, (bcsCrc b.frame >>> 8).setWidth 8]

/-- The bits of a block and those before it. -/
def bits (b : Block) (prekey : ℕ) : List Bool := preamble prekey ++ b.octets.flatMap lsbBits

end Block

/-! ## Bits of a byte -/

namespace AcarsDecoder

theorem feedBits_append (d : AcarsDecoder) (a b : List Bool) :
    d.feedBits (a ++ b) = (d.feedBits a).feedBits b := List.foldl_append

theorem feedBits_of_lt {d : AcarsDecoder} {bs : List Bool} (h : bs.length < d.need) :
    d.feedBits bs = { d with
      shifter := shiftAll d.shifter (bs.map (· ^^ d.inverted))
      d_bits := d.d_bits + bs.length
      need := d.need - bs.length } := by
  induction bs generalizing d with
  | nil => rfl
  | cons b bs ih =>
    rw [List.length_cons] at h
    have hfeed : d.feedBit b = { d with
        shifter := shiftIn d.shifter (b ^^ d.inverted)
        d_bits := d.d_bits + 1
        need := d.need - 1 } := by
      rw [feedBit]
      exact if_neg (by dsimp only; omega)
    have hrest : bs.length < (d.feedBit b).need := by
      rw [hfeed]
      dsimp only
      omega
    have hsplit : d.feedBits (b :: bs) = (d.feedBit b).feedBits bs := rfl
    rw [hsplit, ih hrest, hfeed, List.length_cons, List.map_cons]
    dsimp only
    rw [Nat.add_assoc, Nat.add_comm 1, Nat.sub_sub, Nat.add_comm 1]
    rfl

theorem feedBits_of_eq {d : AcarsDecoder} {bs : List Bool} (h : bs.length = d.need)
    (hpos : 0 < bs.length) :
    let shifter := shiftAll d.shifter (bs.map (· ^^ d.inverted))
    d.feedBits bs =
      takeByte { d with
        shifter := shifter
        d_bits := d.d_bits + bs.length
        need := 0 } shifter := by
  rcases List.eq_nil_or_concat bs with rfl | ⟨init, b, rfl⟩
  · exact absurd hpos (lt_irrefl 0)
  rw [List.concat_eq_append] at h hpos ⊢
  rw [List.length_append, List.length_singleton] at h
  dsimp only
  have hinit : init.length < d.need := by omega
  rw [feedBits_append, feedBits_of_lt hinit, List.map_append, List.length_append]
  have hneed : d.need - init.length - 1 = 0 := by omega
  have hshift : shiftAll d.shifter (init.map (· ^^ d.inverted) ++ [b].map (· ^^ d.inverted)) =
      shiftIn (shiftAll d.shifter (init.map (· ^^ d.inverted))) (b ^^ d.inverted) := by
    rw [shiftAll, List.foldl_append]
    rfl
  have hsingle : ∀ e : AcarsDecoder, e.feedBits [b] = e.feedBit b := fun _ => rfl
  rw [hsingle, feedBit, hshift]
  dsimp only
  rw [hneed, if_pos le_rfl]
  rfl

theorem feedBits_lsbBits {d : AcarsDecoder} (h : d.need = 8) (v : Octet) :
    d.feedBits ((lsbBits v).map (· ^^ d.inverted)) =
      takeByte { d with shifter := v, d_bits := d.d_bits + 8, need := 0 } v := by
  have hlen : ((lsbBits v).map (· ^^ d.inverted)).length = 8 := by
    rw [List.length_map, length_lsbBits]
  have htwice : ((lsbBits v).map (· ^^ d.inverted)).map (· ^^ d.inverted) = lsbBits v := by
    rw [List.map_map]
    simp [Function.comp_def]
  rw [feedBits_of_eq (hlen.trans h.symm) (by omega), htwice, shiftAll_lsbBits (by decide), hlen]

end AcarsDecoder

/-! ## The search -/

/-- The bits of a `SYN` in either polarity. -/
def Sync (w : List Bool) : Prop := w = lsbBits C_SYN ∨ w = lsbBits (~~~C_SYN)

instance (w : List Bool) : Decidable (Sync w) := inferInstanceAs (Decidable (_ ∨ _))

theorem map_not_syn : (lsbBits C_SYN).map (!·) = lsbBits (~~~C_SYN) := by decide

theorem map_not_not_syn : (lsbBits (~~~C_SYN)).map (!·) = lsbBits C_SYN := by decide

theorem map_xor_false (w : List Bool) : w.map (· ^^ false) = w := by simp

theorem map_xor_true (w : List Bool) : w.map (· ^^ true) = w.map (!·) := by simp

theorem map_xor_xor (w : List Bool) (f : Bool) : (w.map (· ^^ f)).map (· ^^ f) = w := by
  rw [List.map_map]
  simp [Function.comp_def]

theorem sync_map_xor (w : List Bool) (f : Bool) : Sync (w.map (· ^^ f)) ↔ Sync w := by
  have hmap : ∀ w : List Bool, Sync w → Sync (w.map (· ^^ true)) := by
    rintro w (rfl | rfl)
    · exact Or.inr ((map_xor_true _).trans map_not_syn)
    · exact Or.inl ((map_xor_true _).trans map_not_not_syn)
  cases f with
  | false => rw [map_xor_false]
  | true =>
    refine ⟨fun h => ?_, hmap w⟩
    rw [← map_xor_xor w true]
    exact hmap _ h

/-- The last 8 bits of those that the shifter had and those of a stream up to a position. -/
def window (had stream : List Bool) (e : ℕ) : List Bool := (had ++ stream.take e).drop e

theorem window_length {had stream : List Bool} {e : ℕ} (hhad : had.length = 8)
    (he : e ≤ stream.length) : (window had stream e).length = 8 := by
  simp [window, hhad]
  omega

theorem window_add {had stream : List Bool} (hhad : had.length = 8) {m : ℕ}
    (hm : m ≤ stream.length) (k : ℕ) :
    window had stream (m + k) = (window had stream m ++ slice m k stream).drop k := by
  have hlen : m ≤ (had ++ stream.take m).length := by
    rw [List.length_append, List.length_take]
    omega
  rw [window, window, List.take_add, ← List.append_assoc, ← List.drop_drop,
    List.drop_append_of_le_length hlen]
  rfl

theorem window_add_eight {had stream : List Bool} (hhad : had.length = 8) {m : ℕ}
    (hm : m ≤ stream.length) : window had stream (m + 8) = slice m 8 stream := by
  rw [window_add hhad hm, List.drop_left' (window_length hhad hm)]

/-- A stream of bits in which, up to the third bit behind a position `L`, there are a few syncs at
most, none of them wholly before `L` but behind the first bit. There is no `SOH` behind `L`. -/
structure SyncFree (had stream : List Bool) (L : ℕ) : Prop where
  sync_le : ∀ e, 1 ≤ e → e ≤ stream.length → Sync (window had stream e) → e ≤ L + 3
  lt_sync : ∀ m, 1 ≤ m → m + 8 ≤ stream.length → Sync (slice m 8 stream) → L < m + 8
  no_soh : ∀ m, L < m → m + 8 ≤ stream.length → ∀ f,
    slice m 8 stream ≠ (lsbBits C_SOH).map (· ^^ f)
  length_ge : L + 12 ≤ stream.length

namespace AcarsDecoder

/-- The decoder behind `m` bits of a stream: it looks at every bit, or has found a sync, and then
maybe another one behind `L`. -/
def Searching (had stream : List Bool) (L m : ℕ) (d : AcarsDecoder) : Prop :=
  match d.fr with
  | WAIT_SYN => d.need = 1 ∧ lsbBits d.shifter = (window had stream m).map (· ^^ d.inverted)
  | GOT_SYN1 => d.need = 8 ∧ 1 ≤ m ∧ m ≤ L + 3
  | WAIT_SOH => d.need = 8 ∧ L < m ∧ m ≤ L + 3
  | _ => False

theorem searching_takeByte {had stream : List Bool} {L m : ℕ} {d : AcarsDecoder} {r : Octet}
    (hr : lsbBits r = (window had stream m).map (· ^^ d.inverted)) (hshifter : d.shifter = r)
    (hm : 1 ≤ m) (hle : Sync (window had stream m) → m ≤ L + 3)
    (hfr : d.fr = WAIT_SYN ∨ (d.fr = GOT_SYN1 ∧ (Sync (window had stream m) → L < m)) ∨
      (d.fr = WAIT_SOH ∧ ∀ f, window had stream m ≠ (lsbBits C_SOH).map (· ^^ f))) :
    (takeByte d r).Searching had stream L m ∧ (takeByte d r).ch = d.ch ∧
      (takeByte d r).records = d.records := by
  have hsync : r = C_SYN ∨ r = ~~~C_SYN → Sync (window had stream m) := by
    intro h
    rw [← sync_map_xor _ d.inverted, ← hr]
    rcases h with rfl | rfl
    · exact Or.inl rfl
    · exact Or.inr rfl
  unfold takeByte
  rcases hfr with hfr | ⟨hfr, hlt⟩ | ⟨hfr, hsoh⟩
  · -- the search for the first `SYN`
    rw [hfr]
    dsimp only
    split_ifs with hsyn hnot
    · exact ⟨⟨rfl, hm, hle (hsync (Or.inl hsyn))⟩, rfl, rfl⟩
    · exact ⟨⟨rfl, hm, hle (hsync (Or.inr hnot))⟩, rfl, rfl⟩
    · refine ⟨?_, rfl, rfl⟩
      rw [Searching]
      dsimp only
      rw [hshifter]
      exact ⟨rfl, hr⟩
  · -- the second one
    rw [hfr]
    dsimp only
    split_ifs with hsyn hnot
    · have h := hsync (Or.inl hsyn)
      exact ⟨⟨rfl, hlt h, hle h⟩, rfl, rfl⟩
    · refine ⟨?_, rfl, rfl⟩
      rw [Searching]
      exact ⟨rfl, hm, hle (hsync (Or.inr hnot))⟩
    · refine ⟨⟨rfl, ?_⟩, rfl, rfl⟩
      rw [hshifter]
      exact hr
  · -- `SOH`
    rw [hfr]
    dsimp only
    have hne : r ≠ C_SOH := by
      rintro rfl
      refine hsoh d.inverted ?_
      rw [hr, map_xor_xor]
    rw [if_neg hne]
    refine ⟨⟨rfl, ?_⟩, rfl, rfl⟩
    rw [hshifter]
    exact hr

/-- At the end of the stream the decoder looks at every bit. -/
theorem Searching.feedBits {had stream : List Bool} {L : ℕ} (hhad : had.length = 8)
    (hfree : SyncFree had stream L) {m : ℕ} {d : AcarsDecoder} (hm : m ≤ stream.length)
    (h : d.Searching had stream L m) :
    let d' := d.feedBits (stream.drop m)
    d'.fr = WAIT_SYN ∧ d'.need = 1 ∧
      lsbBits d'.shifter = (window had stream stream.length).map (· ^^ d'.inverted) ∧
      d'.ch = d.ch ∧ d'.records = d.records := by
  induction hd : stream.length - m using Nat.strong_induction_on generalizing m d with
  | _ n ih =>
    dsimp only
    have hlook : ∀ k, m + k ≤ stream.length → 0 < k → d.need = k →
        let r := shiftAll d.shifter ((slice m k stream).map (· ^^ d.inverted))
        d.feedBits (stream.drop m) =
          (takeByte { d with shifter := r, d_bits := d.d_bits + k, need := 0 } r).feedBits
            (stream.drop (m + k)) := by
      intro k hk hpos hneed
      have hlen : (slice m k stream).length = k := slice_length hk
      have hsplit : stream.drop m = slice m k stream ++ stream.drop (m + k) := by
        rw [slice, ← List.drop_drop, List.take_append_drop]
      rw [hsplit, feedBits_append, feedBits_of_eq (hlen.trans hneed.symm) (by omega), hlen]
    have hall := hfree.length_ge
    have hnew : m + 8 ≤ stream.length →
        lsbBits (shiftAll d.shifter ((slice m 8 stream).map (· ^^ d.inverted))) =
          (window had stream (m + 8)).map (· ^^ d.inverted) := by
      intro hm8
      rw [lsbBits_shiftAll (by decide), List.length_map, slice_length hm8,
        List.drop_left' (length_lsbBits _), window_add_eight hhad hm]
    unfold Searching at h
    cases hfr : d.fr with
    | WAIT_SYN =>
      rw [hfr] at h
      obtain ⟨hneed, hbits⟩ := h
      rcases Nat.eq_or_lt_of_le hm with rfl | hlt
      · rw [List.drop_length]
        exact ⟨hfr, hneed, hbits, rfl, rfl⟩
      -- one bit and a look
      have hr : lsbBits (shiftAll d.shifter ((slice m 1 stream).map (· ^^ d.inverted))) =
          (window had stream (m + 1)).map (· ^^ d.inverted) := by
        rw [lsbBits_shiftAll (by decide), hbits, ← List.map_append, List.length_map,
          slice_length (by omega), ← List.map_drop, window_add hhad hm]
      obtain ⟨hnext, hch, hrecords⟩ := searching_takeByte (L := L)
        (d := { d with
          shifter := shiftAll d.shifter ((slice m 1 stream).map (· ^^ d.inverted))
          d_bits := d.d_bits + 1
          need := 0 }) hr rfl (by omega) (hfree.sync_le (m + 1) (by omega) hlt) (Or.inl hfr)
      rw [hlook 1 hlt one_pos hneed]
      obtain ⟨hfr', hneed', hbits', hch', hrecords'⟩ := ih _ (by omega) hlt hnext rfl
      exact ⟨hfr', hneed', hbits', hch'.trans hch, hrecords'.trans hrecords⟩
    | GOT_SYN1 =>
      rw [hfr] at h
      obtain ⟨hneed, hfirst, hle⟩ := h
      have hm8 : m + 8 ≤ stream.length := by omega
      -- the next byte is no sync of the bits before `L`
      have hlater : Sync (window had stream (m + 8)) → L < m + 8 := by
        rw [window_add_eight hhad hm]
        exact hfree.lt_sync m hfirst hm8
      obtain ⟨hnext, hch, hrecords⟩ := searching_takeByte (L := L)
        (d := { d with
          shifter := shiftAll d.shifter ((slice m 8 stream).map (· ^^ d.inverted))
          d_bits := d.d_bits + 8
          need := 0 }) (hnew hm8) rfl (by omega) (hfree.sync_le (m + 8) (by omega) hm8)
        (Or.inr (Or.inl ⟨hfr, hlater⟩))
      rw [hlook 8 hm8 (by omega) hneed]
      obtain ⟨hfr', hneed', hbits', hch', hrecords'⟩ := ih _ (by omega) hm8 hnext rfl
      exact ⟨hfr', hneed', hbits', hch'.trans hch, hrecords'.trans hrecords⟩
    | WAIT_SOH =>
      rw [hfr] at h
      obtain ⟨hneed, hfirst, hle⟩ := h
      have hm8 : m + 8 ≤ stream.length := by omega
      have hsoh : ∀ f, window had stream (m + 8) ≠ (lsbBits C_SOH).map (· ^^ f) := by
        rw [window_add_eight hhad hm]
        exact hfree.no_soh m hfirst hm8
      obtain ⟨hnext, hch, hrecords⟩ := searching_takeByte (L := L)
        (d := { d with
          shifter := shiftAll d.shifter ((slice m 8 stream).map (· ^^ d.inverted))
          d_bits := d.d_bits + 8
          need := 0 }) (hnew hm8) rfl (by omega) (hfree.sync_le (m + 8) (by omega) hm8)
        (Or.inr (Or.inr ⟨hfr, hsoh⟩))
      rw [hlook 8 hm8 (by omega) hneed]
      obtain ⟨hfr', hneed', hbits', hch', hrecords'⟩ := ih _ (by omega) hm8 hnext rfl
      exact ⟨hfr', hneed', hbits', hch'.trans hch, hrecords'.trans hrecords⟩
    | BODY => rw [hfr] at h; exact h.elim
    | BCS_HI => rw [hfr] at h; exact h.elim
    | BCS_LO => rw [hfr] at h; exact h.elim

end AcarsDecoder

/-! ## Bits before a block -/

/-- There is no sync in a stream of bits. -/
def NoSync (lead : List Bool) : Prop := ∀ m, m + 8 ≤ lead.length → ¬Sync (slice m 8 lead)

theorem length_preamble (prekey : ℕ) : (preamble prekey).length = prekey + 16 := by
  simp [preamble]

theorem slice_preamble (prekey k : ℕ) :
    slice k 8 (preamble prekey) = slice (k + 8 - prekey) 8 (preamble 8) := by
  have hdrop : ∀ n k (c : List Bool), (List.replicate n true ++ c).drop k =
      List.replicate (n - k) true ++ c.drop (k - n) := by
    intro n k c
    rw [List.drop_append, List.drop_replicate, List.length_replicate]
  rw [slice, slice, preamble, preamble, hdrop, hdrop]
  by_cases h : k + 8 ≤ prekey
  · have hnone : k + 8 - prekey = 0 := by omega
    rw [hnone, List.take_append_of_le_length, List.take_append_of_le_length, List.take_replicate,
      List.take_replicate]
    · congr 1
      omega
    · simp
    · simp
      omega
  · have hones : 8 - (k + 8 - prekey) = prekey - k := by omega
    have hrest : k + 8 - prekey - 8 = k - prekey := by omega
    rw [hones, hrest]

theorem take_preamble (prekey : ℕ) {j : ℕ} (hj : j < 8) :
    (preamble prekey).take j = (preamble (min prekey 7)).take j := by
  rcases Nat.le_total prekey 7 with h | h
  · rw [Nat.min_eq_left h]
  · rw [Nat.min_eq_right h, preamble, preamble, List.take_append_of_le_length,
      List.take_append_of_le_length, List.take_replicate, List.take_replicate]
    · congr 1
      omega
    · simp
      omega
    · simp
      omega

/-- There is neither a sync nor a `SOH` in the bits before a block. -/
theorem slice_preamble_ne (prekey k : ℕ) (hk : k ≤ prekey + 8) (f : Bool) :
    ¬Sync (slice k 8 (preamble prekey)) ∧
      slice k 8 (preamble prekey) ≠ (lsbBits C_SOH).map (· ^^ f) := by
  have hall : ∀ i < 17, ∀ f : Bool, ¬Sync (slice i 8 (preamble 8)) ∧
      slice i 8 (preamble 8) ≠ (lsbBits C_SOH).map (· ^^ f) := by decide
  rw [slice_preamble]
  exact hall _ (by omega) f

theorem take_preamble_ne (prekey : ℕ) {j : ℕ} (hj : j < 8) (hfour : 4 ≤ j) (f : Bool) :
    (preamble prekey).take j ≠ ((lsbBits C_SYN).drop (8 - j)).map (· ^^ f) := by
  have hall : ∀ n < 8, ∀ j < 8, 4 ≤ j → ∀ f : Bool,
      (preamble n).take j ≠ ((lsbBits C_SYN).drop (8 - j)).map (· ^^ f) := by decide
  rw [take_preamble prekey hj]
  exact hall _ (by omega) j hj hfour f

theorem syncFree_append {had lead : List Bool} (hhad : had.length = 8) (hlead : NoSync lead)
    (prekey : ℕ) (pol : Bool) :
    SyncFree had (lead ++ (preamble prekey).map (· ^^ pol)) lead.length := by
  have hlen : (lead ++ (preamble prekey).map (· ^^ pol)).length = lead.length + (prekey + 16) := by
    rw [List.length_append, List.length_map, length_preamble]
  -- a byte behind `lead`
  have hbehind : ∀ m, lead.length ≤ m → slice m 8 (lead ++ (preamble prekey).map (· ^^ pol)) =
      (slice (m - lead.length) 8 (preamble prekey)).map (· ^^ pol) := by
    intro m hm
    rw [slice, List.drop_append, List.drop_eq_nil_of_le hm, List.nil_append, ← slice, map_slice]
  constructor
  · intro e hpos he hsync
    by_contra hlate
    rw [hlen] at he
    rcases Nat.lt_or_ge e (lead.length + 8) with hlt | hge
    · -- a window whose end is that of the first ones
      obtain ⟨j, rfl⟩ := Nat.exists_eq_add_of_le (by omega : lead.length ≤ e)
      have hend : (window had (lead ++ (preamble prekey).map (· ^^ pol)) (lead.length + j)).drop
          (8 - j) = ((preamble prekey).take j).map (· ^^ pol) := by
        have hj : j + (8 - j) = 8 := by omega
        rw [window_add hhad (by omega), List.drop_drop, hj,
          List.drop_left' (window_length hhad (by omega)), slice, List.drop_left, List.map_take]
      have hne := take_preamble_ne prekey (j := j) (by omega) (by omega)
      rcases hsync with hsyn | hnot
      · refine hne pol ?_
        rw [← hsyn, hend, map_xor_xor]
      · refine hne (!pol) ?_
        rw [hnot, ← map_not_syn] at hend
        rw [← map_xor_xor ((preamble prekey).take j) pol, ← hend, ← List.map_drop, List.map_map]
        congr 1
        funext x
        cases pol <;> cases x <;> rfl
    · obtain ⟨m, rfl⟩ := Nat.exists_eq_add_of_le' (by omega : 8 ≤ e)
      rw [window_add_eight hhad (by omega), hbehind m (by omega), sync_map_xor] at hsync
      exact (slice_preamble_ne prekey _ (by omega) pol).1 hsync
  · intro m _ hm hsync
    by_contra hbefore
    have hslice : slice m 8 (lead ++ (preamble prekey).map (· ^^ pol)) = slice m 8 lead := by
      rw [slice, slice, List.drop_append_of_le_length (by omega),
        List.take_append_of_le_length (by rw [List.length_drop]; omega)]
    rw [hslice] at hsync
    exact hlead m (by omega) hsync
  · intro m hm hm8 f h
    rw [hlen] at hm8
    rw [hbehind m (by omega)] at h
    have hsoh : slice (m - lead.length) 8 (preamble prekey) =
        (lsbBits C_SOH).map (· ^^ (f ^^ pol)) := by
      rw [← map_xor_xor (slice (m - lead.length) 8 (preamble prekey)) pol, h, List.map_map]
      simp [Function.comp_def]
    exact (slice_preamble_ne prekey _ (by omega) _).2 hsoh
  · rw [hlen]
    omega

/-! ## A block -/

namespace AcarsDecoder

theorem feedBits_search {d : AcarsDecoder} (hfr : d.fr = WAIT_SYN) (hneed : d.need = 1)
    {bs : List Bool} (h : ∀ k < bs.length,
      shiftAll d.shifter ((bs.take (k + 1)).map (· ^^ d.inverted)) ≠ C_SYN ∧
        shiftAll d.shifter ((bs.take (k + 1)).map (· ^^ d.inverted)) ≠ ~~~C_SYN) :
    d.feedBits bs = { d with
      shifter := shiftAll d.shifter (bs.map (· ^^ d.inverted))
      d_bits := d.d_bits + bs.length } := by
  induction bs generalizing d with
  | nil => rfl
  | cons b bs ih =>
    have hsyn : shiftIn d.shifter (b ^^ d.inverted) ≠ C_SYN := (h 0 (Nat.succ_pos _)).1
    have hnot : shiftIn d.shifter (b ^^ d.inverted) ≠ ~~~C_SYN := (h 0 (Nat.succ_pos _)).2
    have hfeed : d.feedBit b = { d with
        shifter := shiftIn d.shifter (b ^^ d.inverted)
        d_bits := d.d_bits + 1 } := by
      rw [feedBit, hneed, if_pos le_rfl, takeByte, hfr]
      dsimp only
      rw [if_neg hsyn, if_neg hnot]
    have hsplit : d.feedBits (b :: bs) = (d.feedBit b).feedBits bs := rfl
    rw [hsplit, hfeed, List.length_cons, Nat.add_comm bs.length, ← Nat.add_assoc]
    exact ih (d := { d with
      shifter := shiftIn d.shifter (b ^^ d.inverted)
      d_bits := d.d_bits + 1 }) hfr hneed fun k hk => h (k + 1) (Nat.succ_lt_succ hk)

/-- What the shifter has behind the synchronisation, and its looks at the first `SYN`. -/
theorem looks_at_syn : ∀ pol f : Bool,
    let s := if pol ^^ f then ~~~withParity 0x2A else withParity 0x2A
    (∀ k < 7, shiftAll s (((((lsbBits C_SYN).take 7).map (· ^^ pol)).take (k + 1)).map (· ^^ f)) ≠
        C_SYN ∧
      shiftAll s (((((lsbBits C_SYN).take 7).map (· ^^ pol)).take (k + 1)).map (· ^^ f)) ≠
        ~~~C_SYN) ∧
    shiftAll (shiftAll s ((((lsbBits C_SYN).take 7).map (· ^^ pol)).map (· ^^ f)))
      ([pol].map (· ^^ f)) = if pol ^^ f then ~~~C_SYN else C_SYN := by
  decide

/-- A decoder that looks at every bit finds the first `SYN` behind the synchronisation. -/
theorem feedBits_syn {d : AcarsDecoder} {pol : Bool} (hfr : d.fr = WAIT_SYN) (hneed : d.need = 1)
    (hbits : lsbBits d.shifter = (lsbBits (withParity 0x2A)).map (· ^^ (pol ^^ d.inverted))) :
    ∃ shifter, d.feedBits ((lsbBits C_SYN).map (· ^^ pol)) =
      { d with
        inverted := pol
        shifter := shifter
        need := 8
        fr := GOT_SYN1
        d_bits := d.d_bits + 8 } := by
  have hshifter : d.shifter =
      if pol ^^ d.inverted then ~~~withParity 0x2A else withParity 0x2A := by
    apply lsbBits_injective
    rw [hbits]
    cases pol <;> cases d.inverted <;> decide
  have hsplit : (lsbBits C_SYN).map (· ^^ pol) =
      ((lsbBits C_SYN).take 7).map (· ^^ pol) ++ [pol] := by
    cases pol <;> rfl
  obtain ⟨hseven, hlast⟩ := looks_at_syn pol d.inverted
  rw [← hshifter] at hseven hlast
  have hone : [pol].length = d.need := hneed.symm
  have hlen : (((lsbBits C_SYN).take 7).map (· ^^ pol)).length = 7 := by
    cases pol <;> rfl
  have hbefore := feedBits_search hfr hneed fun k hk => hseven k (hlen ▸ hk)
  rw [hsplit, feedBits_append, hbefore, hlen, feedBits_of_eq (d := { d with
    shifter := shiftAll d.shifter ((((lsbBits C_SYN).take 7).map (· ^^ pol)).map (· ^^ d.inverted))
    d_bits := d.d_bits + 7 }) hone one_pos]
  dsimp only
  rw [hlast, takeByte, hfr]
  dsimp only
  cases hpol : pol ^^ d.inverted with
  | false =>
    have hsame : d.inverted = pol := by
      revert hpol
      cases pol <;> cases d.inverted <;> decide
    rw [if_pos (by decide), hsame]
    exact ⟨_, rfl⟩
  | true =>
    have hother : (!d.inverted) = pol := by
      revert hpol
      cases pol <;> cases d.inverted <;> decide
    rw [if_neg (by decide), if_pos (by decide), hother]
    exact ⟨_, rfl⟩

/-- The decoder is at the start of a byte of a block in which the bits have a polarity. -/
structure AtByte (d : AcarsDecoder) (pol : Bool) (fr : Fr) (ch : ℤ) (records : List AcarsMsg) :
    Prop where
  need : d.need = 8
  inverted : d.inverted = pol
  fr : d.fr = fr
  ch : d.ch = ch
  records : d.records = records

variable {d : AcarsDecoder} {pol : Bool} {ch : ℤ} {records : List AcarsMsg}

/-- The bits of a byte with a polarity. -/
def feedOctet (pol : Bool) (d : AcarsDecoder) (v : Octet) : AcarsDecoder :=
  d.feedBits ((lsbBits v).map (· ^^ pol))

theorem feedBits_octets (d : AcarsDecoder) (pol : Bool) (vs : List Octet) :
    d.feedBits ((vs.flatMap lsbBits).map (· ^^ pol)) = vs.foldl (feedOctet pol) d := by
  induction vs generalizing d with
  | nil => rfl
  | cons v vs ih =>
    rw [List.flatMap_cons, List.map_append, feedBits_append, ih]
    rfl

theorem AtByte.feedOctet {fr : Fr} (h : d.AtByte pol fr ch records) (v : Octet) :
    d.feedOctet pol v = takeByte { d with shifter := v, d_bits := d.d_bits + 8, need := 0 } v := by
  have hinv := h.inverted
  subst hinv
  exact feedBits_lsbBits h.need v

theorem AtByte.second_syn (h : d.AtByte pol GOT_SYN1 ch records) :
    (d.feedOctet pol C_SYN).AtByte pol WAIT_SOH ch records := by
  rw [h.feedOctet, takeByte, h.fr]
  exact ⟨rfl, h.inverted, rfl, h.ch, h.records⟩

theorem AtByte.soh (h : d.AtByte pol WAIT_SOH ch records) :
    (d.feedOctet pol C_SOH).AtByte pol BODY ch records ∧
      (d.feedOctet pol C_SOH).frame = [] := by
  rw [h.feedOctet, takeByte, h.fr]
  exact ⟨⟨rfl, h.inverted, rfl, h.ch, h.records⟩, rfl⟩

/-- Bytes of a frame other than `ETX` and `ETB`, as long as there is place. -/
theorem AtByte.foldl_body (h : d.AtByte pol BODY ch records) {vs : List Octet}
    (hvs : ∀ v ∈ vs, v ≠ C_ETX ∧ v ≠ C_ETB) (hlen : d.frame.length + vs.length < 250) :
    (vs.foldl (AcarsDecoder.feedOctet pol) d).AtByte pol BODY ch records ∧
      (vs.foldl (AcarsDecoder.feedOctet pol) d).frame = d.frame ++ vs := by
  induction vs generalizing d with
  | nil => exact ⟨h, (List.append_nil _).symm⟩
  | cons v vs ih =>
    obtain ⟨hv, hrest⟩ := List.forall_mem_cons.1 hvs
    rw [List.length_cons] at hlen
    have hstep : d.feedOctet pol v = { d with
        shifter := v
        d_bits := d.d_bits + 8
        frame := d.frame ++ [v]
        need := 8 } := by
      have hplace : (if d.frame.length < 300 then d.frame ++ [v] else d.frame) = d.frame ++ [v] :=
        if_pos (by omega)
      have hmore : ¬250 ≤ (d.frame ++ [v]).length := by
        rw [List.length_append, List.length_singleton]
        omega
      rw [h.feedOctet, takeByte, h.fr]
      dsimp only
      rw [hplace, if_neg (not_or.2 hv), if_neg hmore]
    have hnext : (d.feedOctet pol v).AtByte pol BODY ch records := by
      rw [hstep]
      exact ⟨rfl, h.inverted, h.fr, h.ch, h.records⟩
    have hframe : (d.feedOctet pol v).frame = d.frame ++ [v] := by rw [hstep]
    obtain ⟨hbody, hall⟩ := ih hnext hrest (by
      rw [hframe, List.length_append, List.length_singleton]
      omega)
    rw [List.foldl_cons, hall, hframe, List.append_assoc]
    exact ⟨hbody, rfl⟩

theorem AtByte.etx (h : d.AtByte pol BODY ch records) {e : Octet} (he : e = C_ETX ∨ e = C_ETB)
    (hlen : d.frame.length < 250) : (d.feedOctet pol e).AtByte pol BCS_HI ch records ∧
      (d.feedOctet pol e).frame = d.frame ++ [e] := by
  have hplace : (if d.frame.length < 300 then d.frame ++ [e] else d.frame) = d.frame ++ [e] :=
    if_pos (by omega)
  rw [h.feedOctet, takeByte, h.fr]
  dsimp only
  rw [hplace, if_pos he]
  exact ⟨⟨rfl, h.inverted, rfl, h.ch, h.records⟩, rfl⟩

theorem AtByte.bcs_hi (h : d.AtByte pol BCS_HI ch records) (low : Octet) :
    (d.feedOctet pol low).AtByte pol BCS_LO ch records ∧
      (d.feedOctet pol low).frame = d.frame ∧ (d.feedOctet pol low).bcs.1 = low := by
  rw [h.feedOctet, takeByte, h.fr]
  exact ⟨⟨rfl, h.inverted, rfl, h.ch, h.records⟩, rfl, rfl⟩

theorem AtByte.bcs_lo (h : d.AtByte pol BCS_LO ch records) (high : Octet)
    (hheader : 13 ≤ d.frame.length) :
    (d.feedOctet pol high).fr = WAIT_SYN ∧ (d.feedOctet pol high).need = 1 ∧
      (d.feedOctet pol high).records = records ++ [message ch d.frame (d.bcs.1, high)] := by
  rw [h.feedOctet, takeByte, h.fr]
  refine ⟨rfl, rfl, ?_⟩
  dsimp only
  rw [emit, if_neg hheader.not_gt, ← h.records, ← h.ch]

theorem AtByte.foldl_frame (h : d.AtByte pol BODY ch records) (hnil : d.frame = [])
    {vs : List Octet} (hvs : ∀ v ∈ vs, v ≠ C_ETX ∧ v ≠ C_ETB) {e : Octet}
    (he : e = C_ETX ∨ e = C_ETB) (hlen : vs.length < 250) (hheader : 12 ≤ vs.length)
    (low high : Octet) :
    let d' := (vs ++ [e] ++ [low, high]).foldl (AcarsDecoder.feedOctet pol) d
    d'.fr = WAIT_SYN ∧ d'.need = 1 ∧
      d'.records = records ++ [message ch (vs ++ [e]) (low, high)] := by
  simp only [List.foldl_append, List.foldl_cons, List.foldl_nil]
  obtain ⟨hbody, hframe⟩ := h.foldl_body hvs (by rw [hnil]; simpa using hlen)
  rw [hnil, List.nil_append] at hframe
  obtain ⟨hhi, hframe'⟩ := hbody.etx he (by rwa [hframe])
  obtain ⟨hlo, hsame, hbcs⟩ := hhi.bcs_hi low
  rw [hframe', hframe] at hsame
  have hlong : 13 ≤ (vs ++ [e]).length := by
    rw [List.length_append, List.length_singleton]
    omega
  have hlast := hlo.bcs_lo high (by rwa [hsame])
  rw [hsame, hbcs] at hlast
  exact hlast

end AcarsDecoder

/-! ## What a block says -/

/-- A character as a message has it. -/
def shown (c : BitVec 7) : Octet := if 0x20 ≤ c ∧ c < 0x7F then c.setWidth 8 else 0x2E

theorem withParity_and (c : BitVec 7) : withParity c &&& 0x7F = c.setWidth 8 := by
  apply BitVec.eq_of_getLsbD_eq
  intro i hi
  rw [withParity, BitVec.getLsbD_and, BitVec.getLsbD_cons, BitVec.getLsbD_setWidth]
  rcases Nat.lt_or_ge i 7 with hlt | hge
  · have hmask : (0x7F : Octet).getLsbD i = true := by
      interval_cases i <;> rfl
    rw [hmask, if_neg (by omega), decide_eq_true hi]
    simp
  · have heq : i = 7 := by omega
    subst heq
    have htop : c.getLsbD 7 = false := BitVec.getLsbD_of_ge _ _ le_rfl
    rw [htop]
    simp

theorem pc_withParity (c : BitVec 7) : pc (withParity c) = shown c := by
  have hlt := c.isLt
  have hlow : (0x20 : Octet) ≤ c.setWidth 8 ↔ 0x20 ≤ c := by
    simp [BitVec.le_def]
    omega
  have hhigh : c.setWidth 8 < (0x7F : Octet) ↔ c < 0x7F := by
    simp [BitVec.lt_def]
    omega
  rw [pc, withParity_and, shown]
  exact if_congr (and_congr hlow hhigh) rfl rfl

theorem withParity_and_eq_iff (c k : BitVec 7) :
    withParity c &&& 0x7F = k.setWidth 8 ↔ c = k := by
  have hc := c.isLt
  have hk := k.isLt
  rw [withParity_and]
  refine ⟨fun h => ?_, fun h => by rw [h]⟩
  have hnat := congrArg BitVec.toNat h
  rw [BitVec.toNat_setWidth, BitVec.toNat_setWidth] at hnat
  apply BitVec.eq_of_toNat_eq
  omega

theorem withParity_injective : Function.Injective withParity := by
  intro a b h
  rw [← withParity_and_eq_iff, h, withParity_and]

theorem pc_shown (c : BitVec 7) : pc (withParity c &&& 0x7F) = shown c := by
  rw [← pc_withParity, pc, pc, BitVec.and_assoc, BitVec.and_self]

/-- Behind the first character of a registration every one is added. -/
theorem foldl_regStep_of_ne_nil {reg : List Octet} (hreg : reg ≠ []) (cs : List (BitVec 7))
    (hlen : reg.length + cs.length ≤ 9) :
    (cs.map withParity).foldl AcarsDecoder.regStep reg = reg ++ cs.map shown := by
  induction cs generalizing reg with
  | nil => exact (List.append_nil reg).symm
  | cons c cs ih =>
    rw [List.length_cons] at hlen
    have hstep : AcarsDecoder.regStep reg (withParity c) = reg ++ [shown c] := by
      rw [AcarsDecoder.regStep, if_neg fun h => hreg h.2, if_pos (by omega), pc_shown]
    have hlen' : (reg ++ [shown c]).length + cs.length ≤ 9 := by
      rw [List.length_append, List.length_singleton]
      omega
    rw [List.map_cons, List.foldl_cons, hstep, ih (by simp) hlen', List.append_assoc]
    rfl

/-- The registration without the full stops and blanks before it. -/
theorem foldl_regStep (cs : List (BitVec 7)) (hlen : cs.length ≤ 9) :
    (cs.map withParity).foldl AcarsDecoder.regStep [] =
      (cs.dropWhile fun c => decide (c = 0x2E ∨ c = 0x20)).map shown := by
  induction cs with
  | nil => rfl
  | cons c cs ih =>
    rw [List.length_cons] at hlen
    have hpad : (withParity c &&& 0x7F = 0x2E ∨ withParity c &&& 0x7F = 0x20) ↔
        (c = 0x2E ∨ c = 0x20) :=
      or_congr (withParity_and_eq_iff c 0x2E) (withParity_and_eq_iff c 0x20)
    rw [List.map_cons, List.foldl_cons, AcarsDecoder.regStep, List.dropWhile_cons]
    by_cases h : c = 0x2E ∨ c = 0x20
    · rw [if_pos ⟨hpad.2 h, rfl⟩, decide_eq_true h, if_pos rfl]
      exact ih (by omega)
    · have hfirst : ([shown c] : List Octet).length + cs.length ≤ 9 := by
        rw [List.length_singleton]
        omega
      have hplace : ([] : List Octet).length < 9 := by decide
      rw [if_neg fun hskip => h (hpad.1 hskip.1), decide_eq_false h, if_pos hplace, pc_shown,
        List.nil_append, foldl_regStep_of_ne_nil (List.cons_ne_nil _ _) cs hfirst]
      rfl

namespace Block

/-- No character ends the block before its end. -/
def NoEnd (b : Block) : Prop := ∀ c ∈ b.chars, c ≠ 0x03 ∧ c ≠ 0x17

/-- What the message of a block is. -/
def message (ch : ℤ) (b : Block) : AcarsMsg :=
  let block := shown b.block
  let downlink := isDigit block
  let text := b.text.map shown
  { ch := ch
    crc_ok := true
    downlink := downlink
    mode := shown b.mode
    block := block
    ack := shown b.ack
    reg := (b.registration.dropWhile fun c => decide (c = 0x2E ∨ c = 0x20)).map shown
    flight := flightOf downlink text
    label := [shown b.label.1, shown b.label.2]
    text := text }

theorem length_chars (b : Block) :
    b.chars.length = if b.text.isEmpty then 12 else 13 + b.text.length := by
  have hreg := b.registration_length
  rw [chars]
  split_ifs
  · simp [hreg]
  · simp [hreg]
    omega

theorem textOf_frame (b : Block) : AcarsDecoder.textOf b.frame = b.text.map shown := by
  obtain ⟨mode, registration, ack, label, block, text, etb, hreg, hlen⟩ := b
  dsimp only at hlen ⊢
  match registration, hreg with
  | [r0, r1, r2, r3, r4, r5, r6], hreg =>
    cases text with
    | nil => rfl
    | cons c cs =>
      let b : Block :=
        ⟨mode, [r0, r1, r2, r3, r4, r5, r6], ack, label, block, c :: cs, etb, hreg, hlen⟩
      have hframe : b.frame.drop 13 =
          (c :: cs).map withParity ++ [if etb then C_ETB else C_ETX] := rfl
      have hcount : b.frame.length - 1 - 13 = ((c :: cs).map withParity).length := by
        have hdrop := congrArg List.length hframe
        rw [List.length_drop, List.length_append, List.length_singleton] at hdrop
        omega
      have hsome : 13 < b.frame.length := by
        rw [List.length_map, List.length_cons] at hcount
        omega
      have hstx : b.frame.getD 12 0 &&& 0x7F = 0x02 := (withParity_and_eq_iff 0x02 0x02).2 rfl
      have hall : ((c :: cs).map withParity).length ≤ 255 := by
        rw [List.length_map]
        omega
      have hpc : ((c :: cs).map withParity).map pc = (c :: cs).map shown := by
        rw [List.map_map]
        exact List.map_congr_left fun c _ => pc_withParity c
      change AcarsDecoder.textOf b.frame = _
      rw [AcarsDecoder.textOf, if_pos ⟨hsome, hstx⟩, slice, hframe, hcount, List.take_left,
        List.take_of_length_le hall, hpc]

theorem message_frame (ch : ℤ) (b : Block) :
    AcarsDecoder.message ch b.frame
      ((bcsCrc b.frame).setWidth 8, (bcsCrc b.frame >>> 8).setWidth 8) = b.message ch := by
  obtain ⟨mode, registration, ack, label, block, text, etb, hreg, hlen⟩ := b
  match registration, hreg with
  | [r0, r1, r2, r3, r4, r5, r6], hreg =>
    let b : Block := ⟨mode, [r0, r1, r2, r3, r4, r5, r6], ack, label, block, text, etb, hreg, hlen⟩
    have hfield : ∀ i (c : BitVec 7), b.frame.getD i 0 = withParity c →
        pc (b.frame.getD i 0) = shown c := fun i c h => h ▸ pc_withParity c
    have hregistration : (slice 1 7 b.frame).foldl AcarsDecoder.regStep [] = _ :=
      foldl_regStep [r0, r1, r2, r3, r4, r5, r6] (by simp)
    change AcarsDecoder.message ch b.frame _ = b.message ch
    rw [AcarsDecoder.message, b.textOf_frame, hregistration, hfield 0 mode rfl, hfield 8 ack rfl,
      hfield 9 label.1 rfl, hfield 10 label.2 rfl, hfield 11 block rfl, decide_eq_true ⟨rfl, rfl⟩]
    rfl

end Block

/-! ## What is received -/

theorem window_end {had : List Bool} (hhad : had.length = 8) (a : List Bool) {c : List Bool}
    (hc : c.length = 8) : window had (a ++ c) (a ++ c).length = c := by
  have hlen : (had ++ a).length = (a ++ c).length := by
    rw [List.length_append, List.length_append, hhad, hc, Nat.add_comm]
  rw [window, List.take_length, ← List.append_assoc, List.drop_left' hlen]

namespace AcarsDecoder

/-- From bits and a block behind them the decoder emits the message of the block and nothing else,
and then it looks at every bit again. -/
def Receives (d : AcarsDecoder) (lead : List Bool) (prekey : ℕ) (pol : Bool) (b : Block) : Prop :=
  let d' := d.feedBits (lead ++ (b.bits prekey).map (· ^^ pol))
  d'.records = d.records ++ [b.message d.ch] ∧ d'.fr = WAIT_SYN ∧ d'.need = 1

/-- The bytes of a block behind the bits for the synchronisation. -/
theorem feedBits_octets_block {d : AcarsDecoder} {pol : Bool} (hfr : d.fr = WAIT_SYN)
    (hneed : d.need = 1)
    (hbits : lsbBits d.shifter = (lsbBits (withParity 0x2A)).map (· ^^ (pol ^^ d.inverted)))
    (b : Block) (hend : b.NoEnd) :
    let d' := d.feedBits ((b.octets.flatMap lsbBits).map (· ^^ pol))
    d'.records = d.records ++ [b.message d.ch] ∧ d'.fr = WAIT_SYN ∧ d'.need = 1 := by
  have hsplit : b.octets.flatMap lsbBits = lsbBits C_SYN ++
      (C_SYN :: C_SOH :: (b.frame ++
        [(bcsCrc b.frame).setWidth 8, (bcsCrc b.frame >>> 8).setWidth 8])).flatMap lsbBits := rfl
  obtain ⟨shifter, hfirst⟩ := feedBits_syn hfr hneed hbits
  dsimp only
  rw [hsplit, List.map_append, feedBits_append, hfirst, feedBits_octets, List.foldl_cons,
    List.foldl_cons]
  have hgot : AtByte { d with
      inverted := pol
      shifter := shifter
      need := 8
      fr := GOT_SYN1
      d_bits := d.d_bits + 8 } pol GOT_SYN1 d.ch d.records := ⟨rfl, rfl, rfl, rfl, rfl⟩
  obtain ⟨hbody, hnil⟩ := hgot.second_syn.soh
  -- the characters with their parity are no ends
  have hchars : ∀ v ∈ b.chars.map withParity, v ≠ C_ETX ∧ v ≠ C_ETB := by
    intro v hv
    obtain ⟨c, hc, rfl⟩ := List.mem_map.1 hv
    obtain ⟨hetx, hetb⟩ := hend c hc
    have hends : withParity 0x03 = C_ETX ∧ withParity 0x17 = C_ETB := by decide
    exact ⟨fun h => hetx (withParity_injective (h.trans hends.1.symm)),
      fun h => hetb (withParity_injective (h.trans hends.2.symm))⟩
  have hlast : (if b.etb then C_ETB else C_ETX) = C_ETX ∨
      (if b.etb then C_ETB else C_ETX) = C_ETB := by
    cases b.etb
    · exact Or.inl rfl
    · exact Or.inr rfl
  have hcount := b.length_chars
  have htext := b.text_length
  have hlong : (b.chars.map withParity).length < 250 := by
    rw [List.length_map, hcount]
    split_ifs <;> omega
  have hheader : 12 ≤ (b.chars.map withParity).length := by
    rw [List.length_map, hcount]
    split_ifs <;> omega
  obtain ⟨hfr', hneed', hrecords⟩ := hbody.foldl_frame hnil hchars hlast hlong hheader
    ((bcsCrc b.frame).setWidth 8) ((bcsCrc b.frame >>> 8).setWidth 8)
  rw [← Block.frame, Block.message_frame] at hrecords
  exact ⟨hrecords, hfr', hneed'⟩

/-- A decoder that looks at every bit receives a block, whatever the polarity of its bits is, behind
any bits without a sync. -/
theorem receives_block (d : AcarsDecoder) (hfr : d.fr = WAIT_SYN) (hneed : d.need = 1)
    (lead : List Bool) (hlead : NoSync lead) (prekey : ℕ) (pol : Bool) (b : Block)
    (hend : b.NoEnd) : d.Receives lead prekey pol b := by
  -- the bits that the shifter has, as they came in
  let had := (lsbBits d.shifter).map (· ^^ d.inverted)
  let stream := lead ++ (preamble prekey).map (· ^^ pol)
  have hhad : had.length = 8 := by simp [had]
  have hstart : d.Searching had stream lead.length 0 := by
    rw [Searching, hfr]
    exact ⟨hneed, (map_xor_xor (lsbBits d.shifter) d.inverted).symm⟩
  obtain ⟨hfr', hneed', hbits, hch, hrecords⟩ :=
    hstart.feedBits hhad (syncFree_append hhad hlead prekey pol) (Nat.zero_le _)
  have hlast : window had stream stream.length =
      (lsbBits (withParity 0x2A)).map (· ^^ pol) := by
    have hstream : stream =
        (lead ++ (List.replicate prekey true ++ lsbBits (withParity 0x2B)).map (· ^^ pol)) ++
          (lsbBits (withParity 0x2A)).map (· ^^ pol) := by
      simp [stream, preamble]
    rw [hstream, window_end hhad]
    rw [List.length_map, length_lsbBits]
  rw [hlast, List.map_map] at hbits
  have hxor : ((· ^^ (d.feedBits (stream.drop 0)).inverted) ∘ (· ^^ pol) : Bool → Bool) =
      (· ^^ (pol ^^ (d.feedBits (stream.drop 0)).inverted)) := by
    funext x
    exact Bool.xor_assoc _ _ _
  rw [hxor] at hbits
  have hblock := feedBits_octets_block hfr' hneed' hbits b hend
  have hall : d.feedBits (lead ++ (b.bits prekey).map (· ^^ pol)) =
      (d.feedBits (stream.drop 0)).feedBits ((b.octets.flatMap lsbBits).map (· ^^ pol)) := by
    rw [← feedBits_append, List.drop_zero, Block.bits, List.map_append, List.append_assoc]
  dsimp only at hblock
  rw [hrecords, hch, ← hall] at hblock
  exact hblock

/-- A block with the text `AB`, behind a bit and 3 ones. -/
theorem receives_short_block : (reset 0).Receives [false] 3 true
    ⟨0x32, [0x2E, 0x48, 0x4C, 0x37, 0x35, 0x36, 0x37], 0x15, (0x48, 0x31), 0x31, [0x41, 0x42],
      false, rfl, by decide⟩ :=
  receives_block (reset 0) rfl rfl [false] (fun m hm => absurd hm (by simp)) 3 true _ (by
    unfold Block.NoEnd
    decide)

set_option maxRecDepth 40000 in
/-- A block whose text is an `ETX` and an `A` ends at the `ETX`. -/
theorem not_receives_etx : ¬(reset 0).Receives [] 0 false
    ⟨0x32, [0x2E, 0x48, 0x4C, 0x37, 0x35, 0x36, 0x37], 0x15, (0x48, 0x31), 0x31, [0x03, 0x41],
      false, rfl, by decide⟩ := by
  unfold Receives
  decide

end AcarsDecoder

end Bewe.Acars

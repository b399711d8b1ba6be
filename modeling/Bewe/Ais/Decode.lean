import Bewe.Lib.Hdlc

/-!
# The AIS frame decoder

`AisDecoder` of `modules/ais/ais_decode.hpp` takes one NRZI-decoded bit at a time through five
states: it searches an alternating preamble, counts the ones of the opening flag, collects the
payload without the stuffed zeros, and on the closing flag checks the frame with `calc_crc` and
hands it to `emit`. A fed frame is followed piece by piece: sixteen alternating bits end the search
(`feed_search`), any further ones are absorbed (`feed_preamble`), the flag opens the payload
(`feed_openFlag`), stuffed bits are collected as they were before stuffing (`feed_stuff`), and the
closing flag leaves six bits more in the buffer (`feed_closeFlag`).

The buffer is the list of the bits received since it was last cleared, so `bufferpos` is its length.
The callbacks are left out: `emitted` records the calls of `emit`, with the bit count and `rbuffer`.
-/

namespace Bewe.Ais

open Lib.Hdlc

/-- The states `ST_SKURR` to `ST_STOPSIGN`. -/
inductive State
  | skurr
  | preamble
  | startsign
  | data
  | stopsign
  deriving DecidableEq, Repr

/-- The size of the two bit buffers. -/
def BUFSZ : ℕ := 520

/-- The fields of `AisDecoder`, with the calls of `emit` so far. -/
structure AisDecoder where
  state : State
  buffer : List Bool
  rbuffer : List Bool
  last : Bool
  antallpreamble : ℕ
  nstartsign : ℕ
  antallenner : ℕ
  bitstuff : Bool
  nskurr : ℕ
  npreamble : ℕ
  dg_pre : ℕ
  dg_gate : ℕ
  dg_crctry : ℕ
  dg_crcok : ℕ
  emitted : List (ℕ × List Bool)
  deriving DecidableEq

/-! ## The check of a frame -/

/-- The loop over one data byte of `sdlc_crc`, `c` being the byte below a marker bit. -/
def crcLoop (c : ℕ) (crc : BitVec 16) : BitVec 16 :=
  if 1 < c then
    crcLoop (c / 2)
      (if (crc.getLsbD 0 ^^ c.testBit 0) then (crc >>> 1) ^^^ 0x8408 else crc >>> 1)
  else crc
termination_by c

/-- `sdlc_crc`. -/
def sdlcCrc (data : List ℕ) : BitVec 16 :=
  ~~~ data.foldl (fun crc byte => crcLoop (0x100 + byte) crc) 0xFFFF

/-- Octet `j` of the buffer, its bits least significant first. -/
def octet (buffer : List Bool) (j : ℕ) : ℕ :=
  (List.range 8).foldl (fun tmp i => tmp ||| (buffer.getD (i + 8 * j) false).toNat <<< i) 0

/-- `calc_crc`: the new `rbuffer` when the frame passes. -/
def calcCrc (buffer : List Bool) (length_bits : ℕ) : Option (List Bool) :=
  let length_bytes := length_bits / 8
  let buflen := length_bytes + 2
  if BUFSZ < buflen * 8 then none
  else
    let buf := (List.range buflen).map (octet buffer)
    if sdlcCrc buf = 0x0F47 then
      some ((buf.take length_bytes).flatMap msbBits
        ++ List.replicate (BUFSZ - 8 * length_bytes) false)
    else none

/-! ## The state machine -/

/-- `reset_frame`. -/
def resetFrame (d : AisDecoder) : AisDecoder :=
  { d with buffer := [], antallenner := 0, bitstuff := false, nstartsign := 0, antallpreamble := 0 }

/-- `reset_all`. -/
def resetAll (d : AisDecoder) : AisDecoder :=
  { resetFrame d with state := .skurr, nskurr := 0, npreamble := 0, last := false }

/-- The `ST_DATA` branch: the stuffed bit after five ones, or one more bit of the payload. -/
def feedData (d : AisDecoder) (input : Bool) : AisDecoder :=
  if d.bitstuff then
    if input then { d with state := .stopsign, bitstuff := false } else { d with bitstuff := false }
  else
    let d₁ :=
      if input = d.last ∧ input = true then
        if d.antallenner + 1 = 4 then { d with bitstuff := true, antallenner := 0 }
        else { d with antallenner := d.antallenner + 1 }
      else { d with antallenner := 0 }
    let d₂ := if d₁.buffer.length < BUFSZ then { d₁ with buffer := d₁.buffer ++ [input] } else d₁
    if BUFSZ - 1 ≤ d₂.buffer.length then resetAll d₂ else d₂

/-- The `ST_SKURR` branch: count the alternating bits. -/
def feedSkurr (d : AisDecoder) (input : Bool) : AisDecoder :=
  let d₁ := { d with antallpreamble := if input = d.last then 0 else d.antallpreamble + 1 }
  let d₂ :=
    if 14 < d₁.antallpreamble ∧ input = false then
      { d₁ with state := .preamble, nskurr := 0, antallpreamble := 0, dg_pre := d₁.dg_pre + 1 }
    else d₁
  { d₂ with nskurr := d₂.nskurr + 1 }

/-- The `ST_PREAMBLE` branch: the alternation ends in the flag's ones. -/
def feedPreamble (d : AisDecoder) (input : Bool) : AisDecoder :=
  let d₁ :=
    if input ≠ d.last ∧ d.nstartsign = 0 then { d with antallpreamble := d.antallpreamble + 1 }
    else if input then
      if d.nstartsign = 0 then { d with nstartsign := 3, last := input }
      else if d.nstartsign = 5 then
        { d with nstartsign := d.nstartsign + 1, npreamble := 0, antallpreamble := 0,
                 state := .startsign }
      else { d with nstartsign := d.nstartsign + 1 }
    else if d.nstartsign = 0 then { d with nstartsign := 1 }
    else resetAll d
  { d₁ with npreamble := d₁.npreamble + 1 }

/-- The `ST_STARTSIGN` branch: the zero that closes the opening flag starts the payload. -/
def feedStartsign (d : AisDecoder) (input : Bool) : AisDecoder :=
  let d₁ :=
    if 7 ≤ d.nstartsign then
      if input = false then
        { d with state := .data, nstartsign := 0, antallenner := 0, buffer := [],
                 dg_gate := d.dg_gate + 1 }
      else resetAll d
    else if input = false then resetAll d
    else d
  { d₁ with nstartsign := d₁.nstartsign + 1 }

/-- The `ST_STOPSIGN` branch: the flag's last zero closes the frame, which is checked and emitted.
The data bits are those of the buffer without the flag's six and the check sequence's sixteen. -/
def feedStopsign (d : AisDecoder) (input : Bool) : AisDecoder :=
  let bits := d.buffer.length - 6 - 16
  if input = false ∧ 0 < bits then
    let d₁ := { d with dg_crctry := d.dg_crctry + 1 }
    match calcCrc d.buffer bits with
    | some rbuffer =>
      resetAll { d₁ with rbuffer := rbuffer, dg_crcok := d₁.dg_crcok + 1,
                         emitted := d₁.emitted ++ [(bits, rbuffer)] }
    | none => resetAll d₁
  else resetAll d

/-- `feed_bit`. -/
def feedBit (d : AisDecoder) (input : Bool) : AisDecoder :=
  let d₁ :=
    match d.state with
    | .data => feedData d input
    | .skurr => feedSkurr d input
    | .preamble => feedPreamble d input
    | .startsign => feedStartsign d input
    | .stopsign => feedStopsign d input
  { d₁ with last := input }

/-- Bits fed one after another. -/
def feed (d : AisDecoder) (bits : List Bool) : AisDecoder :=
  bits.foldl feedBit d

theorem feed_append (d : AisDecoder) (xs ys : List Bool) :
    feed d (xs ++ ys) = feed (feed d xs) ys :=
  List.foldl_append

theorem feed_cons (d : AisDecoder) (b : Bool) (bs : List Bool) :
    feed d (b :: bs) = feed (feedBit d b) bs :=
  rfl

/-! ## The check passes on a sent frame -/

theorem crcLoop_eq (k o : ℕ) (ho : o < 2 ^ k) (crc : BitVec 16) :
    crcLoop (2 ^ k + o) crc = ((List.range k).map o.testBit).foldl crcBit crc := by
  induction k generalizing o crc with
  | zero =>
    have h0 : o = 0 := by simpa using ho
    subst h0
    rw [crcLoop]
    simp
  | succ k ih =>
    have hhalf : (2 ^ (k + 1) + o) / 2 = 2 ^ k + o / 2 := by rw [pow_succ]; omega
    have hbit : (2 ^ (k + 1) + o).testBit 0 = o.testBit 0 := by
      simp only [Nat.testBit_zero, pow_succ]
      congr 1
      have : (2 ^ k * 2 + o) % 2 = o % 2 := by omega
      rw [this]
    have hgt : 1 < 2 ^ (k + 1) + o := by
      have := Nat.one_lt_two_pow (n := k + 1) (by omega)
      omega
    rw [crcLoop, if_pos hgt, hhalf, hbit, ih (o / 2) (by rw [pow_succ] at ho; omega),
      List.range_succ_eq_map, List.map_cons, List.foldl_cons, List.map_map]
    have htail : o.testBit ∘ Nat.succ = (o / 2).testBit := by
      funext i
      simp [Nat.testBit_succ]
    rw [htail]
    rfl

theorem sdlcCrc_eq (data : List ℕ) (h : ∀ o ∈ data, o < 256) :
    sdlcCrc data = ~~~ register (sent data) := by
  unfold sdlcCrc register sent
  generalize (0xFFFF : BitVec 16) = crc
  congr 1
  induction data generalizing crc with
  | nil => rfl
  | cons o os ih =>
    rw [List.foldl_cons, List.flatMap_cons, List.foldl_append,
      ← ih (fun p hp => h p (List.mem_cons_of_mem _ hp))]
    congr 1
    exact crcLoop_eq 8 o (h o List.mem_cons_self) crc

theorem pack_lsb (o : Fin 256) :
    (List.range 8).foldl (fun tmp i => tmp ||| ((o : ℕ).testBit i).toNat <<< i) 0 = o := by
  revert o
  decide +kernel

theorem octet_sent (octets : List ℕ) (tail : List Bool) (j : ℕ) (hj : j < octets.length)
    (h : ∀ o ∈ octets, o < 256) : octet (sent octets ++ tail) j = octets.getD j 0 := by
  have hlt : octets.getD j 0 < 256 := by
    rw [List.getD_eq_getElem _ _ hj]
    exact h _ (List.getElem_mem hj)
  unfold octet
  refine Eq.trans ?_ (pack_lsb ⟨octets.getD j 0, hlt⟩)
  apply List.foldl_ext
  intro tmp i hi
  rw [getD_sent octets j i (List.mem_range.mp hi) tail hj]

theorem octets_sent (octets : List ℕ) (tail : List Bool) (h : ∀ o ∈ octets, o < 256) :
    (List.range octets.length).map (octet (sent octets ++ tail)) = octets := by
  apply List.ext_getElem
  · simp
  · intro j h₁ h₂
    simp only [List.getElem_map, List.getElem_range]
    rw [octet_sent octets tail j h₂ h, List.getD_eq_getElem _ _ h₂]

/-- The two octets in which a check sequence is sent, the low one first. -/
def fcsOctets (fcs : BitVec 16) : List ℕ :=
  [fcs.toNat % 256, fcs.toNat / 256]

theorem sent_fcsOctets (fcs : BitVec 16) : sent (fcsOctets fcs) = checkBits fcs := by
  have hlow : lsbBits (fcs.toNat % 256) = (List.range 8).map fcs.getLsbD := by
    apply List.map_congr_left
    intro i hi
    have hi8 := List.mem_range.mp hi
    rw [show 256 = 2 ^ 8 by rfl, Nat.testBit_mod_two_pow]
    simp [hi8, BitVec.getLsbD]
  have hhigh : lsbBits (fcs.toNat / 256) = (List.range 8).map fun i => fcs.getLsbD (8 + i) := by
    apply List.map_congr_left
    intro i _
    rw [show 256 = 2 ^ 8 by rfl, ← Nat.shiftRight_eq_div_pow, Nat.testBit_shiftRight]
    rfl
  rw [sent, fcsOctets, List.flatMap_cons, List.flatMap_cons, List.flatMap_nil, List.append_nil,
    hlow, hhigh]
  rfl

/-- `calc_crc` passes on a payload followed by its check sequence, and `rbuffer` gets the payload's
octets most significant bit first. -/
theorem calcCrc_sent (payload : List ℕ) (h : ∀ o ∈ payload, o < 256) (hn : payload.length ≤ 60)
    (tail : List Bool) :
    calcCrc (sent payload ++ checkBits (checkSequence (sent payload)) ++ tail) (8 * payload.length)
      = some (payload.flatMap msbBits
          ++ List.replicate (BUFSZ - 8 * payload.length) false) := by
  set fcs := checkSequence (sent payload) with hfcs
  have hlt := fcs.isLt
  have hall : ∀ o ∈ payload ++ fcsOctets fcs, o < 256 := by
    intro o ho
    rcases List.mem_append.mp ho with ho | ho
    · exact h o ho
    · simp only [fcsOctets, List.mem_cons, List.not_mem_nil, or_false] at ho
      omega
  have hbits : sent payload ++ checkBits fcs = sent (payload ++ fcsOctets fcs) := by
    rw [← sent_fcsOctets, sent, sent, sent, List.flatMap_append]
  have hlen : 8 * payload.length / 8 + 2 = (payload ++ fcsOctets fcs).length := by
    simp [fcsOctets]
  have hres : sdlcCrc (payload ++ fcsOctets fcs) = 0x0F47 := by
    rw [sdlcCrc_eq _ hall, ← hbits, hfcs, register_checkSequence]
    decide
  have hsize : ¬ BUFSZ < (8 * payload.length / 8 + 2) * 8 := by
    unfold BUFSZ
    omega
  unfold calcCrc
  simp only
  rw [if_neg hsize, hlen, hbits, octets_sent _ tail hall, if_pos hres,
    show 8 * payload.length / 8 = payload.length by omega, List.take_left]

/-! ## A frame through the state machine -/

/-- The decoder has just been reset and searches. -/
def Searching (d : AisDecoder) : Prop :=
  resetAll d = d

theorem feed_pairs (d : AisDecoder) (hs : d.state = .skurr) (hl : d.last = false)
    (ha : d.antallpreamble = 0) (j : ℕ) (hj : j ≤ 7) :
    feed d (alternating (2 * j) true) =
      { d with antallpreamble := 2 * j, nskurr := d.nskurr + 2 * j } := by
  induction j with
  | zero =>
    cases d
    simp only at ha
    subst ha
    rfl
  | succ j ih =>
    have hsplit : alternating (2 * (j + 1)) true = alternating (2 * j) true ++ [true, false] := by
      rw [show 2 * (j + 1) = 2 * j + 2 by omega, alternating_add]
      simp [alternating]
    have hj' : ¬ 14 < 2 * j + 1 + 1 := by omega
    rw [hsplit, feed_append, ih (by omega)]
    simp [feed, feedBit, hs, feedSkurr, hl, hj']
    omega

theorem feed_sixteen (d : AisDecoder) (hs : d.state = .skurr) (hl : d.last = false)
    (ha : d.antallpreamble = 0) :
    feed d (alternating 16 true) =
      { d with state := .preamble, nskurr := 1, antallpreamble := 0, last := false,
               dg_pre := d.dg_pre + 1 } := by
  have hsplit : alternating 16 true = alternating (2 * 7) true ++ [true, false] := by rfl
  rw [hsplit, feed_append, feed_pairs d hs hl ha 7 (Nat.le_refl 7)]
  simp only [feed, List.foldl_cons, List.foldl_nil, feedBit, hs, feedSkurr, hl]
  simp

theorem feed_preamble (m : ℕ) (b : Bool) (d : AisDecoder) (hs : d.state = .preamble)
    (hn : d.nstartsign = 0) (hl : d.last = !b) :
    ∃ last a p, feed d (alternating m b) =
      { d with last := last, antallpreamble := a, npreamble := p } := by
  induction m generalizing b d with
  | zero => exact ⟨d.last, d.antallpreamble, d.npreamble, rfl⟩
  | succ m ih =>
    have hne : b ≠ d.last := by rw [hl]; cases b <;> simp
    have hstep : feedBit d b =
        { d with last := b, antallpreamble := d.antallpreamble + 1,
                 npreamble := d.npreamble + 1 } := by
      unfold feedBit feedPreamble
      rw [hs]
      simp only
      rw [if_pos ⟨hne, hn⟩]
    obtain ⟨last, a, p, hrest⟩ := ih (!b)
      { d with last := b, antallpreamble := d.antallpreamble + 1, npreamble := d.npreamble + 1 }
      hs hn (by simp)
    refine ⟨last, a, p, ?_⟩
    rw [alternating, feed_cons, hstep, hrest]

theorem feed_openFlag (d : AisDecoder) (hs : d.state = .preamble) (hn : d.nstartsign = 0) :
    feed d flag =
      { d with state := .data, buffer := [], last := false, antallpreamble := 0, nstartsign := 1,
               antallenner := 0, npreamble := 1, dg_gate := d.dg_gate + 1 } := by
  obtain ⟨state, buffer, rbuffer, last, antallpreamble, nstartsign, antallenner, bitstuff, nskurr,
    npreamble, dg_pre, dg_gate, dg_crctry, dg_crcok, emitted⟩ := d
  simp only at hs hn
  subst hs hn
  cases last <;> simp [feed, flag, feedBit, feedPreamble, feedStartsign]

/-- The decoder collecting the payload, with `run` ones just received and `acc` in the buffer. -/
def collecting (d : AisDecoder) (run : ℕ) (acc : List Bool) : AisDecoder :=
  { d with state := .data, buffer := acc, last := decide (0 < run), antallenner := run - 1,
           bitstuff := false }

/-- The decoder after five ones in the payload. -/
def afterFive (d : AisDecoder) (acc : List Bool) : AisDecoder :=
  { d with state := .data, buffer := acc, last := true, antallenner := 0, bitstuff := true }

/-- The decoder after six ones, with the closing flag's last zero to come. -/
def stopping (d : AisDecoder) (acc : List Bool) : AisDecoder :=
  { d with state := .stopsign, buffer := acc, last := true, antallenner := 0, bitstuff := false }

theorem feedData_push (d : AisDecoder) (input : Bool) (hb : d.bitstuff = false)
    (hlen : d.buffer.length + 1 < BUFSZ - 1) :
    feedData d input =
      { d with
        bitstuff := decide (input = d.last ∧ input = true ∧ d.antallenner + 1 = 4)
        antallenner :=
          if input = d.last ∧ input = true ∧ d.antallenner + 1 ≠ 4 then d.antallenner + 1 else 0
        buffer := d.buffer ++ [input] } := by
  have h₁ : d.buffer.length < BUFSZ := by omega
  have h₂ : ¬ BUFSZ - 1 ≤ d.buffer.length + 1 := by omega
  unfold feedData
  rw [hb, if_neg (by simp)]
  by_cases hrep : input = d.last ∧ input = true
  · by_cases hfour : d.antallenner + 1 = 4
    · simp [hrep.1, hrep.1 ▸ hrep.2, hfour, h₁, h₂]
    · simp [hrep.1, hrep.1 ▸ hrep.2, hfour, h₁, h₂]
  · have hrep' : ¬ (input = d.last ∧ input = true ∧ d.antallenner + 1 = 4) := by tauto
    have hrep'' : ¬ (input = d.last ∧ input = true ∧ d.antallenner + 1 ≠ 4) := by tauto
    rw [if_neg hrep'', decide_eq_false hrep']
    simp [hrep, h₁, h₂]

theorem feed_zero (d : AisDecoder) (run : ℕ) (acc : List Bool) (hlen : acc.length + 1 < BUFSZ - 1) :
    feedBit (collecting d run acc) false = collecting d 0 (acc ++ [false]) := by
  have h := feedData_push (collecting d run acc) false rfl hlen
  simp only [feedBit, collecting] at h ⊢
  rw [h]
  simp

theorem feed_one (d : AisDecoder) (run : ℕ) (acc : List Bool) (hrun : run < 4)
    (hlen : acc.length + 1 < BUFSZ - 1) :
    feedBit (collecting d run acc) true = collecting d (run + 1) (acc ++ [true]) := by
  have h := feedData_push (collecting d run acc) true rfl hlen
  have hfour : ¬ run - 1 + 1 = 4 := by omega
  simp only [feedBit, collecting] at h ⊢
  rw [h]
  rcases Nat.eq_zero_or_pos run with h0 | hpos
  · simp [h0]
  · simp [hpos, hfour]
    omega

theorem feed_five (d : AisDecoder) (acc : List Bool) (hlen : acc.length + 1 < BUFSZ - 1) :
    feedBit (collecting d 4 acc) true = afterFive d (acc ++ [true]) := by
  have h := feedData_push (collecting d 4 acc) true rfl hlen
  simp only [feedBit, collecting] at h ⊢
  rw [h]
  simp [afterFive]

theorem feed_stuff (d : AisDecoder) (bs : List Bool) (run : ℕ) (acc : List Bool) (hrun : run ≤ 4)
    (hlen : acc.length + bs.length < BUFSZ - 1) :
    ∃ run' ≤ 4, feed (collecting d run acc) (stuff run bs) = collecting d run' (acc ++ bs) := by
  induction bs generalizing run acc with
  | nil => exact ⟨run, hrun, by simp [stuff, feed]⟩
  | cons b bs ih =>
    have hone : acc.length + 1 < BUFSZ - 1 := by simp at hlen; omega
    have hrest : ∀ b, (acc ++ [b]).length + bs.length < BUFSZ - 1 := by
      intro b
      simp at hlen ⊢
      omega
    cases b with
    | false =>
      obtain ⟨run', hle, h⟩ := ih 0 (acc ++ [false]) (by omega) (hrest false)
      refine ⟨run', hle, ?_⟩
      rw [stuff, feed_cons, feed_zero d run acc hone, h, List.append_assoc]
      rfl
    | true =>
      rw [stuff]
      split
      · -- the fifth one, and the zero that the transmitter inserts after it
        rename_i hfour
        obtain ⟨run', hle, h⟩ := ih 0 (acc ++ [true]) (by omega) (hrest true)
        refine ⟨run', hle, ?_⟩
        have hdrop : feedBit (afterFive d (acc ++ [true])) false
            = collecting d 0 (acc ++ [true]) := by
          simp [feedBit, feedData, afterFive, collecting]
        rw [hfour, feed_cons, feed_cons, feed_five d acc hone, hdrop, h, List.append_assoc]
        rfl
      · obtain ⟨run', hle, h⟩ := ih (run + 1) (acc ++ [true]) (by omega) (hrest true)
        refine ⟨run', hle, ?_⟩
        rw [feed_cons, feed_one d run acc (by omega) hone, h, List.append_assoc]
        rfl

theorem feed_closeFlag (d : AisDecoder) (run : ℕ) (acc : List Bool)
    (hlen : acc.length + 6 < BUFSZ - 1) :
    feed (collecting d run acc) flag =
      feedBit (stopping d (acc ++ [false, true, true, true, true, true])) false := by
  have hstop : ∀ acc', feedBit (afterFive d acc') true = stopping d acc' := by
    intro acc'
    simp [feedBit, feedData, afterFive, stopping]
  unfold flag
  rw [feed_cons, feed_zero d run acc (by omega)]
  iterate 4 rw [feed_cons, feed_one d _ _ (by omega) (by simp; omega)]
  rw [feed_cons, feed_five d _ (by simp; omega), feed_cons, hstop]
  simp [feed]

/-! ## Frames -/

/-- What a transmitter sends in one frame: a preamble of at least 24 alternating bits from `b`, and
a payload of 1 to 60 octets. -/
structure Frame where
  m : ℕ
  b : Bool
  payload : List ℕ
  preamble : 24 ≤ m
  nonempty : 1 ≤ payload.length
  short : payload.length ≤ 60
  octets : ∀ o ∈ payload, o < 256

instance : Inhabited Frame := ⟨⟨24, false, [0], le_rfl, le_rfl, by decide, by decide⟩⟩

/-- The bits of a frame: the preamble, the flag, the stuffed payload with its check sequence, and
the flag again. -/
def Frame.bits (f : Frame) : List Bool :=
  alternating f.m f.b ++ flag
    ++ stuff 0 (sent f.payload ++ checkBits (checkSequence (sent f.payload))) ++ flag

/-- What `rbuffer` holds after the frame: the payload's octets most significant bit first, and
zeros. -/
def Frame.received (f : Frame) : List Bool :=
  f.payload.flatMap msbBits ++ List.replicate (BUFSZ - 8 * f.payload.length) false

theorem feed_search (d : AisDecoder) (hd : Searching d) (m : ℕ) (b : Bool) (hm : 24 ≤ m) :
    ∃ last a p, feed d (alternating m b) =
      { d with state := .preamble, nskurr := 1, dg_pre := d.dg_pre + 1, last := last,
               antallpreamble := a, npreamble := p } := by
  have hs : d.state = .skurr := by rw [← hd]; rfl
  have hl : d.last = false := by rw [← hd]; rfl
  have ha : d.antallpreamble = 0 := by rw [← hd]; rfl
  have hn : d.nstartsign = 0 := by rw [← hd]; rfl
  have hsplit : ∀ n, alternating (16 + n) true = alternating 16 true ++ alternating n true := by
    intro n
    rw [alternating_add]
    simp
  cases b with
  | true =>
    obtain ⟨last, a, p, h⟩ := feed_preamble (m - 16) true
      { d with state := .preamble, nskurr := 1, antallpreamble := 0, last := false,
               dg_pre := d.dg_pre + 1 } rfl hn rfl
    refine ⟨last, a, p, ?_⟩
    rw [show m = 16 + (m - 16) by omega, hsplit, feed_append, feed_sixteen d hs hl ha, h]
  | false =>
    -- the first bit repeats the reset value of `last`, and the sixteen after it end the search
    have hfirst : feedBit d false = { d with nskurr := d.nskurr + 1 } := by
      cases d
      simp only at hs hl ha
      subst hs hl ha
      rfl
    obtain ⟨last, a, p, h⟩ := feed_preamble (m - 17) true
      { d with state := .preamble, nskurr := 1, antallpreamble := 0, last := false,
               dg_pre := d.dg_pre + 1 } rfl hn rfl
    refine ⟨last, a, p, ?_⟩
    rw [show m = (16 + (m - 17)) + 1 by omega, alternating, feed_cons, hfirst, Bool.not_false,
      hsplit, feed_append, feed_sixteen { d with nskurr := d.nskurr + 1 } hs hl ha, h]

/-- A frame fed to a searching decoder passes the check, is emitted once, and leaves the decoder
searching. -/
theorem feed_frame (d : AisDecoder) (hd : Searching d) (f : Frame) :
    feed d f.bits =
      { d with rbuffer := f.received, dg_pre := d.dg_pre + 1, dg_gate := d.dg_gate + 1,
               dg_crctry := d.dg_crctry + 1, dg_crcok := d.dg_crcok + 1,
               emitted := d.emitted ++ [(8 * f.payload.length, f.received)] } := by
  set body := sent f.payload ++ checkBits (checkSequence (sent f.payload)) with hbody
  have hlen : body.length = 8 * f.payload.length + 16 := by
    rw [hbody, List.length_append, length_sent]
    simp [checkBits]
  have hshort := f.short
  have hpos := f.nonempty
  obtain ⟨last, a, p, hsearch⟩ := feed_search d hd f.m f.b f.preamble
  -- the decoder when the opening flag has been seen
  set d₁ : AisDecoder :=
    { d with dg_pre := d.dg_pre + 1, nskurr := 1, antallpreamble := 0, nstartsign := 1,
             npreamble := 1, dg_gate := d.dg_gate + 1 } with hd₁
  have hopen : feed d (alternating f.m f.b ++ flag) = collecting d₁ 0 [] := by
    rw [feed_append, hsearch, feed_openFlag _ rfl (by rw [← hd]; rfl)]
    rw [hd₁, ← hd]
    rfl
  obtain ⟨run, hrun, hbits⟩ := feed_stuff d₁ body 0 [] (by omega)
    (by rw [hlen]; simp [BUFSZ]; omega)
  have hcheck : calcCrc (body ++ [false, true, true, true, true, true]) (8 * f.payload.length)
      = some f.received := calcCrc_sent f.payload f.octets hshort _
  have hcount : (body ++ [false, true, true, true, true, true]).length - 6 - 16
      = 8 * f.payload.length := by
    rw [List.length_append, hlen]
    simp
  unfold Frame.bits
  rw [feed_append, feed_append, hopen, hbits, List.nil_append,
    feed_closeFlag d₁ run body (by rw [hlen]; simp [BUFSZ]; omega)]
  unfold feedBit feedStopsign stopping
  simp only
  rw [hcount, if_pos ⟨trivial, by omega⟩, hcheck, hd₁]
  simp only [resetAll, resetFrame]
  conv_rhs => rw [← hd]
  rfl

theorem searching_feed_frame (d : AisDecoder) (hd : Searching d) (f : Frame) :
    Searching (feed d f.bits) := by
  rw [feed_frame d hd f]
  cases d
  simp [Searching, resetAll, resetFrame] at hd ⊢
  exact hd

/-- Frames fed one after another to a searching decoder are each checked, pass, and are emitted in
order. -/
theorem feed_frames (d : AisDecoder) (hd : Searching d) (frames : List Frame) :
    let d' := feed d (frames.flatMap Frame.bits)
    Searching d' ∧
      d'.dg_crctry = d.dg_crctry + frames.length ∧ d'.dg_crcok = d.dg_crcok + frames.length ∧
      d'.emitted = d.emitted ++ frames.map (fun f => (8 * f.payload.length, f.received)) ∧
      d'.rbuffer = (frames.getLast?.map Frame.received).getD d.rbuffer := by
  induction frames generalizing d with
  | nil => exact ⟨hd, rfl, rfl, by simp [feed], rfl⟩
  | cons f frames ih =>
    have hone := feed_frame d hd f
    obtain ⟨h₁, h₂, h₃, h₄, h₅⟩ := ih (feed d f.bits) (searching_feed_frame d hd f)
    have hcons : feed d ((f :: frames).flatMap Frame.bits)
        = feed (feed d f.bits) (frames.flatMap Frame.bits) := by
      rw [List.flatMap_cons, feed_append]
    simp only
    rw [hcons]
    refine ⟨h₁, ?_, ?_, ?_, ?_⟩
    · rw [h₂, hone, List.length_cons]
      simp only
      omega
    · rw [h₃, hone, List.length_cons]
      simp only
      omega
    · rw [h₄, hone]
      simp
    · rw [h₅, hone]
      cases frames with
      | nil => rfl
      | cons g gs => simp [List.getLast?_cons]

/-- A reset decoder undoes the framing: of the frames fed to it one after another each passes
`calc_crc` once and is emitted with its payload's bits, octet by octet with the most significant bit
first, and after each the decoder is back in the search. -/
theorem decoder_undoes_framing (d : AisDecoder) (frames : List Frame) (f : Frame) :
    let d₁ := feed (resetAll d) (frames.flatMap Frame.bits)
    let d₂ := feed d₁ f.bits
    Searching d₁ ∧ d₁.dg_crcok = d.dg_crcok + frames.length ∧
      d₁.emitted = d.emitted ++ frames.map (fun f => (8 * f.payload.length, f.received)) ∧
      Searching d₂ ∧ d₂.state = .skurr ∧
      d₂.dg_crctry = d₁.dg_crctry + 1 ∧ d₂.dg_crcok = d₁.dg_crcok + 1 ∧
      d₂.emitted = d₁.emitted ++ [(8 * f.payload.length, f.received)] ∧
      d₂.rbuffer = f.received ∧
      d₂.rbuffer.take (8 * f.payload.length) = f.payload.flatMap msbBits := by
  intro d₁ d₂
  obtain ⟨hs, -, hok, hem, -⟩ := feed_frames (resetAll d) rfl frames
  have hone : d₂ = _ := feed_frame d₁ hs f
  have hs₂ : Searching d₂ := searching_feed_frame d₁ hs f
  have hbits : (f.payload.flatMap msbBits).length = 8 * f.payload.length := by
    rw [List.length_flatMap]
    simp [msbBits, Nat.mul_comm]
  have hrec : d₂.rbuffer = f.received := by rw [hone]
  refine ⟨hs, hok, hem, hs₂, ?_, ?_, ?_, ?_, hrec, ?_⟩
  · rw [← hs₂]
    rfl
  · rw [hone]
  · rw [hone]
  · rw [hone]
  · rw [hrec, Frame.received, ← hbits, List.take_left]

end Bewe.Ais

import Bewe.Elrs.SyncPacket

/-!
# What the check of a packet protects

A packet of either size that is completed with the check that was generated for its body, as
`_make_std` and `test_full_round_trip` of `test_crc.py` complete it. It validates; the check tells the
lower bits of its seed, in which the nonce is, so it validates for no other nonce (`nonce_valid_iff`);
and a burst of errors in the bytes behind the first one changes the check that is calculated, but not
the one that was sent (`Crc2Byte.calcCrc_burst`). `crc_protects` puts the three together.
-/

namespace Bewe.Elrs

open Lib

/-! ## Bodies and packets -/

/-- The first 7 bytes of a standard packet, with `crcHigh` zero. -/
structure StdBody where
  bytes : List UInt8
  length_eq : bytes.length = OTA4_CRC_CALC_LEN
  crcHigh_eq : byteAt bytes 0 >>> 2 = 0

instance : Inhabited StdBody := ⟨⟨List.replicate 7 0, rfl, rfl⟩⟩

/-- The first 11 bytes of a full packet. -/
structure FullBody where
  bytes : List UInt8
  length_eq : bytes.length = OTA8_CRC_CALC_LEN

instance : Inhabited FullBody := ⟨⟨List.replicate 11 0, rfl⟩⟩

/-- `(body7[0] & 0b11) | (ch << 2)`. -/
def firstByte (b : UInt8) (ch : ℕ) : UInt8 := (b &&& (0b11 : UInt8)) ||| UInt8.ofNat (ch <<< 2)

/-- `_make_std`. -/
def makeStd (body7 : List UInt8) (crc_init nonce : ℕ) : List UInt8 :=
  let crc := generateStd body7 crc_init nonce
  body7.modify 0 (firstByte · crc.1) ++ [UInt8.ofNat crc.2]

/-- `pkt = body + bytes([crc & 0xFF, (crc >> 8) & 0xFF])`. -/
def makeFull (body11 : List UInt8) (crc_init nonce : ℕ) : List UInt8 :=
  let crc := generateFull body11 crc_init nonce
  body11 ++ [UInt8.ofNat (crc &&& 0xFF), UInt8.ofNat ((crc >>> 8) &&& 0xFF)]

/-- What the check of `width` bits over `len` bytes is for: the packet validates with its initialiser
and nonce; of all nonces a packet other than a SYNC packet validates for those alone that have the
same low byte; and it does not validate any more when some bits of the bytes from the second to the
last of the body are wrong that lie among `width` neighbouring ones. -/
structure Protected (validate : List UInt8 → ℕ → ℕ → Except Raised Bool) (width len : ℕ)
    (pkt : List UInt8) (crc_init nonce : ℕ) : Prop where
  validates : validate pkt crc_init nonce = .ok true
  only_nonce : byteAt pkt 0 &&& 0b11 ≠ PACKET_TYPE_SYNC →
    ∀ nonce', validate pkt crc_init nonce' = .ok (decide (nonce' &&& 0xFF = nonce &&& 0xFF))
  detects : ∀ e, e.length = pkt.length → IsBurst width e → (∃ j, getBit e j = true) →
    (∀ j, getBit e j = true → 8 ≤ j ∧ j < 8 * len) →
      validate (xorBytes pkt e) crc_init nonce = .ok false

/-! ## Seeds -/

/-- The type of a packet is all that its seed needs of it. -/
theorem checkSeed_congr {pkt pkt' : List UInt8}
    (h : byteAt pkt 0 &&& 0b11 = byteAt pkt' 0 &&& 0b11) (crc_init nonce : ℕ) :
    checkSeed pkt crc_init nonce = checkSeed pkt' crc_init nonce := by
  unfold checkSeed
  rw [h]

theorem checkSeed_mod_iff {pkt : List UInt8} (hsync : byteAt pkt 0 &&& 0b11 ≠ PACKET_TYPE_SYNC)
    {k : ℕ} (h8 : 8 ≤ k) (h16 : k ≤ 16) (crc_init nonce nonce' : ℕ) :
    checkSeed pkt crc_init nonce' % 2 ^ k = checkSeed pkt crc_init nonce % 2 ^ k ↔
      nonce' &&& 0xFF = nonce &&& 0xFF := by
  have hseed : ∀ m, checkSeed pkt crc_init m % 2 ^ k = crc_init % 2 ^ k ^^^ (m &&& 0xFF) := by
    intro m
    have hlt : m &&& 0xFF < 2 ^ k :=
      lt_of_le_of_lt Nat.and_le_right (lt_of_lt_of_le (by decide) (Nat.pow_le_pow_right (by decide) h8))
    unfold checkSeed nonceValidator
    rw [if_neg hsync, show (0xFFFF : ℕ) = 2 ^ 16 - 1 from rfl, Nat.and_two_pow_sub_one_eq_mod,
      Nat.mod_mod_of_dvd _ (Nat.pow_dvd_pow 2 h16), Nat.xor_mod_two_pow, Nat.mod_eq_of_lt hlt]
  rw [hseed, hseed, Nat.xor_right_inj]

/-- The check that was generated with a nonce is calculated with those alone that have the same low
byte. -/
theorem nonce_valid_iff (c : Crc2Byte) (hpoly : c.poly % 2 = 1) {pkt : List UInt8}
    (hsync : byteAt pkt 0 &&& 0b11 ≠ PACKET_TYPE_SYNC) (data : List UInt8)
    (len crc_init nonce nonce' : ℕ) :
    c.calcCrc data len (checkSeed pkt crc_init nonce) =
        c.calcCrc data len (checkSeed pkt crc_init nonce') ↔
      nonce' &&& 0xFF = nonce &&& 0xFF := by
  rw [c.calcCrc_inj hpoly, eq_comm]
  exact checkSeed_mod_iff hsync c.eight_le c.le_sixteen crc_init nonce nonce'

/-! ## Errors -/

theorem byteAt_xorBytes {a e : List UInt8} (hlen : a.length = e.length) {i : ℕ}
    (he : e.getD i 0 = 0) : byteAt (xorBytes a e) i = byteAt a i := by
  unfold byteAt xorBytes
  rw [List.getD_eq_getElem?_getD, List.getElem?_zipWith]
  rcases Nat.lt_or_ge i a.length with hi | hi
  · rw [List.getD_eq_getElem _ _ (hlen ▸ hi)] at he
    rw [List.getElem?_eq_getElem hi, List.getElem?_eq_getElem (hlen ▸ hi), he,
      List.getD_eq_getElem _ _ hi]
    exact congrArg UInt8.toNat (UInt8.xor_zero)
  · rw [List.getElem?_eq_none hi, List.getD_eq_default _ _ hi]
    rfl

theorem byte_clear {e : List UInt8} {i : ℕ} (h : ∀ k < 8, getBit e (8 * i + k) ≠ true) :
    e.getD i 0 = 0 := by
  refine UInt8.toNat_inj.1 (Nat.eq_of_testBit_eq fun k => ?_)
  rcases Nat.lt_or_ge k 8 with hk | hk
  · have hbit := h (7 - k) (by omega)
    rw [getBit_eq_testBit, show (8 * i + (7 - k)) / 8 = i by omega,
      show 7 - (8 * i + (7 - k)) % 8 = k by omega] at hbit
    rw [Bool.eq_false_iff.2 hbit, UInt8.toNat_zero, Nat.zero_testBit]
  · have hpow : 2 ^ 8 ≤ 2 ^ k := Nat.pow_le_pow_right (by norm_num) hk
    rw [Nat.testBit_lt_two_pow (lt_of_lt_of_le (UInt8.toNat_lt _) hpow), UInt8.toNat_zero,
      Nat.zero_testBit]

/-- Errors in the bytes from the second to the last of the body leave the other bytes. -/
theorem clear_outside {e : List UInt8} {len : ℕ}
    (h : ∀ j, getBit e j = true → 8 ≤ j ∧ j < 8 * len) {i : ℕ} (hi : i = 0 ∨ len ≤ i) :
    e.getD i 0 = 0 := by
  refine byte_clear fun k hk hbit => ?_
  obtain ⟨hlo, hhi⟩ := h _ hbit
  omega

/-! ## Packets that validate -/

/-- How a packet of either size is checked: the check that was sent, against the one over the bytes of
the body. Neither the check that was sent nor the type is in the bytes from the second to the last of
the body. -/
structure ChecksBy (c : Crc2Byte) (size len : ℕ)
    (validate : List UInt8 → ℕ → ℕ → Except Raised Bool) (inCrc : List UInt8 → ℕ)
    (body : List UInt8 → List UInt8) : Prop where
  validate_eq : ∀ pkt, pkt.length = size → ∀ crc_init nonce, validate pkt crc_init nonce =
    .ok (decide (inCrc pkt = c.calcCrc (body pkt) len (checkSeed pkt crc_init nonce)))
  inCrc_eq : ∀ pkt e : List UInt8, pkt.length = e.length →
    (∀ i, i = 0 ∨ len ≤ i → e.getD i 0 = 0) → inCrc (xorBytes pkt e) = inCrc pkt
  body_eq : ∀ pkt e : List UInt8, pkt.length = e.length → e.getD 0 0 = 0 →
    body (xorBytes pkt e) = xorBytes (body pkt) e
  length_body : ∀ pkt, (body pkt).length = pkt.length

/-- A packet that validates is protected by its check. -/
theorem ChecksBy.protected {c : Crc2Byte} {size len : ℕ}
    {validate : List UInt8 → ℕ → ℕ → Except Raised Bool} {inCrc : List UInt8 → ℕ}
    {body : List UInt8 → List UInt8} (h : ChecksBy c size len validate inCrc body)
    (hpoly : c.poly % 2 = 1) {pkt : List UInt8} (hsize : pkt.length = size) {crc_init nonce : ℕ}
    (hvalid : validate pkt crc_init nonce = .ok true) :
    Protected validate c.bits len pkt crc_init nonce := by
  have hsent : inCrc pkt = c.calcCrc (body pkt) len (checkSeed pkt crc_init nonce) := by
    rw [h.validate_eq pkt hsize] at hvalid
    exact of_decide_eq_true (Except.ok.inj hvalid)
  refine ⟨hvalid, fun hsync nonce' => ?_, fun e hlen hburst hset hwithin => ?_⟩
  · rw [h.validate_eq pkt hsize, hsent]
    exact congrArg Except.ok (decide_eq_decide.2 (nonce_valid_iff c hpoly hsync _ _ _ _ _))
  · -- the check that was sent and the seed are as they were, the one that is calculated is not
    have hclear : ∀ i, i = 0 ∨ len ≤ i → e.getD i 0 = 0 := fun i hi => clear_outside hwithin hi
    have hfirst : byteAt (xorBytes pkt e) 0 = byteAt pkt 0 :=
      byteAt_xorBytes hlen.symm (hclear 0 (Or.inl rfl))
    have hseed : checkSeed (xorBytes pkt e) crc_init nonce = checkSeed pkt crc_init nonce :=
      checkSeed_congr (by rw [hfirst]) crc_init nonce
    have hxlen : (xorBytes pkt e).length = size := by
      unfold xorBytes
      rw [List.length_zipWith, hlen, Nat.min_self, hsize]
    have hcalc := c.calcCrc_burst hpoly ((h.length_body pkt).trans hlen.symm) hburst hset
      (fun j hj => (hwithin j hj).2) (checkSeed pkt crc_init nonce)
    rw [h.validate_eq _ hxlen, h.inCrc_eq pkt e hlen.symm hclear,
      h.body_eq pkt e hlen.symm (hclear 0 (Or.inl rfl)), hseed, hsent]
    exact congrArg Except.ok (decide_eq_false fun heq => hcalc heq.symm)

theorem checksBy_std : ChecksBy crc14 OTA4_PACKET_SIZE OTA4_CRC_CALC_LEN validateStd
    (fun pkt => (byteAt pkt 0 >>> 2) <<< 8 + byteAt pkt 7) (fun pkt => pkt.modify 0 (· &&& 0b11)) where
  validate_eq pkt hsize crc_init nonce := by
    unfold validateStd
    rw [if_neg (not_not.2 hsize)]
    rfl
  inCrc_eq pkt e hlen he := by
    rw [byteAt_xorBytes hlen (he 0 (Or.inl rfl)), byteAt_xorBytes hlen (he 7 (Or.inr le_rfl))]
  body_eq pkt e hlen he := by
    cases pkt with
    | nil =>
      obtain rfl : e = [] := List.eq_nil_of_length_eq_zero hlen.symm
      rfl
    | cons b pkt =>
      cases e with
      | nil => cases hlen
      | cons x e =>
        obtain rfl : x = 0 := he
        unfold xorBytes
        rw [List.zipWith_cons_cons, List.modify_zero_cons, List.modify_zero_cons,
          List.zipWith_cons_cons, UInt8.xor_zero, UInt8.xor_zero]
  length_body pkt := List.length_modify _ _ _

theorem checksBy_full : ChecksBy crc16 OTA8_PACKET_SIZE OTA8_CRC_CALC_LEN validateFull
    (fun pkt => byteAt pkt 11 ||| (byteAt pkt 12 <<< 8)) id where
  validate_eq pkt hsize crc_init nonce := by
    unfold validateFull
    rw [if_neg (not_not.2 hsize)]
    rfl
  inCrc_eq pkt e hlen he := by
    rw [byteAt_xorBytes hlen (he 11 (Or.inr le_rfl)), byteAt_xorBytes hlen (he 12 (Or.inr (by decide)))]
  body_eq pkt e hlen he := rfl
  length_body pkt := rfl

/-! ## Packets that are completed -/

/-- The first byte of a standard packet: the type and the upper bits of the check. -/
theorem firstByte_parts {b : UInt8} (hb : b.toNat >>> 2 = 0) {ch : ℕ} (hlt : ch < 64) :
    (firstByte b ch).toNat >>> 2 = ch ∧ firstByte b ch &&& 0b11 = b := by
  have hsmall : b.toNat < 4 := by
    rw [Nat.shiftRight_eq_div_pow] at hb
    omega
  obtain ⟨k, hk, rfl⟩ : ∃ k < 4, b = UInt8.ofNat k := ⟨b.toNat, hsmall, UInt8.ofNat_toNat.symm⟩
  clear hb hsmall
  revert k ch
  decide

theorem validates_makeStd (body : StdBody) (crc_init nonce : ℕ) :
    (makeStd body.bytes crc_init nonce).length = OTA4_PACKET_SIZE ∧
      validateStd (makeStd body.bytes crc_init nonce) crc_init nonce = .ok true := by
  obtain ⟨bytes, hlen, hhigh⟩ := body
  cases bytes with
  | nil => exact absurd hlen (by decide)
  | cons b rest =>
    have hrest : rest.length = 6 := Nat.succ.inj hlen
    have hlt : crc14.calcCrc (b :: rest) OTA4_CRC_CALC_LEN
        (checkSeed (b :: rest) crc_init nonce) < 2 ^ 14 := crc14.calcCrc_lt _ _ _
    generalize hcrc : crc14.calcCrc (b :: rest) OTA4_CRC_CALC_LEN
      (checkSeed (b :: rest) crc_init nonce) = crc at hlt
    obtain ⟨hquot, htype⟩ := firstByte_parts (b := b) hhigh (crcHigh_lt crc)
    have hpkt : makeStd (b :: rest) crc_init nonce =
        firstByte b ((crc >>> 8) &&& 0x3F) :: (rest ++ [UInt8.ofNat (crc &&& 0xFF)]) := by
      unfold makeStd generateStd
      rw [hcrc]
      rfl
    rw [hpkt]
    generalize firstByte b ((crc >>> 8) &&& 0x3F) = first at hquot htype ⊢
    have hsize : (first :: (rest ++ [UInt8.ofNat (crc &&& 0xFF)])).length = OTA4_PACKET_SIZE := by
      simp [hrest, OTA4_PACKET_SIZE]
    have hlast : byteAt (first :: (rest ++ [UInt8.ofNat (crc &&& 0xFF)])) 7 =
        (UInt8.ofNat (crc &&& 0xFF)).toNat := by
      unfold byteAt
      rw [List.getD_cons_succ, List.getD_append_right _ _ _ _ hrest.le, hrest]
      rfl
    -- the type of the packet is that of the body
    have hseed : checkSeed (first :: (rest ++ [UInt8.ofNat (crc &&& 0xFF)])) crc_init nonce =
        checkSeed (b :: rest) crc_init nonce := by
      refine checkSeed_congr ?_ crc_init nonce
      have hand : first.toNat &&& 0b11 = b.toNat := by
        rw [← htype, UInt8.toNat_and]
        rfl
      calc first.toNat &&& 0b11
        _ = first.toNat &&& 0b11 &&& 0b11 := by rw [Nat.and_assoc]; rfl
        _ = b.toNat &&& 0b11 := by rw [hand]
    have hcalc : crc14.calcCrc (b :: (rest ++ [UInt8.ofNat (crc &&& 0xFF)])) OTA4_CRC_CALC_LEN
        (checkSeed (b :: rest) crc_init nonce) = crc := by
      rw [← List.cons_append, crc14.calcCrc_append _ hlen, hcrc]
    refine ⟨hsize, ?_⟩
    rw [checksBy_std.validate_eq _ hsize]
    refine congrArg Except.ok (decide_eq_true ?_)
    rw [hseed, hlast, List.modify_zero_cons, htype, hcalc]
    exact (congrArg (fun q => q <<< 8 + _) hquot).trans (parts_std hlt)

theorem validates_makeFull (body : FullBody) (crc_init nonce : ℕ) :
    (makeFull body.bytes crc_init nonce).length = OTA8_PACKET_SIZE ∧
      validateFull (makeFull body.bytes crc_init nonce) crc_init nonce = .ok true := by
  obtain ⟨bytes, hlen⟩ := body
  have hlt : crc16.calcCrc bytes OTA8_CRC_CALC_LEN (checkSeed bytes crc_init nonce) < 2 ^ 16 :=
    crc16.calcCrc_lt _ _ _
  unfold makeFull generateFull
  dsimp only
  generalize hcrc : crc16.calcCrc bytes OTA8_CRC_CALC_LEN (checkSeed bytes crc_init nonce) = crc at hlt ⊢
  have h11 : bytes.length = 11 := hlen
  have hbyte : ∀ x y : UInt8, byteAt (bytes ++ [x, y]) 11 = x.toNat ∧
      byteAt (bytes ++ [x, y]) 12 = y.toNat := fun x y => by
    unfold byteAt
    rw [List.getD_append_right _ _ _ _ h11.le, List.getD_append_right _ _ _ _ (by omega), h11]
    exact ⟨rfl, rfl⟩
  have hsize : (bytes ++ [UInt8.ofNat (crc &&& 0xFF),
      UInt8.ofNat ((crc >>> 8) &&& 0xFF)]).length = OTA8_PACKET_SIZE := by
    simp [h11, OTA8_PACKET_SIZE]
  have hseed : ∀ more, checkSeed (bytes ++ more) crc_init nonce = checkSeed bytes crc_init nonce := by
    intro more
    refine checkSeed_congr ?_ crc_init nonce
    unfold byteAt
    rw [List.getD_append _ _ _ _ (by omega)]
  refine ⟨hsize, ?_⟩
  rw [checksBy_full.validate_eq _ hsize]
  refine congrArg Except.ok (decide_eq_true ?_)
  rw [(hbyte _ _).1, (hbyte _ _).2, parts_full hlt, hseed, id, crc16.calcCrc_append _ hlen, hcrc]

/-- Whatever the body, the initialiser and the nonce are, a packet of either size that is completed
with the check that is generated validates, for no other nonce if it is no SYNC packet, and not any
more after an error among 14 or 16 neighbouring bits of the bytes of the body behind the first. -/
theorem crc_protects (crc_init nonce : ℕ) :
    (∀ body : StdBody, Protected validateStd 14 OTA4_CRC_CALC_LEN
      (makeStd body.bytes crc_init nonce) crc_init nonce) ∧
    ∀ body : FullBody, Protected validateFull 16 OTA8_CRC_CALC_LEN
      (makeFull body.bytes crc_init nonce) crc_init nonce := by
  refine ⟨fun body => ?_, fun body => ?_⟩
  · obtain ⟨hsize, hvalid⟩ := validates_makeStd body crc_init nonce
    exact checksBy_std.protected rfl hsize hvalid
  · obtain ⟨hsize, hvalid⟩ := validates_makeFull body crc_init nonce
    exact checksBy_full.protected rfl hsize hvalid

end Bewe.Elrs

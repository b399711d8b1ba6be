import Bewe.Elrs.Crc
import Bewe.Elrs.Fhss

/-!
# SYNC packets

`sync_packet.py` of the ELRS analysis, with the checks of `crc.py` and the layout of `packet.py`. A
SYNC packet says the last two bytes of the UID; of the last one six bits may be mixed with a model
id, and the UID is in the seed of the check. The packet is validated with each of the 64 mixtures,
and at most one of them validates, because the check tells the lower bits of its seed
(`delta_unique`). So what was built is what is extracted (`extract_build`).
-/

namespace Bewe.Elrs

/-- What the functions raise. -/
inductive Raised
  | IndexError
  | ValueError (text : String)
  deriving DecidableEq

/-! ## Layout -/

/-- `PACKET_TYPE_SYNC`. -/
def PACKET_TYPE_SYNC : ℕ := 0b10

/-- `MODELMATCH_MASK`. -/
def MODELMATCH_MASK : ℕ := 0x3F

/-- `OTA4_PACKET_SIZE`, `OTA8_PACKET_SIZE`. -/
def OTA4_PACKET_SIZE : ℕ := 8
@[inherit_doc OTA4_PACKET_SIZE] def OTA8_PACKET_SIZE : ℕ := 13

/-- `OTA4_CRC_CALC_LEN`, `OTA8_CRC_CALC_LEN`. -/
def OTA4_CRC_CALC_LEN : ℕ := 7
@[inherit_doc OTA4_CRC_CALC_LEN] def OTA8_CRC_CALC_LEN : ℕ := 11

/-- `packet_type`. -/
def packetType : List UInt8 → Except Raised ℕ
  | [] => .error .IndexError
  | b :: _ => .ok (b.toNat &&& 0b11)

/-- `pkt[i]` of a packet whose length has been looked at. -/
def byteAt (pkt : List UInt8) (i : ℕ) : ℕ := (pkt.getD i 0).toNat

/-- `SyncInfo`. -/
structure SyncInfo where
  fhss_index : ℕ
  nonce : ℕ
  rf_rate_enum : ℕ
  switch_enc_mode : ℕ
  new_tlm_ratio : ℕ
  gemini_mode : ℕ
  ota_protocol : ℕ
  uid4 : ℕ
  uid5_raw : ℕ

/-- `parse_sync`. -/
def parseSync (pkt : List UInt8) : Except Raised SyncInfo := do
  if (← packetType pkt) ≠ PACKET_TYPE_SYNC then throw (.ValueError "not a SYNC packet")
  if pkt.length ≠ 8 ∧ pkt.length ≠ 13 then throw (.ValueError "packet must be 8 or 13 bytes")
  let bits := byteAt pkt 4
  return {
    fhss_index := byteAt pkt 1
    nonce := byteAt pkt 2
    rf_rate_enum := byteAt pkt 3
    switch_enc_mode := bits &&& 0x01
    new_tlm_ratio := (bits >>> 1) &&& 0x07
    gemini_mode := (bits >>> 4) &&& 0x01
    ota_protocol := (bits >>> 5) &&& 0x03
    uid4 := byteAt pkt 5
    uid5_raw := byteAt pkt 6 }

/-! ## Checks -/

/-- `_crc14`, `_crc16`. -/
def crc14 : Crc2Byte := ⟨14, 0x2E57, by decide, by decide⟩
@[inherit_doc crc14] def crc16 : Crc2Byte := ⟨16, 0x3D65, by decide, by decide⟩

/-- `crc_initializer`. -/
def crcInitializer (uid4 uid5 : ℕ) : ℕ :=
  ((uid4 <<< 8 ||| uid5) ^^^ (OTA_VERSION_ID <<< 8)) &&& 0xFFFF

/-- `_nonce_validator`. -/
def nonceValidator (pkt_type nonce : ℕ) : ℕ :=
  if pkt_type = PACKET_TYPE_SYNC then 0 else nonce &&& 0xFF

/-- The seed of a check. -/
def checkSeed (pkt : List UInt8) (crc_init nonce : ℕ) : ℕ :=
  (crc_init ^^^ nonceValidator (byteAt pkt 0 &&& 0b11) nonce) &&& 0xFFFF

/-- `validate_std`. -/
def validateStd (pkt : List UInt8) (crc_init nonce : ℕ) : Except Raised Bool :=
  if pkt.length ≠ OTA4_PACKET_SIZE then .error (.ValueError "std packet must be 8 bytes")
  else
    let in_crc := (byteAt pkt 0 >>> 2) <<< 8 + byteAt pkt 7
    let body := pkt.modify 0 (· &&& 0b11)
    .ok (in_crc == crc14.calcCrc body OTA4_CRC_CALC_LEN (checkSeed pkt crc_init nonce))

/-- `validate_full`. -/
def validateFull (pkt : List UInt8) (crc_init nonce : ℕ) : Except Raised Bool :=
  if pkt.length ≠ OTA8_PACKET_SIZE then .error (.ValueError "full packet must be 13 bytes")
  else
    let in_crc := byteAt pkt 11 ||| (byteAt pkt 12 <<< 8)
    .ok (in_crc == crc16.calcCrc pkt OTA8_CRC_CALC_LEN (checkSeed pkt crc_init nonce))

/-- `generate_std`. -/
def generateStd (body7 : List UInt8) (crc_init nonce : ℕ) : ℕ × ℕ :=
  let crc := crc14.calcCrc body7 OTA4_CRC_CALC_LEN (checkSeed body7 crc_init nonce)
  ((crc >>> 8) &&& 0x3F, crc &&& 0xFF)

/-- `generate_full`. -/
def generateFull (body11 : List UInt8) (crc_init nonce : ℕ) : ℕ :=
  crc16.calcCrc body11 OTA8_CRC_CALC_LEN (checkSeed body11 crc_init nonce)

/-! ## Extraction and construction -/

/-- `SyncExtract`. -/
structure SyncExtract where
  uid4 : ℕ
  uid5 : ℕ
  fhss_index : ℕ
  nonce : ℕ
  rf_rate_enum : ℕ
  model_delta : ℕ
  crc_ok : Bool
  deriving DecidableEq

/-- `real_uid5`, from the byte that was sent and the mixture. -/
def realUid5 (tx_uid5 delta : ℕ) : ℕ := (tx_uid5 &&& 0xC0) ||| ((tx_uid5 &&& 0x3F) ^^^ delta)

/-- The check of a packet of either size. -/
def validate (pkt : List UInt8) (crc_init nonce : ℕ) : Except Raised Bool :=
  if pkt.length = 8 then validateStd pkt crc_init nonce else validateFull pkt crc_init nonce

/-- The loop over the mixtures. -/
def tryDeltas (pkt : List UInt8) (info : SyncInfo) : List ℕ → Except Raised (Option SyncExtract)
  | [] => .ok none
  | delta :: deltas => do
    let real_uid5 := realUid5 info.uid5_raw delta
    if ← validate pkt (crcInitializer info.uid4 real_uid5) 0 then
      return some {
        uid4 := info.uid4
        uid5 := real_uid5
        fhss_index := info.fhss_index
        nonce := info.nonce
        rf_rate_enum := info.rf_rate_enum
        model_delta := delta
        crc_ok := true }
    else tryDeltas pkt info deltas

/-- `extract_uid_from_sync`. -/
def extractUidFromSync (pkt : List UInt8) : Except Raised (Option SyncExtract) := do
  if (← packetType pkt) ≠ PACKET_TYPE_SYNC then return none
  if pkt.length ≠ 8 ∧ pkt.length ≠ 13 then return none
  tryDeltas pkt (← parseSync pkt) (List.range 64)

/-- `delta` of a packet that is built for a model. -/
def modelDelta (model_id : UInt8) : UInt8 := ~~~model_id &&& UInt8.ofNat MODELMATCH_MASK

/-- `build_sync_packet`. -/
def buildSyncPacket (uid4 uid5 fhss_index nonce rf_rate_enum model_id : UInt8) (full_res : Bool) :
    List UInt8 :=
  let tx_uid5 := (uid5 &&& 0xC0) ||| ((uid5 &&& 0x3F) ^^^ modelDelta model_id)
  let crc_init := crcInitializer uid4.toNat uid5.toNat
  let body := [UInt8.ofNat PACKET_TYPE_SYNC, fhss_index, nonce, rf_rate_enum, 0, uid4, tx_uid5]
  if full_res then
    let body := body ++ [0, 0, 0, 0]
    let crc := generateFull body crc_init 0
    body ++ [UInt8.ofNat (crc &&& 0xFF), UInt8.ofNat ((crc >>> 8) &&& 0xFF)]
  else
    let crc := generateStd body crc_init 0
    body.modify 0 (· ||| UInt8.ofNat (crc.1 <<< 2)) ++ [UInt8.ofNat crc.2]

/-! ## One mixture at most -/

theorem checkSeed_zero (pkt : List UInt8) (crc_init : ℕ) :
    checkSeed pkt crc_init 0 = crc_init &&& 0xFFFF := by
  unfold checkSeed nonceValidator
  split_ifs
  · rw [Nat.xor_zero]
  · rw [Nat.zero_and, Nat.xor_zero]

theorem exists_validate {pkt : List UInt8} (hlen : pkt.length = 8 ∨ pkt.length = 13) (crc_init : ℕ) :
    ∃ ok, validate pkt crc_init 0 = .ok ok := by
  unfold validate
  rcases hlen with hlen | hlen
  · rw [if_pos hlen, validateStd, if_neg (by rw [hlen]; decide)]
    exact ⟨_, rfl⟩
  · rw [if_neg (by omega), validateFull, if_neg (by rw [hlen]; decide)]
    exact ⟨_, rfl⟩

theorem validate_inj {pkt : List UInt8} {s s' : ℕ} (h : validate pkt s 0 = .ok true)
    (h' : validate pkt s' 0 = .ok true) : s % 2 ^ 14 = s' % 2 ^ 14 := by
  have hmod : ∀ n : ℕ, (n &&& 0xFFFF) % 2 ^ 14 = n % 2 ^ 14 := fun n => by
    rw [show n &&& 0xFFFF = n % 2 ^ 16 from Nat.and_two_pow_sub_one_eq_mod n 16]
    omega
  unfold validate at h h'
  split_ifs at h h'
  · unfold validateStd at h h'
    split_ifs at h h'
    simp only [Except.ok.injEq, beq_iff_eq, checkSeed_zero] at h h'
    have hseed := (crc14.calcCrc_inj rfl _ _).1 (h.symm.trans h')
    rw [← hmod s, ← hmod s']
    exact hseed
  · unfold validateFull at h h'
    split_ifs at h h'
    simp only [Except.ok.injEq, beq_iff_eq, checkSeed_zero] at h h'
    have hseed : (s &&& 0xFFFF) % 2 ^ 16 = (s' &&& 0xFFFF) % 2 ^ 16 :=
      (crc16.calcCrc_inj rfl _ _).1 (h.symm.trans h')
    rw [← hmod s, ← hmod s']
    omega

theorem crcInitializer_mod (uid4 tx_uid5 : ℕ) {delta : ℕ} (hdelta : delta < 64) :
    crcInitializer uid4 (realUid5 tx_uid5 delta) % 2 ^ 6 = tx_uid5 % 2 ^ 6 ^^^ delta := by
  have hC0 : ∀ i < 6, (0xC0 : ℕ).testBit i = false := by decide
  have h3F : ∀ i, (0x3F : ℕ).testBit i = decide (i < 6) := Nat.testBit_two_pow_sub_one 6
  have hver : ∀ i < 6, (OTA_VERSION_ID <<< 8).testBit i = false := by decide
  have hmask : ∀ i < 6, (0xFFFF : ℕ).testBit i = true := by decide
  refine Nat.eq_of_testBit_eq fun i => ?_
  rw [Nat.testBit_mod_two_pow, Nat.testBit_xor, Nat.testBit_mod_two_pow]
  by_cases hi : i < 6
  · simp only [crcInitializer, realUid5, Nat.testBit_and, Nat.testBit_xor, Nat.testBit_or,
      Nat.testBit_shiftLeft, hC0 i hi, h3F, hver i hi, hmask i hi, hi,
      show ¬ i ≥ 8 by omega, decide_true, decide_false, Bool.true_and, Bool.and_true, Bool.false_and,
      Bool.and_false, Bool.false_or, Bool.xor_false]
  · have hzero : delta.testBit i = false :=
      Nat.testBit_eq_false_of_lt (lt_of_lt_of_le (show delta < 2 ^ 6 from hdelta)
        (Nat.pow_le_pow_right (by decide) (show 6 ≤ i by omega)))
    rw [decide_eq_false hi, hzero]
    rfl

/-- The packet validates with a mixture. -/
def Validates (pkt : List UInt8) (delta : ℕ) : Prop :=
  validate pkt (crcInitializer (byteAt pkt 5) (realUid5 (byteAt pkt 6) delta)) 0 = .ok true

theorem delta_unique {pkt : List UInt8} {d d' : ℕ} (hd : d < 64) (hd' : d' < 64)
    (h : Validates pkt d) (h' : Validates pkt d') : d = d' := by
  have hseed := validate_inj h h'
  have hlow := crcInitializer_mod (byteAt pkt 5) (byteAt pkt 6) hd
  have hlow' := crcInitializer_mod (byteAt pkt 5) (byteAt pkt 6) hd'
  have hsame : byteAt pkt 6 % 2 ^ 6 ^^^ d = byteAt pkt 6 % 2 ^ 6 ^^^ d' := by
    rw [← hlow, ← hlow']
    omega
  exact Nat.xor_right_injective hsame

/-! ## Extraction -/

/-- What is extracted with a mixture. -/
def extractOf (pkt : List UInt8) (delta : ℕ) : SyncExtract where
  uid4 := byteAt pkt 5
  uid5 := realUid5 (byteAt pkt 6) delta
  fhss_index := byteAt pkt 1
  nonce := byteAt pkt 2
  rf_rate_enum := byteAt pkt 3
  model_delta := delta
  crc_ok := true

theorem exists_parseSync {pkt : List UInt8} (hsync : packetType pkt = .ok PACKET_TYPE_SYNC)
    (hlen : pkt.length = 8 ∨ pkt.length = 13) :
    ∃ info, parseSync pkt = .ok info ∧ info.uid4 = byteAt pkt 5 ∧ info.uid5_raw = byteAt pkt 6 ∧
      info.fhss_index = byteAt pkt 1 ∧ info.nonce = byteAt pkt 2 ∧
        info.rf_rate_enum = byteAt pkt 3 := by
  have hsize : ¬ (pkt.length ≠ 8 ∧ pkt.length ≠ 13) := by omega
  unfold parseSync
  rw [hsync]
  simp only [hsize, bind, Except.bind, ne_eq, not_true_eq_false, if_false]
  exact ⟨_, rfl, rfl, rfl, rfl, rfl, rfl⟩

theorem tryDeltas_spec {pkt : List UInt8} (hsync : packetType pkt = .ok PACKET_TYPE_SYNC)
    (hlen : pkt.length = 8 ∨ pkt.length = 13) {info : SyncInfo} (hinfo : parseSync pkt = .ok info)
    (deltas : List ℕ) :
    (tryDeltas pkt info deltas = .ok none ∧ ∀ d ∈ deltas, ¬ Validates pkt d) ∨
      ∃ d ∈ deltas, Validates pkt d ∧ tryDeltas pkt info deltas = .ok (some (extractOf pkt d)) := by
  obtain ⟨info', hinfo', huid4, huid5, hindex, hnonce, hrate⟩ := exists_parseSync hsync hlen
  obtain rfl : info' = info := Except.ok.inj (hinfo'.symm.trans hinfo)
  induction deltas with
  | nil => exact Or.inl ⟨rfl, fun d hd => absurd hd List.not_mem_nil⟩
  | cons d deltas ih =>
    obtain ⟨ok, hok⟩ := exists_validate hlen
      (crcInitializer info'.uid4 (realUid5 info'.uid5_raw d))
    have hval : Validates pkt d ↔ ok = true := by
      unfold Validates
      rw [← huid4, ← huid5, hok, Except.ok.injEq]
    cases ok with
    | true =>
      refine Or.inr ⟨d, List.mem_cons_self, hval.2 rfl, ?_⟩
      rw [tryDeltas, extractOf, ← huid4, ← huid5, ← hindex, ← hnonce, ← hrate]
      simp only [hok, bind, Except.bind, if_true]
      rfl
    | false =>
      have hnot : ¬ Validates pkt d := fun hv => Bool.false_ne_true (hval.1 hv)
      have hnext : tryDeltas pkt info' (d :: deltas) = tryDeltas pkt info' deltas := by
        rw [tryDeltas]
        simp only [hok, bind, Except.bind, Bool.false_eq_true, if_false]
      rw [hnext]
      rcases ih with ⟨hnone, hall⟩ | ⟨d', hd', hv, hsome⟩
      · exact Or.inl ⟨hnone, List.forall_mem_cons.2 ⟨hnot, hall⟩⟩
      · exact Or.inr ⟨d', List.mem_cons_of_mem _ hd', hv, hsome⟩

theorem extract_spec {pkt : List UInt8} (hsync : packetType pkt = .ok PACKET_TYPE_SYNC)
    (hlen : pkt.length = 8 ∨ pkt.length = 13) :
    (extractUidFromSync pkt = .ok none ∧ ∀ d < 64, ¬ Validates pkt d) ∨
      ∃ d < 64, Validates pkt d ∧ extractUidFromSync pkt = .ok (some (extractOf pkt d)) := by
  obtain ⟨info, hinfo, -⟩ := exists_parseSync hsync hlen
  have hsize : ¬ (pkt.length ≠ 8 ∧ pkt.length ≠ 13) := by omega
  have hloop : extractUidFromSync pkt = tryDeltas pkt info (List.range 64) := by
    unfold extractUidFromSync
    rw [hsync, hinfo]
    simp only [hsize, bind, Except.bind, ne_eq, not_true_eq_false, if_false]
  rw [hloop]
  simpa only [List.mem_range] using tryDeltas_spec hsync hlen hinfo (List.range 64)

theorem extract_of_validates {pkt : List UInt8} (hsync : packetType pkt = .ok PACKET_TYPE_SYNC)
    (hlen : pkt.length = 8 ∨ pkt.length = 13) {d : ℕ} (hd : d < 64) (hv : Validates pkt d) :
    extractUidFromSync pkt = .ok (some (extractOf pkt d)) := by
  rcases extract_spec hsync hlen with ⟨-, hall⟩ | ⟨d', hd', hv', hextract⟩
  · exact absurd hv (hall d hd)
  · rw [hextract, delta_unique hd hd' hv hv']

/-! ## What is built -/

theorem realUid5_tx (uid5 delta : UInt8) (hdelta : delta &&& 0xC0 = 0) :
    realUid5 ((uid5 &&& 0xC0) ||| ((uid5 &&& 0x3F) ^^^ delta)).toNat delta.toNat = uid5.toNat := by
  have hbits : ((((uid5 &&& 0xC0) ||| ((uid5 &&& 0x3F) ^^^ delta)) &&& 0xC0) |||
      ((((uid5 &&& 0xC0) ||| ((uid5 &&& 0x3F) ^^^ delta)) &&& 0x3F) ^^^ delta)) = uid5 := by
    have h3F : ∀ i < 8, (0x3F : UInt8).toBitVec.getLsbD i = !(0xC0 : UInt8).toBitVec.getLsbD i := by
      decide
    refine UInt8.toBitVec_inj.1 (BitVec.eq_of_getLsbD_eq fun i hi => ?_)
    have hdelta' := congrArg (fun b : UInt8 => b.toBitVec.getLsbD i) hdelta
    simp only [UInt8.toBitVec_and, UInt8.toBitVec_or, UInt8.toBitVec_xor, BitVec.getLsbD_and,
      BitVec.getLsbD_or, BitVec.getLsbD_xor, h3F i hi] at hdelta' ⊢
    revert hdelta'
    cases (0xC0 : UInt8).toBitVec.getLsbD i <;> cases delta.toBitVec.getLsbD i <;>
      cases uid5.toBitVec.getLsbD i <;> simp
  have hnat := congrArg UInt8.toNat hbits
  rw [UInt8.toNat_or, UInt8.toNat_xor, UInt8.toNat_and, UInt8.toNat_and] at hnat
  exact hnat

theorem modelDelta_and (model_id : UInt8) : modelDelta model_id &&& 0xC0 = 0 := by
  rw [modelDelta, UInt8.and_assoc, show UInt8.ofNat MODELMATCH_MASK &&& 0xC0 = 0 from rfl,
    UInt8.and_zero]

theorem modelDelta_lt (model_id : UInt8) : (modelDelta model_id).toNat < 64 := by
  rw [modelDelta, UInt8.toNat_and]
  exact lt_of_le_of_lt Nat.and_le_right (by decide)

theorem head_std {h : ℕ} (hlt : h < 64) :
    ((UInt8.ofNat PACKET_TYPE_SYNC ||| UInt8.ofNat (h <<< 2)).toNat >>> 2 = h) ∧
      (UInt8.ofNat PACKET_TYPE_SYNC ||| UInt8.ofNat (h <<< 2)) &&& 0b11 =
        UInt8.ofNat PACKET_TYPE_SYNC := by
  revert h
  decide

theorem crcHigh_lt (crc : ℕ) : (crc >>> 8) &&& 0x3F < 64 :=
  lt_of_le_of_lt Nat.and_le_right (by decide)

theorem parts_std {crc : ℕ} (hlt : crc < 2 ^ 14) :
    ((crc >>> 8) &&& 0x3F) <<< 8 + (UInt8.ofNat (crc &&& 0xFF)).toNat = crc := by
  have h3F : ∀ n : ℕ, n &&& 0x3F = n % 64 := fun n => Nat.and_two_pow_sub_one_eq_mod n 6
  have hFF : ∀ n : ℕ, n &&& 0xFF = n % 256 := fun n => Nat.and_two_pow_sub_one_eq_mod n 8
  rw [h3F, hFF, Nat.shiftRight_eq_div_pow, Nat.shiftLeft_eq, UInt8.toNat_ofNat', Nat.mod_mod]
  omega

theorem parts_full {crc : ℕ} (hlt : crc < 2 ^ 16) :
    (UInt8.ofNat (crc &&& 0xFF)).toNat ||| ((UInt8.ofNat ((crc >>> 8) &&& 0xFF)).toNat <<< 8) =
      crc := by
  have hFF : ∀ n : ℕ, n &&& 0xFF = n % 256 := fun n => Nat.and_two_pow_sub_one_eq_mod n 8
  have hlow : crc % 2 ^ 8 < 2 ^ 8 := Nat.mod_lt _ (by decide)
  rw [hFF, hFF, Nat.shiftRight_eq_div_pow, UInt8.toNat_ofNat', UInt8.toNat_ofNat', Nat.mod_mod,
    Nat.mod_mod, Nat.lor_comm, show crc % 256 = crc % 2 ^ 8 from rfl,
    ← Nat.shiftLeft_add_eq_or_of_lt hlow, Nat.shiftLeft_eq]
  omega

theorem validateStd_of (body : List UInt8) (hlen : body.length = 6) (crc_init crc : ℕ)
    (hcrc : crc = crc14.calcCrc (UInt8.ofNat PACKET_TYPE_SYNC :: body) 7 (crc_init &&& 0xFFFF)) :
    validateStd ((UInt8.ofNat PACKET_TYPE_SYNC ||| UInt8.ofNat (((crc >>> 8) &&& 0x3F) <<< 2)) ::
      (body ++ [UInt8.ofNat (crc &&& 0xFF)])) crc_init 0 = .ok true := by
  have hparts := parts_std (show crc < 2 ^ 14 from hcrc ▸ crc14.calcCrc_lt _ _ _)
  obtain ⟨hhigh, htype⟩ := head_std (crcHigh_lt crc)
  have hlast : byteAt ((UInt8.ofNat PACKET_TYPE_SYNC |||
      UInt8.ofNat (((crc >>> 8) &&& 0x3F) <<< 2)) :: (body ++ [UInt8.ofNat (crc &&& 0xFF)])) 7 =
        (UInt8.ofNat (crc &&& 0xFF)).toNat := by
    rw [byteAt, List.getD_cons_succ, List.getD_append_right _ _ _ _ hlen.le, hlen]
    rfl
  have hcalc : crc14.calcCrc (UInt8.ofNat PACKET_TYPE_SYNC :: (body ++ [UInt8.ofNat (crc &&& 0xFF)]))
      7 (crc_init &&& 0xFFFF) = crc := by
    rw [← List.cons_append, crc14.calcCrc_append _ (by simp [hlen]), ← hcrc]
  rw [validateStd, if_neg (by simp [hlen, OTA4_PACKET_SIZE])]
  refine congrArg Except.ok (beq_iff_eq.2 ?_)
  rw [checkSeed_zero, hlast, List.modify_zero_cons, htype, OTA4_CRC_CALC_LEN, hcalc, byteAt,
    List.getD_cons_zero, hhigh, hparts]

theorem validateFull_of (body : List UInt8) (hlen : body.length = 11) (crc_init crc : ℕ)
    (hcrc : crc = crc16.calcCrc body 11 (crc_init &&& 0xFFFF)) :
    validateFull (body ++ [UInt8.ofNat (crc &&& 0xFF), UInt8.ofNat ((crc >>> 8) &&& 0xFF)])
      crc_init 0 = .ok true := by
  have hparts := parts_full (show crc < 2 ^ 16 from hcrc ▸ crc16.calcCrc_lt _ _ _)
  have hbyte : ∀ x y : UInt8, byteAt (body ++ [x, y]) 11 = x.toNat ∧
      byteAt (body ++ [x, y]) 12 = y.toNat := fun x y => by
    rw [byteAt, byteAt, List.getD_append_right _ _ _ _ hlen.le,
      List.getD_append_right _ _ _ _ (by omega), hlen]
    exact ⟨rfl, rfl⟩
  rw [validateFull, if_neg (by simp [hlen, OTA8_PACKET_SIZE])]
  refine congrArg Except.ok (beq_iff_eq.2 ?_)
  rw [checkSeed_zero, (hbyte _ _).1, (hbyte _ _).2, hparts, OTA8_CRC_CALC_LEN,
    crc16.calcCrc_append _ hlen, ← hcrc]

section

variable (uid4 uid5 fhss_index nonce rf_rate_enum model_id : UInt8)

theorem length_build (full_res : Bool) :
    (buildSyncPacket uid4 uid5 fhss_index nonce rf_rate_enum model_id full_res).length =
      if full_res then 13 else 8 := by
  cases full_res <;> rfl

theorem packetType_build (full_res : Bool) :
    packetType (buildSyncPacket uid4 uid5 fhss_index nonce rf_rate_enum model_id full_res) =
      .ok PACKET_TYPE_SYNC := by
  cases full_res with
  | true => rfl
  | false =>
    exact congrArg Except.ok (congrArg UInt8.toNat (head_std (crcHigh_lt _)).2)

theorem validates_build (full_res : Bool) :
    Validates (buildSyncPacket uid4 uid5 fhss_index nonce rf_rate_enum model_id full_res)
      (modelDelta model_id).toNat := by
  have hreal := realUid5_tx uid5 _ (modelDelta_and model_id)
  cases full_res with
  | false =>
    have hlen : (buildSyncPacket uid4 uid5 fhss_index nonce rf_rate_enum model_id false).length = 8 :=
      length_build _ _ _ _ _ _ _
    unfold Validates validate
    rw [if_pos hlen]
    refine Eq.trans (congrArg (fun u => validateStd _ (crcInitializer uid4.toNat u) 0) hreal) ?_
    refine validateStd_of [fhss_index, nonce, rf_rate_enum, 0, uid4, _] rfl _ _ ?_
    rw [checkSeed_zero]
    rfl
  | true =>
    unfold Validates validate
    rw [if_neg (by rw [length_build]; decide)]
    refine Eq.trans (congrArg (fun u => validateFull _ (crcInitializer uid4.toNat u) 0) hreal) ?_
    refine validateFull_of [_, fhss_index, nonce, rf_rate_enum, 0, uid4, _, 0, 0, 0, 0]
      rfl _ _ ?_
    rw [generateFull, checkSeed_zero]
    rfl

end

/-- What was built is extracted, of either size, and a SYNC packet of 8 or 13 bytes validates with
one mixture at most, which is the one that is extracted. -/
theorem extract_build :
    (∀ (uid4 uid5 fhss_index nonce rf_rate_enum model_id : UInt8) (full_res : Bool),
      extractUidFromSync
          (buildSyncPacket uid4 uid5 fhss_index nonce rf_rate_enum model_id full_res) =
        .ok (some {
          uid4 := uid4.toNat
          uid5 := uid5.toNat
          fhss_index := fhss_index.toNat
          nonce := nonce.toNat
          rf_rate_enum := rf_rate_enum.toNat
          model_delta := (modelDelta model_id).toNat
          crc_ok := true })) ∧
    ∀ pkt : List UInt8, pkt.length = 8 ∨ pkt.length = 13 →
      packetType pkt = .ok PACKET_TYPE_SYNC →
        (∀ d < 64, ∀ d' < 64, Validates pkt d → Validates pkt d' → d = d') ∧
        ∀ d < 64, Validates pkt d → extractUidFromSync pkt = .ok (some (extractOf pkt d)) := by
  refine ⟨fun uid4 uid5 fhss_index nonce rf_rate_enum model_id full_res => ?_,
    fun pkt hlen hsync => ⟨fun d hd d' hd' => delta_unique hd hd',
      fun d hd => extract_of_validates hsync hlen hd⟩⟩
  have hlen := length_build uid4 uid5 fhss_index nonce rf_rate_enum model_id full_res
  rw [extract_of_validates (packetType_build _ _ _ _ _ _ _) (by cases full_res <;> simp [hlen])
    (modelDelta_lt model_id)
    (validates_build uid4 uid5 fhss_index nonce rf_rate_enum model_id full_res)]
  have hreal := realUid5_tx uid5 _ (modelDelta_and model_id)
  rw [← hreal]
  cases full_res <;> rfl

/-- A packet that was built. -/
def syncOfLink : List UInt8 := buildSyncPacket 0x51 0x9a 7 200 3 12 false

/-- It is extracted with its mixture. -/
theorem extract_build_syncOfLink :
    extractUidFromSync syncOfLink = .ok (some (extractOf syncOfLink (modelDelta 12).toNat)) :=
  (extract_build.2 syncOfLink (.inl (by decide +kernel)) (by decide +kernel)).2 _ (by decide)
    (by unfold Validates; decide +kernel)

end Bewe.Elrs

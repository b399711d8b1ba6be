import Bewe.Lib.BitGroups
import Bewe.Lib.Layout
import Bewe.Text

/-!
# Beacons in DSSS

`decode_buffer_dsss` of `wifi_dsss.hpp`, from the phase changes of the symbols on: the bits are
descrambled, the start of a frame is looked for in both orders of its bits, and if the frame is a
beacon with the right checksum its elements go into a record.

The descrambler takes its state from what it receives, so it is right seven bits after it has begun
(`drop_descramble`). A beacon is decoded wherever in its preamble the capture begins, unless the start
of a frame is found in the wrong order of bits, which is looked for first and in the whole capture
(`decode_capture`).
-/

namespace Bewe.Wifi.Dsss

open Lib

/-! ## Bits -/

/-- `d[n] = sb[n]^sb[n-4]^sb[n-7]` -/
def descramble (sb : List Bool) : List Bool :=
  (List.range sb.length).map fun n =>
    let b4 := if 4 ≤ n then sb.getD (n - 4) false else false
    let b7 := if 7 ≤ n then sb.getD (n - 7) false else false
    sb.getD n false ^^ b4 ^^ b7

/-- `v==0xF3A0` at a position, in either order of the bits. -/
def isSfd (msb : Bool) (d : List Bool) (n : ℕ) : Bool :=
  orBits (if msb then (slice n 16 d).reverse else slice n 16 d) = 0xF3A0

/-- `find_sfd` -/
def findSfd (msb : Bool) (d : List Bool) : Option ℕ :=
  (List.range (d.length - 15)).find? (isSfd msb d)

/-- `gb` -/
def gb (d : List Bool) (bp : ℕ) : ℕ := orBits (slice bp 8 d)

/-- `c=(c&1)?(0xEDB88320u^(c>>1)):(c>>1)` -/
def crcShift (c : UInt32) : UInt32 := if c &&& 1 ≠ 0 then (0xEDB88320 : UInt32) ^^^ (c >>> 1) else c >>> 1

/-- `crc32_802` -/
def crc32_802 (d : Bytes) : UInt32 :=
  let c : UInt32 := d.foldl (fun c x => crcShift^[8] ((c ^^^ x.toUInt32) &&& 0xFF) ^^^ (c >>> 8)) 0xFFFFFFFF
  c ^^^ 0xFFFFFFFF

/-! ## Records -/

/-- `sec` -/
inductive Sec
  | Open
  | WPA
  | WPA2
  deriving DecidableEq

/-- `phy` -/
inductive Phy
  | b
  | n
  | ac
  | ax
  deriving DecidableEq

/-- `WifiRecord`, with the octets of `bssid`, without what HOST puts in. -/
structure WifiRecord where
  bssid : Bytes
  ssid : Bytes := []
  wch : ℕ := 0
  phy : Phy := .b
  sec : Sec := .Open
  deriving DecidableEq

/-- An element of a beacon, with the octets behind its length. -/
def WifiRecord.element (r : WifiRecord) (id : UInt8) (v : Bytes) : WifiRecord :=
  if id = 0 then if v = [] then r else { r with ssid := (v.take 32).takeWhile (· ≠ 0) }
  else if id = 3 ∧ 1 ≤ v.length then { r with wch := (v.getD 0 0).toNat }
  else if id = 48 then { r with sec := .WPA2 }
  else if id = 45 ∧ r.phy = .b then { r with phy := .n }
  else if id = 191 then { r with phy := .ac }
  else if id = 221 ∧ 4 ≤ v.length ∧ v.take 4 = [0, 0x50, 0xf2, 1] ∧ r.sec = .Open then
    { r with sec := .WPA }
  else if id = 255 ∧ 1 ≤ v.length ∧ v.getD 0 0 = 35 then { r with phy := .ax }
  else r

/-- The loop over the elements; `left` are the octets from `p` on up to the checksum. -/
def elements : ℕ → Bytes → WifiRecord → WifiRecord
  | fuel + 1, id :: l :: left, r =>
    if left.length < l.toNat then r
    else elements fuel (left.drop l.toNat) (r.element id (left.take l.toNat))
  | _, _, r => r

/-- The record of a frame `m`, if it is a beacon with the right checksum. -/
def beacon (m : Bytes) : Option WifiRecord :=
  let oct := m.length
  let fcs := (m.getD (oct - 4) 0).toUInt32 ||| (m.getD (oct - 3) 0).toUInt32 <<< 8 |||
    (m.getD (oct - 2) 0).toUInt32 <<< 16 ||| (m.getD (oct - 1) 0).toUInt32 <<< 24
  if fcs ≠ crc32_802 (m.take (oct - 4)) then none
  else if m.getD 0 0 ≠ 0x80 then none
  else
    let left := (m.take (oct - 4)).drop 36
    some (elements left.length left { bssid := slice 16 6 m })

/-- `decode_buffer_dsss`, for the phase changes that it has collected. -/
def decodeCollected (sb : List Bool) : Option WifiRecord :=
  if sb.length < 200 then none
  else
    let d := descramble sb
    match (findSfd true d).or (findSfd false d) with
    | none => none
    | some sfd =>
      let hp := sfd + 16
      if d.length < hp + 48 then none
      else
        let len_us := gb d (hp + 16) ||| gb d (hp + 24) <<< 8
        let oct := len_us / 8
        let mp := hp + 48
        if gb d hp ≠ 0x0A then none
        else if oct ≤ 24 ∨ 2400 ≤ oct ∨ d.length < mp + oct * 8 then none
        else beacon ((List.range oct).map fun B => UInt8.ofNat (gb d (mp + B * 8)))

/-- `decode_buffer_dsss`, for the phase changes of the symbols of a capture from a packet on: it collects
those between 4000 symbols. -/
def decode (sb : List Bool) : Option WifiRecord := decodeCollected (sb.take 3999)

/-! ## The transmitter -/

/-- The scrambler: `past` are the bits that it has sent, the last one first. -/
def scramble (past : List Bool) : List Bool → List Bool
  | [] => []
  | b :: bs =>
    let s := b ^^ past.getD 3 false ^^ past.getD 6 false
    s :: scramble (s :: past) bs

/-- The octets behind the start of a frame: rate, service, length in microseconds, and the checksum of
these, which is not looked at; and the frame. -/
def octets (service crc0 crc1 : UInt8) (psdu : Bytes) : List ℕ :=
  let len_us := 8 * psdu.length
  [0x0A, service.toNat, len_us % 256, len_us / 256, crc0.toNat, crc1.toNat] ++
    psdu.map UInt8.toNat

/-- The bits of a frame with a long preamble. -/
def frame (service crc0 crc1 : UInt8) (psdu : Bytes) : List Bool :=
  List.replicate 128 true ++ lowBits 16 0xF3A0 ++ ungroup 8 (octets service crc0 crc1 psdu)

/-- A beacon with these elements. -/
structure IsBeacon (psdu : Bytes) (head : Bytes) (ies : List (UInt8 × Bytes)) : Prop where
  octets : ∃ fcs, psdu = head ++ (ies.flatMap fun ie => ie.1 :: UInt8.ofNat ie.2.length :: ie.2) ++ fcs ∧
    fcs.length = 4
  head_length : head.length = 36
  head_zero : head.getD 0 0 = 0x80
  short : ∀ ie ∈ ies, ie.2.length < 256
  length : psdu.length < 2400
  checked : (psdu.getD (psdu.length - 4) 0).toUInt32 ||| (psdu.getD (psdu.length - 3) 0).toUInt32 <<< 8 |||
      (psdu.getD (psdu.length - 2) 0).toUInt32 <<< 16 |||
      (psdu.getD (psdu.length - 1) 0).toUInt32 <<< 24 = crc32_802 (psdu.take (psdu.length - 4))

/-! ## Descrambling -/

theorem getD_scramble (past bs : List Bool) {n : ℕ} (hn : n < bs.length) :
    (scramble past bs).getD n false = (bs.getD n false ^^
      (((scramble past bs).take n).reverse ++ past).getD 3 false ^^
      (((scramble past bs).take n).reverse ++ past).getD 6 false) := by
  induction bs generalizing past n with
  | nil => exact absurd hn (Nat.not_lt_zero n)
  | cons b bs ih =>
    cases n with
    | zero => rfl
    | succ n =>
      unfold scramble
      dsimp only
      rw [List.getD_cons_succ, List.getD_cons_succ, List.take_succ_cons, List.reverse_cons,
        List.append_assoc]
      exact ih _ (Nat.lt_of_succ_lt_succ hn)

/-- What is scrambled first does not depend on what comes behind it. -/
theorem take_scramble (past bs : List Bool) (n : ℕ) :
    (scramble past bs).take n = scramble past (bs.take n) := by
  induction bs generalizing past n with
  | nil => rw [List.take_nil]; exact List.take_nil
  | cons b bs ih =>
    cases n with
    | zero => rfl
    | succ n =>
      unfold scramble
      dsimp only
      rw [List.take_succ_cons, ih, List.take_succ_cons]

theorem length_scramble (past bs : List Bool) : (scramble past bs).length = bs.length := by
  induction bs generalizing past with
  | nil => rfl
  | cons b bs ih =>
    unfold scramble
    rw [List.length_cons, ih, List.length_cons]

theorem getD_reverse_take {s past : List Bool} {n i : ℕ} (hi : i < n) (hn : n ≤ s.length) :
    ((s.take n).reverse ++ past).getD i false = s.getD (n - 1 - i) false := by
  have hlen : (s.take n).length = n := by rw [List.length_take]; omega
  rw [List.getD_append _ _ _ _ (by rw [List.length_reverse]; omega), List.getD_eq_getElem _ _ (by
    rw [List.length_reverse]; omega), List.getElem_reverse, List.getElem_take,
    List.getD_eq_getElem _ _ (by omega)]
  congr 1
  omega

theorem length_descramble (sb : List Bool) : (descramble sb).length = sb.length := by
  unfold descramble
  rw [List.length_map, List.length_range]

theorem getElem_descramble {sb : List Bool} {n : ℕ} (h7 : 7 ≤ n) (hn : n < (descramble sb).length) :
    (descramble sb)[n] = (sb.getD n false ^^ sb.getD (n - 4) false ^^ sb.getD (n - 7) false) := by
  unfold descramble at hn ⊢
  rw [List.getElem_map, List.getElem_range, if_pos (by omega), if_pos h7]

/-- **The descrambler finds its state:** seven bits after it has begun, anywhere, its bits are those
that were sent. -/
theorem drop_descramble (past bs : List Bool) (k : ℕ) :
    (descramble ((scramble past bs).drop k)).drop 7 = bs.drop (k + 7) := by
  have hlen := length_scramble past bs
  have hlen' : (descramble ((scramble past bs).drop k)).length = bs.length - k := by
    rw [length_descramble, List.length_drop, hlen]
  refine List.ext_getElem (by rw [List.length_drop, List.length_drop, hlen']; omega) fun i hi _ => ?_
  rw [List.length_drop, hlen'] at hi
  have hsent := getD_scramble past bs (n := k + 7 + i) (by omega)
  rw [getD_reverse_take (by omega) (by omega), getD_reverse_take (by omega) (by omega)] at hsent
  have hdrop : ∀ j, ((scramble past bs).drop k).getD j false = (scramble past bs).getD (k + j) false := by
    intro j
    rw [List.getD_eq_getElem?_getD, List.getElem?_drop, ← List.getD_eq_getElem?_getD]
  rw [List.getElem_drop, List.getElem_drop, getElem_descramble (by omega), hdrop, hdrop, hdrop,
    ← List.getD_eq_getElem _ false, show k + (7 + i) = k + 7 + i by omega, hsent,
    show k + (7 + i - 4) = k + 7 + i - 1 - 3 by omega,
    show k + (7 + i - 7) = k + 7 + i - 1 - 6 by omega]
  cases (scramble past bs).getD (k + 7 + i - 1 - 3) false <;>
    cases (scramble past bs).getD (k + 7 + i - 1 - 6) false <;> simp

/-! ## The start of a frame -/

theorem testBit_orBits_slice (d : List Bool) (n len : ℕ) {i : ℕ} (hi : i < len) :
    (orBits (slice n len d)).testBit i = d.getD (n + i) false := by
  rw [testBit_orBits, slice, List.getD_eq_getElem?_getD, List.getElem?_take_of_lt hi, List.getElem?_drop,
    ← List.getD_eq_getElem?_getD]

theorem gb_ungroup (a : List Bool) {vals : List ℕ} (hvals : ∀ v ∈ vals, v < 256) (t : List Bool) {j : ℕ}
    (hj : j < vals.length) : gb (a ++ ungroup 8 vals ++ t) (a.length + 8 * j) = vals.getD j 0 := by
  have hlt : vals.getD j 0 < 2 ^ 8 := by
    rw [List.getD_eq_getElem _ _ hj]
    exact hvals _ (List.getElem_mem hj)
  refine Nat.eq_of_testBit_eq fun i => ?_
  rcases Nat.lt_or_ge i 8 with hi | hi
  · have hin : 8 * j + i < (ungroup 8 vals).length := by
      rw [length_ungroup]
      omega
    rw [gb, testBit_orBits_slice _ _ _ hi, Nat.add_assoc, List.append_assoc,
      List.getD_append_right _ _ _ _ (by omega), Nat.add_sub_cancel_left, List.getD_append _ _ _ _ hin,
      getD_ungroup (by decide), Nat.mul_add_div (by decide), Nat.mul_add_mod, Nat.div_eq_of_lt hi,
      Nat.mod_eq_of_lt hi, Nat.add_zero]
  · have hgb : gb (a ++ ungroup 8 vals ++ t) (a.length + 8 * j) < 2 ^ 8 :=
      orBits_lt (List.length_take_le _ _)
    rw [Nat.testBit_lt_two_pow (hgb.trans_le (Nat.pow_le_pow_right (by decide) hi)),
      Nat.testBit_lt_two_pow (hlt.trans_le (Nat.pow_le_pow_right (by decide) hi))]

theorem findSfd_preamble {g : List Bool} (hg : g.length = 7) {ones : ℕ} (hones : 10 ≤ ones)
    (rest : List Bool) :
    findSfd false (g ++ List.replicate ones true ++ lowBits 16 0xF3A0 ++ rest) = some (7 + ones) := by
  generalize hd : g ++ List.replicate ones true ++ lowBits 16 0xF3A0 ++ rest = d
  have hlen : d.length = 7 + ones + 16 + rest.length := by
    rw [← hd]
    simp only [List.length_append, hg, List.length_replicate, length_lowBits]
  have hone : ∀ j, 7 ≤ j → j < 7 + ones → d.getD j false = true := by
    intro j h7 hj
    rw [← hd, List.append_assoc, List.append_assoc, List.getD_append_right _ _ _ _ (by omega),
      List.getD_append _ _ _ _ (by rw [List.length_replicate]; omega), List.getD_eq_getElem _ _ (by
        rw [List.length_replicate]; omega), List.getElem_replicate]
  have hbit : ∀ {n i}, isSfd false d n = true → i < 16 → d.getD (n + i) false = (0xF3A0).testBit i := by
    intro n i h hi
    have hword : orBits (slice n 16 d) = 0xF3A0 := of_decide_eq_true h
    rw [← testBit_orBits_slice d n 16 hi, hword]
  unfold findSfd
  rw [List.find?_range_eq_some]
  refine ⟨?_, List.mem_range.2 (by omega), fun n hn => ?_⟩
  · refine decide_eq_true (Nat.eq_of_testBit_eq fun i => ?_)
    rw [if_neg (by decide)]
    have hsfd : slice (7 + ones) 16 d = lowBits 16 0xF3A0 := by
      rw [← hd, slice, List.append_assoc, List.drop_left' (by simp [hg])]
      exact List.take_left' (length_lowBits _ _)
    rw [testBit_orBits, hsfd, getD_lowBits]
    rcases Nat.lt_or_ge i 16 with hi | hi
    · rw [decide_eq_true hi, Bool.true_and]
    · rw [decide_eq_false (by omega), Bool.false_and, Nat.testBit_lt_two_pow
        (lt_of_lt_of_le (by norm_num) (Nat.pow_le_pow_right (by decide) hi))]
  · -- a start of a frame has clear bits where there are ones
    rw [Bool.not_eq_true', Bool.eq_false_iff]
    intro hfound
    rcases Nat.lt_or_ge n 7 with h7 | h7
    · have hclear := hbit hfound (i := 10) (by decide)
      rw [hone _ (by omega) (by omega)] at hclear
      exact absurd hclear (by decide)
    · have hclear := hbit hfound (i := 0) (by decide)
      rw [hone _ (by omega) (by omega)] at hclear
      exact absurd hclear (by decide)

/-! ## Beacons -/

theorem elements_flatMap {ies : List (UInt8 × Bytes)} (h : ∀ ie ∈ ies, ie.2.length < 256) {fuel : ℕ}
    (hfuel : (ies.flatMap fun ie => ie.1 :: UInt8.ofNat ie.2.length :: ie.2).length ≤ fuel)
    (r : WifiRecord) :
    elements fuel (ies.flatMap fun ie => ie.1 :: UInt8.ofNat ie.2.length :: ie.2) r =
      ies.foldl (fun r ie => r.element ie.1 ie.2) r := by
  induction ies generalizing fuel r with
  | nil => cases fuel <;> rfl
  | cons ie ies ih =>
    have hl : (UInt8.ofNat ie.2.length).toNat = ie.2.length :=
      UInt8.toNat_ofNat_of_lt' (h ie List.mem_cons_self)
    rw [List.flatMap_cons, List.length_append, List.length_cons, List.length_cons] at hfuel
    obtain ⟨fuel, rfl⟩ : ∃ f, fuel = f + 1 := ⟨fuel - 1, by omega⟩
    rw [List.flatMap_cons, List.cons_append, List.cons_append, elements, hl,
      if_neg (by rw [List.length_append]; omega), List.drop_left, List.take_left,
      ih (fun ie hie => h ie (List.mem_cons_of_mem _ hie)) (by omega), List.foldl_cons]

theorem IsBeacon.beacon_eq {psdu head : Bytes} {ies : List (UInt8 × Bytes)}
    (h : IsBeacon psdu head ies) : beacon psdu =
      some (ies.foldl (fun r ie => r.element ie.1 ie.2) { bssid := slice 16 6 head }) := by
  obtain ⟨fcs, hpsdu, hfcs⟩ := h.octets
  have hchecked := h.checked
  have hhead := h.head_length
  have hbssid : slice 16 6 psdu = slice 16 6 head := by
    rw [hpsdu, slice, slice, List.append_assoc, List.drop_append_of_le_length (by omega),
      List.take_append_of_le_length (by rw [List.length_drop]; omega)]
  have hzero : psdu.getD 0 0 = 0x80 := by
    rw [hpsdu, List.append_assoc, List.getD_append _ _ _ _ (by omega), h.head_zero]
  have htake : (psdu.take (psdu.length - 4)).drop 36 =
      ies.flatMap fun ie => ie.1 :: UInt8.ofNat ie.2.length :: ie.2 := by
    have hlen : psdu.length - 4 = (head ++ ies.flatMap fun ie =>
        ie.1 :: UInt8.ofNat ie.2.length :: ie.2).length := by
      rw [hpsdu, List.length_append, hfcs, Nat.add_sub_cancel]
    rw [hlen, hpsdu, List.take_left, List.drop_left' hhead]
  unfold beacon
  dsimp only
  rw [if_neg (not_not.2 hchecked), if_neg (not_not.2 hzero), htake, hbssid,
    elements_flatMap h.short le_rfl]

theorem length_octets_eq (n : ℕ) : n % 256 ||| (n / 256) <<< 8 = n := by
  rw [Nat.or_comm, ← Nat.shiftLeft_add_eq_or_of_lt (Nat.mod_lt n (by norm_num) : n % 256 < 2 ^ 8),
    Nat.shiftLeft_eq]
  omega

section

variable (service crc0 crc1 : UInt8) (psdu : Bytes)

theorem length_octets : (octets service crc0 crc1 psdu).length = psdu.length + 6 := by
  unfold octets
  rw [List.length_append, List.length_map]
  exact Nat.add_comm _ _

theorem octets_lt (hlen : psdu.length < 2400) : ∀ v ∈ octets service crc0 crc1 psdu, v < 256 := by
  unfold octets
  intro v hv
  simp only [List.mem_append, List.mem_cons, List.not_mem_nil, or_false, List.mem_map] at hv
  have hbyte : ∀ b : UInt8, b.toNat < 256 := fun b => b.toNat_lt
  rcases hv with (rfl | rfl | rfl | rfl | rfl | rfl) | ⟨b, -, rfl⟩
  · norm_num
  · exact hbyte _
  · exact Nat.mod_lt _ (by norm_num)
  · omega
  · exact hbyte _
  · exact hbyte _
  · exact hbyte _

theorem getD_octets {B : ℕ} (hB : B < psdu.length) :
    (octets service crc0 crc1 psdu).getD (6 + B) 0 = psdu[B].toNat := by
  unfold octets
  rw [List.getD_append_right _ _ _ _ (Nat.le_add_right 6 B)]
  simp [hB]

/-- What is descrambled of a capture: seven bits of no use, ones, the start of the frame, and the
octets. -/
theorem exists_descramble (past tail : List Bool) {k : ℕ} (hk : k + 17 ≤ 128) :
    ∃ g : List Bool, g.length = 7 ∧
      descramble ((scramble past (frame service crc0 crc1 psdu ++ tail)).drop k) =
        g ++ List.replicate (121 - k) true ++ lowBits 16 0xF3A0 ++
          (ungroup 8 (octets service crc0 crc1 psdu) ++ tail) := by
  have hdrop := drop_descramble past (frame service crc0 crc1 psdu ++ tail) k
  have hones : (frame service crc0 crc1 psdu ++ tail).drop (k + 7) =
      List.replicate (121 - k) true ++ (lowBits 16 0xF3A0 ++
        (ungroup 8 (octets service crc0 crc1 psdu) ++ tail)) := by
    unfold frame
    rw [List.append_assoc, List.append_assoc, List.drop_append_of_le_length (by
      rw [List.length_replicate]; omega), List.drop_replicate, show 128 - (k + 7) = 121 - k by omega]
  refine ⟨(descramble ((scramble past (frame service crc0 crc1 psdu ++ tail)).drop k)).take 7, ?_, ?_⟩
  · rw [List.length_take, length_descramble, List.length_drop, length_scramble, List.length_append]
    unfold frame
    rw [List.length_append, List.length_append, List.length_replicate, length_lowBits]
    omega
  · rw [List.append_assoc, List.append_assoc, ← hones, ← hdrop, List.take_append_drop]

end

/-- A beacon is decoded from what was collected, if this has the whole of it. -/
theorem decodeCollected_capture {psdu head : Bytes} {ies : List (UInt8 × Bytes)}
    (h : IsBeacon psdu head ies) (past tail : List Bool) (service crc0 crc1 : UInt8) {k : ℕ}
    (hk : k + 17 ≤ 128)
    (hother : findSfd true
      (descramble ((scramble past (frame service crc0 crc1 psdu ++ tail)).drop k)) = none) :
    decodeCollected ((scramble past (frame service crc0 crc1 psdu ++ tail)).drop k) =
      some (ies.foldl (fun r ie => r.element ie.1 ie.2) { bssid := slice 16 6 head }) := by
  have hbeacon := h.beacon_eq
  obtain ⟨fcs, hpsdu, hfcs⟩ := h.octets
  have hoct : 40 ≤ psdu.length := by
    rw [hpsdu, List.length_append, List.length_append, h.head_length, hfcs]
    omega
  have hshort := h.length
  have hlen := length_octets service crc0 crc1 psdu
  obtain ⟨g, hg, hd⟩ := exists_descramble service crc0 crc1 psdu past tail hk
  have hsb := length_descramble ((scramble past (frame service crc0 crc1 psdu ++ tail)).drop k)
  have hfound := findSfd_preamble hg (show 10 ≤ 121 - k by omega)
    (ungroup 8 (octets service crc0 crc1 psdu) ++ tail)
  have ha : (g ++ List.replicate (121 - k) true ++ lowBits 16 0xF3A0).length = 7 + (121 - k) + 16 := by
    rw [List.length_append, List.length_append, hg, List.length_replicate, length_lowBits]
  have hgb : ∀ j < psdu.length + 6, gb (descramble ((scramble past
      (frame service crc0 crc1 psdu ++ tail)).drop k)) (7 + (121 - k) + 16 + 8 * j) =
        (octets service crc0 crc1 psdu).getD j 0 := by
    intro j hj
    rw [hd, ← List.append_assoc, ← ha]
    exact gb_ungroup _ (octets_lt service crc0 crc1 psdu hshort) tail (by omega)
  have hlend := congrArg List.length hd
  rw [List.length_append, ha, List.length_append, length_ungroup, hlen] at hlend
  rw [← hd] at hfound
  unfold decodeCollected
  dsimp only
  generalize descramble ((scramble past (frame service crc0 crc1 psdu ++ tail)).drop k) = d at *
  have hus : gb d (7 + (121 - k) + 16 + 16) ||| gb d (7 + (121 - k) + 16 + 24) <<< 8 =
      8 * psdu.length := by
    rw [hgb 2 (by omega), hgb 3 (by omega)]
    exact length_octets_eq (8 * psdu.length)
  have hsig : gb d (7 + (121 - k) + 16) = 0x0A := hgb 0 (by omega)
  have hm : ((List.range psdu.length).map fun B =>
      UInt8.ofNat (gb d (7 + (121 - k) + 16 + 48 + B * 8))) = psdu := by
    refine List.ext_getElem (by rw [List.length_map, List.length_range]) fun B hB hB' => ?_
    rw [List.getElem_map, List.getElem_range, show 7 + (121 - k) + 16 + 48 + B * 8 =
      7 + (121 - k) + 16 + 8 * (6 + B) by omega, hgb _ (by omega), getD_octets _ _ _ _ hB',
      UInt8.ofNat_toNat]
  rw [if_neg (by omega), hother, Option.none_or, hfound]
  dsimp only
  rw [if_neg (by omega), hus, Nat.mul_div_cancel_left _ (by norm_num), if_neg (not_not.2 hsig),
    if_neg (by omega), hm, hbeacon]

/-- The length of a frame with a long preamble. -/
theorem length_frame (service crc0 crc1 : UInt8) (psdu : Bytes) :
    (frame service crc0 crc1 psdu).length = 192 + 8 * psdu.length := by
  unfold frame
  rw [List.length_append, List.length_append, List.length_replicate, length_lowBits, length_ungroup,
    length_octets]
  omega

/-- **Beacons are decoded:** of a beacon that is scrambled from any state, with anything behind it, a
capture that begins in its preamble, seventeen bits before the start of the frame at the latest, gives
the record of its elements, if its last bit is among the phase changes that are collected, and the start
of a frame is nowhere among these in the wrong order. -/
theorem decode_capture {psdu head : Bytes} {ies : List (UInt8 × Bytes)} (h : IsBeacon psdu head ies)
    (past tail : List Bool) (service crc0 crc1 : UInt8) {k : ℕ} (hk : k + 17 ≤ 128)
    (hfits : 192 + 8 * psdu.length ≤ k + 3999)
    (hother : findSfd true
      (descramble (((scramble past (frame service crc0 crc1 psdu ++ tail)).drop k).take 3999)) = none) :
    decode ((scramble past (frame service crc0 crc1 psdu ++ tail)).drop k) =
      some (ies.foldl (fun r ie => r.element ie.1 ie.2) { bssid := slice 16 6 head }) := by
  have hlen := length_frame service crc0 crc1 psdu
  have hcollected : ((scramble past (frame service crc0 crc1 psdu ++ tail)).drop k).take 3999 =
      (scramble past (frame service crc0 crc1 psdu ++
        tail.take (k + 3999 - (192 + 8 * psdu.length)))).drop k := by
    rw [List.take_drop, take_scramble, List.take_append, hlen, List.take_of_length_le (by omega)]
  rw [hcollected] at hother
  unfold decode
  rw [hcollected]
  exact decodeCollected_capture h past _ service crc0 crc1 hk hother

theorem findSfd_of_tails {d : List Bool} (h : ∀ t ∈ d.tails, orBits (t.take 16).reverse ≠ 0xF3A0) :
    findSfd true d = none :=
  List.find?_eq_none.2 fun n _ hn =>
    h _ ((List.mem_tails _ _).2 (List.drop_suffix n d)) (of_decide_eq_true hn)

/-- The octets of a beacon up to its elements. -/
def beaconHead : Bytes :=
  [0x80, 0, 0, 0, 255, 255, 255, 255, 255, 255, 2, 0, 0, 0, 0, 1, 2, 0, 0, 0, 0, 1, 0, 0, 0, 0, 0, 0,
    0, 0, 0, 0, 0x64, 0, 1, 0]

/-- The name of the network, and its channel. -/
def beaconElements : List (UInt8 × Bytes) := [(0, ascii "BEWE"), (3, [6])]

/-- The beacon with its checksum. -/
def beaconPsdu : Bytes :=
  beaconHead ++ (beaconElements.flatMap fun ie => ie.1 :: UInt8.ofNat ie.2.length :: ie.2) ++
    [0xBF, 0xE6, 0x73, 0x94]

theorem beaconPsdu_isBeacon : IsBeacon beaconPsdu beaconHead beaconElements where
  octets := ⟨_, rfl, rfl⟩
  head_length := rfl
  head_zero := rfl
  short := by decide
  length := by decide
  checked := by decide +kernel

/-- The beacon, captured from its hundredth bit on. -/
theorem decode_capture_beacon :
    decode ((scramble [] (frame 0 0 0 beaconPsdu ++ [])).drop 100) =
      some (beaconElements.foldl (fun r ie => r.element ie.1 ie.2) { bssid := slice 16 6 beaconHead }) := by
  have hstart : (descramble ((scramble [] (frame 0 0 0 beaconPsdu ++ [])).drop 100)).take 7 =
      [false, true, false, true, true, true, true] := by decide +kernel
  have hshort : ((scramble [] (frame 0 0 0 beaconPsdu ++ [])).drop 100).length ≤ 3999 := by
    rw [List.length_drop, length_scramble, List.append_nil, length_frame]
    decide
  refine decode_capture beaconPsdu_isBeacon [] [] 0 0 0 (by norm_num) (by decide) ?_
  rw [List.take_of_length_le hshort, ← List.take_append_drop 7 (descramble _), hstart, drop_descramble]
  exact findSfd_of_tails (by decide +kernel)

end Bewe.Wifi.Dsss

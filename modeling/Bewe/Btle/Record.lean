import Bewe.Btle.Decode
import Bewe.Lib.Reads
import Bewe.Text

/-!
# The record of an advertising packet

What `decode_at` of `btle_decode.hpp` reads of a packet whose CRC is right: the addresses, the
parameters of a CONNECT_IND, and with `parse_ad` the AD structures, of which those of manufacturers
have structures of their own. `raw` has the packet, its CRC, and zeros.

The walks of the AD structures end, and do not look behind the payload (`readsWithin_parseAd`). A
CONNECT_IND is read at fixed places, whatever the length of its payload is. So a record is that of
the packet alone except where a CONNECT_IND is shorter than 34 bytes (`readsPacket_iff`).
-/

namespace Bewe.Btle

open Lib

/-! ## Texts -/

/-- The tables of `btle_meta.hpp`; what is not in a table has an empty text. -/
structure MetaTables where
  btle_company_name : ℕ → Bytes
  btle_appearance_name : ℤ → Bytes
  btle_uuid_hint : ℕ → Bytes
  btle_apple_model : ℕ → Bytes

/-- `%X` with leading zeros, of numbers with so many digits. -/
def hexDigits : ℕ → ℕ → Bytes
  | 0, _ => []
  | k + 1, v =>
    let d := v % 16
    hexDigits k (v / 16) ++ [if d < 10 then UInt8.ofNat (48 + d) else UInt8.ofNat (55 + d)]

/-- What `snprintf` leaves of a text in a field of `cap` bytes. -/
def printed (cap : ℕ) (s : Bytes) : Bytes := s.take (cap - 1)

/-- `val[o]|(val[o+1]<<8)` -/
def le16 (val : Bytes) (o : ℕ) : ℕ := (val.getD o 0).toNat + 256 * (val.getD (o + 1) 0).toNat

theorem readsWithin_le16 {n o : ℕ} (h : o + 1 < n) : ReadsWithin n fun val => le16 val o :=
  have hlow : ReadsWithin n fun val : Bytes => val.getD o 0 := readsWithin_getD (by omega) 0
  hlow.map₂ (readsWithin_getD h 0) fun lo hi : UInt8 => lo.toNat + 256 * hi.toNat

section

variable (T : MetaTables)

/-! ## Manufacturers -/

/-- `nm` of the structure of Apple with the type `t` and `l` bytes at `d`. -/
def appleName (t l : ℕ) (d : Bytes) : Bytes :=
  match t with
  | 0x02 => ascii "iBeacon"
  | 0x05 => ascii "AirDrop"
  | 0x06 => ascii "HomeKit"
  | 0x07 =>
    if 3 ≤ l then
      let mc := 256 * (d.getD 1 0).toNat + (d.getD 2 0).toNat
      let mn := T.btle_apple_model mc
      if mn.isEmpty then ascii "ProxPair/" ++ hexDigits 4 mc else mn
    else ascii "ProxPair"
  | 0x08 => ascii "HeySiri"
  | 0x09 => ascii "AirPlayTgt"
  | 0x0A => ascii "AirPlaySrc"
  | 0x0B => ascii "WatchLink"
  | 0x0C => ascii "Handoff"
  | 0x0D => ascii "TetherTgt"
  | 0x0E => ascii "TetherSrc"
  | 0x0F => ascii "NearbyAct"
  | 0x10 =>
    let a := if 1 ≤ l then (d.getD 0 0).toNat % 16 else 0
    let f := if 2 ≤ l then (d.getD 1 0).toNat else 0
    ascii "Nearby/a" ++ hexDigits 1 a ++ ascii "/f" ++ hexDigits 2 f
  | 0x12 => ascii "FindMy"
  | t => ascii "t" ++ hexDigits 2 t

/-- Where the structure of Apple at a position ends, if it ends within `n` bytes. -/
def appleNext (p : Bytes) (n i : ℕ) : Option ℕ :=
  if n < i + 2 then none
  else
    let l := (p.getD (i + 1) 0).toNat
    if n < i + 2 + l then none else some (i + 2 + l)

theorem appleNext_spec {p : Bytes} {n i j : ℕ} (h : appleNext p n i = some j) :
    i < j ∧ j ≤ n ∧ i + 2 ≤ j := by
  unfold appleNext at h
  dsimp only at h
  split_ifs at h
  cases h
  omega

/-- The loop of `apple_summary`, from a position with what there is in `out`. -/
def appleLoop (cap : ℕ) (p : Bytes) (n i : ℕ) (out : Bytes) : Bytes :=
  match _h : appleNext p n i with
  | none => out
  | some j =>
    let nm := appleName T (p.getD i 0).toNat (j - (i + 2)) (p.drop (i + 2))
    let out := out ++ (if out.isEmpty then [] else ascii " ") ++ nm
    if cap - 1 ≤ out.length then out else appleLoop cap p n j out
termination_by n - i
decreasing_by
  have hj := appleNext_spec _h
  omega

theorem appleLoop_of_none {cap : ℕ} {p : Bytes} {n i : ℕ} (h : appleNext p n i = none)
    (out : Bytes) : appleLoop T cap p n i out = out := by
  rw [appleLoop]
  split
  · rfl
  · next j hj => rw [h] at hj; cases hj

theorem appleLoop_of_some {cap : ℕ} {p : Bytes} {n i j : ℕ} (h : appleNext p n i = some j)
    (out : Bytes) : appleLoop T cap p n i out =
      let nm := appleName T (p.getD i 0).toNat (j - (i + 2)) (p.drop (i + 2))
      let out := out ++ (if out.isEmpty then [] else ascii " ") ++ nm
      if cap - 1 ≤ out.length then out else appleLoop T cap p n j out := by
  rw [appleLoop]
  split
  · next hj => rw [h] at hj; cases hj
  · next j' hj =>
    rw [h] at hj
    cases hj
    rfl

/-- `apple_summary` -/
def appleSummary (cap : ℕ) (p : Bytes) (n : ℕ) : Bytes := printed cap (appleLoop T cap p n 0 [])

/-- Where the printable bytes before a position start. -/
def printableStart (p : Bytes) : ℕ → ℕ
  | 0 => 0
  | start + 1 =>
    let c := p.getD start 0
    if 0x20 ≤ c ∧ c ≤ 0x7E then printableStart p start else start + 1

/-- `ms_swiftpair_name` -/
def msSwiftpairName (cap : ℕ) (p : Bytes) (n : ℕ) : Bytes :=
  let start := printableStart p n
  let len := n - start
  if len < 3 then []
  else
    let alpha := (slice start len p).any fun c => decide (97 ≤ c ||| 0x20 ∧ c ||| 0x20 ≤ 122)
    if alpha then slice start (min len (cap - 1)) p else []

/-! ## AD structures -/

/-- What `parse_ad` sets; a text is that before its terminating zero. -/
structure AdFields where
  name : Bytes
  flags : ℤ
  company : ℕ
  appearance : ℤ
  n_ad : ℕ
  info : Bytes

/-- The fields in the loop, and the first text for a service (`uuid_hint`). -/
structure AdState where
  m : AdFields
  uuid_hint : Option Bytes

/-- The fields of a new record. -/
def AdState.init : AdState := ⟨⟨[], -1, 0xFFFF, -1, 0, []⟩, none⟩

/-- The text for a service if there is one. -/
def uuidHint (u : ℕ) : Option Bytes :=
  let h := T.btle_uuid_hint u
  if h.isEmpty then none else some h

/-- The structure of a manufacturer, with `vlen` bytes at `val`. -/
def manufacturer (vlen : ℕ) (m : AdFields) (val : Bytes) : AdFields :=
  let m := { m with company := le16 val 0 }
  if m.company = 0x004C ∧ 2 < vlen then
    let ap := appleSummary T 40 (val.drop 2) (vlen - 2)
    if ap.isEmpty then m else { m with info := printed 48 (ascii "Apple: " ++ ap) }
  else if m.company = 0x0006 ∧ 3 < vlen ∧ m.name.headD 0 = 0 then
    { m with name := msSwiftpairName 24 (val.drop 2) (vlen - 2) }
  else m

/-- The `switch` of `parse_ad`, of a structure with `vlen` bytes at `val`. -/
def adSwitch (type vlen : ℕ) (st : AdState) (val : Bytes) : AdState :=
  match type with
  | 0x01 =>
    if 1 ≤ vlen then { st with m := { st.m with flags := (val.getD 0 0).toNat } } else st
  | 0x08 | 0x09 => { st with m := { st.m with name := val.take (min vlen 23) } }
  | 0x19 => if 2 ≤ vlen then { st with m := { st.m with appearance := le16 val 0 } } else st
  | 0x02 | 0x03 =>
    { st with
      uuid_hint := (List.range (vlen / 2)).foldl (fun hint k =>
        hint.or (uuidHint T (le16 val (2 * k)))) st.uuid_hint }
  | 0x16 =>
    if 2 ≤ vlen then { st with uuid_hint := st.uuid_hint.or (uuidHint T (le16 val 0)) } else st
  | 0xFF => if 2 ≤ vlen then { st with m := manufacturer T vlen st.m val } else st
  | _ => st

/-- An AD structure, which is counted. -/
def adStructure (type vlen : ℕ) (st : AdState) (val : Bytes) : AdState :=
  adSwitch T type vlen { st with m := { st.m with n_ad := st.m.n_ad + 1 } } val

/-- Where the AD structure at a position ends, if it ends within `n` bytes. -/
def adNext (p : Bytes) (n i : ℕ) : Option ℕ :=
  if i < n then
    let adlen := (p.getD i 0).toNat
    if adlen = 0 then none else if n < i + 1 + adlen then none else some (i + 1 + adlen)
  else none

theorem adNext_spec {p : Bytes} {n i j : ℕ} (h : adNext p n i = some j) :
    i + 2 ≤ j ∧ j ≤ n := by
  unfold adNext at h
  dsimp only at h
  split_ifs at h
  cases h
  omega

/-- The loop of `parse_ad`, from a position. -/
def adLoop (p : Bytes) (n i : ℕ) (st : AdState) : AdState :=
  match _h : adNext p n i with
  | none => st
  | some j =>
    adLoop p n j (adStructure T (p.getD (i + 1) 0).toNat (j - (i + 2)) st (p.drop (i + 2)))
termination_by n - i
decreasing_by
  have hj := adNext_spec _h
  omega

theorem adLoop_of_none {p : Bytes} {n i : ℕ} (h : adNext p n i = none) (st : AdState) :
    adLoop T p n i st = st := by
  rw [adLoop]
  split
  · rfl
  · next j hj => rw [h] at hj; cases hj

theorem adLoop_of_some {p : Bytes} {n i j : ℕ} (h : adNext p n i = some j) (st : AdState) :
    adLoop T p n i st =
      adLoop T p n j
        (adStructure T (p.getD (i + 1) 0).toNat (j - (i + 2)) st (p.drop (i + 2))) := by
  rw [adLoop]
  split
  · next hj => rw [h] at hj; cases hj
  · next j' hj =>
    rw [h] at hj
    cases hj
    rfl

/-- The end of `parse_ad`: a summary where there is none. -/
def summary (st : AdState) : AdFields :=
  let m := st.m
  if m.info.isEmpty then
    let cat := printed 24 (st.uuid_hint.getD (T.btle_appearance_name m.appearance))
    if m.company ≠ 0xFFFF then
      let cn := T.btle_company_name m.company
      let code := ascii "0x" ++ hexDigits 4 m.company
      { m with
        info := printed 48 (
          if ¬cn.isEmpty ∧ ¬cat.isEmpty then cn ++ ascii " " ++ cat
          else if ¬cn.isEmpty then cn
          else if ¬cat.isEmpty then code ++ ascii " " ++ cat
          else code) }
    else { m with info := printed 48 cat }
  else m

/-- `parse_ad` -/
def parseAd (p : Bytes) (n : ℕ) : AdFields := summary T (adLoop T p n 0 .init)

/-! ## What is looked at -/

variable {T}

theorem readsWithin_appleName (t l : ℕ) : ReadsWithin l (appleName T t l) := by
  unfold appleName
  split
  case h_4 =>
    -- the model code
    refine ReadsWithin.ite (fun hl => ?_) fun _ => .const _ _
    have hhigh : ReadsWithin l fun d : Bytes => d.getD 1 0 := readsWithin_getD (by omega) 0
    have hlow : ReadsWithin l fun d : Bytes => d.getD 2 0 := readsWithin_getD (by omega) 0
    exact hhigh.map₂ hlow fun high low : UInt8 =>
      let mc := 256 * high.toNat + low.toNat
      let mn := T.btle_apple_model mc
      if mn.isEmpty then ascii "ProxPair/" ++ hexDigits 4 mc else mn
  case h_13 =>
    -- the action and the flags, each where there is a byte for it
    have haction : ReadsWithin l fun d : Bytes => if 1 ≤ l then (d.getD 0 0).toNat % 16 else 0 :=
      .ite (fun hl => (readsWithin_getD (by omega) 0).map fun c : UInt8 => c.toNat % 16)
        fun _ => .const _ _
    have hflags : ReadsWithin l fun d : Bytes => if 2 ≤ l then (d.getD 1 0).toNat else 0 :=
      .ite (fun hl => (readsWithin_getD (by omega) 0).map UInt8.toNat) fun _ => .const _ _
    exact haction.map₂ hflags fun a f =>
      ascii "Nearby/a" ++ hexDigits 1 a ++ ascii "/f" ++ hexDigits 2 f
  all_goals exact .const _ _

theorem readsWithin_appleNext (n i : ℕ) : ReadsWithin n fun p => appleNext p n i := by
  refine ReadsWithin.ite (fun _ => .const _ _) fun hi => ?_
  have hlen : ReadsWithin n fun p : Bytes => p.getD (i + 1) 0 := readsWithin_getD (by omega) 0
  exact hlen.map fun c : UInt8 => if n < i + 2 + c.toNat then none else some (i + 2 + c.toNat)

theorem readsWithin_appleLoop (cap n i : ℕ) (out : Bytes) :
    ReadsWithin n fun p => appleLoop T cap p n i out := by
  induction hd : n - i using Nat.strong_induction_on generalizing i out with
  | _ d ih =>
    intro p q hpq
    have hnext : appleNext p n i = appleNext q n i := readsWithin_appleNext n i p q hpq
    dsimp only
    cases hq : appleNext q n i with
    | none => rw [appleLoop_of_none T (hnext.trans hq), appleLoop_of_none T hq]
    | some j =>
      obtain ⟨hij, hjn, hj⟩ := appleNext_spec hq
      have htype : p.getD i 0 = q.getD i 0 := readsWithin_getD (by omega) 0 p q hpq
      have hname : ∀ t, appleName T t (j - (i + 2)) (p.drop (i + 2)) =
          appleName T t (j - (i + 2)) (q.drop (i + 2)) := fun t =>
        (readsWithin_appleName t (j - (i + 2))).drop (by omega) p q hpq
      rw [appleLoop_of_some T (hnext.trans hq), appleLoop_of_some T hq, htype, hname]
      dsimp only
      split_ifs
      · rfl
      · exact ih (n - j) (by omega) j _ rfl p q hpq
      · rfl
      · exact ih (n - j) (by omega) j _ rfl p q hpq

theorem readsWithin_appleSummary (cap n : ℕ) : ReadsWithin n fun p => appleSummary T cap p n :=
  (readsWithin_appleLoop cap n 0 []).map (printed cap)

theorem readsWithin_printableStart {n start : ℕ} (h : start ≤ n) :
    ReadsWithin n fun p => printableStart p start := by
  induction start with
  | zero => exact .const _ _
  | succ start ih =>
    have hbyte : ReadsWithin n fun p : Bytes => p.getD start 0 := readsWithin_getD (by omega) 0
    exact hbyte.map₂ (ih (by omega)) fun (c : UInt8) found =>
      if 0x20 ≤ c ∧ c ≤ 0x7E then found else start + 1

theorem printableStart_le (p : Bytes) (start : ℕ) : printableStart p start ≤ start := by
  induction start with
  | zero => exact le_rfl
  | succ start ih =>
    rw [printableStart]
    split_ifs
    · exact ih.trans (Nat.le_succ start)
    · exact le_rfl

theorem readsWithin_msSwiftpairName (cap n : ℕ) :
    ReadsWithin n fun p => msSwiftpairName cap p n := by
  intro p q hpq
  have hstart : printableStart p n = printableStart q n :=
    readsWithin_printableStart le_rfl p q hpq
  have hle := printableStart_le q n
  have hrun : slice (printableStart q n) (n - printableStart q n) p =
      slice (printableStart q n) (n - printableStart q n) q :=
    readsWithin_slice (by omega) p q hpq
  have hname : slice (printableStart q n) (min (n - printableStart q n) (cap - 1)) p =
      slice (printableStart q n) (min (n - printableStart q n) (cap - 1)) q :=
    readsWithin_slice (by omega) p q hpq
  dsimp only
  rw [msSwiftpairName, msSwiftpairName, hstart]
  dsimp only
  rw [hname, hrun]

theorem readsWithin_manufacturer {vlen : ℕ} (h : 2 ≤ vlen) (m : AdFields) :
    ReadsWithin vlen (manufacturer T vlen m) := by
  intro p q hpq
  have hcompany : le16 p 0 = le16 q 0 := readsWithin_le16 (by omega) p q hpq
  have hsummary : appleSummary T 40 (p.drop 2) (vlen - 2) =
      appleSummary T 40 (q.drop 2) (vlen - 2) :=
    (readsWithin_appleSummary 40 (vlen - 2)).drop (by omega) p q hpq
  have hname : msSwiftpairName 24 (p.drop 2) (vlen - 2) =
      msSwiftpairName 24 (q.drop 2) (vlen - 2) :=
    (readsWithin_msSwiftpairName 24 (vlen - 2)).drop (by omega) p q hpq
  rw [manufacturer, manufacturer, hcompany, hsummary, hname]

theorem readsWithin_adSwitch (type vlen : ℕ) (st : AdState) :
    ReadsWithin vlen (adSwitch T type vlen st) := by
  unfold adSwitch
  intro p q hpq
  have hbyte : 1 ≤ vlen → p.getD 0 0 = q.getD 0 0 := fun h => readsWithin_getD h 0 p q hpq
  have hle16 : ∀ o, o + 1 < vlen → le16 p o = le16 q o := fun o h => readsWithin_le16 h p q hpq
  have hlen : 0 + min vlen 23 ≤ vlen := by omega
  have hname : p.take (min vlen 23) = q.take (min vlen 23) := readsWithin_slice hlen p q hpq
  split <;> dsimp only
  case h_1 =>
    -- the flags
    split_ifs with h
    · rw [hbyte h]
    · rfl
  case h_2 | h_3 => rw [hname]
  case h_4 =>
    -- the appearance
    split_ifs with h
    · rw [hle16 0 (by omega)]
    · rfl
  case h_5 | h_6 =>
    -- the list of services
    have hlist : (List.range (vlen / 2)).foldl (fun hint k =>
        hint.or (uuidHint T (le16 p (2 * k)))) st.uuid_hint =
        (List.range (vlen / 2)).foldl (fun hint k =>
          hint.or (uuidHint T (le16 q (2 * k)))) st.uuid_hint := by
      refine List.foldl_ext _ _ _ fun hint k hk => ?_
      have hlt := List.mem_range.1 hk
      rw [hle16 (2 * k) (by omega)]
    rw [hlist]
  case h_7 =>
    -- the data of a service
    split_ifs with h
    · rw [hle16 0 (by omega)]
    · rfl
  case h_8 =>
    split_ifs with h
    · rw [readsWithin_manufacturer h st.m p q hpq]
    · rfl

theorem readsWithin_adNext (n i : ℕ) : ReadsWithin n fun p => adNext p n i := by
  refine ReadsWithin.ite (fun hi => ?_) fun _ => .const _ _
  have hlen : ReadsWithin n fun p : Bytes => p.getD i 0 := readsWithin_getD hi 0
  exact hlen.map fun c : UInt8 =>
    if c.toNat = 0 then none else if n < i + 1 + c.toNat then none else some (i + 1 + c.toNat)

theorem readsWithin_adLoop (n i : ℕ) (st : AdState) :
    ReadsWithin n fun p => adLoop T p n i st := by
  induction hd : n - i using Nat.strong_induction_on generalizing i st with
  | _ d ih =>
    intro p q hpq
    have hnext : adNext p n i = adNext q n i := readsWithin_adNext n i p q hpq
    dsimp only
    cases hq : adNext q n i with
    | none => rw [adLoop_of_none T (hnext.trans hq), adLoop_of_none T hq]
    | some j =>
      obtain ⟨hij, hjn⟩ := adNext_spec hq
      have htype : p.getD (i + 1) 0 = q.getD (i + 1) 0 := readsWithin_getD (by omega) 0 p q hpq
      have hstruct : ∀ t st, adStructure T t (j - (i + 2)) st (p.drop (i + 2)) =
          adStructure T t (j - (i + 2)) st (q.drop (i + 2)) := fun t st =>
        (readsWithin_adSwitch t (j - (i + 2)) _).drop (by omega) p q hpq
      rw [adLoop_of_some T (hnext.trans hq), adLoop_of_some T hq, htype, hstruct]
      exact ih (n - j) (by omega) j _ rfl p q hpq

theorem readsWithin_parseAd (n : ℕ) : ReadsWithin n fun p => parseAd T p n :=
  (readsWithin_adLoop n 0 .init).map (summary T)

/-! ## Structures of a payload -/

/-- The AD structures of a payload, up to one that is empty or runs past its end: type and value. -/
def adStructures : Bytes → List (ℕ × Bytes)
  | [] => []
  | adlen :: rest =>
    if adlen.toNat = 0 then []
    else if rest.length < adlen.toNat then []
    else
      ((rest.getD 0 0).toNat, slice 1 (adlen.toNat - 1) rest) ::
        adStructures (rest.drop adlen.toNat)
termination_by p => p.length
decreasing_by
  rw [List.length_drop, List.length_cons]
  omega

/-- The AD structures in turn. -/
def parseStructures (T : MetaTables) (payload : Bytes) : AdFields :=
  summary T ((adStructures payload).foldl
    (fun st x => adStructure T x.1 x.2.length st x.2) .init)

theorem adLoop_eq_foldl {p : Bytes} {n : ℕ} (hn : n ≤ p.length) (i : ℕ) (st : AdState) :
    adLoop T p n i st = (adStructures (slice i (n - i) p)).foldl
      (fun st x => adStructure T x.1 x.2.length st x.2) st := by
  induction hd : n - i using Nat.strong_induction_on generalizing i st with
  | _ d ih =>
    subst hd
    by_cases hi : i < n
    · have hrest : (slice (i + 1) (n - i - 1) p).length = n - i - 1 := slice_length (by omega)
      rw [slice_eq_cons (by omega) (by omega) 0, adStructures, hrest]
      by_cases hzero : (p.getD i 0).toNat = 0
      · rw [if_pos hzero, adLoop_of_none T (by rw [adNext, if_pos hi, if_pos hzero])]
        rfl
      by_cases hpast : n < i + 1 + (p.getD i 0).toNat
      · rw [if_neg hzero, if_pos (by omega),
          adLoop_of_none T (by rw [adNext, if_pos hi, if_neg hzero, if_pos hpast])]
        rfl
      -- a structure that is whole, and the rest of the payload
      have hnext : adNext p n i = some (i + 1 + (p.getD i 0).toNat) := by
        rw [adNext, if_pos hi, if_neg hzero, if_neg hpast]
      have htype : (slice (i + 1) (n - i - 1) p).getD 0 0 = p.getD (i + 1) 0 := by
        rw [slice_eq_cons (by omega) (by omega) 0, List.getD_cons_zero]
      have hval : slice 1 ((p.getD i 0).toNat - 1) (slice (i + 1) (n - i - 1) p) =
          slice (i + 2) ((p.getD i 0).toNat - 1) p := slice_slice (by omega) p
      have hbehind : (slice (i + 1) (n - i - 1) p).drop (p.getD i 0).toNat =
          slice (i + 1 + (p.getD i 0).toNat) (n - (i + 1 + (p.getD i 0).toNat)) p := by
        rw [slice, slice, List.drop_take, List.drop_drop]
        congr 1
        omega
      have hvlen : i + 1 + (p.getD i 0).toNat - (i + 2) = (p.getD i 0).toNat - 1 := by omega
      have hlen : (slice (i + 2) ((p.getD i 0).toNat - 1) p).length = (p.getD i 0).toNat - 1 :=
        slice_length (by omega)
      have hstruct : ∀ t st, adStructure T t ((p.getD i 0).toNat - 1) st (p.drop (i + 2)) =
          adStructure T t ((p.getD i 0).toNat - 1) st (slice (i + 2) ((p.getD i 0).toNat - 1) p) :=
        fun t st => ((readsWithin_adSwitch t _ _).take _).symm
      rw [if_neg hzero, if_neg (by omega), adLoop_of_some T hnext, List.foldl_cons, htype, hval,
        hbehind, hvlen, hlen, hstruct]
      exact ih _ (by omega) _ _ rfl
    · have hnil : slice i (n - i) p = [] := by
        rw [slice, Nat.sub_eq_zero_of_le (by omega), List.take_zero]
      rw [hnil, adLoop_of_none T (by rw [adNext, if_neg hi])]
      rw [adStructures]
      rfl

theorem parseAd_eq_parseStructures {p : Bytes} {n : ℕ} (hn : n ≤ p.length) :
    parseAd T p n = parseStructures T (p.take n) := by
  rw [parseAd, adLoop_eq_foldl hn]
  rfl

end

/-! ## Records -/

/-- The numbers of a record with `parse_ad`. -/
abbrev PacketMath.withAd (P : PacketMath) (T : MetaTables) : PacketMath :=
  { P with
    Ad := AdFields
    parseAd := fun payload => parseStructures T payload }

variable {P : PacketMath} {T : MetaTables}

/-- The record that `decode_at` makes of `raw`, in which `parse_ad` gets the pointer `pl+6`. -/
def btleRecord (T : MetaTables) (adv_chan : ℕ) (rssi : P.Power) (cfo_hz : P.Offset) (raw : Bytes)
    (length : ℕ) : BtleRecord (P.withAd T) :=
  let m : BtleRecord (P.withAd T) := recordOf adv_chan rssi cfo_hz raw length
  { m with ad := m.ad.map fun _ => parseAd T (raw.drop 8) (length - 6) }

/-- A packet with its payload of 6 to 37 bytes, as long as the header says. -/
structure AdvPdu where
  first : UInt8
  second : UInt8
  payload : Bytes
  length_eq : payload.length = second.toNat % 64
  six_le : 6 ≤ payload.length
  le_max : payload.length ≤ 37

namespace AdvPdu

/-- The bytes of a packet. -/
def bytes (pdu : AdvPdu) : Bytes := pdu.first :: pdu.second :: pdu.payload

/-- The type of a packet; 5 is CONNECT_IND. -/
def pduType (pdu : AdvPdu) : ℕ := pdu.first.toNat % 16

/-- The record of a packet, with other bytes behind it. -/
def record (T : MetaTables) (adv_chan : ℕ) (rssi : P.Power) (cfo_hz : P.Offset) (pdu : AdvPdu)
    (behind : Bytes) : BtleRecord (P.withAd T) :=
  btleRecord T adv_chan rssi cfo_hz (pdu.bytes ++ behind) pdu.payload.length

/-- What is behind a packet is not looked at, the parameters of a connection are those of a whole
CONNECT_IND, and the fields of AD structures are those of the whole structures of the payload. -/
structure ReadsPacket (T : MetaTables) (adv_chan : ℕ) (rssi : P.Power) (cfo_hz : P.Offset)
    (pdu : AdvPdu) : Prop where
  payload_only : ∀ behind behind',
    pdu.record T adv_chan rssi cfo_hz behind = pdu.record T adv_chan rssi cfo_hz behind'
  connect_full : ∀ behind, (pdu.record T adv_chan rssi cfo_hz behind).connect.isSome →
    pdu.pduType = 5 ∧ 34 ≤ pdu.payload.length
  ad_whole : ∀ behind, ∀ ad ∈ (pdu.record T adv_chan rssi cfo_hz behind).ad,
    ad = parseStructures T (pdu.payload.drop 6)

variable (adv_chan : ℕ) (rssi : P.Power) (cfo_hz : P.Offset) (pdu : AdvPdu)

theorem connect_record (behind : Bytes) :
    (pdu.record T adv_chan rssi cfo_hz behind).connect.isSome = decide (pdu.pduType = 5) := by
  have htype : ((pdu.bytes ++ behind).getD 0 0).toNat % 16 = pdu.pduType := rfl
  rw [record, btleRecord, recordOf, htype]
  dsimp only
  split_ifs with h hother
  · exact (decide_eq_true h).symm
  · exact (decide_eq_false h).symm
  · exact (decide_eq_false h).symm

theorem ad_record (behind : Bytes) : (pdu.record T adv_chan rssi cfo_hz behind).ad =
    if pdu.pduType = 0 ∨ pdu.pduType = 2 ∨ pdu.pduType = 4 ∨ pdu.pduType = 6 then
      some (parseStructures T (pdu.payload.drop 6))
    else none := by
  have htype : ((pdu.bytes ++ behind).getD 0 0).toNat % 16 = pdu.pduType := rfl
  have hsix := pdu.six_le
  have hbehind : (pdu.bytes ++ behind).drop 8 = pdu.payload.drop 6 ++ behind := by
    rw [← List.drop_append_of_le_length hsix]
    rfl
  have hlen : (pdu.payload.drop 6).length = pdu.payload.length - 6 := List.length_drop
  have hparse : parseAd T (pdu.payload.drop 6 ++ behind) (pdu.payload.length - 6) =
      parseStructures T (pdu.payload.drop 6) := by
    rw [parseAd_eq_parseStructures, ← hlen, List.take_left]
    rw [List.length_append, hlen]
    omega
  rw [record, btleRecord, recordOf, htype, hbehind, hparse]
  dsimp only
  split_ifs with h hno hno
  · omega
  · rfl
  · rfl
  · rfl

/-- The fields at fixed places of a CONNECT_IND are in its payload if it has 34 bytes. -/
theorem record_behind (h : pdu.pduType ≠ 5 ∨ 34 ≤ pdu.payload.length) (behind behind' : Bytes) :
    pdu.record T adv_chan rssi cfo_hz behind = pdu.record T adv_chan rssi cfo_hz behind' := by
  have hsix := pdu.six_le
  have hfirst : ∀ behind, (pdu.bytes ++ behind).getD 0 0 = pdu.first := fun _ => rfl
  have htype : pdu.first.toNat % 16 = pdu.pduType := rfl
  have hpl : ∀ behind, (pdu.bytes ++ behind).drop 2 = pdu.payload ++ behind := fun _ => rfl
  have hparse : parseAd T ((pdu.bytes ++ behind).drop 8) (pdu.payload.length - 6) =
      parseAd T ((pdu.bytes ++ behind').drop 8) (pdu.payload.length - 6) := by
    have hlen : pdu.bytes.length = pdu.payload.length + 2 := rfl
    exact ((readsWithin_parseAd (pdu.payload.length - 6)).drop (by omega)).append behind behind'
  have hmac : (pdu.payload ++ behind).take 6 = (pdu.payload ++ behind').take 6 := by
    rw [List.take_append_of_le_length hsix, List.take_append_of_le_length hsix]
  rw [record, record, btleRecord, btleRecord, recordOf, recordOf, hfirst, hfirst, htype, hpl, hpl,
    hparse, hmac]
  dsimp only
  by_cases hconnect : pdu.pduType = 5
  · have hfull : 34 ≤ pdu.payload.length := h.resolve_left (not_not_intro hconnect)
    have hadv : slice 6 6 (pdu.payload ++ behind) = slice 6 6 (pdu.payload ++ behind') :=
      (readsWithin_slice (by omega)).append behind behind'
    have hslice : ∀ off len, off + len ≤ 22 →
        slice off len ((pdu.payload ++ behind).drop 12) =
          slice off len ((pdu.payload ++ behind').drop 12) := fun off len hll =>
      ((readsWithin_slice hll).drop (by omega)).append behind behind'
    have hhop : ((pdu.payload ++ behind).drop 12).getD 21 0 =
        ((pdu.payload ++ behind').drop 12).getD 21 0 :=
      ((readsWithin_getD (by omega : 21 < 22) 0).drop (by omega)).append behind behind'
    rw [if_pos hconnect, if_pos hconnect, hadv, hhop, hslice 0 4 (by omega), hslice 4 3 (by omega),
      hslice 10 2 (by omega), hslice 12 2 (by omega), hslice 14 2 (by omega),
      hslice 16 5 (by omega)]
  · rw [if_neg hconnect, if_neg hconnect]
    split_ifs <;> rfl

theorem readsPacket_iff_length : pdu.ReadsPacket T adv_chan rssi cfo_hz ↔
    pdu.pduType ≠ 5 ∨ 34 ≤ pdu.payload.length := by
  constructor
  · intro h
    by_cases hconnect : pdu.pduType = 5
    · refine Or.inr (h.connect_full [] ?_).2
      rw [connect_record, decide_eq_true hconnect]
    · exact Or.inl hconnect
  · intro h
    refine ⟨record_behind adv_chan rssi cfo_hz pdu h, ?_, ?_⟩
    · intro behind hsome
      rw [connect_record] at hsome
      have hconnect := of_decide_eq_true hsome
      exact ⟨hconnect, h.resolve_left (not_not_intro hconnect)⟩
    · intro behind ad had
      rw [ad_record] at had
      split_ifs at had with htypes
      · exact (Option.mem_some_iff.1 had).symm
      · cases had

end AdvPdu

/-! ## The decoder -/

theorem btleRecord_eq_recordOf (adv_chan : ℕ) (rssi : P.Power) (cfo_hz : P.Offset) {raw : Bytes}
    {length : ℕ} (hraw : 2 + length ≤ raw.length) :
    btleRecord T adv_chan rssi cfo_hz raw length =
      recordOf (P := P.withAd T) adv_chan rssi cfo_hz raw length := by
  have hbytes : (raw.drop 8).length = raw.length - 8 := List.length_drop
  have hparse : parseAd T (raw.drop 8) (length - 6) =
      parseStructures T (slice 6 (length - 6) (raw.drop 2)) := by
    rw [parseAd_eq_parseStructures (by omega), slice, List.drop_drop]
  rw [btleRecord, recordOf, hparse]
  dsimp only
  split_ifs <;> rfl

theorem getBytes_append (x : ℕ → Level) (pol : Bool) (dc : Level) (raw : Bytes × Whiten)
    (first n : ℕ) :
    ∃ t : Bytes, t.length = n ∧ (getBytes x pol dc raw first n).1 = raw.1 ++ t := by
  induction n generalizing raw first with
  | zero => exact ⟨[], rfl, (List.append_nil _).symm⟩
  | succ n ih =>
    obtain ⟨t, hlen, ht⟩ := ih (raw.1 ++ [(getByte x pol dc raw.2 first).1],
      (getByte x pol dc raw.2 first).2) (first + 1)
    refine ⟨(getByte x pol dc raw.2 first).1 :: t, by rw [List.length_cons, hlen], ?_⟩
    rw [getBytes, List.range'_succ, List.foldl_cons]
    exact ht.trans (List.append_assoc _ _ _)

theorem AdvPdu.exists_bytes (first : UInt8) {second : UInt8} (rest : Bytes) {length : ℕ}
    (hlength : second.toNat % 64 = length) (hsix : 6 ≤ length) (hmax : length ≤ 37)
    (hrest : length ≤ rest.length) : ∃ pdu : AdvPdu,
      pdu.bytes = first :: second :: rest.take length ∧ pdu.payload.length = length := by
  have hpayload : (rest.take length).length = length := by
    rw [List.length_take, Nat.min_eq_left hrest]
  exact ⟨⟨first, second, rest.take length, hpayload.trans hlength.symm, by omega, by omega⟩, rfl,
    hpayload⟩

theorem mem_records_decodeAt {spb : ℚ} {adv_chan : ℕ} {buf : List FmSample} {j : ℕ} {pol : Bool}
    {dc : Level} {o : Output (P.withAd T)} {r : BtleRecord (P.withAd T)}
    (hr : r ∈ (decodeAt spb adv_chan buf j pol dc o).2.records) :
    r ∈ o.records ∨ ∃ (pdu : AdvPdu) (behind : Bytes) (rssi : P.Power),
      (bleCrc pdu.bytes 0xAAAAAA).toNat = leNat (behind.take 3) ∧
        r = pdu.record T adv_chan rssi (P.cfo dc) behind := by
  unfold decodeAt at hr
  dsimp only at hr
  obtain ⟨header, hheader, hget⟩ := getBytes_append (samp spb buf j) pol dc
    ([], Whiten.init adv_chan) 0 2
  obtain ⟨first, second, rfl⟩ := List.length_eq_two.1 hheader
  obtain ⟨rest, hrest, hraw⟩ := getBytes_append (samp spb buf j) pol dc
    (getBytes (samp spb buf j) pol dc ([], Whiten.init adv_chan) 0 2) 2
    (2 + second.toNat % 64 + 3 - 2)
  rw [hget, List.nil_append] at hraw
  rw [hget] at hr
  have hlength : (([] ++ [first, second] : Bytes).getD 1 0).toNat % 64 = second.toNat % 64 := rfl
  dsimp only at hr
  rw [hlength, hraw] at hr
  generalize hn : second.toNat % 64 = length at hr hrest
  split_ifs at hr with hrange hcrc
  · exact Or.inl hr
  · exact Or.inl hr
  rcases List.mem_append.1 hr with hold | hnew
  · exact Or.inl hold
  obtain ⟨pdu, hbytes, hpayload⟩ :=
    AdvPdu.exists_bytes first rest hn (by omega) (by omega) (by omega)
  let behind := rest.drop length ++ List.replicate (44 - ([first, second] ++ rest).length) 0
  have hraw : pdu.bytes ++ behind =
      [first, second] ++ rest ++ List.replicate (44 - ([first, second] ++ rest).length) 0 := by
    rw [hbytes, List.cons_append, List.cons_append, ← List.append_assoc, List.take_append_drop]
    rfl
  have htake : ([first, second] ++ rest).take (2 + length) = pdu.bytes := by
    rw [hbytes, Nat.add_comm]
    rfl
  have hslice : slice (2 + length) 3 ([first, second] ++ rest) = behind.take 3 := by
    rw [slice, Nat.add_comm, List.take_append_of_le_length]
    · rfl
    · rw [List.length_drop]
      omega
  rw [htake, hslice, not_not] at hcrc
  refine Or.inr ⟨pdu, behind, P.rssi ((slice j (spanOf spb (SYNC_BITS + (2 + length + 3 : ℕ) * 8))
    buf).map FmSample.amp), hcrc, ?_⟩
  rw [List.mem_singleton.1 hnew, ← hraw, AdvPdu.record, hpayload, btleRecord_eq_recordOf]
  rw [hraw, List.length_append, List.length_append, hrest]
  omega

/-- Every record of the decoder is that of a packet whose CRC is right. It is read from the packet
alone just if that is no CONNECT_IND shorter than 34 bytes. The walks of the structures of a payload
and of the data of Apple end. -/
theorem readsPacket_iff (P : PacketMath) (T : MetaTables) :
    (∀ spb adv_chan buf j pol dc (o : Output (P.withAd T)),
      ∀ r ∈ (decodeAt spb adv_chan buf j pol dc o).2.records,
        r ∈ o.records ∨ ∃ (pdu : AdvPdu) (behind : Bytes) (rssi : P.Power),
          (bleCrc pdu.bytes 0xAAAAAA).toNat = leNat (behind.take 3) ∧
            r = pdu.record T adv_chan rssi (P.cfo dc) behind) ∧
    (∀ adv_chan (rssi : P.Power) (cfo_hz : P.Offset) (pdu : AdvPdu),
      pdu.ReadsPacket T adv_chan rssi cfo_hz ↔
        pdu.pduType ≠ 5 ∨ 34 ≤ pdu.payload.length) ∧
    ∀ p n, (∃ k ≤ n + 1, (fun o => Option.bind o (adNext p n))^[k] (some 0) = none) ∧
      ∃ k ≤ n + 1, (fun o => Option.bind o (appleNext p n))^[k] (some 0) = none := by
  refine ⟨fun _ _ _ _ _ _ _ _ hr => mem_records_decodeAt hr,
    fun adv_chan rssi cfo_hz pdu => pdu.readsPacket_iff_length adv_chan rssi cfo_hz,
    fun p n => ⟨?_, ?_⟩⟩
  · refine exists_iterate_eq_none (fun i j hj => ?_) 0 (Nat.zero_le n)
    obtain ⟨hij, hjn⟩ := adNext_spec hj
    exact ⟨by omega, hjn⟩
  · refine exists_iterate_eq_none (fun i j hj => ?_) 0 (Nat.zero_le n)
    obtain ⟨hij, hjn, -⟩ := appleNext_spec hj
    exact ⟨hij, hjn⟩

/-- A CONNECT_IND with a payload of 6 bytes. -/
def shortConnect : AdvPdu where
  first := 0x05
  second := 6
  payload := [1, 2, 3, 4, 5, 6]
  length_eq := rfl
  six_le := by decide
  le_max := by decide

/-- It gets the parameters of a connection, from what is behind it. -/
theorem not_readsPacket_shortConnect :
    ¬shortConnect.ReadsPacket (P := ⟨Unit, Unit, Unit, fun _ => (), fun _ => (), fun _ => ()⟩)
      ⟨fun _ => [], fun _ => [], fun _ => [], fun _ => []⟩ 37 () () :=
  fun h => absurd (h.connect_full [] rfl).2 (by decide)

end Bewe.Btle

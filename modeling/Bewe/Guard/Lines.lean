import Bewe.EmitterDb.Jsonl
import Bewe.Guard.Alerts
import Bewe.Lib.Find
import Bewe.Lib.Scanf
import Bewe.Lib.Single

/-!
# The lines of the guard

A line as `json.dumps` writes it for `append_alert`, and as `parse_alert_line` of `guard_module.cpp`
reads it: every member is searched for by its key (`jll`, `jf`, `jstr`), and a string goes into an
array of bytes. `parse_dumps` says what comes of a line that is read.
-/

namespace Bewe.Guard

open Lib
open EmitterDb (quote backslash comma colon openBrace closeBrace lineFeed carriageReturn tab letterN
  hexByte escapeByte member object)

/-! ## Writing -/

/-- One byte of a string in `json.dumps`, characters that are not ASCII being left as they are. -/
def dumpsByte (c : UInt8) : Bytes :=
  if c = 8 then [backslash, 98]
  else if c = 12 then [backslash, 102]
  else escapeByte c

/-- A string in `json.dumps`. -/
def dumpsStr (s : Bytes) : Bytes := quote :: (s.flatMap dumpsByte ++ [quote])

/-- How many significant digits are enough to read a number back. -/
def reprDigits (a : ℚ) : ℕ :=
  ((List.range' 1 17).find? fun n => roundBits 53 (roundSig n a) = a).getD 17

/-- `float.__repr__` of a positive number with the `n` digits `m` and the exponent `x`. -/
def reprText (n m : ℕ) (x : ℤ) : Bytes :=
  if x < -4 ∨ 16 ≤ x then natText (m / 10 ^ (n - 1)) ++ fracText (padDigits (n - 1) m) ++ expText x
  else if (n : ℤ) - 1 ≤ x then natText (m * 10 ^ (x - (n - 1)).toNat) ++ [dotByte, digitByte 0]
  else
    let p := (n - 1 - x).toNat
    natText (m / 10 ^ p) ++ dotByte :: padDigits p m

/-- A float in `json.dumps`; zero has no sign here. -/
def dumpsFloat : Fp 53 → Bytes
  | .fin q _ =>
    if q = 0 then [digitByte 0, dotByte, digitByte 0]
    else
      let n := reprDigits |q|
      signText (q < 0) ++ reprText n (sigDigits n |q|).1 (sigDigits n |q|).2
  | .inf neg => signText neg ++ ascii "Infinity"
  | .nan _ => ascii "NaN"

/-- The members of a line that are numbers. -/
def Doc.numbers (d : Doc) : List (String × Bytes) :=
  [("v", intText 1), ("t", intText d.t), ("aid", intText d.aid.toNat), ("typ", intText d.typ),
    ("sev", intText d.sev), ("st", intText (st_code d.st)), ("mmsi", intText d.mmsi),
    ("mmsi2", intText d.mmsi2), ("lat", dumpsFloat d.lat), ("lon", dumpsFloat d.lon),
    ("score", dumpsFloat d.score), ("cpa", dumpsFloat d.cpa), ("tcpa", dumpsFloat d.tcpa)]

/-- `json.dumps` of a line. -/
def dumps (d : Doc) : Bytes :=
  object ((d.numbers ++ [("msg", dumpsStr d.msg), ("reco", dumpsStr d.reco)]).map
    fun m => member m.1 m.2)

/-! ## Reading -/

/-- A `char[cap]` with a C string. -/
structure CStr (cap : ℕ) where
  str : Bytes
  length_lt : str.length < cap
  deriving DecidableEq

/-- No string. -/
def CStr.empty {cap : ℕ} (h : 0 < cap) : CStr cap := ⟨[], h⟩

/-- The loop of `jstr`, for `n` bytes at most. -/
def jstrChars : ℕ → Bytes → Bytes
  | 0, _ => []
  | _ + 1, [] => []
  | n + 1, c :: t =>
    if c = 0 ∨ c = quote then []
    else if c = backslash then
      match t with
      | [] => []
      | d :: u =>
        if d = letterN then lineFeed :: jstrChars n u
        else if d = 0 then []
        else d :: jstrChars n u
    else c :: jstrChars n t

theorem length_jstrChars (n : ℕ) (t : Bytes) : (jstrChars n t).length ≤ n := by
  fun_induction jstrChars n t <;> simp_all

/-- A key with its quotes and the colon. -/
def keyText (k : String) : Bytes := quote :: (ascii k ++ [quote, colon])

/-- `jstr`, into an array of `n + 1` bytes. -/
def jstr (n : ℕ) (l : Bytes) (k : String) : CStr (n + 1) :=
  ⟨((findAfter (keyText k ++ [quote]) l).map (jstrChars n)).getD [], by
    cases findAfter (keyText k ++ [quote]) l with
    | none => exact Nat.succ_pos n
    | some p => exact Nat.lt_succ_of_le (length_jstrChars n p)⟩

/-- `jll`. -/
def jll (l : Bytes) (k : String) : ℤ := ((findAfter (keyText k) l).map atoll).getD 0

/-- `jf`, a `float` of it, and `old` where there is no such member. -/
def jf (l : Bytes) (k : String) (old : ℚ) : Single :=
  ((findAfter (keyText k) l).map fun t => Single.ofDouble (strtod t).1).getD
    (Single.ofDouble (.ofRat double_pos old))

/-- `GuardAlert`, but for the station, which comes with the envelope. -/
structure GuardAlert where
  t_ms : ℤ
  aid : UInt32
  typ : UInt8
  sev : UInt8
  state : UInt8
  mmsi : UInt32
  mmsi2 : UInt32
  lat : Single
  lon : Single
  score : Single
  cpa_m : Single
  tcpa_s : Single
  msg : CStr 96
  reco : CStr 128

/-- What `parse_alert_line` fills in. -/
def readAlert (l : Bytes) : GuardAlert where
  t_ms := jll l "t"
  aid := UInt32.ofInt (jll l "aid")
  typ := UInt8.ofInt (jll l "typ")
  sev := UInt8.ofInt (jll l "sev")
  state := UInt8.ofInt (jll l "st")
  mmsi := UInt32.ofInt (jll l "mmsi")
  mmsi2 := UInt32.ofInt (jll l "mmsi2")
  lat := jf l "lat" 0
  lon := jf l "lon" 0
  score := jf l "score" 0
  cpa_m := jf l "cpa" (-1)
  tcpa_s := jf l "tcpa" (-1)
  msg := jstr 95 l "msg"
  reco := jstr 127 l "reco"

/-- `parse_alert_line`. -/
def parse_alert_line (l : Bytes) : Option GuardAlert :=
  let a := readAlert l
  if 0 < a.t_ms ∧ a.aid ≠ 0 ∧ 1 ≤ a.typ ∧ a.typ ≤ 7 ∧ 1 ≤ a.sev ∧ a.sev ≤ 3 ∧
      1 ≤ a.state ∧ a.state ≤ 3 then some a
  else none

/-! ## What is read of a line -/

theorem quote_notMem_dumpsByte {c : UInt8} (hc : c ≠ quote) : quote ∉ dumpsByte c := by
  have hhex : ∀ d < 16, quote ≠ hexByte d := by decide
  have hhigh := hhex (c.toNat / 16) (Nat.div_lt_of_lt_mul c.toNat_lt)
  have hlow := hhex (c.toNat % 16) (Nat.mod_lt _ (by decide))
  unfold dumpsByte escapeByte
  rw [if_neg hc]
  split_ifs
  any_goals decide
  · simp only [List.mem_cons, List.not_mem_nil, hhigh, hlow, or_false]
    decide
  · simpa using hc.symm

theorem escape_dumpsByte : Escape quote backslash dumpsByte where
  ne := by decide
  quote := rfl
  other c hc := quote_notMem_dumpsByte hc
  plain c := by
    unfold dumpsByte escapeByte
    split_ifs <;> simp

/-- A string without control characters is read back, as far as there is room. -/
theorem jstrChars_dumpsStr {s : Bytes} (hs : ∀ c ∈ s, 32 ≤ c) (n : ℕ) (t : Bytes) :
    jstrChars n (s.flatMap dumpsByte ++ quote :: t) = s.take n := by
  induction s generalizing n with
  | nil =>
    cases n with
    | zero => rfl
    | succ n => rfl
  | cons c s ih =>
    cases n with
    | zero => rfl
    | succ n =>
      have hrest := ih (fun d hd => hs d (List.mem_cons_of_mem _ hd)) n
      have hc := hs c List.mem_cons_self
      rw [List.flatMap_cons, List.append_assoc, List.take_succ_cons, ← hrest]
      by_cases hquote : c = quote
      · subst hquote
        rfl
      by_cases hback : c = backslash
      · subst hback
        rfl
      have hbyte : dumpsByte c = [c] := by
        have hne : ∀ d < 32, c ≠ d := fun d hd h => UInt8.not_le.2 hd (h ▸ hc)
        unfold dumpsByte escapeByte
        rw [if_neg (hne 8 (by decide)), if_neg (hne 12 (by decide)), if_neg hquote, if_neg hback,
          if_neg (hne lineFeed (by decide)), if_neg (hne carriageReturn (by decide)),
          if_neg (hne tab (by decide)),
          if_neg (UInt8.not_lt.2 hc)]
      have hzero : ¬(c = 0 ∨ c = quote) := by
        rintro (rfl | h)
        · exact absurd hc (by decide)
        · exact hquote h
      rw [hbyte, List.singleton_append]
      exact (if_neg hzero).trans (if_neg hback)

theorem isNumByte_of_mem_reprText {n m : ℕ} {x : ℤ} {c : UInt8} (h : c ∈ reprText n m x) :
    isNumByte c = true := by
  have hnat : ∀ k, c ∈ natText k → isNumByte c = true := fun k hk =>
    isNumByte_of_isDigit (isDigit_of_mem_natText hk)
  unfold reprText at h
  split_ifs at h
  · rcases List.mem_append.1 h with h | h
    · rcases List.mem_append.1 h with h | h
      · exact hnat _ h
      · exact isNumByte_of_mem_fracText (fun d hd => isDigit_of_mem_padDigits hd) h
    · exact isNumByte_of_mem_expText h
  · rcases List.mem_append.1 h with h | h
    · exact hnat _ h
    · have hall : ∀ c ∈ [dotByte, digitByte 0], isNumByte c = true := List.all_eq_true.1 rfl
      exact hall c h
  · rcases List.mem_append.1 h with h | h
    · exact hnat _ h
    · rcases List.mem_cons.1 h with rfl | h
      · rfl
      · exact isNumByte_of_isDigit (isDigit_of_mem_padDigits h)

theorem quote_notMem_of_isNumByte {s : Bytes} (h : ∀ c ∈ s, isNumByte c = true) : quote ∉ s :=
  fun hq => absurd (h quote hq) (by decide)

theorem quote_notMem_dumpsFloat (x : Fp 53) : quote ∉ dumpsFloat x := by
  cases x with
  | fin q _ =>
    unfold dumpsFloat
    dsimp only
    split_ifs
    · decide
    · refine quote_notMem_of_isNumByte fun c hc => ?_
      rcases List.mem_append.1 hc with hc | hc
      · exact isNumByte_of_mem_signText hc
      · exact isNumByte_of_mem_reprText hc
  | inf neg => cases neg <;> decide
  | nan neg => cases neg <;> decide

theorem quote_notMem_numbers (d : Doc) :
    ∀ m ∈ d.numbers.map fun m => (ascii m.1, m.2), quote ∉ m.1 ∧ quote ∉ m.2 := by
  have hint : ∀ z, quote ∉ intText z := fun z =>
    quote_notMem_of_isNumByte fun c hc => isNumByte_of_mem_intText hc
  have hkeys : ∀ k ∈ d.numbers.map Prod.fst, quote ∉ ascii k := by
    unfold Doc.numbers
    simp only [List.map_cons, List.map_nil]
    decide
  have hvalues : ∀ v ∈ d.numbers.map Prod.snd, quote ∉ v := by
    unfold Doc.numbers
    simp only [List.map_cons, List.map_nil, List.forall_mem_cons, hint, quote_notMem_dumpsFloat,
      not_false_eq_true, true_and]
    exact fun v hv => absurd hv List.not_mem_nil
  intro m hm
  obtain ⟨n, hn, rfl⟩ := List.mem_map.1 hm
  exact ⟨hkeys _ (List.mem_map_of_mem hn), hvalues _ (List.mem_map_of_mem hn)⟩

theorem intercalate_members (ms : List (String × Bytes)) (x y : Bytes) :
    List.intercalate [comma] (ms.map (fun m => member m.1 m.2) ++ [x, y]) =
      pairsText quote colon comma (ms.map fun m => (ascii m.1, m.2)) ++ (x ++ comma :: y) := by
  induction ms with
  | nil => simp [pairsText]
  | cons m ms ih =>
    have hne : ms.map (fun m => member m.1 m.2) ++ [x, y] ≠ [] := by simp
    obtain ⟨z, zs, hz⟩ := List.exists_cons_of_ne_nil hne
    rw [List.map_cons, List.cons_append, hz, List.intercalate_cons_cons, ← hz, ih]
    simp [pairsText, member]

theorem dumps_eq (d : Doc) :
    dumps d = [openBrace] ++
      (pairsText quote colon comma (d.numbers.map fun m => (ascii m.1, m.2)) ++
      (quote :: (ascii "msg" ++ quote :: colon :: (dumpsStr d.msg ++
        comma :: (keyText "reco" ++ (dumpsStr d.reco ++ [closeBrace])))))) := by
  rw [dumps, object, List.map_append]
  simp only [List.map_cons, List.map_nil]
  rw [intercalate_members]
  simp [member, keyText]

theorem jll_dumps {d : Doc} {k : String} {z : ℤ} (hk : quote ∉ ascii k ∧ colon ∉ ascii k)
    (h : (d.numbers.map fun m => (ascii m.1, m.2)).lookup (ascii k) = some (intText z)) :
    jll (dumps d) k = max (-2 ^ 63) (min (2 ^ 63 - 1) z) := by
  obtain ⟨r, hr⟩ := findAfter_lookup hk.1 hk.2 (show colon ≠ quote by decide)
    (show comma ≠ quote by decide) (quote_notMem_numbers d) h
      (quote :: (ascii "msg" ++ quote :: colon :: (dumpsStr d.msg ++
        comma :: (keyText "reco" ++ (dumpsStr d.reco ++ [closeBrace])))))
  have hfind : findAfter (keyText k) (dumps d) = some (intText z ++ comma :: r) := by
    rw [dumps_eq, keyText, findAfter_append (by decide), hr]
  have hends : EndsDigits (comma :: r) := by
    intro c hc
    obtain rfl : comma = c := by simpa using hc
    decide
  rw [jll, hfind, Option.map_some, Option.getD_some, atoll_intText z hends]

theorem findAfter_numbers (d : Doc) {k : String} (hk : quote ∉ ascii k ∧ colon ∉ ascii k)
    (h : ∀ m ∈ d.numbers, ascii m.1 ≠ ascii k) :
    findAfter (keyText k ++ [quote]) (dumps d) = findAfter (keyText k ++ [quote])
      (quote :: (ascii "msg" ++ quote :: colon :: (dumpsStr d.msg ++
        comma :: (keyText "reco" ++ (dumpsStr d.reco ++ [closeBrace]))))) := by
  have hkey : keyText k ++ [quote] = quote :: (ascii k ++ quote :: colon :: [quote]) := by
    simp [keyText]
  rw [dumps_eq, hkey, findAfter_append (by decide), findAfter_pairsText hk.1 hk.2 (by decide)
    (by decide)]
  intro m hm
  obtain ⟨hq, hv⟩ := quote_notMem_numbers d m hm
  obtain ⟨n, hn, rfl⟩ := List.mem_map.1 hm
  exact ⟨hq, hv, h n hn⟩

theorem jstr_msg {d : Doc} (h : ∀ c ∈ d.msg, 32 ≤ c) (n : ℕ) :
    (jstr n (dumps d) "msg").str = d.msg.take n := by
  have hkeys : ∀ k ∈ d.numbers.map Prod.fst, ascii k ≠ ascii "msg" := by
    unfold Doc.numbers
    simp only [List.map_cons, List.map_nil]
    decide
  have hsplit : quote :: (ascii "msg" ++ quote :: colon :: (dumpsStr d.msg ++
      comma :: (keyText "reco" ++ (dumpsStr d.reco ++ [closeBrace])))) =
      keyText "msg" ++ [quote] ++ (d.msg.flatMap dumpsByte ++ quote ::
        comma :: (keyText "reco" ++ (dumpsStr d.reco ++ [closeBrace]))) := by
    simp [keyText, dumpsStr]
  unfold jstr
  dsimp only
  rw [findAfter_numbers d (by decide) (fun m hm => hkeys _ (List.mem_map_of_mem hm)), hsplit,
    findAfter_self, Option.map_some, Option.getD_some, jstrChars_dumpsStr h]

theorem jstr_reco {d : Doc} (h : ∀ c ∈ d.reco, 32 ≤ c) (n : ℕ) :
    (jstr n (dumps d) "reco").str = d.reco.take n := by
  have hkeys : ∀ k ∈ d.numbers.map Prod.fst, ascii k ≠ ascii "reco" := by
    unfold Doc.numbers
    simp only [List.map_cons, List.map_nil]
    decide
  have hkey : keyText "reco" ++ [quote] = quote :: (ascii "reco" ++ quote :: colon :: [quote]) := by
    simp [keyText]
  have hmsg : dumpsStr d.msg ++ comma :: (keyText "reco" ++ (dumpsStr d.reco ++ [closeBrace])) =
      quote :: (d.msg.flatMap dumpsByte ++ quote :: comma ::
        (keyText "reco" ++ (dumpsStr d.reco ++ [closeBrace]))) := by
    simp [dumpsStr]
  have hsplit : keyText "reco" ++ (dumpsStr d.reco ++ [closeBrace]) =
      keyText "reco" ++ [quote] ++ (d.reco.flatMap dumpsByte ++ quote :: [closeBrace]) := by
    simp [dumpsStr]
  have hfind : findAfter (keyText "reco" ++ [quote]) (dumps d) =
      some (d.reco.flatMap dumpsByte ++ quote :: [closeBrace]) := by
    rw [findAfter_numbers d (by decide) (fun m hm => hkeys _ (List.mem_map_of_mem hm)), hkey,
      findAfter_segment (by decide) (by decide) (fun heq => absurd heq (by decide)),
      findAfter_quote (by decide) (by decide), hmsg,
      findAfter_string escape_dumpsByte (by decide) (by decide) (by decide) (by decide) (by decide),
      hsplit, ← hkey, findAfter_self]
  unfold jstr
  dsimp only
  rw [hfind, Option.map_some, Option.getD_some, jstrChars_dumpsStr h]

theorem ofInt_natCast {n : ℕ} (h : n < 2 ^ 32) : UInt32.ofInt n = UInt32.ofNat n := by
  have hmod : ((n : ℤ) % 2 ^ 32).toNat = n := by omega
  rw [UInt32.ofInt, hmod]

theorem ofInt_toNat (x : UInt32) : UInt32.ofInt x.toNat = x := by
  rw [ofInt_natCast x.toNat_lt, UInt32.ofNat_toNat]

/-- A line that is published, and that a viewer takes. -/
structure Doc.Sound (d : Doc) : Prop where
  t_pos : 0 < d.t
  aid_ne : d.aid ≠ 0
  typ_pos : 1 ≤ d.typ
  typ_le : d.typ ≤ 7
  sev_pos : 1 ≤ d.sev
  sev_le : d.sev ≤ 3
  msg_ge : ∀ c ∈ d.msg, 32 ≤ c
  msg_le : d.msg.length ≤ 95
  reco_ge : ∀ c ∈ d.reco, 32 ≤ c
  reco_le : d.reco.length ≤ 127

/-- What a viewer reads of a line, but for what it measures. -/
theorem parse_dumps {d : Doc} (h : d.Sound) :
    ∃ a, parse_alert_line (dumps d) = some a ∧ a.aid = d.aid ∧ a.typ = UInt8.ofInt d.typ ∧
      a.sev = UInt8.ofInt d.sev ∧ a.state = UInt8.ofNat (st_code d.st) ∧
      a.mmsi = UInt32.ofInt (max (-2 ^ 63) (min (2 ^ 63 - 1) d.mmsi)) ∧
      a.mmsi2 = UInt32.ofInt (max (-2 ^ 63) (min (2 ^ 63 - 1) d.mmsi2)) ∧
      a.msg.str = d.msg ∧ a.reco.str = d.reco := by
  have ht : jll (dumps d) "t" = max (-2 ^ 63) (min (2 ^ 63 - 1) d.t) :=
    jll_dumps (by decide) (by simp [Doc.numbers, List.lookup_cons, ascii])
  have haid : jll (dumps d) "aid" = d.aid.toNat := by
    have hread := jll_dumps (d := d) (k := "aid") (z := d.aid.toNat) (by decide)
      (by simp [Doc.numbers, List.lookup_cons, ascii])
    rw [hread]
    have hlt := d.aid.toNat_lt
    omega
  have htyp : jll (dumps d) "typ" = d.typ := by
    have hread := jll_dumps (d := d) (k := "typ") (z := d.typ) (by decide)
      (by simp [Doc.numbers, List.lookup_cons, ascii])
    rw [hread]
    have hpos := h.typ_pos
    have hle := h.typ_le
    omega
  have hsev : jll (dumps d) "sev" = d.sev := by
    have hread := jll_dumps (d := d) (k := "sev") (z := d.sev) (by decide)
      (by simp [Doc.numbers, List.lookup_cons, ascii])
    rw [hread]
    have hpos := h.sev_pos
    have hle := h.sev_le
    omega
  have hst : jll (dumps d) "st" = st_code d.st := by
    have hread := jll_dumps (d := d) (k := "st") (z := st_code d.st) (by decide)
      (by simp [Doc.numbers, List.lookup_cons, ascii])
    rw [hread]
    cases d.st <;> decide
  have hmmsi : jll (dumps d) "mmsi" = max (-2 ^ 63) (min (2 ^ 63 - 1) d.mmsi) :=
    jll_dumps (by decide) (by simp [Doc.numbers, List.lookup_cons, ascii])
  have hmmsi2 : jll (dumps d) "mmsi2" = max (-2 ^ 63) (min (2 ^ 63 - 1) d.mmsi2) :=
    jll_dumps (by decide) (by simp [Doc.numbers, List.lookup_cons, ascii])
  refine ⟨readAlert (dumps d), ?_, ?_, ?_, ?_, ?_, ?_, ?_, ?_, ?_⟩
  · have htyp' : 1 ≤ UInt8.ofInt d.typ ∧ UInt8.ofInt d.typ ≤ 7 := by
      have hall : ∀ z ∈ Finset.Icc (1 : ℤ) 7, 1 ≤ UInt8.ofInt z ∧ UInt8.ofInt z ≤ 7 := by decide
      exact hall _ (Finset.mem_Icc.2 ⟨h.typ_pos, h.typ_le⟩)
    have hsev' : 1 ≤ UInt8.ofInt d.sev ∧ UInt8.ofInt d.sev ≤ 3 := by
      have hall : ∀ z ∈ Finset.Icc (1 : ℤ) 3, 1 ≤ UInt8.ofInt z ∧ UInt8.ofInt z ≤ 3 := by decide
      exact hall _ (Finset.mem_Icc.2 ⟨h.sev_pos, h.sev_le⟩)
    have hst' : 1 ≤ UInt8.ofInt (st_code d.st) ∧ UInt8.ofInt (st_code d.st) ≤ 3 := by
      cases d.st <;> decide
    have htpos := h.t_pos
    have haid' := ofInt_toNat d.aid
    refine if_pos ?_
    unfold readAlert
    dsimp only
    rw [ht, haid, htyp, hsev, hst, haid']
    exact ⟨by omega, h.aid_ne, htyp'.1, htyp'.2, hsev'.1, hsev'.2, hst'.1, hst'.2⟩
  · show UInt32.ofInt _ = _
    rw [haid, ofInt_toNat]
  · exact congrArg UInt8.ofInt htyp
  · exact congrArg UInt8.ofInt hsev
  · show UInt8.ofInt _ = _
    rw [hst]
    cases d.st <;> rfl
  · exact congrArg UInt32.ofInt hmmsi
  · exact congrArg UInt32.ofInt hmmsi2
  · exact (jstr_msg h.msg_ge 95).trans (List.take_of_length_le h.msg_le)
  · exact (jstr_reco h.reco_ge 127).trans (List.take_of_length_le h.reco_le)

end Bewe.Guard

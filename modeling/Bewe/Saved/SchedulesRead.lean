import Bewe.Saved.MissionsRead
import Bewe.Saved.Schedules

/-!
# Reading back the saved schedules

What `load_schedules_from_json` makes of the text that `save_schedules_to_json` writes. `JScan` takes
a number by its bytes, so `inf` and `nan` are no numbers to it, and whatever it reads is finite
(`finiteMap_load`). Where the numbers that were written are finite, every entry comes back as
`SchedSyncEntry.reread` says, and `restart_eq` says what is left of every station.
-/

namespace Bewe.Saved

open Lib
open EmitterDb (quote comma colon openBrace closeBrace openBracket closeBracket member object)

/-! ## Finite numbers -/

/-- A number, neither infinite nor a NaN. -/
def IsFinite {p : ℕ} : Fp p → Prop
  | .fin _ _ => True
  | _ => False

/-- An entry with finite numbers. -/
structure SchedSyncEntry.Finite (e : SchedSyncEntry) : Prop where
  duration_sec : IsFinite e.duration_sec
  freq_mhz : IsFinite e.freq_mhz
  bw_khz : IsFinite e.bw_khz

theorem isFinite_cast {p p' : ℕ} {x : Fp p} (h : IsFinite x) (hp' : 0 < p') :
    IsFinite (x.cast hp') := by
  cases x with
  | fin q hq => trivial
  | inf neg => exact h.elim
  | nan neg => exact h.elim

/-- The letters of `inf` and `nan` are not among the bytes of a number. -/
theorem dropWord_of_isNumByte {s : Bytes} (hs : ∀ c ∈ s, isNumByte c = true) :
    dropWord infinityText s = none ∧ dropWord infText s = none ∧ dropWord nanText s = none := by
  cases s with
  | nil => decide
  | cons c s =>
    have hc : ∀ c, isNumByte c = true → lowerLetter c ≠ 105 ∧ lowerLetter c ≠ 110 := by
      intro c hc
      by_cases hd : isDigit c = true
      · obtain ⟨d, hd, rfl⟩ := exists_digitByte hd
        clear hc
        revert d
        decide
      · simp only [isNumByte, hd, Bool.or_eq_true, decide_eq_true_eq, Bool.false_eq_true,
          or_false] at hc
        rcases hc with (((rfl | rfl) | rfl) | rfl) | rfl <;> decide
    obtain ⟨h1, h2⟩ := hc c (hs c (by simp))
    simp [dropWord, infinityText, infText, nanText, h1, h2]

/-- The bytes of a number denote one. -/
theorem isFinite_strtod {s : Bytes} (hs : ∀ c ∈ s, isNumByte c = true) :
    IsFinite (strtod s).1 := by
  have hspace : s.dropWhile isSpace = s := by
    cases s with
    | nil => rfl
    | cons c s =>
      have hc : isSpace c = false := by
        by_contra h
        have hnum := hs c (by simp)
        simp only [isSpace, Bool.not_eq_false, Bool.or_eq_true, Bool.and_eq_true,
          decide_eq_true_eq] at h
        simp only [isNumByte, isDigit, Bool.or_eq_true, Bool.and_eq_true, decide_eq_true_eq,
          UInt8.le_iff_toNat_le, ← UInt8.toNat_inj, minusByte, plusByte, dotByte, expByte] at h hnum
        simp at h hnum
        omega
      rw [List.dropWhile_cons, hc]
      rfl
  have hsign : ∀ c ∈ (readSign s).2, isNumByte c = true := by
    intro c hc
    cases s with
    | nil => exact hs c hc
    | cons d s =>
      rw [readSign] at hc
      split_ifs at hc
      · exact hs c (List.mem_cons_of_mem _ hc)
      · exact hs c (List.mem_cons_of_mem _ hc)
      · exact hs c hc
  obtain ⟨h1, h2, h3⟩ := dropWord_of_isNumByte hsign
  simp only [strtod, hspace, h1, h2, h3, Option.orElse_none]
  split <;> trivial

theorem isFinite_numberOr0 (t : Bytes) : IsFinite (numberOr0 (JScan.readNumber t)) := by
  simp only [numberOr0, JScan.readNumber]
  split_ifs
  · trivial
  · exact isFinite_strtod fun c hc => List.mem_takeWhile_imp hc

/-- A field that is read leaves the numbers of an entry finite. -/
theorem finite_schedField {e : SchedSyncEntry} (h : e.Finite) (key t : Bytes) :
    (schedField key e t).1.Finite := by
  have hn := isFinite_numberOr0 t
  unfold schedField
  split_ifs
  · exact ⟨h.1, h.2, h.3⟩
  · exact ⟨isFinite_cast hn _, h.2, h.3⟩
  · exact ⟨h.1, isFinite_cast hn _, h.3⟩
  · exact ⟨h.1, h.2, isFinite_cast hn _⟩
  · exact ⟨h.1, h.2, h.3⟩
  · exact ⟨h.1, h.2, h.3⟩
  · exact ⟨h.1, h.2, h.3⟩
  · exact ⟨h.1, h.2, h.3⟩
  · exact ⟨h.1, h.2, h.3⟩
  · exact h

theorem finite_readEntry (fuel : ℕ) {e : SchedSyncEntry} (h : e.Finite) (t : Bytes) :
    (readEntry fuel e t).1.Finite := by
  induction fuel generalizing e t with
  | zero => exact h
  | succ n ih =>
    rw [readEntry]
    rcases JScan.readKey t with ⟨_ | k, t⟩
    · exact h
    · simp only
      split_ifs
      · exact finite_schedField h k t
      · exact ih (finite_schedField h k t) _

/-- An entry before anything of it is read. -/
theorem finite_start : ({ valid := 1 } : SchedSyncEntry).Finite := ⟨trivial, trivial, trivial⟩

theorem finite_readEntries (now : ℤ) (fuel : ℕ) {es : List SchedSyncEntry}
    (h : ∀ e ∈ es, e.Finite) (t : Bytes) : ∀ e ∈ (readEntries now fuel es t).1, e.Finite := by
  induction fuel generalizing es t with
  | zero => exact h
  | succ n ih =>
    rw [readEntries]
    split_ifs
    · exact h
    · rcases JScan.consume openBrace t with ⟨_ | _, t⟩
      · exact h
      · refine ih ?_ _
        split_ifs
        · exact h
        · intro e he
          rcases List.mem_append.1 he with he | he
          · exact h e he
          · rw [List.mem_singleton.1 he]
            exact finite_readEntry _ finite_start _

theorem finite_readStation (now : ℤ) (fuel : ℕ) {s : Station} (h : ∀ e ∈ s.entries, e.Finite)
    (t : Bytes) : ∀ e ∈ (readStation now fuel s t).1.entries, e.Finite := by
  induction fuel generalizing s t with
  | zero => exact h
  | succ n ih =>
    rw [readStation]
    rcases JScan.readKey t with ⟨_ | k, t⟩
    · exact h
    · simp only
      split_ifs
      · exact h
      · exact h
      · refine ih ?_ _
        exact h
      · exact finite_readEntries _ _ h _
      · exact ih (finite_readEntries _ _ h _) _
      · exact h
      · exact ih h _

/-- The packets of a map have only entries with finite numbers. -/
def FiniteMap (m : SchedMap) : Prop :=
  ∀ k p, m.find k = some (some p) → ∀ e ∈ p.entries, e.Finite

theorem finiteMap_keep {m : SchedMap} (h : FiniteMap m) {s : Station}
    (hs : ∀ e ∈ s.entries, e.Finite) : FiniteMap (m.keep s) := by
  unfold SchedMap.keep
  split_ifs
  · intro k p hk
    rw [StationMap.find_set] at hk
    split_ifs at hk
    · obtain rfl := Option.some.inj (Option.some.inj hk)
      intro e he
      rcases List.mem_append.1 (List.mem_of_mem_take he) with he | he
      · exact hs e he
      · rw [List.eq_of_mem_replicate he]
        exact ⟨trivial, trivial, trivial⟩
    · exact h k p hk
  · exact h

theorem finiteMap_readSchedStations (now : ℤ) (fuel : ℕ) {m : SchedMap} (h : FiniteMap m)
    (t : Bytes) : FiniteMap (readSchedStations now fuel m t) := by
  induction fuel generalizing m t with
  | zero => exact h
  | succ n ih =>
    rw [readSchedStations]
    split_ifs
    · exact h
    · rcases JScan.consume openBrace t with ⟨_ | _, t⟩
      · exact h
      · exact ih (finiteMap_keep h (finite_readStation now _ (by simp) _)) _

theorem finiteMap_load (now : ℤ) (file : Bytes) : FiniteMap (loadSchedulesFromJson now file) := by
  have hempty : FiniteMap StationMap.empty := fun k p hk => by simp at hk
  have hfile : ∀ fuel t, FiniteMap (readSchedFile now fuel t) := by
    intro fuel
    induction fuel with
    | zero => exact fun t => hempty
    | succ n ih =>
      intro t
      rw [readSchedFile]
      rcases JScan.readKey t with ⟨_ | k, t⟩
      · exact hempty
      · simp only
        split_ifs
        · rcases JScan.consume openBracket t with ⟨_ | _, u⟩
          · simp only
            rcases JScan.consume openBrace u with ⟨_ | _, v⟩
            · exact hempty
            · exact ih _
          · exact ih _
        · rcases JScan.consume openBracket t with ⟨_ | _, u⟩
          · exact hempty
          · exact finiteMap_readSchedStations now _ hempty _
  unfold loadSchedulesFromJson
  rcases JScan.consume openBrace file with ⟨_ | _, t⟩
  · exact hempty
  · exact hfile _ t

/-! ## Values -/

/-- An entry after it has been written and read, its numbers finite. -/
def SchedSyncEntry.reread (e : SchedSyncEntry) : SchedSyncEntry where
  valid := 1
  status := e.status
  op_index := e.op_index
  start_time := Int64.ofInt (reread64 e.start_time.toInt)
  duration_sec := (e.duration_sec.decimal 3).cast float_pos
  freq_mhz := (e.freq_mhz.decimal 6).cast float_pos
  bw_khz := (e.bw_khz.decimal 3).cast float_pos
  operator_name := copyName (e.operator_name.str.flatMap rescanned)
  target := copyName (e.target.str.flatMap rescanned)
  sr_hz := e.sr_hz

theorem isNumByte_of_mem_fmt {p : ℕ} {n : ℕ} {x : Fp p} (hx : IsFinite x) {c : UInt8}
    (h : c ∈ x.fmt n) : isNumByte c = true := by
  cases x with
  | fin q hq =>
    rw [Fp.fmt, fmtFixed, List.mem_append, List.mem_append] at h
    rcases h with (h | h) | h
    · exact isNumByte_of_mem_signText h
    · exact isNumByte_of_isDigit (isDigit_of_mem_natText h)
    · split_ifs at h
      · simp at h
      · rcases List.mem_cons.1 h with rfl | h
        · decide
        · exact isNumByte_of_isDigit (isDigit_of_mem_padDigits h)
  | inf neg => exact hx.elim
  | nan neg => exact hx.elim

theorem isSep_of_isNumByte {c : UInt8} (h : isNumByte c = true) : isSep c = false := by
  by_contra hc
  simp only [isSep, Bool.not_eq_false, Bool.or_eq_true, decide_eq_true_eq] at hc
  rcases hc with (((rfl | rfl) | rfl) | rfl) | rfl <;> exact absurd h (by decide)

namespace JScan

/-- What starts with no separator is not passed over. -/
theorem skipWs_cons {c : UInt8} (h : isSep c = false) (t : Bytes) : skipWs (c :: t) = c :: t := by
  rw [skipWs, List.dropWhile_cons, h]
  rfl

theorem readString_quoted (s t : Bytes) :
    readString (quoted s ++ t) = (some (s.flatMap rescanned), t) := by
  have hcons : quoted s ++ t = quote :: (jsonEscape s ++ quote :: t) := by simp [quoted]
  rw [hcons, readString, skipWs_cons (by decide)]
  simp [scanChars_jsonEscape]

end JScan

/-- The text of a number: its bytes are those of one, and it denotes the value. -/
structure NumText (s : Bytes) (v : Fp 53) : Prop where
  bytes : ∀ c ∈ s, isNumByte c = true
  ne_nil : s ≠ []
  value : strtod s = (v, [])

theorem numText_nat (n : ℕ) : NumText (natText n) (Fp.ofRat (by norm_num) n) where
  bytes c hc := isNumByte_of_isDigit (isDigit_of_mem_natText hc)
  ne_nil := natText_ne_nil n
  value := by simpa using strtod_natText n endsNumber_nil

theorem numText_int (z : ℤ) : NumText (intText z) (Fp.ofRat (by norm_num) z) where
  bytes c hc := isNumByte_of_mem_intText hc
  ne_nil := intText_ne_nil z
  value := by simpa using strtod_intText z endsNumber_nil

theorem numText_fmt {p n : ℕ} (hn : 0 < n) {x : Fp p} (hx : IsFinite x) :
    NumText (x.fmt n) (x.decimal n) where
  bytes c hc := isNumByte_of_mem_fmt hx hc
  ne_nil := by
    obtain ⟨c, r, h, -⟩ := plain_fmt n x
    rw [h]
    exact List.cons_ne_nil c r
  value := by simpa using strtod_fmt hn x endsNumber_nil

/-- A number is read up to the end of its bytes. -/
theorem NumText.readNumber {s t : Bytes} {v : Fp 53} (h : NumText s v) (ht : EndsMember t) :
    JScan.readNumber (s ++ t) = (some v, t) := by
  have hskip : JScan.skipWs (s ++ t) = s ++ t := by
    obtain ⟨c, r, hcr⟩ := List.exists_cons_of_ne_nil h.ne_nil
    have hc := isSep_of_isNumByte (h.bytes c (by rw [hcr]; simp))
    rw [hcr]
    exact JScan.skipWs_cons hc _
  obtain ⟨c, r, rfl, hc⟩ := ht
  have hend : isNumByte c = false := by rcases hc with rfl | rfl <;> decide
  have htake : (s ++ c :: r).takeWhile isNumByte = s := by
    rw [List.takeWhile_append_of_pos h.bytes]
    simp [hend]
  have hdrop : (s ++ c :: r).dropWhile isNumByte = c :: r := by
    rw [List.dropWhile_append_of_pos h.bytes]
    simp [hend]
  simp only [JScan.readNumber, hskip, htake, hdrop, h.ne_nil, if_false, h.value]

theorem reread64_dword (c : UInt32) : UInt32.ofInt (reread64 c.toNat) = c := by
  have hlt : c.toNat < 4294967296 := c.toNat_lt
  have hmod : ((c.toNat : ℤ) % 4294967296).toNat = c.toNat := by omega
  rw [reread64_of_abs_le (by rw [abs_of_nonneg (by positivity)]; omega)]
  simp [UInt32.ofInt, hmod]

/-! ## Members -/

/-- A member of an entry: its key, the text of its value, and what reading it does. -/
structure SchedItem where
  key : String
  text : Bytes
  set : SchedSyncEntry → SchedSyncEntry

/-- Reading the value of an item sets its field and ends behind it. -/
structure SchedItem.Reads (i : SchedItem) : Prop where
  key_plain : (ascii i.key).flatMap rescanned = ascii i.key ∧ jsonEscape (ascii i.key) = ascii i.key
  read : ∀ e t, EndsMember t → schedField (ascii i.key) e (i.text ++ t) = (i.set e, t)

/-- An item with a number is read by the branch of its key. -/
theorem reads_number {key : String} {s : Bytes} {v : Fp 53}
    (set : Fp 53 → SchedSyncEntry → SchedSyncEntry)
    (hset : ∀ r t, schedField (ascii key) r t =
      (set (numberOr0 (JScan.readNumber t)) r, (JScan.readNumber t).2))
    (hkey : (ascii key).flatMap rescanned = ascii key ∧ jsonEscape (ascii key) = ascii key)
    (hs : NumText s v) : SchedItem.Reads ⟨key, s, set v⟩ where
  key_plain := hkey
  read r t ht := by
    rw [hset, hs.readNumber ht]
    rfl

/-- An item with a string is read by the branch of its key. -/
theorem reads_string {key : String} (s : Bytes) (set : Bytes → SchedSyncEntry → SchedSyncEntry)
    (hset : ∀ r t, schedField (ascii key) r t =
      (set ((JScan.readString t).1.getD []) r, (JScan.readString t).2))
    (hkey : (ascii key).flatMap rescanned = ascii key ∧ jsonEscape (ascii key) = ascii key) :
    SchedItem.Reads ⟨key, quoted s, set (s.flatMap rescanned)⟩ where
  key_plain := hkey
  read r t _ := by
    rw [hset, JScan.readString_quoted]
    rfl

/-- The items of an entry. -/
def schedItems (e : SchedSyncEntry) : List SchedItem :=
  [⟨"start_time", intText e.start_time.toInt, fun r =>
      { r with start_time := Int64.ofInt (reread64 e.start_time.toInt) }⟩,
    ⟨"duration_sec", e.duration_sec.fmt 3, fun r =>
      { r with duration_sec := (e.duration_sec.decimal 3).cast float_pos }⟩,
    ⟨"freq_mhz", e.freq_mhz.fmt 6, fun r =>
      { r with freq_mhz := (e.freq_mhz.decimal 6).cast float_pos }⟩,
    ⟨"bw_khz", e.bw_khz.fmt 3, fun r =>
      { r with bw_khz := (e.bw_khz.decimal 3).cast float_pos }⟩,
    ⟨"sr_hz", natText e.sr_hz.toNat, fun r =>
      { r with sr_hz := UInt32.ofInt (reread64 e.sr_hz.toNat) }⟩,
    ⟨"status", natText e.status.toNat, fun r =>
      { r with status := UInt8.ofInt (reread64 e.status.toNat) }⟩,
    ⟨"op_index", natText e.op_index.toNat, fun r =>
      { r with op_index := UInt8.ofInt (reread64 e.op_index.toNat) }⟩,
    ⟨"operator_name", quoted e.operator_name.str, fun r =>
      { r with operator_name := copyName (e.operator_name.str.flatMap rescanned) }⟩,
    ⟨"target", quoted e.target.str, fun r =>
      { r with target := copyName (e.target.str.flatMap rescanned) }⟩]

theorem schedMembers_eq (e : SchedSyncEntry) :
    schedMembers e = (schedItems e).map fun i => (i.key, i.text) := rfl

/-- The keys of an entry are read as they are, and so is each of its values. -/
theorem reads_schedItems {e : SchedSyncEntry} (he : e.Finite) : ∀ i ∈ schedItems e, i.Reads := by
  intro i hi
  simp only [schedItems, List.mem_cons, List.not_mem_nil, or_false] at hi
  rcases hi with rfl | rfl | rfl | rfl | rfl | rfl | rfl | rfl | rfl
  · exact reads_number (fun v r => { r with start_time := Int64.ofInt (toLongLong v) })
      (fun _ _ => rfl) (by decide) (numText_int _)
  · exact reads_number (fun v r => { r with duration_sec := v.cast (by norm_num) })
      (fun _ _ => rfl) (by decide) (numText_fmt (by norm_num) he.duration_sec)
  · exact reads_number (fun v r => { r with freq_mhz := v.cast (by norm_num) })
      (fun _ _ => rfl) (by decide) (numText_fmt (by norm_num) he.freq_mhz)
  · exact reads_number (fun v r => { r with bw_khz := v.cast (by norm_num) })
      (fun _ _ => rfl) (by decide) (numText_fmt (by norm_num) he.bw_khz)
  · exact reads_number (fun v r => { r with sr_hz := UInt32.ofInt (toLongLong v) })
      (fun _ _ => rfl) (by decide) (numText_nat _)
  · exact reads_number (fun v r => { r with status := UInt8.ofInt (toLongLong v) })
      (fun _ _ => rfl) (by decide) (numText_nat _)
  · exact reads_number (fun v r => { r with op_index := UInt8.ofInt (toLongLong v) })
      (fun _ _ => rfl) (by decide) (numText_nat _)
  · exact reads_string _ (fun s r => { r with operator_name := copyName s }) (fun _ _ => rfl)
      (by decide)
  · exact reads_string _ (fun s r => { r with target := copyName s }) (fun _ _ => rfl) (by decide)

/-- Reading all items of an entry sets all fields. -/
theorem foldl_schedItems (e : SchedSyncEntry) :
    (schedItems e).foldl (fun r i => i.set r) { valid := 1 } = e.reread := by
  calc (schedItems e).foldl (fun r i => i.set r) { valid := 1 }
    _ = { e.reread with
          sr_hz := UInt32.ofInt (reread64 e.sr_hz.toNat)
          status := UInt8.ofInt (reread64 e.status.toNat)
          op_index := UInt8.ofInt (reread64 e.op_index.toNat) } := rfl
    _ = e.reread := by
      rw [reread64_dword, reread64_byte, reread64_byte]
      rfl

/-! ## Loops -/

namespace JScan

/-- A key that has been written is read. -/
theorem readKey_quoted (s t : Bytes) :
    readKey (quoted s ++ colon :: t) = (some (s.flatMap rescanned), t) := by
  rw [readKey, readString_quoted]
  simp [skipWs_cons (show isSep colon = false by decide)]

theorem consume_cons {c : UInt8} (h : isSep c = false) (t : Bytes) :
    consume c (c :: t) = (true, t) := by
  simp [consume, skipWs_cons h]

end JScan

theorem readKey_member {i : SchedItem} (hi : i.Reads) (t : Bytes) :
    JScan.readKey (member i.key i.text ++ t) = (some (ascii i.key), i.text ++ t) := by
  obtain ⟨⟨hkey, hesc⟩, -⟩ := hi
  have hmember : member i.key i.text ++ t = quoted (ascii i.key) ++ colon :: (i.text ++ t) := by
    simp [member, quoted, hesc]
  rw [hmember, JScan.readKey_quoted, hkey]

/-- The loop reads the members of an entry, one after the other. -/
theorem readEntry_items (is : List SchedItem) (h : ∀ i ∈ is, i.Reads) (hne : is ≠ []) (t : Bytes)
    {fuel : ℕ} (hf : is.length ≤ fuel) (e : SchedSyncEntry) :
    readEntry fuel e
        (List.intercalate [comma] (is.map fun i => member i.key i.text) ++ closeBrace :: t) =
      (is.foldl (fun r i => i.set r) e, closeBrace :: t) := by
  induction is generalizing fuel e with
  | nil => exact absurd rfl hne
  | cons i is ih =>
    obtain ⟨n, rfl⟩ : ∃ n, fuel = n + 1 := ⟨fuel - 1, by simp at hf; omega⟩
    have hi := h i (by simp)
    cases is with
    | nil =>
      simp only [List.map_cons, List.map_nil, List.intercalate_singleton]
      rw [readEntry, readKey_member hi]
      simp only [hi.read e _ ⟨closeBrace, t, rfl, Or.inr rfl⟩]
      rfl
    | cons j is =>
      obtain ⟨n, rfl⟩ : ∃ k, n = k + 1 := ⟨n - 1, by simp at hf; omega⟩
      have hquote : ∃ u, List.intercalate [comma] ((j :: is).map fun i => member i.key i.text) ++
          closeBrace :: t = quote :: u := by
        cases is <;> exact ⟨_, rfl⟩
      obtain ⟨u, hu⟩ := hquote
      have hrest := ih (fun i' hi' => h i' (List.mem_cons_of_mem _ hi')) (by simp)
        (show (j :: is).length ≤ n + 1 by simpa using hf) (i.set e)
      rw [hu] at hrest
      simp only [List.map_cons] at hu ⊢
      rw [List.intercalate_cons_cons, List.append_assoc, List.append_assoc, hu, readEntry,
        readKey_member hi]
      simp only [List.singleton_append, hi.read e _ ⟨comma, quote :: u, rfl, Or.inl rfl⟩]
      -- the comma is passed over with the white space
      have hpeek : JScan.peek closeBrace (comma :: quote :: u) = false := rfl
      have hcomma : readEntry (n + 1) (i.set e) (comma :: quote :: u) =
          readEntry (n + 1) (i.set e) (quote :: u) := rfl
      rw [hpeek, hcomma, hrest]
      rfl

/-- An entry is read back up to its closing brace. -/
theorem readEntry_entry {e : SchedSyncEntry} (he : e.Finite) (t : Bytes) {fuel : ℕ}
    (hf : 9 ≤ fuel) :
    readEntry fuel { valid := 1 }
        (List.intercalate [comma] ((schedMembers e).map fun m => member m.1 m.2) ++
          closeBrace :: t) =
      (e.reread, closeBrace :: t) := by
  rw [schedMembers_eq, List.map_map, ← foldl_schedItems]
  exact readEntry_items (schedItems e) (reads_schedItems he) (by simp [schedItems]) t hf _

/-- An entry is longer than it has members. -/
theorem length_schedEntry (e : SchedSyncEntry) :
    9 ≤ (List.intercalate [comma] ((schedMembers e).map fun m => member m.1 m.2)).length := by
  have hne : ∀ x ∈ (schedMembers e).map fun m => member m.1 m.2, x ≠ [] := by
    intro x hx
    obtain ⟨m, -, rfl⟩ := List.mem_map.1 hx
    simp [member]
  exact length_le_intercalate [comma] hne

/-- An entry that is read goes behind the others, unless its end is past. -/
def addEntry (now : ℤ) (es : List SchedSyncEntry) (e : SchedSyncEntry) : List SchedSyncEntry :=
  if e.isPast now then es else es ++ [e]

theorem foldl_addEntry (now : ℤ) (es es' : List SchedSyncEntry) :
    es'.foldl (addEntry now) es = es ++ es'.filter fun e => !e.isPast now := by
  induction es' generalizing es with
  | nil => simp
  | cons e es' ih =>
    rw [List.foldl_cons, ih, addEntry]
    cases h : e.isPast now <;> simp [h]

/-- One turn of the loop reads one entry. -/
theorem readEntries_step (now : ℤ) (fuel : ℕ) (es : List SchedSyncEntry) {e : SchedSyncEntry}
    (he : e.Finite) (t : Bytes) :
    readEntries now (fuel + 1) es (schedEntryText e ++ t) =
      readEntries now fuel (addEntry now es e.reread) t := by
  have hlen := length_schedEntry e
  have hobj : schedEntryText e ++ t =
      openBrace :: (List.intercalate [comma] ((schedMembers e).map fun m => member m.1 m.2) ++
        closeBrace :: t) := by
    simp [schedEntryText, object]
  have hpeek : ∀ u, JScan.peek closeBracket (openBrace :: u) = false := fun u => rfl
  rw [hobj, readEntries, hpeek, JScan.consume_cons (by decide)]
  simp only [Bool.false_eq_true, if_false]
  rw [readEntry_entry he t (by simp; omega), JScan.consume_cons (by decide)]
  rfl

/-- The loop reads the entries of a station, up to the closing bracket. -/
theorem readEntries_entries (now : ℤ) (es' : List SchedSyncEntry) (h : ∀ e ∈ es', e.Finite)
    (t : Bytes) {fuel : ℕ} (hf : es'.length < fuel) (es : List SchedSyncEntry) :
    readEntries now fuel es
        (List.intercalate [comma] (es'.map schedEntryText) ++ closeBracket :: t) =
      ((es'.map SchedSyncEntry.reread).foldl (addEntry now) es, closeBracket :: t) := by
  induction es' generalizing fuel es with
  | nil =>
    obtain ⟨n, rfl⟩ : ∃ n, fuel = n + 1 := ⟨fuel - 1, by simp at hf; omega⟩
    rfl
  | cons e es' ih =>
    obtain ⟨n, rfl⟩ : ∃ n, fuel = n + 1 := ⟨fuel - 1, by simp at hf; omega⟩
    rw [List.forall_mem_cons] at h
    have hlen : es'.length < n := by simpa using hf
    have hes := ih h.2 hlen (addEntry now es e.reread)
    cases es' with
    | nil =>
      simp only [List.map_cons, List.map_nil, List.intercalate_singleton]
      rw [readEntries_step now n es h.1]
      exact hes
    | cons e' es' =>
      obtain ⟨n, rfl⟩ : ∃ k, n = k + 1 := ⟨n - 1, by simp at hlen; omega⟩
      have hcomma : ∀ u, readEntries now (n + 1) (addEntry now es e.reread) (comma :: u) =
          readEntries now (n + 1) (addEntry now es e.reread) u := fun u => rfl
      simp only [List.map_cons] at hes ⊢
      rw [List.intercalate_cons_cons, List.append_assoc, List.append_assoc, List.singleton_append,
        readEntries_step now _ es h.1, hcomma, hes]
      rfl

/-! ## Stations -/

/-- The id that is read for a station whose key has been written. -/
def rescanId (sid : Bytes) : Bytes := (cStr sid).flatMap rescanned

/-- A station as it is read back. -/
def rereadStation (now : ℤ) (ke : Bytes × List SchedSyncEntry) : Station where
  sid := rescanId ke.1
  entries := (ke.2.map SchedSyncEntry.reread).filter fun e => !e.isPast now

/-- The loop over the members of a station reads its id. -/
theorem readStation_id (now : ℤ) (fuel : ℕ) (s : Station) (sid t : Bytes) :
    readStation now (fuel + 1) s
        (quoted (ascii "station_id") ++ colon :: (quoted sid ++ comma :: quote :: t)) =
      readStation now fuel { s with sid := sid.flatMap rescanned } (comma :: quote :: t) := by
  have hkey : (ascii "station_id").flatMap rescanned = ascii "station_id" := by decide
  have hne : ¬ ascii "station_id" = ascii "entries" := by decide
  have hpeek : JScan.peek closeBrace (comma :: quote :: t) = false := rfl
  rw [readStation, JScan.readKey_quoted, hkey]
  simp only [hne, false_and, if_false, if_true, JScan.readString_quoted, hpeek, Option.getD_some,
    Bool.false_eq_true]

/-- The loop over the members of a station reads its entries. -/
theorem readStation_entries {now : ℤ} (fuel : ℕ) {s : Station} {body t : Bytes}
    {es : List SchedSyncEntry}
    (h : readEntries now (body.length + 1) s.entries body =
      (es, closeBracket :: closeBrace :: t)) :
    readStation now (fuel + 1) s
        (comma :: (quoted (ascii "entries") ++ colon :: openBracket :: body)) =
      ({ s with entries := es }, closeBrace :: t) := by
  have hkey : (ascii "entries").flatMap rescanned = ascii "entries" := by decide
  have hne : ¬ ascii "entries" = ascii "station_id" := by decide
  have hcomma : ∀ u, readStation now (fuel + 1) s (comma :: u) = readStation now (fuel + 1) s u :=
    fun u => rfl
  have hopen : JScan.consume openBracket (openBracket :: body) = (true, body) :=
    JScan.consume_cons (by decide) _
  have hclose : JScan.consume closeBracket (closeBracket :: closeBrace :: t) =
      (true, closeBrace :: t) := JScan.consume_cons (by decide) _
  have hpeek : JScan.peek closeBrace (closeBrace :: t) = true := rfl
  have hskip : JScan.skipWs (closeBrace :: t) = closeBrace :: t := rfl
  rw [hcomma, readStation, JScan.readKey_quoted, hkey]
  simp only [hopen, hne, h, hclose, hpeek, hskip, Bool.true_eq_false, and_false, if_false, if_true]

/-- One turn of the loop reads one station. -/
theorem readSchedStations_step (now : ℤ) (fuel : ℕ) (m : SchedMap)
    (ke : Bytes × List SchedSyncEntry) (h : ∀ e ∈ ke.2, e.Finite) (t : Bytes) :
    readSchedStations now (fuel + 1) m (schedStationText ke.1 ke.2 ++ t) =
      readSchedStations now fuel (m.keep (rereadStation now ke)) t := by
  obtain ⟨sid, es⟩ := ke
  generalize hbody : List.intercalate [comma] (es.map schedEntryText) ++
    closeBracket :: (closeBrace :: t) = body
  have htext : schedStationText sid es ++ t =
      ascii "    " ++ openBrace :: (quoted (ascii "station_id") ++ colon :: (quoted (cStr sid) ++
        comma :: (quoted (ascii "entries") ++ colon :: (openBracket :: body)))) := by
    have hid : ascii "\"station_id\":" = quoted (ascii "station_id") ++ [colon] := by decide
    have hkey : ascii ",\"entries\":[" = comma :: (quoted (ascii "entries") ++ [colon, openBracket]) :=
      by decide
    rw [← hbody, schedStationText, hid, hkey]
    simp
  have hlen : es.length < body.length + 1 := by
    have hne : ∀ x ∈ es.map schedEntryText, x ≠ [] := by
      intro x hx
      obtain ⟨e, -, rfl⟩ := List.mem_map.1 hx
      simp [schedEntryText, object]
    have hle := length_le_intercalate [comma] hne
    rw [List.length_map] at hle
    rw [← hbody, List.length_append]
    omega
  have hentries : readEntries now (body.length + 1) [] body =
      ((es.map SchedSyncEntry.reread).foldl (addEntry now) [], closeBracket :: closeBrace :: t) := by
    have hread := readEntries_entries now es h (closeBrace :: t) hlen []
    rwa [hbody] at hread
  have hstation : ∀ n, readStation now (n + 2) {} (quoted (ascii "station_id") ++ colon ::
      (quoted (cStr sid) ++ comma :: (quoted (ascii "entries") ++ colon :: openBracket :: body))) =
        (rereadStation now (sid, es), closeBrace :: t) := by
    intro n
    have hquote : ∃ u, quoted (ascii "entries") ++ colon :: openBracket :: body = quote :: u :=
      ⟨_, rfl⟩
    obtain ⟨u, hu⟩ := hquote
    rw [hu, readStation_id, ← hu, readStation_entries n hentries, foldl_addEntry]
    rfl
  have hopen : ∀ u, JScan.consume openBrace (ascii "    " ++ openBrace :: u) = (true, u) :=
    fun u => rfl
  have hpeek : ∀ u, JScan.peek closeBracket (ascii "    " ++ openBrace :: u) = false :=
    fun u => rfl
  rw [htext, readSchedStations, hpeek, hopen]
  simp only [Bool.false_eq_true, if_false]
  obtain ⟨n, hn⟩ : ∃ n, (quoted (ascii "station_id") ++ colon :: (quoted (cStr sid) ++ comma ::
      (quoted (ascii "entries") ++ colon :: openBracket :: body))).length + 1 = n + 2 :=
    ⟨_, rfl⟩
  rw [hn, hstation, JScan.consume_cons (by decide)]

/-- The loop reads all stations, up to the closing bracket. -/
theorem readSchedStations_stations (now : ℤ) (kes : List (Bytes × List SchedSyncEntry))
    (h : ∀ ke ∈ kes, ∀ e ∈ ke.2, e.Finite) (t : Bytes) {fuel : ℕ} (hf : kes.length < fuel)
    (m : SchedMap) :
    readSchedStations now fuel m
        (List.intercalate (ascii ",\n") (kes.map fun ke => schedStationText ke.1 ke.2) ++
          (ascii "\n  ]" ++ t)) =
      (kes.map (rereadStation now)).foldl SchedMap.keep m := by
  induction kes generalizing fuel m with
  | nil =>
    obtain ⟨n, rfl⟩ : ∃ n, fuel = n + 1 := ⟨fuel - 1, by simp at hf; omega⟩
    rfl
  | cons ke kes ih =>
    obtain ⟨n, rfl⟩ : ∃ n, fuel = n + 1 := ⟨fuel - 1, by simp at hf; omega⟩
    rw [List.forall_mem_cons] at h
    have hlen : kes.length < n := by simpa using hf
    have hrest := ih h.2 hlen (m.keep (rereadStation now ke))
    cases kes with
    | nil =>
      simp only [List.map_cons, List.map_nil, List.intercalate_singleton]
      rw [readSchedStations_step now n m ke h.1]
      exact hrest
    | cons ke' kes =>
      obtain ⟨n, rfl⟩ : ∃ k, n = k + 1 := ⟨n - 1, by simp at hlen; omega⟩
      have hgap : ∀ u, readSchedStations now (n + 1) (m.keep (rereadStation now ke))
          (ascii ",\n" ++ u) =
            readSchedStations now (n + 1) (m.keep (rereadStation now ke)) u := fun u => rfl
      simp only [List.map_cons] at hrest ⊢
      rw [List.intercalate_cons_cons, List.append_assoc, List.append_assoc,
        readSchedStations_step now _ m ke h.1, hgap, hrest]
      rfl

/-- After a restart there is what is read back of each station, where the numbers that were saved
are finite. -/
theorem SchedMap.restart_eq (now : ℤ) {m : SchedMap} (h : ∀ ke ∈ m.saved, ∀ e ∈ ke.2, e.Finite) :
    m.restart now = (m.saved.map (rereadStation now)).foldl SchedMap.keep StationMap.empty := by
  generalize hbody : List.intercalate (ascii ",\n")
    (m.saved.map fun ke => schedStationText ke.1 ke.2) ++
      (ascii "\n  ]" ++ (ascii "\n" ++ closeBrace :: ascii "\n")) = body
  have hlen : m.saved.length < body.length + 1 := by
    have hne : ∀ x ∈ m.saved.map fun ke => schedStationText ke.1 ke.2, x ≠ [] := by
      intro x hx
      obtain ⟨ke, -, rfl⟩ := List.mem_map.1 hx
      simp [schedStationText]
    have hle := length_le_intercalate (ascii ",\n") hne
    rw [List.length_map] at hle
    rw [← hbody, List.length_append]
    omega
  have hsave : saveSchedulesToJson m =
      openBrace :: (ascii "\n  " ++ (quoted (ascii "stations") ++ colon ::
        (ascii " " ++ openBracket :: (ascii "\n" ++ body)))) := by
    have hhead : ascii "\n  \"stations\": [\n" = ascii "\n  " ++ (quoted (ascii "stations") ++
      colon :: (ascii " " ++ openBracket :: ascii "\n")) := by decide
    have htail : ascii "\n  ]\n" = ascii "\n  ]" ++ ascii "\n" := by decide
    rw [← hbody, saveSchedulesToJson, hhead, htail]
    simp
  have hkey : (ascii "stations").flatMap rescanned = ascii "stations" := by decide
  have hsep : ∀ u, JScan.readKey (ascii "\n  " ++ (quoted (ascii "stations") ++ u)) =
      JScan.readKey (quoted (ascii "stations") ++ u) := fun u => rfl
  have hopen : ∀ u, JScan.consume openBracket (ascii " " ++ openBracket :: u) = (true, u) :=
    fun u => rfl
  have hgap : readSchedStations now ((ascii "\n" ++ body).length + 1) StationMap.empty
      (ascii "\n" ++ body) =
        readSchedStations now ((ascii "\n" ++ body).length + 1) StationMap.empty body := rfl
  have hmore : m.saved.length < (ascii "\n" ++ body).length + 1 := by
    rw [List.length_append]
    omega
  rw [SchedMap.restart, loadSchedulesFromJson, hsave, JScan.consume_cons (by decide)]
  simp only [readSchedFile, hsep, JScan.readKey_quoted, hkey, ne_eq, not_true_eq_false, if_false,
    hopen, hgap]
  rw [← hbody] at hmore ⊢
  exact readSchedStations_stations now m.saved h _ hmore _

end Bewe.Saved
